import CacheCPU.Decaf.Tac
import Mathlib.Data.BitVec

/-!
# The values of operations

What `decaf/tac` computes with words of 32 bits: sums and products wrap around, and comparisons and
logical operations give 0 or 1.
-/

namespace CacheCPU

namespace Decaf

/-- A boolean in a word. -/
def truth (b : Bool) : BitVec 32 := if b then 1#32 else 0#32

/-- The quotient of the smallest number by `-1` is not a number. -/
def divides (a b : BitVec 32) : Bool := b ≠ 0#32 && !(a = BitVec.intMin 32 && b = -1#32)

/-- `none` where there is no value. -/
def BinaryOp.value (op : BinaryOp) (a b : BitVec 32) : Option (BitVec 32) :=
  match op with
  | .add => some (a + b)
  | .sub => some (a - b)
  | .mul => some (a * b)
  | .div => if divides a b then some (a.sdiv b) else none
  | .mod => if divides a b then some (a.srem b) else none
  | .land => some (truth (a ≠ 0#32 && b ≠ 0#32))
  | .lor => some (truth (a ≠ 0#32 || b ≠ 0#32))
  | .gtr => some (truth (b.slt a))
  | .geq => some (truth (b.sle a))
  | .equ => some (truth (a = b))
  | .neq => some (truth (a ≠ b))
  | .leq => some (truth (a.sle b))
  | .les => some (truth (a.slt b))

def lnotValue (a : BitVec 32) : BitVec 32 := truth (a = 0#32)

end Decaf

end CacheCPU
