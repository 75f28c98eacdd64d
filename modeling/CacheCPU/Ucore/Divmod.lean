import Mathlib.Data.Nat.Notation
import Mathlib.Logic.Function.Iterate

/-!
# Division without a divider

`divmod` of `kern/libs/divmod.h` for the emulated `div`, and `_Div` and `_Rem` of
`user/libs/intrinsic.c` for compiled programs. An `int` is a `BitVec 32` that is compared as a signed
number and wraps around.
-/

namespace CacheCPU

namespace Ucore

/-! ## `divmod` -/

/-- The variables of the loop. -/
structure Divider where
  a : BitVec 32
  r : BitVec 32
  q : BitVec 32

/-- One round of the loop. -/
def Divider.round (b : BitVec 32) (s : Divider) : Divider :=
  let r := s.r <<< 1 ||| s.a.sshiftRight 31 &&& 1#32
  let q := s.q <<< 1
  if b.sle r then ⟨s.a <<< 1, r - b, q ||| 1#32⟩ else ⟨s.a <<< 1, r, q⟩

def intMin : BitVec 32 := 0x80000000#32

/-- What is stored in `q_store` and `r_store`; `none` stands for the result -1. -/
def divmod (a b : BitVec 32) : Option (BitVec 32 × BitVec 32) :=
  if b = 0#32 then none
  else
    let signDiv := a.slt 0#32 ^^ b.slt 0#32
    let signMod := a.slt 0#32
    let s := (Divider.round (if b.slt 0#32 then -b else b))^[32]
      ⟨if a.slt 0#32 then -a else a, 0#32, 0#32⟩
    some (if signDiv then -s.q else s.q, if signMod then -s.r else s.r)

/-! ## `_Div` and `_Rem` -/

namespace Intrinsic

/-- The loop with `i` from `n - 1` down to 0. -/
def loop (xx yy : BitVec 32) : ℕ → BitVec 32 × BitVec 32 → BitVec 32 × BitVec 32
  | 0, s => s
  | i + 1, (quotient, remainder) =>
    let r := remainder <<< 1 ||| xx.sshiftRight i &&& 1#32
    loop xx yy i
      (if yy.sle r then (quotient ||| 1#32 <<< i, r - yy) else (quotient, r))

/-- `x > 0? x: -x`. -/
def magnitude (x : BitVec 32) : BitVec 32 := if (0#32).slt x then x else -x

def div (x y : BitVec 32) : BitVec 32 :=
  let quotient := (loop (magnitude x) (magnitude y) 32 (0#32, 0#32)).1
  if ((0#32).slt x && (0#32).slt y) || (x.slt 0#32 && y.slt 0#32) then quotient else -quotient

def rem (x y : BitVec 32) : BitVec 32 :=
  let remainder := (loop (magnitude x) (magnitude y) 32 (0#32, 0#32)).2
  if (0#32).slt x then remainder else -remainder

end Intrinsic

end Ucore

end CacheCPU
