import CacheCPU.Decaf.TransPass2
import CacheCPU.Decaf.Value
import CacheCPU.Lib.ByteMemory

/-!
# Objects and arrays: the code for `new` over `_Alloc` of `user/libs/intrinsic.c`

Three-address code runs on the temporaries, the register that `MULT` writes, the memory and
`cur_size`, which is kept apart from the memory. What the other functions do is a parameter.
-/

namespace CacheCPU

namespace Decaf

namespace Heap

open ByteMemory

structure State where
  temps : Temp → BitVec 32
  lo : BitVec 32
  /-- The parameters for the next call. -/
  parms : List (BitVec 32)
  mem : BitVec 32 → BitVec 8
  curSize : BitVec 32

/-- What the code is linked with. -/
structure Linked where
  /-- The address of the buffer of `_Alloc`. -/
  buf : BitVec 32
  vtbl : String → BitVec 32
  strConst : String → BitVec 32
  call : Instr → State → Option State

def State.set (s : State) (dst : Temp) (v : BitVec 32) : State :=
  { s with temps := Function.update s.temps dst v }

def memBufSize : ℕ := 4096

/-- `_Alloc`, which gives the new `cur_size`; the block is at the old one. `none` is `exit`. -/
def alloc (curSize size : BitVec 32) : Option (BitVec 32) :=
  let size := size + ((4#32 - (size &&& 3#32)) &&& 3#32)
  let curSize := curSize + size
  if (BitVec.ofNat 32 memBufSize).slt curSize then none else some curSize

variable (L : Linked)

def exec : Instr → State → Option State
  | .binary op dst a b, s => (op.value (s.temps a) (s.temps b)).map (s.set dst)
  | .mult a b, s => some { s with lo := s.temps a * s.temps b }
  | .mflo dst, s => some (s.set dst s.lo)
  | .neg dst a, s => some (s.set dst (-s.temps a))
  | .lnot dst a, s => some (s.set dst (lnotValue (s.temps a)))
  | .assign dst a, s => some (s.set dst (s.temps a))
  | .loadVtbl dst vtbl, s => some (s.set dst (L.vtbl vtbl))
  | .loadStrConst dst value, s => some (s.set dst (L.strConst value))
  | .loadImm4 dst imm, s => some (s.set dst (BitVec.ofInt 32 imm))
  | .load dst base offset, s =>
    some (s.set dst (word (k := 30) s.mem (s.temps base + BitVec.ofInt 32 offset)))
  | .store src base offset, s =>
    let a := s.temps base + BitVec.ofInt 32 offset
    some { s with mem := putWord (k := 30) s.mem a (s.temps src) }
  | .parm src, s => some { s with parms := s.parms ++ [s.temps src] }
  | .directCall (some dst) func, s =>
    if func = Intrinsic.allocate.label then
      (alloc s.curSize (s.parms.headD 0#32)).map fun curSize =>
        { s.set dst (L.buf + s.curSize) with curSize := curSize, parms := [] }
    else L.call (.directCall (some dst) func) s
  | .directCall none func, s => L.call (.directCall none func) s
  | .indirectCall dst func, s => L.call (.indirectCall dst func) s

def machine : Machine State where
  exec := exec L
  zero t s := s.temps t = 0#32

/-! ## The code for `new` -/

/-- Code that stands between other code and leaves an address in a temporary. -/
structure Fragment where
  pre : List Tac
  body : List Tac
  post : List Tac
  result : Temp

namespace Fragment

variable (f : Fragment)

def code : List Tac := f.pre ++ f.body ++ f.post

/-- One step inside the fragment. -/
def Next (c c' : List Tac × State) : Prop :=
  f.post.length < c.1.length ∧
    (tacStep (machine L) f.code c = some (.silent c') ∨
      ∃ i, tacStep (machine L) f.code c = some (.emit i c'))

/-- From the beginning of the fragment. -/
def Arrives (s : State) (c : List Tac × State) : Prop :=
  Relation.ReflTransGen (f.Next L) (f.body ++ f.post, s) c

/-- The fragment comes to its end. -/
def Makes (s s' : State) : Prop := f.Arrives L s (f.post, s')

/-- The program is stopped in `_Alloc`. -/
def Full (s : State) : Prop :=
  ∃ dst rest s₁,
    f.Arrives L s (.instr (.directCall (some dst) Intrinsic.allocate.label) :: rest, s₁) ∧
      f.post.length ≤ rest.length ∧ alloc s₁.curSize (s₁.parms.headD 0#32) = none

end Fragment

/-- `new` of an array, in the code of a method with more code behind it, and of a class. -/
inductive Request where
  | newArray (g : Gen) (length : Temp) (post : List Tac)
  | newClass (g : Gen) (name vtbl : String) (size : ℤ)

namespace Request

/-- The code for `new`. -/
def Code : Request → Fragment → Prop
  | newArray g length post, f => ∃ g', (genNewArray length).run g = some (f.result, g') ∧
      f.pre = g.code ∧ g'.code = f.pre ++ f.body ∧ f.post = post
  | newClass g name vtbl size, f => ∃ g', (genNewForClass name vtbl size).run g = some ((), g') ∧
      f.pre = [] ∧ f.post = [.ret (some f.result)] ∧ g'.code = f.body ++ f.post

/-- The bytes that an array or an object takes, with the word in front of an array. -/
def bytes (s : State) : Request → ℕ
  | newArray _ length _ => 4 + 4 * (s.temps length).toNat
  | newClass _ _ _ size => size.toNat

/-- The first word: the length of an array, the virtual table of an object. -/
def first (s : State) : Request → BitVec 32
  | newArray _ length _ => s.temps length
  | newClass _ _ vtbl _ => L.vtbl vtbl

/-- Where the first word is. -/
def start (p : BitVec 32) : Request → BitVec 32
  | newArray _ _ _ => p - 4#32
  | newClass _ _ _ _ => p

/-- What the translater sees to, and that the length is not negative. A size is a pointer and some
words, in an `int`. -/
def Valid (s : State) : Request → Prop
  | newArray g length _ => length < g.nextTemp ∧ (∀ n, .mark (.num n) ∈ g.code → n < g.nextLabel) ∧
      s.parms = [] ∧ 0 ≤ (s.temps length).toInt
  | newClass _ _ _ size => s.parms = [] ∧ 0 < size ∧ size % WORD = 0 ∧ size < 2 ^ 31

end Request

end Heap

end Decaf

end CacheCPU
