import CacheCPU.Lib.Trace
import Mathlib.Data.Int.Notation

/-!
# Three-address code: `decaf/tac`

`MARK`, `RETURN` and the branches are kept apart from the operations. What an operation does to the
state of the machine, and which temporaries are zero, is a parameter of the execution.
-/

namespace CacheCPU

namespace Decaf

/-- A temporary, by its id. -/
abbrev Temp := ℕ

/-- A label with a name of its own, which is always a target, or `_L` with a number. -/
inductive Label where
  | func (name : String)
  | num (id : ℕ)
  deriving DecidableEq

inductive BinaryOp where
  | add
  | sub
  | mul
  | div
  | mod
  | land
  | lor
  | gtr
  | geq
  | equ
  | neq
  | leq
  | les
  deriving DecidableEq

/-- The operations. The offsets of `load` and `store` are constants. -/
inductive Instr where
  | binary (op : BinaryOp) (dst src1 src2 : Temp)
  | mult (src1 src2 : Temp)
  | mflo (dst : Temp)
  | neg (dst src : Temp)
  | lnot (dst src : Temp)
  | assign (dst src : Temp)
  | loadVtbl (dst : Temp) (vtbl : String)
  | indirectCall (dst : Option Temp) (func : Temp)
  | directCall (dst : Option Temp) (func : String)
  | load (dst base : Temp) (offset : ℤ)
  | store (src base : Temp) (offset : ℤ)
  | loadImm4 (dst : Temp) (imm : ℤ)
  | loadStrConst (dst : Temp) (value : String)
  | parm (src : Temp)
  deriving DecidableEq

inductive Tac where
  | instr (i : Instr)
  | ret (src : Option Temp)
  | branch (label : Label)
  | beqz (cond : Temp) (label : Label)
  | bnez (cond : Temp) (label : Label)
  | mark (label : Label)
  deriving DecidableEq

namespace Tac

def isMark : Tac → Bool
  | .mark _ => true
  | _ => false

def isInstr : Tac → Bool
  | .instr _ => true
  | _ => false

/-- `RETURN`, `BRANCH`, `BEQZ` and `BNEZ`. -/
def isEnd : Tac → Bool
  | .instr _ => false
  | .mark _ => false
  | _ => true

/-- The label that the code may go to from here. -/
def target : Tac → Option Label
  | .branch l => some l
  | .beqz _ l => some l
  | .bnez _ l => some l
  | _ => none

end Tac

/-- What the operations do to a state, `none` where they do not come back, and which temporaries are
zero in it. -/
structure Machine (σ : Type) where
  exec : Instr → σ → Option σ
  zero : Temp → σ → Bool

/-- How an execution ends. -/
inductive Ending (σ : Type) where
  | returned (src : Option Temp) (s : σ)
  | halted (i : Instr) (s : σ)

section Exec

variable {σ : Type} (M : Machine σ) (code : List Tac)

/-- The code from `MARK l` on. -/
def codeAt (code : List Tac) (l : Label) : List Tac := code.dropWhile (· ≠ .mark l)

/-- One step of the code, of which `rest` is still to come. After its last operation the function
returns without a value. -/
def tacStep : List Tac × σ → Option (Trace.Act (List Tac × σ) Instr (Ending σ))
  | ([], s) => some (.stop (.returned none s))
  | (.instr i :: rest, s) =>
    match M.exec i s with
    | some s' => some (.emit i (rest, s'))
    | none => some (.stop (.halted i s))
  | (.ret src :: _, s) => some (.stop (.returned src s))
  | (.branch l :: _, s) => some (.silent (codeAt code l, s))
  | (.beqz c l :: rest, s) => some (.silent (if M.zero c s then codeAt code l else rest, s))
  | (.bnez c l :: rest, s) => some (.silent (if M.zero c s then rest else codeAt code l, s))
  | (.mark _ :: rest, s) => some (.silent (rest, s))

end Exec

end Decaf

end CacheCPU
