import CacheCPU.Decaf.Value
import CacheCPU.Lib.AsmText
import CacheCPU.Lib.ByteMemory

/-!
# Instruction selection: `decaf/backend/Mips.java` and `MipsAsm.java`

The text for the operations of a basic block whose temporaries have their registers, and what an
assembler and the processor make of it. An instruction that the assembler expands is one step;
what the expansion leaves in `$at`, which no text reads, is not kept.
-/

namespace CacheCPU

namespace Decaf

namespace Mips

open AsmText ByteMemory

/-! ## Registers -/

inductive RegId where
  | zero | atReg | v0 | v1 | a0 | a1 | a2 | a3 | k0 | k1 | gp | sp | fp | ra
  | t0 | t1 | t2 | t3 | t4 | t5 | t6 | t7 | t8 | t9
  | s0 | s1 | s2 | s3 | s4 | s5 | s6 | s7
  deriving DecidableEq

def regs : List (RegId × Text) :=
  [(.zero, "$zero".toList), (.atReg, "$at".toList), (.v0, "$v0".toList), (.v1, "$v1".toList),
    (.a0, "$a0".toList), (.a1, "$a1".toList), (.a2, "$a2".toList), (.a3, "$a3".toList),
    (.k0, "$k0".toList), (.k1, "$k1".toList), (.gp, "$gp".toList), (.sp, "$sp".toList),
    (.fp, "$fp".toList), (.ra, "$ra".toList), (.t0, "$t0".toList), (.t1, "$t1".toList),
    (.t2, "$t2".toList), (.t3, "$t3".toList), (.t4, "$t4".toList), (.t5, "$t5".toList),
    (.t6, "$t6".toList), (.t7, "$t7".toList), (.t8, "$t8".toList), (.t9, "$t9".toList),
    (.s0, "$s0".toList), (.s1, "$s1".toList), (.s2, "$s2".toList), (.s3, "$s3".toList),
    (.s4, "$s4".toList), (.s5, "$s5".toList), (.s6, "$s6".toList), (.s7, "$s7".toList)]

def RegId.name (r : RegId) : Text := (regs.lookup r).getD []

def RegId.ordinal (r : RegId) : ℕ := (regs.map Prod.fst).idxOf r

def generalRegs : List RegId :=
  ((regs.map Prod.fst).drop RegId.t0.ordinal).take (RegId.s7.ordinal - RegId.t0.ordinal)

/-- What the allocator has given to the temporaries. -/
structure Alloc where
  fp : Temp
  reg : Temp → RegId
  offset : Temp → ℤ
  fp_reg : reg fp = .fp
  general : ∀ t, t ≠ fp → reg t ∈ generalRegs

/-- An operation with what the allocator has written into it. -/
structure Op where
  instr : Instr
  /-- The offset for the operand of `PARM`. -/
  actual : ℤ
  /-- The temporaries that are kept over a call. -/
  saves : List Temp

/-! ## The text -/

def FORMAT1 : Text := "%-6s%s".toList
def FORMAT2 : Text := "%-6s%s, %s".toList
def FORMAT3 : Text := "%-6s%s, %s, %s".toList
def FORMAT4 : Text := "%-6s%s, %s(%s)".toList

/-- `%-6s`. -/
def pad (w : Text) : Text := w ++ List.replicate (6 - w.length) ' '

/-- `String.format`, which leaves the arguments alone that the format does not ask for. `none` is
an exception. -/
def format : Text → List Text → Option Text
  | '%' :: 's' :: f, a :: args => (format f args).map (a ++ ·)
  | '%' :: '-' :: '6' :: 's' :: f, a :: args => (format f args).map (pad a ++ ·)
  | '%' :: _, _ => none
  | c :: f, args => (format f args).map (c :: ·)
  | [], _ => some []

structure MipsAsm where
  form : Text
  opc : String
  ops : List Text

def MipsAsm.asm (a : MipsAsm) : Option Text :=
  if a.ops.length ≤ 3 then format a.form (a.opc.toList :: a.ops) else none

def binaryOpc : BinaryOp → String
  | .add => "addu"
  | .sub => "subu"
  | .mul => "mul"
  | .div => "div"
  | .mod => "rem"
  | .land => "and"
  | .lor => "or"
  | .gtr => "sgt"
  | .geq => "sge"
  | .equ => "seq"
  | .neq => "sne"
  | .leq => "sle"
  | .les => "slt"

/-- The label of a string, by its place among the strings with a label. -/
def stringLabel (n : ℕ) : Text := "_STRING".toList ++ Nat.toDigits 10 n

/-- The label of a string and the strings that have one then. -/
def getStringConstLabel (stringConst : List String) (value : String) : Text × List String :=
  (stringLabel (stringConst.idxOf value),
    if value ∈ stringConst then stringConst else stringConst ++ [value])

section GenAsm

variable (A : Alloc)

def genAsmForCall (saves : List Temp) (jump : MipsAsm) (dst : Option Temp) : List MipsAsm :=
  let slot (opc : String) (t : Temp) : MipsAsm :=
    ⟨FORMAT4, opc, [(A.reg t).name, intText (A.offset t), "$fp".toList]⟩
  saves.map (slot "sw") ++ [jump] ++
    (dst.map fun d => ⟨FORMAT2, "move", [(A.reg d).name, "$v0".toList]⟩).toList ++
      saves.map (slot "lw")

/-- The lines for one operation and the strings that have a label then. -/
def genAsm (op : Op) (stringConst : List String) : List MipsAsm × List String :=
  let reg (t : Temp) : Text := (A.reg t).name
  match op.instr with
  | .binary o dst a b => ([⟨FORMAT3, binaryOpc o, [reg dst, reg a, reg b]⟩], stringConst)
  | .mult a b => ([⟨FORMAT2, "mult", [reg a, reg b]⟩], stringConst)
  | .mflo dst => ([⟨FORMAT1, "mflo", [reg dst]⟩], stringConst)
  | .neg dst a => ([⟨FORMAT2, "negu", [reg dst, reg a]⟩], stringConst)
  | .lnot dst a => ([⟨FORMAT2, "not", [reg dst, reg a]⟩], stringConst)
  | .assign dst a =>
    (if A.reg dst ≠ A.reg a then [⟨FORMAT2, "move", [reg dst, reg a]⟩] else [], stringConst)
  | .loadVtbl dst vtbl => ([⟨FORMAT2, "la", [reg dst, vtbl.toList]⟩], stringConst)
  | .loadImm4 dst imm =>
    let value := BitVec.ofInt 32 imm
    let high := (value.sshiftRight 16).toInt
    let low := (value &&& 0x0000FFFF#32).toInt
    (if high = 0 then [⟨FORMAT2, "li", [reg dst, intText low]⟩]
      else ⟨FORMAT2, "lui", [reg dst, intText high]⟩ ::
        -- one operand more than the format takes
        if low ≠ 0 then [⟨FORMAT2, "addiu", [reg dst, reg dst, intText low]⟩] else [], stringConst)
  | .loadStrConst dst value =>
    let (label, stringConst) := getStringConstLabel stringConst value
    ([⟨FORMAT2, "la", [reg dst, label]⟩], stringConst)
  | .indirectCall dst func =>
    (genAsmForCall A op.saves ⟨FORMAT1, "jalr", [reg func]⟩ dst, stringConst)
  | .directCall dst func =>
    (genAsmForCall A op.saves ⟨FORMAT1, "jal", [func.toList]⟩ dst, stringConst)
  | .parm src => ([⟨FORMAT4, "sw", [reg src, intText op.actual, "$sp".toList]⟩], stringConst)
  | .load dst base offset => ([⟨FORMAT4, "lw", [reg dst, intText offset, reg base]⟩], stringConst)
  | .store src base offset => ([⟨FORMAT4, "sw", [reg src, intText offset, reg base]⟩], stringConst)

def genAsmForBB : List Op → List String → List MipsAsm × List String
  | [], stringConst => ([], stringConst)
  | op :: ops, stringConst =>
    let (asms, stringConst) := genAsm A op stringConst
    let (rest, stringConst) := genAsmForBB ops stringConst
    (asms ++ rest, stringConst)

end GenAsm

/-! ## The assembler -/

inductive Alu where
  | addu | subu | mul | div | rem | and | or | sgt | sge | seq | sne | sle | slt
  deriving DecidableEq

def alus : List (Text × Alu) :=
  [("addu".toList, .addu), ("subu".toList, .subu), ("mul".toList, .mul), ("div".toList, .div),
    ("rem".toList, .rem), ("and".toList, .and), ("or".toList, .or), ("sgt".toList, .sgt),
    ("sge".toList, .sge), ("seq".toList, .seq), ("sne".toList, .sne), ("sle".toList, .sle),
    ("slt".toList, .slt)]

/-- The instructions of the processor and of the assembler. -/
inductive Insn where
  | alu (op : Alu) (rd rs rt : RegId)
  | mult (rs rt : RegId)
  | mflo (rd : RegId)
  | negu (rd rs : RegId)
  | not (rd rs : RegId)
  | move (rd rs : RegId)
  | li (rt : RegId) (imm : ℤ)
  | lui (rt : RegId) (imm : ℤ)
  | addiu (rt rs : RegId) (imm : ℤ)
  | la (rt : RegId) (label : Text)
  | jal (label : Text)
  | jalr (rs : RegId)
  | lw (rt : RegId) (offset : ℤ) (base : RegId)
  | sw (rt : RegId) (offset : ℤ) (base : RegId)
  deriving DecidableEq

def readReg (w : Text) : Option RegId := (regs.find? (·.2 = w)).map Prod.fst

def isLabelChar (c : Char) : Bool := c.isAlphanum || c = '_' || c = '.'

/-- A name for a label. -/
def IsLabel (w : Text) : Prop :=
  w ≠ [] ∧ w.all isLabelChar ∧ w.head?.all (fun c => !c.isDigit)

instance (w : Text) : Decidable (IsLabel w) := inferInstanceAs (Decidable (_ ∧ _ ∧ _))

def readLabel (w : Text) : Option Text := if IsLabel w then some w else none

def readRange (lo hi : ℤ) (w : Text) : Option ℤ := (readInt w).filter fun i => lo ≤ i ∧ i < hi

/-- `signedUpper` is whether `lui` may have a negative number. -/
def insn (signedUpper : Bool) (m : Text) : List Operand → Option Insn
  | [.word a, .word b, .word c] =>
    if m = "addiu".toList then do
      return .addiu (← readReg a) (← readReg b) (← readRange (-2 ^ 15) (2 ^ 15) c)
    else do return .alu (← alus.lookup m) (← readReg a) (← readReg b) (← readReg c)
  | [.word a, .word b] =>
    if m = "mult".toList then do return .mult (← readReg a) (← readReg b)
    else if m = "negu".toList then do return .negu (← readReg a) (← readReg b)
    else if m = "not".toList then do return .not (← readReg a) (← readReg b)
    else if m = "move".toList then do return .move (← readReg a) (← readReg b)
    else if m = "li".toList then do return .li (← readReg a) (← readRange (-2 ^ 31) (2 ^ 32) b)
    else if m = "lui".toList then do
      return .lui (← readReg a) (← readRange (if signedUpper then -2 ^ 15 else 0) (2 ^ 16) b)
    else if m = "addiu".toList then do
      return .addiu (← readReg a) (← readReg a) (← readRange (-2 ^ 15) (2 ^ 15) b)
    else if m = "la".toList then do return .la (← readReg a) (← readLabel b)
    else none
  | [.word a] =>
    if m = "mflo".toList then do return .mflo (← readReg a)
    else if m = "jal".toList then do return .jal (← readLabel a)
    else if m = "jalr".toList then do return .jalr (← readReg a)
    else none
  | [.word a, .addr o b] =>
    if m = "lw".toList then do
      return .lw (← readReg a) (← readRange (-2 ^ 31) (2 ^ 31) o) (← readReg b)
    else if m = "sw".toList then do
      return .sw (← readReg a) (← readRange (-2 ^ 31) (2 ^ 31) o) (← readReg b)
    else none
  | _ => none

/-! ## The processor -/

structure State where
  regs : RegId → BitVec 32
  lo : BitVec 32
  mem : BitVec 32 → BitVec 8

/-- What the text is assembled by and linked with. -/
structure Target where
  signedUpper : Bool
  symbol : Text → BitVec 32
  /-- A function that has been called, until it comes back. -/
  call : BitVec 32 → State → Option State
  /-- What `mul`, `div` and `rem` leave in `lo`. -/
  spoiled : State → BitVec 32

namespace State

variable (s : State)

def get (r : RegId) : BitVec 32 := if r = .zero then 0#32 else s.regs r

def set (r : RegId) (v : BitVec 32) : State := { s with regs := Function.update s.regs r v }

/-- Words are at multiples of four. -/
def load (a : BitVec 32) : Option (BitVec 32) :=
  if a.toNat % 4 = 0 then some (word (k := 30) s.mem a) else none

def store (a v : BitVec 32) : Option State :=
  if a.toNat % 4 = 0 then some { s with mem := putWord (k := 30) s.mem a v } else none

end State

/-- `none` is a trap. -/
def Alu.value (op : Alu) (a b : BitVec 32) : Option (BitVec 32) :=
  match op with
  | .addu => some (a + b)
  | .subu => some (a - b)
  | .mul => some (a * b)
  | .div => if divides a b then some (a.sdiv b) else none
  | .rem => if divides a b then some (a.srem b) else none
  | .and => some (a &&& b)
  | .or => some (a ||| b)
  | .sgt => some (truth (b.slt a))
  | .sge => some (truth (b.sle a))
  | .seq => some (truth (a = b))
  | .sne => some (truth (a ≠ b))
  | .sle => some (truth (a.sle b))
  | .slt => some (truth (a.slt b))

section Step

variable (T : Target)

def State.spoil (s : State) (b : Bool) : State := if b then { s with lo := T.spoiled s } else s

def step : Insn → State → Option State
  | .alu op rd rs rt, s =>
    (op.value (s.get rs) (s.get rt)).map fun v =>
      (s.set rd v).spoil T (op = .mul || op = .div || op = .rem)
  | .mult rs rt, s => some { s with lo := s.get rs * s.get rt }
  | .mflo rd, s => some (s.set rd s.lo)
  | .negu rd rs, s => some (s.set rd (-s.get rs))
  | .not rd rs, s => some (s.set rd (~~~s.get rs))
  | .move rd rs, s => some (s.set rd (s.get rs))
  | .li rt imm, s => some (s.set rt (BitVec.ofInt 32 imm))
  | .lui rt imm, s => some (s.set rt (BitVec.ofInt 32 imm <<< 16))
  | .addiu rt rs imm, s => some (s.set rt (s.get rs + BitVec.ofInt 32 imm))
  | .la rt label, s => some (s.set rt (T.symbol label))
  | .jal label, s => T.call (T.symbol label) s
  | .jalr rs, s => T.call (s.get rs) s
  | .lw rt offset base, s => (s.load (s.get base + BitVec.ofInt 32 offset)).map (s.set rt)
  | .sw rt offset base, s => s.store (s.get base + BitVec.ofInt 32 offset) (s.get rt)

/-- The instruction of a line. -/
def assemble (line : Text) : Option Insn :=
  (readLine line).bind fun (m, os) => insn T.signedUpper m os

def run (lines : List Text) (s : State) : Option State :=
  lines.foldlM (fun s line => (assemble T line).bind (step T · s)) s

end Step

end Mips

end Decaf

end CacheCPU
