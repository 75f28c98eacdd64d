import CacheCPU.Decaf.Mips
import Mathlib.Data.List.Infix
import Mathlib.Tactic.Common

/-!
# Instruction selection

A line of `MipsAsm` is read back by the assembler as the mnemonic and the operands that it was made
from (`insn_three` and the others), so that the text of an operation is a list of instructions, and
these do to the state what the operation does, but for `LNOT` and the constants of `LOAD_IMM4` that
need both halves or the upper half of a negative number.
-/

namespace CacheCPU

namespace Decaf

namespace Mips

open AsmText ByteMemory

/-! ## What the operations do -/

section Effect

variable (T : Target) (A : Alloc) (stringConst : List String)

def IsBool (v : BitVec 32) : Prop := v = 0#32 ∨ v = 1#32

instance (v : BitVec 32) : Decidable (IsBool v) := inferInstanceAs (Decidable (_ ∨ _))

namespace Op

variable (op : Op)

/-- `op0` where it is written. -/
def dst : Option Temp :=
  match op.instr with
  | .binary _ dst _ _ | .mflo dst | .neg dst _ | .lnot dst _ | .assign dst _ | .loadVtbl dst _
  | .loadImm4 dst _ | .loadStrConst dst _ | .load dst _ _ => some dst
  | .directCall dst _ | .indirectCall dst _ => dst
  | .mult _ _ | .store _ _ _ | .parm _ => none

/-- The temporaries that are kept over a call go to their slots. -/
def saved (s : State) : Option State :=
  op.saves.foldlM (fun s t =>
    s.store (s.get .fp + BitVec.ofInt 32 (A.offset t)) (s.get (A.reg t))) s

/-- They come back from their slots. -/
def restored (s : State) : Option State :=
  op.saves.foldlM (fun s t =>
    (s.load (s.get .fp + BitVec.ofInt 32 (A.offset t))).map (s.set (A.reg t))) s

/-- The state when the function comes back that an operation calls. -/
def called (s : State) : Option State :=
  match op.instr with
  | .directCall _ func => (op.saved A s).bind (T.call (T.symbol func.toList))
  | .indirectCall _ func => (op.saved A s).bind fun s => T.call (s.get (A.reg func)) s
  | _ => none

/-- The value of an operation, `stringConst` being all the strings with a label. A call has the
value that the function leaves in `$v0`. -/
def value (s : State) : Option (BitVec 32) :=
  let val (t : Temp) : BitVec 32 := s.get (A.reg t)
  match op.instr with
  | .binary o _ a b =>
    if (o = .land ∨ o = .lor) ∧ ¬(IsBool (val a) ∧ IsBool (val b)) then none
    else o.value (val a) (val b)
  | .mflo _ => some s.lo
  | .neg _ a => some (-val a)
  | .lnot _ a => if IsBool (val a) then some (lnotValue (val a)) else none
  | .assign _ a => some (val a)
  | .loadVtbl _ vtbl => some (T.symbol vtbl.toList)
  | .loadImm4 _ imm => some (BitVec.ofInt 32 imm)
  | .loadStrConst _ value => some (T.symbol (stringLabel (stringConst.idxOf value)))
  | .load _ base offset => s.load (val base + BitVec.ofInt 32 offset)
  | .directCall _ _ | .indirectCall _ _ => (op.called T A s).map (·.get .v0)
  | .mult _ _ | .store _ _ _ | .parm _ => none

/-- The state after an operation, `none` where it has no value or no place for it. -/
def effect (s : State) : Option State :=
  let val (t : Temp) : BitVec 32 := s.get (A.reg t)
  match op.instr with
  | .binary o dst _ _ => (op.value T A stringConst s).map fun v =>
    (s.set (A.reg dst) v).spoil T (o = .mul || o = .div || o = .mod)
  | .mflo dst | .neg dst _ | .lnot dst _ | .assign dst _ | .loadVtbl dst _ | .loadImm4 dst _
  | .loadStrConst dst _ | .load dst _ _ =>
    (op.value T A stringConst s).map (s.set (A.reg dst))
  | .mult a b => some { s with lo := val a * val b }
  | .store src base offset => s.store (val base + BitVec.ofInt 32 offset) (val src)
  | .parm src => s.store (s.get .sp + BitVec.ofInt 32 op.actual) (val src)
  | .directCall dst _ | .indirectCall dst _ => (op.called T A s).bind fun s =>
    op.restored A (dst.elim s fun d => s.set (A.reg d) (s.get .v0))

def label : Option String :=
  match op.instr with
  | .loadVtbl _ vtbl => some vtbl
  | .directCall _ func => some func
  | _ => none

def offsets : List ℤ :=
  match op.instr with
  | .load _ _ offset | .store _ _ offset => [offset]
  | .parm _ => [op.actual]
  | .directCall _ _ | .indirectCall _ _ => op.saves.map A.offset
  | _ => []

/-- What the translater and the allocator see to. -/
structure Valid : Prop where
  dst : ∀ d ∈ op.dst, d ≠ A.fp ∧ ∀ t ∈ op.saves, A.reg t ≠ A.reg d
  label : ∀ l ∈ op.label, IsLabel l.toList
  offset : ∀ i ∈ op.offsets A, -2 ^ 31 ≤ i ∧ i < 2 ^ 31

/-- `LOAD` and `STORE`, which the allocator puts between the others. -/
def IsSpill : Prop :=
  match op.instr with
  | .load _ _ _ | .store _ _ _ => True
  | _ => False

end Op

/-- What the operations of a block do, one after the other. -/
def effects (ops : List Op) (s : State) : Option State :=
  ops.foldlM (fun s op => op.effect T A stringConst s) s

/-- The text for `ops` is well formed, and behind it the state is what they make of it, with `Q`,
whatever strings have a label at the end. -/
def Performs (ops : List Op) (strs : List String) (Q : List String → State → State → Prop) : Prop :=
  ∃ lines, (genAsmForBB A ops strs).1.mapM MipsAsm.asm = some lines ∧
    (∀ line ∈ lines, (assemble T line).isSome) ∧
    ∀ stringConst, (genAsmForBB A ops strs).2 <+: stringConst →
      ∀ s s', effects T A stringConst ops s = some s' →
        run T lines s = some s' ∧ Q stringConst s s'

/-- The text for an operation leaves its value in the register of `op0`. -/
def Selects (op : Op) (strs : List String) : Prop :=
  Performs T A [op] strs fun stringConst s s' =>
    ∀ d ∈ op.dst, op.value T A stringConst s = some (s'.get (A.reg d))

/-- Where the text of an operation does what the operation does. -/
def Right (i : Instr) : Prop :=
  match i with
  | .lnot _ _ => False
  | .loadImm4 _ imm =>
    let value := BitVec.ofInt 32 imm
    value.toNat < 2 ^ 16 ∨ value.toNat % 2 ^ 16 = 0 ∧ (T.signedUpper ∨ 0 ≤ value.toInt)
  | _ => True

end Effect

/-! ## Lines -/

section Lines

variable (T : Target) {a b c : Text}

theorem format1_eq : FORMAT1 = ['%', '-', '6', 's', '%', 's'] := by rfl

theorem format2_eq : FORMAT2 = ['%', '-', '6', 's', '%', 's', ',', ' ', '%', 's'] := by rfl

theorem format3_eq :
    FORMAT3 = ['%', '-', '6', 's', '%', 's', ',', ' ', '%', 's', ',', ' ', '%', 's'] := by
  rfl

theorem format4_eq :
    FORMAT4 = ['%', '-', '6', 's', '%', 's', ',', ' ', '%', 's', '(', '%', 's', ')'] := by
  rfl

@[simp] theorem format_nil (args : List Text) : format [] args = some [] := by simp [format]

@[simp] theorem format_arg (f a : Text) (args : List Text) :
    format ('%' :: 's' :: f) (a :: args) = (format f args).map (a ++ ·) := by simp [format]

@[simp] theorem format_pad (f a : Text) (args : List Text) :
    format ('%' :: '-' :: '6' :: 's' :: f) (a :: args) = (format f args).map (pad a ++ ·) := by
  simp [format]

@[simp] theorem format_char {c : Char} (h : c ≠ '%') (f : Text) (args : List Text) :
    format (c :: f) args = (format f args).map (c :: ·) := by
  rw [format]
  all_goals simp [h]

/-- The instruction of a line. -/
def MipsAsm.insn (m : MipsAsm) : Option Insn := m.asm.bind (assemble T)

/-- A mnemonic with a blank behind it. -/
def IsOpc (opc : String) : Prop := IsWord opc.toList ∧ opc.toList.length < 6

instance (opc : String) : Decidable (IsOpc opc) := inferInstanceAs (Decidable (_ ∧ _))

theorem pad_eq {w : Text} (h : w.length < 6) :
    pad w = w ++ ' ' :: List.replicate (5 - w.length) ' ' := by
  rw [pad, show 6 - w.length = (5 - w.length) + 1 by omega, List.replicate_succ]

variable {opc : String} (ho : IsOpc opc) (ha : IsWord a) (hb : IsWord b) (hc : IsWord c)
include ho ha

theorem insn_one : (⟨FORMAT1, opc, [a]⟩ : MipsAsm).insn T =
    insn T.signedUpper opc.toList [.word a] := by
  have hasm : (⟨FORMAT1, opc, [a]⟩ : MipsAsm).asm = some (pad opc.toList ++ a) := by
    simp [MipsAsm.asm, format1_eq]
  rw [MipsAsm.insn, hasm, pad_eq ho.2, Option.bind_some, assemble, List.append_assoc,
    List.cons_append, readLine_one ho.1 ha]
  rfl

include hb

theorem insn_two : (⟨FORMAT2, opc, [a, b]⟩ : MipsAsm).insn T =
    insn T.signedUpper opc.toList [.word a, .word b] := by
  have hasm : (⟨FORMAT2, opc, [a, b]⟩ : MipsAsm).asm =
      some (pad opc.toList ++ (a ++ ',' :: ' ' :: b)) := by
    simp [MipsAsm.asm, format2_eq]
  rw [MipsAsm.insn, hasm, pad_eq ho.2, Option.bind_some, assemble, List.append_assoc,
    List.cons_append, readLine_two ho.1 ha hb]
  rfl

/-- The third operand is not in the text. -/
theorem insn_two_dropped : (⟨FORMAT2, opc, [a, b, c]⟩ : MipsAsm).insn T =
    insn T.signedUpper opc.toList [.word a, .word b] := by
  rw [← insn_two T ho ha hb, MipsAsm.insn, MipsAsm.insn]
  congr 1

include hc

theorem insn_three : (⟨FORMAT3, opc, [a, b, c]⟩ : MipsAsm).insn T =
    insn T.signedUpper opc.toList [.word a, .word b, .word c] := by
  have hasm : (⟨FORMAT3, opc, [a, b, c]⟩ : MipsAsm).asm =
      some (pad opc.toList ++ (a ++ ',' :: ' ' :: (b ++ ',' :: ' ' :: c))) := by
    simp [MipsAsm.asm, format3_eq]
  rw [MipsAsm.insn, hasm, pad_eq ho.2, Option.bind_some, assemble, List.append_assoc,
    List.cons_append, readLine_three ho.1 ha hb hc]
  rfl

theorem insn_addr : (⟨FORMAT4, opc, [a, b, c]⟩ : MipsAsm).insn T =
    insn T.signedUpper opc.toList [.word a, .addr b c] := by
  have hasm : (⟨FORMAT4, opc, [a, b, c]⟩ : MipsAsm).asm =
      some (pad opc.toList ++ (a ++ ',' :: ' ' :: (b ++ '(' :: (c ++ [')'])))) := by
    simp [MipsAsm.asm, format4_eq]
  rw [MipsAsm.insn, hasm, pad_eq ho.2, Option.bind_some, assemble, List.append_assoc,
    List.cons_append, readLine_addr ho.1 ha hb hc]
  rfl

end Lines

/-! ## Operands -/

@[simp] theorem readReg_name (r : RegId) : readReg r.name = some r := by
  cases r <;> decide +kernel

theorem isWord_name (r : RegId) : IsWord r.name := by
  cases r <;> decide +kernel

/-- The name of a register is not a number. -/
theorem readInt_name (r : RegId) : readInt r.name = none := by
  cases r <;> decide +kernel

theorem name_fp : RegId.fp.name = "$fp".toList := by decide

theorem name_sp : RegId.sp.name = "$sp".toList := by decide

theorem name_v0 : RegId.v0.name = "$v0".toList := by decide

theorem readRange_intText {lo hi i : ℤ} (h : lo ≤ i ∧ i < hi) :
    readRange lo hi (intText i) = some i := by
  simp [readRange, h]

theorem IsLabel.isWord {w : Text} (h : IsLabel w) : IsWord w := by
  refine ⟨h.1, fun c hc => ?_⟩
  have hl := List.all_eq_true.1 h.2.1 c hc
  rcases hs : isSep c with _ | _
  · rfl
  · simp only [isSep, Bool.or_eq_true, decide_eq_true_eq] at hs
    rcases hs with ((rfl | rfl) | rfl) | rfl <;> simp [isLabelChar] at hl

theorem isLabel_stringLabel (n : ℕ) : IsLabel (stringLabel n) := by
  have hhead : stringLabel n = '_' :: ("STRING".toList ++ Nat.toDigits 10 n) := rfl
  refine ⟨by simp [hhead], List.all_eq_true.2 fun c hc => ?_, by rw [hhead]; rfl⟩
  rcases List.mem_append.1 hc with h | h
  · have hall : "_STRING".toList.all isLabelChar = true := by decide
    exact List.all_eq_true.1 hall c h
  · have hd := Nat.isDigit_of_mem_toDigits (by omega) (by omega) h
    simp [isLabelChar, Char.isAlphanum, hd]

/-! ## Instructions -/

section Insn

variable (T : Target) (a b c : RegId)

def aluOf : BinaryOp → Alu
  | .add => .addu
  | .sub => .subu
  | .mul => .mul
  | .div => .div
  | .mod => .rem
  | .land => .and
  | .lor => .or
  | .gtr => .sgt
  | .geq => .sge
  | .equ => .seq
  | .neq => .sne
  | .leq => .sle
  | .les => .slt

theorem insn_binary (o : BinaryOp) :
    (⟨FORMAT3, binaryOpc o, [a.name, b.name, c.name]⟩ : MipsAsm).insn T =
      some (.alu (aluOf o) a b c) := by
  have ho : IsOpc (binaryOpc o) := by cases o <;> decide
  have hne : (binaryOpc o).toList ≠ "addiu".toList := by cases o <;> decide
  have halu : alus.lookup (binaryOpc o).toList = some (aluOf o) := by cases o <;> decide
  rw [insn_three T ho (isWord_name a) (isWord_name b) (isWord_name c)]
  simp only [insn, if_neg hne, halu, readReg_name]
  rfl

theorem insn_mult : (⟨FORMAT2, "mult", [a.name, b.name]⟩ : MipsAsm).insn T = some (.mult a b) := by
  rw [insn_two T (by decide) (isWord_name a) (isWord_name b)]
  simp [insn]

theorem insn_negu : (⟨FORMAT2, "negu", [a.name, b.name]⟩ : MipsAsm).insn T = some (.negu a b) := by
  rw [insn_two T (by decide) (isWord_name a) (isWord_name b)]
  simp [insn]

theorem insn_not : (⟨FORMAT2, "not", [a.name, b.name]⟩ : MipsAsm).insn T = some (.not a b) := by
  rw [insn_two T (by decide) (isWord_name a) (isWord_name b)]
  simp [insn]

theorem insn_move : (⟨FORMAT2, "move", [a.name, b.name]⟩ : MipsAsm).insn T = some (.move a b) := by
  rw [insn_two T (by decide) (isWord_name a) (isWord_name b)]
  simp [insn]

theorem insn_li {i : ℤ} (h : 0 ≤ i ∧ i < 2 ^ 32) :
    (⟨FORMAT2, "li", [a.name, intText i]⟩ : MipsAsm).insn T = some (.li a i) := by
  rw [insn_two T (by decide) (isWord_name a) (isWord_intText i)]
  have hi := @readRange_intText (-2 ^ 31) (2 ^ 32) i (by omega)
  simp [insn, -Int.reducePow, -Int.reduceNeg, hi]

/-- The upper half of a register is a number of 16 bits. -/
theorem insn_lui {i : ℤ} (h : -2 ^ 15 ≤ i ∧ i < 2 ^ 15) :
    (⟨FORMAT2, "lui", [a.name, intText i]⟩ : MipsAsm).insn T =
      if T.signedUpper ∨ 0 ≤ i then some (.lui a i) else none := by
  rw [insn_two T (by decide) (isWord_name a) (isWord_intText i)]
  rcases hs : T.signedUpper with _ | _
  · by_cases hi : 0 ≤ i
    · have hr := @readRange_intText 0 (2 ^ 16) i (by omega)
      simp [insn, -Int.reducePow, hr, hi]
    · have hr : readRange 0 (2 ^ 16) (intText i) = none := by
        simp [readRange]
        omega
      simp [insn, -Int.reducePow, hr, hi]
  · have hr := @readRange_intText (-2 ^ 15) (2 ^ 16) i (by omega)
    simp [insn, -Int.reducePow, -Int.reduceNeg, hr]

/-- Without its third operand `addiu` is no instruction. -/
theorem insn_addiu (i : ℤ) :
    (⟨FORMAT2, "addiu", [a.name, a.name, intText i]⟩ : MipsAsm).insn T = none := by
  rw [insn_two_dropped T (by decide) (isWord_name a) (isWord_name a)]
  simp [insn, readRange, readInt_name]

theorem insn_la {l : Text} (h : IsLabel l) :
    (⟨FORMAT2, "la", [a.name, l]⟩ : MipsAsm).insn T = some (.la a l) := by
  rw [insn_two T (by decide) (isWord_name a) h.isWord]
  simp [insn, readLabel, h]

theorem insn_mflo : (⟨FORMAT1, "mflo", [a.name]⟩ : MipsAsm).insn T = some (.mflo a) := by
  rw [insn_one T (by decide) (isWord_name a)]
  simp [insn]

theorem insn_jal {l : Text} (h : IsLabel l) :
    (⟨FORMAT1, "jal", [l]⟩ : MipsAsm).insn T = some (.jal l) := by
  rw [insn_one T (by decide) h.isWord]
  simp [insn, readLabel, h]

theorem insn_jalr : (⟨FORMAT1, "jalr", [a.name]⟩ : MipsAsm).insn T = some (.jalr a) := by
  rw [insn_one T (by decide) (isWord_name a)]
  simp [insn]

theorem insn_lw {i : ℤ} (h : -2 ^ 31 ≤ i ∧ i < 2 ^ 31) :
    (⟨FORMAT4, "lw", [a.name, intText i, b.name]⟩ : MipsAsm).insn T = some (.lw a i b) := by
  rw [insn_addr T (by decide) (isWord_name a) (isWord_intText i) (isWord_name b)]
  simp [insn, -Int.reducePow, -Int.reduceNeg, readRange_intText h]

theorem insn_sw {i : ℤ} (h : -2 ^ 31 ≤ i ∧ i < 2 ^ 31) :
    (⟨FORMAT4, "sw", [a.name, intText i, b.name]⟩ : MipsAsm).insn T = some (.sw a i b) := by
  rw [insn_addr T (by decide) (isWord_name a) (isWord_intText i) (isWord_name b)]
  simp [insn, -Int.reducePow, -Int.reduceNeg, readRange_intText h]

end Insn

/-! ## Text and instructions -/

section Assembles

variable (T : Target) {asms asms' : List MipsAsm} {insns insns' : List Insn} {s : State}

/-- The lines are those of `insns`. -/
def Assembles (asms : List MipsAsm) (insns : List Insn) : Prop :=
  asms.mapM (·.insn T) = some insns

def steps (insns : List Insn) (s : State) : Option State :=
  insns.foldlM (fun s i => step T i s) s

variable {T}

theorem assembles_nil : Assembles T [] [] := rfl

theorem assembles_cons {m : MipsAsm} {i : Insn} (hm : m.insn T = some i)
    (h : Assembles T asms insns) : Assembles T (m :: asms) (i :: insns) := by
  unfold Assembles at h ⊢
  simp [hm, h]

theorem assembles_one {m : MipsAsm} {i : Insn} (hm : m.insn T = some i) : Assembles T [m] [i] :=
  assembles_cons hm assembles_nil

theorem Assembles.append (h : Assembles T asms insns) (h' : Assembles T asms' insns') :
    Assembles T (asms ++ asms') (insns ++ insns') := by
  unfold Assembles at h h' ⊢
  simp [List.mapM_append, h, h']

theorem assembles_map {f : Temp → MipsAsm} {g : Temp → Insn} :
    ∀ {ts : List Temp}, (∀ t ∈ ts, (f t).insn T = some (g t)) →
      Assembles T (ts.map f) (ts.map g)
  | [], _ => assembles_nil
  | t :: _, h =>
    assembles_cons (h t (by simp)) (assembles_map fun u hu => h u (by simp [hu]))

@[simp] theorem steps_append : steps T (insns ++ insns') s = (steps T insns s).bind (steps T insns') :=
  List.foldlM_append

@[simp] theorem steps_nil : steps T [] s = some s := rfl

@[simp] theorem steps_cons {i : Insn} : steps T (i :: insns) s = (step T i s).bind (steps T insns) :=
  rfl

theorem steps_one {i : Insn} : steps T [i] s = step T i s := by
  simp [steps]

theorem run_cons {line : Text} {lines : List Text} {i : Insn} (h : assemble T line = some i) :
    run T (line :: lines) s = (step T i s).bind (run T lines) := by
  unfold run
  rw [List.foldlM_cons, h]
  rfl

theorem Assembles.text : ∀ {asms : List MipsAsm} {insns : List Insn}, Assembles T asms insns →
    ∃ lines, asms.mapM MipsAsm.asm = some lines ∧ (∀ line ∈ lines, (assemble T line).isSome) ∧
      run T lines = steps T insns
  | [], insns, h => by
    obtain rfl : [] = insns := by simpa [Assembles] using h
    exact ⟨[], rfl, by simp, rfl⟩
  | m :: asms, insns, h => by
    simp only [Assembles, List.mapM_cons, Option.bind_eq_bind, Option.bind_eq_some_iff,
      Option.pure_def, Option.some.injEq] at h
    obtain ⟨i, hm, is, his, rfl⟩ := h
    obtain ⟨line, hline, hi⟩ := Option.bind_eq_some_iff.1 hm
    obtain ⟨lines, hlines, hall, hrun⟩ := Assembles.text his
    refine ⟨line :: lines, by simp [hline, hlines], ?_, funext fun s => ?_⟩
    · simp only [List.mem_cons, forall_eq_or_imp]
      exact ⟨by simp [hi], hall⟩
    · rw [steps_cons, ← hrun, run_cons hi]

theorem assembles_of_text : ∀ {asms : List MipsAsm} {lines : List Text},
    asms.mapM MipsAsm.asm = some lines → (∀ line ∈ lines, (assemble T line).isSome) →
      ∃ insns, Assembles T asms insns ∧ steps T insns = run T lines
  | [], lines, h, _ => by
    obtain rfl : [] = lines := by simpa using h
    exact ⟨[], assembles_nil, rfl⟩
  | m :: asms, lines, h, hall => by
    simp only [List.mapM_cons, Option.bind_eq_bind, Option.bind_eq_some_iff, Option.pure_def,
      Option.some.injEq] at h
    obtain ⟨line, hline, lines, hlines, rfl⟩ := h
    simp only [List.mem_cons, forall_eq_or_imp] at hall
    obtain ⟨i, hi⟩ := Option.isSome_iff_exists.1 hall.1
    obtain ⟨is, his, hrun⟩ := assembles_of_text hlines hall.2
    refine ⟨i :: is, assembles_cons (by simp [MipsAsm.insn, hline, hi]) his, funext fun s => ?_⟩
    rw [steps_cons, hrun, run_cons hi]

/-- Text is well formed if all its lines are those of instructions, and it does what they do. -/
theorem text_iff {P : (State → Option State) → Prop} :
    (∃ lines, asms.mapM MipsAsm.asm = some lines ∧ (∀ line ∈ lines, (assemble T line).isSome) ∧
      P (run T lines)) ↔ ∃ insns, Assembles T asms insns ∧ P (steps T insns) := by
  constructor
  · rintro ⟨lines, hlines, hall, hp⟩
    obtain ⟨insns, h, hrun⟩ := assembles_of_text hlines hall
    exact ⟨insns, h, hrun ▸ hp⟩
  · rintro ⟨insns, h, hp⟩
    obtain ⟨lines, hlines, hall, hrun⟩ := h.text
    exact ⟨lines, hlines, hall, hrun ▸ hp⟩

end Assembles

/-! ## Registers and memory -/

namespace State

variable {s s' : State} {r r' : RegId} {a v : BitVec 32}

theorem get_set_self (h : r ≠ .zero) : (s.set r v).get r = v := by
  simp [get, set, h]

theorem get_set_of_ne (h : r' ≠ r) : (s.set r v).get r' = s.get r' := by
  simp [get, set, h]

/-- A register with the value that it has. -/
theorem set_get (h : r ≠ .zero) : s.set r (s.get r) = s := by
  simp [get, set, h]

@[simp] theorem lo_set : (s.set r v).lo = s.lo := rfl

@[simp] theorem get_spoil {T : Target} {b : Bool} : (s.spoil T b).get r = s.get r := by
  unfold spoil
  split_ifs <;> rfl

theorem lo_store (h : s.store a v = some s') : s'.lo = s.lo := by
  unfold store at h
  split_ifs at h
  obtain rfl := Option.some.inj h
  rfl

end State

namespace Alloc

variable {A : Alloc} {d : Temp}

theorem reg_ne_zero (h : d ≠ A.fp) : A.reg d ≠ .zero := fun hz =>
  absurd (hz ▸ A.general d h) (by decide)

end Alloc

/-! ## Constants -/

section Constants

variable {value : BitVec 32}

theorem toInt_high : (value.sshiftRight 16).toInt = value.toInt / 2 ^ 16 := by
  rw [BitVec.toInt_sshiftRight, Int.shiftRight_eq_div_pow]
  rfl

theorem toInt_low : (value &&& 0x0000FFFF#32).toInt = value.toNat % 2 ^ 16 := by
  have hn : (value &&& 0x0000FFFF#32).toNat = value.toNat % 2 ^ 16 := by
    rw [BitVec.toNat_and]
    exact Nat.and_two_pow_sub_one_eq_mod _ 16
  rw [BitVec.toInt_eq_toNat_of_lt (by omega), hn]
  rfl

theorem toInt_cases : value.toInt = value.toNat ∧ value.toNat < 2 ^ 31 ∨
    value.toInt = value.toNat - 2 ^ 32 ∧ 2 ^ 31 ≤ value.toNat := by
  have hlt := value.isLt
  rw [BitVec.toInt_eq_toNat_cond]
  split_ifs with h <;> omega

theorem high_eq_zero_iff : (value.sshiftRight 16).toInt = 0 ↔ value.toNat < 2 ^ 16 := by
  have hlt := value.isLt
  have hcases := @toInt_cases value
  rw [toInt_high]
  omega

theorem low_eq_zero_iff : (value &&& 0x0000FFFF#32).toInt = 0 ↔ value.toNat % 2 ^ 16 = 0 := by
  rw [toInt_low]
  omega

/-- `li` of the lower half, where the upper half is zero. -/
theorem ofInt_low (h : value.toNat < 2 ^ 16) :
    BitVec.ofInt 32 (value &&& 0x0000FFFF#32).toInt = value := by
  rw [toInt_low, Int.emod_eq_of_lt (by omega) (by omega)]
  simp

/-- `lui` of the upper half, where the lower half is zero. -/
theorem ofInt_high (h : value.toNat % 2 ^ 16 = 0) :
    BitVec.ofInt 32 (value.sshiftRight 16).toInt <<< 16 = value := by
  have hhigh := @toInt_high value
  have hcases := @toInt_cases value
  have hcases' := @toInt_cases (value.sshiftRight 16)
  rw [BitVec.ofInt_toInt]
  apply BitVec.eq_of_toNat_eq
  rw [BitVec.toNat_shiftLeft, Nat.shiftLeft_eq]
  omega

theorem insn_lui_high (T : Target) (a : RegId) (value : BitVec 32) :
    (⟨FORMAT2, "lui", [a.name, intText (value.sshiftRight 16).toInt]⟩ : MipsAsm).insn T =
      if T.signedUpper ∨ 0 ≤ value.toInt then some (.lui a (value.sshiftRight 16).toInt)
      else none := by
  have hhigh := @toInt_high value
  have hcases := @toInt_cases value
  rw [insn_lui T a (by omega)]
  have hiff : 0 ≤ (value.sshiftRight 16).toInt ↔ 0 ≤ value.toInt := by omega
  simp only [hiff]

end Constants

/-! ## Operations -/

theorem aluOf_value {o : BinaryOp} {x y : BitVec 32}
    (hb : (o = .land ∨ o = .lor) → IsBool x ∧ IsBool y) : (aluOf o).value x y = o.value x y := by
  cases o
  case land => obtain ⟨rfl | rfl, rfl | rfl⟩ := hb (.inl rfl) <;> rfl
  case lor => obtain ⟨rfl | rfl, rfl | rfl⟩ := hb (.inr rfl) <;> rfl
  all_goals rfl

theorem aluOf_spoils (o : BinaryOp) :
    (aluOf o = .mul || aluOf o = .div || aluOf o = .rem) = (o = .mul || o = .div || o = .mod) := by
  cases o <;> rfl

section Ops

variable {T : Target} {A : Alloc} {strs stringConst : List String} {op : Op} {s s' : State}

theorem steps_saved :
    steps T (op.saves.map fun t => .sw (A.reg t) (A.offset t) .fp) s = op.saved A s := by
  unfold steps Op.saved
  rw [List.foldlM_map]
  rfl

theorem steps_restored :
    steps T (op.saves.map fun t => .lw (A.reg t) (A.offset t) .fp) s = op.restored A s := by
  unfold steps Op.restored
  rw [List.foldlM_map]
  rfl

/-- The lines for a call, of which the jump is `jump`. -/
theorem assembles_call {m : MipsAsm} {jump : Insn} (hm : m.insn T = some jump)
    (ho : ∀ t ∈ op.saves, -2 ^ 31 ≤ A.offset t ∧ A.offset t < 2 ^ 31) (dst : Option Temp) :
    ∃ insns, Assembles T (genAsmForCall A op.saves m dst) insns ∧
      ∀ s, steps T insns s = ((op.saved A s).bind (step T jump)).bind fun s =>
        op.restored A (dst.elim s fun d => s.set (A.reg d) (s.get .v0)) := by
  have hsw : Assembles T (op.saves.map fun t =>
      ⟨FORMAT4, "sw", [(A.reg t).name, intText (A.offset t), "$fp".toList]⟩)
      (op.saves.map fun t => .sw (A.reg t) (A.offset t) .fp) :=
    assembles_map fun t ht => name_fp ▸ insn_sw T _ .fp (ho t ht)
  have hlw : Assembles T (op.saves.map fun t =>
      ⟨FORMAT4, "lw", [(A.reg t).name, intText (A.offset t), "$fp".toList]⟩)
      (op.saves.map fun t => .lw (A.reg t) (A.offset t) .fp) :=
    assembles_map fun t ht => name_fp ▸ insn_lw T _ .fp (ho t ht)
  rcases dst with _ | d
  · refine ⟨_, ((hsw.append (assembles_one hm)).append assembles_nil).append hlw, fun s => ?_⟩
    rw [List.append_nil, List.append_assoc, steps_append, steps_saved, Option.bind_assoc]
    refine congrArg _ (funext fun s₁ => ?_)
    rw [List.singleton_append, steps_cons]
    exact congrArg _ (funext fun s₂ => steps_restored)
  · have hmove : Assembles T [⟨FORMAT2, "move", [(A.reg d).name, "$v0".toList]⟩]
        [.move (A.reg d) .v0] := assembles_one (name_v0 ▸ insn_move T _ .v0)
    refine ⟨_, ((hsw.append (assembles_one hm)).append hmove).append hlw, fun s => ?_⟩
    rw [List.append_assoc, List.append_assoc, steps_append, steps_saved, Option.bind_assoc]
    refine congrArg _ (funext fun s₁ => ?_)
    rw [List.singleton_append, List.singleton_append, steps_cons]
    exact congrArg _ (funext fun s₂ => steps_restored)

/-- A string has the same label at the end. -/
theorem stringLabel_final {value : String}
    (h : (getStringConstLabel strs value).2 <+: stringConst) :
    (getStringConstLabel strs value).1 = stringLabel (stringConst.idxOf value) := by
  obtain ⟨rest, rfl⟩ := h
  unfold getStringConstLabel
  split_ifs with hm
  · rw [List.idxOf_append_of_mem hm]
  · rw [List.idxOf_append_of_mem (by simp), List.idxOf_append_of_notMem hm]
    simp [List.idxOf_eq_length hm]

/-- The lines of an operation are instructions that do what the operation does. -/
theorem assembles_genAsm (hv : op.Valid A) (hr : Right T op.instr) :
    ∃ insns, Assembles T (genAsm A op strs).1 insns ∧
      ∀ stringConst, (genAsm A op strs).2 <+: stringConst →
        ∀ s s', op.effect T A stringConst s = some s' → steps T insns s = some s' := by
  rcases op with ⟨i, actual, saves⟩
  cases i with
  | binary o dst a b =>
    refine ⟨_, assembles_one (insn_binary T _ _ _ o), fun sc _ s s' h => ?_⟩
    simp only [Op.effect, Op.value] at h
    split_ifs at h with hb
    · simp at h
    · rw [steps_one, step, aluOf_value fun ho => by_contra fun hn => hb ⟨ho, hn⟩, aluOf_spoils, h]
  | mult a b => exact ⟨_, assembles_one (insn_mult T _ _), fun sc _ s s' h => h⟩
  | mflo dst => exact ⟨_, assembles_one (insn_mflo T _), fun sc _ s s' h => h⟩
  | neg dst a => exact ⟨_, assembles_one (insn_negu T _ _), fun sc _ s s' h => h⟩
  | lnot dst a => exact hr.elim
  | assign dst a =>
    have hz := A.reg_ne_zero (hv.dst dst rfl).1
    by_cases he : A.reg dst = A.reg a
    · refine ⟨[], by simp [genAsm, he, assembles_nil], fun sc _ s s' h => ?_⟩
      have hset : s.set (A.reg dst) (s.get (A.reg a)) = s := by
        rw [← he]
        exact State.set_get hz
      rw [← h]
      exact congrArg some hset.symm
    · refine ⟨[.move (A.reg dst) (A.reg a)], ?_, fun sc _ s s' h => h⟩
      simpa [genAsm, he] using assembles_one (insn_move T (A.reg dst) (A.reg a))
  | loadVtbl dst vtbl =>
    exact ⟨_, assembles_one (insn_la T _ (hv.label vtbl rfl)), fun sc _ s s' h => h⟩
  | loadImm4 dst imm =>
    simp only [genAsm]
    by_cases hz : (BitVec.ofInt 32 imm).toNat < 2 ^ 16
    · rw [if_pos (high_eq_zero_iff.2 hz)]
      have hlow := @toInt_low (BitVec.ofInt 32 imm)
      refine ⟨_, assembles_one (insn_li T _ (by omega)), fun sc _ s s' h => ?_⟩
      rw [← h, steps_one, step, ofInt_low hz]
      rfl
    · obtain ⟨hlow, hup⟩ := hr.resolve_left hz
      rw [if_neg (mt high_eq_zero_iff.1 hz), if_neg (by simpa using low_eq_zero_iff.2 hlow)]
      have hlui := insn_lui_high T (A.reg dst) (BitVec.ofInt 32 imm)
      rw [if_pos hup] at hlui
      refine ⟨_, assembles_one hlui, fun sc _ s s' h => ?_⟩
      rw [← h, steps_one, step, ofInt_high hlow]
      rfl
  | loadStrConst dst value =>
    refine ⟨_, assembles_one (insn_la T _ (isLabel_stringLabel _)), fun sc hsc s s' h => ?_⟩
    rw [← h]
    exact congrArg (fun l => some (s.set (A.reg dst) (T.symbol l))) (stringLabel_final hsc)
  | indirectCall dst func =>
    obtain ⟨insns, hi, hrun⟩ := @assembles_call T A ⟨.indirectCall dst func, actual, saves⟩ _ _
      (insn_jalr T (A.reg func)) (fun t ht => hv.offset _ (List.mem_map.2 ⟨t, ht, rfl⟩)) dst
    exact ⟨insns, hi, fun sc _ s s' h => by rw [hrun]; exact h⟩
  | directCall dst func =>
    obtain ⟨insns, hi, hrun⟩ := @assembles_call T A ⟨.directCall dst func, actual, saves⟩ _ _
      (insn_jal T (hv.label func rfl)) (fun t ht => hv.offset _ (List.mem_map.2 ⟨t, ht, rfl⟩)) dst
    exact ⟨insns, hi, fun sc _ s s' h => by rw [hrun]; exact h⟩
  | parm src =>
    have ho := hv.offset actual (by simp [Op.offsets])
    refine ⟨_, assembles_one (name_sp ▸ insn_sw T (A.reg src) .sp ho), fun sc _ s s' h => ?_⟩
    rw [steps_one]
    exact h
  | load dst base offset =>
    have ho := hv.offset offset (by simp [Op.offsets])
    refine ⟨_, assembles_one (insn_lw T _ _ ho), fun sc _ s s' h => ?_⟩
    rw [steps_one]
    exact h
  | store src base offset =>
    have ho := hv.offset offset (by simp [Op.offsets])
    refine ⟨_, assembles_one (insn_sw T _ _ ho), fun sc _ s s' h => ?_⟩
    rw [steps_one]
    exact h

/-! ## Blocks -/

theorem prefix_getStringConstLabel (value : String) :
    strs <+: (getStringConstLabel strs value).2 := by
  unfold getStringConstLabel
  split_ifs
  · exact List.prefix_rfl
  · exact List.prefix_append _ _

theorem prefix_genAsm : strs <+: (genAsm A op strs).2 := by
  rcases op with ⟨i, actual, saves⟩
  cases i
  case loadStrConst dst value => exact prefix_getStringConstLabel value
  all_goals exact List.prefix_rfl

theorem prefix_genAsmForBB : ∀ (ops : List Op) (strs : List String),
    strs <+: (genAsmForBB A ops strs).2
  | [], _ => List.prefix_rfl
  | _ :: ops, _ => prefix_genAsm.trans (prefix_genAsmForBB ops _)

theorem effects_cons {ops : List Op} : effects T A stringConst (op :: ops) s =
    (op.effect T A stringConst s).bind (effects T A stringConst ops) := rfl

theorem effects_one : effects T A stringConst [op] s = op.effect T A stringConst s := by
  simp [effects]

theorem effects_append {ops ops' : List Op} : effects T A stringConst (ops ++ ops') s =
    (effects T A stringConst ops s).bind (effects T A stringConst ops') :=
  List.foldlM_append

/-- What the operations of a block do, one after the other, the instructions do. -/
theorem assembles_genAsmForBB : ∀ (ops : List Op) (strs : List String),
    (∀ op ∈ ops, op.Valid A ∧ Right T op.instr) →
      ∃ insns, Assembles T (genAsmForBB A ops strs).1 insns ∧
        ∀ stringConst, (genAsmForBB A ops strs).2 <+: stringConst →
          ∀ s s', effects T A stringConst ops s = some s' → steps T insns s = some s'
  | [], _, _ => ⟨[], assembles_nil, fun _ _ _ _ h => h⟩
  | op :: ops, strs, h => by
    simp only [List.mem_cons, forall_eq_or_imp] at h
    obtain ⟨insns, hi, hrun⟩ := @assembles_genAsm T A strs op h.1.1 h.1.2
    obtain ⟨rest, hr, hrest⟩ := assembles_genAsmForBB ops (genAsm A op strs).2 h.2
    refine ⟨insns ++ rest, hi.append hr, fun sc hsc s s' he => ?_⟩
    rw [effects_cons] at he
    obtain ⟨s₁, h₁, h₂⟩ := Option.bind_eq_some_iff.1 he
    rw [steps_append, hrun sc ((prefix_genAsmForBB ops _).trans hsc) s s₁ h₁]
    exact hrest sc hsc s₁ s' h₂

theorem performs_iff {ops : List Op} {Q : List String → State → State → Prop} :
    Performs T A ops strs Q ↔ ∃ insns, Assembles T (genAsmForBB A ops strs).1 insns ∧
      ∀ stringConst, (genAsmForBB A ops strs).2 <+: stringConst →
        ∀ s s', effects T A stringConst ops s = some s' →
          steps T insns s = some s' ∧ Q stringConst s s' := by
  unfold Performs
  exact text_iff (P := fun f => ∀ stringConst, (genAsmForBB A ops strs).2 <+: stringConst →
    ∀ s s', effects T A stringConst ops s = some s' → f s = some s' ∧ Q stringConst s s')

theorem performs_of_right {ops : List Op} {Q : List String → State → State → Prop}
    (h : ∀ op ∈ ops, op.Valid A ∧ Right T op.instr)
    (hQ : ∀ stringConst s s', effects T A stringConst ops s = some s' → Q stringConst s s') :
    Performs T A ops strs Q := by
  obtain ⟨insns, hi, hrun⟩ := @assembles_genAsmForBB T A ops strs h
  exact performs_iff.2 ⟨insns, hi, fun sc hsc s s' he => ⟨hrun sc hsc s s' he, hQ sc s s' he⟩⟩

theorem get_load {r : RegId} {t : Temp} {a : BitVec 32} (h : A.reg t ≠ r)
    (hs : (s.load a).map (s.set (A.reg t)) = some s') : s'.get r = s.get r := by
  obtain ⟨v, _, rfl⟩ := Option.map_eq_some_iff.1 hs
  exact State.get_set_of_ne (Ne.symm h)

/-- A register that is not one of theirs is as before when the temporaries come back. -/
theorem get_restored {r : RegId} (h : ∀ t ∈ op.saves, A.reg t ≠ r)
    (hs : op.restored A s = some s') : s'.get r = s.get r := by
  unfold Op.restored at hs
  generalize op.saves = ts at h hs
  induction ts generalizing s with
  | nil => exact congrArg (State.get · r) (Option.some.inj hs).symm
  | cons t ts ih =>
    rw [List.foldlM_cons] at hs
    obtain ⟨s₁, h₁, h₂⟩ := Option.bind_eq_some_iff.1 hs
    rw [ih (fun u hu => h u (by simp [hu])) h₂, get_load (h t (by simp)) h₁]

/-- An operation that does something has left its value. -/
theorem value_of_effect (hv : op.Valid A) (h : op.effect T A stringConst s = some s') :
    ∀ d ∈ op.dst, op.value T A stringConst s = some (s'.get (A.reg d)) := by
  intro d hd
  have hz := A.reg_ne_zero (hv.dst d hd).1
  have hset : ∀ {v : Option (BitVec 32)}, v.map (s.set (A.reg d)) = some s' →
      v = some (s'.get (A.reg d)) := by
    intro v hm
    obtain ⟨x, rfl, rfl⟩ := Option.map_eq_some_iff.1 hm
    rw [State.get_set_self hz]
  -- a function that comes back leaves its value in `$v0`
  have hcall : ∀ {s₁ : Option State}, (s₁.bind fun s => op.restored A
      (op.dst.elim s fun d => s.set (A.reg d) (s.get .v0))) = some s' →
      s₁.map (·.get .v0) = some (s'.get (A.reg d)) := by
    intro s₁ hb
    obtain ⟨s₂, rfl, h₂⟩ := Option.bind_eq_some_iff.1 hb
    rw [Option.mem_def.1 hd] at h₂
    rw [get_restored (hv.dst d hd).2 h₂]
    simp [State.get_set_self hz]
  rcases op with ⟨i, actual, saves⟩
  cases i with
  | binary o dst a b =>
    obtain rfl : dst = d := Option.some.inj hd
    obtain ⟨v, hval, rfl⟩ := Option.map_eq_some_iff.1 h
    rw [hval, State.get_spoil, State.get_set_self hz]
  | mult a b => exact absurd hd (by simp [Op.dst])
  | store src base offset => exact absurd hd (by simp [Op.dst])
  | parm src => exact absurd hd (by simp [Op.dst])
  | directCall dst func =>
    exact hcall h
  | indirectCall dst func =>
    exact hcall h
  | _ =>
    obtain rfl := Option.some.inj hd
    exact hset h

theorem assembles_unique {asms : List MipsAsm} {insns insns' : List Insn}
    (h : Assembles T asms insns) (h' : Assembles T asms insns') : insns = insns' :=
  Option.some.inj (h.symm.trans h')

/-- `not` of a boolean is not a boolean. -/
theorem not_selects_lnot {dst a : Temp} (hi : op.instr = .lnot dst a) (hv : op.Valid A) :
    ¬ Selects T A op strs := by
  rintro h
  obtain ⟨insns, hinsns, hrun⟩ := performs_iff.1 h
  rcases op with ⟨i, actual, saves⟩
  obtain rfl : i = .lnot dst a := hi
  have hz := A.reg_ne_zero (hv.dst dst rfl).1
  obtain rfl : [Insn.not (A.reg dst) (A.reg a)] = insns :=
    assembles_unique (assembles_one (insn_not T _ _)) hinsns
  -- all registers are zero
  obtain ⟨s, hs⟩ : ∃ s : State, s = ⟨fun _ => 0#32, 0#32, fun _ => 0#8⟩ := ⟨_, rfl⟩
  have hget : s.get (A.reg a) = 0#32 := by simp [hs, State.get]
  have heff : effects T A strs [⟨.lnot dst a, actual, saves⟩] s =
      some (s.set (A.reg dst) (lnotValue 0#32)) := by
    rw [effects_one]
    simp [Op.effect, Op.value, hget, IsBool]
  have hstep := (hrun strs List.prefix_rfl s _ heff).1
  have hv := congrArg (State.get · (A.reg dst)) (Option.some.inj hstep)
  simp only [State.get_set_self hz, hget] at hv
  exact absurd hv (by decide)

/-- The lines of a constant that needs both halves, or the upper half of a negative number. -/
theorem not_selects_loadImm4 {dst : Temp} {imm : ℤ} (hi : op.instr = .loadImm4 dst imm)
    (h : ¬ Right T op.instr) : ¬ Selects T A op strs := by
  rintro hs
  obtain ⟨insns, hinsns, -⟩ := performs_iff.1 hs
  rcases op with ⟨i, actual, saves⟩
  obtain rfl : i = .loadImm4 dst imm := hi
  simp only [Right, not_or, not_and] at h
  simp only [Assembles, genAsmForBB, genAsm] at hinsns
  generalize BitVec.ofInt 32 imm = value at h hinsns
  have hlui := insn_lui_high T (A.reg dst) value
  rw [if_neg (mt high_eq_zero_iff.1 h.1)] at hinsns
  simp only [ne_eq, low_eq_zero_iff] at hinsns
  by_cases hlow : value.toNat % 2 ^ 16 = 0
  · rw [if_neg (by simpa using h.2 hlow)] at hlui
    simp [hlui, -BitVec.toInt_sshiftRight] at hinsns
  · rw [if_pos hlow] at hinsns
    simp [insn_addiu, -BitVec.toInt_and] at hinsns

theorem lo_of_spills : ∀ {spills : List Op}, (∀ op ∈ spills, op.IsSpill) →
    ∀ {s s' : State}, effects T A stringConst spills s = some s' → s'.lo = s.lo
  | [], _, s, s', h => congrArg State.lo (Option.some.inj h).symm
  | op :: ops, hall, s, s', h => by
    simp only [List.mem_cons, forall_eq_or_imp] at hall
    rw [effects_cons] at h
    obtain ⟨s₁, h₁, h₂⟩ := Option.bind_eq_some_iff.1 h
    rw [lo_of_spills hall.2 h₂]
    rcases op with ⟨i, actual, saves⟩
    cases i with
    | load dst base offset =>
      obtain ⟨v, _, rfl⟩ := Option.map_eq_some_iff.1 h₁
      rfl
    | store src base offset => exact State.lo_store h₁
    | _ => exact hall.1.elim

end Ops

/-! ## Results -/

section Results

variable (T : Target) (A : Alloc) {strs : List String}

/-- `MULT`, then loads and stores of the allocator, then `MFLO`: the low 32 bits of the product. -/
theorem performs_product {m p : Op} {spills : List Op} {a b dst : Temp}
    (hm : m.instr = .mult a b) (hs : ∀ op ∈ spills, op.IsSpill ∧ op.Valid A)
    (hp : p.instr = .mflo dst) (hv : p.Valid A) :
    Performs T A (m :: (spills ++ [p])) strs fun _ s s' => s'.get (A.reg dst) =
      BitVec.ofInt 32 ((s.get (A.reg a)).toInt * (s.get (A.reg b)).toInt) := by
  have hright : ∀ op ∈ m :: (spills ++ [p]), op.Valid A ∧ Right T op.instr := by
    simp only [List.mem_cons, List.mem_append, List.not_mem_nil, or_false]
    rintro op (rfl | hop | rfl)
    · exact ⟨⟨by simp [Op.dst, hm], by simp [Op.label, hm], by simp [Op.offsets, hm]⟩,
        by simp [hm, Right]⟩
    · refine ⟨(hs op hop).2, ?_⟩
      have hspill := (hs op hop).1
      unfold Op.IsSpill at hspill
      unfold Right
      split <;> simp_all
    · exact ⟨hv, by simp [hp, Right]⟩
  refine performs_of_right hright fun sc s s' he => ?_
  rw [effects_cons] at he
  obtain ⟨s₁, h₁, he⟩ := Option.bind_eq_some_iff.1 he
  rw [effects_append] at he
  obtain ⟨s₂, h₂, h₃⟩ := Option.bind_eq_some_iff.1 he
  have hlo : s₁.lo = s.get (A.reg a) * s.get (A.reg b) := by
    simp only [Op.effect, hm] at h₁
    rw [← Option.some.inj h₁]
  have hz := A.reg_ne_zero (hv.dst dst (by simp [Op.dst, hp])).1
  rw [effects_one] at h₃
  simp only [Op.effect, Op.value, hp, Option.map_some] at h₃
  rw [← Option.some.inj h₃, State.get_set_self hz, lo_of_spills (fun op hop => (hs op hop).1) h₂,
    hlo, BitVec.ofInt_mul, BitVec.ofInt_toInt, BitVec.ofInt_toInt]

/-- The text of an operation is well formed and leaves the value of the operation in the register of
`op0`, but for `LNOT` and some constants of `LOAD_IMM4`. So does the text of a block of such
operations, one after the other, and a product is not lost by loads and stores before `MFLO`. -/
theorem genAsmForBB_selects :
    (∀ op strs, op.Valid A → (Selects T A op strs ↔ Right T op.instr)) ∧
      (∀ ops strs, (∀ op ∈ ops, op.Valid A ∧ Right T op.instr) →
        Performs T A ops strs fun _ _ _ => True) ∧
      ∀ m spills p a b dst strs, m.instr = .mult a b →
        (∀ op ∈ spills, op.IsSpill ∧ op.Valid A) → p.instr = .mflo dst → p.Valid A →
          Performs T A (m :: (spills ++ [p])) strs fun _ s s' => s'.get (A.reg dst) =
            BitVec.ofInt 32 ((s.get (A.reg a)).toInt * (s.get (A.reg b)).toInt) := by
  refine ⟨fun op strs hv => ⟨fun h => ?_, fun hr => ?_⟩, fun ops strs h => ?_,
    fun m spills p a b dst strs hm hs hp hv => performs_product T A hm hs hp hv⟩
  · by_contra hr
    rcases hi : op.instr with _ | _ | _ | _ | ⟨dst, a⟩ | _ | _ | _ | _ | _ | _ | ⟨dst, imm⟩ | _ | _
    case lnot => exact not_selects_lnot hi hv h
    case loadImm4 => exact not_selects_loadImm4 hi hr h
    all_goals exact hr (by simp [hi, Right])
  · refine performs_of_right (by simpa using ⟨hv, hr⟩) fun sc s s' he => ?_
    rw [effects_one] at he
    exact value_of_effect hv he
  · exact performs_of_right h fun _ _ _ _ => trivial

end Results

/-- Two registers, for the temporary 1 and for the others. -/
def twoRegs : Alloc where
  fp := 0
  reg t := if t = 0 then .fp else if t = 1 then .t0 else .t1
  offset _ := -8
  fp_reg := rfl
  general t h := by
    rw [if_neg h]
    split_ifs <;> decide

def flat : Target where
  signedUpper := false
  symbol _ := 0#32
  call _ s := some s
  spoiled _ := 0#32

example : (genAsmForBB twoRegs [⟨.loadImm4 1 65537, 0, []⟩] []).1.map MipsAsm.asm =
    [some "lui   $t0, 1".toList, some "addiu $t0, $t0".toList] := by decide

theorem genAsmForBB_selects_spilled :
    Selects flat twoRegs ⟨.loadImm4 1 65535, 0, []⟩ [] ∧
      Performs flat twoRegs [⟨.assign 1 2, 0, []⟩, ⟨.neg 1 1, 0, []⟩] [] (fun _ _ _ => True) ∧
      Performs flat twoRegs [⟨.mult 1 2, 0, []⟩, ⟨.load 2 0 (-8), 0, []⟩, ⟨.mflo 1, 0, []⟩] []
        fun _ s s' => s'.get .t0 = BitVec.ofInt 32 ((s.get .t0).toInt * (s.get .t1).toInt) := by
  obtain ⟨hone, hblock, hproduct⟩ := genAsmForBB_selects flat twoRegs
  have himm : Right flat (.loadImm4 1 65535) := by
    simp only [Right]
    decide
  have hassign : (⟨.assign 1 2, 0, []⟩ : Op).Valid twoRegs := ⟨by decide, by decide, by decide⟩
  have hneg : (⟨.neg 1 1, 0, []⟩ : Op).Valid twoRegs := ⟨by decide, by decide, by decide⟩
  have hload : (⟨.load 2 0 (-8), 0, []⟩ : Op).Valid twoRegs := ⟨by decide, by decide, by decide⟩
  refine ⟨(hone _ _ ⟨by decide, by decide, by decide⟩).2 himm, hblock _ _ ?_,
    hproduct _ [⟨.load 2 0 (-8), 0, []⟩] _ 1 2 1 [] rfl ?_ rfl
      ⟨by decide, by decide, by decide⟩⟩
  · simpa [Right] using ⟨hassign, hneg⟩
  · simpa [Op.IsSpill] using hload

/-- `not` leaves another word than 0 and 1, and the text for 65537 is not assembled. -/
theorem lnot_and_imm_not_selected :
    ¬ Selects flat twoRegs ⟨.lnot 1 2, 0, []⟩ [] ∧
      ¬ Selects flat twoRegs ⟨.loadImm4 1 65537, 0, []⟩ [] := by
  refine ⟨not_selects_lnot rfl ⟨by decide, by decide, by decide⟩, not_selects_loadImm4 rfl ?_⟩
  simp only [Right]
  decide

end Mips

end Decaf

end CacheCPU
