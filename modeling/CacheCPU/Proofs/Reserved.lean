import CacheCPU.Proofs.Entry

/-!
# Reserved instructions

`ins_undef` comes with `alu_ops` from one table, which looks at the function code of opcode 0 only.
The instruction table of the requirements selects the two `REGIMM` branches by `rt` and the four
`COP0` instructions by `rs` and the function code, so that every other word with one of these
opcodes is executed as one of them. Two rows of that table are misprinted: `addiu` has the opcode of
`addi`, and `jalr` the encoding of `jal`.
-/

namespace CacheCPU

namespace Isa

/-! ## The instruction table -/

/-- How a row of the table selects its words. -/
inductive Row
  | opcode (f : BitVec 6)
  | funct (l : BitVec 6)
  | regimm (rt : BitVec 5)
  | cop0 (rs : BitVec 5) (l : BitVec 6)

def regimm : BitVec 6 := 0b000001#6

def cop0 : BitVec 6 := 0b010000#6

/-- The row selects the words with these fields. -/
def Row.selects (f l : BitVec 6) (rs rt : BitVec 5) : Row → Bool
  | opcode f' => f == f'
  | funct l' => f == F.zero && l == l'
  | regimm rt' => f == Isa.regimm && rt == rt'
  | cop0 rs' l' => f == Isa.cop0 && rs == rs' && l == l'

/-- The table as it is printed, in its order. -/
def printed : List Row :=
  [.opcode 0b001000#6, -- addiu
    .funct 0b100001#6, -- addu
    .funct 0b101010#6, -- slt
    .opcode 0b001010#6, -- slti
    .opcode 0b001011#6, -- sltiu
    .funct 0b101011#6, -- sltu
    .funct 0b100011#6, -- subu
    .funct 0b011000#6, -- mult
    .funct 0b010010#6, -- mflo
    .funct 0b010000#6, -- mfhi
    .funct 0b010011#6, -- mtlo
    .funct 0b010001#6, -- mthi
    .funct 0b100100#6, -- and
    .opcode 0b001100#6, -- andi
    .opcode 0b001111#6, -- lui
    .funct 0b100111#6, -- nor
    .funct 0b100101#6, -- or
    .opcode 0b001101#6, -- ori
    .funct 0b100110#6, -- xor
    .opcode 0b001110#6, -- xori
    .funct 0b000000#6, -- sll
    .funct 0b000100#6, -- sllv
    .funct 0b000011#6, -- sra
    .funct 0b000111#6, -- srav
    .funct 0b000010#6, -- srl
    .funct 0b000110#6, -- srlv
    .opcode 0b000100#6, -- beq
    .regimm 0b00001#5, -- bgez
    .opcode 0b000111#6, -- bgtz
    .opcode 0b000110#6, -- blez
    .regimm 0b00000#5, -- bltz
    .opcode 0b000101#6, -- bne
    .opcode 0b000010#6, -- j
    .opcode 0b000011#6, -- jal
    .opcode 0b000011#6, -- jalr
    .funct 0b001000#6, -- jr
    .opcode 0b100011#6, -- lw
    .opcode 0b101011#6, -- sw
    .opcode 0b100000#6, -- lb
    .opcode 0b100100#6, -- lbu
    .opcode 0b101000#6, -- sb
    .funct 0b001100#6, -- syscall
    .opcode 0b101111#6, -- cache
    .cop0 0b10000#5 0b011000#6, -- eret
    .cop0 0b00000#5 0b000000#6, -- mfc0
    .cop0 0b00100#5 0b000000#6, -- mtc0
    .cop0 0b10000#5 0b000010#6, -- tlbwi
    .opcode 0b100101#6] -- lhu

/-- No row selects the word. -/
def Reserved (w : BitVec 32) : Prop :=
  ∀ r ∈ printed, r.selects (first w) (last w) (rsOf w) (rtOf w) = false

/-- A `REGIMM` or `COP0` word of no row. -/
def Unlisted (w : BitVec 32) : Prop :=
  (first w = regimm ∧ rtOf w ≠ 0b00001#5 ∧ rtOf w ≠ 0b00000#5)
    ∨ first w = cop0 ∧ ¬ ((rsOf w = 0b10000#5 ∧ (last w = 0b011000#6 ∨ last w = 0b000010#6))
      ∨ ((rsOf w = 0b00000#5 ∨ rsOf w = 0b00100#5) ∧ last w = 0b000000#6))

/-- A word of the rows for `addiu` and `jalr`, as they are printed or as they are meant. -/
def Misprinted (w : BitVec 32) : Prop :=
  first w = 0b001000#6 ∨ first w = F.addiu ∨ first w = F.zero ∧ last w = L.jalr

/-- Only `REGIMM` and `COP0` look at the registers, and only they and opcode 0 at anything. -/
theorem selects_eq (r : Row) {f l : BitVec 6} {rs rt : BitVec 5} (hr : f ≠ regimm) (hc : f ≠ cop0) :
    r.selects f l rs rt = r.selects f (if f = F.zero then l else 0#6) 0#5 0#5 := by
  cases r with
  | opcode f' => rfl
  | funct l' =>
    by_cases hz : f = F.zero
    · rw [if_pos hz]
      rfl
    · simp [Row.selects, beq_eq_false_iff_ne.2 hz]
  | regimm rt' => simp [Row.selects, beq_eq_false_iff_ne.2 hr]
  | cop0 rs' l' => simp [Row.selects, beq_eq_false_iff_ne.2 hc]

theorem insUndef_of_funct : ∀ l : BitVec 6, l ≠ L.jalr →
    ((aluOps F.zero l).2 = true ↔ ∀ r ∈ printed, r.selects F.zero l 0#5 0#5 = false) := by
  decide +kernel

theorem insUndef_of_opcode : ∀ f : BitVec 6, f ≠ F.zero → f ≠ regimm → f ≠ cop0 →
    f ≠ 0b001000#6 → f ≠ F.addiu →
    ((aluOps f 0#6).2 = true ↔ ∀ r ∈ printed, r.selects f 0#6 0#5 0#5 = false) := by
  decide +kernel

theorem aluOps_congr {f : BitVec 6} (hz : f ≠ F.zero) (l : BitVec 6) : aluOps f l = aluOps f 0#6 := by
  unfold aluOps
  rw [if_neg hz, if_neg hz]

/-- `ins_undef` is right where neither `REGIMM` and `COP0` nor the misprints are concerned. -/
theorem insUndef_iff_reserved {w : BitVec 32} (hr : first w ≠ regimm) (hc : first w ≠ cop0)
    (hm : ¬ Misprinted w) : (aluOps (first w) (last w)).2 = true ↔ Reserved w := by
  have hsel : Reserved w ↔ ∀ r ∈ printed, r.selects (first w)
      (if first w = F.zero then last w else 0#6) 0#5 0#5 = false := by
    refine forall₂_congr fun r _ => ?_
    rw [selects_eq r hr hc]
  rw [hsel]
  simp only [Misprinted, not_or, not_and] at hm
  by_cases hz : first w = F.zero
  · rw [if_pos hz, hz]
    exact insUndef_of_funct (last w) (hm.2.2 hz)
  · rw [if_neg hz, aluOps_congr hz]
    exact insUndef_of_opcode (first w) hz hr hc hm.1 hm.2.1

/-- With these two opcodes the words of no row are the unlisted ones. -/
theorem reserved_iff_unlisted {w : BitVec 32} (h : first w = regimm ∨ first w = cop0) :
    Reserved w ↔ Unlisted w := by
  rcases h with hf | hf
  · simp only [Reserved, printed, List.forall_mem_cons, Row.selects, Unlisted, hf, cop0, regimm,
      F.zero]
    simp
  · simp only [Reserved, printed, List.forall_mem_cons, Row.selects, Unlisted, hf, cop0, regimm,
      F.zero]
    simp
    tauto

/-- The misprinted rows say the opposite of what is done. -/
theorem not_insUndef_iff_reserved {w : BitVec 32} (hm : Misprinted w) :
    ¬ ((aluOps (first w) (last w)).2 = true ↔ Reserved w) := by
  have hsel : first w ≠ regimm → first w ≠ cop0 → (Reserved w ↔ ∀ r ∈ printed, r.selects (first w)
      (if first w = F.zero then last w else 0#6) 0#5 0#5 = false) := fun hr hc =>
    forall₂_congr fun r _ => by rw [selects_eq r hr hc]
  rcases hm with hf | hf | ⟨hf, hl⟩
  · rw [hsel (by rw [hf]; decide) (by rw [hf]; decide), hf, if_neg (by decide), aluOps_congr (by decide)]
    decide
  · rw [hsel (by rw [hf]; decide) (by rw [hf]; decide), hf, if_neg (by decide), aluOps_congr (by decide)]
    decide
  · rw [hsel (by rw [hf]; decide) (by rw [hf]; decide), hf, if_pos rfl, hl]
    decide

/-- `ins_undef` follows the table if and only if the word is none of these. -/
theorem insUndef_right_iff (w : BitVec 32) :
    ((aluOps (first w) (last w)).2 = true ↔ Reserved w) ↔ ¬ (Unlisted w ∨ Misprinted w) := by
  by_cases hm : Misprinted w
  · exact iff_of_false (not_insUndef_iff_reserved hm) fun hn => hn (.inr hm)
  by_cases hf : first w = regimm ∨ first w = cop0
  · have hundef : (aluOps (first w) (last w)).2 = false := by
      rcases hf with hf | hf <;> rw [hf] <;> rfl
    rw [hundef, reserved_iff_unlisted hf]
    simp [hm]
  · rw [not_or] at hf
    refine iff_of_true (insUndef_iff_reserved hf.1 hf.2 hm) ?_
    rintro ((⟨h, -⟩ | ⟨h, -⟩) | h)
    · exact hf.1 h
    · exact hf.2 h
    · exact hm h

end Isa

/-! ## The decoding edge -/

namespace Machine

variable {m a b : Machine}

/-- The code that the edge of `InsD` raises. -/
theorem excCode_insD (hc : Control m) (hs : m.state = .insD) (h : Step m a) :
    a.cpu.id.excCode = if (aluOps (first m.instr) (last m.instr)).2 then 0b10#2
      else if isSyscall m.instr then 0b01#2 else 0b00#2 := by
  obtain ⟨q, hcpu, -, -⟩ := step_cases h
  have hs' : m.cpu.state m.phy = .insD := hs
  have hold : m.cpu.oldState = .insF := by
    rcases hc.inFlight_cases (by rw [hs]; rfl) with ⟨-, ho⟩ | ⟨hn, -⟩
    · exact ho
    · exact absurd hs hn
  have hquiet : m.cpu.id.excCounter = false := by
    refine Bool.eq_false_iff.2 fun hx => ?_
    have ho := (hc.idRaised hx).2.2.1
    rw [hold] at ho
    cases ho
  rw [hcpu, Cpu.cycle_id, hs']
  simp [IDecode.rise, IDecode.fall, IDecode.latch, IDecode.raised, hquiet]
  rfl

/-- Neither the edge of `InsD` nor that of `Exc` changes a register, `Count` apart. -/
theorem registers_kept (hs : m.state = .insD ∨ m.state = .exc) (h : Step m a) :
    a.cpu.archRegs = m.cpu.archRegs ∧ a.cpu.alu.hiLo = m.cpu.alu.hiLo ∧
      a.cpu.mmu.tlbMem = m.cpu.mmu.tlbMem ∧
      ∀ i ≠ CP0.count, a.cpu.cp0.reg i = m.cpu.cp0.reg i := by
  obtain ⟨q, hcpu, -, -⟩ := step_cases h
  have hst : m.cpu.state m.phy = m.state := rfl
  have hexe : m.state ≠ .exe ∧ m.state ≠ .writeB ∧ m.state ≠ .insF := by
    rcases hs with hs | hs <;> rw [hs] <;> decide
  have hwb : a.cpu.wb.writeEnable = false := by
    rw [hcpu, Cpu.cycle_wb, hst]
    rcases hs with hs | hs <;> rw [hs] <;> rfl
  have hgpr : a.cpu.gpr.reg = m.cpu.archRegs := by
    rw [hcpu, Cpu.cycle_gpr]
    rfl
  refine ⟨?_, ?_, ?_, fun i hi => ?_⟩
  · rw [Cpu.archRegs, GeneralRegister.written, hwb, ← hgpr]
    rfl
  · rw [hcpu, Cpu.cycle_alu, hst]
    rcases hs with hs | hs <;> rw [hs] <;> rfl
  · rw [hcpu, Cpu.cycle_mmu, hst]
    simp [Mmu.fall, Mmu.rise, hexe.1]
  · rw [hcpu, Cpu.cycle_cp0, hst]
    exact CP0.regs_of_ne hexe.1 (fun hf => absurd hf hexe.2.2) hi

/-- The word that `m` decodes traps if and only if no row of the table selects it, and a word that
traps leaves every register as it is to the handler, `Count` apart. -/
def TrapsRight (m a : Machine) : Prop :=
  (a.cpu.id.excCode = 0b10#2 ↔ Isa.Reserved m.instr) ∧
    (a.cpu.id.excCode ≠ 0b00#2 → ∀ b, Step a b → b.Fetches ∧ b.cpu.archRegs = m.cpu.archRegs ∧
      b.cpu.alu.hiLo = m.cpu.alu.hiLo ∧ b.cpu.mmu.tlbMem = m.cpu.mmu.tlbMem ∧
      ∀ i ≠ CP0.count, b.cpu.cp0.reg i = m.cpu.cp0.reg i)

/-- Traps are right if and only if the word is neither unlisted nor misprinted. -/
theorem trapsRight_iff (hr : Reachable m) (hs : m.state = .insD) (h : Step m a) :
    TrapsRight m a ↔ ¬ (Isa.Unlisted m.instr ∨ Isa.Misprinted m.instr) := by
  have hcode := excCode_insD hr.control hs h
  have hri : a.cpu.id.excCode = 0b10#2 ↔ (aluOps (first m.instr) (last m.instr)).2 = true := by
    rw [hcode]
    split_ifs with h1 h2 <;> simp [h1]
  have hkeep : a.cpu.id.excCode ≠ 0b00#2 → ∀ b, Step a b → b.Fetches ∧
      b.cpu.archRegs = m.cpu.archRegs ∧ b.cpu.alu.hiLo = m.cpu.alu.hiLo ∧
      b.cpu.mmu.tlbMem = m.cpu.mmu.tlbMem ∧
      ∀ i ≠ CP0.count, b.cpu.cp0.reg i = m.cpu.cp0.reg i := by
    intro hne b hb
    have hc := (hr.step h).control
    have hready : a.phy.ready = true := by
      refine (hc.idRaised ?_).1
      by_contra hn
      exact hne (hc.idQuiet (Bool.eq_false_iff.2 hn))
    have hx : a.state = .exc := by
      rcases a.state_cases with ⟨hb, -⟩ | ⟨-, -, hx⟩ | ⟨-, hno, -⟩
      · simp [hready] at hb
      · exact hx
      · simp [Cpu.excep, hne] at hno
    obtain ⟨hready', -, hfetch⟩ := state_after_exc hc hx hb
    obtain ⟨h1, h2, h3, h4⟩ := registers_kept (.inl hs) h
    obtain ⟨h1', h2', h3', h4'⟩ := registers_kept (.inr hx) hb
    exact ⟨⟨hfetch, hready'⟩, h1'.trans h1, h2'.trans h2, h3'.trans h3,
      fun i hi => (h4' i hi).trans (h4 i hi)⟩
  unfold TrapsRight
  rw [hri, Isa.insUndef_right_iff]
  exact and_iff_left hkeep

/-- The machine that decodes `w` as its first instruction. -/
def decoding (w : BitVec 32) : Machine := atReset.feed (idle w)

theorem decoding_reachable (w : BitVec 32) : Reachable (decoding w) :=
  (Reachable.reset atReset_isReset).step (atReset.step_feed rfl)

/-- A word of opcode 0 with no function code of the table. -/
theorem trapsRight_funct : TrapsRight (decoding 1#32) ((decoding 1#32).feed (idle 0#32)) := by
  have hs : (decoding 1#32).state = .insD := by decide +kernel
  have hw : (decoding 1#32).instr = 1#32 := by decide +kernel
  refine (trapsRight_iff (decoding_reachable 1#32) hs ((decoding 1#32).step_feed rfl)).2 ?_
  rw [hw]
  unfold Isa.Unlisted Isa.Misprinted
  decide

/-- `REGIMM` with 2 in `rt` is in no row and is executed as `bltz`. -/
theorem not_trapsRight_regimm : ∃ m a, Reachable m ∧ m.state = .insD ∧ m.instr = 0x04220000#32 ∧
    Step m a ∧ Isa.Reserved m.instr ∧ a.state = .exe ∧ a.cpu.id.compOp = 0b100#3 ∧
    ¬ TrapsRight m a := by
  have hw : (decoding 0x04220000#32).instr = 0x04220000#32 := by decide +kernel
  have hreserved : Isa.Reserved 0x04220000#32 := by
    unfold Isa.Reserved
    decide
  have hcode : ((decoding 0x04220000#32).feed (idle 0#32)).cpu.id.excCode = 0b00#2 := by
    decide +kernel
  refine ⟨decoding 0x04220000#32, (decoding 0x04220000#32).feed (idle 0#32),
    decoding_reachable _, by decide +kernel, hw, step_feed _ rfl, by rw [hw]; exact hreserved,
    by decide +kernel, by decide +kernel, fun ht => ?_⟩
  have := ht.1.2 (by rw [hw]; exact hreserved)
  rw [hcode] at this
  exact absurd this (by decide)

end Machine

end CacheCPU
