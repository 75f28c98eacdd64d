import CacheCPU.Isa
import CacheCPU.Proofs.Flight

/-!
# The next program counter

After `WriteB` the next fetch goes to `EPC` for an `ERET`, else to what write-back computed. For a
taken branch it assigns bits 31 to 2 only, so the low bits are those of the address that the
instruction before would have gone to: they differ from those of the branch when an exception has
come between.
-/

namespace CacheCPU

open Isa

/-! ## Arithmetic -/

theorem branch_target (a b : BitVec 32) (c : BitVec 2) :
    (a.extractLsb 31 2 + b.extractLsb 29 0) ++ c = a + 4#32 * b ↔ c = a.extractLsb 1 0 := by
  have ha := a.isLt
  have hb := b.isLt
  have hc := c.isLt
  rw [← BitVec.toNat_inj, ← BitVec.toNat_inj, BitVec.toNat_append, BitVec.toNat_add,
    BitVec.toNat_add, BitVec.toNat_mul, ← Nat.shiftLeft_add_eq_or_of_lt hc]
  simp only [BitVec.extractLsb_toNat, Nat.shiftLeft_eq, Nat.shiftRight_eq_div_pow]
  simp only [BitVec.toNat_ofNat]
  omega

theorem branch_target_high (a b : BitVec 32) (c : BitVec 2) :
    ((a.extractLsb 31 2 + b.extractLsb 29 0) ++ c).extractLsb 31 2 =
      (a + 4#32 * b).extractLsb 31 2 := by
  have happ : ∀ (h : BitVec 30) (c : BitVec 2), (h ++ c).extractLsb 31 2 = h := by
    intro h c
    ext i hi
    grind
  rw [← (branch_target a b _).2 rfl]
  exact (happ _ _).trans (happ _ _).symm

theorem add_four_low (a : BitVec 32) : (a + 4#32).extractLsb 1 0 = a.extractLsb 1 0 := by
  rw [← BitVec.toNat_inj]
  simp only [BitVec.extractLsb_toNat, BitVec.toNat_add, Nat.shiftRight_zero, BitVec.toNat_ofNat]
  omega

/-! ## The branch condition -/

theorem getElem_31 (v : BitVec 32) : v[31] = decide (v.toInt < 0) := by
  rw [← BitVec.msb_eq_toInt, BitVec.msb_eq_getLsbD_last]
  rfl

theorem toInt_eq_zero_iff (v : BitVec 32) : v.toInt = 0 ↔ v = 0#32 := by
  rw [← BitVec.toInt_inj]
  simp

/-- The opcodes of the branches. -/
def branches : List (BitVec 6) := [F.beq, F.bgez, F.bgtz, F.blez, F.bltz, F.bne]

/-- The rows of `pc_op`. -/
theorem pcOp_cases (f l : BitVec 6) :
    (pcOp f l = 0b11#2 ∧ f = F.zero ∧ (l = L.jr ∨ l = L.jalr)) ∨
    (pcOp f l = 0b01#2 ∧ f ∈ branches) ∨
    (pcOp f l = 0b10#2 ∧ (f = F.j ∨ f = F.jal)) ∨
    (pcOp f l = 0b00#2 ∧ ¬(f = F.zero ∧ (l = L.jr ∨ l = L.jalr)) ∧ f ∉ branches ∧ f ≠ F.j ∧
      f ≠ F.jal) := by
  by_cases hf : f = F.zero
  · subst hf
    by_cases hl : l = L.jr ∨ l = L.jalr
    · refine .inl ⟨?_, rfl, hl⟩
      rcases hl with rfl | rfl <;> rfl
    · refine .inr (.inr (.inr ⟨?_, by simp [hl], by decide, by decide, by decide⟩))
      rw [not_or] at hl
      simp [pcOp, hl]
  · have hany : ∀ l, pcOp f l = pcOp f 0#6 := by
      intro l
      simp only [pcOp, if_neg hf]
    simp only [hany l, hf, false_and, not_false_eq_true, true_and, and_false, false_or]
    clear hany
    revert f
    decide

/-- `m_compare` is the condition of the branch. -/
theorem cond_branch (w rs rt : BitVec 32) (hf : first w ∈ branches) :
    WB.cond (compOp (first w) (w.getLsbD 16)) rs rt = true ↔ branchHolds w rs rt := by
  have hz := toInt_eq_zero_iff rs
  unfold branchHolds
  generalize first w = f at hf
  generalize w.getLsbD 16 = b
  simp only [branches, List.mem_cons, List.not_mem_nil, or_false] at hf
  rcases hf with rfl | rfl | rfl | rfl | rfl | rfl
  · simp [compOp, WB.cond, F.beq, F.bne, F.bgez, F.bltz, F.bgtz, F.blez]
  · cases b <;> simp [compOp, WB.cond, F.beq, F.bne, F.bgez, F.bltz, F.bgtz, F.blez, getElem_31]
  · simp only [compOp, WB.cond, F.beq, F.bne, F.bgez, F.bltz, F.bgtz, F.blez]
    simp [getElem_31, ← hz]
    omega
  · simp only [compOp, WB.cond, F.beq, F.bne, F.bgez, F.bltz, F.bgtz, F.blez]
    simp [getElem_31, ← hz]
    omega
  · cases b <;> simp [compOp, WB.cond, F.beq, F.bne, F.bgez, F.bltz, F.bgtz, F.blez, getElem_31]
  · simp [compOp, WB.cond, F.beq, F.bne, F.bgez, F.bltz, F.bgtz, F.blez]

theorem branch_ne {f : BitVec 6} (h : f ∈ branches) :
    f ≠ F.eret ∧ f ≠ F.zero ∧ f ≠ F.j ∧ f ≠ F.jal := by
  revert f
  decide

theorem not_branchHolds {w rs rt : BitVec 32} (hf : first w ∉ branches) :
    ¬branchHolds w rs rt := by
  simp only [branches, List.mem_cons, List.not_mem_nil, or_false, not_or] at hf
  obtain ⟨h1, h2, h3, h4, h5, h6⟩ := hf
  simp [branchHolds, h1, h2, h3, h4, h5, h6]

theorem mem_branches {w rs rt : BitVec 32} (h : branchHolds w rs rt) : first w ∈ branches := by
  by_contra hn
  exact not_branchHolds hn h

theorem nextPc_eret {w pc rs rt epc : BitVec 32} (h : isEret w = true) :
    nextPc w pc rs rt epc = epc := by
  have h' : first w = F.eret ∧ last w = L.eret := by simpa [isEret] using h
  rw [nextPc, if_pos h']

theorem nextPc_taken {w pc rs rt epc : BitVec 32} (h : branchHolds w rs rt) :
    nextPc w pc rs rt epc = pc + 4#32 + 4#32 * (w.extractLsb 15 0).signExtend 32 := by
  simp [nextPc, branch_ne (mem_branches h), h]

theorem isEret_of_taken {w rs rt : BitVec 32} (h : branchHolds w rs rt) : isEret w = false := by
  simp [isEret, (branch_ne (mem_branches h)).1]

/-! ## What write-back computes -/

section Written

variable (s : Cpu) (w epc : BitVec 32)

/-- The immediate of a branch is the sign-extended offset. -/
theorem imme_branch (hf : first w ∈ branches) : imme w = (w.extractLsb 15 0).signExtend 32 := by
  unfold imme
  generalize first w = f at hf
  simp only [branches, List.mem_cons, List.not_mem_nil, or_false] at hf
  rcases hf with rfl | rfl | rfl | rfl | rfl | rfl <;> rfl

/-- The immediate of a jump holds the target. -/
theorem imme_jump (hf : first w = F.j ∨ first w = F.jal) :
    (imme w).extractLsb 25 0 = w.extractLsb 25 0 := by
  have himm : imme w = (w.extractLsb 25 0).signExtend 32 := by
    unfold imme
    generalize first w = f at hf
    rcases hf with rfl | rfl <;> rfl
  rw [himm]
  ext i hi
  grind

/-- The ALU passes the register of a register jump on. -/
theorem executedAlu_jump (hf : first w = F.zero) (hl : last w = L.jr ∨ last w = L.jalr) :
    (s.executedAlu w).result = s.rsVal w := by
  have hrow : (aluOps (first w) (last w)).1 = 0b001000000#9 := by
    rw [hf]
    rcases hl with hl | hl <;> rw [hl] <;> rfl
  rw [Cpu.executedAlu, hrow]
  exact BitVec.add_zero _

theorem writtenPc_taken (h : branchHolds w (s.rsVal w) (s.rtVal w)) : s.writtenPc w =
    ((s.pcToMmu + 4#32).extractLsb 31 2 + ((w.extractLsb 15 0).signExtend 32).extractLsb 29 0) ++
      s.wb.pcSrc.extractLsb 1 0 := by
  have hf := mem_branches h
  have hop : pcOp (first w) (last w) = 0b01#2 := by
    generalize first w = f at hf
    simp only [branches, List.mem_cons, List.not_mem_nil, or_false] at hf
    rcases hf with rfl | rfl | rfl | rfl | rfl | rfl <;> rfl
  have ht : s.taken w = true := (cond_branch w _ _ hf).2 h
  simp [Cpu.writtenPc, WB.next, hop, ht, imme_branch w hf]

theorem writtenPc_eq (he : isEret w = false) (h : ¬branchHolds w (s.rsVal w) (s.rtVal w)) :
    s.writtenPc w = nextPc w s.pcToMmu (s.rsVal w) (s.rtVal w) epc := by
  have he' : ¬(first w = F.eret ∧ last w = L.eret) := by simpa [isEret] using he
  simp only [nextPc, if_neg he', if_neg h]
  rcases pcOp_cases (first w) (last w) with ⟨hop, hf, hl⟩ | ⟨hop, hf⟩ | ⟨hop, hf⟩ | ⟨hop, hr, -, hj⟩
  · rw [if_pos ⟨hf, hl⟩, ← executedAlu_jump s w hf hl]
    simp [Cpu.writtenPc, WB.next, hop]
  · have ht : s.taken w = false := by
      rw [Cpu.taken, Bool.eq_false_iff, Ne, cond_branch w _ _ hf]
      exact h
    simp [Cpu.writtenPc, WB.next, hop, ht, branch_ne hf]
  · have hz : first w ≠ F.zero := by rcases hf with hf | hf <;> rw [hf] <;> decide
    rw [if_neg (by simp [hz]), if_pos hf, ← imme_jump w hf]
    simp [Cpu.writtenPc, WB.next, hop]
  · rw [if_neg hr, if_neg (by simp [hj])]
    simp [Cpu.writtenPc, WB.next, hop]

end Written

namespace Machine

variable {m a : Machine}

/-- The word that the instruction in flight was decoded from. -/
abbrev word (a : Machine) : BitVec 32 := a.cpu.id.insReg

/-- After `WriteB` the next address is that of write-back, or `EPC` for an `ERET`. -/
theorem InInstr.pcToMmu (hr : Reachable m) (h : InInstr m a) (ho : a.cpu.oldState = .writeB) :
    a.cpu.pcToMmu = if isEret a.word then a.cpu.epc else m.cpu.writtenPc a.word := by
  have hc := (h.reachable hr).control
  have hf := h.flight hr
  simp only [Flight, ho] at hf
  obtain ⟨-, -, data, hw⟩ := hf
  have hsel : a.cpu.exc.pcSel0 = false := by rw [hc.pcSel0, ho]; rfl
  have heret := (hc.latched (by rw [ho]; rfl)).1.eretEnable
  rw [Cpu.pcToMmu, heret, hsel, hw.pcSrc]
  rfl

section Law

variable (hr : Reachable m) (h : InInstr m a) (ho : a.cpu.oldState = .writeB)
include hr h ho

/-- Unless a branch is taken, the next address is that of the law. -/
theorem InInstr.pcToMmu_eq (hb : ¬branchHolds a.word (m.cpu.rsVal a.word) (m.cpu.rtVal a.word)) :
    a.cpu.pcToMmu = nextPc a.word m.cpu.pcToMmu (m.cpu.rsVal a.word) (m.cpu.rtVal a.word)
      a.cpu.epc := by
  rw [h.pcToMmu hr ho]
  split_ifs with he
  · rw [nextPc_eret he]
  · exact writtenPc_eq _ _ _ (by simpa using he) hb

theorem InInstr.pcToMmu_taken (hb : branchHolds a.word (m.cpu.rsVal a.word) (m.cpu.rtVal a.word)) :
    a.cpu.pcToMmu = ((m.cpu.pcToMmu + 4#32).extractLsb 31 2 +
      ((a.word.extractLsb 15 0).signExtend 32).extractLsb 29 0) ++
        m.cpu.wb.pcSrc.extractLsb 1 0 := by
  rw [h.pcToMmu hr ho, isEret_of_taken hb, if_neg (by simp), writtenPc_taken _ _ hb]

/-- Bits 31 to 2 always follow the law. -/
theorem InInstr.pcToMmu_high : a.cpu.pcToMmu.extractLsb 31 2 =
    (nextPc a.word m.cpu.pcToMmu (m.cpu.rsVal a.word) (m.cpu.rtVal a.word)
      a.cpu.epc).extractLsb 31 2 := by
  by_cases hb : branchHolds a.word (m.cpu.rsVal a.word) (m.cpu.rtVal a.word)
  · rw [h.pcToMmu_taken hr ho hb, nextPc_taken hb, branch_target_high]
  · rw [h.pcToMmu_eq hr ho hb]

end Law

/-- An instruction of four stages on a physical level that answers at once. -/
theorem inInstr_feeds {p : PhyOut} (hp : p.ready = true) (hf : m.Fetches)
    (h : ∀ n < 3, (m.feeds (List.replicate (n + 1) p)).state ≠ .exc ∧
      (m.feeds (List.replicate (n + 1) p)).cpu.oldState ≠ .writeB) :
    InInstr m (m.feeds (List.replicate 4 p)) := by
  obtain ⟨h1, h2, h3⟩ := And.intro (h 0 (by decide)) (And.intro (h 1 (by decide)) (h 2 (by decide)))
  exact .next (.next (.next (.fetch hf (m.step_feed hp)) h1.1 h1.2 (step_feed _ hp)) h2.1 h2.2
    (step_feed _ hp)) h3.1 h3.2 (step_feed _ hp)

/-- The next fetch follows the law, all bits included, unless a branch is taken whose address has
other low bits than the register write-back keeps its target in. -/
theorem next_fetch_iff (hr : Reachable m) (h : InInstr m a) (ho : a.cpu.oldState = .writeB)
    (hs : a.state = .insF) :
    (∀ c, Step a c → c.cpu.pcReg = nextPc a.word m.cpu.pcToMmu (m.cpu.rsVal a.word)
      (m.cpu.rtVal a.word) a.cpu.epc) ↔
    ¬(branchHolds a.word (m.cpu.rsVal a.word) (m.cpu.rtVal a.word) ∧
      m.cpu.wb.pcSrc.extractLsb 1 0 ≠ m.cpu.pcToMmu.extractLsb 1 0) := by
  have hready : a.phy.ready = true := by
    by_contra hn
    have hst := (h.reachable hr).control.busy (by simpa using hn)
    simp [ho, Mmu.isInsFOrMem] at hst
  have hpc : ∀ c, Step a c → c.cpu.pcReg = a.cpu.pcToMmu := by
    intro c hstep
    obtain ⟨q, hcpu, -, -⟩ := step_cases hstep
    rw [hcpu, Cpu.cycle_pcReg, if_pos ⟨hs, hready⟩]
  have hnext : (∀ c, Step a c → c.cpu.pcReg = nextPc a.word m.cpu.pcToMmu (m.cpu.rsVal a.word)
      (m.cpu.rtVal a.word) a.cpu.epc) ↔ a.cpu.pcToMmu = nextPc a.word m.cpu.pcToMmu
        (m.cpu.rsVal a.word) (m.cpu.rtVal a.word) a.cpu.epc := by
    constructor
    · intro hall
      obtain ⟨c, hstep⟩ := a.step_exists
      rw [← hpc c hstep, hall c hstep]
    · intro heq c hstep
      rw [hpc c hstep, heq]
  rw [hnext]
  by_cases hb : branchHolds a.word (m.cpu.rsVal a.word) (m.cpu.rtVal a.word)
  · rw [h.pcToMmu_taken hr ho hb, nextPc_taken hb, branch_target, add_four_low]
    simp [hb]
  · simp [hb, h.pcToMmu_eq hr ho hb]

theorem next_fetch_addiu :
    InInstr atReset (atReset.feeds (List.replicate 4 (idle 0x24010001#32))) ∧
      ∀ c, Step (atReset.feeds (List.replicate 4 (idle 0x24010001#32))) c →
        c.cpu.pcReg = 0x90000004#32 := by
  have hin : InInstr atReset (atReset.feeds (List.replicate 4 (idle 0x24010001#32))) := by
    refine inInstr_feeds rfl ⟨rfl, rfl⟩ ?_
    decide +kernel
  have h := (next_fetch_iff (.reset atReset_isReset) hin (by decide +kernel)
    (by decide +kernel)).2 (by decide +kernel)
  refine ⟨hin, fun c hstep => ?_⟩
  rw [h c hstep]
  decide +kernel

/-! ## A branch at the head of a handler -/

/-- After reset: `addiu r1, r0, 1` and `jr r1`, whose target is misaligned; the machine stands
before the fetch of the handler. -/
def misalignedJump : Machine :=
  atReset.feeds (List.replicate 4 (idle 0x24010001#32) ++ List.replicate 6 (idle 0x00200008#32))

/-- The handler begins with `beq r0, r0, 1`. -/
def branchInHandler : Machine := misalignedJump.feeds (List.replicate 4 (idle 0x10000001#32))

theorem misalignedJump_reachable : Reachable misalignedJump :=
  Reachable.feeds (.reset atReset_isReset) (by decide)

theorem branchInHandler_inInstr : InInstr misalignedJump branchInHandler := by
  refine inInstr_feeds rfl ⟨?_, rfl⟩ ?_
  · decide +kernel
  · decide +kernel

/-- The branch goes to `0x80000189`, its low bits left over from the misaligned jump. -/
theorem not_next_fetch : ¬ ∀ m a : Machine, Reachable m → InInstr m a →
    a.cpu.oldState = .writeB → a.state = .insF → ∀ c, Step a c → c.cpu.pcReg =
      nextPc a.word m.cpu.pcToMmu (m.cpu.rsVal a.word) (m.cpu.rtVal a.word) a.cpu.epc := by
  intro h
  have hlaw := h misalignedJump branchInHandler misalignedJump_reachable branchInHandler_inInstr
    (by decide +kernel) (by decide +kernel) _ (step_feed branchInHandler (p := idle 0#32) rfl)
  revert hlaw
  decide +kernel

end Machine

end CacheCPU
