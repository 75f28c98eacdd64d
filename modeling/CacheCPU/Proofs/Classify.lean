import CacheCPU.Proofs.Entry
import CacheCPU.Proofs.MappedRead

/-!
# Which exception an access raises

A fetch, a load and `SW` are one stage, and what that stage raises is what the exception table asks
for, as long as the alignment is checked for the access itself. `SB` is a read in `Mem1` and a
write in `Mem2`: a page that is not mapped is found missing by the read, one that must not be
written by the write. The alignment type is latched with the word that is decoded, so that a fetch
is still checked for the instruction before it.
-/

namespace CacheCPU

namespace Machine

section Due

variable (m : Machine)

/-- The access is that of a store. -/
def stores : Bool :=
  m.state != .insF && (first m.cpu.id.insReg == F.sw || first m.cpu.id.insReg == F.sb)

/-- The alignment that the access needs. -/
def needs : BitVec 2 :=
  if m.state = .insF then alignTypeQuad else alignType (first m.cpu.id.insReg)

/-- The exception that the exception table has for the access. -/
def due : Option (BitVec 3) :=
  if misaligned m.needs m.access then some (if m.stores then adeS else adeL)
  else if tlbMissing m.cpu.mmu.tlbMem m.access then some (if m.stores then tlbS else tlbL)
  else if m.stores && !tlbWritable m.cpu.mmu.tlbMem m.access then some tlbModified
  else none

/-- The exception `c` is taken, with `addr` for its address. -/
def Takes (c : BitVec 3) (addr : BitVec 32) : Prop :=
  m.state = .exc ∧ m.cpu.mmu.excCode = c ∧ ∀ a b, Step m a → Step a b →
    b.cpu.cp0.excCode = c.zeroExtend 5 ∧ b.cpu.cp0.reg CP0.badVAddr = addr ∧
    (c = tlbL ∨ c = tlbS →
      (b.cpu.cp0.reg CP0.entryHi).extractLsb 31 12 = addr.extractLsb 31 12)

/-- The access that begins at `m` raises what is due, at its edge or, for `SB`, at the next, and
nothing if nothing is due. -/
def Classified : Prop :=
  (∀ c, m.due = some c → ∀ a, Step m a → a.Takes c m.access ∨
    (a.state = .mem2 ∧ ∀ b, Step a b → b.Takes c m.access)) ∧
  (m.due = none → ∀ rs e, Stage m rs e → e.phy.ready = true → e.state ≠ .exc ∧
    (e.state = .mem2 → ∀ rs' e', Stage e rs' e' → e'.phy.ready = true → e'.state ≠ .exc))

/-- An `SB` to a page that is not mapped, or a fetch from an address that is not aligned, which the
alignment type of the last word lets pass. -/
def Misclassed : Prop :=
  (m.state = .mem1 ∧ first m.cpu.id.insReg = F.sb ∧ tlbMissing m.cpu.mmu.tlbMem m.access = true) ∨
    (m.state = .insF ∧ m.access.extractLsb 1 0 ≠ 0b00#2 ∧
      misaligned m.cpu.id.alignType m.access = false)

end Due

variable {m a b e : Machine} {rs : List Request}

/-! ## What is recorded -/

theorem entryHi_after_exc (hc : Control m) (hx : m.state = .exc)
    (hcode : m.cpu.mmu.excCode = tlbL ∨ m.cpu.mmu.excCode = tlbS) (h₁ : Step m a)
    (h₂ : Step a b) :
    (b.cpu.cp0.reg CP0.entryHi).extractLsb 31 12 = m.cpu.badVAddr.extractLsb 31 12 := by
  obtain ⟨-, ho, hf⟩ := state_after_exc hc hx h₁
  have hstart : a.cpu.exc.interruptStart = true := by
    rw [(hc.step h₁).interruptStart, ho]
    rfl
  have hentry : a.cpu.exc.entryHi = m.cpu.badVAddr.extractLsb 31 12 := by
    obtain ⟨q, hcpu, -, -⟩ := step_cases h₁
    rw [hcpu, Cpu.cycle_exc, show m.cpu.state m.phy = .exc from hx]
    simp [Exception.rise, Cpu.exceptionIn, hcode]
  obtain ⟨q, hcpu, -, -⟩ := step_cases h₂
  have hreg : b.cpu.cp0.reg = a.cpu.cp0.record a.cpu.exc := by
    rw [hcpu, Cpu.cycle_cp0, show a.cpu.state a.phy = .insF from hf, CP0.rise_reg]
    exact CP0.regs_insF hstart
  rw [hreg, ← hentry]
  change (a.cpu.exc.entryHi ++ (a.cpu.cp0.reg CP0.entryHi).extractLsb 11 0).extractLsb 31 12 = _
  ext i hi
  grind

/-- A stage that faults is taken. -/
theorem takes_of_fault (hr : Reachable m) (h : m.Accesses) (hs : Stage m rs e) {c : BitVec 3}
    (hf : m.fault = some c) : e.Takes c m.access := by
  obtain ⟨hready, hcode⟩ := hs.faulted hr h hf
  obtain ⟨hre, hd⟩ := hs.during hr h
  have hx : e.state = .exc := by
    rw [hs.state_eq hr h hready, hf]
    rfl
  have hraised : e.cpu.mmu.raised e.cpu.mmuIn = some c := hd.checks.raised.trans hf
  have hne : e.cpu.mmu.excCode ≠ noMemExc := by
    rw [hcode]
    exact Mmu.raised_ne_zero hraised
  have hbad := (hre.control.mmu_excCode hne).2.2
  refine ⟨hx, hcode, fun a b h₁ h₂ => ?_⟩
  obtain ⟨-, hexc, -, -, hvaddr⟩ := recorded_after_exc hre.control hx h₁ h₂
  have hevent : e.event = ⟨e.cpu.mmu.excCode.zeroExtend 5, e.cpu.cp0.interruptCode, e.cpu.pcReg,
      e.cpu.mmu.addr⟩ := by
    rw [event, if_pos hne]
  rw [hevent] at hexc hvaddr
  refine ⟨hexc.trans (by rw [hcode]), hvaddr.trans hd.checks.addr, fun hmiss => ?_⟩
  rw [entryHi_after_exc hre.control hx (by rw [hcode]; exact hmiss) h₁ h₂, hbad, hd.checks.addr]

/-! ## One stage -/

/-- A stage that reads or writes as the instruction does, checked for its own alignment, raises
what is due. -/
theorem fault_eq_due (hreads : m.reads = !m.stores) (hwrites : m.writes = m.stores)
    (hal : misaligned m.cpu.id.alignType m.access = misaligned m.needs m.access) :
    m.fault = m.due := by
  unfold fault due
  rw [hreads, hwrites, hal]
  cases m.stores
  · simp
  · cases tlbWritable m.cpu.mmu.tlbMem m.access <;> simp

theorem kind_insF (hs : m.state = .insF) :
    m.stores = false ∧ m.reads = true ∧ m.writes = false ∧ m.needs = alignTypeQuad := by
  simp [stores, reads, writes, needs, hs]

/-- The word whose access `Mem1` begins. -/
theorem word_mem1 (hc : Control m) (hs : m.state = .mem1) :
    isMem (first m.cpu.id.insReg) = true ∧
      m.cpu.id.memOp = memOp (first m.cpu.id.insReg) ∧
      m.cpu.id.alignType = m.needs ∧ m.cpu.hasMem2 = (first m.cpu.id.insReg == F.sb) := by
  obtain ⟨hl, h1, h2⟩ := hc.latched (hc.inFlight_before (by rw [hs]; rfl) (by rw [hs]; decide))
  refine ⟨h1.symm.trans (hasMem1_of_state hc hs), hl.memOp, ?_, h2⟩
  rw [needs, if_neg (by rw [hs]; decide), hl.alignType]

theorem kind_mem1 (hc : Control m) (hs : m.state = .mem1) (hsb : first m.cpu.id.insReg ≠ F.sb) :
    m.reads = !m.stores ∧ m.writes = m.stores := by
  obtain ⟨hmem, hop, -, -⟩ := word_mem1 hc hs
  unfold reads writes stores
  rw [hop, hs]
  generalize first m.cpu.id.insReg = f at hmem hsb ⊢
  simp only [isMem, Bool.or_eq_true, beq_iff_eq] at hmem
  rcases hmem with ((((rfl | rfl) | rfl) | rfl) | rfl) | rfl
  · exact ⟨rfl, rfl⟩
  · exact ⟨rfl, rfl⟩
  · exact ⟨rfl, rfl⟩
  · exact ⟨rfl, rfl⟩
  · exact ⟨rfl, rfl⟩
  · exact absurd rfl hsb

/-- Every access but that of `SB` is classified by its one stage. -/
theorem fault_of_not_misclassed (hc : Control m) (hs : m.state = .insF ∨ m.state = .mem1)
    (hsb : m.state = .mem1 → first m.cpu.id.insReg ≠ F.sb) (hm : ¬ m.Misclassed) :
    m.fault = m.due := by
  rcases hs with hs | hs
  · obtain ⟨h1, h2, h3, h4⟩ := kind_insF hs
    refine fault_eq_due (by rw [h1, h2]; rfl) (by rw [h1, h3]) ?_
    rw [h4]
    by_cases hlow : m.access.extractLsb 1 0 = 0b00#2
    · rw [misaligned_quad _ hlow, misaligned_quad _ hlow]
    · have hquad : misaligned alignTypeQuad m.access = true := by simp [misaligned, hlow]
      rw [hquad]
      by_contra hn
      exact hm (.inr ⟨hs, hlow, Bool.eq_false_iff.2 hn⟩)
  · obtain ⟨h1, h2⟩ := kind_mem1 hc hs (hsb hs)
    exact fault_eq_due h1 h2 (by rw [(word_mem1 hc hs).2.2.1])

/-- What a stage without a fault is followed by. -/
theorem no_exc_of_fault (hr : Reachable m) (h : m.Accesses) (hf : m.fault = none)
    (hs : Stage m rs e) (he : e.phy.ready = true) : e.state = e.cpu.succ m.state := by
  rw [hs.state_eq hr h he, hf]
  rfl

/-! ## `SB` -/

section Sb

variable (hr : Reachable m) (h : m.Accesses) (hs : m.state = .mem1)
  (hsb : first m.cpu.id.insReg = F.sb)
include hr hs hsb

/-- `Mem1` of `SB` reads, of any address. -/
theorem fault_sb : m.fault = (if tlbMissing m.cpu.mmu.tlbMem m.access then some tlbL else none) ∧
    m.due = (if tlbMissing m.cpu.mmu.tlbMem m.access then some tlbS
      else if tlbWritable m.cpu.mmu.tlbMem m.access then none else some tlbModified) := by
  obtain ⟨-, hop, hal, -⟩ := word_mem1 hr.control hs
  have hneeds : m.needs = alignTypeByte := by
    rw [needs, if_neg (by rw [hs]; decide), hsb]
    rfl
  have hmis : misaligned alignTypeByte m.access = false := rfl
  have hreads : m.reads = true := by
    rw [reads, hop, hsb, hs]
    rfl
  have hwrites : m.writes = false := by
    rw [writes, hop, hsb, hs]
    rfl
  have hstores : m.stores = true := by
    rw [stores, hsb, hs]
    rfl
  unfold fault due
  rw [hal, hneeds, hmis, hreads, hwrites, hstores]
  constructor
  · simp
  · cases tlbWritable m.cpu.mmu.tlbMem m.access <;> simp

include h

/-- `Mem2` follows, with the same address, and writes. -/
theorem fault_mem2 (hm : tlbMissing m.cpu.mmu.tlbMem m.access = false) (hst : Stage m rs e)
    (he : e.phy.ready = true) : Reachable e ∧ e.Accesses ∧ e.state = .mem2 ∧ e.access = m.access ∧
      e.fault = m.due := by
  obtain ⟨hf, hdue⟩ := fault_sb hr hs hsb
  rw [hm] at hf hdue
  obtain ⟨hre, hd⟩ := hst.during hr h
  have hfl : inFlight e.cpu.oldState = true := by
    rw [hd.oldState, hs]
    rfl
  obtain ⟨hl, -, h2⟩ := hre.control.latched hfl
  have hstate : e.state = .mem2 := by
    rw [no_exc_of_fault hr h hf hst he, hs, Cpu.succ, h2, hd.insReg, hsb]
    rfl
  have haccess : e.access = m.access := by
    rw [access, access, if_neg (by rw [hstate]; decide), if_neg (by rw [hs]; decide), hd.alu]
  refine ⟨hre, ⟨he, by rw [hstate]; rfl⟩, hstate, haccess, ?_⟩
  have hmis : misaligned e.cpu.id.alignType e.access = false := by
    rw [hl.alignType, hd.insReg, hsb]
    rfl
  have hwrites : e.writes = true := by
    simp [writes, hstate]
  have hreads : e.reads = false := by
    simp [reads, hstate]
  rw [hdue]
  unfold fault
  rw [hmis, hwrites, hreads, hd.checks.tlbMem, haccess, hm]
  cases tlbWritable m.cpu.mmu.tlbMem m.access <;> simp

omit hs hsb in
/-- Nothing is requested of a page that must not be written, so that `Mem1` takes one cycle. -/
theorem ready_mem1 (hw : tlbWritable m.cpu.mmu.tlbMem m.access = false) (hstep : Step m a) :
    a.phy.ready = true := by
  obtain ⟨q, hcpu, hq, hready⟩ := step_cases hstep
  obtain ⟨hread, hwrite, -⟩ := enables_enter hr.control h hcpu (hq h.1)
  have hpasses : m.passes = false := by simp [passes, hw]
  refine hready h.1 ?_
  rw [Cpu.requests, hread, hwrite, hpasses]
  simp

end Sb

/-! ## The classification -/

section Iff

variable (hr : Reachable m) (h : m.Accesses) (hs : m.state = .insF ∨ m.state = .mem1)
include hr h hs

theorem classified_of_not_misclassed (hm : ¬ m.Misclassed) : m.Classified := by
  by_cases hsb : m.state = .mem1 ∧ first m.cpu.id.insReg = F.sb
  · obtain ⟨hs, hsb⟩ := hsb
    have hmiss : tlbMissing m.cpu.mmu.tlbMem m.access = false :=
      Bool.eq_false_iff.2 fun hmiss => hm (.inl ⟨hs, hsb, hmiss⟩)
    have hdue := (fault_sb hr hs hsb).2
    rw [hmiss] at hdue
    refine ⟨fun c hc a hstep => .inr ?_, fun hnone rs e hst he => ?_⟩
    · have hw : tlbWritable m.cpu.mmu.tlbMem m.access = false := by
        by_contra hn
        rw [hc] at hdue
        simp [hn] at hdue
      obtain ⟨hra, ha, hstate, haccess, hfault⟩ := fault_mem2 hr h hs hsb hmiss (.enter hstep)
        (ready_mem1 hr h hw hstep)
      refine ⟨hstate, fun b hb => ?_⟩
      rw [← haccess]
      exact takes_of_fault hra ha (.enter hb) (hfault.trans hc)
    · obtain ⟨hre, hacc, hstate, -, hfault⟩ := fault_mem2 hr h hs hsb hmiss hst he
      refine ⟨by rw [hstate]; decide, fun _ rs' e' hst' he' => ?_⟩
      rw [no_exc_of_fault hre hacc (hfault.trans hnone) hst' he']
      exact Cpu.succ_ne_exc
  · have hfault := fault_of_not_misclassed hr.control hs (fun h1 h2 => hsb ⟨h1, h2⟩) hm
    refine ⟨fun c hc a hstep => .inl (takes_of_fault hr h (.enter hstep) (hfault.trans hc)),
      fun hnone rs e hst he => ?_⟩
    have hstate := no_exc_of_fault hr h (hfault.trans hnone) hst he
    refine ⟨by rw [hstate]; exact Cpu.succ_ne_exc, fun hmem2 => ?_⟩
    -- only `SB` has a second stage
    rw [hstate, Cpu.succ_eq_mem2] at hmem2
    obtain ⟨hre, hd⟩ := hst.during hr h
    have hfl : inFlight e.cpu.oldState = true := by
      rw [hd.oldState, hmem2.1]
      rfl
    have h2 := (hre.control.latched hfl).2.2
    rw [hmem2.2, hd.insReg, eq_comm, beq_iff_eq] at h2
    exact absurd ⟨hmem2.1, h2⟩ hsb

omit hs in
theorem not_misclassed_of_classified (hc : m.Classified) : ¬ m.Misclassed := by
  have hstep : Step m (m.feed (idle 0#32)) := m.step_feed rfl
  have hst : Stage m _ (m.feed (idle 0#32)) := .enter hstep
  rintro (⟨hs, hsb, hmiss⟩ | ⟨hs, hlow, hal⟩)
  · obtain ⟨hfault, hdue⟩ := fault_sb hr hs hsb
    rw [hmiss] at hfault hdue
    obtain ⟨hx, hcode, -⟩ := takes_of_fault hr h hst hfault
    rcases hc.1 _ hdue _ hstep with ⟨-, hcode', -⟩ | ⟨hmem2, -⟩
    · rw [hcode] at hcode'
      exact absurd hcode' (by decide)
    · rw [hx] at hmem2
      cases hmem2
  · have hdue : m.due = some adeL := by
      have hquad : misaligned alignTypeQuad m.access = true := by simp [misaligned, hlow]
      simp [due, kind_insF hs, hquad]
    have hfault : m.fault = if tlbMissing m.cpu.mmu.tlbMem m.access then some tlbL else none := by
      simp [fault, kind_insF hs, hal]
    by_cases hmiss : tlbMissing m.cpu.mmu.tlbMem m.access = true
    · rw [if_pos hmiss] at hfault
      obtain ⟨hx, hcode, -⟩ := takes_of_fault hr h hst hfault
      rcases hc.1 _ hdue _ hstep with ⟨-, hcode', -⟩ | ⟨hmem2, -⟩
      · rw [hcode] at hcode'
        exact absurd hcode' (by decide)
      · rw [hx] at hmem2
        cases hmem2
    · rw [if_neg hmiss] at hfault
      have hstate := no_exc_of_fault hr h hfault hst rfl
      rw [hs] at hstate
      rcases hc.1 _ hdue _ hstep with ⟨hx, -⟩ | ⟨hmem2, -⟩
      · rw [hstate] at hx
        cases hx
      · rw [hstate] at hmem2
        cases hmem2

/-- An access is classified as the exception table has it if and only if it is none of these. -/
theorem classified_iff : m.Classified ↔ ¬ m.Misclassed :=
  ⟨not_misclassed_of_classified hr h, classified_of_not_misclassed hr h hs⟩

end Iff

/-- At `Mem1` of the instruction `w`, the first after reset. -/
def accessing (w : BitVec 32) : Machine := atReset.feeds (List.replicate 3 (idle w))

theorem accessing_reachable (w : BitVec 32) : Reachable (accessing w) :=
  Reachable.feeds (.reset atReset_isReset) fun p hp => by rw [List.eq_of_mem_replicate hp]; rfl

/-- `LW` from the address 0, which is not mapped. -/
theorem classified_lw : (accessing 0x8c000000#32).due = some tlbL ∧
    (accessing 0x8c000000#32).Classified := by
  refine ⟨by decide +kernel, (classified_iff (accessing_reachable _) ⟨by decide +kernel,
    by decide +kernel⟩ (.inr (by decide +kernel))).2 ?_⟩
  rintro (⟨-, hsb, -⟩ | ⟨hs, -, -⟩)
  · exact absurd hsb (by decide +kernel)
  · exact absurd hs (by decide +kernel)

/-- `SB` to the address 0 is taken for a load that misses. -/
theorem not_classified_sb : ∃ m, Reachable m ∧ m.Accesses ∧ m.state = .mem1 ∧
    first m.cpu.id.insReg = F.sb ∧ m.due = some tlbS ∧
    (∀ a, Step m a → a.Takes tlbL m.access) ∧ ¬ m.Classified := by
  have hr := accessing_reachable 0xa0000000#32
  have h : (accessing 0xa0000000#32).Accesses := ⟨by decide +kernel, by decide +kernel⟩
  have hs : (accessing 0xa0000000#32).state = .mem1 := by decide +kernel
  have hsb : first (accessing 0xa0000000#32).cpu.id.insReg = F.sb := by decide +kernel
  have hmiss : tlbMissing (accessing 0xa0000000#32).cpu.mmu.tlbMem
      (accessing 0xa0000000#32).access = true := by decide +kernel
  obtain ⟨hfault, hdue⟩ := fault_sb hr hs hsb
  rw [hmiss] at hfault hdue
  exact ⟨_, hr, h, hs, hsb, hdue, fun a hstep => takes_of_fault hr h (.enter hstep) hfault,
    fun hc => not_misclassed_of_classified hr h hc (.inl ⟨hs, hsb, hmiss⟩)⟩

end Machine

end CacheCPU
