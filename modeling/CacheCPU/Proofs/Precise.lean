import CacheCPU.Proofs.Entry
import CacheCPU.Proofs.Isa

/-!
# Precise exceptions and interrupts

An instruction that faults has written nothing: before `Exe` it has had no chance to, and a load or
a store computes only an address there. The write of the instruction before it lands at its own
fetch, and the chips change only after a request that a faulting stage does not send. An interrupt
waits for `WriteB` and returns to where the next fetch would have gone.
-/

namespace CacheCPU

/-! ## Loads and stores in `Exe` -/

theorem aluOps_mem {f l : BitVec 6} (h : isMem f = true) : (aluOps f l).1 = 0b000100000#9 := by
  simp only [isMem, Bool.or_eq_true, beq_iff_eq] at h
  rcases h with ((((rfl | rfl) | rfl) | rfl) | rfl) | rfl <;> rfl

theorem isTlbwi_of_isMem {w : BitVec 32} (h : isMem (first w) = true) : isTlbwi w = false := by
  unfold isTlbwi
  generalize first w = f at h ⊢
  simp only [isMem, Bool.or_eq_true, beq_iff_eq] at h
  rcases h with ((((rfl | rfl) | rfl) | rfl) | rfl) | rfl <;> rfl

theorem executed_mem (s : Cpu) {w : BitVec 32} (h : isMem (first w) = true) :
    (s.executedAlu w).hiLo = s.alu.hiLo ∧ s.executedTlb w = s.mmu.tlbMem := by
  constructor
  · rw [Cpu.executedAlu, aluOps_mem h]
    exact exec_hiLo _ _ _ _ _ (by decide) (by decide) (by decide)
  · rw [Cpu.executedTlb, isTlbwi_of_isMem h]
    rfl

/-! ## The faulting instruction -/

namespace Machine

variable {m a c d : Machine}

/-- In a stage that can fault the instruction has written nothing. -/
theorem InInstr.faulted (hr : Reachable m) (h : InInstr m a) (hx : a.state = .exc)
    (hw : a.cpu.oldState ≠ .writeB) :
    a.cpu.gpr.reg = m.cpu.archRegs ∧ a.cpu.wb.writeEnable = false ∧
      a.cpu.alu.hiLo = m.cpu.alu.hiLo ∧ a.cpu.mmu.tlbMem = m.cpu.mmu.tlbMem ∧
      a.cpu.pcReg = m.cpu.pcToMmu := by
  have hc := (h.reachable hr).control
  have hf := h.flight hr
  have hmem (hm : a.cpu.hasMem1 = true ∨ a.cpu.hasMem2 = true)
      (hin : inFlight a.cpu.oldState = true) : isMem (first a.cpu.id.insReg) = true := by
    obtain ⟨-, h1, h2⟩ := hc.latched hin
    rcases hm with hm | hm
    · exact h1.symm.trans hm
    · exact isMem_of_sb (h2.symm.trans hm)
  have hlate (hi : Issued m.cpu a.cpu) (ha : AfterExe m.cpu a.cpu)
      (hm : isMem (first a.cpu.id.insReg) = true) : a.cpu.gpr.reg = m.cpu.archRegs ∧
        a.cpu.wb.writeEnable = false ∧ a.cpu.alu.hiLo = m.cpu.alu.hiLo ∧
        a.cpu.mmu.tlbMem = m.cpu.mmu.tlbMem ∧ a.cpu.pcReg = m.cpu.pcToMmu := by
    obtain ⟨h1, h2⟩ := executed_mem m.cpu hm
    exact ⟨hi.regs, hi.writeEnable, (congrArg Alu.hiLo ha.alu).trans h1, ha.tlb.trans h2, hi.pc⟩
  rcases hc.exc_cases hx with ⟨hst, -⟩ | ⟨ho, -⟩ | ⟨ho, -⟩
  · cases ho : a.cpu.oldState <;> simp only [ho, Mmu.isInsFOrMem, Bool.false_eq_true] at hst <;>
      simp only [Flight, ho] at hf
    case insF => exact ⟨hf.1.regs, hf.1.writeEnable, by rw [hf.2.1.alu], hf.2.1.tlb, hf.1.pc⟩
    case mem1 => exact hlate hf.1 hf.2.2.1 (hmem (.inl (hc.mem1 ho)) (by rw [ho]; rfl))
    case mem2 => exact hlate hf.1 hf.2.2.1 (hmem (.inr (hc.mem2 ho)) (by rw [ho]; rfl))
  · simp only [Flight, ho] at hf
    exact ⟨hf.1.regs, hf.1.writeEnable, by rw [hf.2.1.alu], hf.2.1.tlb, hf.1.pc⟩
  · exact absurd ho hw

/-- What the handler's fetch leaves: everything as it was at the `Exc` edge, and the event. -/
theorem handler_fetched (hr : Reachable a) (hx : a.state = .exc) (hac : Step a c)
    (h : InInstr c d) (ho : d.cpu.oldState = .insF) :
    d.cpu.gpr.reg = a.cpu.archRegs ∧ d.cpu.alu = a.cpu.alu ∧
      d.cpu.mmu.tlbMem = a.cpu.mmu.tlbMem ∧ d.cpu.epc = a.event.epc := by
  have hc := hr.control
  obtain ⟨hready, hoc, hsc⟩ := state_after_exc hc hx hac
  obtain ⟨-, -, hepc, -⟩ := exc_event hc hx hac
  have hf := h.flight (hr.step hac)
  simp only [Flight, ho] at hf
  obtain ⟨hi, he, -⟩ := hf
  obtain ⟨q, hcpu, -, -⟩ := step_cases hac
  have hs : a.cpu.state a.phy = .exc := hx
  have hstart : c.cpu.exc.interruptStart = true := by
    rw [(hc.step hac).interruptStart, hoc]
    rfl
  have hregs : c.cpu.archRegs = a.cpu.archRegs := by
    have hwe : c.cpu.wb.writeEnable = false := by rw [hcpu]; simp [hs, WB.rise]
    have hgpr : c.cpu.gpr.reg = a.cpu.archRegs := by rw [hcpu]; rfl
    rw [← hgpr]
    simp [Cpu.archRegs, GeneralRegister.written, hwe]
  refine ⟨hi.regs.trans hregs, he.alu.trans ?_, he.tlb.trans ?_, ?_⟩
  · rw [hcpu]
    simp [hs, Alu.rise]
  · rw [hcpu]
    simp [Cpu.cycle_mmu, Mmu.fall, Mmu.rise, hs]
  · rw [Cpu.epc, he.cp0, Cpu.fetchedCp0, CP0.rise_reg, CP0.regs_insF hstart, CP0.record_epc, hepc]

/-- Between instructions the machine fetches, or takes an interrupt. -/
theorem Control.between (hc : Control m) (ho : m.cpu.oldState = .writeB ∨ m.cpu.oldState = .exc) :
    m.Fetches ∨ (m.state = .exc ∧ m.cpu.oldState = .writeB) := by
  have hr : m.phy.ready = true := by
    by_contra hn
    have hst := (hc.busy (by simpa using hn)).1
    rcases ho with ho | ho <;> simp [ho, Mmu.isInsFOrMem] at hst
  rcases hc.state_cases with ⟨hn, -⟩ | ⟨-, -, hs⟩ | ⟨-, -, hs⟩ | ⟨-, -, hs⟩
  · simp [hr] at hn
  · rcases ho with ho | ho
    · exact .inr ⟨hs, ho⟩
    · have hq := (hc.state_quiet (by rw [ho]; rfl) (by simp [ho]) (by simp [ho])).2
      rw [ho] at hq
      exact absurd (hs.symm.trans hq) (by simp [Cpu.succ])
  · refine .inl ⟨?_, hr⟩
    rw [hs, Cpu.succ_eq_insF]
    exact ho
  · exact .inl ⟨hs, hr⟩

end Machine

namespace Board

variable {I : Image} {a b d : Board}

/-- Every board is after reset, after an `Exc` edge, or in some instruction. -/
theorem Reachable.inInstr (h : Reachable I a) : a.machine.IsReset ∨ a.cpu.oldState = .exc ∨
    ∃ b, Reachable I b ∧ InInstr I b a := by
  induction h with
  | reset h => exact .inl ⟨h.1, by simp [machine, Physical.out, h.2.busy]⟩
  | @cycle a x hr ih =>
    have hc := hr.inv.2.control
    by_cases hf : a.machine.Fetches
    · exact .inr (.inr ⟨a, hr, .fetch x hf⟩)
    by_cases hx : a.machine.state = .exc
    · exact .inr (.inl hx)
    rcases ih with h | h | ⟨b, hb, hin⟩
    · exact absurd h.fetches hf
    · rcases hc.between (.inr h) with h | ⟨h, -⟩
      · exact absurd h hf
      · exact absurd h hx
    · refine .inr (.inr ⟨b, hb, .next x hin hx fun ho => ?_⟩)
      rcases hc.between (.inl ho) with h | ⟨h, -⟩
      · exact hf h
      · exact hx h

/-- A faulting instruction has sent no write. -/
theorem InInstr.unwritten_faulted (hb : Reachable I b) (h : InInstr I b a)
    (hx : a.machine.state = .exc) (hw : a.cpu.oldState ≠ .writeB) : Unwritten b a := by
  have hc := (h.reachable hb).inv.2.control
  rcases h.unwritten hb with hu | hu | hu
  · exact hu
  · have hcode : a.cpu.mmu.excCode = 0#3 := hc.mmuQuiet hu.excCounter
    rcases hc.exc_cases hx with ⟨-, hne, -⟩ | ⟨ho, -⟩ | ⟨ho, -⟩
    · exact absurd hcode hne
    · have ho' : a.cpu.oldState = .insD := ho
      rcases hu.stage with ⟨hs, -⟩ | hs <;> simp [hs] at ho'
    · exact absurd ho hw
  · exact absurd hu hw

/-- The handler of the event of an `Exc` edge, fetched and standing before its first `InsD`
edge. -/
def Handler (I : Image) (a d : Board) : Prop :=
  ∃ x, InInstr I (a.cycle I x) d ∧ d.cpu.oldState = .insF

theorem Handler.cells (ha : Reachable I a) (hx : a.machine.state = .exc) (h : Handler I a d)
    (hu : Unwritten b a) : d.phys.cells = b.phys.cells := by
  obtain ⟨x, hin, ho⟩ := h
  have hc : Unwritten b (a.cycle I x) := hu.plain (by rw [hx]; rfl) x
  rcases hin.unwritten (ha.cycle x) with h | h | h
  · exact h.cells.trans hc.cells
  · rcases h.stage with ⟨hs, -⟩ | hs <;> simp [hs] at ho
  · simp [h] at ho

/-- Exceptions and interrupts are precise. Every `Exc` edge ends an instruction. If that one
faulted, its handler starts with the registers, `HI`, `LO`, the TLB and the RAM that it started
from, all in place, and with its own address in `EPC`. If it completed, the event is an enabled
interrupt, and `EPC` holds the address of the next fetch: all of it as `PC_to_mmu` gives it, bits 31
to 2 as the instruction table does. -/
theorem precise (ha : Reachable I a) (hx : a.machine.state = .exc) :
    (∃ b, Reachable I b ∧ InInstr I b a) ∧
    ∀ b, Reachable I b → InInstr I b a →
      (a.cpu.oldState ≠ .writeB →
        (a.cpu.mmu.excCode ≠ 0#3 ∨ a.cpu.id.excCode ≠ 0#2) ∧
        ∀ d, Handler I a d → d.cpu.gpr.reg = b.cpu.archRegs ∧
          d.cpu.alu.hiLo = b.cpu.alu.hiLo ∧ d.cpu.mmu.tlbMem = b.cpu.mmu.tlbMem ∧
          d.phys.cells = b.phys.cells ∧ d.cpu.epc = b.cpu.pcToMmu) ∧
      (a.cpu.oldState = .writeB →
        a.cpu.cp0.ie = true ∧ a.cpu.cp0.exl = false ∧
        ∀ d, Handler I a d → d.cpu.epc = a.cpu.pcToMmu ∧
          d.cpu.epc.extractLsb 31 2 = (Isa.nextPc a.machine.word b.cpu.pcToMmu
            (b.cpu.rsVal a.machine.word) (b.cpu.rtVal a.machine.word)
            a.cpu.epc).extractLsb 31 2) := by
  have hr := ha.inv.2
  have hc := hr.control
  constructor
  · rcases ha.inInstr with h | h | h
    · exact absurd (h.fetches.1.symm.trans hx) (by decide)
    · rcases hc.between (.inr h) with hf | ⟨-, ho⟩
      · exact absurd (hf.1.symm.trans hx) (by decide)
      · exact absurd (h.symm.trans ho) (by decide)
    · exact h
  intro b hb hin
  have hinm := hin.machine hb
  refine ⟨fun hw => ?_, fun ho => ?_⟩
  · obtain ⟨hregs, hwe, hhilo, htlb, hpc⟩ := hinm.faulted hb.inv.2 hx hw
    have hcode : a.cpu.mmu.excCode ≠ 0#3 ∨ a.cpu.id.excCode ≠ 0#2 := by
      rcases hc.exc_cases hx with ⟨-, hm, -⟩ | ⟨-, -, hi⟩ | ⟨ho, -⟩
      · exact .inl hm
      · exact .inr hi
      · exact absurd ho hw
    have hepc : a.machine.event.epc = b.cpu.pcToMmu :=
      (Machine.event_epc_exception hcode).trans hpc
    refine ⟨hcode, fun d hd => ?_⟩
    have hcells := hd.cells ha hx (hin.unwritten_faulted hb hx hw)
    obtain ⟨x, hind, hod⟩ := hd
    obtain ⟨h1, h2, h3, h4⟩ :=
      Machine.handler_fetched hr hx (ha.step x) (hind.machine (ha.cycle x)) hod
    have harch : a.machine.cpu.archRegs = a.machine.cpu.gpr.reg := by
      simp [Cpu.archRegs, GeneralRegister.written, hwe]
    exact ⟨h1.trans (harch.trans hregs), (congrArg Alu.hiLo h2).trans hhilo, h3.trans htlb, hcells,
      h4.trans hepc⟩
  · have ho' : a.machine.cpu.oldState = .writeB := ho
    rcases hc.exc_cases hx with ⟨hst, -⟩ | ⟨hod, -⟩ | ⟨-, hm, hi, hie, hexl, -⟩
    · rw [ho'] at hst
      cases hst
    · exact absurd (ho'.symm.trans hod) (by decide)
    · refine ⟨hie, hexl, fun d hd => ?_⟩
      obtain ⟨x, hind, hod⟩ := hd
      obtain ⟨-, -, -, h4⟩ :=
        Machine.handler_fetched hr hx (ha.step x) (hind.machine (ha.cycle x)) hod
      have hepc : d.cpu.epc = a.cpu.pcToMmu := h4.trans (Machine.event_epc_interrupt hm hi)
      refine ⟨hepc, ?_⟩
      rw [hepc]
      exact hinm.pcToMmu_high hb.inv.2 ho

theorem precise_syscall :
    (atReset.run (romOf [0x0000000c#32]) 4).cpu.epc = 0x90000000#32 := by
  have hx : (atReset.run (romOf [0x0000000c#32]) 2).machine.state = .exc := by decide +kernel
  have hin : InInstr (romOf [0x0000000c#32]) atReset (atReset.run (romOf [0x0000000c#32]) 2) :=
    .next still (.fetch still ⟨rfl, rfl⟩) (by decide +kernel) (by decide +kernel)
  have hd : Handler (romOf [0x0000000c#32]) (atReset.run (romOf [0x0000000c#32]) 2)
      (atReset.run (romOf [0x0000000c#32]) 4) :=
    ⟨still, .fetch still ⟨by decide +kernel, by decide +kernel⟩, by decide +kernel⟩
  have h := precise ((atReset_reachable _).run 2) hx
  exact (((h.2 _ (atReset_reachable _) hin).1 (by decide +kernel)).2 _ hd).2.2.2.2

end Board

end CacheCPU
