import CacheCPU.Proofs.Step
import CacheCPU.Proofs.Units

/-!
# The control invariant

Exception codes live for one cycle and only in the stage that raised them; the physical level is
busy only in a stage that accesses memory without faulting; the pulses of `Exception` last for the
cycle after `Exc`, and a register write for the cycle after `WriteB`. These hold in every
reachable machine, whatever the physical level answers.
-/

namespace CacheCPU

/-! ## The invariant -/

/-- The stages from the decoding of an instruction to its end. -/
def inFlight : Status → Bool
  | .insD | .exe | .mem1 | .mem2 | .writeB => true
  | _ => false

namespace Machine

/-- The control invariant. -/
structure Control (m : Machine) : Prop where
  mmuQuiet : m.cpu.mmu.excCounter = false → m.cpu.mmu.excCode = 0#3
  mmuRaised : m.cpu.mmu.excCounter = true → m.phy.ready = true ∧
    m.cpu.mmu.raised m.cpu.mmuIn = some m.cpu.mmu.excCode ∧
    Mmu.isInsFOrMem m.cpu.oldState = true ∧ m.cpu.badVAddr = m.cpu.mmu.addr
  idQuiet : m.cpu.id.excCounter = false → m.cpu.id.excCode = 0#2
  idRaised : m.cpu.id.excCounter = true → m.phy.ready = true ∧ m.cpu.id.excCode ≠ 0#2 ∧
    m.cpu.oldState = .insD ∧ m.cpu.id.excCode = m.cpu.id.raised
  busy : m.phy.ready = false → Mmu.isInsFOrMem m.cpu.oldState = true ∧
    m.cpu.mmu.raised m.cpu.mmuIn = none ∧ m.cpu.mmu.excCounter = false ∧
    m.cpu.id.excCounter = false
  next : (m.cpu.nextState = m.cpu.succ m.cpu.oldState ∧ m.cpu.mmu.stateReg = m.cpu.oldState ∧
      m.cpu.id.stateReg = m.cpu.oldState) ∨
    (m.cpu.oldState = .insF ∧ m.cpu.nextState = .insF ∧ m.cpu.mmu.stateReg = .writeB ∧
      m.cpu.requests = false ∧ m.phy.ready = true)
  pcSel0 : m.cpu.exc.pcSel0 = (m.cpu.oldState == .exc)
  interruptStart : m.cpu.exc.interruptStart = (m.cpu.oldState == .exc)
  recover : m.cpu.exc.compareRecover = true → m.cpu.oldState = .exc
  write : m.cpu.wb.writeEnable = true → m.cpu.oldState = .writeB ∧ m.cpu.wb.writeAddr ≠ 0#5
  zero : m.cpu.gpr.reg 0#5 = 0#32
  rd : inFlight m.cpu.oldState = true → m.cpu.cp0.rdAddress = rdOf m.cpu.id.insReg
  latched : inFlight m.cpu.oldState = true → m.cpu.id.Latched ∧
    m.cpu.hasMem1 = isMem (first m.cpu.id.insReg) ∧
    m.cpu.hasMem2 = (first m.cpu.id.insReg == F.sb)
  eret : m.cpu.oldState = .insF → m.cpu.id.eretEnable = false
  mem1 : m.cpu.oldState = .mem1 → m.cpu.hasMem1 = true
  mem2 : m.cpu.oldState = .mem2 → m.cpu.hasMem2 = true
  request : m.cpu.requests = true → Mmu.isInsFOrMem m.cpu.oldState = true

/-! ## Reset and one step -/

theorem control_reset {m : Machine} (h : m.IsReset) : Control m := by
  obtain ⟨hc, hp⟩ := h
  refine
    { mmuQuiet := fun _ => hc.mmu.excCode
      mmuRaised := fun h => by simp [hc.mmu.excCounter] at h
      idQuiet := fun _ => hc.id.excCode
      idRaised := fun h => by simp [hc.id.excCounter] at h
      busy := fun h => by simp [hp] at h
      next := .inr ⟨hc.oldState, hc.nextState, hc.mmu.stateReg, by
        simp [Cpu.requests, hc.mmu.toPhysicalReadEnable, hc.mmu.toPhysicalWriteEnable], hp⟩
      pcSel0 := by rw [hc.exc.pcSel0, hc.oldState]; rfl
      interruptStart := by rw [hc.exc.interruptStart, hc.oldState]; rfl
      recover := fun h => by simp [hc.exc.compareRecover] at h
      write := fun h => by simp [hc.wb.writeEnable] at h
      zero := hc.gpr.reg _
      rd := fun h => by simp [hc.oldState, inFlight] at h
      latched := fun h => by simp [hc.oldState, inFlight] at h
      eret := fun _ => hc.id.eretEnable
      mem1 := fun h => by simp [hc.oldState] at h
      mem2 := fun h => by simp [hc.oldState] at h
      request := fun h => by
        simp [Cpu.requests, hc.mmu.toPhysicalReadEnable, hc.mmu.toPhysicalWriteEnable] at h }

section Step

variable {m m' : Machine} {q : PhyOut}

/-- The address check at the falling edge of a stalled cycle is the one made before. -/
theorem raised_stall (hc : Control m) (hr : m.phy.ready = false) :
    (m.cpu.rise m.phy).mmu.raised (m.cpu.rise m.phy).mmuIn = none := by
  obtain ⟨hst, hno, -, -⟩ := hc.busy hr
  have hs : m.cpu.state m.phy = m.cpu.oldState := by simp [Cpu.state, hr]
  have hreg : m.cpu.mmu.stateReg = m.cpu.oldState := by
    rcases hc.next with ⟨-, h, -⟩ | ⟨-, -, -, -, h⟩
    · exact h
    · simp [hr] at h
  rw [← hno]
  refine Mmu.raised_congr ?_ ?_ ?_ ?_ ?_ ?_
  · simp [Cpu.rise, Mmu.rise, hr]
  · simp [Cpu.rise, Mmu.rise, hs, hreg]
  all_goals
    cases ho : m.cpu.oldState <;> simp [ho, Mmu.isInsFOrMem] at hst <;>
      simp [Cpu.rise, Mmu.rise, Cpu.mmuIn, IDecode.rise, hs, ho]

/-- The stage of a cycle is a memory stage while the physical level is busy. -/
theorem Control.state_busy (hc : Control m) (hr : m.phy.ready = false) :
    m.state = m.cpu.oldState ∧ Mmu.isInsFOrMem m.state = true := by
  have hs : m.state = m.cpu.oldState := by simp [state, Cpu.state, hr]
  exact ⟨hs, hs ▸ (hc.busy hr).1⟩

/-- A request leaves only in a memory stage that raises nothing. -/
theorem of_requests (h : (m.cpu.cycle m.phy q).requests = true) :
    Mmu.isInsFOrMem m.state = true ∧
      (m.cpu.rise m.phy).mmu.raised (m.cpu.rise m.phy).mmuIn = none := by
  have h' : (m.cpu.rise m.phy).mmu.readEnableReg q.ready (m.cpu.rise m.phy).mmuIn = true ∨
      (m.cpu.rise m.phy).mmu.writeEnableReg q.ready (m.cpu.rise m.phy).mmuIn = true := by
    simpa [Cpu.requests, Cpu.cycle, Cpu.fall, Mmu.fall] using h
  exact ⟨Mmu.isInsFOrMem_of_access (Mmu.access_of_request h'),
    Mmu.raised_of_noExceptionAccur (Mmu.noExceptionAccur_of_request h')⟩

/-- Without a request, a physical level that was idle stays idle. -/
theorem ready_of_stage (hc : Control m) (h : Step m m')
    (hst : Mmu.isInsFOrMem m.state = false ∨
      (m.cpu.rise m.phy).mmu.raised (m.cpu.rise m.phy).mmuIn ≠ none) : m'.phy.ready = true := by
  obtain ⟨q, hcpu, -, hready⟩ := step_cases h
  refine hready ?_ ?_
  · cases hr : m.phy.ready with
    | true => rfl
    | false =>
      have h1 := (hc.state_busy hr).2
      have h2 := raised_stall hc hr
      simp [h1, h2] at hst
  · cases hq : m'.cpu.requests with
    | false => rfl
    | true =>
      rw [hcpu] at hq
      obtain ⟨h1, h2⟩ := of_requests hq
      simp [h1, h2] at hst

theorem excCounter_cycle (h : (m.cpu.cycle m.phy q).mmu.excCounter = true) :
    ∃ c, (m.cpu.rise m.phy).mmu.raised (m.cpu.rise m.phy).mmuIn = some c ∧
      (m.cpu.cycle m.phy q).mmu.excCode = c := by
  have hfall : (m.cpu.rise m.phy).mmu.excCounter = false ∧
      ((m.cpu.rise m.phy).mmu.raised (m.cpu.rise m.phy).mmuIn).isSome = true := by
    simpa [Cpu.cycle, Cpu.fall, Mmu.fall] using h
  obtain ⟨c, hcode⟩ := Option.isSome_iff_exists.1 hfall.2
  exact ⟨c, hcode, by simp [Cpu.cycle, Cpu.fall, Mmu.fall, hfall.1, hcode]⟩

/-- A stalled cycle raises nothing. -/
theorem excCounter_stall (hc : Control m) (hr : m.phy.ready = false) (q : PhyOut) :
    (m.cpu.cycle m.phy q).mmu.excCounter = false := by
  by_contra hn
  obtain ⟨c, hcode, -⟩ := excCounter_cycle (by simpa using hn)
  simp [raised_stall hc hr] at hcode

theorem excCode_cycle (hc : Control m) (h : (m.cpu.cycle m.phy q).mmu.excCounter = false) :
    (m.cpu.cycle m.phy q).mmu.excCode = 0#3 := by
  have hrise : (m.cpu.rise m.phy).mmu.excCounter = m.cpu.mmu.excCounter := rfl
  have hcode : (m.cpu.rise m.phy).mmu.excCode = m.cpu.mmu.excCode := rfl
  simp only [Cpu.cycle, Cpu.fall, Mmu.fall, hrise, hcode] at h ⊢
  cases hold : m.cpu.mmu.excCounter with
  | true => rfl
  | false =>
    rw [hold] at h
    simp only [Bool.false_eq_true, ↓reduceIte, Option.isSome_eq_false_iff,
      Option.isNone_iff_eq_none] at h
    simp [h, hc.mmuQuiet hold]

/-- The address checked at the falling edge is the one kept for `BadVAddr`. -/
theorem badVAddr_cycle (hr : m.phy.ready = true) (hst : Mmu.isInsFOrMem m.state = true) :
    (m.cpu.cycle m.phy q).badVAddr = (m.cpu.cycle m.phy q).mmu.addr := by
  have hs : m.cpu.state m.phy = m.state := rfl
  simp only [Cpu.cycle_badVAddr, Cpu.cycle_mmu, Mmu.fall, Mmu.rise, hs]
  cases h : m.state <;> simp [h, Mmu.isInsFOrMem] at hst <;>
    simp [Mmu.isInsFOrMem, hr, Cpu.mmuIn]

theorem idExc_cycle (h : (m.cpu.cycle m.phy q).id.excCounter = true) :
    m.state = .insD ∧ (m.cpu.cycle m.phy q).id.excCode = (m.cpu.cycle m.phy q).id.raised ∧
      (m.cpu.cycle m.phy q).id.excCode ≠ 0#2 := by
  have hs : m.cpu.state m.phy = m.state := rfl
  simp only [Cpu.cycle_id, hs, IDecode.fall] at h ⊢
  cases hm : m.state <;> rw [hm] at h <;>
    simp only [IDecode.rise, IDecode.latch] at h ⊢ <;> simp_all [IDecode.raised]

theorem idCode_cycle (hc : Control m) (h : (m.cpu.cycle m.phy q).id.excCounter = false) :
    (m.cpu.cycle m.phy q).id.excCode = 0#2 := by
  have hs : m.cpu.state m.phy = m.state := rfl
  have hquiet := hc.idQuiet
  simp only [Cpu.cycle_id, hs, IDecode.fall] at h ⊢
  rcases Bool.eq_false_or_eq_true m.cpu.id.excCounter with hold | hold <;>
    cases hm : m.state <;> rw [hm] at h <;>
    simp only [IDecode.rise, IDecode.latch] at h ⊢ <;> simp_all

/-- Where the stage of a cycle comes from. -/
theorem Control.state_cases (hc : Control m) :
    (m.phy.ready = false ∧ m.state = m.cpu.oldState ∧ Mmu.isInsFOrMem m.state = true) ∨
    (m.phy.ready = true ∧ m.cpu.excep m.phy = true ∧ m.state = .exc) ∨
    (m.phy.ready = true ∧ m.cpu.excep m.phy = false ∧
      m.state = m.cpu.succ m.cpu.oldState) ∨
    (m.phy.ready = true ∧ m.cpu.oldState = .insF ∧ m.state = .insF) := by
  rcases m.state_cases with ⟨hr, -⟩ | h | ⟨hr, he, hs⟩
  · exact .inl ⟨hr, hc.state_busy hr⟩
  · exact .inr (.inl h)
  · rcases hc.next with ⟨hn, -⟩ | ⟨ho, hn, -⟩
    · exact .inr (.inr (.inl ⟨hr, he, hs.trans hn⟩))
    · exact .inr (.inr (.inr ⟨hr, ho, hs.trans hn⟩))

/-- A stage of an instruction in flight follows another one, except `InsD`, which follows
`InsF`. -/
theorem Control.inFlight_cases (hc : Control m) (h : inFlight m.state = true) :
    (m.state = .insD ∧ m.cpu.oldState = .insF) ∨
      (m.state ≠ .insD ∧ m.state ≠ .insF ∧ inFlight m.cpu.oldState = true) := by
  rcases hc.state_cases with ⟨-, hs, hi⟩ | ⟨-, -, hs⟩ | ⟨-, -, hs⟩ | ⟨-, -, hs⟩
  · rw [hs] at h hi ⊢
    cases ho : m.cpu.oldState <;> simp_all [inFlight, Mmu.isInsFOrMem]
  · simp [hs, inFlight] at h
  · rw [hs] at h ⊢
    cases ho : m.cpu.oldState <;> simp only [ho, Cpu.succ] at h ⊢ <;>
      first | (split_ifs at h ⊢ <;> simp_all [inFlight]) | simp_all [inFlight]
  · simp [hs, inFlight] at h

theorem Control.inFlight_before (hc : Control m) (h : inFlight m.state = true)
    (hd : m.state ≠ .insD) : inFlight m.cpu.oldState = true := by
  rcases hc.inFlight_cases h with ⟨hs, -⟩ | ⟨-, -, h⟩
  · exact absurd hs hd
  · exact h

theorem hasMem1_of_state (hc : Control m) (h : m.state = .mem1) : m.cpu.hasMem1 = true := by
  rcases hc.state_cases with ⟨-, hs, -⟩ | ⟨-, -, hs⟩ | ⟨-, -, hs⟩ | ⟨-, -, hs⟩ <;> rw [h] at hs
  · exact hc.mem1 hs.symm
  · cases hs
  · exact (Cpu.succ_eq_mem1.1 hs.symm).2
  · cases hs

theorem hasMem2_of_state (hc : Control m) (h : m.state = .mem2) : m.cpu.hasMem2 = true := by
  rcases hc.state_cases with ⟨-, hs, -⟩ | ⟨-, -, hs⟩ | ⟨-, -, hs⟩ | ⟨-, -, hs⟩ <;> rw [h] at hs
  · exact hc.mem2 hs.symm
  · cases hs
  · exact (Cpu.succ_eq_mem2.1 hs.symm).2
  · cases hs

theorem control_next (hcpu : m'.cpu = m.cpu.cycle m.phy q) :
    m'.cpu.nextState = m'.cpu.succ m'.cpu.oldState ∧ m'.cpu.mmu.stateReg = m'.cpu.oldState ∧
      m'.cpu.id.stateReg = m'.cpu.oldState := by
  have hs : m.cpu.state m.phy = m.state := rfl
  rw [hcpu]
  refine ⟨?_, rfl, ?_⟩
  · cases h : m.state <;> simp [hs, h, Cpu.succ]
  · cases h : m.state <;> simp [hs, h, IDecode.fall, IDecode.rise, IDecode.latch]

theorem control_latched (hc : Control m) (hcpu : m'.cpu = m.cpu.cycle m.phy q)
    (h : inFlight m'.cpu.oldState = true) : m'.cpu.id.Latched ∧
      m'.cpu.hasMem1 = isMem (first m'.cpu.id.insReg) ∧
      m'.cpu.hasMem2 = (first m'.cpu.id.insReg == F.sb) := by
  have hs : m.cpu.state m.phy = m.state := rfl
  rw [hcpu] at h ⊢
  rcases hc.inFlight_cases h with ⟨hd, ho⟩ | ⟨hnd, hnf, ho⟩
  · simp only [Cpu.cycle_id, Cpu.cycle_hasMem1, Cpu.cycle_hasMem2, hs, hd, IDecode.rise, if_true]
    exact ⟨IDecode.latched_latch _ (hc.eret ho), rfl, rfl⟩
  · obtain ⟨hl, h1, h2⟩ := hc.latched ho
    simp only [Cpu.cycle_id, Cpu.cycle_hasMem1, Cpu.cycle_hasMem2, hs, hnd, if_false,
      IDecode.rise_of_ne hnf hnd]
    exact ⟨{ hl with }, h1, h2⟩

theorem control_rd (hc : Control m) (hcpu : m'.cpu = m.cpu.cycle m.phy q)
    (h : inFlight m'.cpu.oldState = true) : m'.cpu.cp0.rdAddress = rdOf m'.cpu.id.insReg := by
  have hs : m.cpu.state m.phy = m.state := rfl
  rw [hcpu] at h ⊢
  rcases hc.inFlight_cases h with ⟨hd, -⟩ | ⟨hnd, hnf, ho⟩
  · simp only [Cpu.cycle_id, Cpu.cycle_cp0, CP0.rise_rdAddress, hs, hd, if_true]
    rfl
  · simp only [Cpu.cycle_id, Cpu.cycle_cp0, CP0.rise_rdAddress, hs, hnd, if_false,
      IDecode.rise_of_ne hnf hnd]
    exact hc.rd ho

theorem control_write (hc : Control m) (hcpu : m'.cpu = m.cpu.cycle m.phy q) :
    (m'.cpu.wb.writeEnable = true → m'.cpu.oldState = .writeB ∧ m'.cpu.wb.writeAddr ≠ 0#5) ∧
      m'.cpu.gpr.reg 0#5 = 0#32 := by
  have hs : m.cpu.state m.phy = m.state := rfl
  rw [hcpu]
  constructor
  · intro h
    cases hst : m.state <;> simp only [Cpu.cycle_wb, Cpu.cycle_oldState, hs, hst, WB.rise] at h ⊢
    case writeB => exact ⟨trivial, WB.dest_ne_zero h⟩
    all_goals simp at h
  · simp only [Cpu.cycle_gpr, GeneralRegister.rise, GeneralRegister.written]
    split_ifs with h
    · rw [Function.update_of_ne (Ne.symm (hc.write h).2), hc.zero]
    · exact hc.zero

theorem control_pulses (hcpu : m'.cpu = m.cpu.cycle m.phy q) :
    m'.cpu.exc.pcSel0 = (m'.cpu.oldState == .exc) ∧
      m'.cpu.exc.interruptStart = (m'.cpu.oldState == .exc) ∧
      (m'.cpu.exc.compareRecover = true → m'.cpu.oldState = .exc) := by
  have hs : m.cpu.state m.phy = m.state := rfl
  rw [hcpu]
  cases h : m.state <;> simp [hs, h, Exception.rise]

/-- The invariant is kept by a cycle. -/
theorem Control.step (hc : Control m) (h : Step m m') : Control m' := by
  obtain ⟨q, hcpu, -, -⟩ := step_cases h
  have hs : m'.cpu.oldState = m.state := by rw [hcpu]; rfl
  obtain ⟨hp, hi, hr⟩ := control_pulses hcpu
  obtain ⟨hw, hz⟩ := control_write hc hcpu
  have hraised : m'.cpu.mmu.raised m'.cpu.mmuIn =
      (m.cpu.rise m.phy).mmu.raised (m.cpu.rise m.phy).mmuIn := by rw [hcpu]; rfl
  -- what a code at the end of the cycle says about the stage that raised it
  have hmmu : m'.cpu.mmu.excCounter = true →
      ∃ c, m'.cpu.mmu.raised m'.cpu.mmuIn = some c ∧ m'.cpu.mmu.excCode = c := by
    rw [hraised, hcpu]
    exact excCounter_cycle
  have hid : m'.cpu.id.excCounter = true → m.state = .insD ∧
      m'.cpu.id.excCode = m'.cpu.id.raised ∧ m'.cpu.id.excCode ≠ 0#2 := by
    rw [hcpu]
    exact idExc_cycle
  refine
    { mmuQuiet := by rw [hcpu]; exact excCode_cycle hc
      mmuRaised := fun hx => ?_
      idQuiet := by rw [hcpu]; exact idCode_cycle hc
      idRaised := fun hx => ?_
      busy := fun hb => ?_
      next := .inl (control_next hcpu)
      pcSel0 := hp
      interruptStart := hi
      recover := hr
      write := hw
      zero := hz
      rd := control_rd hc hcpu
      latched := control_latched hc hcpu
      eret := fun ho => ?_
      mem1 := fun ho => ?_
      mem2 := fun ho => ?_
      request := fun hq => hs ▸ (of_requests (hcpu ▸ hq)).1 }
  · obtain ⟨c, hc0, hc2⟩ := hmmu hx
    have hc1 := hraised ▸ hc0
    have hst : Mmu.isInsFOrMem m.state = true :=
      Mmu.isInsFOrMem_of_access (Mmu.access_of_raised (by rw [hc1]; rfl))
    have hready : m.phy.ready = true := by
      by_contra hn
      simp [raised_stall hc (by simpa using hn)] at hc1
    refine ⟨ready_of_stage hc h (.inr (by simp [hc1])), by rw [hc0, hc2], hs ▸ hst, ?_⟩
    rw [hcpu]
    exact badVAddr_cycle hready hst
  · obtain ⟨hd, hcode, hne⟩ := hid hx
    exact ⟨ready_of_stage hc h (.inl (by simp [hd, Mmu.isInsFOrMem])), hne, hs.trans hd, hcode⟩
  · have hst : Mmu.isInsFOrMem m.state = true := by
      by_contra hn
      simp [ready_of_stage hc h (.inl (by simpa using hn))] at hb
    have hno : m'.cpu.mmu.raised m'.cpu.mmuIn = none := by
      by_contra hn
      rw [hraised] at hn
      simp [ready_of_stage hc h (.inr hn)] at hb
    refine ⟨hs ▸ hst, hno, ?_, ?_⟩
    · by_contra hn
      obtain ⟨c, hc1, -⟩ := hmmu (by simpa using hn)
      simp [hno] at hc1
    · by_contra hn
      simp [(hid (by simpa using hn)).1, Mmu.isInsFOrMem] at hst
  · have hf : m.cpu.state m.phy = .insF := hs.symm.trans ho
    rw [hcpu]
    simp [hf, IDecode.rise, IDecode.fall]
  · have hm : m.state = .mem1 := hs.symm.trans ho
    have hd : m.cpu.state m.phy ≠ .insD := by rw [show m.cpu.state m.phy = _ from hm]; decide
    rw [hcpu, Cpu.cycle_hasMem1, if_neg hd]
    exact hasMem1_of_state hc hm
  · have hm : m.state = .mem2 := hs.symm.trans ho
    have hd : m.cpu.state m.phy ≠ .insD := by rw [show m.cpu.state m.phy = _ from hm]; decide
    rw [hcpu, Cpu.cycle_hasMem2, if_neg hd]
    exact hasMem2_of_state hc hm

end Step

/-- The control invariant holds in every reachable machine. -/
theorem Reachable.control {m : Machine} (h : Reachable m) : Control m := by
  induction h with
  | reset h => exact control_reset h
  | step _ h ih => exact ih.step h

/-! ## What the invariant says about the next edge -/

section Next

variable {m : Machine}

theorem Control.mmu_excCode (hc : Control m) (h : m.cpu.mmu.excCode ≠ 0#3) :
    m.cpu.mmu.raised m.cpu.mmuIn = some m.cpu.mmu.excCode ∧
      Mmu.isInsFOrMem m.cpu.oldState = true ∧ m.cpu.badVAddr = m.cpu.mmu.addr := by
  rcases Bool.eq_false_or_eq_true m.cpu.mmu.excCounter with hx | hx
  · exact (hc.mmuRaised hx).2
  · exact absurd (hc.mmuQuiet hx) h

theorem Control.id_excCode (hc : Control m) (h : m.cpu.id.excCode ≠ 0#2) :
    m.cpu.oldState = .insD ∧ m.cpu.id.excCode = m.cpu.id.raised := by
  rcases Bool.eq_false_or_eq_true m.cpu.id.excCounter with hx | hx
  · exact (hc.idRaised hx).2.2
  · exact absurd (hc.idQuiet hx) h

/-- After a stage that accesses no memory, raises nothing in `InsD` and is not `WriteB`, the next
stage follows at once. -/
theorem Control.state_quiet (hc : Control m) (hst : Mmu.isInsFOrMem m.cpu.oldState = false)
    (hid : m.cpu.oldState = .insD → m.cpu.id.raised = 0#2) (hw : m.cpu.oldState ≠ .writeB) :
    m.phy.ready = true ∧ m.state = m.cpu.succ m.cpu.oldState := by
  have hr : m.phy.ready = true := by
    by_contra hn
    simp [(hc.busy (by simpa using hn)).1] at hst
  have hmmu : m.cpu.mmu.excCode = 0#3 := by
    by_contra hn
    simp [(hc.mmu_excCode hn).2.1] at hst
  have hcode : m.cpu.id.excCode = 0#2 := by
    by_contra hn
    obtain ⟨ho, hraised⟩ := hc.id_excCode hn
    exact hn (hraised.trans (hid ho))
  have hnext : m.cpu.nextState = m.cpu.succ m.cpu.oldState := by
    rcases hc.next with ⟨hn, -⟩ | ⟨ho, -⟩
    · exact hn
    · simp [ho, Mmu.isInsFOrMem] at hst
  refine ⟨hr, ?_⟩
  simp [state, Cpu.state, Cpu.excep, Cpu.clockInterToExcep, Cpu.serialInterToExcep, hr, hw, hmmu,
    hcode, hnext]

/-- The edge of `m` fetches an instruction. -/
def Fetches (m : Machine) : Prop := m.state = .insF ∧ m.phy.ready = true

/-- The edge after reset fetches. -/
theorem IsReset.fetches (h : m.IsReset) : m.Fetches := by
  obtain ⟨hc, hr⟩ := h
  have hid : m.cpu.id.excCode = 0#2 := hc.id.excCode
  have hmmu : m.cpu.mmu.excCode = 0#3 := hc.mmu.excCode
  refine ⟨?_, hr⟩
  simp [state, Cpu.state, hr, Cpu.excep, Cpu.clockInterToExcep, Cpu.serialInterToExcep,
    hc.oldState, hc.nextState, hid, hmmu]

/-- A fetch follows `WriteB`, `Exc` or reset. -/
theorem Control.fetches_cases (hc : Control m) (h : m.Fetches) :
    m.cpu.oldState = .writeB ∨ m.cpu.oldState = .exc ∨
      (m.cpu.oldState = .insF ∧ m.cpu.nextState = .insF) := by
  have hn : m.cpu.nextState = .insF := by
    have hs := h.1
    unfold state Cpu.state at hs
    rw [if_pos h.2] at hs
    split_ifs at hs
    exact hs
  rcases hc.next with ⟨hs, -⟩ | ⟨ho, hs, -⟩
  · rcases Cpu.succ_eq_insF.1 (hs.symm.trans hn) with ho | ho
    · exact .inl ho
    · exact .inr (.inl ho)
  · exact .inr (.inr ⟨ho, hs⟩)

theorem Control.fetches_requests (hc : Control m) (h : m.Fetches) : m.cpu.requests = false := by
  by_contra hn
  have hst := hc.request (by simpa using hn)
  rcases hc.next with ⟨hs, -⟩ | ⟨-, -, -, hq, -⟩
  · rcases hc.fetches_cases h with ho | ho | ⟨ho, hs'⟩
    · simp [ho, Mmu.isInsFOrMem] at hst
    · simp [ho, Mmu.isInsFOrMem] at hst
    · rw [hs', ho] at hs
      simp [Cpu.succ] at hs
  · exact hn hq

/-- A stalled cycle sends no request. -/
theorem requests_stall (hc : Control m) (hr : m.phy.ready = false) (q : PhyOut) :
    (m.cpu.cycle m.phy q).requests = false := by
  have hs : m.cpu.state m.phy = m.cpu.oldState := (hc.state_busy hr).1
  have hreg : m.cpu.mmu.stateReg = m.cpu.oldState := by
    rcases hc.next with ⟨-, h, -⟩ | ⟨-, -, -, -, h⟩
    · exact h
    · simp [hr] at h
  have hcount : (m.cpu.rise m.phy).mmu.toPhysicalCounter = true := by
    simp [Cpu.rise, Mmu.rise, hs, hreg]
  simp [Cpu.requests, Cpu.cycle, Cpu.fall, Mmu.fall, Mmu.readEnableReg, Mmu.writeEnableReg,
    Mmu.mayRequest, hcount]

end Next

end Machine

end CacheCPU
