import CacheCPU.Proofs.Control

/-!
# Exception entry

An `Exc` edge is followed at once by an `InsF` edge, which takes the event into CP0. It fetches
from `EBase` unless `eret_enable` is still set: an interrupt taken right after an `ERET` finds it
set, and then the fetch goes to `EPC`.
-/

namespace CacheCPU

/-- What an event leaves in CP0. -/
structure Event where
  excCode : BitVec 5
  interruptCode : BitVec 6
  epc : BitVec 32
  badVAddr : BitVec 32

namespace Machine

section Entry

variable (m : Machine)

/-- The event of an `Exc` edge. An exception keeps the interrupt code and returns to its own
instruction; an interrupt returns to the instruction that would have come next. -/
def event : Event :=
  if m.cpu.mmu.excCode ≠ noMemExc then
    ⟨m.cpu.mmu.excCode.zeroExtend 5, m.cpu.cp0.interruptCode, m.cpu.pcReg, m.cpu.mmu.addr⟩
  else if m.cpu.id.excCode ≠ 0b00#2 then
    ⟨if m.cpu.id.excCode = 0b01#2 then 8#5 else 10#5, m.cpu.cp0.interruptCode, m.cpu.pcReg,
      m.cpu.pcReg⟩
  else if m.cpu.serialInterToExcep m.phy then ⟨0#5, 0b000001#6, m.cpu.pcToMmu, m.cpu.pcReg⟩
  else ⟨0#5, 0b100000#6, m.cpu.pcToMmu, m.cpu.pcReg⟩

/-- CP0 holds the event, in exception level. -/
def Recorded (e : Event) : Prop :=
  m.cpu.cp0.exl = true ∧ m.cpu.cp0.excCode = e.excCode ∧
    m.cpu.cp0.interruptCode = e.interruptCode ∧ m.cpu.epc = e.epc ∧
    m.cpu.cp0.reg CP0.badVAddr = e.badVAddr

/-- The edge after this one is an `InsF` edge that fetches from `EBase` and records the event. -/
def Enters : Prop :=
  ∀ m₁ m₂, Step m m₁ → Step m₁ m₂ →
    m₁.state = .insF ∧ m₁.cpu.pcToMmu = m₁.cpu.ebase ∧ m₂.cpu.pcReg = m₁.cpu.ebase ∧
      m₂.Recorded m.event

end Entry

variable {m m₁ m₂ : Machine}

theorem event_epc_exception (h : m.cpu.mmu.excCode ≠ 0#3 ∨ m.cpu.id.excCode ≠ 0#2) :
    m.event.epc = m.cpu.pcReg := by
  by_cases hm : m.cpu.mmu.excCode = 0#3
  · simp [event, noMemExc, hm, h.resolve_left (not_not_intro hm)]
  · simp [event, noMemExc, hm]

theorem event_epc_interrupt (hm : m.cpu.mmu.excCode = 0#3) (hi : m.cpu.id.excCode = 0#2) :
    m.event.epc = m.cpu.pcToMmu := by
  cases hs : m.cpu.serialInterToExcep m.phy <;> simp [event, noMemExc, hm, hi, hs]

/-! ## The two edges -/

/-- The edge after `Exc` is an `InsF` edge. -/
theorem state_after_exc (hc : Control m) (hx : m.state = .exc) (h : Step m m₁) :
    m₁.phy.ready = true ∧ m₁.cpu.oldState = .exc ∧ m₁.state = .insF := by
  obtain ⟨q, hcpu, -, -⟩ := step_cases h
  have ho : m₁.cpu.oldState = .exc := by rw [hcpu]; exact hx
  obtain ⟨hr, hs⟩ := (hc.step h).state_quiet (by simp [ho, Mmu.isInsFOrMem]) (by simp [ho])
    (by simp [ho])
  exact ⟨hr, ho, by rw [hs, ho]; rfl⟩

theorem Control.excep_of_exc (hc : Control m) (hx : m.state = .exc) :
    m.phy.ready = true ∧ m.cpu.excep m.phy = true := by
  rcases hc.state_cases with ⟨-, -, hi⟩ | ⟨hr, he, -⟩ | ⟨-, -, hs⟩ | ⟨-, -, hs⟩
  · simp [hx, Mmu.isInsFOrMem] at hi
  · exact ⟨hr, he⟩
  · exact absurd (hs.symm.trans hx) Cpu.succ_ne_exc
  · simp [hx] at hs

/-- An `Exc` edge comes from a memory stage that raised a code, from the decoding of a word that
did, or from an interrupt after `WriteB`. -/
theorem Control.exc_cases (hc : Control m) (hx : m.state = .exc) :
    (Mmu.isInsFOrMem m.cpu.oldState = true ∧ m.cpu.mmu.excCode ≠ 0#3 ∧ m.cpu.id.excCode = 0#2) ∨
    (m.cpu.oldState = .insD ∧ m.cpu.mmu.excCode = 0#3 ∧ m.cpu.id.excCode ≠ 0#2) ∨
    (m.cpu.oldState = .writeB ∧ m.cpu.mmu.excCode = 0#3 ∧ m.cpu.id.excCode = 0#2 ∧
      m.cpu.cp0.ie = true ∧ m.cpu.cp0.exl = false ∧
      (m.phy.serial = true ∨ m.cpu.cp0.compareInterrupt = true)) := by
  have he := (hc.excep_of_exc hx).2
  by_cases hm : m.cpu.mmu.excCode = 0#3
  · by_cases hi : m.cpu.id.excCode = 0#2
    · simp only [Cpu.excep, Cpu.clockInterToExcep, Cpu.serialInterToExcep, hm, hi] at he
      refine .inr (.inr ?_)
      simp_all
      tauto
    · exact .inr (.inl ⟨(hc.id_excCode hi).1, hm, hi⟩)
  · have hst := (hc.mmu_excCode hm).2.1
    have hi : m.cpu.id.excCode = 0#2 := by
      by_contra hn
      simp [(hc.id_excCode hn).1, Mmu.isInsFOrMem] at hst
    exact .inl ⟨hst, hm, hi⟩

/-- What `Exception` holds after the `Exc` edge is the event. -/
theorem exc_event (hc : Control m) (hx : m.state = .exc) (h : Step m m₁) :
    m₁.cpu.exc.cause = m.event.excCode ∧
      m₁.cpu.exc.interruptCode = m.event.interruptCode ∧ m₁.cpu.exc.epc = m.event.epc ∧
      m₁.cpu.exc.badVAddr = m.event.badVAddr := by
  obtain ⟨q, hcpu, -, -⟩ := step_cases h
  have hs : m.cpu.state m.phy = .exc := hx
  rw [hcpu]
  simp only [Cpu.cycle_exc, hs, Exception.rise, Exception.record, Cpu.exceptionIn, event]
  by_cases hm : m.cpu.mmu.excCode = noMemExc
  · by_cases hi : m.cpu.id.excCode = 0b00#2
    · by_cases hser : m.cpu.serialInterToExcep m.phy = true
      · simp [hm, hi, hser]
      · have hclock : m.cpu.clockInterToExcep = true := by
          have he := (hc.excep_of_exc hx).2
          simpa [Cpu.excep, hser, hi, show m.cpu.mmu.excCode = 0#3 from hm] using he
        simp [hm, hi, hser, hclock]
    · have hraised := (hc.id_excCode hi).2
      have hcode : m.cpu.id.excCode = 0b01#2 ∨ m.cpu.id.excCode = 0b10#2 := by
        unfold IDecode.raised at hraised
        split_ifs at hraised
        · exact .inr hraised
        · exact .inl hraised
        · exact absurd hraised hi
      rcases hcode with h1 | h1 <;> simp [hm, h1]
  · obtain ⟨hraised, -, haddr⟩ := hc.mmu_excCode hm
    rcases Mmu.raised_le hraised with h1 | h1 | h1 | h1 | h1 <;>
      simp [h1, haddr, noMemExc, tlbModified, tlbL, tlbS, adeL, adeS]

/-- What the two edges leave in CP0. -/
theorem recorded_after_exc (hc : Control m) (hx : m.state = .exc) (h₁ : Step m m₁)
    (h₂ : Step m₁ m₂) : m₂.Recorded m.event := by
  obtain ⟨-, ho, hf⟩ := state_after_exc hc hx h₁
  obtain ⟨hcause, hint, hepc, hbad⟩ := exc_event hc hx h₁
  have hstart : m₁.cpu.exc.interruptStart = true := by
    rw [(hc.step h₁).interruptStart, ho]
    rfl
  obtain ⟨q, hcpu, -, -⟩ := step_cases h₂
  have hreg : m₂.cpu.cp0.reg = m₁.cpu.cp0.record m₁.cpu.exc := by
    rw [hcpu, Cpu.cycle_cp0, show m₁.cpu.state m₁.phy = .insF from hf, CP0.rise_reg]
    exact CP0.regs_insF hstart
  refine ⟨?_, ?_, ?_, ?_, ?_⟩
  · simp [CP0.exl, hreg, CP0.record_status]
  · rw [CP0.excCode, hreg, CP0.record_cause, hcause]
    ext i hi
    grind
  · rw [CP0.interruptCode, hreg, CP0.record_cause, hint]
    ext i hi
    grind
  · rw [Cpu.epc, hreg, CP0.record_epc, hepc]
  · rw [hreg, CP0.record_badVAddr, hbad]

/-- Where the fetch after `Exc` goes. -/
theorem pcToMmu_after_exc (hc : Control m) (hx : m.state = .exc) (h : Step m m₁) :
    m₁.cpu.pcToMmu = (if m.cpu.id.eretEnable then m.cpu.epc else m.cpu.ebase) ∧
      m₁.cpu.ebase = m.cpu.ebase := by
  have ho := (state_after_exc hc hx h).2.1
  have hsel : m₁.cpu.exc.pcSel0 = true := by rw [(hc.step h).pcSel0, ho]; rfl
  obtain ⟨q, hcpu, -, -⟩ := step_cases h
  have hs : m.cpu.state m.phy = .exc := hx
  have hreg : ∀ i, i ≠ CP0.count → m₁.cpu.cp0.reg i = m.cpu.cp0.reg i := by
    intro i hi
    rw [hcpu, Cpu.cycle_cp0, hs, CP0.rise_reg]
    exact CP0.regs_of_ne (by decide) (by simp) hi
  have hepc : m₁.cpu.epc = m.cpu.epc := hreg _ (by decide)
  have hebase : m₁.cpu.ebase = m.cpu.ebase := hreg _ (by decide)
  have heret : m₁.cpu.id.eretEnable = m.cpu.id.eretEnable := by
    rw [hcpu, Cpu.cycle_id, hs]
    rfl
  exact ⟨by simp [Cpu.pcToMmu, hsel, hepc, hebase, heret], hebase⟩

/-- At an `Exc` edge `eret_enable` is set only if an `ERET` has just completed. -/
theorem eretEnable_exc (hc : Control m) (hx : m.state = .exc) : m.cpu.id.eretEnable = true ↔
    m.cpu.oldState = .writeB ∧ isEret m.cpu.id.insReg = true := by
  rcases hc.exc_cases hx with ⟨hst, -⟩ | ⟨ho, -, hid⟩ | ⟨ho, -⟩
  · cases ho : m.cpu.oldState <;> simp only [ho, Mmu.isInsFOrMem, Bool.false_eq_true] at hst
    case insF => simp [hc.eret ho]
    case mem1 =>
      obtain ⟨hl, h1, -⟩ := hc.latched (by rw [ho]; rfl)
      have h := isEret_of_isMem (h1.symm.trans (hc.mem1 ho))
      simp [hl.eretEnable, h]
    case mem2 =>
      obtain ⟨hl, -, h2⟩ := hc.latched (by rw [ho]; rfl)
      have h := isEret_of_isMem (isMem_of_sb (h2.symm.trans (hc.mem2 ho)))
      simp [hl.eretEnable, h]
  · have hl := (hc.latched (by rw [ho]; rfl)).1
    have hraised := (hc.id_excCode hid).2
    have h := hl.isEret_of_raised (hraised ▸ hid)
    simp [hl.eretEnable, h]
  · have hl := (hc.latched (by rw [ho]; rfl)).1
    simp [hl.eretEnable, ho]

/-- Exception entry goes to `EBase` with the event recorded, except for an interrupt right after an
`ERET`, unless the two addresses agree. -/
theorem enters_iff (hr : Reachable m) (hx : m.state = .exc) : m.Enters ↔
    ¬(m.cpu.oldState = .writeB ∧ isEret m.cpu.id.insReg = true) ∨ m.cpu.epc = m.cpu.ebase := by
  have hc := hr.control
  rw [← eretEnable_exc hc hx]
  constructor
  · intro h
    obtain ⟨m₁, h₁⟩ := m.step_exists
    obtain ⟨m₂, h₂⟩ := m₁.step_exists
    obtain ⟨hpc, hebase⟩ := pcToMmu_after_exc hc hx h₁
    obtain ⟨-, hgo, -⟩ := h m₁ m₂ h₁ h₂
    by_cases he : m.cpu.id.eretEnable = true
    · rw [hpc, hebase, if_pos he] at hgo
      exact .inr hgo
    · exact .inl he
  · intro h m₁ m₂ h₁ h₂
    obtain ⟨hready, -, hf⟩ := state_after_exc hc hx h₁
    obtain ⟨hpc, hebase⟩ := pcToMmu_after_exc hc hx h₁
    have hgo : m₁.cpu.pcToMmu = m₁.cpu.ebase := by
      rw [hpc, hebase]
      split_ifs with he
      · exact h.resolve_left (not_not_intro he)
      · rfl
    refine ⟨hf, hgo, ?_, recorded_after_exc hc hx h₁ h₂⟩
    obtain ⟨q, hcpu, -, -⟩ := step_cases h₂
    rw [hcpu, Cpu.cycle_pcReg, if_pos ⟨hf, hready⟩, hgo]

theorem enters_syscall : (atReset.feeds (List.replicate 2 (idle 0x0000000c#32))).Enters := by
  refine (enters_iff (Reachable.feeds (.reset atReset_isReset) (by decide)) ?_).2 (.inl ?_)
  · decide +kernel
  · decide +kernel

/-- After reset: `addiu r1, r0, 1`, `mtc0 r1, Status` and `eret`, with a byte received while the
`eret` completes. -/
def eretThenSerial : Machine :=
  atReset.feeds (List.replicate 4 (idle 0x24010001#32) ++ List.replicate 4 (idle 0x40816000#32) ++
    List.replicate 3 (idle 0x42000018#32) ++ [⟨0x42000018#32, true, true⟩])

theorem eretThenSerial_reachable : Reachable eretThenSerial :=
  Reachable.feeds (.reset atReset_isReset) (by decide)

theorem eretThenSerial_exc : eretThenSerial.state = .exc := by
  decide +kernel

/-- The interrupt is recorded, but the fetch goes to `EPC`, which is zero here. -/
theorem not_enters_after_eret :
    ¬ ∀ m : Machine, Reachable m → m.state = .exc → m.Enters := by
  intro h
  have h₁ := step_feed eretThenSerial (p := idle 0#32) rfl
  have h₂ := step_feed (eretThenSerial.feed (idle 0#32)) (p := idle 0#32) rfl
  obtain ⟨-, hgo, -⟩ := h _ eretThenSerial_reachable eretThenSerial_exc _ _ h₁ h₂
  revert hgo
  decide +kernel

end Machine

end CacheCPU
