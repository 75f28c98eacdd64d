import CacheCPU.Device
import CacheCPU.Proofs.Flight

/-!
# A stage that accesses memory

`InsF`, `Mem1` and `Mem2` last from the edge that enters them until the physical level is idle
again. All of their requests leave in the first cycle, and what the check of the address said there
still holds at the end.
-/

namespace CacheCPU

theorem Cpu.sent_of_requests {s : Cpu} (h : s.requests = false) : s.sent = [] := by
  simp_all [requests, sent]

namespace Machine

/-- The edge of `m` enters a stage that accesses memory. -/
def Accesses (m : Machine) : Prop := m.phy.ready = true ∧ Mmu.isInsFOrMem m.state = true

/-- The machine stands in the stage that the edge of `m` entered, the requests sent so far being
listed. -/
inductive Stage (m : Machine) : List Request → Machine → Prop
  | enter {a : Machine} : Step m a → Stage m a.cpu.sent a
  | stall {rs : List Request} {a b : Machine} : Stage m rs a → a.phy.ready = false → Step a b →
      Stage m (rs ++ b.cpu.sent) b

section Access

variable (m : Machine)

/-- The address that the stage accesses. -/
def access : BitVec 32 := if m.state = .insF then m.cpu.pcToMmu else m.cpu.alu.result

def reads : Bool := (m.state == .mem1 && m.cpu.id.memOp.getLsbD 2) || m.state == .insF

def writes : Bool :=
  (m.state == .mem1 && m.cpu.id.memOp.getLsbD 1 && !m.cpu.id.memOp.getLsbD 2) || m.state == .mem2

/-- The conditions for a request: aligned, mapped and writable. -/
def passes : Bool :=
  !misaligned m.cpu.id.alignType m.access && !tlbMissing m.cpu.mmu.tlbMem m.access &&
    tlbWritable m.cpu.mmu.tlbMem m.access

/-- The exception that the stage raises. -/
def fault : Option (BitVec 3) :=
  if misaligned m.cpu.id.alignType m.access then
    if m.reads then some adeL else if m.writes then some adeS else none
  else if tlbMissing m.cpu.mmu.tlbMem m.access then
    if m.reads then some tlbL else if m.writes then some tlbS else none
  else if tlbWritable m.cpu.mmu.tlbMem m.access = false then
    if m.writes then some tlbModified else none
  else none

/-- What the stage sends; `data` is the value of a store. -/
def request (data : BitVec 32) : List Request :=
  if m.access ≠ virtualSerialStatus ∧ m.passes then
    if m.reads then [.read (toPhysicalAddrReg (physicalAddr m.cpu.mmu.tlbMem m.access))]
    else if m.writes then
      [.write (toPhysicalAddrReg (physicalAddr m.cpu.mmu.tlbMem m.access)) data]
    else []
  else []

end Access

variable {m a b e : Machine} {q : PhyOut} {rs : List Request}

theorem writes_of_reads (h : m.reads = true) : m.writes = false := by
  unfold reads at h
  unfold writes
  cases hs : m.state <;> simp_all

/-! ## The first cycle -/

theorem state_of_accesses (h : m.Accesses) : m.state = m.cpu.nextState := by
  rcases m.state_cases with ⟨hr, -⟩ | ⟨-, -, hs⟩ | ⟨-, -, hs⟩
  · simp [h.1] at hr
  · have := h.2
    simp [hs, Mmu.isInsFOrMem] at this
  · exact hs

/-- A stage is entered from another one. -/
theorem Control.stateReg_of_accesses (hc : Control m) (h : m.Accesses) :
    m.state ≠ m.cpu.mmu.stateReg := by
  rw [state_of_accesses h]
  rcases hc.next with ⟨hn, hreg, -⟩ | ⟨-, hn, hreg, -, -⟩
  · rw [hn, hreg]
    cases m.cpu.oldState <;> simp only [Cpu.succ] <;> (try split_ifs) <;> simp
  · rw [hn, hreg]
    decide

/-- What the MMU holds between the edges of the first cycle. -/
structure Checks (m : Machine) (u : Mmu) (i : MmuIn) : Prop where
  addr : u.addr = m.access
  stateReg : u.stateReg = m.state
  tlbMem : u.tlbMem = m.cpu.mmu.tlbMem
  readEnable : i.readEnable = m.cpu.id.memOp.getLsbD 2
  writeEnable : i.writeEnable = m.cpu.id.memOp.getLsbD 1
  alignType : i.alignType = m.cpu.id.alignType

theorem Checks.raised {u : Mmu} {i : MmuIn} (h : Checks m u i) : u.raised i = m.fault := by
  have hr : u.reads i = m.reads := by
    rw [Mmu.reads, h.stateReg, h.readEnable]
    rfl
  have hw : u.writes i = m.writes := by
    rw [Mmu.writes, h.stateReg, h.readEnable, h.writeEnable]
    rfl
  rw [Mmu.raised, h.alignType, h.addr, h.tlbMem, hr, hw]
  rfl

theorem checks_enter (h : m.Accesses) :
    Checks m (m.cpu.rise m.phy).mmu (m.cpu.rise m.phy).mmuIn := by
  have hs : m.cpu.state m.phy = m.state := rfl
  obtain ⟨hr, hst⟩ := h
  cases hm : m.state <;> simp only [hm, Mmu.isInsFOrMem, Bool.false_eq_true] at hst
  all_goals
    constructor <;>
      simp [Cpu.rise, Mmu.rise, Cpu.mmuIn, IDecode.rise, access, hs, hm, hr, Mmu.isInsFOrMem]

/-- The request lines after the first cycle. -/
theorem enables_enter (hc : Control m) (h : m.Accesses) (hcpu : a.cpu = m.cpu.cycle m.phy q)
    (hq : q.ready = true) :
    a.cpu.mmu.toPhysicalReadEnable =
        (!(m.access == virtualSerialStatus) && m.passes && m.reads) ∧
      a.cpu.mmu.toPhysicalWriteEnable =
        (!(m.access == virtualSerialStatus) && m.passes && m.writes) ∧
      a.cpu.mmu.toPhysicalAddr = toPhysicalAddrReg (physicalAddr m.cpu.mmu.tlbMem m.access) := by
  have hk := checks_enter h
  have hcount : (m.cpu.rise m.phy).mmu.toPhysicalCounter = false := by
    have hne : m.cpu.state m.phy ≠ m.cpu.mmu.stateReg := hc.stateReg_of_accesses h
    simpa [Cpu.rise, Mmu.rise] using hne
  have hmay : (m.cpu.rise m.phy).mmu.mayRequest q.ready (m.cpu.rise m.phy).mmuIn =
      (!(m.access == virtualSerialStatus) && m.passes) := by
    simp only [Mmu.mayRequest, Mmu.specialCom1Status, Mmu.noExceptionAccur, hk.addr, hk.tlbMem,
      hk.alignType, hcount, hq, passes, Bool.and_true, Bool.not_false]
  have hr : (m.cpu.rise m.phy).mmu.reads (m.cpu.rise m.phy).mmuIn = m.reads := by
    rw [Mmu.reads, hk.stateReg, hk.readEnable]
    rfl
  have hw : (m.cpu.rise m.phy).mmu.writes (m.cpu.rise m.phy).mmuIn = m.writes := by
    rw [Mmu.writes, hk.stateReg, hk.readEnable, hk.writeEnable]
    rfl
  refine ⟨?_, ?_, ?_⟩
  · rw [hcpu, ← hmay, ← hr]
    rfl
  · rw [hcpu, ← hmay, ← hw]
    rfl
  · rw [hcpu, ← hk.addr, ← hk.tlbMem]
    rfl

/-- The requests of the first cycle. -/
theorem sent_enter (hc : Control m) (h : m.Accesses) (hstep : Step m a) :
    a.cpu.sent = m.request a.cpu.mmu.toPhysicalData := by
  obtain ⟨q, hcpu, hq, -⟩ := step_cases hstep
  obtain ⟨hread, hwrite, haddr⟩ := enables_enter hc h hcpu (hq h.1)
  rw [Cpu.sent, request, hread, hwrite, haddr]
  by_cases hx : m.access = virtualSerialStatus
  · simp [hx]
  · cases hp : m.passes
    · simp
    · cases hm : m.reads
      · cases m.writes <;> simp [hx]
      · simp [hx, writes_of_reads hm]

/-! ## The whole stage -/

/-- What holds during a stage. -/
structure During (m e : Machine) : Prop where
  oldState : e.cpu.oldState = m.state
  checks : Checks m e.cpu.mmu e.cpu.mmuIn
  insReg : e.cpu.id.insReg = m.cpu.id.insReg
  alu : e.cpu.alu = m.cpu.alu

theorem during_enter (h : m.Accesses) (hstep : Step m a) : During m a := by
  obtain ⟨q, hcpu, -, -⟩ := step_cases hstep
  have hs : m.cpu.state m.phy = m.state := rfl
  have hk := checks_enter h
  refine ⟨by rw [hcpu]; rfl, ?_, insReg_cycle hcpu ?_, ?_⟩
  · rw [hcpu]
    exact ⟨hk.addr, hk.stateReg, hk.tlbMem, hk.readEnable, hk.writeEnable, hk.alignType⟩
  · intro hd
    have := h.2
    simp [hd, Mmu.isInsFOrMem] at this
  · rw [hcpu, Cpu.cycle_alu, hs]
    have hst := h.2
    cases hm : m.state <;> simp [hm, Mmu.isInsFOrMem] at hst <;> rfl

theorem During.stall (hc : Control a) (h : During m a) (hr : a.phy.ready = false)
    (hstep : Step a b) : During m b := by
  obtain ⟨q, hcpu, -, -⟩ := step_cases hstep
  obtain ⟨hs, hst⟩ := hc.state_busy hr
  have hs' : a.cpu.state a.phy = m.state := hs.trans h.oldState
  have hst' : Mmu.isInsFOrMem m.state = true := by rw [← h.oldState, ← hs]; exact hst
  have hid : b.cpu.id.memOp = a.cpu.id.memOp ∧ b.cpu.id.alignType = a.cpu.id.alignType := by
    rw [hcpu, Cpu.cycle_id, hs']
    cases hm : m.state <;> simp [hm, Mmu.isInsFOrMem] at hst' <;> exact ⟨rfl, rfl⟩
  have hmmu : b.cpu.mmu.addr = a.cpu.mmu.addr ∧ b.cpu.mmu.tlbMem = a.cpu.mmu.tlbMem := by
    rw [hcpu]
    refine ⟨by simp [Cpu.cycle_mmu, Mmu.fall, Mmu.rise, hr], ?_⟩
    have hne : a.cpu.state a.phy ≠ .exe := by
      rw [hs']
      intro hn
      simp [hn, Mmu.isInsFOrMem] at hst'
    simp [Cpu.cycle_mmu, Mmu.fall, Mmu.rise, hne]
  refine ⟨by rw [hcpu]; exact hs', ⟨hmmu.1.trans h.checks.addr, ?_, hmmu.2.trans h.checks.tlbMem,
    ?_, ?_, ?_⟩, ?_, ?_⟩
  · rw [hcpu]
    exact hs'
  · rw [← h.checks.readEnable, Cpu.mmuIn, hid.1]
    rfl
  · rw [← h.checks.writeEnable, Cpu.mmuIn, hid.1]
    rfl
  · rw [← h.checks.alignType, Cpu.mmuIn, hid.2]
    rfl
  · rw [← h.insReg]
    refine insReg_cycle hcpu fun hd => ?_
    simp [hd, Mmu.isInsFOrMem] at hst
  · rw [← h.alu, hcpu, Cpu.cycle_alu, hs']
    cases hm : m.state <;> simp [hm, Mmu.isInsFOrMem] at hst' <;> rfl

theorem Stage.during (hr : Reachable m) (h : m.Accesses) (hs : Stage m rs e) :
    Reachable e ∧ During m e := by
  induction hs with
  | enter hstep => exact ⟨hr.step hstep, during_enter h hstep⟩
  | stall _ hb hstep ih => exact ⟨ih.1.step hstep, ih.2.stall ih.1.control hb hstep⟩

/-- A stage sends what its first cycle sends. -/
theorem Stage.requests (hr : Reachable m) (h : m.Accesses) (hs : Stage m rs e) :
    ∃ data, rs = m.request data := by
  induction hs with
  | enter hstep => exact ⟨_, sent_enter hr.control h hstep⟩
  | @stall rs a b hin hb hstep ih =>
    obtain ⟨data, hrs⟩ := ih
    obtain ⟨q, hcpu, -, -⟩ := step_cases hstep
    have hno : b.cpu.requests = false := by
      rw [hcpu]
      exact requests_stall (hin.during hr h).1.control hb q
    exact ⟨data, by rw [Cpu.sent_of_requests hno, List.append_nil, hrs]⟩

/-- A fault is reported in the first cycle, and the physical level stays idle. -/
theorem Stage.faulted (hr : Reachable m) (h : m.Accesses) (hs : Stage m rs e) {c : BitVec 3}
    (hf : m.fault = some c) : e.phy.ready = true ∧ e.cpu.mmu.excCode = c := by
  have hk := checks_enter h
  have hraised := hk.raised.trans hf
  induction hs with
  | @enter a hstep =>
    refine ⟨ready_of_stage hr.control hstep (.inr (by simp [hraised])), ?_⟩
    obtain ⟨q, hcpu, -, -⟩ := step_cases hstep
    have hquiet : m.cpu.mmu.excCounter = false := by
      by_contra hn
      obtain ⟨-, hx, -⟩ := hr.control.mmuRaised (by simpa using hn)
      have hexc : m.cpu.excep m.phy = true := by
        simp [Cpu.excep, Mmu.raised_ne_zero hx]
      have hst : m.state = .exc := by simp [state, Cpu.state, h.1, hexc]
      have := h.2
      simp [hst, Mmu.isInsFOrMem] at this
    have hcount : (m.cpu.rise m.phy).mmu.excCounter = false := hquiet
    rw [hcpu]
    simp [Cpu.cycle, Cpu.fall, Mmu.fall, hcount, hraised]
  | stall _ hb _ ih => simp [ih.1] at hb

/-- The stage that follows. -/
theorem Stage.state_eq (hr : Reachable m) (h : m.Accesses) (hs : Stage m rs e)
    (he : e.phy.ready = true) :
    e.state = if m.fault.isSome then .exc else e.cpu.succ m.state := by
  obtain ⟨hre, hd⟩ := hs.during hr h
  have hc := hre.control
  have hmem : Mmu.isInsFOrMem e.cpu.oldState = true := by rw [hd.oldState]; exact h.2
  split_ifs with hf
  · obtain ⟨c, hcode⟩ := Option.isSome_iff_exists.1 hf
    have hne : e.cpu.mmu.excCode ≠ 0#3 := by
      rw [(hs.faulted hr h hcode).2]
      exact Mmu.raised_ne_zero ((checks_enter h).raised.trans hcode)
    simp [state, Cpu.state, he, Cpu.excep, hne]
  · have hmmu : e.cpu.mmu.excCode = 0#3 := by
      by_contra hn
      have := (hc.mmu_excCode hn).1
      rw [hd.checks.raised] at this
      simp [this] at hf
    have hid : e.cpu.id.excCode = 0#2 := by
      by_contra hn
      simp [(hc.id_excCode hn).1, Mmu.isInsFOrMem] at hmem
    have hw : e.cpu.oldState ≠ .writeB := by
      intro hn
      simp [hn, Mmu.isInsFOrMem] at hmem
    have hnext : e.cpu.nextState = e.cpu.succ m.state := by
      rw [← hd.oldState]
      rcases hc.next with ⟨hn, -⟩ | ⟨-, -, hreg, -, -⟩
      · exact hn
      · have := hd.checks.stateReg
        rw [hreg, ← hd.oldState] at this
        exact absurd this.symm hw
    simp [state, Cpu.state, he, Cpu.excep, Cpu.clockInterToExcep, Cpu.serialInterToExcep, hw, hmmu,
      hid, hnext]

/-- A stage begins and, on some physical level, ends. -/
theorem stage_exists (m : Machine) : ∃ e, Stage m e.cpu.sent e ∧ e.phy.ready = true :=
  ⟨_, .enter (m.step_feed (p := idle 0#32) rfl), rfl⟩

end Machine

end CacheCPU
