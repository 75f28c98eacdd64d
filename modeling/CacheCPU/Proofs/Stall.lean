import CacheCPU.Lib.Stutter
import CacheCPU.Proofs.Stage
import CacheCPU.Proofs.Timer

/-!
# A stalled cycle

A stalled cycle leaves the CPU as it is, but for the registers of the request, `bad_v_addr` and,
in `InsF`, the moment at which the timer interrupt is raised. None of these is looked at before it
is set again, so the CPU on a slow device goes through the same states as on one that answers at
once. `Same` says what two such CPUs have in common.
-/

namespace CacheCPU

/-! ## The units -/

theorem CP0.regs_congr {c c' : CP0} {st : Status} {op e : Bool} {v : BitVec 32} {x : Exception}
    (hr : c.reg = c'.reg) (ha : c.rdAddress = c'.rdAddress) (ho : c.oldCompare = c'.oldCompare)
    (hp : st = .writeB → c.compareInterrupt = c'.compareInterrupt) :
    c.regs st op v x e = c'.regs st op v x e := by
  have hrec : c.record x = c'.record x := by
    unfold record
    rw [hr]
  unfold regs
  rw [hr, ha, ho, hrec]
  by_cases hw : st = .writeB
  · rw [hp hw]
  · simp [hw]

theorem CP0.pending_congr {c c' : CP0} (hr : c.reg = c'.reg) (ho : c.oldCompare = c'.oldCompare)
    (hp : c.compareInterrupt = c'.compareInterrupt) (b : Bool) : c.pending b = c'.pending b := by
  unfold pending
  rw [hr, ho, hp]

/-- The bad address matters only to an event of the MMU. -/
theorem Exception.rise_congr {x : Exception} {st : Status} {i i' : ExceptionIn}
    (h : { i with vAddr := i'.vAddr } = i') (hv : i.mmuExcCode ≠ 0#3 → i.vAddr = i'.vAddr) :
    x.rise st i = x.rise st i' := by
  by_cases hm : i.mmuExcCode = 0#3
  · have hm' : i'.mmuExcCode = 0#3 := by rw [← h]; exact hm
    have hrec : x.record i = x.record i' := by rw [← h]; rfl
    cases st
    case exc =>
      simp only [rise, hrec, hm, hm', noMemExc, tlbL, tlbS]
      rw [← h]
      rfl
    all_goals rfl
  · rw [← h, ← hv hm]

theorem Exception.rise_idle {x : Exception} {st : Status} {i : ExceptionIn} (hs : st ≠ .exc)
    (hi : x.interruptStart = false) (hp : x.pcSel0 = false) (hr : x.compareRecover = false) :
    x.rise st i = x := by
  cases x
  cases st <;> simp_all [rise]

theorem IDecode.fall_idle {d : IDecode} (hx : d.excCounter = false) (hs : d.stateReg ≠ .insD) :
    d.fall = d := by
  cases d
  simp_all [fall]

/-- A falling edge of the MMU depends on what the rising edge set only. -/
theorem Mmu.fall_congr {u u' : Mmu} {i i' : MmuIn} (r : Bool) (data : BitVec 32)
    (ha : u.addr = u'.addr) (hs : u.stateReg = u'.stateReg) (ht : u.tlbMem = u'.tlbMem)
    (hc : u.toPhysicalCounter = u'.toPhysicalCounter) (he : u.excCode = u'.excCode)
    (hx : u.excCounter = u'.excCounter) (hr : i.readEnable = i'.readEnable)
    (hw : i.writeEnable = i'.writeEnable) (hl : i.alignType = i'.alignType) :
    u.fall r data i = u'.fall r data i' := by
  cases u
  cases u'
  cases i
  cases i'
  simp only at ha hs ht hc he hx hr hw hl
  subst ha hs ht hc he hx hr hw hl
  rfl

/-! ## Two CPUs of the same instruction stream -/

/-- What the next stages of the two CPUs depend on is the same. -/
structure Same (s t : Cpu) : Prop where
  oldState : s.oldState = t.oldState
  nextState : s.nextState = t.nextState
  hasMem1 : s.hasMem1 = t.hasMem1
  hasMem2 : s.hasMem2 = t.hasMem2
  pcReg : s.pcReg = t.pcReg
  id : s.id = t.id
  alu : s.alu = t.alu
  wb : s.wb = t.wb
  gpr : s.gpr = t.gpr
  exc : s.exc = t.exc
  reg : s.cp0.reg = t.cp0.reg
  addrValue : s.cp0.addrValue = t.cp0.addrValue
  rdAddress : s.cp0.rdAddress = t.cp0.rdAddress
  oldCompare : s.cp0.oldCompare = t.cp0.oldCompare
  -- in `InsF` one of them may have raised the interrupt already that the other raises next
  pending : s.oldState ≠ .insF → s.cp0.compareInterrupt = t.cp0.compareInterrupt
  pendingNext : s.cp0.pending s.exc.compareRecover = t.cp0.pending t.exc.compareRecover
  addr : s.mmu.addr = t.mmu.addr
  stateReg : s.mmu.stateReg = t.mmu.stateReg
  tlbMem : s.mmu.tlbMem = t.mmu.tlbMem
  excCode : s.mmu.excCode = t.mmu.excCode
  excCounter : s.mmu.excCounter = t.mmu.excCounter

namespace Same

variable {s t : Cpu} {p q : PhyOut}

theorem refl (s : Cpu) : Same s s :=
  ⟨rfl, rfl, rfl, rfl, rfl, rfl, rfl, rfl, rfl, rfl, rfl, rfl, rfl, rfl, fun _ => rfl, rfl, rfl, rfl,
    rfl, rfl, rfl⟩

theorem trans {u : Cpu} (h : Same s t) (h' : Same t u) : Same s u := by
  refine ⟨h.oldState.trans h'.oldState, h.nextState.trans h'.nextState, h.hasMem1.trans h'.hasMem1,
    h.hasMem2.trans h'.hasMem2, h.pcReg.trans h'.pcReg, h.id.trans h'.id, h.alu.trans h'.alu,
    h.wb.trans h'.wb, h.gpr.trans h'.gpr, h.exc.trans h'.exc, h.reg.trans h'.reg,
    h.addrValue.trans h'.addrValue, h.rdAddress.trans h'.rdAddress,
    h.oldCompare.trans h'.oldCompare, fun ho => ?_, h.pendingNext.trans h'.pendingNext,
    h.addr.trans h'.addr, h.stateReg.trans h'.stateReg, h.tlbMem.trans h'.tlbMem,
    h.excCode.trans h'.excCode, h.excCounter.trans h'.excCounter⟩
  exact (h.pending ho).trans (h'.pending (h.oldState ▸ ho))

variable (h : Same s t)
include h

theorem clockInterToExcep : s.clockInterToExcep = t.clockInterToExcep := by
  unfold Cpu.clockInterToExcep CP0.exl CP0.ie
  by_cases ho : s.oldState = .writeB
  · rw [← h.oldState, h.pending (by simp [ho]), h.reg]
  · have hb : (s.oldState == .writeB) = false := by simpa using ho
    rw [← h.oldState, hb]
    rfl

theorem serialInterToExcep : s.serialInterToExcep p = t.serialInterToExcep p := by
  unfold Cpu.serialInterToExcep CP0.exl CP0.ie
  rw [h.oldState, h.reg]

theorem state : s.state p = t.state p := by
  unfold Cpu.state Cpu.excep
  rw [h.clockInterToExcep, h.serialInterToExcep, h.excCode, h.id, h.oldState, h.nextState]

theorem pcToMmu : s.pcToMmu = t.pcToMmu := by
  unfold Cpu.pcToMmu Cpu.epc Cpu.ebase
  rw [h.id, h.exc, h.wb, h.reg]

theorem mmuIn : s.mmuIn = t.mmuIn := by
  unfold Cpu.mmuIn Cpu.tlbWriteValue CP0.tlbWriteStruct
  rw [h.pcToMmu, h.alu, h.id, h.reg]

theorem instr : s.instrFromMmu p = t.instrFromMmu p := by
  unfold Cpu.instrFromMmu Mmu.instruction
  rw [h.stateReg]

theorem dataFromMmu : s.dataFromMmu p = t.dataFromMmu p := by
  unfold Cpu.dataFromMmu Mmu.dataOut Mmu.specialCom1Status
  rw [h.addr]

theorem archRegs : s.archRegs = t.archRegs := by
  unfold Cpu.archRegs
  rw [h.gpr, h.wb]

theorem succ (st : Status) : s.succ st = t.succ st := by
  unfold Cpu.succ
  rw [h.hasMem1, h.hasMem2]

theorem exceptionIn (hs : Machine.Control ⟨s, p⟩) (ht : Machine.Control ⟨t, p⟩) :
    s.exc.rise (s.state p) (s.exceptionIn p) = t.exc.rise (t.state p) (t.exceptionIn p) := by
  rw [h.exc, h.state]
  refine Exception.rise_congr ?_ fun hne => ?_
  · simp only [Cpu.exceptionIn, CP0.interruptCode, h.excCode, h.serialInterToExcep,
      h.clockInterToExcep, h.id, h.pcReg, h.pcToMmu, h.reg]
  · have hne' : t.mmu.excCode ≠ 0#3 := by
      rw [← h.excCode]
      exact hne
    have ha : s.badVAddr = s.mmu.addr := (hs.mmu_excCode hne).2.2
    have hb : t.badVAddr = t.mmu.addr := (ht.mmu_excCode hne').2.2
    exact ha.trans (h.addr.trans hb.symm)

theorem regs (hs : Machine.Control ⟨s, p⟩) :
    s.cp0.regs (s.state p) s.id.cp0Op s.gpr.rtValue s.exc s.id.eretEnable =
      t.cp0.regs (t.state p) t.id.cp0Op t.gpr.rtValue t.exc t.id.eretEnable := by
  rw [h.state, h.id, h.gpr, h.exc]
  refine CP0.regs_congr h.reg h.rdAddress h.oldCompare fun hw => h.pending fun ho => ?_
  have hst : (⟨s, p⟩ : Machine).state = .writeB := h.state.trans hw
  rcases hs.inFlight_cases (by rw [hst]; rfl) with ⟨hd, -⟩ | ⟨-, -, hf⟩
  · simp [hst] at hd
  · simp [ho, inFlight] at hf

theorem cycle_mmu : (s.cycle p q).mmu = (t.cycle p q).mmu := by
  have hst := h.state (p := p)
  have haddr : (s.rise p).mmu.addr = (t.rise p).mmu.addr := by
    simp only [Cpu.rise, Mmu.rise, hst, h.mmuIn, h.addr]
  have hid : (s.rise p).id = (t.rise p).id := by
    simp only [Cpu.rise, hst, h.id, h.instr]
  have htlb : (s.rise p).mmu.tlbMem = (t.rise p).mmu.tlbMem := by
    simp only [Cpu.rise, Mmu.rise, hst, h.mmuIn, h.tlbMem]
  have hdata : (s.rise p).writeValueFromMem q = (t.rise p).writeValueFromMem q := by
    unfold Cpu.writeValueFromMem Cpu.dataFromMmu Mmu.dataOut Mmu.specialCom1Status
    rw [haddr, hid]
    simp only [Cpu.rise, hst, h.alu, h.id, h.gpr, h.addrValue, h.instr, h.wb]
  unfold Cpu.cycle Cpu.fall
  simp only
  rw [hdata]
  refine Mmu.fall_congr _ _ haddr ?_ htlb ?_ h.excCode h.excCounter ?_ ?_ ?_
  · exact hst
  · simp only [Cpu.rise, Mmu.rise, hst, h.stateReg]
  all_goals
    simp only [Cpu.mmuIn, hid]

/-- Two that are the same stay so when the physical level answers the same. -/
theorem cycle (hs : Machine.Control ⟨s, p⟩) (ht : Machine.Control ⟨t, p⟩) :
    Same (s.cycle p q) (t.cycle p q) := by
  have hst := h.state (p := p)
  have hmmu := h.cycle_mmu (p := p) (q := q)
  have hexc : (s.cycle p q).exc = (t.cycle p q).exc := h.exceptionIn hs ht
  have hreg : (s.cycle p q).cp0.reg = (t.cycle p q).cp0.reg := h.regs hs
  have hold : (s.cycle p q).cp0.oldCompare = (t.cycle p q).cp0.oldCompare := by
    simp only [Cpu.cycle_cp0, CP0.rise, h.reg, h.oldCompare]
  have hpend : (s.cycle p q).cp0.compareInterrupt = (t.cycle p q).cp0.compareInterrupt :=
    h.pendingNext
  refine
    { oldState := hst
      nextState := by rw [Cpu.cycle_nextState, Cpu.cycle_nextState, hst, h.succ]
      hasMem1 := by simp only [Cpu.cycle_hasMem1, hst, h.instr, h.hasMem1]
      hasMem2 := by simp only [Cpu.cycle_hasMem2, hst, h.instr, h.hasMem2]
      pcReg := by simp only [Cpu.cycle_pcReg, hst, h.pcToMmu, h.pcReg]
      id := by simp only [Cpu.cycle_id, hst, h.id, h.instr]
      alu := by simp only [Cpu.cycle_alu, hst, h.alu, h.id, h.gpr, h.addrValue]
      wb := ?_
      gpr := by simp only [Cpu.cycle_gpr, hst, h.gpr, h.instr, h.wb]
      exc := hexc
      reg := hreg
      addrValue := by simp only [Cpu.cycle_cp0, CP0.rise, hst, h.reg, h.instr, h.addrValue]
      rdAddress := by simp only [Cpu.cycle_cp0, CP0.rise, hst, h.instr, h.rdAddress]
      oldCompare := hold
      pending := fun _ => hpend
      pendingNext := by rw [hexc]; exact CP0.pending_congr hreg hold hpend _
      addr := by rw [hmmu]
      stateReg := by rw [hmmu]
      tlbMem := by rw [hmmu]
      excCode := by rw [hmmu]
      excCounter := by rw [hmmu] }
  simp only [Cpu.cycle_wb, hst, h.wb, h.id, Cpu.rpc, h.pcReg, h.dataFromMmu, h.addrValue, h.alu,
    h.gpr]

theorem sent_cycle : (s.cycle p q).sent = (t.cycle p q).sent := by
  unfold Cpu.sent
  rw [h.cycle_mmu]

end Same

/-! ## A stalled cycle -/

namespace Machine

variable {m a b : Machine} {q : PhyOut}

/-- The timer between the edges: a change of `Compare` has been seen unless the edge before made
it, and in `Mem1` and `Mem2` the interrupt is raised if `Count` asks for it. -/
structure Timely (m : Machine) : Prop where
  seen : m.compare = m.cpu.cp0.oldCompare ∨ m.ComparePosted ∨ m.IsReset
  raised : m.cpu.oldState = .mem1 ∨ m.cpu.oldState = .mem2 → m.compare ≤ m.count →
    m.pending = true

/-- Before an edge of a load or store, `Compare` is at rest. -/
theorem Timely.oldCompare (h : Timely m) (hc : Control m)
    (hs : m.state = .mem1 ∨ m.state = .mem2) : m.compare = m.cpu.cp0.oldCompare := by
  have hfl : inFlight m.cpu.oldState = true := by
    refine hc.inFlight_before ?_ ?_ <;> rcases hs with hs | hs <;> simp [hs, inFlight]
  have hm : isMem (first m.word) = true := by
    rw [word, ← (hc.latched hfl).2.1]
    rcases hs with hs | hs
    · exact hasMem1_of_state hc hs
    · have := hasMem2_of_state hc hs
      rw [(hc.latched hfl).2.2, beq_iff_eq] at this
      rw [(hc.latched hfl).2.1, this]
      rfl
  rcases h.seen with h | h | h
  · exact h
  · have := isMem_of_isMtc0 h.2.1
    simp [hm] at this
  · rw [h.1.oldState] at hfl
    simp [inFlight] at hfl

/-- In a stalled cycle, too. -/
theorem Timely.oldCompare_stall (h : Timely m) (hr : m.phy.ready = false) (hc : Control m) :
    m.compare = m.cpu.cp0.oldCompare := by
  obtain ⟨hst, -⟩ := hc.busy hr
  rcases h.seen with h | h | h
  · exact h
  · simp [h.1, Mmu.isInsFOrMem] at hst
  · simp [h.2] at hr

theorem Timely.step (h : Timely a) (hc : Control a) (hstep : Step a b) : Timely b := by
  obtain ⟨q, hcpu, -, -⟩ := step_cases hstep
  have hs : b.cpu.oldState = a.state := by rw [hcpu]; rfl
  constructor
  · by_cases hn : b.compare = b.cpu.cp0.oldCompare
    · exact .inl hn
    · exact .inr (.inl (posted_of_ne hc hcpu hn))
  · intro ho hle
    rw [hs] at ho
    have hold := h.oldCompare hc ho
    have hfl : inFlight a.cpu.oldState = true := by
      refine hc.inFlight_before ?_ ?_ <;> rcases ho with ho | ho <;> simp [ho, inFlight]
    have hrec : a.cpu.exc.compareRecover = false := by
      refine hc.recover_of_ne fun he => ?_
      simp [he, inFlight] at hfl
    have hreg : b.cpu.cp0.reg = a.cpu.cp0.reg := by
      rw [cp0_cycle hcpu, CP0.rise_reg]
      unfold CP0.regs
      rcases ho with ho | ho <;> simp [ho, ← hold]
    rw [pending_cycle hcpu, CP0.pending, if_neg (by simpa using hold), hrec, if_neg (by simp),
      if_pos]
    rw [compare, count, hreg] at hle
    exact hle

theorem Reachable.timely (h : Reachable m) : Timely m := by
  induction h with
  | reset h => exact ⟨.inr (.inr h), fun ho => by simp [h.1.oldState] at ho⟩
  | step hr hstep ih => exact ih.step hr.control hstep

theorem id_stall (hc : Control m) (hb : m.phy.ready = false) :
    (m.cpu.cycle m.phy q).id = m.cpu.id := by
  obtain ⟨hst, -, -, hx⟩ := hc.busy hb
  have hs : m.cpu.state m.phy = m.cpu.oldState := (hc.state_busy hb).1
  have hreg : m.cpu.id.stateReg = m.cpu.oldState := by
    rcases hc.next with ⟨-, -, h⟩ | ⟨-, -, -, -, h⟩
    · exact h
    · simp [hb] at h
  have hrise : m.cpu.id.rise m.cpu.oldState (m.cpu.instrFromMmu m.phy) = m.cpu.id := by
    cases ho : m.cpu.oldState <;> simp only [ho, Mmu.isInsFOrMem, Bool.false_eq_true] at hst
    · simp only [IDecode.rise, ← hc.eret ho, ← ho, ← hreg]
    all_goals
      simp only [IDecode.rise, ← ho, ← hreg]
  have hd : m.cpu.id.stateReg ≠ .insD := by
    intro h
    simp [← hreg, h, Mmu.isInsFOrMem] at hst
  rw [Cpu.cycle_id, hs, hrise, IDecode.fall_idle hx hd]

theorem mmu_stall (hc : Control m) (hb : m.phy.ready = false) :
    (m.cpu.cycle m.phy q).mmu.addr = m.cpu.mmu.addr ∧
      (m.cpu.cycle m.phy q).mmu.stateReg = m.cpu.mmu.stateReg ∧
      (m.cpu.cycle m.phy q).mmu.tlbMem = m.cpu.mmu.tlbMem ∧
      (m.cpu.cycle m.phy q).mmu.excCode = m.cpu.mmu.excCode ∧
      (m.cpu.cycle m.phy q).mmu.excCounter = m.cpu.mmu.excCounter := by
  obtain ⟨hst, -, hx, -⟩ := hc.busy hb
  have hs : m.cpu.state m.phy = m.cpu.oldState := (hc.state_busy hb).1
  have hno := raised_stall hc hb
  have hx' : (m.cpu.rise m.phy).mmu.excCounter = false := hx
  have he : m.cpu.oldState ≠ .exe := by
    intro h
    simp [h, Mmu.isInsFOrMem] at hst
  have hreg : m.cpu.mmu.stateReg = m.cpu.oldState := by
    rcases hc.next with ⟨-, h, -⟩ | ⟨-, -, -, -, h⟩
    · exact h
    · simp [hb] at h
  refine ⟨?_, ?_, ?_, ?_, ?_⟩
  · simp [Cpu.cycle_mmu, Mmu.fall, Mmu.rise, hb]
  · simp [Cpu.cycle_mmu, Mmu.fall, Mmu.rise, hs, hreg]
  · simp [Cpu.cycle_mmu, Mmu.fall, Mmu.rise, hs, he]
  · simp only [Cpu.cycle, Cpu.fall, Mmu.fall, hx', hno]
    rfl
  · simp only [Cpu.cycle, Cpu.fall, Mmu.fall, hx', hno, hx]
    rfl

/-- A stalled cycle changes nothing that matters. -/
theorem same_stall (hr : Reachable m) (hb : m.phy.ready = false) :
    Same (m.cpu.cycle m.phy q) m.cpu := by
  have hc := hr.control
  obtain ⟨hst, -⟩ := hc.busy hb
  have hs : m.cpu.state m.phy = m.cpu.oldState := (hc.state_busy hb).1
  have hold : m.compare = m.cpu.cp0.oldCompare := hr.timely.oldCompare_stall hb hc
  obtain ⟨hd, hw, he, hx⟩ : m.cpu.oldState ≠ .insD ∧ m.cpu.oldState ≠ .writeB ∧
      m.cpu.oldState ≠ .exe ∧ m.cpu.oldState ≠ .exc := by
    cases ho : m.cpu.oldState <;> simp [ho, Mmu.isInsFOrMem] at hst <;> simp
  have hnext : m.cpu.nextState = m.cpu.succ m.cpu.oldState := by
    rcases hc.next with h | ⟨-, -, -, -, h⟩
    · exact h.1
    · simp [hb] at h
  have hwrite : m.cpu.wb.writeEnable = false := by
    by_contra hn
    exact hw (hc.write (by simpa using hn)).1
  have hstart : m.cpu.exc.interruptStart = false ∧ m.cpu.exc.pcSel0 = false := by
    simp [hc.interruptStart, hc.pcSel0, hx]
  have hrec := hc.recover_of_ne hx
  have hexc : (m.cpu.cycle m.phy q).exc = m.cpu.exc := by
    rw [Cpu.cycle_exc, hs, Exception.rise_idle hx hstart.1 hstart.2 hrec]
  have hregs : (m.cpu.cycle m.phy q).cp0.reg = m.cpu.cp0.reg := by
    simp [Cpu.cycle_cp0, CP0.rise, CP0.regs, hs, he, hw, hstart.1, ← hold]
  have hcmp : (m.cpu.cycle m.phy q).cp0.oldCompare = m.cpu.cp0.oldCompare := by
    simp [Cpu.cycle_cp0, CP0.rise, ← hold]
  -- the interrupt is raised once: what is pending after the next edge is pending after this one
  have hpend : (m.cpu.cycle m.phy q).cp0.compareInterrupt = m.cpu.cp0.pending false := by
    rw [← hrec]
    rfl
  obtain ⟨haddr, hreg, htlb, hcode, hcount⟩ := mmu_stall (q := q) hc hb
  refine
    { oldState := hs
      nextState := by rw [Cpu.cycle_nextState, hs, hnext]
      hasMem1 := by rw [Cpu.cycle_hasMem1, hs, if_neg hd]
      hasMem2 := by rw [Cpu.cycle_hasMem2, hs, if_neg hd]
      pcReg := by rw [Cpu.cycle_pcReg, if_neg (by simp [hb])]
      id := id_stall hc hb
      alu := ?_
      wb := ?_
      gpr := by simp [Cpu.cycle_gpr, GeneralRegister.rise, GeneralRegister.written, hwrite, hs, hd]
      exc := hexc
      reg := hregs
      addrValue := by simp [Cpu.cycle_cp0, CP0.rise, hs, hd]
      rdAddress := by simp [Cpu.cycle_cp0, CP0.rise, hs, hd]
      oldCompare := hcmp
      pending := fun ho => ?_
      pendingNext := ?_
      addr := haddr
      stateReg := hreg
      tlbMem := htlb
      excCode := hcode
      excCounter := hcount }
  · rw [Cpu.cycle_alu, hs]
    cases ho : m.cpu.oldState <;> simp only [ho, ne_eq, not_true_eq_false] at he <;> rfl
  · rw [Cpu.cycle_wb, hs]
    cases ho : m.cpu.oldState <;> simp only [ho, Mmu.isInsFOrMem, Bool.false_eq_true] at hst
    all_goals
      simp only [WB.rise, ← hwrite]
  · rw [hpend, CP0.pending, if_neg (by simpa using hold), if_neg (by simp)]
    split_ifs with hle
    · refine (hr.timely.raised ?_ hle).symm
      rw [Cpu.cycle_oldState, hs] at ho
      cases hm : m.cpu.oldState <;> simp [hm, Mmu.isInsFOrMem] at hst ho <;> simp
    · rfl
  · rw [hexc, hrec, CP0.pending, hregs, hcmp, hpend, CP0.pending]
    split_ifs <;> rfl

end Machine

end CacheCPU
