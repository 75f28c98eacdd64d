import CacheCPU.Proofs.Physical
import CacheCPU.Proofs.Flight

/-!
# The board refines the machine

Between edges of `cpu_clk` the physical level of the board does what the machine expects of one: it
is never busy at a falling edge if it was idle at the rising edge before, and it becomes busy only
in answer to a request. So the runs of the board are runs of the machine, and the SRAM chips change
only where a write was requested.
-/

namespace CacheCPU

namespace Physical

variable (I : Image) (e : Ext) (m : Mmu) {x : Physical}

/-- The phases of the physical level. -/
def Phase (x : Physical) : Prop :=
  RamIdle x ∨ (∃ b a k, k ≤ 7 ∧ Reading b a k x) ∨ ∃ b a v k, k ≤ 9 ∧ Writing b a v k x

/-- The phases in which no write is under way. -/
def Quiet (x : Physical) : Prop := RamIdle x ∨ ∃ b a k, k ≤ 7 ∧ Reading b a k x

theorem Phase.ramIdle (h : Phase x) (hs : x.phy.state = 0) : RamIdle x := by
  rcases h with h | ⟨b, a, k, -, h⟩ | ⟨b, a, v, k, -, h⟩
  · exact h
  · have := h.state
    omega
  · have := h.state
    omega

/-- A busy phase without the RAM. -/
theorem RamIdle.tick_busy (h : RamIdle x) (hs : x.phy.state ≠ 0) : RamIdle (x.tick I e m) := by
  obtain ⟨hidle, hhigh, -⟩ := ram_idle_tick I e m h
  obtain ⟨h0, -, -, h3, h4, -⟩ := PhyMem.receive_frame x.phy e.receive
  have hst : (0 < (x.phy.receive e.receive).state ∧ (x.phy.receive e.receive).state ≤ 13) ∨
      (x.phy.receive e.receive).state = 301 := by
    have := h.state
    omega
  obtain ⟨hstate, hc1, hc2⟩ :=
    PhyMem.serve_other I.rom (x.phyMemIn e m) x.phy.serialportDataLatch hst
  exact ⟨hstate, .inl hidle, (hc1.trans h3).trans h.ce1, (hc2.trans h4).trans h.ce2, hhigh⟩

theorem Quiet.tick (h : Quiet x) (hw : m.toPhysicalWriteEnable = false) :
    Quiet (x.tick I e m) ∧ (x.tick I e m).cells = x.cells := by
  rcases h with h | ⟨b, a, k, hk, h⟩
  · refine ⟨?_, (ram_idle_tick I e m h).2.2⟩
    by_cases hs : x.phy.state = 0
    · by_cases hr : m.toPhysicalReadEnable = true ∧ ramAddr m
      · exact .inr ⟨_, _, 0, by omega, tick_read I e m h hs hr.1 hw hr.2⟩
      · refine .inl (tick_other I e m h hs fun hor => ?_)
        rcases hor with hor | hor
        · exact fun ha => hr ⟨hor, ha⟩
        · simp [hw] at hor
    · exact .inl (h.tick_busy I e m hs)
  · by_cases hk7 : k = 7
    · subst hk7
      obtain ⟨hidle, -, -, hc⟩ := tick_read_end I e m h
      exact ⟨.inl hidle, hc⟩
    · obtain ⟨hr, hc⟩ := tick_reading I e m h (by omega)
      exact ⟨.inr ⟨b, a, k + 1, by omega, hr⟩, hc⟩

theorem Phase.tick (h : Phase x) : Phase (x.tick I e m) := by
  rcases h with h | ⟨b, a, k, hk, h⟩ | ⟨b, a, v, k, hk, h⟩
  · by_cases hs : x.phy.state = 0
    · by_cases ha : ramAddr m
      · by_cases hw : m.toPhysicalWriteEnable = true
        · exact .inr (.inr ⟨_, _, _, 0, by omega, tick_write I e m h hs hw ha⟩)
        · have hw' : m.toPhysicalWriteEnable = false := by simpa using hw
          rcases (Quiet.tick I e m (.inl h) hw').1 with hq | hq
          · exact .inl hq
          · exact .inr (.inl hq)
      · exact .inl (tick_other I e m h hs fun _ => ha)
    · exact .inl (h.tick_busy I e m hs)
  · by_cases hk7 : k = 7
    · subst hk7
      exact .inl (tick_read_end I e m h).1
    · exact .inr (.inl ⟨b, a, k + 1, by omega, (tick_reading I e m h (by omega)).1⟩)
  · by_cases hk9 : k = 9
    · subst hk9
      exact .inl (tick_write_end I e m h).1
    · exact .inr (.inr ⟨b, a, v, k + 1, by omega, (tick_writing I e m h (by omega)).1⟩)

end Physical

namespace Board

open Physical

variable {I : Image} {b a : Board}

/-- What holds of the board at every rising edge of `cpu_clk`. -/
structure Inv (b : Board) : Prop where
  phase : Phase b.phys
  busy : b.phys.phy.busy = (b.phys.phy.state != 0)
  quick : b.phys.phy.state = 0 → slow b.cpu.mmu = false

theorem inv_reset (h : b.IsReset) : Inv b := by
  obtain ⟨hc, hp⟩ := h
  refine ⟨.inl ⟨.inl (by rw [hp.state]; omega), hp.ram.symm, hp.opeCe1, hp.opeCe2, hp.pins⟩, ?_, ?_⟩
  · rw [hp.busy, hp.state]
    rfl
  · intro _
    simp [slow, hc.mmu.toPhysicalReadEnable, hc.mmu.toPhysicalWriteEnable]

theorem Inv.ready_iff (h : Inv b) : b.phys.out.ready = true ↔ b.phys.phy.state = 0 := by
  simp [out, h.busy]

theorem slow_of_requests {s : Cpu} (h : s.requests = false) : slow s.mmu = false := by
  simp_all [Cpu.requests, slow]

/-- An idle physical level stays idle until the new request. -/
theorem idle_cycle (h : Inv b) (hs : b.phys.phy.state = 0) (x : Exts) :
    (b.phys2 I x).phy.state = 0 ∧
      ((b.phys2 I x).tick I x.e2 (b.cpu.rise b.phys.out).mmu).phy.state = 0 := by
  have h1 : (b.phys.tick I x.e0 b.cpu.mmu).phy.state = 0 :=
    (tick_state I x.e0 b.cpu.mmu hs).2 (h.quick hs)
  have hslow : slow (b.cpu.rise b.phys.out).mmu = false := h.quick hs
  have h2 : (b.phys2 I x).phy.state = 0 := (tick_state I x.e1 _ h1).2 hslow
  exact ⟨h2, (tick_state I x.e2 _ h2).2 hslow⟩

/-- A cycle of the board is a step of the machine. -/
theorem step (h : Inv b) (x : Exts) : Machine.Step b.machine (b.cycle I x).machine := by
  refine .cycle b.machine (b.phys2 I x).out (b.cycle I x).phys.out (fun hr => ?_) fun hr hn => ?_
  · have hs := h.ready_iff.1 hr
    have hbusy : (b.phys2 I x).phy.busy = ((b.phys2 I x).phy.state != 0) := rfl
    simp [out, hbusy, (idle_cycle h hs x).1]
  · have hs := h.ready_iff.1 hr
    have hbusy : (b.cycle I x).phys.phy.busy = ((b.cycle I x).phys.phy.state != 0) := rfl
    have hstate : (b.cycle I x).phys.phy.state = 0 :=
      (tick_state I x.e3 _ (idle_cycle h hs x).2).2 (slow_of_requests hn)
    simp [out, hbusy, hstate]

theorem Inv.cycle (h : Inv b) (hc : Machine.Control b.machine) (x : Exts) :
    Inv (b.cycle I x) := by
  refine ⟨?_, rfl, ?_⟩
  · exact (((h.phase.tick I x.e0 _).tick I x.e1 _).tick I x.e2 _).tick I x.e3 _
  · intro hs
    by_cases h0 : b.phys.phy.state = 0
    · exact (tick_state I x.e3 _ (idle_cycle h h0 x).2).1 hs
    · have hr : b.phys.out.ready = false := Bool.eq_false_iff.2 (mt h.ready_iff.1 h0)
      exact slow_of_requests (Machine.requests_stall hc hr _)

/-- The runs of the board are runs of the machine. -/
theorem Reachable.inv (h : Reachable I b) : Inv b ∧ Machine.Reachable b.machine := by
  induction h with
  | reset h =>
    refine ⟨inv_reset h, .reset ⟨h.1, ?_⟩⟩
    simp [machine, out, h.2.busy]
  | cycle x _ ih => exact ⟨ih.1.cycle ih.2.control x, ih.2.step (step ih.1 x)⟩

theorem Reachable.step (h : Reachable I b) (x : Exts) :
    Machine.Step b.machine (b.cycle I x).machine :=
  Board.step h.inv.1 x

/-! ## The SRAM chips -/

/-- Without a write under way or requested the chips do not change. -/
theorem cells_cycle (h : Quiet b.phys) (hw : b.cpu.mmu.toPhysicalWriteEnable = false)
    (x : Exts) (hw' : (b.cycle I x).cpu.mmu.toPhysicalWriteEnable = false) :
    Quiet (b.cycle I x).phys ∧ (b.cycle I x).phys.cells = b.phys.cells := by
  have hw1 : (b.cpu.rise b.phys.out).mmu.toPhysicalWriteEnable = false := hw
  obtain ⟨h1, hc1⟩ := h.tick I x.e0 b.cpu.mmu hw
  obtain ⟨h2, hc2⟩ := h1.tick I x.e1 _ hw1
  obtain ⟨h3, hc3⟩ := h2.tick I x.e2 _ hw1
  obtain ⟨h4, hc4⟩ := h3.tick I x.e3 _ hw'
  exact ⟨h4, (((hc4.trans hc3).trans hc2).trans hc1)⟩

/-! ## One instruction -/

/-- The instruction fetched at the edge of `b` is in flight in the second board. -/
inductive InInstr (I : Image) (b : Board) : Board → Prop
  | fetch (x : Exts) : b.machine.Fetches → InInstr I b (b.cycle I x)
  | next {a : Board} (x : Exts) : InInstr I b a → a.machine.state ≠ .exc →
      a.cpu.oldState ≠ .writeB → InInstr I b (a.cycle I x)

theorem InInstr.reachable (hb : Reachable I b) (h : InInstr I b a) : Reachable I a := by
  induction h with
  | fetch x _ => exact hb.cycle x
  | next x _ _ _ ih => exact ih.cycle x

theorem InInstr.machine (hb : Reachable I b) (h : InInstr I b a) :
    Machine.InInstr b.machine a.machine := by
  induction h with
  | fetch x hf => exact .fetch hf (hb.step x)
  | next x hin hx hw ih => exact .next ih hx hw ((hin.reachable hb).step x)

/-- Nothing has been written since the fetch. -/
structure Unwritten (b a : Board) : Prop where
  quiet : Quiet a.phys
  cells : a.phys.cells = b.phys.cells
  writeEnable : a.cpu.mmu.toPhysicalWriteEnable = false

/-- The instruction has sent its write, in a stage that raised nothing and is its last. -/
structure Sent (s : Cpu) : Prop where
  stage : (s.oldState = .mem1 ∧ s.hasMem2 = false) ∨ s.oldState = .mem2
  excCounter : s.mmu.excCounter = false

theorem Unwritten.cycle (h : Unwritten b a) (x : Exts)
    (hw : (a.cycle I x).cpu.mmu.toPhysicalWriteEnable = false) : Unwritten b (a.cycle I x) := by
  obtain ⟨hq, hc⟩ := cells_cycle h.quiet h.writeEnable x hw
  exact ⟨hq, hc.trans h.cells, hw⟩

theorem writeEnable_of_requests {s : Cpu} (h : s.requests = false) :
    s.mmu.toPhysicalWriteEnable = false := by
  simp only [Cpu.requests, Bool.or_eq_false_iff] at h
  exact h.2

theorem unwritten_fetch (hb : Reachable I b) (hf : b.machine.Fetches) : Unwritten b b := by
  obtain ⟨hinv, hr⟩ := hb.inv
  have hs : b.phys.phy.state = 0 := hinv.ready_iff.1 hf.2
  exact ⟨.inl (hinv.phase.ramIdle hs), rfl,
    writeEnable_of_requests (hr.control.fetches_requests hf)⟩

end Board

namespace Machine

/-- What a write request says about the stage. -/
theorem sent_of_writeEnable {m : Machine} {q : PhyOut} (hc : Control m)
    (h : (m.cpu.cycle m.phy q).mmu.toPhysicalWriteEnable = true) :
    Board.Sent (m.cpu.cycle m.phy q) := by
  have hs : m.cpu.state m.phy = m.state := rfl
  have hreq : (m.cpu.cycle m.phy q).requests = true := by simp [Cpu.requests, h]
  obtain ⟨-, hno⟩ := of_requests hreq
  have hexc : (m.cpu.cycle m.phy q).mmu.excCounter = false := by
    by_contra hn
    obtain ⟨c, hcode, -⟩ := excCounter_cycle (by simpa using hn)
    simp [hno] at hcode
  have hw : (m.cpu.rise m.phy).mmu.writes (m.cpu.rise m.phy).mmuIn = true := by
    have h' : (m.cpu.rise m.phy).mmu.writeEnableReg q.ready (m.cpu.rise m.phy).mmuIn = true := h
    simp only [Mmu.writeEnableReg, Bool.and_eq_true] at h'
    exact h'.2
  have hreg : (m.cpu.rise m.phy).mmu.stateReg = m.state := rfl
  simp only [Mmu.writes, hreg, Bool.or_eq_true, Bool.and_eq_true, beq_iff_eq] at hw
  refine ⟨?_, hexc⟩
  rcases hw with ⟨⟨h1, hwr⟩, hrd⟩ | h2
  · have hin := hc.inFlight_before (by rw [h1]; rfl) (by simp [h1])
    obtain ⟨hl, -, h2⟩ := hc.latched hin
    have hid : (m.cpu.rise m.phy).mmuIn.writeEnable = m.cpu.id.memOp.getLsbD 1 ∧
        (m.cpu.rise m.phy).mmuIn.readEnable = m.cpu.id.memOp.getLsbD 2 := by
      simp [Cpu.mmuIn, Cpu.rise, hs, h1, IDecode.rise]
    have hsw : first m.cpu.id.insReg = F.sw := by
      refine memOp_write ?_ ?_
      · rw [← hl.memOp, ← hid.1]
        exact hwr
      · rw [← hl.memOp, ← hid.2]
        simpa using hrd
    refine .inl ⟨h1, ?_⟩
    simp only [Cpu.cycle_hasMem2, hs, h1, h2, hsw]
    rfl
  · exact .inr h2

end Machine

namespace Board

variable {I : Image} {b a : Board}

theorem Unwritten.next (hr : Machine.Control a.machine) (h : Unwritten b a) (x : Exts) :
    Unwritten b (a.cycle I x) ∨ Sent (a.cycle I x).cpu := by
  by_cases hw : (a.cycle I x).cpu.mmu.toPhysicalWriteEnable = true
  · exact .inr (Machine.sent_of_writeEnable hr hw)
  · exact .inl (h.cycle x (by simpa using hw))

/-- After its write an instruction stays in its last memory stage or is in `WriteB`. -/
theorem Sent.next (hc : Machine.Control a.machine) (h : Sent a.cpu) (hx : a.machine.state ≠ .exc)
    (x : Exts) : Sent (a.cycle I x).cpu ∨ (a.cycle I x).cpu.oldState = .writeB := by
  have ho : (a.cycle I x).cpu.oldState = a.machine.state := rfl
  have hs : a.cpu.state a.phys.out = a.machine.state := rfl
  rcases hc.state_cases with ⟨hr, hst, -⟩ | ⟨-, -, hst⟩ | ⟨-, -, hst⟩ | ⟨-, hof, -⟩
  · left
    have hexc : (a.cycle I x).cpu.mmu.excCounter = false := Machine.excCounter_stall hc hr _
    have hmem : (a.cycle I x).cpu.hasMem2 =
        if a.machine.state = .insD then _ else a.cpu.hasMem2 := rfl
    have hold : a.machine.cpu.oldState = a.cpu.oldState := rfl
    refine ⟨?_, hexc⟩
    rw [ho, hst, hold, hmem, hst, hold]
    rcases h.stage with ⟨h1, h2⟩ | h2
    · exact .inl ⟨h1, by simp [h1, h2]⟩
    · exact .inr h2
  · exact absurd hst hx
  · right
    rw [ho, hst, Cpu.succ_eq_writeB]
    rcases h.stage with ⟨h1, h2⟩ | h2
    · exact .inr (.inl ⟨h1, h2⟩)
    · exact .inr (.inr h2)
  · have hold : a.cpu.oldState = .insF := hof
    rcases h.stage with ⟨h1, -⟩ | h2
    · simp [h1] at hold
    · simp [h2] at hold

/-- Until an instruction has sent a write in a last, faultless memory stage, nothing is written. -/
theorem InInstr.unwritten (hb : Reachable I b) (h : InInstr I b a) :
    Unwritten b a ∨ Sent a.cpu ∨ a.cpu.oldState = .writeB := by
  induction h with
  | fetch x hf =>
    rcases (unwritten_fetch hb hf).next hb.inv.2.control x with h | h
    · exact .inl h
    · exact .inr (.inl h)
  | next x hin hx hw ih =>
    have hc := (hin.reachable hb).inv.2.control
    rcases ih with h | h | h
    · rcases h.next hc x with h | h
      · exact .inl h
      · exact .inr (.inl h)
    · exact .inr (h.next hc hx x)
    · exact absurd h hw

/-- A stage without memory access leaves the chips alone. -/
theorem Unwritten.plain (h : Unwritten b a)
    (hs : Mmu.isInsFOrMem a.machine.state = false) (x : Exts) : Unwritten b (a.cycle I x) := by
  refine h.cycle x (writeEnable_of_requests ?_)
  by_contra hn
  have hst := (Machine.of_requests (m := a.machine) (q := (a.phys2 I x).out)
    (Bool.eq_true_of_not_eq_false hn)).1
  simp [hst] at hs

/-! ## A board after reset -/

/-- A board after reset whose other registers are all zero. -/
def atReset : Board where
  cpu := Machine.atReset.cpu
  phys :=
    { phy :=
        { state := 0, busy := false, dataOut := 0#32, serialportDataLatch := 0#8
          serialportDataReady := false, ramOpeAddr := 0#20, ramWriteData := 0#32
          ramOpeWe := false, ramOpeCe1 := false, ramOpeCe2 := false, flashOpeAddr := 0#22
          flashReadSignal := false, serialportTransmitSignal := false
          serialportTransmitData := 0#8 }
      ram := ⟨.other, 0#32, fun _ => ⟨0#20, none, true, true, true⟩⟩
      flash := ⟨0, 0#23, none, true, true, 0#16⟩
      cells := fun _ _ => 0#32 }

theorem atReset_reachable (I : Image) : Reachable I atReset :=
  .reset ⟨Machine.atReset_isReset.1, ⟨rfl, rfl, rfl, rfl, rfl, rfl, .inl rfl, fun _ => rfl, rfl⟩⟩

/-- Nothing comes from outside. -/
def still : Exts :=
  let e : Ext := ⟨none, false, 0#32, 0#16⟩
  ⟨e, e, e, e⟩

/-- A ROM that holds the words `ws`. -/
def romOf (ws : List (BitVec 32)) : Image := ⟨fun i => ws.getD i.toNat 0#32, fun _ => 0#16⟩

/-- The board after `n` cycles in which nothing comes from outside. -/
def run (I : Image) (b : Board) : ℕ → Board
  | 0 => b
  | n + 1 => (run I b n).cycle I still

theorem Reachable.run (h : Reachable I b) (n : ℕ) : Reachable I (b.run I n) := by
  induction n with
  | zero => exact h
  | succ n ih => exact ih.cycle still

theorem InInstr.run (h : InInstr I b a) {n : ℕ} (hn : ∀ k < n, (a.run I k).machine.state ≠ .exc ∧
    (a.run I k).cpu.oldState ≠ .writeB) : InInstr I b (a.run I n) := by
  induction n with
  | zero => exact h
  | succ n ih =>
    have hlast := hn n (by omega)
    exact .next still (ih fun k hk => hn k (by omega)) hlast.1 hlast.2

end Board

end CacheCPU
