import CacheCPU.Async
import CacheCPU.Proofs.Regions

/-!
# A store to the serial port

`phy_mem` leaves its state 301 one edge too early, when the transmitter has just accepted the byte
and is not yet seen busy. The request still stands, so that it asks for the byte once more; but the
transmitter is busy by then, and at the edge at which it could accept the byte again its request
has gone. All of this lies between two edges of `cpu_clk`.
-/

namespace CacheCPU

/-! ## `phy_mem` -/

/-- A write to the serial port stands. -/
def SerialWrite (m : Mmu) : Prop :=
  m.toPhysicalWriteEnable = true ∧ m.toPhysicalReadEnable = false ∧
    m.toPhysicalAddr.extractLsb 23 22 = 0b10#2

namespace PhyMem

variable {p : PhyMem} (rom : BitVec 22 → BitVec 32) (i : PhyMemIn) (old : BitVec 8)

theorem accept_serial (hw : i.writeEnable = true) (hr : i.readEnable = false)
    (hd : i.addr.extractLsb 23 22 = 0b10#2) : p.accept rom i old =
      { p with
        serialportTransmitSignal := true
        serialportTransmitData := i.dataIn.extractLsb 7 0
        state := 301 } := by
  unfold accept
  simp [hw, hr, hd]

theorem accept_not_serial (hs : p.state = 0) (h : ¬ (i.writeEnable = true ∧ i.readEnable = false ∧
      i.addr.extractLsb 23 22 = 0b10#2)) :
    (p.accept rom i old).state ≠ 301 ∧
      (p.accept rom i old).serialportTransmitSignal = p.serialportTransmitSignal ∧
      (p.accept rom i old).serialportTransmitData = p.serialportTransmitData := by
  unfold accept
  simp only []
  split_ifs with h1 h2 h3 h4 h5 h6
  · simp
  · simp
  · simp
  · simp
  · refine absurd ⟨h5.1, ?_, h5.2⟩ h
    exact Bool.eq_false_iff.2 fun hr => h4 ⟨hr, h5.2⟩
  · simp [hs]
  · simp

/-- The states that do not count lead to others than 301. -/
theorem serve_not_serial (h0 : p.state ≠ 0) (h : p.state ≠ 301) :
    (p.serve rom i old).state ≠ 301 ∧
      (p.serve rom i old).serialportTransmitSignal = p.serialportTransmitSignal ∧
      (p.serve rom i old).serialportTransmitData = p.serialportTransmitData := by
  unfold serve
  split
  · contradiction
  · simp
  · simp
  · simp
  · simp
  · simp
  · simp
  · contradiction
  · split_ifs
    · simp
      omega
    · simp

theorem receive_transmit (r : Option (BitVec 8)) : (p.receive r).state = p.state ∧
    (p.receive r).serialportTransmitSignal = p.serialportTransmitSignal ∧
    (p.receive r).serialportTransmitData = p.serialportTransmitData := by
  cases r <;> exact ⟨rfl, rfl, rfl⟩

end PhyMem

/-! ## The phases of a transmission -/

namespace Line

/-- Nothing is being sent. -/
structure Quiet (l : Line) : Prop where
  state : l.phys.phy.state ≠ 301
  signal : l.phys.phy.serialportTransmitSignal = false
  tx : l.tx.state = 0b0000#4

/-- The byte `d` is offered to the transmitter. -/
structure Started (d : BitVec 8) (l : Line) : Prop where
  state : l.phys.phy.state = 301
  signal : l.phys.phy.serialportTransmitSignal = true
  data : l.phys.phy.serialportTransmitData = d
  tx : l.tx.state = 0b0000#4

/-- The transmitter has just accepted it, and `phy_mem` is idle. -/
structure Taken (l : Line) : Prop where
  state : l.phys.phy.state = 0
  signal : l.phys.phy.serialportTransmitSignal = false
  tx : l.tx.state = 0b0100#4

/-- The byte is offered once more. -/
structure Again (l : Line) : Prop where
  state : l.phys.phy.state = 301
  signal : l.phys.phy.serialportTransmitSignal = true
  tx : l.tx.state = 0b0100#4 ∨ l.tx.state = 0b1000#4

/-- `phy_mem` waits for the transmitter. -/
structure Sending (l : Line) : Prop where
  state : l.phys.phy.state = 301
  signal : l.phys.phy.serialportTransmitSignal = false

section Edges

variable (I : Image) (e : Ext) (k : Bool) (m : Mmu) {l : Line} {d : BitVec 8}

/-- The three fields that matter after an edge in which `phy_mem` does not transmit. -/
theorem tick_not_serial (h : l.phys.phy.state ≠ 301)
    (hm : l.phys.phy.state = 0 → ¬ SerialWrite m) :
    (l.tick I e k m).phys.phy.state ≠ 301 ∧ (l.tick I e k m).phys.phy.serialportTransmitSignal =
      l.phys.phy.serialportTransmitSignal := by
  obtain ⟨h0, h1, -⟩ := PhyMem.receive_transmit (p := l.phys.phy) e.receive
  by_cases hs : l.phys.phy.state = 0
  · have hphy := Physical.tick_accept I { e with transmitBusy := l.tx.busy } m hs
    obtain ⟨ha, hb, -⟩ := PhyMem.accept_not_serial I.rom
      (l.phys.phyMemIn { e with transmitBusy := l.tx.busy } m) l.phys.phy.serialportDataLatch
      (h0.trans hs) (hm hs)
    change ((l.phys.tick I _ m).phy).state ≠ 301 ∧
      ((l.phys.tick I _ m).phy).serialportTransmitSignal = _
    rw [hphy]
    exact ⟨ha, hb.trans h1⟩
  · obtain ⟨ha, hb, -⟩ := PhyMem.serve_not_serial I.rom
      (l.phys.phyMemIn { e with transmitBusy := l.tx.busy } m) l.phys.phy.serialportDataLatch
      (p := l.phys.phy.receive e.receive) (fun hn => hs (h0.symm.trans hn))
      (fun hn => h (h0.symm.trans hn))
    exact ⟨ha, hb.trans h1⟩

/-- An edge in state 301. -/
theorem tick_301 (h : l.phys.phy.state = 301) :
    (l.tick I e k m).phys.phy.state = (if l.tx.busy = false then 0 else 301) ∧
      (l.tick I e k m).phys.phy.serialportTransmitSignal = false := by
  obtain ⟨h0, -, -⟩ := PhyMem.receive_transmit (p := l.phys.phy) e.receive
  simp only [tick, Physical.tick, PhyMem.tick, PhyMem.serve, Physical.phyMemIn, h0.trans h]
  exact ⟨rfl, trivial⟩

/-- An edge at which the write is accepted. -/
theorem tick_serial (h : l.phys.phy.state = 0) (hm : SerialWrite m) :
    (l.tick I e k m).phys.phy.state = 301 ∧
      (l.tick I e k m).phys.phy.serialportTransmitSignal = true ∧
      (l.tick I e k m).phys.phy.serialportTransmitData = m.toPhysicalData.extractLsb 7 0 := by
  have hphy := Physical.tick_accept I { e with transmitBusy := l.tx.busy } m h
  change ((l.phys.tick I _ m).phy).state = 301 ∧
    ((l.phys.tick I _ m).phy).serialportTransmitSignal = true ∧
    ((l.phys.tick I _ m).phy).serialportTransmitData = _
  rw [hphy, PhyMem.accept_serial I.rom (l.phys.phyMemIn { e with transmitBusy := l.tx.busy } m)
    l.phys.phy.serialportDataLatch hm.1 hm.2.1 hm.2.2]
  exact ⟨rfl, rfl, rfl⟩

theorem accepted_of_signal (h : l.phys.phy.serialportTransmitSignal = false) :
    l.accepted = none := by
  unfold accepted Transmitter.accepted
  rw [h, Bool.and_false]
  rfl

/-- Without an offer the transmitter stays idle. -/
theorem tx_of_signal (h : l.phys.phy.serialportTransmitSignal = false)
    (ht : l.tx.state = 0b0000#4) : (l.tick I e k m).tx.state = 0b0000#4 := by
  change (if l.tx.state = _ then _ else _) = _
  rw [if_pos ht, h]
  rfl

theorem Quiet.tick (h : l.Quiet) (hm : l.phys.phy.state = 0 → ¬ SerialWrite m) :
    (l.tick I e k m).Quiet ∧ l.accepted = none := by
  obtain ⟨hs, hsig⟩ := tick_not_serial I e k m h.state hm
  exact ⟨⟨hs, hsig.trans h.signal, tx_of_signal I e k m h.signal h.tx⟩,
    accepted_of_signal h.signal⟩

theorem Quiet.start (h : l.Quiet) (hs : l.phys.phy.state = 0) (hm : SerialWrite m) :
    (l.tick I e k m).Started (m.toPhysicalData.extractLsb 7 0) ∧ l.accepted = none := by
  obtain ⟨h1, h2, h3⟩ := tick_serial I e k m hs hm
  exact ⟨⟨h1, h2, h3, tx_of_signal I e k m h.signal h.tx⟩, accepted_of_signal h.signal⟩

/-- The transmitter accepts the byte, and is not seen busy yet. -/
theorem Started.tick (h : l.Started d) : (l.tick I e k m).Taken ∧ l.accepted = some d := by
  have hready : l.tx.ready = true := by
    rw [Transmitter.ready, h.tx]
    rfl
  have hbusy : l.tx.busy = false := by
    rw [Transmitter.busy, hready]
    rfl
  obtain ⟨h1, h2⟩ := tick_301 I e k m h.state
  rw [if_pos hbusy] at h1
  refine ⟨⟨h1, h2, ?_⟩, ?_⟩
  · change (if l.tx.state = _ then _ else _) = _
    rw [if_pos h.tx, h.signal]
    rfl
  · unfold accepted Transmitter.accepted
    rw [hready, h.signal, h.data]
    rfl

/-- The standing request offers the byte again. -/
theorem Taken.tick (h : l.Taken) (hm : SerialWrite m) :
    (l.tick I e k m).Again ∧ l.accepted = none := by
  obtain ⟨h1, h2, -⟩ := tick_serial I e k m h.state hm
  refine ⟨⟨h1, h2, ?_⟩, accepted_of_signal h.signal⟩
  change (if l.tx.state = _ then _ else _) = _ ∨ (if l.tx.state = _ then _ else _) = _
  rw [h.tx]
  cases k
  · exact .inl rfl
  · exact .inr rfl

/-- The transmitter is busy and does not take it. -/
theorem Again.tick (h : l.Again) : (l.tick I e k m).Sending ∧ l.accepted = none := by
  have hready : l.tx.ready = false := by
    rw [Transmitter.ready]
    rcases h.tx with ht | ht <;> rw [ht] <;> rfl
  obtain ⟨h1, h2⟩ := tick_301 I e k m h.state
  rw [Transmitter.busy, hready, if_neg (by decide)] at h1
  refine ⟨⟨h1, h2⟩, ?_⟩
  unfold accepted Transmitter.accepted
  rw [hready, Bool.false_and]
  rfl

/-- The waiting ends when the transmitter is idle. -/
theorem Sending.tick (h : l.Sending) :
    ((l.tick I e k m).Sending ∨ (l.tick I e k m).Quiet) ∧ l.accepted = none := by
  obtain ⟨h1, h2⟩ := tick_301 I e k m h.state
  refine ⟨?_, accepted_of_signal h.signal⟩
  by_cases ht : l.tx.state = 0b0000#4
  · have hbusy : l.tx.busy = false := by
      rw [Transmitter.busy, Transmitter.ready, ht]
      rfl
    rw [if_pos hbusy] at h1
    exact .inr ⟨by rw [h1]; decide, h2, tx_of_signal I e k m h.signal ht⟩
  · have hbusy : l.tx.busy ≠ false := by
      rw [Transmitter.busy, Transmitter.ready, beq_eq_false_iff_ne.2 ht]
      decide
    rw [if_neg hbusy] at h1
    exact .inl ⟨h1, h2⟩

/-- While no write stands, what is being sent goes on or ends, and nothing new begins. -/
theorem settle (h : l.Sending ∨ l.Quiet) (hm : ¬ SerialWrite m) :
    ((l.tick I e k m).Sending ∨ (l.tick I e k m).Quiet) ∧ l.accepted = none := by
  rcases h with h | h
  · exact h.tick I e k m
  · obtain ⟨hq, ha⟩ := h.tick I e k m fun _ => hm
    exact ⟨.inr hq, ha⟩

end Edges

end Line

/-! ## The stores -/

namespace Board

variable {I : Image} {b : Board}

/-- The edge of `b` enters the stage that writes the serial data register. -/
def StoresSerial (b : Board) : Prop :=
  b.machine.Accesses ∧ b.machine.writes = true ∧ b.machine.passes = true ∧
    b.physical = physicalSerialData

instance (b : Board) : Decidable b.StoresSerial :=
  inferInstanceAs (Decidable ((b.machine.phy.ready = true ∧
    Mmu.isInsFOrMem b.machine.state = true) ∧ b.machine.writes = true ∧
    b.machine.passes = true ∧ b.physical = physicalSerialData))

/-- The bytes that the instruction stores at that edge: the low byte of its register. -/
def stores (b : Board) : List (BitVec 8) :=
  if b.StoresSerial then [b.cpu.gpr.rtValue.extractLsb 7 0] else []

/-- Only the serial data register has the device bits "10". -/
theorem device_serial_iff {pa : BitVec 32} :
    (toPhysicalAddrReg pa).extractLsb 23 22 = 0b10#2 ↔ pa = physicalSerialData := by
  by_cases h3 : pa = physicalSerialData
  · subst h3
    exact iff_of_true (by decide) rfl
  refine iff_of_false ?_ h3
  unfold toPhysicalAddrReg
  by_cases h1 : pa.extractLsb 31 24 = 0x1e#8
  · rw [if_pos h1, (device_append _ _).1]
    decide
  by_cases h2 : pa.extractLsb 31 23 = 0#9
  · rw [if_neg h1, if_pos h2, (device_ram _).1]
    decide
  by_cases h4 : pa.extractLsb 31 12 = 0x10000#20
  · rw [if_neg h1, if_neg h2, if_neg h3, if_pos h4, BitVec.append_assoc]
    intro hd
    have hdev := (device_append 0b11#2 (0x000#12 ++ pa.extractLsb 11 2 : BitVec 22)).1
    exact absurd (hdev.symm.trans hd) (by decide)
  · rw [if_neg h1, if_neg h2, if_neg h3, if_neg h4]
    decide

/-- A request stands only after a cycle that begins an access. -/
theorem accesses_of_requests (hr : Reachable I b) (x : Exts)
    (h : (b.cycle I x).cpu.requests = true) : b.machine.Accesses := by
  have hreq : (b.machine.cpu.cycle b.machine.phy (b.phys2 I x).out).requests = true := h
  have hready : b.machine.phy.ready = true := by
    by_contra hn
    have hno := Machine.requests_stall hr.inv.2.control (Bool.eq_false_iff.2 hn) (b.phys2 I x).out
    rw [hreq] at hno
    cases hno
  exact ⟨hready, (Machine.of_requests hreq).1⟩

theorem ne_serialStatus_of_serial (hpa : b.physical = physicalSerialData) :
    b.machine.access ≠ virtualSerialStatus := by
  intro hs
  have hdirect : notUseMmu virtualSerialStatus = true := by decide
  rw [physical, hs, physicalAddr, if_pos hdirect] at hpa
  exact absurd hpa (by decide)

/-- A write to the serial port stands after the cycle of a store to it. -/
theorem serialWrite_iff (hr : Reachable I b) (x : Exts) :
    SerialWrite (b.cycle I x).cpu.mmu ↔ b.StoresSerial := by
  constructor
  · rintro ⟨hw, hrd, hd⟩
    have ha := accesses_of_requests hr x (by rw [Cpu.requests, hw, Bool.or_true])
    obtain ⟨-, hwrite, haddr⟩ := stands hr ha x
    rw [hwrite] at hw
    simp only [Bool.and_eq_true] at hw
    rw [haddr, device_serial_iff] at hd
    exact ⟨ha, hw.2, hw.1.2, hd⟩
  · rintro ⟨ha, hw, hp, hpa⟩
    obtain ⟨hread, hwrite, haddr⟩ := stands hr ha x
    have hne := ne_serialStatus_of_serial hpa
    have hreads : b.machine.reads = false := by
      by_contra hn
      rw [Machine.writes_of_reads (Bool.eq_true_of_not_eq_false hn)] at hw
      cases hw
    refine ⟨?_, ?_, ?_⟩
    · rw [hwrite, beq_eq_false_iff_ne.2 hne, hp, hw]
      rfl
    · rw [hread, hreads, Bool.and_false]
    · rw [haddr, hpa]
      decide

/-- The offset in the page is that of the virtual address. -/
theorem physicalAddr_offset {t : Tlb} {v : BitVec 32} (h : tlbMissing t v = false) :
    (physicalAddr t v).extractLsb 1 0 = v.extractLsb 1 0 := by
  unfold physicalAddr
  by_cases hn : notUseMmu v = true
  · rw [if_pos hn]
    ext i hi
    grind
  · rw [if_neg hn, if_pos h]
    ext i hi
    grind

/-- What it carries. -/
theorem serial_data (h : b.StoresSerial) (x : Exts) :
    (b.cycle I x).cpu.mmu.toPhysicalData.extractLsb 7 0 = b.cpu.gpr.rtValue.extractLsb 7 0 := by
  obtain ⟨-, hw, hp, hpa⟩ := h
  have hst : b.machine.state = .mem1 ∨ b.machine.state = .mem2 := by
    simp only [Machine.writes, Bool.or_eq_true, Bool.and_eq_true, beq_iff_eq] at hw
    rcases hw with ⟨⟨hs, -⟩, -⟩ | hs
    · exact .inl hs
    · exact .inr hs
  have hs : b.cpu.state b.phys.out = b.machine.state := rfl
  have hlow : b.cpu.alu.result.extractLsb 1 0 = 0b00#2 := by
    have hmiss : tlbMissing b.cpu.mmu.tlbMem b.machine.access = false := by
      simp only [Machine.passes, Bool.and_eq_true, Bool.not_eq_true'] at hp
      exact hp.1.2
    have haccess : b.machine.access = b.cpu.alu.result := by
      rw [Machine.access, if_neg (by rcases hst with h | h <;> rw [h] <;> decide)]
      rfl
    have hoff := physicalAddr_offset hmiss
    rw [← physical, hpa, haccess] at hoff
    exact hoff.symm
  have hres : (b.cpu.rise b.phys.out).alu.result = b.cpu.alu.result := by
    rcases hst with hst | hst <;> simp [Cpu.rise, hs, hst, Alu.rise]
  have hrt : (b.cpu.rise b.phys.out).gpr.rtValue = b.cpu.gpr.rtValue := by
    rcases hst with hst | hst <;> simp [Cpu.rise, hs, hst, GeneralRegister.rise]
  change ((b.cpu.rise b.phys.out).writeValueFromMem (b.phys2 I x).out).extractLsb 7 0 = _
  rw [Cpu.writeValueFromMem, hres, hrt, memWriteValue, hlow]
  split_ifs
  · rw [selectByte, if_pos rfl]
    ext i hi
    grind
  · rfl

end Board

/-! ## Runs -/

namespace Station

open Board

variable {I : Image} {s : Station} {sent bytes : List (BitVec 8)}

/-- The stations that some run from reset passes through, with the bytes that have been stored to
the serial port and those that the transmitter has accepted. -/
inductive Runs (I : Image) : Station → List (BitVec 8) → List (BitVec 8) → Prop
  | reset {s : Station} : s.IsReset → Runs I s [] []
  | cycle {s : Station} {sent bytes : List (BitVec 8)} (x : Inputs) : Runs I s sent bytes →
      Runs I (s.cycle I x) (sent ++ s.board.stores) (bytes ++ s.accepted I x)

theorem Runs.reachable (h : Runs I s sent bytes) : Board.Reachable I s.board := by
  induction h with
  | reset h => exact .reset h.1
  | cycle x _ ih => exact ih.cycle _

/-- What holds before each rising edge of `cpu_clk`: nothing is being sent, or the byte that was
stored in the last cycle is offered and its request stands, or it is on its way. -/
def Phase (s : Station) (sent bytes : List (BitVec 8)) : Prop :=
  (s.line0.Quiet ∧ ¬ SerialWrite s.board.cpu.mmu ∧ sent = bytes) ∨
    (∃ d, s.line0.Started d ∧ SerialWrite s.board.cpu.mmu ∧ sent = bytes ++ [d]) ∨
    (s.line0.Sending ∧ ¬ SerialWrite s.board.cpu.mmu ∧ sent = bytes)

/-- The bytes accepted in a cycle, edge by edge. -/
theorem accepted_eq {x : Inputs} {o₀ o₁ o₂ o₃ : Option (BitVec 8)} (h₀ : s.line0.accepted = o₀)
    (h₁ : (s.line1 I x).accepted = o₁) (h₂ : (s.line2 I x).accepted = o₂)
    (h₃ : (s.line3 I x).accepted = o₃) : s.accepted I x = [o₀, o₁, o₂, o₃].filterMap id := by
  rw [accepted, h₀, h₁, h₂, h₃]

section Cycle

variable (hr : Board.Reachable I s.board) (x : Inputs)
include hr

/-- While `phy_mem` transmits, nothing new is stored. -/
theorem stores_busy (hs : s.board.phys.phy.state = 301) : s.board.stores = [] ∧
    ¬ SerialWrite (s.cycle I x).board.cpu.mmu := by
  have hno : ¬ s.board.StoresSerial := by
    intro h
    have hready := hr.inv.1.ready_iff.1 h.1.1
    rw [hs] at hready
    cases hready
  exact ⟨if_neg hno, fun hw => hno ((serialWrite_iff hr (s.exts I x)).1 hw)⟩

/-- A cycle that begins with nothing being sent. -/
theorem cycle_quiet (h : s.line0.Quiet) (hm : ¬ SerialWrite s.board.cpu.mmu) :
    s.accepted I x = [] ∧
      (((s.cycle I x).line0.Quiet ∧ ¬ SerialWrite (s.cycle I x).board.cpu.mmu ∧
        s.board.stores = []) ∨
      ∃ d, (s.cycle I x).line0.Started d ∧ SerialWrite (s.cycle I x).board.cpu.mmu ∧
        s.board.stores = [d]) := by
  have hm' : ¬ SerialWrite (s.board.cpu.rise s.board.phys.out).mmu := hm
  have hiff := serialWrite_iff hr (s.exts I x)
  obtain ⟨h1, a0⟩ := h.tick I x.exts.e0 x.t0 _ fun _ => hm
  obtain ⟨h2, a1⟩ := h1.tick I x.exts.e1 x.t1 _ fun _ => hm'
  obtain ⟨h3, a2⟩ := h2.tick I x.exts.e2 x.t2 _ fun _ => hm'
  by_cases hs : s.board.StoresSerial
  · have hw := hiff.2 hs
    have hidle : (s.line3 I x).phys.phy.state = 0 :=
      (idle_cycle hr.inv.1 (hr.inv.1.ready_iff.1 hs.1.1) (s.exts I x)).2
    obtain ⟨h4, a3⟩ := h3.start I x.exts.e3 x.t3 _ hidle hw
    refine ⟨accepted_eq a0 a1 a2 a3, .inr ⟨_, h4, hw, ?_⟩⟩
    rw [stores, if_pos hs, serial_data hs]
  · have hw : ¬ SerialWrite (s.cycle I x).board.cpu.mmu := fun hw => hs (hiff.1 hw)
    obtain ⟨h4, a3⟩ := h3.tick I x.exts.e3 x.t3 _ fun _ => hw
    exact ⟨accepted_eq a0 a1 a2 a3, .inl ⟨h4, hw, if_neg hs⟩⟩

omit hr in
/-- The cycle in which the byte is accepted. -/
theorem cycle_started {d : BitVec 8} (h : s.line0.Started d) (hm : SerialWrite s.board.cpu.mmu) :
    s.accepted I x = [d] ∧ ((s.cycle I x).line0.Sending ∨ (s.cycle I x).line0.Quiet) := by
  have hm' : SerialWrite (s.board.cpu.rise s.board.phys.out).mmu := hm
  obtain ⟨h1, a0⟩ := h.tick I x.exts.e0 x.t0 s.board.cpu.mmu
  obtain ⟨h2, a1⟩ := h1.tick I x.exts.e1 x.t1 _ hm'
  obtain ⟨h3, a2⟩ := h2.tick I x.exts.e2 x.t2 (s.board.cpu.rise s.board.phys.out).mmu
  obtain ⟨h4, a3⟩ := h3.tick I x.exts.e3 x.t3 (s.cycle I x).board.cpu.mmu
  exact ⟨accepted_eq a0 a1 a2 a3, h4⟩

/-- A cycle in which it is being sent. -/
theorem cycle_sending (h : s.line0.Sending) (hm : ¬ SerialWrite s.board.cpu.mmu) :
    s.accepted I x = [] ∧ ((s.cycle I x).line0.Sending ∨ (s.cycle I x).line0.Quiet) := by
  have hm' : ¬ SerialWrite (s.board.cpu.rise s.board.phys.out).mmu := hm
  obtain ⟨h1, a0⟩ := h.tick I x.exts.e0 x.t0 s.board.cpu.mmu
  obtain ⟨h2, a1⟩ := Line.settle I x.exts.e1 x.t1 _ h1 hm'
  obtain ⟨h3, a2⟩ := Line.settle I x.exts.e2 x.t2 _ h2 hm'
  obtain ⟨h4, a3⟩ := Line.settle I x.exts.e3 x.t3 _ h3 (stores_busy hr x h.state).2
  exact ⟨accepted_eq a0 a1 a2 a3, h4⟩

theorem Phase.cycle (h : s.Phase sent bytes) :
    (s.cycle I x).Phase (sent ++ s.board.stores) (bytes ++ s.accepted I x) := by
  rcases h with ⟨hq, hm, rfl⟩ | ⟨d, hq, hm, rfl⟩ | ⟨hq, hm, rfl⟩
  · obtain ⟨ha, ⟨h, hw, hs⟩ | ⟨d, h, hw, hs⟩⟩ := cycle_quiet hr x hq hm
    · exact .inl ⟨h, hw, by rw [hs, ha]⟩
    · exact .inr (.inl ⟨d, h, hw, by rw [hs, ha, List.append_nil]⟩)
  · obtain ⟨ha, h⟩ := cycle_started x hq hm
    obtain ⟨hs, hw⟩ := stores_busy hr x hq.state
    have heq : bytes ++ [d] ++ s.board.stores = bytes ++ s.accepted I x := by
      rw [hs, ha, List.append_nil]
    rcases h with h | h
    · exact .inr (.inr ⟨h, hw, heq⟩)
    · exact .inl ⟨h, hw, heq⟩
  · obtain ⟨ha, h⟩ := cycle_sending hr x hq hm
    obtain ⟨hs, hw⟩ := stores_busy hr x hq.state
    rcases h with h | h
    · exact .inr (.inr ⟨h, hw, by rw [hs, ha]⟩)
    · exact .inl ⟨h, hw, by rw [hs, ha]⟩

end Cycle

theorem Runs.phase (h : Runs I s sent bytes) : s.Phase sent bytes := by
  induction h with
  | @reset s h =>
    have hmmu := h.1.1.mmu
    refine .inl ⟨⟨?_, h.1.2.transmitSignal, h.2⟩, fun hw => ?_, rfl⟩
    · rw [show s.line0.phys.phy.state = 0 from h.1.2.state]
      decide
    · rw [SerialWrite, hmmu.toPhysicalWriteEnable] at hw
      cases hw.1
  | cycle x hrun ih => exact ih.cycle hrun.reachable x

/-- Nothing comes from outside, and every edge is a tick. -/
def ticking : Inputs := ⟨still, true, true, true, true⟩

def atReset : Station := ⟨Board.atReset, ⟨0b0000#4, 0#8⟩⟩

def run (I : Image) (s : Station) : ℕ → Station
  | 0 => s
  | n + 1 => (run I s n).cycle I ticking

theorem Runs.run (h : Runs I s [] []) (n : ℕ) :
    Runs I (s.run I n) ((List.range n).flatMap fun k => (s.run I k).board.stores)
      ((List.range n).flatMap fun k => (s.run I k).accepted I ticking) := by
  induction n with
  | zero => exact h
  | succ n ih =>
    rw [List.range_succ, List.flatMap_append, List.flatMap_append, List.flatMap_singleton,
      List.flatMap_singleton]
    exact ih.cycle ticking

end Station

end CacheCPU
