import CacheCPU.Board
import CacheCPU.Proofs.Control
import Mathlib.Tactic.IntervalCases

/-!
# The phases of the physical level

At every fast edge `phy_mem` is idle, serves the Flash or the serial port, or stands at a fixed
point of a RAM access, where `ram` stands at the matching point of its own sequence. A read leaves
the SRAM chips alone and ends with the addressed word in `data_out`; a write changes one word, at
its fourth edge.
-/

namespace CacheCPU

/-! ## `phy_mem` by itself -/

namespace PhyMem

variable {p : PhyMem} (rom : BitVec 22 → BitVec 32) (i : PhyMemIn) (old : BitVec 8)

theorem receive_frame (p : PhyMem) (r : Option (BitVec 8)) :
    (p.receive r).state = p.state ∧ (p.receive r).ramOpeAddr = p.ramOpeAddr ∧
      (p.receive r).ramWriteData = p.ramWriteData ∧ (p.receive r).ramOpeCe1 = p.ramOpeCe1 ∧
      (p.receive r).ramOpeCe2 = p.ramOpeCe2 ∧ (p.receive r).dataOut = p.dataOut := by
  cases r <;> simp [receive]

theorem serve_count (h : (102 ≤ p.state ∧ p.state < 110) ∨ (202 ≤ p.state ∧ p.state < 208)) :
    p.serve rom i old = { p with state := p.state + 1 } := by
  have hmid : p.state ≤ 12 ∨ (102 ≤ p.state ∧ p.state ≤ 109) ∨ (202 ≤ p.state ∧ p.state ≤ 207) := by
    omega
  unfold serve
  split <;> first | omega | exact if_pos hmid

theorem serve_start (h : p.state = 101 ∨ p.state = 201) : p.serve rom i old =
    { p with ramOpeCe1 := false, ramOpeCe2 := false, state := p.state + 1 } := by
  unfold serve
  rcases h with h | h <;> simp only [h]

/-- Outside the RAM accesses the RAM side of `phy_mem` is left alone. -/
theorem serve_other (h : (0 < p.state ∧ p.state ≤ 13) ∨ p.state = 301) :
    ((p.serve rom i old).state ≤ 13 ∨ (p.serve rom i old).state = 301) ∧
      (p.serve rom i old).ramOpeCe1 = p.ramOpeCe1 ∧
      (p.serve rom i old).ramOpeCe2 = p.ramOpeCe2 := by
  have hcases : p.state = 6 ∨ p.state = 13 ∨ p.state = 301 ∨
      (p.state < 13 ∧ p.state ≠ 0 ∧ p.state ≠ 6) := by omega
  rcases hcases with hs | hs | hs | ⟨hs, h0, h6⟩
  · simp [serve, hs]
  · simp [serve, hs]
  · cases ht : i.transmitBusy <;> simp [serve, hs, ht]
  · have he : p.serve rom i old = { p with state := p.state + 1 } := by
      unfold serve
      split <;> first | omega | exact if_pos (.inl (Nat.le_of_lt_succ hs))
    rw [he]
    exact ⟨.inl hs, rfl, rfl⟩

/-- Accepting no request for the RAM leaves its side alone. -/
theorem accept_other (hs : p.state = 0)
    (h : i.readEnable = true ∨ i.writeEnable = true → i.addr.extractLsb 23 22 ≠ 0b01#2) :
    (p.accept rom i old).state ∈ [0, 1, 301] ∧ (p.accept rom i old).ramOpeCe1 = p.ramOpeCe1 ∧
      (p.accept rom i old).ramOpeCe2 = p.ramOpeCe2 := by
  unfold accept
  simp only []
  split_ifs with h1 h2 h3
  · simp
  · exact absurd h2.2 (h (.inr h2.1))
  · exact absurd h3.2 (h (.inl h3.1))
  all_goals simp [hs]

/-- Which requests make the physical level busy. -/
theorem accept_state (hs : p.state = 0) : (p.accept rom i old).state = 0 ↔
    (i.readEnable = true → i.addr.extractLsb 23 22 ≠ 0b00#2 ∧ i.addr.extractLsb 23 22 ≠ 0b01#2) ∧
      (i.writeEnable = true →
        i.addr.extractLsb 23 22 ≠ 0b01#2 ∧
          (i.addr.extractLsb 23 22 = 0b10#2 → i.readEnable = true)) := by
  unfold accept
  simp only []
  split_ifs <;> simp_all

end PhyMem

/-- Only the second stage of a write lowers a write strobe. -/
theorem Ram.tick_high {r : Ram} {i : RamIn} {cells : Cells} {floating : BitVec 32}
    (h : ∀ c, (r.pins c).we = true) (hs : ∀ b, r.state ≠ .write2 b) (c : Bool) :
    ((r.tick i cells floating).pins c).we = true := by
  unfold Ram.tick
  split <;> simp only [Ram.setPins, Function.update_apply] <;> (try split) <;>
    first | exact h _ | rfl | exact absurd ‹_› (hs _)

namespace Physical

/-! ## The phases -/

/-- The state of `ram` at point `k` of a read. -/
def readStage (b : Bool) : ℕ → RamState
  | 1 => .read1 b
  | 2 => .read2 b
  | 3 => .read3 b
  | _ => .idle

/-- Point `k` of a read of word `a` of bank `b`. -/
structure Reading (b : Bool) (a : BitVec 20) (k : ℕ) (x : Physical) : Prop where
  state : x.phy.state = 201 + k
  addr : x.phy.ramOpeAddr = a
  ram : x.ram.state = readStage b k
  ce1 : x.phy.ramOpeCe1 = (k == 0 && !b)
  ce2 : x.phy.ramOpeCe2 = (k == 0 && b)
  we : k = 0 → x.phy.ramOpeWe = true
  high : ∀ c, (x.ram.pins c).we = true
  floats : k = 1 ∨ k = 2 → (x.ram.pins b).data = none
  drives : k = 2 → (x.ram.pins b).ce = false ∧ (x.ram.pins b).oe = false ∧ (x.ram.pins b).addr = a
  data : 3 ≤ k → x.ram.readData = x.cells b a

/-- The state of `ram` at point `k` of a write. -/
def writeStage (b : Bool) : ℕ → RamState
  | 1 => .write1 b
  | 2 => .write2 b
  | 3 => .write3 b
  | _ => .idle

/-- Point `k` of a write of `v` to word `a` of bank `b`. -/
structure Writing (b : Bool) (a : BitVec 20) (v : BitVec 32) (k : ℕ) (x : Physical) : Prop where
  state : x.phy.state = 101 + k
  addr : x.phy.ramOpeAddr = a
  word : x.phy.ramWriteData = v
  ram : x.ram.state = writeStage b k
  ce1 : x.phy.ramOpeCe1 = (k == 0 && !b)
  ce2 : x.phy.ramOpeCe2 = (k == 0 && b)
  we : k = 0 → x.phy.ramOpeWe = false
  high : ∀ c, (x.ram.pins c).we = !(k == 3 && c == b)
  drives : k = 2 ∨ k = 3 → (x.ram.pins b).ce = false ∧ (x.ram.pins b).addr = a ∧
    (x.ram.pins b).data = some v

/-- The RAM is not accessed. -/
structure RamIdle (x : Physical) : Prop where
  state : x.phy.state ≤ 13 ∨ x.phy.state = 301
  ram : x.ram.state = .idle ∨ x.ram.state = .other
  ce1 : x.phy.ramOpeCe1 = false
  ce2 : x.phy.ramOpeCe2 = false
  high : ∀ c, (x.ram.pins c).we = true

section Tick

variable (I : Image) (e : Ext) (m : Mmu) {x : Physical} {b : Bool} {a : BitVec 20}
  {v : BitVec 32} {k : ℕ}

/-- Inside a RAM access `phy_mem` counts. -/
theorem phy_count (hn : (101 ≤ x.phy.state ∧ x.phy.state < 110) ∨
      (201 ≤ x.phy.state ∧ x.phy.state < 208)) :
    (x.tick I e m).phy.state = x.phy.state + 1 ∧
      (x.tick I e m).phy.ramOpeAddr = x.phy.ramOpeAddr ∧
      (x.tick I e m).phy.ramWriteData = x.phy.ramWriteData ∧
      (x.tick I e m).phy.ramOpeCe1 =
        (x.phy.ramOpeCe1 && x.phy.state != 101 && x.phy.state != 201) ∧
      (x.tick I e m).phy.ramOpeCe2 =
        (x.phy.ramOpeCe2 && x.phy.state != 101 && x.phy.state != 201) := by
  obtain ⟨h0, h1, h2, h3, h4, -⟩ := PhyMem.receive_frame x.phy (x.phyMemIn e m).receive
  simp only [tick, PhyMem.tick]
  by_cases hs : x.phy.state = 101 ∨ x.phy.state = 201
  · rw [PhyMem.serve_start _ _ _ (by rw [h0]; exact hs)]
    rcases hs with hs | hs <;> simp [h0, h1, h2, hs]
  · rw [PhyMem.serve_count _ _ _ (by omega)]
    have hne : (x.phy.state != 101) = true ∧ (x.phy.state != 201) = true := by simp; omega
    simp only [h0, h1, h2, h3, h4, hne, Bool.and_true, and_self]

/-- The chips change only when a write strobe rises. -/
theorem cells_of_high (h : ∀ c, (x.ram.pins c).we = true) : (x.tick I e m).cells = x.cells := by
  funext c
  simp [tick, Ram.latch, h c]

theorem tick_reading (h : Reading b a k x) (hk : k < 7) :
    Reading b a (k + 1) (x.tick I e m) ∧ (x.tick I e m).cells = x.cells := by
  obtain ⟨hs, ha, -, h1, h2⟩ := phy_count I e m (x := x) (.inr (by rw [h.state]; omega))
  have hcells := cells_of_high I e m h.high
  obtain ⟨hstate, haddr, hram, hce1, hce2, hwe, hhigh, hf, hd, hdata⟩ := h
  refine ⟨⟨by rw [hs, hstate, Nat.add_assoc], ha.trans haddr, ?_, ?_, ?_, by simp, ?_, ?_, ?_, ?_⟩,
    hcells⟩
  · interval_cases k <;> simp only [readStage] at hram ⊢ <;>
      simp [tick, Ram.tick, hram, ramIn, hce1, hce2, hwe]
    cases b <;> simp
  · rw [h1, hce1, hstate]
    interval_cases k <;> simp
  · rw [h2, hce2, hstate]
    interval_cases k <;> simp
  · refine Ram.tick_high hhigh fun c hc => ?_
    rw [hram] at hc
    interval_cases k <;> simp [readStage] at hc
  · intro hk'
    interval_cases k <;> simp only [readStage] at hram <;> simp at hk' <;>
      simp_all [tick, Ram.tick, Ram.setPins]
  · intro hk'
    obtain rfl : k = 1 := by omega
    simp only [readStage] at hram
    simp_all [tick, Ram.tick, Ram.setPins, ramIn]
  · intro hk'
    rw [hcells]
    interval_cases k <;> simp only [readStage] at hram <;> simp at hk' <;>
      simp_all [tick, Ram.tick, Ram.bus]

theorem tick_writing (h : Writing b a v k x) (hk : k < 9) :
    Writing b a v (k + 1) (x.tick I e m) ∧ (x.tick I e m).cells =
      if k = 3 then Function.update x.cells b (Function.update (x.cells b) a v) else x.cells := by
  obtain ⟨hs, ha, hv, h1, h2⟩ := phy_count I e m (x := x) (.inl (by rw [h.state]; omega))
  obtain ⟨hstate, haddr, hword, hram, hce1, hce2, hwe, hhigh, hd⟩ := h
  refine ⟨⟨by rw [hs, hstate, Nat.add_assoc], ha.trans haddr, hv.trans hword, ?_, ?_, ?_, by simp,
    ?_, ?_⟩, ?_⟩
  · interval_cases k <;> simp only [writeStage] at hram ⊢ <;>
      simp [tick, Ram.tick, hram, ramIn, hce1, hce2, hwe]
    cases b <;> simp
  · rw [h1, hce1, hstate]
    interval_cases k <;> simp
  · rw [h2, hce2, hstate]
    interval_cases k <;> simp
  · intro c
    have hc := hhigh c
    by_cases hcb : c = b
    · subst hcb
      interval_cases k <;> simp only [writeStage] at hram <;>
        simp_all only [tick, Ram.tick, Ram.setPins, Function.update_self] <;> simp
    · interval_cases k <;> simp only [writeStage] at hram <;>
        simp_all [tick, Ram.tick, Ram.setPins]
  · intro hk'
    interval_cases k <;> simp only [writeStage] at hram <;> simp at hk' <;>
      simp_all [tick, Ram.tick, Ram.setPins, ramIn]
  · by_cases hk3 : k = 3
    · subst hk3
      simp only [writeStage] at hram
      obtain ⟨hce, hpa, hpd⟩ := hd (.inr rfl)
      have hwb : (x.ram.pins b).we = false := by simp [hhigh]
      funext c
      by_cases hcb : c = b
      · subst hcb
        simp [tick, Ram.latch, Ram.tick, hram, Ram.setPins, hwb, hce, hpa, Ram.bus, hpd]
      · have hwc : (x.ram.pins c).we = true := by simp [hhigh, hcb]
        simp [tick, Ram.latch, hwc, hcb]
    · rw [if_neg hk3]
      exact cells_of_high I e m fun c => by simp [hhigh, hk3]

/-- The last edge of a read delivers the word. -/
theorem tick_read_end (h : Reading b a 7 x) : RamIdle (x.tick I e m) ∧
    (x.tick I e m).phy.state = 0 ∧ (x.tick I e m).phy.dataOut = x.cells b a ∧
    (x.tick I e m).cells = x.cells := by
  obtain ⟨h0, -, -, h3, h4, -⟩ := PhyMem.receive_frame x.phy (x.phyMemIn e m).receive
  have hs : (x.phy.receive (x.phyMemIn e m).receive).state = 208 := h0.trans h.state
  have hce1 : x.phy.ramOpeCe1 = false := by simp [h.ce1]
  have hce2 : x.phy.ramOpeCe2 = false := by simp [h.ce2]
  have hram : x.ram.state = .idle := h.ram
  refine ⟨⟨?_, ?_, ?_, ?_, ?_⟩, ?_, ?_, cells_of_high I e m h.high⟩
  · simp [tick, PhyMem.tick, PhyMem.serve, hs]
  · simp [tick, Ram.tick, hram, ramIn, hce1, hce2]
  · simp [tick, PhyMem.tick, PhyMem.serve, hs, h3, hce1]
  · simp [tick, PhyMem.tick, PhyMem.serve, hs, h4, hce2]
  · exact Ram.tick_high h.high (by simp [hram])
  · simp [tick, PhyMem.tick, PhyMem.serve, hs]
  · simp only [tick, PhyMem.tick, PhyMem.serve, hs]
    exact h.data (by decide)

theorem tick_write_end (h : Writing b a v 9 x) : RamIdle (x.tick I e m) ∧
    (x.tick I e m).phy.state = 0 ∧ (x.tick I e m).cells = x.cells := by
  obtain ⟨h0, -, -, h3, h4, -⟩ := PhyMem.receive_frame x.phy (x.phyMemIn e m).receive
  have hs : (x.phy.receive (x.phyMemIn e m).receive).state = 110 := h0.trans h.state
  have hce1 : x.phy.ramOpeCe1 = false := by simp [h.ce1]
  have hce2 : x.phy.ramOpeCe2 = false := by simp [h.ce2]
  have hram : x.ram.state = .idle := h.ram
  have hhigh : ∀ c, (x.ram.pins c).we = true := fun c => by simp [h.high]
  refine ⟨⟨?_, ?_, ?_, ?_, ?_⟩, ?_, cells_of_high I e m hhigh⟩
  · simp [tick, PhyMem.tick, PhyMem.serve, hs]
  · simp [tick, Ram.tick, hram, ramIn, hce1, hce2]
  · simp [tick, PhyMem.tick, PhyMem.serve, hs, h3, hce1]
  · simp [tick, PhyMem.tick, PhyMem.serve, hs, h4, hce2]
  · exact Ram.tick_high hhigh (by simp [hram])
  · simp [tick, PhyMem.tick, PhyMem.serve, hs]

/-! ## Requests -/

/-- A request that makes the physical level busy. -/
def slow (m : Mmu) : Bool :=
  (m.toPhysicalReadEnable && (m.toPhysicalAddr.extractLsb 23 22 == 0b00#2 ||
      m.toPhysicalAddr.extractLsb 23 22 == 0b01#2)) ||
    (m.toPhysicalWriteEnable && (m.toPhysicalAddr.extractLsb 23 22 == 0b01#2 ||
      (m.toPhysicalAddr.extractLsb 23 22 == 0b10#2 && !m.toPhysicalReadEnable)))

/-- A request for the RAM. -/
def ramAddr (m : Mmu) : Prop := m.toPhysicalAddr.extractLsb 23 22 = 0b01#2

/-- An idle edge of `ram`. -/
theorem ram_idle_tick (h : RamIdle x) : (x.tick I e m).ram.state = .idle ∧
    (∀ c, ((x.tick I e m).ram.pins c).we = true) ∧ (x.tick I e m).cells = x.cells := by
  refine ⟨?_, Ram.tick_high h.high fun c hc => ?_, cells_of_high I e m h.high⟩
  · rcases h.ram with hr | hr <;> simp [tick, Ram.tick, hr, ramIn, h.ce1, h.ce2]
  · rcases h.ram with hr | hr <;> simp [hr] at hc

theorem tick_accept (hs : x.phy.state = 0) : (x.tick I e m).phy =
    let p := (x.phy.receive e.receive).accept I.rom (x.phyMemIn e m) x.phy.serialportDataLatch
    { p with busy := p.state != 0 } := by
  obtain ⟨h0, -⟩ := PhyMem.receive_frame x.phy e.receive
  have hr : (x.phyMemIn e m).receive = e.receive := rfl
  simp only [tick, PhyMem.tick, PhyMem.serve, hr, h0.trans hs]

theorem tick_write (h : RamIdle x) (hs : x.phy.state = 0) (hw : m.toPhysicalWriteEnable = true) (ha : ramAddr m) :
    Writing (m.toPhysicalAddr.getLsbD 20) (m.toPhysicalAddr.extractLsb 19 0) m.toPhysicalData 0
      (x.tick I e m) := by
  obtain ⟨hidle, hhigh, -⟩ := ram_idle_tick I e m h
  have hphy := tick_accept I e m hs
  unfold ramAddr at ha
  simp only [PhyMem.accept, phyMemIn, ha, hw] at hphy
  simp at hphy
  exact ⟨by rw [hphy], by rw [hphy], by rw [hphy], hidle, by rw [hphy]; rfl, by rw [hphy]; rfl,
    fun _ => by rw [hphy], by simp [hhigh], by simp⟩

theorem tick_read (h : RamIdle x) (hs : x.phy.state = 0) (hr : m.toPhysicalReadEnable = true) (hw : m.toPhysicalWriteEnable = false)
    (ha : ramAddr m) :
    Reading (m.toPhysicalAddr.getLsbD 20) (m.toPhysicalAddr.extractLsb 19 0) 0 (x.tick I e m) := by
  obtain ⟨hidle, hhigh, -⟩ := ram_idle_tick I e m h
  have hphy := tick_accept I e m hs
  unfold ramAddr at ha
  simp only [PhyMem.accept, phyMemIn, ha, hw, hr] at hphy
  simp at hphy
  exact ⟨by rw [hphy], by rw [hphy], hidle, by rw [hphy]; rfl, by rw [hphy]; rfl,
    fun _ => by rw [hphy], hhigh, by simp, by simp, by simp⟩

/-- A request for another device, or none, leaves the RAM alone. -/
theorem tick_other (h : RamIdle x) (hs : x.phy.state = 0) (ha : m.toPhysicalReadEnable = true ∨ m.toPhysicalWriteEnable = true →
    ¬ramAddr m) : RamIdle (x.tick I e m) := by
  obtain ⟨hidle, hhigh, -⟩ := ram_idle_tick I e m h
  obtain ⟨h0, -, -, h3, h4, -⟩ := PhyMem.receive_frame x.phy e.receive
  obtain ⟨hst, hc1, hc2⟩ := PhyMem.accept_other I.rom (x.phyMemIn e m) x.phy.serialportDataLatch
    (h0.trans hs) ha
  have hphy := tick_accept I e m hs
  refine ⟨?_, .inl hidle, ?_, ?_, hhigh⟩ <;> rw [hphy]
  · simp only [List.mem_cons, List.not_mem_nil, or_false] at hst
    simp only []
    omega
  · exact (hc1.trans h3).trans h.ce1
  · exact (hc2.trans h4).trans h.ce2

theorem tick_state (hs : x.phy.state = 0) : (x.tick I e m).phy.state = 0 ↔ slow m = false := by
  obtain ⟨h0, -⟩ := PhyMem.receive_frame x.phy e.receive
  rw [tick_accept I e m hs, PhyMem.accept_state _ _ _ (h0.trans hs)]
  simp only [phyMemIn, slow]
  cases m.toPhysicalReadEnable <;> cases m.toPhysicalWriteEnable <;> simp

end Tick

end Physical

end CacheCPU
