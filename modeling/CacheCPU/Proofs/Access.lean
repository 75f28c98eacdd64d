import CacheCPU.Proofs.Entry
import CacheCPU.Proofs.Isa
import CacheCPU.Proofs.Stage

/-!
# A load or store of the RAM

The points that a load or store passes through after its `Mem1` edge. A read takes the physical
level three cycles and a write four, whatever comes from outside: at the end of the first the
request has been accepted, and then four fast edges go by in each cycle.
-/

namespace CacheCPU

/-! ## The address -/

/-- The address that the load or store `w` accesses. -/
def effective (regs : BitVec 5 → BitVec 32) (w : BitVec 32) : BitVec 32 :=
  regs (rsOf w) + (w.extractLsb 15 0).signExtend 32

theorem executedAlu_mem (s : Cpu) {w : BitVec 32} (h : isMem (first w) = true) :
    (s.executedAlu w).result = effective s.archRegs w := by
  have hop : (aluOps (first w) (last w)).1 = 0b000100000#9 ∧
      imme w = (w.extractLsb 15 0).signExtend 32 := by
    unfold imme
    simp only [isMem, Bool.or_eq_true, beq_iff_eq] at h
    generalize first w = f at h
    rcases h with ((((rfl | rfl) | rfl) | rfl) | rfl) | rfl <;> exact ⟨rfl, rfl⟩
  rw [Cpu.executedAlu, hop.1, hop.2]
  rfl

/-- An address in kseg0 or kseg1 whose physical address is below 8 MB, aligned as the opcode
asks. -/
structure InRam (f : BitVec 6) (v : BitVec 32) : Prop where
  segment : notUseMmu v = true
  below : (v.extractLsb 28 0).toNat < 0x800000
  quad : f = F.lw ∨ f = F.sw → v.extractLsb 1 0 = 0#2
  word : f = F.lhu → v.getLsbD 0 = false

/-- The SRAM chip of an address and the word in it. -/
def bank (v : BitVec 32) : Bool := v.getLsbD 22

def cell (v : BitVec 32) : BitVec 20 := v.extractLsb 21 2

namespace InRam

variable {f : BitVec 6} {v : BitVec 32}

theorem ne_status (h : InRam f v) : v ≠ virtualSerialStatus := by
  rintro rfl
  exact absurd h.below (by decide)

theorem aligned (h : InRam f v) (hf : isMem f = true) : misaligned (alignType f) v = false := by
  simp only [isMem, Bool.or_eq_true, beq_iff_eq] at hf
  have hq : v.extractLsb 1 0 = 0#2 → misaligned alignTypeQuad v = false := by
    intro hv
    simp [misaligned, hv, alignTypeQuad, alignTypeWord]
  rcases hf with ((((rfl | rfl) | rfl) | rfl) | rfl) | rfl
  · exact hq (h.quad (.inl rfl))
  · rfl
  · rfl
  · have := h.word rfl
    simp only [misaligned, this, Bool.and_false, Bool.false_or]
    rfl
  · exact hq (h.quad (.inr rfl))
  · rfl

/-- The device address of a word of the RAM. -/
theorem toPhysicalAddr (h : InRam f v) (t : Tlb) :
    toPhysicalAddrReg (physicalAddr t v) = 0b010#3 ++ v.extractLsb 22 2 := by
  have hpa : physicalAddr t v = (v.extractLsb 28 0).zeroExtend 32 := by
    simp [physicalAddr, h.segment]
  have hlt := h.below
  generalize hp : (v.extractLsb 28 0).zeroExtend 32 = pa at hpa
  have hlt' : pa.toNat < 0x800000 := by
    rw [← hp]
    simp only [BitVec.truncate_eq_setWidth, BitVec.toNat_setWidth]
    omega
  have h24 : pa.extractLsb 31 24 ≠ 0x1e#8 := by
    rw [Ne, ← BitVec.toNat_inj]
    simp only [BitVec.extractLsb_toNat, Nat.shiftRight_eq_div_pow, BitVec.toNat_ofNat]
    omega
  have h23 : pa.extractLsb 31 23 = 0#9 := by
    rw [← BitVec.toNat_inj]
    simp only [BitVec.extractLsb_toNat, Nat.shiftRight_eq_div_pow, BitVec.toNat_ofNat]
    omega
  rw [hpa, toPhysicalAddrReg, if_neg h24, if_pos h23, ← hp]
  ext i hi
  grind

/-- What `phy_mem` takes from that address. -/
theorem fields {d : BitVec 24} (hd : d = 0b010#3 ++ v.extractLsb 22 2) :
    d.extractLsb 23 22 = 0b01#2 ∧ d.getLsbD 20 = bank v ∧ d.extractLsb 19 0 = cell v := by
  subst hd
  have hhigh : ∀ (c : BitVec 3) (y : BitVec 21),
      (c ++ y).extractLsb 23 22 = c.extractLsb 2 1 := by
    intro c y
    ext i hi
    grind
  refine ⟨hhigh _ _, ?_, ?_⟩
  · rw [bank]
    grind
  · rw [cell]
    ext i hi
    grind

end InRam

/-! ## The physical level in a cycle -/

namespace Physical

variable {I : Image} {e₀ e₁ e₂ e₃ : Ext} {m₀ m₁ m₂ m₃ : Mmu} {x : Physical} {b : Bool}
  {a : BitVec 20} {v : BitVec 32}

/-- The physical level after the four fast edges of a cycle. -/
abbrev ticks (I : Image) (e₀ e₁ e₂ e₃ : Ext) (m₀ m₁ m₂ m₃ : Mmu) (x : Physical) : Physical :=
  (((x.tick I e₀ m₀).tick I e₁ m₁).tick I e₂ m₂).tick I e₃ m₃

theorem ticks_reading (h : Reading b a 0 x) :
    Reading b a 4 (ticks I e₀ e₁ e₂ e₃ m₀ m₁ m₂ m₃ x) ∧
      (ticks I e₀ e₁ e₂ e₃ m₀ m₁ m₂ m₃ x).cells = x.cells := by
  obtain ⟨h1, hc1⟩ := tick_reading I e₀ m₀ h (by decide)
  obtain ⟨h2, hc2⟩ := tick_reading I e₁ m₁ h1 (by decide)
  obtain ⟨h3, hc3⟩ := tick_reading I e₂ m₂ h2 (by decide)
  obtain ⟨h4, hc4⟩ := tick_reading I e₃ m₃ h3 (by decide)
  exact ⟨h4, ((hc4.trans hc3).trans hc2).trans hc1⟩

theorem ticks_read (h : Reading b a 4 x) :
    (ticks I e₀ e₁ e₂ e₃ m₀ m₁ m₂ m₃ x).phy.state = 0 ∧
      (ticks I e₀ e₁ e₂ e₃ m₀ m₁ m₂ m₃ x).phy.dataOut = x.cells b a ∧
      (ticks I e₀ e₁ e₂ e₃ m₀ m₁ m₂ m₃ x).cells = x.cells := by
  obtain ⟨h1, hc1⟩ := tick_reading I e₀ m₀ h (by decide)
  obtain ⟨h2, hc2⟩ := tick_reading I e₁ m₁ h1 (by decide)
  obtain ⟨h3, hc3⟩ := tick_reading I e₂ m₂ h2 (by decide)
  obtain ⟨-, hs, hd, hc4⟩ := tick_read_end I e₃ m₃ h3
  have hc := (hc3.trans hc2).trans hc1
  exact ⟨hs, by rw [hd, hc], hc4.trans hc⟩

/-- The word is written at the last of these edges. -/
theorem ticks_writing (h : Writing b a v 0 x) :
    Writing b a v 4 (ticks I e₀ e₁ e₂ e₃ m₀ m₁ m₂ m₃ x) ∧
      (ticks I e₀ e₁ e₂ e₃ m₀ m₁ m₂ m₃ x).cells =
        Function.update x.cells b (Function.update (x.cells b) a v) := by
  obtain ⟨h1, hc1⟩ := tick_writing I e₀ m₀ h (by decide)
  obtain ⟨h2, hc2⟩ := tick_writing I e₁ m₁ h1 (by decide)
  obtain ⟨h3, hc3⟩ := tick_writing I e₂ m₂ h2 (by decide)
  obtain ⟨h4, hc4⟩ := tick_writing I e₃ m₃ h3 (by decide)
  have hc : (((x.tick I e₀ m₀).tick I e₁ m₁).tick I e₂ m₂).cells = x.cells :=
    (hc3.trans hc2).trans hc1
  exact ⟨h4, by rw [hc4, if_pos rfl, hc]⟩

theorem ticks_written (h : Writing b a v 4 x) :
    Writing b a v 8 (ticks I e₀ e₁ e₂ e₃ m₀ m₁ m₂ m₃ x) ∧
      (ticks I e₀ e₁ e₂ e₃ m₀ m₁ m₂ m₃ x).cells = x.cells := by
  obtain ⟨h1, hc1⟩ := tick_writing I e₀ m₀ h (by decide)
  obtain ⟨h2, hc2⟩ := tick_writing I e₁ m₁ h1 (by decide)
  obtain ⟨h3, hc3⟩ := tick_writing I e₂ m₂ h2 (by decide)
  obtain ⟨h4, hc4⟩ := tick_writing I e₃ m₃ h3 (by decide)
  exact ⟨h4, ((hc4.trans hc3).trans hc2).trans hc1⟩

/-- An edge without a request. -/
theorem tick_quiet {e : Ext} {m : Mmu} (hs : x.phy.state = 0)
    (hr : m.toPhysicalReadEnable = false) (hw : m.toPhysicalWriteEnable = false) :
    (x.tick I e m).phy.state = 0 ∧ (x.tick I e m).phy.dataOut = x.phy.dataOut := by
  have hslow : slow m = false := by simp [slow, hr, hw]
  have hdata := (PhyMem.receive_frame x.phy e.receive).2.2.2.2.2
  refine ⟨(tick_state I e m hs).2 hslow, ?_⟩
  rw [tick_accept I e m hs]
  simp only [PhyMem.accept, phyMemIn, hr, hw]
  simpa using hdata

theorem tick_idle {e : Ext} {m : Mmu} (h : RamIdle x) (hs : x.phy.state = 0)
    (hr : m.toPhysicalReadEnable = false) (hw : m.toPhysicalWriteEnable = false) :
    RamIdle (x.tick I e m) ∧ (x.tick I e m).phy.state = 0 ∧
      (x.tick I e m).phy.dataOut = x.phy.dataOut ∧ (x.tick I e m).cells = x.cells := by
  obtain ⟨hstate, hdata⟩ := tick_quiet (I := I) (e := e) hs hr hw
  refine ⟨tick_other I e m h hs fun hor => ?_, hstate, hdata, (ram_idle_tick I e m h).2.2⟩
  rcases hor with hor | hor
  · simp [hr] at hor
  · simp [hw] at hor

variable (I e₀ e₁ e₂ e₃ m₀ m₁ m₂) in
theorem ticks_wrote (h : Writing b a v 8 x)
    (hr₂ : m₂.toPhysicalReadEnable = false) (hw₂ : m₂.toPhysicalWriteEnable = false)
    (hr₃ : m₃.toPhysicalReadEnable = false) (hw₃ : m₃.toPhysicalWriteEnable = false) :
    (ticks I e₀ e₁ e₂ e₃ m₀ m₁ m₂ m₃ x).phy.state = 0 ∧
      (ticks I e₀ e₁ e₂ e₃ m₀ m₁ m₂ m₃ x).cells = x.cells := by
  obtain ⟨h1, hc1⟩ := tick_writing I e₀ m₀ h (by decide)
  obtain ⟨h2, hs2, hc2⟩ := tick_write_end I e₁ m₁ h1
  obtain ⟨h3, hs3, -, hc3⟩ := tick_idle (I := I) (e := e₂) h2 hs2 hr₂ hw₂
  obtain ⟨-, hs4, -, hc4⟩ := tick_idle (I := I) (e := e₃) h3 hs3 hr₃ hw₃
  exact ⟨hs4, ((hc4.trans hc3).trans hc2).trans hc1⟩

end Physical

theorem Board.writtenRegs_store (s : Cpu) {w data : BitVec 32}
    (h : (first w == F.sw || first w == F.sb) = true) : s.writtenRegs w data = s.archRegs := by
  refine Cpu.writtenRegs_disable ?_
  simp only [Bool.or_eq_true, beq_iff_eq] at h
  rcases h with h | h <;> rw [h] <;> rfl

/-! ## The points of an access -/

namespace Board

open Physical

variable {I : Image} {b c : Board}

inductive Point
  | reading0 | reading4 | read | writing0 | writing4 | writing8 | wrote | done
deriving DecidableEq

/-- The point one cycle later. -/
def Point.next (sb : Bool) : Point → Point
  | .reading0 => .reading4
  | .reading4 => .read
  | .read => if sb then .writing0 else .done
  | .writing0 => .writing4
  | .writing4 => .writing8
  | .writing8 => .wrote
  | .wrote => .done
  | .done => .done

/-- The word that the store `w` puts into its cell. -/
def stored (b : Board) (w : BitVec 32) : BitVec 32 :=
  let v := effective b.cpu.archRegs w
  memWriteValue (memOp (first w)) v (b.phys.cells (bank v) (cell v)) (b.cpu.rtVal w)

/-- The chips after the store. -/
def storedCells (b : Board) (w : BitVec 32) : Cells :=
  let v := effective b.cpu.archRegs w
  Function.update b.phys.cells (bank v)
    (Function.update (b.phys.cells (bank v)) (cell v) (b.stored w))

def isStore (f : BitVec 6) : Bool := f == F.sw || f == F.sb

/-- The physical level has answered, and the stage raises nothing. -/
structure Answered (c : Board) : Prop where
  state : c.phys.phy.state = 0
  requests : c.cpu.requests = false
  excCode : c.cpu.mmu.excCode = 0#3

/-- What holds at each point of the access `w` of the instruction fetched at the edge of `b`. -/
def At (b c : Board) (w : BitVec 32) (p : Point) : Prop :=
  let v := effective b.cpu.archRegs w
  let old := b.phys.cells
  let last : Status := if first w = F.sb then .mem2 else .mem1
  match p with
  | .reading0 => c.cpu.oldState = .mem1 ∧ first w ≠ F.sw ∧
      Reading (bank v) (cell v) 0 c.phys ∧ c.phys.cells = old
  | .reading4 => c.cpu.oldState = .mem1 ∧ first w ≠ F.sw ∧
      Reading (bank v) (cell v) 4 c.phys ∧ c.phys.cells = old
  | .read => c.cpu.oldState = .mem1 ∧ first w ≠ F.sw ∧ Answered c ∧
      c.phys.phy.dataOut = old (bank v) (cell v) ∧ c.phys.cells = old
  | .writing0 => c.cpu.oldState = last ∧ isStore (first w) = true ∧
      Writing (bank v) (cell v) (b.stored w) 0 c.phys ∧ c.phys.cells = old
  | .writing4 => c.cpu.oldState = last ∧ isStore (first w) = true ∧
      Writing (bank v) (cell v) (b.stored w) 4 c.phys ∧ c.phys.cells = b.storedCells w
  | .writing8 => c.cpu.oldState = last ∧ isStore (first w) = true ∧
      Writing (bank v) (cell v) (b.stored w) 8 c.phys ∧ c.cpu.requests = false ∧
      c.phys.cells = b.storedCells w
  | .wrote => c.cpu.oldState = last ∧ isStore (first w) = true ∧ Answered c ∧
      c.phys.cells = b.storedCells w
  | .done => c.cpu.oldState = .writeB ∧
      c.phys.cells = (if isStore (first w) then b.storedCells w else old) ∧
      c.cpu.archRegs = b.cpu.writtenRegs w (old (bank v) (cell v))

/-- The load or store `w` of the RAM, fetched at the edge of `b`, is in flight in `c`. -/
structure Accessing (I : Image) (b c : Board) (w : BitVec 32) : Prop where
  reachable : Reachable I b
  inInstr : InInstr I b c
  word : c.machine.word = w
  mem : isMem (first w) = true
  inRam : InRam (first w) (effective b.cpu.archRegs w)

namespace Accessing

variable {w : BitVec 32}

theorem next (h : Accessing I b c w) (x : Exts) (hx : c.machine.state ≠ .exc)
    (hw : c.cpu.oldState ≠ .writeB) (hd : c.machine.state ≠ .insD) :
    Accessing I b (c.cycle I x) w :=
  ⟨h.reachable, .next x h.inInstr hx hw,
    (Machine.insReg_cycle (a := c.machine) (b := (c.cycle I x).machine) rfl hd).trans h.word,
    h.mem, h.inRam⟩

/-- A cycle in which the physical level is busy. -/
theorem stall (h : Accessing I b c w) (hs : c.phys.phy.state ≠ 0) (x : Exts) :
    Accessing I b (c.cycle I x) w ∧ (c.cycle I x).cpu.oldState = c.cpu.oldState ∧
      (c.cycle I x).cpu.requests = false ∧ (c.cycle I x).cpu.mmu.excCode = 0#3 := by
  obtain ⟨hinv, hr⟩ := (h.inInstr.reachable h.reachable).inv
  have hc := hr.control
  have hb : c.machine.phy.ready = false := Bool.eq_false_iff.2 (mt hinv.ready_iff.1 hs)
  obtain ⟨hst, hmem⟩ := hc.state_busy hb
  have hold : c.machine.state = c.cpu.oldState := hst
  refine ⟨h.next x ?_ ?_ ?_, hold, Machine.requests_stall hc hb _, ?_⟩
  · intro hn
    simp [hn, Mmu.isInsFOrMem] at hmem
  · intro hn
    simp [hold, hn, Mmu.isInsFOrMem] at hmem
  · intro hn
    simp [hn, Mmu.isInsFOrMem] at hmem
  · exact Machine.excCode_cycle hc (Machine.excCounter_stall hc hb _)

/-- The stage after one that has been answered. -/
theorem answered (h : Accessing I b c w) (ha : Answered c)
    (ho : c.cpu.oldState = .mem1 ∨ c.cpu.oldState = .mem2) :
    c.machine.phy.ready = true ∧ c.machine.state =
      if c.cpu.oldState = .mem1 ∧ first w = F.sb then .mem2 else .writeB := by
  obtain ⟨hinv, hr⟩ := (h.inInstr.reachable h.reachable).inv
  have hc := hr.control
  have hready : c.machine.phy.ready = true := hinv.ready_iff.2 ha.state
  have hfl : inFlight c.machine.cpu.oldState = true := by
    rcases ho with ho | ho <;> (rw [show c.machine.cpu.oldState = _ from ho]; rfl)
  have hmem2 : c.cpu.hasMem2 = (first w == F.sb) := by
    rw [← h.word]
    exact (hc.latched hfl).2.2
  refine ⟨hready, ?_⟩
  rcases hc.state_cases with ⟨hb, -⟩ | ⟨-, -, hx⟩ | ⟨-, -, hs⟩ | ⟨-, hf, -⟩
  · simp [hready] at hb
  · rcases hc.exc_cases hx with ⟨-, hne, -⟩ | ⟨hd, -⟩ | ⟨hw, -⟩
    · exact absurd ha.excCode hne
    · have hd' : c.cpu.oldState = .insD := hd
      rcases ho with ho | ho <;> simp [ho] at hd'
    · have hw' : c.cpu.oldState = .writeB := hw
      rcases ho with ho | ho <;> simp [ho] at hw'
  · have hs' : c.machine.state = c.cpu.succ c.cpu.oldState := hs
    rw [hs']
    rcases ho with ho | ho
    · by_cases hsb : first w = F.sb <;> simp [ho, Cpu.succ, hmem2, hsb]
    · simp [ho, Cpu.succ]
  · rw [hf] at hfl
    simp [inFlight] at hfl

/-- What the stages before have computed. -/
theorem results (h : Accessing I b c w)
    (ho : c.cpu.oldState = .exe ∨ c.cpu.oldState = .mem1 ∨ c.cpu.oldState = .mem2) :
    Machine.Issued b.cpu c.cpu ∧ Machine.Operands b.cpu c.cpu ∧ Machine.AfterExe b.cpu c.cpu ∧
      c.cpu.id.Latched ∧ c.cpu.alu.result = effective b.cpu.archRegs w := by
  have hflight : Machine.Flight b.cpu c.cpu :=
    (h.inInstr.machine h.reachable).flight h.reachable.inv.2
  have hc := (h.inInstr.reachable h.reachable).inv.2.control
  have hl : c.cpu.id.Latched := by
    refine (hc.latched ?_).1
    rcases ho with ho | ho | ho <;> (rw [show c.machine.cpu.oldState = _ from ho]; rfl)
  have halu (ha : Machine.AfterExe b.cpu c.cpu) :
      c.cpu.alu.result = effective b.cpu.archRegs w := by
    rw [ha.alu, show c.cpu.id.insReg = w from h.word]
    exact executedAlu_mem _ h.mem
  rcases ho with ho | ho | ho <;> simp only [Machine.Flight, ho] at hflight
  · obtain ⟨hi, hop, ha⟩ := hflight
    exact ⟨hi, hop, ha, hl, halu ha⟩
  all_goals
    obtain ⟨hi, hop, ha, -⟩ := hflight
    exact ⟨hi, hop, ha, hl, halu ha⟩

/-- The request of a memory stage, and the physical level when it arrives. -/
theorem enter (h : Accessing I b c w) (hr : c.machine.phy.ready = true)
    (ho : (c.cpu.oldState = .exe ∧ c.machine.state = .mem1) ∨
      (c.cpu.oldState = .mem1 ∧ c.machine.state = .mem2))
    (hq : c.cpu.requests = false) (x : Exts) :
    (c.cycle I x).cpu.mmu.toPhysicalReadEnable = c.machine.reads ∧
    (c.cycle I x).cpu.mmu.toPhysicalWriteEnable = c.machine.writes ∧
    (c.cycle I x).cpu.mmu.toPhysicalAddr =
      0b010#3 ++ (effective b.cpu.archRegs w).extractLsb 22 2 ∧
    (c.cycle I x).cpu.mmu.toPhysicalData = memWriteValue (memOp (first w))
      (effective b.cpu.archRegs w) c.phys.phy.dataOut (b.cpu.rtVal w) ∧
    ∃ y, (c.cycle I x).phys = y.tick I x.e3 (c.cycle I x).cpu.mmu ∧ RamIdle y ∧
      y.phy.state = 0 ∧ y.cells = c.phys.cells := by
  obtain ⟨hinv, hrm⟩ := (h.inInstr.reachable h.reachable).inv
  obtain ⟨hi, hop, ha, hl, halu⟩ := h.results (by tauto)
  have hw : c.cpu.id.insReg = w := h.word
  have hst : c.machine.state = .mem1 ∨ c.machine.state = .mem2 := by tauto
  have hacc : c.machine.Accesses := ⟨hr, by rcases hst with hst | hst <;> rw [hst] <;> rfl⟩
  have haddr : c.machine.access = effective b.cpu.archRegs w := by
    rw [Machine.access, if_neg (by rcases hst with hst | hst <;> simp [hst])]
    exact halu
  have hpass : c.machine.passes = true := by
    have hal : c.machine.cpu.id.alignType = alignType (first w) := by
      rw [← hw]
      exact hl.alignType
    have hseg := h.inRam.segment
    simp [Machine.passes, haddr, hal, h.inRam.aligned h.mem, tlbMissing, tlbWritable, hseg]
  have hne : (c.machine.access == virtualSerialStatus) = false := by
    simpa [haddr] using h.inRam.ne_status
  -- nothing is asked of the physical level before the falling edge
  have hidle := hinv.phase.ramIdle (hinv.ready_iff.1 hr)
  obtain ⟨hqr, hqw⟩ : c.cpu.mmu.toPhysicalReadEnable = false ∧
      c.cpu.mmu.toPhysicalWriteEnable = false := by
    simpa [Cpu.requests] using hq
  obtain ⟨h1, hs1, hd1, hc1⟩ := tick_idle (I := I) (e := x.e0) (m := c.cpu.mmu) hidle
    (hinv.ready_iff.1 hr) hqr hqw
  obtain ⟨h2, hs2, hd2, hc2⟩ := tick_idle (I := I) (e := x.e1)
    (m := (c.cpu.rise c.phys.out).mmu) h1 hs1 hqr hqw
  obtain ⟨h3, hs3, -, hc3⟩ := tick_idle (I := I) (e := x.e2)
    (m := (c.cpu.rise c.phys.out).mmu) h2 hs2 hqr hqw
  have hready : (c.phys2 I x).out.ready = true := by
    have hbusy : (c.phys2 I x).phy.busy = ((c.phys2 I x).phy.state != 0) := rfl
    simp [out, hbusy, show (c.phys2 I x).phy.state = 0 from hs2]
  obtain ⟨hen, hwr, hto⟩ := Machine.enables_enter (a := (c.cycle I x).machine) hrm.control hacc rfl
    hready
  rw [hne, hpass] at hen hwr
  rw [haddr, h.inRam.toPhysicalAddr] at hto
  refine ⟨hen, hwr, hto, ?_, _, rfl, h3, hs3, (hc3.trans hc2).trans hc1⟩
  -- `mem` sees the word that the physical level still drives
  have hs : c.cpu.state c.phys.out = c.machine.state := rfl
  have hdata : (c.cpu.rise c.phys.out).dataFromMmu (c.phys2 I x).out = c.phys.phy.dataOut := by
    have hka : (c.cpu.rise c.phys.out).mmu.addr = c.machine.access :=
      (Machine.checks_enter hacc).addr
    rw [Cpu.dataFromMmu, Mmu.dataOut, Mmu.specialCom1Status, hka, hne]
    exact hd2.trans hd1
  have hop' : (c.cpu.rise c.phys.out).id.memOp = memOp (first w) := by
    rw [← hw, ← hl.memOp]
    rcases hst with hst | hst <;> simp [Cpu.rise, hs, hst, IDecode.rise]
  have hres : (c.cpu.rise c.phys.out).alu.result = effective b.cpu.archRegs w := by
    rw [← halu]
    rcases hst with hst | hst <;> simp [Cpu.rise, hs, hst, Alu.rise]
  have hrt : (c.cpu.rise c.phys.out).gpr.rtValue = b.cpu.rtVal w := by
    rw [← hw, ← hop.rt]
    rcases hst with hst | hst <;> simp [Cpu.rise, hs, hst, GeneralRegister.rise]
  change (c.cpu.rise c.phys.out).writeValueFromMem (c.phys2 I x).out = _
  rw [Cpu.writeValueFromMem, hop', hres, hdata, hrt]

/-- The read of `Mem1` has been accepted. -/
theorem enter_read (h : Accessing I b c w) (hr : c.machine.phy.ready = true)
    (ho : c.cpu.oldState = .exe) (hs : c.machine.state = .mem1) (hf : first w ≠ F.sw)
    (hq : c.cpu.requests = false) (hc : c.phys.cells = b.phys.cells) (x : Exts) :
    Accessing I b (c.cycle I x) w ∧ At b (c.cycle I x) w .reading0 := by
  obtain ⟨hen, hwr, hto, -, y, hy, hidle, hsy, hcy⟩ := h.enter hr (.inl ⟨ho, hs⟩) hq x
  obtain ⟨-, -, -, hl, -⟩ := h.results (.inl ho)
  have hread : c.machine.reads = true := by
    have hop : c.machine.cpu.id.memOp = memOp (first w) := by
      rw [← h.word]
      exact hl.memOp
    have hbit : (memOp (first w)).getLsbD 2 = true := by
      have hm := h.mem
      simp only [isMem, Bool.or_eq_true, beq_iff_eq, hf, or_false] at hm
      rcases hm with ((((hm | hm) | hm) | hm)) | hm <;> rw [hm] <;> rfl
    rw [Machine.reads, hs, hop, hbit]
    rfl
  rw [hread] at hen
  rw [Machine.writes_of_reads hread] at hwr
  obtain ⟨hdev, hbank, hcell⟩ := InRam.fields hto
  refine ⟨h.next x (by simp [hs]) (by simp [ho]) (by simp [hs]), hs, hf, ?_, ?_⟩
  · rw [hy, ← hbank, ← hcell]
    exact tick_read I x.e3 _ hidle hsy hen hwr hdev
  · rw [hy, (ram_idle_tick I x.e3 _ hidle).2.2, hcy, hc]

/-- The write of `Mem1` or `Mem2` has been accepted. -/
theorem enter_write (h : Accessing I b c w) (hr : c.machine.phy.ready = true)
    (ho : (c.cpu.oldState = .exe ∧ c.machine.state = .mem1 ∧ first w = F.sw) ∨
      (c.cpu.oldState = .mem1 ∧ c.machine.state = .mem2 ∧ first w = F.sb ∧
        c.phys.phy.dataOut = b.phys.cells (bank (effective b.cpu.archRegs w))
          (cell (effective b.cpu.archRegs w))))
    (hq : c.cpu.requests = false) (hc : c.phys.cells = b.phys.cells) (x : Exts) :
    Accessing I b (c.cycle I x) w ∧ At b (c.cycle I x) w .writing0 := by
  obtain ⟨-, hwr, hto, hdata, y, hy, hidle, hsy, hcy⟩ := h.enter hr (by tauto) hq x
  obtain ⟨-, -, -, hl, -⟩ := h.results (by tauto)
  have hop : c.machine.cpu.id.memOp = memOp (first w) := by
    rw [← h.word]
    exact hl.memOp
  have hwrite : c.machine.writes = true := by
    rcases ho with ⟨-, hs, hf⟩ | ⟨-, hs, -⟩
    · rw [Machine.writes, hs, hop, hf]
      rfl
    · simp [Machine.writes, hs]
  -- `SW` sends the register whatever the physical level drives
  have hstored : (c.cycle I x).cpu.mmu.toPhysicalData = b.stored w := by
    rw [hdata]
    rcases ho with ⟨-, -, hf⟩ | ⟨-, -, -, hd⟩
    · have hbit : (memOp (first w)).getLsbD 0 = false := by rw [hf]; rfl
      simp only [stored, memWriteValue, hbit, Bool.false_eq_true, if_false]
    · rw [hd]
      rfl
  rw [hwrite] at hwr
  obtain ⟨hdev, hbank, hcell⟩ := InRam.fields hto
  have hst : c.machine.state = if first w = F.sb then .mem2 else .mem1 := by
    rcases ho with ⟨-, hs, hf⟩ | ⟨-, hs, hf, -⟩
    · rw [hs, if_neg (by rw [hf]; decide)]
    · rw [hs, if_pos hf]
  refine ⟨h.next x ?_ ?_ ?_, hst, ?_, ?_, ?_⟩
  · rw [hst]
    split_ifs <;> decide
  · rcases ho with ⟨ho, -⟩ | ⟨ho, -⟩ <;> simp [ho]
  · rw [hst]
    split_ifs <;> decide
  · rcases ho with ⟨-, -, hf⟩ | ⟨-, -, hf, -⟩ <;> rw [hf] <;> rfl
  · rw [hy, ← hbank, ← hcell, ← hstored]
    exact tick_write I x.e3 _ hidle hsy hwr hdev
  · rw [hy, (ram_idle_tick I x.e3 _ hidle).2.2, hcy, hc]

/-- `WriteB` ends the access. -/
theorem finish (h : Accessing I b c w) (ha : Answered c)
    (ho : c.cpu.oldState = .mem1 ∨ c.cpu.oldState = .mem2) (hs : c.machine.state = .writeB)
    (x : Exts) : Accessing I b (c.cycle I x) w ∧ (c.cycle I x).cpu.oldState = .writeB ∧
      (c.cycle I x).phys.cells = c.phys.cells ∧
      (c.cycle I x).cpu.archRegs = b.cpu.writtenRegs w c.phys.phy.dataOut := by
  obtain ⟨hinv, hrm⟩ := (h.inInstr.reachable h.reachable).inv
  obtain ⟨hi, hop, hafter, hl, halu⟩ := h.results (.inr ho)
  have hword : (c.cycle I x).cpu.id.insReg = w :=
    (h.next x (by simp [hs]) (by rcases ho with ho | ho <;> simp [ho]) (by simp [hs])).word
  have haddr : c.cpu.mmu.addr = effective b.cpu.archRegs w := by
    have hflight : Machine.Flight b.cpu c.cpu :=
      (h.inInstr.machine h.reachable).flight h.reachable.inv.2
    rw [← halu]
    rcases ho with ho | ho <;> simp only [Machine.Flight, ho] at hflight
    · exact hflight.2.2.2
    · exact hflight.2.2.2
  have hdata : c.cpu.dataFromMmu c.phys.out = c.phys.phy.dataOut := by
    have hne : (c.cpu.mmu.addr == virtualSerialStatus) = false := by
      simpa [haddr] using h.inRam.ne_status
    rw [Cpu.dataFromMmu, Mmu.dataOut, Mmu.specialCom1Status, hne]
    rfl
  have hwritten : Machine.Written b.cpu (c.cycle I x).cpu (c.cpu.dataFromMmu c.phys.out) :=
    Machine.written_writeB (a := c.machine) (b := (c.cycle I x).machine) hl hi hop hafter hs rfl
  have hno : (c.cycle I x).cpu.requests = false := by
    by_contra hn
    have := (Machine.of_requests (m := c.machine) (q := (c.phys2 I x).out)
      (Bool.eq_true_of_not_eq_false hn)).1
    simp [hs, Mmu.isInsFOrMem] at this
  refine ⟨h.next x (by simp [hs]) (by rcases ho with ho | ho <;> simp [ho]) (by simp [hs]), hs,
    ?_, ?_⟩
  · exact (cells_cycle (.inl (hinv.phase.ramIdle ha.state)) (writeEnable_of_requests ha.requests) x
      (writeEnable_of_requests hno)).2
  · rw [hwritten.regs, hdata, hword]

/-- A cycle takes an access to its next point. -/
theorem step (h : Accessing I b c w) {p : Point} (hp : At b c w p) (hn : p ≠ .done) (x : Exts) :
    Accessing I b (c.cycle I x) w ∧ At b (c.cycle I x) w (p.next (first w == F.sb)) := by
  have hphys : (c.cycle I x).phys = ticks I x.e0 x.e1 x.e2 x.e3 c.cpu.mmu
    (c.cpu.rise c.phys.out).mmu (c.cpu.rise c.phys.out).mmu (c.cpu' I x).mmu c.phys := rfl
  cases p
  case reading0 =>
    obtain ⟨ho, hf, hp, hc⟩ := hp
    obtain ⟨hnext, hold, -, -⟩ := h.stall (by rw [hp.state]; omega) x
    obtain ⟨hp', hc'⟩ := ticks_reading hp
    exact ⟨hnext, hold.trans ho, hf, hphys ▸ hp', by rw [hphys, hc', hc]⟩
  case reading4 =>
    obtain ⟨ho, hf, hp, hc⟩ := hp
    obtain ⟨hnext, hold, hq, hx⟩ := h.stall (by rw [hp.state]; omega) x
    obtain ⟨hs, hd, hc'⟩ := ticks_read hp
    exact ⟨hnext, hold.trans ho, hf, ⟨hphys ▸ hs, hq, hx⟩, by rw [hphys, hd, hc], by rw [hphys, hc', hc]⟩
  case read =>
    obtain ⟨ho, hf, ha, hd, hc⟩ := hp
    obtain ⟨hr, hs⟩ := h.answered ha (.inl ho)
    by_cases hsb : first w = F.sb
    · rw [if_pos ⟨ho, hsb⟩] at hs
      rw [Point.next, if_pos (by simpa using hsb)]
      exact h.enter_write hr (.inr ⟨ho, hs, hsb, hd⟩) ha.requests hc x
    · rw [if_neg (by simp [hsb])] at hs
      rw [Point.next, if_neg (by simpa using hsb)]
      obtain ⟨hnext, hold, hc', hregs⟩ := h.finish ha (.inl ho) hs x
      refine ⟨hnext, hold, ?_, by rw [hregs, hd]⟩
      rw [hc', hc, if_neg (by simp [isStore, hf, hsb])]
  case writing0 =>
    obtain ⟨ho, hf, hp, hc⟩ := hp
    obtain ⟨hnext, hold, -, -⟩ := h.stall (by rw [hp.state]; omega) x
    obtain ⟨hp', hc'⟩ := ticks_writing hp
    exact ⟨hnext, hold.trans ho, hf, hphys ▸ hp', by rw [hphys, hc', hc]; rfl⟩
  case writing4 =>
    obtain ⟨ho, hf, hp, hc⟩ := hp
    obtain ⟨hnext, hold, hq, -⟩ := h.stall (by rw [hp.state]; omega) x
    obtain ⟨hp', hc'⟩ := ticks_written hp
    exact ⟨hnext, hold.trans ho, hf, hphys ▸ hp', hq, by rw [hphys, hc', hc]⟩
  case writing8 =>
    obtain ⟨ho, hf, hp, hq, hc⟩ := hp
    obtain ⟨hnext, hold, hq', hx⟩ := h.stall (by rw [hp.state]; omega) x
    obtain ⟨hr₂, hw₂⟩ : c.cpu.mmu.toPhysicalReadEnable = false ∧
        c.cpu.mmu.toPhysicalWriteEnable = false := by
      simpa [Cpu.requests] using hq
    obtain ⟨hr₃, hw₃⟩ : (c.cpu' I x).mmu.toPhysicalReadEnable = false ∧
        (c.cpu' I x).mmu.toPhysicalWriteEnable = false := by
      have hno : (c.cpu' I x).requests = false := hq'
      simpa [Cpu.requests] using hno
    obtain ⟨hs, hc'⟩ := ticks_wrote I x.e0 x.e1 x.e2 x.e3 c.cpu.mmu (c.cpu.rise c.phys.out).mmu
      (c.cpu.rise c.phys.out).mmu hp hr₂ hw₂ hr₃ hw₃
    exact ⟨hnext, hold.trans ho, hf, ⟨hphys ▸ hs, hq', hx⟩, by rw [hphys, hc', hc]⟩
  case wrote =>
    obtain ⟨ho, hf, ha, hc⟩ := hp
    have ho' : c.cpu.oldState = .mem1 ∨ c.cpu.oldState = .mem2 := by
      rw [ho]
      split_ifs <;> simp
    obtain ⟨-, hs⟩ := h.answered ha ho'
    rw [if_neg (by rintro ⟨h1, h2⟩; simp [ho, h2] at h1)] at hs
    obtain ⟨hnext, hold, hc', hregs⟩ := h.finish ha ho' hs x
    refine ⟨hnext, hold, by rw [hc', hc, if_pos hf], ?_⟩
    rw [hregs, writtenRegs_store _ hf, writtenRegs_store _ hf]
  case done => exact absurd rfl hn

end Accessing

end Board

end CacheCPU
