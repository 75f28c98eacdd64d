import CacheCPU.Cpu

/-!
# What a cycle does to each unit

A cycle of `cpu_clk` seen unit by unit. Every register but the exception codes and the request is
set at the rising edge, from what the others held before it; those are set at the falling edge.
-/

namespace CacheCPU

namespace Cpu

variable (s : Cpu) (p q : PhyOut)

@[simp] theorem cycle_oldState : (s.cycle p q).oldState = s.state p := rfl

@[simp] theorem cycle_nextState : (s.cycle p q).nextState = s.succ (s.state p) := rfl

@[simp] theorem cycle_hasMem1 : (s.cycle p q).hasMem1 =
    if s.state p = .insD then isMem (first (s.instrFromMmu p)) else s.hasMem1 := rfl

@[simp] theorem cycle_hasMem2 : (s.cycle p q).hasMem2 =
    if s.state p = .insD then first (s.instrFromMmu p) == F.sb else s.hasMem2 := rfl

@[simp] theorem cycle_badVAddr : (s.cycle p q).badVAddr =
    if s.state p = .insF then s.pcToMmu
    else if s.state p = .mem1 ∨ s.state p = .mem2 then s.alu.result
    else s.badVAddr := rfl

@[simp] theorem cycle_alu : (s.cycle p q).alu =
    s.alu.rise (s.state p) s.id.aluOps s.gpr.rsValue s.gpr.rtValue s.id.imme s.cp0.addrValue :=
  rfl

@[simp] theorem cycle_wb : (s.cycle p q).wb =
    s.wb.rise (s.state p) s.id s.rpc (s.dataFromMmu p) s.cp0.addrValue s.alu.result
      s.gpr.rsValue s.gpr.rtValue := rfl

@[simp] theorem cycle_gpr : (s.cycle p q).gpr =
    s.gpr.rise (s.state p) (rsOf (s.instrFromMmu p)) (rtOf (s.instrFromMmu p)) s.wb := rfl

@[simp] theorem cycle_cp0 : (s.cycle p q).cp0 =
    s.cp0.rise (s.state p) (rdOf (s.instrFromMmu p)) s.id.cp0Op s.gpr.rtValue s.exc
      s.id.eretEnable := rfl

@[simp] theorem cycle_exc : (s.cycle p q).exc = s.exc.rise (s.state p) (s.exceptionIn p) := rfl

@[simp] theorem cycle_id :
    (s.cycle p q).id = (s.id.rise (s.state p) (s.instrFromMmu p)).fall := rfl

/-- The MMU at the falling edge works on what the rising edge left. -/
theorem cycle_mmu : (s.cycle p q).mmu = (s.mmu.rise (s.state p) p.ready s.mmuIn).fall q.ready
    ((s.rise p).writeValueFromMem q) (s.rise p).mmuIn := rfl

/-- The program counter latches the address sent to the MMU. -/
@[simp] theorem cycle_pcReg : (s.cycle p q).pcReg =
    if s.state p = .insF ∧ p.ready then s.pcToMmu else s.pcReg := by
  simp only [cycle, fall, rise, pcToMmu]
  cases s.id.eretEnable <;> rfl

/-! ## The stage that comes before -/

variable {s : Cpu} {st : Status}

theorem succ_eq_insF : s.succ st = .insF ↔ st = .writeB ∨ st = .exc := by
  cases st <;> simp only [succ] <;> (try split_ifs) <;> simp

theorem succ_eq_insD : s.succ st = .insD ↔ st = .insF := by
  cases st <;> simp only [succ] <;> (try split_ifs) <;> simp

theorem succ_eq_exe : s.succ st = .exe ↔ st = .insD := by
  cases st <;> simp only [succ] <;> (try split_ifs) <;> simp

theorem succ_eq_mem1 : s.succ st = .mem1 ↔ st = .exe ∧ s.hasMem1 = true := by
  cases st <;> simp only [succ] <;> (try split_ifs) <;> simp_all

theorem succ_eq_mem2 : s.succ st = .mem2 ↔ st = .mem1 ∧ s.hasMem2 = true := by
  cases st <;> simp only [succ] <;> (try split_ifs) <;> simp_all

theorem succ_eq_writeB : s.succ st = .writeB ↔
    (st = .exe ∧ s.hasMem1 = false) ∨ (st = .mem1 ∧ s.hasMem2 = false) ∨ st = .mem2 := by
  cases st <;> simp only [succ] <;> (try split_ifs) <;> simp_all

theorem succ_ne_exc : s.succ st ≠ .exc := by
  cases st <;> simp only [succ] <;> (try split_ifs) <;> simp

end Cpu

namespace Machine

/-- Every machine can take a step. -/
theorem step_exists (m : Machine) : ∃ m', Step m m' :=
  ⟨_, .cycle m ⟨0#32, true, false⟩ ⟨0#32, true, false⟩ (fun _ => rfl) fun _ _ => rfl⟩

theorem step_cases {m m' : Machine} (h : Step m m') :
    ∃ q, m'.cpu = m.cpu.cycle m.phy q ∧ (m.phy.ready → q.ready) ∧
      (m.phy.ready → m'.cpu.requests = false → m'.phy.ready) := by
  cases h with
  | cycle q p' hq hp => exact ⟨q, rfl, hq, hp⟩

/-- The stage of the next edge: the current one while the physical level is busy, `Exc` on an
event, else the one that follows. -/
theorem state_cases (m : Machine) :
    (m.phy.ready = false ∧ m.state = m.cpu.oldState) ∨
    (m.phy.ready = true ∧ m.cpu.excep m.phy = true ∧ m.state = .exc) ∨
    (m.phy.ready = true ∧ m.cpu.excep m.phy = false ∧ m.state = m.cpu.nextState) := by
  unfold state Cpu.state
  cases m.phy.ready <;> cases m.cpu.excep m.phy <;> simp

/-! ## Runs on a physical level that answers at once -/

/-- One cycle in which the physical level drives `p` from the falling edge on. -/
def feed (m : Machine) (p : PhyOut) : Machine := ⟨m.cpu.cycle m.phy p, p⟩

def feeds (m : Machine) (ps : List PhyOut) : Machine := ps.foldl feed m

theorem step_feed (m : Machine) {p : PhyOut} (hp : p.ready = true) : Step m (m.feed p) :=
  .cycle m p p (fun _ => hp) fun _ _ => hp

theorem Reachable.feeds {m : Machine} (h : Reachable m) {ps : List PhyOut}
    (hps : ∀ p ∈ ps, p.ready = true) : Reachable (m.feeds ps) := by
  induction ps generalizing m with
  | nil => exact h
  | cons p ps ih =>
    have hp : p.ready = true := hps p (by simp)
    exact ih (h.step (m.step_feed hp)) fun x hx => hps x (by simp [hx])

/-- The physical level idle, with the word `w` on its data lines. -/
def idle (w : BitVec 32) : PhyOut := ⟨w, true, false⟩

/-- A machine after reset whose other registers are all zero. -/
def atReset : Machine where
  cpu :=
    { oldState := .insF, nextState := .insF, hasMem1 := false, hasMem2 := false
      badVAddr := 0#32
      pcReg := 0x90000000#32
      id :=
        { insReg := 0#32, stateReg := .insF, rsAddr := 0#5, rtAddr := 0#5, rdAddr := 0#5
          pcOp := 0#2, eretEnable := false, compOp := 0#3, imme := 0#32, aluOps := aluDisable
          memOp := memDisable, tlbwiEnable := false, alignType := alignTypeQuad, wbOp := 0#5
          cp0Op := false, insUndef := false, excCode := 0#2, excCounter := false }
      alu := ⟨0#64, 0#32, 0#32⟩
      wb := ⟨0#5, 0#32, false, 0x90000000#32, false⟩
      gpr := ⟨fun _ => 0#32, 0#32, 0#32⟩
      cp0 :=
        { reg := fun i => if i = CP0.compare then 0x11111111#32
            else if i = CP0.ebase then 0x80000180#32 else 0#32
          addrValue := 0#32, rdAddress := 0#5, oldCompare := 0#32, compareInterrupt := false }
      exc := ⟨0#32, 0#20, false, 0b11111#5, 0#6, 0#32, false, false⟩
      mmu :=
        { addr := 0x90000000#32, stateReg := .writeB, toPhysicalCounter := false
          tlbMem := fun _ => 0#63, excCode := noMemExc, excCounter := false
          toPhysicalAddr := 0#24, toPhysicalData := 0#32, toPhysicalReadEnable := false
          toPhysicalWriteEnable := false } }
  phy := idle 0#32

theorem atReset_isReset : atReset.IsReset := by
  refine ⟨⟨rfl, rfl, rfl, rfl, ⟨rfl, rfl, rfl, rfl, rfl, rfl, rfl, rfl, rfl, rfl, rfl, rfl⟩,
    ⟨rfl, rfl, rfl, rfl, rfl⟩, ⟨fun _ => rfl⟩, ⟨rfl, rfl, ?_, rfl, rfl, rfl, rfl⟩,
    ⟨rfl, rfl, rfl, rfl, rfl, rfl, rfl, rfl⟩, ⟨rfl, rfl, rfl, rfl, rfl, rfl, rfl, rfl, rfl⟩⟩, rfl⟩
  intro i h1 h2
  simp [atReset, h1, h2]

end Machine

end CacheCPU
