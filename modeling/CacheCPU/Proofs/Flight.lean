import CacheCPU.Proofs.Control

/-!
# One instruction in flight

From the edge that fetches an instruction to its `WriteB`, the machine holds the registers the
instruction started from and what its stages have computed so far, however long the physical level
stalls it. `Flight` says this stage by stage, and every step of an instruction keeps it.
-/

namespace CacheCPU

/-! ## What an instruction computes -/

namespace Cpu

variable (s : Cpu) (w : BitVec 32)

/-- CP0 after the edge that fetches. -/
def fetchedCp0 : CP0 := s.cp0.rise .insF 0#5 s.id.cp0Op s.gpr.rtValue s.exc s.id.eretEnable

/-- The operands of the word `w`. -/
def rsVal : BitVec 32 := s.archRegs (rsOf w)

def rtVal : BitVec 32 := s.archRegs (rtOf w)

/-- The CP0 registers after `Exe`. -/
def executedCp0 : BitVec 5 → BitVec 32 :=
  if isEret w then
    Function.update s.fetchedCp0.reg CP0.status (s.fetchedCp0.reg CP0.status &&& ~~~2#32)
  else if isMtc0 w then Function.update s.fetchedCp0.reg (rdOf w) (s.rtVal w)
  else s.fetchedCp0.reg

/-- The TLB after `Exe`. -/
def executedTlb : Tlb :=
  if isTlbwi w then Mmu.tlbwi s.mmu.tlbMem s.fetchedCp0.tlbWriteStruct else s.mmu.tlbMem

/-- The ALU after `Exe`. -/
def executedAlu : Alu :=
  s.alu.exec (aluOps (first w) (last w)).1 (s.rsVal w) (s.rtVal w) (imme w)
    (s.fetchedCp0.reg (rdOf w))

/-- The branch condition. -/
def taken : Bool := WB.cond (compOp (first w) (w.getLsbD 16)) (s.rsVal w) (s.rtVal w)

/-- The register file after the instruction; `data` is the word read. -/
def writtenRegs (data : BitVec 32) : BitVec 5 → BitVec 32 :=
  let op := wbOp (first w) (last w) (w.getLsbD 23)
  let d := WB.dest 0#5 (op.extractLsb 4 3) (rdOf w) (rtOf w)
  if d.2 then
    Function.update s.archRegs d.1 (WB.value 0#32 (op.extractLsb 2 0) (s.pcToMmu + 4#32) data
      (s.fetchedCp0.reg (rdOf w)) (s.executedAlu w).result)
  else s.archRegs

/-- The next program counter, `ERET` apart. -/
def writtenPc : BitVec 32 :=
  WB.next s.wb.pcSrc (pcOp (first w) (last w)) (s.taken w) (s.pcToMmu + 4#32) (imme w)
    (s.executedAlu w).result

end Cpu

/-! ## Where an instruction is -/

namespace Machine

/-- Until `WriteB` the file holds the registers the instruction started from. -/
structure Issued (s t : Cpu) : Prop where
  next : t.nextState = t.succ t.oldState
  pc : t.pcReg = s.pcToMmu
  regs : t.gpr.reg = s.archRegs
  writeEnable : t.wb.writeEnable = false
  pcSrc : t.wb.pcSrc = s.wb.pcSrc

/-- Until `Exe` nothing else has changed but what the fetch did to CP0. -/
structure BeforeExe (s t : Cpu) : Prop where
  alu : t.alu = s.alu
  tlb : t.mmu.tlbMem = s.mmu.tlbMem
  cp0 : t.cp0.reg = s.fetchedCp0.reg
  oldCompare : t.cp0.oldCompare = s.fetchedCp0.reg CP0.compare

/-- From `InsD` on the operands of the latched word are held. -/
structure Operands (s t : Cpu) : Prop where
  rs : t.gpr.rsValue = s.rsVal t.id.insReg
  rt : t.gpr.rtValue = s.rtVal t.id.insReg
  rdAddress : t.cp0.rdAddress = rdOf t.id.insReg
  addrValue : t.cp0.addrValue = s.fetchedCp0.reg (rdOf t.id.insReg)

/-- From `Exe` on the results are held. -/
structure AfterExe (s t : Cpu) : Prop where
  alu : t.alu = s.executedAlu t.id.insReg
  compare : t.wb.compare = s.taken t.id.insReg
  tlb : t.mmu.tlbMem = s.executedTlb t.id.insReg
  cp0 : ∀ i, i ≠ CP0.count → t.cp0.reg i = s.executedCp0 t.id.insReg i
  oldCompare : t.oldState = .exe → t.cp0.oldCompare = s.fetchedCp0.reg CP0.compare

/-- `WriteB` has set the write to the file and the next program counter. -/
structure Written (s t : Cpu) (data : BitVec 32) : Prop where
  pc : t.pcReg = s.pcToMmu
  regs : t.archRegs = s.writtenRegs t.id.insReg data
  pcSrc : t.wb.pcSrc = s.writtenPc t.id.insReg

/-- Where the instruction fetched from `s` stands, by the stage performed last. -/
def Flight (s t : Cpu) : Prop :=
  match t.oldState with
  | .insF => Issued s t ∧ BeforeExe s t ∧ t.mmu.addr = s.pcToMmu
  | .insD => Issued s t ∧ BeforeExe s t ∧ Operands s t
  | .exe => Issued s t ∧ Operands s t ∧ AfterExe s t
  | .mem1 | .mem2 => Issued s t ∧ Operands s t ∧ AfterExe s t ∧ t.mmu.addr = t.alu.result
  | .writeB => Operands s t ∧ AfterExe s t ∧ ∃ data, Written s t data
  | .exc => False

/-- The instruction fetched at the edge of `m` is in flight in the second machine. -/
inductive InInstr (m : Machine) : Machine → Prop
  | fetch {a : Machine} : m.Fetches → Step m a → InInstr m a
  | next {a b : Machine} : InInstr m a → a.state ≠ .exc → a.cpu.oldState ≠ .writeB → Step a b →
      InInstr m b

section Edges

variable {m a b : Machine} {s : Cpu} {q : PhyOut}

theorem flight_fetch (h : m.Fetches) (hcpu : a.cpu = m.cpu.cycle m.phy q) :
    Flight m.cpu a.cpu := by
  have hs : m.cpu.state m.phy = .insF := h.1
  have ho : a.cpu.oldState = .insF := by rw [hcpu]; exact hs
  have hcmp : m.cpu.fetchedCp0.reg CP0.compare = m.cpu.cp0.reg CP0.compare := by
    rw [Cpu.fetchedCp0, CP0.rise_reg, CP0.regs_compare (by decide)]
  simp only [Flight, ho]
  refine ⟨⟨(control_next hcpu).1, ?_, ?_, ?_, ?_⟩, ⟨?_, ?_, ?_, ?_⟩, ?_⟩ <;> rw [hcpu]
  · rw [Cpu.cycle_pcReg, if_pos ⟨hs, h.2⟩]
  · rfl
  · simp [hs, WB.rise]
  · simp [hs, WB.rise]
  · simp [hs, Alu.rise]
  · simp [Cpu.cycle_mmu, Mmu.fall, Mmu.rise, hs]
  · rw [Cpu.cycle_cp0, hs]
    rfl
  · rw [hcmp, Cpu.cycle_cp0, CP0.rise_oldCompare]
  · simp [Cpu.cycle_mmu, Mmu.fall, Mmu.rise, hs, h.2, Mmu.isInsFOrMem, Cpu.mmuIn]

/-! ## What a step keeps -/

theorem insReg_cycle (hcpu : b.cpu = a.cpu.cycle a.phy q) (hd : a.state ≠ .insD) :
    b.cpu.id.insReg = a.cpu.id.insReg := by
  have hs : a.cpu.state a.phy = a.state := rfl
  rw [hcpu]
  cases h : a.state <;> simp_all [IDecode.rise, IDecode.fall]

theorem Issued.keep (h : Issued s a.cpu) (hcpu : b.cpu = a.cpu.cycle a.phy q)
    (hf : ¬a.Fetches) (hw : a.state ≠ .writeB) : Issued s b.cpu := by
  have hs : a.cpu.state a.phy = a.state := rfl
  have hf' : ¬(a.cpu.state a.phy = .insF ∧ a.phy.ready = true) := hf
  refine ⟨(control_next hcpu).1, ?_, ?_, ?_, ?_⟩ <;> rw [hcpu]
  · rw [Cpu.cycle_pcReg, if_neg hf', h.pc]
  · simp [GeneralRegister.rise, GeneralRegister.written, h.writeEnable, h.regs]
  · cases hst : a.state <;> simp_all [WB.rise]
  · cases hst : a.state <;> simp_all [WB.rise, h.pcSrc]

theorem BeforeExe.keep (h : BeforeExe s a.cpu) (hc : Control a)
    (hcpu : b.cpu = a.cpu.cycle a.phy q) (ho : a.cpu.oldState ≠ .exc) (he : a.state ≠ .exe)
    (hw : a.state ≠ .writeB) : BeforeExe s b.cpu := by
  have hs : a.cpu.state a.phy = a.state := rfl
  have hx : a.cpu.exc.interruptStart = false := by simp [hc.interruptStart, ho]
  have hreg : b.cpu.cp0.reg = a.cpu.cp0.reg := by
    rw [hcpu, Cpu.cycle_cp0, CP0.rise_reg, hs]
    exact CP0.regs_of_idle he hw (fun _ => hx) (by rw [h.oldCompare, h.cp0])
  refine ⟨?_, ?_, hreg.trans h.cp0, ?_⟩
  · rw [hcpu, Cpu.cycle_alu, hs]
    cases hst : a.state <;> simp_all [Alu.rise, h.alu]
  · rw [hcpu]
    simp [Cpu.cycle_mmu, Mmu.fall, Mmu.rise, hs, he, h.tlb]
  · rw [hcpu, Cpu.cycle_cp0, CP0.rise_oldCompare, h.cp0]

theorem Operands.keep (h : Operands s a.cpu) (hcpu : b.cpu = a.cpu.cycle a.phy q)
    (hd : a.state ≠ .insD) : Operands s b.cpu := by
  have hd' : a.cpu.state a.phy ≠ .insD := hd
  have hw := insReg_cycle hcpu hd
  refine ⟨?_, ?_, ?_, ?_⟩ <;> rw [hw, hcpu]
  · simp [GeneralRegister.rise, hd', h.rs]
  · simp [GeneralRegister.rise, hd', h.rt]
  · simp [CP0.rise_rdAddress, hd', h.rdAddress]
  · simp [CP0.rise_addrValue, hd', h.addrValue]

theorem AfterExe.keep (h : AfterExe s a.cpu) (hcpu : b.cpu = a.cpu.cycle a.phy q)
    (hf : a.state ≠ .insF) (hd : a.state ≠ .insD) (he : a.state ≠ .exe) : AfterExe s b.cpu := by
  have hs : a.cpu.state a.phy = a.state := rfl
  have hw := insReg_cycle hcpu hd
  have ho : b.cpu.oldState = a.state := by rw [hcpu]; rfl
  refine ⟨?_, ?_, ?_, ?_, fun hexe => absurd (ho.symm.trans hexe) he⟩
  · rw [hw, hcpu, Cpu.cycle_alu, hs, ← h.alu]
    cases hst : a.state <;> simp_all [Alu.rise]
  · rw [hw, hcpu, Cpu.cycle_wb, hs, ← h.compare]
    cases hst : a.state <;> simp_all [WB.rise]
  · rw [hw, hcpu, ← h.tlb]
    simp [Cpu.cycle_mmu, Mmu.fall, Mmu.rise, hs, he]
  · intro i hi
    rw [hw, ← h.cp0 i hi, hcpu, Cpu.cycle_cp0, CP0.rise_reg, hs]
    exact CP0.regs_of_ne he (fun h => absurd h hf) hi

/-! ## The stages -/

/-- `InsD` reads the operands. -/
theorem operands_decode (hi : Issued s a.cpu) (he : BeforeExe s a.cpu) (hs : a.state = .insD)
    (hcpu : b.cpu = a.cpu.cycle a.phy q) : Operands s b.cpu := by
  have hs' : a.cpu.state a.phy = .insD := hs
  have hw : b.cpu.id.insReg = a.cpu.instrFromMmu a.phy := by
    rw [hcpu, Cpu.cycle_id, hs']
    rfl
  refine ⟨?_, ?_, ?_, ?_⟩ <;> rw [hw, hcpu]
  · simp [GeneralRegister.rise, hs', hi.regs, Cpu.rsVal]
  · simp [GeneralRegister.rise, hs', hi.regs, Cpu.rtVal]
  · simp [CP0.rise_rdAddress, hs']
  · simp [CP0.rise_addrValue, hs', he.cp0]

/-- `Exe` computes the results. -/
theorem afterExe_execute (hl : a.cpu.id.Latched) (he : BeforeExe s a.cpu) (ho : Operands s a.cpu)
    (hs : a.state = .exe) (hcpu : b.cpu = a.cpu.cycle a.phy q) : AfterExe s b.cpu := by
  have hs' : a.cpu.state a.phy = .exe := hs
  have hw := insReg_cycle hcpu (by rw [hs]; decide)
  refine ⟨?_, ?_, ?_, ?_, fun _ => ?_⟩
  · rw [hw, hcpu, Cpu.cycle_alu, hs']
    simp only [Alu.rise, Cpu.executedAlu, ho.rs, ho.rt, ho.addrValue, hl.aluOps, hl.imme, he.alu]
  · rw [hw, hcpu, Cpu.cycle_wb, hs']
    simp only [WB.rise, Cpu.taken, ho.rs, ho.rt, hl.compOp]
  · rw [hw, hcpu]
    simp [Cpu.cycle_mmu, Mmu.fall, Mmu.rise, hs', Cpu.mmuIn, Cpu.executedTlb, hl.tlbwiEnable,
      he.tlb, Cpu.tlbWriteValue, CP0.tlbWriteStruct, he.cp0]
  · intro i hi
    rw [hw, hcpu, Cpu.cycle_cp0, CP0.rise_reg, hs',
      CP0.regs_exe (by rw [he.oldCompare, he.cp0]), he.cp0]
    simp only [Cpu.executedCp0, hl.eretEnable, hl.cp0Op, ho.rdAddress, ho.rt]
  · rw [hcpu, Cpu.cycle_cp0, CP0.rise_oldCompare, he.cp0]

/-- `WriteB` sets the write and the next program counter. -/
theorem written_writeB (hl : a.cpu.id.Latched) (hi : Issued s a.cpu) (ho : Operands s a.cpu)
    (ha : AfterExe s a.cpu) (hs : a.state = .writeB) (hcpu : b.cpu = a.cpu.cycle a.phy q) :
    Written s b.cpu (a.cpu.dataFromMmu a.phy) := by
  have hs' : a.cpu.state a.phy = .writeB := hs
  have hw := insReg_cycle hcpu (by rw [hs]; decide)
  have hrpc : a.cpu.rpc = s.pcToMmu + 4#32 := by rw [Cpu.rpc, hi.pc]
  have hfile : b.cpu.gpr.reg = s.archRegs := by
    rw [hcpu]
    simp [GeneralRegister.rise, GeneralRegister.written, hi.writeEnable, hi.regs]
  have hwb : b.cpu.wb = a.cpu.wb.rise .writeB a.cpu.id (s.pcToMmu + 4#32)
      (a.cpu.dataFromMmu a.phy) (s.fetchedCp0.reg (rdOf a.cpu.id.insReg))
      (s.executedAlu a.cpu.id.insReg).result (s.rsVal a.cpu.id.insReg)
      (s.rtVal a.cpu.id.insReg) := by
    rw [hcpu, Cpu.cycle_wb, hs', hrpc, ho.addrValue, ho.rs, ho.rt, ha.alu]
  refine ⟨?_, ?_, ?_⟩
  · rw [hcpu, Cpu.cycle_pcReg, hs', if_neg (by simp), hi.pc]
  · rw [Cpu.archRegs, GeneralRegister.written, hfile, hwb, hw]
    simp only [WB.rise, Cpu.writtenRegs, hl.wbOp, hl.rdAddr, hl.rtAddr]
    obtain ⟨h1, h2⟩ := WB.dest_congr a.cpu.wb.writeAddr 0#5
      ((wbOp (first a.cpu.id.insReg) (last a.cpu.id.insReg)
        (a.cpu.id.insReg.getLsbD 23)).extractLsb 4 3) (rdOf a.cpu.id.insReg)
      (rtOf a.cpu.id.insReg)
    rw [← h1]
    split_ifs with hd
    · rw [h2 hd, WB.value_congr (wbOp_kind _ _ _) _ 0#32]
    · rfl
  · rw [hwb, hw]
    simp only [WB.rise, Cpu.writtenPc, hl.pcOp, hl.imme, hi.pcSrc, ha.compare]

theorem not_fetches_of_ne (h : a.state ≠ .insF) : ¬a.Fetches := fun hf => h hf.1

/-- A memory stage latches the address the ALU computed. -/
theorem addr_mem (hr : a.phy.ready = true) (hs : a.state = .mem1 ∨ a.state = .mem2)
    (hcpu : b.cpu = a.cpu.cycle a.phy q) : b.cpu.mmu.addr = b.cpu.alu.result := by
  have hs' : a.cpu.state a.phy = a.state := rfl
  rw [hcpu]
  rcases hs with hs | hs <;>
    simp [Cpu.cycle_mmu, Mmu.fall, Mmu.rise, hs', hs, hr, Mmu.isInsFOrMem, Cpu.mmuIn, Alu.rise]

theorem flight_stall (hc : Control a) (h : Flight s a.cpu) (hr : a.phy.ready = false)
    (hcpu : b.cpu = a.cpu.cycle a.phy q) : Flight s b.cpu := by
  obtain ⟨hs, hst⟩ := hc.state_busy hr
  have hb : b.cpu.oldState = a.state := by rw [hcpu]; rfl
  have hf : ¬a.Fetches := fun h => absurd h.2 (by simp [hr])
  have haddr : b.cpu.mmu.addr = a.cpu.mmu.addr := by
    rw [hcpu]
    simp [Cpu.cycle_mmu, Mmu.fall, Mmu.rise, hr]
  have halu : a.state ≠ .exe → b.cpu.alu = a.cpu.alu := by
    intro he
    rw [hcpu, Cpu.cycle_alu, show a.cpu.state a.phy = a.state from rfl]
    cases h : a.state <;> simp_all [Alu.rise]
  unfold Flight at h ⊢
  rw [hb]
  rw [← hs] at h
  cases hm : a.state <;> simp only [hm, Mmu.isInsFOrMem, Bool.false_eq_true] at hst h ⊢
  case insF =>
    obtain ⟨hi, he, hp⟩ := h
    exact ⟨hi.keep hcpu hf (by simp [hm]),
      he.keep hc hcpu (by simp [← hs, hm]) (by simp [hm]) (by simp [hm]), haddr.trans hp⟩
  all_goals
    obtain ⟨hi, ho, ha, hp⟩ := h
    exact ⟨hi.keep hcpu hf (by simp [hm]), ho.keep hcpu (by simp [hm]),
      ha.keep hcpu (by simp [hm]) (by simp [hm]) (by simp [hm]),
      by rw [haddr, halu (by simp [hm]), hp]⟩

/-- A step of an instruction. -/
theorem flight_step (hc : Control a) (h : Flight s a.cpu) (hx : a.state ≠ .exc)
    (hnw : a.cpu.oldState ≠ .writeB) (hstep : Step a b) : Flight s b.cpu := by
  obtain ⟨q, hcpu, -, -⟩ := step_cases hstep
  have hb : b.cpu.oldState = a.state := by rw [hcpu]; rfl
  rcases Bool.eq_false_or_eq_true a.phy.ready with hr | hr
  swap
  · exact flight_stall hc h hr hcpu
  have hnext : Issued s a.cpu → a.state = a.cpu.succ a.cpu.oldState := by
    intro hi
    have hs : a.state = a.cpu.nextState := by
      unfold state Cpu.state at hx ⊢
      rw [if_pos hr] at hx ⊢
      split_ifs at hx ⊢
      · exact absurd rfl hx
      · rfl
    rw [hs, hi.next]
  have written (hi : Issued s a.cpu) (hop : Operands s a.cpu) (ha : AfterExe s a.cpu)
      (hl : a.cpu.id.Latched) (hs : a.state = .writeB) : Flight s b.cpu := by
    simp only [Flight, hb, hs]
    exact ⟨hop.keep hcpu (by simp [hs]),
      ha.keep hcpu (by simp [hs]) (by simp [hs]) (by simp [hs]), _, written_writeB hl hi hop ha hs hcpu⟩
  have hlatched := fun hf => (hc.latched hf).1
  unfold Flight at h
  cases ho : a.cpu.oldState <;> simp only [ho, inFlight] at h hnw hlatched
  case insF =>
    obtain ⟨hi, he, -⟩ := h
    have hs : a.state = .insD := by rw [hnext hi, ho]; rfl
    simp only [Flight, hb, hs]
    exact ⟨hi.keep hcpu (not_fetches_of_ne (by simp [hs])) (by simp [hs]),
      he.keep hc hcpu (by simp [ho]) (by simp [hs]) (by simp [hs]), operands_decode hi he hs hcpu⟩
  case insD =>
    obtain ⟨hi, he, hop⟩ := h
    have hs : a.state = .exe := by rw [hnext hi, ho]; rfl
    simp only [Flight, hb, hs]
    exact ⟨hi.keep hcpu (not_fetches_of_ne (by simp [hs])) (by simp [hs]),
      hop.keep hcpu (by simp [hs]), afterExe_execute (hlatched trivial) he hop hs hcpu⟩
  case exe =>
    obtain ⟨hi, hop, ha⟩ := h
    have hs : a.state = if a.cpu.hasMem1 then .mem1 else .writeB := by rw [hnext hi, ho]; rfl
    split_ifs at hs
    · simp only [Flight, hb, hs]
      exact ⟨hi.keep hcpu (not_fetches_of_ne (by simp [hs])) (by simp [hs]),
        hop.keep hcpu (by simp [hs]),
        ha.keep hcpu (by simp [hs]) (by simp [hs]) (by simp [hs]), addr_mem hr (.inl hs) hcpu⟩
    · exact written hi hop ha (hlatched trivial) hs
  case mem1 =>
    obtain ⟨hi, hop, ha, -⟩ := h
    have hs : a.state = if a.cpu.hasMem2 then .mem2 else .writeB := by rw [hnext hi, ho]; rfl
    split_ifs at hs
    · simp only [Flight, hb, hs]
      exact ⟨hi.keep hcpu (not_fetches_of_ne (by simp [hs])) (by simp [hs]),
        hop.keep hcpu (by simp [hs]),
        ha.keep hcpu (by simp [hs]) (by simp [hs]) (by simp [hs]), addr_mem hr (.inr hs) hcpu⟩
    · exact written hi hop ha (hlatched trivial) hs
  case mem2 =>
    obtain ⟨hi, hop, ha, -⟩ := h
    have hs : a.state = .writeB := by rw [hnext hi, ho]; rfl
    exact written hi hop ha (hlatched trivial) hs
  case writeB => exact absurd rfl hnw

theorem InInstr.reachable (hr : Reachable m) (h : InInstr m a) : Reachable a := by
  induction h with
  | fetch _ h => exact hr.step h
  | next _ _ _ h ih => exact ih.step h

/-- Everything that holds of an instruction in flight. -/
theorem InInstr.flight (hr : Reachable m) (h : InInstr m a) : Flight m.cpu a.cpu := by
  induction h with
  | fetch hf h =>
    obtain ⟨q, hcpu, -, -⟩ := step_cases h
    exact flight_fetch hf hcpu
  | next hin hx hw h ih => exact flight_step (hin.reachable hr).control ih hx hw h

/-! ## The edges before the end -/

/-- The `Exe` edge comes straight after `InsD`. -/
theorem InInstr.exe_edge (hr : Reachable m) (h : InInstr m b) (ho : b.cpu.oldState = .exe) :
    ∃ a, InInstr m a ∧ Step a b ∧ a.state = .exe ∧ a.cpu.oldState = .insD ∧
      b.cpu.id.insReg = a.cpu.id.insReg := by
  cases h with
  | fetch hf hstep =>
    obtain ⟨q, hcpu, -, -⟩ := step_cases hstep
    have hs : m.state = .exe := by rw [hcpu] at ho; exact ho
    simp [hf.1] at hs
  | @next a _ hin hx hw hstep =>
    obtain ⟨q, hcpu, -, -⟩ := step_cases hstep
    have hs : a.state = .exe := by rw [hcpu] at ho; exact ho
    refine ⟨a, hin, hstep, hs, ?_, insReg_cycle hcpu (by simp [hs])⟩
    rcases (hin.reachable hr).control.state_cases with ⟨-, -, h⟩ | ⟨-, -, h⟩ | ⟨-, -, h⟩ | ⟨-, -, h⟩
    · simp [hs, Mmu.isInsFOrMem] at h
    · simp [hs] at h
    · exact Cpu.succ_eq_exe.1 (h.symm.trans hs)
    · simp [hs] at h

/-- The `WriteB` edge of an instruction that accesses no memory comes straight after `Exe`. -/
theorem InInstr.writeB_edge (hr : Reachable m) (h : InInstr m b) (ho : b.cpu.oldState = .writeB)
    (hm : isMem (first b.cpu.id.insReg) = false) :
    ∃ a, InInstr m a ∧ Step a b ∧ a.state = .writeB ∧ a.cpu.oldState = .exe ∧
      b.cpu.id.insReg = a.cpu.id.insReg := by
  cases h with
  | fetch hf hstep =>
    obtain ⟨q, hcpu, -, -⟩ := step_cases hstep
    have hs : m.state = .writeB := by rw [hcpu] at ho; exact ho
    simp [hf.1] at hs
  | @next a _ hin hx hw hstep =>
    obtain ⟨q, hcpu, -, -⟩ := step_cases hstep
    have hs : a.state = .writeB := by rw [hcpu] at ho; exact ho
    have hword := insReg_cycle hcpu (by simp [hs])
    have hc := (hin.reachable hr).control
    have hno : inFlight a.cpu.oldState = true → a.cpu.hasMem1 = false := by
      intro hf
      rw [(hc.latched hf).2.1, ← hword, hm]
    refine ⟨a, hin, hstep, hs, ?_, hword⟩
    rcases hc.state_cases with ⟨-, -, h⟩ | ⟨-, -, h⟩ | ⟨-, -, h⟩ | ⟨-, -, h⟩
    · simp [hs, Mmu.isInsFOrMem] at h
    · simp [hs] at h
    · rcases Cpu.succ_eq_writeB.1 (h.symm.trans hs) with ⟨h, -⟩ | ⟨h, -⟩ | h
      · exact h
      · simp [hc.mem1 h] at hno
        simp [h, inFlight] at hno
      · have hmem2 := (hc.latched (by rw [h]; rfl)).2.2
        rw [hc.mem2 h] at hmem2
        rw [hword, isMem_of_sb hmem2.symm] at hm
        cases hm
    · simp [hs] at h

end Edges

end Machine

end CacheCPU
