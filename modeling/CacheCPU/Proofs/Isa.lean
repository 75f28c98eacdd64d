import CacheCPU.Proofs.Board
import CacheCPU.Proofs.NextPc

/-!
# The register instructions

The decode tables, the ALU and write-back together compute the operation of the instruction table,
and a register instruction runs through `InsD`, `Exe` and `WriteB` without touching the TLB or the
SRAM chips.
-/

namespace CacheCPU

open Isa

/-! ## The ALU -/

section Alu

variable (x : Alu) (rs rt imm c : BitVec 32)

theorem add_not_add_one (a b : BitVec 32) : a + ~~~b + 1#32 = a - b := by
  rw [BitVec.add_assoc, ← BitVec.neg_eq_not_add, BitVec.sub_eq_add_neg]

theorem ite_slt (a b : BitVec 32) : (if a.slt b then 1#32 else 0#32) =
    if a.toInt < b.toInt then 1#32 else 0#32 := by
  simp [BitVec.slt]

theorem ite_ult (a b : BitVec 32) : (if a.ult b then 1#32 else 0#32) =
    if a.toNat < b.toNat then 1#32 else 0#32 := by
  simp [BitVec.ult]

theorem exec_op3 (o : Op3) : x.exec (aluOps F.zero o.funct).1 rs rt imm c =
    { x with result := o.eval rs rt, srcB := rt } := by
  cases o <;> simp only [Op3.eval, ← ite_slt, ← ite_ult, ← add_not_add_one] <;> rfl

/-- The immediate operand of `op $t, $s, imm`. -/
def OpImm.ext (o : OpImm) (imm : BitVec 16) : BitVec 32 :=
  match o with
  | .addiu | .slti => imm.signExtend 32
  | .sltiu | .andi | .ori | .xori => imm.zeroExtend 32

theorem imme_opImm (o : OpImm) {w : BitVec 32} (h : first w = o.opcode) :
    imme w = OpImm.ext o (w.extractLsb 15 0) := by
  unfold imme
  rw [h]
  cases o <;> rfl

/-- The row of `alu_ops` for `op $t, $s, imm`. -/
def OpImm.row : OpImm → BitVec 9
  | .addiu => 0b000100000#9
  | .slti => 0b000101010#9
  | .sltiu => 0b000101011#9
  | .andi => 0b000100011#9
  | .ori => 0b000100100#9
  | .xori => 0b000100101#9

theorem aluOps_opImm (o : OpImm) (l : BitVec 6) : aluOps o.opcode l = (OpImm.row o, false) := by
  cases o <;> rfl

theorem exec_opImm (o : OpImm) (l : BitVec 6) (imm : BitVec 16) :
    x.exec (aluOps o.opcode l).1 rs rt (OpImm.ext o imm) c =
      { x with result := o.eval rs imm, srcB := OpImm.ext o imm } := by
  have hs : (imm.signExtend 32).toInt = imm.toInt := BitVec.toInt_signExtend_of_le (by decide)
  have hz : (imm.zeroExtend 32).toNat = imm.toNat := BitVec.toNat_setWidth_of_le (by decide)
  rw [aluOps_opImm]
  cases o
  case slti => simp only [OpImm.eval, ← hs, ← ite_slt]; rfl
  case sltiu => simp only [OpImm.eval, ← hz, ← ite_ult]; rfl
  all_goals rfl

theorem exec_shift (o : OpShift) {w : BitVec 32} (h : first w = F.zero) (hl : last w = o.funct) :
    x.exec (aluOps F.zero o.funct).1 rs rt (imme w) c =
      { x with result := o.eval rt (shamtOf w), srcB := rt } := by
  have hz : ((shamtOf w).zeroExtend 32).toNat = (shamtOf w).toNat :=
    BitVec.toNat_setWidth_of_le (by decide)
  unfold imme
  rw [h, hl]
  cases o <;> simp only [OpShift.eval, ← hz] <;> rfl

theorem exec_lui (l : BitVec 6) {w : BitVec 32} (h : first w = F.lui) :
    x.exec (aluOps F.lui l).1 rs rt (imme w) c =
      { x with result := w.extractLsb 15 0 ++ 0#16, srcB := imme w } := by
  have hshift : (w.extractLsb 15 0).signExtend 32 <<< 16 = w.extractLsb 15 0 ++ 0#16 := by
    ext i hi
    grind
  have himm : imme w = (w.extractLsb 15 0).signExtend 32 := by
    unfold imme
    rw [h]
    rfl
  have hrow : x.exec 0b110100111#9 rs rt (imme w) c =
      { x with result := imme w <<< (16#32).toNat, srcB := imme w } := by
    have ha : Alu.selA ((0b110100111#9).extractLsb 8 7) rs (imme w) c = 16#32 := rfl
    have hb : Alu.selB ((0b110100111#9).extractLsb 6 5) rt (imme w) x.srcB = imme w := rfl
    have hop : ∀ a b, Alu.op x ((0b110100111#9).extractLsb 4 0) a b =
      { x with result := b <<< a.toNat } := fun _ _ => rfl
    simp only [Alu.exec, ha, hb, hop]
  rw [show (aluOps F.lui l).1 = 0b110100111#9 from rfl, hrow, himm,
    show (16#32).toNat = 16 from rfl, hshift]

theorem exec_mult : x.exec (aluOps F.zero L.mult).1 rs rt imm c =
    { x with hiLo := BitVec.ofInt 64 (rs.toInt * rt.toInt), srcB := rt } := by
  rw [BitVec.ofInt_mul]
  rfl

theorem op_hiLo {o : BitVec 5} (a b : BitVec 32) (h1 : o ≠ 0b10000#5) (h2 : o ≠ 0b10011#5)
    (h3 : o ≠ 0b10100#5) : (x.op o a b).hiLo = x.hiLo := by
  rw [Alu.op]
  repeat' refine iteInduction (motive := fun y => Alu.hiLo y = x.hiLo) (fun h => ?_) fun h => ?_
  all_goals first | rfl | contradiction

/-- Rows that leave `HI` and `LO` alone. -/
theorem exec_hiLo {r : BitVec 9} (h1 : r.extractLsb 4 0 ≠ 0b10000#5)
    (h2 : r.extractLsb 4 0 ≠ 0b10011#5) (h3 : r.extractLsb 4 0 ≠ 0b10100#5) :
    (x.exec r rs rt imm c).hiLo = x.hiLo :=
  op_hiLo x _ _ h1 h2 h3

end Alu

/-! ## Write-back -/

namespace Cpu

/-- What the instruction table works on. CP0 is taken as the fetch leaves it, with the event that
the fetch may record. -/
def isa (s : Cpu) : State where
  reg := s.archRegs
  hi := s.alu.hiLo.extractLsb 63 32
  lo := s.alu.hiLo.extractLsb 31 0
  cp0 := s.fetchedCp0.reg

variable {s : Cpu} {w data : BitVec 32}

theorem writtenRegs_rd {v : BitVec 32}
    (h : wbOp (first w) (last w) (w.getLsbD 23) = 0b01000#5) (hv : (s.executedAlu w).result = v) :
    s.writtenRegs w data = (s.isa.set (rdOf w) v).reg := by
  simp only [writtenRegs, h, State.set]
  by_cases hd : rdOf w = 0#5
  · rw [hd]
    rfl
  · simp [WB.dest, hd, WB.value, hv, isa]

theorem writtenRegs_rt {v : BitVec 32}
    (h : wbOp (first w) (last w) (w.getLsbD 23) = 0b00000#5) (hv : (s.executedAlu w).result = v) :
    s.writtenRegs w data = (s.isa.set (rtOf w) v).reg := by
  simp only [writtenRegs, h, State.set]
  by_cases hd : rtOf w = 0#5
  · rw [hd]
    rfl
  · simp [WB.dest, hd, WB.value, hv, isa]

/-- The other values written: the return address to `$d` or to register 31, and CP0. -/
theorem writtenRegs_link (h : wbOp (first w) (last w) (w.getLsbD 23) = 0b01010#5) :
    s.writtenRegs w data = (s.isa.set (rdOf w) (s.pcToMmu + 4#32)).reg := by
  simp only [writtenRegs, h, State.set]
  by_cases hd : rdOf w = 0#5
  · rw [hd]
    rfl
  · simp [WB.dest, hd, WB.value, isa]

theorem writtenRegs_ra (h : wbOp (first w) (last w) (w.getLsbD 23) = 0b10010#5) :
    s.writtenRegs w data = (s.isa.set 31#5 (s.pcToMmu + 4#32)).reg := by
  simp only [writtenRegs, h, State.set]
  rfl

theorem writtenRegs_cp0 (h : wbOp (first w) (last w) (w.getLsbD 23) = 0b00110#5) :
    s.writtenRegs w data = (s.isa.set (rtOf w) (s.fetchedCp0.reg (rdOf w))).reg := by
  simp only [writtenRegs, h, State.set]
  by_cases hd : rtOf w = 0#5
  · rw [hd]
    rfl
  · simp [WB.dest, hd, WB.value, isa]

theorem writtenRegs_disable (h : wbOp (first w) (last w) (w.getLsbD 23) = wbDisable) :
    s.writtenRegs w data = s.archRegs := by
  simp only [writtenRegs, h]
  rfl

end Cpu

/-! ## The effect of an instruction -/

/-- What the decode tables say of every register instruction. -/
theorem Decodes.plain {w : BitVec 32} {i : Instr} (h : Decodes w i) :
    isMem (first w) = false ∧ isTlbwi w = false ∧ isEret w = false ∧ isSyscall w = false ∧
      (aluOps (first w) (last w)).2 = false := by
  unfold isTlbwi isEret isSyscall
  cases h with
  | op3 o hf hl => rw [hf, hl]; cases o <;> decide
  | shift o hf hl => rw [hf, hl]; cases o <;> decide
  | opImm o hf =>
    rw [hf, aluOps_opImm]
    cases o <;> exact ⟨rfl, rfl, rfl, rfl, rfl⟩
  | branch hf =>
    simp only [List.mem_cons, List.not_mem_nil, or_false] at hf
    rcases hf with hf | hf | hf | hf | hf | hf <;> rw [hf] <;> exact ⟨rfl, rfl, rfl, rfl, rfl⟩
  | mult hf hl | mflo hf hl | mfhi hf hl | mtlo hf hl | mthi hf hl | jalr hf hl | jr hf hl =>
    rw [hf, hl]
    decide
  | mfc0 hf _ hl | mtc0 hf _ hl =>
    rw [hf, hl]
    decide
  | lui hf | j hf | jal hf | cache hf => rw [hf]; exact ⟨rfl, rfl, rfl, rfl, rfl⟩

theorem Isa.State.set_hi (s : State) (d : BitVec 5) (v : BitVec 32) : (s.set d v).hi = s.hi := by
  unfold State.set
  split_ifs <;> rfl

theorem Isa.State.set_lo (s : State) (d : BitVec 5) (v : BitVec 32) : (s.set d v).lo = s.lo := by
  unfold State.set
  split_ifs <;> rfl

theorem Isa.State.set_cp0 (s : State) (d : BitVec 5) (v : BitVec 32) : (s.set d v).cp0 = s.cp0 := by
  unfold State.set
  split_ifs <;> rfl

theorem append_hi_lo (x : BitVec 64) : x.extractLsb 63 32 ++ x.extractLsb 31 0 = x := by
  ext i hi
  grind

section Effect

variable {w : BitVec 32} {i : Instr} (s : Cpu) (data : BitVec 32)

theorem Decodes.reg (h : Decodes w i) :
    s.writtenRegs w data = (i.exec s.pcToMmu s.isa).reg := by
  have hb : w.getLsbD 23 = (rsOf w).getLsbD 2 := by simp [rsOf]
  cases h with
  | op3 o hf hl =>
    refine Cpu.writtenRegs_rd ?_ ?_
    · rw [hf, hl]
      cases o <;> rfl
    · rw [Cpu.executedAlu, hf, hl, exec_op3]
      rfl
  | opImm o hf =>
    refine Cpu.writtenRegs_rt ?_ ?_
    · rw [hf]
      cases o <;> rfl
    · rw [Cpu.executedAlu, hf, imme_opImm o hf, exec_opImm]
      rfl
  | shift o hf hl =>
    refine Cpu.writtenRegs_rd ?_ ?_
    · rw [hf, hl]
      cases o <;> rfl
    · rw [Cpu.executedAlu, hf, hl, exec_shift _ _ _ _ o hf hl]
      rfl
  | lui hf =>
    refine Cpu.writtenRegs_rt ?_ ?_
    · rw [hf]
      rfl
    · rw [Cpu.executedAlu, hf, exec_lui _ _ _ _ _ hf]
  | mult hf hl | mtlo hf hl | mthi hf hl | jr hf hl =>
    refine Cpu.writtenRegs_disable ?_
    rw [hf, hl]
    rfl
  | mflo hf hl | mfhi hf hl =>
    refine Cpu.writtenRegs_rd ?_ ?_
    · rw [hf, hl]
      rfl
    · rw [Cpu.executedAlu, hf, hl]
      rfl
  | branch hf =>
    refine Cpu.writtenRegs_disable ?_
    simp only [List.mem_cons, List.not_mem_nil, or_false] at hf
    rcases hf with hf | hf | hf | hf | hf | hf <;> rw [hf] <;> rfl
  | j hf | cache hf =>
    refine Cpu.writtenRegs_disable ?_
    rw [hf]
    rfl
  | jal hf =>
    refine Cpu.writtenRegs_ra ?_
    rw [hf]
    rfl
  | jalr hf hl =>
    refine Cpu.writtenRegs_link ?_
    rw [hf, hl]
    rfl
  | mfc0 hf hs hl =>
    refine Cpu.writtenRegs_cp0 ?_
    rw [hb, hf, hs, hl]
    rfl
  | mtc0 hf hs hl =>
    refine Cpu.writtenRegs_disable ?_
    rw [hb, hf, hs, hl]
    rfl

/-- The words whose `Exe` leaves `HI` and `LO` alone; `r` is their row of `alu_ops`. -/
theorem executedAlu_hiLo (r : BitVec 9) (hr : (aluOps (first w) (last w)).1 = r)
    (h : r.extractLsb 4 0 ≠ 0b10000#5 ∧ r.extractLsb 4 0 ≠ 0b10011#5 ∧
      r.extractLsb 4 0 ≠ 0b10100#5) :
    (s.executedAlu w).hiLo = s.isa.hi ++ s.isa.lo := by
  rw [Cpu.executedAlu, hr, exec_hiLo _ _ _ _ _ h.1 h.2.1 h.2.2]
  exact (append_hi_lo _).symm

theorem Decodes.hiLo (h : Decodes w i) : (s.executedAlu w).hiLo =
    (i.exec s.pcToMmu s.isa).hi ++ (i.exec s.pcToMmu s.isa).lo := by
  cases h with
  | op3 o hf hl | shift o hf hl =>
    simp only [Instr.exec, State.set_hi, State.set_lo]
    refine executedAlu_hiLo s _ (by rw [hf, hl]) ?_
    cases o <;> decide
  | opImm o hf =>
    simp only [Instr.exec, State.set_hi, State.set_lo]
    refine executedAlu_hiLo s (OpImm.row o) (by rw [hf, aluOps_opImm]) ?_
    cases o <;> decide
  | lui hf =>
    simp only [Instr.exec, State.set_hi, State.set_lo]
    exact executedAlu_hiLo s 0b110100111#9 (by rw [hf]; rfl) (by decide)
  | jal hf | j hf | cache hf =>
    simp only [Instr.exec, State.set_hi, State.set_lo]
    exact executedAlu_hiLo s aluDisable (by rw [hf]; rfl) (by decide)
  | mflo hf hl | mfhi hf hl | jalr hf hl | jr hf hl =>
    simp only [Instr.exec, State.set_hi, State.set_lo]
    exact executedAlu_hiLo s _ (by rw [hf, hl]) (by decide)
  | mfc0 hf _ hl | mtc0 hf _ hl =>
    simp only [Instr.exec, State.set_hi, State.set_lo]
    exact executedAlu_hiLo s _ (by rw [hf, hl]) (by decide)
  | branch hf =>
    simp only [List.mem_cons, List.not_mem_nil, or_false] at hf
    simp only [Instr.exec]
    rcases hf with hf | hf | hf | hf | hf | hf
    · exact executedAlu_hiLo s 0b000000010#9 (by rw [hf]; rfl) (by decide)
    on_goal 5 => exact executedAlu_hiLo s 0b000000010#9 (by rw [hf]; rfl) (by decide)
    all_goals exact executedAlu_hiLo s 0b001000001#9 (by rw [hf]; rfl) (by decide)
  | mult hf hl =>
    rw [Cpu.executedAlu, hf, hl, exec_mult]
    exact (append_hi_lo _).symm
  | mtlo hf hl | mthi hf hl =>
    rw [Cpu.executedAlu, hf, hl]
    rfl

theorem Decodes.cp0 (h : Decodes w i) : s.executedCp0 w = (i.exec s.pcToMmu s.isa).cp0 := by
  have hb : w.getLsbD 23 = (rsOf w).getLsbD 2 := by simp [rsOf]
  have hplain : isMtc0 w = false → s.executedCp0 w = s.isa.cp0 := by
    intro hm
    simp only [Cpu.executedCp0, (Decodes.plain h).2.2.1, hm]
    rfl
  have hne : first w ≠ F.mtc0 → s.executedCp0 w = s.isa.cp0 := fun hf => hplain (by simp [isMtc0, hf])
  cases h with
  | op3 o hf hl | shift o hf hl =>
    simp only [Instr.exec, State.set_cp0]
    exact hne (by rw [hf]; decide)
  | opImm o hf =>
    simp only [Instr.exec, State.set_cp0]
    exact hne (by rw [hf]; cases o <;> decide)
  | lui hf | jal hf | j hf | cache hf | mflo hf | mfhi hf | mtlo hf | mthi hf | mult hf
  | jalr hf | jr hf =>
    simp only [Instr.exec, State.set_cp0]
    exact hne (by rw [hf]; decide)
  | branch hf =>
    simp only [List.mem_cons, List.not_mem_nil, or_false] at hf
    refine hne ?_
    rcases hf with hf | hf | hf | hf | hf | hf <;> rw [hf] <;> decide
  | mfc0 hf hs hl =>
    simp only [Instr.exec, State.set_cp0]
    exact hplain (by rw [isMtc0, hb, hf, hs, hl]; decide)
  | mtc0 hf hs hl =>
    have hm : isMtc0 w = true := by rw [isMtc0, hb, hf, hs, hl]; decide
    have he : isEret w = false := by rw [isEret, hf, hl]; decide
    simp only [Cpu.executedCp0, hm, he]
    rfl

end Effect

/-! ## A whole instruction -/

namespace Machine

variable {m f d e a : Machine}

/-- From its `InsD` edge a register instruction takes three cycles. -/
theorem run_plain (hr : Reachable m) (hin : InInstr m f) (hs : f.state = .insD)
    (hmem : isMem (first f.instr) = false) (hu : (aluOps (first f.instr) (last f.instr)).2 = false)
    (hsys : isSyscall f.instr = false) (h1 : Step f d) (h2 : Step d e) (h3 : Step e a) :
    (d.cpu.oldState = .insD ∧ d.state = .exe) ∧ (e.cpu.oldState = .exe ∧ e.state = .writeB) ∧
      InInstr m a ∧ a.cpu.oldState = .writeB ∧ a.word = f.instr := by
  have hcf := (hin.reachable hr).control
  obtain ⟨qd, hd, -, -⟩ := step_cases h1
  obtain ⟨qe, he, -, -⟩ := step_cases h2
  obtain ⟨qa, ha, -, -⟩ := step_cases h3
  have hof : f.cpu.oldState = .insF := by
    rcases hcf.inFlight_cases (by rw [hs]; rfl) with ⟨-, ho⟩ | ⟨hn, -⟩
    · exact ho
    · exact absurd hs hn
  -- `InsD` latches the word and raises nothing
  have hsf : f.cpu.state f.phy = .insD := hs
  have hod : d.cpu.oldState = .insD := by rw [hd]; exact hsf
  have hwd : d.cpu.id.insReg = f.instr := by
    rw [hd, Cpu.cycle_id, hsf]
    rfl
  have hind : InInstr m d := .next hin (by simp [hs]) (by simp [hof]) h1
  have hcd := (hind.reachable hr).control
  have hld := (hcd.latched (by rw [hod]; rfl)).1
  have hraise : d.cpu.id.raised = 0#2 := by
    rw [IDecode.raised, hld.insUndef, hwd, hu, hsys]
    rfl
  obtain ⟨-, hsd⟩ := hcd.state_quiet (by rw [hod]; rfl) (fun _ => hraise) (by simp [hod])
  have hsd' : d.state = .exe := by rw [hsd, hod]; rfl
  -- `Exe`, then `WriteB`
  have hoe : e.cpu.oldState = .exe := by rw [he]; exact hsd'
  have hwe : e.cpu.id.insReg = f.instr := (insReg_cycle he (by simp [hsd'])).trans hwd
  have hine : InInstr m e := .next hind (by simp [hsd']) (by simp [hod]) h2
  have hce := (hine.reachable hr).control
  have hmem1 : e.cpu.hasMem1 = false := by
    rw [(hce.latched (by rw [hoe]; rfl)).2.1, hwe, hmem]
  obtain ⟨-, hse⟩ := hce.state_quiet (by rw [hoe]; rfl) (by simp [hoe]) (by simp [hoe])
  have hse' : e.state = .writeB := by rw [hse, hoe]; simp [Cpu.succ, hmem1]
  refine ⟨⟨hod, hsd'⟩, ⟨hoe, hse'⟩, .next hine (by simp [hse']) (by simp [hoe]) h3, ?_, ?_⟩
  · rw [ha]
    exact hse'
  · exact (insReg_cycle ha (by simp [hse'])).trans hwe

theorem archRegs_zero (hc : Control a) : a.cpu.archRegs 0#5 = 0#32 := by
  unfold Cpu.archRegs GeneralRegister.written
  split_ifs with h
  · rw [Function.update_of_ne (Ne.symm (hc.write h).2), hc.zero]
  · exact hc.zero

end Machine

namespace Board

variable {I : Image} {b f a : Board} {i : Instr}

/-- The registers after a register instruction. -/
theorem archRegs_eq (hb : Reachable I b) (hin : InInstr I b f) (hs : f.machine.state = .insD)
    (hd : Decodes f.machine.instr i) (x y z : Exts) :
    (((f.cycle I x).cycle I y).cycle I z).cpu.archRegs = (i.exec b.cpu.pcToMmu b.cpu.isa).reg := by
  obtain ⟨hmem, -, -, hsys, hu⟩ := Decodes.plain hd
  have hrm := hb.inv.2
  have hf := hin.reachable hb
  obtain ⟨-, -, hina, hoa, hwa⟩ := Machine.run_plain hrm (hin.machine hb) hs hmem hu hsys
    (hf.step x) ((hf.cycle x).step y) (((hf.cycle x).cycle y).step z)
  have hflight := hina.flight hrm
  simp only [Machine.Flight, hoa] at hflight
  obtain ⟨-, -, data, hwritten⟩ := hflight
  have hins : (((f.cycle I x).cycle I y).cycle I z).machine.cpu.id.insReg = f.machine.instr := hwa
  refine hwritten.regs.trans ?_
  rw [hins]
  exact Decodes.reg _ _ hd

/-- A register instruction of the table, fetched at the edge of `b` and standing before its `InsD`
edge in `f`, completes in three cycles and has exactly the effect of its `Operation` line; `Count`
and the low bits of a branch target are left open. -/
theorem register_instruction (hb : Reachable I b) (hin : InInstr I b f)
    (hs : f.machine.state = .insD) (hd : Decodes f.machine.instr i) (x y z : Exts)
    (ha : a = ((f.cycle I x).cycle I y).cycle I z) :
    a.cpu.oldState = .writeB ∧
    a.cpu.archRegs = (i.exec b.cpu.pcToMmu b.cpu.isa).reg ∧
    a.cpu.archRegs 0#5 = 0#32 ∧
    a.cpu.alu.hiLo = (i.exec b.cpu.pcToMmu b.cpu.isa).hi ++ (i.exec b.cpu.pcToMmu b.cpu.isa).lo ∧
    (∀ j, j ≠ CP0.count → a.cpu.cp0.reg j = (i.exec b.cpu.pcToMmu b.cpu.isa).cp0 j) ∧
    a.cpu.mmu.tlbMem = b.cpu.mmu.tlbMem ∧ a.phys.cells = b.phys.cells ∧
    a.cpu.pcToMmu.extractLsb 31 2 = (nextPc f.machine.instr b.cpu.pcToMmu
      (b.cpu.rsVal f.machine.instr) (b.cpu.rtVal f.machine.instr) a.cpu.epc).extractLsb 31 2 := by
  subst ha
  obtain ⟨hmem, htlb, -, hsys, hu⟩ := Decodes.plain hd
  have hrm := hb.inv.2
  have hf := hin.reachable hb
  obtain ⟨⟨hod, hsd⟩, ⟨hoe, hse⟩, hina, hoa, hwa⟩ := Machine.run_plain hrm (hin.machine hb) hs hmem
    hu hsys (hf.step x) ((hf.cycle x).step y) (((hf.cycle x).cycle y).step z)
  have hpc := hina.pcToMmu_high hrm hoa
  have hzero := Machine.archRegs_zero (hina.reachable hrm).control
  have hflight := hina.flight hrm
  simp only [Machine.Flight, hoa] at hflight
  obtain ⟨-, hafter, -⟩ := hflight
  -- the board stands before `WriteB` with nothing written, and `WriteB` writes nothing
  have hof : f.cpu.oldState ≠ .writeB := by
    intro ho
    rcases hf.inv.2.control.inFlight_cases (by rw [hs]; rfl) with ⟨-, ho'⟩ | ⟨hn, -⟩
    · exact absurd (ho.symm.trans ho') (by decide)
    · exact hn hs
  have hine : InInstr I b ((f.cycle I x).cycle I y) :=
    .next y (.next x hin (by simp [hs]) hof) (by simp [hsd])
      (fun h => absurd (hod.symm.trans h) (by decide))
  have hcells : Unwritten b (((f.cycle I x).cycle I y).cycle I z) := by
    rcases hine.unwritten hb with hu | hu | hu
    · exact hu.plain (by rw [hse]; rfl) z
    · rcases hu.stage with ⟨h, -⟩ | h <;> exact absurd (hoe.symm.trans h) (by decide)
    · exact absurd (hoe.symm.trans hu) (by decide)
  rw [hwa] at hpc
  have hins : (((f.cycle I x).cycle I y).cycle I z).machine.cpu.id.insReg = f.machine.instr := hwa
  refine ⟨hoa, archRegs_eq hb hin hs hd x y z, hzero, ?_, ?_, ?_, hcells.cells, hpc⟩
  · refine (congrArg Alu.hiLo hafter.alu).trans ?_
    rw [hins]
    exact Decodes.hiLo _ hd
  · intro j hj
    refine (hafter.cp0 j hj).trans ?_
    rw [hins]
    exact congrFun (Decodes.cp0 _ hd) j
  · refine hafter.tlb.trans ?_
    rw [hins, Cpu.executedTlb, htlb]
    rfl

theorem register_instruction_addiu :
    (((atReset.run (romOf [0x24010001#32]) 1).cycle (romOf [0x24010001#32]) still).cycle
      (romOf [0x24010001#32]) still |>.cycle (romOf [0x24010001#32]) still).cpu.archRegs 1#5 =
      1#32 := by
  have hf : InInstr (romOf [0x24010001#32]) atReset (atReset.run (romOf [0x24010001#32]) 1) :=
    .fetch still ⟨rfl, rfl⟩
  have hw : (atReset.run (romOf [0x24010001#32]) 1).machine.instr = 0x24010001#32 := by
    decide +kernel
  have hd : Decodes (atReset.run (romOf [0x24010001#32]) 1).machine.instr
      (.opImm .addiu 1#5 0#5 1#16) := by
    rw [hw]
    exact .opImm .addiu rfl
  have h := register_instruction (atReset_reachable _) hf (by decide +kernel) hd still still still
    rfl
  rw [h.2.1]
  decide

end Board

end CacheCPU
