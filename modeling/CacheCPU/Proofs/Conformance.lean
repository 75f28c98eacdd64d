import CacheCPU.Proofs.Isa

/-!
# Where the instruction set parts from standard MIPS

The variable shifts hand all 32 bits of `$s` to the shifter, and `sltiu` is decoded with the
logical operations and so gets a zero-extended immediate. Standard MIPS takes the low five bits of
`$s` and sign-extends. The two agree on small amounts and immediates, and on the few operands
where a longer shift or a smaller bound makes no difference.
-/

namespace CacheCPU

namespace Isa

/-! ## The standard -/

/-- The operation of `op $d, $s, $t` in standard MIPS. -/
def Op3.standard (o : Op3) (s t : BitVec 32) : BitVec 32 :=
  match o with
  | sllv => t <<< (s.extractLsb 4 0).toNat
  | srav => t.sshiftRight (s.extractLsb 4 0).toNat
  | srlv => t >>> (s.extractLsb 4 0).toNat
  | o => o.eval s t

/-- The operation of `op $t, $s, imm` in standard MIPS. -/
def OpImm.standard (o : OpImm) (s : BitVec 32) (imm : BitVec 16) : BitVec 32 :=
  match o with
  | sltiu => if s.toNat < (imm.signExtend 32).toNat then 1#32 else 0#32
  | o => o.eval s imm

/-- The registers after an instruction in standard MIPS. -/
def Instr.standard (i : Instr) (pc : BitVec 32) (s : State) : State :=
  match i with
  | op3 o d rs rt => s.set d (o.standard (s.reg rs) (s.reg rt))
  | opImm o t rs imm => s.set t (o.standard (s.reg rs) imm)
  | i => i.exec pc s

/-! ## The operands on which the two agree -/

/-- A shift by all of `s` and one by its low five bits come to the same. -/
def Op3.Conforms (o : Op3) (s t : BitVec 32) : Prop :=
  match o with
  | sllv => s.toNat < 32 ∨ 2 ^ (32 - s.toNat % 32) ∣ t.toNat
  | srav => s.toNat < 32 ∨ -2 ^ (s.toNat % 32) ≤ t.toInt ∧ t.toInt < 2 ^ (s.toNat % 32)
  | srlv => s.toNat < 32 ∨ t.toNat < 2 ^ (s.toNat % 32)
  | _ => True

/-- The comparison does not depend on how the immediate is extended. -/
def OpImm.Conforms (o : OpImm) (s : BitVec 32) (imm : BitVec 16) : Prop :=
  match o with
  | sltiu => imm.toNat < 2 ^ 15 ∨ s.toNat < imm.toNat ∨ 2 ^ 32 - 2 ^ 16 + imm.toNat ≤ s.toNat
  | _ => True

def Instr.Conforms (i : Instr) (s : State) : Prop :=
  match i with
  | op3 o d rs rt => d = 0#5 ∨ o.Conforms (s.reg rs) (s.reg rt)
  | opImm o t rs imm => t = 0#5 ∨ o.Conforms (s.reg rs) imm
  | _ => True

theorem toNat_low_five (s : BitVec 32) : (s.extractLsb 4 0).toNat = s.toNat % 32 := by
  simp

section Shifts

variable {t : BitVec 32} {k n : ℕ}

theorem shiftLeft_eq_zero_iff (hk : k < 32) : t <<< k = 0#32 ↔ 2 ^ (32 - k) ∣ t.toNat := by
  have hpow : 2 ^ 32 = 2 ^ (32 - k) * 2 ^ k := by
    rw [← pow_add, Nat.sub_add_cancel (by omega)]
  rw [← BitVec.toNat_inj, BitVec.toNat_shiftLeft, Nat.shiftLeft_eq, BitVec.toNat_zero, hpow,
    ← Nat.dvd_iff_mod_eq_zero]
  exact Nat.mul_dvd_mul_iff_right (by positivity)

theorem ushiftRight_eq_zero_iff : t >>> k = 0#32 ↔ t.toNat < 2 ^ k := by
  rw [← BitVec.toNat_inj, BitVec.toNat_ushiftRight, Nat.shiftRight_eq_div_pow, BitVec.toNat_zero,
    Nat.div_eq_zero_iff]
  simp

/-- A quotient that is only the sign. -/
theorem ediv_eq_sign_iff {a p : ℤ} (hp : 0 < p) :
    a / p = (if a < 0 then -1 else 0) ↔ -p ≤ a ∧ a < p := by
  have hdiv := Int.mul_ediv_add_emod a p
  have hnn := Int.emod_nonneg a hp.ne'
  have hlt := Int.emod_lt_of_pos a hp
  split_ifs with h
  · constructor
    · intro hq
      rw [hq] at hdiv
      omega
    · intro hb
      have hr : a + p + p * -1 = a := by omega
      exact ((Int.ediv_emod_unique hp).2 ⟨hr, by omega, by omega⟩).1
  · constructor
    · intro hq
      rw [hq] at hdiv
      omega
    · intro hb
      exact Int.ediv_eq_zero_of_lt (by omega) hb.2

theorem sshiftRight_eq_iff (hn : 32 ≤ n) :
    t.sshiftRight n = t.sshiftRight k ↔ -2 ^ k ≤ t.toInt ∧ t.toInt < 2 ^ k := by
  have hle : (2 : ℤ) ^ 31 ≤ 2 ^ n := pow_le_pow_right₀ (by norm_num) (by omega)
  have hlo := BitVec.le_two_mul_toInt (x := t)
  have hhi := BitVec.two_mul_toInt_lt (x := t)
  -- shifting out everything leaves the sign
  have hsign : t.toInt / 2 ^ n = if t.toInt < 0 then -1 else 0 :=
    (ediv_eq_sign_iff (by positivity)).2 (by omega)
  rw [← BitVec.toInt_inj, BitVec.toInt_sshiftRight, BitVec.toInt_sshiftRight,
    Int.shiftRight_eq_div_pow, Int.shiftRight_eq_div_pow]
  push_cast
  rw [hsign, eq_comm]
  exact ediv_eq_sign_iff (by positivity)

end Shifts

theorem Op3.eval_eq_standard_iff (o : Op3) (s t : BitVec 32) :
    o.eval s t = o.standard s t ↔ o.Conforms s t := by
  have hmod : s.toNat % 32 < 32 := Nat.mod_lt _ (by decide)
  cases o
  case sllv =>
    simp only [eval, standard, Conforms, toNat_low_five]
    by_cases h : s.toNat < 32
    · simp [h, Nat.mod_eq_of_lt h]
    · rw [BitVec.shiftLeft_eq_zero (by omega), eq_comm, shiftLeft_eq_zero_iff hmod]
      simp [h]
  case srav =>
    simp only [eval, standard, Conforms, toNat_low_five]
    by_cases h : s.toNat < 32
    · simp [h, Nat.mod_eq_of_lt h]
    · rw [sshiftRight_eq_iff (by omega)]
      simp [h]
  case srlv =>
    simp only [eval, standard, Conforms, toNat_low_five]
    by_cases h : s.toNat < 32
    · simp [h, Nat.mod_eq_of_lt h]
    · rw [BitVec.ushiftRight_eq_zero (by omega), eq_comm, ushiftRight_eq_zero_iff]
      simp [h]
  all_goals exact iff_of_true rfl trivial

theorem toNat_signExtend_imm (imm : BitVec 16) :
    (imm.signExtend 32).toNat = if imm.toNat < 2 ^ 15 then imm.toNat
      else 2 ^ 32 - 2 ^ 16 + imm.toNat := by
  have hm : imm.msb = decide (2 ^ 15 ≤ imm.toNat) := BitVec.msb_eq_decide imm
  rw [BitVec.toNat_signExtend, hm, BitVec.toNat_setWidth_of_le (by decide)]
  by_cases h : imm.toNat < 2 ^ 15
  · rw [decide_eq_false (by omega), if_neg (by decide), if_pos h]
    omega
  · rw [decide_eq_true (by omega), if_pos rfl, if_neg h]
    omega

theorem OpImm.eval_eq_standard_iff (o : OpImm) (s : BitVec 32) (imm : BitVec 16) :
    o.eval s imm = o.standard s imm ↔ o.Conforms s imm := by
  have hone : (1#32 : BitVec 32) ≠ 0#32 := by decide
  cases o
  case sltiu =>
    have himm := imm.isLt
    simp only [eval, standard, Conforms, toNat_signExtend_imm]
    split_ifs <;> simp [hone] <;> omega
  all_goals exact iff_of_true rfl trivial

theorem State.reg_set_inj {s : State} {d : BitVec 5} {v v' : BitVec 32} :
    (s.set d v).reg = (s.set d v').reg ↔ d = 0#5 ∨ v = v' := by
  unfold State.set
  split_ifs with h
  · simp [h]
  · constructor
    · intro he
      exact .inr (by simpa using congrFun he d)
    · rintro (h' | rfl)
      · exact absurd h' h
      · rfl

theorem Instr.exec_eq_standard_iff (i : Instr) (pc : BitVec 32) (s : State) :
    (i.exec pc s).reg = (i.standard pc s).reg ↔ i.Conforms s := by
  cases i
  case op3 o d rs rt =>
    exact State.reg_set_inj.trans (or_congr_right (o.eval_eq_standard_iff _ _))
  case opImm o d rs imm =>
    exact State.reg_set_inj.trans (or_congr_right (o.eval_eq_standard_iff _ _))
  all_goals exact iff_of_true rfl trivial

end Isa

namespace Board

open Isa

variable {I : Image} {b f : Board} {i : Instr}

/-- A register instruction leaves the registers of standard MIPS for exactly the operands on which
the two instruction sets agree. -/
theorem standard_iff (hb : Reachable I b) (hin : InInstr I b f) (hs : f.machine.state = .insD)
    (hd : Decodes f.machine.instr i) (x y z : Exts) :
    (((f.cycle I x).cycle I y).cycle I z).cpu.archRegs =
      (i.standard b.cpu.pcToMmu b.cpu.isa).reg ↔ i.Conforms b.cpu.isa := by
  rw [archRegs_eq hb hin hs hd x y z]
  exact i.exec_eq_standard_iff _ _

/-- `addiu $1, $0, 1` and `sllv $2, $1, $1`. -/
theorem standard_iff_sllv :
    ((atReset.run (romOf [0x24010001#32, 0x00211004#32]) 8).cpu.archRegs 2#5) = 2#32 := by
  have hf : InInstr (romOf [0x24010001#32, 0x00211004#32])
      (atReset.run (romOf [0x24010001#32, 0x00211004#32]) 4)
      (atReset.run (romOf [0x24010001#32, 0x00211004#32]) 5) :=
    .fetch still ⟨by decide +kernel, by decide +kernel⟩
  have hw : (atReset.run (romOf [0x24010001#32, 0x00211004#32]) 5).machine.instr =
      0x00211004#32 := by
    decide +kernel
  have hd : Decodes (atReset.run (romOf [0x24010001#32, 0x00211004#32]) 5).machine.instr
      (.op3 .sllv 2#5 1#5 1#5) := by
    rw [hw]
    exact .op3 .sllv rfl rfl
  have h := (standard_iff ((atReset_reachable _).run 4) hf (by decide +kernel) hd still still
    still).2 (.inr (.inl (by decide +kernel)))
  refine (congrFun h 2#5).trans ?_
  decide +kernel

/-- `addiu $1, $0, 32`, `addiu $2, $0, 1` and `sllv $3, $2, $1`: the standard shifts by 0. -/
theorem not_standard_sllv : ∃ I b, Reachable I b ∧ (b.cycle I still).machine.instr = 0x00221804#32 ∧
    Decodes 0x00221804#32 (.op3 .sllv 3#5 1#5 2#5) ∧
    b.cpu.isa.reg 1#5 = 32#32 ∧ b.cpu.isa.reg 2#5 = 1#32 ∧ (b.run I 4).cpu.archRegs 3#5 = 0#32 ∧
    (b.run I 4).cpu.archRegs ≠
      ((Instr.op3 .sllv 3#5 1#5 2#5).standard b.cpu.pcToMmu b.cpu.isa).reg := by
  refine ⟨romOf [0x24010020#32, 0x24020001#32, 0x00221804#32],
    atReset.run (romOf [0x24010020#32, 0x24020001#32, 0x00221804#32]) 8,
    (atReset_reachable _).run 8, by decide +kernel, .op3 .sllv rfl rfl, by decide +kernel,
    by decide +kernel, by decide +kernel, fun h => ?_⟩
  have h3 := congrFun h 3#5
  revert h3
  decide +kernel

end Board

end CacheCPU
