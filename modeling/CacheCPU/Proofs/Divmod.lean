import CacheCPU.Ucore.Divmod
import Mathlib.Tactic.SplitIfs
import Mathlib.Algebra.Order.Ring.Int

/-!
# Division without a divider

Both loops divide the first bits of the dividend, one bit more in each round: the partial remainder
stays below the divisor, and compares as a signed number as long as it stays below 2 ^ 31. It does
not in the last round of dividing -2 ^ 31 by a divisor of more than 2 ^ 30, and the divisor -2 ^ 31
has no magnitude to compare with. The two loops agree everywhere.
-/

namespace CacheCPU

namespace Ucore

/-! ## One bit more -/

section Bit

variable {n d k : ℕ}

theorem div_two_pow_succ (n k : ℕ) :
    n / 2 ^ k = 2 * (n / 2 ^ (k + 1)) + n / 2 ^ k % 2 := by
  rw [Nat.pow_succ, ← Nat.div_div_eq_div_mul]
  omega

/-- The next bit of the dividend behind the partial remainder. -/
theorem div_mod_bit (hd : 0 < d) :
    let r := 2 * (n / 2 ^ (k + 1) % d) + n / 2 ^ k % 2
    n / 2 ^ k / d = 2 * (n / 2 ^ (k + 1) / d) + (if d ≤ r then 1 else 0) ∧
      n / 2 ^ k % d = if d ≤ r then r - d else r := by
  intro r
  have hm : n / 2 ^ k = d * (2 * (n / 2 ^ (k + 1) / d)) + r := by
    have h1 := div_two_pow_succ n k
    have h2 := Nat.div_add_mod (n / 2 ^ (k + 1)) d
    calc n / 2 ^ k = 2 * (d * (n / 2 ^ (k + 1) / d) + n / 2 ^ (k + 1) % d) + n / 2 ^ k % 2 := by
          rw [h2]
          exact h1
      _ = d * (2 * (n / 2 ^ (k + 1) / d)) + r := by
          rw [Nat.mul_left_comm]
          omega
  have hr : r < 2 * d := by
    have := Nat.mod_lt (n / 2 ^ (k + 1)) hd
    omega
  rw [hm]
  split_ifs with hle
  · rw [show d * (2 * (n / 2 ^ (k + 1) / d)) + r =
      (r - d) + d * (2 * (n / 2 ^ (k + 1) / d) + 1) by rw [Nat.mul_add]; omega]
    rw [Nat.add_mul_div_left _ _ hd, Nat.add_mul_mod_self_left, Nat.div_eq_of_lt (by omega),
      Nat.mod_eq_of_lt (by omega)]
    exact ⟨by omega, rfl⟩
  · rw [Nat.add_comm, Nat.add_mul_div_left _ _ hd, Nat.add_mul_mod_self_left,
      Nat.div_eq_of_lt (by omega), Nat.mod_eq_of_lt (by omega)]
    exact ⟨by omega, rfl⟩

end Bit

/-! ## A round -/

section Round

variable {a b r q : BitVec 32}

theorem toNat_bit (a : BitVec 32) (i : ℕ) (h : i < 32) :
    (a.sshiftRight i &&& 1#32).toNat = a.toNat / 2 ^ i % 2 := by
  rw [BitVec.toNat_and]
  change _ &&& 1 = _
  rw [Nat.and_one_is_mod]
  have hbit : (a.sshiftRight i).getLsbD 0 = a.getLsbD i := by
    rw [BitVec.getLsbD_sshiftRight]
    simp [h]
  simp only [BitVec.getLsbD, Nat.testBit_eq_decide_div_mod_eq, Nat.pow_zero, Nat.div_one,
    decide_eq_decide] at hbit
  omega

/-- The partial remainder with its next bit. -/
theorem toNat_shift_or (hr : r.toNat < 2 ^ 31) (x : BitVec 32) (hx : x.toNat < 2) :
    (r <<< 1 ||| x).toNat = 2 * r.toNat + x.toNat := by
  rw [BitVec.toNat_or, BitVec.toNat_shiftLeft, Nat.shiftLeft_eq, Nat.mod_eq_of_lt (by omega),
    Nat.mul_comm]
  exact (Nat.two_pow_add_eq_or_of_lt (i := 1) hx r.toNat).symm

/-- Numbers below 2 ^ 31 compare as natural numbers. -/
theorem sle_iff_of_lt (hb : b.toNat < 2 ^ 31) (hr : r.toNat < 2 ^ 31) :
    b.sle r = true ↔ b.toNat ≤ r.toNat := by
  rw [BitVec.sle_iff_toInt_le, BitVec.toInt_eq_toNat_of_lt (by omega),
    BitVec.toInt_eq_toNat_of_lt (by omega)]
  omega

end Round

/-! ## The loops -/

section Loops

variable {a b : BitVec 32}

/-- The bit that a round reads. -/
theorem bit_shiftLeft (a : BitVec 32) {j : ℕ} (h : j ≤ 31) :
    (a <<< j).sshiftRight 31 &&& 1#32 = a.sshiftRight (31 - j) &&& 1#32 := by
  ext m hm
  by_cases h0 : m = 0
  · subst h0
    have hj : ¬ 31 < j := by omega
    have hlt : 31 - j < 32 := by omega
    simp [BitVec.getElem_sshiftRight, hj, hlt]
  · simp [BitVec.getElem_one, h0]

/-- A round, with the bit of the dividend that it reads. -/
theorem round_eq (a b r q : BitVec 32) {k : ℕ} (hk : k < 32) :
    Divider.round b ⟨a <<< (31 - k), r, q⟩ =
      if b.sle (r <<< 1 ||| a.sshiftRight k &&& 1#32) then
        ⟨a <<< (32 - k), (r <<< 1 ||| a.sshiftRight k &&& 1#32) - b, q <<< 1 ||| 1#32⟩
      else ⟨a <<< (32 - k), r <<< 1 ||| a.sshiftRight k &&& 1#32, q <<< 1⟩ := by
  have hshift : a <<< (31 - k) <<< 1 = a <<< (32 - k) := by
    rw [← BitVec.shiftLeft_add]
    congr 1
    omega
  rw [Divider.round, hshift, bit_shiftLeft a (by omega), show 31 - (31 - k) = k by omega]

/-- `_Div` and `_Rem` run the loop of `divmod`. -/
theorem loop_eq (a b : BitVec 32) : ∀ {k : ℕ}, k ≤ 32 → ∀ r q : BitVec 32,
    Intrinsic.loop a b k (q <<< k, r) =
      (((Divider.round b)^[k] ⟨a <<< (32 - k), r, q⟩).q,
        ((Divider.round b)^[k] ⟨a <<< (32 - k), r, q⟩).r)
  | 0, _, r, q => by simp [Intrinsic.loop]
  | k + 1, hk, r, q => by
    have hq : q <<< (k + 1) = q <<< 1 <<< k := by
      rw [← BitVec.shiftLeft_add, Nat.add_comm]
    rw [Intrinsic.loop, Function.iterate_succ_apply, show 32 - (k + 1) = 31 - k by omega,
      round_eq a b r q (by omega), hq]
    split_ifs with hle
    · rw [← loop_eq a b (by omega), BitVec.shiftLeft_or_distrib]
    · rw [← loop_eq a b (by omega)]

/-- `k` rounds with the first `32 - k` bits of the dividend divided. -/
theorem rounds_spec (hb : 0 < b.toNat) (hb' : b.toNat < 2 ^ 31) (ha : a.toNat ≤ 2 ^ 31)
    (hc : a.toNat < 2 ^ 31 ∨ b.toNat ≤ 2 ^ 30) : ∀ {k : ℕ}, k ≤ 32 → ∀ r q : BitVec 32,
    r.toNat = a.toNat / 2 ^ k % b.toNat → q.toNat = a.toNat / 2 ^ k / b.toNat →
      ((Divider.round b)^[k] ⟨a <<< (32 - k), r, q⟩).q.toNat = a.toNat / b.toNat ∧
        ((Divider.round b)^[k] ⟨a <<< (32 - k), r, q⟩).r.toNat = a.toNat % b.toNat
  | 0, _, r, q, hr, hq => by
    rw [Nat.pow_zero, Nat.div_one] at hr hq
    exact ⟨hq, hr⟩
  | k + 1, hk, r, q, hr, hq => by
    have hrlt : r.toNat < b.toNat := by
      rw [hr]
      exact Nat.mod_lt _ hb
    have hbit := toNat_bit a k (by omega)
    have hr1 := toNat_shift_or (r := r) (by omega) (a.sshiftRight k &&& 1#32)
      (by rw [hbit]; omega)
    have hr1lt : (r <<< 1 ||| a.sshiftRight k &&& 1#32).toNat < 2 ^ 31 := by
      have hsplit := div_two_pow_succ a.toNat k
      have hrle : r.toNat ≤ a.toNat / 2 ^ (k + 1) := by
        rw [hr]
        exact Nat.mod_le _ _
      have hle : a.toNat / 2 ^ k ≤ a.toNat := Nat.div_le_self _ _
      rcases hc with hc | hc <;> omega
    have hq1 : (q <<< 1).toNat = 2 * (a.toNat / 2 ^ (k + 1) / b.toNat) := by
      have hle := (Nat.div_le_self (a.toNat / 2 ^ (k + 1)) b.toNat)
      have hsplit := div_two_pow_succ a.toNat k
      have hle' : a.toNat / 2 ^ k ≤ a.toNat := Nat.div_le_self _ _
      rw [BitVec.toNat_shiftLeft, Nat.shiftLeft_eq, hq, Nat.mod_eq_of_lt (by omega), Nat.mul_comm]
    obtain ⟨hdiv, hmod⟩ := div_mod_bit (n := a.toNat) (k := k) hb
    rw [hbit, hr] at hr1
    rw [← hr1] at hdiv hmod
    rw [Function.iterate_succ_apply, show 32 - (k + 1) = 31 - k by omega,
      round_eq a b r q (by omega)]
    split_ifs with hle
    · rw [sle_iff_of_lt hb' hr1lt] at hle
      rw [if_pos hle] at hdiv hmod
      refine rounds_spec hb hb' ha hc (by omega) _ _ ?_ ?_
      · rw [hmod, BitVec.toNat_sub_of_le (BitVec.le_def.2 hle)]
      · rw [toNat_shift_or (by omega) 1#32 (by decide), hdiv, hq]
        rfl
    · rw [sle_iff_of_lt hb' hr1lt] at hle
      rw [if_neg hle] at hdiv hmod
      exact rounds_spec hb hb' ha hc (by omega) _ _ hmod.symm (hq1.trans hdiv.symm)

end Loops

/-! ## `divmod` -/

section Divmod

variable {a b : BitVec 32}

theorem magnitude_eq (x : BitVec 32) :
    Intrinsic.magnitude x = if x.slt 0#32 then -x else x := by
  unfold Intrinsic.magnitude
  rw [BitVec.slt_eq_decide, BitVec.slt_eq_decide, BitVec.toInt_zero]
  rcases Int.lt_trichotomy x.toInt 0 with h | h | h
  · rw [if_neg (by simp; omega), if_pos (by simp; omega)]
  · rw [if_neg (by simp; omega), if_neg (by simp; omega), BitVec.eq_of_toInt_eq (h.trans BitVec.toInt_zero.symm)]
    rfl
  · rw [if_pos (by simp; omega), if_neg (by simp; omega)]

theorem toNat_magnitude (x : BitVec 32) : (Intrinsic.magnitude x).toNat = x.toInt.natAbs := by
  have hx := x.isLt
  rw [magnitude_eq, BitVec.slt_zero_eq_msb, BitVec.msb_eq_decide, BitVec.toInt_eq_toNat_cond]
  split_ifs with h1 h2 h2
  · simp at h1
    omega
  · rw [BitVec.toNat_neg, Nat.mod_eq_of_lt (by omega)]
    omega
  · omega
  · simp at h1
    omega

/-- The rounds that both functions make. -/
def divided (a b : BitVec 32) : Divider :=
  (Divider.round (Intrinsic.magnitude b))^[32] ⟨Intrinsic.magnitude a, 0#32, 0#32⟩

theorem divmod_eq (hb : b ≠ 0#32) : divmod a b =
    some (if a.slt 0#32 ^^ b.slt 0#32 then -(divided a b).q else (divided a b).q,
      if a.slt 0#32 then -(divided a b).r else (divided a b).r) := by
  unfold divmod divided
  rw [if_neg hb, magnitude_eq, magnitude_eq]

theorem loop_divided (a b : BitVec 32) :
    Intrinsic.loop (Intrinsic.magnitude a) (Intrinsic.magnitude b) 32 (0#32, 0#32) =
      ((divided a b).q, (divided a b).r) := by
  have h := loop_eq (Intrinsic.magnitude a) (Intrinsic.magnitude b) (Nat.le_refl 32) 0#32 0#32
  rw [BitVec.zero_shiftLeft, Nat.sub_self, BitVec.shiftLeft_zero] at h
  exact h

theorem natAbs_toInt_le (x : BitVec 32) : x.toInt.natAbs ≤ 2 ^ 31 := by
  have := BitVec.toInt_lt (x := x)
  have := BitVec.le_toInt x
  omega

/-- The operands that the loop can deal with. -/
def Divisible (a b : BitVec 32) : Prop :=
  b ≠ intMin ∧ (a = intMin → b.toInt.natAbs ≤ 2 ^ 30)

theorem natAbs_eq_iff (x : BitVec 32) : x.toInt.natAbs = 2 ^ 31 ↔ x = intMin := by
  constructor
  · intro h
    have := BitVec.toInt_lt (x := x)
    refine BitVec.toInt_inj.1 ?_
    change x.toInt = -2147483648
    omega
  · rintro rfl
    rfl

theorem divided_spec (hb : b ≠ 0#32) (h : Divisible a b) :
    (divided a b).q.toNat = a.toInt.natAbs / b.toInt.natAbs ∧
      (divided a b).r.toNat = a.toInt.natAbs % b.toInt.natAbs := by
  have hb0 : b.toInt.natAbs ≠ 0 := by
    intro h0
    exact hb (BitVec.eq_of_toInt_eq ((Int.natAbs_eq_zero.1 h0).trans BitVec.toInt_zero.symm))
  have ha := natAbs_toInt_le a
  have hb1 := natAbs_toInt_le b
  have hb2 := mt (natAbs_eq_iff b).1 h.1
  have hc : a.toInt.natAbs < 2 ^ 31 ∨ b.toInt.natAbs ≤ 2 ^ 30 := by
    by_cases hm : a = intMin
    · exact .inr (h.2 hm)
    · have := mt (natAbs_eq_iff a).1 hm
      exact .inl (by omega)
  have hs := rounds_spec (a := Intrinsic.magnitude a) (b := Intrinsic.magnitude b)
    (by rw [toNat_magnitude]; omega) (by rw [toNat_magnitude]; omega)
    (by rw [toNat_magnitude]; exact ha) (by rw [toNat_magnitude, toNat_magnitude]; exact hc)
    (Nat.le_refl 32) 0#32 0#32
  rw [toNat_magnitude, toNat_magnitude, Nat.sub_self, BitVec.shiftLeft_zero,
    Nat.div_eq_of_lt (by omega : a.toInt.natAbs < 2 ^ 32), Nat.zero_mod, Nat.zero_div] at hs
  exact hs rfl rfl

theorem slt_zero_iff (x : BitVec 32) : x.slt 0#32 = true ↔ x.toInt < 0 := by
  rw [BitVec.slt_iff_toInt_lt, BitVec.toInt_zero]

/-- The quotient and the remainder from those of the magnitudes. -/
theorem ofInt_tdiv_tmod (a b : BitVec 32) :
    BitVec.ofInt 32 (a.toInt.tdiv b.toInt) =
        (if a.slt 0#32 ^^ b.slt 0#32 then -BitVec.ofNat 32 (a.toInt.natAbs / b.toInt.natAbs)
          else BitVec.ofNat 32 (a.toInt.natAbs / b.toInt.natAbs)) ∧
      BitVec.ofInt 32 (a.toInt.tmod b.toInt) =
        if a.slt 0#32 then -BitVec.ofNat 32 (a.toInt.natAbs % b.toInt.natAbs)
        else BitVec.ofNat 32 (a.toInt.natAbs % b.toInt.natAbs) := by
  have hsign : ∀ x : BitVec 32, ∃ n : ℕ, x.toInt.natAbs = n ∧
      ((x.slt 0#32 = true ∧ x.toInt = -(n : ℤ)) ∨ (x.slt 0#32 = false ∧ x.toInt = n)) := by
    intro x
    refine ⟨_, rfl, ?_⟩
    by_cases hx : x.toInt < 0
    · exact .inl ⟨(slt_zero_iff x).2 hx, by omega⟩
    · exact .inr ⟨Bool.eq_false_iff.2 (mt (slt_zero_iff x).1 hx), by omega⟩
  have hdiv : ∀ m n : ℕ, BitVec.ofInt 32 ((m : ℤ) / n) = BitVec.ofNat 32 (m / n) :=
    fun m n => BitVec.ofInt_natCast 32 (m / n)
  have hmod : ∀ m n : ℕ, BitVec.ofInt 32 ((m : ℤ).tmod n) = BitVec.ofNat 32 (m % n) :=
    fun m n => BitVec.ofInt_natCast 32 (m % n)
  obtain ⟨m, hm, ⟨ha, hA⟩ | ⟨ha, hA⟩⟩ := hsign a <;>
    obtain ⟨n, hn, ⟨hb, hB⟩ | ⟨hb, hB⟩⟩ := hsign b <;>
    rw [ha, hb, hm, hn, hA, hB] <;>
    simp [Int.neg_tdiv, Int.tdiv_neg, Int.neg_tmod, Int.tmod_neg, BitVec.ofInt_neg, hdiv, hmod]

/-- `divmod`, `_Div` and `_Rem` give the quotient and the remainder of truncated division. -/
def Divides (a b : BitVec 32) : Prop :=
  divmod a b = some (BitVec.ofInt 32 (a.toInt.tdiv b.toInt), BitVec.ofInt 32 (a.toInt.tmod b.toInt)) ∧
    Intrinsic.div a b = BitVec.ofInt 32 (a.toInt.tdiv b.toInt) ∧
    Intrinsic.rem a b = BitVec.ofInt 32 (a.toInt.tmod b.toInt)

theorem divmod_of_divisible (hb : b ≠ 0#32) (h : Divisible a b) : divmod a b =
    some (BitVec.ofInt 32 (a.toInt.tdiv b.toInt), BitVec.ofInt 32 (a.toInt.tmod b.toInt)) := by
  obtain ⟨hq, hr⟩ := divided_spec hb h
  obtain ⟨hdiv, hmod⟩ := ofInt_tdiv_tmod a b
  rw [← hq, BitVec.ofNat_toNat, BitVec.setWidth_eq] at hdiv
  rw [← hr, BitVec.ofNat_toNat, BitVec.setWidth_eq] at hmod
  rw [divmod_eq hb, hdiv, hmod]

/-- A dividend of 0, where the signs are not the same in both. -/
theorem divided_zero (hb : b ≠ 0#32) :
    ((0#32).slt b = true → -(divided 0#32 b).q = (divided 0#32 b).q) ∧
      -(divided 0#32 b).r = (divided 0#32 b).r := by
  by_cases hm : b = intMin
  · subst hm
    exact ⟨fun h => absurd h (by decide), by decide +kernel⟩
  · obtain ⟨hq, hr⟩ := divided_spec (a := 0#32) hb ⟨hm, fun h => absurd h (by decide)⟩
    rw [show (0#32).toInt.natAbs = 0 from rfl, Nat.zero_div] at hq
    rw [show (0#32).toInt.natAbs = 0 from rfl, Nat.zero_mod] at hr
    rw [BitVec.eq_of_toNat_eq (x := (divided 0#32 b).q) (y := 0#32) hq,
      BitVec.eq_of_toNat_eq (x := (divided 0#32 b).r) (y := 0#32) hr]
    exact ⟨fun _ => rfl, rfl⟩

/-- The two implementations agree. -/
theorem divmod_eq_intrinsics (hb : b ≠ 0#32) :
    divmod a b = some (Intrinsic.div a b, Intrinsic.rem a b) := by
  rw [divmod_eq hb]
  unfold Intrinsic.div Intrinsic.rem
  rw [loop_divided]
  have hne : b.toInt ≠ 0 := fun h => hb (BitVec.eq_of_toInt_eq (h.trans BitVec.toInt_zero.symm))
  rcases Int.lt_trichotomy a.toInt 0 with ha | ha | ha
  · rcases Int.lt_or_gt_of_ne hne with hb' | hb' <;>
      simp [BitVec.slt_eq_decide, ha, hb', Int.not_lt.2 (Int.le_of_lt ha),
        Int.not_lt.2 (Int.le_of_lt hb')]
  · obtain rfl : a = 0#32 := BitVec.eq_of_toInt_eq (ha.trans BitVec.toInt_zero.symm)
    obtain ⟨hq, hr⟩ := divided_zero hb
    rcases Int.lt_or_gt_of_ne hne with hb' | hb'
    · simp [BitVec.slt_eq_decide, hb', hr]
    · have hpos : (0#32).slt b = true := by
        rw [BitVec.slt_iff_toInt_lt, BitVec.toInt_zero]
        exact hb'
      simp [BitVec.slt_eq_decide, Int.not_lt.2 (Int.le_of_lt hb'), hr, hq hpos]
  · rcases Int.lt_or_gt_of_ne hne with hb' | hb' <;>
      simp [BitVec.slt_eq_decide, ha, hb', Int.not_lt.2 (Int.le_of_lt ha),
        Int.not_lt.2 (Int.le_of_lt hb')]

/-! ## The operands that it cannot deal with -/

theorem intMin_sle (r : BitVec 32) : intMin.sle r = true := by
  rw [BitVec.sle_iff_toInt_le]
  exact BitVec.le_toInt r

/-- Every remainder is as large as -2 ^ 31. -/
theorem q_rounds_intMin (k : ℕ) (s : Divider) :
    ((Divider.round intMin)^[k] s).q = (fun q : BitVec 32 => q <<< 1 ||| 1#32)^[k] s.q := by
  induction k generalizing s with
  | zero => rfl
  | succ k ih =>
    rw [Function.iterate_succ_apply, Function.iterate_succ_apply, ih, Divider.round,
      if_pos (intMin_sle _)]

theorem q_divided_intMin (a : BitVec 32) : (divided a intMin).q = -1#32 := by
  refine (q_rounds_intMin 32 _).trans ?_
  change (fun q : BitVec 32 => q <<< 1 ||| 1#32)^[32] 0#32 = -1#32
  decide +kernel

/-- Behind the first bit the remainder only doubles. -/
theorem rounds_one (hb : 2 ^ 30 < b.toNat) (hb' : b.toNat < 2 ^ 31) {k : ℕ} (hk : k ≤ 30) :
    (Divider.round b)^[k] ⟨0#32, 1#32, 0#32⟩ = ⟨0#32, 1#32 <<< k, 0#32⟩ := by
  induction k with
  | zero => rfl
  | succ k ih =>
    have hr : (1#32 <<< k <<< 1 ||| (0#32).sshiftRight 31 &&& 1#32) = 1#32 <<< (k + 1) := by
      rw [← BitVec.shiftLeft_add]
      simp
    have hlt : (1#32 <<< (k + 1)).toNat ≤ 2 ^ 30 := by
      rw [BitVec.toNat_shiftLeft, Nat.shiftLeft_eq]
      refine (Nat.mod_le _ _).trans ?_
      change 1 * 2 ^ (k + 1) ≤ 2 ^ 30
      rw [Nat.one_mul]
      exact Nat.pow_le_pow_right (by decide) hk
    rw [Function.iterate_succ_apply', ih (by omega), Divider.round, hr, if_neg]
    · rfl
    · rw [sle_iff_of_lt hb' (by omega)]
      omega

theorem q_divided_of_intMin (hb : 2 ^ 30 < b.toInt.natAbs) (hb' : b ≠ intMin) :
    (divided intMin b).q = 0#32 := by
  have hlt := natAbs_toInt_le b
  have hne := mt (natAbs_eq_iff b).1 hb'
  have hm := toNat_magnitude b
  have hfirst : Divider.round (Intrinsic.magnitude b) ⟨intMin, 0#32, 0#32⟩ = ⟨0#32, 1#32, 0#32⟩ := by
    rw [Divider.round, if_neg]
    · rfl
    · rw [sle_iff_of_lt (by omega) (by decide)]
      rw [show (0#32 <<< 1 ||| intMin.sshiftRight 31 &&& 1#32).toNat = 1 from rfl]
      omega
  have hlast : (Divider.round (Intrinsic.magnitude b) ⟨0#32, 1#32 <<< 30, 0#32⟩).q = 0#32 := by
    rw [Divider.round, if_neg]
    · rfl
    · rw [BitVec.sle_iff_toInt_le, BitVec.toInt_eq_toNat_of_lt (by omega)]
      rw [show (1#32 <<< 30 <<< 1 ||| (0#32).sshiftRight 31 &&& 1#32).toInt = -2147483648 from rfl]
      omega
  change ((Divider.round (Intrinsic.magnitude b))^[32] ⟨intMin, 0#32, 0#32⟩).q = 0#32
  rw [Function.iterate_succ_apply, Function.iterate_succ_apply', hfirst,
    rounds_one (by omega) (by omega) (Nat.le_refl 30), hlast]

theorem divisible_of_divmod (hb : b ≠ 0#32) (h : divmod a b =
    some (BitVec.ofInt 32 (a.toInt.tdiv b.toInt), BitVec.ofInt 32 (a.toInt.tmod b.toInt))) :
    Divisible a b := by
  have ha := natAbs_toInt_le a
  have hq : (if a.slt 0#32 ^^ b.slt 0#32 then -(divided a b).q else (divided a b).q) =
      BitVec.ofInt 32 (a.toInt.tdiv b.toInt) := by
    rw [divmod_eq hb] at h
    exact (Prod.mk.inj (Option.some.inj h)).1
  rw [(ofInt_tdiv_tmod a b).1] at hq
  have hne : b ≠ intMin := by
    rintro rfl
    rw [q_divided_intMin, show intMin.toInt.natAbs = 2 ^ 31 from rfl] at hq
    have hd : a.toInt.natAbs / 2 ^ 31 = 0 ∨ a.toInt.natAbs / 2 ^ 31 = 1 := by omega
    split_ifs at hq
    all_goals
      rcases hd with hd | hd <;>
      · rw [hd] at hq
        exact absurd hq (by decide)
  refine ⟨hne, ?_⟩
  rintro rfl
  by_contra hlt
  have hle := natAbs_toInt_le b
  have hone : 2 ^ 31 / b.toInt.natAbs = 1 := Nat.div_eq_of_lt_le (by omega) (by omega)
  rw [q_divided_of_intMin (by omega) hne, show intMin.toInt.natAbs = 2 ^ 31 from rfl, hone] at hq
  split_ifs at hq
  all_goals exact absurd hq (by decide)

end Divmod

/-! ## All operands -/

/-- The quotient and the remainder are right just for the operands that the loop can deal with, and
the two implementations always agree. -/
theorem division (a b : BitVec 32) (hb : b ≠ 0#32) :
    divmod a b = some (Intrinsic.div a b, Intrinsic.rem a b) ∧ (Divides a b ↔ Divisible a b) := by
  have hagree := divmod_eq_intrinsics (a := a) hb
  refine ⟨hagree, fun h => divisible_of_divmod hb h.1, fun h => ?_⟩
  have hd := divmod_of_divisible hb h
  have he := hagree.symm.trans hd
  obtain ⟨h1, h2⟩ := Prod.mk.inj (Option.some.inj he)
  exact ⟨hd, h1, h2⟩

theorem division_seven_two : (2#32 : BitVec 32) ≠ 0#32 ∧ Divides (-7#32) 2#32 :=
  ⟨by decide, (division (-7#32) 2#32 (by decide)).2.2 ⟨by decide, fun h => absurd h (by decide)⟩⟩

theorem not_division : ¬ ∀ a b : BitVec 32, b ≠ 0#32 → Divides a b := by
  intro h
  have hd := (divisible_of_divmod (a := intMin) (b := 0x40000001#32) (by decide)
    (h _ _ (by decide)).1).2 rfl
  exact absurd hd (by decide)

end Ucore

end CacheCPU
