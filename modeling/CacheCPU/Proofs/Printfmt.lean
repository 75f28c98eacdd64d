import CacheCPU.Ucore.Printfmt
import Mathlib.Data.Int.Notation
import Mathlib.Tactic.ByContra
import Mathlib.Tactic.SplitIfs

/-!
# Numbers are printed right up to 5368709121

`do_div` takes `near n / 8`, which is at most one below `n / 10`, as long as `near n` fits in 32 bits.
From 5368709122 on it does not, and the quotient that comes out is too small by 2 ^ 28 at least.
`printnum` then prints the digits of the quotients that it gets.
-/

namespace CacheCPU

namespace Ucore

/-! ## Division by 10 -/

/-- The first number that `do_div` does not divide by 10. -/
def divLimit : ℕ := 5368709122

/-- The sums that bring `q₃` near `0.8 * n`. -/
structure Sums (n q₀ q₁ q₂ q₃ : ℕ) : Prop where
  first : q₀ = n / 2 + n / 4
  second : q₁ = q₀ + q₀ / 16
  third : q₂ = q₁ + q₁ / 256
  last : q₃ = q₂ + q₂ / 65536

section Sums

variable {n q₀ q₁ q₂ q₃ : ℕ}

theorem Sums.lt (h : Sums n q₀ q₁ q₂ q₃) (hn : n < divLimit) : q₃ < 2 ^ 32 := by
  obtain ⟨h₀, h₁, h₂, h₃⟩ := h
  unfold divLimit at hn
  omega

/-- The last sum is `0.8 * n` up to 2 ^ -32 of it and the remainders of the divisions. -/
theorem Sums.bounds (h : Sums n q₀ q₁ q₂ q₃) :
    1073741824 * q₃ ≤ 858993459 * n ∧ 858993459 * n ≤ 1073741824 * q₃ + 4585525585 := by
  obtain ⟨h₀, h₁, h₂, h₃⟩ := h
  have b₀ : 4 * q₀ ≤ 3 * n ∧ 3 * n ≤ 4 * q₀ + 5 := by omega
  have b₁ : 64 * q₁ ≤ 51 * n ∧ 51 * n ≤ 64 * q₁ + 145 := by omega
  have b₂ : 16384 * q₂ ≤ 13107 * n ∧ 13107 * n ≤ 16384 * q₂ + 53585 := by omega
  omega

/-- The quotient is right or too small by one. -/
theorem Sums.spec (h : Sums n q₀ q₁ q₂ q₃) (hn : n < divLimit) :
    10 * (q₃ / 8) ≤ n ∧ n < 10 * (q₃ / 8) + 20 := by
  obtain ⟨hle, hge⟩ := h.bounds
  unfold divLimit at hn
  omega

/-- The same sums cut to 32 bits. -/
structure CutSums (n q₀ q₁ q₂ q₃ : ℕ) : Prop where
  first : q₀ = (n / 2 + n / 4) % 2 ^ 32
  second : q₁ = (q₀ + q₀ / 16) % 2 ^ 32
  third : q₂ = (q₁ + q₁ / 256) % 2 ^ 32
  last : q₃ = (q₂ + q₂ / 65536) % 2 ^ 32

theorem CutSums.sums (h : CutSums n q₀ q₁ q₂ q₃) (hn : n < divLimit) : Sums n q₀ q₁ q₂ q₃ := by
  obtain ⟨h₀, h₁, h₂, h₃⟩ := h
  unfold divLimit at hn
  have e₀ : q₀ = n / 2 + n / 4 := by omega
  have e₁ : q₁ = q₀ + q₀ / 16 := by omega
  have e₂ : q₂ = q₁ + q₁ / 256 := by omega
  exact ⟨e₀, e₁, e₂, by omega⟩

section Step

variable {q q' m a b : ℕ} (h : q' = (q + q / m) % 2 ^ 32)
include h

theorem cut_le (ha : q ≤ a) (hb : a + a / m ≤ b) : q' ≤ b := by
  rw [h]
  exact Nat.le_trans (Nat.mod_le _ _)
    (Nat.le_trans (Nat.add_le_add ha (Nat.div_le_div_right ha)) hb)

theorem cut_ge (hlt : q + q / m < 2 ^ 32) (ha : a ≤ q) (hb : b ≤ a + a / m) : b ≤ q' := by
  rw [h, Nat.mod_eq_of_lt hlt]
  exact Nat.le_trans hb (Nat.add_le_add ha (Nat.div_le_div_right ha))

theorem cut_over (hq : q < 2 ^ 32) (hge : ¬ q + q / m < 2 ^ 32) (hb : 2 ^ 32 / m ≤ b) : q' ≤ b := by
  have hdiv : q / m ≤ 2 ^ 32 / m := Nat.div_le_div_right (Nat.le_of_lt hq)
  have hself : q / m ≤ q := Nat.div_le_self q m
  rw [h, Nat.mod_eq_sub_mod (by omega), Nat.mod_eq_of_lt (by omega)]
  omega

end Step

/-- Beyond the limit 2 ^ 32 is lost in one of them. -/
theorem CutSums.lt (h : CutSums n q₀ q₁ q₂ q₃) (hn : divLimit ≤ n) (hn' : n < 8053063680) :
    q₃ < 2 ^ 31 := by
  obtain ⟨h₀, h₁, h₂, h₃⟩ := h
  unfold divLimit at hn
  have hlt : ∀ m, m % 2 ^ 32 < 2 ^ 32 := fun m => Nat.mod_lt m (by decide)
  have l₀ : q₀ < 2 ^ 32 := h₀ ▸ hlt _
  have l₁ : q₁ < 2 ^ 32 := h₁ ▸ hlt _
  have l₂ : q₂ < 2 ^ 32 := h₂ ▸ hlt _
  refine Nat.lt_of_le_of_lt ?_ (by decide : 1861152491 < 2 ^ 31)
  by_cases c₀ : n / 2 + n / 4 < 2 ^ 32
  · have e₀ : 4026531841 ≤ q₀ := by
      rw [h₀, Nat.mod_eq_of_lt c₀]
      omega
    by_cases c₁ : q₀ + q₀ / 16 < 2 ^ 32
    · have e₁ : 4278190081 ≤ q₁ := cut_ge h₁ c₁ e₀ (by decide)
      by_cases c₂ : q₁ + q₁ / 256 < 2 ^ 32
      · have e₂ : 4294901761 ≤ q₂ := cut_ge h₂ c₂ e₁ (by decide)
        have c₃ : ¬ q₂ + q₂ / 65536 < 2 ^ 32 := by
          have := Nat.div_le_div_right (c := 65536) e₂
          omega
        exact cut_over h₃ l₂ c₃ (by decide)
      · exact cut_le h₃ (cut_over h₂ l₁ c₂ (Nat.le_refl _)) (by decide)
    · exact cut_le h₃ (cut_le h₂ (cut_over h₁ l₀ c₁ (Nat.le_refl _)) (Nat.le_refl _)) (by decide)
  · have e₀ : q₀ ≤ 1744830463 := by
      rw [h₀, Nat.mod_eq_sub_mod (by omega), Nat.mod_eq_of_lt (by omega)]
      omega
    exact cut_le h₃ (cut_le h₂ (cut_le h₁ e₀ (Nat.le_refl _)) (Nat.le_refl _)) (by decide)

end Sums

section DoDiv

variable {n : BitVec 64} {q : BitVec 32}

theorem exists_cutSums (n : BitVec 64) :
    ∃ q₀ q₁ q₂, CutSums n.toNat q₀ q₁ q₂ (fourFifths n).toNat := by
  have hstep : ∀ (q : BitVec 32) (k : ℕ),
      (q + q >>> k).toNat = (q.toNat + q.toNat / 2 ^ k) % 2 ^ 32 := by
    intro q k
    rw [BitVec.toNat_add, BitVec.toNat_ushiftRight, Nat.shiftRight_eq_div_pow]
  refine ⟨_, _, _, ?_, hstep _ 4, hstep _ 8, hstep _ 16⟩
  have hn := n.isLt
  rw [BitVec.toNat_setWidth, BitVec.toNat_add, BitVec.toNat_ushiftRight,
    BitVec.toNat_ushiftRight, Nat.shiftRight_eq_div_pow, Nat.shiftRight_eq_div_pow]
  omega

theorem restOf_spec (n : BitVec 64) (q : BitVec 32) :
    ((restOf n q).toNat + 10 * q.toNat) % 2 ^ 32 = n.toNat % 2 ^ 32 := by
  have hn := n.isLt
  have hq := q.isLt
  have hten : ((q <<< 2 + q) <<< 1).toNat = 10 * q.toNat % 2 ^ 32 := by
    simp only [BitVec.toNat_add, BitVec.toNat_shiftLeft, Nat.shiftLeft_eq]
    omega
  have hset : (((q <<< 2 + q) <<< 1).setWidth 64).toNat = 10 * q.toNat % 2 ^ 32 := by
    rw [BitVec.toNat_setWidth, hten]
    omega
  unfold restOf
  rw [BitVec.toNat_setWidth, BitVec.toNat_sub, hset]
  omega

theorem toNat_restOf {r : ℕ} (h : n.toNat = 10 * q.toNat + r) (hr : r < 2 ^ 32) :
    (restOf n q).toNat = r := by
  have hs := restOf_spec n q
  have hlt := (restOf n q).isLt
  omega

/-- The quotient before and behind the correction. -/
theorem doDiv_ten (n : BitVec 64) : doDiv n 10#32 =
    (let q := fourFifths n >>> 3
     let q' := q + (restOf n q + 6#32) >>> 4
     (q'.setWidth 64, restOf n q')) := rfl

theorem doDiv_ten_of_lt (h : n.toNat < divLimit) :
    (doDiv n 10#32).1.toNat = n.toNat / 10 ∧ (doDiv n 10#32).2.toNat = n.toNat % 10 := by
  obtain ⟨q₀, q₁, q₂, hcut⟩ := exists_cutSums n
  have hsums := hcut.sums h
  have hlt := hsums.lt h
  obtain ⟨hle, hge⟩ := hsums.spec h
  obtain ⟨q, hq⟩ : ∃ q, q = fourFifths n >>> 3 := ⟨_, rfl⟩
  have hqn : q.toNat = (fourFifths n).toNat / 8 := by
    rw [hq, BitVec.toNat_ushiftRight, Nat.shiftRight_eq_div_pow]
  rw [← hqn] at hle hge
  have hrest := toNat_restOf (n := n) (q := q) (r := n.toNat - 10 * q.toNat) (by omega) (by omega)
  obtain ⟨q', hq'⟩ : ∃ q', q' = q + (restOf n q + 6#32) >>> 4 := ⟨_, rfl⟩
  have hq'n : q'.toNat = n.toNat / 10 := by
    rw [hq', BitVec.toNat_add, BitVec.toNat_ushiftRight, Nat.shiftRight_eq_div_pow,
      BitVec.toNat_add, hrest]
    change (q.toNat + (n.toNat - 10 * q.toNat + 6) % 2 ^ 32 / 2 ^ 4) % 2 ^ 32 = _
    have hcorr : ∀ c < 20, (c + 6) % 2 ^ 32 / 2 ^ 4 = c / 10 := by
      intro c hc
      rw [Nat.mod_eq_of_lt (by omega)]
      by_cases h10 : c < 10 <;> omega
    rw [hcorr _ (by omega)]
    unfold divLimit at h
    omega
  rw [doDiv_ten]
  dsimp only
  rw [← hq, ← hq']
  refine ⟨?_, toNat_restOf (by omega) (by omega)⟩
  rw [BitVec.toNat_setWidth, hq'n]
  unfold divLimit at h
  omega

theorem doDiv_ten_lt (n : BitVec 64) : (doDiv n 10#32).1.toNat < 2 ^ 32 := by
  rw [doDiv_ten]
  dsimp only
  rw [BitVec.toNat_setWidth]
  have := (fourFifths n >>> 3 + (restOf n (fourFifths n >>> 3) + 6#32) >>> 4).isLt
  omega

/-- The correction adds less than 2 ^ 28, and more is missing. -/
theorem doDiv_ten_ne (h : divLimit ≤ n.toNat) : (doDiv n 10#32).1.toNat ≠ n.toNat / 10 := by
  obtain ⟨q₀, q₁, q₂, hcut⟩ := exists_cutSums n
  have hcorr := (restOf n (fourFifths n >>> 3) + 6#32).isLt
  have hfour := (fourFifths n).isLt
  rw [doDiv_ten]
  dsimp only
  rw [BitVec.toNat_setWidth, BitVec.toNat_add, BitVec.toNat_ushiftRight, BitVec.toNat_ushiftRight,
    Nat.shiftRight_eq_div_pow, Nat.shiftRight_eq_div_pow]
  by_cases h' : n.toNat < 8053063680
  · have hlt := hcut.lt h h'
    unfold divLimit at h
    omega
  · omega

/-- `do_div` for the bases that are printed in. -/
theorem doDiv_eq {base : BitVec 32} (hb : base = 8#32 ∨ base = 10#32 ∨ base = 16#32)
    (h : base = 10#32 → n.toNat < divLimit) :
    (doDiv n base).1.toNat = n.toNat / base.toNat ∧
      (doDiv n base).2.toNat = n.toNat % base.toNat := by
  have hn := n.isLt
  have hmask : ∀ k, n.toNat % 2 ^ 32 &&& (2 ^ k - 1) = n.toNat % 2 ^ 32 % 2 ^ k :=
    fun k => Nat.and_two_pow_sub_one_eq_mod _ k
  rcases hb with rfl | rfl | rfl
  · refine ⟨?_, ?_⟩
    · change (n >>> 3).toNat = _
      rw [BitVec.toNat_ushiftRight, Nat.shiftRight_eq_div_pow]
      rfl
    · change (n.setWidth 32 &&& 0x7#32).toNat = _
      rw [BitVec.toNat_and, BitVec.toNat_setWidth]
      refine (hmask 3).trans ?_
      change _ = n.toNat % 8
      omega
  · exact doDiv_ten_of_lt (h rfl)
  · refine ⟨?_, ?_⟩
    · change (n >>> 4).toNat = _
      rw [BitVec.toNat_ushiftRight, Nat.shiftRight_eq_div_pow]
      rfl
    · change (n.setWidth 32 &&& 0xf#32).toNat = _
      rw [BitVec.toNat_and, BitVec.toNat_setWidth]
      refine (hmask 4).trans ?_
      change _ = n.toNat % 16
      omega

end DoDiv

/-! ## `printnum` -/

theorem digitAt_of_lt {mod : BitVec 32} (h : mod.toNat < 16) :
    digitAt mod = some (Nat.digitChar mod.toNat) := by
  have htable : ∀ k < 16,
      ("0123456789abcdef".toList ++ ['\x00'])[k]? = some (Nat.digitChar k) := by
    decide
  exact htable _ h

/-- How many characters precede the digits. -/
def padWidth (width : BitVec 32) (len : ℕ) : ℕ := (width - BitVec.ofNat 32 len).toInt.toNat

theorem printnum_eq {base : BitVec 32} (hb : base = 8#32 ∨ base = 10#32 ∨ base = 16#32)
    (padc : Char) : ∀ {fuel : ℕ} {num : BitVec 64} {width : BitVec 32},
    (base = 10#32 → num.toNat < divLimit) →
    (Nat.toDigits base.toNat num.toNat).length ≤ fuel →
    printnum fuel num base width padc =
      some (List.replicate (padWidth width (Nat.toDigits base.toNat num.toNat).length) padc ++
        Nat.toDigits base.toNat num.toNat)
  | 0, num, width, _, hlen => absurd hlen (Nat.not_le.2 Nat.length_toDigits_pos)
  | fuel + 1, num, width, h, hlen => by
    obtain ⟨hres, hmod⟩ := doDiv_eq hb h
    have hbase : 8 ≤ base.toNat ∧ base.toNat ≤ 16 := by
      rcases hb with rfl | rfl | rfl <;> decide
    have hlt : (doDiv num base).2.toNat < 16 := by
      rw [hmod]
      exact Nat.lt_of_lt_of_le (Nat.mod_lt _ (by omega)) hbase.2
    have hdigit := digitAt_of_lt hlt
    have hle : base.setWidth 64 ≤ num ↔ base.toNat ≤ num.toNat := by
      rw [BitVec.le_def, BitVec.toNat_setWidth, Nat.mod_eq_of_lt (by omega)]
    rw [hmod] at hdigit
    unfold printnum
    dsimp only
    rw [hdigit]
    by_cases hge : base.toNat ≤ num.toNat
    · have hsplit := Nat.toDigits_of_base_le (b := base.toNat) (by omega) hge
      rw [hsplit, List.length_append, List.length_singleton] at hlen
      have hres_lt : base = 10#32 → (doDiv num base).1.toNat < divLimit := by
        intro h10
        rw [hres]
        exact Nat.lt_of_le_of_lt (Nat.div_le_self _ _) (h h10)
      have hres_len : (Nat.toDigits base.toNat (doDiv num base).1.toNat).length ≤ fuel := by
        rw [hres]
        omega
      have hrec := @printnum_eq _ hb padc fuel _ (width - 1#32) hres_lt hres_len
      have hpad : ∀ len, padWidth (width - 1#32) len = padWidth width (len + 1) := by
        intro len
        unfold padWidth
        rw [BitVec.sub_sub, BitVec.add_comm, ← BitVec.ofNat_add]
      rw [if_pos (hle.2 hge), hrec, hres, hpad, hsplit]
      simp
    · rw [if_neg (mt hle.1 hge), Nat.mod_eq_of_lt (by omega),
        Nat.toDigits_of_lt_base (by omega)]
      rfl

/-! ## What it should print -/

/-- `num` in the base, with `padc` before it up to the width. -/
def standard (base num : ℕ) (width : ℤ) (padc : Char) : List Char :=
  List.replicate (width - ((Nat.toDigits base num).length : ℤ)).toNat padc ++
    Nat.toDigits base num

/-- `printnum` ends and prints it, whatever the pad character. -/
def Prints (num : BitVec 64) (base width : BitVec 32) : Prop :=
  ∀ padc, ∃ N, ∀ fuel, N ≤ fuel →
    printnum fuel num base width padc = some (standard base.toNat num.toNat width.toInt padc)

/-- The decrements of `width` do not pass the least `int`. -/
def WidthFits (num : ℕ) (base : ℕ) (width : BitVec 32) : Prop :=
  -2 ^ 31 ≤ width.toInt - (Nat.toDigits base num).length

section Width

variable {base num : ℕ} {width : BitVec 32}

theorem length_toDigits_le (hb : 8 ≤ base) (hn : num < 2 ^ 64) :
    (Nat.toDigits base num).length ≤ 22 := by
  rw [Nat.length_toDigits_le_iff (by omega) (by omega)]
  calc num < 2 ^ 64 := hn
    _ ≤ 8 ^ 22 := by decide
    _ ≤ base ^ 22 := Nat.pow_le_pow_left hb 22

theorem toInt_sub_ofNat (width : BitVec 32) {len : ℕ} (h : len ≤ 22) :
    (width - BitVec.ofNat 32 len).toInt =
      if -2 ^ 31 ≤ width.toInt - len then width.toInt - len else width.toInt - len + 2 ^ 32 := by
  have hlo := BitVec.le_toInt width
  have hhi := BitVec.toInt_lt (x := width)
  have hlen : (BitVec.ofNat 32 len).toInt = len := by
    rw [BitVec.toInt_eq_toNat_of_lt] <;> rw [BitVec.toNat_ofNat, Nat.mod_eq_of_lt] <;> omega
  rw [BitVec.toInt_sub, hlen, Int.bmod_def]
  split_ifs <;> omega

/-- The padding is right if the width fits, and only then. -/
theorem padWidth_eq_iff {len : ℕ} (h : len ≤ 22) :
    padWidth width len = (width.toInt - len).toNat ↔ -2 ^ 31 ≤ width.toInt - len := by
  have hlo := BitVec.le_toInt width
  unfold padWidth
  rw [toInt_sub_ofNat width h]
  split_ifs with hfit
  · exact iff_of_true rfl hfit
  · exact iff_of_false (by omega) hfit

end Width

section Prints

variable {num : BitVec 64} {base width : BitVec 32}

theorem digits_ne_space {b n : ℕ} (hb : 1 < b) (hb' : b ≤ 16) : ∀ c ∈ Nat.toDigits b n, c ≠ ' ' := by
  intro c hc
  induction n using Nat.strongRecOn with
  | _ n ih =>
    have hdigit : ∀ k < 16, Nat.digitChar k ≠ ' ' := by decide
    rw [Nat.toDigits_eq_if hb] at hc
    split_ifs at hc with hlt
    · rw [List.mem_singleton] at hc
      rw [hc]
      exact hdigit n (by omega)
    · rw [List.mem_append, List.mem_singleton] at hc
      rcases hc with hc | hc
      · exact ih (n / b) (Nat.div_lt_self (by omega) hb) hc
      · rw [hc]
        exact hdigit _ (Nat.lt_of_lt_of_le (Nat.mod_lt n (by omega)) hb')

/-- Digits behind spaces can be told apart from them. -/
theorem spaces_append_inj {k k' : ℕ} {ds ds' : List Char} (hd : ∀ c ∈ ds, c ≠ ' ')
    (hd' : ∀ c ∈ ds', c ≠ ' ')
    (h : List.replicate k ' ' ++ ds = List.replicate k' ' ' ++ ds') : k = k' ∧ ds = ds' := by
  have hdrop : ∀ (k : ℕ) {ds : List Char}, (∀ c ∈ ds, c ≠ ' ') →
      (List.replicate k ' ' ++ ds).filter (· ≠ ' ') = ds := by
    intro k ds hds
    rw [List.filter_append, List.filter_replicate, List.filter_eq_self.2 (by simpa using hds)]
    simp
  have he : ds = ds' := by
    rw [← hdrop k hd, h, hdrop k' hd']
  have hlen := congrArg List.length h
  rw [he] at hlen
  simp only [List.length_append, List.length_replicate] at hlen
  exact ⟨by omega, he⟩

/-- A number that `do_div` does not divide is not printed. -/
theorem not_prints (h : divLimit ≤ num.toNat) : ¬ Prints num 10#32 width := by
  intro hp
  obtain ⟨N, hN⟩ := hp ' '
  have hlt := doDiv_ten_lt num
  have hfuel := hN (N + 22 + 1) (by omega)
  have hge : (10#32 : BitVec 32).setWidth 64 ≤ num := by
    rw [BitVec.le_def]
    unfold divLimit at h
    exact Nat.le_trans (by decide) h
  have hlen : (Nat.toDigits 10 (doDiv num 10#32).1.toNat).length ≤ 22 :=
    length_toDigits_le (by omega) (by omega)
  have hrec := @printnum_eq 10#32 (.inr (.inl rfl)) ' ' (N + 22) _ (width - 1#32)
    (fun _ => Nat.lt_trans hlt (by decide)) (Nat.le_trans hlen (by omega))
  rw [printnum] at hfuel
  dsimp only at hfuel
  rw [if_pos hge, hrec, Option.bind_some] at hfuel
  obtain ⟨c, -, hc⟩ := Option.map_eq_some_iff.1 hfuel
  unfold standard at hc
  rw [Nat.toDigits_of_base_le (b := (10#32 : BitVec 32).toNat) (by decide)
    (Nat.le_trans (by decide) h), ← List.append_assoc] at hc
  obtain ⟨hfront, -⟩ := List.append_inj' hc rfl
  have hdigits := (spaces_append_inj (digits_ne_space (by decide) (by decide))
    (digits_ne_space (by decide) (by decide)) hfront).2
  have hnum := congrArg (Nat.ofDigitChars 10 · 0) hdigits
  have hten : (10#32 : BitVec 32).toNat = 10 := rfl
  rw [hten] at hnum
  simp only [Nat.ofDigitChars_ten_toDigits] at hnum
  exact doDiv_ten_ne h hnum

theorem prints_iff (hb : base = 8#32 ∨ base = 10#32 ∨ base = 16#32) : Prints num base width ↔
    (base = 10#32 → num.toNat < divLimit) ∧ WidthFits num.toNat base.toNat width := by
  have hbase : 8 ≤ base.toNat ∧ base.toNat ≤ 16 := by
    rcases hb with rfl | rfl | rfl <;> decide
  have hlen := length_toDigits_le hbase.1 num.isLt
  constructor
  · intro hp
    have hlim : base = 10#32 → num.toNat < divLimit := by
      rintro rfl
      by_contra hge
      exact not_prints (Nat.not_lt.1 hge) hp
    refine ⟨hlim, ?_⟩
    obtain ⟨N, hN⟩ := hp ' '
    have hfuel := hN (N + 22) (by omega)
    rw [printnum_eq hb ' ' hlim (Nat.le_trans hlen (by omega))] at hfuel
    have hd := digits_ne_space (n := num.toNat) (by omega : 1 < base.toNat) hbase.2
    exact (padWidth_eq_iff hlen).1 (spaces_append_inj hd hd (Option.some.inj hfuel)).1
  · rintro ⟨hlim, hw⟩ padc
    refine ⟨22, fun fuel hfuel => ?_⟩
    rw [printnum_eq hb padc hlim (Nat.le_trans hlen hfuel), (padWidth_eq_iff hlen).2 hw]
    rfl

end Prints

/-! ## `%d` and `%u` -/

/-- The number that an argument stands for, as a `long long` or as an `int`. -/
def intValue (arg : BitVec 64) (lflag : ℕ) : ℤ :=
  if 2 ≤ lflag then arg.toInt else (arg.setWidth 32).toInt

def uintValue (arg : BitVec 64) (lflag : ℕ) : ℕ :=
  if 2 ≤ lflag then arg.toNat else (arg.setWidth 32).toNat

/-- `%d` ends and prints the sign and the digits of its argument. -/
def PrintsInt (arg : BitVec 64) (lflag : ℕ) (width : BitVec 32) : Prop :=
  ∀ padc, ∃ N, ∀ fuel, N ≤ fuel → Conversion.d.print fuel arg lflag width padc =
    some ((if intValue arg lflag < 0 then ['-'] else []) ++
      standard 10 (intValue arg lflag).natAbs width.toInt padc)

def PrintsUint (arg : BitVec 64) (lflag : ℕ) (width : BitVec 32) : Prop :=
  ∀ padc, ∃ N, ∀ fuel, N ≤ fuel → Conversion.u.print fuel arg lflag width padc =
    some (standard 10 (uintValue arg lflag) width.toInt padc)

section Conversions

variable {arg : BitVec 64} {lflag : ℕ} {width : BitVec 32}

theorem toInt_getint (arg : BitVec 64) (lflag : ℕ) :
    (getint arg lflag).toInt = intValue arg lflag := by
  unfold getint intValue
  split_ifs
  · rfl
  · exact BitVec.toInt_signExtend_of_le (by decide)

theorem toNat_getuint (arg : BitVec 64) (lflag : ℕ) :
    (getuint arg lflag).toNat = uintValue arg lflag := by
  unfold getuint uintValue
  split_ifs
  · rfl
  · rw [BitVec.toNat_setWidth, Nat.mod_eq_of_lt]
    exact Nat.lt_trans (arg.setWidth 32).isLt (by decide)

theorem slt_zero_getint : (getint arg lflag).slt 0#64 = true ↔ intValue arg lflag < 0 := by
  rw [BitVec.slt_iff_toInt_lt, toInt_getint, BitVec.toInt_zero]

theorem prints_ten_iff (num : BitVec 64) :
    Prints num 10#32 width ↔ num.toNat < divLimit ∧ WidthFits num.toNat 10 width := by
  rw [prints_iff (.inr (.inl rfl))]
  exact ⟨fun h => ⟨h.1 rfl, h.2⟩, fun h => ⟨fun _ => h.1, h.2⟩⟩

/-- A negative argument is printed as its magnitude behind the sign. -/
theorem printsInt_iff : PrintsInt arg lflag width ↔
    (intValue arg lflag).natAbs < divLimit ∧ WidthFits (intValue arg lflag).natAbs 10 width := by
  have hint := toInt_getint arg lflag
  have hlo := BitVec.le_toInt (getint arg lflag)
  have hcond := BitVec.toInt_eq_toNat_cond (getint arg lflag)
  have hlt := (getint arg lflag).isLt
  by_cases hneg : intValue arg lflag < 0
  · have hnum : (-getint arg lflag).toNat = (intValue arg lflag).natAbs := by
      rw [BitVec.toNat_neg]
      split_ifs at hcond <;> omega
    rw [← hnum, ← prints_ten_iff]
    unfold PrintsInt Prints
    simp only [Conversion.print, slt_zero_getint, hneg, if_true, hnum]
    refine forall_congr' fun padc => exists_congr fun N => forall₂_congr fun fuel _ => ?_
    rw [Option.map_eq_some_iff]
    constructor
    · rintro ⟨cs, hcs, he⟩
      rw [hcs, (List.cons.inj he).2]
      rfl
    · exact fun he => ⟨_, he, rfl⟩
  · have hnum : (getint arg lflag).toNat = (intValue arg lflag).natAbs := by
      split_ifs at hcond <;> omega
    rw [← hnum, ← prints_ten_iff]
    unfold PrintsInt Prints
    simp only [Conversion.print, slt_zero_getint, hneg, if_false, hnum]
    exact Iff.rfl

theorem printsUint_iff : PrintsUint arg lflag width ↔
    uintValue arg lflag < divLimit ∧ WidthFits (uintValue arg lflag) 10 width := by
  rw [← toNat_getuint, ← prints_ten_iff]
  unfold PrintsUint Prints
  rw [toNat_getuint]
  exact Iff.rfl

end Conversions

/-! ## All numbers -/

/-- In base 10 just the numbers below the limit are printed, and `%d` and `%u` print just the
arguments below it. -/
theorem printing (num arg : BitVec 64) (base width : BitVec 32) (lflag : ℕ) :
    (base = 8#32 ∨ base = 10#32 ∨ base = 16#32 → (Prints num base width ↔
      (base = 10#32 → num.toNat < divLimit) ∧ WidthFits num.toNat base.toNat width)) ∧
    (PrintsInt arg lflag width ↔
      (intValue arg lflag).natAbs < divLimit ∧ WidthFits (intValue arg lflag).natAbs 10 width) ∧
    (PrintsUint arg lflag width ↔
      uintValue arg lflag < divLimit ∧ WidthFits (uintValue arg lflag) 10 width) :=
  ⟨prints_iff, printsInt_iff, printsUint_iff⟩

theorem printing_hex : Prints 0xdeadbeef12#64 16#32 12#32 := by
  refine ((printing _ 0#64 _ _ 0).1 (.inr (.inr rfl))).2 ⟨fun h => absurd h (by decide), ?_⟩
  unfold WidthFits
  decide +kernel

theorem not_printing : ¬ ∀ (num : BitVec 64) (base width : BitVec 32),
    base = 8#32 ∨ base = 10#32 ∨ base = 16#32 → Prints num base width :=
  fun h => @not_prints 5368709122#64 0#32 (by decide) (h _ _ _ (.inr (.inl rfl)))

end Ucore

end CacheCPU
