import CacheCPU.Lib.ByteMemory

/-!
# Stretches of a memory

A memory in which the cells from an address on are replaced by the elements of a sequence. The
addresses wrap around, so a stretch may cross the end of the address space as long as it is not
longer than it.
-/

namespace Patch

variable {w : ℕ} {α : Type*}

/-- The `n` cells from `d` on are `f 0`, `f 1` and so on. -/
def patch (M : BitVec w → α) (d : BitVec w) (f : ℕ → α) (n : ℕ) (a : BitVec w) : α :=
  if (a - d).toNat < n then f (a - d).toNat else M a

variable {M : BitVec w → α} {d a : BitVec w} {f g : ℕ → α} {n m : ℕ}

@[simp]
theorem patch_zero : patch M d f 0 = M := by
  funext a
  exact if_neg (Nat.not_lt_zero _)

/-- How far an address of the stretch is from its beginning. -/
theorem toNat_add_sub {i : ℕ} (hi : i < 2 ^ w) : (d + BitVec.ofNat w i - d).toNat = i := by
  rw [BitVec.add_comm, BitVec.add_sub_cancel, BitVec.toNat_ofNat, Nat.mod_eq_of_lt hi]

theorem patch_add {i : ℕ} (hi : i < n) (hn : n ≤ 2 ^ w) :
    patch M d f n (d + BitVec.ofNat w i) = f i := by
  rw [patch, toNat_add_sub (hi.trans_le hn), if_pos hi]

theorem patch_of_ne (h : ∀ i < n, a ≠ d + BitVec.ofNat w i) : patch M d f n a = M a := by
  refine if_neg fun hlt => h _ hlt ?_
  rw [BitVec.ofNat_toNat, BitVec.setWidth_eq, BitVec.add_comm, BitVec.sub_add_cancel]

/-- A cell by its number. -/
theorem patch_ofNat {i q : ℕ} (hi : i + n ≤ 2 ^ w) (hq : q < 2 ^ w) :
    patch M (BitVec.ofNat w i) f n (BitVec.ofNat w q) =
      if i ≤ q ∧ q < i + n then f (q - i) else M (BitVec.ofNat w q) := by
  split_ifs with h
  · obtain ⟨k, rfl⟩ := Nat.exists_eq_add_of_le h.1
    rw [BitVec.ofNat_add, patch_add (by omega) (by omega), Nat.add_sub_cancel_left]
  · refine patch_of_ne fun k hk he => h ?_
    have := congrArg BitVec.toNat he
    rw [← BitVec.ofNat_add, BitVec.toNat_ofNat, BitVec.toNat_ofNat, Nat.mod_eq_of_lt hq,
      Nat.mod_eq_of_lt (by omega)] at this
    omega

theorem patch_congr (h : ∀ i < n, f i = g i) : patch M d f n = patch M d g n := by
  funext a
  unfold patch
  split_ifs with hlt
  · exact h _ hlt
  · rfl

/-- The distance from a later address. -/
theorem toNat_sub_add (hn : n < 2 ^ w) : (a - (d + BitVec.ofNat w n)).toNat =
    if n ≤ (a - d).toNat then (a - d).toNat - n else (a - d).toNat + 2 ^ w - n := by
  have hx := (a - d).isLt
  rw [sub_add_eq_sub_sub]
  generalize a - d = x at hx
  rw [BitVec.toNat_sub, BitVec.toNat_ofNat, Nat.mod_eq_of_lt hn]
  split_ifs with h
  · rw [show 2 ^ w - n + x.toNat = x.toNat - n + 2 ^ w by omega, Nat.add_mod_right,
      Nat.mod_eq_of_lt (by omega)]
  · rw [Nat.mod_eq_of_lt (by omega)]
    omega

/-- Two stretches, one after the other, are one. -/
theorem patch_append (h : n + m ≤ 2 ^ w) :
    patch (patch M d f n) (d + BitVec.ofNat w n) (fun i => f (n + i)) m = patch M d f (n + m) := by
  funext a
  have hx := (a - d).isLt
  by_cases hm : m = 0
  · subst hm
    rw [patch_zero]
    rfl
  · unfold patch
    rw [toNat_sub_add (by omega)]
    by_cases hn : n ≤ (a - d).toNat
    · rw [if_pos hn, if_neg (by omega : ¬ (a - d).toNat < n)]
      simp only [Nat.add_sub_cancel' hn]
      by_cases hlt : (a - d).toNat < n + m
      · rw [if_pos hlt, if_pos (by omega)]
      · rw [if_neg hlt, if_neg (by omega)]
    · rw [if_neg hn, if_neg (by omega), if_pos (by omega), if_pos (by omega)]

theorem patch_one : patch M d f 1 = Function.update M d (f 0) := by
  funext a
  by_cases ha : a = d
  · subst ha
    simp [patch]
  · have hne : a - d ≠ 0#w := fun h => ha (sub_eq_zero.1 h)
    have hpos : (a - d).toNat ≠ 0 := fun h => hne (BitVec.eq_of_toNat_eq (by simpa using h))
    rw [Function.update_of_ne ha, patch, if_neg (by omega)]

theorem patch_two (h : 2 ≤ 2 ^ w) :
    patch M d f 2 = Function.update (Function.update M d (f 0)) (d + 1#w) (f 1) := by
  rw [← @patch_append _ _ M d f 1 1 h, patch_one, patch_one]

/-- The first cell, and then the others. -/
theorem patch_update (h : n + 1 ≤ 2 ^ w) :
    patch (Function.update M d (f 0)) (d + 1#w) (fun i => f (i + 1)) n = patch M d f (n + 1) := by
  rw [← patch_one, Nat.add_comm n 1, ← patch_append (by omega)]
  simp only [Nat.add_comm]

/-- A word is four bytes. -/
theorem putWord_eq_patch {k : ℕ} (M : BitVec (k + 2) → BitVec 8) (a : BitVec (k + 2))
    (v : BitVec 32) : ByteMemory.putWord M a v =
      patch M a (fun i => ByteMemory.byteAt (BitVec.ofNat 2 i) v) 4 := by
  have h4 : 2 + 2 ≤ 2 ^ (k + 2) := by
    have := Nat.one_le_two_pow (n := k)
    rw [Nat.pow_add]
    omega
  have h3 : a + 2#(k + 2) + 1#(k + 2) = a + 3#(k + 2) := by
    rw [BitVec.add_assoc, ← BitVec.ofNat_add]
  rw [show (4 : ℕ) = 2 + 2 from rfl, ← patch_append h4, patch_two (by omega),
    patch_two (by omega), h3]
  rfl

/-- A stretch in front of another one. -/
theorem patch_prepend (h : n + m ≤ 2 ^ w) :
    patch (patch M (d + BitVec.ofNat w n) (fun i => f (n + i)) m) d f n = patch M d f (n + m) := by
  funext a
  have hx := (a - d).isLt
  rw [← patch_append h]
  by_cases hm : m = 0
  · subst hm
    rw [patch_zero, patch_zero]
  · unfold patch
    rw [toNat_sub_add (by omega)]
    by_cases hn : n ≤ (a - d).toNat
    · have hlt : ¬ (a - d).toNat < n := by omega
      simp only [if_neg hlt]
    · have hlt : (a - d).toNat < n := by omega
      rw [if_pos hlt, if_neg hn, if_neg (by omega), if_pos hlt]

end Patch
