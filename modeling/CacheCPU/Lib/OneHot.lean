import Mathlib.Data.List.Basic

/-!
# One-hot selection

Rows of bits or-ed together: when at most one of them is not zero, the result is that row. This is
how a fully associative lookup selects without a priority order.
-/

namespace OneHot

variable {ι : Type*} {n : ℕ} {f g : ι → BitVec n} {l : List ι} {i : ι}

/-- The rows or-ed together. -/
def orRows (f : ι → BitVec n) (l : List ι) : BitVec n := (l.map f).foldr (· ||| ·) 0#n

@[simp] theorem orRows_nil : orRows f [] = 0#n := rfl

@[simp] theorem orRows_cons : orRows f (i :: l) = f i ||| orRows f l := rfl

theorem orRows_zero (h : ∀ j ∈ l, f j = 0#n) : orRows f l = 0#n := by
  induction l with
  | nil => rfl
  | cons j l ih =>
    have hj : f j = 0#n := h j (by simp)
    have hl : orRows f l = 0#n := ih fun k hk => h k (by simp [hk])
    rw [orRows_cons, hj, hl, BitVec.or_zero]

theorem orRows_congr (h : ∀ j ∈ l, f j = g j) : orRows f l = orRows g l := by
  unfold orRows
  rw [List.map_congr_left h]

/-- The row selected is the result. -/
theorem orRows_unique (hi : i ∈ l) (h : ∀ j ∈ l, j ≠ i → f j = 0#n) : orRows f l = f i := by
  induction l with
  | nil => simp at hi
  | cons j l ih =>
    rw [orRows_cons]
    by_cases hj : j = i
    · subst hj
      by_cases hl : j ∈ l
      · rw [ih hl fun k hk => h k (by simp [hk]), BitVec.or_self]
      · have hz : orRows f l = 0#n :=
          orRows_zero fun k hk => h k (by simp [hk]) fun hn => hl (hn ▸ hk)
        rw [hz, BitVec.or_zero]
    · have hl : i ∈ l := by simpa [Ne.symm hj] using hi
      rw [h j (by simp) hj, BitVec.zero_or, ih hl fun k hk => h k (by simp [hk])]

end OneHot
