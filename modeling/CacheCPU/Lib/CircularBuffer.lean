import Mathlib.Data.List.Basic
import Mathlib.Data.Nat.ModEq
import Mathlib.Logic.Function.Basic

/-!
# Circular buffers

The elements waiting in an array of `cap` cells, from the cell `r % cap` on and around the end. The
positions may run freely or be wrapped, since only their remainders count.
-/

namespace CircularBuffer

variable {α : Type*}

/-- The cells from `r` on hold `xs`, in order. -/
structure Window (buf : ℕ → α) (cap r : ℕ) (xs : List α) : Prop where
  le : xs.length ≤ cap
  get : ∀ i (h : i < xs.length), buf ((r + i) % cap) = xs[i]

variable {buf : ℕ → α} {cap r : ℕ} {x : α} {xs : List α}

theorem Window.nil : Window buf cap r [] := ⟨Nat.zero_le _, fun i h => absurd h (by simp)⟩

/-- Two positions in a window are different cells. -/
theorem add_mod_ne {i j : ℕ} (hij : i < j) (hj : j < cap) : (r + i) % cap ≠ (r + j) % cap := by
  intro h
  have hm : i % cap = j % cap := Nat.ModEq.add_left_cancel' r h
  rw [Nat.mod_eq_of_lt (by omega), Nat.mod_eq_of_lt hj] at hm
  omega

theorem Window.push (h : Window buf cap r xs) (hx : xs.length < cap) :
    Window (Function.update buf ((r + xs.length) % cap) x) cap r (xs ++ [x]) := by
  refine ⟨by rw [List.length_append]; exact hx, fun i hi => ?_⟩
  rw [List.length_append, List.length_singleton] at hi
  rcases Nat.lt_succ_iff_lt_or_eq.1 hi with hlt | rfl
  · rw [Function.update_of_ne (add_mod_ne hlt hx), h.get i hlt, List.getElem_append_left hlt]
  · rw [Function.update_self]
    simp

theorem Window.head (h : Window buf cap r (x :: xs)) : buf (r % cap) = x := by
  have := h.get 0 (by simp)
  rwa [Nat.add_zero, List.getElem_cons_zero] at this

theorem Window.tail (h : Window buf cap r (x :: xs)) : Window buf cap (r + 1) xs := by
  refine ⟨?_, fun i hi => ?_⟩
  · have := h.le
    rw [List.length_cons] at this
    omega
  · have := h.get (i + 1) (by simpa using hi)
    rw [show r + 1 + i = r + (i + 1) by omega, this]
    simp

/-- Only the cell a window starts at counts. -/
theorem Window.congr {r' : ℕ} (h : Window buf cap r xs) (hr : r % cap = r' % cap) :
    Window buf cap r' xs := by
  refine ⟨h.le, fun i hi => ?_⟩
  rw [Nat.add_mod, ← hr, ← Nat.add_mod, h.get i hi]

end CircularBuffer
