import Mathlib.Data.List.Basic
import Mathlib.Logic.Function.Iterate

/-!
# Simulation up to stalls

A deterministic system whose steps sometimes stall, and one without stalls that it follows: what
they show is the same as long as a stalled step shows nothing. Two systems that follow the same
third one show prefixes of one trace.
-/

namespace Stutter

variable {α β ω : Type*}

/-- What the first `n` steps from `a` show. -/
def trace (f : α → α) (shows : α → List ω) (a : α) : ℕ → List ω
  | 0 => []
  | n + 1 => trace f shows a n ++ shows (f^[n] a)

/-- The number of steps among the first `n` that are not stalled. -/
def advances (f : α → α) (stalls : α → Bool) (a : α) : ℕ → ℕ
  | 0 => 0
  | n + 1 => advances f stalls a n + if stalls (f^[n] a) then 0 else 1

theorem trace_prefix (f : α → α) (shows : α → List ω) (a : α) {m n : ℕ} (h : m ≤ n) :
    trace f shows a m <+: trace f shows a n := by
  induction h with
  | refl => exact List.prefix_rfl
  | step _ ih => exact ih.trans (List.prefix_append _ _)

theorem advances_le_length {f : α → α} {shows : α → List ω} {stalls : α → Bool}
    (h : ∀ a, stalls a = false → shows a ≠ []) (a : α) (n : ℕ) :
    advances f stalls a n ≤ (trace f shows a n).length := by
  induction n with
  | zero => exact Nat.le_refl _
  | succ n ih =>
    rw [advances, trace, List.length_append]
    cases hs : stalls (f^[n] a) with
    | true => simpa using Nat.le_add_right_of_le ih
    | false =>
      have := List.length_pos_of_ne_nil (h _ hs)
      simp only [Bool.false_eq_true, if_false]
      omega

/-- The rule of simulation: a stalled step keeps the relation and shows nothing, any other is
followed by one step that shows the same. -/
theorem simulation {f : α → α} {g : β → β} {stalls : α → Bool} {R : α → β → Prop}
    {shows : α → List ω} {shows' : β → List ω}
    (hstall : ∀ a b, R a b → stalls a = true → R (f a) b ∧ shows a = [])
    (hstep : ∀ a b, R a b → stalls a = false → R (f a) (g b) ∧ shows a = shows' b)
    {a : α} {b : β} (h : R a b) (n : ℕ) :
    R (f^[n] a) (g^[advances f stalls a n] b) ∧
      trace f shows a n = trace g shows' b (advances f stalls a n) := by
  induction n with
  | zero => exact ⟨h, rfl⟩
  | succ n ih =>
    rw [Function.iterate_succ_apply', trace, advances]
    cases hs : stalls (f^[n] a) with
    | true =>
      obtain ⟨hr, hno⟩ := hstall _ _ ih.1 hs
      simp only [if_true, Nat.add_zero, hno, List.append_nil]
      exact ⟨hr, ih.2⟩
    | false =>
      obtain ⟨hr, hsame⟩ := hstep _ _ ih.1 hs
      simp only [Bool.false_eq_true, if_false]
      refine ⟨?_, by rw [trace, hsame, ih.2]⟩
      rw [Function.iterate_succ_apply']
      exact hr

/-- If stalls run out, any number of steps is made in the end. -/
theorem advances_unbounded {f : α → α} (stalls : α → Bool) {μ : α → ℕ} {P : α → Prop}
    (hkeep : ∀ a, P a → P (f a)) (hμ : ∀ a, P a → stalls a = true → μ (f a) < μ a) {a : α}
    (h : P a) (k : ℕ) : ∃ n, k ≤ advances f stalls a n := by
  have hP : ∀ n, P (f^[n] a) := by
    intro n
    induction n with
    | zero => exact h
    | succ n ih =>
      rw [Function.iterate_succ_apply']
      exact hkeep _ ih
  -- the step after a stall of measure `d` comes within `d` more steps
  have hnext : ∀ d n, μ (f^[n] a) ≤ d →
      ∃ m, advances f stalls a n + 1 ≤ advances f stalls a m := by
    intro d
    induction d with
    | zero =>
      intro n hn
      cases hs : stalls (f^[n] a) with
      | true =>
        have := hμ _ (hP n) hs
        omega
      | false => exact ⟨n + 1, by simp [advances, hs]⟩
    | succ d ih =>
      intro n hn
      cases hs : stalls (f^[n] a) with
      | true =>
        have hlt : μ (f^[n + 1] a) < μ (f^[n] a) := by
          rw [Function.iterate_succ_apply']
          exact hμ _ (hP n) hs
        obtain ⟨m, hm⟩ := ih (n + 1) (by omega)
        exact ⟨m, by simpa [advances, hs] using hm⟩
      | false => exact ⟨n + 1, by simp [advances, hs]⟩
  induction k with
  | zero => exact ⟨0, Nat.zero_le _⟩
  | succ k ih =>
    obtain ⟨n, hn⟩ := ih
    obtain ⟨m, hm⟩ := hnext _ n (Nat.le_refl _)
    exact ⟨m, by omega⟩

end Stutter
