import Mathlib.Data.List.Basic

/-!
# Invariants of loops over a list

`P done s` holds of the elements gone through so far and the state then. The rules differ in how
the body can end: always, with an exception in `Option`, or with an error in `Except`.
-/

namespace Loop

universe u

variable {α : Type u} {ε σ : Type*} {P : List α → σ → Prop} {l : List α} {s s' : σ}

theorem foldl_inv {f : σ → α → σ} (h0 : P [] s)
    (hstep : ∀ done x rest s, l = done ++ x :: rest → P done s → P (done ++ [x]) (f s x)) :
    P l (l.foldl f s) := by
  suffices h : ∀ rest done s, l = done ++ rest → P done s → P l (rest.foldl f s) from
    h l [] s rfl h0
  intro rest
  induction rest with
  | nil =>
    intro done s hl hs
    rw [List.append_nil] at hl
    exact hl ▸ hs
  | cons x rest ih =>
    intro done s hl hs
    exact ih (done ++ [x]) (f s x) (by simp [hl]) (hstep done x rest s hl hs)

/-- The loop comes to its end, and the invariant holds there. -/
theorem foldlM_some {f : σ → α → Option σ} (h0 : P [] s)
    (hstep : ∀ done x rest s, l = done ++ x :: rest → P done s →
      ∃ s', f s x = some s' ∧ P (done ++ [x]) s') :
    ∃ s', l.foldlM f s = some s' ∧ P l s' := by
  suffices h : ∀ rest done s, l = done ++ rest → P done s →
      ∃ s', rest.foldlM f s = some s' ∧ P l s' from h l [] s rfl h0
  intro rest
  induction rest with
  | nil =>
    intro done s hl hs
    rw [List.append_nil] at hl
    exact ⟨s, rfl, hl ▸ hs⟩
  | cons x rest ih =>
    intro done s hl hs
    obtain ⟨s', hx, hs'⟩ := hstep done x rest s hl hs
    obtain ⟨t, ht, hP⟩ := ih (done ++ [x]) s' (by simp [hl]) hs'
    refine ⟨t, ?_, hP⟩
    rw [List.foldlM_cons, hx]
    exact ht

/-- A body that comes to its end more often leaves the loops that came to their end. -/
theorem foldlM_mono {f g : σ → α → Option σ} (h : ∀ s a s', f s a = some s' → g s a = some s')
    (hl : l.foldlM f s = some s') : l.foldlM g s = some s' := by
  induction l generalizing s with
  | nil => exact hl
  | cons a l ih =>
    rw [List.foldlM_cons] at hl ⊢
    obtain ⟨t, ht, hl⟩ := Option.bind_eq_some_iff.1 hl
    exact Option.bind_eq_some_iff.2 ⟨t, h s a t ht, ih hl⟩

theorem bind_eq_ok {β γ : Type u} {x : Except ε β} {f : β → Except ε γ} {b : γ} :
    x >>= f = .ok b ↔ ∃ a, x = .ok a ∧ f a = .ok b := by
  cases x with
  | error e => simp [bind, Except.bind]
  | ok a => simp [bind, Except.bind]

theorem foldlM_ok {f : σ → α → Except ε σ} (hl : l.foldlM f s = .ok s') (h0 : P [] s)
    (hstep : ∀ done x rest s s', l = done ++ x :: rest → P done s → f s x = .ok s' →
      P (done ++ [x]) s') : P l s' := by
  suffices h : ∀ rest done s, l = done ++ rest → P done s → rest.foldlM f s = .ok s' → P l s' from
    h l [] s rfl h0 hl
  intro rest
  induction rest with
  | nil =>
    intro done s hl hs h
    rw [List.append_nil] at hl
    cases h
    exact hl ▸ hs
  | cons x rest ih =>
    intro done s hl hs h
    rw [List.foldlM_cons, bind_eq_ok] at h
    obtain ⟨t, hx, ht⟩ := h
    exact ih (done ++ [x]) t (by simp [hl]) (hstep done x rest s t hl hs hx) ht

/-- A pass over a list that fails nowhere. -/
theorem mapM_some {β : Type u} {f : α → Option β} (h : ∀ a ∈ l, ∃ b, f a = some b) :
    ∃ l', l.mapM f = some l' ∧ l'.length = l.length
      ∧ ∀ (i : ℕ) (a : α), l[i]? = some a → ∃ b, l'[i]? = some b ∧ f a = some b := by
  induction l with
  | nil => exact ⟨[], rfl, rfl, by simp⟩
  | cons x l ih =>
    obtain ⟨y, hy⟩ := h x (by simp)
    obtain ⟨l', hl', hlen, hget⟩ := ih fun a ha => h a (List.mem_cons_of_mem _ ha)
    refine ⟨y :: l', ?_, by simp [hlen], fun i a hi => ?_⟩
    · rw [List.mapM_cons, hy, hl']
      rfl
    · cases i with
      | zero =>
        cases hi
        exact ⟨y, rfl, hy⟩
      | succ i => exact hget i a hi

theorem forM_ok {f : α → Except ε PUnit} (h : l.forM f = .ok ⟨⟩) : ∀ x ∈ l, f x = .ok ⟨⟩ := by
  induction l with
  | nil => simp
  | cons x l ih =>
    rw [List.forM_eq_forM, List.forM_cons, bind_eq_ok] at h
    obtain ⟨_, hx, hl⟩ := h
    exact List.forall_mem_cons.2 ⟨hx, ih hl⟩

end Loop
