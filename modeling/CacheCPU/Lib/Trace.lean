import Mathlib.Logic.Relation
import Mathlib.Data.Nat.Notation

/-!
# Traces of deterministic systems

A state is followed by another one silently or with an output, or the system stops with a result. A
system whose every step is made of one or more steps of another, of which the last one shows what
the step shows, has the same traces as that other one. Both run forever or neither does.
-/

namespace Trace

variable {S T ι ρ : Type*}

inductive Act (S ι ρ : Type*) where
  | silent (s : S)
  | emit (i : ι) (s : S)
  | stop (r : ρ)

/-- What is seen of a run from a state: its outputs, and the result if it has stopped. The run may be
cut anywhere. -/
inductive Shows (step : S → Option (Act S ι ρ)) : S → List ι → Option ρ → Prop
  | cut (s : S) : Shows step s [] none
  | silent {s s' : S} {is : List ι} {r : Option ρ} (h : step s = some (.silent s'))
      (hs : Shows step s' is r) : Shows step s is r
  | emit {s s' : S} {i : ι} {is : List ι} {r : Option ρ} (h : step s = some (.emit i s'))
      (hs : Shows step s' is r) : Shows step s (i :: is) r
  | stop {s : S} {r : ρ} (h : step s = some (.stop r)) : Shows step s [] (some r)

/-- Silent steps, any number of them. -/
def Quiet (step : S → Option (Act S ι ρ)) (s s' : S) : Prop :=
  Relation.ReflTransGen (fun s s' => step s = some (.silent s')) s s'

variable {step : S → Option (Act S ι ρ)} {step' : T → Option (Act T ι ρ)}

theorem Quiet.refl (s : S) : Quiet step s s := Relation.ReflTransGen.refl

theorem Quiet.head {s s' s'' : S} (h : step s = some (.silent s')) (hq : Quiet step s' s'') :
    Quiet step s s'' :=
  Relation.ReflTransGen.head (r := fun s s' => step s = some (.silent s')) h hq

theorem Quiet.trans {s s' s'' : S} (h : Quiet step s s') (h' : Quiet step s' s'') :
    Quiet step s s'' :=
  Relation.ReflTransGen.trans h h'

theorem Shows.quiet {s s' : S} {is : List ι} {r : Option ρ} (h : Quiet step s s')
    (hs : Shows step s' is r) : Shows step s is r := by
  induction h using Relation.ReflTransGen.head_induction_on with
  | refl => exact hs
  | head h _ ih => exact .silent h ih

/-- Runs of at most `n` steps. -/
inductive ShowsIn (step : S → Option (Act S ι ρ)) : ℕ → S → List ι → Option ρ → Prop
  | cut (n : ℕ) (s : S) : ShowsIn step n s [] none
  | silent {n : ℕ} {s s' : S} {is : List ι} {r : Option ρ} (h : step s = some (.silent s'))
      (hs : ShowsIn step n s' is r) : ShowsIn step (n + 1) s is r
  | emit {n : ℕ} {s s' : S} {i : ι} {is : List ι} {r : Option ρ}
      (h : step s = some (.emit i s')) (hs : ShowsIn step n s' is r) :
      ShowsIn step (n + 1) s (i :: is) r
  | stop {n : ℕ} {s : S} {r : ρ} (h : step s = some (.stop r)) : ShowsIn step n s [] (some r)

theorem Shows.exists_in {s : S} {is : List ι} {r : Option ρ} (h : Shows step s is r) :
    ∃ n, ShowsIn step n s is r := by
  induction h with
  | cut s => exact ⟨0, .cut 0 s⟩
  | silent h _ ih =>
    obtain ⟨n, hn⟩ := ih
    exact ⟨n + 1, .silent h hn⟩
  | emit h _ ih =>
    obtain ⟨n, hn⟩ := ih
    exact ⟨n + 1, .emit h hn⟩
  | stop h => exact ⟨0, .stop h⟩

theorem ShowsIn.shows {n : ℕ} {s : S} {is : List ι} {r : Option ρ} (h : ShowsIn step n s is r) :
    Shows step s is r := by
  induction h with
  | cut n s => exact .cut s
  | silent h _ ih => exact .silent h ih
  | emit h _ ih => exact .emit h ih
  | stop h => exact .stop h

theorem ShowsIn.succ {n : ℕ} {s : S} {is : List ι} {r : Option ρ} (h : ShowsIn step n s is r) :
    ShowsIn step (n + 1) s is r := by
  induction h with
  | cut n s => exact .cut _ s
  | silent h _ ih => exact .silent h ih
  | emit h _ ih => exact .emit h ih
  | stop h => exact .stop h

/-- The steps are determined, so a run follows the silent steps as far as it goes. -/
theorem ShowsIn.follow {s s' : S} {is : List ι} {r : Option ρ} (h : Quiet step s s') :
    ∀ {n : ℕ}, ShowsIn step n s is r → (is = [] ∧ r = none) ∨ ShowsIn step n s' is r := by
  induction h using Relation.ReflTransGen.head_induction_on with
  | refl => exact fun hs => .inr hs
  | head h _ ih =>
    intro n hs
    cases hs with
    | cut => exact .inl ⟨rfl, rfl⟩
    | silent h' hs' =>
      rw [h] at h'
      cases h'
      rcases ih hs' with hc | hs'
      · exact .inl hc
      · exact .inr hs'.succ
    | emit h' => rw [h] at h'; cases h'
    | stop h' => rw [h] at h'; cases h'

/-- A run that stops shows one thing. -/
theorem Shows.unique {s : S} {is is' : List ι} {r r' : Option ρ} (h : Shows step s is r)
    (h' : Shows step s is' r') (hr : r.isSome) (hr' : r'.isSome) : is = is' := by
  induction h generalizing is' with
  | cut => cases hr
  | silent h _ ih =>
    cases h' with
    | cut => cases hr'
    | silent h1 hs1 =>
      rw [h] at h1
      cases h1
      exact ih hs1 hr
    | emit h1 => rw [h] at h1; cases h1
    | stop h1 => rw [h] at h1; cases h1
  | emit h _ ih =>
    cases h' with
    | cut => cases hr'
    | silent h1 => rw [h] at h1; cases h1
    | emit h1 hs1 =>
      rw [h] at h1
      cases h1
      exact congrArg _ (ih hs1 hr)
    | stop h1 => rw [h] at h1; cases h1
  | stop h =>
    cases h' with
    | cut => cases hr'
    | silent h1 => rw [h] at h1; cases h1
    | emit h1 => rw [h] at h1; cases h1
    | stop => rfl

/-- How the steps from `s` and `t` compare: one of `t` is several of `s`. -/
inductive Matches (step : S → Option (Act S ι ρ)) (step' : T → Option (Act T ι ρ))
    (R : S → T → Prop) (s : S) (t : T) : Prop
  | silent {s₁ s' : S} {t' : T} (ht : step' t = some (.silent t')) (hs : step s = some (.silent s₁))
      (hq : Quiet step s₁ s') (hR : R s' t')
  | emit {s₁ s' : S} {i : ι} {t' : T} (ht : step' t = some (.emit i t')) (hq : Quiet step s s₁)
      (hs : step s₁ = some (.emit i s')) (hR : R s' t')
  | stop {s₁ : S} {r : ρ} (ht : step' t = some (.stop r)) (hq : Quiet step s s₁)
      (hs : step s₁ = some (.stop r))

/-- The steps from related states compare, and lead to related states. -/
def Follows (step : S → Option (Act S ι ρ)) (step' : T → Option (Act T ι ρ))
    (R : S → T → Prop) : Prop :=
  ∀ s t, R s t → Matches step step' R s t

theorem Follows.shows_of {R : S → T → Prop} (hR : Follows step step' R) {s : S} {t : T}
    {is : List ι} {r : Option ρ} (h : R s t) (ht : Shows step' t is r) : Shows step s is r := by
  induction ht generalizing s with
  | cut => exact .cut s
  | silent h' _ ih =>
    cases hR _ _ h with
    | silent ht hs hq hs' =>
      rw [ht] at h'
      cases h'
      exact .silent hs (.quiet hq (ih hs'))
    | emit ht => rw [ht] at h'; cases h'
    | stop ht => rw [ht] at h'; cases h'
  | emit h' _ ih =>
    cases hR _ _ h with
    | silent ht => rw [ht] at h'; cases h'
    | emit ht hq hs hs' =>
      rw [ht] at h'
      cases h'
      exact .quiet hq (.emit hs (ih hs'))
    | stop ht => rw [ht] at h'; cases h'
  | stop h' =>
    cases hR _ _ h with
    | silent ht => rw [ht] at h'; cases h'
    | emit ht => rw [ht] at h'; cases h'
    | stop ht hq hs =>
      rw [ht] at h'
      cases h'
      exact .quiet hq (.stop hs)

/-- Every step of `t` uses up a step of `s`, so the run from `s` is the measure. -/
theorem Follows.shows_to {R : S → T → Prop} (hR : Follows step step' R) (n : ℕ) :
    ∀ {s : S} {t : T} {is : List ι} {r : Option ρ}, R s t → ShowsIn step n s is r →
      Shows step' t is r := by
  induction n using Nat.strongRecOn with
  | _ n ih =>
    intro s t is r h hs
    cases hR _ _ h with
    | silent ha h1 hq hs' =>
      cases hs with
      | cut => exact .cut t
      | silent h' hs1 =>
        rw [h1] at h'
        cases h'
        rcases hs1.follow hq with ⟨rfl, rfl⟩ | hs1
        · exact .cut t
        · exact .silent ha (ih _ (Nat.lt_succ_self _) hs' hs1)
      | emit h' => rw [h1] at h'; cases h'
      | stop h' => rw [h1] at h'; cases h'
    | emit ha hq h1 hs' =>
      rcases hs.follow hq with ⟨rfl, rfl⟩ | hs
      · exact .cut t
      · cases hs with
        | cut => exact .cut t
        | silent h' => rw [h1] at h'; cases h'
        | emit h' hs2 =>
          rw [h1] at h'
          cases h'
          exact .emit ha (ih _ (Nat.lt_succ_self _) hs' hs2)
        | stop h' => rw [h1] at h'; cases h'
    | stop ha hq h1 =>
      rcases hs.follow hq with ⟨rfl, rfl⟩ | hs
      · exact .cut t
      · cases hs with
        | cut => exact .cut t
        | silent h' => rw [h1] at h'; cases h'
        | emit h' => rw [h1] at h'; cases h'
        | stop h' =>
          rw [h1] at h'
          cases h'
          exact .stop ha

/-- The two systems show the same. -/
theorem Follows.shows_iff {R : S → T → Prop} (hR : Follows step step' R) {s : S} {t : T}
    (h : R s t) (is : List ι) (r : Option ρ) : Shows step s is r ↔ Shows step' t is r := by
  constructor
  · intro hs
    obtain ⟨n, hn⟩ := hs.exists_in
    exact hR.shows_to n h hn
  · exact hR.shows_of h

/-- Silent steps show nothing. -/
theorem Quiet.shows_iff {s s' : S} (h : Quiet step s s') (is : List ι) (r : Option ρ) :
    Shows step s is r ↔ Shows step s' is r := by
  refine ⟨fun hs => ?_, Shows.quiet h⟩
  obtain ⟨n, hn⟩ := hs.exists_in
  rcases hn.follow h with ⟨rfl, rfl⟩ | hn
  · exact .cut s'
  · exact hn.shows

end Trace
