import Mathlib.Data.List.Nodup
import Mathlib.Data.Nat.Init
import Mathlib.Logic.Relation
import Mathlib.Order.Nat

/-!
# Chains of parents

Every member has one parent or none. The chain of a member goes from it up to a root.
-/

namespace Forest

variable {α : Type*} {parent : α → Option α}

variable (parent) in
/-- The members from `a` up to its root, `a` first. -/
inductive Chain : α → List α → Prop
  | root {a : α} (h : parent a = none) : Chain a [a]
  | step {a b : α} {l : List α} (h : parent a = some b) (hb : Chain b l) : Chain a (a :: l)

variable (parent) in
/-- `b` is `a` or is reached from it through parents. -/
def Ancestor (a b : α) : Prop := Relation.ReflTransGen (fun a b => parent a = some b) a b

/-- Where parents have a smaller rank, every member has a chain. -/
theorem exists_chain {s : Set α} (rank : α → ℕ)
    (h : ∀ a ∈ s, ∀ b, parent a = some b → b ∈ s ∧ rank b < rank a) :
    ∀ a ∈ s, ∃ l, Chain parent a l := by
  intro a
  induction hn : rank a using Nat.strong_induction_on generalizing a with
  | _ n ih =>
    intro ha
    rcases hp : parent a with _ | b
    · exact ⟨[a], .root hp⟩
    · obtain ⟨hb, hlt⟩ := h a ha b hp
      obtain ⟨l, hl⟩ := ih (rank b) (hn ▸ hlt) b rfl hb
      exact ⟨a :: l, .step hp hl⟩

namespace Chain

variable {a b : α} {l l' : List α}

/-- A chain starts with its member, and the rest is the chain of the parent. -/
theorem cases_eq (h : Chain parent a l) :
    (parent a = none ∧ l = [a]) ∨ ∃ b l', parent a = some b ∧ l = a :: l' ∧ Chain parent b l' := by
  cases h with
  | root hp => exact .inl ⟨hp, rfl⟩
  | step hp hb => exact .inr ⟨_, _, hp, rfl, hb⟩

theorem exists_cons (h : Chain parent a l) : ∃ l', l = a :: l' := by
  cases h with
  | root => exact ⟨[], rfl⟩
  | step => exact ⟨_, rfl⟩

theorem unique (h : Chain parent a l) (h' : Chain parent a l') : l = l' := by
  induction h generalizing l' with
  | root hp =>
    cases h' with
    | root => rfl
    | step hp' => simp [hp] at hp'
  | step hp _ ih =>
    cases h' with
    | root hp' => simp [hp] at hp'
    | step hp' hb' =>
      rw [hp] at hp'
      cases hp'
      rw [ih hb']

theorem mem_iff (h : Chain parent a l) : b ∈ l ↔ Ancestor parent a b := by
  unfold Ancestor
  induction h with
  | root hp =>
    rw [Relation.ReflTransGen.cases_head_iff]
    simp [hp, eq_comm]
  | step hp _ ih =>
    rw [List.mem_cons, ih]
    constructor
    · rintro (rfl | h)
      · exact .refl
      · exact .head hp h
    · intro h
      rcases h.cases_head with rfl | ⟨c, hc, h⟩
      · exact .inl rfl
      · rw [hp] at hc
        cases hc
        exact .inr h

/-- The chain of an ancestor is the rest of the chain from it on. -/
theorem suffix (h : Chain parent a l) (hb : b ∈ l) : ∃ l', Chain parent b l' ∧ l' <:+ l := by
  induction h with
  | root hp =>
    rw [List.mem_singleton] at hb
    subst hb
    exact ⟨_, .root hp, List.suffix_rfl⟩
  | step hp hc ih =>
    rcases List.mem_cons.1 hb with rfl | hb
    · exact ⟨_, .step hp hc, List.suffix_rfl⟩
    · obtain ⟨l', hl', hs⟩ := ih hb
      exact ⟨l', hl', hs.trans (List.suffix_cons _ _)⟩

section Rank

variable {s : Set α} {rank : α → ℕ}
  (hrank : ∀ a ∈ s, ∀ b, parent a = some b → b ∈ s ∧ rank b < rank a)
include hrank

theorem mem_of_mem (h : Chain parent a l) (ha : a ∈ s) (hb : b ∈ l) : b ∈ s ∧ rank b ≤ rank a := by
  induction h with
  | root =>
    rw [List.mem_singleton] at hb
    subst hb
    exact ⟨ha, le_rfl⟩
  | step hp _ ih =>
    rcases List.mem_cons.1 hb with rfl | hb
    · exact ⟨ha, le_rfl⟩
    · have h' := hrank _ ha _ hp
      exact ⟨(ih h'.1 hb).1, (ih h'.1 hb).2.trans h'.2.le⟩

theorem nodup (h : Chain parent a l) (ha : a ∈ s) : l.Nodup := by
  induction h with
  | root => exact List.nodup_singleton _
  | step hp hc ih =>
    have h' := hrank _ ha _ hp
    refine List.nodup_cons.2 ⟨fun hm => ?_, ih h'.1⟩
    exact absurd (hc.mem_of_mem hrank h'.1 hm).2 (Nat.not_le.2 h'.2)

end Rank

end Chain

end Forest
