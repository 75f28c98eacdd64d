import Mathlib.Data.List.Infix
import Mathlib.Tactic.Common

/-!
# A mailbox for one value

Values arrive and are read. A value that arrives replaces the one before. The events of a run are
listed in order, together with the steps of the reader that are neither.
-/

namespace Mailbox

inductive Event (α : Type*)
  | arrive (v : α)
  | read (v : α)
  | done
deriving DecidableEq

variable {α : Type*} {l : List (Event α)} {o : Option α} {v : α}

/-- The value that arrived last, with what the reads since then have returned. -/
def note (s : Option (α × List α)) : Event α → Option (α × List α)
  | .arrive v => some (v, [])
  | .read u => s.map fun p => (p.1, p.2 ++ [u])
  | .done => s

def since (l : List (Event α)) : Option (α × List α) := l.foldl note none

@[simp] theorem since_nil : since ([] : List (Event α)) = none := rfl

@[simp] theorem since_append (e : Event α) : since (l ++ [e]) = note (since l) e := by
  simp [since]

/-- Every value that is not replaced before it is read is returned by exactly one read. -/
def Once (l : List (Event α)) : Prop :=
  ∀ p, p <+: l → ∀ v us, since p = some (v, us) → us = [] ∨ us = [v]

/-- The value that arrived last has been returned by no read. -/
def Pending (l : List (Event α)) : Prop := ∃ v us, since l = some (v, us) ∧ v ∉ us

/-- Between two arrivals the reader completes at least two steps, so one of them lies between. -/
def spaced : Option ℕ → List (Event α) → Bool
  | _, [] => true
  | g, .arrive _ :: l => g.all (2 ≤ ·) && spaced (some 0) l
  | g, .read _ :: l => spaced g l
  | g, .done :: l => spaced (g.map (· + 1)) l

/-- The mailbox holds what is pending, and all was well up to now. -/
structure Kept (l : List (Event α)) (o : Option α) : Prop where
  once : Once l
  holds : ∀ v, o = some v ↔ since l = some (v, [])

theorem Kept.nil : Kept ([] : List (Event α)) none :=
  ⟨fun p hp v us h => by simp [List.prefix_nil.1 hp] at h, fun v => by simp⟩

/-- One event more. -/
theorem Once.append (h : Once l) {e : Event α}
    (he : ∀ v us, note (since l) e = some (v, us) → us = [] ∨ us = [v]) : Once (l ++ [e]) := by
  intro p hp v us hs
  rcases List.prefix_concat_iff.1 hp with rfl | hp
  · rw [since_append] at hs
    exact he v us hs
  · exact h p hp v us hs

theorem Kept.arrive (h : Kept l o) : Kept (l ++ [.arrive v]) (some v) := by
  refine ⟨h.once.append fun w us hs => ?_, fun w => ?_⟩
  · simp only [note, Option.some.injEq, Prod.mk.injEq] at hs
    exact .inl hs.2.symm
  · simp [note]

theorem Kept.read (h : Kept l (some v)) : Kept (l ++ [.read v]) none := by
  have hs := (h.holds v).1 rfl
  refine ⟨h.once.append fun w us hn => ?_, fun w => ?_⟩
  · simp only [hs, note, Option.map_some, List.nil_append, Option.some.injEq, Prod.mk.injEq] at hn
    obtain ⟨rfl, rfl⟩ := hn
    exact .inr rfl
  · simp [hs, note]

/-- A read before the first arrival. -/
theorem Kept.read_none (h : Kept l none) (hs : since l = none) : Kept (l ++ [.read v]) none := by
  refine ⟨h.once.append fun w us hn => ?_, fun w => ?_⟩
  · simp [hs, note] at hn
  · simp [hs, note]

theorem Kept.done (h : Kept l o) : Kept (l ++ [.done]) o := by
  refine ⟨h.once.append fun w us hn => h.once l List.prefix_rfl w us hn, fun w => ?_⟩
  rw [since_append]
  exact h.holds w

theorem Kept.pending_iff (h : Kept l o) : Pending l ↔ o.isSome = true := by
  constructor
  · rintro ⟨v, us, hs, hv⟩
    rcases h.once l List.prefix_rfl v us hs with rfl | rfl
    · rw [(h.holds v).2 hs]
      rfl
    · exact absurd (List.mem_singleton_self v) hv
  · intro ho
    obtain ⟨v, rfl⟩ := Option.isSome_iff_exists.1 ho
    exact ⟨v, [], (h.holds v).1 rfl, List.not_mem_nil⟩

end Mailbox
