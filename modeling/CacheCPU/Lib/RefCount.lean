import Mathlib.Data.Finset.Card
import Mathlib.Data.Finset.Prod
import Mathlib.Logic.Function.Basic

/-!
# Counting references

Slots that hold an object or nothing, and how many of them hold a given one.
-/

namespace RefCount

variable {ι κ : Type*} [DecidableEq κ]

/-- How many of the slots in `S` hold `p`. -/
def refs (S : Finset ι) (f : ι → Option κ) (p : κ) : ℕ := (S.filter fun i => f i = some p).card

variable {S T : Finset ι} {f g : ι → Option κ} {p : κ}

theorem refs_congr (h : ∀ i ∈ S, f i = g i) : refs S f p = refs S g p := by
  unfold refs
  congr 1
  exact Finset.filter_congr fun i hi => by rw [h i hi]

theorem refs_eq_zero : refs S f p = 0 ↔ ∀ i ∈ S, f i ≠ some p := by
  simp [refs, Finset.filter_eq_empty_iff]

theorem refs_pos {i : ι} (hi : i ∈ S) (h : f i = some p) : 0 < refs S f p :=
  Finset.card_pos.2 ⟨i, Finset.mem_filter.2 ⟨hi, h⟩⟩

/-- Slots that hold nothing do not count. -/
theorem refs_subset (h : S ⊆ T) (hf : ∀ i ∈ T, i ∉ S → f i = none) : refs T f p = refs S f p := by
  unfold refs
  congr 1
  ext i
  simp only [Finset.mem_filter]
  constructor
  · rintro ⟨hi, hp⟩
    by_contra hc
    have := hf i hi fun hS => hc ⟨hS, hp⟩
    simp [this] at hp
  · exact fun hi => ⟨h hi.1, hi.2⟩

variable [DecidableEq ι]

theorem refs_erase {i : ι} (hi : i ∈ S) :
    refs S f p = refs (S.erase i) f p + if f i = some p then 1 else 0 := by
  unfold refs
  rw [Finset.filter_erase]
  split_ifs with h
  · rw [Finset.card_erase_add_one (Finset.mem_filter.2 ⟨hi, h⟩)]
  · rw [Finset.erase_eq_of_notMem (by simp [h]), Nat.add_zero]

/-- A slot gets a new value: its old object loses a reference, the new one gains one. -/
theorem refs_update {i : ι} (hi : i ∈ S) (v : Option κ) :
    refs S (Function.update f i v) p + (if f i = some p then 1 else 0)
      = refs S f p + if v = some p then 1 else 0 := by
  have h : refs (S.erase i) (Function.update f i v) p = refs (S.erase i) f p :=
    refs_congr fun j hj => Function.update_of_ne (Finset.ne_of_mem_erase hj) v f
  rw [refs_erase hi, refs_erase (f := f) hi, h, Function.update_self]
  omega

end RefCount
