import CacheCPU.Lib.OneHot
import CacheCPU.Mmu

/-!
# The TLB lookup

The matrix of `mmu_module` selects by or-ing the rows that match. With one entry for a page pair
it gives the frame and the `D` bit of the half that bit 12 of the address names.
-/

namespace CacheCPU

/-! ## The fields of an entry -/

section Fields

variable (e : BitVec 63) (odd : Bool)

def vpn2Of : BitVec 19 := e.extractLsb 62 44

def frameOf : BitVec 20 := if odd then e.extractLsb 21 2 else e.extractLsb 43 24

def dirtyOf : Bool := if odd then e.getLsbD 1 else e.getLsbD 23

def validOf : Bool := if odd then e.getLsbD 0 else e.getLsbD 22

end Fields

section Lookup

variable {t u : Tlb} {addr : BitVec 32} {i : Fin 16}

theorem tlbWhichEqual_iff : tlbWhichEqual t addr i = true ↔ vpn2Of (t i) = addr.extractLsb 31 13 :=
  beq_iff_eq

/-- A row of the matrix is the frame and `D` of the half selected. -/
theorem tlbLowTempValue_eq : tlbLowTempValue t addr i =
    if tlbWhichEqual t addr i && validOf (t i) (addr.getLsbD 12) then
      frameOf (t i) (addr.getLsbD 12) ++ BitVec.ofBool (dirtyOf (t i) (addr.getLsbD 12))
    else 0#21 := by
  have hodd : ∀ e : BitVec 63, e.extractLsb 21 1 = e.extractLsb 21 2 ++ BitVec.ofBool e[1] := by
    intro e
    ext j hj
    grind
  have heven : ∀ e : BitVec 63,
      e.extractLsb 43 23 = e.extractLsb 43 24 ++ BitVec.ofBool e[23] := by
    intro e
    ext j hj
    grind
  unfold tlbLowTempValue tlbWhichLowOdd tlbWhichLowEven frameOf dirtyOf validOf
  cases addr.getLsbD 12 <;> cases tlbWhichEqual t addr i <;> simp [hodd, heven]

theorem tlbLookupResult_eq :
    tlbLookupResult t addr = OneHot.orRows (tlbLowTempValue t addr) (List.finRange 16) := rfl

theorem tlbMissing_eq_false (hm : notUseMmu addr = false) : tlbMissing t addr = false ↔
    ∃ i, tlbWhichEqual t addr i = true ∧ validOf (t i) (addr.getLsbD 12) = true := by
  simp only [tlbMissing, hm, tlbWhichLowOdd, tlbWhichLowEven, validOf]
  cases addr.getLsbD 12 <;> simp

/-- An entry that matches alone decides the lookup. -/
theorem lookup_unique (hm : notUseMmu addr = false) (hi : tlbWhichEqual t addr i = true)
    (hone : ∀ j, tlbWhichEqual t addr j = true → j = i) :
    tlbMissing t addr = !validOf (t i) (addr.getLsbD 12) ∧
      (validOf (t i) (addr.getLsbD 12) = true →
        tlbWritable t addr = dirtyOf (t i) (addr.getLsbD 12) ∧
        physicalAddr t addr = frameOf (t i) (addr.getLsbD 12) ++ addr.extractLsb 11 0) := by
  have hmiss : tlbMissing t addr = !validOf (t i) (addr.getLsbD 12) := by
    cases hv : validOf (t i) (addr.getLsbD 12)
    · refine Bool.eq_true_of_not_eq_false fun hn => ?_
      obtain ⟨j, hj, hvj⟩ := (tlbMissing_eq_false hm).1 hn
      rw [hone j hj, hv] at hvj
      cases hvj
    · exact (tlbMissing_eq_false hm).2 ⟨i, hi, hv⟩
  refine ⟨hmiss, fun hv => ?_⟩
  have hrow : tlbLookupResult t addr = frameOf (t i) (addr.getLsbD 12) ++
      BitVec.ofBool (dirtyOf (t i) (addr.getLsbD 12)) := by
    rw [tlbLookupResult_eq, OneHot.orRows_unique (List.mem_finRange i), tlbLowTempValue_eq, hi, hv]
    · rfl
    · intro j _ hj
      have : tlbWhichEqual t addr j = false := Bool.eq_false_iff.2 fun h => hj (hone j h)
      rw [tlbLowTempValue_eq, this]
      rfl
  have hframe : ∀ (f : BitVec 20) (d : Bool), (f ++ BitVec.ofBool d).extractLsb 20 1 = f := by
    intro f d
    ext j hj
    grind
  have hdirty : ∀ (f : BitVec 20) (d : Bool), (f ++ BitVec.ofBool d).getLsbD 0 = d := by
    intro f d
    rw [BitVec.getLsbD_append]
    cases d <;> rfl
  constructor
  · rw [tlbWritable, hm, hrow, hdirty]
    rfl
  · rw [physicalAddr, hmiss, hv, hm, hrow, hframe]
    rfl

/-- The lookup depends on the entries that match only. -/
theorem lookup_congr
    (h : ∀ j, u j = t j ∨ (tlbWhichEqual u addr j = false ∧ tlbWhichEqual t addr j = false)) :
    tlbMissing u addr = tlbMissing t addr ∧ tlbWritable u addr = tlbWritable t addr ∧
      physicalAddr u addr = physicalAddr t addr := by
  have hlow : ∀ j, tlbWhichLowOdd u addr j = tlbWhichLowOdd t addr j ∧
      tlbWhichLowEven u addr j = tlbWhichLowEven t addr j ∧
      tlbLowTempValue u addr j = tlbLowTempValue t addr j := by
    intro j
    rcases h j with hj | ⟨hu, ht⟩
    · have he : tlbWhichEqual u addr j = tlbWhichEqual t addr j := by
        unfold tlbWhichEqual
        rw [hj]
      have h1 : tlbWhichLowOdd u addr j = tlbWhichLowOdd t addr j := by
        unfold tlbWhichLowOdd
        rw [he, hj]
      have h2 : tlbWhichLowEven u addr j = tlbWhichLowEven t addr j := by
        unfold tlbWhichLowEven
        rw [he, hj]
      exact ⟨h1, h2, by unfold tlbLowTempValue; rw [h1, h2, hj]⟩
    · simp [tlbLowTempValue, tlbWhichLowOdd, tlbWhichLowEven, hu, ht]
  have hmiss : tlbMissing u addr = tlbMissing t addr := by
    unfold tlbMissing
    simp only [hlow]
  have hres : tlbLookupResult u addr = tlbLookupResult t addr :=
    OneHot.orRows_congr fun j _ => (hlow j).2.2
  refine ⟨hmiss, ?_, ?_⟩
  · unfold tlbWritable
    rw [hres]
  · unfold physicalAddr
    rw [hres, hmiss]

end Lookup

end CacheCPU
