import CacheCPU.Proofs.TlbWrite
import Mathlib.Data.Fintype.Card

/-!
# The TLB and the page tables

As long as no operation acts on a stale `TLB_P` bit, the three records that ucore keeps agree with
the hardware: an index is either on the stack of free indices and its entry is invalid, or its
entry holds the page pair of `tlb_algo_hi`, and each valid half of it is the page of a present page
table entry with `TLB_P` and that index. `load_pgdir` clears the hardware and the stack but leaves
the bits in the page tables, so a directory that is loaded again starts with stale ones.
-/

namespace CacheCPU

namespace Ucore

/-! ## Addresses and page table entries -/

section Bits

variable (la la' pte : BitVec 32) (v : BitVec 19) (odd : Bool) (idx : Fin 16)

/-- The page pair of an address. -/
def vpn2 : BitVec 19 := la.extractLsb 31 13

/-- The half of the pair. -/
def half : Bool := la.getLsbD 12

/-- The first address of a page. -/
def pageOf : BitVec 32 := v ++ BitVec.ofBool odd ++ 0#12

@[simp] theorem vpn2_pageOf : vpn2 (pageOf v odd) = v := by
  unfold vpn2 pageOf
  ext j hj
  grind

@[simp] theorem half_pageOf : half (pageOf v odd) = odd := by
  unfold half pageOf
  grind

@[simp] theorem vpn2_tlbPair : vpn2 (tlbPair la) = vpn2 la := by
  have hmask : ∀ j < 19, (0x1000#32).getLsbD (13 + j) = false := by decide
  unfold vpn2 tlbPair
  ext j hj
  have := hmask j (by omega)
  simp [BitVec.extractLsb, this]

@[simp] theorem half_tlbPair : half (tlbPair la) = !half la := by
  unfold half tlbPair
  simp

theorem hiOf_eq_pageOf : hiOf la = pageOf (vpn2 la) false := by
  have hmask : ∀ j < 32, (0xffffe000#32).getLsbD j = decide (13 ≤ j) := by decide
  unfold hiOf pageOf vpn2
  ext j hj
  have := hmask j (by omega)
  grind

/-- The page of an address is named by its pair and its half. -/
theorem same_page : pdx la' = pdx la ∧ ptx la' = ptx la ↔ vpn2 la' = vpn2 la ∧ half la' = half la := by
  have hpdx : ∀ x, pdx x = (vpn2 x).extractLsb 18 9 := by
    intro x
    unfold pdx vpn2
    ext j hj
    grind
  have hptx : ∀ x, ptx x = (vpn2 x).extractLsb 8 0 ++ BitVec.ofBool (half x) := by
    intro x
    unfold ptx vpn2 half
    ext j hj
    grind
  have hvpn2 : ∀ x, vpn2 x = pdx x ++ (ptx x).extractLsb 9 1 := by
    intro x
    unfold pdx ptx vpn2
    ext j hj
    grind
  have hhalf : ∀ x, half x = (ptx x).getLsbD 0 := by
    intro x
    unfold half ptx
    grind
  constructor
  · rintro ⟨h1, h2⟩
    rw [hvpn2, hvpn2, hhalf, hhalf, h1, h2]
    exact ⟨rfl, rfl⟩
  · rintro ⟨h1, h2⟩
    rw [hpdx, hpdx, hptx, hptx, h1, h2]
    exact ⟨rfl, rfl⟩

theorem hiOf_extract : (hiOf la).extractLsb 31 13 = vpn2 la := hiOf_vpn2 la

theorem has_tlbP : has pte tlbP = pte.getLsbD 7 := has_twoPow pte 7 (by decide)

theorem has_pteP : has pte pteP = pte.getLsbD 0 := has_twoPow pte 0 (by decide)

/-- What `tlb_miss_handler` stores. -/
abbrev mark : BitVec 32 :=
  (pte &&& 0xfffff0ff#32) ||| (BitVec.ofNat 32 idx <<< 8) ||| tlbP

theorem mark_present : (mark pte idx).getLsbD 0 = pte.getLsbD 0 := by
  simp [mark, tlbP]

theorem mark_writable : (mark pte idx).getLsbD 1 = pte.getLsbD 1 := by
  simp [mark, tlbP]

theorem mark_tlbP : (mark pte idx).getLsbD 7 = true := by
  simp [mark, tlbP]

theorem idx_getLsbD {k : ℕ} (hk : 4 ≤ k) : (BitVec.ofNat 32 idx).getLsbD k = false := by
  have hlt : (idx : ℕ) < 2 ^ k := idx.isLt.trans_le (by
    calc 16 = 2 ^ 4 := rfl
      _ ≤ 2 ^ k := Nat.pow_le_pow_right (by decide) hk)
  rw [BitVec.getLsbD_ofNat, Nat.testBit_lt_two_pow hlt, Bool.and_false]

theorem mark_tlbIdx : tlbIdx (mark pte idx) = idx := by
  have hmask : ∀ j < 4, (0xfffff0ff#32).getLsbD (8 + j) = false ∧
      (0x80#32).getLsbD (8 + j) = false ∧ (0xf#32).getLsbD j = true := by decide
  have hbits : ((mark pte idx) >>> 8 &&& 0xf#32).setWidth 4 = BitVec.ofFin idx := by
    ext j hj
    obtain ⟨h1, h2, h3⟩ := hmask j hj
    have hlt : j < 32 := by omega
    rw [BitVec.getElem_setWidth, BitVec.getLsbD_and, h3, Bool.and_true, BitVec.getLsbD_ushiftRight,
      mark, tlbP, BitVec.getLsbD_or, BitVec.getLsbD_or, BitVec.getLsbD_and, h1, h2,
      BitVec.getLsbD_shiftLeft, BitVec.getLsbD_ofNat]
    simp [hlt, show 8 + j < 32 by omega]
  unfold tlbIdx
  rw [hbits]

theorem mark_frame : (mark pte idx).extractLsb 31 12 = pte.extractLsb 31 12 := by
  have hmask : ∀ j < 20, (0xfffff0ff#32).getLsbD (12 + j) = true ∧
      (0x80#32).getLsbD (12 + j) = false := by decide
  ext j hj
  obtain ⟨h1, h2⟩ := hmask j (by omega)
  have h3 := idx_getLsbD idx (k := 12 + j - 8) (by omega)
  simp [BitVec.extractLsb, mark, tlbP, h1, h2, h3]

theorem clear_getLsbD {k : ℕ} (hk : k ≠ 7) : (pte &&& ~~~tlbP).getLsbD k = pte.getLsbD k := by
  have hbit : tlbP.getLsbD k = false := by
    rw [show tlbP = BitVec.twoPow 32 7 from rfl, BitVec.getLsbD_twoPow]
    simp [Ne.symm hk]
  by_cases hlt : k < 32
  · rw [BitVec.getLsbD_and, BitVec.getLsbD_not, hbit]
    simp [hlt]
  · rw [BitVec.getLsbD_of_ge _ _ (by omega), BitVec.getLsbD_of_ge _ _ (by omega)]

theorem clear_tlbP : (pte &&& ~~~tlbP).getLsbD 7 = false := by
  simp [tlbP]

end Bits

namespace Kernel

variable {δ : Type} {s s' : Kernel δ} {d d' : δ} {la la' pte : BitVec 32} {i j idx : Fin 16}
  {odd : Bool} {f : BitVec 32 → BitVec 32}

variable (la) in
theorem getPte_congr (hv : vpn2 la' = vpn2 la) (hh : half la' = half la) :
    s.getPte d la' = s.getPte d la := by
  obtain ⟨h1, h2⟩ := (same_page la la').2 ⟨hv, hh⟩
  rw [getPte, getPte, h1, h2]

/-! ## The invariant -/

/-- The half `odd` of entry `i` is the page of a present entry of `d` that says so. -/
def Marked (s : Kernel δ) (d : δ) (i : Fin 16) (odd : Bool) : Prop :=
  ∃ pte, s.getPte d (pageOf (vpn2Of (s.tlb i)) odd) = some pte ∧ pte.getLsbD 0 = true ∧
    pte.getLsbD 7 = true ∧ tlbIdx pte = i ∧ frameOf (s.tlb i) odd = pte.extractLsb 31 12 ∧
    dirtyOf (s.tlb i) odd = pte.getLsbD 1

/-- Entry `i` holds the page pair of `tlb_algo_hi`. -/
structure Used (s : Kernel δ) (d : δ) (i : Fin 16) : Prop where
  valid : ∃ odd, validOf (s.tlb i) odd = true
  hi : s.algoHi i = pageOf (vpn2Of (s.tlb i)) false
  mapped : vpn2Of (s.tlb i) ≠ vpn2 entryHiInvalid
  marked : ∀ odd, validOf (s.tlb i) odd = true → Marked s d i odd

/-- The hardware and the records of the software agree on the directory `d`. -/
structure Inv (s : Kernel δ) (d : δ) : Prop where
  nodup : s.algoEmpty.Nodup
  free : ∀ i ∈ s.algoEmpty, s.tlb i = tlbEntry entryHiInvalid entryLoInvalid entryLoInvalid
  used : ∀ i ∉ s.algoEmpty, Used s d i
  unique : ∀ i j, i ∉ s.algoEmpty → j ∉ s.algoEmpty → vpn2Of (s.tlb i) = vpn2Of (s.tlb j) → i = j

theorem Used.frame (h : Used s d i) (ht : s'.tlb i = s.tlb i) (ha : s'.algoHi i = s.algoHi i)
    (hp : ∀ odd, s'.getPte d (pageOf (vpn2Of (s.tlb i)) odd) =
      s.getPte d (pageOf (vpn2Of (s.tlb i)) odd)) : Used s' d i := by
  refine ⟨by rw [ht]; exact h.valid, by rw [ha, ht]; exact h.hi, by rw [ht]; exact h.mapped, ?_⟩
  intro odd hv
  rw [ht] at hv
  unfold Marked
  rw [ht, hp]
  exact h.marked odd hv

theorem validOf_invalid : validOf (tlbEntry entryHiInvalid entryLoInvalid entryLoInvalid) odd =
    false := by
  cases odd <;> rfl

/-- A valid half is that of a used entry. -/
theorem Inv.used_of_valid (h : Inv s d) (hv : validOf (s.tlb i) odd = true) :
    i ∉ s.algoEmpty := by
  intro hi
  rw [h.free i hi, validOf_invalid] at hv
  cases hv

/-- The hardware agrees with the page tables of the current directory: no page pair is in two
entries, and every valid half translates its page to the frame and the write bit of a present page
table entry. -/
structure Coherent (s : Kernel δ) (d : δ) : Prop where
  unique : ∀ i j, vpn2Of (s.tlb i) = vpn2Of (s.tlb j) → vpn2Of (s.tlb i) ≠ vpn2 entryHiInvalid →
    i = j
  translates : ∀ i odd, validOf (s.tlb i) odd = true →
    ∃ pte, s.getPte d (pageOf (vpn2Of (s.tlb i)) odd) = some pte ∧ has pte pteP = true ∧
      (frameOf (s.tlb i) odd).setWidth 32 = ppn pte ∧ dirtyOf (s.tlb i) odd = has pte pteW

theorem setWidth_frame (v : BitVec 32) : (v.extractLsb 31 12).setWidth 32 = ppn v := by
  unfold ppn
  ext j hj
  grind

theorem Inv.coherent (h : Inv s d) : Coherent s d := by
  have hfree : ∀ i, vpn2Of (s.tlb i) ≠ vpn2 entryHiInvalid → i ∉ s.algoEmpty := by
    intro i hne hi
    rw [h.free i hi, vpn2Of_tlbEntry] at hne
    exact hne rfl
  refine ⟨fun i j hij hne => h.unique i j (hfree i hne) (hfree j (hij ▸ hne)) hij,
    fun i odd hv => ?_⟩
  obtain ⟨pte, hget, hp, -, -, hframe, hdirty⟩ := (h.used i (h.used_of_valid hv)).marked odd hv
  exact ⟨pte, hget, by rw [has_pteP, hp], by rw [hframe, setWidth_frame],
    by rw [hdirty, has_pteW]⟩

/-- The page of `la` is in no entry. -/
def Absent (s : Kernel δ) (la : BitVec 32) : Prop :=
  ∀ i, vpn2Of (s.tlb i) = vpn2 la → validOf (s.tlb i) (half la) = false

/-- A page without `TLB_P` is in no entry. -/
theorem Inv.absent (h : Inv s d)
    (hp : ∀ pte, s.getPte d la = some pte → pte.getLsbD 7 = false) : Absent s la := by
  intro i hi
  by_contra hn
  have hv : validOf (s.tlb i) (half la) = true := by simpa using hn
  obtain ⟨pte, hget, -, h7, -⟩ := (h.used i (h.used_of_valid hv)).marked _ hv
  rw [getPte_congr la (by simp [hi]) (by simp)] at hget
  exact absurd h7 (by simp only [hp pte hget, Bool.false_eq_true, not_false_eq_true])

/-- A pair neither of whose pages is in an entry is in none. -/
theorem Inv.fresh (h : Inv s d) (h1 : Absent s la) (h2 : Absent s (tlbPair la)) (hi : i ∉ s.algoEmpty) :
    vpn2Of (s.tlb i) ≠ vpn2 la := by
  intro hv
  obtain ⟨odd, hvalid⟩ := (h.used i hi).valid
  by_cases ho : odd = half la
  · rw [ho, h1 i hv] at hvalid
    cases hvalid
  · have hodd : odd = half (tlbPair la) := by rw [half_tlbPair]; exact Bool.eq_not.2 ho
    rw [hodd, h2 i (by rw [vpn2_tlbPair]; exact hv)] at hvalid
    cases hvalid

/-- A page that misses is in no entry, and is mapped. -/
theorem absent_of_missing (h : tlbMissing s.tlb la = true) :
    Absent s la ∧ vpn2 la ≠ vpn2 entryHiInvalid := by
  have hm : notUseMmu la = false := by
    by_contra hn
    simp [tlbMissing, hn] at h
  constructor
  · intro i hi
    by_contra hn
    have hv : validOf (s.tlb i) (half la) = true := by simpa using hn
    have hhit := (tlbMissing_eq_false (t := s.tlb) hm).2 ⟨i, tlbWhichEqual_iff.2 hi, hv⟩
    simp [h] at hhit
  · intro hv
    rw [notUseMmu_congr hv] at hm
    exact absurd hm (by decide)

/-- `TLB_P` is set for the page, but its index does not hold it. -/
def stale (s : Kernel δ) (d : δ) (la : BitVec 32) : Bool :=
  (s.getPte d la).any fun pte => has pte tlbP &&
    !(vpn2Of (s.tlb (tlbIdx pte)) == vpn2 la && validOf (s.tlb (tlbIdx pte)) (half la))

theorem held_of_not_stale (h : s.stale d la = false) (hget : s.getPte d la = some pte)
    (hp : has pte tlbP = true) :
    vpn2Of (s.tlb (tlbIdx pte)) = vpn2 la ∧ validOf (s.tlb (tlbIdx pte)) (half la) = true := by
  simpa [stale, hget, hp] using h

/-! ## A write to an entry -/

theorem tlbLo_eq_zero : tlbLo la = 0#32 ↔ half la = false := by
  have h := has_twoPow (la >>> 12) 0 (by decide)
  rw [BitVec.getLsbD_ushiftRight] at h
  rw [half, ← h, has]
  simp only [tlbLo, ppn, bne_eq_false_iff_eq]
  rfl

section WriteLo

variable {hi lo loPair : BitVec 32}

theorem writeLo_tlb : (s.writeLo la idx hi lo loPair).tlb = Function.update s.tlb idx
    (tlbEntry hi (if half la then loPair else lo) (if half la then lo else loPair)) := by
  simp only [writeLo, tlbLo_eq_zero]
  cases half la <;> simp [tlbWrite]

theorem lo_select : (if odd then (if half la then lo else loPair) else
    if half la then loPair else lo) = if odd = half la then lo else loPair := by
  cases odd <;> cases half la <;> simp

end WriteLo

/-- Everything but entry `idx` is in order, and no other entry holds the pair of `la`. -/
structure Room (s : Kernel δ) (d : δ) (la : BitVec 32) (idx : Fin 16) : Prop where
  nodup : s.algoEmpty.Nodup
  free : ∀ i ∈ s.algoEmpty, s.tlb i = tlbEntry entryHiInvalid entryLoInvalid entryLoInvalid
  notFree : idx ∉ s.algoEmpty
  used : ∀ i ∉ s.algoEmpty, i ≠ idx → Used s d i ∧ vpn2Of (s.tlb i) ≠ vpn2 la
  unique : ∀ i j, i ∉ s.algoEmpty → j ∉ s.algoEmpty → i ≠ idx → j ≠ idx →
    vpn2Of (s.tlb i) = vpn2Of (s.tlb j) → i = j

/-- The entry that holds the pair of `la` can be filled again. -/
theorem Inv.room_of_held (h : Inv s d) (hi : i ∉ s.algoEmpty) (hv : vpn2Of (s.tlb i) = vpn2 la) :
    Room s d la i ∧ s.algoHi i = hiOf la := by
  refine ⟨⟨h.nodup, h.free, hi, fun j hj hne => ⟨h.used j hj, fun hn => ?_⟩, ?_⟩, ?_⟩
  · exact hne (h.unique j i hj hi (hn.trans hv.symm))
  · intro j k hj hk _ _
    exact h.unique j k hj hk
  · rw [(h.used i hi).hi, hv, hiOf_eq_pageOf]

/-- Filling such an entry for `la` restores the invariant. -/
theorem Room.fill {e : BitVec 63} (h : Room s d la idx) (ht : s'.tlb = Function.update s.tlb idx e)
    (he : s'.algoEmpty = s.algoEmpty) (ha : s'.algoHi = s.algoHi)
    (hp : ∀ x, vpn2 x ≠ vpn2 la → s'.getPte d x = s.getPte d x) (hv : vpn2Of e = vpn2 la)
    (hu : Used s' d idx) : Inv s' d := by
  have hself : s'.tlb idx = e := by rw [ht, Function.update_self]
  have hne : ∀ i, i ≠ idx → s'.tlb i = s.tlb i := fun i hi => by
    rw [ht, Function.update_of_ne hi]
  refine ⟨by rw [he]; exact h.nodup, ?_, ?_, ?_⟩ <;> rw [he]
  · intro i hi
    have hii : i ≠ idx := fun hn => h.notFree (hn ▸ hi)
    rw [hne i hii, h.free i hi]
  · intro i hi
    by_cases hii : i = idx
    · rw [hii]
      exact hu
    · obtain ⟨hused, hvi⟩ := h.used i hi hii
      refine hused.frame (hne i hii) (by rw [ha]) fun odd => hp _ ?_
      rw [vpn2_pageOf]
      exact hvi
  · intro i j hi hj hij
    by_cases hii : i = idx
    · by_cases hjj : j = idx
      · rw [hii, hjj]
      · rw [hii, hself, hv, hne j hjj] at hij
        exact absurd hij.symm (h.used j hj hjj).2
    · by_cases hjj : j = idx
      · rw [hjj, hself, hv, hne i hii] at hij
        exact absurd hij (h.used i hi hii).2
      · rw [hne i hii, hne j hjj] at hij
        exact h.unique i j hi hj hii hjj hij

/-- An entry written without the half of `la` takes the page out. -/
theorem Room.absent {e : BitVec 63} (h : Room s d la idx) (ht : s'.tlb = Function.update s.tlb idx e)
    (he : validOf e (half la) = false) : Absent s' la := by
  intro i hv
  by_cases hii : i = idx
  · rw [hii, ht, Function.update_self, he]
  · rw [ht, Function.update_of_ne hii] at hv ⊢
    by_cases hi : i ∈ s.algoEmpty
    · rw [h.free i hi, validOf_invalid]
    · exact absurd hv (h.used i hi hii).2

/-! ## `load_pgdir` -/

theorem foldl_tlbWrite (l : List (Fin 16)) (t : Tlb) (hi lo0 lo1 : BitVec 32) :
    (l.foldl (fun t i => tlbWrite t i hi lo0 lo1) t) i =
      if i ∈ l then tlbEntry hi lo0 lo1 else t i := by
  induction l generalizing t with
  | nil => simp
  | cons j l ih =>
    rw [List.foldl_cons, ih]
    by_cases hi : i ∈ l
    · simp [hi]
    · by_cases hij : i = j
      · simp [hij, tlbWrite_self]
      · simp [hi, hij, tlbWrite_of_ne hij]

theorem inv_loadPgdir : Inv (s.loadPgdir d) d := by
  have hmem : ∀ i, i ∈ (s.loadPgdir d).algoEmpty := by
    intro i
    simp [loadPgdir, tlbInit, tlbInitCallback]
  refine ⟨?_, ?_, fun i hi => absurd (hmem i) hi, fun i _ hi => absurd (hmem i) hi⟩
  · simpa [loadPgdir, tlbInit, tlbInitCallback] using List.nodup_finRange 16
  · intro i _
    exact (foldl_tlbWrite _ _ _ _ _).trans (if_pos (List.mem_finRange i))

/-! ## Stores to a page table -/

variable [DecidableEq δ]

theorem getPte_updPte : (s.updPte d la f).getPte d' la' =
    if d' = d ∧ vpn2 la' = vpn2 la ∧ half la' = half la then (s.getPte d' la').map f
    else s.getPte d' la' := by
  simp only [← same_page, getPte, updPte]
  by_cases hp : d' = d ∧ pdx la' = pdx la
  · rw [if_pos hp, Option.map_map, Option.map_map]
    by_cases ht : ptx la' = ptx la
    · rw [if_pos ⟨hp.1, hp.2, ht⟩]
      simp only [Function.comp_def, ht, if_true]
    · rw [if_neg fun h => ht h.2.2]
      simp only [Function.comp_def, ht, if_false]
  · rw [if_neg hp, if_neg fun h => hp ⟨h.1, h.2.1⟩]

theorem updPte_tlb : (s.updPte d la f).tlb = s.tlb := rfl

theorem getPte_updPte_of_ne (h : vpn2 la' ≠ vpn2 la ∨ half la' ≠ half la) :
    (s.updPte d la f).getPte d' la' = s.getPte d' la' := by
  rw [getPte_updPte, if_neg]
  rintro ⟨-, h1, h2⟩
  exact h.elim (fun hn => hn h1) fun hn => hn h2

theorem getPte_createPt (h : (s.getPte d' la').isSome) :
    (s.createPt d la).getPte d' la' = s.getPte d' la' := by
  simp only [getPte, createPt, Option.isSome_map] at h ⊢
  obtain ⟨t, ht⟩ := Option.isSome_iff_exists.1 h
  split_ifs <;> simp [ht]

/-- A page that is in no entry may change. -/
theorem Inv.updPte (h : Inv s d) (ha : d' = d → Absent s la) : Inv (s.updPte d' la f) d := by
  refine ⟨h.nodup, h.free, fun i hi => ?_, h.unique⟩
  have hu := h.used i hi
  refine ⟨hu.valid, hu.hi, hu.mapped, fun odd hv => ?_⟩
  obtain ⟨pte, hget, hrest⟩ := hu.marked odd hv
  refine ⟨pte, ?_, hrest⟩
  have htlb : (s.updPte d' la f).tlb = s.tlb := rfl
  rw [htlb, getPte_updPte, if_neg, hget]
  rintro ⟨hd, hv2, hh⟩
  rw [vpn2_pageOf] at hv2
  rw [half_pageOf] at hh
  rw [htlb, hh, ha hd.symm i hv2] at hv
  cases hv

theorem Inv.createPt (h : Inv s d) : Inv (s.createPt d' la) d := by
  refine ⟨h.nodup, h.free, fun i hi => ?_, h.unique⟩
  have hu := h.used i hi
  refine ⟨hu.valid, hu.hi, hu.mapped, fun odd hv => ?_⟩
  obtain ⟨pte, hget, hrest⟩ := hu.marked odd hv
  exact ⟨pte, (getPte_createPt (by rw [show (s.createPt d' la).tlb = s.tlb from rfl, hget]; rfl)).trans
    hget, hrest⟩

/-! ## `tlb_miss_handler` -/

theorem tlbRefill_tlb {lo loPair : BitVec 32} : (s.tlbRefill d la idx lo loPair).tlb =
    Function.update s.tlb idx
      (tlbEntry (hiOf la) (if half la then loPair else lo) (if half la then lo else loPair)) :=
  writeLo_tlb

/-- The entry written by the handler. -/
theorem Room.refill {loPair : BitVec 32} (h : Room s d la idx) (hhi : s.algoHi idx = hiOf la)
    (hmap : vpn2 la ≠ vpn2 entryHiInvalid) (hget : s.getPte d la = some pte)
    (hp : pte.getLsbD 0 = true)
    (hpair : loPair.getLsbD 1 = true → ∃ pte2, loPair = entryLo pte2 ∧
      s.getPte d (tlbPair la) = some pte2 ∧ pte2.getLsbD 0 = true ∧ pte2.getLsbD 7 = true ∧
      tlbIdx pte2 = idx) : Inv (s.tlbRefill d la idx (entryLo pte) loPair) d := by
  have hself : (s.tlbRefill d la idx (entryLo pte) loPair).tlb idx = tlbEntry (hiOf la)
      (if half la then loPair else entryLo pte) (if half la then entryLo pte else loPair) := by
    rw [tlbRefill_tlb, Function.update_self]
  have hv : vpn2Of (tlbEntry (hiOf la) (if half la then loPair else entryLo pte)
      (if half la then entryLo pte else loPair)) = vpn2 la := by
    rw [vpn2Of_tlbEntry, hiOf_extract]
  refine h.fill tlbRefill_tlb rfl rfl (fun x hx => getPte_updPte_of_ne (.inl hx)) hv ?_
  refine ⟨⟨half la, ?_⟩, ?_, ?_, fun odd hvalid => ?_⟩
  · rw [hself, validOf_tlbEntry, lo_select, if_pos rfl, entryLo_valid]
  · rw [hself, hv, ← hiOf_eq_pageOf]
    exact hhi
  · rw [hself, hv]
    exact hmap
  · rw [hself, validOf_tlbEntry, lo_select] at hvalid
    unfold Marked
    rw [hself, hv, frameOf_tlbEntry, dirtyOf_tlbEntry, lo_select]
    by_cases ho : odd = half la
    · refine ⟨mark pte idx, ?_, ?_, mark_tlbP _ _, mark_tlbIdx _ _, ?_, ?_⟩
      · rw [tlbRefill, getPte_updPte, if_pos ⟨rfl, vpn2_pageOf _ _, by rw [half_pageOf, ho]⟩,
          getPte_congr la (vpn2_pageOf _ _) (by rw [half_pageOf, ho])]
        exact congrArg (Option.map _) hget
      · rw [mark_present, hp]
      · rw [if_pos ho, mark_frame, entryLo_frame]
      · rw [if_pos ho, mark_writable, entryLo_dirty]
    · rw [if_neg ho] at hvalid
      obtain ⟨pte2, hlo, hget2, hp2, h7, hidx⟩ := hpair hvalid
      refine ⟨pte2, ?_, hp2, h7, hidx, ?_, ?_⟩
      · have hodd : odd = !half la := Bool.eq_not.2 ho
        rw [tlbRefill, getPte_updPte_of_ne (.inr (by rw [half_pageOf]; exact ho)), ← hget2]
        exact getPte_congr _ (by simp) (by simp [hodd])
      · rw [if_neg ho, hlo, entryLo_frame]
      · rw [if_neg ho, hlo, entryLo_dirty]

/-- What `tlb_get_empty` does, with a free index and without one. -/
theorem tlbGetEmpty_spec (hi : BitVec 32) : ∃ s₁ idx, s.tlbGetEmpty d hi = (s₁, idx) ∧
    s₁.curPgdir = s.curPgdir ∧ s₁.tlb = s.tlb ∧ s₁.algoHi = Function.update s.algoHi idx hi ∧
    ((s.algoEmpty = idx :: s₁.algoEmpty ∧ ∀ x, s₁.getPte d x = s.getPte d x) ∨
      (s.algoEmpty = [] ∧ s₁.algoEmpty = [] ∧
        ∀ x, vpn2 x ≠ vpn2 (s.algoHi idx) → s₁.getPte d x = s.getPte d x)) := by
  unfold tlbGetEmpty
  split
  · rename_i idx rest hstack
    exact ⟨_, idx, rfl, rfl, rfl, rfl, .inl ⟨hstack, fun _ => rfl⟩⟩
  · rename_i hstack
    refine ⟨_, s.algoPtr, rfl, rfl, rfl, rfl, .inr ⟨hstack, hstack, fun x hx => ?_⟩⟩
    have hx' : vpn2 x ≠ vpn2 (tlbPair (s.algoHi s.algoPtr)) := by
      rw [vpn2_tlbPair]
      exact hx
    have hclear : ∀ (k : Kernel δ) y, vpn2 x ≠ vpn2 y →
        (k.clearTlbP d y).getPte d x = k.getPte d x :=
      fun k y hy => getPte_updPte_of_ne (.inl hy)
    exact (hclear (Kernel.clearTlbP { s with algoPtr := s.algoPtr + 1 } d (s.algoHi s.algoPtr)) _
      hx').trans (hclear { s with algoPtr := s.algoPtr + 1 } _ hx)

/-- The index that `tlb_get_empty` gives can be filled. -/
theorem Inv.room (h : Inv s d) (h1 : Absent s la) (h2 : Absent s (tlbPair la)) :
    ∃ s₁ idx, s.tlbGetEmpty d (hiOf la) = (s₁, idx) ∧ Room s₁ d la idx ∧
      s₁.algoHi idx = hiOf la ∧ s₁.getPte d la = s.getPte d la ∧ s₁.curPgdir = s.curPgdir := by
  have hfresh := fun i hi => h.fresh (i := i) h1 h2 hi
  obtain ⟨s₁, idx, heq, hcur, htlb, hhi, ⟨hstack, hget⟩ | ⟨hstack, hstack₁, hget⟩⟩ :=
    tlbGetEmpty_spec (s := s) (d := d) (hiOf la)
  · have hnd := h.nodup
    rw [hstack, List.nodup_cons] at hnd
    have hmem : ∀ i, i ∉ s₁.algoEmpty → i ≠ idx → i ∉ s.algoEmpty := by
      intro i hi hne
      rw [hstack, List.mem_cons, not_or]
      exact ⟨hne, hi⟩
    refine ⟨s₁, idx, heq, ⟨hnd.2, fun i hi => ?_, hnd.1, ?_, ?_⟩, ?_, hget la, hcur⟩
    · rw [htlb]
      exact h.free i (by rw [hstack]; simp [hi])
    · intro i hi hne
      have hi' := hmem i hi hne
      refine ⟨(h.used i hi').frame (by rw [htlb]) ?_ fun odd => hget _, ?_⟩
      · rw [hhi, Function.update_of_ne hne]
      · rw [htlb]
        exact hfresh i hi'
    · intro i j hi hj hni hnj
      rw [htlb]
      exact h.unique i j (hmem i hi hni) (hmem j hj hnj)
    · rw [hhi, Function.update_self]
  · have hmem : ∀ i, i ∉ s.algoEmpty := by simp [hstack]
    -- the entry in turn holds the pair that the software has recorded for it
    have hold : vpn2 (s.algoHi idx) = vpn2Of (s.tlb idx) := by
      rw [(h.used idx (hmem _)).hi, vpn2_pageOf]
    refine ⟨s₁, idx, heq, ⟨by simp [hstack₁], by simp [hstack₁], by simp [hstack₁], ?_, ?_⟩, ?_,
      hget la ?_, hcur⟩
    · intro i _ hne
      refine ⟨(h.used i (hmem i)).frame (by rw [htlb]) ?_ fun odd => hget _ ?_, ?_⟩
      · rw [hhi, Function.update_of_ne hne]
      · rw [vpn2_pageOf, hold]
        exact fun hn => hne (h.unique i idx (hmem i) (hmem _) hn)
      · rw [htlb]
        exact hfresh i (hmem i)
    · intro i j _ _ _ _
      rw [htlb]
      exact h.unique i j (hmem i) (hmem j)
    · rw [hhi, Function.update_self]
    · rw [hold]
      exact Ne.symm (hfresh _ (hmem _))

theorem Inv.tlbMissHandler (h : Inv s d) (hcur : s.curPgdir = some d)
    (hmiss : tlbMissing s.tlb la = true) (hst : s.stale d (tlbPair la) = false)
    (hs : s.tlbMissHandler la = some s') : Inv s' d ∧ s'.curPgdir = some d := by
  obtain ⟨habs, hmap⟩ := absent_of_missing hmiss
  simp only [Kernel.tlbMissHandler, hcur, Option.bind_eq_bind, Option.bind_some,
    Option.bind_eq_some_iff] at hs
  obtain ⟨pte, hget, hs⟩ := hs
  split_ifs at hs with hp
  rw [has_pteP] at hp
  cases hpair : (s.getPte d (tlbPair la)).filter (has · tlbP) with
  | some pte2 =>
    simp only [hpair, Option.pure_def, Option.some.injEq] at hs
    subst hs
    obtain ⟨hget2, hp2⟩ := Option.filter_eq_some_iff.1 hpair
    obtain ⟨hv2, hvalid⟩ := held_of_not_stale hst hget2 hp2
    rw [vpn2_tlbPair] at hv2
    have hi := h.used_of_valid hvalid
    obtain ⟨hroom, hhi⟩ := h.room_of_held hi hv2
    refine ⟨hroom.refill hhi hmap hget hp fun _ => ⟨pte2, rfl, hget2, ?_, ?_, rfl⟩, hcur⟩
    · obtain ⟨pte', hget', hpres, -⟩ := (h.used _ hi).marked _ hvalid
      rw [getPte_congr (tlbPair la) (by simp [hv2]) (by simp), hget2] at hget'
      cases hget'
      exact hpres
    · rw [← has_tlbP]
      exact hp2
  | none =>
    have habs2 : Absent s (tlbPair la) := by
      refine h.absent fun pte2 hget2 => ?_
      rw [hget2, Option.filter_some] at hpair
      rw [← has_tlbP]
      by_contra hn
      simp [hn] at hpair
    obtain ⟨s₁, idx, heq, hroom, hhi, hget₁, hcur₁⟩ := h.room habs habs2
    simp only [hpair, heq, Option.pure_def, Option.some.injEq] at hs
    subst hs
    exact ⟨hroom.refill hhi hmap (hget₁.trans hget) hp fun hn => absurd hn (by decide),
      hcur₁.trans hcur⟩

/-! ## `tlb_invalidate` -/

/-- What every operation keeps. -/
def CurInv (s : Kernel δ) : Prop := ∀ d, s.curPgdir = some d → Inv s d

/-- The bits that `tlb_invalidate` would act on are not stale. -/
def trusted (s : Kernel δ) (d : δ) (la : BitVec 32) : Bool :=
  s.curPgdir != some d || !(s.getPte d la).any (has · tlbP) ||
    (!s.stale d la && !s.stale d (tlbPair la))

theorem trusted_spec (h : s.trusted d la = true) (hcur : s.curPgdir = some d)
    (hget : s.getPte d la = some pte) (hp : has pte tlbP = true) :
    s.stale d la = false ∧ s.stale d (tlbPair la) = false := by
  simpa [trusted, hcur, hget, hp] using h

theorem tlbInvalidate_other (h : s.curPgdir ≠ some d) : s.tlbInvalidate d la = some s := by
  rw [tlbInvalidate, if_pos (Ne.symm h)]

theorem tlbInvalidate_unmarked (h : ∀ pte, s.getPte d la = some pte → has pte tlbP = false) :
    s.tlbInvalidate d la = some s := by
  have hnone : (s.getPte d la).filter (has · tlbP) = none := by
    rw [Option.filter_eq_none_iff]
    intro pte hget
    simp [h pte hget]
  simp [tlbInvalidate, hnone]

/-- The half of `la` is taken out of its entry. -/
theorem Inv.drop_half {pte2 : BitVec 32} (h : Inv s d) (hi : idx ∉ s.algoEmpty)
    (hv : vpn2Of (s.tlb idx) = vpn2 la) (hget : s.getPte d (tlbPair la) = some pte2)
    (hp : pte2.getLsbD 0 = true) (h7 : pte2.getLsbD 7 = true) (hidx : tlbIdx pte2 = idx) :
    Inv ((s.writeLo la idx (hiOf la) entryLoInvalid (entryLo pte2)).clearTlbP d la) d ∧
      Absent ((s.writeLo la idx (hiOf la) entryLoInvalid (entryLo pte2)).clearTlbP d la) la := by
  obtain ⟨hroom, hhi⟩ := h.room_of_held hi hv
  have hself : ((s.writeLo la idx (hiOf la) entryLoInvalid (entryLo pte2)).clearTlbP d la).tlb idx =
      tlbEntry (hiOf la) (if half la then entryLo pte2 else entryLoInvalid)
        (if half la then entryLoInvalid else entryLo pte2) := by
    rw [Kernel.clearTlbP, updPte_tlb, writeLo_tlb, Function.update_self]
  constructor
  · refine hroom.fill writeLo_tlb rfl rfl (fun x hx => getPte_updPte_of_ne (.inl hx)) ?_ ?_
    · rw [vpn2Of_tlbEntry, hiOf_extract]
    refine ⟨⟨!half la, ?_⟩, ?_, ?_, fun odd hvo => ?_⟩
    · rw [hself, validOf_tlbEntry, lo_select, if_neg (by simp), entryLo_valid]
    · rw [hself, vpn2Of_tlbEntry, hiOf_extract, ← hiOf_eq_pageOf]
      exact hhi
    · rw [hself, vpn2Of_tlbEntry, hiOf_extract, ← hv]
      exact (h.used _ hi).mapped
    · rw [hself, validOf_tlbEntry, lo_select] at hvo
      have ho : odd ≠ half la := by
        rintro rfl
        rw [if_pos rfl] at hvo
        exact absurd hvo (by decide)
      unfold Marked
      rw [hself, vpn2Of_tlbEntry, hiOf_extract, frameOf_tlbEntry, dirtyOf_tlbEntry, lo_select,
        if_neg ho]
      refine ⟨pte2, ?_, hp, h7, hidx, entryLo_frame _, entryLo_dirty _⟩
      rw [Kernel.clearTlbP, getPte_updPte_of_ne (.inr (by rw [half_pageOf]; exact ho)), ← hget]
      exact getPte_congr _ (by simp) (by simp [Bool.eq_not.2 ho])
  · refine hroom.absent writeLo_tlb ?_
    rw [validOf_tlbEntry, lo_select, if_pos rfl]
    rfl

/-- The entry of `la` is given back. -/
theorem Inv.drop (h : Inv s d) (hi : idx ∉ s.algoEmpty) (hv : vpn2Of (s.tlb idx) = vpn2 la) :
    Inv ((Kernel.writeLo { s with algoEmpty := idx :: s.algoEmpty } la idx entryHiInvalid
      entryLoInvalid entryLoInvalid).clearTlbP d la) d ∧
    Absent ((Kernel.writeLo { s with algoEmpty := idx :: s.algoEmpty } la idx entryHiInvalid
      entryLoInvalid entryLoInvalid).clearTlbP d la) la := by
  obtain ⟨hroom, -⟩ := h.room_of_held hi hv
  have htlb : ((Kernel.writeLo { s with algoEmpty := idx :: s.algoEmpty } la idx entryHiInvalid
      entryLoInvalid entryLoInvalid).clearTlbP d la).tlb = Function.update s.tlb idx
        (tlbEntry entryHiInvalid entryLoInvalid entryLoInvalid) := by
    rw [Kernel.clearTlbP, updPte_tlb, writeLo_tlb, ite_self]
  refine ⟨⟨List.nodup_cons.2 ⟨hi, h.nodup⟩, ?_, ?_, ?_⟩, hroom.absent htlb validOf_invalid⟩
  · intro i hmem
    rw [htlb]
    by_cases hii : i = idx
    · rw [hii, Function.update_self]
    · rw [Function.update_of_ne hii]
      exact h.free i ((List.mem_cons.1 hmem).resolve_left hii)
  · intro i hmem
    obtain ⟨hii, hfree⟩ := not_or.1 (mt List.mem_cons.2 hmem)
    obtain ⟨hused, hvi⟩ := hroom.used i hfree hii
    refine hused.frame (by rw [htlb, Function.update_of_ne hii]) rfl fun odd => ?_
    exact getPte_updPte_of_ne (.inl (by rw [vpn2_pageOf]; exact hvi))
  · intro i j hmi hmj
    obtain ⟨hii, hfi⟩ := not_or.1 (mt List.mem_cons.2 hmi)
    obtain ⟨hjj, hfj⟩ := not_or.1 (mt List.mem_cons.2 hmj)
    rw [htlb, Function.update_of_ne hii, Function.update_of_ne hjj]
    exact h.unique i j hfi hfj

/-- A page in an entry is taken out of it. -/
theorem Inv.tlbInvalidate (h : Inv s d) (hcur : s.curPgdir = some d)
    (hget : s.getPte d la = some pte) (hp : has pte tlbP = true) (h1 : s.stale d la = false)
    (h2 : s.stale d (tlbPair la) = false) : ∃ s', s.tlbInvalidate d la = some s' ∧
      s'.curPgdir = some d ∧ Inv s' d ∧ Absent s' la := by
  obtain ⟨hv, hvalid⟩ := held_of_not_stale h1 hget hp
  have hi := h.used_of_valid hvalid
  have hsome : (s.getPte d la).filter (has · tlbP) = some pte := by
    rw [hget, Option.filter_some, if_pos hp]
  rw [Kernel.tlbInvalidate, if_neg (by simp [hcur])]
  cases hpair : (s.getPte d (tlbPair la)).filter (has · tlbP) with
  | some pte2 =>
    obtain ⟨hget2, hp2⟩ := Option.filter_eq_some_iff.1 hpair
    obtain ⟨hv2, hvalid2⟩ := held_of_not_stale h2 hget2 hp2
    rw [vpn2_tlbPair] at hv2
    -- both halves are in one entry
    have hidx : tlbIdx pte2 = tlbIdx pte :=
      h.unique _ _ (h.used_of_valid hvalid2) hi (hv2.trans hv.symm)
    obtain ⟨pte', hget', hpres, -⟩ := (h.used _ (h.used_of_valid hvalid2)).marked _ hvalid2
    rw [getPte_congr (tlbPair la) (by simp [hv2]) (by simp), hget2] at hget'
    cases hget'
    simp only [hsome]
    exact ⟨_, rfl, hcur, h.drop_half hi hv hget2 hpres (by rw [← has_tlbP]; exact hp2) hidx⟩
  | none =>
    have hlen : s.algoEmpty.length < 16 := by
      have := List.Nodup.length_le_card (List.nodup_cons.2 ⟨hi, h.nodup⟩)
      simp only [List.length_cons, Fintype.card_fin] at this
      omega
    simp only [hsome, tlbDelCallback, if_pos hlen]
    exact ⟨_, rfl, hcur, h.drop hi hv⟩

theorem CurInv.tlbInvalidate (h : CurInv s) (ht : s.trusted d la = true) :
    ∃ s', s.tlbInvalidate d la = some s' ∧ s'.curPgdir = s.curPgdir ∧ CurInv s' ∧
      (s.curPgdir = some d → Absent s' la) := by
  by_cases hcur : s.curPgdir = some d
  · by_cases hp : ∀ pte, s.getPte d la = some pte → has pte tlbP = false
    · refine ⟨s, tlbInvalidate_unmarked hp, rfl, h, fun _ => (h d hcur).absent fun pte hget => ?_⟩
      rw [← has_tlbP]
      exact hp pte hget
    · push Not at hp
      obtain ⟨pte, hget, hpte⟩ := hp
      have hpte' : has pte tlbP = true := by simpa using hpte
      obtain ⟨h1, h2⟩ := trusted_spec ht hcur hget hpte'
      obtain ⟨s', hs, hcur', hinv, habs⟩ := (h d hcur).tlbInvalidate hcur hget hpte' h1 h2
      refine ⟨s', hs, hcur'.trans hcur.symm, fun c hc => ?_, fun _ => habs⟩
      rw [hcur'] at hc
      cases hc
      exact hinv
  · exact ⟨s, tlbInvalidate_other hcur, rfl, h, fun hn => absurd hn hcur⟩

/-! ## `page_remove` and `page_insert` -/

theorem CurInv.updPte (h : CurInv s) (ha : s.curPgdir = some d → Absent s la) :
    CurInv (s.updPte d la f) :=
  fun c hc => (h c hc).updPte fun hdc => ha (hdc ▸ hc)

theorem CurInv.pageRemovePte (h : CurInv s) (ht : s.trusted d la = true) (pte : BitVec 32) :
    ∃ s', s.pageRemovePte d la pte = some s' ∧ CurInv s' ∧ s'.trusted d la = true := by
  unfold Kernel.pageRemovePte
  split_ifs
  · obtain ⟨s₁, hs, hcur, hinv, habs⟩ := h.tlbInvalidate ht
    refine ⟨s₁.updPte d la fun _ => 0#32, by simp [hs],
      hinv.updPte fun hc => habs (hcur ▸ hc), ?_⟩
    have hget : (s₁.updPte d la fun _ => 0#32).getPte d la =
        (s₁.getPte d la).map fun _ => 0#32 := by
      rw [getPte_updPte, if_pos ⟨rfl, rfl, rfl⟩]
    have hany : ((s₁.updPte d la fun _ => 0#32).getPte d la).any (has · tlbP) = false := by
      rw [hget]
      cases s₁.getPte d la <;> simp [has]
    simp [trusted, hany]
  · exact ⟨s, rfl, h, ht⟩

theorem CurInv.pageRemove (h : CurInv s) (ht : s.trusted d la = true) :
    ∃ s', s.pageRemove d la = some s' ∧ CurInv s' := by
  unfold Kernel.pageRemove
  split
  · exact ⟨s, rfl, h⟩
  · rename_i pte _
    obtain ⟨s', hs, hinv, -⟩ := h.pageRemovePte ht pte
    exact ⟨s', hs, hinv⟩

/-- A new page table has no bit set. -/
theorem any_createPt {p : BitVec 32 → Bool} (hp : p 0#32 = false) :
    ((s.createPt d la).getPte d' la').any p = (s.getPte d' la').any p := by
  simp only [getPte, createPt]
  split_ifs
  · cases s.tables d' (pdx la') <;> simp [hp]
  · rfl

theorem trusted_createPt : (s.createPt d la).trusted d la = s.trusted d la := by
  have hstale : ∀ x, (s.createPt d la).stale d x = s.stale d x := by
    intro x
    exact any_createPt (by simp [has])
  have hany : ((s.createPt d la).getPte d la).any (has · tlbP) =
      (s.getPte d la).any (has · tlbP) := any_createPt (by simp [has])
  have hcur : (s.createPt d la).curPgdir = s.curPgdir := rfl
  rw [trusted, trusted, hstale, hstale, hany, hcur]

theorem CurInv.pageInsert (h : CurInv s) (ht : s.trusted d la = true) (page : BitVec 20)
    (perm : BitVec 3) : ∃ s', s.pageInsert d la page perm = some s' ∧ CurInv s' := by
  have h₀ : CurInv (s.createPt d la) := fun c hc => (h c hc).createPt
  have ht₀ : (s.createPt d la).trusted d la = true := trusted_createPt.trans ht
  have hend : ∀ s₁ : Kernel δ, CurInv s₁ → s₁.trusted d la = true →
      ∃ s', ((s₁.tlbInvalidate d la).bind fun s₂ => pure (s₂.updPte d la fun _ =>
        page.setWidth 32 <<< 12 ||| pteP ||| perm.setWidth 32)) = some s' ∧ CurInv s' := by
    intro s₁ h₁ ht₁
    obtain ⟨s₂, hs₂, hcur₂, h₂, habs⟩ := h₁.tlbInvalidate ht₁
    rw [hs₂]
    exact ⟨_, rfl, h₂.updPte fun hc => habs (hcur₂ ▸ hc)⟩
  simp only [Kernel.pageInsert, Option.bind_eq_bind]
  split_ifs
  · obtain ⟨s₁, hs₁, h₁, ht₁⟩ := h₀.pageRemovePte ht₀ (((s.createPt d la).getPte d la).getD 0#32)
    rw [hs₁]
    exact hend s₁ h₁ ht₁
  · exact hend _ h₀ ht₀

/-! ## Runs -/

/-- The operation acts on no stale bit. -/
def sound (s : Kernel δ) : Op δ → Bool
  | .loadPgdir _ => true
  | .tlbMiss la => s.curPgdir.all fun d => !s.stale d (tlbPair la)
  | .pageInsert d _ la _ => s.trusted d la
  | .pageRemove d la => s.trusted d la
  | .tlbInvalidate d la => s.trusted d la

theorem CurInv.step {op : Op δ} (h : CurInv s) (hs : s.sound op = true)
    (hstep : s.step op = some s') : CurInv s' := by
  cases op with
  | loadPgdir d =>
    cases hstep
    intro c hc
    cases hc
    exact inv_loadPgdir
  | tlbMiss la =>
    simp only [Kernel.step] at hstep
    split_ifs at hstep with hmiss
    cases hcur : s.curPgdir with
    | none => simp [Kernel.tlbMissHandler, hcur] at hstep
    | some d =>
      obtain ⟨hinv, hcur'⟩ := (h d hcur).tlbMissHandler hcur hmiss
        (by simpa [sound, hcur] using hs) hstep
      intro c hc
      rw [hcur'] at hc
      cases hc
      exact hinv
  | pageInsert d page la perm =>
    obtain ⟨s₁, hs₁, h₁⟩ := h.pageInsert hs page perm
    cases hs₁.symm.trans hstep
    exact h₁
  | pageRemove d la =>
    obtain ⟨s₁, hs₁, h₁⟩ := h.pageRemove hs
    cases hs₁.symm.trans hstep
    exact h₁
  | tlbInvalidate d la =>
    obtain ⟨s₁, hs₁, -, h₁, -⟩ := h.tlbInvalidate hs
    cases hs₁.symm.trans hstep
    exact h₁

/-- No operation of the run acts on a stale bit. -/
def soundRun (s : Kernel δ) : List (Op δ) → Bool
  | [] => true
  | op :: ops => s.sound op && (s.step op).all fun s => s.soundRun ops

theorem CurInv.run {ops : List (Op δ)} (h : CurInv s) (hs : s.soundRun ops = true)
    (hrun : s.run ops = some s') : CurInv s' := by
  induction ops generalizing s with
  | nil =>
    cases hrun
    exact h
  | cons op ops ih =>
    obtain ⟨s₁, hstep, hrest⟩ := Option.bind_eq_some_iff.1 hrun
    simp only [soundRun, hstep, Option.all_some, Bool.and_eq_true] at hs
    exact ih (h.step hs.1 hstep) hs.2 hrest

/-- In every run that acts on no stale `TLB_P` bit the TLB and the page tables agree. -/
theorem coherent_run {t : Tlb} {ops : List (Op δ)} (hrun : (boot t).run ops = some s)
    (hs : (boot t : Kernel δ).soundRun ops = true) (hcur : s.curPgdir = some d) :
    Coherent s d := by
  have hboot : CurInv (boot t : Kernel δ) := by
    intro c hc
    cases hc
  exact (hboot.run hs hrun d hcur).coherent

/-! ## Two activations of one directory -/

/-- One page is mapped and looked up. -/
def mapOne : List (Op Unit) :=
  [.loadPgdir (), .pageInsert () 1#20 0x2000#32 7#3, .tlbMiss 0x2000#32]

theorem coherent_mapOne : ∃ s, (boot fun _ => 0#63 : Kernel Unit).run mapOne = some s ∧
    validOf (s.tlb 15) false = true ∧ Coherent s () := by
  have hsome : ((boot fun _ => 0#63 : Kernel Unit).run mapOne).isSome = true := by decide +kernel
  obtain ⟨s, hs⟩ := Option.isSome_iff_exists.1 hsome
  have hfacts : ((boot fun _ => 0#63 : Kernel Unit).run mapOne).all
      (fun s => validOf (s.tlb 15) false && s.curPgdir == some ()) = true := by decide +kernel
  rw [hs, Option.all_some, Bool.and_eq_true, beq_iff_eq] at hfacts
  exact ⟨s, hs, hfacts.1, coherent_run hs (by decide +kernel) hfacts.2⟩

/-- The first page of pair `k`. -/
def pairAt (k : ℕ) : BitVec 32 := BitVec.ofNat 32 (0x2000 * k)

/-- Pages of eighteen pairs are mapped, both pages of pair 15. Pairs 1 to 15 are looked up, and
after another `load_pgdir` pairs 1 to 14, 16 and 17. The odd page of pair 15 then takes index 1
from the stale bit of the even one, away from pair 16, which gets index 0 instead. Pair 18 takes
index 1 in turn and clears the bit of pair 16, so that `page_remove` leaves its translation. -/
def reactivation : List (Op Unit) :=
  Op.loadPgdir () :: Op.pageInsert () 100#20 (pairAt 15 + 0x1000#32) 7#3 ::
    (List.range' 1 18).map (fun k => Op.pageInsert () (BitVec.ofNat 20 k) (pairAt k) 7#3) ++
    (List.range' 1 15).map (fun k => Op.tlbMiss (pairAt k)) ++
    Op.loadPgdir () :: (List.range' 1 14 ++ [16, 17]).map (fun k => Op.tlbMiss (pairAt k)) ++
    [Op.tlbMiss (pairAt 15 + 0x1000#32), Op.tlbMiss (pairAt 16), Op.tlbMiss (pairAt 18),
      Op.pageRemove () (pairAt 16)]

theorem not_coherent : ¬ ∀ (t : Tlb) (ops : List (Op Unit)) (s : Kernel Unit),
    (boot t).run ops = some s → s.curPgdir = some () → Coherent s () := by
  intro h
  have hbad : ((boot fun _ => 0#63 : Kernel Unit).run reactivation).any (fun s =>
      s.curPgdir == some () && validOf (s.tlb 0) false &&
      s.getPte () (pageOf (vpn2Of (s.tlb 0)) false) == some 0#32) = true := by
    decide +kernel
  obtain ⟨s, hs, hfacts⟩ := (Option.any_eq_true _ _).1 hbad
  simp only [Bool.and_eq_true, beq_iff_eq] at hfacts
  obtain ⟨⟨hcur, hv⟩, hget⟩ := hfacts
  obtain ⟨pte, hpte, hp, -⟩ := (h _ _ s hs hcur).translates 0 false hv
  rw [hget] at hpte
  cases hpte
  exact absurd hp (by decide)

end Kernel

end Ucore

end CacheCPU
