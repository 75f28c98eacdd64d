import CacheCPU.Proofs.MmMap
import CacheCPU.Proofs.TlbCoherence
import CacheCPU.Ucore.Pgfault

/-!
# Page faults without memory

None of the functions on the way from `alloc_page` to the TLB looks at a null pointer: `get_pte`
writes through it, and `do_pgfault` does not read the result of `pgdir_alloc_page`, so that the
handler installs the entry of a page that is not there.
-/

namespace CacheCPU

namespace Ucore

namespace Kernel

variable {s s' : Kernel ℕ} {e : Env} {m : Mm} {vs : List ℕ} {d d' : ℕ}
  {la la' pte ec : BitVec 32} {page : BitVec 20} {perm : BitVec 3}

/-! ## Entries -/

/-- The page of `la` is there. -/
def Present (s : Kernel ℕ) (d : ℕ) (la : BitVec 32) : Prop :=
  ∃ pte, s.getPte d la = some pte ∧ has pte pteP = true

/-- `TLB_P` is set for pages that are there only. -/
def MarksPresent (s : Kernel ℕ) : Prop :=
  ∀ d la pte, s.getPte d la = some pte → has pte tlbP = true → has pte pteP = true

/-- What `page_insert` stores. -/
def entryOf (page : BitVec 20) (perm : BitVec 3) : BitVec 32 :=
  page.setWidth 32 <<< 12 ||| pteP ||| perm.setWidth 32

theorem has_entryOf : has (entryOf page perm) pteP = true := by
  rw [has_pteP, entryOf, BitVec.getLsbD_or, BitVec.getLsbD_or]
  simp [pteP]

theorem getPte_roundDown : s.getPte d (roundDown la pgsize) = s.getPte d la := by
  have hdown := Mm.toNat_roundDown la
  have hpdx : pdx (roundDown la pgsize) = pdx la := by
    refine BitVec.eq_of_toNat_eq ?_
    simp only [pdx, BitVec.extractLsb_toNat, hdown, Nat.shiftRight_eq_div_pow]
    omega
  have hptx : ptx (roundDown la pgsize) = ptx la := by
    refine BitVec.eq_of_toNat_eq ?_
    simp only [ptx, BitVec.extractLsb_toNat, hdown, Nat.shiftRight_eq_div_pow]
    omega
  rw [getPte, getPte, hpdx, hptx]

/-- A new page table adds empty entries. -/
theorem getPte_of_createPt (h : (s.createPt d la).getPte d' la' = some pte) :
    s.getPte d' la' = some pte ∨ pte = 0#32 := by
  cases hold : s.getPte d' la' with
  | some pte' => exact .inl (by rw [← h, getPte_createPt (by rw [hold]; rfl), hold])
  | none =>
    right
    have hnone : s.tables d' (pdx la') = none := by simpa [getPte] using hold
    simp only [getPte, createPt, hnone, Option.getD_none] at h
    split_ifs at h with hc
    · exact (Option.some.inj h).symm
    · cases h

theorem getPte_createPt_self (h : s.getPte d la = none) :
    (s.createPt d la).getPte d la = some 0#32 := by
  have hnone : s.tables d (pdx la) = none := by simpa [getPte] using h
  simp [getPte, createPt, hnone]

theorem MarksPresent.createPt (h : MarksPresent s) : MarksPresent (s.createPt d la) := by
  intro d' la' pte hget hp
  rcases getPte_of_createPt hget with hold | rfl
  · exact h d' la' pte hold hp
  · exact absurd hp (by decide)

/-- A store that leaves no mark without a page. -/
theorem MarksPresent.updPte (h : MarksPresent s) {f : BitVec 32 → BitVec 32}
    (hf : ∀ pte, s.getPte d la = some pte → has (f pte) tlbP = true → has (f pte) pteP = true) :
    MarksPresent (s.updPte d la f) := by
  intro d' la' pte hget hp
  rw [getPte_updPte] at hget
  split_ifs at hget with hsame
  · obtain ⟨rfl, hv, hh⟩ := hsame
    rw [getPte_congr la hv hh] at hget
    obtain ⟨pte', hold, rfl⟩ := Option.map_eq_some_iff.1 hget
    exact hf pte' hold hp
  · exact h d' la' pte hget hp

/-- `page_insert` where the table is there and the page is not. -/
theorem pageInsert_absent (hget : s.getPte d la = some pte) (hp : has pte pteP = false)
    (hm : MarksPresent s) : ∃ s', s.pageInsert d la page perm = some s'
      ∧ s'.getPte d la = some (entryOf page perm) ∧ s'.tlb = s.tlb ∧ s'.curPgdir = s.curPgdir
      ∧ MarksPresent s' := by
  have hcreate : (s.createPt d la).getPte d la = some pte := by
    rw [getPte_createPt (by rw [hget]; rfl), hget]
  have hmark : ∀ pte', (s.createPt d la).getPte d la = some pte' → has pte' tlbP = false := by
    intro pte' hget'
    rw [hcreate] at hget'
    cases hget'
    refine Bool.eq_false_iff.2 fun hmarked => ?_
    rw [hm d la pte hget hmarked] at hp
    cases hp
  refine ⟨(s.createPt d la).updPte d la fun _ => entryOf page perm, ?_, ?_, rfl, rfl, ?_⟩
  · unfold pageInsert
    simp only [hcreate, Option.getD_some, hp, Bool.false_eq_true, false_and, if_false,
      Option.bind_eq_bind, Option.bind_some, tlbInvalidate_unmarked hmark]
    rfl
  · rw [getPte_updPte, if_pos ⟨rfl, rfl, rfl⟩, hcreate]
    rfl
  · exact hm.createPt.updPte fun _ _ _ => has_entryOf

/-! ## `do_pgfault` -/

/-- The page fault has no page: none for the table, none for the page behind it, or none for a page
to be read back. -/
def NoPage (s : Kernel ℕ) (e : Env) (d : ℕ) (la : BitVec 32) : Prop :=
  (s.getPte d la = none ∧ (e.alloc 0 = none ∨ e.alloc 1 = none))
    ∨ (s.getPte d la = some 0#32 ∧ e.alloc 0 = none)
    ∨ ∃ pte, s.getPte d la = some pte ∧ pte ≠ 0#32 ∧ has pte pteP = false
      ∧ e.swapInitOk = true ∧ (e.alloc 0 = none ∨ e.smPriv = false)

/-- The page of `la` is a new one, with the permission `perm`. -/
def MapsNew (s : Kernel ℕ) (e : Env) (d : ℕ) (la : BitVec 32) (perm : BitVec 3) : Prop :=
  ∃ page k, e.alloc k = some page ∧ s.getPte d la = some (entryOf page perm)

theorem MapsNew.present (h : MapsNew s e d la perm) : Present s d la := by
  obtain ⟨page, -, -, hget⟩ := h
  exact ⟨_, hget, has_entryOf⟩

theorem pageInsertCreate_absent (hget : s.getPte d la = some pte) (hp : has pte pteP = false)
    (hm : MarksPresent s) (k : ℕ) : ∃ s', s.pageInsertCreate e k d la page perm = .ok (s', k, 0)
      ∧ s'.getPte d la = some (entryOf page perm) ∧ s'.tlb = s.tlb ∧ s'.curPgdir = s.curPgdir
      ∧ MarksPresent s' := by
  obtain ⟨s', hs', hrest⟩ := pageInsert_absent hget hp hm
  refine ⟨s', ?_, hrest⟩
  unfold pageInsertCreate getPteCreate
  rw [hget]
  dsimp only [bind, Except.bind]
  rw [hs']
  rfl

theorem pgdirAllocPage_absent (hget : s.getPte d la = some pte) (hp : has pte pteP = false)
    (hm : MarksPresent s) {k : ℕ} (hk : e.alloc k = some page) :
    ∃ s', s.pgdirAllocPage e k d la perm = .ok (s', k + 1, some page)
      ∧ s'.getPte d la = some (entryOf page perm) ∧ s'.tlb = s.tlb ∧ s'.curPgdir = s.curPgdir
      ∧ MarksPresent s' := by
  obtain ⟨s', hs', hrest⟩ := pageInsertCreate_absent hget hp hm (k + 1)
  refine ⟨s', ?_, hrest⟩
  unfold pgdirAllocPage
  rw [hk]
  dsimp only [bind, Except.bind]
  rw [hs']
  rfl

/-- With the pages it asks for, a page fault is served. -/
theorem servePgfault_spec (hm : MarksPresent s) (habs : ¬ Present s d la)
    (hno : ¬ NoPage s e d la) : ∃ s' ret, s.servePgfault e d la perm = .ok (s', ret)
      ∧ (ret < 0 ∨ ret = 0 ∧ MapsNew s' e d la perm ∧ s'.tlb = s.tlb
        ∧ s'.curPgdir = s.curPgdir ∧ MarksPresent s') := by
  unfold servePgfault getPteCreate
  cases hget : s.getPte d la with
  | none =>
    obtain ⟨table, htable⟩ : ∃ page, e.alloc 0 = some page :=
      Option.ne_none_iff_exists'.1 fun h => hno (.inl ⟨hget, .inl h⟩)
    obtain ⟨page, hpage⟩ : ∃ page, e.alloc 1 = some page :=
      Option.ne_none_iff_exists'.1 fun h => hno (.inl ⟨hget, .inr h⟩)
    obtain ⟨s', hs', hget', htlb, hcur, hm'⟩ :=
      pgdirAllocPage_absent (getPte_createPt_self hget) (by decide) (hm.createPt) hpage
    rw [htable]
    dsimp only [bind, Except.bind]
    rw [if_pos rfl, hs']
    exact ⟨s', 0, rfl, .inr ⟨rfl, ⟨page, 1, hpage, hget'⟩, htlb, hcur, hm'⟩⟩
  | some pte =>
    have hp : has pte pteP = false := Bool.eq_false_iff.2 fun h => habs ⟨pte, hget, h⟩
    dsimp only [bind, Except.bind]
    by_cases hzero : pte = 0#32
    · obtain ⟨page, hpage⟩ : ∃ page, e.alloc 0 = some page :=
        Option.ne_none_iff_exists'.1 fun h => hno (.inr (.inl ⟨hzero ▸ hget, h⟩))
      obtain ⟨s', hs', hget', htlb, hcur, hm'⟩ := pgdirAllocPage_absent hget hp hm hpage
      rw [if_pos hzero, hs']
      exact ⟨s', 0, rfl, .inr ⟨rfl, ⟨page, 0, hpage, hget'⟩, htlb, hcur, hm'⟩⟩
    · rw [if_neg hzero]
      by_cases hswap : e.swapInitOk = true
      · have hslip : ¬ (e.alloc 0 = none ∨ e.smPriv = false) := fun h =>
          hno (.inr (.inr ⟨pte, hget, hzero, hp, hswap, h⟩))
        rw [not_or, Bool.not_eq_false] at hslip
        obtain ⟨page, hpage⟩ := Option.ne_none_iff_exists'.1 hslip.1
        obtain ⟨s', hs', hget', htlb, hcur, hm'⟩ := pageInsertCreate_absent hget hp hm 1
        rw [if_pos hswap, swapIn, hpage]
        dsimp only
        rw [hs']
        dsimp only
        rw [if_pos hslip.2]
        exact ⟨s', 0, rfl, .inr ⟨rfl, ⟨page, 0, hpage, hget'⟩, htlb, hcur, hm'⟩⟩
      · rw [if_neg hswap]
        exact ⟨s, -eNoMem, rfl, .inl (by decide)⟩

/-- Without them it is not. -/
theorem servePgfault_noPage (hno : NoPage s e d la) {ret : ℤ}
    (hs : s.servePgfault e d la perm = .ok (s', ret)) : ret = 0 ∧ ¬ Present s' d la := by
  have hzero : ∀ {s₁ : Kernel ℕ}, s₁.getPte d la = some 0#32 → ¬ Present s₁ d la := by
    rintro s₁ hget ⟨pte, hget', hp⟩
    rw [hget] at hget'
    cases hget'
    exact absurd hp (by decide)
  unfold servePgfault getPteCreate at hs
  rcases hno with ⟨hget, halloc⟩ | ⟨hget, halloc⟩ | ⟨pte, hget, hne, -, hswap, hfail⟩
  · rw [hget] at hs
    cases h0 : e.alloc 0 with
    | none =>
      rw [h0] at hs
      cases hs
    | some page =>
      have h1 : e.alloc 1 = none := halloc.resolve_left (by rw [h0]; exact Option.some_ne_none _)
      rw [h0] at hs
      dsimp only [bind, Except.bind] at hs
      rw [if_pos rfl, pgdirAllocPage, h1] at hs
      cases hs
      exact ⟨rfl, hzero (getPte_createPt_self hget)⟩
  · rw [hget] at hs
    dsimp only [bind, Except.bind] at hs
    rw [if_pos rfl, pgdirAllocPage, halloc] at hs
    cases hs
    exact ⟨rfl, hzero hget⟩
  · rw [hget] at hs
    dsimp only [bind, Except.bind] at hs
    rw [if_neg hne, if_pos hswap, swapIn] at hs
    cases h0 : e.alloc 0 with
    | none =>
      rw [h0] at hs
      cases hs
    | some page =>
      have hpriv := hfail.resolve_left (by rw [h0]; exact Option.some_ne_none _)
      rw [h0] at hs
      dsimp only at hs
      cases hins : s.pageInsertCreate e 1 d la page perm with
      | error a =>
        rw [hins] at hs
        cases hs
      | ok r =>
        rw [hins, hpriv] at hs
        cases hs

section Pgfault

variable (h : Mm.Areas m vs) (hc : Mm.CacheOk m vs)
include h hc

/-- A fault outside the areas, or one the area does not allow. -/
theorem doPgfault_refused (hno : ¬ ∃ v ∈ vs, m.contains v la = true ∧ m.faultOk v ec = true) :
    ∃ c, s.doPgfault e m ec la = .ok (s, { m with mmapCache := c }, -eInval) := by
  obtain ⟨c, hf, -⟩ := h.findVma hc la
  refine ⟨c, ?_⟩
  unfold doPgfault
  rw [hf]
  cases hv : vs.find? (m.contains · la) with
  | none => rfl
  | some v =>
    obtain ⟨hmem, hcon⟩ := h.find?_iff.1 hv
    have hok : m.faultOk v ec = false := Bool.eq_false_iff.2 fun hok => hno ⟨v, hmem, hcon, hok⟩
    dsimp only
    split_ifs with h1 h2
    · rfl
    · rfl
    · exact absurd (show (!m.faultOk v ec) = true by rw [hok]; rfl) h2

theorem doPgfault_found {v : ℕ} (hv : v ∈ vs) (hcon : m.contains v la = true)
    (hok : m.faultOk v ec = true) : ∃ c, s.doPgfault e m ec la =
      (s.servePgfault e m.pgdir (roundDown la pgsize) (m.permOf v)).map
        fun r => (r.1, { m with mmapCache := c }, r.2) := by
  obtain ⟨c, hf, -⟩ := h.findVma hc la
  refine ⟨c, ?_⟩
  have hle : ¬ (m.vma v).vmStart > la := BitVec.not_lt.2 (Mm.contains_iff.1 hcon).1
  have hok' : Mm.faultOk { m with mmapCache := c } v ec = true := hok
  have hperm : Mm.permOf { m with mmapCache := c } v = m.permOf v := rfl
  unfold doPgfault
  rw [hf, h.find?_iff.2 ⟨hv, hcon⟩]
  simp only [if_neg hle, hok', hperm, Bool.not_true, Bool.false_eq_true, if_false]
  cases s.servePgfault e m.pgdir (roundDown la pgsize) (m.permOf v) <;> rfl

end Pgfault

/-! ## `tlb_miss_handler` -/

theorem Present.updPte {f : BitVec 32 → BitVec 32} (h : Present s d la')
    (hf : ∀ pte, has pte pteP = true → has (f pte) pteP = true) :
    Present (s.updPte d la f) d la' := by
  obtain ⟨pte, hget, hp⟩ := h
  rw [Present, getPte_updPte, hget]
  split_ifs
  · exact ⟨f pte, rfl, hf pte hp⟩
  · exact ⟨pte, rfl, hp⟩

theorem Present.tlbGetEmpty (h : Present s d la') (hi : BitVec 32) :
    Present (s.tlbGetEmpty d hi).1 d la' ∧ (s.tlbGetEmpty d hi).1.tlb = s.tlb := by
  have hclear : ∀ pte, has pte pteP = true → has (pte &&& ~~~tlbP) pteP = true := by
    intro pte hp
    rw [has_pteP] at hp ⊢
    rw [clear_getLsbD pte (by decide), hp]
  unfold Kernel.tlbGetEmpty
  split
  · exact ⟨h, rfl⟩
  · exact ⟨Present.updPte (Present.updPte h hclear) hclear, rfl⟩

/-- Both halves of the entry that is written are those of pages that are there. -/
theorem tlbRefill_present {idx i : Fin 16} {loPair : BitVec 32} {odd : Bool}
    (hla : Present s d la) (hpair : loPair.getLsbD 1 = true → Present s d (tlbPair la))
    (hi : (s.tlbRefill d la idx (entryLo pte) loPair).tlb i ≠ s.tlb i)
    (hv : validOf ((s.tlbRefill d la idx (entryLo pte) loPair).tlb i) odd = true) :
    Present (s.tlbRefill d la idx (entryLo pte) loPair) d
      (pageOf (vpn2Of ((s.tlbRefill d la idx (entryLo pte) loPair).tlb i)) odd) := by
  have hmark : ∀ pte, has pte pteP = true → has (mark pte idx) pteP = true := by
    intro pte hp
    rw [has_pteP] at hp ⊢
    rw [mark_present, hp]
  rw [tlbRefill_tlb] at hi hv ⊢
  obtain rfl : i = idx := by
    by_contra hne
    exact hi (Function.update_of_ne hne _ _)
  rw [Function.update_self] at hv ⊢
  rw [validOf_tlbEntry, lo_select] at hv
  rw [vpn2Of_tlbEntry, hiOf_extract]
  have hcongr : ∀ x, vpn2 x = vpn2 la → half x = odd → Present s d x →
      Present (s.tlbRefill d la i (entryLo pte) loPair) d (pageOf (vpn2 la) odd) := by
    intro x h1 h2 hx
    rw [Present, getPte_congr x (by rw [vpn2_pageOf, h1]) (by rw [half_pageOf, h2])]
    exact Present.updPte (s := s.writeLo la i (hiOf la) (entryLo pte) loPair) hx hmark
  by_cases ho : odd = half la
  · exact hcongr la rfl ho.symm hla
  · rw [if_neg ho] at hv
    exact hcongr (tlbPair la) (vpn2_tlbPair la) (by rw [half_tlbPair, Bool.eq_not.2 ho])
      (hpair hv)

theorem tlbInstall_present (hm : MarksPresent s) (hget : s.getPte d la = some pte)
    (hp : has pte pteP = true) {i : Fin 16} {odd : Bool}
    (hi : (s.tlbInstall d la pte).tlb i ≠ s.tlb i)
    (hv : validOf ((s.tlbInstall d la pte).tlb i) odd = true) :
    Present (s.tlbInstall d la pte) d (pageOf (vpn2Of ((s.tlbInstall d la pte).tlb i)) odd) := by
  have hla : Present s d la := ⟨pte, hget, hp⟩
  unfold tlbInstall at hi hv ⊢
  cases hpair : (s.getPte d (tlbPair la)).filter (has · tlbP) with
  | some pte2 =>
    obtain ⟨hget2, hp2⟩ := Option.filter_eq_some_iff.1 hpair
    rw [hpair] at hi hv
    exact tlbRefill_present hla (fun _ => ⟨pte2, hget2, hm d _ pte2 hget2 hp2⟩) hi hv
  | none =>
    rw [hpair] at hi hv
    obtain ⟨hla', htlb⟩ := hla.tlbGetEmpty (hiOf la)
    rw [← htlb] at hi
    exact tlbRefill_present hla' (fun hn => absurd hn (by decide)) hi hv

/-! ## Runs -/

section Marks

variable (h : MarksPresent s)
include h

theorem MarksPresent.clearTlbP : MarksPresent (s.clearTlbP d la) := by
  refine h.updPte fun pte _ hp => ?_
  rw [has_tlbP, clear_tlbP] at hp
  cases hp

theorem MarksPresent.tlbGetEmpty (hi : BitVec 32) : MarksPresent (s.tlbGetEmpty d hi).1 := by
  unfold Kernel.tlbGetEmpty
  split
  · exact h
  · exact MarksPresent.clearTlbP (MarksPresent.clearTlbP h)

theorem MarksPresent.tlbRefill (hla : Present s d la) (idx : Fin 16) (lo loPair : BitVec 32) :
    MarksPresent (s.tlbRefill d la idx lo loPair) := by
  obtain ⟨pte, hget, hp⟩ := hla
  have hw : MarksPresent (s.writeLo la idx (hiOf la) lo loPair) := h
  refine hw.updPte fun pte' hget' _ => ?_
  obtain rfl : pte = pte' := Option.some.inj (hget.symm.trans hget')
  rw [has_pteP] at hp ⊢
  exact (mark_present pte idx).trans hp

theorem MarksPresent.tlbInstall (hget : s.getPte d la = some pte) (hp : has pte pteP = true) :
    MarksPresent (s.tlbInstall d la pte) := by
  have hla : Present s d la := ⟨pte, hget, hp⟩
  unfold Kernel.tlbInstall
  split
  · exact h.tlbRefill hla _ _ _
  · exact (h.tlbGetEmpty _).tlbRefill (hla.tlbGetEmpty _).1 _ _ _

theorem MarksPresent.tlbInvalidate (hs : s.tlbInvalidate d la = some s') : MarksPresent s' := by
  unfold Kernel.tlbInvalidate at hs
  split_ifs at hs with hcur
  · cases hs
    exact h
  · split at hs
    · cases hs
      exact h
    · split at hs
      · cases hs
        refine MarksPresent.clearTlbP ?_
        exact h
      · simp only [tlbDelCallback, Option.bind_eq_bind, Option.bind_eq_some_iff] at hs
        obtain ⟨s₁, hs₁, hs⟩ := hs
        split_ifs at hs₁
        cases hs₁
        cases hs
        refine MarksPresent.clearTlbP ?_
        exact h

theorem MarksPresent.pageRemovePte (hs : s.pageRemovePte d la pte = some s') :
    MarksPresent s' := by
  unfold Kernel.pageRemovePte at hs
  split_ifs at hs
  · obtain ⟨s₁, hs₁, hs⟩ := Option.bind_eq_some_iff.1 hs
    cases hs
    exact (h.tlbInvalidate hs₁).updPte fun _ _ hp => absurd hp (by decide)
  · cases hs
    exact h

theorem MarksPresent.pageInsert (hs : s.pageInsert d la page perm = some s') :
    MarksPresent s' := by
  have hend : ∀ s₁ : Kernel ℕ, MarksPresent s₁ →
      (s₁.tlbInvalidate d la).bind (fun s₂ => some (s₂.updPte d la fun _ => entryOf page perm)) =
        some s' → MarksPresent s' := by
    intro s₁ h₁ hs
    obtain ⟨s₂, hs₂, hs⟩ := Option.bind_eq_some_iff.1 hs
    cases hs
    exact (h₁.tlbInvalidate hs₂).updPte fun _ _ _ => has_entryOf
  simp only [Kernel.pageInsert, Option.bind_eq_bind, Option.pure_def] at hs
  split_ifs at hs
  · obtain ⟨s₁, hs₁, hs⟩ := Option.bind_eq_some_iff.1 hs
    exact hend s₁ (h.createPt.pageRemovePte hs₁) hs
  · exact hend _ h.createPt hs

theorem MarksPresent.step {op : Op ℕ} (hs : s.step op = some s') : MarksPresent s' := by
  cases op with
  | loadPgdir d =>
    cases hs
    exact h
  | tlbMiss la =>
    simp only [Kernel.step] at hs
    split_ifs at hs
    obtain ⟨d, -, hs⟩ := Option.bind_eq_some_iff.1 hs
    obtain ⟨pte, hget, hs⟩ := Option.bind_eq_some_iff.1 hs
    split_ifs at hs with hp
    have hinstall : s' = s.tlbInstall d la pte := by
      cases hpair : (s.getPte d (tlbPair la)).filter (has · tlbP) with
      | some pte2 =>
        simp only [hpair, Option.pure_def, Option.some.injEq] at hs
        rw [Kernel.tlbInstall, hpair, ← hs]
      | none =>
        simp only [hpair, Option.pure_def, Option.some.injEq] at hs
        rw [Kernel.tlbInstall, hpair, ← hs]
    exact hinstall ▸ h.tlbInstall hget hp
  | pageInsert d page la perm => exact h.pageInsert hs
  | pageRemove d la =>
    simp only [Kernel.step, pageRemove] at hs
    split at hs
    · cases hs
      exact h
    · exact h.pageRemovePte hs
  | tlbInvalidate d la => exact h.tlbInvalidate hs

end Marks

/-- The marks are right in every run. -/
theorem MarksPresent.run (h : MarksPresent s) {ops : List (Op ℕ)} (hs : s.run ops = some s') :
    MarksPresent s' := by
  induction ops generalizing s with
  | nil =>
    cases hs
    exact h
  | cons op ops ih =>
    obtain ⟨s₁, hs₁, hs⟩ := Option.bind_eq_some_iff.1 hs
    exact ih (h.step hs₁) hs

theorem marksPresent_boot (t : Tlb) : MarksPresent (boot t) := by
  intro d la pte hget
  cases hget

/-! ## The path as a whole -/

/-- `get_pte` returns a null pointer when there is no page, and changes nothing then. -/
def GetPteRight (s : Kernel ℕ) (e : Env) (d : ℕ) (la : BitVec 32) : Prop :=
  s.getPte d la = none → e.alloc 0 = none → ∃ k, s.getPteCreate e 0 d la = .ok (s, k, none)

/-- `do_pgfault`, for a page that is not there, returns an error, or 0 and a new page is there with
the permission of the area. -/
def PgfaultRight (s : Kernel ℕ) (e : Env) (m : Mm) (vs : List ℕ) (ec la : BitVec 32) : Prop :=
  ¬ Present s m.pgdir la → ∃ s' m' ret, s.doPgfault e m ec la = .ok (s', m', ret)
    ∧ (ret < 0 ∨ ret = 0
      ∧ ∃ v ∈ vs, m.contains v la = true ∧ MapsNew s' e m.pgdir la (m.permOf v))

/-- `tlb_miss_handler` makes no half of an entry valid for a page that is not there. -/
def MissRight (s : Kernel ℕ) (e : Env) (m : Mm) (store : Bool) (la : BitVec 32) : Prop :=
  ∀ d s' mm', s.curPgdir = some d → s.tlbMissHandlerFault e (some m) store la = .ok (s', mm') →
    ∀ i odd, s'.tlb i ≠ s.tlb i → validOf (s'.tlb i) odd = true →
      Present s' d (pageOf (vpn2Of (s'.tlb i)) odd)

/-- The three of them, at one fault. -/
def FaultRight (s : Kernel ℕ) (e : Env) (m : Mm) (vs : List ℕ) (ec la : BitVec 32) : Prop :=
  GetPteRight s e m.pgdir la ∧ PgfaultRight s e m vs ec la
    ∧ ∀ store, (if store = true then 2#32 else 0#32) = ec → MissRight s e m store la

/-- The memory runs short: no page for a page table, or none for a fault that is served. -/
def Short (s : Kernel ℕ) (e : Env) (m : Mm) (vs : List ℕ) (ec la : BitVec 32) : Prop :=
  (s.getPte m.pgdir la = none ∧ e.alloc 0 = none)
    ∨ (∃ v ∈ vs, m.contains v la = true ∧ m.faultOk v ec = true) ∧ NoPage s e m.pgdir la

section Iff

variable (h : Mm.Areas m vs) (hc : Mm.CacheOk m vs) (hm : MarksPresent s)
include h hc

theorem not_short_of_faultRight (hr : FaultRight s e m vs ec la) : ¬ Short s e m vs ec la := by
  rintro (⟨hget, halloc⟩ | ⟨⟨v, hv, hcon, hok⟩, hno⟩)
  · obtain ⟨k, hk⟩ := hr.1 hget halloc
    rw [getPteCreate, hget, halloc] at hk
    cases hk
  · have habs : ¬ Present s m.pgdir la := by
      rintro ⟨pte, hget, hp⟩
      rcases hno with ⟨hget', -⟩ | ⟨hget', -⟩ | ⟨pte', hget', -, hp', -⟩
      · rw [hget] at hget'
        cases hget'
      · rw [hget] at hget'
        cases hget'
        exact absurd hp (by decide)
      · rw [hget] at hget'
        cases hget'
        rw [hp] at hp'
        cases hp'
    obtain ⟨s', m', ret, hs, hret⟩ := hr.2.1 habs
    obtain ⟨c, hfound⟩ := doPgfault_found h hc hv hcon hok
    rw [hfound] at hs
    cases hserve : s.servePgfault e m.pgdir (roundDown la pgsize) (m.permOf v) with
    | error a =>
      rw [hserve] at hs
      cases hs
    | ok r =>
      rw [hserve] at hs
      cases hs
      have hno' : NoPage s e m.pgdir (roundDown la pgsize) := by
        unfold NoPage at hno ⊢
        rw [getPte_roundDown]
        exact hno
      obtain ⟨hzero, habs'⟩ := servePgfault_noPage hno' hserve
      rcases hret with hlt | ⟨-, w, -, -, hnew⟩
      · omega
      · obtain ⟨pte, hget, hp⟩ := hnew.present
        exact habs' ⟨pte, by rw [getPte_roundDown, hget], hp⟩

include hm

/-- What a fault does when memory does not run short. -/
theorem doPgfault_spec (hs : ¬ Short s e m vs ec la) (habs : ¬ Present s m.pgdir la) :
    ∃ s' m' ret, s.doPgfault e m ec la = .ok (s', m', ret) ∧ (ret < 0 ∨ ret = 0
      ∧ (∃ v ∈ vs, m.contains v la = true ∧ MapsNew s' e m.pgdir la (m.permOf v))
      ∧ s'.tlb = s.tlb ∧ MarksPresent s') := by
  by_cases hfound : ∃ v ∈ vs, m.contains v la = true ∧ m.faultOk v ec = true
  · obtain ⟨v, hv, hcon, hok⟩ := hfound
    obtain ⟨c, hfound⟩ := doPgfault_found h hc hv hcon hok
    have hno : ¬ NoPage s e m.pgdir (roundDown la pgsize) := by
      intro hno
      unfold NoPage at hno
      rw [getPte_roundDown] at hno
      exact hs (.inr ⟨⟨v, hv, hcon, hok⟩, hno⟩)
    have habs' : ¬ Present s m.pgdir (roundDown la pgsize) := by
      rintro ⟨pte, hget, hp⟩
      rw [getPte_roundDown] at hget
      exact habs ⟨pte, hget, hp⟩
    obtain ⟨s', ret, hserve, hret⟩ := servePgfault_spec hm habs' hno
    refine ⟨s', _, ret, by rw [hfound, hserve]; rfl, hret.imp_right ?_⟩
    rintro ⟨hzero, ⟨page, k, hk, hget⟩, htlb, -, hm'⟩
    rw [getPte_roundDown] at hget
    exact ⟨hzero, ⟨v, hv, hcon, page, k, hk, hget⟩, htlb, hm'⟩
  · obtain ⟨c, hrefused⟩ := doPgfault_refused h hc hfound
    exact ⟨s, _, _, hrefused, .inl (by decide)⟩

theorem missRight_of_not_short {store : Bool}
    (hs : ¬ Short s e m vs (if store = true then 2#32 else 0#32) la) : MissRight s e m store la := by
  intro d s' mm' hcur hrun i odd hi hv
  unfold tlbMissHandlerFault at hrun
  rw [hcur] at hrun
  dsimp only at hrun
  by_cases hany : (s.getPte d la).any (has · pteP) = true
  · obtain ⟨pte, hget, hp⟩ := (Option.any_eq_true _ _).1 hany
    rw [if_pos hany] at hrun
    dsimp only [bind, Except.bind] at hrun
    rw [hget] at hrun
    cases hrun
    exact tlbInstall_present hm hget hp hi hv
  · rw [if_neg hany] at hrun
    by_cases hd : m.pgdir ≠ d
    · rw [if_pos hd] at hrun
      cases hrun
    · obtain rfl : m.pgdir = d := not_not.1 hd
      have habs : ¬ Present s m.pgdir la := fun ⟨pte, hget, hp⟩ =>
        hany ((Option.any_eq_true _ _).2 ⟨pte, hget, hp⟩)
      obtain ⟨s₁, m₁, ret, hfault, hret⟩ := doPgfault_spec h hc hm hs habs
      rw [if_neg hd, hfault] at hrun
      dsimp only [bind, Except.bind] at hrun
      rcases hret with hlt | ⟨rfl, ⟨v, -, -, hnew⟩, htlb, hm₁⟩
      · rw [if_pos (show ret ≠ 0 by omega)] at hrun
        cases hrun
      · obtain ⟨pte, hget, hp⟩ := hnew.present
        rw [if_neg (not_not.2 rfl)] at hrun
        dsimp only at hrun
        rw [hget] at hrun
        cases hrun
        rw [← htlb] at hi
        exact tlbInstall_present hm₁ hget hp hi hv

/-- The path is right at a fault if and only if memory does not run short at it. -/
theorem faultRight_iff : FaultRight s e m vs ec la ↔ ¬ Short s e m vs ec la := by
  refine ⟨not_short_of_faultRight h hc, fun hs => ⟨?_, ?_, ?_⟩⟩
  · exact fun hget halloc => absurd (.inl ⟨hget, halloc⟩) hs
  · intro habs
    obtain ⟨s', m', ret, hrun, hret⟩ := doPgfault_spec h hc hm hs habs
    exact ⟨s', m', ret, hrun, hret.imp_right fun ⟨hzero, hnew, _⟩ => ⟨hzero, hnew⟩⟩
  · rintro store rfl
    exact missRight_of_not_short h hc hm hs

end Iff

/-- The directory of the program with a text area is loaded; none of its pages is there. -/
def loaded : Kernel ℕ := (boot fun _ => 0#63).loadPgdir 0

theorem loaded_marks : MarksPresent loaded := by
  have hrun : (boot fun _ => 0#63).run [.loadPgdir 0] = some loaded := rfl
  exact (marksPresent_boot _).run hrun

/-- The first instruction, with a page for the table and one for the text. -/
theorem faultRight_loaded :
    FaultRight loaded ⟨fun k => some (BitVec.ofNat 20 (k + 1)), true, true⟩ Mm.oneArea [1] 0#32
      0x00800000#32 := by
  refine (faultRight_iff Mm.oneArea_areas.1 Mm.oneArea_areas.2 loaded_marks).2 ?_
  rintro (⟨-, halloc⟩ | ⟨-, ⟨-, halloc | halloc⟩ | ⟨-, halloc⟩ | ⟨pte, hget, -⟩⟩)
  · cases halloc
  · cases halloc
  · cases halloc
  · cases halloc
  · cases hget

/-- One page is left. -/
def lastPage : Env := ⟨fun k => if k = 0 then some 1#20 else none, false, true⟩

/-- It is taken for the table: `do_pgfault` returns 0, and entry 15 becomes valid for the page,
which is not there. -/
theorem not_faultRight_loaded : Mm.Areas Mm.oneArea [1] ∧ Mm.CacheOk Mm.oneArea [1]
    ∧ MarksPresent loaded ∧ ¬ FaultRight loaded lastPage Mm.oneArea [1] 0#32 0x00800000#32 := by
  refine ⟨Mm.oneArea_areas.1, Mm.oneArea_areas.2, loaded_marks, fun hr => ?_⟩
  have hbad :
      (loaded.tlbMissHandlerFault lastPage (some Mm.oneArea) false 0x00800000#32).toOption.any
      (fun r => validOf (r.1.tlb 15) false && r.1.tlb 15 != loaded.tlb 15 &&
        !(r.1.getPte 0 (pageOf (vpn2Of (r.1.tlb 15)) false)).any (has · pteP)) = true := by
    decide +kernel
  cases hrun : loaded.tlbMissHandlerFault lastPage (some Mm.oneArea) false 0x00800000#32 with
  | error a =>
    rw [hrun] at hbad
    cases hbad
  | ok r =>
    rw [hrun] at hbad
    simp only [Except.toOption, Option.any_some, Bool.and_eq_true, bne_iff_ne] at hbad
    obtain ⟨⟨hv, hne⟩, habs⟩ := hbad
    obtain ⟨pte, hget, hp⟩ := hr.2.2 false rfl 0 r.1 r.2 rfl hrun 15 false hne hv
    simp [hget, hp] at habs

end Kernel

end Ucore

end CacheCPU
