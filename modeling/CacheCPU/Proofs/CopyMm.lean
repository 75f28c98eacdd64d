import CacheCPU.Proofs.Teardown

/-!
# Copy of an address space

`dup_mmap` goes through the areas from the last to the first and gives the new directory a page of
its own for each page of the old one. It writes to the new directory, to the tables it makes for it
and to the pages it has just got, so nothing that was in use before changes.
-/

namespace CacheCPU

namespace Ucore

open FreeArea LinkedRing RefCount

/-! ## One page -/

section Page

variable {g : ℕ → Bool} {managed live live' : ℕ → Prop} {s s' : Pmm} {dirs : Finset ℕ}
  {src dst t p f : ℕ} {la : BitVec 32}

/-- The contents of a page that is neither directory nor table are of no concern. -/
theorem Good.storeFrame (h : Good g managed s dirs live) (hd : f ∉ dirs)
    (ht : ∀ x, tableOf s dirs x ≠ some f) (c : BitVec 10 → BitVec 32) :
    Good g managed (s.storeFrame f c) dirs live
      ∧ tableOf (s.storeFrame f c) dirs = tableOf s dirs
      ∧ entry (s.storeFrame f c) dirs = entry s dirs
      ∧ links (s.storeFrame f c) dirs = links s dirs := by
  have htab : tableOf (s.storeFrame f c) dirs = tableOf s dirs :=
    tableOf_congr fun d hd' => Function.update_of_ne (show d ≠ f from fun he => hd (he ▸ hd')) _ _
  have hent : entry (s.storeFrame f c) dirs = entry s dirs := by
    funext l
    simp only [entry, htab]
    cases hl : tableOf s dirs (l.1, l.2.1) with
    | none => rfl
    | some u =>
      have hu : u ≠ f := fun he => ht _ (he ▸ hl)
      simp [Pmm.storeFrame, hu]
  have hmap : mapped (s.storeFrame f c) dirs = mapped s dirs := by
    funext l
    simp only [mapped, hent]
  have hlinks : links (s.storeFrame f c) dirs = links s dirs := by
    funext q
    simp only [links, hmap, htab]
  refine ⟨⟨h.heap, h.core.congr htab h.core.dirLive fun _ _ hx => (h.core.tableLive hx).1,
    fun q hq hqd => ?_, fun l q hq => ?_⟩, htab, hent, hlinks⟩
  · rw [hlinks]
    exact h.refs q hq hqd
  · rw [hmap] at hq
    exact h.maps l q hq

/-- A new page with its contents changes nothing else. -/
theorem Good.newContents {a : FreeArea} (h : Good g managed s dirs live)
    (he : s.allocPage = .ok ({ s with area := a }, p)) (hp : ¬live p)
    (c : BitVec 10 → BitVec 32) :
    Good g managed (({ s with area := a } : Pmm).storeFrame p c) dirs (fun q => q = p ∨ live q)
      ∧ tableOf (({ s with area := a } : Pmm).storeFrame p c) dirs = tableOf s dirs
      ∧ entry (({ s with area := a } : Pmm).storeFrame p c) dirs = entry s dirs
      ∧ ∀ q, links (({ s with area := a } : Pmm).storeFrame p c) dirs q = links s dirs q := by
  have hpd : p ∉ dirs := fun hq => hp (h.core.dirLive p hq)
  have hpt : ∀ x, tableOf s dirs x ≠ some p := fun x hx => hp (h.core.tableLive hx).1
  obtain ⟨hgood, htab, hent, hlinks⟩ := (h.newPage he).storeFrame hpd hpt c
  refine ⟨hgood, htab, hent.trans (entry_congr rfl), fun q => ?_⟩
  rw [hlinks]
  exact congrFun (links_congr rfl) q

theorem pteUser_shift (w : BitVec 32) : (w &&& pteUser) >>> 12 = 0#32 := by
  rw [BitVec.ushiftRight_and_distrib, show pteUser >>> 12 = 0#32 by decide, BitVec.and_zero]

/-- What the entry of a copied page is. -/
def cloneEntry (p : ℕ) (w : BitVec 32) : BitVec 32 := page2pa p ||| pteP ||| (w &&& pteUser)

/-- A page of its own for the other directory, and nothing else. -/
structure CopiedPage (g : ℕ → Bool) (managed : ℕ → Prop) (dirs : Finset ℕ) (dst : ℕ)
    (l : Slot) (w : BitVec 32) (c : BitVec 10 → BitVec 32) (s : Pmm) (live : ℕ → Prop) (s' : Pmm)
    (live' : ℕ → Prop) (p' : ℕ) : Prop where
  good : Good g managed s' dirs live'
  entry : entry s' dirs = Function.update (entry s dirs) l (cloneEntry p' w)
  fresh : ¬live p' ∧ live' p'
  one : links s' dirs p' = 1
  taken : ∀ q, live' q → live q ∨ q = p' ∨ tableOf s' dirs (dst, l.2.1) = some q
  noTable : ∀ x, tableOf s' dirs x ≠ some p'
  contents : s'.mem p' = c
  stays : ∀ q, live q → live' q ∧ links s' dirs q = links s dirs q
  keeps : Keeps dirs live (fun f => f = dst ∨ tableOf s dirs (dst, l.2.1) = some f) s s'

/-- A new page with the contents `c` at an entry that maps nothing. -/
theorem Good.insertCopy {a : FreeArea} {p' : ℕ} (h : Good g managed s dirs live)
    (hdst : dst ∈ dirs) (hla : pdx la ≠ vptx) (ht : tableOf s dirs (dst, pdx la) = some t)
    (hnone : mapped s dirs (dst, pdx la, ptx la) = none)
    (he : s.allocPage = .ok ({ s with area := a }, p')) (hp' : ¬live p')
    (c : BitVec 10 → BitVec 32) (w : BitVec 32) :
    ∃ s' live', (({ s with area := a } : Pmm).storeFrame p' c).pageInsert dst p' la (w &&& pteUser)
        = .ok s'
      ∧ CopiedPage g managed dirs dst (dst, pdx la, ptx la) w c s live s' live' p' := by
  have hpd : p' ∉ dirs := fun hq => hp' (h.core.dirLive p' hq)
  have hpt : ∀ x, tableOf s dirs x ≠ some p' := fun x hx => hp' (h.core.tableLive hx).1
  obtain ⟨h1, htab, hent, hlinks⟩ := h.newContents he hp' c
  rcases h1.pageInsert hdst hla (.inl rfl) hpd (pteUser_shift w) with
    ⟨-, hno, -⟩ | ⟨s', live', he', h', hl'⟩
  · rw [htab, ht] at hno
    cases hno
  have hw := pteFrame_entry (h1.heap.lt_two_pow (p := p') (.inl rfl)) (pteUser_shift w)
  have hold : mapped (({ s with area := a } : Pmm).storeFrame p' c) dirs (dst, pdx la, ptx la)
      = none := by
    rw [mapped, hent]
    exact hnone
  have hlinks' := h'.links
  rw [hold, hw] at hlinks'
  simp only [reduceCtorEq, if_false, Nat.add_zero, Option.some.injEq, hlinks] at hlinks'
  have hne : ∀ q, live q → p' ≠ q := fun q hq he => hp' (he ▸ hq)
  have hstays : ∀ q, live q → live' q ∧ links s' dirs q = links s dirs q := by
    intro q hq
    have hlq := hlinks' q (.inr hq)
    rw [if_neg (hne q hq), Nat.add_zero] at hlq
    refine ⟨?_, hlq⟩
    by_contra hn
    have hfree := (h'.freed q (.inr hq)).1 hn
    rw [hlinks, hlq] at hfree
    omega
  refine ⟨s', live', he', h'.good, ?_, ⟨hp', hl'⟩, ?_, fun q hq => ?_, fun x hx => ?_, ?_, hstays,
    fun q hq hqd => ?_, fun x u hx => ?_, fun x u hu hx => ?_⟩
  · rw [h'.entry, hent]
    rfl
  · rw [hlinks' p' (.inl rfl), if_pos rfl, h.links_eq_zero hp']
  · rcases h'.taken q hq with (hq | hq) | ⟨hno, -⟩
    · exact .inr (.inl hq)
    · exact .inl hq
    · rw [htab, ht] at hno
      cases hno
  · have hx' := h'.keeps.noTable x p' (.inl rfl) hx
    rw [htab] at hx'
    exact hpt x hx'
  · rw [h'.keeps.mem p' (.inl rfl), Pmm.storeFrame]
    · simp only [Function.update_self]
    · rw [htab]
      rintro (hc | hc)
      · exact hpd (hc ▸ hdst)
      · exact hpt _ hc
  · rw [h'.keeps.mem q (.inr hq), Pmm.storeFrame]
    · simp only [Function.update_of_ne (Ne.symm (hne q hq))]
    · rwa [htab]
  · refine h'.keeps.tables x u ?_
    rwa [htab]
  · have hx' := h'.keeps.noTable x u (.inr hu) hx
    rwa [htab] at hx'

/-- The same for the state before `get_pte`, which may have taken a page for the table. -/
theorem copiedPage_create {s' s1 : Pmm} {live' live1 : ℕ → Prop} {p' u : ℕ} {w : BitVec 32}
    {c : BitVec 10 → BitVec 32}
    (h : CopiedPage g managed dirs dst (dst, pdx la, ptx la) w c s1 live1 s' live' p')
    (hu : tableOf s1 dirs (dst, pdx la) = some u) (hent : entry s1 dirs = entry s dirs)
    (hlive : ∀ q, live q → live1 q ∧ links s1 dirs q = links s dirs q)
    (htaken : ∀ q, live1 q → live q ∨ tableOf s dirs (dst, pdx la) = none ∧ q = u)
    (hk : Keeps dirs live (· = dst) s s1) :
    CopiedPage g managed dirs dst (dst, pdx la, ptx la) w c s live s' live' p' where
  good := h.good
  entry := by rw [h.entry, hent]
  fresh := ⟨fun hq => h.fresh.1 (hlive p' hq).1, h.fresh.2⟩
  one := h.one
  taken q hq := by
    rcases h.taken q hq with hq | hq
    · rcases htaken q hq with hq | ⟨-, rfl⟩
      · exact .inl hq
      · exact .inr (.inr (h.keeps.tables _ _ hu))
    · exact .inr hq
  noTable := h.noTable
  contents := h.contents
  stays q hq := ⟨(h.stays q (hlive q hq).1).1,
    (h.stays q (hlive q hq).1).2.trans (hlive q hq).2⟩
  keeps := by
    refine ⟨fun f hf hfd => ?_, fun x u hx => h.keeps.tables x u (hk.tables x u hx),
      fun x u hu hx => hk.noTable x u hu (h.keeps.noTable x u (hlive u hu).1 hx)⟩
    rw [not_or] at hfd
    rw [h.keeps.mem f (hlive f hf).1, hk.mem f hf hfd.1]
    rintro (hc | hc)
    · exact hfd.1 hc
    · exact hfd.2 (hk.noTable _ f hf hc)

theorem Good.copyPage (h : Good g managed s dirs live) (hdst : dst ∈ dirs) (hla : pdx la ≠ vptx)
    (ht : tableOf s dirs (src, pdx la) = some t)
    (hp : mapped s dirs (src, pdx la, ptx la) = some p)
    (hnone : mapped s dirs (dst, pdx la, ptx la) = none) :
    (s.copyPage dst la (t, ptx la) = .error .noMem ∧
      ∃ u, ∀ q, managed q → live q ∨ tableOf s dirs (dst, pdx la) = none ∧ q = u) ∨
      ∃ s' live' p', s.copyPage dst la (t, ptx la) = .ok s'
        ∧ CopiedPage g managed dirs dst (dst, pdx la, ptx la)
          (entry s dirs (src, pdx la, ptx la)) (s.mem p) s live s' live' p' := by
  obtain ⟨hpl, hpd⟩ := h.maps _ _ hp
  rcases h.create hdst hla with
    ⟨he, -, hall⟩ | ⟨s1, live1, u, he1, h1, hu, hent1, hlive1, htaken1, hk1⟩
  · exact .inl ⟨by rw [Pmm.copyPage, he]; rfl, 0, fun q hq => .inl (hall q hq)⟩
  -- the entry of the source is still where it was
  have hw : s1.mem t (ptx la) = entry s dirs (src, pdx la, ptx la) := by
    rw [← hent1]
    simp [entry, hk1.tables _ _ ht]
  have hf : frameOf (s1.mem t (ptx la)) = p := by
    rw [hw]
    exact (pteFrame_some hp).2
  have hpa : s1.pa2page (s1.mem t (ptx la)) = .ok p := by
    rw [h1.heap.pa2page (hf.symm ▸ (hlive1 p hpl).1), hf]
  have hstart : s.copyPage dst la (t, ptx la) = s1.allocPage.bind fun x =>
      (x.1.storeFrame x.2 (x.1.mem p)).pageInsert dst x.2 la (s1.mem t (ptx la) &&& pteUser) := by
    rw [Pmm.copyPage, he1]
    change (s1.pa2page (s1.mem t (ptx la))).bind _ = _
    rw [hpa]
    rfl
  rw [hstart]
  rcases h1.heap.allocPage with ⟨he, hall⟩ | ⟨a, p', he2, -, hnl, -, -, -⟩
  · exact .inl ⟨by rw [he]; rfl, u, fun q hq => htaken1 q (hall q hq)⟩
  have hnone1 : mapped s1 dirs (dst, pdx la, ptx la) = none := by
    rw [mapped, hent1]
    exact hnone
  obtain ⟨s', live', hins, hcopy⟩ :=
    h1.insertCopy hdst hla hu hnone1 he2 hnl (s1.mem p) (s1.mem t (ptx la))
  have hmem : s1.mem p = s.mem p := hk1.mem p hpl fun he => hpd (he ▸ hdst)
  rw [he2]
  refine .inr ⟨s', live', p', hins, ?_⟩
  rw [← hw, ← hmem]
  exact copiedPage_create hcopy hu hent1 hlive1 htaken1 hk1

end Page

/-! ## `copy_range` -/

section Range

variable {g : ℕ → Bool} {managed live live' : ℕ → Prop} {s s' : Pmm} {dirs : Finset ℕ}
  {src dst : ℕ} {la start stop : BitVec 32} {R R' : BitVec 10 × BitVec 10 → Prop}

/-- The entry of the new directory for an entry of the old one: empty if that maps nothing, and
otherwise a page that was not in use before, with the same contents and user permissions, which
nothing else refers to. -/
def Cloned (dirs : Finset ℕ) (src dst : ℕ) (s : Pmm) (live : ℕ → Prop) (s' : Pmm)
    (live' : ℕ → Prop) (x : BitVec 10 × BitVec 10) : Prop :=
  (mapped s dirs (src, x) = none → mapped s' dirs (dst, x) = none) ∧
    ∀ p, mapped s dirs (src, x) = some p →
      ∃ p', mapped s' dirs (dst, x) = some p' ∧ entry s' dirs (dst, x)
          = cloneEntry p' (entry s dirs (src, x))
        ∧ ¬live p' ∧ live' p' ∧ links s' dirs p' = 1 ∧ (∀ y, tableOf s' dirs y ≠ some p')
        ∧ s'.mem p' = s.mem p

theorem finite_indices (S : Set (BitVec 10 × BitVec 10)) : S.Finite :=
  (Finset.finite_toSet (indices ×ˢ indices)).subset fun x _ => by simp [mem_indices]

/-- The entries in `R` that map a page. -/
def Present (s : Pmm) (dirs : Finset ℕ) (src : ℕ) (R : BitVec 10 × BitVec 10 → Prop) :
    Set (BitVec 10 × BitVec 10) :=
  {x | R x ∧ mapped s dirs (src, x) ≠ none}

/-- The pages that a copy of `R` takes, and the page tables for them. -/
noncomputable def need (s : Pmm) (dirs : Finset ℕ) (src : ℕ)
    (R : BitVec 10 × BitVec 10 → Prop) : ℕ :=
  (Present s dirs src R).ncard + (Prod.fst '' Present s dirs src R).ncard

theorem need_mono (h : ∀ x, R x → R' x) : need s dirs src R ≤ need s dirs src R' := by
  have hsub : Present s dirs src R ⊆ Present s dirs src R' := fun x hx => ⟨h x hx.1, hx.2⟩
  exact Nat.add_le_add (Set.ncard_le_ncard hsub (finite_indices _))
    (Set.ncard_le_ncard (Set.image_mono hsub) ((finite_indices _).image _))

/-- The entries in `R` have been copied. -/
structure Copied (g : ℕ → Bool) (managed : ℕ → Prop) (dirs : Finset ℕ) (src dst : ℕ)
    (s : Pmm) (live : ℕ → Prop) (R : BitVec 10 × BitVec 10 → Prop) (s' : Pmm)
    (live' : ℕ → Prop) : Prop where
  good : Good g managed s' dirs live'
  other : ∀ l : Slot, l.1 ≠ dst → entry s' dirs l = entry s dirs l
  stays : ∀ q, live q → live' q ∧ links s' dirs q = links s dirs q
  contents : ∀ f, live f → f ≠ dst → s'.mem f = s.mem f
  tables : ∀ i f, tableOf s' dirs (dst, i) = some f → ¬live f
  taken : ∀ q, live' q → live q ∨ ∃ x ∈ Present s dirs src R,
    mapped s' dirs (dst, x) = some q ∨ tableOf s' dirs (dst, x.1) = some q
  done : ∀ x, R x → Cloned dirs src dst s live s' live' x
  todo : ∀ x, ¬R x → mapped s' dirs (dst, x) = none

theorem Copied.refl (h : Good g managed s dirs live) (hempty : ∀ i, tableOf s dirs (dst, i) = none) :
    Copied g managed dirs src dst s live (fun _ => False) s live where
  good := h
  other _ _ := rfl
  stays q hq := ⟨hq, rfl⟩
  contents _ _ _ := rfl
  tables i f hf := by simp [hempty i] at hf
  taken _ hq := .inl hq
  done _ hx := hx.elim
  todo x _ := mapped_of_tableOf_none (hempty x.1)

theorem Copied.extend (h : Copied g managed dirs src dst s live R s' live') (hne : src ≠ dst)
    (hR : ∀ x, R x → R' x) (hnone : ∀ x, R' x → R x ∨ mapped s' dirs (src, x) = none) :
    Copied g managed dirs src dst s live R' s' live' where
  good := h.good
  other := h.other
  stays := h.stays
  contents := h.contents
  tables := h.tables
  taken q hq := (h.taken q hq).imp_right fun ⟨x, hx, hxq⟩ => ⟨x, ⟨hR x hx.1, hx.2⟩, hxq⟩
  done x hx := by
    by_cases hRx : R x
    · exact h.done x hRx
    · have hs : mapped s dirs (src, x) = none := by
        rw [mapped, ← h.other (src, x) hne]
        exact (hnone x hx).resolve_left hRx
      exact ⟨fun _ => h.todo x hRx, fun p hp => by simp [hs] at hp⟩
  todo x hx := h.todo x (mt (hR x) hx)

theorem Cloned.congr {s'' : Pmm} {live'' : ℕ → Prop} {x : BitVec 10 × BitVec 10}
    (h : Cloned dirs src dst s live s' live' x)
    (hent : entry s'' dirs (dst, x) = entry s' dirs (dst, x))
    (hstays : ∀ q, live' q → live'' q ∧ links s'' dirs q = links s' dirs q)
    (hpage : ∀ q, live' q → (∀ y, tableOf s' dirs y ≠ some q) → q ∉ dirs →
      (∀ y, tableOf s'' dirs y ≠ some q) ∧ s''.mem q = s'.mem q)
    (hm : MapsLive s' dirs live') : Cloned dirs src dst s live s'' live'' x := by
  have hmap : mapped s'' dirs (dst, x) = mapped s' dirs (dst, x) := by
    rw [mapped, hent]
    rfl
  refine ⟨fun hn => hmap.trans (h.1 hn), fun p hp => ?_⟩
  obtain ⟨p', h1, h2, h3, h4, h5, h6, h7⟩ := h.2 p hp
  obtain ⟨h8, h9⟩ := hpage p' h4 h6 (hm _ _ h1).2
  exact ⟨p', hmap.trans h1, hent.trans h2, h3, (hstays p' h4).1, (hstays p' h4).2.trans h5, h8,
    h9.trans h7⟩

/-- There were too few free pages if all are in use, or all but one for a page table, when a page
is still to be copied. -/
theorem Copied.nrFree_lt (h : Copied g managed dirs src dst s live R s' live')
    (hg : Good g managed s dirs live) {x : BitVec 10 × BitVec 10} (hx : ¬R x)
    (hmap : mapped s dirs (src, x) ≠ none) {u : ℕ}
    (hall : ∀ q, managed q → live' q ∨ tableOf s' dirs (dst, x.1) = none ∧ q = u) :
    s.area.nrFree < need s dirs src fun y => R y ∨ y = x := by
  let pages := (fun y => (mapped s' dirs (dst, y)).getD 0) '' Present s dirs src R
  let tables := (fun i => (tableOf s' dirs (dst, i)).getD u) ''
    (Prod.fst '' Present s dirs src fun y => R y ∨ y = x)
  have hcover : ∀ q, managed q → live q ∨ q ∈ pages ∪ tables := by
    intro q hq
    rcases hall q hq with hq | ⟨hno, rfl⟩
    · refine (h.taken q hq).imp_right ?_
      rintro ⟨y, hy, hp | ht⟩
      · exact .inl ⟨y, hy, by simp only [hp, Option.getD_some]⟩
      · exact .inr ⟨y.1, ⟨y, ⟨.inl hy.1, hy.2⟩, rfl⟩, by simp only [ht, Option.getD_some]⟩
    · exact .inr (.inr ⟨x.1, ⟨x, ⟨.inr rfl, hmap⟩, rfl⟩, by simp only [hno, Option.getD_none]⟩)
  have hfin : (pages ∪ tables).Finite :=
    ((finite_indices _).image _).union (((finite_indices _).image _).image _)
  have hle : s.area.nrFree ≤ (pages ∪ tables).ncard := hg.heap.nrFree_le hfin hcover
  have hunion := Set.ncard_union_le pages tables
  have hpages : pages.ncard ≤ (Present s dirs src R).ncard := Set.ncard_image_le (finite_indices _)
  have htables : tables.ncard ≤ _ := Set.ncard_image_le ((finite_indices _).image _)
  have hlt : (Present s dirs src R).ncard < (Present s dirs src fun y => R y ∨ y = x).ncard := by
    refine Set.ncard_lt_ncard ⟨fun y hy => ⟨.inl hy.1, hy.2⟩, fun hsub => ?_⟩
      (finite_indices _)
    exact hx (hsub ⟨.inr rfl, hmap⟩).1
  unfold need
  omega

/-- One turn of the loop. -/
theorem Copied.page (h : Copied g managed dirs src dst s live R s' live') (hdst : dst ∈ dirs)
    (hne : src ≠ dst) (hla : pdx la ≠ vptx) {t : ℕ}
    (ht : tableOf s' dirs (src, pdx la) = some t) (hR : ¬R (pdx la, ptx la))
    (hg : Good g managed s dirs live) :
    ((if has (s'.mem t (ptx la)) pteP then s'.copyPage dst la (t, ptx la) else .ok s')
        = .error .noMem ∧
      s.area.nrFree < need s dirs src fun x => R x ∨ x = (pdx la, ptx la)) ∨
      ∃ s'' live'', (if has (s'.mem t (ptx la)) pteP then s'.copyPage dst la (t, ptx la) else .ok s')
          = .ok s''
        ∧ Copied g managed dirs src dst s live (fun x => R x ∨ x = (pdx la, ptx la)) s'' live'' := by
  have hold := mapped_eq ht
  cases hp : mapped s' dirs (src, pdx la, ptx la) with
  | none =>
    right
    rw [if_neg (by simp [pteFrame_none (hold.symm.trans hp)])]
    refine ⟨s', live', rfl, h.extend hne (fun x hx => .inl hx) fun x hx => ?_⟩
    rcases hx with hx | rfl
    · exact .inl hx
    · exact .inr hp
  | some p =>
    rw [if_pos (pteFrame_some (hold.symm.trans hp)).1]
    have hents : entry s' dirs (src, pdx la, ptx la) = entry s dirs (src, pdx la, ptx la) :=
      h.other _ hne
    have hps : mapped s dirs (src, pdx la, ptx la) = some p := by
      rw [mapped, ← hents]
      exact hp
    obtain ⟨hpl, hpd⟩ := hg.maps _ _ hps
    rcases h.good.copyPage hdst hla ht hp (h.todo _ hR) with
      ⟨he, u, hall⟩ | ⟨s2, live2, p', he, hc⟩
    · exact .inl ⟨he, h.nrFree_lt hg hR (by simp [hps]) hall⟩
    have hl : ∀ l, l ≠ (dst, pdx la, ptx la) → entry s2 dirs l = entry s' dirs l := fun l hl => by
      rw [hc.entry, Function.update_of_ne hl]
    have hentp : entry s2 dirs (dst, pdx la, ptx la)
        = cloneEntry p' (entry s dirs (src, pdx la, ptx la)) := by
      rw [hc.entry, Function.update_self, hents]
    refine .inr ⟨s2, live2, he, hc.good, fun l hld => ?_, fun q hq => ?_, fun f hf hfd => ?_,
      fun i f hf hlf => ?_, fun q hq => ?_, fun x hx => ?_, fun x hx => ?_⟩
    · rw [hl l fun hc' => hld (by rw [hc']), h.other l hld]
    · have h1 := h.stays q hq
      have h2 := hc.stays q h1.1
      exact ⟨h2.1, h2.2.trans h1.2⟩
    · rw [hc.keeps.mem f (h.stays f hf).1, h.contents f hf hfd]
      rintro (hf' | hf')
      · exact hfd hf'
      · exact h.tables _ f hf' hf
    · exact h.tables i f (hc.keeps.noTable _ f (h.stays f hlf).1 hf) hlf
    · rcases hc.taken q hq with hq | rfl | hq
      · refine (h.taken q hq).imp_right ?_
        rintro ⟨x, hx, hxq⟩
        have hxe : x ≠ (pdx la, ptx la) := fun he' => hR (he' ▸ hx.1)
        refine ⟨x, ⟨.inl hx.1, hx.2⟩, hxq.imp (fun hp' => ?_) (hc.keeps.tables _ _)⟩
        rw [mapped, hl _ fun he' => hxe (Prod.mk.inj he').2]
        exact hp'
      · refine .inr ⟨_, ⟨.inr rfl, by simp [hps]⟩, .inl ?_⟩
        rw [mapped, hentp]
        exact pteFrame_entry (hc.good.heap.lt_two_pow hc.fresh.2) (pteUser_shift _)
      · exact .inr ⟨_, ⟨.inr rfl, by simp [hps]⟩, .inr hq⟩
    · by_cases hxe : x = (pdx la, ptx la)
      · subst hxe
        refine ⟨fun hn => by simp [hps] at hn, fun p1 hp1 => ?_⟩
        obtain rfl := Option.some.inj (hps.symm.trans hp1)
        refine ⟨p', ?_, hentp, fun hq => hc.fresh.1 (h.stays p' hq).1, hc.fresh.2, hc.one,
          hc.noTable, ?_⟩
        · rw [mapped, hentp]
          exact pteFrame_entry (hc.good.heap.lt_two_pow hc.fresh.2) (pteUser_shift _)
        · rw [hc.contents]
          exact h.contents p hpl fun he' => hpd (he' ▸ hdst)
      · refine (h.done x (hx.resolve_right hxe)).congr ?_ hc.stays (fun q hq hqt hqd => ⟨?_, ?_⟩)
          h.good.maps
        · exact hl _ fun he' => hxe (Prod.mk.inj he').2
        · exact fun y hy => hqt y (hc.keeps.noTable y q hq hy)
        · refine hc.keeps.mem q hq ?_
          rintro (hq' | hq')
          · exact hqd (hq' ▸ hdst)
          · exact hqt _ hq'
    · rw [not_or] at hx
      rw [mapped, hl _ fun he' => hx.2 (Prod.mk.inj he').2]
      exact h.todo x hx.1

theorem Copied.copyRange (h : Copied g managed dirs src dst s live R s' live')
    (hg : Good g managed s dirs live) (hsrc : src ∈ dirs) (hdst : dst ∈ dirs) (hne : src ≠ dst)
    (hr : Pmm.rangeOk start stop = true)
    (hdisj : ∀ x, InRange src start.toNat stop.toNat (src, x) → ¬R x) :
    (s'.copyRange dst src start stop = .error .noMem ∧
      s.area.nrFree < need s dirs src fun x => R x ∨
        InRange src start.toNat stop.toNat (src, x)) ∨
      ∃ s'' live'', s'.copyRange dst src start stop = .ok s''
        ∧ Copied g managed dirs src dst s live
          (fun x => R x ∨ InRange src start.toNat stop.toNat (src, x)) s'' live'' := by
  obtain ⟨h1, h2, h3, h4, h5⟩ := rangeOk_iff.1 hr
  suffices hw : ((s.area.nrFree < need s dirs src fun x => R x ∨
        InRange src start.toNat stop.toNat (src, x)) ∧
        s'.copyRange dst src start stop = .error .noMem) ∨
      ∃ s'', s'.copyRange dst src start stop = .ok s'' ∧ start.toNat ≤ stop.toNat
        ∧ ∃ live'', Copied g managed dirs src dst s live
          (fun x => R x ∨ InRange src start.toNat stop.toNat (src, x)) s'' live'' by
    rcases hw with ⟨hroom, he⟩ | ⟨s'', he, -, live'', hc⟩
    · exact .inl ⟨he, hroom⟩
    · exact .inr ⟨s'', live'', he, hc⟩
  rw [Pmm.copyRange, if_pos hr]
  refine walkFrom_rule
    (fun a y => start.toNat ≤ a ∧ ∃ live'', Copied g managed dirs src dst s live
      (fun x => R x ∨ InRange src start.toNat a (src, x)) y live'')
    hsrc h5 h2 (fun a y hy => ?_) (fun la y hal hlt hy ht => ?_) (fun la y t hal hlt hy ht => ?_)
    h1 h4 (show stop.toNat - start.toNat ≤ 4096 * 2 ^ 20 by omega)
    ⟨Nat.le_refl _, live', h.extend hne (fun x hx => .inl hx) fun x hx => .inl ?_⟩
  · obtain ⟨-, live'', hc⟩ := hy
    exact ⟨g, managed, live'', hc.good.heap, hc.good.core⟩
  · obtain ⟨hge, live'', hc⟩ := hy
    refine ⟨by omega, live'', hc.extend hne (fun x hx => ?_) fun x hx => ?_⟩
    · exact hx.imp_right fun hx => inRange_mono hx (by omega)
    · rcases hx with hx | hx
      · exact .inl (.inl hx)
      · refine (inRange_table hal hx).imp .inr fun hx' => ?_
        have hi : x.1 = pdx la := hx'.2
        exact mapped_of_tableOf_none (by rw [hi, ht])
  · obtain ⟨hge, live'', hc⟩ := hy
    have hself : InRange src start.toNat stop.toNat (src, pdx la, ptx la) :=
      ⟨rfl, by rw [laOf_la hal]; omega, by rw [laOf_la hal]; omega⟩
    have hnew : ¬(R (pdx la, ptx la) ∨ InRange src start.toNat la.toNat (src, pdx la, ptx la)) := by
      rintro (hR | ⟨-, -, hlt'⟩)
      · exact hdisj _ hself hR
      · rw [laOf_la hal] at hlt'
        omega
    rcases hc.page hdst hne (pdx_ne_vptx (by omega)) ht hnew hg with
      ⟨he, hroom⟩ | ⟨y', live3, he, hc'⟩
    · refine .inl ⟨hroom.trans_le (need_mono fun x hx => ?_), he⟩
      rcases hx with (hx | hx) | rfl
      · exact .inl hx
      · exact .inr (inRange_mono hx (by omega))
      · exact .inr hself
    · refine .inr ⟨y', he, by omega, live3, hc'.extend hne (fun x hx => ?_) fun x hx => .inl ?_⟩
      · rcases hx with (hx | hx) | rfl
        · exact .inl hx
        · exact .inr (inRange_mono hx (by omega))
        · exact .inr ⟨rfl, by rw [laOf_la hal]; omega, by rw [laOf_la hal]; omega⟩
      · rcases hx with hx | hx
        · exact .inl (.inl hx)
        · exact (inRange_page hal hx).imp .inr fun he' => (Prod.mk.inj he').2
  · rcases hx with hx | ⟨-, h6, h7⟩
    · exact hx
    · omega

end Range

/-! ## `dup_mmap` -/

namespace Mm

variable {m n : Mm} {vs ws pre post : List ℕ} {v : ℕ}

/-- An area below all others goes to the front of the list. -/
theorem Areas.insert_front (h : Areas m vs) (hv : v ∉ vs)
    (hne : (m.vma v).vmStart < (m.vma v).vmEnd)
    (hbelow : ∀ w ∈ vs, (m.vma v).vmEnd ≤ (m.vma w).vmStart) :
    ∃ m', m.insertVmaStruct v = some m' ∧ Areas m' (v :: vs) ∧ m'.vma = m.vma
      ∧ m'.pgdir = m.pgdir := by
  have h0 : Areas m ([] ++ vs) := h
  have hnext : m.link.next none = vs.head? := h0.next_eq
  have hlt : ∀ w ∈ vs, (m.vma v).vmStart < (m.vma w).vmStart := fun w hw => by
    have := hbelow w hw
    simp only [BitVec.le_def, BitVec.lt_def] at *
    omega
  have hpos : m.insertPos v (m.mapCount + 1) none = some none := by
    rw [insertPos, hnext]
    cases vs with
    | nil => rfl
    | cons w vs => exact if_pos (hlt w (by simp))
  have hall : vs.head?.all (m.checkVmaOverlap v ·) = true := by
    cases vs with
    | nil => rfl
    | cons w vs =>
      simp only [List.head?_cons, Option.all_some]
      exact checkVmaOverlap_iff.2 ⟨hne, hbelow w (by simp), h.nonempty w (by simp)⟩
  have he : m.insertVmaStruct v
      = some { m with link := m.link.addAfter none (some v), mapCount := m.mapCount + 1 } := by
    rw [Mm.insertVmaStruct, if_pos hne, hpos]
    simp only [Option.bind_eq_bind, Option.bind_some, hnext, hall, Option.all_none, Bool.and_self,
      if_true]
    rfl
  obtain ⟨pre, post, rfl, ha, hvma, -, hpg, -⟩ := h.insertVmaStruct hv he
  -- nothing can stand before it
  have hpre : pre = [] := by
    rw [List.eq_nil_iff_forall_not_mem]
    intro w hw
    have h1 := (List.pairwise_append.1 ha.sorted).2.2 w hw v (by simp)
    have h2 := hlt w (by simp [hw])
    have h3 := h.nonempty w (by simp [hw])
    rw [hvma] at h1
    simp only [BitVec.le_def, BitVec.lt_def] at *
    omega
  subst hpre
  exact ⟨_, he, ha, hvma, hpg⟩

variable {g : ℕ → Bool} {managed live live' : ℕ → Prop} {s s' : Pmm} {dirs : Finset ℕ}
  {kmalloc : ℕ → Option ℕ}

/-- The part `post` of the list has been copied, into the first `k` areas that were allocated. -/
structure Duplicate (m n : Mm) (kmalloc : ℕ → Option ℕ) (post : List ℕ) (k : ℕ)
    (ws : List ℕ) : Prop where
  areas : Areas n ws
  same : ws.map n.vma = post.map m.vma
  alloc : ∀ w ∈ ws, ∃ j < k, kmalloc j = some w

theorem Duplicate.insert (h : Duplicate m n kmalloc post k ws) (hm : Areas m (pre ++ v :: post))
    (hk : ∀ i j w, kmalloc i = some w → kmalloc j = some w → i = j) {nvma : ℕ}
    (hn : kmalloc k = some nvma) :
    ∃ n', (n.vmaCreate nvma (m.vma v).vmStart (m.vma v).vmEnd (m.vma v).vmFlags).insertVmaStruct
        nvma = some n'
      ∧ n'.pgdir = n.pgdir ∧ Duplicate m n' kmalloc (v :: post) (k + 1) (nvma :: ws) := by
  have hnw : nvma ∉ ws := fun hw => by
    obtain ⟨j, hj, he⟩ := h.alloc nvma hw
    have := hk j k nvma he hn
    omega
  have hself : (n.vmaCreate nvma (m.vma v).vmStart (m.vma v).vmEnd (m.vma v).vmFlags).vma nvma
      = m.vma v := Function.update_self _ _ _
  have hold : ∀ w ∈ ws, (n.vmaCreate nvma (m.vma v).vmStart (m.vma v).vmEnd
      (m.vma v).vmFlags).vma w = n.vma w := fun w hw =>
    Function.update_of_ne (show w ≠ nvma from fun he => hnw (he ▸ hw)) _ _
  obtain ⟨n', he, ha, hvma, hpg⟩ := (h.areas.vmaCreate hnw _ _ _).insert_front hnw
    (by rw [hself]; exact hm.nonempty v (by simp)) fun w hw => by
      rw [hself, hold w hw]
      have hmem : n.vma w ∈ post.map m.vma := h.same ▸ List.mem_map_of_mem hw
      obtain ⟨u, hu, heq⟩ := List.mem_map.1 hmem
      rw [← heq]
      exact (List.pairwise_cons.1 (List.pairwise_append.1 hm.sorted).2.1).1 u hu
  refine ⟨n', he, hpg, ha, ?_, fun w hw => ?_⟩
  · rw [List.map_cons, List.map_cons, hvma, hself, ← h.same]
    exact congrArg _ (List.map_congr_left hold)
  · rcases List.mem_cons.1 hw with rfl | hw
    · exact ⟨k, by omega, hn⟩
    · obtain ⟨j, hj, hjw⟩ := h.alloc w hw
      exact ⟨j, by omega, hjw⟩

theorem Areas.slot_disjoint (h : Areas m (pre ++ v :: post)) {l : Slot}
    (hl : InRange m.pgdir (m.vma v).vmStart.toNat (m.vma v).vmEnd.toNat l) :
    ¬AreaSlot m post l := by
  rintro ⟨w, hw, hlw⟩
  have := (List.pairwise_cons.1 (List.pairwise_append.1 h.sorted).2.1).1 w hw
  simp only [InRange, BitVec.le_def] at *
  omega

theorem Areas.dupFrom (h : Areas m (pre ++ post)) (hu : UserAreas m (pre ++ post))
    (hg : Good g managed s dirs live) (hsrc : m.pgdir ∈ dirs) (hdst : n.pgdir ∈ dirs)
    (hne : m.pgdir ≠ n.pgdir) (hk : ∀ i j w, kmalloc i = some w → kmalloc j = some w → i = j)
    {k fuel : ℕ} (hd : Duplicate m n kmalloc post k ws)
    (hc : Copied g managed dirs m.pgdir n.pgdir s live
      (fun x => AreaSlot m post (m.pgdir, x)) s' live') (hfuel : pre.length < fuel) :
    (Mm.dupFrom m kmalloc fuel k post.head? n s' = .error .noMem ∧
      ((∃ j < k + pre.length, kmalloc j = none) ∨
        s.area.nrFree < need s dirs m.pgdir fun x => AreaSlot m (pre ++ post) (m.pgdir, x))) ∨
      ∃ n' s'' ws' live'' k', Mm.dupFrom m kmalloc fuel k post.head? n s' = .ok (n', s'')
        ∧ n'.pgdir = n.pgdir ∧ Duplicate m n' kmalloc (pre ++ post) k' ws'
        ∧ Copied g managed dirs m.pgdir n.pgdir s live
          (fun x => AreaSlot m (pre ++ post) (m.pgdir, x)) s'' live'' := by
  induction pre using List.reverseRecOn generalizing post ws n s' live' k fuel with
  | nil =>
    obtain ⟨fuel, rfl⟩ : ∃ j, fuel = j + 1 := ⟨fuel - 1, by omega⟩
    have hprev : m.link.prev post.head? = none := h.ring.prev_eq
    rw [Mm.dupFrom, hprev]
    exact .inr ⟨n, s', ws, live', k, rfl, rfl, hd, hc⟩
  | append_singleton pre v ih =>
    obtain ⟨fuel, rfl⟩ : ∃ j, fuel = j + 1 := ⟨fuel - 1, by omega⟩
    have hprev : m.link.prev post.head? = some v := by
      rw [h.ring.prev_eq, List.getLast?_concat]
    have happ : pre ++ [v] ++ post = pre ++ v :: post := by simp
    rw [happ] at h hu ⊢
    cases hn : kmalloc k with
    | none =>
      refine .inl ⟨?_, .inl ⟨k, by simp, hn⟩⟩
      rw [Mm.dupFrom, hprev]
      simp only [hn]
    | some nvma =>
      obtain ⟨n1, he1, hpg, hd1⟩ := hd.insert h hk hn
      have hturn : Mm.dupFrom m kmalloc (fuel + 1) k post.head? n s'
          = (s'.copyRange n1.pgdir m.pgdir (m.vma v).vmStart (m.vma v).vmEnd).bind
            fun x => Mm.dupFrom m kmalloc fuel (k + 1) (some v) n1 x := by
        rw [Mm.dupFrom, hprev]
        simp only [hn, he1, orPanic]
        rfl
      rw [← hpg] at hdst hne hc
      rw [hturn]
      rcases hc.copyRange hg hsrc hdst hne (hu v (by simp))
          (fun x hx => h.slot_disjoint hx) with ⟨he2, hroom⟩ | ⟨s2, live2, he2, hc2⟩
      · rw [he2]
        refine .inl ⟨rfl, .inr (hroom.trans_le (need_mono fun x hx => ?_))⟩
        rcases hx with ⟨w, hw, hx⟩ | hx
        · exact ⟨w, by simp [hw], hx⟩
        · exact ⟨v, by simp, hx⟩
      · have hc2' : Copied g managed dirs m.pgdir n1.pgdir s live
            (fun x => AreaSlot m (v :: post) (m.pgdir, x)) s2 live2 :=
          hc2.extend hne (fun x hx => by
            rcases hx with ⟨w, hw, hx⟩ | hx
            · exact ⟨w, by simp [hw], hx⟩
            · exact ⟨v, by simp, hx⟩) fun x ⟨w, hw, hx⟩ => .inl (by
            rcases List.mem_cons.1 hw with rfl | hw
            · exact .inr hx
            · exact .inl ⟨w, hw, hx⟩)
        rw [he2, ← hpg]
        refine (ih h hu hdst hne hd1 hc2' (by simpa using hfuel)).imp_left fun ⟨he3, hroom⟩ =>
          ⟨he3, hroom.imp_left ?_⟩
        rintro ⟨j, hj, hnone⟩
        exact ⟨j, by rw [List.length_append, List.length_singleton]; omega, hnone⟩

/-! ## Copy and teardown -/

/-- `dup_mmap` into a new address space. -/
theorem dupMmap_copied (hg : Good g managed s dirs live) (h : Areas m vs) (hu : UserAreas m vs)
    (hd : m.pgdir ∈ dirs) (hn : Areas n []) (hnd : n.pgdir ∈ dirs) (hne : m.pgdir ≠ n.pgdir)
    (hempty : ∀ i, tableOf s dirs (n.pgdir, i) = none)
    (hk : ∀ i j w, kmalloc i = some w → kmalloc j = some w → i = j) :
    (n.dupMmap m kmalloc s = .error .noMem ∧ ((∃ k < vs.length, kmalloc k = none) ∨
        s.area.nrFree < need s dirs m.pgdir fun x => AreaSlot m vs (m.pgdir, x))) ∨
      ∃ n' s' ws live' k, n.dupMmap m kmalloc s = .ok (n', s') ∧ n'.pgdir = n.pgdir
        ∧ Duplicate m n' kmalloc vs k ws
        ∧ Copied g managed dirs m.pgdir n.pgdir s live
          (fun x => AreaSlot m vs (m.pgdir, x)) s' live' := by
  have h0 : Areas m (vs ++ []) := by rwa [List.append_nil]
  have hu0 : UserAreas m (vs ++ []) := by rwa [List.append_nil]
  have hdup : Duplicate m n kmalloc [] 0 [] := ⟨hn, rfl, by simp⟩
  have hcop : Copied g managed dirs m.pgdir n.pgdir s live
      (fun x => AreaSlot m [] (m.pgdir, x)) s live :=
    (Copied.refl hg hempty).extend hne (fun _ hx => hx.elim) fun x ⟨v, hv, _⟩ => by simp at hv
  have hfuel : vs.length < m.mapCount + 1 := by
    have := h.count
    omega
  have hloop := h0.dupFrom hu0 hg hd hnd hne hk hdup hcop hfuel
  rwa [Nat.zero_add, List.append_nil] at hloop

/-- What holds between the operations on page tables, in any reachable state among others. -/
def Consistent (s : Pmm) (dirs : Finset ℕ) : Prop :=
  ∃ g managed live, Good g managed s dirs live

/-- `dup_mmap` finds no memory only if `kmalloc` has none for an area, or if fewer pages are free
than there are pages to copy and page tables for them. -/
theorem dupMmap_noMem (hs : Consistent s dirs) (h : Areas m vs) (hu : UserAreas m vs)
    (hd : m.pgdir ∈ dirs) (hn : Areas n []) (hnd : n.pgdir ∈ dirs) (hne : m.pgdir ≠ n.pgdir)
    (hempty : ∀ i, tableOf s dirs (n.pgdir, i) = none)
    (hk : ∀ i j w, kmalloc i = some w → kmalloc j = some w → i = j)
    (he : n.dupMmap m kmalloc s = .error .noMem) :
    (∃ k < vs.length, kmalloc k = none) ∨
      s.area.nrFree < need s dirs m.pgdir fun x => AreaSlot m vs (m.pgdir, x) := by
  obtain ⟨g, managed, live, hg⟩ := hs
  rcases dupMmap_copied hg h hu hd hn hnd hne hempty hk with
    ⟨-, hwhy⟩ | ⟨n', s', ws, live', k', he', -⟩
  · exact hwhy
  · rw [he'] at he
    cases he

/-- `dup_mmap` into a new address space fails for want of memory or gives it the same list of
areas and, for each address of an area that is mapped, a page that was not in use, with the same
contents and user permissions and one reference; everything outside the new directory stays as it
is. `exit_mmap`, `put_pgdir` and `mm_destroy` return for unshared pages and leave exactly the pages
in use that the address space did not own, with as many more on the free list as it owned. -/
theorem copy_and_teardown (hs : Consistent s dirs) (h : Areas m vs) (hu : UserAreas m vs)
    (hd : m.pgdir ∈ dirs) :
    (∀ (n : Mm) (kmalloc : ℕ → Option ℕ), Areas n [] → n.pgdir ∈ dirs → m.pgdir ≠ n.pgdir →
      (∀ i, tableOf s dirs (n.pgdir, i) = none) →
      (∀ i j w, kmalloc i = some w → kmalloc j = some w → i = j) →
      n.dupMmap m kmalloc s = .error .noMem ∨
        ∃ n' s' ws, n.dupMmap m kmalloc s = .ok (n', s') ∧ Consistent s' dirs
          ∧ Areas n' ws ∧ ws.map n'.vma = vs.map m.vma ∧ n'.pgdir = n.pgdir
          ∧ (∀ v ∈ vs, ∀ la, m.contains v la = true →
            (mapped s dirs (m.pgdir, pdx la, ptx la) = none →
              mapped s' dirs (n.pgdir, pdx la, ptx la) = none) ∧
            ∀ p, mapped s dirs (m.pgdir, pdx la, ptx la) = some p →
              ∃ p', mapped s' dirs (n.pgdir, pdx la, ptx la) = some p'
                ∧ entry s' dirs (n.pgdir, pdx la, ptx la)
                  = cloneEntry p' (entry s dirs (m.pgdir, pdx la, ptx la))
                ∧ ¬InUse s p' ∧ InUse s' p' ∧ links s' dirs p' = 1 ∧ s'.mem p' = s.mem p)
          ∧ (∀ l : Slot, l.1 ≠ n.pgdir → entry s' dirs l = entry s dirs l)
          ∧ ∀ f, InUse s f → f ≠ n.pgdir → InUse s' f ∧ s'.mem f = s.mem f)
    ∧ (m.mmCount = 0 → Unshared m vs s dirs →
      ∃ s1 s2, m.exitMmap s = .ok s1 ∧ m.putPgdir s1 = .ok s2 ∧ m.mmDestroy = some vs
        ∧ (∀ q, InUse s2 q ↔ InUse s q ∧ ¬m.Owns vs s dirs q)
        ∧ s2.area.nrFree = s.area.nrFree + {q | InUse s q ∧ m.Owns vs s dirs q}.ncard) := by
  obtain ⟨g, managed, live, hg⟩ := hs
  refine ⟨fun n kmalloc hn hnd hne hempty hk => ?_, h.teardown hu hg hd⟩
  rcases dupMmap_copied hg h hu hd hn hnd hne hempty hk with
    ⟨he, -⟩ | ⟨n', s', ws, live', k', he, hpg, hdup', hcop'⟩
  · exact .inl he
  have hin := fun q => hg.heap.inUse_iff (p := q)
  have hin' := fun q => hcop'.good.heap.inUse_iff (p := q)
  refine .inr ⟨n', s', ws, he, ⟨g, managed, live', hcop'.good⟩, hdup'.areas, hdup'.same, hpg,
    fun v hv la hc => ?_, hcop'.other, fun f hf hfn => ?_⟩
  · obtain ⟨h1, h2⟩ := hcop'.done (pdx la, ptx la) ((areaSlot_iff hu).2 ⟨v, hv, la, hc, rfl⟩)
    refine ⟨h1, fun p hp => ?_⟩
    obtain ⟨p', h3, h4, h5, h6, h7, -, h8⟩ := h2 p hp
    exact ⟨p', h3, h4, mt (hin p').1 h5, (hin' p').2 h6, h7, h8⟩
  · have hf' := (hin f).1 hf
    exact ⟨(hin' f).2 (hcop'.stays f hf').1, hcop'.contents f hf' hfn⟩

/-- One page of text, in the address space of the directory `1`. -/
def onePage : Mm :=
  ((({ blank.mmCreate with pgdir := 1 } : Mm).vmaCreate 1 0x00800000#32 0x00801000#32
    5#32).insertVmaStruct 1).getD blank

theorem onePage_areas : Areas onePage [1] := by
  have h0 : Areas { blank.mmCreate with pgdir := 1 } [] :=
    ⟨Links.isRing_init, by simp, List.Pairwise.nil, rfl⟩
  obtain ⟨m', he, ha, -⟩ := (h0.vmaCreate (v := 1) (by simp) 0x00800000#32 0x00801000#32
    5#32).insert_front (v := 1) (by simp) (by decide) (by simp)
  rwa [onePage, he]

/-- The page is mapped, copied to the directory `4`, and given back with the table and the
directory of the first address space. -/
theorem copy_and_teardown_onePage :
    ∃ s : Pmm, Consistent s {4, 1} ∧ mapped s {4, 1} (1, 2#10, 0#10) = some 2
      ∧ (∃ n' s' p', { onePage.mmCreate with pgdir := 4 }.dupMmap onePage (fun k => some (k + 1)) s
          = .ok (n', s') ∧ mapped s' {4, 1} (4, 2#10, 0#10) = some p' ∧ s'.mem p' = s.mem 2)
      ∧ ∃ s1 s2, onePage.exitMmap s = .ok s1 ∧ onePage.putPgdir s1 = .ok s2 ∧ ¬InUse s2 2 := by
  obtain ⟨s1, s2, s3, s4, h1, h2, h3, h4, hm, href, ⟨n', s', hdup⟩, htab⟩ :
      ∃ s1 s2 s3 s4 : Pmm, bootSix.newPgdir = .ok (s1, 1) ∧ s1.allocPage = .ok (s2, 2)
        ∧ s2.pageInsert 1 2 0x00800000#32 pteUser = .ok s3 ∧ s3.newPgdir = .ok (s4, 4)
        ∧ mapped s4 {4, 1} (1, 2#10, 0#10) = some 2 ∧ (s4.area.page 2).ref = 1
        ∧ (∃ n' s', { onePage.mmCreate with pgdir := 4 }.dupMmap onePage (fun k => some (k + 1)) s4
          = .ok (n', s'))
        ∧ ∀ i : BitVec 10, i ≠ vptx → has (s4.mem 4 i) pteP = false :=
    ⟨_, _, _, _, rfl, rfl, rfl, rfl, rfl, rfl, ⟨_, _, rfl⟩, by decide +kernel⟩
  have hr1 := bootSix_reachable.newPgdir h1
  have hr3 : s3.Reachable (insert 1 ∅) := .pageInsert (hr1.newPage h2) (by simp) (by decide)
    (hr1.inUse_newPage h2) (by decide) (by decide) h3
  have hr4 : s4.Reachable {4, 1} := hr3.newPgdir h4
  obtain ⟨g, managed, live, hg⟩ := hr4.good
  have hs : Consistent s4 {4, 1} := ⟨g, managed, live, hg⟩
  have hslot : ∀ v ∈ [1], ∀ la, onePage.contains v la = true → pdx la = 2#10 ∧ ptx la = 0#10 := by
    intro v hv la hc
    obtain rfl := List.mem_singleton.1 hv
    rw [contains_iff, BitVec.le_def, BitVec.lt_def] at hc
    have hc1 : 0x00800000 ≤ la.toNat := hc.1
    have hc2 : la.toNat < 0x00801000 := hc.2
    refine ⟨BitVec.eq_of_toNat_eq ?_, BitVec.eq_of_toNat_eq ?_⟩
    · rw [pdx_toNat, show (2#10).toNat = 2 from rfl]
      omega
    · rw [ptx_toNat, show (0#10).toNat = 0 from rfl]
      omega
  have hempty : ∀ i, tableOf s4 {4, 1} (4, i) = none := by
    intro i
    unfold tableOf
    split_ifs with hi
    · simp [pteFrame, htab i hi.2]
    · rfl
  have h4areas : Areas { onePage.mmCreate with pgdir := 4 } [] :=
    ⟨Links.isRing_init, by simp, List.Pairwise.nil, rfl⟩
  obtain ⟨hcopy, htear⟩ := copy_and_teardown hs onePage_areas (by
    intro v hv
    obtain rfl := List.mem_singleton.1 hv
    decide) (show (1 : ℕ) ∈ ({4, 1} : Finset ℕ) by decide)
  have hin : onePage.contains 1 0x00800000#32 = true := by decide
  have hone : Unshared onePage [1] s4 {4, 1} := by
    intro v hv la p hc hp
    obtain ⟨h5, h6⟩ := hslot v hv la hc
    rw [h5, h6] at hp
    obtain rfl := Option.some.inj (hm.symm.trans hp)
    have := hg.refs 2 (hg.maps _ _ hm).1 (by decide)
    rw [href] at this
    simp only [Pi.zero_apply, add_zero] at this
    omega
  refine ⟨s4, hs, hm, ?_, ?_⟩
  · rcases hcopy { onePage.mmCreate with pgdir := 4 } (fun k => some (k + 1)) h4areas (by decide)
        (by decide) hempty (fun i j w hi hj => by simp at hi hj; omega) with
      he | ⟨n1, s5, ws, he, -, -, -, -, hpages, -⟩
    · simp [hdup] at he
    · obtain ⟨p', hp', -, -, -, -, hmem⟩ := (hpages 1 (by simp) _ hin).2 2 hm
      exact ⟨n1, s5, p', he, hp', hmem⟩
  · obtain ⟨x1, x2, he1, he2, -, huse, -⟩ := htear rfl hone
    refine ⟨x1, x2, he1, he2, fun hc => ((huse 2).1 hc).2 ?_⟩
    exact .inr ⟨1, by simp, _, hin, .inr hm⟩

end Mm

end Ucore

end CacheCPU
