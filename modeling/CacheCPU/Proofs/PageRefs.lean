import CacheCPU.Proofs.PageTables
import Mathlib.Data.Fintype.Basic

/-!
# Reference counts

The `ref` of a page is the number of entries that lead to it: page table entries that map it, and
the directory entry of a page table. `page_insert` and `page_remove` keep it so in whichever order
they count, free and store.
-/

namespace CacheCPU

namespace Ucore

open FreeArea RefCount

/-- The indices of a table. -/
def indices : Finset (BitVec 10) := Finset.univ.image BitVec.ofFin

theorem mem_indices (i : BitVec 10) : i ∈ indices :=
  Finset.mem_image.2 ⟨i.toFin, Finset.mem_univ _, rfl⟩

def entries (dirs : Finset ℕ) : Finset (ℕ × BitVec 10) := dirs ×ˢ indices

def slots (dirs : Finset ℕ) : Finset Slot := dirs ×ˢ indices ×ˢ indices

/-- The entries that lead to a page. -/
def links (s : Pmm) (dirs : Finset ℕ) (p : ℕ) : ℕ :=
  refs (slots dirs) (mapped s dirs) p + refs (entries dirs) (tableOf s dirs) p

/-- The counts, up to `e` where an operation is under way. -/
def RefsOk (e : ℕ → ℤ) (s : Pmm) (dirs : Finset ℕ) (live : ℕ → Prop) : Prop :=
  ∀ p, live p → p ∉ dirs → (s.area.page p).ref = links s dirs p + e p

/-- What is mapped is in use, and is no directory. -/
def MapsLive (s : Pmm) (dirs : Finset ℕ) (live : ℕ → Prop) : Prop :=
  ∀ l p, mapped s dirs l = some p → live p ∧ p ∉ dirs

section Refs

variable {g : ℕ → Bool} {managed live live' : ℕ → Prop} {s s' : Pmm} {dirs : Finset ℕ}
  {d t p : ℕ} {la : BitVec 32} {e e' : ℕ → ℤ}

theorem mapped_of_tableOf_none {l : Slot} (h : tableOf s dirs (l.1, l.2.1) = none) :
    mapped s dirs l = none := by
  simp [mapped, entry, h, pteFrame, show has 0#32 pteP = false from rfl]

theorem mem_slots {l : Slot} (h : mapped s dirs l = some p) : l ∈ slots dirs := by
  cases ht : tableOf s dirs (l.1, l.2.1) with
  | none => simp [mapped_of_tableOf_none ht] at h
  | some t =>
    have := (tableOf_dir ht).1
    simp [slots, mem_indices, this]

theorem mem_entries {x : ℕ × BitVec 10} (h : tableOf s dirs x = some p) : x ∈ entries dirs := by
  have := (tableOf_dir h).1
  simp [entries, mem_indices, this]

theorem links_eq_zero :
    links s dirs p = 0 ↔ (∀ l, mapped s dirs l ≠ some p) ∧ ∀ x, tableOf s dirs x ≠ some p := by
  rw [links, Nat.add_eq_zero_iff, refs_eq_zero, refs_eq_zero]
  exact ⟨fun h => ⟨fun l hl => h.1 l (mem_slots hl) hl, fun x hx => h.2 x (mem_entries hx) hx⟩,
    fun h => ⟨fun l _ => h.1 l, fun x _ => h.2 x⟩⟩

theorem links_pos_of_table {x : ℕ × BitVec 10} (h : tableOf s dirs x = some p) :
    0 < links s dirs p := by
  have := refs_pos (mem_entries h) h
  simp only [links]
  omega

theorem links_pos_of_mapped {l : Slot} (h : mapped s dirs l = some p) : 0 < links s dirs p := by
  have := refs_pos (mem_slots h) h
  simp only [links]
  omega

/-- A store into a table moves one reference. -/
theorem links_store (hc : Core s dirs live) {i : BitVec 10}
    (ht : tableOf s dirs (d, i) = some t) (j : BitVec 10) (w : BitVec 32) (q : ℕ) :
    links (s.store t j w) dirs q + (if mapped s dirs (d, i, j) = some q then 1 else 0)
      = links s dirs q + if pteFrame w = some q then 1 else 0 := by
  have hl : (d, i, j) ∈ slots dirs := by
    have := (tableOf_dir ht).1
    simp [slots, mem_indices, this]
  have hu := refs_update (f := mapped s dirs) (p := q) hl (pteFrame w)
  rw [← mapped_store hc ht] at hu
  simp only [links, tableOf_store hc ht]
  omega

theorem RefsOk.store (h : RefsOk e s dirs live) (hc : Core s dirs live) {i : BitVec 10}
    (ht : tableOf s dirs (d, i) = some t) (j : BitVec 10) (w : BitVec 32)
    (he : ∀ q, e' q + (if pteFrame w = some q then 1 else 0)
      = e q + if mapped s dirs (d, i, j) = some q then 1 else 0) :
    RefsOk e' (s.store t j w) dirs live := by
  intro q hq hqd
  have h1 := h q hq hqd
  have h2 := links_store hc ht j w q
  have h3 := he q
  rw [store_area, h1]
  split_ifs at h2 h3 <;> omega

/-- Only the memory counts, whatever becomes of the allocator. -/
theorem links_congr (h : s'.mem = s.mem) : links s' dirs = links s dirs := by
  have ht : tableOf s' dirs = tableOf s dirs := tableOf_congr fun d _ => by rw [h]
  have hm : mapped s' dirs = mapped s dirs := by
    funext l
    simp only [mapped, entry, ht, h]
  funext q
  simp only [links, ht, hm]

theorem setPageRef_self (p : ℕ) (v : ℤ) : ((s.setPageRef p v).area.page p).ref = v := by
  simp [Pmm.setPageRef]

theorem setPageRef_ne {q : ℕ} (v : ℤ) (h : q ≠ p) :
    (s.setPageRef p v).area.page q = s.area.page q := by
  simp [Pmm.setPageRef, setPage_ne _ h]

theorem mapped_eq (ht : tableOf s dirs (d, pdx la) = some t) :
    mapped s dirs (d, pdx la, ptx la) = pteFrame (s.mem t (ptx la)) := by
  simp [mapped, entry, ht]

theorem store_store (f : ℕ) (i : BitVec 10) (w w' : BitVec 32) :
    (s.store f i w).store f i w' = s.store f i w' := by
  simp [Pmm.store]

/-- The entry that `tlb_invalidate` may touch is the one that is written next. -/
theorem tlbInvalidate_store (hh : Heap g managed s.area live) (hc : Core s dirs live)
    (hd : d ∈ dirs) (hla : pdx la ≠ vptx) (ht : tableOf s dirs (d, pdx la) = some t)
    (w : BitVec 32) :
    (do let x ← s.tlbInvalidate d la; return x.store t (ptx la) w : Except Stop Pmm)
      = .ok (s.store t (ptx la) w) := by
  rcases tlbInvalidate_cases hh hc hd hla with h | ⟨t', ht', h⟩
  · rw [h]
    rfl
  · obtain rfl := Option.some.inj (ht.symm.trans ht')
    rw [h]
    exact congrArg Except.ok (store_store t (ptx la) _ w)

/-- Another allocator under the same memory. -/
theorem Core.setArea (hc : Core s dirs live) (a : FreeArea) (hd : ∀ d ∈ dirs, live' d)
    (ht : ∀ x t, tableOf s dirs x = some t → live' t) : Core { s with area := a } dirs live' :=
  hc.congr rfl hd ht

section RemovePte

variable (hc : Core s dirs live) (ht : tableOf s dirs (d, pdx la) = some t)
  (hp : mapped s dirs (d, pdx la, ptx la) = some p)
include hc ht hp

theorem links_removed (q : ℕ) :
    links (s.store t (ptx la) 0#32) dirs q + (if p = q then 1 else 0) = links s dirs q := by
  have := links_store hc ht (ptx la) 0#32 q
  rw [hp] at this
  simpa [pteFrame, show has 0#32 pteP = false from rfl] using this

variable (hr : RefsOk e s dirs live) (hm : MapsLive s dirs live) (hd : d ∈ dirs)
  (hla : pdx la ≠ vptx) (he : ∀ q, 0 ≤ e q)
include hr hm hd hla he

/-- What `page_remove_pte` has left to do once the page has been counted down or given back, with
the allocator `a` and the pages in use there are by then. -/
theorem removePte_rest {a : FreeArea} (hha : Heap g managed a live')
    (hca : Core { s with area := a } dirs live')
    (hlive : ∀ q, live' q ↔ live q ∧ ¬(q = p ∧ links (s.store t (ptx la) 0#32) dirs p + e p = 0))
    (hrefs : ∀ q, live' q → (a.page q).ref = if q = p then (s.area.page p).ref - 1
      else (s.area.page q).ref) :
    (do let x ← ({ s with area := a } : Pmm).tlbInvalidate d la
        return x.store t (ptx la) 0#32 : Except Stop Pmm)
        = .ok ({ s with area := a }.store t (ptx la) 0#32)
      ∧ Core ({ s with area := a }.store t (ptx la) 0#32) dirs live'
      ∧ RefsOk e ({ s with area := a }.store t (ptx la) 0#32) dirs live'
      ∧ MapsLive ({ s with area := a }.store t (ptx la) 0#32) dirs live' := by
  have hta : tableOf { s with area := a } dirs (d, pdx la) = some t := ht
  refine ⟨tlbInvalidate_store hha hca hd hla hta _, hca.store hta _ _, fun q hq hqd => ?_,
    fun l q hq => ?_⟩
  · have h1 := hr q ((hlive q).1 hq).1 hqd
    have h2 := links_removed hc ht hp q
    have h3 := hrefs q hq
    have h4 : links ({ s with area := a }.store t (ptx la) 0#32) dirs q
        = links (s.store t (ptx la) 0#32) dirs q := congrFun (links_congr rfl) q
    rw [store_area, h3, h4]
    by_cases hqp : q = p
    · subst hqp
      rw [if_pos rfl] at h2 ⊢
      omega
    · rw [if_neg hqp, h1]
      rw [if_neg (Ne.symm hqp)] at h2
      omega
  · have hq' : mapped (s.store t (ptx la) 0#32) dirs l = some q := hq
    have hpos := links_pos_of_mapped hq'
    rw [mapped_store hc ht] at hq'
    by_cases hl : l = (d, pdx la, ptx la)
    · rw [hl, Function.update_self] at hq'
      simp [pteFrame, show has 0#32 pteP = false from rfl] at hq'
    · rw [Function.update_of_ne hl] at hq'
      obtain ⟨h1, h2⟩ := hm l q hq'
      refine ⟨(hlive q).2 ⟨h1, ?_⟩, h2⟩
      rintro ⟨rfl, h0⟩
      have := he q
      omega

end RemovePte

/-- `page_remove_pte` takes the mapping away, and the page with it if nothing else refers to it. -/
theorem pageRemovePte_spec (hh : Heap g managed s.area live) (hc : Core s dirs live)
    (hr : RefsOk e s dirs live) (hm : MapsLive s dirs live) (hd : d ∈ dirs)
    (hla : pdx la ≠ vptx) (ht : tableOf s dirs (d, pdx la) = some t)
    (hp : mapped s dirs (d, pdx la, ptx la) = some p) (he : ∀ q, 0 ≤ e q) :
    ∃ a live', s.pageRemovePte d la (t, ptx la) = .ok ({ s with area := a }.store t (ptx la) 0#32)
      ∧ Heap g managed a live' ∧ Core ({ s with area := a }.store t (ptx la) 0#32) dirs live'
      ∧ RefsOk e ({ s with area := a }.store t (ptx la) 0#32) dirs live'
      ∧ MapsLive ({ s with area := a }.store t (ptx la) 0#32) dirs live'
      ∧ ∀ q, live' q ↔ live q ∧ ¬(q = p ∧ links (s.store t (ptx la) 0#32) dirs p + e p = 0) := by
  have hpl := hm _ _ hp
  obtain ⟨hw, hf⟩ := pteFrame_some (mapped_eq ht ▸ hp)
  have hrefp := hr p hpl.1 hpl.2
  have hlp := links_removed hc ht hp p
  rw [if_pos rfl] at hlp
  -- the state between the count and the end
  have hdec : ((s.pageRefDec p).area.page p).ref = (s.area.page p).ref - 1 := setPageRef_self _ _
  have hh1 : Heap g managed (s.pageRefDec p).area live := hh.setRef hpl.1 _
  have hne : ∀ q, q ≠ p → (s.pageRefDec p).area.page q = s.area.page q := fun q hq =>
    setPageRef_ne _ hq
  have hstart : s.pageRemovePte d la (t, ptx la) = (do
      let x ← if ((s.pageRefDec p).area.page p).ref = 0 then (s.pageRefDec p).freePage p
        else .ok (s.pageRefDec p)
      let x ← x.tlbInvalidate d la
      return x.store t (ptx la) 0#32) := by
    rw [Pmm.pageRemovePte, if_pos hw, hh.pa2page (hf ▸ hpl.1), hf]
    rfl
  rw [hstart, hdec]
  by_cases h0 : (s.area.page p).ref - 1 = 0
  · -- no entry leads to the page any more, so it is no table either
    have hzero : links (s.store t (ptx la) 0#32) dirs p + e p = 0 := by omega
    have hep := he p
    have hl0 : links (s.store t (ptx la) 0#32) dirs p = 0 := by omega
    obtain ⟨a, hfree, hh2, href2, -⟩ := hh1.freePage hpl.1
    have hlive : ∀ q, (live q ∧ q ≠ p) ↔
        live q ∧ ¬(q = p ∧ links (s.store t (ptx la) 0#32) dirs p + e p = 0) := fun q => by
      simp [hzero]
    have hc2 : Core { s with area := a } dirs fun q => live q ∧ q ≠ p := by
      refine hc.setArea a (fun x hx => ⟨hc.dirLive x hx, fun h => hpl.2 (h ▸ hx)⟩) fun x t' ht' => ?_
      refine ⟨(hc.tableLive ht').1, fun h => ?_⟩
      have := links_pos_of_table (s := s.store t (ptx la) 0#32)
        (by rw [tableOf_store hc ht]; exact h ▸ ht')
      omega
    obtain ⟨h1, h2, h3, h4⟩ := removePte_rest hc ht hp hr hm hd hla he hh2 hc2 hlive fun q hq => by
      rw [href2 q hq.2, hne q hq.2, if_neg hq.2]
    refine ⟨a, _, ?_, hh2, h2, h3, h4, hlive⟩
    rw [if_pos h0, hfree]
    exact h1
  · have hnz : ¬(links (s.store t (ptx la) 0#32) dirs p + e p = 0) := by omega
    have hlive : ∀ q, live q ↔
        live q ∧ ¬(q = p ∧ links (s.store t (ptx la) 0#32) dirs p + e p = 0) := fun q => by
      simp [hnz]
    obtain ⟨h1, h2, h3, h4⟩ := removePte_rest hc ht hp hr hm hd hla he hh1
      (hc.setArea _ hc.dirLive fun _ _ h => (hc.tableLive h).1) hlive fun q _ => by
        by_cases hq : q = p
        · rw [hq, if_pos rfl, hdec]
        · rw [if_neg hq, hne q hq]
    refine ⟨(s.pageRefDec p).area, live, ?_, hh1, h2, h3, h4, hlive⟩
    rw [if_neg h0]
    exact h1

/-! ## Whole operations -/

/-- The invariant between operations. -/
structure Good (g : ℕ → Bool) (managed : ℕ → Prop) (s : Pmm) (dirs : Finset ℕ)
    (live : ℕ → Prop) : Prop where
  heap : Heap g managed s.area live
  core : Core s dirs live
  refs : RefsOk 0 s dirs live
  maps : MapsLive s dirs live

theorem Good.links_eq_zero (h : Good g managed s dirs live) (hp : ¬live p) :
    links s dirs p = 0 :=
  Ucore.links_eq_zero.2 ⟨fun l hl => hp (h.maps l p hl).1, fun _ hx => hp (h.core.tableLive hx).1⟩

/-- Of the pages in use only those in `W` are written, tables stay where they are, and no page in
use becomes a table. -/
structure Keeps (dirs : Finset ℕ) (live W : ℕ → Prop) (s s' : Pmm) : Prop where
  mem : ∀ f, live f → ¬W f → s'.mem f = s.mem f
  tables : ∀ x u, tableOf s dirs x = some u → tableOf s' dirs x = some u
  noTable : ∀ x u, live u → tableOf s' dirs x = some u → tableOf s dirs x = some u

theorem links_newTable {a : FreeArea} (hd : d ∈ dirs) (hla : pdx la ≠ vptx)
    (hc : Core s dirs live) (hnl : ¬live t) (h20 : t < 2 ^ 20)
    (ht : tableOf s dirs (d, pdx la) = none) (q : ℕ) :
    links (newTable s a d la t) dirs q = links s dirs q + if t = q then 1 else 0 := by
  have hx : (d, pdx la) ∈ entries dirs := by simp [entries, mem_indices, hd]
  have hu := refs_update (f := tableOf s dirs) (p := q) hx (some t)
  rw [← tableOf_newTable (a := a) hd hla hc hnl h20, ht] at hu
  have hm : mapped (newTable s a d la t) dirs = mapped s dirs := by
    funext l
    simp only [mapped, entry_newTable hd hla hc hnl h20 ht]
  simp only [links, hm]
  simp only [reduceCtorEq, if_false, Option.some.injEq] at hu
  omega

/-- `get_pte` with `create`: the table is there afterwards, and nothing else has changed. -/
theorem Good.create (h : Good g managed s dirs live) (hd : d ∈ dirs) (hla : pdx la ≠ vptx) :
    (s.getPte d la true = .error .noMem ∧ tableOf s dirs (d, pdx la) = none ∧
      ∀ q, managed q → live q) ∨
      ∃ s' live' t, s.getPte d la true = .ok (s', some (t, ptx la)) ∧ Good g managed s' dirs live'
        ∧ tableOf s' dirs (d, pdx la) = some t ∧ entry s' dirs = entry s dirs
        ∧ (∀ q, live q → live' q ∧ links s' dirs q = links s dirs q)
        ∧ (∀ q, live' q → live q ∨ tableOf s dirs (d, pdx la) = none ∧ q = t)
        ∧ Keeps dirs live (· = d) s s' := by
  cases ht : tableOf s dirs (d, pdx la) with
  | some t =>
    exact .inr ⟨s, live, t, getPte_present h.heap h.core hd hla ht true, h, ht, rfl,
      fun q hq => ⟨hq, rfl⟩, fun q hq => .inl hq, fun _ _ _ => rfl, fun _ _ hx => hx,
      fun _ _ _ hx => hx⟩
  | none =>
    rcases getPte_create h.heap h.core hd hla ht with
      ⟨he, hall⟩ | ⟨a, t, he, hmt, hnl, hh, href, hnp⟩
    · exact .inl ⟨he, rfl, hall⟩
    have h20 : t < 2 ^ 20 := Nat.lt_of_lt_of_le (h.heap.lt t hmt) h.heap.small
    have hlinks := links_newTable (a := a) hd hla h.core hnl h20 ht
    have htab := tableOf_newTable (a := a) hd hla h.core hnl h20
    have hent := entry_newTable (a := a) hd hla h.core hnl h20 ht
    have harea : (newTable s a d la t).area = a.setPage t fun q => { q with ref := 1 } := rfl
    refine .inr ⟨newTable s a d la t, fun q => q = t ∨ live q, t, he,
      ⟨?_, h.core.newTable hd hla hnl h20, ?_, ?_⟩, ?_, hent, ?_,
      fun q hq => hq.symm.imp_right fun he => ⟨rfl, he⟩, fun f hf hfd => ?_, fun x u hx => ?_,
      fun x u hu hx => ?_⟩
    · rw [harea]
      exact hh.setRef (.inl rfl) 1
    · intro q hq hqd
      rw [harea, hlinks]
      by_cases hqt : q = t
      · subst hqt
        rw [setPage_self, h.links_eq_zero hnl]
        simp
      · have hl := hq.resolve_left hqt
        have := h.refs q hl hqd
        rw [setPage_ne _ hqt, href, this, if_neg (Ne.symm hqt)]
        rfl
    · intro l q hq
      have := h.maps l q (by rw [← hq]; simp only [mapped, hent])
      exact ⟨.inr this.1, this.2⟩
    · rw [htab, Function.update_self]
    · intro q hq
      refine ⟨.inr hq, ?_⟩
      have htq : t ≠ q := fun h' => hnl (h' ▸ hq)
      rw [hlinks, if_neg htq]
      rfl
    · have hft : f ≠ t := fun h' => hnl (h' ▸ hf)
      simp [newTable, Pmm.storeFrame, Pmm.store, Pmm.setPageRef, hft, hfd]
    · rw [htab, Function.update_of_ne]
      · exact hx
      · rintro rfl
        simp [ht] at hx
    · rw [htab] at hx
      by_cases hxd : x = (d, pdx la)
      · rw [hxd, Function.update_self] at hx
        exact absurd ((Option.some.inj hx).symm ▸ hu) hnl
      · rwa [Function.update_of_ne hxd] at hx

/-- The reference count of a page, one way or the other. -/
theorem Good.setRef (h : Good g managed s dirs live) (hp : live p) (k : ℤ) :
    Heap g managed (s.setPageRef p ((s.area.page p).ref + k)).area live
      ∧ Core (s.setPageRef p ((s.area.page p).ref + k)) dirs live
      ∧ RefsOk (Function.update 0 p k) (s.setPageRef p ((s.area.page p).ref + k)) dirs live
      ∧ MapsLive (s.setPageRef p ((s.area.page p).ref + k)) dirs live := by
  refine ⟨h.heap.setRef hp _, h.core.congr rfl h.core.dirLive fun _ _ hx => (h.core.tableLive hx).1,
    fun q hq hqd => ?_, h.maps⟩
  have hl : links (s.setPageRef p ((s.area.page p).ref + k)) dirs q = links s dirs q :=
    congrFun (links_congr rfl) q
  have := h.refs q hq hqd
  rw [hl]
  by_cases hqp : q = p
  · subst hqp
    rw [setPageRef_self, this, Function.update_self]
    simp
  · rw [setPageRef_ne _ hqp, this, Function.update_of_ne hqp]

theorem pteFrame_entry {page : ℕ} {perm : BitVec 32} (h : page < 2 ^ 20)
    (hperm : perm >>> 12 = 0#32) : pteFrame (page2pa page ||| pteP ||| perm) = some page := by
  rw [pteFrame, if_pos (has_or_pteP _ _), frameOf_entry h hperm]

/-- The last two statements of `page_insert`. -/
theorem insert_store (hh : Heap g managed s.area live) (hc : Core s dirs live)
    (hr : RefsOk e s dirs live) (hm : MapsLive s dirs live) (hd : d ∈ dirs)
    (hla : pdx la ≠ vptx) (ht : tableOf s dirs (d, pdx la) = some t) {page : ℕ}
    (hp : live page) (hpd : page ∉ dirs) {perm : BitVec 32} (hperm : perm >>> 12 = 0#32)
    (he : ∀ q, (if page = q then 1 else 0)
      = e q + if mapped s dirs (d, pdx la, ptx la) = some q then 1 else 0) :
    (do let x ← s.tlbInvalidate d la
        return x.store t (ptx la) (page2pa page ||| pteP ||| perm) : Except Stop Pmm)
        = .ok (s.store t (ptx la) (page2pa page ||| pteP ||| perm))
      ∧ Good g managed (s.store t (ptx la) (page2pa page ||| pteP ||| perm)) dirs live := by
  have hw := pteFrame_entry (hh.lt_two_pow hp) hperm
  refine ⟨tlbInvalidate_store hh hc hd hla ht _, hh, hc.store ht _ _, ?_, fun l q hq => ?_⟩
  · refine hr.store hc ht _ _ fun q => ?_
    rw [hw, ← he q]
    simp
  · rw [mapped_store hc ht, hw] at hq
    by_cases hl : l = (d, pdx la, ptx la)
    · rw [hl, Function.update_self] at hq
      exact Option.some.inj hq ▸ ⟨hp, hpd⟩
    · rw [Function.update_of_ne hl] at hq
      exact hm l q hq

/-- What `page_insert` and `page_remove` do, seen from outside: one entry has a new value, a page in
use is given back exactly if it had references and has none any more, and no page is taken but for
a table where there was none. -/
structure Effect (g : ℕ → Bool) (managed : ℕ → Prop) (dirs : Finset ℕ) (s : Pmm)
    (live : ℕ → Prop) (l : Slot) (w : BitVec 32) (s' : Pmm) (live' : ℕ → Prop) : Prop where
  good : Good g managed s' dirs live'
  entry : entry s' dirs = Function.update (entry s dirs) l w
  links : ∀ q, live q → links s' dirs q + (if mapped s dirs l = some q then 1 else 0)
    = links s dirs q + if pteFrame w = some q then 1 else 0
  freed : ∀ q, live q → (¬live' q ↔ 0 < Ucore.links s dirs q ∧ Ucore.links s' dirs q = 0)
  taken : ∀ q, live' q → live q ∨
    tableOf s dirs (l.1, l.2.1) = none ∧ tableOf s' dirs (l.1, l.2.1) = some q
  keeps : Keeps dirs live (fun f => f = l.1 ∨ tableOf s dirs (l.1, l.2.1) = some f) s s'

theorem entry_congr (h : s'.mem = s.mem) : entry s' dirs = entry s dirs := by
  have ht : tableOf s' dirs = tableOf s dirs := tableOf_congr fun d _ => by rw [h]
  funext l
  simp only [entry, ht, h]

/-- Once `get_pte` has found the entry, the rest of an operation is a store into it and what
becomes of the old page. -/
theorem effect_of_store {s1 : Pmm} {live1 : ℕ → Prop} (hc1 : Core s1 dirs live1)
    (ht : tableOf s1 dirs (d, pdx la) = some t) (hent : entry s1 dirs = entry s dirs)
    (hlive : ∀ q, live q → live1 q ∧ links s1 dirs q = links s dirs q)
    (htaken : ∀ q, live1 q → live q ∨ tableOf s dirs (d, pdx la) = none ∧ q = t)
    (hkeeps : Keeps dirs live (· = d) s s1)
    {w : BitVec 32} (hmem : s'.mem = (s1.store t (ptx la) w).mem)
    (hgood : Good g managed s' dirs live') (hsub : ∀ q, live' q → live1 q)
    (hfreed : ∀ q, live1 q → (¬live' q ↔ 0 < links s1 dirs q ∧ links s' dirs q = 0)) :
    Effect g managed dirs s live (d, pdx la, ptx la) w s' live' := by
  have htab : tableOf s' dirs = tableOf s1 dirs :=
    (tableOf_congr fun d _ => by rw [hmem]).trans (tableOf_store hc1 ht (ptx la) w)
  refine ⟨hgood, ?_, fun q hq => ?_, fun q hq => ?_, fun q hq => ?_, fun f hf hfd => ?_,
    fun x u hx => ?_, fun x u hu hx => ?_⟩
  · rw [entry_congr hmem, entry_store hc1 ht, hent]
  · have hl := links_store hc1 ht (ptx la) w q
    have hold : mapped s1 dirs (d, pdx la, ptx la) = mapped s dirs (d, pdx la, ptx la) := by
      simp only [mapped, hent]
    rw [links_congr hmem, ← (hlive q hq).2, ← hold]
    exact hl
  · rw [hfreed q (hlive q hq).1, (hlive q hq).2]
  · rcases htaken q (hsub q hq) with hq | ⟨hn, he⟩
    · exact .inl hq
    · refine .inr ⟨hn, ?_⟩
      rw [htab, ht, he]
  · rw [not_or] at hfd
    have hft : f ≠ t := fun he => hfd.2 (hkeeps.noTable _ f hf (he ▸ ht))
    rw [hmem, store_mem_frame _ _ hft, hkeeps.mem f hf hfd.1]
  · rw [htab]
    exact hkeeps.tables x u hx
  · rw [htab] at hx
    exact hkeeps.noTable x u hu hx

/-- `page_insert` once the entry has been found in the table `t`. -/
def Pmm.insertAt (s : Pmm) (d page : ℕ) (la perm : BitVec 32) (t : ℕ) : Except Stop Pmm := do
  let x ← if has (s.mem t (ptx la)) pteP then do
      let p ← (s.pageRefInc page).pa2page (s.mem t (ptx la))
      if p = page then .ok ((s.pageRefInc page).pageRefDec page)
      else (s.pageRefInc page).pageRemovePte d la (t, ptx la)
    else .ok (s.pageRefInc page)
  let x ← x.tlbInvalidate d la
  return x.store t (ptx la) (page2pa page ||| pteP ||| perm)

/-- The page has been stored in the entry, and the one that was there before has been given back
exactly if nothing leads to it any more. -/
structure Inserted (g : ℕ → Bool) (managed : ℕ → Prop) (dirs : Finset ℕ) (s : Pmm)
    (live : ℕ → Prop) (t page : ℕ) (la w : BitVec 32) (s' : Pmm) (live' : ℕ → Prop) :
    Prop where
  mem : s'.mem = (s.store t (ptx la) w).mem
  good : Good g managed s' dirs live'
  sub : ∀ q, live' q → live q
  freed : ∀ q, live q → (¬live' q ↔ 0 < Ucore.links s dirs q ∧ Ucore.links s' dirs q = 0)
  page : live' page

section InsertAt

variable {page : ℕ} {perm : BitVec 32} (h : Good g managed s dirs live) (hd : d ∈ dirs)
  (hla : pdx la ≠ vptx) (ht : tableOf s dirs (d, pdx la) = some t) (hp : live page)
  (hpd : page ∉ dirs) (hperm : perm >>> 12 = 0#32)
include h hd hla ht hp hpd hperm

omit hpd hd hla in
theorem links_insert (q : ℕ) :
    links (s.store t (ptx la) (page2pa page ||| pteP ||| perm)) dirs q
        + (if mapped s dirs (d, pdx la, ptx la) = some q then 1 else 0)
      = links s dirs q + if page = q then 1 else 0 := by
  have hw := pteFrame_entry (h.heap.lt_two_pow hp) hperm
  have hlinks := links_store h.core ht (ptx la) (page2pa page ||| pteP ||| perm) q
  simpa only [hw, Option.some.injEq] using hlinks

/-- The entry was empty. -/
theorem insertAt_empty (hmap : mapped s dirs (d, pdx la, ptx la) = none) :
    ∃ s', s.insertAt d page la perm t = .ok s' ∧
      Inserted g managed dirs s live t page la (page2pa page ||| pteP ||| perm) s' live := by
  obtain ⟨hh, hc, hr, hm⟩ := h.setRef hp 1
  have hinc : s.pageRefInc page = s.setPageRef page ((s.area.page page).ref + 1) := rfl
  rw [← hinc] at hh hc hr hm
  have ht' : tableOf (s.pageRefInc page) dirs (d, pdx la) = some t := ht
  have hmap' : mapped (s.pageRefInc page) dirs (d, pdx la, ptx la) = none := hmap
  obtain ⟨hrun, hg⟩ := insert_store hh hc hr hm hd hla ht' hp hpd hperm fun q => by
    rw [hmap']
    by_cases hq : page = q
    · subst hq
      simp
    · rw [if_neg hq, Function.update_of_ne (Ne.symm hq)]
      simp
  have hold := mapped_eq ht
  rw [hmap] at hold
  refine ⟨(s.pageRefInc page).store t (ptx la) (page2pa page ||| pteP ||| perm), ?_, rfl, hg,
    fun _ => id, fun q hq => ⟨fun hn => absurd hq hn, fun hn => ?_⟩, hp⟩
  · rw [Pmm.insertAt, if_neg (by simp [pteFrame_none hold.symm])]
    exact hrun
  · have hlinks := links_insert h ht hp hperm q
    have hs' : links ((s.pageRefInc page).store t (ptx la) (page2pa page ||| pteP ||| perm)) dirs q
        = links (s.store t (ptx la) (page2pa page ||| pteP ||| perm)) dirs q :=
      congrFun (links_congr rfl) q
    rw [hs'] at hn
    rw [hmap] at hlinks
    simp only [reduceCtorEq, if_false, Nat.add_zero] at hlinks
    split_ifs at hlinks <;> omega

/-- The same page again. -/
theorem insertAt_same (hmap : mapped s dirs (d, pdx la, ptx la) = some page) :
    ∃ s', s.insertAt d page la perm t = .ok s' ∧
      Inserted g managed dirs s live t page la (page2pa page ||| pteP ||| perm) s' live := by
  have hold := mapped_eq ht
  rw [hmap] at hold
  obtain ⟨hw, hf⟩ := pteFrame_some hold.symm
  have hh : Heap g managed (s.pageRefInc page).area live := (h.setRef hp 1).1
  have hpa : (s.pageRefInc page).pa2page (s.mem t (ptx la)) = .ok page := by
    rw [hh.pa2page (hf ▸ hp), hf]
  have hback : (s.pageRefInc page).pageRefDec page = s := by
    simp [Pmm.pageRefInc, Pmm.pageRefDec, Pmm.setPageRef, FreeArea.setPage]
  obtain ⟨hrun, hg⟩ := insert_store h.heap h.core h.refs h.maps hd hla ht hp hpd hperm fun q => by
    rw [hmap]
    simp
  refine ⟨_, ?_, rfl, hg, fun _ => id, fun q hq => ⟨fun hn => absurd hq hn, fun hn => ?_⟩, hp⟩
  · rw [← hrun, Pmm.insertAt, if_pos hw, hpa]
    change (if page = page then (Except.ok ((s.pageRefInc page).pageRefDec page)).bind _ else _) = _
    rw [if_pos rfl, hback]
    rfl
  · have hlinks := links_insert h ht hp hperm q
    rw [hmap] at hlinks
    simp only [Option.some.injEq] at hlinks
    omega

/-- Another page, which loses the mapping. -/
theorem insertAt_other {p : ℕ} (hmap : mapped s dirs (d, pdx la, ptx la) = some p)
    (hne : p ≠ page) : ∃ s' live', s.insertAt d page la perm t = .ok s' ∧
      Inserted g managed dirs s live t page la (page2pa page ||| pteP ||| perm) s' live' := by
  obtain ⟨hh, hc, hr, hm⟩ := h.setRef hp 1
  have hinc : s.pageRefInc page = s.setPageRef page ((s.area.page page).ref + 1) := rfl
  rw [← hinc] at hh hc hr hm
  have ht' : tableOf (s.pageRefInc page) dirs (d, pdx la) = some t := ht
  have hold := mapped_eq ht
  rw [hmap] at hold
  obtain ⟨hw, hf⟩ := pteFrame_some hold.symm
  have hpa : (s.pageRefInc page).pa2page (s.mem t (ptx la)) = .ok p := by
    rw [hh.pa2page (hf ▸ (h.maps _ _ hmap).1), hf]
  obtain ⟨a, live', hrem, hh3, hc3, hr3, hm3, hlive'⟩ :=
    pageRemovePte_spec hh hc hr hm hd hla ht' hmap fun q => by
      by_cases hq : q = page
      · rw [hq, Function.update_self]
        decide
      · rw [Function.update_of_ne hq]
        exact le_refl 0
  have ht3 : tableOf ({ s.pageRefInc page with area := a }.store t (ptx la) 0#32) dirs
      (d, pdx la) = some t :=
    (congrFun (tableOf_store h.core ht (ptx la) 0#32) _).trans ht
  have hmap3 : mapped ({ s.pageRefInc page with area := a }.store t (ptx la) 0#32) dirs
      (d, pdx la, ptx la) = none := by
    rw [mapped_eq ht3, store_mem_self]
    rfl
  have hp' : live' page := (hlive' page).2 ⟨hp, fun hpe => hne hpe.1.symm⟩
  obtain ⟨hrun, hg⟩ := insert_store hh3 hc3 hr3 hm3 hd hla ht3 hp' hpd hperm fun q => by
    rw [hmap3]
    by_cases hq : page = q
    · subst hq
      simp
    · rw [if_neg hq, Function.update_of_ne (Ne.symm hq)]
      simp
  rw [store_store] at hrun hg
  refine ⟨{ s.pageRefInc page with area := a }.store t (ptx la) (page2pa page ||| pteP ||| perm),
    live', ?_, rfl, hg, fun q hq => ((hlive' q).1 hq).1, fun q hq => ?_, hp'⟩
  · rw [← hrun, Pmm.insertAt, if_pos hw, hpa]
    change (if p = page then _ else ((s.pageRefInc page).pageRemovePte d la (t, ptx la)).bind _) = _
    rw [if_neg hne, hrem]
    rfl
  · have hlinks := links_insert h ht hp hperm q
    have hz := links_store h.core ht (ptx la) 0#32 p
    have hzp : links ((s.pageRefInc page).store t (ptx la) 0#32) dirs p
        = links (s.store t (ptx la) 0#32) dirs p := congrFun (links_congr rfl) p
    have hs' : links ({ s.pageRefInc page with area := a }.store t (ptx la)
        (page2pa page ||| pteP ||| perm)) dirs q
        = links (s.store t (ptx la) (page2pa page ||| pteP ||| perm)) dirs q :=
      congrFun (links_congr rfl) q
    rw [hlive' q, hzp, hs', Function.update_of_ne hne]
    rw [hmap, if_pos rfl] at hz
    rw [hmap] at hlinks
    simp only [pteFrame, show has 0#32 pteP = false from rfl, Bool.false_eq_true, if_false,
      reduceCtorEq, Option.some.injEq] at hz hlinks
    simp only [hq, true_and, not_not, Pi.zero_apply, add_zero]
    by_cases hqp : q = p
    · subst hqp
      rw [if_pos rfl, if_neg (Ne.symm hne)] at hlinks
      simp only [true_and]
      omega
    · rw [if_neg (Ne.symm hqp)] at hlinks
      simp only [hqp, false_and, false_iff]
      split_ifs at hlinks <;> omega

theorem Good.insertAt : ∃ s' live', s.insertAt d page la perm t = .ok s' ∧
    Inserted g managed dirs s live t page la (page2pa page ||| pteP ||| perm) s' live' := by
  cases hmap : mapped s dirs (d, pdx la, ptx la) with
  | none =>
    obtain ⟨s', he, hi⟩ := insertAt_empty h hd hla ht hp hpd hperm hmap
    exact ⟨s', live, he, hi⟩
  | some p =>
    by_cases hne : p = page
    · obtain ⟨s', he, hi⟩ := insertAt_same h hd hla ht hp hpd hperm (hne ▸ hmap)
      exact ⟨s', live, he, hi⟩
    · exact insertAt_other h hd hla ht hp hpd hperm hmap hne

end InsertAt

theorem Good.pageInsert (h : Good g managed s dirs live) (hd : d ∈ dirs) (hla : pdx la ≠ vptx)
    {page : ℕ} (hp : live page) (hpd : page ∉ dirs) {perm : BitVec 32}
    (hperm : perm >>> 12 = 0#32) :
    (s.pageInsert d page la perm = .error .noMem ∧ tableOf s dirs (d, pdx la) = none ∧
      ∀ q, managed q → live q) ∨
      ∃ s' live', s.pageInsert d page la perm = .ok s'
        ∧ Effect g managed dirs s live (d, pdx la, ptx la) (page2pa page ||| pteP ||| perm) s' live'
        ∧ live' page := by
  rcases h.create hd hla with
    ⟨he, hnone⟩ | ⟨s1, live1, t, he, h1, ht, hent, hlive, htaken, hkeeps⟩
  · exact .inl ⟨by rw [Pmm.pageInsert, he]; rfl, hnone⟩
  obtain ⟨s', live', hrun, hi⟩ := h1.insertAt hd hla ht (hlive page hp).1 hpd hperm
  refine .inr ⟨s', live', ?_, effect_of_store h1.core ht hent hlive htaken hkeeps hi.mem hi.good
    hi.sub hi.freed, hi.page⟩
  rw [← hrun, Pmm.pageInsert, he]
  rfl

theorem Good.pageRemove (h : Good g managed s dirs live) (hd : d ∈ dirs) (hla : pdx la ≠ vptx) :
    (s.pageRemove d la = .ok s ∧ mapped s dirs (d, pdx la, ptx la) = none) ∨
      ∃ s' live', s.pageRemove d la = .ok s'
        ∧ Effect g managed dirs s live (d, pdx la, ptx la) 0#32 s' live'
        ∧ ∀ q, live' q → live q := by
  rw [Pmm.pageRemove, getPte_false h.heap h.core hd hla]
  cases ht : tableOf s dirs (d, pdx la) with
  | none => exact .inl ⟨rfl, mapped_of_tableOf_none ht⟩
  | some t =>
    have hold := mapped_eq ht
    cases hp0 : mapped s dirs (d, pdx la, ptx la) with
    | none =>
      refine .inl ⟨?_, rfl⟩
      change s.pageRemovePte d la (t, ptx la) = _
      rw [Pmm.pageRemovePte, if_neg (by simp [pteFrame_none (hold.symm.trans hp0)])]
    | some p =>
      obtain ⟨a, live', hrem, hh, hc, hr, hm, hlive⟩ :=
        pageRemovePte_spec h.heap h.core h.refs h.maps hd hla ht hp0 fun q => le_refl 0
      have hsub : ∀ q, live' q → live q := fun q hq => ((hlive q).1 hq).1
      refine .inr ⟨_, live', hrem, effect_of_store h.core ht rfl (fun q hq => ⟨hq, rfl⟩)
        (fun q hq => .inl hq) ⟨fun _ _ _ => rfl, fun _ _ hx => hx, fun _ _ _ hx => hx⟩ rfl
        ⟨hh, hc, hr, hm⟩ hsub fun q hq => ?_, hsub⟩
      have hl := links_store h.core ht (ptx la) 0#32 q
      have hs' : links ({ s with area := a }.store t (ptx la) 0#32) dirs q
          = links (s.store t (ptx la) 0#32) dirs q := congrFun (links_congr rfl) q
      rw [hlive q, hs']
      simp only [hp0, pteFrame, show has 0#32 pteP = false from rfl, Bool.false_eq_true, if_false,
        reduceCtorEq, Option.some.injEq, Nat.add_zero] at hl
      simp only [hq, true_and, not_not, Pi.zero_apply, add_zero]
      by_cases hqp : q = p
      · subst hqp
        rw [if_pos rfl] at hl
        simp only [true_and]
        omega
      · rw [if_neg (Ne.symm hqp)] at hl
        simp only [hqp, false_and, false_iff]
        omega

end Refs

/-! ## Runs -/

/-- A page on the free list. -/
def IsFree (a : FreeArea) (p : ℕ) : Prop := ∃ bs, FreeList a bs ∧ Covers bs p

/-- A page that the allocator has handed out and not got back. -/
def InUse (s : Pmm) (p : ℕ) : Prop := (s.area.page p).pageReserved = false ∧ ¬IsFree s.area p

/-- A directory as `pmm_init` and `setup_pgdir` make it: empty but for the entry that maps the
directory itself. -/
def Pmm.newPgdir (s : Pmm) : Except Stop (Pmm × ℕ) := do
  let (s, d) ← s.allocPage
  let s := s.storeFrame d fun _ => 0#32
  return (s.store d vptx (page2pa d ||| pteP ||| pteW), d)

namespace Pmm

/-- What can be reached from the boot by allocating pages and directories and by inserting and
removing pages: at any address outside the window of `VPT`, and of any page in use that is no
directory. -/
inductive Reachable : Pmm → Finset ℕ → Prop
  | boot {a a' : FreeArea} {base n : ℕ} (mem : ℕ → BitVec 10 → BitVec 32) (cur : ℕ) :
      (∀ p, (a.page p).pageReserved = true) → a.npage ≤ 2048 → 0 < n → base + n ≤ a.npage →
      a.defaultInit.defaultInitMemmap base n = some a' → Reachable ⟨a', mem, cur⟩ ∅
  | newPage {s s' : Pmm} {dirs : Finset ℕ} {p : ℕ} :
      Reachable s dirs → s.allocPage = .ok (s', p) → Reachable s' dirs
  | newPgdir {s s' : Pmm} {dirs : Finset ℕ} {d : ℕ} :
      Reachable s dirs → s.newPgdir = .ok (s', d) → Reachable s' (insert d dirs)
  | pageInsert {s s' : Pmm} {dirs : Finset ℕ} {d page : ℕ} {la perm : BitVec 32} :
      Reachable s dirs → d ∈ dirs → pdx la ≠ vptx → InUse s page → page ∉ dirs →
      perm >>> 12 = 0#32 → s.pageInsert d page la perm = .ok s' → Reachable s' dirs
  | pageRemove {s s' : Pmm} {dirs : Finset ℕ} {d : ℕ} {la : BitVec 32} :
      Reachable s dirs → d ∈ dirs → pdx la ≠ vptx → s.pageRemove d la = .ok s' → Reachable s' dirs

end Pmm

section Runs

variable {g : ℕ → Bool} {managed live : ℕ → Prop} {s s' : Pmm} {dirs : Finset ℕ} {d p : ℕ}
  {la : BitVec 32}

theorem Heap.inUse_iff (h : Heap g managed s.area live) : InUse s p ↔ live p := by
  obtain ⟨bs, hok⟩ := h.ok
  have hres : (s.area.page p).pageReserved = false ↔ managed p := by
    rw [← not_iff_not, ← hok.reserved p]
    simp
  have hfree : IsFree s.area p ↔ Covers bs p :=
    ⟨fun ⟨bs', h1, h2⟩ => hok.list.unique h1 ▸ h2, fun hc => ⟨bs, hok.list, hc⟩⟩
  rw [InUse, hres, hfree, hok.cover p]
  have := hok.disjoint p
  tauto

theorem Good.newPage (h : Good g managed s dirs live) (he : s.allocPage = .ok (s', p)) :
    Good g managed s' dirs fun q => q = p ∨ live q := by
  rcases h.heap.allocPage with ⟨hn, -⟩ | ⟨a, p', he', hm, hnl, hh, href, hnp⟩
  · simp [hn] at he
  obtain ⟨rfl, rfl⟩ := Prod.mk.inj (Except.ok.inj (he'.symm.trans he))
  refine ⟨hh, h.core.setArea a (fun x hx => .inr (h.core.dirLive x hx))
    fun x t hx => .inr (h.core.tableLive hx).1, fun q hq hqd => ?_, fun l q hq => ?_⟩
  · have hl : links { s with area := a } dirs q = links s dirs q := congrFun (links_congr rfl) q
    rw [hl]
    rcases hq with rfl | hq
    · obtain ⟨bs, hok⟩ := h.heap.ok
      have hcov := ((hok.cover q).1 hm).resolve_right hnl
      rw [href, hok.ref q hcov, h.links_eq_zero hnl]
      rfl
    · rw [href]
      exact h.refs q hq hqd
  · have := h.maps l q hq
    exact ⟨.inr this.1, this.2⟩

theorem newPgdir_cases (h : Heap g managed s.area live) :
    s.newPgdir = .error .noMem ∨
      ∃ s' d, s.newPgdir = .ok (s', d) ∧ managed d ∧ ¬live d
        ∧ Heap g managed s'.area (fun q => q = d ∨ live q)
        ∧ (∀ q, (s'.area.page q).ref = (s.area.page q).ref)
        ∧ (∀ i, i ≠ vptx → s'.mem d i = 0#32) ∧ ∀ f, f ≠ d → s'.mem f = s.mem f := by
  rw [Pmm.newPgdir]
  rcases h.allocPage with ⟨he, -⟩ | ⟨a, d, he, hm, hnl, hh, href, -⟩
  · exact .inl (by rw [he]; rfl)
  · refine .inr ⟨_, d, by rw [he]; rfl, hm, hnl, hh, href, fun i hi => ?_, fun f hf => ?_⟩
    · simp [Pmm.store, Pmm.storeFrame, hi]
    · simp [Pmm.store, Pmm.storeFrame, hf]

/-- A new directory has no tables, so it adds no references. -/
theorem Good.newPgdir (h : Good g managed s dirs live) (he : s.newPgdir = .ok (s', d)) :
    Good g managed s' (insert d dirs) fun q => q = d ∨ live q := by
  rcases newPgdir_cases h.heap with hn | ⟨s1, d1, he', hm, hnl, hh, href, hzero, hframe⟩
  · simp [hn] at he
  obtain ⟨rfl, rfl⟩ := Prod.mk.inj (Except.ok.inj (he'.symm.trans he))
  have hne : ∀ x, x ∈ dirs → x ≠ d1 := fun x hx hd => hnl (hd ▸ h.core.dirLive x hx)
  have htab : tableOf s1 (insert d1 dirs) = tableOf s dirs := by
    funext x
    unfold tableOf
    by_cases hx : x.1 = d1
    · rw [if_neg fun hc : x.1 ∈ dirs ∧ x.2 ≠ vptx => hne _ hc.1 hx]
      split_ifs with hc
      · rw [hx, hzero _ hc.2]
        rfl
      · rfl
    · simp only [Finset.mem_insert, hx, false_or, hframe _ hx]
  have hent : entry s1 (insert d1 dirs) = entry s dirs := by
    funext l
    simp only [entry, htab]
    cases ht : tableOf s dirs (l.1, l.2.1) with
    | none => rfl
    | some t =>
      have htd : t ≠ d1 := fun hd => hnl (hd ▸ (h.core.tableLive ht).1)
      rw [Option.elim_some, Option.elim_some, hframe t htd]
  have hmap : mapped s1 (insert d1 dirs) = mapped s dirs := by
    funext l
    simp only [mapped, hent]
  have hlinks : ∀ q, links s1 (insert d1 dirs) q = links s dirs q := by
    intro q
    rw [links, links, hmap, htab, refs_subset (S := slots dirs), refs_subset (S := entries dirs)]
    · exact Finset.product_subset_product_left (Finset.subset_insert d1 dirs)
    · intro x _ hx
      by_contra hc
      obtain ⟨t, ht⟩ := Option.ne_none_iff_exists'.1 hc
      exact hx (mem_entries ht)
    · exact Finset.product_subset_product_left (Finset.subset_insert d1 dirs)
    · intro x _ hx
      by_contra hc
      obtain ⟨t, ht⟩ := Option.ne_none_iff_exists'.1 hc
      exact hx (mem_slots ht)
  refine ⟨hh, ⟨fun x hx => ?_, fun {e t} ht => ?_, fun {e e' t} ht ht' => ?_⟩, fun q hq hqd => ?_,
    fun l q hq => ?_⟩
  · rcases Finset.mem_insert.1 hx with rfl | hx
    · exact .inl rfl
    · exact .inr (h.core.dirLive x hx)
  · rw [htab] at ht
    have := h.core.tableLive ht
    refine ⟨.inr this.1, fun hx => ?_⟩
    rcases Finset.mem_insert.1 hx with rfl | hx
    · exact hnl this.1
    · exact this.2 hx
  · rw [htab] at ht ht'
    exact h.core.tableInj ht ht'
  · rw [Finset.mem_insert, not_or] at hqd
    rw [href, hlinks]
    exact h.refs q (hq.resolve_left hqd.1) hqd.2
  · rw [hmap] at hq
    have := h.maps l q hq
    refine ⟨.inr this.1, fun hx => ?_⟩
    rcases Finset.mem_insert.1 hx with rfl | hx
    · exact hnl this.1
    · exact this.2 hx

/-- The invariant holds in every reachable state. -/
theorem Pmm.Reachable.good (h : Pmm.Reachable s dirs) :
    ∃ g managed live, Good g managed s dirs live := by
  induction h with
  | boot mem cur hres hnp hn hin he =>
    obtain ⟨a', bs, he', hok, hnp'⟩ := (Ok.init hres).initMemmap hn hin (by simp) (by simp)
    obtain rfl := Option.some.inj (he'.symm.trans he)
    refine ⟨_, _, _, ⟨⟨bs, hok⟩, fun p hp => ?_, ?_⟩,
      ⟨by simp, fun {e t} ht => ?_, fun {e e' t} ht _ => ?_⟩, fun p hp => hp.elim,
      fun l p hl => ?_⟩
    · simp only [Block.Has, or_false] at hp
      rw [hnp']
      exact Nat.lt_of_lt_of_le hp.2 hin
    · rw [hnp']
      exact hnp.trans (by decide)
    · exact absurd (tableOf_dir ht).1 (by simp)
    · exact absurd (tableOf_dir ht).1 (by simp)
    · have := mem_slots hl
      simp [slots] at this
  | newPage _ he ih =>
    obtain ⟨g, managed, live, hg⟩ := ih
    exact ⟨g, managed, _, hg.newPage he⟩
  | newPgdir _ he ih =>
    obtain ⟨g, managed, live, hg⟩ := ih
    exact ⟨g, managed, _, hg.newPgdir he⟩
  | pageInsert _ hd hla hp hpd hperm he ih =>
    obtain ⟨g, managed, live, hg⟩ := ih
    rcases hg.pageInsert hd hla (hg.heap.inUse_iff.1 hp) hpd hperm with
      ⟨hn, -⟩ | ⟨s', live', he', hf, -⟩
    · simp [hn] at he
    · obtain rfl := Except.ok.inj (he'.symm.trans he)
      exact ⟨g, managed, live', hf.good⟩
  | pageRemove _ hd hla he ih =>
    obtain ⟨g, managed, live, hg⟩ := ih
    rcases hg.pageRemove hd hla with ⟨he', -⟩ | ⟨s', live', he', hf, -⟩
    · obtain rfl := Except.ok.inj (he'.symm.trans he)
      exact ⟨g, managed, live, hg⟩
    · obtain rfl := Except.ok.inj (he'.symm.trans he)
      exact ⟨g, managed, live', hf.good⟩

/-- In every reachable state the count of a page in use is the number of entries that lead to it,
and what is mapped is in use. `page_insert` and `page_remove` change one mapping. They give a page
back exactly if it had references and has none afterwards; inserting a page where it is already
leaves its count alone. -/
theorem page_refs (h : Pmm.Reachable s dirs) :
    (∀ p, InUse s p → p ∉ dirs → (s.area.page p).ref = links s dirs p)
      ∧ (∀ l p, mapped s dirs l = some p → InUse s p)
      ∧ ∀ d ∈ dirs, ∀ la, pdx la ≠ vptx →
        (∀ (page : ℕ) (perm : BitVec 32), InUse s page → page ∉ dirs → perm >>> 12 = 0#32 →
          s.pageInsert d page la perm = .error .noMem ∨
            ∃ s', s.pageInsert d page la perm = .ok s'
              ∧ mapped s' dirs
                = Function.update (mapped s dirs) (d, pdx la, ptx la) (some page)
              ∧ (mapped s dirs (d, pdx la, ptx la) = some page →
                (s'.area.page page).ref = (s.area.page page).ref)
              ∧ ∀ q, InUse s q → (¬InUse s' q ↔ 0 < links s dirs q ∧ links s' dirs q = 0))
        ∧ ∃ s', s.pageRemove d la = .ok s'
          ∧ mapped s' dirs = Function.update (mapped s dirs) (d, pdx la, ptx la) none
          ∧ ∀ q, InUse s q → (¬InUse s' q ↔ 0 < links s dirs q ∧ links s' dirs q = 0) := by
  obtain ⟨g, managed, live, hg⟩ := h.good
  refine ⟨fun p hp hpd => ?_, fun l p hl => hg.heap.inUse_iff.2 (hg.maps l p hl).1,
    fun d hd la hla => ⟨fun page perm hp hpd hperm => ?_, ?_⟩⟩
  · simpa using hg.refs p (hg.heap.inUse_iff.1 hp) hpd
  · have hp' := hg.heap.inUse_iff.1 hp
    rcases hg.pageInsert hd hla hp' hpd hperm with ⟨hn, -⟩ | ⟨s', live', he, hf, hl'⟩
    · exact .inl hn
    have hw := pteFrame_entry (hg.heap.lt_two_pow hp') hperm
    refine .inr ⟨s', he, ?_, fun hm => ?_, fun q hq => ?_⟩
    · rw [mapped_update hf.entry, hw]
    · have h1 := hg.refs page hp' hpd
      have h2 := hf.good.refs page hl' hpd
      have h3 := hf.links page hp'
      rw [hm, hw] at h3
      rw [h1, h2, Nat.add_right_cancel h3]
    · rw [hf.good.heap.inUse_iff]
      exact hf.freed q (hg.heap.inUse_iff.1 hq)
  · rcases hg.pageRemove hd hla with ⟨he, hm⟩ | ⟨s', live', he, hf, -⟩
    · refine ⟨s, he, ?_, fun q hq => ⟨fun hn => absurd hq hn, fun hn => ?_⟩⟩
      · rw [← hm, Function.update_eq_self]
      · omega
    · refine ⟨s', he, mapped_update hf.entry, fun q hq => ?_⟩
      rw [hf.good.heap.inUse_iff]
      exact hf.freed q (hg.heap.inUse_iff.1 hq)

/-- `page_insert` finds no memory only where the page table is missing and `alloc_page` has no page
for it. -/
theorem pageInsert_noMem (h : Pmm.Reachable s dirs) (hd : d ∈ dirs) (hla : pdx la ≠ vptx)
    {page : ℕ} (hp : InUse s page) (hpd : page ∉ dirs) {perm : BitVec 32}
    (hperm : perm >>> 12 = 0#32) (he : s.pageInsert d page la perm = .error .noMem) :
    tableOf s dirs (d, pdx la) = none ∧ s.allocPage = .error .noMem := by
  obtain ⟨g, managed, live, hg⟩ := h.good
  rcases hg.pageInsert hd hla (hg.heap.inUse_iff.1 hp) hpd hperm with
    ⟨-, hno, hall⟩ | ⟨s', live', he', -⟩
  · rcases hg.heap.allocPage with ⟨hn, -⟩ | ⟨a, p, -, hm, hnl, -⟩
    · exact ⟨hno, hn⟩
    · exact absurd (hall p hm) hnl
  · rw [he'] at he
    cases he

theorem Pmm.Reachable.inUse_newPage (h : Pmm.Reachable s dirs) (he : s.allocPage = .ok (s', p)) :
    InUse s' p := by
  obtain ⟨g, managed, live, hg⟩ := h.good
  exact (hg.newPage he).heap.inUse_iff.2 (.inl rfl)

/-- Six pages and empty memory. -/
def bootSix : Pmm where
  area := (Session.eightPages.defaultInit.defaultInitMemmap 1 6).getD Session.eightPages
  mem := fun _ _ => 0#32
  curPgdir := 0

theorem bootSix_reachable : bootSix.Reachable ∅ := by
  have hres : ∀ p, (Session.eightPages.page p).pageReserved = true := by
    intro p
    simp only [Session.eightPages, Page.pageReserved]
    split_ifs <;> rfl
  have hin : 1 + 6 ≤ Session.eightPages.npage := by decide
  exact .boot _ _ hres (by decide) (by decide) hin rfl

/-- A directory and a page, which is mapped and then mapped again at the same address. -/
theorem page_refs_bootSix :
    ∃ s : Pmm, s.Reachable (insert 1 ∅) ∧ mapped s (insert 1 ∅) (1, 2#10, 0#10) = some 2 ∧
      (s.area.page 2).ref = links s (insert 1 ∅) 2 ∧
      ∃ s', s.pageInsert 1 2 0x00800000#32 pteUser = .ok s' ∧
        (s'.area.page 2).ref = (s.area.page 2).ref := by
  obtain ⟨s1, s2, s3, s4, h1, h2, h3, hm, h4⟩ : ∃ s1 s2 s3 s4,
      bootSix.newPgdir = .ok (s1, 1) ∧ s1.allocPage = .ok (s2, 2)
        ∧ s2.pageInsert 1 2 0x00800000#32 pteUser = .ok s3
        ∧ mapped s3 (insert 1 ∅) (1, 2#10, 0#10) = some 2
        ∧ s3.pageInsert 1 2 0x00800000#32 pteUser = .ok s4 :=
    ⟨_, _, _, _, rfl, rfl, rfl, rfl, rfl⟩
  have hr1 := bootSix_reachable.newPgdir h1
  have hr3 : s3.Reachable (insert 1 ∅) := .pageInsert (hr1.newPage h2) (by simp) (by decide)
    (hr1.inUse_newPage h2) (by decide) (by decide) h3
  obtain ⟨href, huse, hops⟩ := page_refs hr3
  have hp : InUse s3 2 := huse _ _ hm
  rcases (hops 1 (by simp) 0x00800000#32 (by decide)).1 2 pteUser hp (by decide) (by decide) with
    hn | ⟨s', he, -, hsame, -⟩
  · simp [hn] at h4
  · exact ⟨s3, hr3, hm, href 2 hp (by decide), s', he, hsame hm⟩

/-- In the window of `VPT` the entries of the directory itself are page table entries. A page
inserted there takes the place of a page table, and the page that the table mapped keeps a count
of one although no entry leads to it any more. -/
theorem not_page_refs_vpt :
    ∃ s s' : Pmm, s.Reachable (insert 1 ∅) ∧ InUse s 4 ∧
      mapped s (insert 1 ∅) (1, 2#10, 0#10) = some 2 ∧
      s.pageInsert 1 4 0xfac02000#32 pteUser = .ok s' ∧
      (s'.area.page 2).ref = 1 ∧ (∀ l, mapped s' (insert 1 ∅) l ≠ some 2) ∧
      ∀ i, pteFrame (s'.mem 1 i) ≠ some 2 := by
  obtain ⟨s1, s2, s3, s4, s5, h1, h2, h3, h4, hm, h5, href, hdir, htab⟩ : ∃ s1 s2 s3 s4 s5,
      bootSix.newPgdir = .ok (s1, 1) ∧ s1.allocPage = .ok (s2, 2)
        ∧ s2.pageInsert 1 2 0x00800000#32 pteUser = .ok s3 ∧ s3.allocPage = .ok (s4, 4)
        ∧ mapped s4 (insert 1 ∅) (1, 2#10, 0#10) = some 2
        ∧ s4.pageInsert 1 4 0xfac02000#32 pteUser = .ok s5 ∧ (s5.area.page 2).ref = 1
        ∧ (∀ i : BitVec 10, pteFrame (s5.mem 1 i) = if i = 2#10 then some 4
            else if i = vptx then some 1 else none)
        ∧ ∀ i : BitVec 10, pteFrame (s5.mem 4 i) = none :=
    ⟨_, _, _, _, _, rfl, rfl, rfl, rfl, rfl, rfl, rfl, by decide +kernel, by decide +kernel⟩
  have hr1 := bootSix_reachable.newPgdir h1
  have hr3 : s3.Reachable (insert 1 ∅) := .pageInsert (hr1.newPage h2) (by simp) (by decide)
    (hr1.inUse_newPage h2) (by decide) (by decide) h3
  refine ⟨s4, s5, hr3.newPage h4, hr3.inUse_newPage h4, hm, h5, href, fun l hl => ?_, fun i hi => ?_⟩
  · -- the only table left is the page inserted in the place of the old one
    cases ht : tableOf s5 (insert 1 ∅) (l.1, l.2.1) with
    | none =>
      rw [mapped_of_tableOf_none ht] at hl
      simp at hl
    | some t =>
      obtain ⟨hd, hv, hp⟩ := tableOf_dir ht
      have hl1 : l.1 = 1 := by simpa using hd
      rw [hl1, hdir, if_neg hv] at hp
      split_ifs at hp with hi
      obtain rfl := Option.some.inj hp
      rw [mapped, entry, ht, Option.elim_some, htab] at hl
      simp at hl
  · rw [hdir] at hi
    split_ifs at hi <;> simp at hi

end Runs

end Ucore

end CacheCPU
