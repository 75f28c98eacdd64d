import CacheCPU.Lib.RefCount
import CacheCPU.Proofs.FirstFit
import CacheCPU.Ucore.Pmm

/-!
# Page tables in memory

Page directories and page tables are pages the allocator has handed out. As long as the tables of
the directories are distinct pages, a store into one of them changes one entry of one address
space, and `get_pte` finds that entry.
-/

namespace CacheCPU

namespace Ucore

open FreeArea

/-! ## Entries -/

theorem frameOf_or (a b : BitVec 32) (h : b >>> 12 = 0#32) : frameOf (a ||| b) = frameOf a := by
  simp only [frameOf, ppn, BitVec.ushiftRight_or_distrib, h, BitVec.or_zero]

theorem frameOf_page2pa {p : ℕ} (h : p < 2 ^ 20) : frameOf (page2pa p) = p := by
  simp only [frameOf, ppn, page2pa, BitVec.toNat_ushiftRight, BitVec.toNat_shiftLeft,
    BitVec.toNat_ofNat, Nat.shiftLeft_eq, Nat.shiftRight_eq_div_pow]
  omega

theorem frameOf_entry {p : ℕ} {perm : BitVec 32} (h : p < 2 ^ 20) (hperm : perm >>> 12 = 0#32) :
    frameOf (page2pa p ||| pteP ||| perm) = p := by
  rw [frameOf_or _ _ hperm, frameOf_or _ _ (by decide), frameOf_page2pa h]

theorem has_or_pteP (a b : BitVec 32) : has (a ||| pteP ||| b) pteP = true := by
  simp only [has, pteP, bne_iff_ne]
  intro h
  have := congrArg (fun w => w.getLsbD 0) h
  simp at this

/-! ## The allocator, one page at a time -/

/-- The allocator, with the pages it manages and those it has handed out. -/
structure Heap (g : ℕ → Bool) (managed : ℕ → Prop) (a : FreeArea) (live : ℕ → Prop) :
    Prop where
  ok : ∃ bs, Ok g a bs managed live
  lt : ∀ p, managed p → p < a.npage
  small : a.npage ≤ 2 ^ 20

section Heap

variable {g : ℕ → Bool} {managed live : ℕ → Prop} {s : Pmm} {p : ℕ}

theorem has_one {q : ℕ} : Block.Has (p, 1) q ↔ q = p := by
  simp only [Block.Has]
  omega

theorem Heap.managed_of_live (h : Heap g managed s.area live) (hp : live p) : managed p := by
  obtain ⟨bs, hok⟩ := h.ok
  exact (hok.cover p).2 (.inr hp)

theorem Heap.lt_npage (h : Heap g managed s.area live) (hp : live p) : p < s.area.npage :=
  h.lt p (h.managed_of_live hp)

theorem Heap.lt_two_pow (h : Heap g managed s.area live) (hp : live p) : p < 2 ^ 20 :=
  Nat.lt_of_lt_of_le (h.lt_npage hp) h.small

/-- A reference count of a page in use is nothing to the allocator. -/
theorem Heap.setRef {a : FreeArea} (h : Heap g managed a live) (hp : live p) (v : ℤ) :
    Heap g managed (a.setPage p fun q => { q with ref := v }) live := by
  obtain ⟨bs, hok⟩ := h.ok
  refine ⟨⟨bs, ?_, hok.sum, ?_, fun q => ?_, hok.cover, hok.disjoint, fun q hq => ?_⟩, h.lt,
    h.small⟩
  · refine hok.list.congr_page rfl rfl fun b _ => ?_
    by_cases hb : b.1 = p
    · rw [hb, setPage_self]
    · rw [setPage_ne _ hb]
  · intro q
    by_cases hq : q = p
    · subst hq
      rw [setPage_self]
      exact hok.marks q
    · rw [setPage_ne _ hq]
      exact hok.marks q
  · by_cases hq : q = p
    · subst hq
      rw [setPage_self]
      exact hok.reserved q
    · rw [setPage_ne _ hq]
      exact hok.reserved q
  · have hne : q ≠ p := fun he => hok.disjoint q hq (he ▸ hp)
    rw [setPage_ne _ hne]
    exact hok.ref q hq

/-- There is no page only if all are in use. -/
theorem Heap.allocPage (h : Heap g managed s.area live) :
    (s.allocPage = .error .noMem ∧ ∀ q, managed q → live q) ∨
      ∃ a p, s.allocPage = .ok ({ s with area := a }, p) ∧ managed p ∧ ¬live p
        ∧ Heap g managed a (fun q => q = p ∨ live q)
        ∧ (∀ q, (a.page q).ref = (s.area.page q).ref) ∧ a.npage = s.area.npage := by
  obtain ⟨bs, hok⟩ := h.ok
  rcases hok.alloc Nat.one_pos with ⟨he, hshort⟩ | ⟨pre, b, post, a, hbs, hle, -, he, hok', hk⟩
  · refine .inl ⟨by simp only [Pmm.allocPage, he], fun q hq => ?_⟩
    refine ((hok.cover q).1 hq).resolve_left ?_
    rintro ⟨b, hb, hbq⟩
    have := hshort b hb
    simp only [Block.Has] at hbq
    omega
  · have hcov : Covers bs b.1 := ⟨b, by simp [hbs], by
      simp only [Block.Has]
      omega⟩
    refine .inr ⟨a, b.1, by simp only [Pmm.allocPage, he], (hok.cover _).2 (.inl hcov),
      hok.disjoint _ hcov, ⟨⟨pre ++ remainder 1 b ++ post, ?_⟩, ?_, ?_⟩, hk.ref, hk.npage⟩
    · simpa only [has_one] using hok'
    · rw [hk.npage]
      exact h.lt
    · rw [hk.npage]
      exact h.small

theorem Heap.freePage (h : Heap g managed s.area live) (hp : live p) :
    ∃ a, s.freePage p = .ok { s with area := a }
      ∧ Heap g managed a (fun q => live q ∧ q ≠ p)
      ∧ (∀ q, q ≠ p → (a.page q).ref = (s.area.page q).ref) ∧ a.npage = s.area.npage := by
  obtain ⟨bs, hok⟩ := h.ok
  obtain ⟨a, bs', he, hok', hnp, href⟩ := hok.free Nat.one_pos
    (fun q hq => has_one.1 hq ▸ hp) (h.lt_npage hp)
  refine ⟨a, by simp only [Pmm.freePage, he], ⟨⟨bs', ?_⟩, ?_, ?_⟩,
    fun q hq => href q (mt has_one.1 hq), hnp⟩
  · simpa only [has_one] using hok'
  · rw [hnp]
    exact h.lt
  · rw [hnp]
    exact h.small

end Heap

/-! ## Directories and tables -/

/-- The page of a present entry. -/
def pteFrame (w : BitVec 32) : Option ℕ := if has w pteP then some (frameOf w) else none

/-- The page table of an entry of a directory, the one that maps the directory itself left out. -/
def tableOf (s : Pmm) (dirs : Finset ℕ) (e : ℕ × BitVec 10) : Option ℕ :=
  if e.1 ∈ dirs ∧ e.2 ≠ vptx then pteFrame (s.mem e.1 e.2) else none

/-- A page table entry: the directory, the index in it and the index in the table. -/
abbrev Slot := ℕ × BitVec 10 × BitVec 10

/-- What is in the entry, zero if there is no table for it. -/
def entry (s : Pmm) (dirs : Finset ℕ) (l : Slot) : BitVec 32 :=
  (tableOf s dirs (l.1, l.2.1)).elim 0#32 fun t => s.mem t l.2.2

/-- The page that an entry maps. -/
def mapped (s : Pmm) (dirs : Finset ℕ) (l : Slot) : Option ℕ := pteFrame (entry s dirs l)

/-- Directories and tables are pages in use, no table is a directory, and no table is used
twice. -/
structure Core (s : Pmm) (dirs : Finset ℕ) (live : ℕ → Prop) : Prop where
  dirLive : ∀ d ∈ dirs, live d
  tableLive : ∀ {e t}, tableOf s dirs e = some t → live t ∧ t ∉ dirs
  tableInj : ∀ {e e' t}, tableOf s dirs e = some t → tableOf s dirs e' = some t → e = e'

section Tables

variable {g : ℕ → Bool} {managed live : ℕ → Prop} {s : Pmm} {dirs : Finset ℕ} {d t : ℕ}
  {la : BitVec 32}

theorem tableOf_dir {e : ℕ × BitVec 10} (h : tableOf s dirs e = some t) :
    e.1 ∈ dirs ∧ e.2 ≠ vptx ∧ pteFrame (s.mem e.1 e.2) = some t := by
  unfold tableOf at h
  split_ifs at h with hd
  exact ⟨hd.1, hd.2, h⟩

theorem tableOf_eq (hd : d ∈ dirs) (hla : pdx la ≠ vptx) :
    tableOf s dirs (d, pdx la) = pteFrame (s.mem d (pdx la)) := if_pos ⟨hd, hla⟩

theorem Heap.pa2page (h : Heap g managed s.area live) {w : BitVec 32} (hw : live (frameOf w)) :
    s.pa2page w = .ok (frameOf w) := if_pos (h.lt_npage hw)

theorem pteFrame_some {w : BitVec 32} (h : pteFrame w = some t) : has w pteP = true ∧ frameOf w = t := by
  unfold pteFrame at h
  split_ifs at h with hp
  exact ⟨hp, Option.some.inj h⟩

theorem pteFrame_none {w : BitVec 32} (h : pteFrame w = none) : has w pteP = false := by
  unfold pteFrame at h
  split_ifs at h with hp
  simpa using hp

/-- The table is there, and `get_pte` goes to its entry. -/
theorem getPte_present (hh : Heap g managed s.area live) (hc : Core s dirs live) (hd : d ∈ dirs)
    (hla : pdx la ≠ vptx) (ht : tableOf s dirs (d, pdx la) = some t) (create : Bool) :
    s.getPte d la create = .ok (s, some (t, ptx la)) := by
  have hlive := (hc.tableLive ht).1
  obtain ⟨hp, hf⟩ := pteFrame_some (tableOf_eq (s := s) hd hla ▸ ht)
  rw [Pmm.getPte, if_pos hp, hh.pa2page (hf ▸ hlive), hf]
  rfl

theorem getPte_absent (hd : d ∈ dirs) (hla : pdx la ≠ vptx)
    (ht : tableOf s dirs (d, pdx la) = none) : s.getPte d la false = .ok (s, none) := by
  have hp := pteFrame_none (tableOf_eq (s := s) hd hla ▸ ht)
  rw [Pmm.getPte, if_neg (by simp [hp])]
  rfl

theorem getPte_false (hh : Heap g managed s.area live) (hc : Core s dirs live) (hd : d ∈ dirs)
    (hla : pdx la ≠ vptx) :
    s.getPte d la false = .ok (s, (tableOf s dirs (d, pdx la)).map fun t => (t, ptx la)) := by
  cases ht : tableOf s dirs (d, pdx la) with
  | none => exact getPte_absent hd hla ht
  | some t => exact getPte_present hh hc hd hla ht false

/-- The memory after `get_pte` has made the table `t`. -/
def newTable (s : Pmm) (a : FreeArea) (d : ℕ) (la : BitVec 32) (t : ℕ) : Pmm :=
  (({ s with area := a }.setPageRef t 1).store d (pdx la)
    (page2pa t ||| pteP ||| pteW ||| pteU)).storeFrame t fun _ => 0#32

theorem getPte_create (hh : Heap g managed s.area live) (hc : Core s dirs live) (hd : d ∈ dirs)
    (hla : pdx la ≠ vptx) (ht : tableOf s dirs (d, pdx la) = none) :
    (s.getPte d la true = .error .noMem ∧ ∀ q, managed q → live q) ∨
      ∃ a t, s.getPte d la true = .ok (newTable s a d la t, some (t, ptx la)) ∧ managed t
        ∧ ¬live t ∧ Heap g managed a (fun q => q = t ∨ live q)
        ∧ (∀ q, (a.page q).ref = (s.area.page q).ref) ∧ a.npage = s.area.npage := by
  have hp := pteFrame_none (tableOf_eq (s := s) hd hla ▸ ht)
  rw [Pmm.getPte, if_neg (by simp [hp]), if_pos rfl]
  rcases hh.allocPage with ⟨he, hall⟩ | ⟨a, t, he, hm, hnl, hh', href, hnp⟩
  · exact .inl ⟨by rw [he]; rfl, hall⟩
  · refine .inr ⟨a, t, ?_, hm, hnl, hh', href, hnp⟩
    have hlt : t < s.area.npage := hh.lt t hm
    have h20 : t < 2 ^ 20 := Nat.lt_of_lt_of_le hlt hh.small
    have hne : d ≠ t := fun h => hnl (h ▸ hc.dirLive d hd)
    have hpa : ∀ x : Pmm, x.area.npage = s.area.npage → ∀ w, frameOf w = t → x.pa2page w = .ok t := by
      intro x hx w hw
      rw [Pmm.pa2page, hx, hw, if_pos hlt]
    have h1 := hpa (({ s with area := a }.setPageRef t 1).store d (pdx la)
      (page2pa t ||| pteP ||| pteW ||| pteU)) hnp (page2pa t) (frameOf_page2pa h20)
    have h2 := hpa (newTable s a d la t) hnp ((newTable s a d la t).mem d (pdx la)) (by
      rw [newTable, Pmm.storeFrame, Pmm.store]
      simp only [Function.update_of_ne hne, Function.update_self]
      rw [frameOf_or _ _ (by decide), frameOf_or _ _ (by decide), frameOf_or _ _ (by decide),
        frameOf_page2pa h20])
    rw [he]
    change (Pmm.pa2page _ (page2pa t)).bind _ = _
    rw [h1]
    change (Pmm.pa2page (newTable s a d la t) ((newTable s a d la t).mem d (pdx la))).bind _ = _
    rw [h2]
    rfl

/-! ## Stores -/

@[simp] theorem store_area (f : ℕ) (i : BitVec 10) (w : BitVec 32) :
    (s.store f i w).area = s.area := rfl

theorem store_mem_self (f : ℕ) (i : BitVec 10) (w : BitVec 32) :
    (s.store f i w).mem f i = w := by
  simp [Pmm.store]

theorem store_mem_frame {f f' : ℕ} (i : BitVec 10) (w : BitVec 32) (h : f' ≠ f) :
    (s.store f i w).mem f' = s.mem f' := by
  simp [Pmm.store, h]

theorem store_mem_index {f : ℕ} {i i' : BitVec 10} (w : BitVec 32) (h : i' ≠ i) :
    (s.store f i w).mem f i' = s.mem f i' := by
  simp [Pmm.store, h]

theorem tableOf_congr {s' : Pmm} (h : ∀ d ∈ dirs, s'.mem d = s.mem d) :
    tableOf s' dirs = tableOf s dirs := by
  funext e
  unfold tableOf
  split_ifs with he
  · rw [h e.1 he.1]
  · rfl

/-- Only what the directories and the tables hold matters. -/
theorem Core.congr {s' : Pmm} {live' : ℕ → Prop} (hc : Core s dirs live)
    (h : tableOf s' dirs = tableOf s dirs) (hd : ∀ d ∈ dirs, live' d)
    (ht : ∀ e t, tableOf s dirs e = some t → live' t) : Core s' dirs live' := by
  refine ⟨hd, fun {e t} he => ?_, fun {e e' t} he he' => ?_⟩
  · rw [h] at he
    exact ⟨ht e t he, (hc.tableLive he).2⟩
  · rw [h] at he he'
    exact hc.tableInj he he'

theorem tableOf_store (hc : Core s dirs live) {e : ℕ × BitVec 10}
    (ht : tableOf s dirs e = some t) (j : BitVec 10) (w : BitVec 32) :
    tableOf (s.store t j w) dirs = tableOf s dirs :=
  tableOf_congr fun _ hd' => store_mem_frame j w fun h => (hc.tableLive ht).2 (h ▸ hd')

/-- A store into a table changes one entry of one address space. -/
theorem entry_store (hc : Core s dirs live) {i : BitVec 10}
    (ht : tableOf s dirs (d, i) = some t) (j : BitVec 10) (w : BitVec 32) :
    entry (s.store t j w) dirs = Function.update (entry s dirs) (d, i, j) w := by
  funext ⟨d', i', j'⟩
  simp only [entry, tableOf_store hc ht]
  by_cases hl : (d', i', j') = (d, i, j)
  · rw [hl, Function.update_self]
    simp only [Prod.mk.injEq] at hl
    obtain ⟨rfl, rfl, rfl⟩ := hl
    rw [ht, Option.elim_some, store_mem_self]
  · rw [Function.update_of_ne hl]
    cases ht' : tableOf s dirs (d', i') with
    | none => simp [entry, ht']
    | some t' =>
      simp only [Option.elim_some, entry, ht']
      by_cases htt : t' = t
      · subst htt
        have he := hc.tableInj ht ht'
        simp only [Prod.mk.injEq] at he
        obtain ⟨rfl, rfl⟩ := he
        rw [store_mem_index]
        exact fun hj => hl (by rw [hj])
      · rw [store_mem_frame _ _ htt]

theorem mapped_update {s' : Pmm} {l : Slot} {w : BitVec 32}
    (h : entry s' dirs = Function.update (entry s dirs) l w) :
    mapped s' dirs = Function.update (mapped s dirs) l (pteFrame w) := by
  funext l'
  simp only [mapped, h]
  by_cases hl : l' = l
  · rw [hl, Function.update_self, Function.update_self]
  · rw [Function.update_of_ne hl, Function.update_of_ne hl]
    rfl

theorem mapped_store (hc : Core s dirs live) {i : BitVec 10}
    (ht : tableOf s dirs (d, i) = some t) (j : BitVec 10) (w : BitVec 32) :
    mapped (s.store t j w) dirs = Function.update (mapped s dirs) (d, i, j) (pteFrame w) :=
  mapped_update (entry_store hc ht j w)

theorem Core.store (hc : Core s dirs live) {e : ℕ × BitVec 10}
    (ht : tableOf s dirs e = some t) (j : BitVec 10) (w : BitVec 32) :
    Core (s.store t j w) dirs live :=
  hc.congr (tableOf_store hc ht j w) hc.dirLive fun _ _ h => (hc.tableLive h).1

section NewTable

variable {a : FreeArea}

theorem newTable_mem_dir (hd : d ∈ dirs) (hc : Core s dirs live) (hnl : ¬live t) {d' : ℕ}
    (hd' : d' ∈ dirs) (i : BitVec 10) :
    (newTable s a d la t).mem d' i
      = if d' = d ∧ i = pdx la then page2pa t ||| pteP ||| pteW ||| pteU else s.mem d' i := by
  have hne : d' ≠ t := fun h => hnl (h ▸ hc.dirLive d' hd')
  simp only [newTable, Pmm.storeFrame, Pmm.store, Function.update_of_ne hne]
  by_cases h : d' = d
  · subst h
    by_cases hi : i = pdx la
    · simp [hi]
    · simp [hi, Pmm.setPageRef]
  · simp [h, Pmm.setPageRef]

theorem newTable_mem_table (hd : d ∈ dirs) (hc : Core s dirs live) (hnl : ¬live t)
    {e : ℕ × BitVec 10} {t' : ℕ} (ht' : tableOf s dirs e = some t') :
    (newTable s a d la t).mem t' = s.mem t' := by
  have h := hc.tableLive ht'
  have h1 : t' ≠ t := fun he => hnl (he ▸ h.1)
  have h2 : t' ≠ d := fun he => h.2 (he ▸ hd)
  simp [newTable, Pmm.storeFrame, Pmm.store, Pmm.setPageRef, h1, h2]

theorem newTable_mem_self (j : BitVec 10) : (newTable s a d la t).mem t j = 0#32 := by
  simp [newTable, Pmm.storeFrame]

theorem tableOf_newTable (hd : d ∈ dirs) (hla : pdx la ≠ vptx) (hc : Core s dirs live)
    (hnl : ¬live t) (h20 : t < 2 ^ 20) :
    tableOf (newTable s a d la t) dirs
      = Function.update (tableOf s dirs) (d, pdx la) (some t) := by
  have hpde : pteFrame (page2pa t ||| pteP ||| pteW ||| pteU) = some t := by
    rw [BitVec.or_assoc, pteFrame, if_pos (has_or_pteP _ _), frameOf_entry h20 (by decide)]
  funext ⟨d', i⟩
  by_cases he : (d', i) = (d, pdx la)
  · obtain ⟨rfl, rfl⟩ := Prod.mk.inj he
    rw [Function.update_self, tableOf_eq hd hla, newTable_mem_dir hd hc hnl hd,
      if_pos ⟨rfl, rfl⟩, hpde]
  · rw [Function.update_of_ne he]
    unfold tableOf
    split_ifs with hd'
    · rw [newTable_mem_dir hd hc hnl hd'.1, if_neg fun h => he (Prod.ext h.1 h.2)]
    · rfl

/-- A new table holds nothing, as if it were not there. -/
theorem entry_newTable (hd : d ∈ dirs) (hla : pdx la ≠ vptx) (hc : Core s dirs live)
    (hnl : ¬live t) (h20 : t < 2 ^ 20) (ht : tableOf s dirs (d, pdx la) = none) :
    entry (newTable s a d la t) dirs = entry s dirs := by
  funext ⟨d', i, j⟩
  simp only [entry, tableOf_newTable hd hla hc hnl h20]
  by_cases he : (d', i) = (d, pdx la)
  · rw [he, Function.update_self, ht, Option.elim_some, newTable_mem_self]
    rfl
  · rw [Function.update_of_ne he]
    cases ht' : tableOf s dirs (d', i) with
    | none => rfl
    | some t' => simp only [Option.elim_some, newTable_mem_table hd hc hnl ht']

theorem Core.newTable (hd : d ∈ dirs) (hla : pdx la ≠ vptx) (hc : Core s dirs live)
    (hnl : ¬live t) (h20 : t < 2 ^ 20) :
    Core (newTable s a d la t) dirs fun q => q = t ∨ live q := by
  have htab := tableOf_newTable (a := a) hd hla hc hnl h20
  refine ⟨fun d' hd' => .inr (hc.dirLive d' hd'), fun {e t'} he => ?_, fun {e e' t'} he he' => ?_⟩
  · rw [htab] at he
    by_cases h : e = (d, pdx la)
    · rw [h, Function.update_self] at he
      obtain rfl := Option.some.inj he
      exact ⟨.inl rfl, fun hd' => hnl (hc.dirLive _ hd')⟩
    · rw [Function.update_of_ne h] at he
      exact ⟨.inr (hc.tableLive he).1, (hc.tableLive he).2⟩
  · rw [htab] at he he'
    by_cases h : e = (d, pdx la)
    · by_cases h' : e' = (d, pdx la)
      · rw [h, h']
      · rw [h, Function.update_self] at he
        rw [Function.update_of_ne h'] at he'
        exact absurd ((Option.some.inj he).symm ▸ (hc.tableLive he').1) hnl
    · by_cases h' : e' = (d, pdx la)
      · rw [h', Function.update_self] at he'
        rw [Function.update_of_ne h] at he
        exact absurd ((Option.some.inj he').symm ▸ (hc.tableLive he).1) hnl
      · rw [Function.update_of_ne h] at he
        rw [Function.update_of_ne h'] at he'
        exact hc.tableInj he he'

end NewTable

/-! ## `tlb_invalidate` -/

/-- Either nothing changes or a bit that no mapping depends on. -/
theorem tlbInvalidate_cases (hh : Heap g managed s.area live) (hc : Core s dirs live)
    (hd : d ∈ dirs) (hla : pdx la ≠ vptx) :
    s.tlbInvalidate d la = .ok s ∨
      ∃ t, tableOf s dirs (d, pdx la) = some t
        ∧ s.tlbInvalidate d la
          = .ok (s.store t (ptx la) (s.mem t (ptx la) &&& ~~~tlbP)) := by
  unfold Pmm.tlbInvalidate
  split_ifs with hcur
  · exact .inl rfl
  · rw [getPte_false hh hc hd hla]
    cases ht : tableOf s dirs (d, pdx la) with
    | none => exact .inl rfl
    | some t =>
      by_cases hp : has (s.mem t (ptx la)) tlbP
      · exact .inr ⟨t, rfl, by simp [hp, bind, Except.bind, pure, Except.pure]⟩
      · exact .inl (by simp [hp, bind, Except.bind, pure, Except.pure])

end Tables

end Ucore

end CacheCPU
