import CacheCPU.Ucore.DefaultPmm

/-!
# The list of free blocks

What each loop of the allocator does to the list and to the descriptors: the walk that links a
block in, the search for one that is large enough, the split and the merge with the neighbours.
-/

namespace CacheCPU

namespace Ucore

open LinkedRing

/-! ## Flags -/

namespace Page

variable (p : Page)

@[simp] theorem setPageProperty_reserved : p.setPageProperty.pageReserved = p.pageReserved := by
  simp [setPageProperty, pageReserved]

@[simp] theorem setPageProperty_pageProperty : p.setPageProperty.pageProperty = true := by
  simp [setPageProperty, pageProperty]

@[simp] theorem clearPageProperty_reserved :
    p.clearPageProperty.pageReserved = p.pageReserved := by
  simp [clearPageProperty, pageReserved]

@[simp] theorem clearPageProperty_pageProperty : p.clearPageProperty.pageProperty = false := by
  simp [clearPageProperty, pageProperty]

@[simp] theorem setPageProperty_property : p.setPageProperty.property = p.property := rfl

@[simp] theorem clearPageProperty_property : p.clearPageProperty.property = p.property := rfl

@[simp] theorem setPageProperty_ref : p.setPageProperty.ref = p.ref := rfl

@[simp] theorem clearPageProperty_ref : p.clearPageProperty.ref = p.ref := rfl

end Page

/-! ## Blocks -/

/-- A block of pages: the first one and how many there are. -/
abbrev Block := ℕ × ℕ

namespace Block

def Has (b : Block) (p : ℕ) : Prop := b.1 ≤ p ∧ p < b.1 + b.2

instance (b : Block) (p : ℕ) : Decidable (b.Has p) := inferInstanceAs (Decidable (_ ∧ _))

theorem not_has_zero (base p : ℕ) : ¬Has (base, 0) p := by
  simp only [Has]
  omega

/-- The block ends before the other one starts, with a page between them. -/
def Before (a b : Block) : Prop := a.1 + a.2 < b.1

/-- No page in common, and no two that are neighbours. -/
def Apart (a b : Block) : Prop := Before a b ∨ Before b a

def Disjoint (a b : Block) : Prop := a.1 + a.2 ≤ b.1 ∨ b.1 + b.2 ≤ a.1

end Block

/-- The page lies in one of the blocks. -/
def Covers (bs : List Block) (p : ℕ) : Prop := ∃ b ∈ bs, b.Has p

/-- The list of free blocks, as the links and the descriptors of the heads have it. -/
structure FreeList (s : FreeArea) (bs : List Block) : Prop where
  ring : s.link.IsRing (bs.map Prod.fst)
  sorted : bs.Pairwise Block.Before
  pos : ∀ b ∈ bs, 0 < b.2
  inside : ∀ b ∈ bs, b.1 + b.2 ≤ s.npage
  size : ∀ b ∈ bs, (s.page b.1).property = b.2

/-! ## The list -/

namespace FreeList

variable {s : FreeArea} {bs pre post : List Block} {base n : ℕ}

theorem nodup_heads (h : bs.Pairwise Block.Before) : (bs.map Prod.fst).Nodup := by
  refine List.pairwise_map.2 (h.imp fun {a b} hab => ?_)
  simp only [Block.Before] at hab
  omega

/-- There are no more heads than descriptors, so a walk along the list ends in time. -/
theorem length_le (hs : FreeList s bs) : bs.length ≤ s.npage := by
  have hsub : bs.map Prod.fst ⊆ List.range s.npage := by
    intro x hx
    obtain ⟨b, hb, rfl⟩ := List.mem_map.1 hx
    have := hs.inside b hb
    have := hs.pos b hb
    exact List.mem_range.2 (by omega)
  simpa using ((nodup_heads hs.sorted).subperm hsub).length_le

theorem next_eq (hs : FreeList s (pre ++ post)) :
    s.link.next (pre.map Prod.fst).getLast? = (post.map Prod.fst).head? := by
  have := hs.ring
  rw [List.map_append] at this
  exact this.next_eq

/-- The state determines its list. -/
theorem unique {bs' : List Block} (hs : FreeList s bs) (hs' : FreeList s bs') : bs = bs' := by
  have hheads : bs.map Prod.fst = bs'.map Prod.fst := hs.ring.next.unique hs'.ring.next
  have hsizes : ∀ cs, FreeList s cs →
      (cs.map Prod.fst).map (fun p => (p, (s.page p).property)) = cs := by
    intro cs hcs
    rw [List.map_map]
    conv_rhs => rw [← List.map_id cs]
    exact List.map_congr_left fun b hb => Prod.ext rfl (hcs.size b hb)
  rw [← hsizes bs hs, hheads, hsizes bs' hs']

theorem next_none (hs : FreeList s bs) : s.link.next none = (bs.map Prod.fst).head? := by
  have hs' : FreeList s ([] ++ bs) := hs
  exact hs'.next_eq

theorem next_some {q : Block} (hs : FreeList s (pre ++ q :: post)) :
    s.link.next (some q.1) = (post.map Prod.fst).head? := by
  have := hs.ring
  rw [List.map_append] at this
  exact this.next_some

theorem sorted_insert (h : (pre ++ post).Pairwise Block.Before)
    (hpre : ∀ b ∈ pre, Block.Before b (base, n)) (hpost : ∀ b ∈ post, Block.Before (base, n) b) :
    (pre ++ (base, n) :: post).Pairwise Block.Before := by
  have h := List.pairwise_append.1 h
  refine List.pairwise_append.2 ⟨h.1, List.pairwise_cons.2 ⟨hpost, h.2.1⟩, ?_⟩
  intro a ha b hb
  rcases List.mem_cons.1 hb with rfl | hb
  · exact hpre a ha
  · exact h.2.2 a ha b hb

/-- A block goes into the list between those below and those above it. -/
theorem insert (hs : FreeList s (pre ++ post)) (hsize : (s.page base).property = n)
    (hn : 0 < n) (hin : base + n ≤ s.npage) (hpre : ∀ b ∈ pre, Block.Before b (base, n))
    (hpost : ∀ b ∈ post, Block.Before (base, n) b) :
    FreeList
      { s with link := s.link.addBetween (some base) (pre.map Prod.fst).getLast?
                        (post.map Prod.fst).head? }
      (pre ++ (base, n) :: post) := by
  have hsorted := sorted_insert hs.sorted hpre hpost
  have hmem : ∀ b, b ∈ pre ++ (base, n) :: post → b = (base, n) ∨ b ∈ pre ++ post := by
    intro b hb
    simpa [or_left_comm] using hb
  refine ⟨?_, hsorted, fun b hb => ?_, fun b hb => ?_, fun b hb => ?_⟩
  · have hring := hs.ring
    have hnodup := nodup_heads hsorted
    rw [List.map_append] at hring hnodup ⊢
    exact hring.addBetween hnodup
  · rcases hmem b hb with rfl | hb
    · exact hn
    · exact hs.pos b hb
  · rcases hmem b hb with rfl | hb
    · exact hin
    · exact hs.inside b hb
  · rcases hmem b hb with rfl | hb
    · exact hsize
    · exact hs.size b hb

theorem prev_eq (hs : FreeList s (pre ++ post)) :
    s.link.prev (post.map Prod.fst).head? = (pre.map Prod.fst).getLast? := by
  have := hs.ring
  rw [List.map_append] at this
  exact this.prev_eq

theorem remove {q : Block} (hs : FreeList s (pre ++ q :: post)) :
    FreeList { s with link := s.link.del (some q.1) } (pre ++ post) := by
  have hsub : (pre ++ post).Sublist (pre ++ q :: post) := by simp
  refine ⟨?_, hs.sorted.sublist hsub, fun b hb => hs.pos b (hsub.subset hb),
    fun b hb => hs.inside b (hsub.subset hb), fun b hb => hs.size b (hsub.subset hb)⟩
  have hring := hs.ring
  rw [List.map_append] at hring ⊢
  exact hring.del

theorem remove_prev {q : Block} (hs : FreeList s (pre ++ q :: post)) :
    (s.link.del (some q.1)).prev (some q.1) = (pre.map Prod.fst).getLast? := by
  have hring := hs.ring
  rw [List.map_append] at hring
  exact hring.del_prev

/-- Descriptors change, but not the sizes of the heads. -/
theorem congr_page {s' : FreeArea} (hs : FreeList s bs) (hlink : s'.link = s.link)
    (hnp : s'.npage = s.npage)
    (hp : ∀ b ∈ bs, (s'.page b.1).property = (s.page b.1).property) : FreeList s' bs :=
  ⟨hlink ▸ hs.ring, hs.sorted, hs.pos, hnp ▸ hs.inside,
    fun b hb => (hp b hb).trans (hs.size b hb)⟩

end FreeList

namespace FreeArea

variable {s : FreeArea} {bs pre post : List Block} {base n : ℕ}

@[simp] theorem setPage_link (p : ℕ) (f : Page → Page) : (s.setPage p f).link = s.link := rfl

@[simp] theorem setPage_npage (p : ℕ) (f : Page → Page) : (s.setPage p f).npage = s.npage := rfl

@[simp] theorem setPage_nrFree (p : ℕ) (f : Page → Page) :
    (s.setPage p f).nrFree = s.nrFree := rfl

@[simp] theorem setPage_self (p : ℕ) (f : Page → Page) :
    (s.setPage p f).page p = f (s.page p) := by
  simp [setPage]

theorem setPage_ne {p q : ℕ} (f : Page → Page) (h : q ≠ p) :
    (s.setPage p f).page q = s.page q := by
  simp [setPage, h]

/-! ## `default_list_add` -/

/-- The walk passes the blocks below the new one and links it in at the first above. -/
theorem defaultListAddFrom_spec (hs : FreeList s (pre ++ post))
    (hsize : (s.page base).property = n) (hn : 0 < n) (hin : base + n ≤ s.npage)
    (hpre : ∀ b ∈ pre, Block.Before b (base, n)) (hpost : ∀ b ∈ post, Block.Apart b (base, n))
    {fuel : ℕ} (hfuel : post.length < fuel) :
    ∃ l bs', s.defaultListAddFrom base fuel (pre.map Prod.fst).getLast? = some { s with link := l }
      ∧ bs'.Perm ((base, n) :: (pre ++ post)) ∧ FreeList { s with link := l } bs' := by
  induction post generalizing pre fuel with
  | nil =>
    obtain ⟨fuel, rfl⟩ : ∃ k, fuel = k + 1 := ⟨fuel - 1, by omega⟩
    have hnext : s.link.next (pre.map Prod.fst).getLast? = none := hs.next_eq
    refine ⟨_, pre ++ [(base, n)], by rw [defaultListAddFrom, hnext], ?_, ?_⟩
    · simp
    · have hprev : s.link.prev none = (pre.map Prod.fst).getLast? := hs.prev_eq
      rw [Links.addBefore, hprev]
      exact hs.insert hsize hn hin hpre (by simp)
  | cons q post ih =>
    obtain ⟨fuel, rfl⟩ : ∃ k, fuel = k + 1 := ⟨fuel - 1, by omega⟩
    have hnext : s.link.next (pre.map Prod.fst).getLast? = some q.1 := hs.next_eq
    have hq : (s.page q.1).property = q.2 := hs.size q (by simp)
    have hqpos : 0 < q.2 := hs.pos q (by simp)
    rw [defaultListAddFrom, hnext]
    simp only [hsize, hq]
    rcases hpost q (by simp) with hb | hb
    · simp only [Block.Before] at hb
      rw [if_neg (by omega), if_neg (by omega), if_pos (by omega)]
      have hs' : FreeList s (pre ++ [q] ++ post) := by simpa using hs
      obtain ⟨l, bs', he, hp, hf⟩ := ih hs'
        (by
          intro b hb'
          rcases List.mem_append.1 hb' with hb' | hb'
          · exact hpre b hb'
          · simp only [List.mem_singleton] at hb'
            subst hb'
            exact hb)
        (fun b hb => hpost b (by simp [hb])) (show post.length < fuel by simpa using hfuel)
      refine ⟨l, bs', by simpa using he, by simpa using hp, hf⟩
    · have hb' := hb
      simp only [Block.Before] at hb'
      rw [if_neg (by omega), if_pos (by omega), if_pos (by omega)]
      refine ⟨_, pre ++ (base, n) :: q :: post, rfl, List.perm_middle, ?_⟩
      have hprev : s.link.prev (some q.1) = (pre.map Prod.fst).getLast? := hs.prev_eq
      rw [Links.addBefore, hprev]
      refine hs.insert hsize hn hin hpre fun b hb'' => ?_
      rcases List.mem_cons.1 hb'' with rfl | hb''
      · exact hb
      · have := (List.pairwise_cons.1 (List.pairwise_append.1 hs.sorted).2.1).1 b hb''
        simp only [Block.Before] at this ⊢
        omega

theorem defaultListAdd_spec (hs : FreeList s bs) (hsize : (s.page base).property = n)
    (hn : 0 < n) (hin : base + n ≤ s.npage) (hbs : ∀ b ∈ bs, Block.Apart b (base, n)) :
    ∃ l bs', s.defaultListAdd base = some { s with link := l }
      ∧ bs'.Perm ((base, n) :: bs) ∧ FreeList { s with link := l } bs' := by
  have hs' : FreeList s ([] ++ bs) := hs
  exact defaultListAddFrom_spec hs' hsize hn hin (by simp) hbs (Nat.lt_succ_of_le hs.length_le)

/-! ## The loops over descriptors -/

/-- One turn of a loop that applies `g` to the descriptors from `base` on. -/
theorem update_range (f : ℕ → Page) (g : Page → Page) :
    (fun q => if Block.Has (base + 1, n) q then g (Function.update f base (g (f base)) q)
        else Function.update f base (g (f base)) q)
      = fun q => if Block.Has (base, n + 1) q then g (f q) else f q := by
  funext q
  simp only [Block.Has]
  by_cases hq : q = base
  · subst hq
    simp
  · rw [Function.update_of_ne hq]
    exact if_congr (by omega) rfl rfl

theorem clearReserved_spec (h : ∀ i < n, (s.page (base + i)).pageReserved) :
    s.clearReserved base n = some { s with
      page := fun q => if Block.Has (base, n) q then ⟨0, 0#32, 0⟩ else s.page q } := by
  induction n generalizing s base with
  | zero => simp [clearReserved, Block.not_has_zero]
  | succ n ih =>
    rw [clearReserved, if_pos (by simpa using h 0 (by omega)), ih]
    · simp only [setPage]
      rw [update_range s.page fun _ => ⟨0, 0#32, 0⟩]
    · intro i hi
      rw [setPage_ne _ (by omega)]
      simpa [Nat.add_assoc, Nat.add_comm 1] using h (i + 1) (by omega)

theorem clearAllocated_spec
    (h : ∀ i < n, (s.page (base + i)).pageReserved = false ∧
      (s.page (base + i)).pageProperty = false) :
    s.clearAllocated base n = some { s with
      page := fun q =>
        if Block.Has (base, n) q then { s.page q with flags := 0#32, ref := 0 }
        else s.page q } := by
  induction n generalizing s base with
  | zero => simp [clearAllocated, Block.not_has_zero]
  | succ n ih =>
    have h0 := h 0 (by omega)
    rw [Nat.add_zero] at h0
    rw [clearAllocated, if_pos (by simp [h0]), ih]
    · simp only [setPage]
      rw [update_range s.page fun q => { q with flags := 0#32, ref := 0 }]
    · intro i hi
      rw [setPage_ne _ (by omega)]
      simpa [Nat.add_assoc, Nat.add_comm 1] using h (i + 1) (by omega)

/-! ## `default_alloc_pages` -/

theorem findFit_spec (hs : FreeList s (pre ++ post)) {fuel : ℕ} (hfuel : post.length < fuel) :
    s.findFit n fuel (pre.map Prod.fst).getLast?
      = some ((post.find? fun b => n ≤ b.2).map Prod.fst) := by
  induction post generalizing pre fuel with
  | nil =>
    obtain ⟨fuel, rfl⟩ : ∃ k, fuel = k + 1 := ⟨fuel - 1, by omega⟩
    have hnext : s.link.next (pre.map Prod.fst).getLast? = none := hs.next_eq
    rw [findFit, hnext]
    rfl
  | cons q post ih =>
    obtain ⟨fuel, rfl⟩ : ∃ k, fuel = k + 1 := ⟨fuel - 1, by omega⟩
    have hnext : s.link.next (pre.map Prod.fst).getLast? = some q.1 := hs.next_eq
    have hq : (s.page q.1).property = q.2 := hs.size q (by simp)
    rw [findFit, hnext]
    simp only [hq]
    split_ifs with hle
    · simp [hle]
    · have hs' : FreeList s (pre ++ [q] ++ post) := by simpa using hs
      have := ih hs' (show post.length < fuel by simpa using hfuel)
      rw [List.find?_cons_of_neg (by simpa using hle)]
      simpa using this

/-- What is left of a block after its first `n` pages are taken. -/
def remainder (n : ℕ) (b : Block) : List Block :=
  if n < b.2 then [(b.1 + n, b.2 - n)] else []

theorem takeBlock_spec {b : Block} (hs : FreeList s (pre ++ b :: post)) (hn : 0 < n) :
    FreeList (s.takeBlock n b.1) (pre ++ remainder n b ++ post) := by
  have hb : (s.page b.1).property = b.2 := hs.size b (by simp)
  have hin : b.1 + b.2 ≤ s.npage := hs.inside b (by simp)
  have hsort := List.pairwise_append.1 hs.sorted
  have hpre : ∀ a ∈ pre, Block.Before a b := fun a ha => hsort.2.2 a ha b (by simp)
  have hpost : ∀ a ∈ post, Block.Before b a := (List.pairwise_cons.1 hsort.2.1).1
  simp only [Block.Before] at hpre hpost
  have hr := hs.remove
  by_cases hlt : n < b.2
  · simp only [takeBlock, hb, if_pos hlt, remainder]
    have hne : ∀ a ∈ pre ++ post, a.1 ≠ b.1 + n := by
      intro a ha
      rcases List.mem_append.1 ha with ha | ha
      · have := hpre a ha
        omega
      · have := hpost a ha
        omega
    -- the descriptor of the rest, before it is linked in where the block was
    let rest : FreeArea :=
      ((({ s with link := s.link.del (some b.1) } : FreeArea).setPage (b.1 + n)
        fun q => { q with property := b.2 - n })).setPage (b.1 + n) Page.setPageProperty
    have hrest : FreeList rest (pre ++ post) := by
      refine hr.congr_page rfl rfl fun a ha => ?_
      rw [setPage_ne _ (hne a ha), setPage_ne _ (hne a ha)]
    have hsize : (rest.page (b.1 + n)).property = b.2 - n := by simp [rest]
    have hins := hrest.insert hsize (by omega)
      (by simp only [rest, setPage_npage]; omega)
      (fun a ha => by have := hpre a ha; simp only [Block.Before]; omega)
      (fun a ha => by have := hpost a ha; simp only [Block.Before]; omega)
    have hprev : rest.link.prev (some b.1) = (pre.map Prod.fst).getLast? := hs.remove_prev
    have hlink : rest.link.addAfter (rest.link.prev (some b.1)) (some (b.1 + n))
        = rest.link.addBetween (some (b.1 + n)) (pre.map Prod.fst).getLast?
            (post.map Prod.fst).head? := by
      rw [Links.addAfter, hprev, hrest.next_eq]
    rw [List.append_assoc, List.singleton_append]
    refine hins.congr_page hlink rfl fun a ha => ?_
    by_cases h : a.1 = b.1
    · rw [h, setPage_self]
      rfl
    · rw [setPage_ne _ h]
  · simp only [takeBlock, hb, if_neg hlt, remainder, List.append_nil]
    exact hr.congr_page rfl rfl fun a ha => by
      by_cases h : a.1 = b.1
      · rw [h, setPage_self]
        rfl
      · rw [setPage_ne _ h]

/-! ## What happens to the descriptors -/

/-- The parts of the descriptors that the list operations leave alone. -/
structure Kept (s s' : FreeArea) : Prop where
  npage : s'.npage = s.npage
  reserved : ∀ p, (s'.page p).pageReserved = (s.page p).pageReserved
  ref : ∀ p, (s'.page p).ref = (s.page p).ref

theorem Kept.trans {s s' s'' : FreeArea} (h : Kept s s') (h' : Kept s' s'') : Kept s s'' :=
  ⟨h'.npage.trans h.npage, fun p => (h'.reserved p).trans (h.reserved p),
    fun p => (h'.ref p).trans (h.ref p)⟩

theorem Kept.setPage (p : ℕ) {f : Page → Page}
    (hf : ∀ q, (f q).pageReserved = q.pageReserved ∧ (f q).ref = q.ref) :
    Kept s (s.setPage p f) := by
  refine ⟨rfl, fun q => ?_, fun q => ?_⟩
  all_goals
    by_cases hq : q = p
    · subst hq
      simp [hf]
    · rw [setPage_ne _ hq]

/-- The head of a block, or a reserved page that had the bit from the start, which `g` tells. -/
def Marks (s : FreeArea) (g : ℕ → Bool) (heads : ℕ → Prop) : Prop :=
  ∀ p, (s.page p).pageProperty = true ↔
    heads p ∨ ((s.page p).pageReserved = true ∧ g p = true)

variable {g : ℕ → Bool} {heads : ℕ → Prop}

theorem Marks.congr {s' : FreeArea} {heads' : ℕ → Prop} (h : Marks s g heads)
    (hp : s'.page = s.page) (hh : ∀ p, heads' p ↔ heads p) : Marks s' g heads' := by
  intro p
  rw [hp, hh]
  exact h p

theorem Marks.set (h : Marks s g heads) (p : ℕ) :
    Marks (s.setPage p Page.setPageProperty) g fun q => q = p ∨ heads q := by
  intro q
  by_cases hq : q = p
  · subst hq
    simp
  · rw [setPage_ne _ hq, h q]
    simp [hq]

theorem Marks.clear (h : Marks s g heads) {p : ℕ} (hp : (s.page p).pageReserved = false) :
    Marks (s.setPage p Page.clearPageProperty) g fun q => q ≠ p ∧ heads q := by
  intro q
  by_cases hq : q = p
  · subst hq
    simp [hp]
  · rw [setPage_ne _ hq, h q]
    simp [hq]

theorem Marks.setProperty (h : Marks s g heads) (p : ℕ) (f : Page → ℕ) :
    Marks (s.setPage p fun q => { q with property := f q }) g heads := by
  intro q
  by_cases hq : q = p
  · subst hq
    rw [setPage_self]
    exact h q
  · rw [setPage_ne _ hq]
    exact h q

/-- A block that is marked but not on the list. -/
structure Pending (g : ℕ → Bool) (s : FreeArea) (bs : List Block) (b : Block) : Prop where
  list : FreeList s bs
  size : (s.page b.1).property = b.2
  pos : 0 < b.2
  inside : b.1 + b.2 ≤ s.npage
  marks : Marks s g (· ∈ (b :: bs).map Prod.fst)

/-- The two lists have the same pages. -/
def SamePages (bs bs' : List Block) : Prop :=
  (∀ p, Covers bs' p ↔ Covers bs p) ∧ (bs'.map Prod.snd).sum = (bs.map Prod.snd).sum

/-! ## `default_free_pages` -/

/-- The stores of `default_free_pages` that make one block of two neighbours: the lower head
`keep` gets the size, the other one `gone` loses its mark, and `p` leaves the list. -/
def joined (s : FreeArea) (keep gone p : ℕ) : FreeArea :=
  let s := s.setPage keep fun q => { q with property := q.property + (s.page gone).property }
  let s := s.setPage gone Page.clearPageProperty
  { s with link := s.link.del (some p) }

theorem joined_kept (keep gone p : ℕ) : Kept s (s.joined keep gone p) := by
  have h1 : Kept s (s.setPage keep fun q =>
      { q with property := q.property + (s.page gone).property }) :=
    Kept.setPage keep fun q => ⟨rfl, rfl⟩
  have h2 := h1.trans (Kept.setPage gone fun q =>
    ⟨q.clearPageProperty_reserved, q.clearPageProperty_ref⟩)
  exact ⟨h2.npage, h2.reserved, h2.ref⟩

theorem Pending.join {q b lo hi : Block} (h : Pending g s (pre ++ q :: post) b)
    (hlohi : (lo = b ∧ hi = q) ∨ (lo = q ∧ hi = b)) (hadj : lo.1 + lo.2 = hi.1)
    (hne : ∀ x ∈ pre ++ post, x.1 ≠ b.1) (hres : (s.page hi.1).pageReserved = false) :
    Pending g (s.joined lo.1 hi.1 q.1) (pre ++ post) (lo.1, lo.2 + hi.2) := by
  have hnq : ∀ x ∈ pre ++ post, x.1 ≠ q.1 := by
    have hn := FreeList.nodup_heads h.list.sorted
    rw [List.map_append, List.map_cons, List.nodup_middle, ← List.map_append] at hn
    intro x hx he
    exact (List.nodup_cons.1 hn).1 (he ▸ List.mem_map_of_mem hx)
  have hsq : (s.page q.1).property = q.2 := h.list.size q (by simp)
  have hpq : 0 < q.2 := h.list.pos q (by simp)
  have hiq : q.1 + q.2 ≤ s.npage := h.list.inside q (by simp)
  have hb := h.size
  have hbpos := h.pos
  have hbin := h.inside
  -- what the two blocks have in common, whichever is the lower one
  obtain ⟨hlo, hhi, hlopos, hhipos, hin, hnlo, hnhi⟩ :
      (s.page lo.1).property = lo.2 ∧ (s.page hi.1).property = hi.2 ∧ 0 < lo.2 ∧ 0 < hi.2 ∧
        hi.1 + hi.2 ≤ s.npage ∧ (∀ x ∈ pre ++ post, x.1 ≠ lo.1) ∧
        ∀ x ∈ pre ++ post, x.1 ≠ hi.1 := by
    rcases hlohi with ⟨rfl, rfl⟩ | ⟨rfl, rfl⟩
    · exact ⟨hb, hsq, hbpos, hpq, hiq, hne, hnq⟩
    · exact ⟨hsq, hb, hpq, hbpos, hbin, hnq, hne⟩
  have hlh : lo.1 ≠ hi.1 := by omega
  refine ⟨?_, ?_, by simp only; omega, ?_, ?_⟩
  · refine h.list.remove.congr_page rfl rfl fun x hx => ?_
    simp only [joined]
    rw [setPage_ne _ (hnhi x hx), setPage_ne _ (hnlo x hx)]
  · simp only [joined]
    rw [setPage_ne _ hlh, setPage_self, hlo, hhi]
  · simp only [joined, setPage_npage]
    omega
  · have hm := (h.marks.setProperty lo.1 fun x => x.property + (s.page hi.1).property).clear
      (p := hi.1) (by rw [setPage_ne _ hlh.symm]; exact hres)
    refine hm.congr rfl fun p => ?_
    have hpmem : p ∈ (pre ++ post).map Prod.fst → p ≠ hi.1 := by
      intro hp
      obtain ⟨x, hx, rfl⟩ := List.mem_map.1 hp
      exact hnhi x hx
    simp only [List.map_append, List.map_cons, List.mem_cons, List.mem_append] at hpmem ⊢
    rcases hlohi with ⟨rfl, rfl⟩ | ⟨rfl, rfl⟩ <;> grind

theorem mergeFrom_succ (base fuel p : ℕ) :
    s.mergeFrom base (fuel + 1) (some p) =
      if base + (s.page base).property = p then
        (s.joined base p p).mergeFrom base fuel (s.link.next (some p))
      else if p + (s.page p).property = base then
        (s.joined p base p).mergeFrom p fuel (s.link.next (some p))
      else s.mergeFrom base fuel (s.link.next (some p)) := rfl

/-- The walk over the list takes the neighbours off it and leaves the pending block apart from
the rest. The blocks already passed are apart from it, those ahead have no page in common. -/
theorem mergeFrom_spec {b : Block} (h : Pending g s (pre ++ post) b)
    (hpre : ∀ x ∈ pre, Block.Apart x b) (hpost : ∀ x ∈ post, Block.Disjoint x b)
    (hres : ∀ x ∈ post, (s.page x.1).pageReserved = false)
    (hresb : (s.page b.1).pageReserved = false) {fuel : ℕ} (hfuel : post.length ≤ fuel) :
    ∃ s' bs' b', s.mergeFrom b.1 fuel (post.map Prod.fst).head? = some (s', b'.1)
      ∧ Pending g s' bs' b' ∧ (∀ x ∈ bs', Block.Apart x b')
      ∧ SamePages (b :: (pre ++ post)) (b' :: bs') ∧ Kept s s' ∧ s'.nrFree = s.nrFree := by
  induction post generalizing pre s b fuel with
  | nil =>
    refine ⟨s, pre, b, ?_, by simpa using h, hpre, ⟨by simp, by simp⟩,
      ⟨rfl, fun _ => rfl, fun _ => rfl⟩, rfl⟩
    rw [List.map_nil, List.head?_nil, mergeFrom]
  | cons q post ih =>
    obtain ⟨fuel, rfl⟩ : ∃ k, fuel = k + 1 := ⟨fuel - 1, by simp at hfuel; omega⟩
    have hfuel' : post.length ≤ fuel := by simpa using hfuel
    have hsort := List.pairwise_append.1 h.list.sorted
    have hq := List.pairwise_cons.1 hsort.2.1
    have hbpos := h.pos
    have hqpos : 0 < q.2 := h.list.pos q (by simp)
    have hqb : Block.Disjoint q b := hpost q (by simp)
    have hne : ∀ x ∈ pre ++ post, x.1 ≠ b.1 := by
      intro x hx
      have hxpos := h.list.pos x (by simp only [List.mem_append, List.mem_cons] at hx ⊢; tauto)
      rcases List.mem_append.1 hx with hx | hx
      · have := hpre x hx
        simp only [Block.Apart, Block.Before] at this
        omega
      · have := hpost x (List.mem_cons_of_mem _ hx)
        simp only [Block.Disjoint] at this
        omega
    rw [List.map_cons, List.head?_cons, mergeFrom_succ, h.size, h.list.size q (by simp),
      h.list.next_some]
    -- a merge goes on with a wider block and one entry less on the list
    have hjoin : ∀ lo hi : Block, (lo = b ∧ hi = q) ∨ (lo = q ∧ hi = b) → lo.1 + lo.2 = hi.1 →
        ∃ s' bs' b', (s.joined lo.1 hi.1 q.1).mergeFrom lo.1 fuel (post.map Prod.fst).head?
            = some (s', b'.1)
          ∧ Pending g s' bs' b' ∧ (∀ x ∈ bs', Block.Apart x b')
          ∧ SamePages (b :: (pre ++ q :: post)) (b' :: bs') ∧ Kept s s'
          ∧ s'.nrFree = s.nrFree := by
      intro lo hi hlohi hadj
      have hk := joined_kept (s := s) lo.1 hi.1 q.1
      have hreslo : (s.page lo.1).pageReserved = false ∧ (s.page hi.1).pageReserved = false := by
        rcases hlohi with ⟨rfl, rfl⟩ | ⟨rfl, rfl⟩
        · exact ⟨hresb, hres _ (by simp)⟩
        · exact ⟨hres _ (by simp), hresb⟩
      obtain ⟨s', bs', b', he, hp, ha, hsame, hkept, hnr⟩ :=
        ih (h.join hlohi hadj hne hreslo.2)
          (fun x hx => by
            have h1 := hpre x hx
            have h2 := hsort.2.2 x hx q (by simp)
            simp only [Block.Apart, Block.Before] at h1 h2 ⊢
            rcases hlohi with ⟨rfl, rfl⟩ | ⟨rfl, rfl⟩ <;> omega)
          (fun x hx => by
            have h1 := hpost x (List.mem_cons_of_mem _ hx)
            have h2 := hq.1 x hx
            have h3 := h.list.pos x (by simp [hx])
            simp only [Block.Disjoint, Block.Before] at h1 h2 ⊢
            rcases hlohi with ⟨rfl, rfl⟩ | ⟨rfl, rfl⟩ <;> omega)
          (fun x hx => (hk.reserved _).trans (hres x (List.mem_cons_of_mem _ hx)))
          ((hk.reserved _).trans hreslo.1) hfuel'
      refine ⟨s', bs', b', he, hp, ha, ⟨fun p => ?_, ?_⟩, hk.trans hkept, hnr⟩
      · rw [hsame.1 p]
        simp only [Covers, List.mem_cons, List.mem_append, or_and_right, exists_or, Block.Has]
        rcases hlohi with ⟨rfl, rfl⟩ | ⟨rfl, rfl⟩ <;> grind
      · rw [hsame.2]
        simp only [List.map_cons, List.map_append, List.sum_cons, List.sum_append]
        rcases hlohi with ⟨rfl, rfl⟩ | ⟨rfl, rfl⟩ <;> omega
    split_ifs with hup hdown
    · exact hjoin b q (.inl ⟨rfl, rfl⟩) hup
    · exact hjoin q b (.inr ⟨rfl, rfl⟩) hdown
    · have h' : Pending g s (pre ++ [q] ++ post) b := by simpa using h
      obtain ⟨s', bs', b', he, hp, ha, hsame, hkept, hnr⟩ :=
        ih h'
          (fun x hx => by
            rcases List.mem_append.1 hx with hx | hx
            · exact hpre x hx
            · simp only [List.mem_singleton] at hx
              subst hx
              simp only [Block.Disjoint, Block.Apart, Block.Before] at hqb ⊢
              omega)
          (fun x hx => hpost x (List.mem_cons_of_mem _ hx))
          (fun x hx => hres x (List.mem_cons_of_mem _ hx)) hresb hfuel'
      exact ⟨s', bs', b', he, hp, ha, by simpa using hsame, hkept, hnr⟩

/-- Linking the pending block in. -/
theorem Pending.add {b : Block} (h : Pending g s bs b) (hapart : ∀ x ∈ bs, Block.Apart x b) :
    ∃ l bs', s.defaultListAdd b.1 = some { s with link := l } ∧ FreeList { s with link := l } bs'
      ∧ Marks { s with link := l } g (· ∈ bs'.map Prod.fst) ∧ SamePages (b :: bs) bs' := by
  obtain ⟨l, bs', he, hperm, hlist⟩ := defaultListAdd_spec h.list h.size h.pos h.inside hapart
  refine ⟨l, bs', he, hlist, h.marks.congr rfl fun p => ?_, fun p => ?_, ?_⟩
  · exact (hperm.map Prod.fst).mem_iff
  · simp only [Covers, hperm.mem_iff]
  · exact (hperm.map Prod.snd).sum_nat

/-- The stores that make the `n` pages from `base` on a block. -/
def pend (s : FreeArea) (base n : ℕ) : FreeArea :=
  (s.setPage base fun p => { p with property := n }).setPage base Page.setPageProperty

/-- Pages whose flags are cleared become a pending block. -/
theorem Pending.of_cleared {s' : FreeArea} (hs : FreeList s bs)
    (hmarks : Marks s g (· ∈ bs.map Prod.fst)) (hn : 0 < n) (hin : base + n ≤ s.npage)
    (hdisj : ∀ b ∈ bs, Block.Disjoint b (base, n)) (hlink : s'.link = s.link)
    (hnp : s'.npage = s.npage)
    (hclear : ∀ p, Block.Has (base, n) p →
      (s'.page p).pageReserved = false ∧ (s'.page p).pageProperty = false)
    (hkeep : ∀ p, ¬Block.Has (base, n) p → s'.page p = s.page p) :
    Pending g (s'.pend base n) bs (base, n) := by
  have hnot : ∀ b ∈ bs, ¬Block.Has (base, n) b.1 := by
    intro b hb
    have := hdisj b hb
    have := hs.pos b hb
    simp only [Block.Disjoint, Block.Has] at *
    omega
  have hbase : Block.Has (base, n) base := by
    simp only [Block.Has]
    omega
  refine ⟨?_, by simp [pend], hn, by simpa [pend, hnp] using hin, ?_⟩
  · refine hs.congr_page hlink hnp fun b hb => ?_
    have hne : b.1 ≠ base := fun h => hnot b hb (h ▸ hbase)
    rw [pend, setPage_ne _ hne, setPage_ne _ hne, hkeep _ (hnot b hb)]
  · have hm : Marks s' g (· ∈ bs.map Prod.fst) := by
      intro p
      by_cases hp : Block.Has (base, n) p
      · have hnh : p ∉ bs.map Prod.fst := by
          intro hmem
          obtain ⟨b, hb, rfl⟩ := List.mem_map.1 hmem
          exact hnot b hb hp
        simp [hclear p hp, hnh]
      · rw [hkeep p hp]
        exact hmarks p
    refine ((hm.setProperty base fun _ => n).set base).congr rfl fun p => ?_
    simp

theorem Pending.setNrFree {b : Block} (h : Pending g s bs b) (k : ℕ) :
    Pending g { s with nrFree := k } bs b :=
  ⟨h.list.congr_page rfl rfl fun _ _ => rfl, h.size, h.pos, h.inside, h.marks⟩

theorem pend_kept (base n : ℕ) : Kept s (s.pend base n) :=
  (Kept.setPage (f := fun p => { p with property := n }) base fun _ => ⟨rfl, rfl⟩).trans
    (Kept.setPage base fun q => ⟨q.setPageProperty_reserved, q.setPageProperty_ref⟩)

theorem covers_cons {b : Block} {p : ℕ} : Covers (b :: bs) p ↔ b.Has p ∨ Covers bs p := by
  simp [Covers]

end FreeArea

end Ucore

end CacheCPU
