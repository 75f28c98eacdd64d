import CacheCPU.Proofs.FreeList
import Mathlib.Algebra.Order.BigOperators.Group.List
import Mathlib.Algebra.Order.Group.Nat
import Mathlib.Data.List.Pairwise

/-!
# First fit

The list of free blocks stays sorted and without neighbours to merge, and the pages outside of it
are the ones handed out. A call that its caller may make never fails an assertion.
-/

namespace CacheCPU

namespace Ucore

open LinkedRing

namespace FreeArea

variable {s : FreeArea} {bs pre post : List Block} {base n : ℕ} {g : ℕ → Bool}

/-! ## The invariant -/

/-- The free list, the pages handed to the allocator and those it has handed out. -/
structure Ok (g : ℕ → Bool) (s : FreeArea) (bs : List Block) (managed live : ℕ → Prop) :
    Prop where
  list : FreeList s bs
  sum : (bs.map Prod.snd).sum = s.nrFree
  marks : Marks s g (· ∈ bs.map Prod.fst)
  reserved : ∀ p, (s.page p).pageReserved = true ↔ ¬managed p
  cover : ∀ p, managed p ↔ Covers bs p ∨ live p
  disjoint : ∀ p, Covers bs p → ¬live p
  ref : ∀ p, Covers bs p → (s.page p).ref = 0

variable {managed live : ℕ → Prop}

theorem Ok.init (h : ∀ p, (s.page p).pageReserved = true) :
    Ok (fun p => (s.page p).pageProperty) s.defaultInit [] (fun _ => False) fun _ => False where
  list := ⟨Links.isRing_init, List.Pairwise.nil, by simp, by simp, by simp⟩
  sum := rfl
  marks p := by
    have : (s.defaultInit.page p).pageReserved = true := h p
    simp only [List.map_nil, List.not_mem_nil, this, true_and, false_or]
    exact Iff.rfl
  reserved p := by simpa [defaultInit] using h p
  cover p := by simp [Covers]
  disjoint p := by simp
  ref p hp := by simp [Covers] at hp

/-- Blocks disjoint from a range, when no page of the range is free. -/
theorem disjoint_of_not_covers (hs : FreeList s bs) (hn : 0 < n)
    (h : ∀ p, Block.Has (base, n) p → ¬Covers bs p) :
    ∀ b ∈ bs, Block.Disjoint b (base, n) := by
  intro b hb
  have hpos := hs.pos b hb
  by_contra hnd
  simp only [Block.Disjoint, not_or, Nat.not_le] at hnd
  refine h (max b.1 base) ?_ ⟨b, hb, ?_⟩
  · simp only [Block.Has]
    omega
  · simp only [Block.Has]
    omega

theorem Ok.initMemmap (h : Ok g s bs managed live) (hn : 0 < n) (hin : base + n ≤ s.npage)
    (hfresh : ∀ p, Block.Has (base, n) p → ¬managed p)
    (hapart : ∀ b ∈ bs, Block.Apart b (base, n)) :
    ∃ s' bs', s.defaultInitMemmap base n = some s'
      ∧ Ok g s' bs' (fun p => Block.Has (base, n) p ∨ managed p) live
      ∧ s'.npage = s.npage := by
  have hres : ∀ i < n, (s.page (base + i)).pageReserved = true := fun i hi =>
    (h.reserved _).2 (hfresh _ (by simp only [Block.Has]; omega))
  have hdisj : ∀ b ∈ bs, Block.Disjoint b (base, n) := by
    intro b hb
    have := hapart b hb
    simp only [Block.Apart, Block.Before, Block.Disjoint] at *
    omega
  let s1 : FreeArea :=
    { s with page := fun q => if Block.Has (base, n) q then ⟨0, 0#32, 0⟩ else s.page q }
  have hpend : Pending g (s1.pend base n) bs (base, n) :=
    Pending.of_cleared h.list h.marks hn hin hdisj rfl rfl
      (fun p hp => by simp [s1, hp, Page.pageReserved, Page.pageProperty])
      (fun p hp => by simp [s1, hp])
  have hkept : Kept s1 (s1.pend base n) := pend_kept base n
  have hpage : ∀ p, s1.page p = if Block.Has (base, n) p then ⟨0, 0#32, 0⟩ else s.page p :=
    fun _ => rfl
  have heq : s.defaultInitMemmap base n
      = ({ s1.pend base n with nrFree := s.nrFree + n } : FreeArea).defaultListAdd base := by
    rw [defaultInitMemmap, if_pos hn, clearReserved_spec hres]
    rfl
  have hnp : (s1.pend base n).npage = s.npage := rfl
  generalize s1.pend base n = s2 at hpend hkept heq hnp
  obtain ⟨l, bs', he, hlist, hmarks, hsame⟩ := (hpend.setNrFree (s.nrFree + n)).add hapart
  refine ⟨_, bs', heq.trans he,
    ⟨hlist, ?_, hmarks, fun p => ?_, fun p => ?_, fun p => ?_, fun p => ?_⟩, hnp⟩
  · rw [hsame.2, List.map_cons, List.sum_cons, h.sum, Nat.add_comm]
  · have hr := (hkept.reserved p).trans (congrArg Page.pageReserved (hpage p))
    by_cases hp : Block.Has (base, n) p
    · rw [if_pos hp] at hr
      simp [hr, hp, show Page.pageReserved ⟨0, 0#32, 0⟩ = false from rfl]
    · simpa [hr, hp] using h.reserved p
  · rw [hsame.1 p, covers_cons, h.cover p]
    tauto
  · rw [hsame.1 p, covers_cons]
    rintro (hp | hp)
    · exact fun hl => hfresh p hp ((h.cover p).2 (.inr hl))
    · exact h.disjoint p hp
  · rw [hsame.1 p, covers_cons]
    intro hp
    refine (hkept.ref p).trans ?_
    by_cases hh : Block.Has (base, n) p
    · simp [hpage, hh]
    · simpa [hpage, hh] using h.ref p (hp.resolve_left hh)

theorem Ok.free (h : Ok g s bs managed live) (hn : 0 < n)
    (hlive : ∀ p, Block.Has (base, n) p → live p) (hin : base + n ≤ s.npage) :
    ∃ s' bs', s.defaultFreePages base n = some s'
      ∧ Ok g s' bs' managed (fun p => live p ∧ ¬Block.Has (base, n) p)
      ∧ s'.npage = s.npage
      ∧ ∀ p, ¬Block.Has (base, n) p → (s'.page p).ref = (s.page p).ref := by
  have hnc : ∀ p, Block.Has (base, n) p → ¬Covers bs p := fun p hp hc =>
    h.disjoint p hc (hlive p hp)
  have hdisj := disjoint_of_not_covers h.list hn hnc
  have hresOf : ∀ p, Covers bs p ∨ live p → (s.page p).pageReserved = false := fun p hp => by
    have := (h.reserved p).not.2 (not_not.2 ((h.cover p).2 hp))
    simpa using this
  have hclear : ∀ i < n, (s.page (base + i)).pageReserved = false ∧
      (s.page (base + i)).pageProperty = false := by
    intro i hi
    have hh : Block.Has (base, n) (base + i) := by
      simp only [Block.Has]
      omega
    have hr := hresOf _ (.inr (hlive _ hh))
    have hm := (h.marks (base + i)).not.2 (by
      rintro (hmem | hg)
      · obtain ⟨b, hb, hbe⟩ := List.mem_map.1 hmem
        have := h.list.pos b hb
        exact hnc _ hh ⟨b, hb, by simp only [Block.Has]; omega⟩
      · simp [hr] at hg)
    exact ⟨hr, by simpa using hm⟩
  let s1 : FreeArea :=
    { s with
      page := fun q =>
        if Block.Has (base, n) q then { s.page q with flags := 0#32, ref := 0 } else s.page q }
  let s2 := s1.pend base n
  have hpend : Pending g s2 bs (base, n) :=
    Pending.of_cleared h.list h.marks hn hin hdisj rfl rfl
      (fun p hp => by simp [s1, hp, Page.pageReserved, Page.pageProperty])
      (fun p hp => by simp [s1, hp])
  have hpend' : Pending g s2 ([] ++ bs) (base, n) := hpend
  have hkept : Kept s1 s2 := pend_kept base n
  have hres2 : ∀ p, (s2.page p).pageReserved = (s.page p).pageReserved := by
    intro p
    rw [hkept.reserved]
    by_cases hp : Block.Has (base, n) p
    · rw [hresOf p (.inr (hlive p hp))]
      simp [s1, hp, Page.pageReserved]
    · simp [s1, hp]
  have hbase : Block.Has (base, n) base := by
    simp only [Block.Has]
    omega
  obtain ⟨s3, bs3, b3, he3, hp3, ha3, hsame3, hk3, hnr3⟩ :=
    mergeFrom_spec hpend' (by simp) hdisj
      (fun x hx => (hres2 _).trans (hresOf _ (.inl ⟨x, hx, by
        have := h.list.pos x hx
        simp only [Block.Has]
        omega⟩)))
      ((hres2 _).trans (hresOf _ (.inr (hlive _ hbase)))) h.list.length_le
  obtain ⟨l, bs', he, hlist, hmarks, hsame⟩ := (hp3.setNrFree (s3.nrFree + n)).add ha3
  have hcov : ∀ p, Covers bs' p ↔ Block.Has (base, n) p ∨ Covers bs p := fun p => by
    rw [hsame.1 p, hsame3.1 p, List.nil_append, covers_cons]
  have href : ∀ p, (s3.page p).ref = (s1.page p).ref := (hkept.trans hk3).ref
  refine ⟨_, bs', ?_, ⟨hlist, ?_, hmarks, fun p => ?_, fun p => ?_, fun p => ?_, fun p => ?_⟩,
    ?_, fun p hp => ?_⟩
  · rw [defaultFreePages, if_pos hn, clearAllocated_spec hclear]
    have hnext : s2.link.next none = (bs.map Prod.fst).head? := hpend.list.next_none
    change ((s2.mergeFrom base s2.npage (s2.link.next none)).bind fun r =>
      ({ r.1 with nrFree := r.1.nrFree + n } : FreeArea).defaultListAdd r.2) = _
    rw [hnext, show s2.npage = s.npage from rfl, he3]
    exact he
  · have h0 : s3.nrFree = s.nrFree := hnr3
    have := h.sum
    rw [hsame.2, hsame3.2, List.nil_append, List.map_cons, List.sum_cons, this, Nat.add_comm, ← h0]
  · rw [← h.reserved p, ← hres2 p]
    exact (hk3.reserved p).congr_left
  · rw [hcov, h.cover p]
    have := hlive p
    tauto
  · rw [hcov]
    rintro (hp | hp) hl
    · exact hl.2 hp
    · exact h.disjoint p hp hl.1
  · rw [hcov]
    intro hp
    refine (href p).trans ?_
    by_cases hh : Block.Has (base, n) p
    · simp [s1, hh]
    · simpa [s1, hh] using h.ref p (hp.resolve_left hh)
  · exact hk3.npage
  · exact (href p).trans (by simp [s1, hp])

theorem takeBlock_eq (n page : ℕ) :
    ∃ l, s.takeBlock n page =
      let s1 := if n < (s.page page).property then s.pend (page + n) ((s.page page).property - n)
        else s
      ({ s1 with link := l, nrFree := s.nrFree - n } : FreeArea).setPage page
        Page.clearPageProperty := by
  by_cases h : n < (s.page page).property
  · rw [if_pos h, takeBlock]
    simp only [if_pos h]
    exact ⟨_, rfl⟩
  · rw [if_neg h, takeBlock]
    simp only [if_neg h]
    exact ⟨_, rfl⟩

theorem takeBlock_kept (n page : ℕ) : Kept s (s.takeBlock n page) := by
  obtain ⟨l, he⟩ := takeBlock_eq (s := s) n page
  rw [he]
  have hc : ∀ q : Page, q.clearPageProperty.pageReserved = q.pageReserved ∧
      q.clearPageProperty.ref = q.ref := fun q =>
    ⟨q.clearPageProperty_reserved, q.clearPageProperty_ref⟩
  split_ifs
  · have hk : Kept s { s.pend (page + n) ((s.page page).property - n) with
        link := l, nrFree := s.nrFree - n } :=
      ⟨rfl, (pend_kept _ _).reserved, (pend_kept _ _).ref⟩
    exact hk.trans (Kept.setPage page hc)
  · have hk : Kept s { s with link := l, nrFree := s.nrFree - n } :=
      ⟨rfl, fun _ => rfl, fun _ => rfl⟩
    exact hk.trans (Kept.setPage page hc)

theorem takeBlock_nrFree (n page : ℕ) : (s.takeBlock n page).nrFree = s.nrFree - n := by
  obtain ⟨l, he⟩ := takeBlock_eq (s := s) n page
  rw [he]
  rfl

theorem takeBlock_marks {b : Block} (hs : FreeList s (pre ++ b :: post))
    (hm : Marks s g (· ∈ (pre ++ b :: post).map Prod.fst)) (hn : 0 < n)
    (hres : (s.page b.1).pageReserved = false) :
    Marks (s.takeBlock n b.1) g (· ∈ (pre ++ remainder n b ++ post).map Prod.fst) := by
  have hb : (s.page b.1).property = b.2 := hs.size b (by simp)
  have hnb : b.1 ∉ (pre ++ post).map Prod.fst := by
    have hnd := FreeList.nodup_heads hs.sorted
    rw [List.map_append, List.map_cons, List.nodup_middle, ← List.map_append] at hnd
    exact (List.nodup_cons.1 hnd).1
  obtain ⟨l, he⟩ := takeBlock_eq (s := s) n b.1
  rw [he, hb, remainder]
  split_ifs with hlt
  · have h1 : Marks { s.pend (b.1 + n) (b.2 - n) with link := l, nrFree := s.nrFree - n } g
        fun q => q = b.1 + n ∨ q ∈ (pre ++ b :: post).map Prod.fst :=
      ((hm.setProperty (b.1 + n) fun _ => b.2 - n).set (b.1 + n)).congr rfl fun _ => Iff.rfl
    refine (h1.clear (p := b.1) (((pend_kept _ _).reserved b.1).trans hres)).congr rfl fun q => ?_
    simp only [List.map_append, List.map_cons, List.map_nil, List.mem_append, List.mem_cons,
      List.not_mem_nil, or_false] at hnb ⊢
    have : b.1 + n ≠ b.1 := by omega
    grind
  · have h1 : Marks { s with link := l, nrFree := s.nrFree - n } g
        fun q => q ∈ (pre ++ b :: post).map Prod.fst := hm.congr rfl fun _ => Iff.rfl
    refine (h1.clear (p := b.1) hres).congr rfl fun q => ?_
    simp only [List.map_append, List.map_cons, List.append_nil, List.mem_append,
      List.mem_cons] at hnb ⊢
    grind

theorem covers_remainder {b : Block} (hn : 0 < n) (hle : n ≤ b.2) {p : ℕ} :
    b.Has p ↔ Block.Has (b.1, n) p ∨ Covers (remainder n b) p := by
  unfold remainder
  split_ifs with h
  · simp only [Covers, List.mem_singleton, exists_eq_left, Block.Has]
    omega
  · simp only [Covers, List.not_mem_nil, false_and, exists_false, or_false, Block.Has]
    omega

theorem not_covers_of_taken {b : Block} (hs : (pre ++ b :: post).Pairwise Block.Before) {p : ℕ}
    (hle : n ≤ b.2) (hp : Block.Has (b.1, n) p) : ¬Covers (pre ++ remainder n b ++ post) p := by
  have hsort := List.pairwise_append.1 hs
  rintro ⟨x, hx, hxp⟩
  simp only [Block.Has] at hp hxp
  rcases List.mem_append.1 hx with hx | hx
  · rcases List.mem_append.1 hx with hx | hx
    · have := hsort.2.2 x hx b (by simp)
      simp only [Block.Before] at this
      omega
    · unfold remainder at hx
      split_ifs at hx with hlt
      · simp only [List.mem_singleton] at hx
        subst hx
        simp only at hxp
        omega
      · simp at hx
  · have := (List.pairwise_cons.1 hsort.2.1).1 x hx
    simp only [Block.Before] at this
    omega

theorem Ok.alloc (h : Ok g s bs managed live) (hn : 0 < n) :
    (s.defaultAllocPages n = some (s, none) ∧ ∀ b ∈ bs, b.2 < n)
      ∨ ∃ pre b post s', bs = pre ++ b :: post ∧ n ≤ b.2 ∧ (∀ a ∈ pre, a.2 < n)
        ∧ s.defaultAllocPages n = some (s', some b.1)
        ∧ Ok g s' (pre ++ remainder n b ++ post) managed
            (fun p => Block.Has (b.1, n) p ∨ live p)
        ∧ Kept s s' := by
  rw [defaultAllocPages, if_pos hn]
  by_cases hlt : s.nrFree < n
  · refine .inl ⟨by rw [if_pos hlt], fun b hb => ?_⟩
    have : b.2 ≤ (bs.map Prod.snd).sum := List.le_sum_of_mem (List.mem_map_of_mem hb)
    have := h.sum
    omega
  rw [if_neg hlt]
  have hfind : s.findFit n (s.npage + 1) none
      = some ((bs.find? fun b => n ≤ b.2).map Prod.fst) := by
    have hs : FreeList s ([] ++ bs) := h.list
    exact findFit_spec hs (Nat.lt_succ_of_le h.list.length_le)
  rw [hfind]
  cases hb : bs.find? fun b => n ≤ b.2 with
  | none =>
    refine .inl ⟨rfl, fun b hmem => ?_⟩
    simpa using List.find?_eq_none.1 hb b hmem
  | some b =>
    obtain ⟨hle, pre, post, rfl, hpre⟩ := List.find?_eq_some_iff_append.1 hb
    have hle : n ≤ b.2 := by simpa using hle
    have hcov : ∀ p, Covers (pre ++ b :: post) p
        ↔ Block.Has (b.1, n) p ∨ Covers (pre ++ remainder n b ++ post) p := by
      intro p
      have := covers_remainder (p := p) hn hle
      simp only [Covers, List.mem_append, List.mem_cons] at this ⊢
      grind
    have hbcov : Covers (pre ++ b :: post) b.1 := ⟨b, by simp, by
      simp only [Block.Has]
      omega⟩
    have hres : (s.page b.1).pageReserved = false := by
      have := (h.reserved b.1).not.2 (not_not.2 ((h.cover b.1).2 (.inl hbcov)))
      simpa using this
    have hkept := takeBlock_kept (s := s) n b.1
    refine .inr ⟨pre, b, post, s.takeBlock n b.1, rfl, hle, by simpa using hpre, rfl,
      ⟨takeBlock_spec h.list hn, ?_, takeBlock_marks h.list h.marks hn hres, fun p => ?_,
        fun p => ?_, fun p hp => ?_, fun p hp => ?_⟩, hkept⟩
    · have hsum := h.sum
      rw [takeBlock_nrFree, ← hsum]
      simp only [List.map_append, List.map_cons, List.sum_append, List.sum_cons, remainder]
      split_ifs
      · simp only [List.map_cons, List.map_nil, List.sum_cons, List.sum_nil]
        omega
      · simp only [List.map_nil, List.sum_nil]
        omega
    · rw [hkept.reserved]
      exact h.reserved p
    · rw [h.cover p, hcov p]
      tauto
    · rintro (hh | hl)
      · exact not_covers_of_taken h.list.sorted hle hh hp
      · exact h.disjoint p ((hcov p).2 (.inr hp)) hl
    · rw [hkept.ref]
      exact h.ref p ((hcov p).2 (.inr hp))

end FreeArea

/-! ## Runs -/

/-- The allocator with a record of its use: the ranges given to it and the blocks it has handed
out, less what has been returned of them. -/
structure Session where
  area : FreeArea
  ranges : List Block
  live : List Block

namespace Session

/-- What stays handed out of the blocks when the `n` pages from `base` on are returned. -/
def release (live : List Block) (base n : ℕ) : List Block :=
  live.flatMap fun b =>
    if b.1 ≤ base ∧ base + n ≤ b.1 + b.2 then [(b.1, base - b.1), (base + n, b.1 + b.2 - (base + n))]
    else [b]

inductive Op
  | initMemmap (base n : ℕ)
  | allocPages (n : ℕ)
  | freePages (base n : ℕ)

/-- What the callers see to: a new range has pages, lies in the array and has no page in common
with, and no neighbour in, an earlier one; a request is for some pages; and what is returned is a
part of a block handed out. -/
def Admits (σ : Session) : Op → Prop
  | .initMemmap base n =>
    0 < n ∧ base + n ≤ σ.area.npage ∧ ∀ r ∈ σ.ranges, Block.Apart r (base, n)
  | .allocPages n => 0 < n
  | .freePages base n => 0 < n ∧ ∃ b ∈ σ.live, b.1 ≤ base ∧ base + n ≤ b.1 + b.2

/-- One call; `none` is a failed assertion. -/
def exec (σ : Session) : Op → Option Session
  | .initMemmap base n => do
    let s ← σ.area.defaultInitMemmap base n
    return ⟨s, (base, n) :: σ.ranges, σ.live⟩
  | .allocPages n => do
    let (s, r) ← σ.area.defaultAllocPages n
    return ⟨s, σ.ranges, (r.toList.map fun p => (p, n)) ++ σ.live⟩
  | .freePages base n => do
    let s ← σ.area.defaultFreePages base n
    return ⟨s, σ.ranges, release σ.live base n⟩

/-- The sessions that start with all pages reserved, as `page_init` leaves them, and go on with
admissible calls. -/
inductive Reachable (boot : FreeArea) : Session → Prop
  | init : Reachable boot ⟨boot.defaultInit, [], []⟩
  | step {σ σ' : Session} (op : Op) :
      Reachable boot σ → σ.Admits op → σ.exec op = some σ' → Reachable boot σ'

/-- Blocks without a page in common. -/
def NoOverlap (a b : Block) : Prop := ∀ p, a.Has p → ¬b.Has p

instance : Std.Symm NoOverlap := ⟨fun _ _ h p hb ha => h p ha hb⟩

section Release

variable {live : List Block} {base n : ℕ}

theorem has_of_mem_release {b x : Block} {p : ℕ}
    (hx : x ∈ if b.1 ≤ base ∧ base + n ≤ b.1 + b.2 then
      [(b.1, base - b.1), (base + n, b.1 + b.2 - (base + n))] else [b]) (hp : x.Has p) :
    b.Has p := by
  split_ifs at hx with h
  · simp only [List.mem_cons, List.not_mem_nil, or_false] at hx
    rcases hx with rfl | rfl
    · simp only [Block.Has] at hp ⊢
      omega
    · simp only [Block.Has] at hp ⊢
      omega
  · simp only [List.mem_singleton] at hx
    exact hx ▸ hp

theorem covers_release (hl : live.Pairwise NoOverlap) {c : Block} (hc : c ∈ live)
    (hin : c.1 ≤ base ∧ base + n ≤ c.1 + c.2) (p : ℕ) :
    Covers (release live base n) p ↔ Covers live p ∧ ¬Block.Has (base, n) p := by
  constructor
  · rintro ⟨x, hx, hp⟩
    obtain ⟨b, hb, hxb⟩ := List.mem_flatMap.1 hx
    have hbp := has_of_mem_release hxb hp
    refine ⟨⟨b, hb, hbp⟩, fun hh => ?_⟩
    split_ifs at hxb with h
    · simp only [List.mem_cons, List.not_mem_nil, or_false] at hxb
      rcases hxb with rfl | rfl
      · simp only [Block.Has] at hp hh
        omega
      · simp only [Block.Has] at hp hh
        omega
    · -- the returned pages lie in one block only
      have hcp : c.Has p := by
        simp only [Block.Has] at hh ⊢
        omega
      have hne : c ≠ b := fun h' => h (h' ▸ hin)
      exact hl.forall hc hb hne p hcp hbp
  · rintro ⟨⟨b, hb, hbp⟩, hnp⟩
    by_cases h : b.1 ≤ base ∧ base + n ≤ b.1 + b.2
    · by_cases hlow : p < base
      · refine ⟨(b.1, base - b.1), List.mem_flatMap.2 ⟨b, hb, by simp [h]⟩, ?_⟩
        simp only [Block.Has] at hbp ⊢
        omega
      · refine ⟨(base + n, b.1 + b.2 - (base + n)), List.mem_flatMap.2 ⟨b, hb, by simp [h]⟩, ?_⟩
        simp only [Block.Has] at hbp hnp ⊢
        omega
    · exact ⟨b, List.mem_flatMap.2 ⟨b, hb, by simp [h]⟩, hbp⟩

theorem noOverlap_release (hl : live.Pairwise NoOverlap) :
    (release live base n).Pairwise NoOverlap := by
  refine List.pairwise_flatMap.2 ⟨fun b _ => ?_, hl.imp fun {a b} hab x hx y hy p hxp hyp => ?_⟩
  · split_ifs
    · refine List.pairwise_pair.2 fun p h1 h2 => ?_
      simp only [Block.Has] at h1 h2
      omega
    · exact List.pairwise_singleton _ _
  · exact hab p (has_of_mem_release hx hxp) (has_of_mem_release hy hyp)

end Release

variable {boot : FreeArea} {σ : Session} {bs : List Block}

/-- The invariant of a session. -/
structure Inv (boot : FreeArea) (σ : Session) (bs : List Block) : Prop where
  ok : FreeArea.Ok (fun p => (boot.page p).pageProperty) σ.area bs (Covers σ.ranges)
    (Covers σ.live)
  inside : ∀ r ∈ σ.ranges, r.1 + r.2 ≤ σ.area.npage
  live : σ.live.Pairwise NoOverlap

/-- A range that is apart from the earlier ones is apart from the blocks, which lie in them. -/
theorem Inv.apart (h : Inv boot σ bs) {base n : ℕ}
    (hr : ∀ r ∈ σ.ranges, Block.Apart r (base, n)) : ∀ b ∈ bs, Block.Apart b (base, n) := by
  intro b hb
  have hpos := h.ok.list.pos b hb
  by_contra hna
  simp only [Block.Apart, Block.Before, not_or, Nat.not_lt] at hna
  -- a page of the block in the range, or next to it
  have hhas : b.Has (max b.1 (base - 1)) := by
    simp only [Block.Has]
    omega
  obtain ⟨r, hr', hp⟩ := (h.ok.cover _).2 (.inl ⟨b, hb, hhas⟩)
  have := hr r hr'
  simp only [Block.Apart, Block.Before, Block.Has] at this hp
  omega

theorem Inv.initMemmap (h : Inv boot σ bs) {base n : ℕ} (ha : σ.Admits (.initMemmap base n)) :
    ∃ σ' bs', σ.exec (.initMemmap base n) = some σ' ∧ Inv boot σ' bs' := by
  obtain ⟨hn, hin, hr⟩ := ha
  have hfresh : ∀ p, Block.Has (base, n) p → ¬Covers σ.ranges p := by
    rintro p hp ⟨r, hr', hrp⟩
    have := hr r hr'
    simp only [Block.Apart, Block.Before, Block.Has] at this hp hrp
    omega
  obtain ⟨s', bs', he, hok, hnp⟩ := h.ok.initMemmap hn hin hfresh (h.apart hr)
  refine ⟨⟨s', (base, n) :: σ.ranges, σ.live⟩, bs', by simp [exec, he], ?_, ?_, h.live⟩
  · have hm : (fun p => Block.Has (base, n) p ∨ Covers σ.ranges p)
        = Covers ((base, n) :: σ.ranges) := funext fun p => propext FreeArea.covers_cons.symm
    exact hm ▸ hok
  · intro r hr'
    rcases List.mem_cons.1 hr' with rfl | hr'
    · exact hnp.symm ▸ hin
    · exact hnp.symm ▸ h.inside r hr'

theorem Inv.allocPages (h : Inv boot σ bs) {n : ℕ} (hn : 0 < n) :
    ∃ σ' bs', σ.exec (.allocPages n) = some σ' ∧ Inv boot σ' bs' := by
  rcases h.ok.alloc hn with ⟨he, -⟩ | ⟨pre, b, post, s', rfl, hle, -, he, hok, hk⟩
  · exact ⟨⟨σ.area, σ.ranges, σ.live⟩, bs, by simp [exec, he], h⟩
  · refine ⟨⟨s', σ.ranges, (b.1, n) :: σ.live⟩, pre ++ FreeArea.remainder n b ++ post,
      by simp [exec, he], ?_, ?_, ?_⟩
    · have hl : (fun p => Block.Has (b.1, n) p ∨ Covers σ.live p)
          = Covers ((b.1, n) :: σ.live) := funext fun p => propext FreeArea.covers_cons.symm
      exact hl ▸ hok
    · exact fun r hr => hk.npage.symm ▸ h.inside r hr
    · refine List.pairwise_cons.2 ⟨fun c hc p hp hcp => ?_, h.live⟩
      refine h.ok.disjoint p ⟨b, by simp, ?_⟩ ⟨c, hc, hcp⟩
      simp only [Block.Has] at hp ⊢
      omega

theorem Inv.freePages (h : Inv boot σ bs) {base n : ℕ} (ha : σ.Admits (.freePages base n)) :
    ∃ σ' bs', σ.exec (.freePages base n) = some σ' ∧ Inv boot σ' bs' := by
  obtain ⟨hn, c, hc, hin⟩ := ha
  have hlive : ∀ p, Block.Has (base, n) p → Covers σ.live p := fun p hp => ⟨c, hc, by
    simp only [Block.Has] at hp ⊢
    omega⟩
  have hnp : base + n ≤ σ.area.npage := by
    have hh : Block.Has (base, n) (base + n - 1) := by
      simp only [Block.Has]
      omega
    obtain ⟨r, hr, hrp⟩ := (h.ok.cover _).2 (.inr (hlive _ hh))
    have := h.inside r hr
    simp only [Block.Has] at hrp
    omega
  obtain ⟨s', bs', he, hok, hnp', -⟩ := h.ok.free hn hlive hnp
  refine ⟨⟨s', σ.ranges, release σ.live base n⟩, bs', by simp [exec, he], ?_, ?_,
    noOverlap_release h.live⟩
  · have hl : (fun p => Covers σ.live p ∧ ¬Block.Has (base, n) p)
        = Covers (release σ.live base n) :=
      funext fun p => propext (covers_release h.live hc hin p).symm
    exact hl ▸ hok
  · exact fun r hr => hnp'.symm ▸ h.inside r hr

theorem Inv.step (h : Inv boot σ bs) {op : Op} (ha : σ.Admits op) :
    ∃ σ' bs', σ.exec op = some σ' ∧ Inv boot σ' bs' := by
  cases op with
  | initMemmap base n => exact h.initMemmap ha
  | allocPages n => exact h.allocPages ha
  | freePages base n => exact h.freePages ha

theorem Reachable.inv (hboot : ∀ p, (boot.page p).pageReserved = true) (h : Reachable boot σ) :
    ∃ bs, Inv boot σ bs := by
  induction h with
  | init =>
    have hc : Covers [] = fun _ => False := funext fun p => by simp [Covers]
    exact ⟨[], hc ▸ FreeArea.Ok.init hboot, by simp, List.Pairwise.nil⟩
  | step _ _ ha he ih =>
    obtain ⟨bs, hinv⟩ := ih
    obtain ⟨σ', bs', he', hinv'⟩ := hinv.step ha
    obtain rfl : σ' = _ := Option.some.inj (he'.symm.trans he)
    exact ⟨bs', hinv'⟩

/-- In every session the free list is sorted, its blocks are disjoint and never next to each other
(`Block.Before` leaves a page between them), their sizes add up to `nr_free`, and the heads alone
carry `PG_property` (a page still reserved keeps what its descriptor held at boot). Blocks handed
out overlap neither each other nor the free list, and with it they are all the pages given to the
allocator; no admissible call fails an assertion, and a request gets the lowest block that is large
enough, or nothing if there is none. -/
theorem first_fit (boot : FreeArea) (hboot : ∀ p, (boot.page p).pageReserved = true)
    (σ : Session) (hσ : Reachable boot σ) :
    ∃ bs : List Block,
      σ.area.link.IsRing (bs.map Prod.fst)
      ∧ bs.Pairwise Block.Before
      ∧ (∀ b ∈ bs, 0 < b.2 ∧ (σ.area.page b.1).property = b.2)
      ∧ (bs.map Prod.snd).sum = σ.area.nrFree
      ∧ (∀ p, (σ.area.page p).pageProperty = true ↔ p ∈ bs.map Prod.fst ∨
          ((σ.area.page p).pageReserved = true ∧ (boot.page p).pageProperty = true))
      ∧ σ.live.Pairwise NoOverlap
      ∧ (∀ b ∈ bs, ∀ c ∈ σ.live, NoOverlap b c)
      ∧ (∀ p, Covers σ.ranges p ↔ Covers bs p ∨ Covers σ.live p)
      ∧ (∀ op, σ.Admits op → (σ.exec op).isSome)
      ∧ ∀ n, 0 < n → ∃ s r, σ.area.defaultAllocPages n = some (s, r)
          ∧ (r = none ↔ ∀ b ∈ bs, b.2 < n)
          ∧ ∀ p, r = some p → ∃ b ∈ bs, b.1 = p ∧ n ≤ b.2 ∧ ∀ c ∈ bs, n ≤ c.2 → p ≤ c.1 := by
  obtain ⟨bs, h⟩ := hσ.inv hboot
  refine ⟨bs, h.ok.list.ring, h.ok.list.sorted, fun b hb => ⟨h.ok.list.pos b hb,
    h.ok.list.size b hb⟩, h.ok.sum, h.ok.marks, h.live, ?_, h.ok.cover, ?_, ?_⟩
  · exact fun b hb c hc p hbp hcp => h.ok.disjoint p ⟨b, hb, hbp⟩ ⟨c, hc, hcp⟩
  · intro op ha
    obtain ⟨σ', _, he, -⟩ := h.step ha
    simp [he]
  · intro n hn
    rcases h.ok.alloc hn with ⟨he, hnone⟩ | ⟨pre, b, post, s', hbs, hle, hpre, he, -, -⟩
    · exact ⟨_, _, he, by simpa using hnone, by simp⟩
    · refine ⟨_, _, he, ?_, ?_⟩
      · simp only [reduceCtorEq, false_iff, not_forall, Nat.not_lt]
        exact ⟨b, by simp [hbs], hle⟩
      · rintro p ⟨⟩
        refine ⟨b, by simp [hbs], rfl, hle, fun c hc hcn => ?_⟩
        have hsort := List.pairwise_append.1 (hbs ▸ h.ok.list.sorted)
        rcases List.mem_append.1 (hbs ▸ hc) with hc | hc
        · have := hpre c hc
          omega
        · rcases List.mem_cons.1 hc with rfl | hc
          · exact Nat.le_refl _
          · have := (List.pairwise_cons.1 hsort.2.1).1 c hc
            simp only [Block.Before] at this
            omega

/-- Eight reserved descriptors, one with a stray `PG_property`. -/
def eightPages : FreeArea where
  npage := 8
  page := fun p => ⟨0, if p = 0 then 3#32 else 1#32, 0⟩
  link := ⟨fun _ => none, fun _ => none⟩
  nrFree := 0

/-- Six pages are given to the allocator, two and three of them are taken, and the first of the
two comes back: that one and the last are free. -/
theorem first_fit_eightPages :
    (∀ p, (eightPages.page p).pageReserved = true) ∧
      ∃ σ : Session, Reachable eightPages σ ∧ σ.live = [(3, 3), (1, 0), (2, 1)] ∧
        ∃ bs : List Block, σ.area.link.IsRing (bs.map Prod.fst) ∧
          (bs.map Prod.snd).sum = σ.area.nrFree ∧ σ.area.nrFree = 2 ∧
          ∀ p, Covers bs p ↔ p = 1 ∨ p = 6 := by
  have hboot : ∀ p, (eightPages.page p).pageReserved = true := by
    intro p
    simp only [eightPages, Page.pageReserved]
    split_ifs <;> rfl
  have hσ : ∃ σ : Session, Reachable eightPages σ ∧ σ.ranges = [(1, 6)] ∧
      σ.live = [(3, 3), (1, 0), (2, 1)] ∧ σ.area.nrFree = 2 := by
    refine ⟨_, .step (.freePages 1 1) (.step (.allocPages 3) (.step (.allocPages 2)
      (.step (.initMemmap 1 6) .init ?_ rfl) ?_ rfl) ?_ rfl) ?_ rfl, rfl, rfl, rfl⟩
    · exact ⟨by decide, by decide, by simp⟩
    · exact Nat.succ_pos 1
    · exact Nat.succ_pos 2
    · exact ⟨by decide, (1, 2), by simp, by decide⟩
  obtain ⟨σ, hr, hranges, hl, hfree⟩ := hσ
  obtain ⟨bs, hring, -, -, hsum, -, -, hapart, hcover, -⟩ := first_fit eightPages hboot σ hr
  rw [hranges, hl] at hcover
  rw [hl] at hapart
  refine ⟨hboot, σ, hr, hl, bs, hring, hsum, hfree, fun p => ?_⟩
  have hnot : Covers bs p → ¬Covers [(3, 3), (1, 0), (2, 1)] p := by
    rintro ⟨b, hb, hbp⟩ ⟨c, hc, hcp⟩
    exact hapart b hb c hc p hbp hcp
  have hgiven : Covers [(1, 6)] p ↔ 1 ≤ p ∧ p < 7 := by
    simp only [Covers, List.mem_singleton, exists_eq_left, Block.Has]
  have hlive : Covers [(3, 3), (1, 0), (2, 1)] p ↔ 2 ≤ p ∧ p < 6 := by
    simp only [Covers, List.mem_cons, List.not_mem_nil, or_false, exists_eq_or_imp, exists_eq_left,
      Block.Has]
    omega
  have hp := hcover p
  rw [hgiven, hlive] at hp
  rw [hlive] at hnot
  constructor
  · intro h
    have h1 := hp.2 (.inl h)
    have h2 := hnot h
    omega
  · intro h
    exact (hp.1 (by omega)).resolve_right (by omega)

end Session

end Ucore

end CacheCPU
