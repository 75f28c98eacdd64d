import Mathlib.Logic.Function.Basic
import Mathlib.Data.List.Nodup

/-!
# Cycles of single links

A cycle through the members of a list, given by a `next` for each of them. A cycle has no first
member, so that a change next to any one of them can be made where it is easiest to see, at the
front, and turned back.
-/

namespace CacheCPU

namespace LinkCycle

variable {α : Type*} {next next' : α → α} {a b c y z : α} {xs ys pre post : List α}

/-- From `a` through `xs` to `z`. -/
def Seg (next : α → α) : α → List α → α → Prop
  | a, [], z => next a = z
  | a, x :: xs, z => next a = x ∧ Seg next x xs z

theorem seg_append : Seg next a (xs ++ y :: ys) z ↔ Seg next a xs y ∧ Seg next y ys z := by
  induction xs generalizing a with
  | nil => exact Iff.rfl
  | cons x xs ih => simp only [List.cons_append, Seg, ih, and_assoc]

/-- Only the links of the members count. -/
theorem Seg.congr (h : Seg next a xs z) (hn : ∀ x ∈ a :: xs, next' x = next x) :
    Seg next' a xs z := by
  induction xs generalizing a with
  | nil => exact (hn a (by simp)).trans h
  | cons x xs ih =>
    exact ⟨(hn a (by simp)).trans h.1, ih h.2 fun y hy => hn y (List.mem_cons_of_mem a hy)⟩

/-- A cycle through all the members, in this order. -/
def IsCycle (next : α → α) : List α → Prop
  | [] => False
  | a :: xs => Seg next a xs a

theorem isCycle_rotate : IsCycle next (pre ++ c :: post) ↔ IsCycle next (c :: (post ++ pre)) := by
  cases pre with
  | nil => simp
  | cons a pre =>
    simp only [List.cons_append, IsCycle, seg_append]
    exact and_comm

theorem IsCycle.congr (h : IsCycle next xs) (hn : ∀ x ∈ xs, next' x = next x) :
    IsCycle next' xs := by
  cases xs with
  | nil => exact h
  | cons a xs => exact Seg.congr h hn

theorem IsCycle.next_mid (h : IsCycle next (pre ++ c :: y :: post)) : next c = y :=
  (isCycle_rotate.1 h).1

theorem IsCycle.next_last (h : IsCycle next (a :: xs)) (hc : a :: xs = pre ++ [c]) :
    next c = a := by
  rw [hc, isCycle_rotate] at h
  cases pre with
  | nil =>
    obtain ⟨rfl, -⟩ := List.cons.inj hc
    exact h
  | cons x pre =>
    obtain ⟨rfl, -⟩ := List.cons.inj hc
    exact h.1

theorem IsCycle.insert (h : IsCycle next (pre ++ c :: post))
    (hn : (pre ++ c :: post).Nodup) (hnb : next' b = next c) (hnc : next' c = b)
    (hrest : ∀ x ∈ pre ++ c :: post, x ≠ c → next' x = next x) :
    IsCycle next' (pre ++ c :: b :: post) := by
  have hc : c ∉ post ++ pre := by
    have := (List.nodup_middle.1 hn)
    exact fun hm => (List.nodup_cons.1 this).1 (by simpa [or_comm] using hm)
  have h1 : Seg next c (post ++ pre) c := isCycle_rotate.1 h
  have hframe : ∀ x ∈ post ++ pre, next' x = next x := fun x hx =>
    hrest x (by simp at hx ⊢; tauto) fun he => hc (he ▸ hx)
  rw [isCycle_rotate]
  refine ⟨hnc, ?_⟩
  change Seg next' b (post ++ pre) c
  cases hp : post ++ pre with
  | nil =>
    rw [hp] at h1
    exact hnb.trans h1
  | cons x xs =>
    rw [hp] at h1 hframe
    exact ⟨hnb.trans h1.1, h1.2.congr hframe⟩

theorem IsCycle.remove (h : IsCycle next (pre ++ c :: y :: post))
    (hn : (pre ++ c :: y :: post).Nodup) (hnc : next' c = next y)
    (hrest : ∀ x ∈ pre ++ c :: y :: post, x ≠ c → x ≠ y → next' x = next x) :
    IsCycle next' (pre ++ c :: post) := by
  have hnd := List.nodup_cons.1 (List.nodup_middle.1 hn)
  have hnd' : (pre ++ y :: post).Nodup := hnd.2
  have hy := (List.nodup_cons.1 (List.nodup_middle.1 hnd')).1
  have h1 : Seg next c (y :: post ++ pre) c := isCycle_rotate.1 h
  have hframe : ∀ x ∈ post ++ pre, next' x = next x := by
    intro x hx
    have hx' : x ∈ pre ++ post := by simpa [or_comm] using hx
    refine hrest x (by simp at hx ⊢; tauto) ?_ fun he => hy (he ▸ hx')
    rintro rfl
    exact hnd.1 (by simp at hx ⊢; tauto)
  rw [isCycle_rotate]
  obtain ⟨-, h2⟩ := h1
  cases hp : post ++ pre with
  | nil =>
    rw [List.append_eq, hp] at h2
    exact hnc.trans h2
  | cons x xs =>
    rw [List.append_eq, hp] at h2
    rw [hp] at hframe
    exact ⟨hnc.trans h2.1, h2.2.congr hframe⟩

theorem IsCycle.next_mem (h : IsCycle next xs) (ha : a ∈ xs) : next a ∈ xs := by
  obtain ⟨pre, post, rfl⟩ := List.append_of_mem ha
  have h1 : Seg next a (post ++ pre) a := isCycle_rotate.1 h
  cases hp : post ++ pre with
  | nil =>
    rw [hp] at h1
    rw [show next a = a from h1]
    exact ha
  | cons x xs =>
    rw [hp] at h1
    have hx : x ∈ post ++ pre := by simp [hp]
    rw [h1.1]
    simp only [List.mem_append, List.mem_cons] at hx ⊢
    tauto

/-- No two members of a cycle have the same successor. -/
theorem IsCycle.next_inj (h : IsCycle next xs) (hn : xs.Nodup) (ha : a ∈ xs) (hb : b ∈ xs)
    (he : next a = next b) : a = b := by
  by_contra hne
  obtain ⟨pre, post, rfl⟩ := List.append_of_mem ha
  have h1 : Seg next a (post ++ pre) a := isCycle_rotate.1 h
  have hnd : (a :: (post ++ pre)).Nodup := by
    refine (List.Perm.nodup_iff ?_).1 hn
    exact List.perm_middle.trans (List.perm_append_comm.cons a)
  have hb' : b ∈ post ++ pre := by
    simp only [List.mem_append, List.mem_cons] at hb ⊢
    rcases hb with hb | hb | hb
    · exact .inr hb
    · exact absurd hb.symm hne
    · exact .inl hb
  obtain ⟨r1, r2, hr⟩ := List.append_of_mem hb'
  rw [hr] at h1 hnd
  obtain ⟨h2, h3⟩ := seg_append.1 h1
  have hnext : next a ∈ r1 ++ [b] := by
    cases r1 with
    | nil => exact List.mem_singleton.2 h2
    | cons x r1 =>
      rw [h2.1]
      simp
  have hnext' : next b ∈ r2 ++ [a] := by
    cases r2 with
    | nil => exact List.mem_singleton.2 h3
    | cons x r2 =>
      rw [h3.1]
      simp
  rw [← he] at hnext'
  rw [List.nodup_cons, List.nodup_append] at hnd
  simp only [List.mem_append, List.mem_cons, List.nodup_cons, List.not_mem_nil, or_false] at *
  obtain ⟨h4, h5, ⟨h6, h7⟩, h8⟩ := hnd
  rcases hnext with hx | hx
  · rcases hnext' with hy | hy
    · exact h8 _ hx _ (.inr hy) rfl
    · exact h4 (.inl (hy ▸ hx))
  · rcases hnext' with hy | hy
    · exact h6 (hx ▸ hy)
    · exact hne (hy.symm.trans hx)

/-! ## Both directions -/

/-- The `next` and `prev` pointers of nodes that may be heads or entries of lists. -/
structure Nodes (α : Type*) where
  next : α → α
  prev : α → α

namespace Nodes

/-- A cycle that is the same the other way round. -/
structure IsCycle (l : Nodes α) (xs : List α) : Prop where
  nodup : xs.Nodup
  next : LinkCycle.IsCycle l.next xs
  prev : LinkCycle.IsCycle l.prev xs.reverse

variable {l l' : Nodes α}

theorem IsCycle.congr (h : l.IsCycle xs) (hn : ∀ x ∈ xs, l'.next x = l.next x)
    (hp : ∀ x ∈ xs, l'.prev x = l.prev x) : l'.IsCycle xs :=
  ⟨h.nodup, h.next.congr hn, h.prev.congr fun x hx => hp x (List.mem_reverse.1 hx)⟩

theorem IsCycle.rotate (h : l.IsCycle (pre ++ c :: post)) : l.IsCycle (c :: (post ++ pre)) := by
  refine ⟨?_, isCycle_rotate.1 h.next, ?_⟩
  · exact (List.Perm.nodup_iff (List.perm_middle.trans (List.perm_append_comm.cons c))).1 h.nodup
  · have hp := h.prev
    rw [List.reverse_append, List.reverse_cons, List.append_assoc, List.singleton_append,
      isCycle_rotate] at hp
    rw [List.reverse_cons, List.reverse_append, isCycle_rotate]
    simpa using hp

variable [DecidableEq α]

/-- `list_add`. -/
def listAdd (l : Nodes α) (listelm elm : α) : Nodes α where
  next := Function.update (Function.update l.next listelm elm) elm (l.next listelm)
  prev := Function.update (Function.update l.prev (l.next listelm) elm) elm listelm

/-- `list_del`. -/
def listDel (l : Nodes α) (listelm : α) : Nodes α where
  next := Function.update l.next (l.prev listelm) (l.next listelm)
  prev := Function.update l.prev (l.next listelm) (l.prev listelm)

theorem listAdd_next :
    (l.listAdd c b).next = Function.update (Function.update l.next c b) b (l.next c) := rfl

theorem listAdd_prev :
    (l.listAdd c b).prev = Function.update (Function.update l.prev (l.next c) b) b c := rfl

theorem listDel_next : (l.listDel y).next = Function.update l.next (l.prev y) (l.next y) := rfl

theorem listDel_prev : (l.listDel y).prev = Function.update l.prev (l.next y) (l.prev y) := rfl

theorem IsCycle.listAdd (h : l.IsCycle (c :: xs)) (hb : b ∉ c :: xs) :
    (l.listAdd c b).IsCycle (c :: b :: xs) := by
  have hbc : b ≠ c := fun he => hb (he ▸ List.mem_cons_self)
  have hne : ∀ x ∈ c :: xs, x ≠ b := fun x hx he => hb (he ▸ hx)
  refine ⟨?_, ?_, ?_⟩
  · refine (List.Perm.nodup_iff (List.Perm.swap c b xs)).1 ?_
    exact List.nodup_cons.2 ⟨hb, h.nodup⟩
  · have hn : LinkCycle.IsCycle l.next ([] ++ c :: xs) := h.next
    refine hn.insert h.nodup ?_ ?_ fun x hx hxc => ?_
    · exact Function.update_self ..
    · rw [listAdd_next, Function.update_of_ne hbc.symm, Function.update_self]
    · rw [listAdd_next, Function.update_of_ne (hne x hx), Function.update_of_ne hxc]
  · have hp := h.prev
    cases xs with
    | nil =>
      have hc : l.next c = c := h.next
      have hcc : l.prev c = c := hp
      have hc' : LinkCycle.IsCycle l.prev ([] ++ [c]) := hp
      change LinkCycle.IsCycle (l.listAdd c b).prev ([b] ++ c :: [])
      refine isCycle_rotate.2 (hc'.insert (by simp) ?_ ?_ fun x hx hxc => ?_)
      · rw [listAdd_prev, Function.update_self, hcc]
      · rw [listAdd_prev, Function.update_of_ne hbc.symm, hc, Function.update_self]
      · exact absurd (List.mem_singleton.1 hx) hxc
    | cons y ys =>
      have hy : l.next c = y := h.next.1
      have hyb : y ≠ b := hne y (by simp)
      have hrev : (c :: y :: ys).reverse = ys.reverse ++ y :: [c] := by simp
      rw [hrev] at hp
      have hyc : l.prev y = c := hp.next_mid
      have hnd : (ys.reverse ++ y :: [c]).Nodup := by
        rw [← hrev]
        exact List.nodup_reverse.2 h.nodup
      have hins : LinkCycle.IsCycle (l.listAdd c b).prev (ys.reverse ++ y :: b :: [c]) := by
        refine LinkCycle.IsCycle.insert hp hnd ?_ ?_ fun x hx hxy => ?_
        · rw [listAdd_prev, Function.update_self, hyc]
        · rw [listAdd_prev, Function.update_of_ne hyb, hy, Function.update_self]
        · have hxb : x ≠ b := hne x (by rw [← hrev] at hx; exact List.mem_reverse.1 hx)
          rw [listAdd_prev, Function.update_of_ne hxb, hy, Function.update_of_ne hxy]
      simpa using hins

/-- What is left when the first member is taken out. -/
theorem IsCycle.listDel_first (h : l.IsCycle (y :: xs)) (hxs : xs ≠ []) :
    (l.listDel y).IsCycle xs := by
  obtain ⟨a, as, rfl⟩ := List.exists_cons_of_ne_nil hxs
  obtain ⟨zs, c, hz⟩ : ∃ zs c, a :: as = zs ++ [c] :=
    ⟨_, _, (List.dropLast_append_getLast (List.cons_ne_nil a as)).symm⟩
  have hnext : l.next y = a := h.next.1
  have hprev : l.prev y = c := by
    have hp := h.prev
    rw [hz, List.reverse_cons, List.reverse_append, List.reverse_singleton,
      List.singleton_append, List.cons_append] at hp
    exact LinkCycle.IsCycle.next_last hp (List.cons_append ..).symm
  refine ⟨(List.nodup_cons.1 h.nodup).2, ?_, ?_⟩
  · have hc : LinkCycle.IsCycle l.next (zs ++ c :: y :: []) := by
      have h1 := h.next
      rw [hz] at h1
      have h2 : LinkCycle.IsCycle l.next ((zs ++ [c]) ++ y :: []) := isCycle_rotate.2 h1
      simpa using h2
    have hnd : (zs ++ c :: y :: []).Nodup := by
      have h1 := h.nodup
      rw [hz] at h1
      refine (List.Perm.nodup_iff ?_).1 h1
      simpa using (List.perm_append_singleton y (zs ++ [c])).symm
    rw [hz]
    refine hc.remove hnd ?_ fun x _ hxc hxy => ?_
    · rw [listDel_next, hprev, Function.update_self]
    · rw [listDel_next, hprev, Function.update_of_ne hxc]
  · have hrev : (y :: a :: as).reverse = as.reverse ++ a :: y :: [] := by simp
    have hp := h.prev
    rw [hrev] at hp
    rw [List.reverse_cons]
    refine hp.remove ?_ ?_ fun x _ hxa hxy => ?_
    · rw [← hrev]
      exact List.nodup_reverse.2 h.nodup
    · rw [listDel_prev, hnext, Function.update_self]
    · rw [listDel_prev, hnext, Function.update_of_ne hxa]

theorem IsCycle.listDel (h : l.IsCycle (c :: (pre ++ y :: post))) :
    (l.listDel y).IsCycle (c :: (pre ++ post)) := by
  have h1 : l.IsCycle ((c :: pre) ++ y :: post) := h
  exact (h1.rotate.listDel_first (by simp)).rotate

/-- A cycle through other nodes does not change. -/
theorem IsCycle.listAdd_other (h : l.IsCycle ys) (hc : l.IsCycle (c :: xs)) (hb : b ∉ ys)
    (hd : ∀ x ∈ c :: xs, x ∉ ys) : (l.listAdd c b).IsCycle ys := by
  have hn : l.next c ∉ ys := hd _ (hc.next.next_mem List.mem_cons_self)
  refine h.congr (fun x hx => ?_) fun x hx => ?_
  · have h1 : x ≠ b := fun he => hb (he ▸ hx)
    have h2 : x ≠ c := fun he => hd c List.mem_cons_self (he ▸ hx)
    rw [listAdd_next, Function.update_of_ne h1, Function.update_of_ne h2]
  · have h1 : x ≠ b := fun he => hb (he ▸ hx)
    have h2 : x ≠ l.next c := fun he => hn (he ▸ hx)
    rw [listAdd_prev, Function.update_of_ne h1, Function.update_of_ne h2]

theorem IsCycle.listDel_other (h : l.IsCycle ys) (hc : l.IsCycle xs) (hy : y ∈ xs)
    (hd : ∀ x ∈ xs, x ∉ ys) : (l.listDel y).IsCycle ys := by
  have hn : l.next y ∉ ys := hd _ (hc.next.next_mem hy)
  have hp : l.prev y ∉ ys :=
    hd _ (List.mem_reverse.1 (hc.prev.next_mem (List.mem_reverse.2 hy)))
  refine h.congr (fun x hx => ?_) fun x hx => ?_
  · have h1 : x ≠ l.prev y := fun he => hp (he ▸ hx)
    rw [listDel_next, Function.update_of_ne h1]
  · have h1 : x ≠ l.next y := fun he => hn (he ▸ hx)
    rw [listDel_prev, Function.update_of_ne h1]

end Nodes

end LinkCycle

end CacheCPU
