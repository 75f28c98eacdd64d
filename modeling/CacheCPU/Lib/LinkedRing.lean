import Mathlib.Data.List.Basic
import Mathlib.Data.List.Nodup
import Mathlib.Logic.Function.Basic

/-!
# Circular doubly linked lists

A list with a head that is no element of it: `none` is the head, `some a` the entry inside `a`.
The links are two functions, and a list of elements describes them when every way to cut the list
in two finds the two ends of the cut linked to each other.
-/

namespace LinkedRing

variable {α : Type*}

/-- The `next` and `prev` pointers of a head and of the entries. -/
structure Links (α : Type*) where
  next : Option α → Option α
  prev : Option α → Option α

namespace Links

section Ops

variable [DecidableEq α] (l : Links α)

/-- An empty list, whatever the entries outside of it hold. -/
def init : Links α where
  next := Function.update l.next none none
  prev := Function.update l.prev none none

def addBetween (elm prev next : Option α) : Links α where
  next := Function.update (Function.update l.next prev elm) elm next
  prev := Function.update (Function.update l.prev next elm) elm prev

def addBefore (pos elm : Option α) : Links α := l.addBetween elm (l.prev pos) pos

def addAfter (pos elm : Option α) : Links α := l.addBetween elm pos (l.next pos)

def del (elm : Option α) : Links α where
  next := Function.update l.next (l.prev elm) (l.next elm)
  prev := Function.update l.prev (l.next elm) (l.prev elm)

/-- An entry that is linked to itself. -/
def initEntry (elm : Option α) : Links α where
  next := Function.update l.next elm elm
  prev := Function.update l.prev elm elm

def delInit (elm : Option α) : Links α := (l.del elm).initEntry elm

end Ops

end Links

/-! ## One direction -/

/-- Following `f` from the head passes through `xs` and comes back to the head. -/
def Follows (f : Option α → Option α) (xs : List α) : Prop :=
  ∀ pre post, xs = pre ++ post → f pre.getLast? = post.head?

section Follows

variable {f : Option α → Option α} {pre post : List α} {x : α}

theorem getLast?_ne_of_nodup {t : List α} (h : (pre ++ t).Nodup) (ht : t ≠ []) :
    pre.getLast? ≠ (pre ++ t).getLast? := by
  intro he
  obtain ⟨y, hy⟩ := Option.ne_none_iff_exists'.1 (mt List.getLast?_eq_none_iff.1 ht)
  rw [List.getLast?_append_of_ne_nil _ ht, hy] at he
  exact (List.nodup_append.1 h).2.2 y (List.mem_of_getLast? he) y (List.mem_of_getLast? hy) rfl

theorem getLast?_ne_some (h : x ∉ pre) : pre.getLast? ≠ some x :=
  fun hl => h (List.mem_of_getLast? hl)

theorem Follows.insert [DecidableEq α] (hf : Follows f (pre ++ post))
    (hn : (pre ++ x :: post).Nodup) :
    Follows (Function.update (Function.update f pre.getLast? (some x)) (some x) post.head?)
      (pre ++ x :: post) := by
  intro pre' post' he
  have hx : x ∉ pre ∧ x ∉ post := by
    rw [List.nodup_middle, List.nodup_cons, List.mem_append] at hn
    exact not_or.1 hn.1
  rcases List.append_eq_append_iff.1 he with ⟨t, rfl, ht⟩ | ⟨t, rfl, rfl⟩
  · cases t with
    | nil =>
      -- the cut is just before the new element
      obtain rfl := ht
      simp [Function.update_of_ne (getLast?_ne_some hx.1)]
    | cons y t =>
      simp only [List.cons_append, List.cons.injEq] at ht
      obtain ⟨rfl, rfl⟩ := ht
      rcases t.eq_nil_or_concat' with rfl | ⟨t, z, rfl⟩
      · rw [show (pre ++ [x]).getLast? = some x by simp, Function.update_self]
        rfl
      · have hz : z ∈ t ++ [z] ++ post' := by simp
        have hzx : some z ≠ some x := fun h => hx.2 (Option.some.inj h ▸ hz)
        have hzp : some z ≠ pre.getLast? := fun h =>
          (List.nodup_append.1 hn).2.2 z (List.mem_of_getLast? h.symm) z
            (List.mem_cons_of_mem _ hz) rfl
        have hl : (pre ++ x :: (t ++ [z])).getLast? = some z := by
          rw [List.append_cons, ← List.append_assoc, List.getLast?_concat]
        rw [hl, Function.update_of_ne hzx, Function.update_of_ne hzp]
        simpa using hf (pre ++ (t ++ [z])) post' (by simp)
  · cases t with
    | nil => simp [Function.update_of_ne (getLast?_ne_some (by simpa using hx.1))]
    | cons y t =>
      have hp : pre'.getLast? ≠ (pre' ++ y :: t).getLast? :=
        getLast?_ne_of_nodup (List.nodup_append.1 hn).1 (List.cons_ne_nil y t)
      have hpx : pre'.getLast? ≠ some x :=
        getLast?_ne_some fun h => hx.1 (List.mem_append_left _ h)
      rw [Function.update_of_ne hpx, Function.update_of_ne hp]
      simpa using hf pre' (y :: t ++ post) (by simp)

theorem Follows.remove [DecidableEq α] (hf : Follows f (pre ++ x :: post))
    (hn : (pre ++ x :: post).Nodup) :
    Follows (Function.update f pre.getLast? post.head?) (pre ++ post) := by
  intro pre' post' he
  rcases List.append_eq_append_iff.1 he with ⟨t, rfl, rfl⟩ | ⟨t, rfl, rfl⟩
  · cases t with
    | nil => simp
    | cons y t =>
      have hp : (pre ++ y :: t).getLast? ≠ pre.getLast? := by
        refine (getLast?_ne_of_nodup ?_ (List.cons_ne_nil y t)).symm
        exact hn.sublist (by simp)
      rw [Function.update_of_ne hp]
      have := hf (pre ++ x :: y :: t) post' (by simp)
      rw [List.getLast?_append_of_ne_nil _ (by simp)] at this ⊢
      simpa using this
  · cases t with
    | nil => simp
    | cons y t =>
      have hp : pre'.getLast? ≠ (pre' ++ y :: t).getLast? :=
        getLast?_ne_of_nodup (List.nodup_append.1 hn).1 (List.cons_ne_nil y t)
      rw [Function.update_of_ne hp]
      simpa using hf pre' (y :: t ++ x :: post) (by simp)

/-- Only the links of the head and of the members count. -/
theorem Follows.congr {f' : Option α → Option α} {xs : List α} (h : Follows f xs)
    (hf : ∀ o : Option α, (∀ y ∈ o, y ∈ xs) → f' o = f o) : Follows f' xs := by
  intro pre post he
  have hmem : ∀ y ∈ pre.getLast?, y ∈ xs := fun y hy => by
    rw [he]
    exact List.mem_append_left _ (List.mem_of_getLast? hy)
  rw [hf _ hmem]
  exact h pre post he

/-- What is left when the head points to the second element. -/
theorem Follows.tail {f' : Option α → Option α} {xs : List α} (h : Follows f (x :: xs))
    (hf : f' none = f (some x)) (hf' : ∀ y ∈ xs, f' (some y) = f (some y)) : Follows f' xs := by
  intro pre post he
  have h1 := h (x :: pre) post (by rw [he, List.cons_append])
  rcases pre.eq_nil_or_concat' with rfl | ⟨pre, y, rfl⟩
  · exact hf.trans h1
  · rw [List.getLast?_concat, hf' y (by simp [he])]
    rw [← List.cons_append, List.getLast?_concat] at h1
    exact h1

/-- The links leave no choice. -/
theorem Follows.unique {xs ys : List α} (hx : Follows f xs) (hy : Follows f ys) : xs = ys := by
  have hrest : ∀ a b pre, xs = pre ++ a → ys = pre ++ b → a = b := by
    intro a
    induction a with
    | nil =>
      intro b pre h1 h2
      have h : b.head? = none := (hy pre b h2).symm.trans (hx pre [] h1)
      exact (List.head?_eq_none_iff.1 h).symm
    | cons x a ih =>
      intro b pre h1 h2
      have h : b.head? = some x := (hy pre b h2).symm.trans (hx pre (x :: a) h1)
      obtain ⟨b, rfl⟩ := List.head?_eq_some_iff.1 h
      rw [ih b (pre ++ [x]) (by simpa using h1) (by simpa using h2)]
  exact hrest xs ys [] rfl rfl

end Follows

/-! ## Both directions -/

namespace Links

/-- The links of the elements `xs`, from the head and back to it. -/
structure IsRing (l : Links α) (xs : List α) : Prop where
  nodup : xs.Nodup
  next : Follows l.next xs
  prev : Follows l.prev xs.reverse

variable {l : Links α} {xs pre post : List α} {x : α}

/-- Only the pointers of the head and of the members count. -/
theorem IsRing.congr {l' : Links α} (h : l.IsRing xs)
    (hn : ∀ o : Option α, (∀ y ∈ o, y ∈ xs) → l'.next o = l.next o)
    (hp : ∀ o : Option α, (∀ y ∈ o, y ∈ xs) → l'.prev o = l.prev o) : l'.IsRing xs :=
  ⟨h.nodup, h.next.congr hn, h.prev.congr fun o ho => hp o fun y hy => List.mem_reverse.1 (ho y hy)⟩

theorem IsRing.next_eq (h : l.IsRing (pre ++ post)) : l.next pre.getLast? = post.head? :=
  h.next pre post rfl

theorem IsRing.prev_eq (h : l.IsRing (pre ++ post)) : l.prev post.head? = pre.getLast? := by
  have := h.prev post.reverse pre.reverse List.reverse_append
  rwa [List.getLast?_reverse, List.head?_reverse] at this

theorem IsRing.next_some (h : l.IsRing (pre ++ x :: post)) : l.next (some x) = post.head? := by
  have := h.next (pre ++ [x]) post (by simp)
  rwa [List.getLast?_concat] at this

theorem IsRing.prev_some (h : l.IsRing (pre ++ x :: post)) : l.prev (some x) = pre.getLast? :=
  h.prev_eq

variable [DecidableEq α]

theorem isRing_init : l.init.IsRing [] := by
  refine ⟨List.nodup_nil, ?_, ?_⟩
  all_goals
    intro pre post h
    obtain ⟨rfl, rfl⟩ := List.nil_eq_append_iff.1 h
    simp [init]

theorem IsRing.addBetween (h : l.IsRing (pre ++ post)) (hn : (pre ++ x :: post).Nodup) :
    (l.addBetween (some x) pre.getLast? post.head?).IsRing (pre ++ x :: post) where
  nodup := hn
  next := h.next.insert hn
  prev := by
    have hp : Follows l.prev (post.reverse ++ pre.reverse) := by
      simpa using h.prev
    have hn' : (post.reverse ++ x :: pre.reverse).Nodup := by
      simpa using List.nodup_reverse.2 hn
    simpa [Links.addBetween] using hp.insert hn'

theorem IsRing.addBefore (h : l.IsRing (pre ++ post)) (hn : (pre ++ x :: post).Nodup) :
    (l.addBefore post.head? (some x)).IsRing (pre ++ x :: post) := by
  rw [Links.addBefore, h.prev_eq]
  exact h.addBetween hn

theorem IsRing.addAfter (h : l.IsRing (pre ++ post)) (hn : (pre ++ x :: post).Nodup) :
    (l.addAfter pre.getLast? (some x)).IsRing (pre ++ x :: post) := by
  rw [Links.addAfter, h.next_eq]
  exact h.addBetween hn

theorem IsRing.push (h : l.IsRing xs) (hx : x ∉ xs) :
    (l.addAfter none (some x)).IsRing (x :: xs) := by
  have h' : l.IsRing ([] ++ xs) := h
  exact h'.addAfter (List.nodup_cons.2 ⟨hx, h.nodup⟩)

theorem IsRing.del (h : l.IsRing (pre ++ x :: post)) :
    (l.del (some x)).IsRing (pre ++ post) where
  nodup := h.nodup.sublist (by simp)
  next := by
    rw [Links.del, h.prev_some, h.next_some]
    exact h.next.remove h.nodup
  prev := by
    have hp : Follows l.prev (post.reverse ++ x :: pre.reverse) := by simpa using h.prev
    have hn : (post.reverse ++ x :: pre.reverse).Nodup := by
      simpa using List.nodup_reverse.2 h.nodup
    rw [Links.del, h.prev_some, h.next_some]
    simpa using hp.remove hn

/-- The pointers of an entry outside of the list do not matter. -/
theorem IsRing.initEntry (h : l.IsRing xs) (hx : x ∉ xs) : (l.initEntry (some x)).IsRing xs where
  nodup := h.nodup
  next := by
    intro pre post he
    have hne : pre.getLast? ≠ some x := by
      intro hl
      exact hx (he ▸ List.mem_append_left _ (List.mem_of_getLast? hl))
    exact (Function.update_of_ne hne _ _).trans (h.next pre post he)
  prev := by
    intro pre post he
    have hne : pre.getLast? ≠ some x := by
      intro hl
      exact hx (List.mem_reverse.1 (he ▸ List.mem_append_left _ (List.mem_of_getLast? hl)))
    exact (Function.update_of_ne hne _ _).trans (h.prev pre post he)

theorem IsRing.delInit (h : l.IsRing (pre ++ x :: post)) :
    (l.delInit (some x)).IsRing (pre ++ post) := by
  refine h.del.initEntry fun hx => ?_
  have := h.nodup
  rw [List.nodup_middle, List.nodup_cons] at this
  exact this.1 hx

/-- A node taken out keeps its own pointer to the entry before it. -/
theorem IsRing.del_prev (h : l.IsRing (pre ++ x :: post)) :
    (l.del (some x)).prev (some x) = pre.getLast? := by
  have hp : some x ≠ post.head? := by
    intro he
    have hm := List.mem_of_head? he.symm
    exact (List.nodup_cons.1 (List.nodup_append.1 h.nodup).2.1).1 hm
  simp only [Links.del, h.next_some]
  rw [Function.update_of_ne hp, h.prev_some]

end Links

end LinkedRing
