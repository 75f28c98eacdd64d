import CacheCPU.Proofs.Sched
import Mathlib.Algebra.BigOperators.Group.List.Basic
import Mathlib.Data.Fintype.Card
import Mathlib.Data.List.GetD
import Mathlib.Data.BitVec
import Mathlib.Tactic.Linarith

/-!
# The timer list

A timer stores the distance to the timer in front of it, so what is left of its time is the sum of
the distances up to and including its own. Putting a timer in, or taking one out, moves its
distance to or from its successor and leaves every other sum alone; a tick takes one from the head
and so from every sum. The timers that are due are the ones at the front with nothing left, and
their processes are runnable and queued when the tick returns.
-/

namespace CacheCPU

namespace Ucore

open LinkedRing

/-! ## What is left of a timer's time -/

/-- The time left of `t` in the list `xs`. -/
def remaining (exp : BitVec 32 → ℕ) : List (BitVec 32) → BitVec 32 → ℕ
  | [], _ => 0
  | x :: xs, t => exp x + if x = t then 0 else remaining exp xs t

section Remaining

variable {exp exp' : BitVec 32 → ℕ} {xs pre post : List (BitVec 32)} {t u : BitVec 32}

theorem remaining_append_of_notMem (h : t ∉ pre) :
    remaining exp (pre ++ post) t = (pre.map exp).sum + remaining exp post t := by
  induction pre with
  | nil => simp
  | cons x pre ih =>
    rw [List.mem_cons, not_or] at h
    simp only [List.cons_append, remaining, if_neg (Ne.symm h.1), ih h.2, List.map_cons,
      List.sum_cons]
    omega

theorem remaining_append_of_mem (h : t ∈ pre) :
    remaining exp (pre ++ post) t = remaining exp pre t := by
  induction pre with
  | nil => simp at h
  | cons x pre ih =>
    simp only [List.cons_append, remaining]
    by_cases hx : x = t
    · simp [hx]
    · rw [if_neg hx, if_neg hx, ih (List.mem_of_ne_of_mem (Ne.symm hx) h)]

theorem remaining_congr (h : ∀ x ∈ xs, exp' x = exp x) :
    remaining exp' xs t = remaining exp xs t := by
  induction xs with
  | nil => rfl
  | cons x xs ih =>
    simp only [remaining, h x (by simp), ih fun y hy => h y (by simp [hy])]

/-- The distances with `t` in the list, `exp'`, and without it, `exp`, differ at the successor of
`t` only, and there by the distance of `t`. -/
structure Shifted (exp' exp : BitVec 32 → ℕ) (pre : List (BitVec 32)) (t : BitVec 32)
    (post : List (BitVec 32)) : Prop where
  pre : ∀ x ∈ pre, exp' x = exp x
  next : ∀ n, post.head? = some n → exp n = exp' n + exp' t
  rest : ∀ x ∈ post.tail, exp' x = exp x

theorem Shifted.remaining_eq (h : Shifted exp' exp pre t post) (hn : (pre ++ t :: post).Nodup)
    (hu : u ∈ pre ++ post) :
    remaining exp' (pre ++ t :: post) u = remaining exp (pre ++ post) u := by
  by_cases hup : u ∈ pre
  · rw [remaining_append_of_mem hup, remaining_append_of_mem hup]
    exact remaining_congr h.pre
  · have hut : t ≠ u := by
      rintro rfl
      rw [List.nodup_middle, List.nodup_cons] at hn
      exact hn.1 hu
    have hsum : (pre.map exp').sum = (pre.map exp).sum := by rw [List.map_congr_left h.pre]
    rw [remaining_append_of_notMem hup, remaining_append_of_notMem hup, hsum]
    cases post with
    | nil =>
      rw [List.append_nil] at hu
      exact absurd hu hup
    | cons n rest =>
      have hr : remaining exp' rest u = remaining exp rest u := remaining_congr h.rest
      have := h.next n rfl
      simp only [remaining, if_neg hut, hr, this]
      omega

end Remaining

/-! ## The list in memory -/

namespace TimerList

variable {π : Type} {T T' : TimerList π} {xs pre post : List (BitVec 32)} {t u : BitVec 32}

/-- The timers on the list are `xs`; the others are linked to themselves. -/
structure Lists (T : TimerList π) (xs : List (BitVec 32)) : Prop where
  ring : T.link.IsRing xs
  off : ∀ u, u ∉ xs → T.link.next (some u) = some u

theorem Lists.linkEmpty_iff (h : T.Lists xs) : T.linkEmpty t ↔ t ∉ xs := by
  refine ⟨fun he ht => ?_, h.off t⟩
  obtain ⟨pre, post, rfl⟩ := List.append_of_mem ht
  have hh : post.head? = some t := h.ring.next_some.symm.trans he
  have hn := h.ring.nodup
  rw [List.nodup_middle, List.nodup_cons] at hn
  exact hn.1 (List.mem_append_right _ (List.mem_of_head? hh))

theorem Lists.next_none (h : T.Lists xs) : T.link.next none = xs.head? := h.ring.next [] xs rfl

theorem Lists.setExpires (h : T.Lists xs) (e : ℕ) : (T.setExpires t e).Lists xs := ⟨h.ring, h.off⟩

theorem Lists.length_le (h : T.Lists xs) : xs.length ≤ 2 ^ 32 := by
  have hinj : Function.Injective (BitVec.toFin : BitVec 32 → Fin (2 ^ 32)) :=
    fun _ _ he => BitVec.toFin_inj.1 he
  simpa using (h.ring.nodup.map hinj).length_le_card

/-- `list_add_before` in front of `post`. -/
theorem Lists.addBefore (h : T.Lists (pre ++ post)) (ht : t ∉ pre ++ post) :
    ({ T with link := T.link.addBefore post.head? (some t) } : TimerList π).Lists
      (pre ++ t :: post) := by
  have hn : (pre ++ t :: post).Nodup := by
    rw [List.nodup_middle, List.nodup_cons]
    exact ⟨ht, h.ring.nodup⟩
  refine ⟨h.ring.addBefore hn, fun u hu => ?_⟩
  have hut : u ≠ t := fun he => hu (by simp [he])
  have hul : some u ≠ pre.getLast? := fun he =>
    hu (List.mem_append_left _ (List.mem_of_getLast? he.symm))
  have huo : u ∉ pre ++ post := fun hm => hu (by
    rw [List.mem_append] at hm ⊢
    exact hm.imp_right (List.mem_cons_of_mem _))
  simp only [Links.addBefore, Links.addBetween, h.ring.prev_eq]
  rw [Function.update_of_ne (by simpa using hut), Function.update_of_ne hul]
  exact h.off u huo

/-- `list_del_init`. -/
theorem Lists.delInit (h : T.Lists (pre ++ t :: post)) :
    ({ T with link := T.link.delInit (some t) } : TimerList π).Lists (pre ++ post) := by
  refine ⟨h.ring.delInit, fun u hu => ?_⟩
  simp only [Links.delInit, Links.initEntry, Links.del, h.ring.prev_some]
  by_cases hut : u = t
  · rw [hut, Function.update_self]
  · have hul : some u ≠ pre.getLast? := fun he =>
      hu (List.mem_append_left _ (List.mem_of_getLast? he.symm))
    rw [Function.update_of_ne (by simpa using hut), Function.update_of_ne hul]
    refine h.off u fun hm => hu ?_
    rw [List.mem_append, List.mem_cons] at hm
    rw [List.mem_append]
    exact hm.imp_right fun h => h.resolve_left hut

theorem Lists.timerInit (h : T.Lists xs) (ht : t ∉ xs) (p : π) (e : ℕ) :
    (T.timerInit t p e).Lists xs := by
  refine ⟨h.ring.initEntry ht, fun u hu => ?_⟩
  simp only [TimerList.timerInit, Links.initEntry]
  by_cases hut : u = t
  · rw [hut, Function.update_self]
  · rw [Function.update_of_ne (by simpa using hut)]
    exact h.off u hu

/-! ## `add_timer` -/

/-- The walk puts `t` where its time runs out. -/
theorem addFrom_spec : ∀ (post pre : List (BitVec 32)) (T : TimerList π) (fuel : ℕ),
    T.Lists (pre ++ post) → t ∉ pre ++ post → post.length < fuel →
      ∃ T' mid post', T.addFrom t fuel post.head? = some T' ∧ post = mid ++ post' ∧
        T'.Lists (pre ++ mid ++ t :: post') ∧ T'.proc = T.proc ∧
        T.expires t = (mid.map T.expires).sum + T'.expires t ∧
        Shifted T'.expires T.expires (pre ++ mid) t post'
  | [], pre, T, fuel + 1, h, ht, _ => by
    refine ⟨_, [], [], rfl, rfl, ?_, rfl, ?_, ?_, ?_, ?_⟩
    · simpa using h.addBefore ht
    · simp
    all_goals simp
  | n :: rest, pre, T, fuel + 1, h, ht, hf => by
    have htn : t ≠ n := fun he => ht (by simp [he])
    by_cases hlt : T.expires t < T.expires n
    · refine ⟨_, [], n :: rest, if_pos hlt, rfl, ?_, rfl, ?_, ?_, ?_, ?_⟩
      · simpa using (h.setExpires (t := n) (T.expires n - T.expires t)).addBefore ht
      · simp [TimerList.setExpires, Function.update_of_ne htn]
      · intro x hx
        have hxn : x ≠ n := fun he => by
          have := List.disjoint_of_nodup_append h.ring.nodup (by simpa using hx)
          exact this (by simp [he])
        simp [TimerList.setExpires, Function.update_of_ne hxn]
      · intro m hm
        cases hm
        simp only [TimerList.setExpires, Function.update_self, Function.update_of_ne htn]
        omega
      · intro x hx
        have hxn : x ≠ n := fun he =>
          (List.nodup_cons.1 (List.nodup_append.1 h.ring.nodup).2.1).1 (he ▸ hx)
        simp [TimerList.setExpires, Function.update_of_ne hxn]
    · -- `t` passes `n`
      have h' : (T.setExpires t (T.expires t - T.expires n)).Lists (pre ++ [n] ++ rest) := by
        simpa using h.setExpires (t := t) (T.expires t - T.expires n)
      obtain ⟨T', mid, post', hT', rfl, hl, hp, hsum, hsh⟩ :=
        addFrom_spec rest (pre ++ [n]) _ fuel h' (by simpa using ht) (by simpa using hf)
      have hself : ∀ x ∈ pre ++ n :: (mid ++ post'),
          (T.setExpires t (T.expires t - T.expires n)).expires x = T.expires x := fun x hx =>
        Function.update_of_ne (fun he : x = t => ht (he ▸ hx)) _ _
      refine ⟨T', n :: mid, post', ?_, rfl, by simpa using hl, hp, ?_, ?_, ?_, ?_⟩
      · rw [← hT', ← h.ring.next_some]
        exact if_neg hlt
      · rw [List.map_congr_left fun x hx => hself x (by simp [hx])] at hsum
        simp only [TimerList.setExpires, Function.update_self] at hsum
        rw [List.map_cons, List.sum_cons]
        omega
      · intro x hx
        rw [hsh.pre x (by simpa using hx), hself x (by simp at hx ⊢; tauto)]
      · intro m hm
        rw [← hsh.next m hm, hself m (by simp [List.mem_of_head? hm])]
      · intro x hx
        rw [hsh.rest x hx, hself x (by simp [List.mem_of_mem_tail hx])]

/-! ## What the list stands for -/

/-- The list `xs` stands for `m`: which timers run, how much of their time is left, and for which
process. -/
structure Holds (T : TimerList π) (xs : List (BitVec 32)) (m : BitVec 32 → Option (ℕ × π)) :
    Prop where
  lists : T.Lists xs
  mem : ∀ t ∈ xs, m t = some (remaining T.expires xs t, T.proc t)
  notMem : ∀ t, t ∉ xs → m t = none
  pos : ∀ t ∈ xs, 0 < remaining T.expires xs t
  lt : ∀ t ∈ xs, remaining T.expires xs t < 2 ^ 32

variable {m : BitVec 32 → Option (ℕ × π)}

theorem Holds.linkEmpty_iff (h : T.Holds xs m) : T.linkEmpty t ↔ m t = none := by
  rw [h.lists.linkEmpty_iff]
  refine ⟨h.notMem t, fun hm ht => ?_⟩
  rw [h.mem t ht] at hm
  simp at hm

theorem Holds.addTimer (h : T.Holds xs m) (ht : t ∉ xs) (p : π) {e : ℕ} (he : 0 < e)
    (hlt : e < 2 ^ 32) : ∃ T' xs', (T.timerInit t p e).addTimer t = some T' ∧
      T'.Holds xs' (Function.update m t (some (e, p))) := by
  have hi : (T.timerInit t p e).Lists ([] ++ xs) := h.lists.timerInit ht p e
  have het : (T.timerInit t p e).expires t = e := Function.update_self ..
  have heq : ∀ x ∈ xs, (T.timerInit t p e).expires x = T.expires x := fun x hx =>
    Function.update_of_ne (fun hxt : x = t => ht (hxt ▸ hx)) _ _
  obtain ⟨T', mid, post, hT', rfl, hl, hp, hsum, hsh⟩ := addFrom_spec xs [] _ (2 ^ 32 + 1) hi
    (by simpa using ht) (Nat.lt_succ_of_le h.lists.length_le)
  rw [List.nil_append] at hl hsh
  rw [het] at hsum
  have hrem : ∀ u ∈ mid ++ post,
      remaining T'.expires (mid ++ t :: post) u = remaining T.expires (mid ++ post) u := by
    intro u hu
    rw [hsh.remaining_eq hl.ring.nodup hu]
    exact remaining_congr heq
  have hremt : remaining T'.expires (mid ++ t :: post) t = e := by
    have htm : t ∉ mid := fun hm => ht (by simp [hm])
    rw [remaining_append_of_notMem htm, remaining, if_pos rfl, List.map_congr_left hsh.pre]
    omega
  refine ⟨T', mid ++ t :: post, ?_, hl, ?_, ?_, ?_, ?_⟩
  · rw [TimerList.addTimer, if_neg, ← hT', hi.next_none]
    · rfl
    · have hle : (T.timerInit t p e).linkEmpty t := hi.linkEmpty_iff.2 (by simpa using ht)
      simp [het, hle, he.ne']
  · intro u hu
    by_cases hut : u = t
    · rw [hut, Function.update_self, hremt, hp]
      simp [timerInit]
    · have hu' : u ∈ mid ++ post := by simpa [hut] using hu
      rw [Function.update_of_ne hut, hrem u hu', hp, h.mem u hu']
      simp [timerInit, Function.update_of_ne hut]
  · intro u hu
    have hut : u ≠ t := fun hut => hu (by simp [hut])
    rw [Function.update_of_ne hut]
    exact h.notMem u fun hm => hu (by simp at hm ⊢; tauto)
  all_goals
    intro u hu
    by_cases hut : u = t
    · rw [hut, hremt]
      assumption
    · have hu' : u ∈ mid ++ post := by simpa [hut] using hu
      rw [hrem u hu']
      first | exact h.pos u hu' | exact h.lt u hu'

/-! ## `del_timer` -/

theorem delTimer_of_mem (h : T.Lists (pre ++ t :: post))
    (hlt : ∀ n, post.head? = some n → T.expires n + T.expires t < 2 ^ 32) :
    (T.delTimer t).Lists (pre ++ post) ∧ (T.delTimer t).proc = T.proc ∧
      Shifted T.expires (T.delTimer t).expires pre t post := by
  have hn := h.ring.nodup
  rw [List.nodup_middle, List.nodup_cons] at hn
  have hne : ¬ T.linkEmpty t := fun he => h.linkEmpty_iff.1 he (by simp)
  rw [TimerList.delTimer, if_neg hne, h.ring.next_some]
  by_cases h0 : T.expires t = 0
  · rw [if_neg (by simpa using h0)]
    refine ⟨h.delInit, rfl, fun _ _ => rfl, fun n _ => ?_, fun _ _ => rfl⟩
    simp [h0]
  · rw [if_pos h0]
    cases post with
    | nil => exact ⟨h.delInit, rfl, fun _ _ => rfl, by simp, fun _ _ => rfl⟩
    | cons n rest =>
      have hnd : ∀ x ∈ pre ++ rest, x ≠ n := by
        intro x hx hxn
        have := hn.2
        rw [List.nodup_middle, List.nodup_cons] at this
        exact this.1 (hxn ▸ hx)
      refine ⟨(h.setExpires (t := n) _).delInit, rfl, fun x hx => ?_, fun k hk => ?_, fun x hx => ?_⟩
      · exact (Function.update_of_ne (hnd x (by simp [hx])) _ _).symm
      · cases hk
        simp only [List.head?_cons, TimerList.setExpires, Function.update_self]
        exact Nat.mod_eq_of_lt (hlt n rfl)
      · exact (Function.update_of_ne (hnd x (by simp at hx ⊢; tauto)) _ _).symm

theorem Holds.delTimer (h : T.Holds xs m) (t : BitVec 32) :
    ∃ xs', (T.delTimer t).Holds xs' (Function.update m t none) := by
  by_cases ht : t ∈ xs
  · obtain ⟨pre, post, rfl⟩ := List.append_of_mem ht
    have hn := h.lists.ring.nodup
    have hn' := hn
    rw [List.nodup_middle, List.nodup_cons] at hn'
    have hlt : ∀ n, post.head? = some n → T.expires n + T.expires t < 2 ^ 32 := by
      intro n hh
      obtain ⟨rest, rfl⟩ : ∃ rest, post = n :: rest := by
        cases post with
        | nil => simp at hh
        | cons k rest => exact ⟨rest, by cases hh; rfl⟩
      have hnp : n ∉ pre := fun hm => List.disjoint_of_nodup_append hn hm (by simp)
      have hnt : ¬ t = n := fun he => hn'.1 (by simp [he])
      have := h.lt n (by simp)
      rw [remaining_append_of_notMem hnp, remaining, if_neg hnt, remaining, if_pos rfl] at this
      omega
    obtain ⟨hl, hp, hsh⟩ := delTimer_of_mem h.lists hlt
    have hrem : ∀ u ∈ pre ++ post, remaining (T.delTimer t).expires (pre ++ post) u =
        remaining T.expires (pre ++ t :: post) u :=
      fun u hu => (hsh.remaining_eq hn hu).symm
    have hin : ∀ u ∈ pre ++ post, u ∈ pre ++ t :: post := fun u hu => by
      simp at hu ⊢
      tauto
    refine ⟨pre ++ post, hl, ?_, ?_, ?_, ?_⟩
    · intro u hu
      have hut : u ≠ t := fun hut => hn'.1 (hut ▸ hu)
      rw [Function.update_of_ne hut, hrem u hu, hp, h.mem u (hin u hu)]
    · intro u hu
      by_cases hut : u = t
      · rw [hut, Function.update_self]
      · rw [Function.update_of_ne hut]
        exact h.notMem u fun hm => hu (by simpa [hut] using hm)
    · intro u hu
      rw [hrem u hu]
      exact h.pos u (hin u hu)
    · intro u hu
      rw [hrem u hu]
      exact h.lt u (hin u hu)
  · have he : T.linkEmpty t := h.lists.linkEmpty_iff.2 ht
    rw [TimerList.delTimer, if_pos he, ← h.notMem t ht, Function.update_eq_self]
    exact ⟨xs, h⟩

/-! ## `run_timer_list` -/

section Fire

variable [DecidableEq π]

/-- The loop wakes the timers at the front that have no time left, and takes them off. -/
theorem fireFrom_spec : ∀ (xs : List (BitVec 32)) (t : BitVec 32) (T : TimerList π) (s : Sched π)
    (fuel : ℕ), T.Lists (t :: xs) → (∀ u ∈ t :: xs, s.Waits (T.proc u) ∨ s.Woken (T.proc u)) →
      xs.length < fuel → ∃ T' s' ys zs, t :: xs = ys ++ zs ∧
        T.fireFrom s t fuel = some (T', s', ys.map fun u => (u, T.proc u)) ∧ T'.Lists zs ∧
        s.Wakes s' (ys.map T.proc) ∧ T'.proc = T.proc ∧ T'.expires = T.expires ∧
        (∀ u ∈ ys, T.expires u = 0) ∧ (∀ u, zs.head? = some u → T.expires u ≠ 0)
  | xs, t, T, s, fuel + 1, h, hw, hf => by
    by_cases h0 : T.expires t = 0
    · have hassert : ¬ ((s.proc (T.proc t)).waitState ≠ 0#32 ∧
          (s.proc (T.proc t)).waitState &&& wtInterrupted = 0#32) := by
        rintro ⟨hne, hi⟩
        rcases hw t (by simp) with hw | hw
        · exact hw.interrupted hi
        · exact hne hw.waitState
      obtain ⟨s₁, hs₁, hwakes⟩ := Sched.wakeupProc_spec (hw t (by simp))
      have hdel : T.delTimer t = { T with link := T.link.delInit (some t) } := by
        have hne : ¬ T.linkEmpty t := fun he => h.linkEmpty_iff.1 he (by simp)
        rw [TimerList.delTimer, if_neg hne, if_neg (by simpa using h0)]
      have h' : T.Lists ([] ++ t :: xs) := h
      have hl : ({ T with link := T.link.delInit (some t) } : TimerList π).Lists xs := h'.delInit
      have hnext : T.link.next (some t) = xs.head? := h.ring.next [t] xs rfl
      cases xs with
      | nil =>
        refine ⟨_, s₁, [t], [], rfl, ?_, hl, hwakes, rfl, rfl, by simpa using h0, by simp⟩
        simp [fireFrom, h0, hassert, hs₁, hdel, hnext]
      | cons n rest =>
        obtain ⟨T', s', ys, zs, hyz, hrun, hl', hwakes', hp, he, hys, hzs⟩ :=
          fireFrom_spec rest n _ s₁ fuel hl
            (fun u hu => hwakes.ready (hw u (by simp at hu ⊢; tauto))) (by simpa using hf)
        refine ⟨T', s', t :: ys, zs, by rw [hyz]; rfl, ?_, hl', hwakes.cons hwakes', hp, he, ?_, hzs⟩
        · simp [fireFrom, h0, hassert, hs₁, hdel, hnext, hrun]
        · simpa [h0] using hys
    · refine ⟨T, s, [], t :: xs, rfl, by simp [fireFrom, h0], h, .refl s, rfl, rfl, by simp, ?_⟩
      intro u hu
      cases hu
      exact h0

/-- The timers with no time left are the ones the loop takes off. -/
theorem remaining_eq_zero_iff {exp : BitVec 32 → ℕ} {ys zs : List (BitVec 32)} {u : BitVec 32}
    (hn : (ys ++ zs).Nodup) (hy : ∀ u ∈ ys, exp u = 0) (hz : ∀ u, zs.head? = some u → exp u ≠ 0)
    (hu : u ∈ ys ++ zs) : remaining exp (ys ++ zs) u = 0 ↔ u ∈ ys := by
  have hsum : ∀ l : List (BitVec 32), (∀ x ∈ l, x ∈ ys) → (l.map exp).sum = 0 := by
    intro l hl
    refine List.sum_eq_zero fun a ha => ?_
    obtain ⟨x, hx, rfl⟩ := List.mem_map.1 ha
    exact hy x (hl x hx)
  constructor
  · intro h0
    by_contra huy
    have huz : u ∈ zs := (List.mem_append.1 hu).resolve_left huy
    rw [remaining_append_of_notMem huy] at h0
    cases zs with
    | nil => simp at huz
    | cons n rest =>
      have := hz n rfl
      simp only [remaining] at h0
      omega
  · intro huy
    obtain ⟨a, b, rfl⟩ := List.append_of_mem huy
    have hua : u ∉ a := by
      rw [List.append_assoc] at hn
      exact fun ha => List.disjoint_of_nodup_append hn ha (by simp)
    rw [List.append_assoc, remaining_append_of_notMem hua, hsum a fun x hx => by simp [hx]]
    simp [remaining, hy u (by simp)]

omit [DecidableEq π] in
/-- The entries of the log for one timer. -/
theorem filter_log {f : BitVec 32 → π} {ys : List (BitVec 32)} (hn : ys.Nodup) (t : BitVec 32) :
    (ys.map fun u => (u, f u)).filter (·.1 = t) = if t ∈ ys then [(t, f t)] else [] := by
  induction ys with
  | nil => simp
  | cons y ys ih =>
    rw [List.nodup_cons] at hn
    rw [List.map_cons, List.filter_cons, ih hn.2]
    by_cases hy : y = t
    · subst hy
      simp [hn.1]
    · simp [hy, Ne.symm hy]

/-- One tick: everything that runs has one less to go, and what has nothing left is woken. -/
theorem Holds.runTimerList (h : T.Holds xs m) {s : Sched π}
    (hw : ∀ t ∈ xs, s.Waits (T.proc t)) : ∃ T' s' log zs, T.runTimerList s = some (T', s', log) ∧
      s.Wakes s' (log.map Prod.snd) ∧ (∀ t, log.filter (·.1 = t) = match m t with
        | some (1, p) => [(t, p)]
        | _ => []) ∧
      T'.Holds zs fun t => match m t with
        | some (r + 2, p) => some (r + 1, p)
        | _ => none := by
  cases xs with
  | nil =>
    have hm : ∀ t, m t = none := fun t => h.notMem t (by simp)
    refine ⟨T, _, [], [], by simp [TimerList.runTimerList, h.lists.next_none]; rfl,
      (Sched.Wakes.refl s).schedClassProcTick, ?_, h.lists, ?_, ?_, ?_, ?_⟩
    all_goals simp [hm]
  | cons t xs =>
    have hn := h.lists.ring.nodup
    have hpos := h.pos t (by simp)
    simp only [remaining, if_true] at hpos
    -- the head gives one up, and so does every sum
    obtain ⟨T₁, hT₁⟩ : ∃ T₁, T₁ = T.setExpires t (T.expires t - 1) := ⟨_, rfl⟩
    have hrem : ∀ u ∈ t :: xs,
        remaining T₁.expires (t :: xs) u + 1 = remaining T.expires (t :: xs) u := by
      intro u hu
      have hxs : remaining T₁.expires xs u = remaining T.expires xs u := by
        refine remaining_congr fun x hx => ?_
        rw [hT₁]
        exact Function.update_of_ne (fun he : x = t => (List.nodup_cons.1 hn).1 (he ▸ hx)) _ _
      have ht : T₁.expires t = T.expires t - 1 := by rw [hT₁]; exact Function.update_self ..
      simp only [remaining, hxs, ht]
      omega
    have hp₁ : T₁.proc = T.proc := by rw [hT₁]; rfl
    have hl₁ : T₁.Lists (t :: xs) := by rw [hT₁]; exact h.lists.setExpires _
    obtain ⟨T', s', ys, zs, hyz, hrun, hl', hwakes, hp, he, hys, hzs⟩ :=
      fireFrom_spec xs t T₁ s (2 ^ 32 + 1) hl₁ (fun u hu => .inl (by rw [hp₁]; exact hw u hu))
        (by have := hl₁.length_le; simp at this ⊢; omega)
    have hmem : ∀ u ∈ t :: xs, (u ∈ ys ↔ remaining T.expires (t :: xs) u = 1) := by
      intro u hu
      have h1 := hrem u hu
      rw [hyz] at hn hu h1 ⊢
      rw [← remaining_eq_zero_iff hn hys hzs hu]
      omega
    have hnyz : (ys ++ zs).Nodup := hyz ▸ hn
    have hzmem : ∀ u ∈ zs, u ∈ t :: xs := fun u hu => by rw [hyz]; exact List.mem_append_right _ hu
    have hzy : ∀ u ∈ zs, u ∉ ys := fun u hu hy => List.disjoint_of_nodup_append hnyz hy hu
    have hremz : ∀ u ∈ zs, remaining T'.expires zs u + 1 = remaining T.expires (t :: xs) u := by
      intro u hu
      have hsum : (ys.map T₁.expires).sum = 0 := by
        refine List.sum_eq_zero fun a ha => ?_
        obtain ⟨x, hx, rfl⟩ := List.mem_map.1 ha
        exact hys x hx
      have h1 := hrem u (hzmem u hu)
      rw [hyz, remaining_append_of_notMem (hzy u hu), hsum, ← hyz] at h1
      rw [he]
      omega
    have hmz : ∀ u ∈ zs, m u = some (remaining T'.expires zs u + 1, T'.proc u) ∧
        0 < remaining T'.expires zs u := by
      intro u hu
      have h1 := mt (hmem u (hzmem u hu)).2 (hzy u hu)
      have h2 := hremz u hu
      rw [hp, hp₁, h2]
      exact ⟨h.mem u (hzmem u hu), by omega⟩
    refine ⟨T', s'.schedClassProcTick s'.current, ys.map fun u => (u, T₁.proc u), zs, ?_, ?_,
      fun u => ?_, hl', ?_, ?_, ?_, ?_⟩
    · have h0 : ¬ T.expires t = 0 := by omega
      simp only [TimerList.runTimerList, h.lists.next_none, List.head?_cons, if_neg h0, ← hT₁, hrun]
      rfl
    · rw [List.map_map]
      exact hwakes.schedClassProcTick
    · rw [filter_log (List.nodup_append.1 hnyz).1, hp₁]
      by_cases hu : u ∈ t :: xs
      · rw [h.mem u hu]
        by_cases hy : u ∈ ys
        · rw [if_pos hy, (hmem u hu).1 hy]
          rfl
        · rw [if_neg hy]
          split
          · rename_i heq
            simp only [Option.some.injEq, Prod.mk.injEq] at heq
            exact absurd ((hmem u hu).2 heq.1) hy
          · rfl
      · have huy : u ∉ ys := fun hy => hu (by rw [hyz]; exact List.mem_append_left _ hy)
        rw [h.notMem u hu, if_neg huy]
    · intro u hu
      obtain ⟨hm, hpos⟩ := hmz u hu
      obtain ⟨r, hr⟩ : ∃ r, remaining T'.expires zs u = r + 1 := ⟨_, (Nat.succ_pred hpos.ne').symm⟩
      rw [hm, hr]
    · intro u hu
      by_cases hux : u ∈ t :: xs
      · have huy : u ∈ ys := (List.mem_append.1 (hyz ▸ hux)).resolve_right hu
        rw [h.mem u hux, (hmem u hux).1 huy]
      · rw [h.notMem u hux]
    · intro u hu
      exact (hmz u hu).2
    · intro u hu
      have h1 := h.lt u (hzmem u hu)
      have h2 := hremz u hu
      omega

end Fire

end TimerList

/-! ## Runs -/

/-- A call of the timer interface; `run` with the scheduler as the tick finds it. -/
inductive TimerOp (π : Type) where
  | add (t : BitVec 32) (p : π) (expires : ℕ)
  | del (t : BitVec 32)
  | run (s : Sched π)

namespace TimerOp

variable {π : Type}

/-- What a call gives back beside the timers: the wakeups it makes, and the scheduler of a tick. -/
structure Output (π : Type) where
  log : List (BitVec 32 × π)
  sched : Option (Sched π)

/-- A tick has woken the processes of its wakeups and left the others as they were. -/
def Wakes : TimerOp π → Output π → Prop
  | .run s, out => ∃ s', out.sched = some s' ∧ s.Wakes s' (out.log.map Prod.snd)
  | _, out => out = ⟨[], none⟩

/-- Whether the call is for the timer `t`. -/
def names (t : BitVec 32) : TimerOp π → Prop
  | .add u _ _ | .del u => u = t
  | .run _ => False

def isRun : TimerOp π → Bool
  | .run _ => true
  | _ => false

end TimerOp

namespace TimerList

variable {π : Type} [DecidableEq π]

open TimerOp (Output)

def step (T : TimerList π) : TimerOp π → Option (TimerList π × Output π)
  | .add t p e => ((T.timerInit t p e).addTimer t).map fun T => (T, ⟨[], none⟩)
  | .del t => some (T.delTimer t, ⟨[], none⟩)
  | .run s => (T.runTimerList s).map fun r => (r.1, ⟨r.2.2, some r.2.1⟩)

/-- A run, with what each call gives back. -/
def runOps (T : TimerList π) : List (TimerOp π) → Option (TimerList π × List (Output π))
  | [] => some (T, [])
  | op :: ops => do
    let (T, out) ← T.step op
    let (T, outs) ← T.runOps ops
    return (T, out :: outs)

/-- A timer that is added has time to go and is on no list, and the processes of the timers that
run wait interruptibly when the tick comes. -/
def Allows (T : TimerList π) : TimerOp π → Prop
  | .add t _ e => 0 < e ∧ e < 2 ^ 32 ∧ T.linkEmpty t
  | .del _ => True
  | .run s => ∀ t, ¬ T.linkEmpty t → s.Waits (T.proc t)

def AllowsRun (T : TimerList π) : List (TimerOp π) → Prop
  | [] => True
  | op :: ops => T.Allows op ∧ ∀ T' out, T.step op = some (T', out) → T'.AllowsRun ops

/-- No timer has been added yet. -/
def boot (expires : BitVec 32 → ℕ) (proc : BitVec 32 → π) : TimerList π :=
  ⟨expires, proc, ⟨id, id⟩⟩

/-- What a call does to the time left of each timer. -/
def after (m : BitVec 32 → Option (ℕ × π)) : TimerOp π → BitVec 32 → Option (ℕ × π)
  | .add t p e => Function.update m t (some (e, p))
  | .del t => Function.update m t none
  | .run _ => fun t => match m t with
    | some (r + 2, p) => some (r + 1, p)
    | _ => none

/-- The wakeups of the timer `t` in a call. -/
def wakes (m : BitVec 32 → Option (ℕ × π)) (t : BitVec 32) : TimerOp π → List (BitVec 32 × π)
  | .run _ => match m t with
    | some (1, p) => [(t, p)]
    | _ => []
  | _ => []

variable {T : TimerList π} {xs : List (BitVec 32)} {m : BitVec 32 → Option (ℕ × π)}
  {t : BitVec 32} {p : π}

theorem Holds.step (h : T.Holds xs m) (op : TimerOp π) (ho : T.Allows op) :
    ∃ T' out xs', T.step op = some (T', out) ∧ T'.Holds xs' (after m op) ∧ op.Wakes out ∧
      ∀ t, out.log.filter (·.1 = t) = wakes m t op := by
  cases op with
  | add t p e =>
    obtain ⟨he, hlt, ht⟩ := ho
    obtain ⟨T', xs', hT', h'⟩ := h.addTimer (h.lists.linkEmpty_iff.1 ht) p he hlt
    exact ⟨T', ⟨[], none⟩, xs', by simp [TimerList.step, hT'], h', rfl, fun _ => rfl⟩
  | del t =>
    obtain ⟨xs', h'⟩ := h.delTimer t
    exact ⟨_, ⟨[], none⟩, xs', rfl, h', rfl, fun _ => rfl⟩
  | run s =>
    have hw : ∀ t ∈ xs, s.Waits (T.proc t) := fun t ht =>
      ho t fun he => h.lists.linkEmpty_iff.1 he ht
    obtain ⟨T', s', log, zs, hrun, hwakes, hlog, h'⟩ := h.runTimerList hw
    exact ⟨T', ⟨log, some s'⟩, zs, by simp [TimerList.step, hrun], h', ⟨s', rfl, hwakes⟩, hlog⟩

omit [DecidableEq π] in
theorem holds_boot (expires : BitVec 32 → ℕ) (proc : BitVec 32 → π) :
    (boot expires proc).Holds [] fun _ => none := by
  have hr : (⟨id, id⟩ : Links (BitVec 32)) = (⟨id, id⟩ : Links (BitVec 32)).init := by
    simp [Links.init]
  refine ⟨⟨?_, fun u _ => rfl⟩, by simp, by simp, by simp, by simp⟩
  rw [boot, hr]
  exact Links.isRing_init

/-- How many ticks there are in a run. -/
def ticks (ops : List (TimerOp π)) : ℕ := ops.countP TimerOp.isRun

omit [DecidableEq π] in
/-- A call for another timer, or a tick, on a timer with `r` ticks to go. -/
theorem after_of_not_names {op : TimerOp π} {r : ℕ} (hn : ¬ op.names t)
    (hm : m t = if 0 < r then some (r, p) else none) :
    (after m op t = if 0 < r - ticks [op] then some (r - ticks [op], p) else none) ∧
      wakes m t op = if op.isRun ∧ r = 1 then [(t, p)] else [] := by
  cases op with
  | add u q e => exact ⟨(Function.update_of_ne (Ne.symm hn) _ _).trans hm, rfl⟩
  | del u => exact ⟨(Function.update_of_ne (Ne.symm hn) _ _).trans hm, rfl⟩
  | run s =>
    match r with
    | 0 => simp_all [after, wakes, ticks, TimerOp.isRun]
    | 1 => simp_all [after, wakes, ticks, TimerOp.isRun]
    | r + 2 => simp_all [after, wakes, ticks, TimerOp.isRun]

/-- A timer with `r` ticks to go, followed through calls that are not for it. -/
theorem follow : ∀ (ops : List (TimerOp π)) (T : TimerList π) (xs : List (BitVec 32))
    (m : BitVec 32 → Option (ℕ × π)) (r : ℕ), T.Holds xs m →
      m t = (if 0 < r then some (r, p) else none) → T.AllowsRun ops →
      (∀ op ∈ ops, ¬ op.names t) →
        ∃ T' outs, T.runOps ops = some (T', outs) ∧
          (∀ m₁ op m₂, ops = m₁ ++ op :: m₂ → ∃ out, outs[m₁.length]? = some out ∧
            out.log.filter (·.1 = t) = if op.isRun ∧ ticks m₁ + 1 = r then [(t, p)] else []) ∧
          (T'.linkEmpty t ↔ r ≤ ticks ops)
  | [], T, xs, m, r, h, hm, _, _ => by
    refine ⟨T, [], rfl, fun m₁ op m₂ he => by simp at he, ?_⟩
    rw [h.linkEmpty_iff, hm]
    by_cases hr : 0 < r
    · simp [hr, ticks, hr.ne']
    · simp [ticks, Nat.eq_zero_of_not_pos hr]
  | op :: ops, T, xs, m, r, h, hm, ho, hn => by
    obtain ⟨T₁, out, xs₁, hstep, h₁, -, hlog⟩ := h.step op ho.1
    obtain ⟨hm₁, hw⟩ := after_of_not_names (hn op (by simp)) hm
    obtain ⟨T', outs, hrun, hfire, hoff⟩ := follow ops T₁ xs₁ _ _ h₁ hm₁ (ho.2 _ _ hstep)
      fun o hmem => hn o (by simp [hmem])
    have hticks : ∀ l : List (TimerOp π), ticks (op :: l) = ticks [op] + ticks l := fun l =>
      @List.countP_append _ _ [op] l
    refine ⟨T', out :: outs, by simp [runOps, hstep, hrun], ?_, ?_⟩
    · intro m₁ o m₂ he
      cases m₁ with
      | nil =>
        cases he
        refine ⟨out, rfl, ((hlog t).trans hw).trans ?_⟩
        have hiff : r = 1 ↔ ticks ([] : List (TimerOp π)) + 1 = r := by
          rw [ticks, List.countP_nil]
          omega
        simp only [hiff]
      | cons o' m₁ =>
        cases he
        have hiff : ticks m₁ + 1 = r - ticks [op] ↔ ticks (op :: m₁) + 1 = r := by
          rw [hticks m₁]
          omega
        rw [List.length_cons, List.getElem?_cons_succ]
        obtain ⟨out', hout', hfilter⟩ := hfire m₁ o m₂ rfl
        refine ⟨out', hout', ?_⟩
        rw [hfilter]
        simp only [hiff]
    · rw [hoff, hticks ops]
      omega

theorem runOps_append (ops ops' : List (TimerOp π)) : ∀ T : TimerList π,
    T.runOps (ops ++ ops') = (T.runOps ops).bind fun r₁ =>
      (r₁.1.runOps ops').map fun r₂ => (r₂.1, r₁.2 ++ r₂.2) := by
  induction ops with
  | nil =>
    intro T
    cases h : T.runOps ops' <;> simp [runOps, h]
  | cons op ops ih =>
    intro T
    simp only [List.cons_append, runOps, ih]
    cases T.step op with
    | none => rfl
    | some r =>
      cases h : r.1.runOps ops with
      | none => simp [h]
      | some r₁ => cases h' : r₁.1.runOps ops' <;> simp [h, h']

/-- Every run goes through, and the list stays in order. -/
theorem Holds.runOps : ∀ (ops : List (TimerOp π)) (T : TimerList π) (xs : List (BitVec 32))
    (m : BitVec 32 → Option (ℕ × π)), T.Holds xs m → T.AllowsRun ops →
      ∃ T' outs xs' m', T.runOps ops = some (T', outs) ∧ T'.Holds xs' m' ∧
        List.Forall₂ TimerOp.Wakes ops outs ∧ ∀ ops', T.AllowsRun (ops ++ ops') → T'.AllowsRun ops'
  | [], T, xs, m, h, _ => ⟨T, [], xs, m, rfl, h, .nil, fun _ ho => ho⟩
  | op :: ops, T, xs, m, h, ho => by
    obtain ⟨T₁, out, xs₁, hstep, h₁, hwakes, -⟩ := h.step op ho.1
    obtain ⟨T', outs, xs', m', hrun, h', hall, hnext⟩ := Holds.runOps ops T₁ xs₁ _ h₁
      (ho.2 _ _ hstep)
    refine ⟨T', out :: outs, xs', m', by simp [TimerList.runOps, hstep, hrun], h',
      .cons hwakes hall, ?_⟩
    intro ops' ho'
    exact hnext ops' (ho'.2 _ _ hstep)

theorem AllowsRun.append_left : ∀ {ops ops' : List (TimerOp π)} {T : TimerList π},
    T.AllowsRun (ops ++ ops') → T.AllowsRun ops
  | [], _, _, _ => trivial
  | _ :: _, _, _, h => ⟨h.1, fun T' out hs => append_left (h.2 T' out hs)⟩

/-- No assertion of the timer list fails; each tick wakes the processes it says it wakes, and those
only; and a timer that is added with `e` ticks to go and not named again is woken by the `e`-th
tick, by no other call, and is off the list from then on. -/
theorem timer_list (expires : BitVec 32 → ℕ) (proc : BitVec 32 → π) (ops : List (TimerOp π))
    (ho : (boot expires proc).AllowsRun ops) :
    ∃ T outs, (boot expires proc).runOps ops = some (T, outs) ∧
      List.Forall₂ TimerOp.Wakes ops outs ∧
      ∀ pre t p e mid, ops = pre ++ .add t p e :: mid → (∀ op ∈ mid, ¬ op.names t) →
        (∀ m₁ op m₂, mid = m₁ ++ op :: m₂ →
          ∃ out, outs[pre.length + 1 + m₁.length]? = some out ∧
            out.log.filter (·.1 = t) = if op.isRun ∧ ticks m₁ + 1 = e then [(t, p)] else []) ∧
        (T.linkEmpty t ↔ e ≤ ticks mid) := by
  obtain ⟨T, outs, -, -, hrun, -, hall, -⟩ := Holds.runOps ops _ [] _ (holds_boot expires proc) ho
  refine ⟨T, outs, hrun, hall, ?_⟩
  rintro pre t p e mid rfl hn
  obtain ⟨T₁, outs₁, xs₁, m, hrun₁, h₁, hall₁, hnext₁⟩ := Holds.runOps pre _ [] _
    (holds_boot expires proc) ho.append_left
  have ho₁ := hnext₁ _ ho
  obtain ⟨T₂, out₂, xs₂, hstep, h₂, -, -⟩ := h₁.step _ ho₁.1
  have hm : after m (.add t p e) t = if 0 < e then some (e, p) else none := by
    rw [if_pos ho₁.1.1]
    exact Function.update_self ..
  obtain ⟨T₃, outs₃, hrun₃, hfire, hoff⟩ := follow mid T₂ xs₂ _ e h₂ hm (ho₁.2 _ _ hstep) hn
  have hwhole : (boot expires proc).runOps (pre ++ .add t p e :: mid) =
      some (T₃, outs₁ ++ out₂ :: outs₃) := by
    rw [runOps_append, hrun₁, Option.bind_some, TimerList.runOps, hstep]
    simp [hrun₃]
  rw [hwhole] at hrun
  cases hrun
  refine ⟨fun m₁ op m₂ he => ?_, hoff⟩
  have hlen := hall₁.length_eq
  rw [List.getElem?_append_right (by omega),
    show pre.length + 1 + m₁.length - outs₁.length = m₁.length + 1 by omega,
    List.getElem?_cons_succ]
  exact hfire m₁ op m₂ he

/-! ## Three timers -/

/-- Whether a call may come, by what is left of each timer's time. -/
def AllowsFrom (m : BitVec 32 → Option (ℕ × π)) : List (TimerOp π) → Prop
  | [] => True
  | .add t p e :: ops => (0 < e ∧ e < 2 ^ 32 ∧ m t = none) ∧ AllowsFrom (after m (.add t p e)) ops
  | .del t :: ops => AllowsFrom (after m (.del t)) ops
  | .run s :: ops => (∀ t r p, m t = some (r, p) → s.Waits p) ∧ AllowsFrom (after m (.run s)) ops

theorem Holds.allowsRun : ∀ (ops : List (TimerOp π)) (T : TimerList π) (xs : List (BitVec 32))
    (m : BitVec 32 → Option (ℕ × π)), T.Holds xs m → AllowsFrom m ops → T.AllowsRun ops
  | [], _, _, _, _, _ => trivial
  | op :: ops, T, xs, m, h, ha => by
    have hop : T.Allows op ∧ AllowsFrom (after m op) ops := by
      cases op with
      | add t p e =>
        exact ⟨⟨ha.1.1, ha.1.2.1, h.linkEmpty_iff.2 ha.1.2.2⟩, ha.2⟩
      | del t => exact ⟨trivial, ha⟩
      | run s =>
        refine ⟨fun t ht => ?_, ha.2⟩
        have hx : t ∈ xs := by_contra fun hx => ht (h.lists.linkEmpty_iff.2 hx)
        exact ha.1 t _ _ (h.mem t hx)
    refine ⟨hop.1, fun T' out hs => ?_⟩
    obtain ⟨T₁, out₁, xs₁, hstep, h₁, -, -⟩ := h.step op hop.1
    rw [hs] at hstep
    cases hstep
    exact Holds.allowsRun ops T' xs₁ _ h₁ hop.2

omit [DecidableEq π] in
/-- The timers that run are those that were added. -/
theorem after_proc {P : π → Prop} (h : ∀ t r p, m t = some (r, p) → P p) (op : TimerOp π)
    (hop : ∀ t p e, op = .add t p e → P p) : ∀ t r p, after m op t = some (r, p) → P p := by
  intro t r p hm
  cases op with
  | add u q e =>
    by_cases hu : t = u
    · rw [after, hu, Function.update_self] at hm
      cases hm
      exact hop u p r rfl
    · rw [after, Function.update_of_ne hu] at hm
      exact h t r p hm
  | del u =>
    by_cases hu : t = u
    · rw [after, hu, Function.update_self] at hm
      cases hm
    · rw [after, Function.update_of_ne hu] at hm
      exact h t r p hm
  | run s =>
    simp only [after] at hm
    split at hm
    · next heq =>
      cases hm
      exact h t _ _ heq
    · cases hm

omit [DecidableEq π] in
/-- A timer that a tick names has its process woken. -/
theorem woken_of_filter {ops : List (TimerOp π)} {outs : List (Output π)}
    (h : List.Forall₂ TimerOp.Wakes ops outs) {i : ℕ} {s : Sched π} (hop : ops[i]? = some (.run s))
    {out : Output π} (hout : outs[i]? = some out) :
    ∃ s', out.sched = some s' ∧ ∀ t p, out.log.filter (·.1 = t) = [(t, p)] → s'.Woken p := by
  obtain ⟨hi, hop⟩ := List.getElem?_eq_some_iff.1 hop
  obtain ⟨hi', hout⟩ := List.getElem?_eq_some_iff.1 hout
  have hw := (List.forall₂_iff_get.1 h).2 i hi hi'
  simp only [List.get_eq_getElem, hop, hout] at hw
  obtain ⟨s', hs', hw⟩ := hw
  refine ⟨s', hs', fun t p hf => hw.woken p (List.mem_map.2 ⟨(t, p), ?_, rfl⟩)⟩
  exact List.mem_of_mem_filter (by rw [hf]; exact List.mem_singleton_self _)

/-- Three sleeping processes beside the idle process 0. -/
def sleepers : Sched (Fin 5) where
  proc p := if p = 0 then ⟨.runnable, 0#32, false, 0, 0, false⟩
    else ⟨.sleeping, 0x80000002#32, false, 0, 0, false⟩
  idleproc := 0
  current := 0
  runList := []
  procNum := 0

/-- Two timers with one deadline, one with a later one, and one that is deleted. -/
def threeTimers : List (TimerOp (Fin 5)) :=
  [.add 1#32 1 2, .add 2#32 2 2, .add 4#32 3 1, .add 3#32 3 3, .del 4#32, .run sleepers,
    .run sleepers, .run sleepers]

theorem timer_list_three : ∃ T outs, (boot (fun _ => 0) fun _ => 0).runOps threeTimers =
      some (T, outs) ∧
    (∃ out s, outs[6]? = some out ∧ out.sched = some s ∧ s.Woken 1 ∧ s.Woken 2) ∧
    (∃ out s, outs[7]? = some out ∧ out.sched = some s ∧ s.Woken 3) ∧
    T.linkEmpty 1#32 ∧ T.linkEmpty 2#32 ∧ T.linkEmpty 3#32 := by
  have hwaits : ∀ p : Fin 5, p ≠ 0 → sleepers.Waits p := fun p hp =>
    ⟨by revert p; decide, by revert p; decide, List.not_mem_nil⟩
  have hallows : AllowsFrom (fun _ => none) threeTimers := by
    have h₁ := after_proc (π := Fin 5) (P := (· ≠ 0)) (m := fun _ => none) nofun (.add 1#32 1 2)
      (by simp)
    have h₂ := after_proc h₁ (.add 2#32 2 2) (by simp)
    have h₃ := after_proc h₂ (.add 4#32 3 1) (by simp)
    have h₄ := after_proc h₃ (.add 3#32 3 3) (by simp)
    have h₅ := after_proc h₄ (.del 4#32) nofun
    have h₆ := after_proc h₅ (.run sleepers) nofun
    have h₇ := after_proc h₆ (.run sleepers) nofun
    exact ⟨by decide, by decide, by decide, by decide, fun t r p hm => hwaits p (h₅ t r p hm),
      fun t r p hm => hwaits p (h₆ t r p hm), fun t r p hm => hwaits p (h₇ t r p hm), trivial⟩
  obtain ⟨T, outs, hrun, hall, h⟩ := timer_list (fun _ => 0) (fun _ => 0) threeTimers
    (Holds.allowsRun _ _ _ _ (holds_boot _ _) hallows)
  obtain ⟨h1, hoff1⟩ := h [] 1#32 1 2 _ rfl (by simp [TimerOp.names])
  obtain ⟨h2, hoff2⟩ := h [.add 1#32 1 2] 2#32 2 2 _ rfl (by simp [TimerOp.names])
  obtain ⟨h3, hoff3⟩ := h [.add 1#32 1 2, .add 2#32 2 2, .add 4#32 3 1] 3#32 3 3 _ rfl
    (by simp [TimerOp.names])
  obtain ⟨out, hout, hlog1⟩ := h1 [.add 2#32 2 2, .add 4#32 3 1, .add 3#32 3 3, .del 4#32,
    .run sleepers] (.run sleepers) _ rfl
  obtain ⟨out', hout', hlog2⟩ := h2 [.add 4#32 3 1, .add 3#32 3 3, .del 4#32, .run sleepers]
    (.run sleepers) _ rfl
  obtain rfl : out = out' := Option.some.inj (hout.symm.trans hout')
  obtain ⟨out₃, hout₃, hlog3⟩ := h3 [.del 4#32, .run sleepers, .run sleepers] (.run sleepers) _ rfl
  obtain ⟨s, hs, hwoken⟩ := woken_of_filter hall rfl hout
  obtain ⟨s₃, hs₃, hwoken₃⟩ := woken_of_filter hall rfl hout₃
  exact ⟨T, outs, hrun, ⟨out, s, hout, hs, hwoken _ _ hlog1, hwoken _ _ hlog2⟩,
    ⟨out₃, s₃, hout₃, hs₃, hwoken₃ _ _ hlog3⟩, hoff1.2 (by decide), hoff2.2 (by decide),
    hoff3.2 (by decide)⟩

end TimerList

end Ucore

end CacheCPU
