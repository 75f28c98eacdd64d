import CacheCPU.Ucore.Proc
import Mathlib.Data.Finset.Card
import Mathlib.Order.Interval.Finset.Nat
import Mathlib.Data.List.Perm.Subperm

/-!
# The process table over whole runs

Three lists describe the links: the processes in `proc_list`, the processes of each hash chain and
the children of each process. A fork puts the new process at the front of one list of each kind, a
wait takes one out, and an exit moves the children one by one. While it does so the list of the
exiting process is only good in one direction, since the `yptr` of the first child still points to
the one that has left.

`get_pid` keeps the pids between `last_pid` and `next_safe` free. A pass over `proc_list` that starts
again has moved `last_pid` past a pid in use, on the way to one that is free.
-/

namespace CacheCPU

namespace Ucore

open LinkedRing LinkCycle

/-- A system call that touches the table, and who makes it. -/
inductive ProcAct (π : Type) where
  | fork (current proc : π)
  | exit (current : π)
  | wait (current : π) (pid : ℤ)

namespace ProcTable

variable {π : Type} [DecidableEq π]

/-! ## The invariant -/

/-- The children of `q` as a list with `q` as its head. There is no pointer to the oldest child. -/
def kidLinks (s : ProcTable π) (q : π) (oldest : Option π) : Links π where
  next o := o.elim (s.cptr q) s.optr
  prev o := o.elim oldest s.yptr

/-- `proc_list` links `xs`, the hash chains `chain` and the children `kids`. The children of `busy`
are linked in one direction only. -/
structure Linked (s : ProcTable π) (xs : List π) (chain : BitVec 10 → List π) (kids : π → List π)
    (busy : Option π) : Prop where
  list : s.procList.IsRing xs
  live : ∀ p, s.alloc p = true ↔ p = s.idleproc ∨ p ∈ xs
  idle : s.idleproc ∉ xs
  hash : ∀ b, s.hashLink.IsCycle (.inl b :: (chain b).map .inr)
  chain : ∀ b p, p ∈ chain b ↔ p ∈ xs ∧ pidHashfn (s.pid p) = b
  nodup : ∀ q, (kids q).Nodup
  next : ∀ q, s.alloc q = true → Follows (s.kidLinks q none).next (kids q)
  siblings : ∀ q, s.alloc q = true → busy ≠ some q →
    (s.kidLinks q (kids q).getLast?).IsRing (kids q)
  kid : ∀ q p, p ∈ kids q ↔ p ∈ xs ∧ s.parent p = some q
  nr : s.nrProcess = xs.length + 1

structure Pids (s : ProcTable π) (xs : List π) : Prop where
  range : ∀ p ∈ xs, 1 ≤ s.pid p ∧ s.pid p < maxPid
  inj : ∀ p ∈ xs, ∀ q ∈ xs, s.pid p = s.pid q → p = q
  safe : ∀ p ∈ xs, ¬ (s.lastPid < s.pid p ∧ s.pid p < s.nextSafe)
  le : s.nextSafe ≤ maxPid

/-- Who has children is not dead. -/
structure Family (s : ProcTable π) (xs : List π) : Prop where
  parent : ∀ p ∈ xs, ∃ q, s.parent p = some q ∧ s.alloc q = true ∧ s.state q ≠ .zombie
  idle : s.state s.idleproc ≠ .zombie
  length : xs.length < maxProcess

variable {s s' : ProcTable π} {xs : List π} {chain : BitVec 10 → List π} {kids : π → List π}
  {busy : Option π} {p q : π}

/-! ## `get_pid` -/

/-- How far `last_pid` is from the free pid `f`, going up and round. -/
def distance (f lastPid : ℕ) : ℕ :=
  if lastPid ≤ f then f - lastPid else f + (maxPid - 1) - lastPid

omit [DecidableEq π] in
/-- The loop ends, and no pid from `last_pid` to `next_safe` is in use. The pids that a pass has seen
are below `last_pid` or not below `next_safe`. -/
theorem getPidFrom_spec (hr : s.procList.IsRing xs) {f : ℕ} (hf : 1 ≤ f ∧ f < maxPid)
    (hfree : ∀ p ∈ xs, s.pid p ≠ f) :
    ∀ (fuel : ℕ) (pre post : List π) (lastPid nextSafe : ℕ), xs = pre ++ post →
      1 ≤ lastPid → lastPid < nextSafe → nextSafe ≤ maxPid →
      (∀ p ∈ pre, s.pid p < lastPid ∨ nextSafe ≤ s.pid p) →
      distance f lastPid * (xs.length + 1) + post.length < fuel →
      ∃ lastPid' nextSafe', s.getPidFrom fuel pre.getLast? lastPid nextSafe
          = some (lastPid', nextSafe') ∧
        1 ≤ lastPid' ∧ lastPid' < nextSafe' ∧ nextSafe' ≤ maxPid ∧
        ∀ p ∈ xs, s.pid p < lastPid' ∨ nextSafe' ≤ s.pid p
  | 0, pre, post, lastPid, nextSafe, _, _, _, _, _, hfuel => absurd hfuel (Nat.not_lt_zero _)
  | fuel + 1, pre, post, lastPid, nextSafe, hxs, h1, hlt, hle, hpre, hfuel => by
    have hnext : s.procList.next pre.getLast? = post.head? := (hxs ▸ hr).next_eq
    rw [getPidFrom, hnext]
    cases post with
    | nil =>
      rw [List.append_nil] at hxs
      exact ⟨lastPid, nextSafe, rfl, h1, hlt, hle, hxs ▸ hpre⟩
    | cons p post =>
      have hp : p ∈ xs := by simp [hxs]
      have hxs' : xs = (pre ++ [p]) ++ post := by simp [hxs]
      have hlast : some p = (pre ++ [p]).getLast? := by simp
      simp only [List.head?_cons]
      rw [List.length_cons] at hfuel
      have hseen : ∀ l n, (∀ r ∈ pre, s.pid r < l ∨ n ≤ s.pid r) → s.pid p < l ∨ n ≤ s.pid p →
          ∀ r ∈ pre ++ [p], s.pid r < l ∨ n ≤ s.pid r := by
        intro l n h h' r hr'
        rcases List.mem_append.1 hr' with hr' | hr'
        · exact h r hr'
        · rw [List.mem_singleton.1 hr']
          exact h'
      by_cases he : s.pid p = lastPid
      · have hne : lastPid ≠ f := he ▸ hfree p hp
        rw [if_pos he]
        by_cases hn : nextSafe ≤ lastPid + 1
        · -- the pass starts again, closer to `f`
          rw [if_pos hn]
          obtain ⟨last', hl, hmax, hone, hd⟩ : ∃ last',
              (if maxPid ≤ lastPid + 1 then 1 else lastPid + 1) = last' ∧ last' < maxPid ∧
                1 ≤ last' ∧ distance f last' + 1 ≤ distance f lastPid := by
            refine ⟨_, rfl, ?_, ?_, ?_⟩
            · split_ifs
              · decide
              · omega
            · split_ifs <;> omega
            · unfold distance
              split_ifs <;> omega
          have hmul := Nat.mul_le_mul_right (xs.length + 1) hd
          rw [Nat.add_mul, Nat.one_mul] at hmul
          rw [hl]
          exact getPidFrom_spec hr hf hfree fuel [] xs last' maxPid rfl hone hmax le_rfl (by simp)
            (by omega)
        · rw [if_neg hn, hlast]
          have hd : distance f (lastPid + 1) ≤ distance f lastPid := by
            unfold distance
            split_ifs <;> omega
          have hmul := Nat.mul_le_mul_right (xs.length + 1) hd
          refine getPidFrom_spec hr hf hfree fuel (pre ++ [p]) post _ _ hxs' (by omega) (by omega) hle
            (hseen _ _ (fun r hr' => ?_) (by omega)) (by omega)
          have := hpre r hr'
          omega
      · rw [if_neg he]
        by_cases hb : lastPid < s.pid p ∧ s.pid p < nextSafe
        · rw [if_pos hb, hlast]
          refine getPidFrom_spec hr hf hfree fuel (pre ++ [p]) post _ _ hxs' h1 hb.1 (by omega)
            (hseen _ _ (fun r hr' => ?_) (by omega)) (by omega)
          have := hpre r hr'
          omega
        · rw [if_neg hb, hlast]
          exact getPidFrom_spec hr hf hfree fuel (pre ++ [p]) post _ _ hxs' h1 hlt hle
            (hseen _ _ hpre (by omega)) (by omega)

omit [DecidableEq π] in
/-- With fewer than `MAX_PROCESS` processes there is a pid none of them has. -/
theorem exists_free (hlen : xs.length < maxProcess) :
    ∃ f, (1 ≤ f ∧ f < maxPid) ∧ ∀ p ∈ xs, s.pid p ≠ f := by
  have hcard : (xs.map s.pid).toFinset.card < (Finset.Ico 1 maxPid).card := by
    calc (xs.map s.pid).toFinset.card ≤ (xs.map s.pid).length := List.toFinset_card_le _
      _ = xs.length := List.length_map _
      _ < (Finset.Ico 1 maxPid).card := by
        rw [Nat.card_Ico]
        unfold maxPid maxProcess at *
        omega
  obtain ⟨f, hf, hn⟩ := Finset.exists_mem_notMem_of_card_lt_card hcard
  refine ⟨f, Finset.mem_Ico.1 hf, fun p hp he => hn ?_⟩
  rw [List.mem_toFinset, List.mem_map]
  exact ⟨p, hp, he⟩

omit [DecidableEq π] in
theorem getPid_spec (hr : s.procList.IsRing xs) (hlen : xs.length < maxProcess)
    (hsafe : ∀ p ∈ xs, ¬ (s.lastPid < s.pid p ∧ s.pid p < s.nextSafe)) (hle : s.nextSafe ≤ maxPid) :
    ∃ lastPid nextSafe, s.getPid = some (lastPid, nextSafe) ∧
      1 ≤ lastPid ∧ lastPid < nextSafe ∧ nextSafe ≤ maxPid ∧
      ∀ p ∈ xs, s.pid p < lastPid ∨ nextSafe ≤ s.pid p := by
  obtain ⟨f, hf, hfree⟩ := exists_free (s := s) hlen
  have hfuel : ∀ l, 1 ≤ l → distance f l * (xs.length + 1) + xs.length < 2 ^ 26 := by
    intro l hl
    have hd : distance f l ≤ maxPid := by
      unfold distance
      split_ifs <;> omega
    have := Nat.mul_le_mul hd (show xs.length + 1 ≤ maxProcess by omega)
    unfold maxPid maxProcess at *
    omega
  unfold getPid
  split_ifs with h1 h2
  · exact getPidFrom_spec hr hf hfree _ [] xs _ _ rfl le_rfl (by decide) le_rfl (by simp)
      (hfuel 1 le_rfl)
  · exact getPidFrom_spec hr hf hfree _ [] xs _ _ rfl (by omega) (by omega) le_rfl (by simp)
      (hfuel _ (by omega))
  · refine ⟨_, _, rfl, by omega, by omega, hle, fun p hp => ?_⟩
    have := hsafe p hp
    omega

/-! ## Lists of children -/

theorem store_apply (f : π → Option π) (o v : Option π) (x : π) :
    store f o v x = if o = some x then v else f x := by
  cases o with
  | none => simp [store]
  | some y => simp [store, Function.update_apply, eq_comm]

variable {ys pre post : List π}

omit [DecidableEq π] in
theorem cptr_eq (h : Follows (s.kidLinks q none).next ys) : s.cptr q = ys.head? := h [] ys rfl

omit [DecidableEq π] in
/-- An empty list. -/
theorem isRing_nil {l : Links π} (hn : l.next none = none) (hp : l.prev none = none) :
    l.IsRing [] := by
  refine ⟨List.nodup_nil, ?_, ?_⟩
  all_goals
    intro a b he
    obtain ⟨rfl, rfl⟩ := List.nil_eq_append_iff.1 he
    assumption

/-- A child is put in front. -/
theorem kidLinks_push (h : (s.kidLinks q ys.getLast?).IsRing ys) (hp : p ∉ ys)
    (hc : s'.cptr q = some p) (hop : s'.optr p = s.cptr q)
    (ho : ∀ x ∈ ys, s'.optr x = s.optr x) (hyp : s'.yptr p = none)
    (hy : ∀ x ∈ ys, s'.yptr x = if s.cptr q = some x then some p else s.yptr x) :
    (s'.kidLinks q (p :: ys).getLast?).IsRing (p :: ys) := by
  have hhead : s.cptr q = ys.head? := cptr_eq h.next
  have hne : ∀ x ∈ ys, some x ≠ some p := fun x hx he => hp (Option.some.inj he ▸ hx)
  refine (h.push hp).congr (fun o hm => ?_) fun o hm => ?_
  · rcases o with _ | x
    · simp [kidLinks, Links.addAfter, Links.addBetween, hc]
    · rcases List.mem_cons.1 (hm x rfl) with rfl | hx
      · simp [kidLinks, Links.addAfter, Links.addBetween, hop]
      · simp [kidLinks, Links.addAfter, Links.addBetween, ho x hx, Function.update_of_ne (hne x hx)]
  · rcases o with _ | x
    · cases ys with
      | nil => simp [kidLinks, Links.addAfter, Links.addBetween, hhead]
      | cons y ys => simp [kidLinks, Links.addAfter, Links.addBetween, hhead]
    · rcases List.mem_cons.1 (hm x rfl) with rfl | hx
      · simp [kidLinks, Links.addAfter, Links.addBetween, hyp]
      · simp only [kidLinks, Links.addAfter, Links.addBetween, Option.elim, hy x hx,
          Function.update_of_ne (hne x hx), Function.update_apply,
          eq_comm]

/-- A child is taken out. -/
theorem kidLinks_remove (h : (s.kidLinks q (pre ++ p :: post).getLast?).IsRing (pre ++ p :: post))
    (hc : s'.cptr q = if s.yptr p = none then s.optr p else s.cptr q)
    (ho : ∀ x ∈ pre ++ post, s'.optr x = if s.yptr p = some x then s.optr p else s.optr x)
    (hy : ∀ x ∈ pre ++ post, s'.yptr x = if s.optr p = some x then s.yptr p else s.yptr x) :
    (s'.kidLinks q (pre ++ post).getLast?).IsRing (pre ++ post) := by
  have hnext : s.optr p = post.head? := h.next_some
  have hprev : s.yptr p = pre.getLast? := h.prev_some
  refine h.del.congr (fun o hm => ?_) fun o hm => ?_
  · rcases o with _ | x
    · simp only [kidLinks, Links.del, Option.elim, hc, Function.update_apply, eq_comm]
    · simp only [kidLinks, Links.del, Option.elim, ho x (hm x rfl), Function.update_apply, eq_comm]
  · rcases o with _ | x
    · simp only [kidLinks, Links.del, Option.elim, Function.update_apply, hnext, hprev]
      cases post with
      | nil => simp
      | cons y post => simp
    · simp only [kidLinks, Links.del, Option.elim, hy x (hm x rfl), Function.update_apply, eq_comm]

/-! ## `do_fork` -/

/-- What `do_fork` leaves. -/
structure Forked (s s' : ProcTable π) (current proc : π) (lastPid nextSafe : ℕ) : Prop where
  alloc : s'.alloc = Function.update s.alloc proc true
  state : s'.state = Function.update s.state proc .runnable
  pid : s'.pid = Function.update s.pid proc lastPid
  parent : s'.parent = Function.update s.parent proc (some current)
  cptr : s'.cptr = Function.update (Function.update s.cptr proc none) current (some proc)
  optr : s'.optr = Function.update s.optr proc (s.cptr current)
  yptr : s'.yptr = store (Function.update s.yptr proc none) (s.cptr current) (some proc)
  procList : s'.procList = s.procList.addAfter none (some proc)
  hashLink : s'.hashLink = s.hashLink.listAdd (.inl (pidHashfn lastPid)) (.inr proc)
  nrProcess : s'.nrProcess = s.nrProcess + 1
  lastPid : s'.lastPid = lastPid
  nextSafe : s'.nextSafe = nextSafe
  idleproc : s'.idleproc = s.idleproc
  initproc : s'.initproc = s.initproc

theorem doFork_forked (hr : s.procList.IsRing xs) (hp : Pids s xs) (hlen : xs.length < maxProcess)
    {current proc : π} (hne : current ≠ proc) (hx : proc ∉ xs) :
    ∃ s' lastPid nextSafe, s.doFork current proc = some s' ∧
      Forked s s' current proc lastPid nextSafe ∧
      1 ≤ lastPid ∧ lastPid < nextSafe ∧ nextSafe ≤ maxPid ∧
      ∀ p ∈ xs, s.pid p < lastPid ∨ nextSafe ≤ s.pid p := by
  have hpid : ∀ p ∈ xs, Function.update s.pid proc 0 p = s.pid p := by
    intro p hm
    have hne : p ≠ proc := fun he => hx (he ▸ hm)
    rw [Function.update_of_ne hne]
  obtain ⟨lastPid, nextSafe, hg, h1, hlt, hle, hfree⟩ :=
    getPid_spec (s := { s.allocProc proc with
      parent := Function.update (s.allocProc proc).parent proc (some current) }) hr hlen
      (fun p hm => by
        simp only [allocProc, hpid p hm]
        exact hp.safe p hm) hp.le
  refine ⟨_, lastPid, nextSafe, by rw [doFork]; simp only [hg]; rfl, ?_, h1, hlt, hle, fun p hm => ?_⟩
  · constructor <;>
      simp [allocProc, hashProc, setLinks, Function.update_of_ne hne]
  · have := hfree p hm
    simpa only [allocProc, hpid p hm] using this

omit [DecidableEq π] in
theorem Linked.notMem (h : Linked s xs chain kids busy) (hp : s.alloc p = false) : p ∉ xs :=
  fun hm => by simp [(h.live p).2 (.inr hm)] at hp

omit [DecidableEq π] in
/-- A process that is not there has no children. -/
theorem Linked.kids_eq_nil (h : Linked s xs chain kids busy) (hf : Family s xs)
    (hp : s.alloc p = false ∨ s.state p = .zombie) : kids p = [] := by
  refine List.eq_nil_iff_forall_not_mem.2 fun x hx => ?_
  obtain ⟨hm, hpar⟩ := (h.kid p x).1 hx
  obtain ⟨q, hq, hlive, hz⟩ := hf.parent x hm
  cases hpar.symm.trans hq
  rcases hp with hp | hp
  · simp [hp] at hlive
  · exact hz hp

omit [DecidableEq π] in
theorem Linked.notMem_kids (h : Linked s xs chain kids busy) (hp : s.alloc p = false) (r : π) :
    p ∉ kids r := fun hm => h.notMem hp ((h.kid r p).1 hm).1

omit [DecidableEq π] in
/-- The first child of a process has no other parent. -/
theorem Linked.cptr_ne (h : Linked s xs chain kids busy) {r x : π} (hq : s.alloc q = true)
    (hx : x ∈ kids r) (hrq : r ≠ q) : s.cptr q ≠ some x := by
  intro he
  rw [cptr_eq (h.next q hq)] at he
  have h1 := ((h.kid q x).1 (List.mem_of_head? he)).2
  have h2 := ((h.kid r x).1 hx).2
  exact hrq (Option.some.inj (h2.symm.trans h1))

section Fork

variable {lastPid nextSafe : ℕ} (h : Linked s xs chain kids none)
  (hF : Forked s s' q p lastPid nextSafe) (hq : s.alloc q = true) (hp : s.alloc p = false)
include h hF hq hp

/-- The children of another process are linked as before. -/
theorem Linked.siblings_fork {r : π} (hr : s.alloc r = true) (hrq : r ≠ q) :
    (s'.kidLinks r (kids r).getLast?).IsRing (kids r) := by
  have hrp : r ≠ p := fun he => by simp [he, hp] at hr
  refine (h.siblings r hr (by simp)).congr (fun o hm => ?_) fun o hm => ?_
  · rcases o with _ | x
    · simp [kidLinks, hF.cptr, hrq, hrp]
    · have hxp : x ≠ p := fun he => h.notMem_kids hp r (he ▸ hm x rfl)
      simp [kidLinks, hF.optr, hxp]
  · rcases o with _ | x
    · rfl
    · have hxp : x ≠ p := fun he => h.notMem_kids hp r (he ▸ hm x rfl)
      simp [kidLinks, hF.yptr, store_apply, h.cptr_ne hq (hm x rfl) hrq, hxp]

/-- The new process is the first child. -/
theorem Linked.kids_fork : (s'.kidLinks q (p :: kids q).getLast?).IsRing (p :: kids q) := by
  have hpk := h.notMem_kids hp q
  have hne : ∀ x ∈ kids q, x ≠ p := fun x hx he => hpk (he ▸ hx)
  have hcp : s.cptr q ≠ some p := by
    rw [cptr_eq (h.next q hq)]
    exact fun he => hpk (List.mem_of_head? he)
  refine kidLinks_push (h.siblings q hq (by simp)) hpk ?_ ?_ (fun x hx => ?_) ?_ fun x hx => ?_
  · simp [hF.cptr]
  · simp [hF.optr]
  · simp [hF.optr, hne x hx]
  · simp [hF.yptr, store_apply, hcp]
  · simp [hF.yptr, store_apply, hne x hx]

theorem Linked.fork (hf : Family s xs) :
    Linked s' (p :: xs)
      (Function.update chain (pidHashfn lastPid) (p :: chain (pidHashfn lastPid)))
      (Function.update kids q (p :: kids q)) none := by
  have hpx := h.notMem hp
  have hkp : kids p = [] := h.kids_eq_nil hf (.inl hp)
  have hpk := h.notMem_kids hp
  have hpc : ∀ b, p ∉ chain b := fun b hm => hpx ((h.chain b p).1 hm).1
  have hself := h.kids_fork hF hq hp
  have hring : ∀ r, s'.alloc r = true →
      (s'.kidLinks r (Function.update kids q (p :: kids q) r).getLast?).IsRing
        (Function.update kids q (p :: kids q) r) := by
    intro r hr
    by_cases hrq : r = q
    · subst hrq
      simpa using hself
    · rw [Function.update_of_ne hrq]
      by_cases hrp : r = p
      · subst hrp
        rw [hkp]
        exact isRing_nil (by simp [kidLinks, hF.cptr, hrq]) rfl
      · refine h.siblings_fork hF hq hp ?_ hrq
        simpa [hF.alloc, hrp] using hr
  refine ⟨?_, ?_, ?_, ?_, ?_, ?_, ?_, ?_, ?_, ?_⟩
  · rw [hF.procList]
    exact h.list.push hpx
  · intro r
    rw [hF.alloc, hF.idleproc, Function.update_apply]
    by_cases hr : r = p
    · simp [hr]
    · simp [hr, h.live r]
  · rw [hF.idleproc, List.mem_cons, not_or]
    refine ⟨fun he => ?_, h.idle⟩
    have := (h.live s.idleproc).2 (.inl rfl)
    rw [he, hp] at this
    exact absurd this (by simp)
  · intro b
    rw [hF.hashLink]
    by_cases hb : b = pidHashfn lastPid
    · subst hb
      rw [Function.update_self, List.map_cons]
      exact (h.hash _).listAdd (by simp [hpc])
    · rw [Function.update_of_ne hb]
      refine (h.hash b).listAdd_other (h.hash (pidHashfn lastPid)) (by simp [hpc]) ?_
      intro x hx hx'
      simp only [List.mem_cons, List.mem_map] at hx hx'
      rcases hx with rfl | ⟨y, hy, rfl⟩
      · simp [Ne.symm hb] at hx'
      · simp only [reduceCtorEq, Sum.inr.injEq, exists_eq_right, false_or] at hx'
        exact hb (((h.chain _ _).1 hx').2.symm.trans ((h.chain _ _).1 hy).2)
  · intro b r
    rw [hF.pid]
    by_cases hr : r = p
    · subst hr
      by_cases hb : b = pidHashfn lastPid
      · subst hb
        simp
      · simp [hb, hpc, Ne.symm hb]
    · by_cases hb : b = pidHashfn lastPid
      · subst hb
        simp [hr, h.chain]
      · simp [hr, hb, h.chain]
  · intro r
    by_cases hr : r = q
    · subst hr
      rw [Function.update_self]
      exact hself.nodup
    · rw [Function.update_of_ne hr]
      exact h.nodup r
  · exact fun r hr => (hring r hr).next
  · exact fun r hr _ => hring r hr
  · intro r x
    rw [hF.parent]
    by_cases hx : x = p
    · subst hx
      by_cases hr : r = q
      · subst hr
        simp
      · simp [hr, hpk, Ne.symm hr]
    · by_cases hr : r = q
      · subst hr
        simp [hx, h.kid]
      · simp [hx, hr, h.kid]
  · rw [hF.nrProcess, h.nr, List.length_cons]

end Fork

/-! ## `do_exit` -/

variable {c i z : π} {zs : List π}

section Adopt

theorem cptr_adopt : (s.adopt c i z).cptr =
    Function.update (Function.update s.cptr c (s.optr z)) i (some z) := rfl

theorem optr_adopt (hci : c ≠ i) : (s.adopt c i z).optr = Function.update s.optr z (s.cptr i) := by
  simp [ProcTable.adopt, Function.update_of_ne hci.symm]

theorem yptr_adopt (hci : c ≠ i) :
    (s.adopt c i z).yptr = store (Function.update s.yptr z none) (s.cptr i) (some z) := by
  simp [ProcTable.adopt, Function.update_of_ne hci.symm]

variable (h : Linked s xs chain kids (some c)) (hz : kids c = z :: zs) (hci : c ≠ i)
  (hi : s.alloc i = true)
include h hz

omit [DecidableEq π] in
theorem Linked.head_notMem {r : π} (hr : r ≠ c) : z ∉ kids r := by
  intro hm
  have hzc := ((h.kid c z).1 (by simp [hz])).2
  exact hr (Option.some.inj (((h.kid r z).1 hm).2.symm.trans hzc))

include hci hi

/-- The children of other processes are linked as before. -/
theorem Linked.siblings_adopt {r : π} (hr : s.alloc r = true) (hrc : r ≠ c) (hri : r ≠ i) :
    ((s.adopt c i z).kidLinks r (kids r).getLast?).IsRing (kids r) := by
  refine (h.siblings r hr (by simp [hrc.symm])).congr (fun o hm => ?_) fun o hm => ?_
  · rcases o with _ | x
    · simp [kidLinks, cptr_adopt, hrc, hri]
    · have hxz : x ≠ z := fun he => h.head_notMem hz hrc (he ▸ hm x rfl)
      simp [kidLinks, optr_adopt hci, hxz]
  · rcases o with _ | x
    · rfl
    · have hxz : x ≠ z := fun he => h.head_notMem hz hrc (he ▸ hm x rfl)
      simp [kidLinks, yptr_adopt hci, store_apply, h.cptr_ne hi (hm x rfl) hri, hxz]

/-- The adopted process is the first child. -/
theorem Linked.kids_adopt :
    ((s.adopt c i z).kidLinks i (z :: kids i).getLast?).IsRing (z :: kids i) := by
  have hzi := h.head_notMem hz hci.symm
  have hne : ∀ x ∈ kids i, x ≠ z := fun x hx he => hzi (he ▸ hx)
  have hcz : s.cptr i ≠ some z := by
    rw [cptr_eq (h.next i hi)]
    exact fun he => hzi (List.mem_of_head? he)
  refine kidLinks_push (h.siblings i hi (by simp [hci])) hzi ?_ ?_ (fun x hx => ?_) ?_ fun x hx => ?_
  · simp [cptr_adopt]
  · simp [optr_adopt hci]
  · simp [optr_adopt hci, hne x hx]
  · simp [yptr_adopt hci, store_apply, hcz]
  · simp [yptr_adopt hci, store_apply, hne x hx]

/-- The first child of `c` goes to `i`. -/
theorem Linked.adopt (hc : s.alloc c = true) :
    Linked (s.adopt c i z) xs chain (Function.update (Function.update kids c zs) i (z :: kids i))
      (some c) := by
  have hzc : z ∈ xs ∧ s.parent z = some c := (h.kid c z).1 (by simp [hz])
  have hnd := h.nodup c
  rw [hz, List.nodup_cons] at hnd
  have hinit := h.kids_adopt hz hci hi
  have hself : Follows ((s.adopt c i z).kidLinks c none).next zs := by
    have h1 := h.next c hc
    rw [hz] at h1
    refine h1.tail ?_ fun x hx => ?_
    · simp [kidLinks, cptr_adopt, hci]
    · have hxz : x ≠ z := fun he => hnd.1 (he ▸ hx)
      simp [kidLinks, optr_adopt hci, hxz]
  have hkids : ∀ r, r ≠ c → r ≠ i →
      Function.update (Function.update kids c zs) i (z :: kids i) r = kids r := by
    intro r hrc hri
    rw [Function.update_of_ne hri, Function.update_of_ne hrc]
  refine ⟨h.list, h.live, h.idle, h.hash, h.chain, fun r => ?_, fun r hr => ?_, fun r hr hb => ?_,
    fun r x => ?_, h.nr⟩
  · by_cases hri : r = i
    · subst hri
      rw [Function.update_self]
      exact hinit.nodup
    · by_cases hrc : r = c
      · subst hrc
        rw [Function.update_of_ne hri, Function.update_self]
        exact hnd.2
      · rw [hkids r hrc hri]
        exact h.nodup r
  · by_cases hri : r = i
    · subst hri
      rw [Function.update_self]
      exact hinit.next
    · by_cases hrc : r = c
      · subst hrc
        rw [Function.update_of_ne hri, Function.update_self]
        exact hself
      · rw [hkids r hrc hri]
        exact (h.siblings_adopt hz hci hi hr hrc hri).next
  · have hrc : r ≠ c := fun he => hb (by rw [he])
    by_cases hri : r = i
    · subst hri
      rw [Function.update_self]
      exact hinit
    · rw [hkids r hrc hri]
      exact h.siblings_adopt hz hci hi hr hrc hri
  · have hpar : (s.adopt c i z).parent x = if x = z then some i else s.parent x :=
      Function.update_apply ..
    rw [hpar]
    by_cases hxz : x = z
    · subst hxz
      by_cases hri : r = i
      · subst hri
        simp [hzc.1]
      · by_cases hrc : r = c
        · subst hrc
          simp [hri, hnd.1, Ne.symm hri]
        · simp [hkids r hrc hri, h.head_notMem hz hrc, Ne.symm hri]
    · rw [if_neg hxz]
      by_cases hri : r = i
      · subst hri
        simp [hxz, h.kid]
      · by_cases hrc : r = c
        · subst hrc
          rw [Function.update_of_ne hri, Function.update_self, ← h.kid, hz]
          simp [hxz]
        · rw [hkids r hrc hri]
          exact h.kid r x

end Adopt

/-- What the loop of `do_exit` leaves as it was, and where the children `zs` have gone. -/
structure Adopted (s s' : ProcTable π) (i : π) (zs : List π) : Prop where
  alloc : s'.alloc = s.alloc
  state : s'.state = s.state
  pid : s'.pid = s.pid
  lastPid : s'.lastPid = s.lastPid
  nextSafe : s'.nextSafe = s.nextSafe
  idleproc : s'.idleproc = s.idleproc
  initproc : s'.initproc = s.initproc
  parent : ∀ x, s'.parent x = if x ∈ zs then some i else s.parent x

theorem Linked.adoptAll (hci : c ≠ i) : ∀ (fuel : ℕ) (s : ProcTable π) (kids : π → List π),
    Linked s xs chain kids (some c) → s.alloc c = true → s.alloc i = true →
    (kids c).length < fuel →
    ∃ s' kids', s.adoptAll c i fuel = some s' ∧ Linked s' xs chain kids' none ∧
      Adopted s s' i (kids c)
  | 0, _, _, _, _, _, hfuel => absurd hfuel (Nat.not_lt_zero _)
  | fuel + 1, s, kids, h, hc, hi, hfuel => by
    have hhead : s.cptr c = (kids c).head? := cptr_eq (h.next c hc)
    rw [ProcTable.adoptAll, hhead]
    cases hz : kids c with
    | nil =>
      refine ⟨s, kids, rfl, ⟨h.list, h.live, h.idle, h.hash, h.chain, h.nodup, h.next,
        fun r hr _ => ?_, h.kid, h.nr⟩, ⟨rfl, rfl, rfl, rfl, rfl, rfl, rfl, by simp⟩⟩
      by_cases hrc : r = c
      · subst hrc
        rw [hz] at hhead ⊢
        exact isRing_nil hhead rfl
      · exact h.siblings r hr (by simp [Ne.symm hrc])
    | cons z zs =>
      obtain ⟨s', kids', he, hl, ha⟩ := Linked.adoptAll hci fuel (s.adopt c i z) _
        (h.adopt hz hci hi hc) hc hi (by
          rw [Function.update_of_ne hci, Function.update_self]
          rw [hz, List.length_cons] at hfuel
          omega)
      refine ⟨s', kids', he, hl, ⟨ha.alloc, ha.state, ha.pid, ha.lastPid, ha.nextSafe, ha.idleproc,
        ha.initproc, fun x => ?_⟩⟩
      have hpar : (s.adopt c i z).parent x = if x = z then some i else s.parent x :=
        Function.update_apply ..
      rw [ha.parent x, hpar, Function.update_of_ne hci, Function.update_self]
      by_cases hxz : x = z
      · simp [hxz]
      · simp [hxz]

/-! ## `do_wait` -/

/-- The head of the chain `b`, or an entry of it. -/
def node (b : BitVec 10) (o : Option π) : BitVec 10 ⊕ π := o.elim (.inl b) .inr

omit [DecidableEq π] in
theorem next_node {l : Nodes (BitVec 10 ⊕ π)} {b : BitVec 10}
    (h : l.IsCycle (.inl b :: (pre ++ post).map .inr)) :
    l.next (node b pre.getLast?) = node b post.head? := by
  have hn := h.next
  rw [List.map_append] at hn
  rcases pre.eq_nil_or_concat' with rfl | ⟨pre, x, rfl⟩
  · cases post with
    | nil => exact hn
    | cons y post => exact hn.1
  · rw [List.getLast?_concat]
    have h1 : LinkCycle.IsCycle l.next ((.inl b :: pre.map .inr) ++ .inr x :: post.map .inr) := by
      simpa using hn
    have h2 := isCycle_rotate.1 h1
    cases post with
    | nil => exact h2.1
    | cons y post => exact h2.1

theorem findProcFrom_spec {b : BitVec 10} (pid : ℕ)
    (h : s.hashLink.IsCycle (.inl b :: ys.map .inr)) :
    ∀ (fuel : ℕ) (pre post : List π), ys = pre ++ post → post.length < fuel →
      ∃ r, s.findProcFrom pid (.inl b) fuel (node b pre.getLast?) = some r ∧
        (∀ p, r = some p → p ∈ ys ∧ s.pid p = pid) ∧ (r = none → ∀ p ∈ post, s.pid p ≠ pid)
  | 0, _, _, _, hfuel => absurd hfuel (Nat.not_lt_zero _)
  | fuel + 1, pre, post, hys, hfuel => by
    have hnext := next_node (hys ▸ h)
    rw [findProcFrom, hnext]
    cases post with
    | nil => exact ⟨none, by simp [node], by simp, by simp⟩
    | cons x post =>
      change ∃ r, (if (Sum.inr x : BitVec 10 ⊕ π) = .inl b then some none
        else if s.pid x = pid then some (some x) else s.findProcFrom pid (.inl b) fuel (.inr x))
          = some r ∧ _
      rw [if_neg (by simp)]
      by_cases hx : s.pid x = pid
      · rw [if_pos hx]
        refine ⟨some x, rfl, ?_, by simp⟩
        rintro p ⟨⟩
        exact ⟨by simp [hys], hx⟩
      · rw [if_neg hx]
        have hlast : (Sum.inr x : BitVec 10 ⊕ π) = node b (pre ++ [x]).getLast? := by
          simp [node]
        rw [hlast]
        rw [List.length_cons] at hfuel
        obtain ⟨r, hr, h1, h2⟩ := findProcFrom_spec pid h fuel (pre ++ [x]) post (by simp [hys])
          (by omega)
        refine ⟨r, hr, h1, fun hn p hp => ?_⟩
        rcases List.mem_cons.1 hp with rfl | hp
        · exact hx
        · exact h2 hn p hp

omit [DecidableEq π] in
theorem Linked.chain_length (h : Linked s xs chain kids busy) (b : BitVec 10) :
    (chain b).length ≤ xs.length := by
  have hnd : (chain b).Nodup := by
    have := (List.nodup_cons.1 (h.hash b).nodup).2
    exact this.of_map _
  exact (hnd.subperm fun p hp => ((h.chain b p).1 hp).1).length_le

omit [DecidableEq π] in
theorem Linked.kids_length (h : Linked s xs chain kids busy) (q : π) :
    (kids q).length ≤ xs.length :=
  ((h.nodup q).subperm fun p hp => ((h.kid q p).1 hp).1).length_le

/-- `find_proc` finds the process that has the pid. -/
theorem Linked.findProc (h : Linked s xs chain kids busy) (hlen : xs.length < maxProcess)
    (pid : ℤ) :
    ∃ r, s.findProc pid = some r ∧ (∀ p, r = some p → p ∈ xs ∧ s.pid p = pid) ∧
      (r = none → 0 < pid → pid < maxPid → ∀ p ∈ xs, (s.pid p : ℤ) ≠ pid) := by
  unfold ProcTable.findProc
  by_cases hp : 0 < pid ∧ pid < maxPid
  · rw [if_pos hp]
    have hc := h.chain_length (pidHashfn pid.toNat)
    obtain ⟨r, hr, h1, h2⟩ := findProcFrom_spec pid.toNat (h.hash (pidHashfn pid.toNat)) (2 ^ 13) []
      _ rfl (by unfold maxProcess at hlen; omega)
    refine ⟨r, hr, fun p hrp => ?_, fun hn _ _ p hm he => ?_⟩
    · obtain ⟨hm, he⟩ := h1 p hrp
      exact ⟨((h.chain _ _).1 hm).1, by omega⟩
    · have he' : s.pid p = pid.toNat := by omega
      exact h2 hn p ((h.chain _ _).2 ⟨hm, by rw [he']⟩) he'
  · rw [if_neg hp]
    exact ⟨none, rfl, by simp, fun _ h1 h2 => absurd ⟨h1, h2⟩ hp⟩

omit [DecidableEq π] in
theorem zombieFrom_spec (h : Follows (s.kidLinks q none).next ys) :
    ∀ (fuel : ℕ) (pre post : List π), ys = pre ++ post → post.length < fuel →
      ∃ r, s.zombieFrom fuel post.head? = some r ∧ ∀ p, r = some p → p ∈ ys ∧ s.state p = .zombie
  | 0, _, _, _, hfuel => absurd hfuel (Nat.not_lt_zero _)
  | fuel + 1, pre, [], _, _ => ⟨none, rfl, by simp⟩
  | fuel + 1, pre, x :: post, hys, hfuel => by
    rw [List.head?_cons, zombieFrom]
    by_cases hx : s.state x = .zombie
    · rw [if_pos hx]
      refine ⟨some x, rfl, ?_⟩
      rintro p ⟨⟩
      exact ⟨by simp [hys], hx⟩
    · have hys' : ys = (pre ++ [x]) ++ post := by simp [hys]
      have hnext : s.optr x = post.head? := by
        have := h (pre ++ [x]) post hys'
        rwa [List.getLast?_concat] at this
      rw [if_neg hx, hnext]
      rw [List.length_cons] at hfuel
      exact zombieFrom_spec h fuel (pre ++ [x]) post hys' (by omega)

/-- What `do_wait` finds is a dead child of the caller. -/
theorem Linked.waitFor (h : Linked s xs chain kids busy) (hlen : xs.length < maxProcess)
    (hc : s.alloc c = true) (pid : ℤ) :
    ∃ r, s.waitFor c pid = some r ∧
      ∀ p, r = some p → p ∈ xs ∧ s.parent p = some c ∧ s.state p = .zombie := by
  unfold ProcTable.waitFor
  by_cases hp : pid ≠ 0
  · rw [if_pos hp]
    obtain ⟨r, hr, h1, -⟩ := h.findProc hlen pid
    refine ⟨_, by rw [hr]; rfl, fun p he => ?_⟩
    obtain ⟨he, hpz⟩ := Option.filter_eq_some_iff.1 he
    exact ⟨(h1 p he).1, by simpa using hpz⟩
  · rw [if_neg hp, cptr_eq (h.next c hc)]
    have hk := h.kids_length c
    obtain ⟨r, hr, h1⟩ := zombieFrom_spec (h.next c hc) (2 ^ 13) [] _ rfl
      (by unfold maxProcess at hlen; omega)
    refine ⟨r, hr, fun p he => ?_⟩
    obtain ⟨hm, hz⟩ := h1 p he
    exact ⟨((h.kid c p).1 hm).1, ((h.kid c p).1 hm).2, hz⟩

/-- What reaping the child `p` of `q` leaves. -/
structure Reaped (s s' : ProcTable π) (p q : π) : Prop where
  alloc : s'.alloc = Function.update s.alloc p false
  state : s'.state = s.state
  pid : s'.pid = s.pid
  parent : s'.parent = s.parent
  cptr : ∀ r, s'.cptr r = if s.yptr p = none ∧ r = q then s.optr p else s.cptr r
  optr : ∀ x, s'.optr x = if s.yptr p = some x then s.optr p else s.optr x
  yptr : ∀ x, s'.yptr x = if s.optr p = some x then s.yptr p else s.yptr x
  procList : s'.procList = s.procList.del (some p)
  hashLink : s'.hashLink = s.hashLink.listDel (.inr p)
  nrProcess : s'.nrProcess = s.nrProcess - 1
  lastPid : s'.lastPid = s.lastPid
  nextSafe : s'.nextSafe = s.nextSafe
  idleproc : s'.idleproc = s.idleproc
  initproc : s'.initproc = s.initproc

theorem reap_reaped (hp : s.parent p = some q) (ho : s.optr p ≠ some p)
    (hidle : p ≠ s.idleproc) (hinit : s.initproc ≠ some p) :
    ∃ s', s.reap p = some s' ∧ Reaped s s' p q := by
  have hy : store s.yptr (s.optr p) (s.yptr p) p = s.yptr p := by
    rw [store_apply, if_neg ho]
  rw [reap, if_neg (by tauto), removeLinks]
  simp only [unhashProc, hy]
  cases hyp : s.yptr p with
  | some y =>
    refine ⟨_, rfl, ?_⟩
    constructor <;> simp [store_apply, hyp, Function.update_apply, eq_comm]
  | none =>
    simp only [hp]
    refine ⟨_, rfl, ?_⟩
    constructor <;> simp [store_apply, hyp, Function.update_apply]

/-- The children of the parent are linked without the one that is reaped, those of the others as
before. -/
theorem Linked.siblings_reap (h : Linked s xs chain kids none) (hR : Reaped s s' p q)
    (hql : s.alloc q = true) {k₁ k₂ : List π} (hkq : kids q = k₁ ++ p :: k₂) {r : π}
    (hr : s'.alloc r = true) :
    (s'.kidLinks r (Function.update kids q (k₁ ++ k₂) r).getLast?).IsRing
      (Function.update kids q (k₁ ++ k₂) r) := by
  have hring := h.siblings q hql (by simp)
  rw [hkq] at hring
  by_cases hrq : r = q
  · subst hrq
    rw [Function.update_self]
    refine kidLinks_remove hring ?_ (fun x _ => hR.optr x) fun x _ => hR.yptr x
    simp [hR.cptr]
  · -- the neighbours of `p` are children of `q`
    have holder : ∀ x, s.optr p = some x → x ∈ kids q := fun x hx => by
      have := List.mem_of_head? (hring.next_some.symm.trans hx)
      simp [hkq, this]
    have hyounger : ∀ x, s.yptr p = some x → x ∈ kids q := fun x hx => by
      have := List.mem_of_getLast? (hring.prev_some.symm.trans hx)
      simp [hkq, this]
    rw [Function.update_of_ne hrq]
    have hr' : s.alloc r = true := by
      rw [hR.alloc, Function.update_apply] at hr
      split_ifs at hr
      exact hr
    have hnot : ∀ x ∈ kids r, x ∉ kids q := by
      intro x hx hx'
      exact hrq (Option.some.inj (((h.kid r x).1 hx).2.symm.trans ((h.kid q x).1 hx').2))
    refine (h.siblings r hr' (by simp)).congr (fun o hm => ?_) fun o hm => ?_
    · rcases o with _ | x
      · simp [kidLinks, hR.cptr, hrq]
      · have : s.yptr p ≠ some x := fun he => hnot x (hm x rfl) (hyounger x he)
        simp [kidLinks, hR.optr, this]
    · rcases o with _ | x
      · rfl
      · have : s.optr p ≠ some x := fun he => hnot x (hm x rfl) (holder x he)
        simp [kidLinks, hR.yptr, this]

omit [DecidableEq π] in
theorem mem_append_iff_ne {l₁ l₂ : List π} (hn : (l₁ ++ p :: l₂).Nodup) (x : π) :
    x ∈ l₁ ++ l₂ ↔ x ∈ l₁ ++ p :: l₂ ∧ x ≠ p := by
  rw [List.nodup_middle, List.nodup_cons] at hn
  constructor
  · intro hx
    exact ⟨by simp at hx ⊢; tauto, fun he => hn.1 (he ▸ hx)⟩
  · rintro ⟨hx, hne⟩
    simp at hx ⊢
    tauto

theorem Linked.reap (h : Linked s xs chain kids none) (hR : Reaped s s' p q) (hp : p ∈ xs)
    (hq : s.parent p = some q) (hql : s.alloc q = true) :
    ∃ xs' chain' kids', Linked s' xs' chain' kids' none ∧ (∀ x, x ∈ xs' ↔ x ∈ xs ∧ x ≠ p) ∧
      xs'.length + 1 = xs.length := by
  obtain ⟨a, b, hxs⟩ := List.append_of_mem hp
  obtain ⟨c₁, c₂, hch⟩ := List.append_of_mem ((h.chain (pidHashfn (s.pid p)) p).2 ⟨hp, rfl⟩)
  obtain ⟨k₁, k₂, hkq⟩ := List.append_of_mem ((h.kid q p).2 ⟨hp, hq⟩)
  have hmem : ∀ x, x ∈ a ++ b ↔ x ∈ xs ∧ x ≠ p := by
    have hn := h.list.nodup
    rw [hxs] at hn ⊢
    exact mem_append_iff_ne hn
  have hkmem : ∀ x, x ∈ k₁ ++ k₂ ↔ x ∈ kids q ∧ x ≠ p := by
    have hn := h.nodup q
    rw [hkq] at hn ⊢
    exact mem_append_iff_ne hn
  have hcmem : ∀ x, x ∈ c₁ ++ c₂ ↔ x ∈ chain (pidHashfn (s.pid p)) ∧ x ≠ p := by
    have hn := ((List.nodup_cons.1 (h.hash (pidHashfn (s.pid p))).nodup).2).of_map _
    rw [hch] at hn ⊢
    exact mem_append_iff_ne hn
  have hsibs := fun r (hr : s'.alloc r = true) => h.siblings_reap hR hql hkq hr
  refine ⟨a ++ b, Function.update chain (pidHashfn (s.pid p)) (c₁ ++ c₂),
    Function.update kids q (k₁ ++ k₂), ⟨?_, ?_, ?_, ?_, ?_, ?_, ?_, ?_, ?_, ?_⟩, hmem, ?_⟩
  · have hl := h.list
    rw [hxs] at hl
    rw [hR.procList]
    exact hl.del
  · intro r
    rw [hR.alloc, hR.idleproc, hmem, Function.update_apply]
    by_cases hr : r = p
    · subst hr
      simp only [if_true, Bool.false_eq_true, ne_eq, not_true_eq_false, and_false, or_false, false_iff]
      exact fun he => h.idle (he ▸ hp)
    · simp [hr, h.live r]
  · rw [hR.idleproc, hmem]
    exact fun hm => h.idle hm.1
  · intro b'
    rw [hR.hashLink]
    have hcyc := h.hash (pidHashfn (s.pid p))
    rw [hch, List.map_append, List.map_cons] at hcyc
    by_cases hb : b' = pidHashfn (s.pid p)
    · subst hb
      rw [Function.update_self, List.map_append]
      exact hcyc.listDel
    · rw [Function.update_of_ne hb]
      refine (h.hash b').listDel_other hcyc (by simp) fun x hx hx' => ?_
      rw [← List.map_cons, ← List.map_append, ← hch] at hx
      simp only [List.mem_cons, List.mem_map] at hx hx'
      rcases hx with rfl | ⟨y, hy, rfl⟩
      · simp [Ne.symm hb] at hx'
      · simp only [reduceCtorEq, Sum.inr.injEq, exists_eq_right, false_or] at hx'
        exact hb (((h.chain _ _).1 hx').2.symm.trans ((h.chain _ _).1 hy).2)
  · intro b' r
    rw [hR.pid, hmem]
    by_cases hb : b' = pidHashfn (s.pid p)
    · subst hb
      rw [Function.update_self, hcmem, h.chain]
      tauto
    · rw [Function.update_of_ne hb, h.chain]
      constructor
      · rintro ⟨hr, he⟩
        exact ⟨⟨hr, fun hrp => hb (by rw [← he, hrp])⟩, he⟩
      · rintro ⟨⟨hr, -⟩, he⟩
        exact ⟨hr, he⟩
  · intro r
    by_cases hr : r = q
    · subst hr
      rw [Function.update_self]
      have hn := h.nodup r
      rw [hkq] at hn
      exact hn.sublist (by simp)
    · rw [Function.update_of_ne hr]
      exact h.nodup r
  · exact fun r hr => (hsibs r hr).next
  · exact fun r hr _ => hsibs r hr
  · intro r x
    rw [hR.parent, hmem]
    by_cases hr : r = q
    · subst hr
      rw [Function.update_self, hkmem, h.kid]
      tauto
    · rw [Function.update_of_ne hr, h.kid]
      constructor
      · rintro ⟨hx, he⟩
        exact ⟨⟨hx, fun hxp => hr (Option.some.inj (by rw [← he, hxp, hq]))⟩, he⟩
      · rintro ⟨⟨hx, -⟩, he⟩
        exact ⟨hx, he⟩
  · rw [hR.nrProcess, h.nr, hxs]
    simp
    omega
  · rw [hxs]
    simp
    omega

/-! ## Every run -/

def step (s : ProcTable π) : ProcAct π → Option (ProcTable π)
  | .fork current proc => s.doFork current proc
  | .exit current => s.doExit current
  | .wait current pid => s.doWait current pid

/-- A call is made by a process that runs. `do_fork` goes through if there are not too many
processes, with an address that `kmalloc` has not handed out; `idleproc` and `initproc` do not
exit. -/
def Allows (s : ProcTable π) : ProcAct π → Prop
  | .fork current proc => s.alloc current = true ∧ s.state current ≠ .zombie ∧
      s.alloc proc = false ∧ s.nrProcess < maxProcess
  | .exit current => s.alloc current = true ∧ s.state current ≠ .zombie ∧
      current ≠ s.idleproc ∧ s.initproc ≠ some current
  | .wait current _ => s.alloc current = true ∧ s.state current ≠ .zombie

/-- In `proc_init`, before the first `kernel_thread`. -/
structure Boot (s : ProcTable π) : Prop where
  alloc : ∀ p, s.alloc p = true ↔ p = s.idleproc
  state : s.state s.idleproc = .runnable
  cptr : s.cptr s.idleproc = none
  procList : s.procList.next none = none ∧ s.procList.prev none = none
  hashLink : ∀ b, s.hashLink.next (.inl b) = .inl b ∧ s.hashLink.prev (.inl b) = .inl b
  nrProcess : s.nrProcess = 1
  nextSafe : s.nextSafe = maxPid
  lastPid : s.lastPid = maxPid

inductive Reachable : ProcTable π → Prop
  | boot {s s' : ProcTable π} {p : π} : Boot s → s.alloc p = false → s.procInit p = some s' →
      Reachable s'
  | step {s s' : ProcTable π} (a : ProcAct π) : Reachable s → s.Allows a → s.step a = some s' →
      Reachable s'

/-- The table without `initproc`. -/
def Good (s : ProcTable π) (xs : List π) : Prop :=
  ∃ chain kids, Linked s xs chain kids none ∧ Pids s xs ∧ Family s xs

def HasInit (s : ProcTable π) (xs : List π) : Prop :=
  ∃ i ∈ xs, s.initproc = some i ∧ s.state i ≠ .zombie

omit [DecidableEq π] in
theorem Boot.good (h : Boot s) : s.Good [] := by
  refine ⟨fun _ => [], fun _ => [], ⟨?_, ?_, ?_, ?_, ?_, ?_, ?_, ?_, ?_, ?_⟩, ⟨?_, ?_, ?_, ?_⟩,
    ⟨?_, ?_, ?_⟩⟩
  · exact isRing_nil h.procList.1 h.procList.2
  · simp [h.alloc]
  · simp
  · exact fun b => ⟨by simp, (h.hashLink b).1, (h.hashLink b).2⟩
  · simp
  · simp
  · intro q hq
    have hqi := (h.alloc q).1 hq
    subst hqi
    exact (isRing_nil (l := s.kidLinks s.idleproc none) h.cptr rfl).next
  · intro q hq _
    have hqi := (h.alloc q).1 hq
    subst hqi
    exact isRing_nil h.cptr rfl
  · simp
  · simp [h.nrProcess]
  · simp
  · simp
  · simp
  · exact h.nextSafe.le
  · simp
  · simp [h.state]
  · exact Nat.zero_lt_succ _

theorem Good.fork (h : Good s xs) (hq : s.alloc q = true) (hz : s.state q ≠ .zombie)
    (hp : s.alloc p = false) (hnr : s.nrProcess < maxProcess) :
    ∃ s', s.doFork q p = some s' ∧ Good s' (p :: xs) ∧ s'.initproc = s.initproc ∧
      ∀ x, s'.state x = if x = p then .runnable else s.state x := by
  obtain ⟨chain, kids, hl, hpid, hf⟩ := h
  have hpx := hl.notMem hp
  have hqp : q ≠ p := fun he => by simp [he, hp] at hq
  obtain ⟨s', lastPid, nextSafe, hs', hF, h1, hlt, hle, hfree⟩ :=
    doFork_forked hl.list hpid hf.length hqp hpx
  have hne : ∀ x ∈ xs, x ≠ p := fun x hx he => hpx (he ▸ hx)
  have hold : ∀ x ∈ xs, s'.pid x = s.pid x := fun x hx => by simp [hF.pid, hne x hx]
  have hnew : s'.pid p = lastPid := by simp [hF.pid]
  have hstate : ∀ r, r ≠ p → s'.state r = s.state r := fun r hr => by simp [hF.state, hr]
  refine ⟨s', hs', ⟨_, _, hl.fork hF hq hp hf, ?_, ?_⟩, hF.initproc,
    fun x => by rw [hF.state, Function.update_apply]⟩
  · refine ⟨fun x hx => ?_, fun x hx y hy he => ?_, fun x hx => ?_, ?_⟩
    · rcases List.mem_cons.1 hx with rfl | hx
      · rw [hnew]
        omega
      · rw [hold x hx]
        exact hpid.range x hx
    · -- the new pid is not one of the old ones
      rcases List.mem_cons.1 hx with hxp | hx'
      · rcases List.mem_cons.1 hy with hyp | hy'
        · rw [hxp, hyp]
        · rw [hxp, hnew, hold y hy'] at he
          have := hfree y hy'
          omega
      · rcases List.mem_cons.1 hy with hyp | hy'
        · rw [hyp, hnew, hold x hx'] at he
          have := hfree x hx'
          omega
        · rw [hold x hx', hold y hy'] at he
          exact hpid.inj x hx' y hy' he
    · rw [hF.lastPid, hF.nextSafe]
      rcases List.mem_cons.1 hx with rfl | hx
      · omega
      · have := hfree x hx
        rw [hold x hx]
        omega
    · rw [hF.nextSafe]
      exact hle
  · refine ⟨fun x hx => ?_, ?_, ?_⟩
    · rcases List.mem_cons.1 hx with rfl | hx
      · exact ⟨q, by simp [hF.parent], by simp [hF.alloc, hqp, hq], by rwa [hstate q hqp]⟩
      · obtain ⟨r, hr, hlive, hrz⟩ := hf.parent x hx
        have hrp : r ≠ p := fun he => by simp [he, hp] at hlive
        exact ⟨r, by simp [hF.parent, hne x hx, hr], by simp [hF.alloc, hrp, hlive],
          by rwa [hstate r hrp]⟩
    · have hip : s.idleproc ≠ p := by
        intro he
        have := (hl.live s.idleproc).2 (.inl rfl)
        simp [he, hp] at this
      rw [hF.idleproc, hstate _ hip]
      exact hf.idle
    · rw [hl.nr] at hnr
      rw [List.length_cons]
      exact hnr

theorem Boot.procInit (h : Boot s) (hp : s.alloc p = false) :
    ∃ s' xs, s.procInit p = some s' ∧ Good s' xs ∧ HasInit s' xs := by
  have hnr : s.nrProcess < maxProcess := by
    rw [h.nrProcess]
    decide
  obtain ⟨s₁, hs₁, hg, -, hst⟩ := h.good.fork ((h.alloc s.idleproc).2 rfl) (by simp [h.state]) hp hnr
  obtain ⟨chain, kids, hl, hpid, hf⟩ := hg
  obtain ⟨r, hr, h1, h2⟩ := hl.findProc hf.length (s₁.pid p)
  have hrange := hpid.range p (by simp)
  have hrp : r = some p := by
    cases r with
    | none => exact absurd rfl (h2 rfl (by omega) (by omega) p (by simp))
    | some r =>
      obtain ⟨hm, he⟩ := h1 r rfl
      rw [hpid.inj r hm p (by simp) (by omega)]
  refine ⟨{ s₁ with initproc := some p }, [p], ?_, ⟨chain, kids, ?_, ?_, ?_⟩, p, by simp, rfl, ?_⟩
  · rw [ProcTable.procInit, hs₁, Option.bind_some, hr, hrp]
    rfl
  · exact ⟨hl.list, hl.live, hl.idle, hl.hash, hl.chain, hl.nodup, hl.next, hl.siblings, hl.kid, hl.nr⟩
  · exact ⟨hpid.range, hpid.inj, hpid.safe, hpid.le⟩
  · exact ⟨hf.parent, hf.idle, hf.length⟩
  · simp [hst]

theorem Good.exit (h : Good s xs) (hi : HasInit s xs) (hq : s.alloc q = true)
    (hidle : q ≠ s.idleproc) (hinit : s.initproc ≠ some q) :
    ∃ s', s.doExit q = some s' ∧ Good s' xs ∧ HasInit s' xs ∧ s'.initproc = s.initproc ∧
      ∀ p, s'.parent p = if p ∈ xs ∧ s.parent p = some q then s.initproc else s.parent p := by
  obtain ⟨chain, kids, hl, hpid, hf⟩ := h
  obtain ⟨i, hix, hie, hiz⟩ := hi
  have hqi : q ≠ i := fun he => hinit (by rw [hie, he])
  have hil : s.alloc i = true := (hl.live i).2 (.inr hix)
  have hl' : Linked { s with state := Function.update s.state q .zombie } xs chain kids (some q) :=
    ⟨hl.list, hl.live, hl.idle, hl.hash, hl.chain, hl.nodup, hl.next,
      fun r hr _ => hl.siblings r hr (by simp), hl.kid, hl.nr⟩
  have hk := hl.kids_length q
  have hlen := hf.length
  obtain ⟨s', kids', hs', hL, hA⟩ := Linked.adoptAll hqi (2 ^ 13) _ kids hl' hq hil
    (by unfold maxProcess at hlen; omega)
  have hstate : ∀ r, r ≠ q → s'.state r = s.state r := fun r hr => by
    rw [hA.state]
    exact Function.update_of_ne hr ..
  have hxq : s.idleproc ∉ kids q := fun hm => hl.idle ((hl.kid q _).1 hm).1
  refine ⟨s', ?_, ⟨chain, kids', hL, ⟨?_, ?_, ?_, ?_⟩, ⟨fun x hx => ?_, ?_, hlen⟩⟩, ⟨i, hix, ?_, ?_⟩,
    hA.initproc, fun x => ?_⟩
  · rw [doExit, if_neg (by tauto)]
    exact Option.bind_eq_some_iff.2 ⟨i, hie, hs'⟩
  · rw [hA.pid]
    exact hpid.range
  · rw [hA.pid]
    exact hpid.inj
  · rw [hA.pid, hA.lastPid, hA.nextSafe]
    exact hpid.safe
  · rw [hA.nextSafe]
    exact hpid.le
  · rw [hA.parent, hA.alloc]
    by_cases hm : x ∈ kids q
    · rw [if_pos hm]
      exact ⟨i, rfl, hil, by rw [hstate i hqi.symm]; exact hiz⟩
    · obtain ⟨r, hr, hlive, hz⟩ := hf.parent x hx
      have hrq : r ≠ q := fun he => hm ((hl.kid q x).2 ⟨hx, he ▸ hr⟩)
      rw [if_neg hm]
      exact ⟨r, hr, hlive, by rw [hstate r hrq]; exact hz⟩
  · rw [hA.idleproc]
    change s'.state s.idleproc ≠ _
    rw [hstate _ hidle.symm]
    exact hf.idle
  · rw [hA.initproc]
    exact hie
  · rw [hstate i hqi.symm]
    exact hiz
  · rw [hA.parent]
    simp only [hl.kid, hie]

theorem Good.wait (h : Good s xs) (hi : HasInit s xs) (hq : s.alloc q = true) (pid : ℤ) :
    ∃ s' xs', s.doWait q pid = some s' ∧ Good s' xs' ∧ HasInit s' xs' := by
  obtain ⟨chain, kids, hl, hpid, hf⟩ := h
  obtain ⟨r, hr, hchild⟩ := hl.waitFor hf.length hq pid
  rw [doWait, hr, Option.bind_some]
  cases r with
  | none => exact ⟨s, xs, rfl, ⟨chain, kids, hl, hpid, hf⟩, hi⟩
  | some p =>
    obtain ⟨hp, hpar, hz⟩ := hchild p rfl
    obtain ⟨i, hix, hie, hiz⟩ := hi
    have hidle : p ≠ s.idleproc := fun he => hl.idle (he ▸ hp)
    have hinit : s.initproc ≠ some p := by
      rw [hie]
      rintro ⟨⟩
      exact hiz hz
    have ho : s.optr p ≠ some p := by
      -- no child is its own neighbour
      obtain ⟨k₁, k₂, hk⟩ := List.append_of_mem ((hl.kid q p).2 ⟨hp, hpar⟩)
      have hring := hl.siblings q hq (by simp)
      rw [hk] at hring
      have hnext : s.optr p = k₂.head? := hring.next_some
      have hnd := (List.nodup_cons.1 (List.nodup_append.1 hring.nodup).2.1).1
      rw [hnext]
      exact fun he => hnd (List.mem_of_head? he)
    obtain ⟨s', hs', hR⟩ := reap_reaped hpar ho hidle hinit
    obtain ⟨xs', chain', kids', hL, hmem, hlen⟩ := hl.reap hR hp hpar hq
    have hsub : ∀ x ∈ xs', x ∈ xs := fun x hx => ((hmem x).1 hx).1
    have hip : i ≠ p := fun he => hiz (he ▸ hz)
    refine ⟨s', xs', hs', ⟨chain', kids', hL, ⟨?_, ?_, ?_, ?_⟩, ⟨fun x hx => ?_, ?_, ?_⟩⟩,
      i, (hmem i).2 ⟨hix, hip⟩, ?_, ?_⟩
    · rw [hR.pid]
      exact fun x hx => hpid.range x (hsub x hx)
    · rw [hR.pid]
      exact fun x hx y hy => hpid.inj x (hsub x hx) y (hsub y hy)
    · rw [hR.pid, hR.lastPid, hR.nextSafe]
      exact fun x hx => hpid.safe x (hsub x hx)
    · rw [hR.nextSafe]
      exact hpid.le
    · obtain ⟨r, hr, hlive, hrz⟩ := hf.parent x (hsub x hx)
      have hrp : r ≠ p := fun he => hrz (he ▸ hz)
      exact ⟨r, by rw [hR.parent, hr], by simp [hR.alloc, hrp, hlive], by rwa [hR.state]⟩
    · rw [hR.state, hR.idleproc]
      exact hf.idle
    · have := hf.length
      omega
    · rw [hR.initproc, hie]
    · rwa [hR.state]

theorem Good.step {a : ProcAct π} (h : Good s xs) (hi : HasInit s xs) (ha : s.Allows a) :
    ∃ s' xs', s.step a = some s' ∧ Good s' xs' ∧ HasInit s' xs' := by
  cases a with
  | fork q p =>
    obtain ⟨hq, hz, hp, hnr⟩ := ha
    obtain ⟨s', hs', hg, hie, hst⟩ := h.fork hq hz hp hnr
    obtain ⟨i, hix, hi1, hi2⟩ := hi
    refine ⟨s', p :: xs, hs', hg, i, by simp [hix], hie.trans hi1, ?_⟩
    rw [hst]
    split_ifs
    · simp
    · exact hi2
  | exit q =>
    obtain ⟨hq, -, hidle, hinit⟩ := ha
    obtain ⟨s', hs', hg, hi', -⟩ := h.exit hi hq hidle hinit
    exact ⟨s', xs, hs', hg, hi'⟩
  | wait q pid => exact h.wait hi ha.1 pid

theorem Reachable.good (h : Reachable s) : ∃ xs, Good s xs ∧ HasInit s xs := by
  induction h with
  | boot hb hp hs =>
    obtain ⟨s', xs, hs', hg, hi⟩ := hb.procInit hp
    cases hs.symm.trans hs'
    exact ⟨xs, hg, hi⟩
  | step a _ ha hs ih =>
    obtain ⟨xs, hg, hi⟩ := ih
    obtain ⟨s', xs', hs', hg', hi'⟩ := hg.step hi ha
    cases hs.symm.trans hs'
    exact ⟨xs', hg', hi'⟩

/-- In every reachable state: each process but `idleproc` is once in `proc_list`, in the hash chain
of its pid and among the children of its parent, who is there; `nr_process` counts them and
`idleproc`; the pids are different and in range; every call goes through, `get_pid` included; and a
process that exits leaves its children to `initproc`. -/
theorem process_tree (h : Reachable s) :
    (∃ xs chain kids, Linked s xs chain kids none ∧
      (∀ p ∈ xs, ∃ q, s.parent p = some q ∧ s.alloc q = true) ∧
      (∀ p ∈ xs, 1 ≤ s.pid p ∧ s.pid p < maxPid) ∧
      ∀ p ∈ xs, ∀ q ∈ xs, s.pid p = s.pid q → p = q) ∧
    (∀ a, s.Allows a → (s.step a).isSome) ∧
    ∀ q s', s.Allows (.exit q) → s.step (.exit q) = some s' → ∀ p,
      (s.alloc p = true → p ≠ s.idleproc → s.parent p = some q → s'.parent p = s.initproc) ∧
      (s.parent p ≠ some q → s'.parent p = s.parent p) := by
  obtain ⟨xs, hg, hi⟩ := h.good
  refine ⟨?_, fun a ha => ?_, fun q s' ha hs' p => ?_⟩
  · obtain ⟨chain, kids, hl, hpid, hf⟩ := hg
    refine ⟨xs, chain, kids, hl, fun p hp => ?_, hpid.range, hpid.inj⟩
    obtain ⟨q, hq, hlive, -⟩ := hf.parent p hp
    exact ⟨q, hq, hlive⟩
  · obtain ⟨s', xs', hs', -⟩ := hg.step hi ha
    rw [hs']
    rfl
  · obtain ⟨s'', hs'', -, -, -, hpar⟩ := hg.exit hi ha.1 ha.2.2.1 ha.2.2.2
    cases hs'.symm.trans hs''
    obtain ⟨chain, kids, hl, -, -⟩ := hg
    rw [hpar]
    constructor
    · intro hp hne hq
      have hm : p ∈ xs := ((hl.live p).1 hp).resolve_left hne
      rw [if_pos ⟨hm, hq⟩]
    · intro hq
      rw [if_neg fun hc => hq hc.2]

/-- The table with `idleproc` alone, at the first of four addresses. -/
def idleTable : ProcTable (Fin 4) where
  alloc p := p == 0
  state _ := .runnable
  pid _ := 0
  parent _ := none
  cptr _ := none
  optr _ := none
  yptr _ := none
  procList := ⟨fun _ => none, fun _ => none⟩
  hashLink := ⟨id, id⟩
  nrProcess := 1
  nextSafe := maxPid
  lastPid := maxPid
  idleproc := 0
  initproc := none

/-- With `initproc`. -/
def initTable : ProcTable (Fin 4) := (idleTable.procInit 1).get (by decide +kernel)

/-- With a child of `initproc`. -/
def childTable : ProcTable (Fin 4) := (initTable.step (.fork 1 2)).get (by decide +kernel)

/-- With a child of that child. -/
def grandchildTable : ProcTable (Fin 4) := (childTable.step (.fork 2 3)).get (by decide +kernel)

/-- The process in between exits, and `initproc` gets its child. -/
theorem process_tree_exit : ∃ s', grandchildTable.step (.exit 2) = some s' ∧
    grandchildTable.parent 3 = some 2 ∧ s'.parent 3 = some 1 := by
  have hboot : Boot idleTable :=
    ⟨by decide, rfl, rfl, ⟨rfl, rfl⟩, fun _ => ⟨rfl, rfl⟩, rfl, rfl, rfl⟩
  have h1 : Reachable initTable := .boot hboot (p := 1) (by decide) (Option.some_get _).symm
  have h2 : Reachable childTable := .step (.fork 1 2) h1
    ⟨by decide +kernel, by decide +kernel, by decide +kernel, by decide +kernel⟩
    (Option.some_get _).symm
  have h3 : Reachable grandchildTable := .step (.fork 2 3) h2
    ⟨by decide +kernel, by decide +kernel, by decide +kernel, by decide +kernel⟩
    (Option.some_get _).symm
  obtain ⟨-, hall, hexit⟩ := process_tree h3
  have ha : grandchildTable.Allows (.exit 2) :=
    ⟨by decide +kernel, by decide +kernel, by decide +kernel, by decide +kernel⟩
  obtain ⟨s', hs'⟩ := Option.isSome_iff_exists.1 (hall _ ha)
  have hp : grandchildTable.parent 3 = some 2 := by decide +kernel
  have hi : grandchildTable.initproc = some 1 := by decide +kernel
  refine ⟨s', hs', hp, ?_⟩
  rw [(hexit 2 s' ha hs' 3).1 (by decide +kernel) (by decide +kernel) hp, hi]

end ProcTable

end Ucore

end CacheCPU
