import CacheCPU.Proofs.Sched
import CacheCPU.Ucore.Sem
import Mathlib.Tactic.Linarith

/-!
# Semaphores over whole runs

A process inside `__down` is either on the wait queue and asleep, or off it and runnable with the
semaphore handed to it. `up` moves the first waiter from the one side to the other in one step, also
when the waiter has not yet called `schedule`, and everything the semaphores promise follows from
that: the value counts only what nobody waits for, and the one who returns from `schedule` is the
one who was served. The value is an `int`: an `up` that nobody waits for must not find the largest
one.
-/

namespace CacheCPU

namespace Ucore

/-! ## The steps of the kernel -/

/-- An atomic step: the semaphores and the scheduler, and what the rest of the kernel does to
processes. -/
inductive SemAct (π σ : Type) where
  | up (m : σ)
  | down (m : σ)
  | downEnd
  | tryDown (m : σ)
  | schedule
  | wakeup (p : π)
  | sleep (waitState : BitVec 32)
  | exit
  | fork (p : π)

/-- What `alloc_proc` leaves of a process. -/
def allocProc : SchedProc := ⟨.uninit, 0#32, false, 0, 0, false⟩

namespace SemKernel

variable {π σ : Type} [DecidableEq π] [DecidableEq σ]

def step (k : SemKernel π σ) : SemAct π σ → Option (SemKernel π σ)
  | .up m => k.up m
  | .down m => some (k.downBegin m)
  | .downEnd =>
    match k.pc k.sched.current with
    | .switched m => k.downEnd m
    | _ => none
  | .tryDown m => some (k.tryDown m).1
  | .schedule => k.schedule
  | .wakeup p => k.wakeup p
  | .sleep ws => some { k with
      sched := k.sched.setProc k.sched.current fun q =>
        { q with state := .sleeping, waitState := ws } }
  | .exit => some { k with
      sched := k.sched.setProc k.sched.current fun q => { q with state := .zombie } }
  | .fork p => { k with sched := k.sched.setProc p fun _ => allocProc }.wakeup p

/-- The current process runs and is in no call of `__down`. -/
def Running (k : SemKernel π σ) : Prop :=
  k.pc k.sched.current = .free ∧ (k.sched.proc k.sched.current).state = .runnable

/-- When the kernel takes a step. A process goes on in `__down` where it stands; the idle process
does not block, sleep or exit; a process that waits for a semaphore is woken by `up` alone, and a
zombie not at all; a new process takes the place of one that was never used or has been reaped. -/
def Allows (k : SemKernel π σ) : SemAct π σ → Prop
  | .up _ | .tryDown _ | .schedule => True
  | .down m => k.Running ∧ (k.sched.current = k.sched.idleproc → 0 < (k.sem m).value.toInt)
  | .downEnd => ∃ m, k.pc k.sched.current = .switched m
  | .wakeup p => (k.sched.proc p).state ≠ .zombie ∧ (k.sched.proc p).waitState ≠ wtKsem
  | .sleep ws => k.Running ∧ k.sched.current ≠ k.sched.idleproc ∧ ws ≠ wtKsem
  | .exit => k.Running ∧ k.sched.current ≠ k.sched.idleproc
  | .fork p => (k.sched.proc p).state = .uninit ∨
      (k.sched.proc p).state = .zombie ∧ p ≠ k.sched.current

/-- The kernel with the semaphores at `init` and the idle process alone. -/
structure Boot (init : σ → BitVec 32) (k : SemKernel π σ) : Prop where
  nonneg : ∀ m, 0 ≤ (init m).toInt
  sem : ∀ m, k.sem m = ⟨init m, []⟩
  pc : ∀ p, k.pc p = .free
  log : k.log = []
  current : k.sched.current = k.sched.idleproc
  runList : k.sched.runList = []
  idle : (k.sched.proc k.sched.idleproc).state = .runnable
  uninit : ∀ p, p ≠ k.sched.idleproc → (k.sched.proc p).state = .uninit

/-- The states of the runs whose steps all meet `P`. -/
inductive Reachable (init : σ → BitVec 32) (P : SemKernel π σ → SemAct π σ → Prop) :
    SemKernel π σ → Prop
  | boot {k : SemKernel π σ} : Boot init k → Reachable init P k
  | step {k k' : SemKernel π σ} (a : SemAct π σ) : Reachable init P k → k.Allows a → P k a →
      k.step a = some k' → Reachable init P k'

/-- An `up` that nobody waits for does not find the largest `int`. -/
def InRange (k : SemKernel π σ) : SemAct π σ → Prop
  | .up m => (k.sem m).waitQueue = [] → (k.sem m).value ≠ BitVec.intMax 32
  | _ => True

/-! ## What the log says -/

def ups (m : σ) (log : List (SemEvent π σ)) : ℕ :=
  log.countP fun e => match e with
    | .up m' => m' = m
    | _ => false

def downs (m : σ) (log : List (SemEvent π σ)) : ℕ :=
  log.countP fun e => match e with
    | .down m' _ => m' = m
    | _ => false

/-- Who has been put on the wait queue, in order. -/
def blocked (m : σ) (log : List (SemEvent π σ)) : List π :=
  log.filterMap fun e => match e with
    | .block m' p => if m' = m then some p else none
    | _ => none

/-- Who has been handed the semaphore by an `up`, in order. -/
def served (m : σ) (log : List (SemEvent π σ)) : List π :=
  log.filterMap fun e => match e with
    | .serve m' p => if m' = m then some p else none
    | _ => none

/-! ## The invariant -/

/-- `p` is in a call of `__down` on `m` that has not returned. -/
def InDown (k : SemKernel π σ) (m : σ) (p : π) : Prop := k.pc p = .slept m ∨ k.pc p = .switched m

/-- The semaphore has been handed to `p`, and `p` has not returned yet. -/
def Handed (k : SemKernel π σ) (m : σ) (p : π) : Prop :=
  k.InDown m p ∧ p ∉ (k.sem m).waitQueue

/-- Where the processes stand. -/
structure Placed (k : SemKernel π σ) : Prop where
  runQueue : k.sched.RunQueue
  queued : ∀ m p, p ∈ (k.sem m).waitQueue → k.InDown m p ∧ (k.wait p).waitQueue = some m ∧
    (k.sched.proc p).state = .sleeping ∧ (k.sched.proc p).waitState = wtKsem
  handed : ∀ m p, k.Handed m p →
    (k.sched.proc p).state = .runnable ∧ (k.wait p).wakeupFlags = wtKsem
  slept : ∀ m p, k.pc p = .slept m → p = k.sched.current
  switched : ∀ m, k.pc k.sched.current = .switched m →
    (k.sched.proc k.sched.current).state = .runnable
  idle : k.pc k.sched.idleproc = .free

/-- What one semaphore has counted. -/
structure Counted (init : σ → BitVec 32) (k : SemKernel π σ) (m : σ) : Prop where
  nonneg : 0 ≤ (k.sem m).value.toInt
  empty : 0 < (k.sem m).value.toInt → (k.sem m).waitQueue = []
  nodup : (k.sem m).waitQueue.Nodup
  count : ∃ hs : List π, hs.Nodup ∧ (∀ p, p ∈ hs ↔ k.Handed m p) ∧
    (init m).toInt + ups m k.log = (k.sem m).value.toInt + downs m k.log + hs.length
  fifo : blocked m k.log = served m k.log ++ (k.sem m).waitQueue

/-! ## One more event -/

section Log

omit [DecidableEq π]

variable {m : σ} {log : List (SemEvent π σ)}

theorem ups_append (l : List (SemEvent π σ)) : ups m (log ++ l) = ups m log + ups m l :=
  List.countP_append

theorem downs_append (l : List (SemEvent π σ)) : downs m (log ++ l) = downs m log + downs m l :=
  List.countP_append

theorem blocked_append (l : List (SemEvent π σ)) :
    blocked m (log ++ l) = blocked m log ++ blocked m l :=
  List.filterMap_append

theorem served_append (l : List (SemEvent π σ)) :
    served m (log ++ l) = served m log ++ served m l :=
  List.filterMap_append

/-- The semaphore an event is about. -/
def semOf : SemEvent π σ → σ
  | .up m | .down m _ | .block m _ | .serve m _ => m

/-- The events `l` say nothing about `m`. -/
structure Silent (m : σ) (l : List (SemEvent π σ)) : Prop where
  ups : ups m l = 0
  downs : downs m l = 0
  blocked : blocked m l = []
  served : served m l = []

theorem silent_of_ne {l : List (SemEvent π σ)} (h : ∀ e ∈ l, semOf e ≠ m) : Silent m l := by
  refine ⟨?_, ?_, ?_, ?_⟩
  · refine List.countP_eq_zero.2 fun e he => ?_
    have := h e he
    cases e <;> simp_all [semOf]
  · refine List.countP_eq_zero.2 fun e he => ?_
    have := h e he
    cases e <;> simp_all [semOf]
  · refine List.filterMap_eq_nil_iff.2 fun e he => ?_
    have := h e he
    cases e <;> simp_all [semOf]
  · refine List.filterMap_eq_nil_iff.2 fun e he => ?_
    have := h e he
    cases e <;> simp_all [semOf]

end Log

variable {init : σ → BitVec 32} {P : SemKernel π σ → SemAct π σ → Prop} {k k' : SemKernel π σ} {m m' : σ}
  {p : π}

omit [DecidableEq π] in
/-- A semaphore that a step has nothing to do with. -/
theorem Counted.congr (h : Counted init k m) {l : List (SemEvent π σ)} (hl : ∀ e ∈ l, semOf e ≠ m)
    (hlog : k'.log = k.log ++ l) (hsem : k'.sem m = k.sem m)
    (hpc : ∀ p, k'.InDown m p ↔ k.InDown m p) : Counted init k' m := by
  obtain ⟨hs, hn, hmem, hcount⟩ := h.count
  have hsil := silent_of_ne hl
  refine ⟨hsem ▸ h.nonneg, hsem ▸ h.empty, hsem ▸ h.nodup, ⟨hs, hn, fun p => ?_, ?_⟩, ?_⟩
  · rw [hmem, Handed, Handed, hpc, hsem]
  · rw [hlog, hsem, ups_append, downs_append, hsil.ups, hsil.downs]
    simpa using hcount
  · rw [hlog, hsem, blocked_append, served_append, hsil.blocked, hsil.served, List.append_nil,
      List.append_nil, h.fifo]

/-! ## Steps that leave the semaphores alone -/

omit [DecidableEq π] [DecidableEq σ] in
theorem Placed.withSched (h : k.Placed) {s : Sched π} (hr : s.RunQueue)
    (hi : s.idleproc = k.sched.idleproc) (hc : s.current = k.sched.current)
    (hq : ∀ m p, p ∈ (k.sem m).waitQueue →
      (s.proc p).state = .sleeping ∧ (s.proc p).waitState = wtKsem)
    (hh : ∀ m p, k.InDown m p → (k.sched.proc p).state = .runnable →
      (s.proc p).state = .runnable) : { k with sched := s }.Placed where
  runQueue := hr
  queued m p hp := ⟨(h.queued m p hp).1, (h.queued m p hp).2.1, hq m p hp⟩
  handed m p hp := ⟨hh m p hp.1 (h.handed m p hp).1, (h.handed m p hp).2⟩
  slept m p hp := (h.slept m p hp).trans hc.symm
  switched m hm := by
    change (s.proc s.current).state = .runnable
    rw [hc] at hm ⊢
    exact hh m _ (.inr hm) (h.switched m hm)
  idle := by
    change k.pc s.idleproc = .free
    rw [hi]
    exact h.idle

omit [DecidableEq σ] in
/-- A process in `__down` sleeps or is runnable. -/
theorem Placed.state_of_inDown (h : k.Placed) (hp : k.InDown m p) :
    (k.sched.proc p).state = .sleeping ∧ (k.sched.proc p).waitState = wtKsem ∨
      (k.sched.proc p).state = .runnable := by
  by_cases hm : p ∈ (k.sem m).waitQueue
  · exact .inl (h.queued m p hm).2.2
  · exact .inr (h.handed m p ⟨hp, hm⟩).1

structure Inv (init : σ → BitVec 32) (k : SemKernel π σ) : Prop where
  placed : k.Placed
  counted : ∀ m, Counted init k m

omit [DecidableEq π] in
/-- A step of the scheduler does not touch what the semaphores count. -/
theorem Inv.withSched (h : Inv init k) {s : Sched π} (hp : { k with sched := s }.Placed) :
    Inv init { k with sched := s } :=
  ⟨hp, fun m => (h.counted m).congr (l := []) (by simp) (by simp) rfl fun _ => Iff.rfl⟩

theorem Inv.wakeup (h : Inv init k) (hz : (k.sched.proc p).state ≠ .zombie)
    (hw : (k.sched.proc p).waitState ≠ wtKsem) : ∃ k', k.wakeup p = some k' ∧ Inv init k' := by
  obtain ⟨s, hs, hr, hself, hst, hws, -, hi, hc⟩ := h.placed.runQueue.wakeupProc hz
  refine ⟨{ k with sched := s }, by simp [SemKernel.wakeup, hs], h.withSched ?_⟩
  refine h.placed.withSched hr hi hc (fun m q hq => ?_) fun m q _ hrun => ?_
  · obtain ⟨-, -, hsl, hks⟩ := h.placed.queued m q hq
    have hqp : q ≠ p := fun he => hw (he ▸ hks)
    rw [hst q hqp, hws q hqp]
    exact ⟨hsl, hks⟩
  · by_cases hqp : q = p
    · rw [hqp, hself]
    · rw [hst q hqp, hrun]

omit [DecidableEq π] [DecidableEq σ] in
theorem InDown.ne_of_free {q : π} (hq : k.InDown m q) (hp : k.pc p = .free) : q ≠ p := by
  rintro rfl
  rcases hq with hq | hq <;> simp [hp] at hq

/-- The current process goes to sleep or exits. -/
theorem Inv.setCurrent (h : Inv init k) (hr : k.Running)
    (hi : k.sched.current ≠ k.sched.idleproc) (f : SchedProc → SchedProc) :
    Inv init { k with sched := k.sched.setProc k.sched.current f } := by
  refine h.withSched (h.placed.withSched (h.placed.runQueue.setCurrent hi f) rfl rfl
    (fun m q hq => ?_) fun m q hq hrun => ?_)
  · obtain ⟨hd, -, hst⟩ := h.placed.queued m q hq
    rw [Sched.setProc_proc_of_ne _ (hd.ne_of_free hr.1)]
    exact hst
  · rw [Sched.setProc_proc_of_ne _ (hq.ne_of_free hr.1)]
    exact hrun

theorem Inv.fork (h : Inv init k) (hp : (k.sched.proc p).state = .uninit ∨
    (k.sched.proc p).state = .zombie ∧ p ≠ k.sched.current) :
    ∃ k', k.step (.fork p) = some k' ∧ Inv init k' := by
  have hnr : (k.sched.proc p).state ≠ .runnable := by
    rcases hp with hp | ⟨hp, -⟩ <;> simp [hp]
  have hne : ∀ {m q}, k.InDown m q → q ≠ p := by
    rintro m q hq rfl
    rcases h.placed.state_of_inDown hq with ⟨hs, -⟩ | hs <;> simp [hs] at hp
  have hr := h.placed.runQueue.setProc hnr (f := fun _ => allocProc) (by simp [allocProc])
  have h' : Inv init { k with sched := k.sched.setProc p fun _ => allocProc } := by
    refine h.withSched (h.placed.withSched hr rfl rfl (fun m q hq => ?_) fun m q hq hrun => ?_)
    · obtain ⟨hd, -, hst⟩ := h.placed.queued m q hq
      rw [Sched.setProc_proc_of_ne _ (hne hd)]
      exact hst
    · rw [Sched.setProc_proc_of_ne _ (hne hq)]
      exact hrun
  exact h'.wakeup (by simp [allocProc]) (by simp [allocProc, wtKsem])

/-! ## `schedule` -/

theorem Inv.schedule (h : Inv init k) : ∃ k', k.schedule = some k' ∧ Inv init k' := by
  obtain ⟨s, hs, hr, hsame, hcur⟩ := h.placed.runQueue.schedule
  obtain ⟨k₁, hk₁⟩ : ∃ k₁, k₁ = k.calledSchedule := ⟨_, rfl⟩
  -- a process that had not called `schedule` now has
  have hpc : ∀ p, (∃ m, k.pc p = .slept m ∧ k₁.pc p = .switched m) ∨
      (∀ m, k.pc p ≠ .slept m) ∧ k₁.pc p = k.pc p := by
    intro p
    by_cases hp : p = k.sched.current
    · subst hp
      rw [hk₁, calledSchedule]
      cases hc : k.pc k.sched.current with
      | slept m => exact .inl ⟨m, rfl, by simp [setPc]⟩
      | free => exact .inr ⟨by simp, hc⟩
      | switched m => exact .inr ⟨by simp, hc⟩
    · refine .inr ⟨fun m hm => hp (h.placed.slept m p hm), ?_⟩
      rw [hk₁, calledSchedule]
      split
      · simp [setPc, hp]
      · rfl
  have hin : ∀ m p, k₁.InDown m p ↔ k.InDown m p := by
    intro m p
    unfold InDown
    rcases hpc p with ⟨m', h1, h2⟩ | ⟨-, h2⟩
    · simp [h1, h2]
    · rw [h2]
  have hsem : k₁.sem = k.sem := by rw [hk₁, calledSchedule]; split <;> rfl
  have hwait : k₁.wait = k.wait := by rw [hk₁, calledSchedule]; split <;> rfl
  have hlog : k₁.log = k.log := by rw [hk₁, calledSchedule]; split <;> rfl
  refine ⟨{ k₁ with sched := s }, ?_, ⟨?_, fun m => ?_⟩⟩
  · simp [SemKernel.schedule, hs, ← hk₁]
  · refine ⟨hr, fun m p hp => ?_, fun m p hp => ?_, fun m p hp => ?_, fun m _ => hcur, ?_⟩
    · change p ∈ (k₁.sem m).waitQueue at hp
      rw [hsem] at hp
      obtain ⟨h1, h2, h3, h4⟩ := h.placed.queued m p hp
      refine ⟨(hin m p).2 h1, ?_, (hsame.state p).trans h3, (hsame.waitState p).trans h4⟩
      change (k₁.wait p).waitQueue = some m
      rw [hwait, h2]
    · have hp' : k.Handed m p := by
        refine ⟨(hin m p).1 hp.1, ?_⟩
        have := hp.2
        change p ∉ (k₁.sem m).waitQueue at this
        rwa [hsem] at this
      obtain ⟨h1, h2⟩ := h.placed.handed m p hp'
      refine ⟨(hsame.state p).trans h1, ?_⟩
      change (k₁.wait p).wakeupFlags = wtKsem
      rw [hwait, h2]
    · change k₁.pc p = .slept m at hp
      rcases hpc p with ⟨m', -, h2⟩ | ⟨h1, h2⟩
      · simp [h2] at hp
      · exact absurd (h2.symm.trans hp) (h1 m)
    · change k₁.pc s.idleproc = .free
      rw [hsame.idleproc]
      rcases hpc k.sched.idleproc with ⟨m', h1, -⟩ | ⟨-, h2⟩
      · simp [h.placed.idle] at h1
      · rw [h2, h.placed.idle]
  · exact (h.counted m).congr (l := []) (by simp) (by simp [hlog]) (congrFun hsem m) (hin m)

/-! ## Steps that change a value -/

theorem toInt_add_one {v : BitVec 32} (hv : v ≠ BitVec.intMax 32) :
    (v + 1#32).toInt = v.toInt + 1 := by
  have hmax : v.toNat ≠ 2 ^ 31 - 1 := fun he => hv (BitVec.eq_of_toNat_eq he)
  rw [BitVec.toInt_eq_toNat_cond, BitVec.toInt_eq_toNat_cond, BitVec.toNat_add,
    show (1#32).toNat = 1 from rfl]
  split_ifs <;> omega

theorem toInt_sub_one {v : BitVec 32} (hv : 0 < v.toInt) : (v - 1#32).toInt = v.toInt - 1 := by
  have hne : v - 1#32 ≠ BitVec.intMax 32 := by
    intro he
    rw [← BitVec.sub_add_cancel v 1#32, he] at hv
    revert hv
    decide
  have hadd := toInt_add_one hne
  rw [BitVec.sub_add_cancel] at hadd
  omega

omit [DecidableEq π] in
/-- The value of `m` goes up by an `up`, or down by a `down` that does not wait. -/
theorem Inv.setValue (h : Inv init k) {v : BitVec 32} {e : SemEvent π σ} (he : semOf e = m)
    (hv : 0 ≤ v.toInt) (hempty : 0 < v.toInt → (k.sem m).waitQueue = [])
    (hcount : v.toInt + downs m [e] = (k.sem m).value.toInt + ups m [e])
    (hb : blocked m [e] = []) (hs : served m [e] = []) :
    Inv init ((k.setSem m fun s => { s with value := v }).record e) := by
  obtain ⟨k', hk'⟩ : ∃ k', k' = (k.setSem m fun s => { s with value := v }).record e := ⟨_, rfl⟩
  have hself : k'.sem m = ⟨v, (k.sem m).waitQueue⟩ := by simp [hk', record, setSem]
  have hother : ∀ m', m' ≠ m → k'.sem m' = k.sem m' := fun m' hm => by
    simp [hk', record, setSem, hm]
  have hq : ∀ m', (k'.sem m').waitQueue = (k.sem m').waitQueue := fun m' => by
    by_cases hm : m' = m
    · rw [hm, hself]
    · rw [hother m' hm]
  have hlog : k'.log = k.log ++ [e] := by rw [hk']; rfl
  have hsched : k'.sched = k.sched := by rw [hk']; rfl
  have hwait : k'.wait = k.wait := by rw [hk']; rfl
  have hpc : k'.pc = k.pc := by rw [hk']; rfl
  have hin : ∀ m p, k'.InDown m p ↔ k.InDown m p := fun m p => by rw [InDown, InDown, hpc]
  have hhanded : ∀ m p, k'.Handed m p ↔ k.Handed m p := fun m p => by
    rw [Handed, Handed, hin, hq]
  rw [← hk']
  refine ⟨⟨?_, fun m p hp => ?_, fun m p hp => ?_, fun m p hp => ?_, fun m hm => ?_, ?_⟩,
    fun m' => ?_⟩
  · rw [hsched]
    exact h.placed.runQueue
  · rw [hq] at hp
    rw [hin, hwait, hsched]
    exact h.placed.queued m p hp
  · rw [hwait, hsched]
    exact h.placed.handed m p ((hhanded m p).1 hp)
  · rw [hpc] at hp
    rw [hsched]
    exact h.placed.slept m p hp
  · rw [hpc, hsched] at hm
    rw [hsched]
    exact h.placed.switched m hm
  · rw [hpc, hsched]
    exact h.placed.idle
  · by_cases hm : m' = m
    · subst hm
      obtain ⟨hs', hn, hmem, hc⟩ := (h.counted m').count
      refine ⟨by rw [hself]; exact hv, by rw [hself]; exact hempty, ?_, ⟨hs', hn, fun p => ?_, ?_⟩, ?_⟩
      · rw [hq]
        exact (h.counted m').nodup
      · rw [hmem, hhanded]
      · rw [hself, hlog, ups_append, downs_append]
        push_cast
        linarith
      · rw [hlog, hq, blocked_append, served_append, hb, hs, List.append_nil, List.append_nil]
        exact (h.counted m').fifo
    · exact (h.counted m').congr (by simpa [he] using Ne.symm hm) hlog (hother m' hm) (hin m')

omit [DecidableEq π] in
theorem Inv.takeValue (h : Inv init k) (hv : 0 < (k.sem m).value.toInt) :
    Inv init ((k.setSem m fun s => { s with value := s.value - 1#32 }).record
      (.down m k.sched.current)) := by
  have hsub := toInt_sub_one hv
  refine h.setValue (v := (k.sem m).value - 1#32) rfl (by omega)
    (fun _ => (h.counted m).empty hv) ?_ rfl rfl
  rw [hsub]
  simp [ups, downs]

omit [DecidableEq π] in
/-- `try_down` says whether it took the semaphore. -/
theorem tryDown_log : (k.tryDown m).1.log =
    k.log ++ if (k.tryDown m).2 then [.down m k.sched.current] else [] := by
  unfold SemKernel.tryDown
  split_ifs <;> simp_all [record, setSem]

omit [DecidableEq π] in
theorem Inv.tryDown (h : Inv init k) : Inv init (k.tryDown m).1 := by
  unfold SemKernel.tryDown
  split_ifs with hv
  · exact h.takeValue hv
  · exact h

/-! ## `down` -/

/-- The current process puts itself to sleep on `m`. -/
theorem Inv.block (h : Inv init k) (hr : k.Running) (hi : k.sched.current ≠ k.sched.idleproc)
    (hv : ¬ 0 < (k.sem m).value.toInt) :
    Inv init (((k.waitCurrentSet m wtKsem).setPc k.sched.current (.slept m)).record
      (.block m k.sched.current)) := by
  obtain ⟨p, hp⟩ : ∃ p, p = k.sched.current := ⟨_, rfl⟩
  obtain ⟨k', hk'⟩ : ∃ k', k' = ((k.waitCurrentSet m wtKsem).setPc k.sched.current
    (.slept m)).record (.block m k.sched.current) := ⟨_, rfl⟩
  have hsched : k'.sched = k.sched.setProc k.sched.current fun q =>
      { q with state := .sleeping, waitState := wtKsem } := by rw [hk']; rfl
  have hself : k'.sem m = ⟨(k.sem m).value, (k.sem m).waitQueue ++ [p]⟩ := by
    simp [hk', hp, record, setPc, waitCurrentSet, waitQueueAdd, setSem, setWait]
  have hother : ∀ m', m' ≠ m → k'.sem m' = k.sem m' := fun m' hm => by
    simp [hk', record, setPc, waitCurrentSet, waitQueueAdd, setSem, setWait, hm]
  have hwself : k'.wait p = ⟨wtInterrupted, some m⟩ := by
    simp [hk', hp, record, setPc, waitCurrentSet, waitQueueAdd, setSem, setWait]
  have hwother : ∀ q, q ≠ p → k'.wait q = k.wait q := fun q hq => by
    simp [hk', record, setPc, waitCurrentSet, waitQueueAdd, setSem, setWait, hp ▸ hq]
  have hpself : k'.pc p = .slept m := by simp [hk', hp, record, setPc]
  have hpother : ∀ q, q ≠ p → k'.pc q = k.pc q := fun q hq => by
    simp [hk', record, setPc, hp ▸ hq, waitCurrentSet, waitQueueAdd, setSem, setWait]
  have hlog : k'.log = k.log ++ [.block m p] := by rw [hk', hp]; rfl
  have hfree : k.pc p = .free := hp ▸ hr.1
  have hcur : k'.sched.current = p := by rw [hsched, hp]; rfl
  have hidle : k'.sched.idleproc = k.sched.idleproc := by rw [hsched]; rfl
  have hproc : ∀ q, q ≠ p → k'.sched.proc q = k.sched.proc q := fun q hq => by
    rw [hsched, Sched.setProc_proc_of_ne _ (hp ▸ hq)]
  have hprocp : (k'.sched.proc p).state = .sleeping ∧ (k'.sched.proc p).waitState = wtKsem := by
    rw [hsched, hp]
    simp
  -- `p` was in no call of `__down`, and now is in one on `m`, on the queue
  have hin : ∀ m' q, k'.InDown m' q ↔ k.InDown m' q ∨ m' = m ∧ q = p := by
    intro m' q
    unfold InDown
    by_cases hq : q = p
    · simp [hq, hpself, hfree, eq_comm]
    · simp [hpother q hq, hq]
  have hnd : ∀ m', ¬ k.InDown m' p := fun m' hd => hd.ne_of_free hfree rfl
  have hmem : ∀ m' q, q ∈ (k'.sem m').waitQueue ↔ q ∈ (k.sem m').waitQueue ∨ m' = m ∧ q = p := by
    intro m' q
    by_cases hm : m' = m
    · rw [hm, hself]
      simp
    · rw [hother m' hm]
      simp [hm]
  have hnq : ∀ m', p ∉ (k.sem m').waitQueue := fun m' hq =>
    hnd m' (h.placed.queued m' p hq).1
  have hhanded : ∀ m' q, k'.Handed m' q ↔ k.Handed m' q := by
    intro m' q
    rw [Handed, Handed, hin, hmem]
    by_cases hq : q = p
    · rw [hq]
      simp only [hnd, false_or, and_true, false_and, iff_false, not_and, not_not]
      exact fun hm => .inr hm
    · simp [hq]
  rw [← hk']
  refine ⟨⟨?_, fun m' q hq => ?_, fun m' q hq => ?_, fun m' q hq => ?_, fun m' hm => ?_, ?_⟩,
    fun m' => ?_⟩
  · rw [hsched]
    exact h.placed.runQueue.setCurrent hi _
  · rcases (hmem m' q).1 hq with hq' | ⟨rfl, rfl⟩
    · obtain ⟨h1, h2, h3⟩ := h.placed.queued m' q hq'
      have hqp : q ≠ p := fun he => hnq m' (he ▸ hq')
      rw [hwother q hqp, hproc q hqp]
      exact ⟨(hin m' q).2 (.inl h1), h2, h3⟩
    · rw [hwself]
      exact ⟨(hin m' q).2 (.inr ⟨rfl, rfl⟩), rfl, hprocp⟩
  · have hq' := (hhanded m' q).1 hq
    have hqp : q ≠ p := fun he => hnd m' (he ▸ hq'.1)
    rw [hwother q hqp, hproc q hqp]
    exact h.placed.handed m' q hq'
  · rw [hcur]
    by_contra hqp
    rw [hpother q hqp] at hq
    exact hqp ((h.placed.slept m' q hq).trans hp.symm)
  · rw [hcur, hpself] at hm
    simp at hm
  · rw [hidle, hpother _ fun he => hi (hp.symm.trans he.symm)]
    exact h.placed.idle
  · by_cases hm : m' = m
    · subst hm
      obtain ⟨hs, hn, hmem', hc⟩ := (h.counted m').count
      refine ⟨by rw [hself]; exact (h.counted m').nonneg, ?_, ?_, ⟨hs, hn, fun q => ?_, ?_⟩, ?_⟩
      · rw [hself]
        exact fun hv' => absurd hv' hv
      · rw [hself]
        exact Sched.nodup_append_singleton (h.counted m').nodup (hnq m')
      · rw [hmem', hhanded]
      · rw [hself, hlog, ups_append, downs_append]
        simpa [ups, downs] using hc
      · rw [hself, hlog, blocked_append, served_append, (h.counted m').fifo]
        simp [blocked, served]
    · refine (h.counted m').congr (by simpa [semOf] using Ne.symm hm) hlog (hother m' hm) fun q => ?_
      rw [hin]
      simp [hm]

theorem Inv.downBegin (h : Inv init k) (hr : k.Running)
    (hi : k.sched.current = k.sched.idleproc → 0 < (k.sem m).value.toInt) :
    Inv init (k.downBegin m) := by
  unfold SemKernel.downBegin
  simp only
  split_ifs with hv
  · exact h.takeValue hv
  · exact h.block hr (fun he => hv (hi he)) hv

/-- The one who comes back from `schedule` has been handed the semaphore. -/
theorem Inv.downEnd (h : Inv init k) (hpc : k.pc k.sched.current = .switched m) :
    ∃ k', k.downEnd m = some k' ∧ Inv init k' := by
  obtain ⟨p, hp⟩ : ∃ p, p = k.sched.current := ⟨_, rfl⟩
  rw [← hp] at hpc
  have hrun : (k.sched.proc p).state = .runnable := by
    rw [hp]
    exact h.placed.switched m (hp ▸ hpc)
  have hnq : ∀ m', p ∉ (k.sem m').waitQueue := fun m' hq => by
    simp [(h.placed.queued m' p hq).2.2.1] at hrun
  have hnotin : k.waitInQueue p = false := by
    unfold waitInQueue
    split
    · simp [hnq]
    · rfl
  have hflags : (k.wait p).wakeupFlags = wtKsem := (h.placed.handed m p ⟨.inr hpc, hnq m⟩).2
  obtain ⟨k', hk'⟩ : ∃ k', k' = (k.setPc p .free).record (.down m p) := ⟨_, rfl⟩
  have hpself : k'.pc p = .free := by simp [hk', record, setPc]
  have hpother : ∀ q, q ≠ p → k'.pc q = k.pc q := fun q hq => by simp [hk', record, setPc, hq]
  have hlog : k'.log = k.log ++ [.down m p] := by rw [hk']; rfl
  have hsem : k'.sem = k.sem := by rw [hk']; rfl
  have hsched : k'.sched = k.sched := by rw [hk']; rfl
  have hwait : k'.wait = k.wait := by rw [hk']; rfl
  have hin : ∀ m' q, k'.InDown m' q ↔ k.InDown m' q ∧ q ≠ p := by
    intro m' q
    unfold InDown
    by_cases hq : q = p
    · simp [hq, hpself]
    · simp [hpother q hq, hq]
  have hhanded : ∀ m' q, k'.Handed m' q ↔ k.Handed m' q ∧ q ≠ p := by
    intro m' q
    rw [Handed, Handed, hin, hsem]
    tauto
  refine ⟨k', ?_, ⟨⟨?_, fun m' q hq => ?_, fun m' q hq => ?_, fun m' q hq => ?_, fun m' hm => ?_, ?_⟩,
    fun m' => ?_⟩⟩
  · simp [SemKernel.downEnd, ← hp, hnotin, hflags, hk']
  · rw [hsched]
    exact h.placed.runQueue
  · rw [hsem] at hq
    have hqp : q ≠ p := fun he => hnq m' (he ▸ hq)
    rw [hin, hwait, hsched]
    obtain ⟨h1, h2⟩ := h.placed.queued m' q hq
    exact ⟨⟨h1, hqp⟩, h2⟩
  · rw [hwait, hsched]
    exact h.placed.handed m' q ((hhanded m' q).1 hq).1
  · by_cases hqp : q = p
    · simp [hqp, hpself] at hq
    · rw [hpother q hqp] at hq
      rw [hsched]
      exact h.placed.slept m' q hq
  · rw [hsched, ← hp, hpself] at hm
    simp at hm
  · rw [hsched]
    by_cases hip : k.sched.idleproc = p
    · rw [hip, hpself]
    · rw [hpother _ hip]
      exact h.placed.idle
  · by_cases hm : m' = m
    · subst hm
      obtain ⟨hs, hn, hmem, hc⟩ := (h.counted m').count
      have hps : p ∈ hs := (hmem p).2 ⟨.inr hpc, hnq m'⟩
      refine ⟨by rw [hsem]; exact (h.counted m').nonneg, by rw [hsem]; exact (h.counted m').empty,
        by rw [hsem]; exact (h.counted m').nodup,
        ⟨hs.erase p, hn.erase p, fun q => ?_, ?_⟩, ?_⟩
      · rw [hn.mem_erase_iff, hmem, hhanded]
        tauto
      · have hlen := List.length_erase_add_one hps
        rw [hsem, hlog, ups_append, downs_append]
        simp only [ups, downs, List.countP_cons, List.countP_nil] at hc ⊢
        push_cast
        simp
        omega
      · rw [hsem, hlog, blocked_append, served_append]
        simpa [blocked, served] using (h.counted m').fifo
    · refine (h.counted m').congr (by simpa [semOf] using Ne.symm hm) hlog (by rw [hsem]) fun q => ?_
      rw [hin]
      refine ⟨fun hq => hq.1, fun hq => ⟨hq, fun he => ?_⟩⟩
      subst he
      rcases hq with hq | hq <;> simp [hpc] at hq
      exact hm hq.symm

/-! ## `up` -/

/-- What `up` leaves where somebody waits: the first waiter is off the queue and runnable. -/
structure Served (k k' : SemKernel π σ) (m : σ) (p : π) (rest : List π) : Prop where
  sem : k'.sem m = ⟨(k.sem m).value, rest⟩
  otherSem : ∀ m', m' ≠ m → k'.sem m' = k.sem m'
  wait : k'.wait p = ⟨wtKsem, (k.wait p).waitQueue⟩
  otherWait : ∀ q, q ≠ p → k'.wait q = k.wait q
  pc : k'.pc = k.pc
  log : k'.log = k.log ++ [.up m, .serve m p]
  runQueue : k'.sched.RunQueue
  state : (k'.sched.proc p).state = .runnable
  otherState : ∀ q, q ≠ p → (k'.sched.proc q).state = (k.sched.proc q).state
  otherWaitState : ∀ q, q ≠ p → (k'.sched.proc q).waitState = (k.sched.proc q).waitState
  idleproc : k'.sched.idleproc = k.sched.idleproc
  current : k'.sched.current = k.sched.current

section Serve

variable {rest : List π} (h : Inv init k) (hq : (k.sem m).waitQueue = p :: rest)
include h hq

theorem Inv.up_served : ∃ k', k.up m = some k' ∧ Served k k' m p rest := by
  have hpq : p ∈ (k.sem m).waitQueue := by simp [hq]
  obtain ⟨-, hpw, hps, hpk⟩ := h.placed.queued m p hpq
  obtain ⟨s, hs, hrq, hself, hst, hws, -, hsi, hsc⟩ :=
    h.placed.runQueue.wakeupProc (p := p) (by simp [hps])
  have hdel : k.waitQueueDel m p =
      some (k.setSem m fun s => { s with waitQueue := s.waitQueue.erase p }) :=
    if_pos ⟨hpq, hpw⟩
  obtain ⟨k₁, hk₁⟩ : ∃ k₁, k₁ = { (k.setSem m fun s =>
      { s with waitQueue := s.waitQueue.erase p }).setWait p
        (fun w => { w with wakeupFlags := wtKsem }) with sched := s } := ⟨_, rfl⟩
  have hww : k.wakeupWait m p wtKsem = some k₁ := by
    simp only [wakeupWait, hdel, Option.bind_eq_bind, Option.bind_some]
    change (k.sched.wakeupProc p).bind _ = _
    rw [hs, hk₁]
    rfl
  refine ⟨(k₁.record (.up m)).record (.serve m p), ?_, ⟨?_, fun m' hm => ?_, ?_, fun q hne => ?_,
    by rw [hk₁]; rfl, ?_, by rw [hk₁]; exact hrq, by rw [hk₁]; exact hself, by rw [hk₁]; exact hst,
    by rw [hk₁]; exact hws, by rw [hk₁]; exact hsi, by rw [hk₁]; exact hsc⟩⟩
  · unfold SemKernel.up
    simp only [hq]
    rw [if_neg (by simpa using hpk), hww]
    rfl
  · simp [hk₁, record, setSem, setWait, hq]
  · simp [hk₁, record, setSem, setWait, hm]
  · simp [hk₁, record, setSem, setWait]
  · simp [hk₁, record, setSem, setWait, hne]
  · simp [hk₁, record, setSem, setWait]

variable (hs : Served k k' m p rest)
include hs

omit [DecidableEq π] in
theorem Served.queued {m' : σ} {q : π} (hm' : q ∈ (k'.sem m').waitQueue) :
    q ≠ p ∧ q ∈ (k.sem m').waitQueue := by
  have hnd := (h.counted m).nodup
  rw [hq, List.nodup_cons] at hnd
  by_cases hm : m' = m
  · rw [hm, hs.sem] at hm'
    rw [hm, hq]
    exact ⟨fun he => hnd.1 (he ▸ hm'), List.mem_cons_of_mem _ hm'⟩
  · rw [hs.otherSem m' hm] at hm'
    refine ⟨fun he => ?_, hm'⟩
    -- a process is in `__down` on one semaphore only
    have hpd := (h.placed.queued m p (by simp [hq])).1
    have hd := (h.placed.queued m' q hm').1
    rw [he] at hd
    rcases hd with hd | hd <;> rcases hpd with hpd | hpd <;> rw [hpd] at hd <;> cases hd <;>
      exact hm rfl

theorem Served.handed (m' : σ) (q : π) :
    k'.Handed m' q ↔ k.Handed m' q ∨ m' = m ∧ q = p := by
  have hpd := (h.placed.queued m p (by simp [hq])).1
  have hnd := (h.counted m).nodup
  rw [hq, List.nodup_cons] at hnd
  rw [Handed, Handed, InDown, InDown, hs.pc]
  by_cases hm : m' = m
  · rw [hm, hs.sem, hq]
    rw [InDown] at hpd
    by_cases hqp : q = p
    · simp [hqp, hpd, hnd.1]
    · simp [hqp]
  · rw [hs.otherSem m' hm]
    simp [hm]

theorem Served.placed : Placed k' where
  runQueue := hs.runQueue
  queued m' q hm' := by
    obtain ⟨hqp, hq'⟩ := hs.queued h hq hm'
    rw [InDown, hs.pc, hs.otherWait q hqp, hs.otherState q hqp, hs.otherWaitState q hqp]
    exact h.placed.queued m' q hq'
  handed m' q hm' := by
    by_cases hqp : q = p
    · rw [hqp, hs.state, hs.wait]
      exact ⟨rfl, rfl⟩
    · rw [hs.otherState q hqp, hs.otherWait q hqp]
      exact h.placed.handed m' q
        (((hs.handed h hq m' q).1 hm').resolve_right fun he => hqp he.2)
  slept m' q hm' := by
    rw [hs.pc] at hm'
    rw [hs.current]
    exact h.placed.slept m' q hm'
  switched m' hm' := by
    rw [hs.current, hs.pc] at hm'
    rw [hs.current]
    by_cases hcp : k.sched.current = p
    · rw [hcp, hs.state]
    · rw [hs.otherState _ hcp]
      exact h.placed.switched m' hm'
  idle := by
    rw [hs.idleproc, hs.pc]
    exact h.placed.idle

theorem Served.counted (m' : σ) : Counted init k' m' := by
  by_cases hm : m' = m
  · subst hm
    have hpq : p ∈ (k.sem m').waitQueue := by simp [hq]
    have hnd := (h.counted m').nodup
    rw [hq, List.nodup_cons] at hnd
    obtain ⟨hs', hn, hmem, hc⟩ := (h.counted m').count
    have hps' : p ∉ hs' := fun hp' => ((hmem p).1 hp').2 hpq
    refine ⟨by rw [hs.sem]; exact (h.counted m').nonneg, ?_, by rw [hs.sem]; exact hnd.2,
      ⟨p :: hs', List.nodup_cons.2 ⟨hps', hn⟩, fun q => ?_, ?_⟩, ?_⟩
    · rw [hs.sem]
      intro hv
      have := (h.counted m').empty hv
      rw [hq] at this
      simp at this
    · rw [List.mem_cons, hmem, hs.handed h hq]
      tauto
    · rw [hs.sem, hs.log, ups_append, downs_append]
      simp [ups, downs] at hc ⊢
      omega
    · have hf := (h.counted m').fifo
      rw [hq] at hf
      rw [hs.sem, hs.log, blocked_append, served_append, hf]
      simp [blocked, served]
  · exact (h.counted m').congr (by simpa [semOf] using Ne.symm hm) hs.log (hs.otherSem m' hm)
      fun q => by rw [InDown, InDown, hs.pc]

omit hs in
theorem Inv.serve : ∃ k', k.up m = some k' ∧ Inv init k' := by
  obtain ⟨k', hup, hs⟩ := h.up_served hq
  exact ⟨k', hup, ⟨hs.placed h hq, hs.counted h hq⟩⟩

end Serve

theorem up_of_nil (hq : (k.sem m).waitQueue = []) :
    k.up m = some ((k.setSem m fun s => { s with value := s.value + 1#32 }).record (.up m)) := by
  unfold SemKernel.up
  simp only [hq]

theorem Inv.up (h : Inv init k)
    (hr : (k.sem m).waitQueue = [] → (k.sem m).value ≠ BitVec.intMax 32) :
    ∃ k', k.up m = some k' ∧ Inv init k' := by
  cases hq : (k.sem m).waitQueue with
  | nil =>
    have hadd := toInt_add_one (hr hq)
    have hv := (h.counted m).nonneg
    refine ⟨_, up_of_nil hq, ?_⟩
    refine h.setValue (v := (k.sem m).value + 1#32) rfl (by omega) (fun _ => hq) ?_ rfl rfl
    rw [hadd]
    simp [ups, downs]
  | cons p rest => exact h.serve hq

/-! ## Every run -/

theorem Boot.inv (h : Boot init k) : Inv init k := by
  have hd : ∀ m p, ¬ k.InDown m p := fun m p hd => by
    rcases hd with hd | hd <;> simp [h.pc p] at hd
  refine ⟨⟨⟨?_, fun p => ?_, ?_, h.idle⟩, ?_, ?_, ?_, ?_, h.pc _⟩, fun m => ⟨?_, ?_, ?_, ?_, ?_⟩⟩
  · simp [h.runList]
  · rw [h.runList, h.current]
    by_cases hp : p = k.sched.idleproc
    · simp [hp]
    · simp [h.uninit p hp]
  · simp [h.runList]
  · simp [h.sem]
  · exact fun m p hp => absurd hp.1 (hd m p)
  · simp [h.pc]
  · simp [h.pc]
  · rw [h.sem]
    exact h.nonneg m
  · simp [h.sem]
  · simp [h.sem]
  · exact ⟨[], by simp, fun p => by simp [Handed, hd], by simp [h.sem, h.log, ups, downs]⟩
  · simp [h.sem, h.log, blocked, served]

theorem Inv.step (h : Inv init k) (a : SemAct π σ) (ha : k.Allows a) (hr : k.InRange a) :
    ∃ k', k.step a = some k' ∧ Inv init k' := by
  cases a with
  | up m => exact h.up hr
  | down m => exact ⟨_, rfl, h.downBegin ha.1 ha.2⟩
  | downEnd =>
    obtain ⟨m, hm⟩ := ha
    obtain ⟨k', hk', h'⟩ := h.downEnd hm
    exact ⟨k', by simp [SemKernel.step, hm, hk'], h'⟩
  | tryDown m => exact ⟨_, rfl, h.tryDown⟩
  | schedule => exact h.schedule
  | wakeup p => exact h.wakeup ha.1 ha.2
  | sleep ws => exact ⟨_, rfl, h.setCurrent ha.1 ha.2.1 _⟩
  | exit => exact ⟨_, rfl, h.setCurrent ha.1 ha.2 _⟩
  | fork p => exact h.fork ha

theorem Reachable.inv (h : Reachable init InRange k) : Inv init k := by
  induction h with
  | boot hb => exact hb.inv
  | step a _ ha hr hs ih =>
    obtain ⟨k', hk', h'⟩ := ih.step a ha hr
    rw [hs] at hk'
    cases hk'
    exact h'

/-- What holds of a state: the value of a semaphore is not negative and positive only when nobody
waits; the count of the ups balances; who is served and who still waits are those who have blocked,
in order; and the run list holds each runnable process other than the current and the idle one
once, and none that sleeps or is dead. -/
structure Sound (init : σ → BitVec 32) (k : SemKernel π σ) : Prop where
  nonneg : ∀ m, 0 ≤ (k.sem m).value.toInt
  empty : ∀ m, 0 < (k.sem m).value.toInt → (k.sem m).waitQueue = []
  count : ∀ m, ∃ hs : List π, hs.Nodup ∧ (∀ p, p ∈ hs ↔ k.Handed m p) ∧
    (init m).toInt + ups m k.log = (k.sem m).value.toInt + downs m k.log + hs.length
  fifo : ∀ m, blocked m k.log = served m k.log ++ (k.sem m).waitQueue
  nodup : k.sched.runList.Nodup
  runnable : ∀ p, (k.sched.proc p).state = .runnable → p ≠ k.sched.current →
    p ≠ k.sched.idleproc → p ∈ k.sched.runList
  listed : ∀ p ∈ k.sched.runList,
    (k.sched.proc p).state ≠ .sleeping ∧ (k.sched.proc p).state ≠ .zombie

omit [DecidableEq π] in
theorem Inv.sound (h : Inv init k) : Sound init k := by
  have hr := h.placed.runQueue
  refine ⟨fun m => (h.counted m).nonneg, fun m => (h.counted m).empty, fun m => (h.counted m).count,
    fun m => (h.counted m).fifo, hr.nodup, fun p h1 h2 h3 => (hr.mem_iff p).2 ⟨h1, h2, h3⟩,
    fun p hp => ?_⟩
  simp [((hr.mem_iff p).1 hp).1]

/-- After an `up` that finds the largest `int` and nobody waiting, the value is the smallest one. -/
theorem up_intMax (hq : (k.sem m).waitQueue = []) (hv : (k.sem m).value = BitVec.intMax 32) :
    ∃ k', k.up m = some k' ∧ (k'.sem m).value = BitVec.intMin 32 := by
  refine ⟨_, up_of_nil hq, ?_⟩
  simp only [record, setSem, Function.update_self, hv]
  decide

/-- In every run in which no `up` that nobody waits for finds the largest `int`: the state is as it
should be, and every step the kernel may take goes through without a failed assertion, unless it is
such an `up`. That one makes the value negative. -/
theorem semaphores (h : Reachable init InRange k) :
    Sound init k ∧ (∀ a, k.Allows a → k.InRange a → (k.step a).isSome) ∧
    ∀ a, ¬ k.InRange a → ∃ k', k.step a = some k' ∧ ¬ Sound init k' := by
  refine ⟨h.inv.sound, fun a ha hr => ?_, fun a hr => ?_⟩
  · obtain ⟨k', hk', -⟩ := h.inv.step a ha hr
    rw [hk']
    rfl
  · cases a with
    | up m =>
      obtain ⟨hq, hv⟩ := Classical.not_imp.1 hr
      obtain ⟨k', hk', hneg⟩ := up_intMax hq (not_not.1 hv)
      refine ⟨k', hk', fun hs => ?_⟩
      have := hs.nonneg m
      rw [hneg] at this
      revert this
      decide
    | _ => exact absurd trivial hr

/-- The idle process `false`, a process `true` not yet created, and one semaphore. -/
def twoProcs : SemKernel Bool Unit where
  sched :=
    { proc := fun p => ⟨if p then .uninit else .runnable, 0#32, false, 0, 0, false⟩
      idleproc := false
      current := false
      runList := []
      procNum := 0 }
  sem _ := ⟨0#32, []⟩
  wait _ := ⟨0#32, none⟩
  pc _ := .free
  log := []

/-- A waiter that is served before it has called `schedule`. -/
theorem semaphores_handOver : ∃ k : SemKernel Bool Unit, Reachable (fun _ => 0#32) InRange k ∧
    k.sched.current = true ∧ served () k.log = [true] ∧ Sound (fun _ => 0#32) k ∧
    (k.step .schedule).isSome := by
  have hb : Boot (fun _ => 0#32) twoProcs := ⟨by decide, fun _ => rfl, fun _ => rfl, rfl, rfl, rfl,
    rfl, by decide⟩
  obtain ⟨k, h, hc, hs⟩ : ∃ k : SemKernel Bool Unit, Reachable (fun _ => 0#32) InRange k ∧
      k.sched.current = true ∧ served () k.log = [true] := by
    have h₁ : Reachable (fun _ => 0#32) InRange _ :=
      .step (.fork true) (.boot hb) (.inl rfl) trivial rfl
    have h₂ := Reachable.step .schedule h₁ trivial trivial rfl
    have h₃ := Reachable.step (.down ()) h₂ ⟨⟨rfl, rfl⟩, by decide⟩ trivial rfl
    exact ⟨_, Reachable.step (.up ()) h₃ trivial (fun hq => absurd hq (List.cons_ne_nil true [])) rfl,
      rfl, rfl⟩
  obtain ⟨hsound, hsome, -⟩ := semaphores h
  exact ⟨k, h, hc, hs, hsound, hsome .schedule trivial trivial⟩

/-- Ups that nobody waits for add up. -/
theorem Boot.upTimes (hb : Boot init k) (m : σ) (n : ℕ) : ∃ k' : SemKernel π σ,
    Reachable init (fun _ _ => True) k' ∧ (k'.sem m).waitQueue = [] ∧
      (k'.sem m).value = init m + BitVec.ofNat 32 n := by
  induction n with
  | zero =>
    refine ⟨k, .boot hb, ?_, ?_⟩
    · rw [hb.sem]
    · simp [hb.sem]
  | succ n ih =>
    obtain ⟨k', h, hq, hv⟩ := ih
    refine ⟨_, .step (.up m) h trivial trivial (up_of_nil hq), ?_, ?_⟩
    · simp [record, setSem, hq]
    · simp only [record, setSem, Function.update_self, hv]
      rw [BitVec.add_assoc, BitVec.ofNat_add]

/-- A mutex that is given back 2^31 - 1 times has a negative value. -/
theorem not_semaphores_wrap : ∃ k : SemKernel Bool Unit,
    Reachable (fun _ => 1#32) (fun _ _ => True) k ∧ (k.sem ()).value.toInt < 0 := by
  have hb : Boot (fun _ => 1#32) { twoProcs with sem := fun _ => ⟨1#32, []⟩ } := ⟨by decide,
    fun _ => rfl, fun _ => rfl, rfl, rfl, rfl, rfl, by decide⟩
  obtain ⟨k, h, -, hv⟩ := hb.upTimes () 0x7fffffff
  refine ⟨k, h, ?_⟩
  rw [hv]
  decide

end SemKernel

end Ucore

end CacheCPU
