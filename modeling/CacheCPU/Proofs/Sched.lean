import CacheCPU.Ucore.Sched

/-!
# What the scheduler's operations do to the processes

Enqueueing touches the time slice only, so state and wait state change where `wakeup_proc` says so
and nowhere else.
-/

namespace CacheCPU

namespace Ucore

namespace Sched

variable {π : Type} [DecidableEq π] {s s' : Sched π} {p q : π}

/-! ## Enqueueing -/

/-- `p` has been put at the end of the run list. -/
structure Enqueued (s s' : Sched π) (p : π) : Prop where
  runList : s'.runList = s.runList ++ [p]
  idleproc : s'.idleproc = s.idleproc
  current : s'.current = s.current
  state : ∀ q, (s'.proc q).state = (s.proc q).state
  waitState : ∀ q, (s'.proc q).waitState = (s.proc q).waitState
  rq_self : (s'.proc p).rq = true
  rq : ∀ q, q ≠ p → (s'.proc q).rq = (s.proc q).rq

theorem rrEnqueue_spec (h : p ∉ s.runList) : ∃ s', s.rrEnqueue p = some s' ∧ Enqueued s s' p := by
  refine ⟨_, if_neg h, rfl, rfl, rfl, fun q => ?_, fun q => ?_, ?_, fun q hq => ?_⟩
  · by_cases hq : q = p
    · simp [hq]
    · rw [setProc_proc_of_ne _ hq]
  · by_cases hq : q = p
    · simp [hq]
    · rw [setProc_proc_of_ne _ hq]
  · simp
  · rw [setProc_proc_of_ne _ hq]

theorem schedClassEnqueue_spec (h : p ∉ s.runList) : ∃ s', s.schedClassEnqueue p = some s' ∧
    (p = s.idleproc ∧ s' = s ∨ p ≠ s.idleproc ∧ Enqueued s s' p) := by
  unfold schedClassEnqueue
  by_cases hi : p = s.idleproc
  · exact ⟨s, if_neg (by simpa using hi), .inl ⟨hi, rfl⟩⟩
  · obtain ⟨s', hs', he⟩ := rrEnqueue_spec h
    exact ⟨s', (if_pos hi).trans hs', .inr ⟨hi, he⟩⟩

/-! ## Waking a process -/

/-- A process in an interruptible wait. -/
structure Waits (s : Sched π) (p : π) : Prop where
  state : (s.proc p).state = .sleeping
  interrupted : (s.proc p).waitState &&& wtInterrupted ≠ 0#32
  notMem : p ∉ s.runList

/-- A process that has been woken: unless it is the current or the idle one, it is in the run
list. -/
structure Woken (s : Sched π) (p : π) : Prop where
  state : (s.proc p).state = .runnable
  waitState : (s.proc p).waitState = 0#32
  queued : p = s.current ∨ p = s.idleproc ∨ p ∈ s.runList

/-- `wakeup_proc` has made `p` runnable. -/
structure Awoken (s s' : Sched π) (p : π) : Prop where
  woken : s'.Woken p
  state : ∀ q, q ≠ p → (s'.proc q).state = (s.proc q).state
  waitState : ∀ q, q ≠ p → (s'.proc q).waitState = (s.proc q).waitState
  idleproc : s'.idleproc = s.idleproc
  current : s'.current = s.current
  runList : s'.runList = if p = s.current ∨ p = s.idleproc then s.runList else s.runList ++ [p]
  rq_self : p ≠ s.current → p ≠ s.idleproc → (s'.proc p).rq = true
  rq : ∀ q, q ≠ p → (s'.proc q).rq = (s.proc q).rq

theorem wakeupProc_of_runnable (h : (s.proc p).state = .runnable) : s.wakeupProc p = some s := by
  simp [wakeupProc, h]

theorem wakeupProc_of_notMem (hz : (s.proc p).state ≠ .zombie) (hr : (s.proc p).state ≠ .runnable)
    (hp : p ∉ s.runList) : ∃ s', s.wakeupProc p = some s' ∧ Awoken s s' p := by
  obtain ⟨s₁, hs₁⟩ : ∃ s₁, s₁ = s.setProc p fun q =>
      { q with state := .runnable, waitState := 0#32 } := ⟨_, rfl⟩
  have hself : s₁.proc p = { s.proc p with state := .runnable, waitState := 0#32 } := by simp [hs₁]
  have hother : ∀ q, q ≠ p → s₁.proc q = s.proc q := fun q hq => by
    rw [hs₁, setProc_proc_of_ne _ hq]
  have hi : s₁.idleproc = s.idleproc := by rw [hs₁]; rfl
  have hc : s₁.current = s.current := by rw [hs₁]; rfl
  have hl : s₁.runList = s.runList := by rw [hs₁]; rfl
  unfold wakeupProc
  rw [if_neg hz, if_pos hr, ← hs₁]
  by_cases hpc : p = s.current
  · refine ⟨s₁, if_neg (by simpa [hc] using hpc),
      ⟨by simp [hself], by simp [hself], .inl (hpc.trans hc.symm)⟩, ?_, ?_, hi, hc,
      ?_, fun h => absurd hpc h, ?_⟩
    · intro q hq
      rw [hother q hq]
    · intro q hq
      rw [hother q hq]
    · rw [if_pos (.inl hpc), hl]
    · intro q hq
      rw [hother q hq]
  · obtain ⟨s₂, hs₂, he⟩ := schedClassEnqueue_spec (s := s₁) (p := p) (by rwa [hl])
    refine ⟨s₂, ?_, ?_⟩
    · change (if p ≠ s₁.current then s₁.schedClassEnqueue p else some s₁) = some s₂
      rw [if_pos (by simpa [hc] using hpc), hs₂]
    rcases he with ⟨hpi, rfl⟩ | ⟨hpi, he⟩
    · rw [hi] at hpi
      refine ⟨⟨by simp [hself], by simp [hself], .inr (.inl (hpi.trans hi.symm))⟩, ?_, ?_, hi, hc, ?_,
        fun _ h => absurd hpi h, ?_⟩
      · intro q hq
        rw [hother q hq]
      · intro q hq
        rw [hother q hq]
      · rw [if_pos (.inr hpi), hl]
      · intro q hq
        rw [hother q hq]
    · rw [hi] at hpi
      refine ⟨⟨by rw [he.state, hself], by rw [he.waitState, hself], .inr (.inr (by simp [he.runList]))⟩,
        ?_, ?_, he.idleproc.trans hi, he.current.trans hc, ?_, fun _ _ => he.rq_self, ?_⟩
      · intro q hq
        rw [he.state, hother q hq]
      · intro q hq
        rw [he.waitState, hother q hq]
      · rw [he.runList, hl, if_neg (by simp [hpc, hpi])]
      · intro q hq
        rw [he.rq q hq, hother q hq]

/-- Between `s` and `s'` the processes `ps` have been woken, and the others are as they were. -/
structure Wakes (s s' : Sched π) (ps : List π) : Prop where
  woken : ∀ p ∈ ps, s'.Woken p
  state : ∀ q, q ∉ ps → (s'.proc q).state = (s.proc q).state
  waitState : ∀ q, q ∉ ps → (s'.proc q).waitState = (s.proc q).waitState
  mem_runList : ∀ q, q ∉ ps → (q ∈ s'.runList ↔ q ∈ s.runList)
  current : s'.current = s.current
  idleproc : s'.idleproc = s.idleproc

section Wakes

variable {ps : List π}

omit [DecidableEq π] in
theorem Wakes.refl (s : Sched π) : Wakes s s [] :=
  ⟨by simp, fun _ _ => rfl, fun _ _ => rfl, fun _ _ => Iff.rfl, rfl, rfl⟩

/-- Who has been woken stays so. -/
theorem Wakes.keep (h : Wakes s s' ps) (hp : s.Woken p) : s'.Woken p := by
  by_cases hm : p ∈ ps
  · exact h.woken p hm
  · refine ⟨(h.state p hm).trans hp.state, (h.waitState p hm).trans hp.waitState, ?_⟩
    rw [h.current, h.idleproc, h.mem_runList p hm]
    exact hp.queued

theorem Wakes.ready (h : Wakes s s' ps) (hp : s.Waits p ∨ s.Woken p) :
    s'.Waits p ∨ s'.Woken p := by
  rcases hp with hp | hp
  · by_cases hm : p ∈ ps
    · exact .inr (h.woken p hm)
    · refine .inl ⟨(h.state p hm).trans hp.state, ?_, mt (h.mem_runList p hm).1 hp.notMem⟩
      rw [h.waitState p hm]
      exact hp.interrupted
  · exact .inr (h.keep hp)

theorem Wakes.cons {s₁ : Sched π} (h : Wakes s s₁ [p]) (h' : Wakes s₁ s' ps) :
    Wakes s s' (p :: ps) := by
  have hne : ∀ {q}, q ∉ p :: ps → q ∉ [p] ∧ q ∉ ps := by
    intro q hq
    rw [List.mem_cons, not_or] at hq
    exact ⟨by simpa using hq.1, hq.2⟩
  refine ⟨fun q hq => ?_, fun q hq => ?_, fun q hq => ?_, fun q hq => ?_,
    h'.current.trans h.current, h'.idleproc.trans h.idleproc⟩
  · rcases List.mem_cons.1 hq with rfl | hq
    · exact h'.keep (h.woken q (by simp))
    · exact h'.woken q hq
  · exact (h'.state q (hne hq).2).trans (h.state q (hne hq).1)
  · exact (h'.waitState q (hne hq).2).trans (h.waitState q (hne hq).1)
  · exact (h'.mem_runList q (hne hq).2).trans (h.mem_runList q (hne hq).1)

/-- Stores into other fields. -/
theorem Wakes.setProc (h : Wakes s s' ps) {f : SchedProc → SchedProc}
    (hs : ∀ q, (f q).state = q.state) (hw : ∀ q, (f q).waitState = q.waitState) :
    Wakes s (s'.setProc p f) ps := by
  have hst : ∀ q, ((s'.setProc p f).proc q).state = (s'.proc q).state := fun q => by
    by_cases hq : q = p
    · rw [hq, setProc_proc_self, hs]
    · rw [setProc_proc_of_ne _ hq]
  have hws : ∀ q, ((s'.setProc p f).proc q).waitState = (s'.proc q).waitState := fun q => by
    by_cases hq : q = p
    · rw [hq, setProc_proc_self, hw]
    · rw [setProc_proc_of_ne _ hq]
  refine ⟨fun q hq => ?_, fun q hq => (hst q).trans (h.state q hq),
    fun q hq => (hws q).trans (h.waitState q hq), h.mem_runList, h.current, h.idleproc⟩
  have := h.woken q hq
  exact ⟨(hst q).trans this.state, (hws q).trans this.waitState, this.queued⟩

/-- The tick of the scheduler sets other fields only. -/
theorem Wakes.schedClassProcTick (h : Wakes s s' ps) : Wakes s (s'.schedClassProcTick p) ps := by
  have hset : ∀ {s₁ : Sched π} {f : SchedProc → SchedProc} {b : Prop} [Decidable b],
      Wakes s s₁ ps → (∀ q, (f q).state = q.state) → (∀ q, (f q).waitState = q.waitState) →
        Wakes s (if b then s₁.setProc p f else s₁) ps := by
    intro s₁ f b _ h₁ hs hw
    split_ifs
    · exact h₁.setProc hs hw
    · exact h₁
  unfold Sched.schedClassProcTick
  split_ifs
  · exact hset (hset h (fun _ => rfl) fun _ => rfl) (fun _ => rfl) fun _ => rfl
  · exact h.setProc (fun _ => rfl) fun _ => rfl

/-- A process in an interruptible wait can be woken, also more than once. -/
theorem wakeupProc_spec (h : s.Waits p ∨ s.Woken p) :
    ∃ s', s.wakeupProc p = some s' ∧ Wakes s s' [p] := by
  rcases h with h | h
  · obtain ⟨s', hs', hw⟩ := wakeupProc_of_notMem (by simp [h.state]) (by simp [h.state]) h.notMem
    refine ⟨s', hs', by simpa using hw.woken, by simpa using hw.state, by simpa using hw.waitState,
      fun q hq => ?_, hw.current, hw.idleproc⟩
    rw [hw.runList]
    split_ifs
    · rfl
    · rw [List.mem_append]
      exact or_iff_left hq
  · exact ⟨s, wakeupProc_of_runnable h.state, by simpa using h, fun _ _ => rfl, fun _ _ => rfl,
      fun _ _ => Iff.rfl, rfl, rfl⟩

end Wakes

/-! ## The run queue -/

omit [DecidableEq π] in
theorem nodup_append_singleton {l : List π} (h : l.Nodup) (hp : p ∉ l) : (l ++ [p]).Nodup := by
  rw [← List.concat_eq_append]
  exact (List.nodup_concat l p).2 ⟨hp, h⟩

/-- The run list holds each runnable process once, the current one and the idle one apart. -/
structure RunQueue (s : Sched π) : Prop where
  nodup : s.runList.Nodup
  mem_iff : ∀ p, p ∈ s.runList ↔ (s.proc p).state = .runnable ∧ p ≠ s.current ∧ p ≠ s.idleproc
  rq : ∀ p ∈ s.runList, (s.proc p).rq = true
  idle : (s.proc s.idleproc).state = .runnable

omit [DecidableEq π] in
theorem RunQueue.notMem (h : s.RunQueue) (hp : (s.proc p).state ≠ .runnable) : p ∉ s.runList :=
  fun hm => hp ((h.mem_iff p).1 hm).1

/-- The other fields that the semaphores read are as before. -/
structure SameProcs (s s' : Sched π) : Prop where
  state : ∀ q, (s'.proc q).state = (s.proc q).state
  waitState : ∀ q, (s'.proc q).waitState = (s.proc q).waitState
  idleproc : s'.idleproc = s.idleproc

theorem RunQueue.wakeupProc (h : s.RunQueue) (hz : (s.proc p).state ≠ .zombie) :
    ∃ s', s.wakeupProc p = some s' ∧ s'.RunQueue ∧ (s'.proc p).state = .runnable ∧
      (∀ q, q ≠ p → (s'.proc q).state = (s.proc q).state) ∧
      (∀ q, q ≠ p → (s'.proc q).waitState = (s.proc q).waitState) ∧
      ((s.proc p).state = .runnable → s' = s) ∧
      s'.idleproc = s.idleproc ∧ s'.current = s.current := by
  by_cases hr : (s.proc p).state = .runnable
  · exact ⟨s, wakeupProc_of_runnable hr, h, hr, fun _ _ => rfl, fun _ _ => rfl, fun _ => rfl, rfl, rfl⟩
  · have hm := h.notMem hr
    obtain ⟨s', hs', hw⟩ := wakeupProc_of_notMem hz hr hm
    refine ⟨s', hs', ⟨?_, fun q => ?_, fun q hq => ?_, ?_⟩, hw.woken.state, hw.state, hw.waitState,
      fun h => absurd h hr, hw.idleproc, hw.current⟩
    · rw [hw.runList]
      split_ifs
      · exact h.nodup
      · exact nodup_append_singleton h.nodup hm
    · rw [hw.runList, hw.idleproc, hw.current]
      by_cases hqp : q = p
      · rw [hqp]
        split_ifs with hc
        · simp [hm, hw.woken.state]
          exact hc.resolve_left
        · simp [hw.woken.state, not_or.1 hc]
      · rw [hw.state q hqp, ← h.mem_iff q]
        split_ifs <;> simp [hqp]
    · rw [hw.runList] at hq
      by_cases hqp : q = p
      · subst hqp
        split_ifs at hq with hc
        · exact absurd hq hm
        · exact hw.rq_self (fun h => hc (.inl h)) fun h => hc (.inr h)
      · rw [hw.rq q hqp]
        refine h.rq q ?_
        split_ifs at hq
        · exact hq
        · simpa [hqp] using hq
    · rw [hw.idleproc]
      by_cases hi : s.idleproc = p
      · rw [hi]
        exact hw.woken.state
      · rw [hw.state _ hi, h.idle]

/-- What the current process is does not matter to the run queue. -/
theorem RunQueue.setCurrent (h : s.RunQueue) (hc : s.current ≠ s.idleproc)
    (f : SchedProc → SchedProc) : (s.setProc s.current f).RunQueue := by
  refine ⟨h.nodup, fun q => ?_, fun q hq => ?_, ?_⟩
  · by_cases hq : q = s.current
    · subst hq
      simp [h.mem_iff]
    · rw [setProc_proc_of_ne _ hq]
      exact h.mem_iff q
  · have hqc : q ≠ s.current := ((h.mem_iff q).1 hq).2.1
    rw [setProc_proc_of_ne _ hqc]
    exact h.rq q hq
  · rw [setProc_idleproc, setProc_proc_of_ne _ hc.symm]
    exact h.idle

/-- A process outside of the run queue is set up anew. -/
theorem RunQueue.setProc (h : s.RunQueue) (hp : (s.proc p).state ≠ .runnable)
    {f : SchedProc → SchedProc} (hf : (f (s.proc p)).state ≠ .runnable) :
    (s.setProc p f).RunQueue := by
  have hne : ∀ q, (s.proc q).state = .runnable → q ≠ p := fun q hq he => hp (he ▸ hq)
  refine ⟨h.nodup, fun q => ?_, fun q hq => ?_, ?_⟩
  · by_cases hq : q = p
    · rw [hq]
      simp [hf, h.mem_iff, hp]
    · rw [setProc_proc_of_ne _ hq]
      exact h.mem_iff q
  · rw [setProc_proc_of_ne _ (hne q ((h.mem_iff q).1 hq).1)]
    exact h.rq q hq
  · rw [setProc_idleproc, setProc_proc_of_ne _ (hne _ h.idle)]
    exact h.idle

/-- As `RunQueue`, with the current process in the list if it is runnable. -/
structure AllQueued (s : Sched π) : Prop where
  nodup : s.runList.Nodup
  mem_iff : ∀ p, p ∈ s.runList ↔ (s.proc p).state = .runnable ∧ p ≠ s.idleproc
  rq : ∀ p ∈ s.runList, (s.proc p).rq = true
  idle : (s.proc s.idleproc).state = .runnable

/-- The first half of `schedule`: a current process that can go on is queued. -/
theorem RunQueue.enqueueCurrent (h : s.RunQueue) : ∃ s', s.enqueueCurrent = some s' ∧
    s'.AllQueued ∧ SameProcs s s' := by
  have hm : s.current ∉ s.runList := fun hm => ((h.mem_iff _).1 hm).2.1 rfl
  by_cases hr : (s.proc s.current).state = .runnable
  · obtain ⟨s', hs', hcase⟩ := schedClassEnqueue_spec hm
    refine ⟨s', (if_pos hr).trans hs', ?_⟩
    rcases hcase with ⟨hi, rfl⟩ | ⟨hi, he⟩
    · refine ⟨⟨h.nodup, fun p => ?_, h.rq, h.idle⟩, fun _ => rfl, fun _ => rfl, rfl⟩
      rw [h.mem_iff, hi]
      simp
    · refine ⟨⟨?_, fun p => ?_, fun p hp => ?_, ?_⟩, he.state, he.waitState, he.idleproc⟩
      · rw [he.runList]
        exact nodup_append_singleton h.nodup hm
      · rw [he.runList, he.state, he.idleproc, List.mem_append, List.mem_singleton, h.mem_iff]
        by_cases hp : p = s.current
        · simp [hp, hr, hi]
        · simp [hp]
      · rw [he.runList, List.mem_append, List.mem_singleton] at hp
        by_cases hpc : p = s.current
        · rw [hpc]
          exact he.rq_self
        · rw [he.rq p hpc]
          exact h.rq p (hp.resolve_right hpc)
      · rw [he.idleproc, he.state]
        exact h.idle
  · refine ⟨s, if_neg hr, ⟨h.nodup, fun p => ?_, h.rq, h.idle⟩, fun _ => rfl, fun _ => rfl, rfl⟩
    rw [h.mem_iff]
    constructor
    · rintro ⟨h1, -, h3⟩
      exact ⟨h1, h3⟩
    · rintro ⟨h1, h3⟩
      exact ⟨h1, fun hp => hr (hp ▸ h1), h3⟩

/-- The second half: the process that is taken off is runnable. -/
theorem AllQueued.dequeueNext (h : s.AllQueued) : ∃ next s', s.dequeueNext = some (next, s') ∧
    (s.proc next).state = .runnable ∧ s'.proc = s.proc ∧ s'.idleproc = s.idleproc ∧
      s'.runList = s.runList.erase next := by
  unfold Sched.dequeueNext rrPickNext
  cases hl : s.runList with
  | nil => exact ⟨s.idleproc, s, rfl, h.idle, rfl, rfl, by simp [hl]⟩
  | cons n rest =>
    have hn : n ∈ s.runList := by simp [hl]
    have hd : s.rrDequeue n =
        some { s with runList := s.runList.erase n, procNum := s.procNum - 1 } :=
      if_pos ⟨hn, h.rq n hn⟩
    refine ⟨n, { s with runList := s.runList.erase n, procNum := s.procNum - 1 }, ?_,
      ((h.mem_iff n).1 hn).1, rfl, rfl, by rw [hl]⟩
    simp only [List.head?_cons, hd, Option.map_some]

/-- Fields that neither the run queue nor the semaphores read. -/
theorem setProc_sameProcs {f : SchedProc → SchedProc} (hs : ∀ q, (f q).state = q.state)
    (hw : ∀ q, (f q).waitState = q.waitState) : SameProcs s (s.setProc p f) := by
  refine ⟨fun q => ?_, fun q => ?_, rfl⟩
  all_goals
    by_cases hq : q = p
    · simp [hq, hs, hw]
    · rw [setProc_proc_of_ne _ hq]

theorem setProc_rq {f : SchedProc → SchedProc} (hf : ∀ q, (f q).rq = q.rq) (q : π) :
    ((s.setProc p f).proc q).rq = (s.proc q).rq := by
  by_cases hq : q = p
  · simp [hq, hf]
  · rw [setProc_proc_of_ne _ hq]

omit [DecidableEq π] in
theorem SameProcs.trans {s₁ s₂ s₃ : Sched π} (h : SameProcs s₁ s₂) (h' : SameProcs s₂ s₃) :
    SameProcs s₁ s₃ :=
  ⟨fun q => (h'.state q).trans (h.state q), fun q => (h'.waitState q).trans (h.waitState q),
    h'.idleproc.trans h.idleproc⟩

/-- `schedule` goes on with a runnable process. -/
theorem RunQueue.schedule (h : s.RunQueue) : ∃ s', s.schedule = some s' ∧ s'.RunQueue ∧
    SameProcs s s' ∧ (s'.proc s'.current).state = .runnable := by
  obtain ⟨s₁, hs₁⟩ : ∃ s₁, s₁ = s.setProc s.current fun q => { q with needResched := false } :=
    ⟨_, rfl⟩
  have hsame₁ : SameProcs s s₁ := hs₁ ▸ setProc_sameProcs (fun _ => rfl) fun _ => rfl
  have h₁ : s₁.RunQueue := by
    refine ⟨by rw [hs₁]; exact h.nodup, fun q => ?_, fun q hq => ?_, ?_⟩
    · rw [hsame₁.state, hs₁]
      exact h.mem_iff q
    · rw [hs₁]
      have hrq := setProc_rq (s := s) (p := s.current) (f := fun q => { q with needResched := false })
        (fun _ => rfl) q
      exact hrq.trans (h.rq q (by rwa [hs₁] at hq))
    · rw [hsame₁.idleproc, hsame₁.state]
      exact h.idle
  obtain ⟨s₂, hs₂, h₂, hsame₂⟩ := h₁.enqueueCurrent
  have hsame := hsame₁.trans hsame₂
  obtain ⟨next, s₃, hs₃, hrun, hproc, hidle, hlist⟩ := h₂.dequeueNext
  have hsame₃ : SameProcs s₂ (s₃.procRun next) := by
    have h₃ := setProc_sameProcs (s := s₃) (p := next) (f := fun q => { q with runs := q.runs + 1 })
      (fun _ => rfl) fun _ => rfl
    refine ⟨fun q => ?_, fun q => ?_, hidle⟩
    · exact (h₃.state q).trans (by rw [hproc])
    · exact (h₃.waitState q).trans (by rw [hproc])
  refine ⟨s₃.procRun next, ?_, ⟨?_, fun q => ?_, fun q hq => ?_, ?_⟩, hsame.trans hsame₃, ?_⟩
  · simp [Sched.schedule, ← hs₁, hs₂, hs₃]
  · change s₃.runList.Nodup
    rw [hlist]
    exact h₂.nodup.erase next
  · rw [hsame₃.state]
    change q ∈ s₃.runList ↔ (s₂.proc q).state = _ ∧ q ≠ next ∧ q ≠ s₃.idleproc
    rw [hlist, h₂.nodup.mem_erase_iff, h₂.mem_iff, hidle]
    tauto
  · have hq₃ : q ∈ s₃.runList := hq
    rw [hlist] at hq₃
    have hrq := setProc_rq (s := s₃) (p := next) (f := fun q => { q with runs := q.runs + 1 })
      (fun _ => rfl) q
    refine hrq.trans ?_
    rw [hproc]
    exact h₂.rq q (List.mem_of_mem_erase hq₃)
  · rw [hsame₃.idleproc, hsame₃.state]
    exact h₂.idle
  · rw [hsame₃.state]
    exact hrun

end Sched

end Ucore

end CacheCPU
