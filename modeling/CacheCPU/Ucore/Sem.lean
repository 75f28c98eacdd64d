import CacheCPU.Ucore.Sched

/-!
# `kern/sync`: wait queues and semaphores

A process has at most one `wait_t` at a time, the one on its stack in `__down`, so the wait queue of
a semaphore is a list of processes. `down` is three atomic steps: what comes before `schedule`,
`schedule`, and what comes after it. Where a process stands between them is `pc`. The log records
what the semaphores have done so far. `none` is a failed assertion.
-/

namespace CacheCPU

namespace Ucore

/-- Where a process stands in `__down`. -/
inductive Point (σ : Type) where
  /-- In no call of `__down`. -/
  | free
  /-- After `wait_current_set`, before `schedule`. -/
  | slept (m : σ)
  /-- In or after `schedule`. -/
  | switched (m : σ)

/-- `wait_t`, less the process it belongs to. -/
structure WaitT (σ : Type) where
  wakeupFlags : BitVec 32
  waitQueue : Option σ

/-- `semaphore_t`; the value is an `int`. -/
structure Semaphore (π : Type) where
  value : BitVec 32
  waitQueue : List π

inductive SemEvent (π σ : Type) where
  | up (m : σ)
  | down (m : σ) (p : π)
  | block (m : σ) (p : π)
  | serve (m : σ) (p : π)

structure SemKernel (π σ : Type) where
  sched : Sched π
  sem : σ → Semaphore π
  wait : π → WaitT σ
  pc : π → Point σ
  log : List (SemEvent π σ)

namespace SemKernel

variable {π σ : Type} [DecidableEq π] [DecidableEq σ] (k : SemKernel π σ)

def setSem (m : σ) (f : Semaphore π → Semaphore π) : SemKernel π σ :=
  { k with sem := Function.update k.sem m (f (k.sem m)) }

def setWait (p : π) (f : WaitT σ → WaitT σ) : SemKernel π σ :=
  { k with wait := Function.update k.wait p (f (k.wait p)) }

def setPc (p : π) (c : Point σ) : SemKernel π σ := { k with pc := Function.update k.pc p c }

def record (e : SemEvent π σ) : SemKernel π σ := { k with log := k.log ++ [e] }

/-! ## `wait.c` -/

/-- `wait_queue_add`, of a wait that has just been initialised. -/
def waitQueueAdd (m : σ) (p : π) : SemKernel π σ :=
  (k.setWait p fun w => { w with waitQueue := some m }).setSem m fun s =>
    { s with waitQueue := s.waitQueue ++ [p] }

def waitQueueDel (m : σ) (p : π) : Option (SemKernel π σ) :=
  if p ∈ (k.sem m).waitQueue ∧ (k.wait p).waitQueue = some m then
    some (k.setSem m fun s => { s with waitQueue := s.waitQueue.erase p })
  else none

def waitInQueue (p : π) : Bool :=
  match (k.wait p).waitQueue with
  | some m => p ∈ (k.sem m).waitQueue
  | none => false

/-- `wakeup_wait` with `del` set. -/
def wakeupWait (m : σ) (p : π) (flags : BitVec 32) : Option (SemKernel π σ) := do
  let k ← k.waitQueueDel m p
  let k := k.setWait p fun w => { w with wakeupFlags := flags }
  let s ← k.sched.wakeupProc p
  return { k with sched := s }

/-- `wait_current_set`: a new wait of the current process. -/
def waitCurrentSet (m : σ) (waitState : BitVec 32) : SemKernel π σ :=
  let p := k.sched.current
  let k := k.setWait p fun w => { w with wakeupFlags := wtInterrupted }
  let k := { k with
    sched := k.sched.setProc p fun q => { q with state := .sleeping, waitState := waitState } }
  k.waitQueueAdd m p

/-! ## `sem.c` -/

def up (m : σ) : Option (SemKernel π σ) :=
  match (k.sem m).waitQueue with
  | [] => some ((k.setSem m fun s => { s with value := s.value + 1#32 }).record (.up m))
  | p :: _ =>
    if (k.sched.proc p).waitState ≠ wtKsem then none
    else (k.wakeupWait m p wtKsem).map fun k => (k.record (.up m)).record (.serve m p)

/-- `__down` up to the call of `schedule`. -/
def downBegin (m : σ) : SemKernel π σ :=
  let p := k.sched.current
  if 0 < (k.sem m).value.toInt then
    (k.setSem m fun s => { s with value := s.value - 1#32 }).record (.down m p)
  else ((k.waitCurrentSet m wtKsem).setPc p (.slept m)).record (.block m p)

/-- `__down` from the return of `schedule` on, and the assertion of `down`. -/
def downEnd (m : σ) : Option (SemKernel π σ) := do
  let p := k.sched.current
  let k ← if k.waitInQueue p then k.waitQueueDel m p else some k
  if (k.wait p).wakeupFlags ≠ wtKsem then none
  else return (k.setPc p .free).record (.down m p)

def tryDown (m : σ) : SemKernel π σ × Bool :=
  if 0 < (k.sem m).value.toInt then
    ((k.setSem m fun s => { s with value := s.value - 1#32 }).record (.down m k.sched.current), true)
  else (k, false)

/-- The current process has called `schedule`. -/
def calledSchedule : SemKernel π σ :=
  match k.pc k.sched.current with
  | .slept m => k.setPc k.sched.current (.switched m)
  | _ => k

/-- `schedule`, called by `__down` or by anything else. -/
def schedule : Option (SemKernel π σ) :=
  k.sched.schedule.map fun s => { k.calledSchedule with sched := s }

def wakeup (p : π) : Option (SemKernel π σ) :=
  (k.sched.wakeupProc p).map fun s => { k with sched := s }

end SemKernel

end Ucore

end CacheCPU
