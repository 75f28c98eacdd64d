import CacheCPU.Lib.LinkedRing
import Mathlib.Data.BitVec

/-!
# `kern/schedule`: the run queue, `wakeup_proc`, `schedule` and the timers

A process is a member of a type `π`, of which `idleproc` is one. The run list is the list of the
processes whose `run_link` is in it, so `list_empty(&(proc->run_link))` says that `proc` is not.
The timers are kept as the source keeps them, in a linked list with the entries inside; a timer is
its address. `none` is a failed assertion, or a walk longer than there are addresses.
-/

namespace CacheCPU

namespace Ucore

open LinkedRing

/-- `enum proc_state`. -/
inductive ProcState where
  | uninit
  | sleeping
  | runnable
  | zombie
  deriving DecidableEq

/-- `WT_INTERRUPTED`. -/
def wtInterrupted : BitVec 32 := 0x80000000#32

/-- `WT_KSEM`. -/
def wtKsem : BitVec 32 := 0x00000100#32

/-- The fields of `struct proc_struct` that the scheduler uses. `rq` tells whether `proc->rq` has
been set to the run queue. -/
structure SchedProc where
  state : ProcState
  waitState : BitVec 32
  needResched : Bool
  runs : ℕ
  timeSlice : ℤ
  rq : Bool

/-- `MAX_TIME_SLICE`. -/
def maxTimeSlice : ℤ := 20

structure Sched (π : Type) where
  proc : π → SchedProc
  idleproc : π
  current : π
  runList : List π
  procNum : ℕ

namespace Sched

variable {π : Type} [DecidableEq π] (s : Sched π)

/-- A store into the fields of `p`. -/
def setProc (p : π) (f : SchedProc → SchedProc) : Sched π :=
  { s with proc := Function.update s.proc p (f (s.proc p)) }

@[simp] theorem setProc_proc_self (p : π) (f : SchedProc → SchedProc) :
    (s.setProc p f).proc p = f (s.proc p) := Function.update_self ..

theorem setProc_proc_of_ne {p q : π} (h : q ≠ p) (f : SchedProc → SchedProc) :
    (s.setProc p f).proc q = s.proc q := Function.update_of_ne h _ _

@[simp] theorem setProc_idleproc (p : π) (f : SchedProc → SchedProc) :
    (s.setProc p f).idleproc = s.idleproc := rfl

@[simp] theorem setProc_current (p : π) (f : SchedProc → SchedProc) :
    (s.setProc p f).current = s.current := rfl

@[simp] theorem setProc_runList (p : π) (f : SchedProc → SchedProc) :
    (s.setProc p f).runList = s.runList := rfl

/-! ## `default_sched.c` -/

def rrEnqueue (p : π) : Option (Sched π) :=
  if p ∈ s.runList then none
  else
    let s := { s with runList := s.runList ++ [p], procNum := s.procNum + 1 }
    some (s.setProc p fun q =>
      { q with
        timeSlice := if q.timeSlice = 0 ∨ maxTimeSlice < q.timeSlice then maxTimeSlice
          else q.timeSlice
        rq := true })

def rrDequeue (p : π) : Option (Sched π) :=
  if p ∈ s.runList ∧ (s.proc p).rq then
    some { s with runList := s.runList.erase p, procNum := s.procNum - 1 }
  else none

def rrPickNext : Option π := s.runList.head?

def rrProcTick (p : π) : Sched π :=
  let s := if 0 < (s.proc p).timeSlice then
    s.setProc p fun q => { q with timeSlice := q.timeSlice - 1 } else s
  if (s.proc p).timeSlice = 0 then s.setProc p fun q => { q with needResched := true } else s

/-! ## `sched.c` -/

def schedClassEnqueue (p : π) : Option (Sched π) :=
  if p ≠ s.idleproc then s.rrEnqueue p else some s

def schedClassProcTick (p : π) : Sched π :=
  if p ≠ s.idleproc then s.rrProcTick p
  else s.setProc p fun q => { q with needResched := true }

def wakeupProc (p : π) : Option (Sched π) :=
  if (s.proc p).state = .zombie then none
  else if (s.proc p).state ≠ .runnable then
    let s := s.setProc p fun q => { q with state := .runnable, waitState := 0#32 }
    if p ≠ s.current then s.schedClassEnqueue p else some s
  else some s

/-- The current process goes back to the run queue if it can go on. -/
def enqueueCurrent : Option (Sched π) :=
  if (s.proc s.current).state = .runnable then s.schedClassEnqueue s.current else some s

/-- The first process of the run queue, taken off it, or the idle process. -/
def dequeueNext : Option (π × Sched π) :=
  match s.rrPickNext with
  | some next => (s.rrDequeue next).map fun s => (next, s)
  | none => some (s.idleproc, s)

def procRun (next : π) : Sched π :=
  let s := s.setProc next fun q => { q with runs := q.runs + 1 }
  { s with current := next }

/-- `schedule`, up to where `proc_run` has made the next process current. -/
def schedule : Option (Sched π) := do
  let s ← (s.setProc s.current fun q => { q with needResched := false }).enqueueCurrent
  let (next, s) ← s.dequeueNext
  return s.procRun next

end Sched

/-! ## Timers -/

/-- The fields of the timers, and the links through `timer_list` and the timers. -/
structure TimerList (π : Type) where
  expires : BitVec 32 → ℕ
  proc : BitVec 32 → π
  link : Links (BitVec 32)

namespace TimerList

variable {π : Type} (T : TimerList π) (t : BitVec 32)

/-- `list_empty(&(timer->timer_link))`. -/
def linkEmpty : Prop := T.link.next (some t) = some t

instance : Decidable (T.linkEmpty t) := inferInstanceAs (Decidable (_ = _))

def setExpires (e : ℕ) : TimerList π := { T with expires := Function.update T.expires t e }

def timerInit (p : π) (e : ℕ) : TimerList π :=
  { expires := Function.update T.expires t e
    proc := Function.update T.proc t p
    link := T.link.initEntry (some t) }

/-- The walk of `add_timer` from `le` on. -/
def addFrom (T : TimerList π) : ℕ → Option (BitVec 32) → Option (TimerList π)
  | 0, _ => none
  | _ + 1, none => some { T with link := T.link.addBefore none (some t) }
  | fuel + 1, some next =>
    if T.expires t < T.expires next then
      let T := T.setExpires next (T.expires next - T.expires t)
      some { T with link := T.link.addBefore (some next) (some t) }
    else
      addFrom (T.setExpires t (T.expires t - T.expires next)) fuel (T.link.next (some next))

def addTimer : Option (TimerList π) :=
  if T.expires t = 0 ∨ ¬ T.linkEmpty t then none
  else T.addFrom t (2 ^ 32 + 1) (T.link.next none)

def delTimer : TimerList π :=
  if T.linkEmpty t then T
  else
    let T := if T.expires t ≠ 0 then
        match T.link.next (some t) with
        | some next => T.setExpires next ((T.expires next + T.expires t) % 2 ^ 32)
        | none => T
      else T
    { T with link := T.link.delInit (some t) }

variable [DecidableEq π]

/-- The loop of `run_timer_list`, with the calls of `wakeup_proc` it makes. -/
def fireFrom (T : TimerList π) (s : Sched π) (t : BitVec 32) :
    ℕ → Option (TimerList π × Sched π × List (BitVec 32 × π))
  | 0 => none
  | fuel + 1 =>
    if T.expires t = 0 then
      let le := T.link.next (some t)
      let p := T.proc t
      if (s.proc p).waitState ≠ 0#32 ∧ (s.proc p).waitState &&& wtInterrupted = 0#32 then none
      else do
        let s ← s.wakeupProc p
        let T := T.delTimer t
        match le with
        | none => return (T, s, [(t, p)])
        | some t' =>
          let (T, s, log) ← fireFrom T s t' fuel
          return (T, s, (t, p) :: log)
    else some (T, s, [])

def runTimerList (s : Sched π) : Option (TimerList π × Sched π × List (BitVec 32 × π)) := do
  let (T, s, log) ← match T.link.next none with
    | none => some (T, s, [])
    | some t =>
      if T.expires t = 0 then none
      else (T.setExpires t (T.expires t - 1)).fireFrom s t (2 ^ 32 + 1)
  return (T, s.schedClassProcTick s.current, log)

end TimerList

end Ucore

end CacheCPU
