import CacheCPU.Lib.LinkCycle
import CacheCPU.Lib.LinkedRing
import CacheCPU.Ucore.Sched

/-!
# The process table: `kern/process/proc.c`

A process is the address of its `struct proc_struct`, and `alloc` tells which addresses `kmalloc`
has handed out. `proc_list` is linked through the processes, each of the hash chains through the
processes and its own head, and the children of a process through `cptr`, `optr` and `yptr`.
`next_safe` and `last_pid` are the static variables of `get_pid`. A walk takes as many steps as the
source does, up to a bound; `none` is a walk that goes on beyond it, a panic, or a null pointer that
is followed.

Who sleeps and is woken belongs to the scheduler and is left out: of the states only `PROC_ZOMBIE`
matters here.
-/

namespace CacheCPU

namespace Ucore

open LinkedRing LinkCycle

/-- `MAX_PROCESS`. -/
def maxProcess : ℕ := 4096

/-- `MAX_PID`. -/
def maxPid : ℕ := maxProcess * 2

/-- `pid_hashfn`. -/
def pidHashfn (pid : ℕ) : BitVec 10 :=
  ((BitVec.ofNat 32 pid * 0x9e370001#32) >>> (32 - 10)).setWidth 10

structure ProcTable (π : Type) where
  alloc : π → Bool
  state : π → ProcState
  pid : π → ℕ
  parent : π → Option π
  cptr : π → Option π
  optr : π → Option π
  yptr : π → Option π
  procList : Links π
  /-- The heads `hash_list` and the `hash_link` of the processes. -/
  hashLink : Nodes (BitVec 10 ⊕ π)
  nrProcess : ℕ
  nextSafe : ℕ
  lastPid : ℕ
  idleproc : π
  initproc : Option π

namespace ProcTable

variable {π : Type} [DecidableEq π] (s : ProcTable π)

/-- A store into a field of the process that is pointed to, unless the pointer is null. -/
def store (field : π → Option π) : Option π → Option π → π → Option π
  | some p, v => Function.update field p v
  | none, _ => field

/-- `set_links`, with the parent of the process. -/
def setLinks (proc parent : π) : ProcTable π :=
  let optr := s.cptr parent
  { s with
    procList := s.procList.addAfter none (some proc)
    yptr := store (Function.update s.yptr proc none) optr (some proc)
    optr := Function.update s.optr proc optr
    cptr := Function.update s.cptr parent (some proc)
    nrProcess := s.nrProcess + 1 }

/-- `remove_links`. -/
def removeLinks (proc : π) : Option (ProcTable π) :=
  let s := { s with
    procList := s.procList.del (some proc)
    yptr := store s.yptr (s.optr proc) (s.yptr proc)
    nrProcess := s.nrProcess - 1 }
  match s.yptr proc with
  | some y => some { s with optr := Function.update s.optr y (s.optr proc) }
  | none => (s.parent proc).map fun q =>
      { s with cptr := Function.update s.cptr q (s.optr proc) }

/-- The loop of `get_pid` from the entry `le` on. -/
def getPidFrom : ℕ → Option π → ℕ → ℕ → Option (ℕ × ℕ)
  | 0, _, _, _ => none
  | fuel + 1, le, lastPid, nextSafe =>
    match s.procList.next le with
    | none => some (lastPid, nextSafe)
    | some proc =>
      if s.pid proc = lastPid then
        if nextSafe ≤ lastPid + 1 then
          getPidFrom fuel none (if maxPid ≤ lastPid + 1 then 1 else lastPid + 1) maxPid
        else getPidFrom fuel (some proc) (lastPid + 1) nextSafe
      else if lastPid < s.pid proc ∧ s.pid proc < nextSafe then
        getPidFrom fuel (some proc) lastPid (s.pid proc)
      else getPidFrom fuel (some proc) lastPid nextSafe

/-- `get_pid`: the new `last_pid`, which it returns, and the new `next_safe`. -/
def getPid : Option (ℕ × ℕ) :=
  if maxPid ≤ s.lastPid + 1 then s.getPidFrom (2 ^ 26) none 1 maxPid
  else if s.nextSafe ≤ s.lastPid + 1 then s.getPidFrom (2 ^ 26) none (s.lastPid + 1) maxPid
  else some (s.lastPid + 1, s.nextSafe)

def hashProc (proc : π) : ProcTable π :=
  { s with hashLink := s.hashLink.listAdd (.inl (pidHashfn (s.pid proc))) (.inr proc) }

def unhashProc (proc : π) : ProcTable π := { s with hashLink := s.hashLink.listDel (.inr proc) }

/-- The loop of `find_proc` from the entry `le` on. -/
def findProcFrom (pid : ℕ) (list : BitVec 10 ⊕ π) : ℕ → BitVec 10 ⊕ π → Option (Option π)
  | 0, _ => none
  | fuel + 1, le =>
    let le := s.hashLink.next le
    if le = list then some none
    else match le with
      | .inr proc => if s.pid proc = pid then some (some proc) else findProcFrom pid list fuel le
      | .inl _ => none

def findProc (pid : ℤ) : Option (Option π) :=
  if 0 < pid ∧ pid < maxPid then
    let list := .inl (pidHashfn pid.toNat)
    s.findProcFrom pid.toNat list (2 ^ 13) list
  else some none

/-! ## System calls -/

/-- `alloc_proc`, which clears the fields. What it leaves in the links of the two lists does not
matter, and is left out. -/
def allocProc (proc : π) : ProcTable π :=
  { s with
    alloc := Function.update s.alloc proc true
    state := Function.update s.state proc .uninit
    pid := Function.update s.pid proc 0
    parent := Function.update s.parent proc none
    cptr := Function.update s.cptr proc none
    optr := Function.update s.optr proc none
    yptr := Function.update s.yptr proc none }

/-- `do_fork` called by `current` up to its end, with the address `kmalloc` returns. -/
def doFork (current proc : π) : Option (ProcTable π) :=
  let s := s.allocProc proc
  let s := { s with parent := Function.update s.parent proc (some current) }
  s.getPid.map fun (lastPid, nextSafe) =>
    let s := { s with
      pid := Function.update s.pid proc lastPid
      lastPid := lastPid
      nextSafe := nextSafe }
    let s := (s.hashProc proc).setLinks proc current
    { s with state := Function.update s.state proc .runnable }

/-- One turn of the loop of `do_exit`: the child `proc` goes to `initproc`. -/
def adopt (current initproc proc : π) : ProcTable π :=
  let s := { s with
    cptr := Function.update s.cptr current (s.optr proc)
    yptr := Function.update s.yptr proc none }
  let optr := s.cptr initproc
  { s with
    optr := Function.update s.optr proc optr
    yptr := store s.yptr optr (some proc)
    parent := Function.update s.parent proc (some initproc)
    cptr := Function.update s.cptr initproc (some proc) }

/-- The loop of `do_exit`. -/
def adoptAll (current initproc : π) : ℕ → ProcTable π → Option (ProcTable π)
  | 0, _ => none
  | fuel + 1, s =>
    match s.cptr current with
    | none => some s
    | some proc => adoptAll current initproc fuel (s.adopt current initproc proc)

def doExit (current : π) : Option (ProcTable π) :=
  if current = s.idleproc ∨ s.initproc = some current then none
  else
    let s := { s with state := Function.update s.state current .zombie }
    s.initproc.bind fun initproc => adoptAll current initproc (2 ^ 13) s

/-- The loop of `do_wait` over the children from `proc` on. -/
def zombieFrom : ℕ → Option π → Option (Option π)
  | 0, _ => none
  | _ + 1, none => some none
  | fuel + 1, some proc =>
    if s.state proc = .zombie then some (some proc) else zombieFrom fuel (s.optr proc)

/-- The child `do_wait` finds, if there is one it need not wait for. -/
def waitFor (current : π) (pid : ℤ) : Option (Option π) :=
  if pid ≠ 0 then
    (s.findProc pid).map fun proc =>
      proc.filter fun proc => s.parent proc = some current ∧ s.state proc = .zombie
  else s.zombieFrom (2 ^ 13) (s.cptr current)

/-- `do_wait` from `found` on. -/
def reap (proc : π) : Option (ProcTable π) :=
  if proc = s.idleproc ∨ s.initproc = some proc then none
  else ((s.unhashProc proc).removeLinks proc).map fun s =>
    { s with alloc := Function.update s.alloc proc false }

/-- `do_wait` called by `current`: it reaps a child or has to wait. -/
def doWait (current : π) (pid : ℤ) : Option (ProcTable π) :=
  (s.waitFor current pid).bind fun
    | some proc => s.reap proc
    | none => some s

/-- The end of `proc_init`, with the address of the new process. -/
def procInit (proc : π) : Option (ProcTable π) :=
  (s.doFork s.idleproc proc).bind fun s =>
    (s.findProc (s.pid proc)).map fun initproc => { s with initproc := initproc }

end ProcTable

end Ucore

end CacheCPU
