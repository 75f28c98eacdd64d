import CacheCPU.Ucore.Vmm

/-!
# Page faults

`do_pgfault` of `kern/mm/vmm.c` with what it calls, and `tlb_miss_handler` of `kern/mm/tlb.c` with
the way through it, on the page tables of `Ucore.Tlb`. What `alloc_page` returns is given, so that
it may be a null pointer at any call.
-/

namespace CacheCPU

namespace Ucore

/-- How the handler ends without a return: a panic or a failed assertion, an access through a null
pointer, or `do_exit`. -/
inductive Abort
  | panic
  | null
  | exit
  deriving DecidableEq

/-- What else the path depends on: the results of the calls of `alloc_page`, in their order,
`swap_init_ok`, and whether `mm->sm_priv` is set. -/
structure Env where
  alloc : ℕ → Option (BitVec 20)
  swapInitOk : Bool
  smPriv : Bool

namespace Mm

variable (m : Mm) (v : ℕ)

/-- The `switch (error_code & 3)` of `do_pgfault`. -/
def faultOk (errorCode : BitVec 32) : Bool :=
  if errorCode &&& 3#32 = 1#32 then false
  else if errorCode &&& 3#32 = 0#32 then has (m.vma v).vmFlags (vmRead ||| vmExec)
  else has (m.vma v).vmFlags vmWrite

/-- `perm` of `do_pgfault`: `PTE_U`, and `PTE_W` for an area that can be written. -/
def permOf : BitVec 3 := if has (m.vma v).vmFlags vmWrite then 6#3 else 4#3

end Mm

namespace Kernel

variable (s : Kernel ℕ) (e : Env)

/-- `get_pte` with `create`, as the call of `alloc_page` number `k`: what `*ptep` is, unless it is
null. The descriptor of the new page is written before anything else. -/
def getPteCreate (k d : ℕ) (la : BitVec 32) :
    Except Abort (Kernel ℕ × ℕ × Option (BitVec 32)) :=
  match s.getPte d la with
  | some pte => .ok (s, k, some pte)
  | none =>
    match e.alloc k with
    | none => .error .null
    | some _ => .ok (s.createPt d la, k + 1, some 0#32)

/-- `page_insert`, with its call of `get_pte`. -/
def pageInsertCreate (k d : ℕ) (la : BitVec 32) (page : BitVec 20) (perm : BitVec 3) :
    Except Abort (Kernel ℕ × ℕ × ℤ) := do
  let (s, k, ptep) ← s.getPteCreate e k d la
  match ptep with
  | none => return (s, k, -eNoMem)
  | some _ =>
    match s.pageInsert d la page perm with
    | none => .error .panic
    | some s => return (s, k, 0)

/-- `pgdir_alloc_page`, less what it does for `check_mm_struct`. -/
def pgdirAllocPage (k d : ℕ) (la : BitVec 32) (perm : BitVec 3) :
    Except Abort (Kernel ℕ × ℕ × Option (BitVec 20)) :=
  match e.alloc k with
  | none => .ok (s, k + 1, none)
  | some page => do
    let (s, k, ret) ← s.pageInsertCreate e (k + 1) d la page perm
    return (s, k, if ret = 0 then some page else none)

/-- `swap_in`, which reads nothing from the flash, and its result. -/
def swapIn (k : ℕ) : Except Abort (ℕ × BitVec 20) :=
  match e.alloc k with
  | none => .error .panic
  | some page => .ok (k + 1, page)

/-- `do_pgfault` after the checks. -/
def servePgfault (d : ℕ) (addr : BitVec 32) (perm : BitVec 3) :
    Except Abort (Kernel ℕ × ℤ) := do
  let (s, k, ptep) ← s.getPteCreate e 0 d addr
  match ptep with
  | none => .error .null
  | some pte =>
    if pte = 0#32 then
      let (s, _, _) ← s.pgdirAllocPage e k d addr perm
      return (s, 0)
    else if e.swapInitOk then
      let (k, page) ← swapIn e k
      let (s, _, _) ← s.pageInsertCreate e k d addr page perm
      -- `swap_map_swappable` asserts that the list is there
      if e.smPriv then return (s, 0) else .error .panic
    else return (s, -eNoMem)

def doPgfault (m : Mm) (errorCode addr : BitVec 32) : Except Abort (Kernel ℕ × Mm × ℤ) :=
  match m.findVma addr with
  | none => .error .panic
  | some (m, none) => .ok (s, m, -eInval)
  | some (m, some v) =>
    if (m.vma v).vmStart > addr then .ok (s, m, -eInval)
    else if !m.faultOk v errorCode then .ok (s, m, -eInval)
    else do
      let (s, ret) ← s.servePgfault e m.pgdir (roundDown addr pgsize) (m.permOf v)
      return (s, m, ret)

/-- The part of `tlb_miss_handler` behind the page fault, where `*ptep` is `pte`. -/
def tlbInstall (d : ℕ) (la pte : BitVec 32) : Kernel ℕ :=
  match (s.getPte d (tlbPair la)).filter (has · tlbP) with
  | some pte2 => s.tlbRefill d la (tlbIdx pte2) (entryLo pte) (entryLo pte2)
  | none =>
    let (s, idx) := s.tlbGetEmpty d (hiOf la)
    s.tlbRefill d la idx (entryLo pte) entryLoInvalid

/-- `tlb_miss_handler` at the address `la`, with `mm` as it finds it in `check_mm_struct` or in
`current`. -/
def tlbMissHandlerFault (mm : Option Mm) (store : Bool) (la : BitVec 32) :
    Except Abort (Kernel ℕ × Option Mm) :=
  match s.curPgdir with
  | none => .error .panic
  | some d => do
    let (s, mm) ← (
      if (s.getPte d la).any (has · pteP) then .ok (s, mm)
      else match mm with
        | none => .error .panic
        | some m =>
          if m.pgdir ≠ d then .error .panic
          else do
            let (s, m, ret) ← s.doPgfault e m (if store then 2#32 else 0#32) la
            if ret ≠ 0 then .error .exit else .ok (s, some m))
    match s.getPte d la with
    | none => .error .null
    | some pte => return (s.tlbInstall d la pte, mm)

end Kernel

end Ucore

end CacheCPU
