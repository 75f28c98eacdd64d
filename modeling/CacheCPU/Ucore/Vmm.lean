import CacheCPU.Lib.LinkedRing
import CacheCPU.Ucore.Error
import CacheCPU.Ucore.Pmm

/-!
# `kern/mm/vmm.c`

The virtual memory areas of an address space: a linked list in `mm_struct`, searched with the
area found last kept in `mmap_cache`. An area is named by the number of its `struct vma_struct`.
A failed assertion, or a walk along the list that has not come back to its head after `map_count`
entries, is `none`.
-/

namespace CacheCPU

namespace Ucore

open LinkedRing

/-- `struct vma_struct`, less `vm_mm` and `list_link`, which is in `Mm`. -/
structure Vma where
  vmStart : BitVec 32
  vmEnd : BitVec 32
  vmFlags : BitVec 32

def vmRead : BitVec 32 := 1#32

def vmWrite : BitVec 32 := 2#32

def vmExec : BitVec 32 := 4#32

def vmStack : BitVec 32 := 8#32

def kernBase : BitVec 32 := 0x80000000#32

def kernTop : BitVec 32 := 0x80800000#32

/-- `KERN_ACCESS(start, end)`. -/
def kernAccess (start stop : BitVec 32) : Bool :=
  kernBase ≤ start && start < stop && stop ≤ kernTop

/-- `ROUNDUP(a, n)`. -/
def roundUp (a n : BitVec 32) : BitVec 32 := roundDown (a + n - 1#32) n

/-- `struct mm_struct`, less what locks and swapping need, with the areas themselves. -/
structure Mm where
  vma : ℕ → Vma
  link : Links ℕ
  mmapCache : Option ℕ
  pgdir : ℕ
  mapCount : ℕ
  mmCount : ℤ

namespace Mm

variable (m : Mm)

/-- `mm_create`; the memory it gets may hold anything. -/
def mmCreate (m : Mm) : Mm :=
  { m with link := m.link.init, mmapCache := none, pgdir := 0, mapCount := 0, mmCount := 0 }

/-- `vma_create`, in the memory at `v`. -/
def vmaCreate (v : ℕ) (vmStart vmEnd vmFlags : BitVec 32) : Mm :=
  { m with vma := Function.update m.vma v ⟨vmStart, vmEnd, vmFlags⟩ }

/-- The test of `find_vma`: `vm_start <= addr < vm_end`. -/
def contains (v : ℕ) (addr : BitVec 32) : Bool :=
  (m.vma v).vmStart ≤ addr && addr < (m.vma v).vmEnd

/-- The loop of `find_vma` from `le` on. -/
def findFrom (addr : BitVec 32) : ℕ → Option ℕ → Option (Option ℕ)
  | 0, _ => none
  | fuel + 1, le =>
    match m.link.next le with
    | none => some none
    | some v => if m.contains v addr then some (some v) else findFrom addr fuel (some v)

def findVma (addr : BitVec 32) : Option (Mm × Option ℕ) :=
  match m.mmapCache.filter (m.contains · addr) with
  | some v => some ({ m with mmapCache := some v }, some v)
  | none => do
    match ← m.findFrom addr (m.mapCount + 1) none with
    | some v => return ({ m with mmapCache := some v }, some v)
    | none => return (m, none)

/-- `check_vma_overlap`. -/
def checkVmaOverlap (prev next : ℕ) : Bool :=
  (m.vma prev).vmStart < (m.vma prev).vmEnd && (m.vma prev).vmEnd ≤ (m.vma next).vmStart &&
    (m.vma next).vmStart < (m.vma next).vmEnd

/-- The loop of `insert_vma_struct` from `le`, which is `le_prev` too. -/
def insertPos (v : ℕ) : ℕ → Option ℕ → Option (Option ℕ)
  | 0, _ => none
  | fuel + 1, le =>
    match m.link.next le with
    | none => some le
    | some w =>
      if (m.vma v).vmStart < (m.vma w).vmStart then some le else insertPos v fuel (some w)

def insertVmaStruct (v : ℕ) : Option Mm :=
  if (m.vma v).vmStart < (m.vma v).vmEnd then do
    let prev ← m.insertPos v (m.mapCount + 1) none
    let next := m.link.next prev
    if prev.all (m.checkVmaOverlap · v) && next.all (m.checkVmaOverlap v ·) then
      return { m with link := m.link.addAfter prev (some v), mapCount := m.mapCount + 1 }
    else none
  else none

/-- `mm_map`: the return value, and what is stored at `*vma_store`. The memory for the area is what
`kmalloc` returns. -/
def mmMap (addr len vmFlags : BitVec 32) (kmalloc : Option ℕ) : Option (Mm × ℤ × Option ℕ) :=
  let start := roundDown addr pgsize
  let stop := roundUp (addr + len) pgsize
  if !userAccess start stop then some (m, -eInval, none)
  else do
    let (m, vma) ← m.findVma start
    if vma.any fun v => (m.vma v).vmStart < stop then return (m, -eInval, none)
    else
      match kmalloc with
      | none => return (m, -eNoMem, none)
      | some v => do
        let m ← (m.vmaCreate v start stop vmFlags).insertVmaStruct v
        return (m, 0, some v)

/-- The loop of `user_mem_check`. -/
def checkFrom (write : Bool) (stop : BitVec 32) (m : Mm) : ℕ → BitVec 32 → Option (Mm × Bool)
  | 0, _ => none
  | fuel + 1, start =>
    if start < stop then do
      match ← m.findVma start with
      | (m, none) => return (m, false)
      | (m, some v) =>
        if start < (m.vma v).vmStart then return (m, false)
        else if !has (m.vma v).vmFlags (if write then vmWrite else vmRead) then return (m, false)
        else if write && has (m.vma v).vmFlags vmStack &&
            decide (start < (m.vma v).vmStart + pgsize) then return (m, false)
        else checkFrom write stop m fuel (m.vma v).vmEnd
    else some (m, true)

/-- `user_mem_check` with `mm != NULL`. -/
def userMemCheck (addr len : BitVec 32) (write : Bool) : Option (Mm × Bool) :=
  if userAccess addr (addr + len) then m.checkFrom write (addr + len) (m.mapCount + 1) addr
  else some (m, false)

/-! ## Strings from user space -/

/-- The bytes that are read through the address space, those that are written to a buffer of the
kernel, and the buffer. -/
structure Access where
  reads : List (BitVec 32)
  writes : List ℕ
  dst : ℕ → BitVec 8

def Access.read (t : Access) (a : BitVec 32) : Access := { t with reads := a :: t.reads }

def Access.write (t : Access) (i : ℕ) (b : BitVec 8) : Access :=
  { t with writes := i :: t.writes, dst := Function.update t.dst i b }

/-- `strnlen` of `libs/string.c`. -/
def strnlen (mem : BitVec 32 → BitVec 8) : BitVec 32 → ℕ → Access → Access × ℕ
  | _, 0, t => (t, 0)
  | s, len + 1, t =>
    if mem s = 0#8 then (t.read s, 0)
    else
      let (t, cnt) := strnlen mem (s + 1#32) len (t.read s)
      (t, cnt + 1)

/-- `memcpy` of `libs/string.c`, to the buffer at `d`. -/
def memcpy (mem : BitVec 32 → BitVec 8) : ℕ → BitVec 32 → ℕ → Access → Access
  | _, _, 0, t => t
  | d, s, n + 1, t => memcpy mem (d + 1) (s + 1#32) n ((t.read s).write d (mem s))

/-- The loop of `copy_string`, with `dst` at the offset `d` of the buffer. -/
def copyFrom (mem : BitVec 32 → BitVec 8) :
    ℕ → Mm → ℕ → BitVec 32 → BitVec 32 → BitVec 32 → Access → Option (Mm × Access × Bool)
  | 0, _, _, _, _, _, _ => none
  | fuel + 1, m, d, src, maxn, part, t =>
    let part := if part > maxn then maxn else part
    do
    let (m, ok) ← m.userMemCheck src part false
    if !ok then return (m, t, false)
    else
      let (t, alen) := strnlen mem src part.toNat t
      if alen < part.toNat then return (m, memcpy mem d src (alen + 1) t, true)
      else if part = maxn then return (m, t, false)
      else
        copyFrom mem fuel m (d + part.toNat) (src + part) (maxn - part) pgsize
          (memcpy mem d src part.toNat t)

/-- `copy_string` with `mm != NULL`, to a buffer that holds `dst`. -/
def copyString (mem : BitVec 32 → BitVec 8) (dst : ℕ → BitVec 8) (src maxn : BitVec 32) :
    Option (Mm × Access × Bool) :=
  copyFrom mem (maxn.toNat + 1) m 0 src maxn (roundDown (src + pgsize) pgsize - src) ⟨[], [], dst⟩

/-! ## Copies and teardown -/

/-- A failed assertion in `m`, as a stop of the whole kernel. -/
def orPanic {α : Type} : Option α → Except Stop α
  | none => .error .panic
  | some a => .ok a

/-- The loop of `dup_mmap`; the memory for the `k`-th area is what `kmalloc k` returns. -/
def dupFrom (src : Mm) (kmalloc : ℕ → Option ℕ) :
    ℕ → ℕ → Option ℕ → Mm → Pmm → Except Stop (Mm × Pmm)
  | 0, _, _, _, _ => .error .loop
  | fuel + 1, k, le, dst, s =>
    match src.link.prev le with
    | none => .ok (dst, s)
    | some v =>
      match kmalloc k with
      | none => .error .noMem
      | some nvma => do
        let dst := dst.vmaCreate nvma (src.vma v).vmStart (src.vma v).vmEnd (src.vma v).vmFlags
        let dst ← orPanic (dst.insertVmaStruct nvma)
        let s ← s.copyRange dst.pgdir src.pgdir (src.vma v).vmStart (src.vma v).vmEnd
        dupFrom src kmalloc fuel (k + 1) (some v) dst s

def dupMmap (dst src : Mm) (kmalloc : ℕ → Option ℕ) (s : Pmm) : Except Stop (Mm × Pmm) :=
  dupFrom src kmalloc (src.mapCount + 1) 0 none dst s

/-- A loop of `exit_mmap`: `f` for each area from `le` on. -/
def forAreas (f : Pmm → BitVec 32 → BitVec 32 → Except Stop Pmm) :
    ℕ → Option ℕ → Pmm → Except Stop Pmm
  | 0, _, _ => .error .loop
  | fuel + 1, le, s =>
    match m.link.next le with
    | none => .ok s
    | some v => do
      let s ← f s (m.vma v).vmStart (m.vma v).vmEnd
      forAreas f fuel (some v) s

def exitMmap (s : Pmm) : Except Stop Pmm :=
  if m.mmCount = 0 then do
    let s ← m.forAreas (fun s => s.unmapRange m.pgdir) (m.mapCount + 1) none s
    m.forAreas (fun s => s.exitRange m.pgdir) (m.mapCount + 1) none s
  else .error .panic

/-- `put_pgdir` of `kern/process/proc.c`. -/
def putPgdir (s : Pmm) : Except Stop Pmm := s.freePage m.pgdir

/-- The loop of `mm_destroy`; the areas it gives to `kfree`, in this order. -/
def destroyFrom (m : Mm) : ℕ → Option (List ℕ)
  | 0 => none
  | fuel + 1 =>
    match m.link.next none with
    | none => some []
    | some v => (destroyFrom { m with link := m.link.del (some v) } fuel).map (v :: ·)

def mmDestroy : Option (List ℕ) :=
  if m.mmCount = 0 then m.destroyFrom (m.mapCount + 1) else none

end Mm

/-- `user_mem_check` with `mm == NULL`. -/
def kernMemCheck (addr len : BitVec 32) : Bool := kernAccess addr (addr + len)

end Ucore

end CacheCPU
