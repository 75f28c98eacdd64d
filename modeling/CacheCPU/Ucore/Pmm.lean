import CacheCPU.Ucore.DefaultPmm
import CacheCPU.Ucore.Tlb

/-!
# `kern/mm/pmm.c`

Page directories, page tables and the pages they map, all of them frames of the physical memory
that the first-fit allocator manages. A `struct Page *` and the frame it describes are one number,
and `boot_pgdir` and the directories of the processes are frames too, so that a page table entry
is a word of memory like any other.
-/

namespace CacheCPU

namespace Ucore

def pteU : BitVec 32 := 0x004#32

def pteUser : BitVec 32 := pteU ||| pteW ||| pteP

/-- `PDX(VPT)`: the entry through which a directory maps itself. -/
def vptx : BitVec 10 := pdx 0xfac00000#32

def pgsize : BitVec 32 := 4096#32

def ptsize : BitVec 32 := 4194304#32

def userBase : BitVec 32 := 0x00200000#32

def userTop : BitVec 32 := 0x80000000#32

/-- `USER_ACCESS(start, end)`. -/
def userAccess (start stop : BitVec 32) : Bool :=
  userBase ≤ start && start < stop && stop ≤ userTop

/-- `ROUNDDOWN(a, n)`. -/
def roundDown (a n : BitVec 32) : BitVec 32 := a - a % n

/-- `PPN(pte)` as an index of `pages`. -/
def frameOf (w : BitVec 32) : ℕ := (ppn w).toNat

def page2pa (page : ℕ) : BitVec 32 := BitVec.ofNat 32 page <<< 12

/-- How a call ends without a result: a panic or a failed assertion, an `alloc_page` that found no
page, or a loop that has gone round more often than there are pages in the address space. -/
inductive Stop
  | panic
  | noMem
  | loop
  deriving DecidableEq

/-- Memory by frames of 1024 words, the descriptors, and `cur_pgdir` of `tlb.c`. -/
structure Pmm where
  area : FreeArea
  mem : ℕ → BitVec 10 → BitVec 32
  curPgdir : ℕ

namespace Pmm

variable (s : Pmm)

/-! ## Memory and descriptors -/

def store (f : ℕ) (i : BitVec 10) (w : BitVec 32) : Pmm :=
  { s with mem := Function.update s.mem f (Function.update (s.mem f) i w) }

/-- A whole frame is written, by `memset` or `memcpy`. -/
def storeFrame (f : ℕ) (c : BitVec 10 → BitVec 32) : Pmm :=
  { s with mem := Function.update s.mem f c }

def setPageRef (p : ℕ) (v : ℤ) : Pmm :=
  { s with area := s.area.setPage p fun q => { q with ref := v } }

def pageRefInc (p : ℕ) : Pmm := s.setPageRef p ((s.area.page p).ref + 1)

def pageRefDec (p : ℕ) : Pmm := s.setPageRef p ((s.area.page p).ref - 1)

/-- `alloc_page`. Where no page is free it has no result here: the swap area is tried with
`check_mm_struct`, which is a null pointer once the checks at boot are over. -/
def allocPage : Except Stop (Pmm × ℕ) :=
  match s.area.defaultAllocPages 1 with
  | none => .error .panic
  | some (_, none) => .error .noMem
  | some (a, some p) => .ok ({ s with area := a }, p)

def freePage (p : ℕ) : Except Stop Pmm :=
  match s.area.defaultFreePages p 1 with
  | none => .error .panic
  | some a => .ok { s with area := a }

/-- `pa2page` and `KADDR`, which stop at an address beyond the memory. -/
def pa2page (w : BitVec 32) : Except Stop ℕ :=
  if frameOf w < s.area.npage then .ok (frameOf w) else .error .panic

/-! ## Page tables -/

/-- `get_pte`: where the entry is, the frame of the table and the index in it. -/
def getPte (pgdir : ℕ) (la : BitVec 32) (create : Bool) :
    Except Stop (Pmm × Option (ℕ × BitVec 10)) := do
  if has (s.mem pgdir (pdx la)) pteP then
    let t ← s.pa2page (s.mem pgdir (pdx la))
    return (s, some (t, ptx la))
  else if create then
    let (s, page) ← s.allocPage
    let s := s.setPageRef page 1
    let s := s.store pgdir (pdx la) (page2pa page ||| pteP ||| pteW ||| pteU)
    let kva ← s.pa2page (page2pa page)
    let s := s.storeFrame kva fun _ => 0#32
    let t ← s.pa2page (s.mem pgdir (pdx la))
    return (s, some (t, ptx la))
  else
    return (s, none)

/-- What `tlb_invalidate` does to the page table; the TLB itself is in `Ucore.Tlb`. -/
def tlbInvalidate (pgdir : ℕ) (la : BitVec 32) : Except Stop Pmm :=
  if pgdir ≠ s.curPgdir then .ok s
  else do
    match ← s.getPte pgdir la false with
    | (s, none) => return s
    | (s, some (t, i)) =>
      return if has (s.mem t i) tlbP then s.store t i (s.mem t i &&& ~~~tlbP) else s

def pageRemovePte (pgdir : ℕ) (la : BitVec 32) (ptep : ℕ × BitVec 10) : Except Stop Pmm :=
  if has (s.mem ptep.1 ptep.2) pteP then do
    let page ← s.pa2page (s.mem ptep.1 ptep.2)
    let s := s.pageRefDec page
    let s ← if (s.area.page page).ref = 0 then s.freePage page else .ok s
    let s ← s.tlbInvalidate pgdir la
    return s.store ptep.1 ptep.2 0#32
  else .ok s

def pageRemove (pgdir : ℕ) (la : BitVec 32) : Except Stop Pmm := do
  match ← s.getPte pgdir la false with
  | (s, none) => return s
  | (s, some ptep) => s.pageRemovePte pgdir la ptep

def pageInsert (pgdir page : ℕ) (la perm : BitVec 32) : Except Stop Pmm := do
  match ← s.getPte pgdir la true with
  | (_, none) => .error .noMem
  | (s, some ptep) =>
    let s := s.pageRefInc page
    let s ←
      if has (s.mem ptep.1 ptep.2) pteP then do
        let p ← s.pa2page (s.mem ptep.1 ptep.2)
        if p = page then .ok (s.pageRefDec page) else s.pageRemovePte pgdir la ptep
      else .ok s
    let s ← s.tlbInvalidate pgdir la
    return s.store ptep.1 ptep.2 (page2pa page ||| pteP ||| perm)

/-! ## Ranges -/

/-- The asserts at the start of the range functions. -/
def rangeOk (start stop : BitVec 32) : Bool :=
  start % pgsize = 0#32 && stop % pgsize = 0#32 && userAccess start stop

/-- The loop that `unmap_range` and `copy_range` have in common: `act` for each page from `start`
on whose page table is there, and on to the next table where there is none. -/
def walkFrom (pgdir : ℕ) (stop : BitVec 32)
    (act : Pmm → BitVec 32 → ℕ × BitVec 10 → Except Stop Pmm) :
    ℕ → Pmm → BitVec 32 → Except Stop Pmm
  | 0, _, _ => .error .loop
  | fuel + 1, s, start => do
    let (s, start) ← (do
      match ← s.getPte pgdir start false with
      | (s, none) => return (s, roundDown (start + ptsize) ptsize)
      | (s, some ptep) => return (← act s start ptep, start + pgsize))
    if start ≠ 0#32 ∧ start < stop then walkFrom pgdir stop act fuel s start else return s

def unmapRange (pgdir : ℕ) (start stop : BitVec 32) : Except Stop Pmm :=
  if rangeOk start stop then
    walkFrom pgdir stop (fun s start ptep =>
      if s.mem ptep.1 ptep.2 ≠ 0#32 then s.pageRemovePte pgdir start ptep else .ok s) (2 ^ 20) s start
  else .error .panic

/-- The loop of `exit_range`. -/
def exitFrom (pgdir : ℕ) (stop : BitVec 32) : ℕ → Pmm → BitVec 32 → Except Stop Pmm
  | 0, _, _ => .error .loop
  | fuel + 1, s, start => do
    let s ← (if has (s.mem pgdir (pdx start)) pteP then do
        let t ← s.pa2page (s.mem pgdir (pdx start))
        let s ← s.freePage t
        return s.store pgdir (pdx start) 0#32
      else .ok s)
    let start := start + ptsize
    if start ≠ 0#32 ∧ start < stop then exitFrom pgdir stop fuel s start else return s

def exitRange (pgdir : ℕ) (start stop : BitVec 32) : Except Stop Pmm :=
  if rangeOk start stop then exitFrom pgdir stop (2 ^ 20) s (roundDown start ptsize)
  else .error .panic

/-- The part of `copy_range` for one present page: a table and a page for the other address space,
and the contents. -/
def copyPage (dst : ℕ) (start : BitVec 32) (ptep : ℕ × BitVec 10) : Except Stop Pmm := do
  let (s, _) ← s.getPte dst start true
  let perm := s.mem ptep.1 ptep.2 &&& pteUser
  let page ← s.pa2page (s.mem ptep.1 ptep.2)
  let (s, npage) ← s.allocPage
  let s := s.storeFrame npage (s.mem page)
  s.pageInsert dst npage start perm

def copyRange (dst src : ℕ) (start stop : BitVec 32) : Except Stop Pmm :=
  if rangeOk start stop then
    walkFrom src stop (fun s start ptep =>
      if has (s.mem ptep.1 ptep.2) pteP then s.copyPage dst start ptep else .ok s) (2 ^ 20) s start
  else .error .panic

end Pmm

end Ucore

end CacheCPU
