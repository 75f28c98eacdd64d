import CacheCPU.Lib.LinkedRing
import Mathlib.Data.BitVec

/-!
# `kern/mm/default_pmm.c`

The first-fit page allocator over the array `pages` of `npage` descriptors. A `struct Page *` is
its index in the array, the list of free blocks goes through the `page_link` of the descriptors,
and a failed assertion, or a walk along the list that does not come back to its head within
`npage` entries, is `none`.
-/

namespace CacheCPU

namespace Ucore

open LinkedRing

/-- `struct Page`, less what the page replacement keeps in it; `page_link` is in `FreeArea`. -/
structure Page where
  ref : ℤ
  flags : BitVec 32
  property : ℕ

namespace Page

variable (p : Page)

def pageReserved : Bool := p.flags.getLsbD 0

def pageProperty : Bool := p.flags.getLsbD 1

def setPageProperty : Page := { p with flags := p.flags ||| 2#32 }

def clearPageProperty : Page := { p with flags := p.flags &&& ~~~2#32 }

end Page

/-- The descriptors, `free_area` and the links of its list. -/
structure FreeArea where
  npage : ℕ
  page : ℕ → Page
  link : Links ℕ
  nrFree : ℕ

namespace FreeArea

variable (s : FreeArea)

/-- A store into the descriptor of `p`. -/
def setPage (p : ℕ) (f : Page → Page) : FreeArea :=
  { s with page := Function.update s.page p (f (s.page p)) }

/-- The walk of `default_list_add` from `listelm` on. -/
def defaultListAddFrom (base : ℕ) : ℕ → Option ℕ → Option FreeArea
  | 0, _ => none
  | fuel + 1, listelm =>
    match s.link.next listelm with
    | none => some { s with link := s.link.addBefore none (some base) }
    | some p =>
      if base = p then none
      else if base < p then
        if base + (s.page base).property ≤ p then
          some { s with link := s.link.addBefore (some p) (some base) }
        else none
      else if p + (s.page p).property ≤ base then defaultListAddFrom base fuel (some p)
      else none

def defaultListAdd (base : ℕ) : Option FreeArea := s.defaultListAddFrom base (s.npage + 1) none

def defaultInit : FreeArea := { s with link := s.link.init, nrFree := 0 }

/-- The loop of `default_init_memmap` over the `n` descriptors from `p` on. -/
def clearReserved (s : FreeArea) (p : ℕ) : ℕ → Option FreeArea
  | 0 => some s
  | n + 1 =>
    if (s.page p).pageReserved then
      clearReserved (s.setPage p fun _ => ⟨0, 0#32, 0⟩) (p + 1) n
    else none

def defaultInitMemmap (base n : ℕ) : Option FreeArea :=
  if 0 < n then do
    let s ← s.clearReserved base n
    let s := s.setPage base fun p => { p with property := n }
    let s := s.setPage base Page.setPageProperty
    let s := { s with nrFree := s.nrFree + n }
    s.defaultListAdd base
  else none

/-- The search of `default_alloc_pages` from `le` on. -/
def findFit (n : ℕ) : ℕ → Option ℕ → Option (Option ℕ)
  | 0, _ => none
  | fuel + 1, le =>
    match s.link.next le with
    | none => some none
    | some p => if n ≤ (s.page p).property then some (some p) else findFit n fuel (some p)

/-- What `default_alloc_pages` does with the block it found. -/
def takeBlock (n page : ℕ) : FreeArea :=
  let s := { s with link := s.link.del (some page) }
  let s :=
    if n < (s.page page).property then
      let p := page + n
      let s := s.setPage p fun q => { q with property := (s.page page).property - n }
      let s := s.setPage p Page.setPageProperty
      { s with link := s.link.addAfter (s.link.prev (some page)) (some p) }
    else s
  let s := { s with nrFree := s.nrFree - n }
  s.setPage page Page.clearPageProperty

def defaultAllocPages (n : ℕ) : Option (FreeArea × Option ℕ) :=
  if 0 < n then
    if s.nrFree < n then some (s, none)
    else do
      match ← s.findFit n (s.npage + 1) none with
      | none => return (s, none)
      | some page => return (s.takeBlock n page, some page)
  else none

/-- The first loop of `default_free_pages`. -/
def clearAllocated (s : FreeArea) (p : ℕ) : ℕ → Option FreeArea
  | 0 => some s
  | n + 1 =>
    if !(s.page p).pageReserved && !(s.page p).pageProperty then
      clearAllocated (s.setPage p fun q => { q with flags := 0#32, ref := 0 }) (p + 1) n
    else none

/-- The second loop of `default_free_pages`, which takes the neighbours of the block at `base` off
the list and makes one block of them; the result is the state and the new `base`. -/
def mergeFrom (s : FreeArea) (base : ℕ) : ℕ → Option ℕ → Option (FreeArea × ℕ)
  | _, none => some (s, base)
  | 0, some _ => none
  | fuel + 1, some p =>
    let le := s.link.next (some p)
    if base + (s.page base).property = p then
      let s := s.setPage base fun q => { q with property := q.property + (s.page p).property }
      let s := s.setPage p Page.clearPageProperty
      mergeFrom { s with link := s.link.del (some p) } base fuel le
    else if p + (s.page p).property = base then
      let s := s.setPage p fun q => { q with property := q.property + (s.page base).property }
      let s := s.setPage base Page.clearPageProperty
      mergeFrom { s with link := s.link.del (some p) } p fuel le
    else mergeFrom s base fuel le

def defaultFreePages (base n : ℕ) : Option FreeArea :=
  if 0 < n then do
    let s ← s.clearAllocated base n
    let s := s.setPage base fun p => { p with property := n }
    let s := s.setPage base Page.setPageProperty
    let (s, base) ← s.mergeFrom base s.npage (s.link.next none)
    let s := { s with nrFree := s.nrFree + n }
    s.defaultListAdd base
  else none

end FreeArea

end Ucore

end CacheCPU
