import CacheCPU.Mmu

/-!
# `kern/mm/tlb.c` and the page tables of `kern/mm/pmm.c`

What ucore keeps about the TLB and the operations that touch it. The hardware is the sixteen
entries of the MMU; a page directory is a value of a type `δ` with page tables of its own. The
software's own record is in three places: the bits `TLB_P` and `TLBIDX` of the page table entries,
the stack of free indices, and `tlb_algo_hi`.
-/

namespace CacheCPU

namespace Ucore

/-! ## The macros of `mmu.h` and `tlb.h` -/

section Macros

variable (la pte : BitVec 32)

def pdx : BitVec 10 := la.extractLsb 31 22

def ptx : BitVec 10 := la.extractLsb 21 12

def ppn : BitVec 32 := la >>> 12

def pteP : BitVec 32 := 0x001#32

def pteW : BitVec 32 := 0x002#32

def tlbIdx : Fin 16 := ((pte >>> 8 &&& 0xf#32).setWidth 4).toFin

def tlbP : BitVec 32 := 0x80#32

def tlbPair : BitVec 32 := la ^^^ 0x1000#32

def tlbLo : BitVec 32 := ppn la &&& 1#32

def entryLoAux (pfn d : BitVec 32) : BitVec 32 := pfn <<< 6 ||| 2#32 <<< 3 ||| d <<< 2 ||| 0x3#32

def entryLo : BitVec 32 := entryLoAux (ppn pte) (pte >>> 1 &&& 1#32)

def entryLoInvalid : BitVec 32 := 0x00000000#32

def entryHiInvalid : BitVec 32 := 0x80000000#32

/-- The page pair of an address. -/
def hiOf : BitVec 32 := la &&& 0xffffe000#32

/-- The flag `f` is set. -/
def has (f : BitVec 32) : Bool := pte &&& f != 0#32

end Macros

/-- The entry that `Index`, `EntryHi`, `EntryLo0` and `EntryLo1` describe. -/
def tlbEntry (hi lo0 lo1 : BitVec 32) : BitVec 63 :=
  hi.extractLsb 31 13 ++ lo0.extractLsb 25 6 ++ lo0.extractLsb 2 1 ++ lo1.extractLsb 25 6
    ++ lo1.extractLsb 2 1

/-- `tlb_write`: four `MTC0` and a `TLBWI`. -/
def tlbWrite (t : Tlb) (idx : Fin 16) (hi lo0 lo1 : BitVec 32) : Tlb :=
  Function.update t idx (tlbEntry hi lo0 lo1)

/-! ## The state -/

/-- What the operations read and write. `tlb_algo_empty[0 .. tlb_algo_n)` is a list, the last
element first. -/
structure Kernel (δ : Type) where
  curPgdir : Option δ
  tables : δ → BitVec 10 → Option (BitVec 10 → BitVec 32)
  tlb : Tlb
  algoEmpty : List (Fin 16)
  algoHi : Fin 16 → BitVec 32
  algoPtr : Fin 16

namespace Kernel

variable {δ : Type} [DecidableEq δ] (s : Kernel δ) (d : δ) (la : BitVec 32)

/-- `get_pte` without `create`. -/
def getPte : Option (BitVec 32) := (s.tables d (pdx la)).map fun t => t (ptx la)

/-- The store `*ptep = f(*ptep)`, if there is a page table. -/
def updPte (f : BitVec 32 → BitVec 32) : Kernel δ :=
  { s with
    tables := fun d' p =>
      if d' = d ∧ p = pdx la then
        (s.tables d' p).map fun t i => if i = ptx la then f (t i) else t i
      else s.tables d' p }

/-- The page table that `get_pte` allocates when asked to. -/
def createPt : Kernel δ :=
  { s with
    tables := fun d' p =>
      if d' = d ∧ p = pdx la then some ((s.tables d' p).getD fun _ => 0#32) else s.tables d' p }

/-! ## `tlb.c` -/

def tlbInitCallback : Kernel δ := { s with algoEmpty := (List.finRange 16).reverse }

def tlbInit : Kernel δ :=
  tlbInitCallback
    { s with
      tlb := (List.finRange 16).foldl
        (fun t i => tlbWrite t i entryHiInvalid entryLoInvalid entryLoInvalid) s.tlb }

def clearTlbP : Kernel δ := s.updPte d la fun pte => pte &&& ~~~tlbP

/-- `tlb_get_empty`: a free index, or the next one in turn, whose pages are marked absent. -/
def tlbGetEmpty (hi : BitVec 32) : Kernel δ × Fin 16 :=
  match s.algoEmpty with
  | idx :: rest => ({ s with algoEmpty := rest, algoHi := Function.update s.algoHi idx hi }, idx)
  | [] =>
    let idx := s.algoPtr
    let hi0 := s.algoHi idx
    let s := { s with algoPtr := s.algoPtr + 1 }
    let s := (s.clearTlbP d hi0).clearTlbP d (tlbPair hi0)
    ({ s with algoHi := Function.update s.algoHi idx hi }, idx)

/-- `tlb_del_callback`. A push onto a full stack is out of bounds. -/
def tlbDelCallback (idx : Fin 16) : Option (Kernel δ) :=
  if s.algoEmpty.length < 16 then some { s with algoEmpty := idx :: s.algoEmpty } else none

/-- `tlb_write(idx, hi, lo[0], lo[1])` with `lo[TLBLO(la)]` and `lo[TLBLO(TLBPAIR(la))]` given. -/
def writeLo (idx : Fin 16) (hi lo loPair : BitVec 32) : Kernel δ :=
  { s with
    tlb := if tlbLo la = 0#32 then tlbWrite s.tlb idx hi lo loPair
      else tlbWrite s.tlb idx hi loPair lo }

/-- The end of `tlb_miss_handler`: the entry is written and the page table entry records it. -/
def tlbRefill (idx : Fin 16) (lo loPair : BitVec 32) : Kernel δ :=
  (s.writeLo la idx (hiOf la) lo loPair).updPte d la fun pte =>
    (pte &&& 0xfffff0ff#32) ||| (BitVec.ofNat 32 idx <<< 8) ||| tlbP

/-- `tlb_miss_handler` for a present page; the way through `do_pgfault` is not modelled. -/
def tlbMissHandler : Option (Kernel δ) := do
  let d ← s.curPgdir
  let pte ← s.getPte d la
  if has pte pteP then
    match (s.getPte d (tlbPair la)).filter (has · tlbP) with
    | some pte2 => return s.tlbRefill d la (tlbIdx pte2) (entryLo pte) (entryLo pte2)
    | none =>
      let (s, idx) := s.tlbGetEmpty d (hiOf la)
      return s.tlbRefill d la idx (entryLo pte) entryLoInvalid
  else none

def loadPgdir : Kernel δ := tlbInit { s with curPgdir := some d }

def tlbInvalidate : Option (Kernel δ) :=
  if some d ≠ s.curPgdir then some s
  else match (s.getPte d la).filter (has · tlbP) with
    | none => some s
    | some pte =>
      match (s.getPte d (tlbPair la)).filter (has · tlbP) with
      | some pte2 =>
        some ((s.writeLo la (tlbIdx pte) (hiOf la) entryLoInvalid (entryLo pte2)).clearTlbP d la)
      | none => do
        let s ← s.tlbDelCallback (tlbIdx pte)
        return (s.writeLo la (tlbIdx pte) entryHiInvalid entryLoInvalid entryLoInvalid).clearTlbP
          d la

/-! ## `pmm.c` -/

/-- `page_remove_pte` for the entry of `la`; reference counts are left out. -/
def pageRemovePte (pte : BitVec 32) : Option (Kernel δ) :=
  if has pte pteP then do
    let s ← s.tlbInvalidate d la
    return s.updPte d la fun _ => 0#32
  else some s

def pageRemove : Option (Kernel δ) :=
  match s.getPte d la with
  | none => some s
  | some pte => s.pageRemovePte d la pte

/-- `page_insert` of the page with frame number `page`; `perm` is some of `PTE_U`, `PTE_W` and
`PTE_P`, as all of its callers pass. -/
def pageInsert (page : BitVec 20) (perm : BitVec 3) : Option (Kernel δ) := do
  let s := s.createPt d la
  let pte := (s.getPte d la).getD 0#32
  let s ← if has pte pteP ∧ ppn pte ≠ page.setWidth 32 then s.pageRemovePte d la pte else some s
  let s ← s.tlbInvalidate d la
  return s.updPte d la fun _ => page.setWidth 32 <<< 12 ||| pteP ||| perm.setWidth 32

end Kernel

/-! ## The operations -/

inductive Op (δ : Type)
  | loadPgdir (d : δ)
  | tlbMiss (la : BitVec 32)
  | pageInsert (d : δ) (page : BitVec 20) (la : BitVec 32) (perm : BitVec 3)
  | pageRemove (d : δ) (la : BitVec 32)
  | tlbInvalidate (d : δ) (la : BitVec 32)

namespace Kernel

variable {δ : Type} [DecidableEq δ]

def step (s : Kernel δ) : Op δ → Option (Kernel δ)
  | .loadPgdir d => some (s.loadPgdir d)
  | .tlbMiss la => if tlbMissing s.tlb la then s.tlbMissHandler la else none
  | .pageInsert d page la perm => s.pageInsert d la page perm
  | .pageRemove d la => s.pageRemove d la
  | .tlbInvalidate d la => s.tlbInvalidate d la

/-- A run of operations; it stops at a panic or an access out of bounds. -/
def run (s : Kernel δ) : List (Op δ) → Option (Kernel δ)
  | [] => some s
  | op :: ops => (s.step op).bind fun s => s.run ops

/-- The kernel at boot: no page tables, the globals zero, the TLB anything. -/
def boot (t : Tlb) : Kernel δ where
  curPgdir := none
  tables := fun _ _ => none
  tlb := t
  algoEmpty := []
  algoHi := fun _ => 0#32
  algoPtr := 0

end Kernel

end Ucore

end CacheCPU
