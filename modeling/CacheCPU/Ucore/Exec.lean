import CacheCPU.Lib.ByteMemory
import CacheCPU.Ucore.Sfs
import CacheCPU.Ucore.Vmm

/-!
# Loading a program: `load_icode` of `kern/process/proc.c`

The loop over the program headers. A file is its bytes; what the file system does to get at them is
not part of it. A pointer to a page is its number, and the bytes of a page are written one by one at
physical addresses, so that what is written beyond a page is in the next one. The addresses for
which pages are allocated are recorded.
-/

namespace CacheCPU

namespace Ucore

open ByteMemory

/-! ## Files and headers -/

/-- An open file. -/
structure ProgramFile where
  byte : ℕ → BitVec 8
  size : ℕ
  bound : size < sfsMaxFileSize

/-- `struct proghdr`, less the fields that nothing reads. -/
structure Proghdr where
  pType : BitVec 32
  pOffset : BitVec 32
  pVa : BitVec 32
  pFilesz : BitVec 32
  pMemsz : BitVec 32
  pFlags : BitVec 32

def elfPtLoad : BitVec 32 := 1#32

def elfPfX : BitVec 32 := 1#32
def elfPfW : BitVec 32 := 2#32
def elfPfR : BitVec 32 := 4#32

/-- `sizeof(struct elfhdr)`. -/
def elfhdrSize : BitVec 32 := 52#32

/-- `sizeof(struct proghdr)`. -/
def proghdrSize : BitVec 32 := 32#32

namespace ProgramFile

variable (f : ProgramFile)

/-- `load_icode_read` returns 0: there are `len` bytes from `offset` on. A seek beyond the end, which
would make the file longer, has no result here. -/
def reads (len offset : BitVec 32) : Bool := offset.toNat + len.toNat ≤ f.size

def half (o : ℕ) : BitVec 16 := f.byte (o + 1) ++ f.byte o

def word (o : ℕ) : BitVec 32 := f.byte (o + 3) ++ f.byte (o + 2) ++ f.byte (o + 1) ++ f.byte o

def ePhoff : BitVec 32 := f.word 28

def ePhnum : BitVec 16 := f.half 44

/-- The program header at an offset. -/
def proghdrAt (offset : BitVec 32) : Proghdr where
  pType := f.word offset.toNat
  pOffset := f.word (offset.toNat + 4)
  pVa := f.word (offset.toNat + 8)
  pFilesz := f.word (offset.toNat + 16)
  pMemsz := f.word (offset.toNat + 20)
  pFlags := f.word (offset.toNat + 24)

end ProgramFile

def Proghdr.flags (ph : Proghdr) : BitVec 32 :=
  (if has ph.pFlags elfPfR then vmRead else 0#32) |||
    (if has ph.pFlags elfPfW then vmWrite else 0#32) |||
    (if has ph.pFlags elfPfX then vmExec else 0#32)

def Proghdr.perm (ph : Proghdr) : BitVec 32 :=
  pteU ||| if has ph.pFlags elfPfW then pteW else 0#32

/-! ## Memory -/

namespace Pmm

variable (s : Pmm)

/-- A byte is stored at a physical address. -/
def setByte (pa : ℕ) (b : BitVec 8) : Pmm :=
  let a := BitVec.ofNat 12 pa
  s.store (pa / 4096) (index a) (setByteAt (lane a) (s.mem (pa / 4096) (index a)) b)

/-- `n` bytes are stored from a physical address on. -/
def setBytes (s : Pmm) (pa : ℕ) (f : ℕ → BitVec 8) : ℕ → Pmm
  | 0 => s
  | n + 1 => (s.setByte pa (f 0)).setBytes (pa + 1) (fun i => f (i + 1)) n

/-- `pgdir_alloc_page`. It does not go on when there is no page, as `alloc_page` does not. -/
def pgdirAllocPage (pgdir : ℕ) (la perm : BitVec 32) : Except Stop (Pmm × ℕ) := do
  let (s, page) ← s.allocPage
  let s ← s.pageInsert pgdir page la perm
  return (s, page)

end Pmm

/-! ## The segments -/

/-- The variables of the loop over the headers, and the addresses given to `pgdir_alloc_page`. -/
structure Loading where
  pmm : Pmm
  page : Option ℕ
  la : BitVec 32
  offset : BitVec 32
  allocated : List (BitVec 32)

namespace Loading

variable (f : ProgramFile) (pgdir : ℕ) (ph : Proghdr) (c : Loading)

/-- `assert((page = pgdir_alloc_page(mm->pgdir, la, perm)) != NULL)`. -/
def alloc : Except Stop Loading := do
  let (s, page) ← c.pmm.pgdirAllocPage pgdir c.la ph.perm
  return { c with pmm := s, page := some page, allocated := c.allocated ++ [c.la] }

/-- `assert(load_icode_read(fd, page2kva(page) + start, len, offset) == 0)`, with `la` and `offset`
moved on. -/
def read (start len : BitVec 32) : Except Stop Loading :=
  match c.page with
  | none => .error .panic
  | some p =>
    if f.reads len c.offset then
      .ok { c with
        pmm := c.pmm.setBytes (p * 4096 + start.toNat) (fun i => f.byte (c.offset.toNat + i))
          len.toNat
        la := c.la + len
        offset := c.offset + len }
    else .error .panic

/-- `memset(page2kva(page) + start, 0, len)`, with `la` moved on. -/
def zero (start len : BitVec 32) : Except Stop Loading :=
  match c.page with
  | none => .error .panic
  | some p =>
    .ok { c with
      pmm := c.pmm.setBytes (p * 4096 + start.toNat) (fun _ => 0#8) len.toNat
      la := c.la + len }

/-- The part of the segment before the first page boundary. -/
def head : Except Stop Loading :=
  if 0#32 < c.la % pgsize then do
    let c ← c.alloc pgdir ph
    let len := if c.la / pgsize = (c.la + ph.pFilesz) / pgsize then ph.pFilesz
      else pgsize - c.la % pgsize
    c.read f (c.la % pgsize) len
  else .ok c

/-- The pages that the file fills. -/
def whole : ℕ → Loading → Except Stop Loading
  | 0, _ => .error .loop
  | fuel + 1, c =>
    if c.la < (ph.pVa + ph.pFilesz) / pgsize * pgsize then do
      let c ← c.alloc pgdir ph
      let c ← c.read f 0#32 pgsize
      whole fuel c
    else .ok c

/-- What the file still has behind the last page boundary. -/
def tail : Except Stop Loading :=
  if c.la < ph.pVa + ph.pFilesz then do
    let c ← c.alloc pgdir ph
    c.read f 0#32 ((ph.pVa + ph.pFilesz) % pgsize)
  else .ok c

/-- A page at a page boundary; elsewhere the last one is gone on with. -/
def bssPage : Except Stop Loading :=
  if c.la % pgsize = 0#32 then c.alloc pgdir ph else .ok c

/-- How much is cleared at once. -/
def bssLen : BitVec 32 :=
  let len := if c.la % pgsize = 0#32 then pgsize else pgsize - c.la % pgsize
  if c.la / pgsize = (ph.pVa + ph.pMemsz) / pgsize then
    len - (pgsize - (ph.pVa + ph.pMemsz) % pgsize)
  else len

/-- The rest of the segment. -/
def bss : ℕ → Loading → Except Stop Loading
  | 0, _ => .error .loop
  | fuel + 1, c =>
    if c.la < ph.pVa + ph.pMemsz then do
      let c ← c.bssPage pgdir ph
      let c ← c.zero (c.la % pgsize) (c.bssLen ph)
      bss fuel c
    else .ok c

/-- The contents of a segment. -/
def segment : Except Stop Loading := do
  let c ← c.head f pgdir ph
  let c ← whole f pgdir ph (2 ^ 20) c
  let c ← c.tail f pgdir ph
  bss pgdir ph (2 ^ 20) c

end Loading

/-- The address space that is being built. -/
structure Building where
  mm : Mm
  pmm : Pmm
  allocated : List (BitVec 32)

namespace ProgramFile

variable (f : ProgramFile)

/-- The body of the loop in `load_icode` for a header that is loaded. The memory for the area is
what `kmalloc` returns. -/
def loadSegment (ph : Proghdr) (kmalloc : Option ℕ) (x : Building) : Except Stop Building :=
  match x.mm.mmMap ph.pVa ph.pMemsz ph.flags kmalloc with
  | none => .error .panic
  | some (mm, ret, _) =>
    if ret ≠ 0 then .error .panic
    else if ph.pMemsz < ph.pFilesz then .error .panic
    else do
      let c ← Loading.segment f mm.pgdir ph ⟨x.pmm, none, ph.pVa, ph.pOffset, x.allocated⟩
      return ⟨mm, c.pmm, c.allocated⟩

/-- The loop over the headers, from the last one to the first. -/
def loadFrom (kmalloc : ℕ → Option ℕ) : ℕ → Building → Except Stop Building
  | 0, x => .ok x
  | k + 1, x =>
    let offset := f.ePhoff + proghdrSize * BitVec.ofNat 32 k
    if !f.reads proghdrSize offset then .error .panic
    else if (f.proghdrAt offset).pType ≠ elfPtLoad then loadFrom kmalloc k x
    else do
      let x ← f.loadSegment (f.proghdrAt offset) (kmalloc k) x
      loadFrom kmalloc k x

/-- `load_icode` from the reading of the `elfhdr` to the end of the loop. -/
def loadSegments (kmalloc : ℕ → Option ℕ) (x : Building) : Except Stop Building :=
  if f.reads elfhdrSize 0#32 then f.loadFrom kmalloc f.ePhnum.toNat x else .error .panic

end ProgramFile

end Ucore

end CacheCPU
