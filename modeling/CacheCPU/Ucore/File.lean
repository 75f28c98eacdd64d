import CacheCPU.Ucore.Error
import Mathlib.Data.BitVec
import Mathlib.Logic.Function.Basic

/-!
# The open-file table: `kern/fs/file.c`

A call of `vfs_open`, `vfs_close` or a `vop_` function that works on the file may block, so each
operation is cut where it makes one: `Outcome.wait` says which call is made and `resume` goes on with
what it returns. Between two such calls nothing else runs. `vop_ref_inc` and `vop_open_inc` only
count. A failed assertion is `none`.

The table keeps a log of what happens to its slots.
-/

namespace CacheCPU

namespace Ucore

inductive FdStatus where
  | none
  | init
  | opened
  | closed
  deriving DecidableEq

/-- `struct file`, with inodes from `ν`. -/
structure File (ν : Type) where
  status : FdStatus
  readable : Bool
  writable : Bool
  fd : ℕ
  pos : ℤ
  node : Option ν
  openCount : ℤ

/-- What happens to a slot. -/
inductive FdEvent (ν : Type) where
  | alloc
  | open (n : ν)
  | acquire
  | release
  | close
  | vfsClose (n : ν)
  | free
  deriving DecidableEq

/-- A call in progress, and what its caller needs to go on. -/
inductive Call (ν : Type) where
  /-- `vfs_open` in `file_open`. -/
  | vfsOpen (i : ℕ) (openFlags : BitVec 32) (readable writable : Bool)
  /-- `vop_fstat` in `file_open`. -/
  | openFstat (i : ℕ) (n : ν) (readable writable : Bool)
  /-- `vfs_close` in `file_open`, after `vop_fstat` has returned `ret`. -/
  | openClose (i : ℕ) (ret : ℤ) (hret : ret ≠ 0)
  /-- `vfs_close` in `fd_array_free`. -/
  | vfsClose (i : ℕ) (ret : ℤ)
  /-- `vop_read` or `vop_write`. -/
  | io (i : ℕ)
  /-- `vop_fstat` in `file_seek`. -/
  | seekFstat (i : ℕ) (pos : ℤ)
  | tryseek (i : ℕ) (pos : ℤ)
  /-- `vop_fstat` in `file_fstat`, `vop_fsync` or `vop_getdirentry`. -/
  | plain (i : ℕ)

/-- What a call returns, and what it has stored when it returns 0. -/
structure Reply (ν : Type) where
  ret : ℤ
  node : ν
  stSize : ℤ
  iobufUsed : ℕ

inductive Outcome (ν : Type) where
  | ret (r : ℤ)
  | wait (c : Call ν)

/-- `NO_FD`. -/
def noFd : ℤ := -0x9527

/-- `FILES_STRUCT_NENTRY`: a page, less the 24 bytes of `struct files_struct`, in files of 28. -/
def filesStructNentry : ℕ := (4096 - 24) / 28

def oAccmode : BitVec 32 := 3#32
def oAppend : BitVec 32 := 0x20#32

def lseekSet : ℤ := 0
def lseekCur : ℤ := 1
def lseekEnd : ℤ := 2

/-- The table of a `files_struct`. -/
structure Files (ν : Type) where
  fdArray : ℕ → File ν
  log : List (ℕ × FdEvent ν)

namespace Files

variable {ν : Type} (F : Files ν)

def setFile (i : ℕ) (f : File ν → File ν) : Files ν :=
  { F with fdArray := Function.update F.fdArray i (f (F.fdArray i)) }

def emit (i : ℕ) (e : FdEvent ν) : Files ν := { F with log := F.log ++ [(i, e)] }

/-! ## Slots -/

def testfd (fd : ℤ) : Prop := 0 ≤ fd ∧ fd < filesStructNentry

instance (fd : ℤ) : Decidable (testfd fd) := inferInstanceAs (Decidable (_ ∧ _))

/-- `fd_array_alloc` from `found` on. -/
def found (i : ℕ) : Option (Except ℤ (ℕ × Files ν)) :=
  if (F.fdArray i).openCount = 0 then
    some (.ok (i, (F.setFile i fun f => { f with status := .init, node := none }).emit i .alloc))
  else none

def fdArrayAlloc (fd : ℤ) : Option (Except ℤ (ℕ × Files ν)) :=
  if fd = noFd then
    match (List.range filesStructNentry).find? fun i => (F.fdArray i).status = .none with
    | some i => F.found i
    | none => some (.error (-eMaxOpen))
  else if testfd fd then
    if (F.fdArray fd.toNat).status = .none then F.found fd.toNat else some (.error (-eBusy))
  else some (.error (-eInval))

/-- The end of `fd_array_free`. -/
def freed (i : ℕ) : Files ν := (F.setFile i fun f => { f with status := .none }).emit i .free

/-- `fd_array_free`, after which the caller returns `ret`. -/
def fdArrayFree (i : ℕ) (ret : ℤ) : Option (Files ν × Outcome ν) :=
  let file := F.fdArray i
  if (file.status = .init ∨ file.status = .closed) ∧ file.openCount = 0 then
    if file.status = .closed then
      file.node.map fun n => (F.emit i (.vfsClose n), .wait (.vfsClose i ret))
    else some (F.freed i, .ret ret)
  else none

def fdArrayAcquire (i : ℕ) : Option (Files ν) :=
  if (F.fdArray i).status = .opened then
    some ((F.setFile i fun f => { f with openCount := f.openCount + 1 }).emit i .acquire)
  else none

/-- `fopen_count_dec`, and `fd_array_free` when the count is 0. -/
def fopenCountDec (i : ℕ) (ret : ℤ) : Option (Files ν × Outcome ν) :=
  let F := F.setFile i fun f => { f with openCount := f.openCount - 1 }
  if (F.fdArray i).openCount = 0 then F.fdArrayFree i ret else some (F, .ret ret)

def fdArrayRelease (i : ℕ) (ret : ℤ) : Option (Files ν × Outcome ν) :=
  let file := F.fdArray i
  if (file.status = .opened ∨ file.status = .closed) ∧ 0 < file.openCount then
    (F.emit i .release).fopenCountDec i ret
  else none

def fdArrayOpen (i : ℕ) : Option (Files ν) :=
  let file := F.fdArray i
  if file.status = .init then
    file.node.map fun n => (F.setFile i fun f =>
      { f with status := .opened, openCount := f.openCount + 1 }).emit i (.open n)
  else none

def fdArrayClose (i : ℕ) (ret : ℤ) : Option (Files ν × Outcome ν) :=
  let file := F.fdArray i
  if file.status = .opened ∧ 0 < file.openCount then
    ((F.setFile i fun f => { f with status := .closed }).emit i .close).fopenCountDec i ret
  else none

def fdArrayDup (to' from' : ℕ) : Option (Files ν) :=
  let file := F.fdArray from'
  if (F.fdArray to').status = .init ∧ file.status = .opened then
    (F.setFile to' fun f => { f with
      pos := file.pos
      readable := file.readable
      writable := file.writable
      node := file.node }).fdArrayOpen to'
  else none

def fd2file (fd : ℤ) : Option ℕ :=
  if testfd fd ∧ (F.fdArray fd.toNat).status = .opened ∧ (F.fdArray fd.toNat).fd = fd then
    some fd.toNat
  else none

/-! ## Operations -/

/-- The switch of `file_open`. -/
def accmode (openFlags : BitVec 32) : Option (Bool × Bool) :=
  match (openFlags &&& oAccmode).toNat with
  | 0 => some (true, false)
  | 1 => some (false, true)
  | 2 => some (true, true)
  | _ => none

def fileOpen (openFlags : BitVec 32) : Option (Files ν × Outcome ν) :=
  match accmode openFlags with
  | none => some (F, .ret (-eInval))
  | some (readable, writable) =>
    (F.fdArrayAlloc noFd).map fun
      | .error ret => (F, .ret ret)
      | .ok (i, F) => (F, .wait (.vfsOpen i openFlags readable writable))

/-- The end of `file_open`. -/
def openEnd (i : ℕ) (n : ν) (readable writable : Bool) : Option (Files ν × Outcome ν) :=
  ((F.setFile i fun f =>
    { f with node := some n, readable := readable, writable := writable }).fdArrayOpen i).map fun F =>
      (F, .ret (F.fdArray i).fd)

def fileClose (fd : ℤ) : Option (Files ν × Outcome ν) :=
  match F.fd2file fd with
  | none => some (F, .ret (-eInval))
  | some i => F.fdArrayClose i 0

/-- What the operations on an open file begin with. -/
def withFile (fd : ℤ) (k : ℕ → Files ν → Option (Files ν × Outcome ν)) :
    Option (Files ν × Outcome ν) :=
  match F.fd2file fd with
  | none => some (F, .ret (-eInval))
  | some i => (F.fdArrayAcquire i).bind (k i)

/-- `file_read` and `file_write`, up to their call. -/
def fileIo (may : File ν → Bool) (fd : ℤ) : Option (Files ν × Outcome ν) :=
  match F.fd2file fd with
  | none => some (F, .ret (-eInval))
  | some i =>
    if may (F.fdArray i) then
      (F.fdArrayAcquire i).map fun F => (F, .wait (.io i))
    else some (F, .ret (-eInval))

def fileRead (fd : ℤ) : Option (Files ν × Outcome ν) := F.fileIo File.readable fd

def fileWrite (fd : ℤ) : Option (Files ν × Outcome ν) := F.fileIo File.writable fd

def fileSeek (fd pos whence : ℤ) : Option (Files ν × Outcome ν) :=
  F.withFile fd fun i F =>
    if whence = lseekSet then some (F, .wait (.tryseek i pos))
    else if whence = lseekCur then some (F, .wait (.tryseek i (pos + (F.fdArray i).pos)))
    else if whence = lseekEnd then some (F, .wait (.seekFstat i pos))
    else F.fdArrayRelease i (-eInval)

/-- `file_fstat`, `file_fsync` and `file_getdirentry`, up to their call. -/
def filePlain (fd : ℤ) : Option (Files ν × Outcome ν) :=
  F.withFile fd fun i F => some (F, .wait (.plain i))

def fileFstat (fd : ℤ) : Option (Files ν × Outcome ν) := F.filePlain fd

def fileFsync (fd : ℤ) : Option (Files ν × Outcome ν) := F.filePlain fd

def fileGetdirentry (fd : ℤ) : Option (Files ν × Outcome ν) := F.filePlain fd

def fileDup (fd1 fd2 : ℤ) : Option (Files ν × Outcome ν) :=
  match F.fd2file fd1 with
  | none => some (F, .ret (-eInval))
  | some i =>
    (F.fdArrayAlloc fd2).bind fun
      | .error ret => some (F, .ret ret)
      | .ok (j, F) => (F.fdArrayDup j i).map fun F => (F, .ret (F.fdArray j).fd)

/-- The caller of `c` goes on. -/
def resume (reply : Reply ν) : Call ν → Option (Files ν × Outcome ν)
  | .vfsOpen i openFlags readable writable =>
    if reply.ret ≠ 0 then F.fdArrayFree i reply.ret
    else
      let F := F.setFile i fun f => { f with pos := 0 }
      if openFlags &&& oAppend ≠ 0#32 then
        some (F, .wait (.openFstat i reply.node readable writable))
      else F.openEnd i reply.node readable writable
  | .openFstat i n readable writable =>
    if hret : reply.ret ≠ 0 then some (F, .wait (.openClose i reply.ret hret))
    else (F.setFile i fun f => { f with pos := reply.stSize }).openEnd i n readable writable
  | .openClose i ret _ => F.fdArrayFree i ret
  | .vfsClose i ret => some (F.freed i, .ret ret)
  | .io i =>
    (if (F.fdArray i).status = .opened then
      F.setFile i fun f => { f with pos := f.pos + reply.iobufUsed }
    else F).fdArrayRelease i reply.ret
  | .seekFstat i pos =>
    if reply.ret = 0 then some (F, .wait (.tryseek i (pos + reply.stSize)))
    else F.fdArrayRelease i reply.ret
  | .tryseek i pos =>
    (if reply.ret = 0 then F.setFile i fun f => { f with pos := pos } else F).fdArrayRelease i reply.ret
  | .plain i => F.fdArrayRelease i reply.ret

end Files

/-! ## Threads -/

inductive FileOp where
  | open (openFlags : BitVec 32)
  | close (fd : ℤ)
  | read (fd : ℤ)
  | write (fd : ℤ)
  | seek (fd pos whence : ℤ)
  | fstat (fd : ℤ)
  | fsync (fd : ℤ)
  | getdirentry (fd : ℤ)
  | dup (fd1 fd2 : ℤ)

def Files.start {ν : Type} (F : Files ν) : FileOp → Option (Files ν × Outcome ν)
  | .open openFlags => F.fileOpen openFlags
  | .close fd => F.fileClose fd
  | .read fd => F.fileRead fd
  | .write fd => F.fileWrite fd
  | .seek fd pos whence => F.fileSeek fd pos whence
  | .fstat fd => F.fileFstat fd
  | .fsync fd => F.fileFsync fd
  | .getdirentry fd => F.fileGetdirentry fd
  | .dup fd1 fd2 => F.fileDup fd1 fd2

/-- The table with the threads that share it, each in at most one call. -/
structure FileTable (τ ν : Type) where
  files : Files ν
  calls : τ → Option (Call ν)

namespace FileTable

variable {τ ν : Type} [DecidableEq τ] (s : FileTable τ ν)

/-- The thread `t` comes to a call or returns. -/
def settle (t : τ) : Files ν × Outcome ν → FileTable τ ν
  | (F, .ret _) => ⟨F, Function.update s.calls t none⟩
  | (F, .wait c) => ⟨F, Function.update s.calls t (some c)⟩

end FileTable

end Ucore

end CacheCPU
