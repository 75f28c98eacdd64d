import CacheCPU.Ucore.Error
import Mathlib.Data.Int.Notation
import Mathlib.Data.Nat.Notation
import Mathlib.Logic.Function.Basic

/-!
# The disk in the Flash: `kern/fs/devs/dev_disk0.c` and `kern/fs/iobuf.c`

`disk0_buffer` is a block of the heap that nothing else points to, so it is a memory of its own,
addressed from its beginning. What a byte load from the Flash returns is a parameter. `none` is a
failed assertion, a wait for a lock that nobody gives back, or a loop that has not ended when the
fuel is used up.
-/

namespace CacheCPU

namespace Ucore

abbrev Bytes := BitVec 32 → BitVec 8

/-! ## `iobuf.h` and `string.c` -/

/-- `struct iobuf`. -/
structure Iobuf where
  ioBase : BitVec 32
  ioOffset : BitVec 32
  ioLen : BitVec 32
  ioResid : BitVec 32

def iobufInit (base len offset : BitVec 32) : Iobuf := ⟨base, offset, len, len⟩

def Iobuf.iobufSkip (iob : Iobuf) (n : BitVec 32) : Option Iobuf :=
  if n ≤ iob.ioResid then
    some { iob with
      ioBase := iob.ioBase + n
      ioOffset := iob.ioOffset + n
      ioResid := iob.ioResid - n }
  else none

/-- `memmove` of `n` bytes from one memory to another. -/
def memmove (dst src : Bytes) (d s : BitVec 32) : ℕ → Bytes
  | 0 => dst
  | n + 1 => memmove (Function.update dst d (src s)) src (d + 1#32) (s + 1#32) n

/-- Of each four bytes from `s` on the first two are copied. The count goes down by two, so that an
odd one never comes to 0. -/
def memcpyFlash (load : Bytes) (dst : Bytes) (d s : BitVec 32) : ℕ → Option Bytes
  | 0 => some dst
  | 1 => none
  | n + 2 =>
    let dst := Function.update dst d (load s)
    let dst := Function.update dst (d + 1#32) (load (s + 1#32))
    memcpyFlash load dst (d + 2#32) (s + 4#32) n

/-! ## `dev_disk0.c` -/

def disk0Blksize : BitVec 32 := 4096#32
def disk0Bufsize : BitVec 32 := 4#32 * disk0Blksize
def disk0Devsize : BitVec 32 := 0x400000#32

/-- `_binary_bin_sfs_img_start`. -/
def sfsImgStart : BitVec 32 := 0xbe200000#32

/-- The variables of the file, the device, and what the caller hands over. -/
structure Disk0 where
  mem : Bytes
  iob : Iobuf
  disk0Buffer : Bytes
  disk0Sem : ℤ
  dBlocks : BitVec 32

namespace Disk0

variable (d : Disk0)

/-- `iobuf_move` with `disk0_buffer`: what it returns, and the number of bytes moved. -/
def iobufMove (len : BitVec 32) (m2b : Bool) : Option (Disk0 × ℤ × BitVec 32) :=
  let alen := if len < d.iob.ioResid then len else d.iob.ioResid
  if 0#32 < alen then do
    let d' := if m2b then
        { d with mem := memmove d.mem d.disk0Buffer d.iob.ioBase 0#32 alen.toNat }
      else { d with disk0Buffer := memmove d.disk0Buffer d.mem 0#32 d.iob.ioBase alen.toNat }
    let iob ← d.iob.iobufSkip alen
    return ({ d' with iob := iob }, if len - alen = 0#32 then 0 else -eNoMem, alen)
  else some (d, if len = 0#32 then 0 else -eNoMem, alen)

def lockDisk0 : Option Disk0 :=
  if 0 < d.disk0Sem then some { d with disk0Sem := d.disk0Sem - 1 } else none

def unlockDisk0 : Disk0 := { d with disk0Sem := d.disk0Sem + 1 }

def disk0ReadBlksNolock (load : Bytes) (blkno nblks : BitVec 32) : Option Disk0 :=
  let start := sfsImgStart + blkno * disk0Blksize * 2#32
  (memcpyFlash load d.disk0Buffer 0#32 start (nblks * disk0Blksize).toNat).map fun b =>
    { d with disk0Buffer := b }

/-- Nothing but a warning. -/
def disk0WriteBlksNolock (_ _ : BitVec 32) : Disk0 := d

/-- The body of the loop of `disk0_io`, with `blkno` and `resid` after it. -/
def chunk (load : Bytes) (write : Bool) (blkno resid : BitVec 32) :
    Option (Disk0 × BitVec 32 × BitVec 32) :=
  if write then do
    let (d, _, copied) ← d.iobufMove disk0Bufsize false
    if copied ≠ 0#32 ∧ copied ≤ resid ∧ copied % disk0Blksize = 0#32 then
      let nblks := copied / disk0Blksize
      return (d.disk0WriteBlksNolock blkno nblks, blkno + nblks, resid - copied)
    else none
  else do
    let alen := if resid < disk0Bufsize then resid else disk0Bufsize
    let nblks := alen / disk0Blksize
    let d ← d.disk0ReadBlksNolock load blkno nblks
    let (d, _, copied) ← d.iobufMove alen true
    if copied = alen ∧ copied % disk0Blksize = 0#32 then
      return (d, blkno + nblks, resid - copied)
    else none

def chunks (load : Bytes) (write : Bool) : ℕ → Disk0 → BitVec 32 → BitVec 32 → Option Disk0
  | fuel, d, blkno, resid =>
    if resid = 0#32 then some d
    else match fuel with
      | 0 => none
      | fuel + 1 => do
        let (d, blkno, resid) ← d.chunk load write blkno resid
        chunks load write fuel d blkno resid

/-- The offset is signed. -/
def disk0Io (load : Bytes) (fuel : ℕ) (write : Bool) : Option (Disk0 × ℤ) :=
  let offset := d.iob.ioOffset
  let resid := d.iob.ioResid
  let blkno := offset.sdiv disk0Blksize
  let nblks := resid / disk0Blksize
  if offset.srem disk0Blksize ≠ 0#32 ∨ resid % disk0Blksize ≠ 0#32 then some (d, -eInval)
  else if d.dBlocks < blkno + nblks then some (d, -eInval)
  else if nblks = 0#32 then some (d, 0)
  else do
    let d ← d.lockDisk0
    let d ← chunks load write fuel d blkno resid
    return (d.unlockDisk0, 0)

/-- `disk0_device_init`, with the memory at that time. -/
def disk0DeviceInit (mem buffer : Bytes) (iob : Iobuf) : Disk0 where
  mem := mem
  iob := iob
  disk0Buffer := buffer
  disk0Sem := 1
  dBlocks := disk0Devsize / disk0Blksize

/-- The states after the initialisation. Between two calls the rest of the kernel does what it likes
to the memory; in a call it does not come to run, as `disk0_io` waits for nothing once it has the
lock. -/
inductive Reachable (load : Bytes) : Disk0 → Prop
  | init (mem buffer : Bytes) (iob : Iobuf) : Reachable load (disk0DeviceInit mem buffer iob)
  | other {d : Disk0} (mem : Bytes) (iob : Iobuf) : Reachable load d →
      Reachable load { d with mem := mem, iob := iob }
  | io {d d' : Disk0} {fuel : ℕ} {write : Bool} {r : ℤ} : Reachable load d →
      d.disk0Io load fuel write = some (d', r) → Reachable load d'

end Disk0

end Ucore

end CacheCPU
