import CacheCPU.Lib.ByteMemory
import CacheCPU.Lib.Patch
import CacheCPU.Ucore.Disk0

/-!
# File I/O: `kern/fs/sfs/sfs_inode.c`, `sfs_io.c` and `bitmap.c`

A file of the file system, with its inode in memory, the disk and the memory of the caller. `err n`
is what the device answers to its operation number `n`; one that fails moves nothing. `none` is a
failed assertion or a `panic`. The buffer of the file system is filled before it is read in each
operation, so it is not part of the state, and neither are the locks, which are free again at the
end of each operation.
-/

namespace CacheCPU

namespace Ucore

open Patch

def sfsBlksize : ℕ := 4096
def sfsNdirect : ℕ := 12
def sfsBlkNentry : ℕ := 1024
def sfsMaxFileSize : ℕ := 1024 * 1024 * 128

/-- A block of the disk. -/
abbrev SfsBlock := BitVec 12 → BitVec 8

structure Sfs where
  superBlocks : ℕ
  unusedBlocks : ℕ
  superDirty : Bool
  /-- By block, whether it is free. -/
  freemap : List Bool
  disk : ℕ → SfsBlock
  /-- The operations that the device has been asked for. -/
  ops : ℕ
  isDir : Bool
  size : ℕ
  blocks : ℕ
  direct : ℕ → ℕ
  indirect : ℕ
  dirty : Bool
  mem : Bytes

namespace Sfs

variable (err : ℕ → ℤ) (s : Sfs)

/-! ## Blocks -/

/-- `sfs_rwblock_nolock`, which writes `data` or reads. -/
def rwblockNolock (blkno : ℕ) (data : Option SfsBlock) : Option (Sfs × ℤ × SfsBlock) :=
  if blkno ≠ 0 ∧ blkno < s.superBlocks then
    let disk := match data with
      | some b => if err s.ops = 0 then Function.update s.disk blkno b else s.disk
      | none => s.disk
    some ({ s with ops := s.ops + 1, disk := disk }, err s.ops, s.disk blkno)
  else none

/-- What is read goes to `buf` unless the device fails. -/
def sfsRblock (s : Sfs) (buf : BitVec 32) (blkno : ℕ) : ℕ → Option (Sfs × ℤ)
  | 0 => some (s, 0)
  | nblks + 1 =>
    (s.rwblockNolock err blkno none).bind fun (s, ret, b) =>
      if ret = 0 then
        sfsRblock { s with mem := patch s.mem buf (fun i => b (BitVec.ofNat 12 i)) sfsBlksize }
          (buf + 0x1000#32) (blkno + 1) nblks
      else some (s, ret)

def sfsWblock (s : Sfs) (buf : BitVec 32) (blkno : ℕ) : ℕ → Option (Sfs × ℤ)
  | 0 => some (s, 0)
  | nblks + 1 =>
    (s.rwblockNolock err blkno (some fun i => s.mem (buf + BitVec.ofNat 32 i.toNat))).bind
      fun (s, ret, _) =>
        if ret = 0 then sfsWblock s (buf + 0x1000#32) (blkno + 1) nblks else some (s, ret)

/-- With the bytes that it copies unless the device fails. -/
def sfsRbuf (len blkno offset : ℕ) : Option (Sfs × ℤ × (ℕ → BitVec 8)) :=
  if offset < sfsBlksize ∧ offset + len ≤ sfsBlksize then
    (s.rwblockNolock err blkno none).map fun (s, ret, b) =>
      (s, ret, fun i => b (BitVec.ofNat 12 (offset + i)))
  else none

def sfsWbuf (data : ℕ → BitVec 8) (len blkno offset : ℕ) : Option (Sfs × ℤ) :=
  if offset < sfsBlksize ∧ offset + len ≤ sfsBlksize then
    (s.rwblockNolock err blkno none).bind fun (s, ret, b) =>
      if ret = 0 then
        (s.rwblockNolock err blkno (some (patch b (BitVec.ofNat 12 offset) data len))).map
          fun (s, ret, _) => (s, ret)
      else some (s, ret)
  else none

/-- `sfs_clear_block` of one block. -/
def sfsClearBlock (blkno : ℕ) : Option (Sfs × ℤ) :=
  (s.rwblockNolock err blkno (some fun _ => 0#8)).map fun (s, ret, _) => (s, ret)

/-! ## The free blocks -/

/-- `sfs_block_inuse` in an assertion. -/
def blockInuse (ino : ℕ) : Prop := ino ≠ 0 ∧ ino < s.superBlocks ∧ s.freemap[ino]? = some false

instance (ino : ℕ) : Decidable (s.blockInuse ino) := inferInstanceAs (Decidable (_ ∧ _))

/-- `bitmap_alloc`: the first free block. -/
def bitmapAlloc : Option ℕ := s.freemap.findIdx? id

def blockAlloc : Option (Sfs × ℤ × ℕ) :=
  match s.bitmapAlloc with
  | none => some (s, -eNoMem, 0)
  | some ino =>
    let s' := { s with freemap := s.freemap.set ino false, unusedBlocks := s.unusedBlocks - 1,
                       superDirty := true }
    if 0 < s.unusedBlocks ∧ s'.blockInuse ino then
      (s'.sfsClearBlock err ino).map fun (s, ret) => (s, ret, ino)
    else none

def blockFree (ino : ℕ) : Option Sfs :=
  if s.blockInuse ino then
    some { s with freemap := s.freemap.set ino true, unusedBlocks := s.unusedBlocks + 1,
                  superDirty := true }
  else none

/-! ## The block map -/

/-- The number that four bytes hold. -/
def word (w : ℕ → BitVec 8) : ℕ := (w 3 ++ w 2 ++ w 1 ++ w 0 : BitVec 32).toNat

/-- The bytes of a number. -/
def bytesOf (ino : ℕ) (i : ℕ) : BitVec 8 :=
  ByteMemory.byteAt (BitVec.ofNat 2 i) (BitVec.ofNat 32 ino)

/-- `failed_cleanup`. -/
def bmapCleanup (entp ent : ℕ) (ret : ℤ) : Option (Sfs × ℤ × ℕ × ℕ) :=
  if ent ≠ entp then (s.blockFree ent).map fun s => (s, ret, entp, 0) else some (s, ret, entp, 0)

/-- The second half of `sfs_bmap_get_sub_nolock`, which makes a block. -/
def bmapGetSubCreate (entp ent index : ℕ) : Option (Sfs × ℤ × ℕ × ℕ) :=
  (s.blockAlloc err).bind fun (s, ret, ino) =>
    if ret ≠ 0 then s.bmapCleanup entp ent ret
    else (s.sfsWbuf err (bytesOf ino) 4 ent (index * 4)).bind fun (s, ret) =>
      if ret ≠ 0 then (s.blockFree ino).bind fun s => s.bmapCleanup entp ent ret
      else some (s, 0, ent, ino)

/-- What it returns, `*entp` and `*ino_store`. -/
def bmapGetSubNolock (entp index : ℕ) (create : Bool) : Option (Sfs × ℤ × ℕ × ℕ) :=
  if index < sfsBlkNentry then
    if entp ≠ 0 then
      (s.sfsRbuf err 4 entp (index * 4)).bind fun (s, ret, w) =>
        if ret ≠ 0 then some (s, ret, entp, 0)
        else if word w ≠ 0 ∨ create = false then some (s, 0, entp, word w)
        else s.bmapGetSubCreate err entp entp index
    else if create = false then some (s, 0, entp, 0)
    else (s.blockAlloc err).bind fun (s, ret, ent) =>
      if ret ≠ 0 then some (s, ret, entp, 0) else s.bmapGetSubCreate err entp ent index
  else none

/-- The end of `sfs_bmap_get_nolock`. -/
def bmapOut (ino : ℕ) : Option (Sfs × ℤ × ℕ) :=
  if ino = 0 ∨ s.blockInuse ino then some (s, 0, ino) else none

def bmapGetNolock (index : ℕ) (create : Bool) : Option (Sfs × ℤ × ℕ) :=
  if index < sfsNdirect then
    if s.direct index = 0 ∧ create = true then
      (s.blockAlloc err).bind fun (s, ret, ino) =>
        if ret ≠ 0 then some (s, ret, 0)
        else bmapOut { s with direct := Function.update s.direct index ino, dirty := true } ino
    else s.bmapOut (s.direct index)
  else if index - sfsNdirect < sfsBlkNentry then
    (s.bmapGetSubNolock err s.indirect (index - sfsNdirect) create).bind fun (s, ret, ent, ino) =>
      if ret ≠ 0 then some (s, ret, 0)
      else if ent ≠ s.indirect then
        if s.indirect = 0 then bmapOut { s with indirect := ent, dirty := true } ino else none
      else s.bmapOut ino
  else none

def bmapLoadNolock (index : ℕ) : Option (Sfs × ℤ × ℕ) :=
  if index ≤ s.blocks then
    (s.bmapGetNolock err index (index == s.blocks)).bind fun (s', ret, ino) =>
      if ret ≠ 0 then some (s', ret, 0)
      else if s'.blockInuse ino then
        some ({ s' with blocks := if index = s.blocks then s'.blocks + 1 else s'.blocks }, 0, ino)
      else none
  else none

/-! ## Blocks from the end of a file -/

def bmapFreeSubNolock (ent index : ℕ) : Option (Sfs × ℤ) :=
  if s.blockInuse ent ∧ index < sfsBlkNentry then
    (s.sfsRbuf err 4 ent (index * 4)).bind fun (s, ret, w) =>
      if ret ≠ 0 then some (s, ret)
      else if word w ≠ 0 then
        (s.sfsWbuf err (bytesOf 0) 4 ent (index * 4)).bind fun (s, ret) =>
          if ret ≠ 0 then some (s, ret) else (s.blockFree (word w)).map fun s => (s, 0)
      else some (s, 0)
  else none

def bmapFreeNolock (index : ℕ) : Option (Sfs × ℤ) :=
  if index < sfsNdirect then
    if s.direct index ≠ 0 then
      (s.blockFree (s.direct index)).map fun s =>
        ({ s with direct := Function.update s.direct index 0, dirty := true }, 0)
    else some (s, 0)
  else if index - sfsNdirect < sfsBlkNentry then
    if s.indirect ≠ 0 then s.bmapFreeSubNolock err s.indirect (index - sfsNdirect) else some (s, 0)
  else some (s, 0)

def bmapTruncateNolock : Option (Sfs × ℤ) :=
  if s.blocks ≠ 0 then
    (s.bmapFreeNolock err (s.blocks - 1)).map fun (s, ret) =>
      if ret ≠ 0 then (s, ret) else ({ s with blocks := s.blocks - 1, dirty := true }, 0)
  else none

/-! ## `sfs_io_nolock` -/

/-- `sfs_rbuf` to the memory of the caller, or `sfs_wbuf` from it. -/
def sfsBufOp (write : Bool) (buf : BitVec 32) (len blkno offset : ℕ) : Option (Sfs × ℤ) :=
  if write then s.sfsWbuf err (fun i => s.mem (buf + BitVec.ofNat 32 i)) len blkno offset
  else (s.sfsRbuf err len blkno offset).map fun (s, ret, w) =>
    (if ret = 0 then { s with mem := patch s.mem buf w len } else s, ret)

def sfsBlockOp (write : Bool) (buf : BitVec 32) (blkno nblks : ℕ) : Option (Sfs × ℤ) :=
  if write then s.sfsWblock err buf blkno nblks else s.sfsRblock err buf blkno nblks

/-- `assert(sfs_bmap_load_nolock(...) == 0)`, and then the operation with `assert(... == 0)`. -/
def asserted (index : ℕ) (op : Sfs → ℕ → Option (Sfs × ℤ)) : Option Sfs :=
  (s.bmapLoadNolock err index).bind fun (s, ret, ino) =>
    if ret = 0 then (op s ino).bind fun (s, ret) => if ret = 0 then some s else none else none

/-- The first block, from `blkoff` on. -/
def ioHead (write : Bool) (buf : BitVec 32) (offset endpos : ℕ) : Option Sfs :=
  let nblks := endpos / sfsBlksize - offset / sfsBlksize
  let blkoff := offset % sfsBlksize
  let blklen := if 0 < nblks then sfsBlksize - blkoff else endpos - offset
  if 0 < blkoff then
    s.asserted err (offset / sfsBlksize) fun s ino => s.sfsBufOp err write buf blklen ino blkoff
  else some s

/-- The number of bytes of the first block. -/
def headLen (offset endpos : ℕ) : ℕ :=
  if 0 < offset % sfsBlksize then
    if 0 < endpos / sfsBlksize - offset / sfsBlksize then sfsBlksize - offset % sfsBlksize
    else endpos - offset
  else 0

/-- The index of the first whole block, and the number of whole blocks. -/
def wholeFirst (offset : ℕ) : ℕ :=
  if 0 < offset % sfsBlksize then offset / sfsBlksize + 1 else offset / sfsBlksize

def wholeCount (offset endpos : ℕ) : ℕ :=
  if 0 < offset % sfsBlksize then endpos / sfsBlksize - offset / sfsBlksize - 1
  else endpos / sfsBlksize - offset / sfsBlksize

/-- The whole blocks, all from the place of the first one. -/
def ioWhole (write : Bool) (buf : BitVec 32) (index nblks : ℕ) : Option Sfs :=
  if 0 < nblks then
    s.asserted err index fun s ino => s.sfsBlockOp err write buf ino nblks
  else some s

/-- The number of bytes of the last block. -/
def tailLen (offset endpos : ℕ) : ℕ :=
  if 0 < offset % sfsBlksize ∧ endpos / sfsBlksize - offset / sfsBlksize = 0 then 0
  else endpos % sfsBlksize

def ioTail (write : Bool) (buf : BitVec 32) (offset endpos : ℕ) : Option Sfs :=
  if 0 < tailLen offset endpos then
    s.asserted err (endpos / sfsBlksize) fun s ino =>
      s.sfsBufOp err write buf (endpos % sfsBlksize) ino 0
  else some s

/-- The three parts, and the number of bytes moved. -/
def ioParts (write : Bool) (buf : BitVec 32) (offset endpos : ℕ) : Option (Sfs × ℕ) :=
  (s.ioHead err write buf offset endpos).bind fun s =>
    let moved := headLen offset endpos
    (s.ioWhole err write (buf + BitVec.ofNat 32 moved) (wholeFirst offset)
        (wholeCount offset endpos)).bind fun s =>
      let moved := moved + wholeCount offset endpos * sfsBlksize
      (s.ioTail err write (buf + BitVec.ofNat 32 moved) offset endpos).map fun s =>
        (s, moved + tailLen offset endpos)

/-- The state, what it returns and `*alenp`. -/
def sfsIoNolock (write : Bool) (buf offset len : BitVec 32) : Option (Sfs × ℤ × ℕ) :=
  if s.isDir then none
  else
    let endpos := offset + len
    if offset.toInt < 0 ∨ sfsMaxFileSize ≤ offset.toInt ∨ endpos.toInt < offset.toInt then
      some (s, -eInval, 0)
    else if offset = endpos then some (s, 0, 0)
    else
      let endpos := if sfsMaxFileSize < endpos.toNat then sfsMaxFileSize else endpos.toNat
      if write = false ∧ s.size ≤ offset.toNat then some (s, 0, 0)
      else
        let endpos := if write = false ∧ s.size < endpos then s.size else endpos
        (s.ioParts err write buf offset.toNat endpos).map fun (s, alen) =>
          if s.size < offset.toNat + alen then
            ({ s with size := offset.toNat + alen, dirty := true }, 0, alen)
          else (s, 0, alen)

/-! ## `sfs_truncfile` -/

/-- Blocks from `nblks` on are made until there are `n` more. -/
def truncEnlarge (s : Sfs) (nblks : ℕ) : ℕ → Option (Sfs × ℤ)
  | 0 => some (s, 0)
  | n + 1 =>
    (s.bmapLoadNolock err nblks).bind fun (s, ret, _) =>
      if ret ≠ 0 then some (s, ret) else truncEnlarge s (nblks + 1) n

def truncReduce (s : Sfs) : ℕ → Option (Sfs × ℤ)
  | 0 => some (s, 0)
  | n + 1 =>
    (s.bmapTruncateNolock err).bind fun (s, ret) =>
      if ret ≠ 0 then some (s, ret) else truncReduce s n

/-- `ROUNDUP_DIV(len, SFS_BLKSIZE)`. -/
def blksOf (len : ℕ) : ℕ := (len + sfsBlksize - 1) / sfsBlksize

def sfsTruncfile (len : BitVec 32) : Option (Sfs × ℤ) :=
  if len.toInt < 0 ∨ sfsMaxFileSize < len.toInt then some (s, -eInval)
  else
    let tblks := blksOf len.toNat
    if s.size = len.toNat then if tblks = s.blocks then some (s, 0) else none
    else
      (if s.blocks < tblks then s.truncEnlarge err s.blocks (tblks - s.blocks)
        else s.truncReduce err (s.blocks - tblks)).bind fun (s, ret) =>
          if ret ≠ 0 then some (s, ret)
          else if s.blocks = tblks then some ({ s with size := len.toNat, dirty := true }, 0)
          else none

/-- A position beyond the end makes the file longer. -/
def sfsTryseek (pos : BitVec 32) : Option (Sfs × ℤ) :=
  if pos.toInt < 0 ∨ sfsMaxFileSize ≤ pos.toInt then some (s, -eInval)
  else if s.size < pos.toNat then s.sfsTruncfile err pos else some (s, 0)

end Sfs

/-! ## The files of one file system -/

/-- `struct sfs_inode`, with its `struct sfs_disk_inode`. -/
structure SfsInode where
  isDir : Bool
  size : ℕ
  blocks : ℕ
  direct : ℕ → ℕ
  indirect : ℕ
  dirty : Bool

/-- A file system with the inodes in memory. -/
structure SfsFs (ι : Type) where
  superBlocks : ℕ
  unusedBlocks : ℕ
  superDirty : Bool
  freemap : List Bool
  disk : ℕ → SfsBlock
  ops : ℕ
  mem : Bytes
  node : ι → SfsInode

/-- A call of `vop_read` or `vop_write`, `vop_truncate` or `vop_tryseek`. -/
inductive FileCall where
  | io (write : Bool) (buf offset len : BitVec 32)
  | truncate (len : BitVec 32)
  | tryseek (pos : BitVec 32)

def FileCall.run (err : ℕ → ℤ) (s : Sfs) : FileCall → Option (Sfs × ℤ)
  | io write buf offset len =>
    (s.sfsIoNolock err write buf offset len).map fun (s, ret, _) => (s, ret)
  | truncate len => s.sfsTruncfile err len
  | tryseek pos => s.sfsTryseek err pos

namespace SfsFs

variable {ι : Type} [DecidableEq ι] (v : SfsFs ι)

/-- The disk with one of the files. -/
def file (f : ι) : Sfs where
  superBlocks := v.superBlocks
  unusedBlocks := v.unusedBlocks
  superDirty := v.superDirty
  freemap := v.freemap
  disk := v.disk
  ops := v.ops
  isDir := (v.node f).isDir
  size := (v.node f).size
  blocks := (v.node f).blocks
  direct := (v.node f).direct
  indirect := (v.node f).indirect
  dirty := (v.node f).dirty
  mem := v.mem

/-- What a call on file `f` leaves. -/
def setFile (f : ι) (s : Sfs) : SfsFs ι where
  superBlocks := s.superBlocks
  unusedBlocks := s.unusedBlocks
  superDirty := s.superDirty
  freemap := s.freemap
  disk := s.disk
  ops := s.ops
  mem := s.mem
  node := Function.update v.node f
    { isDir := s.isDir, size := s.size, blocks := s.blocks, direct := s.direct,
      indirect := s.indirect, dirty := s.dirty }

end SfsFs

end Ucore

end CacheCPU
