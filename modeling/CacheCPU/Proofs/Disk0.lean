import CacheCPU.Lib.Patch
import CacheCPU.Proofs.FlashRead
import CacheCPU.Ucore.Disk0

/-!
# Reads of the disk

`disk0_io` copies the SFS image out of the Flash in chunks of four blocks. The Flash has 16 bits in
each word of the address space, so the image is spread over twice its size, and `memcpy_flash` takes
two bytes of each four.
-/

namespace CacheCPU

open Patch

/-! ## The image in the Flash -/

/-- The byte that a load from a direct-mapped address of the Flash returns: the lane of the word
that is there. -/
def Image.flashByte (I : Image) (a : BitVec 32) : BitVec 8 :=
  WB.byteOf (a.extractLsb 1 0) (I.flashWord ((a.extractLsb 28 0).zeroExtend 32))

/-- The SFS image: byte `n` is the low or the high one of the 16 bits of word `n / 2` from
`0xbe200000` on. -/
def Image.sfsImage (I : Image) (n : ℕ) : BitVec 8 :=
  (I.flash (BitVec.ofNat 23 (2 * (0x80000 + n / 2)))).extractLsb' (8 * (n % 2)) 8

/-- The address of byte `n` of the image. -/
def imageAddr (n : ℕ) : BitVec 32 := Ucore.sfsImgStart + BitVec.ofNat 32 (4 * (n / 2) + n % 2)

section Image

variable {n : ℕ} (I : Image)

theorem toNat_imageAddr (hn : n < 0x400000) :
    (imageAddr n).toNat = 0xbe200000 + (4 * (n / 2) + n % 2) := by
  rw [imageAddr, BitVec.toNat_add, BitVec.toNat_ofNat]
  change (0xbe200000 + _) % _ = _
  omega

theorem lane_imageAddr (hn : n < 0x400000) :
    (imageAddr n).extractLsb 1 0 = BitVec.ofNat 2 (n % 2) := by
  apply BitVec.eq_of_toNat_eq
  rw [BitVec.extractLsb_toNat, toNat_imageAddr hn, BitVec.toNat_ofNat]
  omega

theorem toNat_physical_imageAddr (hn : n < 0x400000) :
    (((imageAddr n).extractLsb 28 0).zeroExtend 32).toNat =
      0x1e200000 + (4 * (n / 2) + n % 2) := by
  rw [BitVec.toNat_setWidth, BitVec.extractLsb_toNat, toNat_imageAddr hn]
  omega

theorem flashByte_imageAddr (hn : n < 0x400000) : I.flashByte (imageAddr n) = I.sfsImage n := by
  have hword : ((0x1e200000 + (4 * (n / 2) + n % 2)) - 0x1e000000) / 4 * 2 =
      2 * (0x80000 + n / 2) := by omega
  rw [Image.flashByte, Image.sfsImage, Image.flashWord, lane_imageAddr hn,
    toNat_physical_imageAddr hn, hword]
  generalize I.flash _ = v
  rcases Nat.mod_two_eq_zero_or_one n with h | h <;> rw [h]
  · ext i hi
    simp [WB.byteOf]
  · ext i hi
    simp [WB.byteOf]

end Image

/-- What the CPU sees when it loads a byte of the image. -/
theorem Board.returns_image {I : Image} {b : Board} {n : ℕ} (hr : Reachable I b)
    (h : b.machine.BeginsRead (imageAddr n)) (hn : n < 0x400000) (x : ℕ → Exts) :
    ∃ v, b.Returns I x v ∧ WB.byteOf ((imageAddr n).extractLsb 1 0) v = I.sfsImage n := by
  have hdir : notUseMmu (imageAddr n) = true := by
    have hseg : (imageAddr n).extractLsb 31 29 = 0b101#3 := by
      apply BitVec.eq_of_toNat_eq
      rw [BitVec.extractLsb_toNat, toNat_imageAddr hn]
      change _ = 5
      omega
    rw [notUseMmu, hseg]
    rfl
  have hpa : b.physical = ((imageAddr n).extractLsb 28 0).zeroExtend 32 := by
    rw [physical, h.access, physicalAddr, if_pos hdir]
  have hflash : InFlash b.physical := by
    rw [InFlash, hpa, toNat_physical_imageAddr hn]
    omega
  obtain ⟨hread, hal⟩ := h.reads hr.inv.2
  refine ⟨I.flashWord b.physical, ?_, ?_⟩
  · exact returns_flashWord hr h.accesses hread (by rw [h.access]; exact hdir)
      (by rw [h.access]; exact hal) hflash x
  · rw [hpa]
    exact flashByte_imageAddr I hn

namespace Ucore

/-! ## The copies -/

variable {load dst src : Bytes}

theorem memmove_eq (d s : BitVec 32) {n : ℕ} (hn : n ≤ 2 ^ 32) :
    memmove dst src d s n = patch dst d (fun i => src (s + BitVec.ofNat 32 i)) n := by
  induction n generalizing dst d s with
  | zero => rw [patch_zero]; rfl
  | succ n ih =>
    rw [memmove, ih (d + 1#32) (s + 1#32) (by omega), ← patch_update hn]
    simp only [BitVec.add_zero s, BitVec.ofNat_add, BitVec.add_assoc, BitVec.add_comm 1#32]

/-- The source of byte `i`: two of each four bytes. -/
def flashOffset (i : ℕ) : BitVec 32 := BitVec.ofNat 32 (4 * (i / 2) + i % 2)

theorem memcpyFlash_eq (d s : BitVec 32) {k : ℕ} (hk : 2 * k ≤ 2 ^ 32) :
    memcpyFlash load dst d s (2 * k) =
      some (patch dst d (fun i => load (s + flashOffset i)) (2 * k)) := by
  induction k generalizing dst d s with
  | zero => rw [Nat.mul_zero, patch_zero]; rfl
  | succ k ih =>
    have hsrc : ∀ i, s + 4#32 + flashOffset i = s + flashOffset (2 + i) := by
      intro i
      rw [flashOffset, flashOffset, Nat.add_mod_left, Nat.add_div_left _ (by decide),
        BitVec.add_assoc, ← BitVec.ofNat_add]
      congr 2
      omega
    have hfirst : s = s + flashOffset 0 := (BitVec.add_zero s).symm
    rw [Nat.mul_succ, memcpyFlash, ih (d + 2#32) (s + 4#32) (by omega), Nat.add_comm (2 * k) 2,
      ← patch_append (by omega), patch_two (by decide)]
    simp only [hsrc, ← hfirst]
    rfl

/-- The `iobuf` when `n` bytes more have been moved. -/
def Iobuf.advanced (iob : Iobuf) (n : ℕ) : Iobuf where
  ioBase := iob.ioBase + BitVec.ofNat 32 n
  ioOffset := iob.ioOffset + BitVec.ofNat 32 n
  ioLen := iob.ioLen
  ioResid := iob.ioResid - BitVec.ofNat 32 n

theorem Iobuf.advanced_add (iob : Iobuf) (n m : ℕ) :
    (iob.advanced n).advanced m = iob.advanced (n + m) := by
  simp only [advanced, BitVec.ofNat_add, BitVec.add_assoc, sub_sub]

namespace Disk0

variable {d d' d'' : Disk0} {I : Image}

/-- The `n` bytes of the image from `o` on have been delivered. -/
structure Delivered (I : Image) (d d' : Disk0) (o n : ℕ) : Prop where
  mem : d'.mem = patch d.mem d.iob.ioBase (fun i => I.sfsImage (o + i)) n
  iob : d'.iob = d.iob.advanced n
  disk0Sem : d'.disk0Sem = d.disk0Sem
  dBlocks : d'.dBlocks = d.dBlocks

theorem Delivered.refl (o : ℕ) : Delivered I d d o 0 :=
  ⟨patch_zero.symm, by simp [Iobuf.advanced], rfl, rfl⟩

theorem Delivered.trans {o n m : ℕ} (h : Delivered I d d' o n) (h' : Delivered I d' d'' (o + n) m)
    (hle : n + m ≤ 2 ^ 32) : Delivered I d d'' o (n + m) := by
  refine ⟨?_, ?_, h'.disk0Sem.trans h.disk0Sem, h'.dBlocks.trans h.dBlocks⟩
  · rw [h'.mem, h.mem, h.iob, ← patch_append hle]
    simp only [Iobuf.advanced, Nat.add_assoc]
  · rw [h'.iob, h.iob, Iobuf.advanced_add]

/-! ## One chunk -/

theorem iobufMove_out {len : BitVec 32} (h : len ≤ d.iob.ioResid) (h0 : 0#32 < len) :
    d.iobufMove len true = some ({ d with
      mem := patch d.mem d.iob.ioBase (fun i => d.disk0Buffer (BitVec.ofNat 32 i)) len.toNat
      iob := d.iob.advanced len.toNat }, 0, len) := by
  have halen : (if len < d.iob.ioResid then len else d.iob.ioResid) = len := by
    split_ifs with hlt
    · rfl
    · exact BitVec.le_antisymm (BitVec.not_lt.1 hlt) h
  unfold iobufMove
  simp only [halen, if_pos h0, if_true, Iobuf.iobufSkip, if_pos h, memmove_eq _ _ len.isLt.le,
    BitVec.zero_add, BitVec.sub_self, Iobuf.advanced, BitVec.ofNat_toNat, BitVec.setWidth_eq]
  rfl

/-- The blocks are in the buffer. -/
theorem disk0ReadBlksNolock_eq {blkno nblks : BitVec 32} (hend : blkno.toNat + nblks.toNat ≤ 1024) :
    ∃ b, d.disk0ReadBlksNolock I.flashByte blkno nblks = some { d with disk0Buffer := b } ∧
      ∀ i < 4096 * nblks.toNat, b (BitVec.ofNat 32 i) = I.sfsImage (4096 * blkno.toNat + i) := by
  have hn : (nblks * disk0Blksize).toNat = 2 * (2048 * nblks.toNat) := by
    rw [BitVec.toNat_mul]
    change nblks.toNat * 4096 % 2 ^ 32 = _
    omega
  refine ⟨patch d.disk0Buffer 0#32
    (fun i => I.flashByte (sfsImgStart + blkno * disk0Blksize * 2#32 + flashOffset i))
    (2 * (2048 * nblks.toNat)), ?_, fun i hi => ?_⟩
  · have hcopy := @memcpyFlash_eq I.flashByte d.disk0Buffer 0#32
      (sfsImgStart + blkno * disk0Blksize * 2#32) (2048 * nblks.toNat) (by omega)
    simp only [disk0ReadBlksNolock, hn, hcopy, Option.map_some]
  · have hsrc : sfsImgStart + blkno * disk0Blksize * 2#32 + flashOffset i =
        imageAddr (4096 * blkno.toNat + i) := by
      rw [imageAddr, BitVec.add_assoc, BitVec.add_right_inj, flashOffset]
      apply BitVec.eq_of_toNat_eq
      simp only [BitVec.toNat_add, BitVec.toNat_mul, BitVec.toNat_ofNat]
      change (blkno.toNat * 4096 % 2 ^ 32 * 2 % 2 ^ 32 + _) % 2 ^ 32 = _
      omega
    have hz : BitVec.ofNat 32 i = 0#32 + BitVec.ofNat 32 i := (BitVec.zero_add _).symm
    rw [hz, patch_add (by omega) (by omega), hsrc, flashByte_imageAddr I (by omega)]

/-- The length of the chunk that is read when `r` bytes are left. -/
def chunkLen (r : ℕ) : ℕ := min r 16384

theorem chunk_read {blkno resid : BitVec 32} (hiob : d.iob.ioResid = resid)
    (hal : resid.toNat % 4096 = 0) (h0 : resid ≠ 0#32)
    (hend : 4096 * blkno.toNat + resid.toNat ≤ 0x400000) :
    ∃ d' blkno' resid', d.chunk I.flashByte false blkno resid = some (d', blkno', resid') ∧
      Delivered I d d' (4096 * blkno.toNat) (chunkLen resid.toNat) ∧
      4096 * blkno'.toNat = 4096 * blkno.toNat + chunkLen resid.toNat ∧
      resid'.toNat = resid.toNat - chunkLen resid.toNat := by
  obtain ⟨alen, halen⟩ : ∃ alen, (if resid < disk0Bufsize then resid else disk0Bufsize) = alen :=
    ⟨_, rfl⟩
  have hbuf : disk0Bufsize.toNat = 16384 := rfl
  have hlen : alen.toNat = chunkLen resid.toNat := by
    rw [← halen, chunkLen]
    split_ifs with h
    · rw [BitVec.lt_def, hbuf] at h
      omega
    · rw [BitVec.lt_def, hbuf] at h
      omega
  have hpos : resid.toNat ≠ 0 := fun h => h0 (BitVec.eq_of_toNat_eq h)
  unfold chunkLen at hlen ⊢
  have hnblks : (alen / disk0Blksize).toNat = alen.toNat / 4096 := BitVec.toNat_udiv
  obtain ⟨b, hb, hbytes⟩ := @disk0ReadBlksNolock_eq d I blkno (alen / disk0Blksize)
    (by rw [hnblks]; omega)
  have hmove := @iobufMove_out { d with disk0Buffer := b } alen
    (by rw [BitVec.le_def]; simp only [hiob]; omega) (by rw [BitVec.lt_def]; change 0 < _; omega)
  have hmod : alen % disk0Blksize = 0#32 := by
    apply BitVec.eq_of_toNat_eq
    rw [BitVec.toNat_umod]
    change alen.toNat % 4096 = 0
    omega
  unfold chunk
  simp only [Bool.false_eq_true, if_false, halen, hb, Option.bind_eq_bind, Option.bind_some, hmove,
    hmod, and_self, if_true]
  refine ⟨_, _, _, rfl, ⟨?_, ?_, rfl, rfl⟩, ?_, ?_⟩
  · rw [hlen]
    exact patch_congr fun i hi => hbytes i (by rw [hnblks]; omega)
  · rw [hlen]
  · rw [BitVec.toNat_add, hnblks]
    omega
  · rw [BitVec.toNat_sub_of_le (by rw [BitVec.le_def]; omega), hlen]

/-! ## The loop -/

theorem chunks_read {fuel : ℕ} {blkno resid : BitVec 32} (hiob : d.iob.ioResid = resid)
    (hal : resid.toNat % 4096 = 0) (hend : 4096 * blkno.toNat + resid.toNat ≤ 0x400000)
    (hfuel : resid.toNat ≤ 16384 * fuel) :
    ∃ d', chunks I.flashByte false fuel d blkno resid = some d' ∧
      Delivered I d d' (4096 * blkno.toNat) resid.toNat := by
  induction fuel generalizing d blkno resid with
  | zero =>
    have h0 : resid = 0#32 := BitVec.eq_of_toNat_eq (by simpa using hfuel)
    subst h0
    exact ⟨d, rfl, .refl _⟩
  | succ fuel ih =>
    by_cases h0 : resid = 0#32
    · subst h0
      exact ⟨d, rfl, .refl _⟩
    · obtain ⟨d₁, blkno', resid', hchunk, hdel, hblk, hres⟩ :=
        @chunk_read d I blkno resid hiob hal h0 hend
      have hle : chunkLen resid.toNat ≤ resid.toNat := Nat.min_le_left _ _
      have hmod : chunkLen resid.toNat % 4096 = 0 := by
        unfold chunkLen
        omega
      have hiob' : d₁.iob.ioResid = resid' := by
        rw [hdel.iob, Iobuf.advanced, hiob]
        apply BitVec.eq_of_toNat_eq
        rw [hres, BitVec.toNat_sub_of_le, BitVec.toNat_ofNat, Nat.mod_eq_of_lt]
        · omega
        · rw [BitVec.le_def, BitVec.toNat_ofNat, Nat.mod_eq_of_lt (by omega)]
          exact hle
      obtain ⟨d₂, hrun, hdel₂⟩ := @ih d₁ blkno' resid' hiob' (by omega) (by omega)
        (by rw [hres]; unfold chunkLen; omega)
      refine ⟨d₂, ?_, ?_⟩
      · rw [chunks, if_neg h0, hchunk]
        exact hrun
      · rw [hblk] at hdel₂
        have htot := hdel.trans hdel₂ (by omega)
        rw [hres, Nat.add_sub_cancel' hle] at htot
        exact htot

/-- More fuel changes nothing. -/
theorem chunks_mono {write : Bool} {fuel fuel' : ℕ} {blkno resid : BitVec 32}
    (h : chunks load write fuel d blkno resid = some d') (hle : fuel ≤ fuel') :
    chunks load write fuel' d blkno resid = some d' := by
  induction fuel generalizing fuel' d blkno resid with
  | zero =>
    unfold chunks at h ⊢
    split_ifs at h ⊢
    exact h
  | succ fuel ih =>
    obtain ⟨k, rfl⟩ := Nat.exists_eq_add_of_le' hle
    unfold chunks at h ⊢
    split_ifs at h ⊢
    · exact h
    · simp only [Option.bind_eq_bind, Option.bind_eq_some_iff, Prod.exists] at h ⊢
      obtain ⟨d₁, blkno', resid', hchunk, h⟩ := h
      exact ⟨d₁, blkno', resid', hchunk, ih h (Nat.le_add_left _ _)⟩

theorem disk0Io_mono {write : Bool} {fuel fuel' : ℕ} {r : ℤ}
    (h : d.disk0Io load fuel write = some (d', r)) (hle : fuel ≤ fuel') :
    d.disk0Io load fuel' write = some (d', r) := by
  unfold disk0Io at h ⊢
  simp only [] at h ⊢
  split_ifs at h ⊢
  · exact h
  · exact h
  · exact h
  · simp only [Option.bind_eq_bind, Option.bind_eq_some_iff] at h ⊢
    obtain ⟨d₁, hlock, d₂, hrun, h⟩ := h
    exact ⟨d₁, hlock, d₂, chunks_mono hrun hle, h⟩

/-! ## Runs of the driver -/

/-- The lock is free, and the device has its size. -/
structure Idle (d : Disk0) : Prop where
  disk0Sem : d.disk0Sem = 1
  dBlocks : d.dBlocks = 1024#32

theorem iobufMove_kept {len copied : BitVec 32} {m2b : Bool} {r : ℤ}
    (h : d.iobufMove len m2b = some (d', r, copied)) :
    d'.disk0Sem = d.disk0Sem ∧ d'.dBlocks = d.dBlocks := by
  unfold iobufMove at h
  simp only [] at h
  generalize (if len < d.iob.ioResid then len else d.iob.ioResid) = alen at h
  split_ifs at h
  all_goals
    cases hskip : d.iob.iobufSkip alen <;> simp [hskip] at h
    all_goals
      obtain ⟨rfl, -⟩ := h
      exact ⟨rfl, rfl⟩

theorem chunk_kept {write : Bool} {blkno resid blkno' resid' : BitVec 32}
    (h : d.chunk load write blkno resid = some (d', blkno', resid')) :
    d'.disk0Sem = d.disk0Sem ∧ d'.dBlocks = d.dBlocks := by
  unfold chunk at h
  cases write with
  | true =>
    simp only [if_true, Option.bind_eq_bind, Option.bind_eq_some_iff, Prod.exists] at h
    obtain ⟨d₁, r, copied, hmove, h⟩ := h
    split_ifs at h
    cases h
    exact iobufMove_kept hmove
  | false =>
    simp only [Bool.false_eq_true, if_false, Option.bind_eq_bind, Option.bind_eq_some_iff,
      Prod.exists] at h
    generalize (if resid < disk0Bufsize then resid else disk0Bufsize) = alen at h
    obtain ⟨d₁, hread, d₂, r, copied, hmove, h⟩ := h
    split_ifs at h
    cases h
    obtain ⟨b, -, rfl⟩ := Option.map_eq_some_iff.1 hread
    have hkept := iobufMove_kept hmove
    exact hkept

theorem chunks_kept {write : Bool} {fuel : ℕ} {blkno resid : BitVec 32}
    (h : chunks load write fuel d blkno resid = some d') :
    d'.disk0Sem = d.disk0Sem ∧ d'.dBlocks = d.dBlocks := by
  induction fuel generalizing d blkno resid with
  | zero =>
    unfold chunks at h
    split_ifs at h
    cases h
    exact ⟨rfl, rfl⟩
  | succ fuel ih =>
    unfold chunks at h
    split_ifs at h with h0
    · cases h
      exact ⟨rfl, rfl⟩
    · simp only [Option.bind_eq_bind, Option.bind_eq_some_iff, Prod.exists] at h
      obtain ⟨d₁, blkno', resid', hchunk, h⟩ := h
      obtain ⟨hsem, hblk⟩ := chunk_kept hchunk
      obtain ⟨hsem', hblk'⟩ := ih h
      exact ⟨hsem'.trans hsem, hblk'.trans hblk⟩

/-- Every call gives the lock back. -/
theorem Idle.io {write : Bool} {fuel : ℕ} {r : ℤ} (hd : d.Idle)
    (h : d.disk0Io load fuel write = some (d', r)) : d'.Idle := by
  unfold disk0Io at h
  simp only [] at h
  split_ifs at h
  · cases h
    exact hd
  · cases h
    exact hd
  · cases h
    exact hd
  · simp only [Option.bind_eq_bind, Option.bind_eq_some_iff] at h
    obtain ⟨d₁, hlock, d₂, hrun, h⟩ := h
    cases h
    unfold lockDisk0 at hlock
    split_ifs at hlock
    cases hlock
    obtain ⟨hsem, hblk⟩ := chunks_kept hrun
    refine ⟨?_, hblk.trans hd.dBlocks⟩
    simp only [unlockDisk0, hsem, hd.disk0Sem]
    rfl

theorem Reachable.idle (h : Reachable load d) : d.Idle := by
  induction h with
  | init mem buffer iob => exact ⟨rfl, rfl⟩
  | other mem iob _ ih => exact ⟨ih.disk0Sem, ih.dBlocks⟩
  | io _ hio ih => exact ih.io hio

/-! ## A read -/

variable (d) in
/-- The request is block-aligned and ends on the device. -/
def Fits : Prop := d.iob.ioOffset.toNat % 4096 = 0 ∧ d.iob.ioResid.toNat % 4096 = 0 ∧
  d.iob.ioOffset.toNat + d.iob.ioResid.toNat ≤ 0x400000

variable (I d) in
/-- The call of `disk0_io` for a read comes to its end, in the state `d'` and with `r`. -/
def Returns (d' : Disk0) (r : ℤ) : Prop :=
  ∃ k, ∀ fuel, k ≤ fuel → d.disk0Io I.flashByte fuel false = some (d', r)

theorem Returns.unique {r r' : ℤ} (h : d.Returns I d' r) (h' : d.Returns I d'' r') : r = r' := by
  obtain ⟨k, hk⟩ := h
  obtain ⟨k', hk'⟩ := h'
  have he := (hk (max k k') (le_max_left _ _)).symm.trans (hk' (max k k') (le_max_right _ _))
  cases he
  rfl

/-- What `disk0_io` computes from an offset that is not negative. -/
theorem offset_div_mod {offset : BitVec 32} (h : 0 ≤ offset.toInt) :
    (offset.sdiv disk0Blksize).toNat = offset.toNat / 4096 ∧
      (offset.srem disk0Blksize = 0#32 ↔ offset.toNat % 4096 = 0) := by
  have hmsb : offset.msb = false := by
    by_contra hn
    have := BitVec.toInt_neg_iff.2 (BitVec.msb_eq_true_iff_two_mul_ge.1 (by simpa using hn))
    omega
  have hblk : disk0Blksize.msb = false := rfl
  rw [BitVec.sdiv_eq, BitVec.srem_eq, hmsb, hblk, ← BitVec.toNat_inj]
  exact ⟨BitVec.toNat_udiv, by simp only [BitVec.toNat_umod]; rfl⟩

theorem rejects (hd : d.Idle) (hoff : 0 ≤ d.iob.ioOffset.toInt) (h : ¬ d.Fits) (fuel : ℕ) :
    d.disk0Io load fuel false = some (d, -eInval) := by
  obtain ⟨hdiv, hrem⟩ := offset_div_mod hoff
  have hlt : d.iob.ioOffset.toNat < 2 ^ 31 := by
    rw [BitVec.toInt_eq_toNat_cond] at hoff
    split_ifs at hoff <;> omega
  have hmod : d.iob.ioResid % disk0Blksize = 0#32 ↔ d.iob.ioResid.toNat % 4096 = 0 := by
    rw [← BitVec.toNat_inj, BitVec.toNat_umod]
    rfl
  unfold disk0Io
  by_cases hal : d.iob.ioOffset.toNat % 4096 = 0 ∧ d.iob.ioResid.toNat % 4096 = 0
  · have hpast : d.dBlocks < d.iob.ioOffset.sdiv disk0Blksize + d.iob.ioResid / disk0Blksize := by
      have hnblks : (d.iob.ioResid / disk0Blksize).toNat = d.iob.ioResid.toNat / 4096 :=
        BitVec.toNat_udiv
      have hnot : 0x400000 < d.iob.ioOffset.toNat + d.iob.ioResid.toNat := by
        by_contra hn
        exact h ⟨hal.1, hal.2, by omega⟩
      rw [hd.dBlocks, BitVec.lt_def, BitVec.toNat_add, hdiv, hnblks]
      change 1024 < _
      omega
    simp only [hrem.2 hal.1, hmod.2 hal.2, ne_eq, not_true_eq_false, or_self, if_false, if_pos hpast]
  · simp only []
    rw [if_pos]
    rw [not_and_or] at hal
    exact hal.imp (mt hrem.1) (mt hmod.1)

theorem delivers (hd : d.Idle) (hoff : 0 ≤ d.iob.ioOffset.toInt) (h : d.Fits) {fuel : ℕ}
    (hfuel : d.iob.ioResid.toNat ≤ 16384 * fuel) :
    ∃ d', d.disk0Io I.flashByte fuel false = some (d', 0) ∧
      Delivered I d d' d.iob.ioOffset.toNat d.iob.ioResid.toNat := by
  obtain ⟨ho, hr, hend⟩ := h
  obtain ⟨hdiv, hrem⟩ := offset_div_mod hoff
  have hnblks : (d.iob.ioResid / disk0Blksize).toNat = d.iob.ioResid.toNat / 4096 :=
    BitVec.toNat_udiv
  have hmod : d.iob.ioResid % disk0Blksize = 0#32 := by
    apply BitVec.eq_of_toNat_eq
    rw [BitVec.toNat_umod]
    exact hr
  have hfits : ¬ d.dBlocks < d.iob.ioOffset.sdiv disk0Blksize + d.iob.ioResid / disk0Blksize := by
    rw [hd.dBlocks, BitVec.lt_def, BitVec.toNat_add, hdiv, hnblks]
    change ¬ 1024 < _
    omega
  unfold disk0Io
  simp only [hrem.2 ho, hmod, ne_eq, not_true_eq_false, or_self, if_false, if_neg hfits]
  by_cases h0 : d.iob.ioResid / disk0Blksize = 0#32
  · have hz : d.iob.ioResid.toNat = 0 := by
      have hzero : (d.iob.ioResid / disk0Blksize).toNat = 0 := by rw [h0]; rfl
      omega
    rw [if_pos h0, hz]
    exact ⟨d, rfl, .refl _⟩
  · have hlock : d.lockDisk0 = some { d with disk0Sem := 0 } := by
      rw [lockDisk0, hd.disk0Sem]
      rfl
    have hblk : 4096 * (d.iob.ioOffset.sdiv disk0Blksize).toNat = d.iob.ioOffset.toNat := by
      rw [hdiv]
      omega
    obtain ⟨d', hrun, hdel⟩ := @chunks_read { d with disk0Sem := 0 } I fuel
      (d.iob.ioOffset.sdiv disk0Blksize) d.iob.ioResid rfl hr (by rw [hblk]; exact hend) hfuel
    rw [if_neg h0, hlock]
    refine ⟨d'.unlockDisk0, ?_, ?_⟩
    · simp only [Option.bind_eq_bind, Option.bind_some, hrun]
      rfl
    · rw [hblk] at hdel
      refine ⟨hdel.mem, hdel.iob, ?_, hdel.dBlocks⟩
      rw [unlockDisk0, hdel.disk0Sem, hd.disk0Sem]
      rfl

/-- Reads of the disk. A request that is not block-aligned or passes the end of the device is
refused and nothing has changed; any other comes to its end with the bytes of the image in the
caller's memory, nothing else there changed, the `iobuf` moved on and the lock free again. The bytes
of the image are what the CPU sees when it loads them from the Flash. -/
theorem disk0_read (I : Image) {d : Disk0} (hd : Reachable I.flashByte d)
    (hoff : 0 ≤ d.iob.ioOffset.toInt) :
    ((∃ d', d.Returns I d' (-eInval) ∧ d'.iob = d.iob) ↔ ¬ d.Fits) ∧
    (d.Fits → ∃ d', d.Returns I d' 0 ∧
      (∀ i < d.iob.ioResid.toNat, d'.mem (d.iob.ioBase + BitVec.ofNat 32 i) =
        I.sfsImage (d.iob.ioOffset.toNat + i)) ∧
      (∀ a, (∀ i < d.iob.ioResid.toNat, a ≠ d.iob.ioBase + BitVec.ofNat 32 i) →
        d'.mem a = d.mem a) ∧
      d'.iob = d.iob.advanced d.iob.ioResid.toNat ∧ d'.disk0Sem = 1) ∧
    ∀ n < 0x400000, ∀ b : Board, b.Reachable I → b.machine.BeginsRead (imageAddr n) →
      ∀ x, ∃ v, b.Returns I x v ∧ WB.byteOf ((imageAddr n).extractLsb 1 0) v = I.sfsImage n := by
  have hidle := hd.idle
  have hret : d.Fits → ∃ d', d.Returns I d' 0 ∧
      Delivered I d d' d.iob.ioOffset.toNat d.iob.ioResid.toNat := by
    intro h
    obtain ⟨d', hio, hdel⟩ := @delivers d I hidle hoff h d.iob.ioResid.toNat (by omega)
    exact ⟨d', ⟨_, fun fuel hle => disk0Io_mono hio hle⟩, hdel⟩
  refine ⟨⟨?_, fun h => ⟨d, ⟨0, fun fuel _ => rejects hidle hoff h fuel⟩, rfl⟩⟩, ?_,
    fun n hn b hb hbegins x => Board.returns_image hb hbegins hn x⟩
  · rintro ⟨d', hinval, -⟩ hfits
    obtain ⟨d'', hzero, -⟩ := hret hfits
    exact absurd (hinval.unique hzero) (by decide)
  · intro hfits
    obtain ⟨d', hzero, hdel⟩ := hret hfits
    refine ⟨d', hzero, fun i hi => ?_, fun a ha => ?_, hdel.iob, hdel.disk0Sem.trans hidle.disk0Sem⟩
    · rw [hdel.mem, patch_add hi d.iob.ioResid.isLt.le]
    · rw [hdel.mem, patch_of_ne ha]

/-- A Flash with `0xbeef` in the first word of the SFS image. -/
def beefImage : Image :=
  { Board.romOf [] with flash := fun a => if a = 0x100000#23 then 0xbeef#16 else 0#16 }

/-- The first block is asked for. -/
def firstBlock : Disk0 :=
  disk0DeviceInit (fun _ => 0#8) (fun _ => 0#8) (iobufInit 0x80001000#32 4096#32 0#32)

theorem disk0_read_first : ∃ d', firstBlock.Returns beefImage d' 0 ∧
    d'.mem 0x80001000#32 = 0xef#8 ∧ d'.mem 0x80001001#32 = 0xbe#8 ∧ d'.disk0Sem = 1 := by
  obtain ⟨-, hread, -⟩ := @disk0_read beefImage firstBlock (.init _ _ _) (by decide)
  obtain ⟨d', hret, hmem, -, -, hsem⟩ := hread ⟨rfl, rfl, by decide⟩
  exact ⟨d', hret, hmem 0 (by decide), hmem 1 (by decide), hsem⟩

end Disk0

end Ucore

end CacheCPU
