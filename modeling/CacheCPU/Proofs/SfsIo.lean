import CacheCPU.Proofs.SfsRead
import CacheCPU.Proofs.SfsWrite

/-!
# Reading and writing a file

`sfs_io_nolock` moves the bytes of a range between a file and the memory, whatever they are, if and
only if its parts have what they take (`CanIo`). A device that fails, no free block and a file that
is at its limit end in a failed assertion, and whole blocks that do not lie one after the other on
the disk are moved to or from other places.
-/

namespace CacheCPU

namespace Ucore

namespace Sfs

open Patch

variable {err : ℕ → ℤ} {s : Sfs} {write : Bool} {buf offset len : BitVec 32}

/-! ## What is asked for -/

/-- The range begins in a file of the largest size, and its end is an `off_t`. -/
def Accepts (offset len : BitVec 32) : Prop :=
  0 ≤ offset.toInt ∧ offset.toInt < sfsMaxFileSize ∧ offset.toNat + len.toNat < 2 ^ 31

instance : Decidable (Accepts offset len) := inferInstanceAs (Decidable (_ ∧ _ ∧ _))

/-- The end of what there is to move. -/
def rangeEnd (s : Sfs) (write : Bool) (offset len : BitVec 32) : ℕ :=
  min (offset.toNat + len.toNat) (if write then sfsMaxFileSize else s.size)

/-- The bytes of the range are in the buffer, and nothing else has changed. -/
structure ReadDone (s s' : Sfs) (buf : BitVec 32) (o e alen : ℕ) : Prop where
  alen : alen = e - o
  bytes : ∀ k < e - o, s.fileByte (o + k) = some (s'.mem (buf + BitVec.ofNat 32 k))
  outside : ∀ a, (∀ k < e - o, a ≠ buf + BitVec.ofNat 32 k) → s'.mem a = s.mem a
  rest : s' = { s with mem := s'.mem, ops := s'.ops }

/-- The bytes of the buffer are in the file, which has got longer if they go beyond its end. No
other block has changed, but for the block of numbers when the file has got new blocks. -/
structure WriteDone (s s' : Sfs) (buf : BitVec 32) (o e alen : ℕ) : Prop where
  alen : alen = e - o
  stored : ∀ k < e - o, s'.fileByte (o + k) = some (s.mem (buf + BitVec.ofNat 32 k))
  kept : ∀ p < s.blocks * sfsBlksize, p < o ∨ e ≤ p → s'.fileByte p = s.fileByte p
  size : s'.size = if o < e then max s.size e else s.size
  map : ∀ j < s.blocks, s'.map j = s.map j
  disk : ∀ d, (∀ j < s'.blocks, j * sfsBlksize < e → o < (j + 1) * sfsBlksize → s'.map j ≠ d) →
    (s.blocks < s'.blocks → s'.indirect ≠ 0 → d ≠ s'.indirect) → s'.disk d = s.disk d
  mem : s'.mem = s.mem

/-- What `sfs_io_nolock` should do: there is no failed assertion, the range is moved, and an error
is returned only for a request that is not accepted, a device that fails or no free block. -/
def Meets (err : ℕ → ℤ) (s : Sfs) (write : Bool) (buf offset len : BitVec 32) : Prop :=
  ∃ s' ret alen, s.sfsIoNolock err write buf offset len = some (s', ret, alen) ∧
    (ret = 0 → if write then WriteDone s s' buf offset.toNat (rangeEnd s write offset len) alen
      else ReadDone s s' buf offset.toNat (rangeEnd s write offset len) alen) ∧
    (ret ≠ 0 → ¬ Accepts offset len ∨ (∃ k, s.ops ≤ k ∧ k < s'.ops ∧ err k ≠ 0) ∨
      s'.unusedBlocks = 0)

/-- The same file in the same place, with other bytes in it and in the memory. -/
structure SameMap (s s' : Sfs) : Prop where
  rest : s' = { s with disk := s'.disk, mem := s'.mem }
  numbers : s'.disk s.indirect = s.disk s.indirect

/-- Where a request is served as it should be. -/
def Served (err : ℕ → ℤ) (s : Sfs) (write : Bool) (offset len : BitVec 32) : Prop :=
  Accepts offset len → offset.toNat < rangeEnd s write offset len →
    CanIo err s write offset.toNat (rangeEnd s write offset len)

/-! ## The frame of `sfs_io_nolock` -/

theorem Accepts.toInt_eq (ha : Accepts offset len) :
    offset.toInt = offset.toNat ∧ (offset + len).toInt = (offset.toNat + len.toNat : ℕ) ∧
      (offset + len).toNat = offset.toNat + len.toNat := by
  obtain ⟨h0, -, hlt⟩ := ha
  have hadd : (offset + len).toNat = offset.toNat + len.toNat := by
    rw [BitVec.toNat_add, Nat.mod_eq_of_lt (by omega)]
  refine ⟨BitVec.toInt_eq_toNat_of_lt (by omega), ?_, hadd⟩
  rw [BitVec.toInt_eq_toNat_of_lt (by omega), hadd]

theorem Wf.sfsIoNolock_refused (hw : Wf s) (ha : ¬ Accepts offset len) :
    s.sfsIoNolock err write buf offset len = some (s, -eInval, 0) := by
  unfold sfsIoNolock
  rw [if_neg (by simp [hw.file])]
  simp only []
  rw [if_pos]
  by_contra hn
  push Not at hn
  obtain ⟨h0, hmax, hle⟩ := hn
  refine ha ⟨h0, hmax, ?_⟩
  have hlt := offset.isLt
  have hlen := len.isLt
  have hsum : (offset + len).toNat = (offset.toNat + len.toNat) % 2 ^ 32 := BitVec.toNat_add _ _
  have hof := @BitVec.toInt_eq_toNat_cond 32 offset
  have hend := @BitVec.toInt_eq_toNat_cond 32 (offset + len)
  split_ifs at hof hend <;> omega

/-- A file does not get to the largest size. -/
theorem Wf.size_le (hw : Wf s) : s.size ≤ sfsMaxFileSize := by
  have hsize := hw.size
  have hblocks := hw.blocks
  unfold mapSize sfsNdirect sfsBlkNentry at hblocks
  unfold sfsBlksize at hsize
  unfold sfsMaxFileSize
  omega

/-- The file with its size after `e` bytes of it have been used. -/
def sized (s : Sfs) (e : ℕ) : Sfs := if s.size < e then { s with size := e, dirty := true } else s

/-- An accepted request, with numbers for its words. -/
theorem Wf.sfsIoNolock_accepted (hw : Wf s) (ha : Accepts offset len) :
    s.sfsIoNolock err write buf offset len =
      if len.toNat = 0 ∨ write = false ∧ s.size ≤ offset.toNat then some (s, 0, 0)
      else (s.ioParts err write buf offset.toNat (rangeEnd s write offset len)).map
        fun x => (x.1.sized (offset.toNat + x.2), 0, x.2) := by
  obtain ⟨hof, hendi, hend⟩ := ha.toInt_eq
  obtain ⟨h0, hmax, hlt⟩ := ha
  have hempty : offset = offset + len ↔ len.toNat = 0 := by
    rw [← BitVec.toNat_inj, hend]
    omega
  unfold sfsIoNolock
  rw [if_neg (by simp [hw.file])]
  simp only []
  rw [if_neg (by rw [hof, hendi]; omega)]
  simp only [hempty, hend]
  by_cases hl : len.toNat = 0
  · rw [if_pos hl, if_pos (.inl hl)]
  · rw [if_neg hl]
    by_cases hs : write = false ∧ s.size ≤ offset.toNat
    · rw [if_pos hs, if_pos (.inr hs)]
    · rw [if_neg hs, if_neg (not_or.2 ⟨hl, hs⟩)]
      have hre : (if write = false ∧ s.size < (if sfsMaxFileSize < offset.toNat + len.toNat then
          sfsMaxFileSize else offset.toNat + len.toNat) then s.size
          else if sfsMaxFileSize < offset.toNat + len.toNat then sfsMaxFileSize
            else offset.toNat + len.toNat) = rangeEnd s write offset len := by
        have hsize := hw.size_le
        unfold rangeEnd
        cases write
        · simp only [true_and, Bool.false_eq_true, if_false]
          split_ifs <;> omega
        · simp only [Bool.true_eq_false, false_and, if_false, if_true]
          split_ifs <;> omega
      rw [hre]
      congr 1
      funext x
      unfold sized
      split_ifs <;> rfl

theorem Wf.sfsIoNolock_empty (hw : Wf s) (ha : Accepts offset len)
    (h : rangeEnd s write offset len ≤ offset.toNat) :
    s.sfsIoNolock err write buf offset len = some (s, 0, 0) := by
  rw [hw.sfsIoNolock_accepted ha, if_pos]
  have hof := ha.toInt_eq.1
  have hmax := ha.2.1
  unfold rangeEnd at h
  cases write
  · simp at h
    simp
    omega
  · simp at h
    simp
    omega

theorem Wf.sfsIoNolock_range (hw : Wf s) (ha : Accepts offset len)
    (h : offset.toNat < rangeEnd s write offset len) :
    s.sfsIoNolock err write buf offset len =
      (s.ioParts err write buf offset.toNat (rangeEnd s write offset len)).map fun x =>
        (x.1.sized (offset.toNat + x.2), 0, x.2) := by
  rw [hw.sfsIoNolock_accepted ha, if_neg]
  unfold rangeEnd at h
  rintro (hl | ⟨rfl, hs⟩)
  · omega
  · simp at h
    omega

/-! ## Reading -/

section Read

variable {o e : ℕ}

/-- The run from the place of the first whole block is the whole blocks. -/
def Contiguous (s : Sfs) (o e : ℕ) : Prop :=
  ∀ j < wholeCount o e, s.map (wholeFirst o + j) = s.map (wholeFirst o) + j

theorem CanIo.contiguous (hc : CanIo err s write o e) : Contiguous s o e := by
  intro j hj
  by_cases h2 : 2 ≤ wholeCount o e
  · exact (hc.run h2).2 j hj
  · obtain rfl : j = 0 := by omega
    rfl

variable (h : o < e)
include h

/-- The bytes of the range, as they are delivered. -/
theorem delivered_contiguous (hcon : Contiguous s o e) {k : ℕ} (hk : k < e - o) :
    delivered s o e k = s.content (o + k) := by
  unfold delivered
  split_ifs with hr
  · have hn : 0 < wholeCount o e := by
      by_contra hn
      rw [Nat.eq_zero_of_not_pos hn] at hr
      omega
    obtain ⟨hstart, -⟩ := whole_start h hn
    obtain ⟨j, rfl⟩ := Nat.exists_eq_add_of_le hr.1
    have hj : j / sfsBlksize < wholeCount o e :=
      Nat.div_lt_of_lt_mul (by rw [Nat.mul_comm]; omega)
    have hdm := Nat.div_add_mod' j sfsBlksize
    rw [Nat.add_sub_cancel_left, runByte, ← hcon _ hj, ← content_eq (Nat.mod_lt _ (by decide)),
      Nat.add_mul, Nat.add_assoc, hdm, ← Nat.add_assoc, hstart]
  · rfl

/-- The file is not longer than before. -/
theorem sized_readTo {f : ℕ → BitVec 8} {c : ℕ} (he : e ≤ s.size) :
    (s.readTo buf f (e - o) c).sized (o + (e - o)) = s.readTo buf f (e - o) c := by
  refine if_neg ?_
  change ¬ s.size < _
  omega

variable (hw : Wf s)
include hw

theorem CanIo.canRead (he : e ≤ s.blocks * sfsBlksize) (hc : CanIo err s false o e) :
    CanRead err s o e where
  head := hc.head
  whole := hc.whole
  run k hk := by
    have hle := whole_le_blocks h he (by omega : 0 < wholeCount o e)
    rw [← hc.contiguous k hk]
    exact (hw.inuse _ (by omega)).reach
  tail := hc.tail

theorem readDone (he : e ≤ s.size) (hlen : e - o ≤ 2 ^ 32) (hcon : Contiguous s o e) (c : ℕ) :
    ReadDone s ((s.readTo buf (delivered s o e) (e - o) c).sized (o + (e - o))) buf o e (e - o) := by
  rw [sized_readTo h he]
  have hsize := hw.size
  refine ⟨rfl, fun k hk => ?_, fun a ha => patch_of_ne ha, rfl⟩
  rw [fileByte, if_pos (by omega), ← delivered_contiguous h hcon hk]
  exact congrArg some (patch_add hk hlen).symm

end Read

/-! ## Writing -/

section Write

variable {t : Sfs} {o e n c : ℕ}

theorem fileByte_sized (p : ℕ) : (t.sized n).fileByte p = t.fileByte p := by
  unfold sized
  split_ifs <;> rfl

theorem map_sized (j : ℕ) : (t.sized n).map j = t.map j := by
  unfold sized
  split_ifs <;> rfl

/-- Nothing but the size. -/
theorem sized_rest : (t.sized n).blocks = t.blocks ∧ (t.sized n).indirect = t.indirect ∧
    (t.sized n).disk = t.disk ∧ (t.sized n).mem = t.mem := by
  unfold sized
  split_ifs <;> exact ⟨rfl, rfl, rfl, rfl⟩

theorem WroteTo.done (h : o < e)
    (ht : WroteTo s t buf o (e - o) ((e - 1) / sfsBlksize + 1) c) :
    WriteDone s (t.sized (o + (e - o))) buf o e (e - o) := by
  obtain ⟨hblocks, hind, hdisk, hmem⟩ := @sized_rest t (o + (e - o))
  have htb := ht.blocks
  have hreach := ht.reach (by omega)
  have hsb : s.blocks * sfsBlksize ≤ t.blocks * sfsBlksize :=
    Nat.mul_le_mul_right _ (by omega)
  refine ⟨rfl, fun k hk => ?_, fun p hp hpo => ?_, ?_, fun j hj => ?_, fun d hd hdi => ?_, ?_⟩
  · rw [fileByte_sized, fileByte, if_pos (by omega), ht.stored k hk]
  · rw [fileByte_sized, fileByte, fileByte, if_pos (by omega), if_pos hp,
      ht.content p hp (by omega)]
  · rw [if_pos h]
    have hsize := ht.size
    unfold sized
    split_ifs with hs
    · change o + (e - o) = _
      omega
    · omega
  · rw [map_sized, ht.map j hj]
  · rw [hblocks, hind] at hdi
    rw [hdisk]
    refine ht.disk d (fun j hj hji => ?_) hdi
    rw [← @map_sized t (o + (e - o))]
    refine hd j ?_ ?_ ?_
    · omega
    · unfold sfsBlksize at *
      omega
    · unfold sfsBlksize at *
      omega
  · rw [hmem, ht.mem]

end Write

/-! ## Other contents -/

section SameMap

variable {s' : Sfs} {o e c i w : ℕ} (h : SameMap s s')

theorem SameMap.refl (s : Sfs) : SameMap s s := ⟨rfl, rfl⟩

theorem Wf.withMem (hw : Wf s) (mem : Bytes) : Wf { s with mem := mem } :=
  ⟨hw.file, hw.bound, hw.unused, hw.free, hw.blocks, hw.size, hw.inuse, hw.inj, hw.indirect,
    hw.present, hw.rest⟩

include h

theorem SameMap.map (j : ℕ) : s'.map j = s.map j := by
  obtain ⟨hrest, hnum⟩ := h
  rw [hrest]
  exact @map_withDisk s s'.disk s.ops hnum j

theorem SameMap.wf (hw : Wf s) : Wf s' := by
  obtain ⟨hrest, hnum⟩ := h
  rw [hrest]
  exact (Wf.withDisk hnum hw : Wf (s.withDisk s'.disk s.ops)).withMem s'.mem

theorem SameMap.canPart (hc : CanPart err s c i w) : CanPart err s' c i w := by
  obtain ⟨hrest, -⟩ := h
  rw [hrest]
  exact ⟨hc.small, hc.space, hc.device⟩

theorem SameMap.canRead (hc : CanRead err s o e) : CanRead err s' o e := by
  have hmap := h.map
  have hops : headOps s' false o = headOps s false o ∧ wholeOps s' o e = wholeOps s o e ∧
      s'.superBlocks = s.superBlocks := by
    rw [h.rest]
    exact ⟨rfl, rfl, rfl⟩
  refine ⟨fun hr => h.canPart (hc.head hr), fun hn => ?_, fun k hk => ?_, fun ht => ?_⟩
  · rw [hops.1]
    exact h.canPart (hc.whole hn)
  · rw [hmap, hops.2.2]
    exact hc.run k hk
  · rw [hops.1, hops.2.1]
    exact h.canPart (hc.tail ht)

theorem SameMap.canIo (hc : CanIo err s write o e) : CanIo err s' write o e := by
  have hmap := h.map
  have hops : headOps s' write o = headOps s write o ∧ wholeOps s' o e = wholeOps s o e ∧
      s'.blocks = s.blocks := by
    rw [h.rest]
    exact ⟨rfl, rfl, rfl⟩
  refine ⟨hops.2.2 ▸ hc.next, fun hr => h.canPart (hc.head hr), fun hn => ?_, fun h2 => ?_,
    fun ht => ?_⟩
  · rw [hops.1]
    exact h.canPart (hc.whole hn)
  · simp only [hmap, hops.2.2]
    exact hc.run h2
  · rw [hops.1, hops.2.1]
    exact h.canPart (hc.tail ht)

theorem SameMap.served (hs : Served err s write offset len) : Served err s' write offset len := by
  have hend : rangeEnd s' write offset len = rangeEnd s write offset len := by
    rw [h.rest]
    rfl
  intro ha hlt
  rw [hend] at hlt ⊢
  exact h.canIo (hs ha hlt)

end SameMap

/-! ## Results -/

theorem rangeEnd_bounds (ha : Accepts offset len) :
    rangeEnd s write offset len - offset.toNat ≤ 2 ^ 32 ∧
      (write = false → rangeEnd s write offset len ≤ s.size) := by
  have hlt := ha.2.2
  refine ⟨?_, fun hr => ?_⟩
  · unfold rangeEnd
    omega
  · subst hr
    exact Nat.min_le_right _ _

theorem Wf.meets (hw : Wf s) (hs : Served err s write offset len) :
    Meets err s write buf offset len := by
  by_cases ha : Accepts offset len
  · by_cases hlt : offset.toNat < rangeEnd s write offset len
    · obtain ⟨hlen, hsize⟩ := @rangeEnd_bounds s write offset len ha
      have hc := hs ha hlt
      have heq := @Wf.sfsIoNolock_range err s write buf offset len hw ha hlt
      cases write
      · have he := hsize rfl
        have hb := he.trans hw.size
        rw [ioParts_read hlt hb hw hlen (hc.canRead hlt hw hb)] at heq
        exact ⟨_, 0, _, heq, fun _ => readDone hlt hw he hlen hc.contiguous _, fun hn => absurd rfl hn⟩
      · obtain ⟨t, ht, hwt⟩ := @ioParts_write err s buf _ _ hlt hw hc
        rw [ht] at heq
        exact ⟨_, 0, _, heq, fun _ => hwt.done hlt, fun hn => absurd rfl hn⟩
    · rw [not_lt] at hlt
      have h0 : rangeEnd s write offset len - offset.toNat = 0 := by omega
      refine ⟨s, 0, 0, hw.sfsIoNolock_empty ha hlt, fun _ => ?_, fun hn => absurd rfl hn⟩
      cases write
      · exact ⟨h0.symm, fun k hk => by omega, fun _ _ => rfl, rfl⟩
      · exact ⟨h0.symm, fun k hk => by omega, fun _ _ _ => rfl, (if_neg (by omega)).symm,
          fun _ _ => rfl, fun _ _ _ => rfl, rfl⟩
  · exact ⟨s, -eInval, 0, hw.sfsIoNolock_refused ha, fun h => absurd h (by decide), fun _ => .inl ha⟩

/-- A request that is served comes through all its parts. -/
theorem Meets.parts (hw : Wf s) (ha : Accepts offset len)
    (hlt : offset.toNat < rangeEnd s write offset len) (hm : Meets err s write buf offset len) :
    ∃ x, s.ioParts err write buf offset.toNat (rangeEnd s write offset len) = some x ∧
      if write then WriteDone s (x.1.sized (offset.toNat + x.2)) buf offset.toNat
        (rangeEnd s write offset len) x.2
      else ReadDone s (x.1.sized (offset.toNat + x.2)) buf offset.toNat
        (rangeEnd s write offset len) x.2 := by
  obtain ⟨s', ret, alen, heq, hdone, -⟩ := hm
  rw [hw.sfsIoNolock_range ha hlt] at heq
  obtain ⟨x, hx, he⟩ := Option.map_eq_some_iff.1 heq
  simp only [Prod.mk.injEq] at he
  obtain ⟨rfl, rfl, rfl⟩ := he
  exact ⟨x, hx, hdone rfl⟩

theorem add_one_ne (v : BitVec 8) : v + 1#8 ≠ v := by
  intro h
  have hn := congrArg BitVec.toNat h
  have := v.isLt
  rw [BitVec.toNat_add, show (1#8 : BitVec 8).toNat = 1 from rfl] at hn
  omega

/-- Where the whole blocks do not lie one after the other, there are contents of the file with which
a byte of another block is delivered. -/
theorem contiguous_of_reads (hw : Wf s) (ha : Accepts offset len)
    (hlt : offset.toNat < rangeEnd s false offset len)
    (hc : CanRead err s offset.toNat (rangeEnd s false offset len))
    (hm : ∀ s', SameMap s s' → Meets err s' false buf offset len) :
    Contiguous s offset.toNat (rangeEnd s false offset len) := by
  obtain ⟨hlen, hsize⟩ := @rangeEnd_bounds s false offset len ha
  have he := (hsize rfl).trans hw.size
  generalize hen : rangeEnd s false offset len = e at *
  generalize hof : offset.toNat = o at *
  intro j hj
  by_contra hne
  have hle := whole_le_blocks hlt he (by omega : 0 < wholeCount o e)
  obtain ⟨hstart, -⟩ := whole_start hlt (by omega : 0 < wholeCount o e)
  have hsum := parts_length hlt
  obtain ⟨d, hd⟩ : ∃ d, d = s.map (wholeFirst o + j) := ⟨_, rfl⟩
  have hind : d ≠ s.indirect := hd ▸ hw.map_ne_indirect (by omega)
  obtain ⟨v, hv⟩ : ∃ v, v = s.disk (s.map (wholeFirst o) + j) 0#12 := ⟨_, rfl⟩
  obtain ⟨s', hs'⟩ : ∃ s', s' = { s with disk := Function.update s.disk d fun _ => v + 1#8 } :=
    ⟨_, rfl⟩
  have hsame : SameMap s s' := by
    rw [hs']
    exact ⟨rfl, Function.update_of_ne hind.symm _ _⟩
  have hrest : rangeEnd s' false offset len = e ∧ s'.blocks = s.blocks ∧ s'.size = s.size := by
    rw [hs', ← hen]
    exact ⟨rfl, rfl, rfl⟩
  have hw' := hsame.wf hw
  obtain ⟨x, hx, hdone⟩ := (hm s' hsame).parts hw' ha (by rwa [hrest.1, hof])
  rw [hrest.1, hof] at hx hdone
  rw [ioParts_read hlt (by rwa [hrest.2.1]) hw' hlen (hsame.canRead hc)] at hx
  obtain rfl := Option.some.inj hx
  simp only [Bool.false_eq_true, if_false] at hdone
  rw [sized_readTo hlt (by rw [hrest.2.2]; exact hsize rfl)] at hdone
  have hjn : (j + 1) * sfsBlksize ≤ wholeCount o e * sfsBlksize := Nat.mul_le_mul_right _ hj
  rw [Nat.succ_mul] at hjn
  have hB : sfsBlksize = 4096 := rfl
  -- the first byte of the block, in the file and in the buffer
  have hbyte := hdone.bytes (headLen o e + j * sfsBlksize) (by omega)
  have hfile : s'.fileByte (o + (headLen o e + j * sfsBlksize)) = some (v + 1#8) := by
    have hp : o + (headLen o e + j * sfsBlksize) = (wholeFirst o + j) * sfsBlksize + 0 := by
      rw [Nat.add_mul]
      omega
    have hpb : (wholeFirst o + j) * sfsBlksize + 0 < s.blocks * sfsBlksize := by
      have := Nat.mul_le_mul_right sfsBlksize (by omega : wholeFirst o + j + 1 ≤ s.blocks)
      rw [Nat.succ_mul] at this
      omega
    rw [hp, fileByte, hrest.2.1, if_pos hpb, content_eq (by omega), hsame.map, ← hd, hs']
    simp
  have hbuf : (s'.readTo buf (delivered s' o e) (e - o) (headOps s' false o + wholeOps s' o e +
      tailOps s' false o e)).mem (buf + BitVec.ofNat 32 (headLen o e + j * sfsBlksize)) = v := by
    refine (patch_add (by omega) hlen).trans ?_
    have hmul : j * sfsBlksize / sfsBlksize = j ∧ j * sfsBlksize % sfsBlksize = 0 :=
      ⟨Nat.mul_div_cancel j (by decide), Nat.mul_mod_left j _⟩
    rw [delivered_whole (by omega), runByte, hmul.1, hmul.2, hsame.map, hs', hv]
    have hcd : s.map (wholeFirst o) + j ≠ d := fun he => hne (by rw [← hd, he])
    exact congrFun (Function.update_of_ne hcd _ _) _
  rw [hfile, hbuf] at hbyte
  exact add_one_ne v (Option.some.inj hbyte)

/-- Where the whole blocks do not lie one after the other, there is a memory of which a byte is not
stored. -/
theorem contiguous_of_writes (hw : Wf s) (ha : Accepts offset len)
    (hlt : offset.toNat < rangeEnd s true offset len)
    (hend : wholeFirst offset.toNat + wholeCount offset.toNat (rangeEnd s true offset len) ≤
      s.blocks)
    (hm : ∀ s', SameMap s s' → Meets err s' true buf offset len) :
    Contiguous s offset.toNat (rangeEnd s true offset len) := by
  obtain ⟨hlen, -⟩ := @rangeEnd_bounds s true offset len ha
  generalize hen : rangeEnd s true offset len = e at *
  generalize hof : offset.toNat = o at *
  intro j hj
  by_contra hne
  obtain ⟨hstart, -⟩ := whole_start hlt (by omega : 0 < wholeCount o e)
  have hsum := parts_length hlt
  obtain ⟨v, hv⟩ : ∃ v, s.disk (s.map (wholeFirst o + j)) 4095#12 = v := ⟨_, rfl⟩
  obtain ⟨p, hp⟩ : ∃ p, p = (wholeFirst o + j) * sfsBlksize + 4095 := ⟨_, rfl⟩
  obtain ⟨s', hs'⟩ : ∃ s', s' = { s with
    mem := fun a => if a = buf + BitVec.ofNat 32 (p - o) then v + 1#8 else v } := ⟨_, rfl⟩
  have hsame : SameMap s s' := by
    rw [hs']
    exact ⟨rfl, rfl⟩
  have hrest : rangeEnd s' true offset len = e ∧ s'.blocks = s.blocks ∧ s'.disk = s.disk := by
    rw [hs', ← hen]
    exact ⟨rfl, rfl, rfl⟩
  have hjn : (j + 1) * sfsBlksize ≤ wholeCount o e * sfsBlksize := Nat.mul_le_mul_right _ hj
  rw [Nat.succ_mul] at hjn
  rw [Nat.add_mul] at hp
  have hB : sfsBlksize = 4096 := rfl
  have hw' := hsame.wf hw
  obtain ⟨x, hx, hdone⟩ := (hm s' hsame).parts hw' ha (by rwa [hrest.1, hof])
  rw [hrest.1, hof] at hx hdone
  rw [if_pos rfl] at hdone
  have hold : x.1.disk (s'.map (wholeFirst o + j)) 4095#12 = v := by
    refine scattered_of_ioParts hlt hw' hx hj (by rwa [hrest.2.1]) ?_ ?_ fun k hk hkp => ?_
    · rwa [hsame.map, hsame.map]
    · rw [hsame.map, hrest.2.2, hv]
    · rw [hs']
      refine if_neg fun he => ?_
      have hd := congrArg (fun a => (a - buf).toNat) he
      rw [toNat_add_sub (by omega), toNat_add_sub (by omega)] at hd
      rw [Nat.add_mul] at hkp
      omega
  have hstored := hdone.stored (p - o) (by omega)
  have hmap := hdone.map (wholeFirst o + j) (by omega)
  rw [fileByte_sized, show o + (p - o) = (wholeFirst o + j) * sfsBlksize + 4095 by
    rw [Nat.add_mul]; omega] at hstored
  rw [map_sized] at hmap
  unfold fileByte at hstored
  split_ifs at hstored
  rw [content_eq (by omega), hmap, hold, hs'] at hstored
  simp only [if_pos] at hstored
  exact add_one_ne v (Option.some.inj hstored).symm

/-- A read that is served as it should be, whatever the bytes, has what it takes. -/
theorem canIo_of_reads (hw : Wf s) (ha : Accepts offset len)
    (hlt : offset.toNat < rangeEnd s false offset len)
    (hm : ∀ s', SameMap s s' → Meets err s' false buf offset len) :
    CanIo err s false offset.toNat (rangeEnd s false offset len) := by
  obtain ⟨hlen, hsize⟩ := @rangeEnd_bounds s false offset len ha
  have he := (hsize rfl).trans hw.size
  have hc : CanRead err s offset.toNat (rangeEnd s false offset len) := by
    by_contra hc
    obtain ⟨x, hx, -⟩ := (hm s (SameMap.refl s)).parts hw ha hlt
    rw [ioParts_read_none hlt he hw hlen hc] at hx
    cases hx
  have hcon := contiguous_of_reads hw ha hlt hc hm
  exact ⟨(head_lt_blocks hlt he).le, hc.head, hc.whole,
    fun h2 => ⟨whole_le_blocks hlt he (by omega), hcon⟩, hc.tail⟩

/-- And so does a write. -/
theorem canIo_of_writes (hw : Wf s) (ha : Accepts offset len)
    (hlt : offset.toNat < rangeEnd s true offset len)
    (hm : ∀ s', SameMap s s' → Meets err s' true buf offset len) :
    CanIo err s true offset.toNat (rangeEnd s true offset len) := by
  obtain ⟨x, hx, hdone⟩ := (hm s (SameMap.refl s)).parts hw ha hlt
  rw [if_pos rfl] at hdone
  obtain ⟨hlen, -⟩ := @rangeEnd_bounds s true offset len ha
  generalize hen : rangeEnd s true offset len = e at *
  generalize hof : offset.toNat = o at *
  have hpresent : 2 ≤ wholeCount o e → wholeFirst o + wholeCount o e ≤ s.blocks := by
    intro h2
    by_contra hn
    have hshort := short_of_ioParts hlt hw hx h2 (by omega)
    have hstored := hdone.stored (e - o - 1) (by omega)
    rw [fileByte_sized, fileByte, if_neg (by omega)] at hstored
    cases hstored
  have hrun : 2 ≤ wholeCount o e → wholeFirst o + wholeCount o e ≤ s.blocks ∧
      ∀ j < wholeCount o e, s.map (wholeFirst o + j) = s.map (wholeFirst o) + j := by
    intro h2
    refine ⟨hpresent h2, ?_⟩
    have hcon := @contiguous_of_writes err s buf offset len hw ha (by rwa [hen, hof])
      (by rw [hen, hof]; exact hpresent h2) hm
    rwa [hen, hof] at hcon
  exact ⟨next_of_ioParts hlt hx, fun hr => head_of_ioParts hlt hw hx hr,
    fun hn => whole_of_ioParts hlt hw hx hn, hrun, fun ht => tail_of_ioParts hlt hw hx hrun ht⟩

/-- `sfs_io_nolock` does what it should, whatever the bytes in the file and in the memory, if and
only if each part of the range has its block, its space and its operations of the device, and the
whole blocks lie one after the other on the disk. -/
theorem sfsIoNolock_meets_iff (hw : Wf s) :
    (∀ s', SameMap s s' → Meets err s' write buf offset len) ↔ Served err s write offset len := by
  constructor
  · intro hm ha hlt
    cases write
    · exact canIo_of_reads hw ha hlt hm
    · exact canIo_of_writes hw ha hlt hm
  · exact fun hs s' h => (h.wf hw).meets (h.served hs)

/-! ## A file in two places -/

/-- A file of two blocks, which are blocks 2 and 4 of the disk. Each byte is the number of its
block. -/
def twoPlaces : Sfs where
  superBlocks := 6
  unusedBlocks := 1
  superDirty := false
  freemap := [false, false, false, false, false, true]
  disk b _ := BitVec.ofNat 8 b
  ops := 0
  isDir := false
  size := 8192
  blocks := 2
  direct i := if i = 0 then 2 else if i = 1 then 4 else 0
  indirect := 0
  dirty := false
  mem _ := 0#8

theorem wf_twoPlaces : Wf twoPlaces := by
  have hfree : ∀ b, twoPlaces.freemap[b]? = some true → b = 5 := by
    intro b hb
    have hlt := (List.getElem?_eq_some_iff.1 hb).1
    change b < 6 at hlt
    rcases (by omega : b = 0 ∨ b = 1 ∨ b = 2 ∨ b = 3 ∨ b = 4 ∨ b = 5) with
      rfl | rfl | rfl | rfl | rfl | rfl
    all_goals first | rfl | cases hb
  have hmap : ∀ i, i < sfsNdirect → twoPlaces.map i = if i = 0 then 2 else if i = 1 then 4 else 0 :=
    fun i hi => if_pos hi
  have htwo : ∀ i < twoPlaces.blocks, i = 0 ∨ i = 1 := fun i hi => by
    change i < 2 at hi
    omega
  refine ⟨rfl, by decide, by decide, fun b hb => ?_, by decide, by decide, fun i hi => ?_,
    fun i hi j hj he => ?_, fun h => absurd rfl h, fun h => absurd h (by decide),
    fun i hi hm h => ?_⟩
  · obtain rfl := hfree b hb
    decide
  · rcases htwo i hi with rfl | rfl <;> decide
  · rcases htwo i hi with rfl | rfl <;> rcases htwo j hj with rfl | rfl <;>
      first | rfl | exact absurd he (by decide)
  · have h12 : i < sfsNdirect := h.resolve_right fun hn => hn rfl
    change 2 ≤ i at hi
    rw [hmap i h12, if_neg (by omega), if_neg (by omega)]

theorem sfsIoNolock_meets_twoPlaces : Wf twoPlaces ∧
    ∀ s', SameMap twoPlaces s' → Meets (fun _ => 0) s' true 0#32 4096#32 4096#32 := by
  refine ⟨wf_twoPlaces, (sfsIoNolock_meets_iff wf_twoPlaces).2 fun _ _ => ?_⟩
  have hend : rangeEnd twoPlaces true 4096#32 4096#32 = 8192 := by decide
  rw [hend]
  exact ⟨by decide, fun h => absurd h (by decide), fun _ => ⟨by decide, by decide, fun _ _ => rfl⟩,
    fun h => absurd h (by decide), fun h => absurd h (by decide)⟩

/-- A read of both blocks delivers block 3 of the disk for the second one, and a read from a device
that fails is a failed assertion. -/
theorem twoPlaces_not_read : Wf twoPlaces ∧
    ¬ Meets (fun _ => 0) twoPlaces false 0#32 0#32 8192#32 ∧
      ¬ Meets (fun _ => -1) twoPlaces false 0#32 0#32 1#32 := by
  refine ⟨wf_twoPlaces, fun hm => ?_, fun hm => ?_⟩
  · have hc : CanRead (fun _ => 0) twoPlaces 0 8192 := by
      refine ⟨fun h => absurd h (by decide), fun _ => ⟨by decide, by decide, fun _ _ => rfl⟩,
        fun k hk => ?_, fun h => absurd h (by decide)⟩
      rcases (by change k < 2 at hk; omega : k = 0 ∨ k = 1) with rfl | rfl <;> decide
    obtain ⟨x, hx, hdone⟩ := hm.parts wf_twoPlaces (by decide) (by decide)
    have hend : rangeEnd twoPlaces false 0#32 8192#32 = 8192 := by decide
    rw [hend] at hx hdone
    rw [show (0#32).toNat = 0 from rfl] at hx hdone
    rw [ioParts_read (by omega) (by decide) wf_twoPlaces (by omega) hc] at hx
    obtain rfl := Option.some.inj hx
    have hbyte := hdone.bytes 4096 (by omega)
    have hfile : twoPlaces.fileByte (0 + 4096) = some 4#8 := by decide
    rw [hfile, sized_readTo (by omega) (by decide)] at hbyte
    have hbuf : delivered twoPlaces 0 8192 4096 = 3#8 := by decide
    have hmem : (twoPlaces.readTo 0#32 (delivered twoPlaces 0 8192) (8192 - 0)
        (headOps twoPlaces false 0 + wholeOps twoPlaces 0 8192 + tailOps twoPlaces false 0 8192)).mem
          (0#32 + BitVec.ofNat 32 4096) = 3#8 :=
      (@patch_add 32 (BitVec 8) twoPlaces.mem 0#32 (delivered twoPlaces 0 8192) 8192 4096
        (by omega) (by omega)).trans hbuf
    exact absurd ((Option.some.inj hbyte).trans hmem) (by decide)
  · obtain ⟨x, hx, -⟩ := hm.parts wf_twoPlaces (by decide) (by decide)
    have hend : rangeEnd twoPlaces false 0#32 1#32 = 1 := by decide
    rw [hend] at hx
    rw [show (0#32).toNat = 0 from rfl] at hx
    have hc : ¬ CanRead (fun _ => -1) twoPlaces 0 1 := fun hc =>
      absurd ((hc.tail (by decide)).device 0 (by decide)) (by decide)
    rw [ioParts_read_none (by omega) (by decide) wf_twoPlaces (by omega) hc] at hx
    cases hx

end Sfs

end Ucore

end CacheCPU
