import CacheCPU.Ucore.Sfs
import Mathlib.Data.List.Count
import Mathlib.Tactic.Linarith
import Mathlib.Tactic.SplitIfs

/-!
# The block map of a file

What `sfs_bmap_load_nolock` does to a well-formed file: a block that is there is found, the one
after the last is made from free blocks, and any other is a failed assertion.
-/

namespace CacheCPU

namespace Ucore

namespace Sfs

open Patch

variable {err : ℕ → ℤ} {s t : Sfs} {i : ℕ}

/-! ## Well-formed files -/

/-- The block number in entry `i` of a block. -/
def entryOf (b : SfsBlock) (i : ℕ) : ℕ := word fun j => b (BitVec.ofNat 12 (i * 4 + j))

/-- Where block `i` of the file is on the disk, and 0 if it is nowhere. -/
def map (s : Sfs) (i : ℕ) : ℕ :=
  if i < sfsNdirect then s.direct i else entryOf (s.disk s.indirect) (i - sfsNdirect)

/-- The number of blocks that an inode can hold. -/
def mapSize : ℕ := sfsNdirect + sfsBlkNentry

structure Wf (s : Sfs) : Prop where
  file : s.isDir = false
  bound : s.superBlocks ≤ 2 ^ 32
  unused : s.unusedBlocks = s.freemap.count true
  free : ∀ b, s.freemap[b]? = some true → b ≠ 0 ∧ b < s.superBlocks
  blocks : s.blocks ≤ mapSize
  size : s.size ≤ s.blocks * sfsBlksize
  inuse : ∀ i < s.blocks, s.blockInuse (s.map i)
  inj : ∀ i < s.blocks, ∀ j < s.blocks, s.map i = s.map j → i = j
  indirect : s.indirect ≠ 0 → s.blockInuse s.indirect ∧ ∀ i < s.blocks, s.map i ≠ s.indirect
  present : sfsNdirect < s.blocks → s.indirect ≠ 0
  rest : ∀ i, s.blocks ≤ i → i < mapSize → i < sfsNdirect ∨ s.indirect ≠ 0 → s.map i = 0

/-! ## Entries -/

theorem word_bytesOf {n : ℕ} (hn : n < 2 ^ 32) : word (bytesOf n) = n := by
  have h : (bytesOf n 3 ++ bytesOf n 2 ++ bytesOf n 1 ++ bytesOf n 0 : BitVec 32) =
      BitVec.ofNat 32 n := by
    simp only [bytesOf, ByteMemory.byteAt]
    generalize BitVec.ofNat 32 n = v
    ext i hi
    simp
    grind
  rw [word, h, BitVec.toNat_ofNat, Nat.mod_eq_of_lt hn]

theorem word_congr {v w : ℕ → BitVec 8} (h : ∀ k < 4, v k = w k) : word v = word w := by
  rw [word, word, h 0 (by decide), h 1 (by decide), h 2 (by decide), h 3 (by decide)]

theorem entryOf_patch {b : SfsBlock} {n j : ℕ} (hn : n < 2 ^ 32) (hi : i < sfsBlkNentry)
    (hj : j < sfsBlkNentry) : entryOf (patch b (BitVec.ofNat 12 (i * 4)) (bytesOf n) 4) j =
      if j = i then n else entryOf b j := by
  unfold sfsBlkNentry at hi hj
  unfold entryOf
  split_ifs with h
  · subst h
    refine (word_congr fun k hk => ?_).trans (word_bytesOf hn)
    rw [BitVec.ofNat_add]
    exact patch_add hk (by decide)
  · refine word_congr fun k hk => patch_of_ne fun m hm he => ?_
    have := congrArg BitVec.toNat he
    rw [← BitVec.ofNat_add, BitVec.toNat_ofNat, BitVec.toNat_ofNat] at this
    omega

theorem entryOf_zero (i : ℕ) : entryOf (fun _ => 0#8) i = 0 := by
  simp [entryOf, word]

/-! ## The device -/

/-- No block of a file is out of reach of the device. -/
theorem blockInuse.reach {b : ℕ} (h : s.blockInuse b) : b ≠ 0 ∧ b < s.superBlocks := ⟨h.1, h.2.1⟩

theorem rwblockNolock_read {b : ℕ} (h : b ≠ 0 ∧ b < s.superBlocks) :
    s.rwblockNolock err b none = some ({ s with ops := s.ops + 1 }, err s.ops, s.disk b) :=
  if_pos h

theorem rwblockNolock_write {b : ℕ} (h : b ≠ 0 ∧ b < s.superBlocks) (v : SfsBlock)
    (he : err s.ops = 0) : s.rwblockNolock err b (some v) =
      some ({ s with ops := s.ops + 1, disk := Function.update s.disk b v }, 0, s.disk b) := by
  rw [rwblockNolock, if_pos h]
  simp only [he, if_pos]

theorem rwblockNolock_fail {b : ℕ} (h : b ≠ 0 ∧ b < s.superBlocks) (v : Option SfsBlock)
    (he : err s.ops ≠ 0) : s.rwblockNolock err b v =
      some ({ s with ops := s.ops + 1 }, err s.ops, s.disk b) := by
  unfold rwblockNolock
  rw [if_pos h]
  cases v with
  | none => rfl
  | some v => simp only [if_neg he]

/-- `sfs_wbuf` comes through if both of its operations do. -/
theorem sfsWbuf_eq {data : ℕ → BitVec 8} {len b off : ℕ} (hoff : off < sfsBlksize)
    (hlen : off + len ≤ sfsBlksize) (hb : b ≠ 0 ∧ b < s.superBlocks) (h0 : err s.ops = 0)
    (h1 : err (s.ops + 1) = 0) : s.sfsWbuf err data len b off = some
      ({ s with
        ops := s.ops + 2
        disk := Function.update s.disk b
          (patch (s.disk b) (BitVec.ofNat 12 off) data len) }, 0) := by
  rw [sfsWbuf, if_pos ⟨hoff, hlen⟩, rwblockNolock_read hb, Option.bind_some]
  simp only [h0, if_true]
  rw [rwblockNolock_write (by exact hb) _ (by exact h1)]
  rfl

/-- What a call that does not return 0 leaves is of no interest. -/
def Fails (r : Option (Sfs × ℤ)) : Prop := ∀ t, r ≠ some (t, 0)

theorem sfsWbuf_fails {data : ℕ → BitVec 8} {len b off : ℕ}
    (h : err s.ops ≠ 0 ∨ err (s.ops + 1) ≠ 0) : Fails (s.sfsWbuf err data len b off) := by
  intro t
  unfold sfsWbuf
  by_cases hg : off < sfsBlksize ∧ off + len ≤ sfsBlksize
  · by_cases hb : b ≠ 0 ∧ b < s.superBlocks
    · rw [if_pos hg, rwblockNolock_read hb, Option.bind_some]
      by_cases h0 : err s.ops = 0
      · have h1 : err (s.ops + 1) ≠ 0 := h.resolve_left (not_not.2 h0)
        simp only [h0, if_true]
        rw [rwblockNolock_fail (by exact hb) _ (by exact h1)]
        simp [h1]
      · simp [h0]
    · rw [if_pos hg, rwblockNolock, if_neg hb]
      simp
  · rw [if_neg hg]
    simp

/-! ## Taking a free block -/

/-- The state after block `b` has been taken and cleared. -/
def taken (s : Sfs) (b : ℕ) : Sfs :=
  { s with
    freemap := s.freemap.set b false
    unusedBlocks := s.unusedBlocks - 1
    superDirty := true
    ops := s.ops + 1
    disk := Function.update s.disk b fun _ => 0#8 }

/-- What an allocation relies on. -/
structure FreeOk (s : Sfs) : Prop where
  bound : s.superBlocks ≤ 2 ^ 32
  unused : s.unusedBlocks = s.freemap.count true
  free : ∀ b, s.freemap[b]? = some true → b ≠ 0 ∧ b < s.superBlocks

theorem Wf.freeOk (h : Wf s) : FreeOk s := ⟨h.bound, h.unused, h.free⟩

theorem bitmapAlloc_some {b : ℕ} (h : s.bitmapAlloc = some b) : s.freemap[b]? = some true := by
  obtain ⟨hlt, hb, -⟩ := List.findIdx?_eq_some_iff_getElem.1 h
  rw [List.getElem?_eq_getElem hlt]
  exact congrArg some hb

theorem bitmapAlloc_isSome (h : 0 < s.freemap.count true) : ∃ b, s.bitmapAlloc = some b := by
  rw [← Option.isSome_iff_exists, bitmapAlloc, List.findIdx?_isSome]
  simpa using List.count_pos_iff.1 h

section Taken

variable {b : ℕ} (h : FreeOk s) (hb : s.freemap[b]? = some true)
include hb

theorem getElem?_taken (c : ℕ) :
    (s.taken b).freemap[c]? = if c = b then some false else s.freemap[c]? := by
  have hlt : b < s.freemap.length := (List.getElem?_eq_some_iff.1 hb).1
  change (s.freemap.set b false)[c]? = _
  rw [List.getElem?_set]
  by_cases hc : c = b
  · subst hc
    rw [if_pos rfl, if_pos hlt, if_pos rfl]
  · rw [if_neg (Ne.symm hc), if_neg hc]

include h

theorem FreeOk.pos : 0 < s.unusedBlocks := by
  rw [h.unused]
  exact List.count_pos_iff.2 (List.mem_of_getElem? hb)

theorem FreeOk.taken : FreeOk (s.taken b) where
  bound := h.bound
  unused := by
    have hlt : b < s.freemap.length := (List.getElem?_eq_some_iff.1 hb).1
    have hget : s.freemap[b] = true := (List.getElem?_eq_some_iff.1 hb).2
    change s.unusedBlocks - 1 = (s.freemap.set b false).count true
    rw [h.unused, List.count_set hlt, hget]
    simp
  free c hc := by
    rw [getElem?_taken hb] at hc
    split_ifs at hc with hcb
    · cases hc
    · exact h.free c hc

theorem blockInuse_taken : (s.taken b).blockInuse b :=
  ⟨(h.free b hb).1, (h.free b hb).2, by rw [getElem?_taken hb, if_pos rfl]⟩

omit h in
/-- The blocks in use before are others. -/
theorem blockInuse.taken {c : ℕ} (hc : s.blockInuse c) : (s.taken b).blockInuse c ∧ c ≠ b := by
  have hne : c ≠ b := by
    rintro rfl
    rw [hc.2.2] at hb
    cases hb
  exact ⟨⟨hc.1, hc.2.1, by rw [getElem?_taken hb, if_neg hne]; exact hc.2.2⟩, hne⟩

end Taken

theorem blockAlloc_ok (h : FreeOk s) (hpos : 0 < s.unusedBlocks) (he : err s.ops = 0) :
    ∃ b, s.freemap[b]? = some true ∧ s.blockAlloc err = some (s.taken b, 0, b) := by
  obtain ⟨b, hb⟩ := bitmapAlloc_isSome (h.unused ▸ hpos)
  have hfree := bitmapAlloc_some hb
  have huse := blockInuse_taken h hfree
  refine ⟨b, hfree, ?_⟩
  unfold blockAlloc
  rw [hb]
  simp only []
  rw [if_pos ⟨hpos, by exact huse⟩, sfsClearBlock, rwblockNolock_write (by exact huse.reach) _
    (by exact he)]
  rfl

/-- No free block, or the device does not clear it. -/
theorem blockAlloc_fails (h : FreeOk s) (hf : s.unusedBlocks = 0 ∨ err s.ops ≠ 0) :
    ∃ t r b, s.blockAlloc err = some (t, r, b) ∧ r ≠ 0 := by
  by_cases hpos : 0 < s.unusedBlocks
  · obtain ⟨b, hb⟩ := bitmapAlloc_isSome (h.unused ▸ hpos)
    have hfree := bitmapAlloc_some hb
    have huse := blockInuse_taken h hfree
    have he : err s.ops ≠ 0 := hf.resolve_left (by omega)
    unfold blockAlloc
    rw [hb]
    simp only []
    rw [if_pos ⟨hpos, by exact huse⟩, sfsClearBlock, rwblockNolock_fail (by exact huse.reach) _
      (by exact he)]
    exact ⟨_, _, _, rfl, he⟩
  · have hnone : s.bitmapAlloc = none := by
      rcases hb : s.bitmapAlloc with _ | b
      · rfl
      · exact absurd (h.pos (bitmapAlloc_some hb)) hpos
    unfold blockAlloc
    rw [hnone]
    exact ⟨_, _, _, rfl, by decide⟩

/-! ## Looking a block up -/

/-- `sfs_bmap_load_nolock` with `assert(... == 0)`. -/
def lookup (err : ℕ → ℤ) (s : Sfs) (i : ℕ) : Option (Sfs × ℕ) :=
  (s.bmapLoadNolock err i).bind fun (s, ret, ino) => if ret = 0 then some (s, ino) else none

/-- The device operations of a lookup. -/
def lookupOps (s : Sfs) (i : ℕ) : ℕ :=
  if i < s.blocks then if i < sfsNdirect then 0 else 1 else if i < sfsNdirect then 1 else 4

/-- The free blocks that it takes to come to `k` blocks. -/
def needed (s : Sfs) (k : ℕ) : ℕ :=
  k - s.blocks + if s.indirect = 0 ∧ sfsNdirect < k then 1 else 0

theorem sfsRbuf_entry (hb : s.blockInuse s.indirect) {j : ℕ} (hj : j < sfsBlkNentry) :
    s.sfsRbuf err 4 s.indirect (j * 4) = some ({ s with ops := s.ops + 1 }, err s.ops, fun k =>
      s.disk s.indirect (BitVec.ofNat 12 (j * 4 + k))) := by
  unfold sfsBlkNentry at hj
  rw [sfsRbuf, if_pos (by unfold sfsBlksize; omega), rwblockNolock_read hb.reach]
  rfl

theorem map_ge (hi : sfsNdirect ≤ i) : s.map i = entryOf (s.disk s.indirect) (i - sfsNdirect) :=
  if_neg (by omega)

theorem lookup_beyond (hi : s.blocks < i) : s.lookup err i = none := by
  rw [lookup, bmapLoadNolock, if_neg (by omega)]
  rfl

theorem bmapOut_inuse {ino : ℕ} (h : s.blockInuse ino) : s.bmapOut ino = some (s, 0, ino) :=
  if_pos (.inr h)

theorem lookup_of_get {ino : ℕ} (hi : i ≤ s.blocks)
    (h : s.bmapGetNolock err i (i == s.blocks) = some (t, 0, ino)) (huse : t.blockInuse ino) :
    s.lookup err i =
      some ({ t with blocks := if i = s.blocks then t.blocks + 1 else t.blocks }, ino) := by
  rw [lookup, bmapLoadNolock, if_pos hi, h, Option.bind_some]
  simp only [ne_eq, not_true_eq_false, if_false, if_pos huse, Option.bind_some, if_true]

theorem lookup_of_get_fails
    (h : ∀ t ino, s.bmapGetNolock err i (i == s.blocks) ≠ some (t, 0, ino)) :
    s.lookup err i = none := by
  rw [lookup, bmapLoadNolock]
  by_cases hi : i ≤ s.blocks
  · rw [if_pos hi]
    rcases hg : s.bmapGetNolock err i (i == s.blocks) with _ | ⟨t, r, ino⟩
    · rfl
    · have hr : r ≠ 0 := by
        rintro rfl
        exact h t ino hg
      simp [hr]
  · rw [if_neg hi]
    rfl

section Sub

variable {create : Bool} {ent ino : ℕ} (h12 : sfsNdirect ≤ i) (hi : i < mapSize)
include h12 hi

/-- The blocks behind the direct ones. -/
theorem bmapGetNolock_sub (h : s.bmapGetSubNolock err s.indirect (i - sfsNdirect) create =
      some (t, 0, s.indirect, ino)) (hind : t.indirect = s.indirect) (huse : t.blockInuse ino) :
    s.bmapGetNolock err i create = some (t, 0, ino) := by
  unfold mapSize at hi
  rw [bmapGetNolock, if_neg (by omega), if_pos (by omega), h, Option.bind_some]
  simp only [hind, ne_eq, not_true_eq_false, if_false]
  exact bmapOut_inuse huse

/-- The first of them, when there is no block for their numbers yet. -/
theorem bmapGetNolock_sub_new (h : s.bmapGetSubNolock err s.indirect (i - sfsNdirect) create =
      some (t, 0, ent, ino)) (ht : t.indirect = 0) (hent : ent ≠ 0)
    (huse : t.blockInuse ino) : s.bmapGetNolock err i create =
      some ({ t with indirect := ent, dirty := true }, 0, ino) := by
  unfold mapSize at hi
  rw [bmapGetNolock, if_neg (by omega), if_pos (by omega), h, Option.bind_some]
  simp only [ht, hent, ne_eq, not_true_eq_false, not_false_eq_true, if_false, if_true]
  exact bmapOut_inuse huse

theorem bmapGetNolock_sub_fails (h : ∀ t ent ino,
      s.bmapGetSubNolock err s.indirect (i - sfsNdirect) create ≠ some (t, 0, ent, ino)) :
    ∀ t ino, s.bmapGetNolock err i create ≠ some (t, 0, ino) := by
  unfold mapSize at hi
  intro t ino
  rw [bmapGetNolock, if_neg (by omega), if_pos (by omega)]
  rcases hg : s.bmapGetSubNolock err s.indirect (i - sfsNdirect) create with _ | ⟨u, r, ent, j⟩
  · simp
  · have hr : r ≠ 0 := by
      rintro rfl
      exact h u ent j hg
    simp [hr]

end Sub

section Present

variable (hw : Wf s) (hi : i < s.blocks)
include hw hi

theorem lookup_present (he : sfsNdirect ≤ i → err s.ops = 0) :
    s.lookup err i = some ({ s with ops := s.ops + lookupOps s i }, s.map i) := by
  have huse := hw.inuse i hi
  have hcreate : (i == s.blocks) = false := by simpa using hi.ne
  have hle := hw.blocks
  by_cases h12 : i < sfsNdirect
  · have hmap : s.map i = s.direct i := if_pos h12
    have hget : s.bmapGetNolock err i (i == s.blocks) = some (s, 0, s.map i) := by
      rw [hcreate, bmapGetNolock, if_pos h12, if_neg (by simp), ← hmap, bmapOut_inuse huse]
    rw [lookup_of_get hi.le hget huse, if_neg hi.ne, lookupOps, if_pos hi, if_pos h12]
    rfl
  · have hind := hw.present (by omega)
    unfold mapSize at hle
    have hj : i - sfsNdirect < sfsBlkNentry := by omega
    have hmap := @map_ge s i (by omega)
    have hsub : s.bmapGetSubNolock err s.indirect (i - sfsNdirect) false =
        some ({ s with ops := s.ops + 1 }, 0, s.indirect, s.map i) := by
      rw [bmapGetSubNolock, if_pos hj, if_pos hind, sfsRbuf_entry (hw.indirect hind).1 hj, hmap]
      simp only [he (by omega), Option.bind_some, ne_eq, not_true_eq_false, if_false, or_true,
        if_true]
      rfl
    have hget := bmapGetNolock_sub (by omega) (by unfold mapSize; omega) hsub rfl (by exact huse)
    rw [← hcreate] at hget
    rw [lookup_of_get hi.le hget (by exact huse), if_neg hi.ne, lookupOps, if_pos hi, if_neg h12]

theorem lookup_present_fails (h12 : sfsNdirect ≤ i) (he : err s.ops ≠ 0) :
    s.lookup err i = none := by
  have hcreate : (i == s.blocks) = false := by simpa using hi.ne
  have hle := hw.blocks
  unfold mapSize at hle
  have hj : i - sfsNdirect < sfsBlkNentry := by omega
  have hind := hw.present (by omega)
  refine lookup_of_get_fails (bmapGetNolock_sub_fails h12 (by unfold mapSize; omega) ?_)
  intro t ent ino
  rw [hcreate, bmapGetSubNolock, if_pos hj, if_pos hind, sfsRbuf_entry (hw.indirect hind).1 hj]
  simp [he]

end Present

/-! ## The block after the last -/

/-- The file has one block more, which is `b`, and may have got its block of numbers. -/
structure Grown (s t : Sfs) (b : ℕ) : Prop where
  freeOk : FreeOk t
  file : t.isDir = s.isDir
  blocks : t.blocks = s.blocks + 1
  size : t.size = s.size
  mem : t.mem = s.mem
  kept : ∀ c, s.blockInuse c → t.blockInuse c
  map : ∀ j < s.blocks, t.map j = s.map j
  new : t.map s.blocks = b
  fresh : s.freemap[b]? = some true
  inuse : t.blockInuse b
  free : ∀ c : ℕ, t.freemap[c]? = some true → s.freemap[c]? = some true
  indirect : t.indirect = s.indirect ∧ (sfsNdirect ≤ s.blocks → s.indirect ≠ 0) ∨
    s.indirect = 0 ∧ s.blocks = sfsNdirect ∧ s.freemap[t.indirect]? = some true ∧
      t.indirect ≠ b ∧ t.blockInuse t.indirect
  rest : ∀ j, s.blocks < j → j < mapSize → j < sfsNdirect ∨ t.indirect ≠ 0 → t.map j = 0
  disk : ∀ c, (t.indirect ≠ 0 → c ≠ t.indirect) → c ≠ b → t.disk c = s.disk c
  unused : t.unusedBlocks + needed s (s.blocks + 1) = s.unusedBlocks
  ops : t.ops = s.ops + lookupOps s s.blocks

theorem ne_of_free {b c : ℕ} (hb : s.freemap[b]? = some true) (hc : s.blockInuse c) : c ≠ b := by
  rintro rfl
  rw [hc.2.2] at hb
  cases hb

theorem Grown.wf {b : ℕ} (h : Grown s t b) (hw : Wf s) (hlt : s.blocks < mapSize) : Wf t := by
  -- a block of the file is an old one or the new one
  have hcase : ∀ j < t.blocks, j < s.blocks ∧ t.map j = s.map j ∧ s.blockInuse (t.map j) ∨
      j = s.blocks ∧ t.map j = b := by
    intro j hj
    rw [h.blocks] at hj
    by_cases hjs : j < s.blocks
    · exact .inl ⟨hjs, h.map j hjs, by rw [h.map j hjs]; exact hw.inuse j hjs⟩
    · obtain rfl : j = s.blocks := by omega
      exact .inr ⟨rfl, h.new⟩
  have hind : ∀ j < t.blocks, t.indirect ≠ 0 → t.map j ≠ t.indirect := by
    intro j hj hne
    rcases h.indirect with ⟨he, -⟩ | ⟨-, -, hfree, hneb, -⟩ <;>
      rcases hcase j hj with ⟨hjs, hm, huse⟩ | ⟨-, hm⟩
    · rw [hm, he]
      exact (hw.indirect (by rwa [← he])).2 j hjs
    · rw [hm, he]
      exact (ne_of_free h.fresh (hw.indirect (by rwa [← he])).1).symm
    · exact ne_of_free hfree huse
    · rw [hm]
      exact hneb.symm
  refine ⟨h.file.trans hw.file, h.freeOk.bound, h.freeOk.unused, h.freeOk.free, ?_, ?_, ?_, ?_,
    ?_, ?_, ?_⟩
  · rw [h.blocks]
    exact hlt
  · rw [h.size, h.blocks]
    exact hw.size.trans (Nat.mul_le_mul_right _ (Nat.le_succ _))
  · intro j hj
    rcases hcase j hj with ⟨-, -, huse⟩ | ⟨-, hm⟩
    · exact h.kept _ huse
    · rw [hm]
      exact h.inuse
  · intro j hj k hk he
    rcases hcase j hj with ⟨hjs, hmj, hj'⟩ | ⟨rfl, hmj⟩ <;>
      rcases hcase k hk with ⟨hks, hmk, hk'⟩ | ⟨rfl, hmk⟩
    · rw [hmj, hmk] at he
      exact hw.inj j hjs k hks he
    · exact absurd (he.trans hmk) (ne_of_free h.fresh hj')
    · exact absurd (he.symm.trans hmj) (ne_of_free h.fresh hk')
    · rfl
  · intro hne
    refine ⟨?_, fun j hj => hind j hj hne⟩
    rcases h.indirect with ⟨he, -⟩ | ⟨-, -, -, -, huse⟩
    · rw [he]
      exact h.kept _ (hw.indirect (by rwa [← he])).1
    · exact huse
  · intro hlt
    rw [h.blocks] at hlt
    rcases h.indirect with ⟨he, hne⟩ | ⟨-, -, -, -, huse⟩
    · rw [he]
      exact hne (by omega)
    · exact huse.1
  · intro j hj hjm hor
    rw [h.blocks] at hj
    exact h.rest j (by omega) hjm hor

/-- The state after block `b` has been taken for entry `j` of the block `ent`. -/
def linked (s : Sfs) (b ent j : ℕ) : Sfs :=
  { s.taken b with
    ops := s.ops + 3
    disk := Function.update (s.taken b).disk ent
      (patch (s.disk ent) (BitVec.ofNat 12 (j * 4)) (bytesOf b) 4) }

theorem bmapGetSubCreate_ok {entp ent j : ℕ} (h : FreeOk s) (hent : s.blockInuse ent)
    (hj : j < sfsBlkNentry) (hpos : 0 < s.unusedBlocks) (he : ∀ k < 3, err (s.ops + k) = 0) :
    ∃ b, s.freemap[b]? = some true ∧
      s.bmapGetSubCreate err entp ent j = some (s.linked b ent j, 0, ent, b) := by
  obtain ⟨b, hb, halloc⟩ := blockAlloc_ok h hpos (he 0 (by decide))
  obtain ⟨huse, hne⟩ := hent.taken hb
  unfold sfsBlkNentry at hj
  refine ⟨b, hb, ?_⟩
  rw [bmapGetSubCreate, halloc, Option.bind_some]
  simp only [ne_eq, not_true_eq_false, if_false]
  rw [sfsWbuf_eq (by unfold sfsBlksize; omega) (by unfold sfsBlksize; omega) huse.reach
    (he 1 (by decide)) (he 2 (by decide)), Option.bind_some]
  have hdisk : (s.taken b).disk ent = s.disk ent := Function.update_of_ne hne _ _
  simp only [hdisk]
  rfl

theorem bmapCleanup_ret {entp ent : ℕ} {r : ℤ} (hr : r ≠ 0) (t : Sfs) (e ino : ℕ) :
    s.bmapCleanup entp ent r ≠ some (t, 0, e, ino) := by
  unfold bmapCleanup
  split_ifs
  · intro h
    obtain ⟨u, -, hu⟩ := Option.map_eq_some_iff.1 h
    simp only [Prod.mk.injEq] at hu
    exact hr hu.2.1
  · simp [hr]

theorem bmapGetSubCreate_fails {entp ent j : ℕ} (h : FreeOk s)
    (hf : s.unusedBlocks = 0 ∨ ∃ k < 3, err (s.ops + k) ≠ 0) (t : Sfs) (e ino : ℕ) :
    s.bmapGetSubCreate err entp ent j ≠ some (t, 0, e, ino) := by
  rw [bmapGetSubCreate]
  by_cases ha : s.unusedBlocks = 0 ∨ err s.ops ≠ 0
  · obtain ⟨u, r, b, halloc, hr⟩ := blockAlloc_fails h ha
    rw [halloc, Option.bind_some]
    simp only [ne_eq, hr, not_false_eq_true, if_true]
    exact bmapCleanup_ret hr t e ino
  · rw [not_or, not_not] at ha
    obtain ⟨b, -, halloc⟩ := blockAlloc_ok h (by omega) ha.2
    obtain ⟨k, hk, hek⟩ := hf.resolve_left ha.1
    have hw : Fails ((s.taken b).sfsWbuf err (bytesOf b) 4 ent (j * 4)) := by
      refine sfsWbuf_fails ?_
      have hk12 : k = 0 ∨ k = 1 ∨ k = 2 := by omega
      rcases hk12 with rfl | rfl | rfl
      · exact absurd ha.2 hek
      · exact .inl hek
      · exact .inr hek
    rw [halloc, Option.bind_some]
    simp only [ne_eq, not_true_eq_false, if_false]
    rcases hwb : (s.taken b).sfsWbuf err (bytesOf b) 4 ent (j * 4) with _ | ⟨u, r⟩
    · simp
    · have hr : r ≠ 0 := by
        rintro rfl
        exact hw u hwb
      rw [Option.bind_some]
      simp only [ne_eq, hr, not_false_eq_true, if_true]
      intro hn
      obtain ⟨v, -, hv⟩ := Option.bind_eq_some_iff.1 hn
      exact bmapCleanup_ret hr t e ino hv

section Create

variable (hw : Wf s)
include hw

theorem create_direct (hi : s.blocks < sfsNdirect) (hpos : 0 < s.unusedBlocks)
    (he : err s.ops = 0) :
    ∃ t b, s.lookup err s.blocks = some (t, b) ∧ Grown s t b := by
  have hlt : s.blocks < mapSize := by unfold mapSize; omega
  obtain ⟨b, hb, halloc⟩ := blockAlloc_ok hw.freeOk hpos he
  have huse := blockInuse_taken hw.freeOk hb
  have h0 : s.direct s.blocks = 0 := by
    have := hw.rest s.blocks le_rfl hlt (.inl hi)
    rwa [map, if_pos hi] at this
  have hget : s.bmapGetNolock err s.blocks (s.blocks == s.blocks) = some
      ({ s.taken b with direct := Function.update s.direct s.blocks b, dirty := true }, 0, b) := by
    rw [beq_self_eq_true, bmapGetNolock, if_pos hi, if_pos ⟨h0, rfl⟩, halloc, Option.bind_some]
    simp only [ne_eq, not_true_eq_false, if_false]
    exact bmapOut_inuse (by exact huse)
  refine ⟨_, _, lookup_of_get le_rfl hget (by exact huse), ?_⟩
  rw [if_pos rfl]
  have hdirect : ∀ j, j ≠ s.blocks → Function.update s.direct s.blocks b j = s.direct j :=
    fun j hj => Function.update_of_ne hj _ _
  exact {
    freeOk := ⟨(hw.freeOk.taken hb).bound, (hw.freeOk.taken hb).unused, (hw.freeOk.taken hb).free⟩
    file := rfl
    blocks := rfl
    size := rfl
    mem := rfl
    kept := fun c hc => (hc.taken hb).1
    map := fun j hj => by
      rw [map, map, if_pos (hj.trans hi), if_pos (hj.trans hi)]
      exact hdirect j hj.ne
    new := by
      rw [map, if_pos hi]
      exact Function.update_self _ _ _
    fresh := hb
    inuse := huse
    free := fun c hc => by
      change (s.taken b).freemap[c]? = _ at hc
      rw [getElem?_taken hb] at hc
      split_ifs at hc with hcb
      · cases hc
      · exact hc
    indirect := .inl ⟨rfl, fun h => absurd hi (by omega)⟩
    rest := fun j hj hjm hor => by
      have hrest := hw.rest j hj.le hjm hor
      unfold map at hrest ⊢
      split_ifs at hrest ⊢ with h12
      · exact (hdirect j hj.ne').trans hrest
      · have hne := ne_of_free hb (hw.indirect (hor.resolve_left h12)).1
        rw [← hrest]
        exact congrArg (entryOf · _) (Function.update_of_ne hne _ _)
    disk := fun c _ hc => Function.update_of_ne hc _ _
    unused := by
      change s.unusedBlocks - 1 + needed s (s.blocks + 1) = _
      rw [needed, if_neg (by omega)]
      omega
    ops := by
      rw [lookupOps, if_neg (lt_irrefl _), if_pos hi]
      rfl }

omit hw in
/-- An entry is written: `u` is the state before, with the block of numbers `ent`. -/
theorem grown_linked {u : Sfs} {b ent : ℕ} {d : Bool} (hi : sfsNdirect ≤ s.blocks)
    (hlt : s.blocks < mapSize) (hu : FreeOk u) (hent : u.blockInuse ent)
    (hb : u.freemap[b]? = some true)
    (hsame : u.isDir = s.isDir ∧ u.size = s.size ∧ u.mem = s.mem ∧ u.direct = s.direct)
    (hkept : ∀ c, s.blockInuse c → u.blockInuse c)
    (hfree : ∀ c : ℕ, u.freemap[c]? = some true → s.freemap[c]? = some true)
    (hdisk : ∀ c, c ≠ ent → u.disk c = s.disk c)
    (hold : ∀ j < s.blocks, sfsNdirect ≤ j → entryOf (u.disk ent) (j - sfsNdirect) = s.map j)
    (hrest : ∀ j, s.blocks < j → j < mapSize → entryOf (u.disk ent) (j - sfsNdirect) = 0)
    (hind : ent = s.indirect ∧ s.indirect ≠ 0 ∨
      s.indirect = 0 ∧ s.blocks = sfsNdirect ∧ s.freemap[ent]? = some true)
    (hunused : u.unusedBlocks + needed s (s.blocks + 1) = s.unusedBlocks + 1)
    (hops : u.ops = s.ops + 1) :
    Grown s { u.linked b ent (s.blocks - sfsNdirect) with
      indirect := ent, dirty := d, blocks := s.blocks + 1 } b := by
  have hb32 : b < 2 ^ 32 := (hu.free b hb).2.trans_le hu.bound
  have hpos := hu.pos hb
  obtain ⟨-, hne⟩ := hent.taken hb
  have hj : s.blocks - sfsNdirect < sfsBlkNentry := by unfold mapSize at hlt; omega
  set t : Sfs := { u.linked b ent (s.blocks - sfsNdirect) with
    indirect := ent, dirty := d, blocks := s.blocks + 1 } with ht
  have hmap : ∀ j, sfsNdirect ≤ j → j < mapSize → t.map j =
      if j = s.blocks then b else entryOf (u.disk ent) (j - sfsNdirect) := by
    intro j h12 hjm
    have hself : t.disk t.indirect =
        patch (u.disk ent) (BitVec.ofNat 12 ((s.blocks - sfsNdirect) * 4)) (bytesOf b) 4 :=
      Function.update_self _ _ _
    unfold mapSize at hjm
    rw [map_ge h12, hself, entryOf_patch hb32 hj (by omega)]
    exact if_congr (by omega) rfl rfl
  exact {
    freeOk := ⟨(hu.taken hb).bound, (hu.taken hb).unused, (hu.taken hb).free⟩
    file := hsame.1
    blocks := rfl
    size := hsame.2.1
    mem := hsame.2.2.1
    kept := fun c hc => ((hkept c hc).taken hb).1
    map := fun j hj => by
      by_cases h12 : j < sfsNdirect
      · rw [map, map, if_pos h12, if_pos h12]
        exact congrFun hsame.2.2.2 j
      · rw [hmap j (by omega) (hj.trans hlt), if_neg hj.ne]
        exact hold j hj (by omega)
    new := by rw [hmap _ hi hlt, if_pos rfl]
    fresh := hfree b hb
    inuse := blockInuse_taken hu hb
    free := fun c hc => by
      change (u.taken b).freemap[c]? = _ at hc
      rw [getElem?_taken hb] at hc
      split_ifs at hc with hcb
      · cases hc
      · exact hfree c hc
    indirect := by
      rcases hind with ⟨rfl, h0⟩ | ⟨h0, h12, hf⟩
      · exact .inl ⟨rfl, fun _ => h0⟩
      · exact .inr ⟨h0, h12, hf, hne, (hent.taken hb).1⟩
    rest := fun j hj hjm _ => by
      rw [hmap j (by omega) hjm, if_neg hj.ne']
      exact hrest j hj hjm
    disk := fun c hc hcb => (Function.update_of_ne (hc hent.1) _ _).trans
      ((Function.update_of_ne hcb _ _).trans (hdisk c (hc hent.1)))
    unused := by
      change u.unusedBlocks - 1 + needed s (s.blocks + 1) = _
      omega
    ops := by
      rw [lookupOps, if_neg (lt_irrefl _), if_neg (by omega)]
      change u.ops + 3 = _
      omega }

theorem create_sub (h12 : sfsNdirect ≤ s.blocks) (hlt : s.blocks < mapSize)
    (hind : s.indirect ≠ 0) (hpos : 0 < s.unusedBlocks) (he : ∀ k < 4, err (s.ops + k) = 0) :
    ∃ t b, s.lookup err s.blocks = some (t, b) ∧ Grown s t b := by
  have hj : s.blocks - sfsNdirect < sfsBlkNentry := by unfold mapSize at hlt; omega
  have huse := (hw.indirect hind).1
  have h0 := hw.rest s.blocks le_rfl hlt (.inr hind)
  rw [map_ge h12] at h0
  have hu : FreeOk { s with ops := s.ops + 1 } := ⟨hw.bound, hw.unused, hw.free⟩
  obtain ⟨b, hb, hsub⟩ := @bmapGetSubCreate_ok err { s with ops := s.ops + 1 } s.indirect s.indirect
    (s.blocks - sfsNdirect) hu huse hj hpos fun k hk => by
      rw [show s.ops + 1 + k = s.ops + (k + 1) by omega]
      exact he (k + 1) (by omega)
  have hget : s.bmapGetNolock err s.blocks (s.blocks == s.blocks) = some
      (linked { s with ops := s.ops + 1 } b s.indirect (s.blocks - sfsNdirect), 0, b) := by
    refine bmapGetNolock_sub h12 hlt ?_ rfl (blockInuse_taken hu hb)
    rw [beq_self_eq_true, bmapGetSubNolock, if_pos hj, if_pos hind, sfsRbuf_entry huse hj,
      Option.bind_some]
    unfold entryOf at h0
    have he0 := he 0 (by decide)
    simp only [Nat.add_zero] at he0
    simp only [he0, h0, ne_eq, not_true_eq_false, false_or, if_false, Bool.true_eq_false]
    exact hsub
  refine ⟨_, _, lookup_of_get le_rfl hget (blockInuse_taken hu hb), ?_⟩
  rw [if_pos rfl]
  refine @grown_linked s { s with ops := s.ops + 1 } b s.indirect s.dirty h12 hlt hu huse hb
    ⟨rfl, rfl, rfl, rfl⟩ (fun _ h => h) (fun _ h => h) (fun _ _ => rfl)
    (fun j _ hj => (map_ge hj).symm) (fun j hj hjm => ?_) (.inl ⟨rfl, hind⟩) ?_ rfl
  · have hrest := hw.rest j hj.le hjm (.inr hind)
    rwa [map_ge (by omega)] at hrest
  · rw [needed, if_neg fun h => hind h.1]
    change s.unusedBlocks + (s.blocks + 1 - s.blocks + 0) = _
    omega

theorem create_new (h12 : s.blocks = sfsNdirect) (hind : s.indirect = 0)
    (hpos : 2 ≤ s.unusedBlocks) (he : ∀ k < 4, err (s.ops + k) = 0) :
    ∃ t b, s.lookup err s.blocks = some (t, b) ∧ Grown s t b := by
  have hlt : s.blocks < mapSize := by rw [h12]; decide
  have hj : s.blocks - sfsNdirect < sfsBlkNentry := by rw [h12]; decide
  obtain ⟨ent, hent, halloc⟩ := blockAlloc_ok hw.freeOk (by omega) (he 0 (by decide))
  have hu := hw.freeOk.taken hent
  have huse := blockInuse_taken hw.freeOk hent
  have hzero : (s.taken ent).disk ent = fun _ => 0#8 := Function.update_self _ _ _
  obtain ⟨b, hb, hsub⟩ := @bmapGetSubCreate_ok err (s.taken ent) 0 ent (s.blocks - sfsNdirect) hu
    huse hj (by change 0 < s.unusedBlocks - 1; omega) fun k hk => by
      rw [show (s.taken ent).ops + k = s.ops + (k + 1) by change s.ops + 1 + k = _; omega]
      exact he (k + 1) (by omega)
  have hget : s.bmapGetNolock err s.blocks (s.blocks == s.blocks) = some
      ({ (s.taken ent).linked b ent (s.blocks - sfsNdirect) with
        indirect := ent, dirty := true }, 0, b) := by
    refine bmapGetNolock_sub_new h12.ge hlt ?_ hind huse.1 (blockInuse_taken hu hb)
    rw [beq_self_eq_true, bmapGetSubNolock, if_pos hj, if_neg (not_not.2 hind), if_neg (by simp),
      halloc, Option.bind_some]
    simp only [ne_eq, not_true_eq_false, if_false]
    rw [hind]
    exact hsub
  refine ⟨_, _, lookup_of_get le_rfl hget (blockInuse_taken hu hb), ?_⟩
  rw [if_pos rfl]
  refine @grown_linked s (s.taken ent) b ent true h12.ge hlt hu huse hb ⟨rfl, rfl, rfl, rfl⟩
    (fun _ h => (h.taken hent).1) (fun c hc => ?_) (fun c hc => Function.update_of_ne hc _ _)
    (fun j hj h => by omega) (fun j _ _ => by rw [hzero, entryOf_zero]) (.inr ⟨hind, h12, hent⟩) ?_
    rfl
  · rw [getElem?_taken hent] at hc
    split_ifs at hc with hcb
    · cases hc
    · exact hc
  · rw [needed, if_pos ⟨hind, by omega⟩]
    change s.unusedBlocks - 1 + _ = _
    omega

/-- Without the free blocks, or with an operation that fails, there is no new block. -/
theorem create_fails (hlt : s.blocks < mapSize) (hf : s.unusedBlocks < needed s (s.blocks + 1) ∨
      ∃ k < lookupOps s s.blocks, err (s.ops + k) ≠ 0) : s.lookup err s.blocks = none := by
  refine lookup_of_get_fails ?_
  rw [beq_self_eq_true]
  rw [lookupOps, if_neg (lt_irrefl _)] at hf
  by_cases hi : s.blocks < sfsNdirect
  · -- a direct block
    rw [if_pos hi, needed, if_neg (by omega)] at hf
    have h0 : s.direct s.blocks = 0 := by
      have := hw.rest s.blocks le_rfl hlt (.inl hi)
      rwa [map, if_pos hi] at this
    have hfail : s.unusedBlocks = 0 ∨ err s.ops ≠ 0 := by
      rcases hf with hf | ⟨k, hk, hek⟩
      · exact .inl (by omega)
      · obtain rfl : k = 0 := by omega
        exact .inr hek
    obtain ⟨u, r, b, halloc, hr⟩ := blockAlloc_fails hw.freeOk hfail
    intro t ino
    rw [bmapGetNolock, if_pos hi, if_pos ⟨h0, rfl⟩, halloc]
    simp [hr]
  · rw [if_neg hi] at hf
    have h12 : sfsNdirect ≤ s.blocks := by omega
    have hj : s.blocks - sfsNdirect < sfsBlkNentry := by unfold mapSize at hlt; omega
    refine bmapGetNolock_sub_fails h12 hlt fun t e ino => ?_
    by_cases hind : s.indirect = 0
    · -- the block of numbers is made first
      rw [needed, if_pos ⟨hind, by omega⟩] at hf
      rw [bmapGetSubNolock, if_pos hj, if_neg (not_not.2 hind), if_neg (by simp)]
      by_cases ha : s.unusedBlocks = 0 ∨ err s.ops ≠ 0
      · obtain ⟨u, r, b, halloc, hr⟩ := blockAlloc_fails hw.freeOk ha
        rw [halloc]
        simp [hr]
      · rw [not_or, not_not] at ha
        obtain ⟨ent, hent, halloc⟩ := blockAlloc_ok hw.freeOk (by omega) ha.2
        rw [halloc, Option.bind_some]
        simp only [ne_eq, not_true_eq_false, if_false]
        refine bmapGetSubCreate_fails (hw.freeOk.taken hent) ?_ t e ino
        rcases hf with hf | ⟨k, hk, hek⟩
        · left
          change s.unusedBlocks - 1 = 0
          omega
        · right
          have hk0 : k ≠ 0 := by
            rintro rfl
            exact hek ha.2
          refine ⟨k - 1, by omega, ?_⟩
          change err (s.ops + 1 + (k - 1)) ≠ 0
          rwa [show s.ops + 1 + (k - 1) = s.ops + k by omega]
    · rw [needed, if_neg fun h => hind h.1] at hf
      have h0 := hw.rest s.blocks le_rfl hlt (.inr hind)
      rw [map_ge h12] at h0
      unfold entryOf at h0
      rw [bmapGetSubNolock, if_pos hj, if_pos hind, sfsRbuf_entry (hw.indirect hind).1 hj,
        Option.bind_some]
      by_cases he : err s.ops = 0
      · simp only [he, h0, ne_eq, not_true_eq_false, false_or, if_false, Bool.true_eq_false]
        refine @bmapGetSubCreate_fails err { s with ops := s.ops + 1 } _ _ _
          ⟨hw.bound, hw.unused, hw.free⟩ ?_ t e ino
        rcases hf with hf | ⟨k, hk, hek⟩
        · left
          change s.unusedBlocks = 0
          omega
        · right
          have hk0 : k ≠ 0 := by
            rintro rfl
            exact hek he
          refine ⟨k - 1, by omega, ?_⟩
          change err (s.ops + 1 + (k - 1)) ≠ 0
          rwa [show s.ops + 1 + (k - 1) = s.ops + k by omega]
      · simp [he]

end Create

/-! ## Any block -/

/-- What a lookup of block `i` takes: it is there or the next one, the file can have it, there is
space for it, and no operation fails. -/
structure CanLook (err : ℕ → ℤ) (s : Sfs) (i : ℕ) : Prop where
  next : i ≤ s.blocks
  small : i < mapSize
  space : needed s (i + 1) ≤ s.unusedBlocks
  device : ∀ k < lookupOps s i, err (s.ops + k) = 0

/-- The state after a lookup of block `i`. -/
structure Looked (s t : Sfs) (i : ℕ) : Prop where
  wf : Wf t
  blocks : t.blocks = max s.blocks (i + 1)
  size : t.size = s.size
  mem : t.mem = s.mem
  map : ∀ j < s.blocks, t.map j = s.map j
  fresh : s.blocks ≤ i → s.freemap[t.map i]? = some true
  free : ∀ c : ℕ, t.freemap[c]? = some true → s.freemap[c]? = some true
  indirect : t.indirect = 0 ↔ s.indirect = 0 ∧ t.blocks ≤ sfsNdirect
  kept : s.indirect ≠ 0 → t.indirect = s.indirect
  present : i < s.blocks → t.disk = s.disk ∧ t.indirect = s.indirect
  disk : ∀ c, (t.indirect ≠ 0 → c ≠ t.indirect) → (s.blocks ≤ i → c ≠ t.map i) →
    t.disk c = s.disk c
  unused : t.unusedBlocks + needed s t.blocks = s.unusedBlocks
  ops : t.ops = s.ops + lookupOps s i

theorem Wf.indirect_iff (hw : Wf s) : s.indirect = 0 ↔ s.indirect = 0 ∧ s.blocks ≤ sfsNdirect :=
  ⟨fun h => ⟨h, not_lt.1 fun hlt => hw.present hlt h⟩, fun h => h.1⟩

theorem Wf.needed_le (hw : Wf s) {k : ℕ} (hk : k ≤ s.blocks) : needed s k = 0 := by
  rw [needed, if_neg fun h => hw.present (h.2.trans_le hk) h.1]
  omega

theorem Grown.looked {b : ℕ} (h : Grown s t b) (hw : Wf s) (hlt : s.blocks < mapSize) :
    Looked s t s.blocks where
  wf := h.wf hw hlt
  blocks := by
    rw [h.blocks]
    omega
  size := h.size
  mem := h.mem
  map := h.map
  fresh _ := h.new ▸ h.fresh
  free := h.free
  indirect := by
    rw [h.blocks]
    rcases h.indirect with ⟨he, hne⟩ | ⟨h0, h12, -, -, huse⟩
    · rw [he]
      exact ⟨fun h0 => ⟨h0, by by_contra hn; exact hne (by omega) h0⟩, fun h0 => h0.1⟩
    · exact ⟨fun hn => absurd hn huse.1, fun hn => by omega⟩
  kept hne := h.indirect.elim (fun hi => hi.1) fun hi => absurd hi.1 hne
  present hlt := absurd hlt (lt_irrefl _)
  disk c hc hm := h.disk c hc (h.new ▸ hm le_rfl)
  unused := by
    rw [h.blocks]
    exact h.unused
  ops := h.ops

theorem lookup_ok (hw : Wf s) (hc : CanLook err s i) :
    ∃ t, s.lookup err i = some (t, t.map i) ∧ Looked s t i := by
  obtain ⟨hle, hlt, hn, he⟩ := hc
  rcases hle.lt_or_eq with hi | rfl
  · rw [lookup_present hw hi fun h12 => by
      have := he 0 (by rw [lookupOps, if_pos hi, if_neg (by omega)]; decide)
      exact this]
    refine ⟨_, rfl, ⟨⟨hw.file, hw.bound, hw.unused, hw.free, hw.blocks, hw.size, hw.inuse, hw.inj,
      hw.indirect, hw.present, hw.rest⟩, ?_, rfl, rfl, fun _ _ => rfl, fun h => by omega,
      fun _ h => h, hw.indirect_iff, fun _ => rfl, fun _ => ⟨rfl, rfl⟩, fun _ _ _ => rfl, ?_, rfl⟩⟩
    · change s.blocks = _
      omega
    · change s.unusedBlocks + needed s s.blocks = _
      rw [hw.needed_le le_rfl, Nat.add_zero]
  · have hgrown : ∃ t b, s.lookup err s.blocks = some (t, b) ∧ Grown s t b := by
      rw [lookupOps, if_neg (lt_irrefl _)] at he
      by_cases h12 : s.blocks < sfsNdirect
      · rw [if_pos h12] at he
        rw [needed, if_neg (by omega)] at hn
        exact create_direct hw h12 (by omega) (he 0 (by decide))
      · rw [if_neg h12] at he
        by_cases hind : s.indirect = 0
        · have h12' := (hw.indirect_iff.1 hind).2
          rw [needed, if_pos ⟨hind, by omega⟩] at hn
          exact create_new hw (by omega) hind (by omega) he
        · rw [needed, if_neg fun h => hind h.1] at hn
          exact create_sub hw (by omega) hlt hind (by omega) he
    obtain ⟨t, b, hlook, hg⟩ := hgrown
    exact ⟨t, hg.new ▸ hlook, hg.looked hw hlt⟩

theorem lookup_none (hw : Wf s) (hc : ¬ CanLook err s i) : s.lookup err i = none := by
  rcases lt_trichotomy i s.blocks with hi | rfl | hi
  · have hop : ∃ k < lookupOps s i, err (s.ops + k) ≠ 0 := by
      by_contra hn
      push Not at hn
      exact hc ⟨hi.le, hi.trans_le hw.blocks, by rw [hw.needed_le hi]; exact Nat.zero_le _, hn⟩
    obtain ⟨k, hk, hek⟩ := hop
    rw [lookupOps, if_pos hi] at hk
    split_ifs at hk with h12
    · omega
    · obtain rfl : k = 0 := by omega
      exact lookup_present_fails hw hi (by omega) hek
  · by_cases hlt : s.blocks < mapSize
    · refine create_fails hw hlt ?_
      by_contra hn
      rw [not_or] at hn
      push Not at hn
      exact hc ⟨le_rfl, hlt, hn.1, hn.2⟩
    · refine lookup_of_get_fails fun t ino => ?_
      unfold mapSize at hlt
      rw [bmapGetNolock, if_neg (by omega), if_neg (by omega)]
      simp
  · exact lookup_beyond hi

end Sfs

end Ucore

end CacheCPU
