import CacheCPU.Proofs.SfsParts

/-!
# Writing a range

A write grows the file by at most one block with each part, so its parts come to the end of the file
one after the other. What it has stored and what it has left alone is an invariant of the parts
(`WroteTo`). If the whole blocks do not lie one after the other on the disk, there is a memory with
which a byte in one of them is not stored.
-/

namespace CacheCPU

namespace Ucore

namespace Sfs

open Patch

variable {err : ℕ → ℤ} {s t u : Sfs} {buf : BitVec 32} {o e m c i : ℕ}

/-! ## Another disk -/

/-- The state with another disk, after some operations. -/
def withDisk (t : Sfs) (disk : ℕ → SfsBlock) (n : ℕ) : Sfs := { t with disk := disk, ops := n }

section WithDisk

variable {disk : ℕ → SfsBlock} {n : ℕ} (hind : disk t.indirect = t.disk t.indirect)
include hind

theorem map_withDisk (j : ℕ) : (t.withDisk disk n).map j = t.map j := by
  unfold map
  split_ifs
  · rfl
  · exact congrArg (entryOf · _) hind

theorem Wf.withDisk (hw : Wf t) : Wf (t.withDisk disk n) where
  file := hw.file
  bound := hw.bound
  unused := hw.unused
  free := hw.free
  blocks := hw.blocks
  size := hw.size
  inuse j hj := by
    rw [map_withDisk hind]
    exact hw.inuse j hj
  inj j hj k hk he := by
    rw [map_withDisk hind, map_withDisk hind] at he
    exact hw.inj j hj k hk he
  indirect h := by
    refine ⟨(hw.indirect h).1, fun j hj => ?_⟩
    rw [map_withDisk hind]
    exact (hw.indirect h).2 j hj
  present := hw.present
  rest j hj hm h := by
    rw [map_withDisk hind]
    exact hw.rest j hj hm h

end WithDisk

/-! ## What has been written -/

/-- The first `m` bytes of the range from `o` on have been written, in the blocks before `i`. -/
structure WroteTo (s t : Sfs) (buf : BitVec 32) (o m i c : ℕ) : Prop extends Reached s t i c where
  mem : t.mem = s.mem
  reach : 0 < m → o + m ≤ t.blocks * sfsBlksize
  stored : ∀ k < m, t.content (o + k) = s.mem (buf + BitVec.ofNat 32 k)
  content : ∀ p < s.blocks * sfsBlksize, p < o ∨ o + m ≤ p → t.content p = s.content p
  disk : ∀ d, (∀ j, o / sfsBlksize ≤ j → j < i → t.map j ≠ d) →
    (s.blocks < t.blocks → t.indirect ≠ 0 → d ≠ t.indirect) → t.disk d = s.disk d

theorem Looked.content (hl : Looked t u i) {p : ℕ} (hp : p < t.blocks * sfsBlksize) :
    u.content p = t.content p := by
  have hj : p / sfsBlksize < t.blocks := Nat.div_lt_of_lt_mul (by rwa [Nat.mul_comm])
  have hju : p / sfsBlksize < u.blocks := by
    rw [hl.blocks]
    omega
  have hm := hl.map _ hj
  unfold Sfs.content
  rw [hm, hl.disk]
  · intro _ he
    exact hl.wf.map_ne_indirect hju (hm.trans he)
  · intro hi he
    rw [← hm] at he
    have := hl.wf.inj _ hju _ (by rw [hl.blocks]; omega) he
    omega

namespace WroteTo

variable (h : WroteTo s t buf o m i c)
include h

/-- A lookup moves nothing. -/
theorem look (hw : Wf s) (hi : o / sfsBlksize ≤ i) (hit : i ≤ t.blocks) (hl : Looked t u i) :
    WroteTo s u buf o m (i + 1) (c + lookupOps s i) := by
  have hub := hl.blocks
  have htb := h.blocks
  refine ⟨h.toReached.look hw hl, hl.mem.trans h.mem, fun hm => ?_, fun k hk => ?_,
    fun p hp hout => ?_, fun d hd hdi => ?_⟩
  · have := h.reach hm
    have : t.blocks * sfsBlksize ≤ u.blocks * sfsBlksize := Nat.mul_le_mul_right _ (by omega)
    omega
  · rw [hl.content (by have := h.reach (by omega); omega), h.stored k hk]
  · have : s.blocks * sfsBlksize ≤ t.blocks * sfsBlksize := Nat.mul_le_mul_right _ (by omega)
    rw [hl.content (by omega), h.content p hp hout]
  · have hdu : u.disk d = t.disk d := by
      by_cases hlt : i < t.blocks
      · rw [(hl.present hlt).1]
      · exact hl.disk d (hdi (by omega)) fun _ => (hd i hi (by omega)).symm
    rw [hdu]
    refine h.disk d (fun j hj hji => ?_) fun hlt hne => ?_
    · rw [← hl.map j (by omega)]
      exact hd j hj (by omega)
    · rw [← hl.kept hne]
      exact hdi (by omega) (by rwa [hl.kept hne])

theorem mono {j : ℕ} (hij : i ≤ j) (hj : j ≤ t.blocks) : WroteTo s t buf o m j c :=
  { h with
    toReached := h.toReached.mono hij hj
    disk := fun d hd => h.disk d fun k hk hki => hd k hk (by omega) }

/-- A transfer to the `n` blocks before `i`, of which the bytes outside the range stay. -/
theorem transfer {len n w : ℕ} {disk : ℕ → SfsBlock} (hi : i ≤ t.blocks)
    (hfirst : o / sfsBlksize ≤ i - n) (hstart : (i - n) * sfsBlksize ≤ o + m)
    (hend : o + (m + len) ≤ i * sfsBlksize)
    (hout : ∀ d, (∀ j, i - n ≤ j → j < i → t.map j ≠ d) → disk d = t.disk d)
    (hin : ∀ j, i - n ≤ j → j < i → ∀ q < sfsBlksize, disk (t.map j) (BitVec.ofNat 12 q) =
      if o + m ≤ j * sfsBlksize + q ∧ j * sfsBlksize + q < o + (m + len) then
        s.mem (buf + BitVec.ofNat 32 (j * sfsBlksize + q - o))
      else t.content (j * sfsBlksize + q)) :
    WroteTo s (t.withDisk disk (t.ops + w)) buf o (m + len) i (c + w) := by
  have hind : disk t.indirect = t.disk t.indirect :=
    hout _ fun j _ hj => h.wf.map_ne_indirect (by omega)
  have hmap : ∀ j, (t.withDisk disk (t.ops + w)).map j = t.map j := map_withDisk hind
  have hbyte : ∀ p < t.blocks * sfsBlksize, (t.withDisk disk (t.ops + w)).content p =
      if o + m ≤ p ∧ p < o + (m + len) then s.mem (buf + BitVec.ofNat 32 (p - o))
      else t.content p := by
    intro p hp
    have hdm := Nat.div_add_mod' p sfsBlksize
    have hq : p % sfsBlksize < sfsBlksize := Nat.mod_lt _ (by decide)
    have hj : p / sfsBlksize < t.blocks := Nat.div_lt_of_lt_mul (by rwa [Nat.mul_comm])
    unfold Sfs.content
    rw [hmap]
    change disk _ _ = _
    by_cases hr : i - n ≤ p / sfsBlksize ∧ p / sfsBlksize < i
    · rw [hin _ hr.1 hr.2 _ hq, hdm]
      rfl
    · rw [hout _ fun k hk hki he => hr (h.wf.inj k (by omega) _ hj he ▸ ⟨hk, hki⟩), if_neg]
      unfold sfsBlksize at *
      omega
  have hreach := h.reach
  have hsb : s.blocks * sfsBlksize ≤ t.blocks * sfsBlksize :=
    Nat.mul_le_mul_right _ (by rw [h.blocks]; omega)
  have hib : i * sfsBlksize ≤ t.blocks * sfsBlksize := Nat.mul_le_mul_right _ hi
  refine ⟨h.toReached.transfer (Wf.withDisk hind h.wf) rfl fun j _ => hmap j, h.mem,
    fun _ => ?_, fun k hk => ?_, fun p hp hpo => ?_, fun d hd hdi => ?_⟩
  · exact hend.trans hib
  · rw [hbyte _ (by omega)]
    by_cases hkm : k < m
    · rw [if_neg (by omega), h.stored k hkm]
    · rw [if_pos (by omega), Nat.add_sub_cancel_left]
  · rw [hbyte _ (by omega), if_neg (by omega), h.content p hp (by omega)]
  · change disk d = _
    rw [hout d fun j hj hji => hmap j ▸ hd j (by omega) hji]
    exact h.disk d (fun j hj hji => hmap j ▸ hd j hj hji) hdi

/-- The end or the beginning of a block. -/
theorem bufPart {off len : ℕ} (hw : Wf s) (hc : CanPart err s c i (bufOps true))
    (hfirst : o / sfsBlksize ≤ i) (hm : o + m = i * sfsBlksize + off) (hoff : off < sfsBlksize)
    (hlen : off + len ≤ sfsBlksize) :
    ∃ u, t.asserted err i (fun s ino =>
        s.sfsBufOp err true (buf + BitVec.ofNat 32 m) len ino off) = some u ∧
      WroteTo s u buf o (m + len) (i + 1) (c + (lookupOps s i + bufOps true)) := by
  obtain ⟨hlook, hdev⟩ := (h.toReached.canPart_iff hw).1 hc
  obtain ⟨u, hu, hl⟩ := lookup_ok h.wf hlook
  have hwu := h.look hw hfirst hlook.next hl
  have hiu : i < u.blocks := by
    rw [hl.blocks]
    omega
  have h0 : err u.ops = 0 := by
    rw [hl.ops]
    exact hdev 0 (by decide)
  have h1 : err (u.ops + 1) = 0 := by
    rw [hl.ops, Nat.add_assoc]
    exact hdev 1 (by decide)
  have hdata : (fun k => u.mem (buf + BitVec.ofNat 32 m + BitVec.ofNat 32 k)) =
      fun k => s.mem (buf + BitVec.ofNat 32 (m + k)) := by
    funext k
    rw [hwu.mem, BitVec.add_assoc, ← BitVec.ofNat_add]
  rw [asserted_eq, hu, Option.bind_some]
  simp only [sfsBufOp, if_true]
  rw [sfsWbuf_eq hoff hlen (hl.wf.inuse i hiu).reach h0 h1, hdata]
  refine ⟨_, rfl, ?_⟩
  rw [← Nat.add_assoc]
  have hnext : (i + 1) * sfsBlksize = i * sfsBlksize + sfsBlksize := Nat.succ_mul _ _
  have hB : sfsBlksize = 4096 := rfl
  refine hwu.transfer (n := 1) hiu (by omega) (by rw [Nat.add_sub_cancel]; omega) (by omega)
    (fun d hd => ?_) fun j hj hji q hq => ?_
  · exact Function.update_of_ne (hd i (by omega) (by omega)).symm _ _
  · obtain rfl : j = i := by omega
    rw [Function.update_self, patch_ofNat (by omega) (by omega), content_eq hq]
    have hiff : off ≤ q ∧ q < off + len ↔
        o + m ≤ j * sfsBlksize + q ∧ j * sfsBlksize + q < o + (m + len) := by omega
    simp only [hiff]
    split_ifs with hq
    · congr 3
      omega
    · rfl

/-- The whole blocks, from the place of the first one on. -/
theorem wholePart_eq {n : ℕ} (hw : Wf s) (hc : CanPart err s c i n) (hfirst : o / sfsBlksize ≤ i) :
    ∃ u, WroteTo s u buf o m (i + 1) (c + lookupOps s i) ∧ u.blocks = max t.blocks (i + 1) ∧
      (∀ k < n, err (u.ops + k) = 0) ∧
      ∀ w, t.asserted err i (fun s ino =>
          s.sfsBlockOp err true (buf + BitVec.ofNat 32 m) ino n) = some w ↔
        CanRun err u (u.map i) n ∧ w = u.withDisk (runDisk u.disk
          (fun k => s.mem (buf + BitVec.ofNat 32 (m + k))) (u.map i) n) (u.ops + n) := by
  obtain ⟨hlook, hdev⟩ := (h.toReached.canPart_iff hw).1 hc
  obtain ⟨u, hu, hl⟩ := lookup_ok h.wf hlook
  have hwu := h.look hw hfirst hlook.next hl
  refine ⟨u, hwu, hl.blocks, fun k hk => ?_, fun w => ?_⟩
  · rw [hl.ops, Nat.add_assoc]
    exact hdev k hk
  · by_cases hcan : CanRun err u (u.map i) n
    · have hdata : (fun k => u.mem (buf + BitVec.ofNat 32 m + BitVec.ofNat 32 k)) =
          fun k => s.mem (buf + BitVec.ofNat 32 (m + k)) := by
        funext k
        rw [hwu.mem, BitVec.add_assoc, ← BitVec.ofNat_add]
      rw [asserted_eq, hu, Option.bind_some]
      simp only [sfsBlockOp, if_true]
      rw [sfsWblock_ok hcan, hdata]
      simp only [Option.bind_some, if_true, Option.some.injEq, and_iff_right hcan]
      exact eq_comm
    · rw [asserted_none_of_fails fun v b hv => ?_]
      · simp [hcan]
      · obtain ⟨rfl, rfl⟩ := Prod.mk.inj (Option.some.inj (hu.symm.trans hv))
        simp only [sfsBlockOp, if_true]
        exact sfsWblock_fails hcan

/-- The whole blocks, if there is one or they lie one after the other. -/
theorem wholePart {n : ℕ} (hw : Wf s) (hc : CanPart err s c i n) (hn : 0 < n)
    (hfirst : o / sfsBlksize ≤ i) (hm : o + m = i * sfsBlksize)
    (hrun : 2 ≤ n → i + n ≤ s.blocks ∧ ∀ j < n, s.map (i + j) = s.map i + j) :
    ∃ u, t.asserted err i (fun s ino =>
        s.sfsBlockOp err true (buf + BitVec.ofNat 32 m) ino n) = some u ∧
      WroteTo s u buf o (m + n * sfsBlksize) (i + n) (c + (lookupOps s i + n)) := by
  obtain ⟨u, hwu, hub, hdev, heq⟩ := h.wholePart_eq hw hc hfirst
  have htb := h.blocks
  have hend : i + n ≤ u.blocks := by
    by_cases h2 : 2 ≤ n
    · have := (hrun h2).1
      omega
    · omega
  have hplace : ∀ j < n, u.map (i + j) = u.map i + j := by
    intro j hj
    by_cases h2 : 2 ≤ n
    · have hs := hrun h2
      rw [hwu.map _ (by omega), hwu.map _ (by omega), hs.2 j hj]
    · obtain rfl : j = 0 := by omega
      rfl
  have hcan : CanRun err u (u.map i) n := fun k hk =>
    ⟨hplace k hk ▸ (hwu.wf.inuse _ (by omega)).reach, hdev k hk⟩
  have hwn := hwu.mono (by omega : i + 1 ≤ i + n) hend
  refine ⟨_, (heq _).2 ⟨hcan, rfl⟩, ?_⟩
  rw [← Nat.add_assoc]
  have hadd : (i + n) * sfsBlksize = i * sfsBlksize + n * sfsBlksize := Nat.add_mul _ _ _
  refine hwn.transfer (n := n) hend (by omega) (by rw [Nat.add_sub_cancel]; omega) (by omega)
    (fun d hd => ?_) fun j hj hji q hq => ?_
  · refine if_neg fun hr => hd (i + (d - u.map i)) (by omega) (by omega) ?_
    rw [hplace _ (by omega)]
    omega
  · rw [Nat.add_sub_cancel] at hj
    obtain ⟨k, rfl⟩ := Nat.exists_eq_add_of_le hj
    have hk : k < n := by omega
    have hkn : (k + 1) * sfsBlksize ≤ n * sfsBlksize := Nat.mul_le_mul_right _ hk
    have hadd' : (i + k) * sfsBlksize = i * sfsBlksize + k * sfsBlksize := Nat.add_mul _ _ _
    rw [Nat.succ_mul] at hkn
    have hq12 : (BitVec.ofNat 12 q).toNat = q := by
      rw [BitVec.toNat_ofNat]
      exact Nat.mod_eq_of_lt hq
    rw [runDisk, hplace k hk, if_pos (by omega), if_pos (by omega), Nat.add_sub_cancel_left, hq12]
    congr 3
    omega

end WroteTo

theorem Wf.wroteTo (hw : Wf s) (hnext : o / sfsBlksize ≤ s.blocks) :
    WroteTo s s buf o 0 (o / sfsBlksize) 0 where
  toReached := hw.reached hnext
  mem := rfl
  reach h := absurd h (by omega)
  stored k hk := absurd hk (by omega)
  content _ _ _ := rfl
  disk _ _ _ := rfl

/-! ## What a lookup leaves -/

section Spared

variable {d : ℕ}

/-- Block `d` is as before, and not free if it was not. -/
def Spared (d : ℕ) (s t : Sfs) : Prop :=
  t.disk d = s.disk d ∧ (t.freemap[d]? = some true → s.freemap[d]? = some true)

theorem Spared.trans (h : Spared d s t) (h' : Spared d t u) : Spared d s u :=
  ⟨h'.1.trans h.1, fun hu => h.2 (h'.2 hu)⟩

theorem spared_rwblock {b : ℕ} {data : Option SfsBlock} {r : ℤ} {v : SfsBlock} (hb : d ≠ b)
    (h : s.rwblockNolock err b data = some (t, r, v)) : Spared d s t := by
  by_cases hg : b ≠ 0 ∧ b < s.superBlocks
  · by_cases he : err s.ops = 0
    · cases data with
      | none =>
        rw [rwblockNolock_read hg] at h
        simp only [Option.some.injEq, Prod.mk.injEq] at h
        obtain ⟨rfl, -, -⟩ := h
        exact ⟨rfl, id⟩
      | some w =>
        rw [rwblockNolock_write hg w he] at h
        simp only [Option.some.injEq, Prod.mk.injEq] at h
        obtain ⟨rfl, -, -⟩ := h
        exact ⟨Function.update_of_ne hb _ _, id⟩
    · rw [rwblockNolock_fail hg data he] at h
      simp only [Option.some.injEq, Prod.mk.injEq] at h
      obtain ⟨rfl, -, -⟩ := h
      exact ⟨rfl, id⟩
  · unfold rwblockNolock at h
    rw [if_neg hg] at h
    cases h

theorem spared_wbuf {b len off : ℕ} {data : ℕ → BitVec 8} {r : ℤ} (hb : d ≠ b)
    (h : s.sfsWbuf err data len b off = some (t, r)) : Spared d s t := by
  unfold sfsWbuf at h
  split_ifs at h
  obtain ⟨⟨u, q, v⟩, hu, h⟩ := Option.bind_eq_some_iff.1 h
  have hsu := spared_rwblock hb hu
  simp only [] at h
  split_ifs at h
  · obtain ⟨⟨w, q', v'⟩, hw, h⟩ := Option.map_eq_some_iff.1 h
    obtain ⟨rfl, -⟩ := Prod.mk.inj h
    exact hsu.trans (spared_rwblock hb hw)
  · obtain ⟨rfl, -⟩ := Prod.mk.inj (Option.some.inj h)
    exact hsu

theorem spared_rbuf {b len off : ℕ} {r : ℤ} {f : ℕ → BitVec 8}
    (h : s.sfsRbuf err len b off = some (t, r, f)) : Spared d s t := by
  unfold sfsRbuf at h
  split_ifs at h
  obtain ⟨⟨u, q, v⟩, hu, h⟩ := Option.map_eq_some_iff.1 h
  simp only [Prod.mk.injEq] at h
  obtain ⟨rfl, -, -⟩ := h
  by_cases hg : b ≠ 0 ∧ b < s.superBlocks
  · rw [rwblockNolock_read hg] at hu
    simp only [Option.some.injEq, Prod.mk.injEq] at hu
    obtain ⟨rfl, -, -⟩ := hu
    exact ⟨rfl, id⟩
  · rw [rwblockNolock, if_neg hg] at hu
    cases hu

theorem spared_alloc {r : ℤ} {ino : ℕ} (hd : s.freemap[d]? ≠ some true)
    (h : s.blockAlloc err = some (t, r, ino)) : Spared d s t ∧ (r = 0 → d ≠ ino) := by
  unfold blockAlloc at h
  rcases hb : s.bitmapAlloc with _ | b
  · rw [hb] at h
    simp only [Option.some.injEq, Prod.mk.injEq] at h
    obtain ⟨rfl, rfl, -⟩ := h
    exact ⟨⟨rfl, id⟩, fun h => absurd h (by decide)⟩
  · have hfree := bitmapAlloc_some hb
    have hne : d ≠ b := fun he => hd (he ▸ hfree)
    rw [hb] at h
    simp only [] at h
    split_ifs at h
    unfold sfsClearBlock at h
    simp only [Option.map_map] at h
    obtain ⟨⟨u, q, v⟩, hu, h⟩ := Option.map_eq_some_iff.1 h
    simp only [Function.comp, Prod.mk.injEq] at h
    obtain ⟨rfl, -, rfl⟩ := h
    have hsu := spared_rwblock hne hu
    refine ⟨⟨hsu.1, fun hf => ?_⟩, fun _ => hne⟩
    have := hsu.2 hf
    rwa [List.getElem?_set_ne hne.symm] at this

/-- The block that is made, for an entry of block `ent`. -/
theorem spared_create {entp ent j e ino : ℕ} (hd : s.freemap[d]? ≠ some true) (hent : d ≠ ent)
    (h : s.bmapGetSubCreate err entp ent j = some (t, 0, e, ino)) : Spared d s t := by
  unfold bmapGetSubCreate at h
  obtain ⟨⟨u, r, b⟩, hu, h⟩ := Option.bind_eq_some_iff.1 h
  obtain ⟨hsu, -⟩ := spared_alloc hd hu
  by_cases hr : r = 0
  · simp only [hr, ne_eq, not_true_eq_false, if_false] at h
    obtain ⟨⟨v, q⟩, hv, h⟩ := Option.bind_eq_some_iff.1 h
    by_cases hq : q = 0
    · simp only [hq, not_true_eq_false, if_false, Option.some.injEq, Prod.mk.injEq] at h
      obtain ⟨rfl, -, -, -⟩ := h
      exact hsu.trans (spared_wbuf hent hv)
    · simp only [hq, not_false_eq_true, if_true] at h
      obtain ⟨w, -, hw⟩ := Option.bind_eq_some_iff.1 h
      exact absurd hw (bmapCleanup_ret hq _ _ _)
  · simp only [ne_eq, hr, not_false_eq_true, if_true] at h
    exact absurd h (bmapCleanup_ret hr _ _ _)

theorem spared_getSub {entp j e ino : ℕ} {create : Bool} (hd : s.freemap[d]? ≠ some true)
    (hent : d ≠ entp) (h : s.bmapGetSubNolock err entp j create = some (t, 0, e, ino)) :
    Spared d s t := by
  unfold bmapGetSubNolock at h
  by_cases hj : j < sfsBlkNentry
  · rw [if_pos hj] at h
    by_cases h0 : entp ≠ 0
    · rw [if_pos h0] at h
      obtain ⟨⟨u, r, f⟩, hu, h⟩ := Option.bind_eq_some_iff.1 h
      have hsu := spared_rbuf (d := d) hu
      simp only [] at h
      split_ifs at h with hr hc
      · simp only [Option.some.injEq, Prod.mk.injEq] at h
        exact absurd h.2.1 hr
      · simp only [Option.some.injEq, Prod.mk.injEq] at h
        obtain ⟨rfl, -⟩ := h
        exact hsu
      · exact hsu.trans (spared_create (fun hf => hd (hsu.2 hf)) hent h)
    · rw [if_neg h0] at h
      split_ifs at h with hc
      · simp only [Option.some.injEq, Prod.mk.injEq] at h
        obtain ⟨rfl, -⟩ := h
        exact ⟨rfl, id⟩
      · obtain ⟨⟨u, r, b⟩, hu, h⟩ := Option.bind_eq_some_iff.1 h
        obtain ⟨hsu, hb⟩ := spared_alloc hd hu
        simp only [] at h
        split_ifs at h with hr
        · simp only [Option.some.injEq, Prod.mk.injEq] at h
          exact absurd h.2.1 hr
        · exact hsu.trans (spared_create (fun hf => hd (hsu.2 hf)) (hb (not_not.1 hr)) h)
  · rw [if_neg hj] at h
    cases h

theorem bmapOut_eq {ino ino' : ℕ} {r : ℤ} (h : s.bmapOut ino = some (t, r, ino')) : t = s := by
  unfold bmapOut at h
  split_ifs at h
  simp only [Option.some.injEq, Prod.mk.injEq] at h
  exact h.1.symm

theorem spared_get {ino : ℕ} {create : Bool} (hd : s.freemap[d]? ≠ some true)
    (hind : d ≠ s.indirect) (h : s.bmapGetNolock err i create = some (t, 0, ino)) :
    t.disk d = s.disk d := by
  unfold bmapGetNolock at h
  split_ifs at h
  · obtain ⟨⟨u, r, b⟩, hu, h⟩ := Option.bind_eq_some_iff.1 h
    obtain ⟨hsu, -⟩ := spared_alloc hd hu
    simp only [] at h
    split_ifs at h with hr
    · simp only [Option.some.injEq, Prod.mk.injEq] at h
      exact absurd h.2.1 hr
    · rw [bmapOut_eq h]
      exact hsu.1
  · rw [bmapOut_eq h]
  · obtain ⟨⟨u, r, ent, b⟩, hu, h⟩ := Option.bind_eq_some_iff.1 h
    simp only [] at h
    split_ifs at h with hr
    · simp only [Option.some.injEq, Prod.mk.injEq] at h
      exact absurd h.2.1 hr
    all_goals
      rw [bmapOut_eq h]
      rw [not_not.1 hr] at hu
      exact (spared_getSub hd hind hu).1

/-- A lookup leaves a block that is not free and not the block of numbers. -/
theorem spared_lookup {ino : ℕ} (hd : s.freemap[d]? ≠ some true) (hind : d ≠ s.indirect)
    (h : s.lookup err i = some (t, ino)) : t.disk d = s.disk d := by
  obtain ⟨⟨u, r, b⟩, hload, h⟩ := Option.bind_eq_some_iff.1 h
  simp only [] at h
  split_ifs at h with hr
  obtain ⟨rfl, -⟩ := Prod.mk.inj (Option.some.inj h)
  unfold bmapLoadNolock at hload
  by_cases hi : i ≤ s.blocks
  · rw [if_pos hi] at hload
    obtain ⟨⟨v, q, b'⟩, hget, hload⟩ := Option.bind_eq_some_iff.1 hload
    simp only [] at hload
    split_ifs at hload with hq
    · simp only [Option.some.injEq, Prod.mk.injEq] at hload
      exact absurd (hload.2.1.trans hr) hq
    all_goals
      rw [not_not.1 hq] at hget
      have hv := spared_get hd hind hget
      simp only [Option.some.injEq, Prod.mk.injEq] at hload
      rw [← hload.1]
      exact hv
  · rw [if_neg hi] at hload
    cases hload

/-- The beginning of a block without its last byte. -/
theorem last_wbuf {data : ℕ → BitVec 8} {len b : ℕ} (hlen : len < sfsBlksize)
    (h : s.sfsWbuf err data len b 0 = some (t, 0)) : t.disk d 4095#12 = s.disk d 4095#12 := by
  by_cases hdb : d = b
  · subst hdb
    have hB : sfsBlksize = 4096 := rfl
    by_cases hg : d ≠ 0 ∧ d < s.superBlocks
    · by_cases h0 : err s.ops = 0
      · by_cases h1 : err (s.ops + 1) = 0
        · rw [sfsWbuf_eq (by decide) (by omega) hg h0 h1] at h
          obtain ⟨rfl, -⟩ := Prod.mk.inj (Option.some.inj h)
          have hp := @patch_ofNat 12 _ (s.disk d) data len 0 4095 (by omega) (by omega)
          rw [if_neg (by omega)] at hp
          simp only [Function.update_self]
          exact hp
        · exact absurd h (sfsWbuf_fails (.inr h1) t)
      · exact absurd h (sfsWbuf_fails (.inl h0) t)
    · unfold sfsWbuf rwblockNolock at h
      rw [if_pos (by omega), if_neg hg] at h
      cases h
  · rw [(spared_wbuf hdb h).1]

theorem last_bufPart {len : ℕ} (hlen : len < sfsBlksize) (hd : s.freemap[d]? ≠ some true)
    (hind : d ≠ s.indirect)
    (h : s.asserted err i (fun s ino => s.sfsBufOp err true buf len ino 0) = some t) :
    t.disk d 4095#12 = s.disk d 4095#12 := by
  rw [asserted_eq] at h
  obtain ⟨⟨u, b⟩, hu, h⟩ := Option.bind_eq_some_iff.1 h
  obtain ⟨⟨v, r⟩, hv, h⟩ := Option.bind_eq_some_iff.1 h
  simp only [sfsBufOp, if_true] at hv
  simp only [] at h
  split_ifs at h with hr
  obtain rfl := Option.some.inj h
  rw [hr] at hv
  rw [last_wbuf hlen hv, spared_lookup hd hind hu]

end Spared

/-! ## The three parts -/

section Parts

variable (h : o < e) (hw : Wf s)
include h hw

theorem ioHead_write (hnext : o / sfsBlksize ≤ s.blocks)
    (hc : 0 < o % sfsBlksize → CanPart err s 0 (o / sfsBlksize) (bufOps true)) :
    ∃ t, s.ioHead err true buf o e = some t ∧
      WroteTo s t buf o (headLen o e) (wholeFirst o) (headOps s true o) := by
  have hstart := @Wf.wroteTo s buf o hw hnext
  unfold ioHead headOps
  by_cases hr : 0 < o % sfsBlksize
  · obtain ⟨hfit, hfirst, -⟩ := head_end h hr
    have hlt : o % sfsBlksize < sfsBlksize := Nat.mod_lt _ (by decide)
    have hdm := Nat.div_add_mod' o sfsBlksize
    obtain ⟨t, ht, hwt⟩ := hstart.bufPart hw (hc hr) le_rfl (by omega) hlt hfit
    rw [Nat.zero_add, Nat.zero_add] at hwt
    rw [BitVec.add_zero] at ht
    rw [hfirst, if_pos hr, if_pos hr]
    refine ⟨t, ?_, hwt⟩
    rw [← ht]
    simp only [headLen, if_pos hr]
  · have hlen : headLen o e = 0 := if_neg hr
    have hfirst : wholeFirst o = o / sfsBlksize := if_neg hr
    rw [if_neg hr, if_neg hr, hlen, hfirst]
    exact ⟨s, rfl, hstart⟩

theorem ioWhole_write (ht : WroteTo s t buf o (headLen o e) (wholeFirst o) (headOps s true o))
    (hc : 0 < wholeCount o e → CanPart err s (headOps s true o) (wholeFirst o) (wholeCount o e))
    (hrun : 2 ≤ wholeCount o e → wholeFirst o + wholeCount o e ≤ s.blocks ∧
      ∀ j < wholeCount o e, s.map (wholeFirst o + j) = s.map (wholeFirst o) + j) :
    ∃ u, t.ioWhole err true (buf + BitVec.ofNat 32 (headLen o e)) (wholeFirst o)
        (wholeCount o e) = some u ∧
      WroteTo s u buf o (headLen o e + wholeCount o e * sfsBlksize)
        (wholeFirst o + wholeCount o e) (headOps s true o + wholeOps s o e) := by
  unfold ioWhole wholeOps
  by_cases hn : 0 < wholeCount o e
  · rw [if_pos hn, if_pos hn]
    exact ht.wholePart hw (hc hn) hn (by unfold wholeFirst; split_ifs <;> omega)
      (whole_start h hn).1 hrun
  · rw [if_neg hn, if_neg hn, Nat.eq_zero_of_not_pos hn, Nat.zero_mul]
    exact ⟨t, rfl, ht⟩

theorem ioTail_write (ht : WroteTo s t buf o (headLen o e + wholeCount o e * sfsBlksize)
      (wholeFirst o + wholeCount o e) (headOps s true o + wholeOps s o e))
    (hc : 0 < tailLen o e →
      CanPart err s (headOps s true o + wholeOps s o e) (e / sfsBlksize) (bufOps true)) :
    ∃ u, t.ioTail err true (buf + BitVec.ofNat 32 (headLen o e + wholeCount o e * sfsBlksize)) o e =
        some u ∧
      WroteTo s u buf o (e - o) ((e - 1) / sfsBlksize + 1)
        (headOps s true o + wholeOps s o e + tailOps s true o e) := by
  have hsum := parts_length h
  unfold ioTail tailOps
  by_cases htail : 0 < tailLen o e
  · obtain ⟨hlen, hstart, hidx⟩ := tail_start h htail
    have hlt : e % sfsBlksize < sfsBlksize := Nat.mod_lt _ (by decide)
    have hlast : (e - 1) / sfsBlksize = e / sfsBlksize := by
      unfold sfsBlksize at *
      omega
    rw [if_pos htail, if_pos htail, hlast, ← hsum, hlen]
    rw [hidx] at ht
    exact ht.bufPart hw (hc htail) (Nat.div_le_div_right h.le) (by omega) (by decide) (by omega)
  · have hlast : (e - 1) / sfsBlksize + 1 = wholeFirst o + wholeCount o e := by
      unfold tailLen at htail
      unfold wholeFirst wholeCount
      unfold sfsBlksize at *
      split_ifs at * <;> omega
    rw [if_neg htail, if_neg htail, hlast, ← hsum, Nat.eq_zero_of_not_pos htail]
    exact ⟨t, rfl, ht⟩

theorem ioParts_write (hc : CanIo err s true o e) :
    ∃ u, s.ioParts err true buf o e = some (u, e - o) ∧
      WroteTo s u buf o (e - o) ((e - 1) / sfsBlksize + 1)
        (headOps s true o + wholeOps s o e + tailOps s true o e) := by
  obtain ⟨t, ht, hwt⟩ := @ioHead_write err s buf o e h hw hc.next hc.head
  obtain ⟨v, hv, hwv⟩ := ioWhole_write h hw hwt hc.whole hc.run
  obtain ⟨u, hu, hwu⟩ := ioTail_write h hw hwv hc.tail
  refine ⟨u, ?_, hwu⟩
  unfold ioParts
  rw [ht, Option.bind_some]
  simp only []
  rw [hv, Option.bind_some, hu, Option.map_some, parts_length h]

omit h hw in
theorem asserted_beyond {op : Sfs → ℕ → Option (Sfs × ℤ)} (hi : s.blocks < i) :
    s.asserted err i op = none := by
  rw [asserted_eq, lookup_beyond hi]
  rfl

variable {x : Sfs × ℕ} (hx : s.ioParts err true buf o e = some x)
include hx

omit hw in
/-- The first block is there or the next one. -/
theorem next_of_ioParts : o / sfsBlksize ≤ s.blocks := by
  by_contra hn
  have hsum := parts_length h
  unfold ioParts at hx
  by_cases hr : 0 < o % sfsBlksize
  · have hhead : s.ioHead err true buf o e = none := by
      unfold ioHead
      simp only [if_pos hr]
      exact asserted_beyond (not_le.1 hn)
    rw [hhead] at hx
    cases hx
  · have hhead : s.ioHead err true buf o e = some s := if_neg hr
    have hfirst : wholeFirst o = o / sfsBlksize := if_neg hr
    rw [hhead, Option.bind_some] at hx
    simp only [] at hx
    by_cases hc : 0 < wholeCount o e
    · rw [ioWhole, if_pos hc, hfirst, asserted_beyond (not_le.1 hn)] at hx
      cases hx
    · rw [ioWhole, if_neg hc, Option.bind_some] at hx
      have hlen : headLen o e = 0 := if_neg hr
      rw [Nat.eq_zero_of_not_pos hc, hlen] at hsum
      have ht : 0 < tailLen o e := by omega
      have hidx := (tail_start h ht).2.2
      rw [ioTail, if_pos ht, asserted_beyond (by omega)] at hx
      cases hx

theorem head_of_ioParts (hr : 0 < o % sfsBlksize) :
    CanPart err s 0 (o / sfsBlksize) (bufOps true) := by
  by_contra hc
  have hhead : s.ioHead err true buf o e = none := by
    unfold ioHead
    simp only [if_pos hr]
    exact (hw.reached (next_of_ioParts h hx)).bufPart_none hw hc
  rw [ioParts, hhead] at hx
  cases hx

/-- How a write comes to its whole blocks. -/
theorem start_of_ioParts : ∃ t, s.ioHead err true buf o e = some t ∧
    WroteTo s t buf o (headLen o e) (wholeFirst o) (headOps s true o) :=
  ioHead_write h hw (next_of_ioParts h hx) fun hr => head_of_ioParts h hw hx hr

theorem whole_of_ioParts (hn : 0 < wholeCount o e) :
    CanPart err s (headOps s true o) (wholeFirst o) (wholeCount o e) := by
  by_contra hc
  obtain ⟨t, ht, hwt⟩ := start_of_ioParts h hw hx
  rw [ioParts, ht, Option.bind_some] at hx
  simp only [] at hx
  rw [ioWhole, if_pos hn, hwt.toReached.wholePart_none hw hc] at hx
  cases hx

theorem tail_of_ioParts (hrun : 2 ≤ wholeCount o e → wholeFirst o + wholeCount o e ≤ s.blocks ∧
      ∀ j < wholeCount o e, s.map (wholeFirst o + j) = s.map (wholeFirst o) + j)
    (ht : 0 < tailLen o e) :
    CanPart err s (headOps s true o + wholeOps s o e) (e / sfsBlksize) (bufOps true) := by
  by_contra hc
  obtain ⟨t, hhead, hwt⟩ := start_of_ioParts h hw hx
  obtain ⟨u, hwhole, hwu⟩ := ioWhole_write h hw hwt (fun hn => whole_of_ioParts h hw hx hn) hrun
  rw [(tail_start h ht).2.2] at hwu
  rw [ioParts, hhead, Option.bind_some] at hx
  simp only [] at hx
  rw [hwhole, Option.bind_some, ioTail, if_pos ht, hwu.toReached.bufPart_none hw hc] at hx
  cases hx

/-- The state after the whole blocks, and then the last part. -/
theorem end_of_ioParts (hn : 0 < wholeCount o e) : ∃ u w c,
    WroteTo s u buf o (headLen o e) (wholeFirst o + 1) c ∧
      u.blocks = max s.blocks (wholeFirst o + 1) ∧
      w = u.withDisk (runDisk u.disk (fun k => s.mem (buf + BitVec.ofNat 32 (headLen o e + k)))
        (u.map (wholeFirst o)) (wholeCount o e)) (u.ops + wholeCount o e) ∧
      w.ioTail err true (buf + BitVec.ofNat 32 (headLen o e + wholeCount o e * sfsBlksize)) o e =
        some x.1 := by
  obtain ⟨t, ht, hwt⟩ := start_of_ioParts h hw hx
  obtain ⟨u, hwu, hub, -, heq⟩ := hwt.wholePart_eq hw (whole_of_ioParts h hw hx hn)
    (by unfold wholeFirst; split_ifs <;> omega)
  rw [ioParts, ht, Option.bind_some] at hx
  simp only [] at hx
  obtain ⟨w, hwhole, hx⟩ := Option.bind_eq_some_iff.1 hx
  rw [ioWhole, if_pos hn] at hwhole
  obtain ⟨v, htail, hv⟩ := Option.map_eq_some_iff.1 hx
  have htb := hwt.blocks
  refine ⟨u, w, _, hwu, by omega, ((heq w).1 hwhole).2, ?_⟩
  rw [htail, ← hv]

/-- Without a place for the whole blocks, the file does not get to the end of the range. -/
theorem short_of_ioParts (h2 : 2 ≤ wholeCount o e)
    (hend : s.blocks < wholeFirst o + wholeCount o e) : x.1.blocks * sfsBlksize ≤ e - 1 := by
  obtain ⟨u, w, c, -, hub, hw', htail⟩ := end_of_ioParts h hw hx (by omega)
  have hwb : w.blocks = max s.blocks (wholeFirst o + 1) := hw' ▸ hub
  obtain ⟨-, hidx⟩ := whole_start h (by omega : 0 < wholeCount o e)
  by_cases ht : 0 < tailLen o e
  · rw [ioTail, if_pos ht, asserted_beyond (by omega)] at htail
    cases htail
  · rw [ioTail, if_neg ht] at htail
    rw [← Option.some.inj htail, hwb]
    have hle : max s.blocks (wholeFirst o + 1) * sfsBlksize ≤ (e / sfsBlksize - 1) * sfsBlksize :=
      Nat.mul_le_mul_right _ (by omega)
    unfold sfsBlksize at *
    omega

/-- Where block `j` of the whole blocks is not in its place in the run, its last byte is not stored:
all the other bytes of the range are what it has been before. -/
theorem scattered_of_ioParts {j : ℕ} {v : BitVec 8} (hj : j < wholeCount o e)
    (hend : wholeFirst o + wholeCount o e ≤ s.blocks)
    (hne : s.map (wholeFirst o + j) ≠ s.map (wholeFirst o) + j)
    (hv : s.disk (s.map (wholeFirst o + j)) 4095#12 = v)
    (hmem : ∀ k < e - o, o + k ≠ (wholeFirst o + j) * sfsBlksize + 4095 →
      s.mem (buf + BitVec.ofNat 32 k) = v) :
    x.1.disk (s.map (wholeFirst o + j)) 4095#12 = v := by
  have hn : 0 < wholeCount o e := by omega
  obtain ⟨hstart, -⟩ := whole_start h hn
  have hsum := parts_length h
  obtain ⟨u, w, c, hwu, hub, hw', htail⟩ := end_of_ioParts h hw hx hn
  have hju : wholeFirst o + j < u.blocks := by omega
  have hmap : u.map (wholeFirst o + j) = s.map (wholeFirst o + j) := hwu.map _ (by omega)
  have hplace : u.map (wholeFirst o) = s.map (wholeFirst o) := hwu.map _ (by omega)
  have hinuse := hmap ▸ hwu.wf.inuse _ hju
  have hind := hmap ▸ hwu.wf.map_ne_indirect hju
  generalize hd : s.map (wholeFirst o + j) = d at *
  have hB : sfsBlksize = 4096 := rfl
  have hju' : u.disk d 4095#12 = v := by
    have hc := hwu.content ((wholeFirst o + j) * sfsBlksize + 4095)
      ((Nat.add_lt_add_left (by omega) _).trans_le
        ((Nat.succ_mul _ _).symm.le.trans (Nat.mul_le_mul_right _ (by omega : _ + 1 ≤ s.blocks))))
      (.inr (by rw [hstart, Nat.add_mul]; omega))
    rw [content_eq (by omega), content_eq (by omega), hmap, hd] at hc
    exact hc.trans hv
  have hrun : w.disk = runDisk u.disk
      (fun k => s.mem (buf + BitVec.ofNat 32 (headLen o e + k))) (u.map (wholeFirst o))
      (wholeCount o e) := by
    rw [hw']
    rfl
  have hwd : w.disk d 4095#12 = v := by
    rw [hrun]
    unfold runDisk
    split_ifs with hr
    · rw [hplace] at hr ⊢
      obtain ⟨k, rfl⟩ := Nat.exists_eq_add_of_le hr.1
      rw [Nat.add_sub_cancel_left]
      have hkn : (k + 1) * sfsBlksize ≤ wholeCount o e * sfsBlksize :=
        Nat.mul_le_mul_right _ (by omega)
      rw [Nat.succ_mul] at hkn
      have hkj : k * sfsBlksize ≠ j * sfsBlksize := by
        rw [hB]
        rintro he
        obtain rfl : k = j := by omega
        exact hne rfl
      refine hmem _ ?_ ?_
      · change headLen o e + (k * sfsBlksize + 4095) < _
        omega
      · change o + (headLen o e + (k * sfsBlksize + 4095)) ≠ _
        rw [Nat.add_mul]
        omega
    · exact hju'
  by_cases ht : 0 < tailLen o e
  · rw [ioTail, if_pos ht] at htail
    rw [← hwd]
    refine last_bufPart (Nat.mod_lt _ (by decide)) ?_ (hw' ▸ hind) htail
    rw [hw']
    change u.freemap[d]? ≠ _
    rw [hinuse.2.2]
    simp
  · rw [ioTail, if_neg ht] at htail
    rw [← Option.some.inj htail]
    exact hwd

end Parts

end Sfs

end Ucore

end CacheCPU
