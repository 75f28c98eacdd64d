import CacheCPU.Proofs.SfsIo

/-!
# Changing the size of a file

`sfs_truncfile` takes or frees the blocks at the end of a file one by one. One step is `Looked` or
`Cut`, and a run of steps is `Reached` or `Shrunk`. While blocks are freed the size of the file is
still the old one, so the invariant of these steps does not speak of the size (`Shape`).
-/

namespace CacheCPU

namespace Ucore

namespace Sfs

open Patch

variable {err : ℕ → ℤ} {s t u : Sfs} {i n : ℕ}

/-! ## One block less -/

/-- A well-formed file, but for its size. -/
def Shape (s : Sfs) : Prop := Wf { s with size := 0 }

theorem Wf.shape (h : Wf s) : Shape s :=
  { h with size := Nat.zero_le _ }

theorem Shape.map_ne_indirect (h : Shape s) (hi : i < s.blocks) : s.map i ≠ s.indirect :=
  @Wf.map_ne_indirect { s with size := 0 } i h hi

/-- The last block has been freed. -/
structure Cut (s t : Sfs) : Prop where
  shape : Shape t
  blocks : t.blocks + 1 = s.blocks
  size : t.size = s.size
  mem : t.mem = s.mem
  superBlocks : t.superBlocks = s.superBlocks
  indirect : t.indirect = s.indirect
  map : ∀ j < t.blocks, t.map j = s.map j
  cut : t.freemap[s.map t.blocks]? = some true
  other : ∀ c, c ≠ s.map t.blocks → t.freemap[c]? = s.freemap[c]?
  disk : ∀ c, (s.indirect ≠ 0 → c ≠ s.indirect) → t.disk c = s.disk c
  unused : t.unusedBlocks = s.unusedBlocks + 1

/-- The device operations of freeing the last of `b` blocks. -/
def cutOps (b : ℕ) : ℕ := if b - 1 < sfsNdirect then 0 else 3

section Freed

variable {b : ℕ} (hb : s.blockInuse b)
include hb

theorem blockFree_eq : s.blockFree b = some
    { s with
      freemap := s.freemap.set b true
      unusedBlocks := s.unusedBlocks + 1
      superDirty := true } := if_pos hb

theorem getElem?_freed (c : ℕ) :
    (s.freemap.set b true)[c]? = if c = b then some true else s.freemap[c]? := by
  have hlt : b < s.freemap.length := (List.getElem?_eq_some_iff.1 hb.2.2).1
  rw [List.getElem?_set]
  by_cases hc : c = b
  · subst hc
    rw [if_pos rfl, if_pos hlt, if_pos rfl]
  · rw [if_neg (Ne.symm hc), if_neg hc]

theorem count_freed : (s.freemap.set b true).count true = s.freemap.count true + 1 := by
  obtain ⟨hlt, hget⟩ := List.getElem?_eq_some_iff.1 hb.2.2
  rw [List.count_set hlt, hget]
  simp

end Freed

/-- The block map after the last block has been taken out of it, with `b` the number of this block. -/
theorem cut_of_freed {d : ℕ → ℕ} {disk : ℕ → SfsBlock} {n : ℕ} (hw : Shape s) (hpos : 0 < s.blocks)
    (hd : ∀ j < s.blocks - 1, j < sfsNdirect → d j = s.direct j)
    (hzero : ∀ j, s.blocks - 1 ≤ j → j < sfsNdirect → d j = 0)
    (hdisk : ∀ c, (s.indirect ≠ 0 → c ≠ s.indirect) → disk c = s.disk c)
    (hent : ∀ j < s.blocks - 1, sfsNdirect ≤ j →
      entryOf (disk s.indirect) (j - sfsNdirect) = s.map j)
    (hrest : s.indirect ≠ 0 → ∀ j, s.blocks - 1 ≤ j → sfsNdirect ≤ j → j < mapSize →
      entryOf (disk s.indirect) (j - sfsNdirect) = 0) :
    Cut s { s with
      freemap := s.freemap.set (s.map (s.blocks - 1)) true
      unusedBlocks := s.unusedBlocks + 1
      superDirty := true
      ops := n
      disk := disk
      direct := d
      dirty := true
      blocks := s.blocks - 1 } := by
  set t : Sfs := { s with
      freemap := s.freemap.set (s.map (s.blocks - 1)) true
      unusedBlocks := s.unusedBlocks + 1
      superDirty := true
      ops := n
      disk := disk
      direct := d
      dirty := true
      blocks := s.blocks - 1 } with ht
  have huse : ∀ j < s.blocks, s.blockInuse (s.map j) := hw.inuse
  have hlast := huse (s.blocks - 1) (by omega)
  have hmap : ∀ j < s.blocks - 1, t.map j = s.map j := by
    intro j hj
    by_cases h12 : j < sfsNdirect
    · rw [map, map, if_pos h12, if_pos h12]
      exact hd j hj h12
    · rw [map_ge (by omega)]
      exact hent j hj (by omega)
  have hinj : ∀ j < s.blocks - 1, s.map j ≠ s.map (s.blocks - 1) := by
    intro j hj he
    have := hw.inj j (by change j < s.blocks; omega) (s.blocks - 1)
      (by change s.blocks - 1 < s.blocks; omega) he
    omega
  have hother : ∀ c, c ≠ s.map (s.blocks - 1) → t.freemap[c]? = s.freemap[c]? := by
    intro c hc
    change (s.freemap.set _ true)[c]? = _
    rw [getElem?_freed hlast, if_neg hc]
  have hkept : ∀ c, c ≠ s.map (s.blocks - 1) → s.blockInuse c → t.blockInuse c := by
    intro c hc h
    exact ⟨h.1, h.2.1, (hother c hc).trans h.2.2⟩
  refine ⟨⟨hw.file, hw.bound, ?_, ?_, ?_, Nat.zero_le _, ?_, ?_, ?_, ?_, ?_⟩, ?_, rfl, rfl, rfl, rfl,
    hmap, ?_, hother, hdisk, rfl⟩
  · change s.unusedBlocks + 1 = (s.freemap.set _ true).count true
    rw [count_freed hlast]
    exact congrArg (· + 1) hw.unused
  · intro c hc
    by_cases hcb : c = s.map (s.blocks - 1)
    · subst hcb
      exact hlast.reach
    · exact hw.free c ((hother c hcb).symm.trans hc)
  · have := hw.blocks
    change s.blocks ≤ mapSize at this
    change s.blocks - 1 ≤ mapSize
    omega
  · intro j hj
    change t.blockInuse (t.map j)
    rw [hmap j hj]
    change j < s.blocks - 1 at hj
    exact hkept _ (hinj j hj) (huse j (by omega))
  · intro j hj k hk he
    change t.map j = t.map k at he
    rw [hmap j hj, hmap k hk] at he
    change j < s.blocks - 1 at hj
    change k < s.blocks - 1 at hk
    exact hw.inj j (by change j < s.blocks; omega) k (by change k < s.blocks; omega) he
  · intro hne
    obtain ⟨hi, hni⟩ := hw.indirect hne
    refine ⟨hkept _ (fun he => hni (s.blocks - 1) (by change _ < s.blocks; omega) he.symm) hi,
      fun j hj => ?_⟩
    change t.map j ≠ s.indirect
    rw [hmap j hj]
    change j < s.blocks - 1 at hj
    exact hni j (by change j < s.blocks; omega)
  · intro hlt
    exact hw.present (by change sfsNdirect < s.blocks; change sfsNdirect < s.blocks - 1 at hlt; omega)
  · intro j hj hjm hor
    change s.blocks - 1 ≤ j at hj
    change t.map j = 0
    by_cases h12 : j < sfsNdirect
    · rw [map, if_pos h12]
      exact hzero j hj h12
    · rw [map_ge (by omega)]
      exact hrest (hor.resolve_left h12) j hj (by omega) hjm
  · change s.blocks - 1 + 1 = s.blocks
    omega
  · change (s.freemap.set _ true)[_]? = _
    rw [getElem?_freed hlast]
    exact if_pos rfl

section Truncate

variable (hw : Shape s) (hpos : 0 < s.blocks)
include hw hpos

theorem truncate_direct (h12 : s.blocks - 1 < sfsNdirect) :
    ∃ t, s.bmapTruncateNolock err = some (t, 0) ∧ Cut s t ∧ t.ops = s.ops := by
  have huse : s.blockInuse (s.map (s.blocks - 1)) :=
    hw.inuse _ (by change _ < s.blocks; omega)
  have hmap : s.map (s.blocks - 1) = s.direct (s.blocks - 1) := if_pos h12
  rw [bmapTruncateNolock, if_pos (by omega), bmapFreeNolock, if_pos h12,
    if_pos (by rw [← hmap]; exact huse.1), ← hmap, blockFree_eq huse]
  refine ⟨_, rfl, ?_, rfl⟩
  refine cut_of_freed hw hpos (fun j hj _ => Function.update_of_ne hj.ne _ _) (fun j hj hlt => ?_)
    (fun _ _ => rfl) (fun j _ h => (@map_ge s j h).symm) (fun hne j hj h hm => ?_)
  · by_cases he : j = s.blocks - 1
    · rw [he]
      exact Function.update_self _ _ _
    · have hrest : s.map j = 0 :=
        hw.rest j (by change s.blocks ≤ j; omega) (by unfold mapSize; omega) (.inl hlt)
      rw [map, if_pos hlt] at hrest
      exact (Function.update_of_ne he _ _).trans hrest
  · have hrest : s.map j = 0 := hw.rest j (by change s.blocks ≤ j; omega) hm (.inr hne)
    exact (@map_ge s j h).symm.trans hrest

section Sub

variable (h12 : sfsNdirect ≤ s.blocks - 1)
include h12

/-- What freeing a block behind the direct ones comes to. -/
theorem truncate_sub_eq : s.blockInuse s.indirect ∧ s.blockInuse (s.map (s.blocks - 1)) ∧
    s.bmapTruncateNolock err =
      (s.bmapFreeSubNolock err s.indirect (s.blocks - 1 - sfsNdirect)).map fun x =>
        if x.2 ≠ 0 then x else ({ x.1 with blocks := x.1.blocks - 1, dirty := true }, 0) := by
  have hle : s.blocks ≤ mapSize := hw.blocks
  unfold mapSize at hle
  have hne : s.indirect ≠ 0 := hw.present (by change sfsNdirect < s.blocks; omega)
  refine ⟨(hw.indirect hne).1, hw.inuse _ (by change _ < s.blocks; omega), ?_⟩
  rw [bmapTruncateNolock, if_pos (by omega), bmapFreeNolock, if_neg (by omega),
    if_pos (by omega), if_pos hne]

theorem truncate_sub (he : ∀ k < 3, err (s.ops + k) = 0) :
    ∃ t, s.bmapTruncateNolock err = some (t, 0) ∧ Cut s t ∧ t.ops = s.ops + 3 := by
  obtain ⟨hind, huse, heq⟩ := @truncate_sub_eq err s hw hpos h12
  have hle : s.blocks ≤ mapSize := hw.blocks
  unfold mapSize at hle
  have hj : s.blocks - 1 - sfsNdirect < sfsBlkNentry := by omega
  have hj' := hj
  unfold sfsBlkNentry at hj'
  have hm : s.map (s.blocks - 1) =
      word fun k => s.disk s.indirect (BitVec.ofNat 12 ((s.blocks - 1 - sfsNdirect) * 4 + k)) :=
    map_ge h12
  rw [heq, bmapFreeSubNolock, if_pos ⟨hind, hj⟩, sfsRbuf_entry hind hj, Option.bind_some]
  simp only [← hm]
  have h0 : err s.ops = 0 := he 0 (by decide)
  rw [if_neg (not_not.2 h0), if_pos huse.1,
    sfsWbuf_eq (by unfold sfsBlksize; omega) (by unfold sfsBlksize; omega) (by exact hind.reach)
      (by exact he 1 (by decide)) (by exact he 2 (by decide)), Option.bind_some]
  simp only [ne_eq, not_true_eq_false, if_false]
  rw [blockFree_eq (by exact huse)]
  refine ⟨_, rfl, ?_, rfl⟩
  have hent : ∀ j, sfsNdirect ≤ j → j < mapSize → entryOf (Function.update s.disk s.indirect
      (patch (s.disk s.indirect) (BitVec.ofNat 12 ((s.blocks - 1 - sfsNdirect) * 4)) (bytesOf 0) 4)
      s.indirect) (j - sfsNdirect) = if j = s.blocks - 1 then 0 else s.map j := by
    intro j h hm
    unfold mapSize at hm
    rw [Function.update_self, entryOf_patch (by decide) hj (by omega), ← map_ge h]
    exact if_congr (by omega) rfl rfl
  refine cut_of_freed hw hpos (fun _ _ _ => rfl) (fun j hj hlt => absurd hlt (by omega))
    (fun c hc => Function.update_of_ne (hc hind.1) _ _) (fun j hj h => ?_) (fun hne j hj h hm => ?_)
  · exact (hent j h (by unfold mapSize; omega)).trans (if_neg (by omega))
  · refine (hent j h hm).trans ?_
    split_ifs with he'
    · rfl
    · exact hw.rest j (by change s.blocks ≤ j; omega) hm (.inr hne)

theorem truncate_sub_fails (he : ∃ k < 3, err (s.ops + k) ≠ 0) (t : Sfs) :
    s.bmapTruncateNolock err ≠ some (t, 0) := by
  obtain ⟨hind, huse, heq⟩ := @truncate_sub_eq err s hw hpos h12
  have hle : s.blocks ≤ mapSize := hw.blocks
  unfold mapSize at hle
  have hj : s.blocks - 1 - sfsNdirect < sfsBlkNentry := by omega
  have hm : s.map (s.blocks - 1) =
      word fun k => s.disk s.indirect (BitVec.ofNat 12 ((s.blocks - 1 - sfsNdirect) * 4 + k)) :=
    map_ge h12
  rw [heq, bmapFreeSubNolock, if_pos ⟨hind, hj⟩, sfsRbuf_entry hind hj, Option.bind_some]
  simp only [← hm]
  by_cases h0 : err s.ops = 0
  · rw [if_neg (not_not.2 h0), if_pos huse.1]
    have hfail : Fails (sfsWbuf err { s with ops := s.ops + 1 } (bytesOf 0) 4 s.indirect
        ((s.blocks - 1 - sfsNdirect) * 4)) := by
      obtain ⟨k, hk, hek⟩ := he
      refine sfsWbuf_fails ?_
      rcases (by omega : k = 0 ∨ k = 1 ∨ k = 2) with rfl | rfl | rfl
      · exact absurd h0 hek
      · exact .inl hek
      · exact .inr hek
    rcases hw' : sfsWbuf err { s with ops := s.ops + 1 } (bytesOf 0) 4 s.indirect
      ((s.blocks - 1 - sfsNdirect) * 4) with _ | ⟨v, r⟩
    · simp
    · have hr : r ≠ 0 := by
        rintro rfl
        exact hfail v hw'
      simp [hr]
  · simp [h0]

end Sub

theorem truncate_ok (he : ∀ k < cutOps s.blocks, err (s.ops + k) = 0) :
    ∃ t, s.bmapTruncateNolock err = some (t, 0) ∧ Cut s t ∧ t.ops = s.ops + cutOps s.blocks := by
  unfold cutOps at he ⊢
  split_ifs at he ⊢ with h12
  · exact truncate_direct hw hpos h12
  · exact truncate_sub hw hpos (by omega) he

theorem truncate_fails (he : ∃ k < cutOps s.blocks, err (s.ops + k) ≠ 0) (t : Sfs) :
    s.bmapTruncateNolock err ≠ some (t, 0) := by
  unfold cutOps at he
  split_ifs at he with h12
  · obtain ⟨k, hk, -⟩ := he
    omega
  · exact truncate_sub_fails hw hpos (by omega) he t

end Truncate

/-! ## Many blocks less -/

/-- The blocks from `t.blocks` on have been freed. -/
structure Shrunk (s t : Sfs) : Prop where
  shape : Shape t
  blocks : t.blocks ≤ s.blocks
  size : t.size = s.size
  mem : t.mem = s.mem
  superBlocks : t.superBlocks = s.superBlocks
  indirect : t.indirect = s.indirect
  map : ∀ j < t.blocks, t.map j = s.map j
  cut : ∀ j, t.blocks ≤ j → j < s.blocks → t.freemap[s.map j]? = some true
  other : ∀ c, (∀ j, t.blocks ≤ j → j < s.blocks → s.map j ≠ c) → t.freemap[c]? = s.freemap[c]?
  disk : ∀ c, (s.indirect ≠ 0 → c ≠ s.indirect) → t.disk c = s.disk c
  unused : t.unusedBlocks + t.blocks = s.unusedBlocks + s.blocks

theorem Shape.shrunk (h : Shape s) : Shrunk s s :=
  ⟨h, le_rfl, rfl, rfl, rfl, rfl, fun _ _ => rfl, fun j hj hlt => absurd hlt (by omega),
    fun _ _ => rfl, fun _ _ => rfl, rfl⟩

theorem Cut.shrunk (h : Cut s t) (hs : Shrunk t u) : Shrunk s u := by
  have hb := h.blocks
  have hub := hs.blocks
  refine ⟨hs.shape, by omega, hs.size.trans h.size, hs.mem.trans h.mem,
    hs.superBlocks.trans h.superBlocks, hs.indirect.trans h.indirect, fun j hj => ?_,
    fun j hj hlt => ?_, fun c hc => ?_, fun c hc => ?_, ?_⟩
  · exact (hs.map j hj).trans (h.map j (by omega))
  · by_cases hjt : j < t.blocks
    · rw [← h.map j hjt]
      exact hs.cut j hj hjt
    · obtain rfl : j = t.blocks := by omega
      -- the block freed first is none of the file's, so it is not freed again
      refine (hs.other _ fun k hk hkt he => ?_).trans h.cut
      have huse : t.blockInuse (t.map k) := h.shape.inuse k hkt
      rw [he, blockInuse, h.cut] at huse
      exact absurd huse.2.2 (by simp)
  · refine (hs.other c fun j hj hjt he => ?_).trans (h.other c fun he => ?_)
    · exact hc j hj (by omega) ((h.map j hjt).symm.trans he)
    · exact hc t.blocks hub (by omega) he.symm
  · exact (hs.disk c (by rwa [h.indirect])).trans (h.disk c hc)
  · have := h.unused
    have := hs.unused
    omega

/-- The device operations of freeing the last `n` of `b` blocks. -/
def reduceOps (b : ℕ) : ℕ → ℕ
  | 0 => 0
  | n + 1 => cutOps b + reduceOps (b - 1) n

theorem truncReduce_ok (hw : Shape s) (hn : n ≤ s.blocks)
    (he : ∀ k < reduceOps s.blocks n, err (s.ops + k) = 0) :
    ∃ t, s.truncReduce err n = some (t, 0) ∧ Shrunk s t ∧ t.blocks = s.blocks - n := by
  induction n generalizing s with
  | zero => exact ⟨s, rfl, hw.shrunk, rfl⟩
  | succ n ih =>
    unfold reduceOps at he
    obtain ⟨t, ht, hc, hops⟩ := @truncate_ok err s hw (by omega) fun k hk => he k (by omega)
    have hb := hc.blocks
    obtain ⟨u, hu, hs, hub⟩ := ih hc.shape (by omega) fun k hk => by
      rw [hops, Nat.add_assoc]
      rw [show t.blocks = s.blocks - 1 by omega] at hk
      exact he _ (by omega)
    refine ⟨u, ?_, hc.shrunk hs, by omega⟩
    rw [truncReduce, ht, Option.bind_some]
    simpa using hu

theorem truncReduce_fails (hw : Shape s) (hn : n ≤ s.blocks)
    (he : ∃ k < reduceOps s.blocks n, err (s.ops + k) ≠ 0) (t : Sfs) :
    s.truncReduce err n ≠ some (t, 0) := by
  induction n generalizing s with
  | zero =>
    obtain ⟨k, hk, -⟩ := he
    exact absurd hk (Nat.not_lt_zero k)
  | succ n ih =>
    unfold reduceOps at he
    rw [truncReduce]
    by_cases hcut : ∀ k < cutOps s.blocks, err (s.ops + k) = 0
    · obtain ⟨u, hu, hc, hops⟩ := @truncate_ok err s hw (by omega) hcut
      have hb := hc.blocks
      rw [hu, Option.bind_some]
      simp only [ne_eq, not_true_eq_false, if_false]
      obtain ⟨k, hk, hek⟩ := he
      have hge : cutOps s.blocks ≤ k := by
        by_contra hlt
        exact hek (hcut k (by omega))
      refine ih hc.shape (by omega) ⟨k - cutOps s.blocks, ?_, ?_⟩
      · rw [show u.blocks = s.blocks - 1 by omega]
        omega
      · rwa [hops, Nat.add_assoc, Nat.add_sub_cancel' hge]
    · push Not at hcut
      rcases hu : s.bmapTruncateNolock err with _ | ⟨u, r⟩
      · simp
      · have hr : r ≠ 0 := by
          rintro rfl
          exact truncate_fails hw (by omega) hcut u hu
        simp [hr]

/-! ## One block more -/

/-- No block is freed, and a new block of numbers was free. -/
structure Kept (s t : Sfs) : Prop where
  superBlocks : t.superBlocks = s.superBlocks
  length : t.freemap.length = s.freemap.length
  free : ∀ c : ℕ, t.freemap[c]? = some true → s.freemap[c]? = some true
  indirect : t.indirect = s.indirect ∨ s.freemap[t.indirect]? = some true

theorem Kept.refl (s : Sfs) : Kept s s := ⟨rfl, rfl, fun _ h => h, .inl rfl⟩

theorem Kept.trans (h : Kept s t) (h' : Kept t u) : Kept s u where
  superBlocks := h'.superBlocks.trans h.superBlocks
  length := h'.length.trans h.length
  free c hc := h.free c (h'.free c hc)
  indirect := by
    rcases h'.indirect with he | hf
    · rw [he]
      exact h.indirect
    · exact .inr (h.free _ hf)

theorem Kept.inuse {c : ℕ} (h : Kept s t) (hc : s.blockInuse c) : t.blockInuse c := by
  obtain ⟨h0, hlt, hfree⟩ := hc
  have hlen : c < t.freemap.length := by
    rw [h.length]
    exact (List.getElem?_eq_some_iff.1 hfree).1
  refine ⟨h0, h.superBlocks ▸ hlt, ?_⟩
  rcases hb : t.freemap[c] with _ | _
  · rw [List.getElem?_eq_getElem hlen, hb]
  · have := h.free c (by rw [List.getElem?_eq_getElem hlen, hb])
    rw [hfree] at this
    cases this

theorem kept_taken {b : ℕ} (hb : s.freemap[b]? = some true) : Kept s (s.taken b) where
  superBlocks := rfl
  length := List.length_set
  free c hc := by
    rw [getElem?_taken hb] at hc
    split_ifs at hc with hcb
    · cases hc
    · exact hc
  indirect := .inl rfl

theorem blockAlloc_inv {b : ℕ} (h : FreeOk s) (ha : s.blockAlloc err = some (t, 0, b)) :
    s.freemap[b]? = some true ∧ t = s.taken b := by
  by_cases hok : 0 < s.unusedBlocks ∧ err s.ops = 0
  · obtain ⟨c, hc, hs⟩ := blockAlloc_ok h hok.1 hok.2
    rw [hs] at ha
    simp only [Option.some.injEq, Prod.mk.injEq, true_and] at ha
    obtain ⟨rfl, rfl⟩ := ha
    exact ⟨hc, rfl⟩
  · obtain ⟨u, r, c, hs, hr⟩ := @blockAlloc_fails err s h (by
      rcases not_and_or.1 hok with h0 | he
      · exact .inl (by omega)
      · exact .inr he)
    rw [hs] at ha
    simp only [Option.some.injEq, Prod.mk.injEq] at ha
    exact absurd ha.2.1 hr

theorem kept_linked {b ent j : ℕ} (hb : s.freemap[b]? = some true) : Kept s (s.linked b ent j) :=
  ⟨rfl, List.length_set, (kept_taken hb).free, .inl rfl⟩

theorem bmapGetSubCreate_inv {entp ent j e b : ℕ} (h : FreeOk s) (hent : s.blockInuse ent)
    (hj : j < sfsBlkNentry) (ha : s.bmapGetSubCreate err entp ent j = some (t, 0, e, b)) :
    s.freemap[b]? = some true ∧ t = s.linked b ent j ∧ e = ent := by
  by_cases hok : 0 < s.unusedBlocks ∧ ∀ k < 3, err (s.ops + k) = 0
  · obtain ⟨c, hc, hs⟩ := @bmapGetSubCreate_ok err s entp ent j h hent hj hok.1 hok.2
    rw [hs] at ha
    simp only [Option.some.injEq, Prod.mk.injEq, true_and] at ha
    obtain ⟨rfl, rfl, rfl⟩ := ha
    exact ⟨hc, rfl, rfl⟩
  · refine absurd ha (bmapGetSubCreate_fails h ?_ t e b)
    rcases not_and_or.1 hok with h0 | he
    · exact .inl (by omega)
    · push Not at he
      exact .inr he

/-- What `sfs_bmap_get_sub_nolock` comes to when the entry is empty. -/
theorem bmapGetSubNolock_new {e b : ℕ} (hw : Wf s) (h12 : sfsNdirect ≤ s.blocks)
    (hlt : s.blocks < mapSize)
    (h : s.bmapGetSubNolock err s.indirect (s.blocks - sfsNdirect) true = some (t, 0, e, b)) :
    Kept s t ∧ (e = s.indirect ∨ s.freemap[e]? = some true) ∧ t.indirect = s.indirect ∧
      t.disk b = fun _ => 0#8 := by
  have hj : s.blocks - sfsNdirect < sfsBlkNentry := by unfold mapSize at hlt; omega
  rw [bmapGetSubNolock, if_pos hj] at h
  by_cases hind : s.indirect = 0
  · rw [if_neg (not_not.2 hind), if_neg (by simp)] at h
    obtain ⟨⟨u, r, ent⟩, halloc, hu⟩ := Option.bind_eq_some_iff.1 h
    by_cases hr : r = 0
    · subst hr
      obtain ⟨he, rfl⟩ := blockAlloc_inv hw.freeOk halloc
      simp only [ne_eq, not_true_eq_false, if_false] at hu
      have huse := blockInuse_taken hw.freeOk he
      obtain ⟨hb, rfl, rfl⟩ := bmapGetSubCreate_inv (hw.freeOk.taken he) huse hj hu
      refine ⟨(kept_taken he).trans (kept_linked hb), .inr he, rfl, ?_⟩
      exact (Function.update_of_ne (huse.taken hb).2.symm _ _).trans (Function.update_self _ _ _)
    · simp [hr] at hu
  · have h0 := hw.rest s.blocks le_rfl hlt (.inr hind)
    rw [map_ge h12] at h0
    unfold entryOf at h0
    have huse := (hw.indirect hind).1
    rw [if_pos hind, sfsRbuf_entry huse hj, Option.bind_some] at h
    simp only [h0] at h
    by_cases he : err s.ops = 0
    · simp only [he, ne_eq, not_true_eq_false, if_false, false_or, Bool.true_eq_false] at h
      obtain ⟨hb, rfl, rfl⟩ := @bmapGetSubCreate_inv err { s with ops := s.ops + 1 } t _ _ _ _ _
        ⟨hw.bound, hw.unused, hw.free⟩ huse hj h
      have hk := @kept_linked { s with ops := s.ops + 1 } _ s.indirect (s.blocks - sfsNdirect) hb
      refine ⟨⟨hk.superBlocks, hk.length, hk.free, hk.indirect⟩, .inl rfl, rfl, ?_⟩
      exact (Function.update_of_ne (huse.taken hb).2.symm _ _).trans (Function.update_self _ _ _)
    · simp [he] at h

theorem bmapGetNolock_new {b : ℕ} (hw : Wf s) (hlt : s.blocks < mapSize)
    (h : s.bmapGetNolock err s.blocks true = some (t, 0, b)) :
    Kept s t ∧ t.disk b = fun _ => 0#8 := by
  by_cases h12 : s.blocks < sfsNdirect
  · have h0 : s.direct s.blocks = 0 := by
      have := hw.rest s.blocks le_rfl hlt (.inl h12)
      rwa [map, if_pos h12] at this
    rw [bmapGetNolock, if_pos h12, if_pos ⟨h0, rfl⟩] at h
    obtain ⟨⟨u, r, c⟩, halloc, hu⟩ := Option.bind_eq_some_iff.1 h
    by_cases hr : r = 0
    · subst hr
      obtain ⟨hc, rfl⟩ := blockAlloc_inv hw.freeOk halloc
      simp only [ne_eq, not_true_eq_false, if_false] at hu
      unfold bmapOut at hu
      split_ifs at hu
      simp only [Option.some.injEq, Prod.mk.injEq, true_and] at hu
      obtain ⟨rfl, rfl⟩ := hu
      have hk := kept_taken hc
      exact ⟨⟨hk.superBlocks, hk.length, hk.free, hk.indirect⟩, Function.update_self _ _ _⟩
    · simp [hr] at hu
  · have hj : s.blocks - sfsNdirect < sfsBlkNentry := by unfold mapSize at hlt; omega
    rw [bmapGetNolock, if_neg h12, if_pos hj] at h
    obtain ⟨⟨u, r, ent, c⟩, hsub, hu⟩ := Option.bind_eq_some_iff.1 h
    by_cases hr : r = 0
    · subst hr
      obtain ⟨hk, hent, hind, hzero⟩ := bmapGetSubNolock_new hw (by omega) hlt hsub
      simp only [ne_eq, not_true_eq_false, if_false] at hu
      unfold bmapOut at hu
      -- a new block of numbers is put down
      by_cases hne : ent = u.indirect
      · rw [if_neg (not_not.2 hne)] at hu
        split_ifs at hu
        simp only [Option.some.injEq, Prod.mk.injEq, true_and] at hu
        obtain ⟨rfl, rfl⟩ := hu
        exact ⟨hk, hzero⟩
      · rw [if_pos hne] at hu
        split_ifs at hu
        simp only [Option.some.injEq, Prod.mk.injEq, true_and] at hu
        obtain ⟨rfl, rfl⟩ := hu
        exact ⟨⟨hk.superBlocks, hk.length, hk.free, hent⟩, hzero⟩
    · simp [hr] at hu

theorem canLook_of_lookup {b : ℕ} (hw : Wf s) (h : s.lookup err i = some (t, b)) :
    CanLook err s i := by
  by_contra hn
  rw [lookup_none hw hn] at h
  cases h

/-- A lookup keeps what it should, and a new block is clear. -/
theorem lookup_kept {b : ℕ} (hw : Wf s) (h : s.lookup err i = some (t, b)) :
    Kept s t ∧ (s.blocks ≤ i → t.disk b = fun _ => 0#8) := by
  have hc := canLook_of_lookup hw h
  rcases hc.next.lt_or_eq with hi | rfl
  · rw [lookup_present hw hi fun h12 => by
      exact hc.device 0 (by rw [lookupOps, if_pos hi, if_neg (by omega)]; decide)] at h
    simp only [Option.some.injEq, Prod.mk.injEq] at h
    obtain ⟨rfl, -⟩ := h
    exact ⟨⟨rfl, rfl, fun _ h => h, .inl rfl⟩, fun hle => absurd hi (by omega)⟩
  · rw [lookup, bmapLoadNolock, if_pos le_rfl, beq_self_eq_true] at h
    rcases hg : s.bmapGetNolock err s.blocks true with _ | ⟨u, r, ino⟩
    · rw [hg] at h
      cases h
    · rw [hg, Option.bind_some] at h
      by_cases hr : r = 0
      · subst hr
        obtain ⟨hk, hzero⟩ := bmapGetNolock_new hw hc.small hg
        simp only [ne_eq, not_true_eq_false, if_false] at h
        split_ifs at h with huse
        · simp only [Option.bind_some, if_true, Option.some.injEq, Prod.mk.injEq] at h
          obtain ⟨rfl, rfl⟩ := h
          exact ⟨⟨hk.superBlocks, hk.length, hk.free, hk.indirect⟩, fun _ => hzero⟩
        · cases h
      · simp [hr] at h

/-! ## Many blocks more -/

/-- The blocks from `s.blocks` to `i` have been made, in `c` operations. -/
structure Grew (s t : Sfs) (i c : ℕ) : Prop extends Reached s t i c where
  keeps : Kept s t
  mem : t.mem = s.mem
  zero : ∀ j, s.blocks ≤ j → j < t.blocks → t.disk (t.map j) = fun _ => 0#8
  disk : ∀ d : ℕ, s.freemap[d]? ≠ some true → (s.indirect ≠ 0 → d ≠ s.indirect) →
    t.disk d = s.disk d

theorem Wf.grew (hw : Wf s) : Grew s s s.blocks 0 :=
  { hw.reached le_rfl with
    keeps := Kept.refl s
    mem := rfl
    zero := fun _ hj hlt => absurd hlt (by omega)
    disk := fun _ _ _ => rfl }

theorem Grew.look {c : ℕ} (h : Grew s t i c) (hw : Wf s)
    (hlook : t.lookup err i = some (u, u.map i)) (hl : Looked t u i) :
    Grew s u (i + 1) (c + lookupOps s i) := by
  obtain ⟨hk, hzero⟩ := lookup_kept h.wf hlook
  have hnext := (canLook_of_lookup h.wf hlook).next
  have hkept := h.keeps.trans hk
  have hub := hl.blocks
  refine { h.toReached.look hw hl with
    keeps := hkept
    mem := hl.mem.trans h.mem
    zero := fun j hj hlt => ?_
    disk := fun d hd hind => ?_ }
  · by_cases hjt : j < t.blocks
    · have hm := hl.map j hjt
      rw [hl.disk (u.map j) (fun _ => hl.wf.map_ne_indirect hlt) fun hi he => ?_, hm]
      · exact h.zero j hj hjt
      · have := hl.wf.inj j hlt i (by omega) he
        omega
    · obtain rfl : j = i := by omega
      exact hzero (by omega)
  · refine (hl.disk d (fun hne he => ?_) fun hi he => ?_).trans (h.disk d hd hind)
    · rcases hkept.indirect with hs | hf
      · exact hind (by rwa [← hs]) (he.trans hs)
      · rw [← he] at hf
        exact hd hf
    · have hf := h.free _ (hl.fresh hi)
      rw [← he] at hf
      exact hd hf

theorem truncEnlarge_succ {b : ℕ} (h : s.lookup err i = some (t, b)) :
    s.truncEnlarge err i (n + 1) = t.truncEnlarge err (i + 1) n := by
  unfold lookup at h
  obtain ⟨⟨u, r, ino⟩, hload, hu⟩ := Option.bind_eq_some_iff.1 h
  by_cases hr : r = 0
  · simp only [hr, if_true, Option.some.injEq, Prod.mk.injEq] at hu
    obtain ⟨rfl, rfl⟩ := hu
    rw [truncEnlarge, hload, Option.bind_some]
    simp [hr]
  · simp [hr] at hu

theorem truncEnlarge_fails (h : s.lookup err i = none) (t : Sfs) :
    s.truncEnlarge err i (n + 1) ≠ some (t, 0) := by
  rw [truncEnlarge]
  rcases hload : s.bmapLoadNolock err i with _ | ⟨u, r, ino⟩
  · simp
  · have hr : r ≠ 0 := by
      rintro rfl
      simp [lookup, hload] at h
    simp [hr]

/-- The device operations of making `n` blocks from block `i` on. -/
def growOps (i : ℕ) : ℕ → ℕ
  | 0 => 0
  | n + 1 => (if i < sfsNdirect then 1 else 4) + growOps (i + 1) n

/-- What it takes to make `n` blocks from block `i` on, after `c` operations. -/
structure CanGrow (err : ℕ → ℤ) (s : Sfs) (c i n : ℕ) : Prop where
  small : i + n ≤ mapSize
  space : needed s (i + n) ≤ s.unusedBlocks
  device : ∀ k < growOps i n, err (s.ops + (c + k)) = 0

theorem needed_mono {k l : ℕ} (h : k ≤ l) : needed s k ≤ needed s l := by
  unfold needed
  split_ifs <;> omega

theorem canGrow_succ {c : ℕ} (hi : s.blocks ≤ i) : CanGrow err s c i (n + 1) ↔
    CanPart err s c i 0 ∧ CanGrow err s (c + lookupOps s i) (i + 1) n := by
  have hops : lookupOps s i = if i < sfsNdirect then 1 else 4 := by
    rw [lookupOps, if_neg (by omega)]
  have hadd : i + (n + 1) = i + 1 + n := by omega
  constructor
  · rintro ⟨hs, hu, hd⟩
    rw [growOps, ← hops] at hd
    refine ⟨⟨by omega, (needed_mono (by omega)).trans hu, fun k hk => hd k (by omega)⟩,
      ⟨by omega, hadd ▸ hu, fun k hk => ?_⟩⟩
    rw [Nat.add_assoc c]
    exact hd _ (by omega)
  · rintro ⟨⟨-, -, hd⟩, ⟨hs, hu, hd'⟩⟩
    refine ⟨by omega, hadd ▸ hu, fun k hk => ?_⟩
    rw [growOps, ← hops] at hk
    by_cases hlt : k < lookupOps s i
    · exact hd k (by omega)
    · have := hd' (k - lookupOps s i) (by omega)
      rwa [Nat.add_assoc c, Nat.add_sub_cancel' (by omega)] at this

section Enlarge

variable {c : ℕ} (h : Grew s t i c) (hw : Wf s) (hi : t.blocks = i) (hs : s.blocks ≤ i)
include h hw hi hs

theorem truncEnlarge_ok (hc : CanGrow err s c i n) :
    ∃ u, t.truncEnlarge err i n = some (u, 0) ∧ u.blocks = i + n ∧
      Grew s u (i + n) (c + growOps i n) := by
  induction n generalizing t i c with
  | zero => exact ⟨t, rfl, hi, h⟩
  | succ n ih =>
    obtain ⟨hpart, hrest⟩ := (canGrow_succ hs).1 hc
    obtain ⟨u, hu, hl⟩ := lookup_ok h.wf ((h.canPart_iff hw).1 hpart).1
    have hub := hl.blocks
    have hg := h.look hw hu hl
    obtain ⟨v, hv, hvb, hgv⟩ := ih hg (by omega) (by omega) hrest
    have hops : lookupOps s i = if i < sfsNdirect then 1 else 4 := by
      rw [lookupOps, if_neg (by omega)]
    refine ⟨v, (truncEnlarge_succ hu).trans hv, by omega, ?_⟩
    rw [growOps, ← hops, ← Nat.add_assoc c, show i + (n + 1) = i + 1 + n by omega]
    exact hgv

theorem truncEnlarge_none (hc : ¬ CanGrow err s c i n) (v : Sfs) :
    t.truncEnlarge err i n ≠ some (v, 0) := by
  induction n generalizing t i c with
  | zero =>
    refine absurd ⟨?_, ?_, fun k hk => absurd hk (Nat.not_lt_zero k)⟩ hc
    · exact hi ▸ h.wf.blocks
    · have := h.unused
      rw [hi] at this
      rw [Nat.add_zero]
      omega
  | succ n ih =>
    by_cases hpart : CanPart err s c i 0
    · obtain ⟨u, hu, hl⟩ := lookup_ok h.wf ((h.canPart_iff hw).1 hpart).1
      have hub := hl.blocks
      rw [truncEnlarge_succ hu]
      exact ih (h.look hw hu hl) (by omega) (by omega) fun hr => hc ((canGrow_succ hs).2 ⟨hpart, hr⟩)
    · refine truncEnlarge_fails (lookup_none h.wf fun hl => hpart ?_) v
      exact (h.canPart_iff hw).2 ⟨hl, fun k hk => absurd hk (Nat.not_lt_zero k)⟩

end Enlarge

/-! ## What a call leaves of the disk -/

/-- Block `c` is one of the file. -/
def Owns (s : Sfs) (c : ℕ) : Prop :=
  (∃ j < s.blocks, s.map j = c) ∨ s.indirect ≠ 0 ∧ s.indirect = c

/-- The number of blocks of the file. -/
def owned (s : Sfs) : ℕ := s.blocks + if s.indirect = 0 then 0 else 1

/-- The file is well-formed, it has taken only blocks that were free and freed only its own, and no
other block has changed. -/
structure Leaves (s t : Sfs) : Prop where
  wf : Wf t
  superBlocks : t.superBlocks = s.superBlocks
  owns : ∀ c, Owns t c → Owns s c ∨ s.freemap[c]? = some true
  free : ∀ c : ℕ, t.freemap[c]? = some true → Owns s c ∨ s.freemap[c]? = some true
  inuse : ∀ c, s.blockInuse c → ¬ Owns s c → t.blockInuse c
  disk : ∀ c : ℕ, s.freemap[c]? ≠ some true → ¬ Owns s c → t.disk c = s.disk c
  unused : t.unusedBlocks + owned t = s.unusedBlocks + owned s

theorem Wf.leaves (hw : Wf s) : Leaves s s :=
  ⟨hw, rfl, fun _ h => .inl h, fun _ h => .inr h, fun _ h _ => h, fun _ _ _ => rfl, rfl⟩

theorem Shape.resize (h : Shape s) (hn : n ≤ s.blocks * sfsBlksize) :
    Wf { s with size := n, dirty := true } :=
  { h with size := hn }

theorem Shrunk.leaves (h : Shrunk s t) (hn : n ≤ t.blocks * sfsBlksize) :
    Leaves s { t with size := n, dirty := true } where
  wf := h.shape.resize hn
  superBlocks := h.superBlocks
  owns c hc := by
    rcases hc with ⟨j, hj, rfl⟩ | ⟨hne, rfl⟩
    · exact .inl (.inl ⟨j, hj.trans_le h.blocks, (h.map j hj).symm⟩)
    · exact .inl (.inr ⟨by rwa [← h.indirect], h.indirect.symm⟩)
  free c hc := by
    by_cases hcut : ∃ j, t.blocks ≤ j ∧ j < s.blocks ∧ s.map j = c
    · obtain ⟨j, -, hj, hm⟩ := hcut
      exact .inl (.inl ⟨j, hj, hm⟩)
    · push Not at hcut
      exact .inr ((h.other c hcut).symm.trans hc)
  inuse c hc hno := by
    refine ⟨hc.1, h.superBlocks ▸ hc.2.1, ?_⟩
    exact (h.other c fun j _ hj he => hno (.inl ⟨j, hj, he⟩)).trans hc.2.2
  disk c _ hno := h.disk c fun hne he => hno (.inr ⟨hne, he.symm⟩)
  unused := by
    have hu := h.unused
    change t.unusedBlocks + (t.blocks + if t.indirect = 0 then 0 else 1) = _
    rw [owned, h.indirect]
    omega

section Reached

variable {c : ℕ} (h : Reached s t i c) (hw : Wf s)
include h hw

/-- The blocks that are no longer free are the file's. -/
theorem Reached.unused_owned : t.unusedBlocks + owned t = s.unusedBlocks + owned s := by
  have hu := h.unused
  have hi := h.indirect
  have hb := h.blocks
  have hind := hw.indirect_iff
  unfold needed at hu
  unfold owned
  split_ifs at hu ⊢ <;> grind

theorem Reached.leaves {d : Bool} (hk : Kept s t) (hn : n ≤ t.blocks * sfsBlksize)
    (hdisk : ∀ b : ℕ, s.freemap[b]? ≠ some true → ¬ Owns s b → t.disk b = s.disk b) :
    Leaves s { t with size := n, dirty := d } where
  wf := { h.wf with size := hn }
  superBlocks := hk.superBlocks
  owns b hb := by
    rcases hb with ⟨j, hj, rfl⟩ | ⟨hne, rfl⟩
    · by_cases hjs : j < s.blocks
      · exact .inl (.inl ⟨j, hjs, (h.map j hjs).symm⟩)
      · exact .inr (h.fresh j (by omega) hj)
    · rcases hk.indirect with he | hf
      · exact .inl (.inr ⟨by rwa [← he], he.symm⟩)
      · exact .inr hf
  free b hb := .inr (h.free b hb)
  inuse b hb _ := hk.inuse hb
  disk := hdisk
  unused := h.unused_owned hw

end Reached

theorem Grew.leaves {c : ℕ} (h : Grew s t i c) (hw : Wf s) (hn : n ≤ t.blocks * sfsBlksize) :
    Leaves s { t with size := n, dirty := true } :=
  h.toReached.leaves hw h.keeps hn fun b hb hno => h.disk b hb fun hne he => hno (.inr ⟨hne, he.symm⟩)

/-! ## `sfs_truncfile` -/

/-- The file has size `n`, and the blocks for it: those that it had, with what was in them, and
clear ones behind them. The other blocks that it had are free. -/
structure Truncated (s t : Sfs) (n : ℕ) : Prop where
  leaves : Leaves s t
  size : t.size = n
  blocks : t.blocks = blksOf n
  mem : t.mem = s.mem
  map : ∀ j < s.blocks, j < t.blocks → t.map j = s.map j
  kept : ∀ p < s.blocks * sfsBlksize, p < t.blocks * sfsBlksize → t.fileByte p = s.fileByte p
  zero : ∀ p, s.blocks * sfsBlksize ≤ p → p < t.blocks * sfsBlksize → t.fileByte p = some 0#8
  freed : ∀ j, t.blocks ≤ j → j < s.blocks → t.freemap[s.map j]? = some true

/-- What a new size takes: the file can have its blocks, they are there, and no operation fails. A
file that has the size must have the blocks for it. -/
structure CanTrunc (err : ℕ → ℤ) (s : Sfs) (n : ℕ) : Prop where
  same : s.size = n → s.blocks = blksOf n
  small : blksOf n ≤ mapSize
  space : needed s (blksOf n) ≤ s.unusedBlocks
  device : s.size ≠ n → ∀ k < growOps s.blocks (blksOf n - s.blocks) +
    reduceOps s.blocks (s.blocks - blksOf n), err (s.ops + k) = 0

theorem le_blksOf (n : ℕ) : n ≤ blksOf n * sfsBlksize := by
  unfold blksOf sfsBlksize
  omega

theorem div_lt_of_lt {p b : ℕ} (hp : p < b * sfsBlksize) : p / sfsBlksize < b :=
  Nat.div_lt_of_lt_mul (by rwa [Nat.mul_comm])

theorem Shrunk.truncated (h : Shrunk s t) (hw : Wf s) (hb : t.blocks = blksOf n) :
    Truncated s { t with size := n, dirty := true } n where
  leaves := h.leaves (hb ▸ le_blksOf n)
  size := rfl
  blocks := hb
  mem := h.mem
  map j _ hj := h.map j hj
  kept p hp hpt := by
    have hj := div_lt_of_lt hpt
    rw [fileByte, fileByte, if_pos hpt, if_pos hp]
    change some (t.content p) = _
    rw [content, content, h.map _ hj, h.disk _ fun _ => hw.map_ne_indirect (hj.trans_le h.blocks)]
  zero p hp hpt := by
    have : t.blocks * sfsBlksize ≤ s.blocks * sfsBlksize := Nat.mul_le_mul_right _ h.blocks
    change p < t.blocks * sfsBlksize at hpt
    omega
  freed := h.cut

theorem Grew.truncated {c : ℕ} (h : Grew s t i c) (hw : Wf s) (hb : t.blocks = blksOf n) :
    Truncated s { t with size := n, dirty := true } n where
  leaves := h.leaves hw (hb ▸ le_blksOf n)
  size := rfl
  blocks := hb
  mem := h.mem
  map j hj _ := h.map j hj
  kept p hp hpt := by
    have hj := div_lt_of_lt hp
    have huse := hw.inuse _ hj
    rw [fileByte, fileByte, if_pos hpt, if_pos hp]
    change some (t.content p) = _
    rw [content, content, h.map _ hj,
      h.disk _ (by rw [huse.2.2]; simp) fun _ => hw.map_ne_indirect hj]
  zero p hp hpt := by
    have hlt := div_lt_of_lt hpt
    have hge : s.blocks ≤ p / sfsBlksize := (Nat.le_div_iff_mul_le (by decide)).2 hp
    rw [fileByte, if_pos hpt]
    change some (t.content p) = _
    rw [content, h.zero _ hge hlt]
  freed j hj hlt := by
    have := h.blocks
    change t.blocks ≤ j at hj
    omega

section Truncfile

variable {len : BitVec 32} (hlen : 0 ≤ len.toInt ∧ len.toInt ≤ sfsMaxFileSize)
include hlen

/-- The assertion and the new size, behind the loop. -/
theorem sfsTruncfile_some (hne : s.size ≠ len.toNat) (t : Sfs) :
    s.sfsTruncfile err len = some (t, 0) ↔
      ∃ u, (if s.blocks < blksOf len.toNat then
          s.truncEnlarge err s.blocks (blksOf len.toNat - s.blocks)
        else s.truncReduce err (s.blocks - blksOf len.toNat)) = some (u, 0) ∧
        u.blocks = blksOf len.toNat ∧ t = { u with size := len.toNat, dirty := true } := by
  rw [sfsTruncfile, if_neg (by omega)]
  simp only []
  rw [if_neg hne, Option.bind_eq_some_iff]
  constructor
  · rintro ⟨⟨u, r⟩, hu, h⟩
    by_cases hr : r = 0
    · subst hr
      simp only [ne_eq, not_true_eq_false, if_false] at h
      split_ifs at h with hb
      simp only [Option.some.injEq, Prod.mk.injEq, and_true] at h
      exact ⟨u, hu, hb, h.symm⟩
    · simp [hr] at h
  · rintro ⟨u, hu, hb, rfl⟩
    refine ⟨_, hu, ?_⟩
    simp only [ne_eq, not_true_eq_false, if_false, if_pos hb]

theorem sfsTruncfile_same (he : s.size = len.toNat) (t : Sfs) :
    s.sfsTruncfile err len = some (t, 0) ↔ s.blocks = blksOf len.toNat ∧ t = s := by
  rw [sfsTruncfile, if_neg (by omega)]
  simp only []
  rw [if_pos he]
  split_ifs with hb
  · simp [hb, eq_comm]
  · simp [Ne.symm hb]

variable (hw : Wf s)
include hw

theorem truncated_of_sfsTruncfile (h : s.sfsTruncfile err len = some (t, 0)) :
    Truncated s t len.toNat := by
  by_cases he : s.size = len.toNat
  · obtain ⟨hb, rfl⟩ := (sfsTruncfile_same hlen he t).1 h
    exact ⟨hw.leaves, he, hb, rfl, fun _ _ _ => rfl, fun _ _ _ => rfl,
      fun p hp hlt => absurd hlt (by omega), fun j hj hlt => absurd hlt (by omega)⟩
  · obtain ⟨u, hu, hb, rfl⟩ := (sfsTruncfile_some hlen he t).1 h
    split_ifs at hu with hlt
    · by_cases hc : CanGrow err s 0 s.blocks (blksOf len.toNat - s.blocks)
      · obtain ⟨v, hv, -, hg⟩ := truncEnlarge_ok hw.grew hw rfl le_rfl hc
        rw [hu] at hv
        obtain ⟨rfl, -⟩ := Prod.mk.inj (Option.some.inj hv)
        exact hg.truncated hw hb
      · exact absurd hu (truncEnlarge_none hw.grew hw rfl le_rfl hc u)
    · by_cases hc : ∀ k < reduceOps s.blocks (s.blocks - blksOf len.toNat), err (s.ops + k) = 0
      · obtain ⟨v, hv, hs, -⟩ := truncReduce_ok hw.shape (by omega) hc
        rw [hu] at hv
        obtain ⟨rfl, -⟩ := Prod.mk.inj (Option.some.inj hv)
        exact hs.truncated hw hb
      · push Not at hc
        exact absurd hu (truncReduce_fails hw.shape (by omega) hc u)

theorem sfsTruncfile_ok (hc : CanTrunc err s len.toNat) :
    ∃ t, s.sfsTruncfile err len = some (t, 0) := by
  by_cases he : s.size = len.toNat
  · exact ⟨s, (sfsTruncfile_same hlen he s).2 ⟨hc.same he, rfl⟩⟩
  · have hdev := hc.device he
    by_cases hlt : s.blocks < blksOf len.toNat
    · have hadd : s.blocks + (blksOf len.toNat - s.blocks) = blksOf len.toNat := by omega
      obtain ⟨u, hu, hb, -⟩ := @truncEnlarge_ok err s s s.blocks (blksOf len.toNat - s.blocks) 0
        hw.grew hw rfl le_rfl ⟨by rw [hadd]; exact hc.small, by rw [hadd]; exact hc.space,
          fun k hk => by
            rw [Nat.zero_add]
            exact hdev k (by omega)⟩
      exact ⟨_, (sfsTruncfile_some hlen he _).2 ⟨u, by rw [if_pos hlt, hu], by omega, rfl⟩⟩
    · obtain ⟨u, hu, -, hb⟩ := @truncReduce_ok err s (s.blocks - blksOf len.toNat) hw.shape
        (by omega) fun k hk => hdev k (by omega)
      exact ⟨_, (sfsTruncfile_some hlen he _).2 ⟨u, by rw [if_neg hlt, hu], by omega, rfl⟩⟩

theorem canTrunc_of_sfsTruncfile (h : s.sfsTruncfile err len = some (t, 0)) :
    CanTrunc err s len.toNat := by
  have hble := hw.blocks
  by_cases he : s.size = len.toNat
  · obtain ⟨hb, rfl⟩ := (sfsTruncfile_same hlen he t).1 h
    refine ⟨fun _ => hb, hb ▸ hble, ?_, fun hne => absurd he hne⟩
    rw [← hb, hw.needed_le le_rfl]
    exact Nat.zero_le _
  · obtain ⟨u, hu, -, -⟩ := (sfsTruncfile_some hlen he t).1 h
    split_ifs at hu with hlt
    · have hadd : s.blocks + (blksOf len.toNat - s.blocks) = blksOf len.toNat := by omega
      have hc : CanGrow err s 0 s.blocks (blksOf len.toNat - s.blocks) := by
        by_contra hc
        exact truncEnlarge_none hw.grew hw rfl le_rfl hc u hu
      have hred : s.blocks - blksOf len.toNat = 0 := by omega
      refine ⟨fun h => absurd h he, hadd ▸ hc.small, hadd ▸ hc.space, fun _ k hk => ?_⟩
      rw [hred] at hk
      have := hc.device k hk
      rwa [Nat.zero_add] at this
    · refine ⟨fun h => absurd h he, by omega, ?_, fun _ k hk => ?_⟩
      · rw [hw.needed_le (by omega)]
        exact Nat.zero_le _
      · rw [show blksOf len.toNat - s.blocks = 0 by omega, growOps, Nat.zero_add] at hk
        by_contra hek
        exact truncReduce_fails hw.shape (by omega) ⟨k, hk, hek⟩ u hu

end Truncfile

/-- `sfs_truncfile` refuses a size out of range. It returns 0 if and only if the new size has what
it takes, and then the file has this size, keeps what it had in the blocks of both sizes, is clear
behind them, and has freed the rest. -/
theorem sfsTruncfile_iff (hw : Wf s) (len : BitVec 32) :
    (len.toInt < 0 ∨ sfsMaxFileSize < len.toInt → s.sfsTruncfile err len = some (s, -eInval)) ∧
      (0 ≤ len.toInt ∧ len.toInt ≤ sfsMaxFileSize →
        ((∃ t, s.sfsTruncfile err len = some (t, 0)) ↔ CanTrunc err s len.toNat) ∧
          ∀ t, s.sfsTruncfile err len = some (t, 0) → Truncated s t len.toNat) :=
  ⟨fun h => if_pos h, fun h => ⟨⟨fun ⟨_, ht⟩ => canTrunc_of_sfsTruncfile h hw ht,
    sfsTruncfile_ok h hw⟩, fun _ ht => truncated_of_sfsTruncfile h hw ht⟩⟩

/-- A file of two blocks that gets one block shorter. -/
theorem sfsTruncfile_twoPlaces : ∃ t, twoPlaces.sfsTruncfile (fun _ => 0) 4096#32 = some (t, 0) ∧
    Truncated twoPlaces t 4096 := by
  have h := (@sfsTruncfile_iff (fun _ => 0) twoPlaces wf_twoPlaces 4096#32).2 (by decide)
  obtain ⟨t, ht⟩ := h.1.2 ⟨by decide, by decide, by decide, fun _ _ _ => rfl⟩
  exact ⟨t, ht, h.2 t ht⟩

end Sfs

end Ucore

end CacheCPU
