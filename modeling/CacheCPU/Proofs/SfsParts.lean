import CacheCPU.Proofs.SfsBmap

/-!
# The parts of a read or write

A range of bytes is moved in at most three parts: the end of a block, whole blocks and the beginning
of a block. Each part looks up one block. The whole blocks are moved as one run of disk blocks from
the place of the first, so they must lie one after the other.
-/

namespace CacheCPU

namespace Ucore

namespace Sfs

open Patch

variable {err : ℕ → ℤ} {s t u : Sfs} {i : ℕ}

/-! ## Bytes -/

/-- The byte at a place of the file, when the file has a block there. -/
def content (s : Sfs) (p : ℕ) : BitVec 8 :=
  s.disk (s.map (p / sfsBlksize)) (BitVec.ofNat 12 (p % sfsBlksize))

/-- The byte at a place of the file. -/
def fileByte (s : Sfs) (p : ℕ) : Option (BitVec 8) :=
  if p < s.blocks * sfsBlksize then some (s.content p) else none

theorem content_eq {q : ℕ} (hq : q < sfsBlksize) :
    s.content (i * sfsBlksize + q) = s.disk (s.map i) (BitVec.ofNat 12 q) := by
  have hpos : 0 < sfsBlksize := by decide
  rw [content, Nat.add_comm, Nat.add_mul_div_right _ _ hpos, Nat.add_mul_mod_self_right,
    Nat.div_eq_of_lt hq, Nat.mod_eq_of_lt hq, Nat.zero_add]

theorem Wf.map_ne_indirect (hw : Wf s) (hi : i < s.blocks) : s.map i ≠ s.indirect := by
  by_cases h0 : s.indirect = 0
  · rw [h0]
    exact (hw.inuse i hi).1
  · exact (hw.indirect h0).2 i hi

/-! ## One operation -/

theorem asserted_eq (op : Sfs → ℕ → Option (Sfs × ℤ)) : s.asserted err i op =
    (s.lookup err i).bind fun (s, ino) => (op s ino).bind fun (s, ret) =>
      if ret = 0 then some s else none := by
  unfold asserted lookup
  rcases s.bmapLoadNolock err i with _ | ⟨t, r, ino⟩
  · rfl
  · by_cases hr : r = 0 <;> simp [hr]

/-- The operations of `sfs_buf_op`. -/
def bufOps (write : Bool) : ℕ := if write then 2 else 1

section Run

variable {buf : BitVec 32} {b n : ℕ}

/-- The blocks of a run from `b` on that the device can be asked for, as long as it does not fail. -/
def CanRun (err : ℕ → ℤ) (s : Sfs) (b n : ℕ) : Prop :=
  ∀ k < n, (b + k ≠ 0 ∧ b + k < s.superBlocks) ∧ err (s.ops + k) = 0

theorem canRun_succ {r : Sfs} (hs : r.superBlocks = s.superBlocks) (ho : r.ops = s.ops + 1) :
    CanRun err s b (n + 1) ↔
      ((b ≠ 0 ∧ b < s.superBlocks) ∧ err s.ops = 0) ∧ CanRun err r (b + 1) n := by
  constructor
  · intro h
    refine ⟨h 0 (by omega), fun k hk => ?_⟩
    have := h (k + 1) (by omega)
    rw [hs, ho, show b + 1 + k = b + (k + 1) by omega, show s.ops + 1 + k = s.ops + (k + 1) by omega]
    exact this
  · rintro ⟨h0, h⟩ k hk
    rcases k with _ | k
    · exact h0
    · have := h k (by omega)
      rwa [hs, ho, show b + 1 + k = b + (k + 1) by omega,
        show s.ops + 1 + k = s.ops + (k + 1) by omega] at this

/-- The bytes of a run of disk blocks. -/
def runByte (disk : ℕ → SfsBlock) (b p : ℕ) : BitVec 8 :=
  disk (b + p / sfsBlksize) (BitVec.ofNat 12 (p % sfsBlksize))

theorem runByte_shift (disk : ℕ → SfsBlock) (p : ℕ) :
    runByte disk (b + 1) p = runByte disk b (sfsBlksize + p) := by
  have hpos : 0 < sfsBlksize := by decide
  rw [runByte, runByte, Nat.add_mod_left, Nat.add_div_left _ hpos, Nat.add_assoc, Nat.add_comm 1]

theorem runByte_first (disk : ℕ → SfsBlock) {p : ℕ} (hp : p < sfsBlksize) :
    runByte disk b p = disk b (BitVec.ofNat 12 p) := by
  rw [runByte, Nat.div_eq_of_lt hp, Nat.mod_eq_of_lt hp, Nat.add_zero]

theorem sfsRblock_ok (hn : n * sfsBlksize ≤ 2 ^ 32) (h : CanRun err s b n) :
    s.sfsRblock err buf b n = some
      ({ s with
        ops := s.ops + n
        mem := patch s.mem buf (runByte s.disk b) (n * sfsBlksize) }, 0) := by
  induction n generalizing s buf b with
  | zero => simp [sfsRblock]
  | succ n ih =>
    rw [Nat.succ_mul] at hn
    obtain ⟨⟨hb, he⟩, hrest⟩ := (@canRun_succ err s b n { s with
      ops := s.ops + 1
      mem := patch s.mem buf (fun i => s.disk b (BitVec.ofNat 12 i)) sfsBlksize } rfl rfl).1 h
    have hfirst : patch s.mem buf (fun i => s.disk b (BitVec.ofNat 12 i)) sfsBlksize =
        patch s.mem buf (runByte s.disk b) sfsBlksize :=
      patch_congr fun k hk => (runByte_first _ hk).symm
    have hshift : runByte s.disk (b + 1) = fun k => runByte s.disk b (sfsBlksize + k) :=
      funext fun k => runByte_shift _ _
    have happ := @patch_append _ _ s.mem buf (runByte s.disk b) sfsBlksize (n * sfsBlksize) (by omega)
    rw [sfsRblock, rwblockNolock_read hb, Option.bind_some]
    simp only [he, if_true]
    rw [ih (by omega) hrest]
    simp only [hfirst, hshift]
    rw [Nat.succ_mul, Nat.add_comm (n * sfsBlksize), ← happ, Nat.add_comm n 1, ← Nat.add_assoc]
    rfl

theorem sfsRblock_fails (h : ¬ CanRun err s b n) : Fails (s.sfsRblock err buf b n) := by
  induction n generalizing s buf b with
  | zero => exact absurd (fun k hk => absurd hk (by omega)) h
  | succ n ih =>
    intro t
    rw [sfsRblock]
    by_cases hb : b ≠ 0 ∧ b < s.superBlocks
    · rw [rwblockNolock_read hb, Option.bind_some]
      by_cases he : err s.ops = 0
      · simp only [he, if_true]
        exact ih (fun hrest => h ((@canRun_succ err s b n { s with
          ops := s.ops + 1
          mem := patch s.mem buf (fun i => s.disk b (BitVec.ofNat 12 i)) sfsBlksize }
          rfl rfl).2 ⟨⟨hb, he⟩, hrest⟩)) t
      · simp [he]
    · unfold rwblockNolock
      rw [if_neg hb]
      simp

/-- The disk after a run of blocks from `b` on has been written. -/
def runDisk (disk : ℕ → SfsBlock) (data : ℕ → BitVec 8) (b n c : ℕ) : SfsBlock :=
  if b ≤ c ∧ c < b + n then fun q => data ((c - b) * sfsBlksize + q.toNat) else disk c

theorem sfsWblock_ok (h : CanRun err s b n) :
    s.sfsWblock err buf b n = some
      ({ s with
        ops := s.ops + n
        disk := runDisk s.disk (fun k => s.mem (buf + BitVec.ofNat 32 k)) b n }, 0) := by
  induction n generalizing s buf b with
  | zero =>
    have hdisk : runDisk s.disk (fun k => s.mem (buf + BitVec.ofNat 32 k)) b 0 = s.disk :=
      funext fun c => if_neg (by omega)
    rw [sfsWblock, hdisk]
    rfl
  | succ n ih =>
    have hB : sfsBlksize = 4096 := rfl
    obtain ⟨⟨hb, he⟩, hrest⟩ := (@canRun_succ err s b n { s with
      ops := s.ops + 1
      disk := Function.update s.disk b fun i => s.mem (buf + BitVec.ofNat 32 i.toNat) } rfl rfl).1 h
    rw [sfsWblock, rwblockNolock_write hb _ he, Option.bind_some]
    simp only [if_true]
    rw [ih hrest]
    simp only [Option.some.injEq, Prod.mk.injEq, and_true]
    congr 1
    · funext c
      unfold runDisk
      by_cases hc : c = b
      · subst hc
        rw [if_neg (by omega), Function.update_self, if_pos (by omega)]
        funext q
        simp
      · by_cases hr : b + 1 ≤ c ∧ c < b + 1 + n
        · rw [if_pos hr, if_pos (by omega)]
          funext q
          simp only []
          rw [show (0x1000#32 : BitVec 32) = BitVec.ofNat 32 4096 from rfl, BitVec.add_assoc,
            ← BitVec.ofNat_add]
          congr 3
          rw [hB, show c - b = c - (b + 1) + 1 by omega]
          omega
        · rw [if_neg hr, Function.update_of_ne hc, if_neg (by omega)]
    · omega

theorem sfsWblock_fails (h : ¬ CanRun err s b n) : Fails (s.sfsWblock err buf b n) := by
  induction n generalizing s buf b with
  | zero => exact absurd (fun k hk => absurd hk (by omega)) h
  | succ n ih =>
    intro t
    rw [sfsWblock]
    by_cases hb : b ≠ 0 ∧ b < s.superBlocks
    · by_cases he : err s.ops = 0
      · rw [rwblockNolock_write hb _ he, Option.bind_some]
        simp only [if_true]
        exact ih (fun hrest => h ((@canRun_succ err s b n { s with
          ops := s.ops + 1
          disk := Function.update s.disk b fun i => s.mem (buf + BitVec.ofNat 32 i.toNat) }
          rfl rfl).2 ⟨⟨hb, he⟩, hrest⟩)) t
      · rw [rwblockNolock_fail hb _ he, Option.bind_some]
        simp [he]
    · unfold rwblockNolock
      rw [if_neg hb]
      simp

end Run

/-! ## How far the file has been reached -/

/-- The blocks up to `r` have been looked up, one after the other, in `c` operations. -/
structure Reached (s t : Sfs) (r c : ℕ) : Prop where
  wf : Wf t
  blocks : t.blocks = max s.blocks r
  size : t.size = s.size
  map : ∀ j < s.blocks, t.map j = s.map j
  fresh : ∀ j, s.blocks ≤ j → j < t.blocks → s.freemap[t.map j]? = some true
  free : ∀ b : ℕ, t.freemap[b]? = some true → s.freemap[b]? = some true
  indirect : t.indirect = 0 ↔ s.indirect = 0 ∧ t.blocks ≤ sfsNdirect
  kept : s.indirect ≠ 0 → t.indirect = s.indirect
  unused : t.unusedBlocks + needed s t.blocks = s.unusedBlocks
  ops : t.ops = s.ops + c

theorem Wf.reached (hw : Wf s) (hi : i ≤ s.blocks) : Reached s s i 0 where
  wf := hw
  blocks := by omega
  size := rfl
  map _ _ := rfl
  fresh j hj hlt := absurd hlt (by omega)
  free _ h := h
  indirect := hw.indirect_iff
  kept _ := rfl
  unused := by
    rw [hw.needed_le le_rfl]
    rfl
  ops := rfl

/-- What the part from block `i` on takes, after `c` operations and with `w` for the transfer. -/
structure CanPart (err : ℕ → ℤ) (s : Sfs) (c i w : ℕ) : Prop where
  small : i < mapSize
  space : needed s (i + 1) ≤ s.unusedBlocks
  device : ∀ k < lookupOps s i + w, err (s.ops + (c + k)) = 0

namespace Reached

variable {c w : ℕ} (h : Reached s t i c) (hw : Wf s)
include h

theorem lookupOps_eq : lookupOps t i = lookupOps s i := by
  have hiff : i < t.blocks ↔ i < s.blocks := by
    rw [h.blocks]
    omega
  simp only [lookupOps, hiff]

include hw

/-- The blocks that have been taken are no longer needed. -/
theorem needed_add : needed s t.blocks + needed t (i + 1) = needed s (i + 1) := by
  have hb := h.blocks
  have hi := h.indirect
  by_cases hlt : i < s.blocks
  · rw [h.wf.needed_le (by omega), hw.needed_le (by omega), hw.needed_le (by omega)]
  · unfold needed
    split_ifs <;> grind

theorem canPart_iff : CanPart err s c i w ↔
    CanLook err t i ∧ ∀ k < w, err (t.ops + (lookupOps t i + k)) = 0 := by
  have hn := h.needed_add hw
  have hu := h.unused
  have hl := h.lookupOps_eq
  have ho := h.ops
  have hb := h.blocks
  constructor
  · rintro ⟨hsmall, hspace, hdev⟩
    refine ⟨⟨by omega, hsmall, by omega, fun k hk => ?_⟩, fun k hk => ?_⟩
    · rw [ho, Nat.add_assoc]
      exact hdev k (by omega)
    · rw [ho, Nat.add_assoc]
      exact hdev _ (by omega)
  · rintro ⟨⟨-, hsmall, hspace, hlook⟩, hdev⟩
    refine ⟨hsmall, by omega, fun k hk => ?_⟩
    rw [← Nat.add_assoc, ← ho]
    by_cases hkl : k < lookupOps t i
    · exact hlook k hkl
    · have := hdev (k - lookupOps t i) (by omega)
      rwa [Nat.add_sub_cancel' (by omega)] at this

/-- A lookup reaches one block more. -/
theorem look (hl : Looked t u i) : Reached s u (i + 1) (c + lookupOps s i) where
  wf := hl.wf
  blocks := by
    rw [hl.blocks, h.blocks]
    omega
  size := hl.size.trans h.size
  map j hj := (hl.map j (by rw [h.blocks]; omega)).trans (h.map j hj)
  fresh j hj hlt := by
    rw [hl.blocks] at hlt
    by_cases hjt : j < t.blocks
    · rw [hl.map j hjt]
      exact h.fresh j hj hjt
    · have hb := h.blocks
      obtain rfl : j = i := by omega
      exact h.free _ (hl.fresh (by omega))
  free b hb := h.free b (hl.free b hb)
  indirect := by
    have hb := hl.blocks
    rw [hl.indirect, h.indirect, and_assoc]
    exact and_congr_right fun _ => ⟨fun hle => hle.2, fun hle => ⟨by omega, hle⟩⟩
  kept hne := by
    rw [← h.kept hne]
    exact hl.kept (by rwa [h.kept hne])
  unused := by
    have hu := h.unused
    have hlu := hl.unused
    rw [hl.blocks] at hlu ⊢
    by_cases hlt : i < t.blocks
    · rw [max_eq_left (by omega)] at hlu ⊢
      rw [h.wf.needed_le le_rfl] at hlu
      omega
    · rw [max_eq_right (by omega)] at hlu ⊢
      have := h.needed_add hw
      omega
  ops := by
    rw [hl.ops, h.ops, h.lookupOps_eq]
    omega

omit hw in
/-- A transfer leaves the block map. -/
theorem transfer (hwf : Wf u) (hu : u = { t with disk := u.disk, mem := u.mem, ops := t.ops + w })
    (hm : ∀ j < t.blocks, u.map j = t.map j) : Reached s u i (c + w) := by
  obtain ⟨disk, hdisk⟩ : ∃ d, d = u.disk := ⟨_, rfl⟩
  obtain ⟨mem, hmem⟩ : ∃ m, m = u.mem := ⟨_, rfl⟩
  rw [← hdisk, ← hmem] at hu
  subst hu
  refine ⟨hwf, h.blocks, h.size, fun j hj => ?_, fun j hj hlt => ?_, h.free, h.indirect, h.kept,
    h.unused, ?_⟩
  · rw [hm j (by rw [h.blocks]; omega), h.map j hj]
  · rw [hm j hlt]
    exact h.fresh j hj hlt
  · change t.ops + w = _
    rw [h.ops, Nat.add_assoc]

omit hw in
theorem mono {j : ℕ} (hij : i ≤ j) (hj : j ≤ t.blocks) : Reached s t j c :=
  { h with blocks := by have := h.blocks; omega }

end Reached

/-! ## Parts that fail -/

theorem sfsBufOp_fails {write : Bool} {buf : BitVec 32} {len b off : ℕ}
    (h : ∃ k < bufOps write, err (s.ops + k) ≠ 0) :
    Fails (s.sfsBufOp err write buf len b off) := by
  obtain ⟨k, hk, hek⟩ := h
  unfold sfsBufOp
  cases write
  · obtain rfl : k = 0 := by
      simp only [bufOps, Bool.false_eq_true, if_false] at hk
      omega
    rw [if_neg Bool.false_ne_true]
    intro t
    unfold sfsRbuf
    by_cases hg : off < sfsBlksize ∧ off + len ≤ sfsBlksize
    · by_cases hb : b ≠ 0 ∧ b < s.superBlocks
      · rw [if_pos hg, rwblockNolock_read hb]
        have he : err s.ops ≠ 0 := hek
        simp [he]
      · rw [if_pos hg, rwblockNolock, if_neg hb]
        simp
    · rw [if_neg hg]
      simp
  · rw [if_pos rfl]
    simp only [bufOps, if_true] at hk
    refine sfsWbuf_fails ?_
    rcases k with _ | k
    · exact .inl hek
    · obtain rfl : k = 0 := by omega
      exact .inr hek

theorem asserted_none_of_fails {op : Sfs → ℕ → Option (Sfs × ℤ)}
    (h : ∀ u b, s.lookup err i = some (u, b) → Fails (op u b)) : s.asserted err i op = none := by
  rw [asserted_eq]
  rcases hl : s.lookup err i with _ | ⟨u, b⟩
  · rfl
  · rcases ho : op u b with _ | ⟨v, r⟩
    · simp [ho]
    · have hr : r ≠ 0 := by
        rintro rfl
        exact h u b hl v ho
      simp [ho, hr]

namespace Reached

variable {c w : ℕ} (h : Reached s t i c) (hw : Wf s)
include h hw

/-- Without what it takes, the part ends in a failed assertion. -/
theorem part_none {op : Sfs → ℕ → Option (Sfs × ℤ)} (hc : ¬ CanPart err s c i w)
    (hop : ∀ u b, (∃ k < w, err (u.ops + k) ≠ 0) → Fails (op u b)) :
    t.asserted err i op = none := by
  refine asserted_none_of_fails fun u b hl => ?_
  have hlook : CanLook err t i := by
    by_contra hn
    rw [lookup_none h.wf hn] at hl
    cases hl
  obtain ⟨v, hv, hlv⟩ := lookup_ok h.wf hlook
  rw [hl] at hv
  obtain ⟨rfl, -⟩ := Prod.mk.inj (Option.some.inj hv)
  refine hop u b ?_
  by_contra hn
  push Not at hn
  refine hc ((h.canPart_iff hw).2 ⟨hlook, fun k hk => ?_⟩)
  rw [← Nat.add_assoc, ← hlv.ops]
  exact hn k hk

theorem bufPart_none {write : Bool} {buf : BitVec 32} {len off : ℕ}
    (hc : ¬ CanPart err s c i (bufOps write)) :
    t.asserted err i (fun s ino => s.sfsBufOp err write buf len ino off) = none :=
  h.part_none hw hc fun _ _ => sfsBufOp_fails

theorem wholePart_none {write : Bool} {buf : BitVec 32} {n : ℕ} (hc : ¬ CanPart err s c i n) :
    t.asserted err i (fun s ino => s.sfsBlockOp err write buf ino n) = none := by
  refine h.part_none hw hc fun u b ⟨k, hk, hek⟩ => ?_
  have hrun : ¬ CanRun err u b n := fun hr => hek (hr k hk).2
  unfold sfsBlockOp
  split_ifs
  · exact sfsWblock_fails hrun
  · exact sfsRblock_fails hrun

end Reached

/-! ## The three parts of a range -/

section Range

variable {o e : ℕ} (h : o < e)
include h

theorem parts_length : headLen o e + wholeCount o e * sfsBlksize + tailLen o e = e - o := by
  unfold headLen wholeCount tailLen sfsBlksize
  split_ifs <;> omega

/-- The whole blocks begin where the first part ends. -/
theorem whole_start (hn : 0 < wholeCount o e) :
    o + headLen o e = wholeFirst o * sfsBlksize ∧ wholeFirst o + wholeCount o e = e / sfsBlksize := by
  unfold wholeCount at hn
  unfold headLen wholeCount wholeFirst
  unfold sfsBlksize at *
  split_ifs at * <;> omega

/-- The last part begins where the whole blocks end. -/
theorem tail_start (ht : 0 < tailLen o e) : tailLen o e = e % sfsBlksize ∧
    o + (headLen o e + wholeCount o e * sfsBlksize) = e / sfsBlksize * sfsBlksize ∧
      wholeFirst o + wholeCount o e = e / sfsBlksize := by
  unfold tailLen at ht
  unfold headLen wholeCount tailLen wholeFirst
  unfold sfsBlksize at *
  split_ifs at * <;> omega

theorem head_end (hr : 0 < o % sfsBlksize) :
    o % sfsBlksize + headLen o e ≤ sfsBlksize ∧ wholeFirst o = o / sfsBlksize + 1 ∧
      0 < headLen o e := by
  unfold headLen wholeFirst
  unfold sfsBlksize at *
  split_ifs <;> omega

end Range

/-- The device operations of the first part. -/
def headOps (s : Sfs) (write : Bool) (o : ℕ) : ℕ :=
  if 0 < o % sfsBlksize then lookupOps s (o / sfsBlksize) + bufOps write else 0

/-- The device operations of the whole blocks. -/
def wholeOps (s : Sfs) (o e : ℕ) : ℕ :=
  if 0 < wholeCount o e then lookupOps s (wholeFirst o) + wholeCount o e else 0

/-- The device operations of the last part. -/
def tailOps (s : Sfs) (write : Bool) (o e : ℕ) : ℕ :=
  if 0 < tailLen o e then lookupOps s (e / sfsBlksize) + bufOps write else 0

/-- What the parts of a range take: the first block is there or the next one, and each part has
what it takes; more than one whole block must be there, one after the other on the disk. -/
structure CanIo (err : ℕ → ℤ) (s : Sfs) (write : Bool) (o e : ℕ) : Prop where
  next : o / sfsBlksize ≤ s.blocks
  head : 0 < o % sfsBlksize → CanPart err s 0 (o / sfsBlksize) (bufOps write)
  whole : 0 < wholeCount o e →
    CanPart err s (headOps s write o) (wholeFirst o) (wholeCount o e)
  run : 2 ≤ wholeCount o e → wholeFirst o + wholeCount o e ≤ s.blocks ∧
    ∀ j < wholeCount o e, s.map (wholeFirst o + j) = s.map (wholeFirst o) + j
  tail : 0 < tailLen o e →
    CanPart err s (headOps s write o + wholeOps s o e) (e / sfsBlksize) (bufOps write)

end Sfs

end Ucore

end CacheCPU
