import CacheCPU.Proofs.SfsParts

/-!
# Reading a range

A read within the file looks blocks up that are there, so it moves bytes to the memory of the caller
and does nothing else. It moves the right ones if the whole blocks lie one after the other on the
disk; if they do not, there are contents of the disk with which it does not.
-/

namespace CacheCPU

namespace Ucore

namespace Sfs

open Patch

variable {err : ℕ → ℤ} {s : Sfs} {buf : BitVec 32} {f : ℕ → BitVec 8} {o e m c i w : ℕ}

/-- The state after `m` of the bytes `f` have been read, in `c` operations. -/
def readTo (s : Sfs) (buf : BitVec 32) (f : ℕ → BitVec 8) (m c : ℕ) : Sfs :=
  { s with ops := s.ops + c, mem := patch s.mem buf f m }

theorem Wf.readTo (hw : Wf s) : Wf (s.readTo buf f m c) :=
  ⟨hw.file, hw.bound, hw.unused, hw.free, hw.blocks, hw.size, hw.inuse, hw.inj, hw.indirect,
    hw.present, hw.rest⟩

theorem readTo_zero : s.readTo buf f 0 0 = s := by
  unfold Sfs.readTo
  rw [patch_zero]
  rfl

theorem readTo_more {n k : ℕ} (g : ℕ → BitVec 8) (h : m + n ≤ 2 ^ 32)
    (hg : ∀ j < n, g j = f (m + j)) :
    { s.readTo buf f m c with
      ops := (s.readTo buf f m c).ops + k
      mem := patch (s.readTo buf f m c).mem (buf + BitVec.ofNat 32 m) g n } =
      s.readTo buf f (m + n) (c + k) := by
  unfold Sfs.readTo
  rw [← patch_append h, patch_congr hg, Nat.add_assoc]

theorem Wf.reached_readTo (hw : Wf s) (hi : i ≤ s.blocks) : Reached s (s.readTo buf f m c) i c := by
  have h := (hw.reached hi).transfer (w := c) (@Wf.readTo s buf f m c hw) rfl fun _ _ => rfl
  rwa [Nat.zero_add] at h

section Present

variable (hw : Wf s) (hi : i < s.blocks)
include hw hi

theorem lookup_readTo (hd : CanPart err s c i w) : (s.readTo buf f m c).lookup err i =
    some ({ s.readTo buf f m c with ops := s.ops + c + lookupOps s i }, s.map i) := by
  refine lookup_present hw.readTo hi fun h12 => ?_
  have h0 := hd.device 0 (by rw [lookupOps, if_pos hi, if_neg (by omega)]; omega)
  exact h0

/-- The end or the beginning of a block. -/
theorem bufPart_read {off len : ℕ} (hd : CanPart err s c i (bufOps false)) (hoff : off < sfsBlksize)
    (hlen : off + len ≤ sfsBlksize) (hn : m + len ≤ 2 ^ 32)
    (hf : ∀ j < len, f (m + j) = s.content (i * sfsBlksize + (off + j))) :
    (s.readTo buf f m c).asserted err i (fun s ino =>
      s.sfsBufOp err false (buf + BitVec.ofNat 32 m) len ino off) =
      some (s.readTo buf f (m + len) (c + (lookupOps s i + bufOps false))) := by
  have herr : err (s.ops + c + lookupOps s i) = 0 := by
    have := hd.device (lookupOps s i) (by simp [bufOps])
    rwa [← Nat.add_assoc] at this
  rw [asserted_eq, lookup_readTo hw hi hd, Option.bind_some]
  simp only [sfsBufOp, Bool.false_eq_true, if_false, sfsRbuf, if_pos (And.intro hoff hlen)]
  rw [rwblockNolock_read (by exact (hw.inuse i hi).reach)]
  simp only [herr, Option.map_some, Option.bind_some, if_true, Option.some.injEq]
  refine @readTo_more s buf f m c len (lookupOps s i + bufOps false)
    (fun k => s.disk (s.map i) (BitVec.ofNat 12 (off + k))) hn fun j hj => ?_
  rw [hf j hj, content_eq (by omega)]

/-- The blocks of the file from `i` on, as the run from the place of `i` on. -/
def RunReach (s : Sfs) (i n : ℕ) : Prop :=
  ∀ k < n, s.map i + k ≠ 0 ∧ s.map i + k < s.superBlocks

/-- The whole blocks, from the place of the first one on. -/
theorem wholePart_read {n : ℕ} (hd : CanPart err s c i n) (hr : RunReach s i n)
    (hn : m + n * sfsBlksize ≤ 2 ^ 32)
    (hf : ∀ j < n * sfsBlksize, f (m + j) = runByte s.disk (s.map i) j) :
    (s.readTo buf f m c).asserted err i (fun s ino =>
      s.sfsBlockOp err false (buf + BitVec.ofNat 32 m) ino n) =
      some (s.readTo buf f (m + n * sfsBlksize) (c + (lookupOps s i + n))) := by
  rw [asserted_eq, lookup_readTo hw hi hd, Option.bind_some]
  simp only [sfsBlockOp, Bool.false_eq_true, if_false]
  have hcan : CanRun err { s.readTo buf f m c with ops := s.ops + c + lookupOps s i } (s.map i) n := by
    intro k hk
    have := hd.device (lookupOps s i + k) (by omega)
    rw [← Nat.add_assoc, ← Nat.add_assoc] at this
    exact ⟨hr k hk, this⟩
  rw [sfsRblock_ok (by omega) hcan]
  simp only [Option.bind_some, if_true, Option.some.injEq]
  rw [Nat.add_assoc]
  exact @readTo_more s buf f m c (n * sfsBlksize) (lookupOps s i + n) (runByte s.disk (s.map i)) hn
    fun j hj => (hf j hj).symm

/-- Without that, a failed assertion. -/
theorem wholePart_read_none {n : ℕ} (hr : ¬ RunReach s i n) :
    (s.readTo buf f m c).asserted err i (fun s ino =>
      s.sfsBlockOp err false (buf + BitVec.ofNat 32 m) ino n) = none := by
  by_cases hd : CanPart err s c i n
  · refine asserted_none_of_fails fun u b hl => ?_
    rw [lookup_readTo hw hi hd] at hl
    obtain ⟨rfl, rfl⟩ := Prod.mk.inj (Option.some.inj hl)
    simp only [sfsBlockOp, Bool.false_eq_true, if_false]
    exact sfsRblock_fails fun hcan => hr fun k hk => (hcan k hk).1
  · exact (hw.reached_readTo hi.le).wholePart_none hw hd

end Present

/-! ## The three parts -/

/-- The bytes that a read of a range delivers. -/
def delivered (s : Sfs) (o e k : ℕ) : BitVec 8 :=
  if headLen o e ≤ k ∧ k < headLen o e + wholeCount o e * sfsBlksize then
    runByte s.disk (s.map (wholeFirst o)) (k - headLen o e)
  else s.content (o + k)

theorem delivered_head {k : ℕ} (hk : k < headLen o e) : delivered s o e k = s.content (o + k) :=
  if_neg (by omega)

theorem delivered_whole {k : ℕ} (hk : k < wholeCount o e * sfsBlksize) :
    delivered s o e (headLen o e + k) = runByte s.disk (s.map (wholeFirst o)) k := by
  rw [delivered, if_pos (by omega), Nat.add_sub_cancel_left]

theorem delivered_tail (k : ℕ) :
    delivered s o e (headLen o e + wholeCount o e * sfsBlksize + k) =
      s.content (o + (headLen o e + wholeCount o e * sfsBlksize + k)) :=
  if_neg (by omega)

/-- What a read of a range takes, right or wrong. -/
structure CanRead (err : ℕ → ℤ) (s : Sfs) (o e : ℕ) : Prop where
  head : 0 < o % sfsBlksize → CanPart err s 0 (o / sfsBlksize) (bufOps false)
  whole : 0 < wholeCount o e →
    CanPart err s (headOps s false o) (wholeFirst o) (wholeCount o e)
  run : RunReach s (wholeFirst o) (wholeCount o e)
  tail : 0 < tailLen o e →
    CanPart err s (headOps s false o + wholeOps s o e) (e / sfsBlksize) (bufOps false)

section Parts

variable (h : o < e) (he : e ≤ s.blocks * sfsBlksize)
include h he

theorem head_lt_blocks : o / sfsBlksize < s.blocks :=
  Nat.div_lt_of_lt_mul (by rw [Nat.mul_comm]; omega)

theorem whole_le_blocks (hn : 0 < wholeCount o e) : wholeFirst o + wholeCount o e ≤ s.blocks := by
  rw [(whole_start h hn).2]
  exact Nat.div_le_of_le_mul (by rwa [Nat.mul_comm])

theorem tail_lt_blocks (ht : 0 < tailLen o e) : e / sfsBlksize < s.blocks := by
  have htail := (tail_start h ht).1
  unfold sfsBlksize at *
  omega

variable (hw : Wf s)
include hw

theorem ioHead_read (hlen : e - o ≤ 2 ^ 32)
    (hc : 0 < o % sfsBlksize → CanPart err s 0 (o / sfsBlksize) (bufOps false)) :
    s.ioHead err false buf o e =
      some (s.readTo buf (delivered s o e) (headLen o e) (headOps s false o)) := by
  have hsum := parts_length h
  unfold ioHead headOps
  by_cases hr : 0 < o % sfsBlksize
  · obtain ⟨hfit, -, -⟩ := head_end h hr
    have hlt : o % sfsBlksize < sfsBlksize := Nat.mod_lt _ (by decide)
    have hdm := Nat.div_add_mod' o sfsBlksize
    have hpart := @bufPart_read err s buf (delivered s o e) 0 0 _ hw (head_lt_blocks h he)
      (o % sfsBlksize) (headLen o e) (hc hr) hlt hfit (by omega) fun j hj => by
        rw [Nat.zero_add, delivered_head hj]
        congr 1
        omega
    rw [readTo_zero, BitVec.add_zero, Nat.zero_add, Nat.zero_add] at hpart
    simp only [if_pos hr]
    rw [← hpart]
    simp only [headLen, if_pos hr]
  · have hlen0 : headLen o e = 0 := if_neg hr
    simp only [if_neg hr, hlen0]
    rw [readTo_zero]

theorem ioHead_read_none
    (hc : ¬ (0 < o % sfsBlksize → CanPart err s 0 (o / sfsBlksize) (bufOps false))) :
    s.ioHead err false buf o e = none := by
  push Not at hc
  unfold ioHead
  simp only [if_pos hc.1]
  exact (hw.reached (head_lt_blocks h he).le).bufPart_none hw hc.2

theorem ioWhole_read (hlen : e - o ≤ 2 ^ 32)
    (hc : 0 < wholeCount o e →
      CanPart err s (headOps s false o) (wholeFirst o) (wholeCount o e))
    (hr : RunReach s (wholeFirst o) (wholeCount o e)) :
    (s.readTo buf (delivered s o e) (headLen o e) (headOps s false o)).ioWhole err false
      (buf + BitVec.ofNat 32 (headLen o e)) (wholeFirst o) (wholeCount o e) =
      some (s.readTo buf (delivered s o e) (headLen o e + wholeCount o e * sfsBlksize)
        (headOps s false o + wholeOps s o e)) := by
  have hsum := parts_length h
  unfold ioWhole wholeOps
  by_cases hn : 0 < wholeCount o e
  · rw [if_pos hn, if_pos hn]
    have hle := whole_le_blocks h he hn
    exact wholePart_read hw (by omega) (hc hn) hr (by omega) fun j hj => delivered_whole hj
  · rw [if_neg hn, if_neg hn, Nat.eq_zero_of_not_pos hn, Nat.zero_mul]
    rfl

theorem ioWhole_read_none (hc : ¬ ((0 < wholeCount o e →
      CanPart err s (headOps s false o) (wholeFirst o) (wholeCount o e)) ∧
    RunReach s (wholeFirst o) (wholeCount o e))) :
    (s.readTo buf f m (headOps s false o)).ioWhole err false (buf + BitVec.ofNat 32 m)
      (wholeFirst o) (wholeCount o e) = none := by
  have hn : 0 < wholeCount o e := by
    by_contra hn
    exact hc ⟨fun hn' => absurd hn' hn, fun k hk => by omega⟩
  have hle := whole_le_blocks h he hn
  unfold ioWhole
  rw [if_pos hn]
  by_cases hr : RunReach s (wholeFirst o) (wholeCount o e)
  · have hp : ¬ CanPart err s (headOps s false o) (wholeFirst o) (wholeCount o e) :=
      fun hp => hc ⟨fun _ => hp, hr⟩
    exact (hw.reached_readTo (by omega)).wholePart_none hw hp
  · exact wholePart_read_none hw (by omega) hr

theorem ioTail_read (hlen : e - o ≤ 2 ^ 32) (hc : 0 < tailLen o e →
      CanPart err s (headOps s false o + wholeOps s o e) (e / sfsBlksize) (bufOps false)) :
    (s.readTo buf (delivered s o e) (headLen o e + wholeCount o e * sfsBlksize)
      (headOps s false o + wholeOps s o e)).ioTail err false
      (buf + BitVec.ofNat 32 (headLen o e + wholeCount o e * sfsBlksize)) o e =
      some (s.readTo buf (delivered s o e) (e - o)
        (headOps s false o + wholeOps s o e + tailOps s false o e)) := by
  have hsum := parts_length h
  unfold ioTail tailOps
  by_cases ht : 0 < tailLen o e
  · obtain ⟨htail, hstart, -⟩ := tail_start h ht
    have hlt : e % sfsBlksize < sfsBlksize := Nat.mod_lt _ (by decide)
    rw [if_pos ht, if_pos ht, ← hsum, ← htail]
    exact bufPart_read hw (tail_lt_blocks h he ht) (hc ht) (by decide) (by omega) (by omega)
      fun j hj => by
        rw [delivered_tail]
        congr 1
        omega
  · rw [if_neg ht, if_neg ht, ← hsum, Nat.eq_zero_of_not_pos ht]
    rfl

theorem ioTail_read_none (hc : ¬ (0 < tailLen o e →
      CanPart err s (headOps s false o + wholeOps s o e) (e / sfsBlksize) (bufOps false))) :
    (s.readTo buf f m (headOps s false o + wholeOps s o e)).ioTail err false
      (buf + BitVec.ofNat 32 m) o e = none := by
  push Not at hc
  unfold ioTail
  rw [if_pos hc.1]
  exact (hw.reached_readTo (tail_lt_blocks h he hc.1).le).bufPart_none hw hc.2

theorem ioParts_read (hlen : e - o ≤ 2 ^ 32) (hc : CanRead err s o e) :
    s.ioParts err false buf o e = some (s.readTo buf (delivered s o e) (e - o)
      (headOps s false o + wholeOps s o e + tailOps s false o e), e - o) := by
  unfold ioParts
  rw [ioHead_read h he hw hlen hc.head, Option.bind_some]
  simp only []
  rw [ioWhole_read h he hw hlen hc.whole hc.run, Option.bind_some]
  rw [ioTail_read h he hw hlen hc.tail, Option.map_some, parts_length h]

theorem ioParts_read_none (hlen : e - o ≤ 2 ^ 32) (hc : ¬ CanRead err s o e) :
    s.ioParts err false buf o e = none := by
  unfold ioParts
  by_cases hhead : 0 < o % sfsBlksize → CanPart err s 0 (o / sfsBlksize) (bufOps false)
  · rw [ioHead_read h he hw hlen hhead, Option.bind_some]
    simp only []
    by_cases hwhole : (0 < wholeCount o e →
        CanPart err s (headOps s false o) (wholeFirst o) (wholeCount o e)) ∧
      RunReach s (wholeFirst o) (wholeCount o e)
    · rw [ioWhole_read h he hw hlen hwhole.1 hwhole.2, Option.bind_some]
      rw [ioTail_read_none h he hw fun ht => hc ⟨hhead, hwhole.1, hwhole.2, ht⟩]
      rfl
    · rw [ioWhole_read_none h he hw hwhole]
      rfl
  · rw [ioHead_read_none h he hw hhead]
    rfl

end Parts

end Sfs

end Ucore

end CacheCPU
