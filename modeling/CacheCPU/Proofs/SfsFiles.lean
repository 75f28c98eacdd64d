import CacheCPU.Proofs.SfsTrunc
import Mathlib.Algebra.BigOperators.Group.Finset.Basic

/-!
# The files of one file system

A call on one file that succeeds takes only free blocks and frees only its own (`Leaves`), so a run
of such calls, and of calls that fail and change nothing, keeps all files well-formed and apart from
each other, changes no file that is not called, and loses no block.
-/

namespace CacheCPU

namespace Ucore

namespace Sfs

open Patch

variable {err : ℕ → ℤ} {s t u g : Sfs} {write : Bool} {buf offset len : BitVec 32}

/-- The file has just the blocks for its size. -/
def Tight (s : Sfs) : Prop := s.blocks = blksOf s.size

/-! ## What a transfer leaves -/

/-- Only bytes have been moved. -/
def Moved (s t : Sfs) : Prop := ∃ d m n, t = { s with disk := d, mem := m, ops := n }

theorem Moved.refl (s : Sfs) : Moved s s := ⟨s.disk, s.mem, s.ops, rfl⟩

theorem Moved.trans (h : Moved s t) (h' : Moved t u) : Moved s u := by
  obtain ⟨d, m, n, rfl⟩ := h
  obtain ⟨d', m', n', rfl⟩ := h'
  exact ⟨d', m', n', rfl⟩

theorem Moved.kept (h : Moved s t) : Kept s t := by
  obtain ⟨d, m, n, rfl⟩ := h
  exact ⟨rfl, rfl, fun _ h => h, .inl rfl⟩

theorem blksOf_pos {e : ℕ} (he : 0 < e) : blksOf e = (e - 1) / sfsBlksize + 1 := by
  unfold blksOf sfsBlksize
  omega

theorem blksOf_mono {a b : ℕ} (h : a ≤ b) : blksOf a ≤ blksOf b := by
  unfold blksOf sfsBlksize
  omega

theorem WroteTo.leaves {o e c : ℕ} (h : o < e) (hw : Wf s) (ht : Tight s) (hk : Kept s t)
    (hwt : WroteTo s t buf o (e - o) ((e - 1) / sfsBlksize + 1) c) :
    Leaves s (t.sized e) ∧ Tight (t.sized e) := by
  have htb := hwt.blocks
  have hsize := hwt.size
  have hpos := @blksOf_pos e (by omega)
  have hdisk : ∀ b : ℕ, s.freemap[b]? ≠ some true → ¬ Owns s b → t.disk b = s.disk b := by
    intro b hb hno
    refine hwt.disk b (fun j _ hj he => ?_) fun _ hne he => ?_
    · by_cases hjs : j < s.blocks
      · exact hno (.inl ⟨j, hjs, (hwt.map j hjs).symm.trans he⟩)
      · have hf := hwt.fresh j (by omega) (by omega)
        rw [he] at hf
        exact hb hf
    · rcases hk.indirect with hi | hf
      · exact hno (.inr ⟨by rwa [← hi], (he.trans hi).symm⟩)
      · rw [← he] at hf
        exact hb hf
  unfold sized Tight at *
  split_ifs with hlt
  · refine ⟨hwt.toReached.leaves hw hk ?_ hdisk, ?_⟩
    · have := le_blksOf e
      have : blksOf e * sfsBlksize ≤ t.blocks * sfsBlksize := Nat.mul_le_mul_right _ (by omega)
      omega
    · change t.blocks = blksOf e
      have := blksOf_mono (by omega : s.size ≤ e)
      omega
  · refine ⟨hwt.toReached.leaves hw hk hwt.wf.size hdisk, ?_⟩
    have := blksOf_mono (by omega : e ≤ s.size)
    rw [hsize]
    omega

theorem Truncated.tight {n : ℕ} (h : Truncated s t n) : Tight t := by
  rw [Tight, h.size]
  exact h.blocks

/-- The file `g` on the disk of `t`. -/
def onDisk (t g : Sfs) : Sfs :=
  { t with
    isDir := g.isDir
    size := g.size
    blocks := g.blocks
    direct := g.direct
    indirect := g.indirect
    dirty := g.dirty }

/-- Two files of one disk. -/
structure OneDisk (s g : Sfs) : Prop where
  superBlocks : g.superBlocks = s.superBlocks
  unused : g.unusedBlocks = s.unusedBlocks
  freemap : g.freemap = s.freemap
  disk : g.disk = s.disk

theorem Wf.inuse_of_owns {b : ℕ} (hg : Wf g) (h : Owns g b) : g.blockInuse b := by
  rcases h with ⟨j, hj, rfl⟩ | ⟨hne, rfl⟩
  · exact hg.inuse j hj
  · exact (hg.indirect hne).1

section Other

variable (h : Leaves s t) (ho : OneDisk s g) (hap : ∀ b, Owns g b → ¬ Owns s b) (hg : Wf g)
include h ho hap

theorem Leaves.inuse_other {b : ℕ} (hb : Owns g b) (huse : g.blockInuse b) :
    (onDisk t g).blockInuse b := by
  obtain ⟨h0, hlt, hf⟩ := huse
  exact h.inuse b ⟨h0, ho.superBlocks ▸ hlt, ho.freemap ▸ hf⟩ (hap b hb)

include hg

theorem Leaves.disk_other {b : ℕ} (hb : Owns g b) : t.disk b = g.disk b := by
  rw [ho.disk]
  refine h.disk b ?_ (hap b hb)
  rw [← ho.freemap, (hg.inuse_of_owns hb).2.2]
  simp

theorem Leaves.map_other {j : ℕ} (hj : j < sfsNdirect ∨ g.indirect ≠ 0) :
    (onDisk t g).map j = g.map j := by
  unfold map
  split_ifs with h12
  · rfl
  · have hne := hj.resolve_left h12
    exact congrArg (entryOf · _) (h.disk_other ho hap hg (.inr ⟨hne, rfl⟩))

theorem Leaves.map_other_lt {j : ℕ} (hj : j < g.blocks) : (onDisk t g).map j = g.map j := by
  refine h.map_other ho hap hg ?_
  by_cases h12 : j < sfsNdirect
  · exact .inl h12
  · exact .inr (hg.present (by omega))

theorem Leaves.owns_other {b : ℕ} : Owns (onDisk t g) b ↔ Owns g b := by
  refine or_congr (exists_congr fun j => and_congr_right fun hj => ?_) Iff.rfl
  rw [h.map_other_lt ho hap hg hj]

theorem Leaves.wf_other : Wf (onDisk t g) where
  file := hg.file
  bound := h.wf.bound
  unused := h.wf.unused
  free := h.wf.free
  blocks := hg.blocks
  size := hg.size
  inuse j hj := by
    rw [h.map_other_lt ho hap hg hj]
    exact h.inuse_other ho hap (.inl ⟨j, hj, rfl⟩) (hg.inuse j hj)
  inj j hj k hk he := by
    rw [h.map_other_lt ho hap hg hj, h.map_other_lt ho hap hg hk] at he
    exact hg.inj j hj k hk he
  indirect hne := by
    refine ⟨h.inuse_other ho hap (.inr ⟨hne, rfl⟩) (hg.indirect hne).1, fun j hj => ?_⟩
    rw [h.map_other_lt ho hap hg hj]
    exact (hg.indirect hne).2 j hj
  present := hg.present
  rest j hj hm hor := by
    rw [h.map_other ho hap hg hor]
    exact hg.rest j hj hm hor

end Other

end Sfs

namespace SfsFs

open Sfs

variable {ι : Type} {err : ℕ → ℤ} {v w : SfsFs ι} {f g : ι}

/-! ## Runs of calls -/

/-- The files are well-formed, with just the blocks for their sizes, and no block is in two. -/
structure Sound (v : SfsFs ι) : Prop where
  wf : ∀ f, Wf (v.file f)
  tight : ∀ f, Tight (v.file f)
  apart : ∀ f g, f ≠ g → ∀ b, Owns (v.file g) b → ¬ Owns (v.file f) b

theorem oneDisk (v : SfsFs ι) (f g : ι) : OneDisk (v.file f) (v.file g) := ⟨rfl, rfl, rfl, rfl⟩

variable [DecidableEq ι]

theorem file_setFile_self (v : SfsFs ι) (f : ι) (s : Sfs) : (v.setFile f s).file f = s := by
  simp [file, setFile]

theorem file_setFile_of_ne (v : SfsFs ι) (s : Sfs) (h : g ≠ f) :
    (v.setFile f s).file g = onDisk s (v.file g) := by
  simp [file, setFile, onDisk, h]

section Step

variable {s : Sfs} (hv : Sound v) (hl : Leaves (v.file f) s) (ht : Tight s)
include hv hl

theorem Sound.owns_setFile (hg : g ≠ f) {b : ℕ} :
    Owns ((v.setFile f s).file g) b ↔ Owns (v.file g) b := by
  rw [file_setFile_of_ne v s hg]
  exact hl.owns_other (oneDisk v f g) (hv.apart f g hg.symm) (hv.wf g)

omit [DecidableEq ι] in
/-- The file that is called takes no block of another. -/
theorem Sound.apart_setFile (hg : g ≠ f) {b : ℕ} (h : Owns (v.file g) b) : ¬ Owns s b := by
  intro hs
  rcases hl.owns b hs with ho | hf
  · exact hv.apart f g hg.symm b h ho
  · have := ((hv.wf g).inuse_of_owns h).2.2
    rw [(oneDisk v f g).freemap, hf] at this
    cases this

include ht

theorem Sound.setFile : Sound (v.setFile f s) where
  wf g := by
    by_cases hg : g = f
    · rw [hg, file_setFile_self]
      exact hl.wf
    · rw [file_setFile_of_ne v s hg]
      exact hl.wf_other (oneDisk v f g) (hv.apart f g (Ne.symm hg)) (hv.wf g)
  tight g := by
    by_cases hg : g = f
    · rw [hg, file_setFile_self]
      exact ht
    · rw [file_setFile_of_ne v s hg]
      exact hv.tight g
  apart g k hgk b hb := by
    by_cases hk : k = f
    · subst hk
      rw [file_setFile_self] at hb
      rw [hv.owns_setFile hl hgk]
      exact fun ho => hv.apart_setFile hl hgk ho hb
    · rw [hv.owns_setFile hl hk] at hb
      by_cases hg : g = f
      · rw [hg, file_setFile_self]
        exact hv.apart_setFile hl hk hb
      · rw [hv.owns_setFile hl hg]
        exact hv.apart g k hgk b hb

end Step

end SfsFs

end Ucore

end CacheCPU
