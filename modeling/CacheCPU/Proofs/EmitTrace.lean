import CacheCPU.Proofs.Simplify
import Mathlib.Data.List.Perm.Subperm

/-!
# `emitTrace`

Every call emits the blocks that can be reached and were not emitted before, each of them once, with
its end: what follows a block is the return, a branch to the next block or that block itself. So the
text does what the graph does.
-/

namespace CacheCPU

namespace Decaf

namespace FlowGraph

open Trace

variable {bbs : List BasicBlock} {label : ℤ → Label}

/-- The text goes to the block `i`, by a branch or by being there. -/
def Goes (label : ℤ → Label) (i : ℤ) (post : List Tac) : Prop :=
  ∃ rest, post = .branch (label i) :: rest ∨ post = .mark (label i) :: rest

/-- The text behind the operations of a block does what the block does at its end. -/
inductive Realises (label : ℤ → Label) (b : BasicBlock) : List Tac → Prop
  | ret {rest : List Tac} (hk : b.endKind = .byReturn) : Realises label b (.ret b.var :: rest)
  | branch {post : List Tac} (hk : b.endKind = .byBranch) (hg : Goes label b.next0 post) :
      Realises label b post
  | beqz {c : Temp} {post : List Tac} (hk : b.endKind = .byBeqz) (hv : b.var = some c)
      (hg : Goes label b.next1 post) : Realises label b (.beqz c (label b.next0) :: post)
  | bnez {c : Temp} {post : List Tac} (hk : b.endKind = .byBnez) (hv : b.var = some c)
      (hg : Goes label b.next1 post) : Realises label b (.bnez c (label b.next0) :: post)

theorem Goes.append {i : ℤ} {post : List Tac} (h : Goes label i post) (d : List Tac) :
    Goes label i (post ++ d) := by
  obtain ⟨rest, rfl | rfl⟩ := h
  · exact ⟨rest ++ d, .inl rfl⟩
  · exact ⟨rest ++ d, .inr rfl⟩

theorem Realises.append {b : BasicBlock} {post : List Tac} (h : Realises label b post)
    (d : List Tac) : Realises label b (post ++ d) := by
  cases h with
  | ret hk => exact .ret hk
  | branch hk hg => exact .branch hk (hg.append d)
  | beqz hk hv hg => exact .beqz hk hv (hg.append d)
  | bnez hk hv hg => exact .bnez hk hv (hg.append d)

/-- The block `j` stands in the text. -/
def Placed (bbs : List BasicBlock) (label : ℤ → Label) (c : List Tac) (j : ℤ) : Prop :=
  ∃ b pre post, getBlock bbs j = some b ∧ c = pre ++ .mark (label j) :: (b.tacList ++ post)
    ∧ Realises label b post

theorem Placed.append {c : List Tac} {j : ℤ} (h : Placed bbs label c j) (c' d : List Tac) :
    Placed bbs label (c' ++ c ++ d) j := by
  obtain ⟨b, pre, post, hb, rfl, hr⟩ := h
  exact ⟨b, c' ++ pre, post ++ d, hb, by simp, hr.append d⟩

/-- The text `c` of the blocks `new`, after those in `mark`. -/
structure Laid (bbs : List BasicBlock) (label : ℤ → Label) (mark : List ℤ) (c : List Tac)
    (new : List ℤ) : Prop where
  marks : marks c = new.map label
  nodup : (new.reverse ++ mark).Nodup
  range : ∀ j ∈ new, ∃ k : ℕ, j = k ∧ k < bbs.length
  placed : ∀ j ∈ new, Placed bbs label c j
  closed : ∀ j ∈ new, ∀ b, getBlock bbs j = some b → ∀ i ∈ succs b, i ∈ new.reverse ++ mark

theorem Laid.nothing {mark : List ℤ} (h : mark.Nodup) {c : List Tac} (hc : Decaf.marks c = []) :
    Laid bbs label mark c [] :=
  ⟨hc, h, by simp, by simp, by simp⟩

theorem Laid.append {mark new new' : List ℤ} {c c' : List Tac} (h : Laid bbs label mark c new)
    (h' : Laid bbs label (new.reverse ++ mark) c' new') :
    Laid bbs label mark (c ++ c') (new ++ new') where
  marks := by rw [marks_append, h.marks, h'.marks, List.map_append]
  nodup := by
    rw [List.reverse_append, List.append_assoc]
    exact h'.nodup
  range j hj := (List.mem_append.1 hj).elim (h.range j) (h'.range j)
  placed j hj := by
    rcases List.mem_append.1 hj with hj | hj
    · exact (h.placed j hj).append [] c'
    · simpa using (h'.placed j hj).append c []
  closed j hj b hb i hi := by
    rw [List.reverse_append, List.append_assoc]
    rcases List.mem_append.1 hj with hj | hj
    · exact List.mem_append_right _ (h.closed j hj b hb i hi)
    · exact h'.closed j hj b hb i hi

/-- One block, with the text behind it. -/
theorem Laid.block (hs : Sound bbs) {mark new : List ℤ} {k : ℕ} {b : BasicBlock}
    {d : List Tac} (hb : bbs[k]? = some b) (h : Laid bbs label ((k : ℤ) :: mark) d new)
    (hr : Realises label b d) (hn : ∀ i ∈ succs b, i ∈ new.reverse ++ (k : ℤ) :: mark) :
    Laid bbs label mark (.mark (label k) :: b.tacList ++ d) ((k : ℤ) :: new) where
  marks := by
    obtain ⟨ops, hops⟩ := hs.ops b (List.mem_of_getElem? hb)
    have : Decaf.marks (ops.map .instr) = [] := by
      rw [List.eq_nil_iff_forall_not_mem]
      simp [mem_marks]
    rw [List.cons_append, marks_mark, marks_append, hops, this, h.marks]
    rfl
  nodup := by
    rw [List.reverse_cons, List.append_assoc]
    exact h.nodup
  range j hj := by
    rcases List.mem_cons.1 hj with rfl | hj
    · exact ⟨k, rfl, (List.getElem?_eq_some_iff.1 hb).1⟩
    · exact h.range j hj
  placed j hj := by
    rcases List.mem_cons.1 hj with rfl | hj
    · exact ⟨b, [], d, by rw [getBlock_natCast, hb], rfl, hr⟩
    · simpa using (h.placed j hj).append (.mark (label k) :: b.tacList) []
  closed j hj b' hb' i hi := by
    rw [List.reverse_cons, List.append_assoc]
    rcases List.mem_cons.1 hj with rfl | hj
    · rw [getBlock_natCast, hb] at hb'
      cases hb'
      exact hn i hi
    · exact h.closed j hj b' hb' i hi

/-- The block `j` can be reached from `i`. -/
def Reach (bbs : List BasicBlock) (i j : ℤ) : Prop :=
  Relation.ReflTransGen (fun i j => ∃ b, getBlock bbs i = some b ∧ j ∈ succs b) i j

theorem length_lt_of_not_mem {mark : List ℤ} {k : ℕ} (hn : mark.Nodup)
    (hr : ∀ j ∈ mark, ∃ k : ℕ, j = k ∧ k < bbs.length) (hk : k < bbs.length)
    (hm : (k : ℤ) ∉ mark) : mark.length < bbs.length := by
  have hsub : (k : ℤ) :: mark ⊆ (List.range bbs.length).map Int.ofNat := by
    intro j hj
    rw [List.mem_map]
    rcases List.mem_cons.1 hj with rfl | hj
    · exact ⟨k, List.mem_range.2 hk, rfl⟩
    · obtain ⟨k, rfl, hk⟩ := hr j hj
      exact ⟨k, List.mem_range.2 hk, rfl⟩
  have hle := (List.subperm_of_subset (List.nodup_cons.2 ⟨hm, hn⟩) hsub).length_le
  rw [List.length_map, List.length_range, List.length_cons] at hle
  exact hle

/-- What a call gives: the text of the blocks `new`. -/
structure Emitted (bbs : List BasicBlock) (label : ℤ → Label) (mark : List ℤ) (i : ℤ)
    (c : List Tac) (new : List ℤ) : Prop where
  laid : Laid bbs label mark c new
  mem : i ∈ new.reverse ++ mark
  head : i ∉ mark → ∃ rest, c = .mark (label i) :: rest
  reach : ∀ j ∈ new, Reach bbs i j

section Emit

variable (hs : Sound bbs) {n : ℕ} {mark : List ℤ} {k : ℕ} {b : BasicBlock}

/-- The call at the end of a block, with the branch in its place. -/
theorem emit_next (hrec : ∀ (mark : List ℤ) (k : ℕ), mark.Nodup →
      (∀ j ∈ mark, ∃ k : ℕ, j = k ∧ k < bbs.length) → k < bbs.length →
      bbs.length - mark.length < n → ∃ c new,
        emitTrace bbs label n mark k = some (c, new.reverse ++ mark)
          ∧ Emitted bbs label mark k c new)
    (hn : mark.Nodup) (hr : ∀ j ∈ mark, ∃ k : ℕ, j = k ∧ k < bbs.length)
    (hk : k < bbs.length) (hlt : bbs.length - mark.length < n) :
    ∃ d new, (if (k : ℤ) ∈ mark then some ([.branch (label k)], mark)
        else emitTrace bbs label n mark k) = some (d, new.reverse ++ mark)
      ∧ Laid bbs label mark d new ∧ (k : ℤ) ∈ new.reverse ++ mark ∧ Goes label k d
      ∧ ∀ j ∈ new, Reach bbs k j := by
  by_cases hm : (k : ℤ) ∈ mark
  · rw [if_pos hm]
    exact ⟨_, [], rfl, .nothing hn rfl, hm, ⟨[], .inl rfl⟩, by simp⟩
  · rw [if_neg hm]
    obtain ⟨c, new, hc, he⟩ := hrec mark k hn hr hk hlt
    obtain ⟨rest, rfl⟩ := he.head hm
    exact ⟨_, new, hc, he.laid, he.mem, ⟨rest, .inr rfl⟩, he.reach⟩

section Equations

variable (hm : (k : ℤ) ∉ mark) (hb : bbs[k]? = some b)
include hm hb

theorem emitTrace_byReturn (hk : b.endKind = .byReturn) : emitTrace bbs label (n + 1) mark k
    = some (.mark (label k) :: b.tacList ++ [.ret b.var], (k : ℤ) :: mark) := by
  rw [emitTrace, if_neg hm, getBlock_natCast, hb]
  simp [hk]

theorem emitTrace_byBranch (hk : b.endKind = .byBranch) : emitTrace bbs label (n + 1) mark k
    = (if b.next0 ∈ (k : ℤ) :: mark then some ([.branch (label b.next0)], (k : ℤ) :: mark)
      else emitTrace bbs label n ((k : ℤ) :: mark) b.next0).map fun r =>
        (.mark (label k) :: b.tacList ++ r.1, r.2) := by
  rw [emitTrace, if_neg hm, getBlock_natCast, hb]
  simp only [Option.bind_eq_bind, Option.bind_some, hk]
  by_cases hn : b.next0 ∈ (k : ℤ) :: mark
  · rw [if_pos hn, if_pos hn]
    rfl
  · rw [if_neg hn, if_neg hn, Option.map_eq_bind]
    rfl

theorem emitTrace_test (hk : b.endKind = .byBeqz ∨ b.endKind = .byBnez) {c : Temp}
    (hv : b.var = some c) : emitTrace bbs label (n + 1) mark k
    = (if b.next1 ∈ (k : ℤ) :: mark then some ([.branch (label b.next1)], (k : ℤ) :: mark)
      else emitTrace bbs label n ((k : ℤ) :: mark) b.next1).bind fun r =>
        (emitTrace bbs label n r.2 b.next0).map fun r' => (.mark (label k) :: b.tacList
          ++ ((if b.endKind = .byBeqz then .beqz c (label b.next0) else .bnez c (label b.next0))
            :: r.1 ++ r'.1), r'.2) := by
  rw [emitTrace, if_neg hm, getBlock_natCast, hb]
  by_cases hn : b.next1 = k ∨ b.next1 ∈ mark
  · rcases hk with hk | hk <;> simp [hk, hv, hn, Option.map_eq_bind]
  · rcases hk with hk | hk <;> simp [hk, hv, hn, Option.map_eq_bind]

end Equations

include hs

theorem emitTrace_of : ∀ (n : ℕ) (mark : List ℤ) (k : ℕ), mark.Nodup →
    (∀ j ∈ mark, ∃ k : ℕ, j = k ∧ k < bbs.length) → k < bbs.length →
    bbs.length - mark.length < n → ∃ c new,
      emitTrace bbs label n mark k = some (c, new.reverse ++ mark) ∧ Emitted bbs label mark k c new
  | 0, _, _, _, _, _, hlt => by omega
  | n + 1, mark, k, hn, hr, hk, hlt => by
    by_cases hm : (k : ℤ) ∈ mark
    · refine ⟨[], [], by simp [emitTrace, hm], .nothing hn rfl, hm, fun h => absurd hm h, by simp⟩
    have hroom := length_lt_of_not_mem hn hr hk hm
    have hb := List.getElem?_eq_getElem hk
    have hmem := List.getElem_mem hk
    have hn1 : ((k : ℤ) :: mark).Nodup := List.nodup_cons.2 ⟨hm, hn⟩
    have hr1 : ∀ j ∈ (k : ℤ) :: mark, ∃ k : ℕ, j = k ∧ k < bbs.length :=
      List.forall_mem_cons.2 ⟨⟨k, rfl, hk⟩, hr⟩
    have hlt1 : bbs.length - ((k : ℤ) :: mark).length < n := by
      rw [List.length_cons]
      omega
    have hstep : ∀ i ∈ succs bbs[k], ∀ j, Reach bbs i j → Reach bbs k j := fun i hi j hj =>
      .head ⟨_, by rw [getBlock_natCast, hb], hi⟩ hj
    -- what is common to all ends of the block
    have hdone : ∀ {d new}, Laid bbs label ((k : ℤ) :: mark) d new → Realises label bbs[k] d →
        (∀ i ∈ succs bbs[k], i ∈ new.reverse ++ (k : ℤ) :: mark) → (∀ j ∈ new, Reach bbs k j) →
        Emitted bbs label mark k (.mark (label k) :: bbs[k].tacList ++ d) ((k : ℤ) :: new) :=
      fun hl hre hc hreach => ⟨.block hs hb hl hre hc, by simp, fun _ => ⟨_, rfl⟩,
        List.forall_mem_cons.2 ⟨.refl, hreach⟩⟩
    have hkind : bbs[k].endKind = .byReturn ∨ bbs[k].endKind = .byBranch
        ∨ (bbs[k].endKind = .byBeqz ∨ bbs[k].endKind = .byBnez) := by
      cases bbs[k].endKind <;> simp
    rcases hkind with hkind | hkind | hkind
    · rw [emitTrace_byReturn hm hb hkind]
      exact ⟨_, [(k : ℤ)], rfl, hdone (.nothing hn1 rfl) (.ret hkind) (by simp [succs, hkind])
        (by simp)⟩
    · obtain ⟨i, hi, hil⟩ := hs.next _ hmem bbs[k].next0 (by simp [succs, hkind])
      obtain ⟨d, new, hd, hl, hin, hg, hreach⟩ := emit_next (emitTrace_of n) hn1 hr1 hil hlt1
      rw [emitTrace_byBranch hm hb hkind, hi, hd]
      refine ⟨_, (k : ℤ) :: new, by simp, hdone hl (.branch hkind (hi ▸ hg)) ?_ fun j hj => ?_⟩
      · simpa [succs, hkind, hi] using hin
      · exact hstep i (by simp [succs, hkind, hi]) j (hreach j hj)
    · obtain ⟨c, hv⟩ := hs.var _ hmem hkind
      have hsuccs : succs bbs[k] = [bbs[k].next1, bbs[k].next0] := by
        rcases hkind with hkind | hkind <;> simp [succs, hkind]
      obtain ⟨i1, hi1, hil1⟩ := hs.next _ hmem bbs[k].next1 (by simp [hsuccs])
      obtain ⟨i0, hi0, hil0⟩ := hs.next _ hmem bbs[k].next0 (by simp [hsuccs])
      obtain ⟨d, new, hd, hl, hin, hg, hreach⟩ := emit_next (emitTrace_of n) hn1 hr1 hil1 hlt1
      obtain ⟨c', new', hc', he⟩ := emitTrace_of n (new.reverse ++ (k : ℤ) :: mark) i0 hl.nodup
        (fun j hj => (List.mem_append.1 hj).elim (fun hj => hl.range j (by simpa using hj)) (hr1 j))
        hil0 (by rw [List.length_append]; omega)
      rw [emitTrace_test hm hb hkind hv, hi1, hd, Option.bind_some, hi0, hc']
      refine ⟨_, (k : ℤ) :: (new ++ new'), congrArg some (Prod.ext rfl (by simp)),
        hdone ?_ ?_ ?_ fun j hj => ?_⟩
      · exact Laid.append (c := _ :: d) (.append (c := [_]) (.nothing hn1 (by split <;> rfl)) hl)
          he.laid
      · rw [← hi0]
        rcases hkind with hkind | hkind
        · rw [if_pos hkind]
          exact .beqz hkind hv ((hi1 ▸ hg).append c')
        · rw [if_neg (by simp [hkind])]
          exact .bnez hkind hv ((hi1 ▸ hg).append c')
      · rw [hsuccs, hi1, hi0, List.reverse_append, List.append_assoc]
        exact List.forall_mem_cons.2 ⟨List.mem_append_right _ hin, by simpa using he.mem⟩
      · rcases List.mem_append.1 hj with hj | hj
        · exact hstep i1 (by simp [hsuccs, hi1]) j (hreach j hj)
        · exact hstep i0 (by simp [hsuccs, hi0]) j (he.reach j hj)

end Emit

/-! ## The text -/

/-- The text and the graph stand at the same place of a block. -/
def AtBlock {σ : Type} (bbs : List BasicBlock) (label : ℤ → Label) (out : List Tac)
    (order : List ℤ) : List Tac × σ → ℤ × List Tac × σ → Prop
  | (c, x), (i, rest, x') => x = x' ∧ i ∈ order ∧ c <:+ out
      ∧ ∃ (b : BasicBlock) (ops : List Instr) (post : List Tac), getBlock bbs i = some b
        ∧ rest = ops.map .instr ∧ c = rest ++ post ∧ Realises label b post

section Text

variable {out : List Tac} {order : List ℤ} (hs : Sound bbs)
  (hl : Laid bbs label [] out order) (hinj : ∀ i ∈ order, ∀ j ∈ order, label i = label j → i = j)

theorem mem_of_getBlock {i : ℤ} {b : BasicBlock} (h : getBlock bbs i = some b) : b ∈ bbs := by
  unfold getBlock at h
  split at h
  · exact List.mem_of_getElem? h
  · cases h

include hl hinj

theorem nodup_marks_out : (marks out).Nodup := by
  rw [hl.marks]
  have := hl.nodup
  rw [List.append_nil, List.nodup_reverse] at this
  exact this.map_on hinj

include hs

/-- The text at the label of a block is that block. -/
theorem codeAt_out {σ : Type} {i : ℤ} (hi : i ∈ order) (x : σ) : ∃ rest st,
    codeAt out (label i) = .mark (label i) :: rest ∧ enter bbs i x = some (.silent st)
      ∧ AtBlock bbs label out order (rest, x) st := by
  obtain ⟨b, pre, post, hb, hout, hr⟩ := hl.placed i hi
  obtain ⟨ops, hops⟩ := hs.ops b (mem_of_getBlock hb)
  have hn := nodup_marks_out hl hinj
  rw [hout] at hn
  refine ⟨b.tacList ++ post, (i, b.tacList, x), ?_, ?_, rfl, hi, ?_, b, ops, post, hb, hops, rfl, hr⟩
  · rw [hout]
    exact codeAt_append (not_mem_of_nodup_marks hn).1 _
  · unfold enter
    rw [hb]
    rfl
  · rw [hout]
    exact (List.suffix_cons _ _).trans (List.suffix_append _ _)

section Run

variable {σ : Type} (M : Machine σ) {i k : ℤ} (hi : i ∈ order) {c : List Tac} {x : σ}
  (hgraph : graphStep M bbs (k, [], x) = enter bbs i x)
include hi hgraph

/-- The text jumps to the label of a block, and the graph enters it. -/
theorem matches_jump (htext : tacStep M out (c, x) = some (.silent (codeAt out (label i), x))) :
    Matches (tacStep M out) (graphStep M bbs) (AtBlock bbs label out order) (c, x) (k, [], x) := by
  obtain ⟨rest, st, hcode, he, hat⟩ := codeAt_out hs hl hinj hi x
  rw [hcode] at htext
  exact .silent (hgraph.trans he) htext (.head rfl (.refl _)) hat

/-- The text goes on to a block, and the graph enters it. -/
theorem matches_goes {post : List Tac} (hg : Goes label i post) (hsuf : post <:+ out)
    (htext : c = post ∨ tacStep M out (c, x) = some (.silent (post, x))) :
    Matches (tacStep M out) (graphStep M bbs) (AtBlock bbs label out order) (c, x) (k, [], x) := by
  obtain ⟨rest, st, hcode, he, hat⟩ := codeAt_out hs hl hinj hi x
  have hpost : ∃ c₁, tacStep M out (post, x) = some (.silent (c₁, x))
      ∧ Quiet (tacStep M out) (c₁, x) (rest, x) := by
    obtain ⟨rest', rfl | rfl⟩ := hg
    · exact ⟨_, rfl, by rw [hcode]; exact .head rfl (.refl _)⟩
    · -- the label is marked once, so this is the block
      obtain ⟨p, hp⟩ := hsuf
      have hn := nodup_marks_out hl hinj
      rw [← hp] at hn hcode
      rw [codeAt_append (not_mem_of_nodup_marks hn).1, List.cons_inj_right] at hcode
      exact ⟨_, rfl, by rw [hcode]; exact .refl _⟩
  obtain ⟨c₁, h1, hq⟩ := hpost
  rcases htext with rfl | htext
  · exact .silent (hgraph.trans he) h1 hq hat
  · exact .silent (hgraph.trans he) htext (.head h1 hq) hat

end Run

theorem follows_emit {σ : Type} (M : Machine σ) :
    Follows (tacStep M out) (graphStep M bbs) (AtBlock bbs label out order) := by
  rintro ⟨c, x⟩ ⟨i, rest, x'⟩ ⟨rfl, hi, hsuf, b, ops, post, hb, rfl, rfl, hr⟩
  cases ops with
  | nil =>
    have hclosed := hl.closed i hi b hb
    rw [List.append_nil] at hclosed
    have hnext : ∀ j ∈ succs b, j ∈ order := fun j hj => List.mem_reverse.1 (hclosed j hj)
    cases hr with
    | ret hk => exact .stop (graphStep_byReturn M hb hk x) (.refl _) rfl
    | branch hk hg =>
      exact matches_goes hs hl hinj M (hnext _ (by simp [succs, hk]))
        (graphStep_byBranch M hb hk x) hg hsuf (.inl rfl)
    | @beqz t post hk hv hg =>
      have hgraph := graphStep_byBeqz M hb hk hv x
      by_cases hz : M.zero t x = true
      · rw [if_pos hz] at hgraph
        exact matches_jump hs hl hinj M (hnext _ (by simp [succs, hk])) hgraph (by simp [tacStep, hz])
      · rw [if_neg hz] at hgraph
        exact matches_goes hs hl hinj M (hnext _ (by simp [succs, hk])) hgraph hg
          ((List.suffix_cons _ _).trans hsuf) (.inr (by simp [tacStep, hz]))
    | @bnez t post hk hv hg =>
      have hgraph := graphStep_byBnez M hb hk hv x
      by_cases hz : M.zero t x = true
      · rw [if_pos hz] at hgraph
        exact matches_goes hs hl hinj M (hnext _ (by simp [succs, hk])) hgraph hg
          ((List.suffix_cons _ _).trans hsuf) (.inr (by simp [tacStep, hz]))
      · rw [if_neg hz] at hgraph
        exact matches_jump hs hl hinj M (hnext _ (by simp [succs, hk])) hgraph (by simp [tacStep, hz])
  | cons op ops =>
    cases he : M.exec op x with
    | none => exact .stop (graphStep_halt M _ bbs i he) (.refl _) (tacStep_halt M _ _ he)
    | some x' =>
      exact .emit (graphStep_exec M _ bbs i he) (.refl _) (tacStep_exec M _ _ he)
        ⟨rfl, hi, (List.suffix_cons _ _).trans hsuf, b, ops, post, hb, rfl, rfl, hr⟩

end Text

/-- The labels of the blocks, made one after the other. -/
def blockLabel (nextLabel : ℕ) (i : ℤ) : Label := .num (nextLabel + i.toNat)

/-- Every block that can be reached is emitted once, and the text does what the graph does. -/
theorem emit_of (hs : Sound bbs) (hne : bbs ≠ []) (nextLabel : ℕ) :
    ∃ (out : List Tac) (order : List ℤ), emit bbs nextLabel = some out ∧ order.Nodup
      ∧ (∀ j, j ∈ order ↔ Reach bbs 0 j) ∧ marks out = order.map (blockLabel nextLabel)
      ∧ (∀ j ∈ order, Placed bbs (blockLabel nextLabel) out j)
      ∧ ∀ {σ : Type} (M : Machine σ) (x : σ) (is : List Instr) (r : Option (Ending σ)),
        Shows (tacStep M out) (out, x) is r
          ↔ Shows (graphStep M bbs) (0, tacsAt bbs 0, x) is r := by
  have hpos := List.length_pos_iff.2 hne
  obtain ⟨out, order, hout, he⟩ : ∃ c new,
      emitTrace bbs (blockLabel nextLabel) (bbs.length + 1) [] (0 : ℕ) = some (c, new.reverse ++ [])
        ∧ Emitted bbs (blockLabel nextLabel) [] (0 : ℕ) c new :=
    emitTrace_of hs (bbs.length + 1) [] 0 List.nodup_nil (by simp) hpos (by simp)
  have hnodup := he.laid.nodup
  rw [List.append_nil, List.nodup_reverse] at hnodup
  have hmem : (0 : ℤ) ∈ order := by simpa using he.mem
  have hinj : ∀ i ∈ order, ∀ j ∈ order, blockLabel nextLabel i = blockLabel nextLabel j → i = j := by
    intro i hi j hj hij
    obtain ⟨k, rfl, -⟩ := he.laid.range i hi
    obtain ⟨k', rfl, -⟩ := he.laid.range j hj
    simpa [blockLabel, Int.natCast_inj] using hij
  refine ⟨out, order, ?_, hnodup, fun j => ⟨he.reach j, fun hj => ?_⟩, he.laid.marks, he.laid.placed,
    fun M x is r => ?_⟩
  · unfold emit
    exact congrArg (Option.map (·.1)) hout
  · -- what is emitted is closed
    induction hj with
    | refl => exact hmem
    | tail _ h ih =>
      obtain ⟨b, hb, hj⟩ := h
      simpa using he.laid.closed _ ih b hb _ hj
  · -- the text begins with the mark of the first block
    obtain ⟨rest, hrest⟩ := he.head (by simp)
    obtain ⟨rest', st, hcode, hent, hat⟩ := codeAt_out hs he.laid hinj hmem x
    have hst : st = (0, tacsAt bbs 0, x) := by
      have := hent.symm.trans (enter_natCast hpos x)
      cases this
      rfl
    have hstart : codeAt out (blockLabel nextLabel 0) = out := by
      have := codeAt_append List.not_mem_nil rest (l := blockLabel nextLabel 0)
      rw [hrest]
      exact this
    have hq : Quiet (tacStep M out) (out, x) (rest', x) := by
      refine .head ?_ (.refl _)
      rw [hstart] at hcode
      conv_lhs => rw [hcode]
      rfl
    rw [hst] at hat
    rw [hq.shows_iff]
    exact (follows_emit hs he.laid hinj M).shows_iff hat is r

end FlowGraph

end Decaf

end CacheCPU
