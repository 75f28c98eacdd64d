import CacheCPU.Proofs.EmitTrace

/-!
# The flow graph of a method

The graph starts with the first block that is kept. That is where the code of a method starts unless
it begins with a branch elsewhere, and only a `for` loop with an update does.
-/

namespace CacheCPU

namespace Decaf

namespace FlowGraph

open Trace

/-! ## The blocks of the code of a method -/

/-- The block of a segment is a lone branch if the segment is. -/
theorem BlockOf.idle_iff {segs : List Seg} {k : ℕ} {s : Seg} {b : BasicBlock}
    (h : BlockOf segs k s b) (hc : Cut segs) (hs : segs[k]? = some s) : Idle b ↔ s.Idle := by
  unfold Idle Seg.Idle
  cases h with
  | branch ht => simp [ht]
  | falls ht hk =>
    have hne := ((hc.get hs).2 ht _ (List.getElem?_eq_getElem hk)).1
    simp [ht, hne]
  | ret ht => simp [ht]
  | beqz ht => simp [ht]
  | bnez ht => simp [ht]
  | last ht => simp [ht]

theorem BlockOf.next0 {segs : List Seg} {k : ℕ} {s : Seg} {b : BasicBlock}
    (h : BlockOf segs k s b) {l : Label} (ht : s.tail = some (.branch l)) :
    ∃ j : ℕ, Home segs l j ∧ b.next0 = j := by
  cases h with
  | branch ht' hi =>
    rw [ht] at ht'
    cases ht'
    exact ⟨_, hi, rfl⟩
  | ret ht' => rw [ht] at ht'; cases ht'
  | beqz ht' => rw [ht] at ht'; cases ht'
  | bnez ht' => rw [ht] at ht'; cases ht'
  | falls ht' => rw [ht] at ht'; cases ht'
  | last ht' => rw [ht] at ht'; cases ht'

theorem takeWhile_flat {s : Seg} {rest : List Seg} (hc : Cut (s :: rest)) :
    (flat (s :: rest)).takeWhile Tac.isMark = s.labels.map .mark := by
  rw [flat_cons, Seg.code, List.append_assoc, List.takeWhile_append_of_pos (by simp [Tac.isMark])]
  cases hb : s.body with
  | nil =>
    obtain ⟨rfl, -⟩ := hc.of_body_nil hb
    simp
  | cons t c =>
    have hm := marks_body hc.1
    rw [hb] at hm
    cases t with
    | mark l => cases hm
    | _ => simp [Tac.isMark]

/-- The first operation is not a branch, or is one to a label right behind it. -/
def entryOk : List Tac → Bool
  | .mark _ :: rest => entryOk rest
  | .branch l :: rest => decide (.mark l ∈ rest.takeWhile Tac.isMark) && entryOk rest
  | _ => true

theorem entryOk_marks (ls : List Label) (c : List Tac) : entryOk (ls.map .mark ++ c) = entryOk c := by
  induction ls with
  | nil => rfl
  | cons l ls ih => exact ih

theorem entryOk_of_loud : ∀ {c : List Tac}, Loud c → entryOk c = true
  | [], h => absurd rfl h.2
  | .mark _ :: c, h => by
    have hc : Loud c := h
    rw [entryOk]
    exact entryOk_of_loud hc
  | .branch l :: _, h => absurd rfl (h.1 l)
  | .instr _ :: _, _ => rfl
  | .ret _ :: _, _ => rfl
  | .beqz _ _ :: _, _ => rfl
  | .bnez _ _ :: _, _ => rfl

section Code

variable {code : List Tac} (h : WellFormed code)
include h

theorem nodup_segments : (marks (flat (segments code))).Nodup := by
  rw [flat_segments]
  exact h.once

/-- A lone branch goes forward or to a segment that is none. -/
theorem ahead_segments {k j : ℕ} {s s' : Seg} {l : Label} (hs : (segments code)[k]? = some s)
    (ho : s.ops = []) (ht : s.tail = some (.branch l)) (hj : Home (segments code) l j)
    (hs' : (segments code)[j]? = some s') : k < j ∨ ¬ s'.Idle := by
  have hn := nodup_segments h
  have hbody : bodyAt (segments code) k = .branch l :: flat ((segments code).drop (k + 1)) := by
    rw [bodyAt_eq hs, Seg.body, ho, ht]
    rfl
  have hcode := flat_take_drop hs
  have hback := h.back
  rw [flat_segments] at hcode
  rw [hcode, backIn_append, List.nil_append, hbody] at hback
  rcases hback.2.1 l rfl with hl | hl | hl | ⟨a, b, hab, hb⟩
  · left
    obtain ⟨i, s₁, hi, hl⟩ := Home.exists ((cut_segments code).drop (k + 1)) hl
    rw [List.getElem?_drop] at hi
    have := hj.unique hn ⟨s₁, hi, hl⟩
    omega
  · simp at hl
  · cases hl
  · right
    rintro ⟨ho', l', ht'⟩
    -- behind the mark there is something else than a branch
    obtain ⟨q, hq⟩ := hj.codeAt hn
    have hfull : code = a ++ .mark l :: (b ++ bodyAt (segments code) k) := by
      rw [hab, List.append_assoc, List.cons_append] at hcode
      exact hcode
    have honce := h.once
    rw [hfull] at honce
    have hq' := codeAt_append (not_mem_of_nodup_marks honce).1 (b ++ bodyAt (segments code) k)
    rw [flat_segments] at hq
    rw [← hfull, hq, List.cons_inj_right] at hq'
    have hdrop := congrArg (List.dropWhile Tac.isMark) hq'
    rw [List.dropWhile_append_of_pos (by simp [Tac.isMark]), List.dropWhile_append,
      if_neg (by simpa using hb.2), bodyAt_eq hs', Seg.body, ho', ht'] at hdrop
    have hhead := congrArg List.head? hdrop
    rw [List.head?_append_of_ne_nil _ hb.2] at hhead
    exact hb.1 l' hhead.symm

end Code

section Blocks

variable {code : List Tac} {bbs : List BasicBlock} (h : WellFormed code)
  (hlen : bbs.length = (segments code).length)
  (hbbs : ∀ (k : ℕ) (s : Seg), (segments code)[k]? = some s →
    ∃ b, bbs[k]? = some b ∧ BlockOf (segments code) k s b)
include hlen hbbs

/-- The segment of a block. -/
theorem segment_of {k : ℕ} {b : BasicBlock} (hb : bbs[k]? = some b) :
    ∃ s, (segments code)[k]? = some s ∧ BlockOf (segments code) k s b := by
  have hk : k < (segments code).length := by
    rw [← hlen]
    exact (List.getElem?_eq_some_iff.1 hb).1
  have hs := List.getElem?_eq_getElem hk
  obtain ⟨b', hb', hof⟩ := hbbs k _ hs
  rw [hb] at hb'
  cases hb'
  exact ⟨_, hs, hof⟩

theorem next_of {b : BasicBlock} (hb : b ∈ bbs) {i : ℤ} (hi : i ∈ succs b) :
    ∃ j : ℕ, i = j ∧ j < bbs.length := by
  obtain ⟨k, hget⟩ := List.mem_iff_getElem?.1 hb
  obtain ⟨s, hs, hof⟩ := segment_of hlen hbbs hget
  have hhome : ∀ {l : Label} {j : ℕ}, Home (segments code) l j → j < bbs.length := by
    rintro l j ⟨s', hs', -⟩
    rw [hlen]
    exact (List.getElem?_eq_some_iff.1 hs').1
  cases hof with
  | ret ht => cases hi
  | branch ht hj =>
    simp only [succs, List.mem_singleton] at hi
    exact ⟨_, hi, hhome hj⟩
  | beqz ht hj hk =>
    simp only [succs, List.mem_cons, List.not_mem_nil, or_false] at hi
    rcases hi with rfl | rfl
    · exact ⟨_, rfl, hlen ▸ hk⟩
    · exact ⟨_, rfl, hhome hj⟩
  | bnez ht hj hk =>
    simp only [succs, List.mem_cons, List.not_mem_nil, or_false] at hi
    rcases hi with rfl | rfl
    · exact ⟨_, rfl, hlen ▸ hk⟩
    · exact ⟨_, rfl, hhome hj⟩
  | falls ht hk =>
    simp only [succs, List.mem_singleton] at hi
    exact ⟨_, hi, hlen ▸ hk⟩
  | last ht => cases hi

include h

theorem gathered_of : Gathered bbs where
  ops b hb := by
    obtain ⟨k, hk⟩ := List.mem_iff_getElem?.1 hb
    obtain ⟨s, -, hof⟩ := segment_of hlen hbbs hk
    exact ⟨s.ops, hof.tacList⟩
  var b hb hk := by
    obtain ⟨k, hb⟩ := List.mem_iff_getElem?.1 hb
    obtain ⟨s, -, hof⟩ := segment_of hlen hbbs hb
    cases hof <;> simp at hk ⊢
  next b hb i hi := next_of hlen hbbs hb hi
  num k b hb := by
    obtain ⟨s, -, hof⟩ := segment_of hlen hbbs hb
    cases hof <;> rfl
  ahead k j b b' hb hidle hj hb' := by
    obtain ⟨s, hs, hof⟩ := segment_of hlen hbbs hb
    obtain ⟨s', hs', hof'⟩ := segment_of hlen hbbs hb'
    have hc := cut_segments code
    obtain ⟨ho, l, ht⟩ := (hof.idle_iff hc hs).1 hidle
    rw [hof'.idle_iff hc hs']
    obtain ⟨i, hi, hn⟩ := hof.next0 ht
    rw [hj, Int.natCast_inj] at hn
    exact ahead_segments h hs ho ht (hn ▸ hi) hs'

/-- The first kept block is where the code starts. -/
theorem entry_of : ∀ (n k : ℕ), k < bbs.length → bbs.length - k ≤ n → 0 < inDegree bbs k →
    entryOk (flat ((segments code).drop k)) → ∃ j, Kept bbs j ∧ (∀ i, k ≤ i → i < j → ¬ Kept bbs i)
      ∧ ∀ {σ : Type} (M : Machine σ) (x : σ),
        Quiet (graphStep M bbs) ((k : ℤ), tacsAt bbs k, x) ((j : ℤ), tacsAt bbs j, x)
  | 0, k, hk, hn, _, _ => by omega
  | n + 1, k, hk, hn, hd, he => by
    have hb := List.getElem?_eq_getElem hk
    obtain ⟨s, hs, hof⟩ := segment_of hlen hbbs hb
    have hc := cut_segments code
    by_cases hidle : Idle bbs[k]
    · have hsegidle := (hof.idle_iff hc hs).1 hidle
      obtain ⟨ho, l, ht⟩ := hsegidle
      rw [flat_drop hs, entryOk_marks, bodyAt_eq hs, Seg.body, ho, ht] at he
      simp only [List.map_nil, Option.toList_some, List.nil_append, List.singleton_append, entryOk,
        Bool.and_eq_true, decide_eq_true_eq] at he
      -- the label stands in the next segment
      have hnext : Home (segments code) l (k + 1) := by
        have hcd := hc.drop (k + 1)
        cases hd : (segments code).drop (k + 1) with
        | nil => rw [hd] at he; simp at he
        | cons s' rest =>
          rw [hd] at he hcd
          rw [takeWhile_flat hcd] at he
          refine ⟨s', ?_, by simpa using he.1⟩
          have := congrArg List.head? hd
          rwa [List.head?_drop] at this
      have hnum : bbs[k].next0 = ((k + 1 : ℕ) : ℤ) := by
        obtain ⟨i, hi, hn⟩ := hof.next0 ht
        rw [hn, hi.unique (nodup_segments h) hnext]
      have hmem := hidle.mem_succs
      rw [hnum] at hmem
      obtain ⟨j, hj, hjl⟩ := next_of hlen hbbs (List.getElem_mem hk) hmem
      rw [Int.natCast_inj] at hj
      subst hj
      obtain ⟨j, hkept, hno, hq⟩ := entry_of n (k + 1) hjl (by omega)
        (inDegree_pos (List.getElem_mem hk) hmem) he.2
      refine ⟨j, hkept, fun i h1 h2 hi => ?_, fun M x => .head ?_ (hq M x)⟩
      · by_cases hik : i = k
        · subst hik
          obtain ⟨b, hb', -, hnot⟩ := hi
          rw [hb] at hb'
          cases hb'
          exact hnot hidle
        · exact hno i (by omega) h2 hi
      · rw [tacsAt_eq hb, hidle.2, graphStep_byBranch M (by rw [getBlock_natCast, hb]) hidle.1, hnum,
          enter_natCast hjl]
    · exact ⟨k, ⟨_, hb, hd, hidle⟩, fun i h1 h2 => by omega, fun M x => .refl _⟩

end Blocks

/-- No block before a place is kept, so the one there comes first. -/
theorem newNum_eq_zero {bbs : List BasicBlock} {j : ℕ} (h : ∀ i < j, ¬ Kept bbs i) :
    newNum bbs j = 0 := by
  unfold newNum
  rw [List.countP_eq_zero]
  intro c hc
  obtain ⟨i, hi⟩ := List.mem_iff_getElem?.1 hc
  have hij : i < j := by
    have := (List.getElem?_eq_some_iff.1 hi).1
    rw [List.length_take] at this
    omega
  rw [List.getElem?_take_of_lt hij] at hi
  have := h i hij
  rw [kept_iff] at this
  simpa using fun hcan => this ⟨c, hi, hcan⟩

section Build

variable {code : List Tac} (h : WellFormed code)
include h

theorem segments_pos : 0 < (segments code).length := by
  rw [List.length_pos_iff]
  intro hnil
  obtain ⟨name, rest, hcode, -⟩ := h.head
  have hf := flat_segments code
  rw [hnil, hcode] at hf
  cases hf

/-- The graph is built, and does what the code does from the first kept segment on. -/
theorem build_of : ∃ bbs graph, bbs.length = (segments code).length
    ∧ (∀ (k : ℕ) (s : Seg), (segments code)[k]? = some s →
      ∃ b, bbs[k]? = some b ∧ BlockOf (segments code) k s b)
    ∧ build code = some graph ∧ Sound graph ∧ graph ≠ [] ∧ ∀ j, Kept bbs j →
      (∀ i < j, ¬ Kept bbs i) → ∀ {σ : Type} (M : Machine σ) (x : σ) (is : List Instr)
        (r : Option (Ending σ)), Shows (tacStep M code) (bodyAt (segments code) j, x) is r
          ↔ Shows (graphStep M graph) (0, tacsAt graph 0, x) is r := by
  obtain ⟨bbs, hbbs, hlen, hget⟩ := gatherBasicBlocks_of h
  have hpos : 0 < bbs.length := hlen ▸ segments_pos h
  have hgath := gathered_of h hlen hget
  obtain ⟨graph, hgraph, hkept, hall⟩ := simplify_of hgath (List.length_pos_iff.1 hpos)
  refine ⟨bbs, graph, hlen, hget, ?_, hgath.sound hkept hall, ?_, fun j hj hno σ M x is r => ?_⟩
  · unfold build
    rw [hbbs]
    exact hgraph
  · -- the trace from the first block ends
    rintro rfl
    have hd : 0 < inDegree bbs ((0 : ℕ) : ℤ) := by
      unfold inDegree
      rw [if_pos (by rfl)]
      omega
    obtain ⟨j, -, hj, -⟩ := traceFrom_spec hgath (bbs.length + 1) 0 hpos hd (by omega)
    obtain ⟨b, hb, -⟩ := id hj
    obtain ⟨b', hb', -⟩ := hkept j b hj hb
    cases hb'
  · obtain ⟨b, hb, -⟩ := id hj
    obtain ⟨b', hb', htac, -⟩ := hkept j b hj hb
    obtain ⟨s, hs, hof⟩ := segment_of hlen hget hb
    have hzero := newNum_eq_zero hno
    rw [hzero] at hb'
    have hcode := follows_gather M (cut_segments code) (nodup_segments h) hget
    rw [flat_segments] at hcode
    have hat := (enter_at hget hs x).2
    rw [← hof.tacList, ← tacsAt_eq hb] at hat
    have hat' := (enter_kept hgath hkept hj x).2
    rw [hzero] at hat'
    rw [hcode.shows_iff hat, (follows_simplify M hgath hkept).shows_iff hat', tacsAt_eq hb, ← htac,
      ← tacsAt_eq hb']
    rfl

theorem quiet_start {σ : Type} (M : Machine σ) (x : σ) :
    Quiet (tacStep M code) (code, x) (bodyAt (segments code) 0, x) := by
  have := quiet_next M (segments_pos h) x
  rwa [List.drop_zero, flat_segments] at this

end Build

/-! ## Code that begins with a branch elsewhere -/

/-- The machine on which nothing stops and every temporary is zero. -/
def zeroMachine : Machine Unit := ⟨fun _ _ => some (), fun _ _ => true⟩

theorem backward_shows (code : List Tac) (P : List Instr → Option (Ending Unit) → Prop)
    (hP : ∀ i is r, P is r → P (i :: is) r) : Backward code fun c =>
      ∃ is r, Shows (tacStep zeroMachine code) (c, ()) is r ∧ P is r where
  instr := by
    rintro i rest ⟨is, r, hs, hp⟩
    exact ⟨i :: is, r, .emit rfl hs, hP i is r hp⟩
  branch := by
    rintro l rest ⟨is, r, hs, hp⟩
    exact ⟨is, r, .silent rfl hs, hp⟩
  beqz := by
    rintro a l rest ⟨is, r, hs, hp⟩
    exact ⟨is, r, .silent rfl hs, hp⟩
  bnez := by
    rintro a l rest ⟨is, r, hs, hp⟩
    exact ⟨is, r, .silent rfl hs, hp⟩
  mark := by
    rintro l rest ⟨is, r, hs, hp⟩
    exact ⟨is, r, .silent rfl hs, hp⟩

theorem backward_behind {code : List Tac} {Q : List Tac → Prop} (h : Backward code Q) :
    Backward code fun c => Q c ∧ ∀ i rest, c = .instr i :: rest → Q rest where
  instr i rest hq := ⟨h.instr i rest hq.1, fun _ _ he => by cases he; exact hq.1⟩
  branch l rest hq := ⟨h.branch l rest hq.1, by simp⟩
  beqz a l rest hq := ⟨h.beqz a l rest hq.1, by simp⟩
  bnez a l rest hq := ⟨h.bnez a l rest hq.1, by simp⟩
  mark l rest hq := ⟨h.mark l rest hq.1, by simp⟩

section Elsewhere

variable {code : List Tac} (h : WellFormed code)
include h

/-- On the machine of zeros the code comes to an end. -/
theorem shows_end : ∃ is r, Shows (tacStep zeroMachine code) (code, ()) is (some r) := by
  have hQ := backward_shows code (fun _ r => r.isSome) fun _ _ _ hr => hr
  have := h.runs [] [] (by simp) h.once hQ (fun src rest _ => ⟨[], _, .stop rfl, rfl⟩) (by simp)
    ⟨[], _, .stop rfl, rfl⟩
  rw [List.append_nil] at this
  obtain ⟨is, r, hs, hr⟩ := this
  obtain ⟨r, rfl⟩ := Option.isSome_iff_exists.1 hr
  exact ⟨is, r, hs⟩

/-- What does not begin well is a `for` loop with an update. -/
theorem opening_of_not_entryOk (he : entryOk code = false) : ∃ name i k op u rest,
    code = .mark (.func name) :: .branch k :: .mark i :: (.instr op :: u ++ .mark k :: rest)
      ∧ Runs none (.instr op :: u) ∧ Plain (.instr op :: u) ∧ .branch i ∈ rest := by
  obtain ⟨name, c, rfl, hop⟩ := h.head
  rw [entryOk] at he
  cases hop with
  | nothing hc => subst hc; cases he
  | loud hc => rw [entryOk_of_loud hc] at he; cases he
  | breakStmt hexit => cases hexit
  | @forLoop i k u rest hc hu hrun hrest hback =>
    subst hc
    obtain rfl | ⟨op, u, rfl⟩ := hu.head
    · have hmem : .mark k ∈ (.mark i :: .mark k :: rest).takeWhile Tac.isMark := by
        rw [List.takeWhile_cons_of_pos rfl, List.takeWhile_cons_of_pos rfl]
        simp
      simp [entryOk, entryOk_of_loud hrest, hmem] at he
    · exact ⟨name, i, k, op, u, rest, rfl, hrun, hu, hback⟩

end Elsewhere

theorem segments_instr (op : Instr) (c : List Tac) : ∃ ops tail segs,
    segments (.instr op :: c) = ⟨[], op :: ops, tail⟩ :: segs := by
  unfold segments
  rw [List.foldr_cons]
  cases c.foldr Seg.push [] with
  | nil => exact ⟨[], none, [], rfl⟩
  | cons s segs =>
    obtain ⟨_ | ⟨l, labels⟩, ops, tail⟩ := s
    · exact ⟨ops, tail, segs, rfl⟩
    · exact ⟨[], none, _, rfl⟩

/-- The segment that follows a lone branch, and that the branch does not go to. -/
theorem segments_elsewhere (name : String) (i k : Label) (op : Instr) (c : List Tac) :
    ∃ s s', (segments (.mark (.func name) :: .branch k :: .mark i :: .instr op :: c))[0]? = some s
      ∧ s.Idle ∧ (segments (.mark (.func name) :: .branch k :: .mark i :: .instr op :: c))[1]? = some s'
      ∧ ¬ s'.Idle ∧ i ∈ s'.labels
      ∧ bodyAt (segments (.mark (.func name) :: .branch k :: .mark i :: .instr op :: c)) 1
        = .instr op :: c := by
  obtain ⟨ops, tail, segs, hs⟩ := segments_instr op c
  have hsegs : segments (.mark (.func name) :: .branch k :: .mark i :: .instr op :: c)
      = ⟨[.func name], [], some (.branch k)⟩ :: ⟨[i], op :: ops, tail⟩ :: segs := by
    have : segments (.mark (.func name) :: .branch k :: .mark i :: .instr op :: c)
        = Seg.push (.mark (.func name)) (Seg.push (.branch k) (Seg.push (.mark i)
          (segments (.instr op :: c)))) := rfl
    rw [this, hs]
    rfl
  rw [hsegs]
  refine ⟨_, _, rfl, ⟨rfl, k, rfl⟩, rfl, by simp [Seg.Idle], by simp, ?_⟩
  have hf := flat_segments (.instr op :: c)
  rw [hs] at hf
  exact hf

section Run

variable {code : List Tac} {bbs graph : List BasicBlock} (h : WellFormed code)
  (hlen : bbs.length = (segments code).length)
  (hbbs : ∀ (k : ℕ) (s : Seg), (segments code)[k]? = some s →
    ∃ b, bbs[k]? = some b ∧ BlockOf (segments code) k s b)
  (hgraph : ∀ j, Kept bbs j → (∀ i < j, ¬ Kept bbs i) → ∀ {σ : Type} (M : Machine σ) (x : σ)
    (is : List Instr) (r : Option (Ending σ)),
      Shows (tacStep M code) (bodyAt (segments code) j, x) is r
        ↔ Shows (graphStep M graph) (0, tacsAt graph 0, x) is r)
include h hlen hbbs hgraph

theorem shows_of_entryOk (he : entryOk code) {σ : Type} (M : Machine σ) (x : σ) (is : List Instr)
    (r : Option (Ending σ)) : Shows (tacStep M code) (code, x) is r
      ↔ Shows (graphStep M graph) (0, tacsAt graph 0, x) is r := by
  have hpos : 0 < bbs.length := hlen ▸ segments_pos h
  have hd : 0 < inDegree bbs ((0 : ℕ) : ℤ) := by
    unfold inDegree
    rw [if_pos (by rfl)]
    omega
  obtain ⟨j, hj, hno, hq⟩ := entry_of h hlen hbbs bbs.length 0 hpos (by omega) hd
    (by rwa [List.drop_zero, flat_segments])
  obtain ⟨b, hb, -⟩ := id hj
  have hcode := follows_gather M (cut_segments code) (nodup_segments h) hbbs
  rw [flat_segments] at hcode
  have hat : ∀ {k : ℕ} {b : BasicBlock}, bbs[k]? = some b →
      AtSeg (segments code) (bodyAt (segments code) k, x) ((k : ℤ), tacsAt bbs k, x) := by
    intro k b hb
    obtain ⟨s, hs, hof⟩ := segment_of hlen hbbs hb
    rw [tacsAt_eq hb, hof.tacList]
    exact (enter_at hbbs hs x).2
  rw [(quiet_start h M x).shows_iff, hcode.shows_iff (hat (List.getElem?_eq_getElem hpos)),
    (hq M x).shows_iff, ← hcode.shows_iff (hat hb)]
  exact hgraph j hj (fun i hi => hno i (Nat.zero_le i) hi) M x is r

omit hlen hgraph in
/-- A segment that a branch goes to is reached. -/
theorem kept_home {i : Label} {j : ℕ} (hi : Home (segments code) i j) (hm : .branch i ∈ code) :
    0 < inDegree bbs j := by
  rw [← flat_segments code] at hm
  obtain ⟨s, hs, hmem⟩ := List.mem_flatMap.1 hm
  obtain ⟨k, hk⟩ := List.mem_iff_getElem?.1 hs
  have ht : s.tail = some (.branch i) := by
    simpa [Seg.code, Seg.body, Option.mem_toList] using hmem
  obtain ⟨b, hb, hof⟩ := hbbs k s hk
  obtain ⟨j', hj', hn⟩ := hof.next0 ht
  have hkind : b.endKind = .byBranch := by
    cases hof <;> simp_all
  have hsucc : (j : ℤ) ∈ succs b := by
    simp [succs, hkind, hn, hj'.unique (nodup_segments h) hi]
  exact inDegree_pos (List.mem_of_getElem? hb) hsucc

omit hlen in
/-- The graph begins with the update, and the code with the test. -/
theorem not_shows_of_not_entryOk (he : entryOk code = false) :
    ¬ ∀ (is : List Instr) (r : Option (Ending Unit)), Shows (tacStep zeroMachine code) (code, ()) is r
      ↔ Shows (graphStep zeroMachine graph) (0, tacsAt graph 0, ()) is r := by
  intro hall
  obtain ⟨is, r, hs⟩ := shows_end h
  obtain ⟨name, i, k, op, u, rest, hcode, hrun, hplain, hback⟩ := opening_of_not_entryOk h he
  obtain ⟨s, s', hs0, hidle, hs1, hno, hi, hbody⟩ :=
    segments_elsewhere name i k op (u ++ .mark k :: rest)
  have hcode' : code = .mark (.func name) :: .branch k :: .mark i :: .instr op
      :: (u ++ .mark k :: rest) := hcode
  rw [← hcode'] at hs0 hs1 hbody
  have hc := cut_segments code
  -- the second block is the first one that is kept
  obtain ⟨b1, hb1, hof1⟩ := hbbs 1 s' hs1
  have hkept : Kept bbs 1 := by
    refine ⟨b1, hb1, kept_home h hbbs ⟨s', hs1, hi⟩ ?_,
      fun hb => hno ((hof1.idle_iff hc hs1).1 hb)⟩
    rw [hcode]
    simp [hback]
  have hfirst : ∀ j < 1, ¬ Kept bbs j := by
    rintro j hj ⟨b, hb, -, hidle'⟩
    obtain rfl : j = 0 := by omega
    obtain ⟨b0, hb0, hof0⟩ := hbbs 0 s hs0
    rw [hb] at hb0
    cases hb0
    exact hidle' ((hof0.idle_iff hc hs0).2 hidle)
  have htest : Shows (tacStep zeroMachine code) (.mark k :: rest, ()) is (some r) := by
    have hq : Quiet (tacStep zeroMachine code) (.mark (.func name) :: .branch k :: .mark i
        :: (.instr op :: u ++ .mark k :: rest), ()) (codeAt code k, ()) :=
      .head rfl (.head rfl (.refl _))
    rw [← hcode, codeAt_eq (a := .mark (.func name) :: .branch k :: .mark i :: .instr op :: u)
      (by rw [hcode]; rfl) h.once] at hq
    rwa [hq.shows_iff] at hs
  -- from there the update comes to the test
  have hQ := backward_behind (backward_shows code (fun is' r' => r' = some r ∧ ∃ js, is' = js ++ is)
    (by
      rintro i' _ _ ⟨rfl, js, rfl⟩
      exact ⟨rfl, i' :: js, rfl⟩))
  have hu := hrun [.mark (.func name), .branch k, .mark i] (.mark k :: rest) hcode h.once hQ
    (fun src _ hm => absurd hm (hplain.noRet src)) (by simp)
    ⟨⟨is, some r, htest, rfl, [], rfl⟩, by simp⟩
  obtain ⟨_, _, hsu, rfl, js, rfl⟩ := hu.2 op _ rfl
  have h1 : Shows (tacStep zeroMachine code) (bodyAt (segments code) 1, ()) (op :: (js ++ is))
      (some r) := by
    rw [hbody]
    exact .emit rfl hsu
  have h2 := (hgraph 1 hkept hfirst zeroMachine () _ _).1 h1
  have h3 := (hall _ _).1 hs
  have hlen := congrArg List.length (h2.unique h3 rfl rfl)
  rw [List.length_cons, List.length_append] at hlen
  omega

end Run

/-! ## The whole of it -/

/-- The graph is built and does what the code does from its head, every block of it that can be
reached is emitted once, and the text does what the graph does. -/
def Preserves (code : List Tac) (nextLabel : ℕ) : Prop :=
  ∃ graph, build code = some graph
    ∧ (∀ (σ : Type) (M : Machine σ) (x : σ) (is : List Instr) (r : Option (Ending σ)),
      Shows (tacStep M code) (code, x) is r
        ↔ Shows (graphStep M graph) (0, tacsAt graph 0, x) is r)
    ∧ ∃ (out : List Tac) (order : List ℤ), emit graph nextLabel = some out
      ∧ order.Nodup ∧ (∀ j, j ∈ order ↔ Reach graph 0 j)
      ∧ marks out = order.map (blockLabel nextLabel)
      ∧ (∀ j ∈ order, Placed graph (blockLabel nextLabel) out j)
      ∧ ∀ (σ : Type) (M : Machine σ) (x : σ) (is : List Instr) (r : Option (Ending σ)),
        Shows (tacStep M out) (out, x) is r
          ↔ Shows (graphStep M graph) (0, tacsAt graph 0, x) is r

theorem WellFormed.preserves_iff {code : List Tac} (h : WellFormed code) (nextLabel : ℕ) :
    Preserves code nextLabel ↔ entryOk code = true := by
  obtain ⟨bbs, graph, hlen, hbbs, hbuild, hsound, hne, hgraph⟩ := build_of h
  constructor
  · rintro ⟨graph', hbuild', hshows, -⟩
    rw [hbuild] at hbuild'
    cases hbuild'
    by_contra he
    exact not_shows_of_not_entryOk h hbbs hgraph (Bool.eq_false_iff.2 he) (hshows Unit zeroMachine ())
  · intro he
    obtain ⟨out, order, hout, hn, hreach, hmarks, hplaced, hshows⟩ := emit_of hsound hne nextLabel
    exact ⟨graph, hbuild, fun σ M x is r => shows_of_entryOk h hlen hbbs hgraph he M x is r, out,
      order, hout, hn, hreach, hmarks, hplaced, fun σ M x is r => hshows M x is r⟩

/-- The flow graph of a method is right if and only if its code does not begin with a branch to
elsewhere. -/
theorem preserves_iff_entryOk {name : String} {this : Temp} {body : Stmt} {g : Gen}
    {code : List Tac} (h : TransPass2.visitMethodDef name this body g = some code)
    (nextLabel : ℕ) : Preserves code nextLabel ↔ entryOk code = true :=
  WellFormed.preserves_iff (TransPass2.wellFormed h) nextLabel

/-- `i < n`, of the variables 1 and 2. -/
def lessThan : Expr := .binary .lt false (.ident 1) (.ident 2)

/-- `i = i + 1`. -/
def increment : SimpleStmt := .assign (.localVar 1) (.binary .plus false (.ident 1) (.intLit 1))

/-- The code of `while (i < n) i = i + 1;`. -/
def whileCode : List Tac :=
  [.mark (.func "_Main.main"), .mark (.num 0), .instr (.binary .les 3 1 2), .beqz 3 (.num 1),
    .instr (.loadImm4 4 1), .instr (.binary .add 5 1 4), .instr (.assign 1 5), .branch (.num 0),
    .mark (.num 1)]

theorem preserves_iff_entryOk_while :
    TransPass2.visitMethodDef "_Main.main" 0 (.whileLoop lessThan (.simple increment))
      ⟨[], 3, 0, id⟩ = some whileCode
    ∧ (Preserves whileCode 2 ↔ entryOk whileCode = true) ∧ entryOk whileCode = true := by
  have hcode : TransPass2.visitMethodDef "_Main.main" 0 (.whileLoop lessThan (.simple increment))
      ⟨[], 3, 0, id⟩ = some whileCode := by decide +kernel
  exact ⟨hcode, preserves_iff_entryOk hcode 2, rfl⟩

/-- The code of `for (; i < n; i = i + 1) Print(i);`. -/
def forCode : List Tac :=
  [.mark (.func "_Main.main"), .branch (.num 0), .mark (.num 1), .instr (.loadImm4 3 1),
    .instr (.binary .add 4 1 3), .instr (.assign 1 4), .mark (.num 0),
    .instr (.binary .les 5 1 2), .beqz 5 (.num 2), .instr (.parm 1),
    .instr (.directCall none "decaf_PrintInt"), .branch (.num 1), .mark (.num 2)]

/-- The graph of a loop that is all there is starts with the update. -/
theorem not_preserves_for :
    TransPass2.visitMethodDef "_Main.main" 0
      (.forLoop .skip lessThan increment (.print [(.ident 1, .int)])) ⟨[], 3, 0, id⟩ = some forCode
    ∧ ¬ Preserves forCode 3 := by
  have hcode : TransPass2.visitMethodDef "_Main.main" 0
      (.forLoop .skip lessThan increment (.print [(.ident 1, .int)])) ⟨[], 3, 0, id⟩
        = some forCode := by decide +kernel
  refine ⟨hcode, ?_⟩
  rw [WellFormed.preserves_iff (TransPass2.wellFormed hcode)]
  decide +kernel

end FlowGraph

end Decaf

end CacheCPU
