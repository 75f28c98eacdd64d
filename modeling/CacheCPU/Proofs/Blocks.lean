import CacheCPU.Decaf.FlowGraph
import CacheCPU.Proofs.Generated

/-!
# The basic blocks of the code

The code is cut at its ends and before its marks. `markBasicBlocks` gives every segment its place as
its number, `gatherBasicBlocks` makes one block of each, and the graph of these blocks does what the
code does.
-/

namespace CacheCPU

namespace Decaf

/-! ## Segments -/

/-- A segment of the code: marks, operations, and what ends it, if anything does. -/
structure Seg where
  labels : List Label
  ops : List Instr
  tail : Option Tac

namespace Seg

/-- The segment behind its marks. -/
def body (s : Seg) : List Tac := s.ops.map .instr ++ s.tail.toList

def code (s : Seg) : List Tac := s.labels.map .mark ++ s.body

/-- Nothing but a branch. -/
def Idle (s : Seg) : Prop := s.ops = [] ∧ ∃ l, s.tail = some (.branch l)

end Seg

/-- The code of the segments. -/
def flat (segs : List Seg) : List Tac := segs.flatMap Seg.code

@[simp] theorem flat_nil : flat [] = [] := rfl

@[simp] theorem flat_cons (s : Seg) (segs : List Seg) : flat (s :: segs) = s.code ++ flat segs :=
  rfl

@[simp] theorem flat_append (segs segs' : List Seg) : flat (segs ++ segs') = flat segs ++ flat segs' :=
  List.flatMap_append

/-- The segments are as long as they can be: one without an end has operations, and marks follow
it. -/
def Cut : List Seg → Prop
  | [] => True
  | s :: segs =>
    (∀ t ∈ s.tail, t.isEnd) ∧ s.code ≠ []
      ∧ (s.tail = none → ∀ s' ∈ segs.head?, s.ops ≠ [] ∧ s'.labels ≠ []) ∧ Cut segs

/-- One more operation before the segments. -/
def Seg.push (t : Tac) (segs : List Seg) : List Seg :=
  match t, segs with
  | .mark l, [] => [⟨[l], [], none⟩]
  | .mark l, s :: segs => { s with labels := l :: s.labels } :: segs
  | .instr i, ⟨[], ops, tail⟩ :: segs => ⟨[], i :: ops, tail⟩ :: segs
  | .instr i, segs => ⟨[], [i], none⟩ :: segs
  | t, segs => ⟨[], [], some t⟩ :: segs

/-- The segments of the code. -/
def segments (code : List Tac) : List Seg := code.foldr Seg.push []

theorem flat_push (t : Tac) (segs : List Seg) : flat (Seg.push t segs) = t :: flat segs := by
  fun_cases Seg.push t segs <;> simp [flat, Seg.code, Seg.body]

theorem flat_segments : ∀ code : List Tac, flat (segments code) = code
  | [] => rfl
  | t :: code => by
    unfold segments
    rw [List.foldr_cons, flat_push]
    exact congrArg (t :: ·) (flat_segments code)

theorem Cut.push {segs : List Seg} (h : Cut segs) (t : Tac) : Cut (Seg.push t segs) := by
  fun_cases Seg.push t segs with
  | case1 l => simp [Cut, Seg.code]
  | case2 l s segs =>
    obtain ⟨h1, -, h3, h4⟩ := h
    exact ⟨h1, by simp [Seg.code], h3, h4⟩
  | case3 i ops tail segs =>
    obtain ⟨h1, -, h3, h4⟩ := h
    refine ⟨h1, by simp [Seg.code, Seg.body], fun ht s' hs' => ⟨by simp, (h3 ht s' hs').2⟩, h4⟩
  | case4 i segs hne =>
    refine ⟨by simp, by simp [Seg.code, Seg.body], fun _ s' hs' => ⟨by simp, fun hl => ?_⟩, h⟩
    cases segs with
    | nil => cases hs'
    | cons s segs =>
      cases hs'
      obtain ⟨labels, ops, tail⟩ := s'
      cases hl
      exact hne ops tail segs rfl
  | case5 t segs h1 h2 h3 h4 =>
    refine ⟨fun t' ht' => ?_, by simp [Seg.code, Seg.body], by simp, h⟩
    cases ht'
    cases t with
    | mark l =>
      cases segs with
      | nil => exact absurd rfl (h1 l rfl)
      | cons s segs => exact absurd rfl (h2 l s segs rfl)
    | instr i => exact absurd rfl (h4 i)
    | _ => rfl

theorem cut_segments : ∀ code : List Tac, Cut (segments code)
  | [] => trivial
  | t :: code => by
    unfold segments
    rw [List.foldr_cons]
    exact (cut_segments code).push t

/-! ## Labels -/

/-- The segment at `j` is marked `l`. -/
def Home (segs : List Seg) (l : Label) (j : ℕ) : Prop := ∃ s, segs[j]? = some s ∧ l ∈ s.labels

/-- The code behind the marks of the segment at `j`. -/
def bodyAt (segs : List Seg) (j : ℕ) : List Tac :=
  (segs[j]?.map Seg.body).getD [] ++ flat (segs.drop (j + 1))

theorem bodyAt_eq {segs : List Seg} {j : ℕ} {s : Seg} (h : segs[j]? = some s) :
    bodyAt segs j = s.body ++ flat (segs.drop (j + 1)) := by
  unfold bodyAt
  rw [h]
  rfl

theorem Cut.get : ∀ {segs : List Seg}, Cut segs → ∀ {j : ℕ} {s : Seg}, segs[j]? = some s →
    (∀ t ∈ s.tail, t.isEnd)
      ∧ (s.tail = none → ∀ s', segs[j + 1]? = some s' → s.ops ≠ [] ∧ s'.labels ≠ [])
  | s :: segs, h, 0, _, rfl => by
    refine ⟨h.1, fun ht s' hs' => h.2.2.1 ht s' ?_⟩
    rwa [List.getElem?_cons_succ, ← List.head?_eq_getElem?] at hs'
  | s :: segs, h, j + 1, s', hj => by
    rw [List.getElem?_cons_succ] at hj ⊢
    exact Cut.get h.2.2.2 hj

theorem Cut.drop : ∀ {segs : List Seg}, Cut segs → ∀ k, Cut (segs.drop k)
  | _, h, 0 => h
  | [], _, _ + 1 => trivial
  | _ :: _, h, k + 1 => Cut.drop h.2.2.2 k

/-- Only the last segment can have nothing behind its marks. -/
theorem Cut.of_body_nil {s : Seg} {rest : List Seg} (hc : Cut (s :: rest)) (hb : s.body = []) :
    rest = [] ∧ s.ops = [] ∧ s.tail = none := by
  unfold Seg.body at hb
  obtain ⟨ho, ht⟩ := List.append_eq_nil_iff.1 hb
  have ho := List.map_eq_nil_iff.1 ho
  have ht := Option.toList_eq_nil_iff.1 ht
  cases rest with
  | nil => exact ⟨rfl, ho, ht⟩
  | cons s' rest => exact absurd ho (hc.2.2.1 ht s' rfl).1

theorem marks_body {s : Seg} (h : ∀ t ∈ s.tail, t.isEnd) : marks s.body = [] := by
  rw [List.eq_nil_iff_forall_not_mem]
  intro l hl
  rw [mem_marks] at hl
  unfold Seg.body at hl
  rcases List.mem_append.1 hl with hl | hl
  · simp at hl
  · cases h _ (Option.mem_toList.1 hl)

theorem marks_code {s : Seg} (h : ∀ t ∈ s.tail, t.isEnd) : marks s.code = s.labels := by
  unfold Seg.code
  rw [marks_append, marks_body h, List.append_nil]
  unfold marks
  rw [List.filterMap_map]
  exact List.filterMap_some

theorem Home.exists {segs : List Seg} (hc : Cut segs) {l : Label} (h : l ∈ marks (flat segs)) :
    ∃ j, Home segs l j := by
  obtain ⟨s, hs, hl⟩ := List.mem_flatMap.1 (mem_marks.1 h)
  obtain ⟨j, hj⟩ := List.mem_iff_getElem?.1 hs
  refine ⟨j, s, hj, ?_⟩
  rwa [← marks_code (hc.get hj).1, mem_marks]

theorem flat_take_drop {segs : List Seg} {j : ℕ} {s : Seg} (h : segs[j]? = some s) :
    flat segs = flat (segs.take j) ++ s.labels.map .mark ++ bodyAt segs j := by
  obtain ⟨hj, rfl⟩ := List.getElem?_eq_some_iff.1 h
  rw [bodyAt_eq h]
  conv_lhs => rw [← List.take_append_drop j segs, List.drop_eq_getElem_cons hj]
  rw [flat_append, flat_cons, Seg.code, List.append_assoc, List.append_assoc]

/-- What stands before and behind a label of the segment at `j`. -/
theorem Home.split {segs : List Seg} {l : Label} {j : ℕ} (h : Home segs l j) :
    ∃ p q : List Label, (∃ s, segs[j]? = some s ∧ s.labels = p ++ l :: q) ∧ flat segs
      = flat (segs.take j) ++ p.map .mark ++ .mark l :: (q.map .mark ++ bodyAt segs j) := by
  obtain ⟨s, hs, hl⟩ := h
  obtain ⟨p, q, hpq⟩ := List.append_of_mem hl
  refine ⟨p, q, ⟨s, hs, hpq⟩, ?_⟩
  rw [flat_take_drop hs, hpq]
  simp

section Once

variable {segs : List Seg} (hn : (marks (flat segs)).Nodup)
include hn

theorem Home.codeAt {l : Label} {j : ℕ} (h : Home segs l j) : ∃ q : List Label,
    Decaf.codeAt (flat segs) l = .mark l :: (q.map .mark ++ bodyAt segs j) := by
  obtain ⟨p, q, -, hpq⟩ := h.split
  refine ⟨q, ?_⟩
  rw [hpq] at hn ⊢
  exact codeAt_append (not_mem_of_nodup_marks hn).1 _

/-- A label has one home. -/
theorem Home.unique {l : Label} {j j' : ℕ} (h : Home segs l j) (h' : Home segs l j') :
    j = j' := by
  -- of two homes the first one stands before the second, where the label is not
  suffices hlt : ∀ {j j'}, Home segs l j → Home segs l j' → ¬ j < j' by
    have := hlt h h'
    have := hlt h' h
    omega
  rintro j j' ⟨s, hs, hl⟩ h' hlt
  obtain ⟨p, q, -, hpq⟩ := h'.split
  rw [hpq] at hn
  refine (not_mem_of_nodup_marks hn).1 (List.mem_append_left _ (List.mem_flatMap.2 ⟨s, ?_, ?_⟩))
  · refine List.mem_of_getElem? (i := j) ?_
    rwa [List.getElem?_take_of_lt hlt]
  · exact List.mem_append_left _ (List.mem_map_of_mem hl)

end Once

/-! ## Numbers -/

/-- The code of the segments with their places, from `k` on. -/
def number (k : ℤ) : List Seg → List (ℤ × Tac)
  | [] => []
  | s :: segs => s.code.map (k, ·) ++ number (k + 1) segs

theorem map_snd_number : ∀ (k : ℤ) (segs : List Seg), (number k segs).map (·.2) = flat segs
  | _, [] => rfl
  | k, s :: segs => by
    rw [number, List.map_append, map_snd_number (k + 1) segs, List.map_map, flat_cons]
    exact congrArg (· ++ flat segs) (List.map_id _)

theorem number_append : ∀ (k : ℤ) (segs segs' : List Seg),
    number k (segs ++ segs') = number k segs ++ number (k + segs.length) segs'
  | k, [], segs' => by simp [number]
  | k, s :: segs, segs' => by
    rw [List.cons_append, number, number, number_append (k + 1) segs segs', List.append_assoc,
      List.length_cons]
    congr 3
    omega

/-- The numbers of a piece whose segments are not empty begin where it does. -/
theorem head?_number {k : ℤ} : ∀ {segs : List Seg}, Cut segs →
    (number k segs).head?.map (·.1) = segs.head?.map fun _ => k
  | [], _ => rfl
  | s :: segs, h => by
    rw [number]
    cases hc : s.code with
    | nil => exact absurd hc h.2.1
    | cons t c => rfl

namespace FlowGraph

section Mark

variable {target : Label → Bool}

theorem markBasicBlocks_marks {ls : List Label} (hl : ∀ l ∈ ls, target l) (k : ℤ)
    (c : List Tac) : markBasicBlocks target k true (ls.map .mark ++ c)
      = (ls.map .mark).map (k, ·) ++ markBasicBlocks target k true c := by
  induction ls with
  | nil => rfl
  | cons l ls ih =>
    have h := hl l (by simp)
    simp only [List.map_cons, List.cons_append, markBasicBlocks, h, not_true_eq_false, if_false]
    rw [ih fun l hl' => hl l (List.mem_cons_of_mem _ hl')]

theorem markBasicBlocks_ops (ops : List Instr) (k : ℤ) (c : List Tac) (atStart : Bool) :
    markBasicBlocks target k atStart (ops.map .instr ++ c)
      = (ops.map .instr).map (k, ·) ++ markBasicBlocks target k (atStart && ops.isEmpty) c := by
  induction ops generalizing atStart with
  | nil => simp
  | cons i ops ih =>
    simp only [List.map_cons, List.cons_append, markBasicBlocks, List.isEmpty_cons, Bool.and_false]
    rw [ih false]
    rfl

theorem markBasicBlocks_end {t : Tac} (ht : t.isEnd) (k : ℤ) (c : List Tac) (atStart : Bool) :
    markBasicBlocks target k atStart (t :: c) = (k, t) :: markBasicBlocks target (k + 1) true c := by
  cases t with
  | mark l => cases ht
  | instr i => cases ht
  | _ => rfl

/-- Every segment gets its place: the first one by an end before it or by a mark of its own. -/
theorem markBasicBlocks_flat : ∀ {segs : List Seg}, Cut segs → (∀ l ∈ marks (flat segs), target l) →
    ∀ {k index : ℤ} {atStart : Bool}, (atStart = true ∧ index = k ∨
      atStart = false ∧ index + 1 = k ∧ ∀ s ∈ segs.head?, s.labels ≠ []) →
    markBasicBlocks target index atStart (flat segs) = number k segs
  | [], _, _, _, _, _, _ => by simp [markBasicBlocks, number]
  | s :: segs, hc, ht, k, index, atStart, hk => by
    obtain ⟨hend, -, hnext, hc'⟩ := hc
    have hls : ∀ l ∈ s.labels, target l := fun l hl => ht l (mem_marks.2 (by simp [Seg.code, hl]))
    have ht' : ∀ l ∈ marks (flat segs), target l := fun l hl => ht l (by simp [hl])
    -- behind the marks
    have hbody : markBasicBlocks target k true (s.body ++ flat segs)
        = s.body.map (k, ·) ++ number (k + 1) segs := by
      unfold Seg.body
      rw [List.append_assoc, markBasicBlocks_ops, Bool.true_and, List.map_append, List.append_assoc]
      congr 1
      cases htl : s.tail with
      | some t =>
        rw [Option.toList_some, List.singleton_append, markBasicBlocks_end (hend t htl),
          markBasicBlocks_flat hc' ht' (.inl ⟨rfl, rfl⟩)]
        rfl
      | none =>
        rw [Option.toList_none, List.nil_append, List.map_nil, List.nil_append]
        cases segs with
        | nil => simp [markBasicBlocks, number]
        | cons s' segs =>
          obtain ⟨ho, hl⟩ := hnext htl s' rfl
          rw [List.isEmpty_eq_false_iff.2 ho]
          refine markBasicBlocks_flat hc' ht' (.inr ⟨rfl, rfl, fun s'' hs => ?_⟩)
          cases hs
          exact hl
    rw [flat_cons, number, Seg.code, List.map_append, List.append_assoc, List.append_assoc, ← hbody]
    rcases hk with ⟨rfl, rfl⟩ | ⟨rfl, rfl, hl⟩
    · rw [markBasicBlocks_marks hls]
    · cases hsl : s.labels with
      | nil => exact absurd hsl (hl s rfl)
      | cons l ls =>
        rw [hsl] at hls
        have h := hls l (by simp)
        simp only [List.map_cons, List.cons_append, markBasicBlocks, h, not_true_eq_false,
          if_false, Bool.false_eq_true, not_false_eq_true, if_true]
        rw [markBasicBlocks_marks fun l hl' => hls l (List.mem_cons_of_mem _ hl')]

end Mark

/-! ## Blocks -/

/-- The block that is made of the segment `s` at `k`. -/
inductive BlockOf (segs : List Seg) (k : ℕ) (s : Seg) : BasicBlock → Prop
  | ret {src : Option Temp} (h : s.tail = some (.ret src)) :
      BlockOf segs k s ⟨k, s.ops.map .instr, .byReturn, src, 0, 0, false⟩
  | branch {l : Label} {j : ℕ} (h : s.tail = some (.branch l)) (hj : Home segs l j) :
      BlockOf segs k s ⟨k, s.ops.map .instr, .byBranch, none, j, j, false⟩
  | beqz {c : Temp} {l : Label} {j : ℕ} (h : s.tail = some (.beqz c l)) (hj : Home segs l j)
      (hk : k + 1 < segs.length) :
      BlockOf segs k s ⟨k, s.ops.map .instr, .byBeqz, some c, j, (k + 1 : ℕ), false⟩
  | bnez {c : Temp} {l : Label} {j : ℕ} (h : s.tail = some (.bnez c l)) (hj : Home segs l j)
      (hk : k + 1 < segs.length) :
      BlockOf segs k s ⟨k, s.ops.map .instr, .byBnez, some c, j, (k + 1 : ℕ), false⟩
  | falls (h : s.tail = none) (hk : k + 1 < segs.length) : BlockOf segs k s
      ⟨k, s.ops.map .instr, .byBranch, none, (k + 1 : ℕ), (k + 1 : ℕ), false⟩
  | last (h : s.tail = none) (hk : k + 1 = segs.length) :
      BlockOf segs k s ⟨k, s.ops.map .instr, .byReturn, none, 0, 0, false⟩

theorem whereNum_number {segs : List Seg} (hn : (marks (flat segs)).Nodup) {l : Label} {j : ℕ}
    (h : Home segs l j) : whereNum (number 0 segs) l = some (j : ℤ) := by
  obtain ⟨p, q, ⟨s, hs, hpq⟩, hf⟩ := h.split
  obtain ⟨hj, rfl⟩ := List.getElem?_eq_some_iff.1 hs
  have hno : ∀ x ∈ number 0 (segs.take j) ++ (p.map Tac.mark).map ((j : ℤ), ·),
      decide (x.2 = Tac.mark l) = false := by
    intro x hx
    rw [decide_eq_false_iff_not]
    rintro hxl
    rw [hf] at hn
    refine (not_mem_of_nodup_marks hn).1 (hxl ▸ ?_)
    rcases List.mem_append.1 hx with hx | hx
    · rw [← map_snd_number 0]
      exact List.mem_append_left _ (List.mem_map_of_mem hx)
    · obtain ⟨t, ht, rfl⟩ := List.mem_map.1 hx
      exact List.mem_append_right _ ht
  have hsplit : number 0 segs = number 0 (segs.take j) ++ (p.map Tac.mark).map ((j : ℤ), ·)
      ++ ((j : ℤ), Tac.mark l) :: ((q.map Tac.mark ++ segs[j].body).map ((j : ℤ), ·)
        ++ number (j + 1) (segs.drop (j + 1))) := by
    conv_lhs => rw [← List.take_append_drop j segs, List.drop_eq_getElem_cons hj]
    rw [number_append, List.length_take_of_le (Nat.le_of_lt hj), number, Seg.code, hpq, Int.zero_add]
    simp
  unfold whereNum
  rw [hsplit, List.find?_append, List.find?_eq_none.2 (by simpa using hno)]
  simp

section Gather

variable {segs : List Seg}

theorem endBlock_of {marked : List (ℤ × Tac)} {k : ℕ} {s : Seg} {nextNum : Option ℤ}
    (hbody : s.body ≠ []) (hend : ∀ t ∈ s.tail, t.isEnd)
    (hw : ∀ t ∈ s.tail, ∀ l, t.target = some l → ∃ j : ℕ, Home segs l j ∧
      whereNum marked l = some (j : ℤ))
    (hnext : (nextNum = none ∧ k + 1 = segs.length ∧ ∀ t ∈ s.tail, ∀ a l, t ≠ .beqz a l ∧ t ≠ .bnez a l)
      ∨ nextNum = some ((k + 1 : ℕ) : ℤ) ∧ k + 1 < segs.length) :
    ∃ b, endBlock marked k s.body nextNum = some b ∧ BlockOf segs k s b := by
  unfold Seg.body at hbody ⊢
  cases ht : s.tail with
  | none =>
    rw [ht] at hbody
    rw [Option.toList_none, List.append_nil] at hbody ⊢
    obtain ⟨ops, i, hi⟩ := List.eq_nil_or_concat'  s.ops |>.resolve_left (by simpa using hbody)
    rcases hnext with ⟨rfl, hk, -⟩ | ⟨rfl, hk⟩
    · refine ⟨_, ?_, .last ht hk⟩
      rw [hi]
      simp [endBlock]
    · refine ⟨_, ?_, .falls ht hk⟩
      rw [hi]
      simp [endBlock]
  | some t =>
    rw [Option.toList_some]
    unfold endBlock
    rw [List.getLast?_concat, List.dropLast_concat]
    cases t with
    | ret src => exact ⟨_, rfl, .ret ht⟩
    | branch l =>
      obtain ⟨j, hj, hwj⟩ := hw _ ht l rfl
      exact ⟨_, by simp [hwj], .branch ht hj⟩
    | beqz c l =>
      obtain ⟨j, hj, hwj⟩ := hw _ ht l rfl
      rcases hnext with ⟨-, -, hno⟩ | ⟨rfl, hk⟩
      · exact absurd rfl (hno _ ht c l).1
      · exact ⟨_, by simp [hwj], .beqz ht hj hk⟩
    | bnez c l =>
      obtain ⟨j, hj, hwj⟩ := hw _ ht l rfl
      rcases hnext with ⟨-, -, hno⟩ | ⟨rfl, hk⟩
      · exact absurd rfl (hno _ ht c l).2
      · exact ⟨_, by simp [hwj], .bnez ht hj hk⟩
    | instr i => cases hend _ ht
    | mark l => cases hend _ ht

theorem dropWhile_number {k : ℤ} {s : Seg} {rest : List Seg} (hc : Cut (s :: rest)) :
    (number k (s :: rest)).dropWhile (·.2.isMark)
      = if s.body = [] then [] else s.body.map (k, ·) ++ number (k + 1) rest := by
  rw [number, Seg.code, List.map_append, List.append_assoc, List.dropWhile_append_of_pos]
  · by_cases hb : s.body = []
    · obtain ⟨rfl, -, -⟩ := hc.of_body_nil hb
      rw [if_pos hb, hb]
      rfl
    · rw [if_neg hb]
      obtain ⟨t, c, hb⟩ := List.exists_cons_of_ne_nil hb
      have ht : t.isMark = false := by
        have hm := marks_body hc.1
        rw [hb] at hm
        cases t with
        | mark l => cases hm
        | _ => rfl
      rw [hb, List.map_cons, List.cons_append, List.dropWhile_cons_of_neg (by simp [ht])]
  · simp [Tac.isMark]

theorem takeWhile_number {k : ℤ} {c : List Tac} {rest : List Seg} (hc : Cut rest) :
    (c.map (k, ·) ++ number (k + 1) rest).takeWhile (·.1 = k) = c.map (k, ·)
      ∧ (c.map (k, ·) ++ number (k + 1) rest).dropWhile (·.1 = k) = number (k + 1) rest := by
  have hall : ∀ x ∈ c.map (k, ·), decide (x.1 = k) = true := by simp
  rw [List.takeWhile_append_of_pos hall, List.dropWhile_append_of_pos hall]
  have hh := head?_number (k := k + 1) hc
  cases hr : number (k + 1) rest with
  | nil => simp
  | cons x xs =>
    cases rest with
    | nil => cases hr
    | cons s rest =>
      rw [hr] at hh
      have hx : x.1 = k + 1 := Option.some_inj.1 hh
      have : ¬ x.1 = k := by omega
      simp [this]

variable (hn : (marks (flat segs)).Nodup)
  (htarget : ∀ t ∈ flat segs, ∀ l, t.target = some l → ∃ j, Home segs l j)
  (hlast : ∀ t, (flat segs).getLast? = some t → ∀ a l, t ≠ .beqz a l ∧ t ≠ .bnez a l)
include hn htarget hlast

omit hn htarget in
/-- The number behind a segment, if there is one, and if not the segment does not end in a test. -/
theorem gather_next {pre rest : List Seg} {s : Seg} (hs : segs = pre ++ s :: rest) (hc : Cut rest) :
    ((number (pre.length + 1) rest).head?.map (·.1) = none ∧ pre.length + 1 = segs.length
        ∧ ∀ t ∈ s.tail, ∀ a l, t ≠ .beqz a l ∧ t ≠ .bnez a l)
      ∨ (number (pre.length + 1) rest).head?.map (·.1) = some ((pre.length + 1 : ℕ) : ℤ)
        ∧ pre.length + 1 < segs.length := by
  rw [head?_number hc]
  cases rest with
  | nil =>
    refine .inl ⟨rfl, by simp [hs], fun t ht => hlast t ?_⟩
    rw [hs]
    simp [Seg.code, Seg.body, Option.mem_def.1 ht]
  | cons s' rest => exact .inr ⟨rfl, by simp [hs]⟩

/-- The loop makes a block of every segment. -/
theorem gather_number : ∀ {rest pre : List Seg}, segs = pre ++ rest → Cut rest →
    ∀ {n : ℕ}, rest.length ≤ n →
    ∃ bs, gather (number 0 segs) n (number pre.length rest) = some bs ∧ bs.length = rest.length
      ∧ ∀ (k : ℕ) (s : Seg), rest[k]? = some s →
        ∃ b, bs[k]? = some b ∧ BlockOf segs (pre.length + k) s b
  | [], pre, _, _, n, _ => ⟨[], by cases n <;> rfl, rfl, by simp⟩
  | s :: rest, pre, hs, hc, 0, hle => by simp at hle
  | s :: rest, pre, hs, hc, n + 1, hle => by
    obtain ⟨t, c, hcode⟩ := List.exists_cons_of_ne_nil hc.2.1
    have hstart : number pre.length (s :: rest) = ((pre.length : ℤ), t)
        :: (c.map ((pre.length : ℤ), ·) ++ number (pre.length + 1) rest) := by
      rw [number, hcode]
      rfl
    have hdrop := dropWhile_number (k := pre.length) hc
    rw [hstart] at hdrop ⊢
    unfold gather
    by_cases hb : s.body = []
    · obtain ⟨rfl, ho, ht⟩ := hc.of_body_nil hb
      rw [if_pos hb] at hdrop
      rw [hdrop]
      refine ⟨_, rfl, rfl, fun k s' hk => ?_⟩
      obtain ⟨rfl, rfl⟩ : k = 0 ∧ s = s' := by
        cases k with
        | zero => exact ⟨rfl, Option.some_inj.1 hk⟩
        | succ k => cases hk
      have hb : BlockOf segs pre.length s _ := .last ht (by simp [hs])
      rw [ho] at hb
      exact ⟨_, rfl, hb⟩
    · rw [if_neg hb] at hdrop
      obtain ⟨first, tacs, hbody⟩ := List.exists_cons_of_ne_nil hb
      rw [hbody, List.map_cons, List.cons_append] at hdrop
      rw [hdrop]
      obtain ⟨htake, hrest⟩ := takeWhile_number (k := pre.length) (c := s.body) hc.2.2.2
      rw [hbody, List.map_cons, List.cons_append] at htake hrest
      obtain ⟨bs, hbs, hlen, hget⟩ := @gather_number rest (pre ++ [s]) (by simp [hs]) hc.2.2.2 n
        (by simpa using hle)
      have hw : ∀ t ∈ s.tail, ∀ l, t.target = some l →
          ∃ j : ℕ, Home segs l j ∧ whereNum (number 0 segs) l = some (j : ℤ) := by
        intro t ht l hl
        obtain ⟨j, hj⟩ := htarget t (by simp [hs, Seg.code, Seg.body, Option.mem_def.1 ht]) l hl
        exact ⟨j, hj, whereNum_number hn hj⟩
      obtain ⟨b, hb, hbof⟩ := endBlock_of (k := pre.length) hb hc.1 hw
        (gather_next hlast hs hc.2.2.2)
      rw [hbody] at hb
      refine ⟨b :: bs, ?_, by simp [hlen], fun k s' hk => ?_⟩
      · have hmap : ((pre.length : ℤ), first) :: tacs.map ((pre.length : ℤ), ·)
            = (first :: tacs).map ((pre.length : ℤ), ·) := rfl
        have hsnd : ((first :: tacs).map ((pre.length : ℤ), ·)).map (·.2) = first :: tacs := by
          rw [List.map_map]
          exact List.map_id _
        have hlen' : ((pre ++ [s]).length : ℤ) = pre.length + 1 := by simp
        rw [hlen'] at hbs
        simp only [htake, hrest, hmap, hsnd, hb, hbs]
        rfl
      · cases k with
        | zero =>
          cases hk
          exact ⟨b, rfl, hbof⟩
        | succ k =>
          obtain ⟨b', hb', hof⟩ := hget k s' hk
          refine ⟨b', hb', ?_⟩
          have : (pre ++ [s]).length + k = pre.length + (k + 1) := by simp; omega
          rwa [this] at hof

end Gather

theorem length_le_number {k : ℤ} : ∀ {segs : List Seg}, Cut segs →
    segs.length ≤ (number k segs).length
  | [], _ => Nat.le_refl 0
  | s :: segs, hc => by
    have hpos := List.length_pos_iff.2 hc.2.1
    have ih := length_le_number (k := k + 1) hc.2.2.2
    rw [number, List.length_append, List.length_map, List.length_cons]
    omega

theorem head_segments {code : List Tac} (h : WellFormed code) :
    ∀ s ∈ (segments code).head?, s.labels ≠ [] := by
  obtain ⟨name, rest, rfl, -⟩ := h.head
  unfold segments
  rw [List.foldr_cons]
  cases rest.foldr Seg.push [] with
  | nil => simp [Seg.push]
  | cons s segs => simp [Seg.push]

/-- `gatherBasicBlocks` makes a block of every segment. -/
theorem gatherBasicBlocks_of {code : List Tac} (h : WellFormed code) :
    ∃ bbs, gatherBasicBlocks code = some bbs ∧ bbs.length = (segments code).length
      ∧ ∀ (k : ℕ) (s : Seg), (segments code)[k]? = some s →
        ∃ b, bbs[k]? = some b ∧ BlockOf (segments code) k s b := by
  have hf := flat_segments code
  have hc := cut_segments code
  have htarget : ∀ l ∈ marks code, isTarget code l := by
    intro l hl
    cases l with
    | func name => rfl
    | num id =>
      rcases h.used _ hl with ⟨name, hname⟩ | ⟨t, ht, hl⟩
      · cases hname
      · exact List.any_eq_true.2 ⟨t, ht, decide_eq_true hl⟩
  have hmarked : markBasicBlocks (isTarget code) (-1) false code = number 0 (segments code) := by
    have hm := markBasicBlocks_flat hc (by rwa [hf])
      (.inr ⟨rfl, Int.add_left_neg 1, head_segments h⟩)
    rwa [hf] at hm
  have hdrop : (number 0 (segments code)).dropWhile (·.1 < 0) = number 0 (segments code) := by
    have hh := head?_number (k := 0) hc
    cases hnum : number 0 (segments code) with
    | nil => rfl
    | cons x xs =>
      rw [hnum] at hh
      have hx : x.1 = 0 := by
        cases hs : segments code with
        | nil => rw [hs] at hh; cases hh
        | cons s segs => rw [hs] at hh; exact Option.some_inj.1 hh
      simp [hx]
  unfold gatherBasicBlocks
  rw [hmarked]
  dsimp only
  rw [hdrop]
  obtain ⟨bbs, hbbs, hlen, hget⟩ := @gather_number (segments code) (by rw [hf]; exact h.once)
    (by
      rw [hf]
      exact fun t ht l hl => Home.exists hc (by rw [hf]; exact h.targets t ht l hl))
    (by rw [hf]; exact h.last) (segments code) [] rfl hc _ (length_le_number hc)
  refine ⟨bbs, hbbs, hlen, fun k s hk => ?_⟩
  obtain ⟨b, hb, hbof⟩ := hget k s hk
  rw [List.length_nil, Nat.zero_add] at hbof
  exact ⟨b, hb, hbof⟩

/-! ## The graph of the blocks -/

open Trace

variable {σ : Type} (M : Machine σ)

theorem quiet_marks (code : List Tac) (ls : List Label) (c : List Tac) (s : σ) :
    Quiet (tacStep M code) (ls.map .mark ++ c, s) (c, s) := by
  induction ls with
  | nil => exact .refl _
  | cons l ls ih => exact .head rfl ih

/-- The code and the graph stand at the same place of the segment at `k`. -/
def AtSeg (segs : List Seg) : List Tac × σ → ℤ × List Tac × σ → Prop
  | (c, s), (k, rest, s') => s = s' ∧ ∃ (j : ℕ) (seg : Seg) (ops : List Instr), k = j
      ∧ segs[j]? = some seg ∧ rest = ops.map .instr
      ∧ c = rest ++ seg.tail.toList ++ flat (segs.drop (j + 1))

theorem getBlock_natCast (bbs : List BasicBlock) (k : ℕ) : getBlock bbs k = bbs[k]? := by
  simp [getBlock]

section Instr

variable {i : Instr} {x x' : σ} (rest : List Tac)

theorem tacStep_exec (code : List Tac) (h : M.exec i x = some x') :
    tacStep M code (.instr i :: rest, x) = some (.emit i (rest, x')) := by
  simp [tacStep, h]

theorem tacStep_halt (code : List Tac) (h : M.exec i x = none) :
    tacStep M code (.instr i :: rest, x) = some (.stop (.halted i x)) := by
  simp [tacStep, h]

theorem graphStep_exec (bbs : List BasicBlock) (k : ℤ) (h : M.exec i x = some x') :
    graphStep M bbs (k, .instr i :: rest, x) = some (.emit i (k, rest, x')) := by
  simp [graphStep, h]

theorem graphStep_halt (bbs : List BasicBlock) (k : ℤ) (h : M.exec i x = none) :
    graphStep M bbs (k, .instr i :: rest, x) = some (.stop (.halted i x)) := by
  simp [graphStep, h]

end Instr

section Leave

variable {bbs : List BasicBlock} {i : ℤ} {b : BasicBlock} (hb : getBlock bbs i = some b)
include hb

theorem graphStep_byReturn (hk : b.endKind = .byReturn) (x : σ) :
    graphStep M bbs (i, [], x) = some (.stop (.returned b.var x)) := by
  unfold graphStep
  simp [hb, hk]

theorem graphStep_byBranch (hk : b.endKind = .byBranch) (x : σ) :
    graphStep M bbs (i, [], x) = enter bbs b.next0 x := by
  unfold graphStep
  simp [hb, hk]

theorem graphStep_byBeqz (hk : b.endKind = .byBeqz) {c : Temp} (hv : b.var = some c) (x : σ) :
    graphStep M bbs (i, [], x) = enter bbs (if M.zero c x then b.next0 else b.next1) x := by
  unfold graphStep
  simp [hb, hk, hv]

theorem graphStep_byBnez (hk : b.endKind = .byBnez) {c : Temp} (hv : b.var = some c) (x : σ) :
    graphStep M bbs (i, [], x) = enter bbs (if M.zero c x then b.next1 else b.next0) x := by
  unfold graphStep
  simp [hb, hk, hv]

end Leave

theorem BlockOf.tacList {segs : List Seg} {k : ℕ} {s : Seg} {b : BasicBlock}
    (h : BlockOf segs k s b) : b.tacList = s.ops.map .instr := by
  cases h <;> rfl

theorem flat_drop {segs : List Seg} {j : ℕ} {s : Seg} (h : segs[j]? = some s) :
    flat (segs.drop j) = s.labels.map .mark ++ bodyAt segs j := by
  obtain ⟨hj, rfl⟩ := List.getElem?_eq_some_iff.1 h
  rw [List.drop_eq_getElem_cons hj, flat_cons, Seg.code, bodyAt_eq h, List.append_assoc]

section Run

variable {segs : List Seg} {bbs : List BasicBlock} (hc : Cut segs)
  (hn : (marks (flat segs)).Nodup)
  (hbbs : ∀ (k : ℕ) (s : Seg), segs[k]? = some s → ∃ b, bbs[k]? = some b ∧ BlockOf segs k s b)
include hbbs

/-- The segment at `j` is entered. -/
theorem enter_at {j : ℕ} {s : Seg} (hj : segs[j]? = some s) (x : σ) :
    enter bbs j x = some (.silent ((j : ℤ), s.ops.map .instr, x))
      ∧ AtSeg segs (bodyAt segs j, x) ((j : ℤ), s.ops.map .instr, x) := by
  obtain ⟨b, hb, hbof⟩ := hbbs j s hj
  refine ⟨?_, rfl, j, s, s.ops, rfl, hj, rfl, ?_⟩
  · unfold enter
    rw [getBlock_natCast, hb, ← hbof.tacList]
    rfl
  · rw [bodyAt_eq hj]
    rfl

/-- A way out of a segment: the graph enters the segment that the code goes to. -/
def Leaves (segs : List Seg) (bbs : List BasicBlock) (j : ℕ) (c : List Tac) (x : σ) : Prop :=
  ∃ c₁ st, tacStep M (flat segs) (c, x) = some (.silent (c₁, x))
    ∧ graphStep M bbs ((j : ℤ), [], x) = some (.silent st)
    ∧ ∃ c₂, Quiet (tacStep M (flat segs)) (c₁, x) (c₂, x) ∧ AtSeg segs (c₂, x) st

omit hbbs in
theorem quiet_next {j : ℕ} (hk : j < segs.length) (x : σ) :
    Quiet (tacStep M (flat segs)) (flat (segs.drop j), x) (bodyAt segs j, x) := by
  rw [flat_drop (List.getElem?_eq_getElem hk)]
  exact quiet_marks M _ _ _ x

omit hbbs in
include hn in
theorem quiet_home {l : Label} {j : ℕ} (h : Home segs l j) (x : σ) :
    Quiet (tacStep M (flat segs)) (codeAt (flat segs) l, x) (bodyAt segs j, x) := by
  obtain ⟨q, hq⟩ := h.codeAt hn
  rw [hq]
  exact quiet_marks M _ (l :: q) _ x

include hc hn

/-- At the end of a segment the code and the graph stop alike or go on alike. -/
theorem ends_at {j : ℕ} {s : Seg} (hj : segs[j]? = some s) (x : σ) :
    (∃ r, tacStep M (flat segs) (s.tail.toList ++ flat (segs.drop (j + 1)), x) = some (.stop r)
        ∧ graphStep M bbs ((j : ℤ), [], x) = some (.stop r))
      ∨ Leaves M segs bbs j (s.tail.toList ++ flat (segs.drop (j + 1))) x := by
  obtain ⟨b, hb, hbof⟩ := hbbs j s hj
  rw [← getBlock_natCast] at hb
  have hnext : ∀ (hk : j + 1 < segs.length), AtSeg segs (bodyAt segs (j + 1), x)
      (((j + 1 : ℕ) : ℤ), segs[j + 1].ops.map .instr, x) ∧ enter bbs ((j + 1 : ℕ) : ℤ) x
        = some (.silent (((j + 1 : ℕ) : ℤ), segs[j + 1].ops.map .instr, x)) := fun hk =>
    (enter_at hbbs (List.getElem?_eq_getElem hk) x).symm
  cases hbof with
  | ret h =>
    rw [h]
    exact .inl ⟨_, rfl, graphStep_byReturn M hb rfl x⟩
  | branch h hi =>
    obtain ⟨s', hs', -⟩ := id hi
    obtain ⟨he, hat⟩ := enter_at hbbs hs' x
    rw [h]
    exact .inr ⟨_, _, rfl, (graphStep_byBranch M hb rfl x).trans he, _, quiet_home M hn hi x, hat⟩
  | @beqz c l i h hi hk =>
    obtain ⟨s', hs', -⟩ := id hi
    obtain ⟨he, hat⟩ := enter_at hbbs hs' x
    have hg := graphStep_byBeqz M hb rfl rfl x
    rw [h]
    refine .inr ?_
    by_cases hz : M.zero c x = true
    · rw [if_pos hz] at hg
      exact ⟨_, _, by simp [tacStep, hz], hg.trans he, _, quiet_home M hn hi x, hat⟩
    · rw [if_neg hz] at hg
      exact ⟨_, _, by simp [tacStep, hz], hg.trans (hnext hk).2, _, quiet_next M hk x, (hnext hk).1⟩
  | @bnez c l i h hi hk =>
    obtain ⟨s', hs', -⟩ := id hi
    obtain ⟨he, hat⟩ := enter_at hbbs hs' x
    have hg := graphStep_byBnez M hb rfl rfl x
    rw [h]
    refine .inr ?_
    by_cases hz : M.zero c x = true
    · rw [if_pos hz] at hg
      exact ⟨_, _, by simp [tacStep, hz], hg.trans (hnext hk).2, _, quiet_next M hk x, (hnext hk).1⟩
    · rw [if_neg hz] at hg
      exact ⟨_, _, by simp [tacStep, hz], hg.trans he, _, quiet_home M hn hi x, hat⟩
  | falls h hk =>
    -- the marks of the next segment make a step of the code
    have hs' := List.getElem?_eq_getElem hk
    obtain ⟨l, ls, hl⟩ := List.exists_cons_of_ne_nil ((hc.get hj).2 h _ hs').2
    rw [h, flat_drop hs', hl]
    exact .inr ⟨_, _, rfl, (graphStep_byBranch M hb rfl x).trans (hnext hk).2, _,
      quiet_marks M _ ls _ x, (hnext hk).1⟩
  | last h hk =>
    rw [h, List.drop_of_length_le (Nat.le_of_eq hk.symm)]
    exact .inl ⟨_, rfl, graphStep_byReturn M hb rfl x⟩

/-- The graph of the blocks does what the code does. -/
theorem follows_gather : Follows (tacStep M (flat segs)) (graphStep M bbs) (AtSeg segs) := by
  rintro ⟨c, s⟩ ⟨k, rest, s'⟩ ⟨rfl, j, seg, ops, rfl, hj, rfl, rfl⟩
  cases ops with
  | nil =>
    rcases ends_at M hc hn hbbs hj s with ⟨r, h1, h2⟩ | ⟨c₁, st, h1, h2, c₂, hq, hat⟩
    · exact .stop h2 (.refl _) h1
    · exact .silent h2 h1 hq hat
  | cons i ops =>
    cases he : M.exec i s with
    | none => exact .stop (graphStep_halt M _ bbs j he) (.refl _) (tacStep_halt M _ _ he)
    | some s' =>
      exact .emit (graphStep_exec M _ bbs j he) (.refl _) (tacStep_exec M _ _ he)
        ⟨rfl, j, seg, ops, rfl, hj, rfl, rfl⟩

end Run

end FlowGraph

end Decaf

end CacheCPU
