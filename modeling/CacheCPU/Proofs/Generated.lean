import CacheCPU.Decaf.TransPass2
import Mathlib.Algebra.Order.Group.Nat
import Mathlib.Data.List.Nodup
import Mathlib.Data.Nat.SuccPred

/-!
# The code of a method

What the flow graph relies on in the code that `TransPass2` makes: every label is marked once and is a
target, every target is marked, no test is the last operation, and a branch goes forward or to a
place where something is done before the next branch. The last is why no chain of branches without
operations between them goes round.
-/

namespace CacheCPU

namespace Decaf

/-- The labels marked in the code. -/
def marks (c : List Tac) : List Label :=
  c.filterMap fun
    | .mark l => some l
    | _ => none

@[simp] theorem marks_nil : marks [] = [] := rfl

@[simp] theorem marks_append (c c' : List Tac) : marks (c ++ c') = marks c ++ marks c' :=
  List.filterMap_append

@[simp] theorem marks_mark (l : Label) (c : List Tac) : marks (.mark l :: c) = l :: marks c := rfl

theorem marks_cons {t : Tac} (h : t.isMark = false) (c : List Tac) : marks (t :: c) = marks c := by
  cases t <;> first | rfl | simp [Tac.isMark] at h

@[simp] theorem marks_instr (i : Instr) (c : List Tac) : marks (.instr i :: c) = marks c := rfl

@[simp] theorem marks_ret (r : Option Temp) (c : List Tac) : marks (.ret r :: c) = marks c := rfl

@[simp] theorem marks_branch (l : Label) (c : List Tac) : marks (.branch l :: c) = marks c := rfl

@[simp] theorem marks_beqz (t : Temp) (l : Label) (c : List Tac) :
    marks (.beqz t l :: c) = marks c := rfl

@[simp] theorem marks_bnez (t : Temp) (l : Label) (c : List Tac) :
    marks (.bnez t l :: c) = marks c := rfl

theorem mem_marks {c : List Tac} {l : Label} : l ∈ marks c ↔ .mark l ∈ c := by
  unfold marks
  rw [List.mem_filterMap]
  constructor
  · rintro ⟨t, ht, h⟩
    cases t <;> simp at h
    exact h ▸ ht
  · exact fun h => ⟨_, h, rfl⟩

theorem not_mem_of_nodup_marks {a b : List Tac} {l : Label}
    (h : (marks (a ++ .mark l :: b)).Nodup) :
    .mark l ∉ a ∧ .mark l ∉ b := by
  rw [marks_append, marks_mark] at h
  have h' := List.nodup_middle.1 h
  rw [List.nodup_cons, List.mem_append, not_or, mem_marks, mem_marks] at h'
  exact h'.1

theorem codeAt_append {a : List Tac} {l : Label} (h : .mark l ∉ a) (b : List Tac) :
    codeAt (a ++ .mark l :: b) l = .mark l :: b := by
  unfold codeAt
  rw [List.dropWhile_append_of_pos, List.dropWhile_cons_of_neg (by simp)]
  intro t ht
  simpa using fun hl : t = .mark l => h (hl ▸ ht)

theorem codeAt_eq {code a b : List Tac} {l : Label} (h : code = a ++ .mark l :: b)
    (hn : (marks code).Nodup) : codeAt code l = .mark l :: b := by
  rw [h] at hn ⊢
  exact codeAt_append (not_mem_of_nodup_marks hn).1 b

/-- The first operation is not a branch, if there is one. -/
def Calm (c : List Tac) : Prop := ∀ l, (c.dropWhile Tac.isMark).head? ≠ some (.branch l)

/-- There is a first operation, and it is not a branch. -/
def Loud (c : List Tac) : Prop := Calm c ∧ c.dropWhile Tac.isMark ≠ []

theorem calm_nil : Calm [] := by simp [Calm]

theorem calm_cons {t : Tac} (hm : t.isMark = false) (hb : ∀ l, t ≠ .branch l) (c : List Tac) :
    Calm (t :: c) := by
  intro l
  simp [hm, hb l]

theorem Calm.mark {c : List Tac} (h : Calm c) (l : Label) : Calm (.mark l :: c) := h

theorem Calm.append {c c' : List Tac} (h : Calm c) (h' : Calm c') : Calm (c ++ c') := by
  intro l
  rw [List.dropWhile_append]
  split_ifs with hc
  · exact h' l
  · rw [List.head?_append_of_ne_nil _ (by simpa using hc)]
    exact h l

theorem Calm.loud {c : List Tac} (h : Calm c) {t : Tac} (hm : t.isMark = false)
    (hb : ∀ l, t ≠ .branch l) (c' : List Tac) : Loud (c ++ t :: c') := by
  refine ⟨h.append (calm_cons hm hb c'), ?_⟩
  rw [List.dropWhile_append]
  split_ifs with hc
  · simp [hm]
  · simp

/-- Every branch of the code, between `pre` and `post`, goes forward, to `exit`, or back to a place
where something is done first. -/
def BackIn (exit : Option Label) (post : List Tac) : List Tac → List Tac → Prop
  | _, [] => True
  | pre, t :: c =>
    (∀ l, t = .branch l → l ∈ marks c ∨ l ∈ marks post ∨ exit = some l
      ∨ ∃ a b, pre = a ++ .mark l :: b ∧ Loud b)
    ∧ BackIn exit post (pre ++ [t]) c

theorem backIn_append {exit : Option Label} {post c' : List Tac} :
    ∀ {pre c : List Tac}, BackIn exit post pre (c ++ c')
      ↔ BackIn exit (c' ++ post) pre c ∧ BackIn exit post (pre ++ c) c'
  | pre, [] => by simp [BackIn]
  | pre, t :: c => by
    rw [List.cons_append, BackIn, BackIn, @backIn_append _ _ _ (pre ++ [t]) c]
    simp only [marks_append, List.mem_append, List.append_assoc, List.singleton_append, or_assoc,
      and_assoc]

/-- More may stand before and behind the code, and its exit may be marked there. -/
theorem BackIn.mono {exit exit' : Option Label} {post post' : List Tac} (p : List Tac)
    (hp : ∀ l ∈ marks post, l ∈ marks post' ∨ exit' = some l)
    (he : ∀ l, exit = some l → l ∈ marks post' ∨ exit' = some l) :
    ∀ {pre c : List Tac}, BackIn exit post pre c → BackIn exit' post' (p ++ pre) c
  | pre, [], _ => trivial
  | pre, t :: c, h => by
    refine ⟨fun l hl => ?_, ?_⟩
    · rcases h.1 l hl with h | h | h | ⟨a, b, hab, hb⟩
      · exact .inl h
      · exact .inr ((hp l h).imp id .inl)
      · exact .inr ((he l h).imp id .inl)
      · exact .inr (.inr (.inr ⟨p ++ a, b, by rw [hab, List.append_assoc], hb⟩))
    · have := BackIn.mono p hp he h.2
      rwa [List.append_assoc]

/-- A property of places in the code that is kept backwards along a run in which every temporary is
zero. -/
structure Backward (code : List Tac) (Q : List Tac → Prop) : Prop where
  instr : ∀ i rest, Q rest → Q (.instr i :: rest)
  branch : ∀ l rest, Q (codeAt code l) → Q (.branch l :: rest)
  beqz : ∀ a l rest, Q (codeAt code l) → Q (.beqz a l :: rest)
  bnez : ∀ a l rest, Q rest → Q (.bnez a l :: rest)
  mark : ∀ l rest, Q rest → Q (.mark l :: rest)

/-- In such a run the code comes to its end, to `exit` or to a return. -/
def Runs (exit : Option Label) (c : List Tac) : Prop :=
  ∀ (pre post : List Tac) {code : List Tac} {Q : List Tac → Prop}, code = pre ++ (c ++ post) →
    (marks code).Nodup → Backward code Q → (∀ src rest, .ret src ∈ c → Q (.ret src :: rest)) →
    (∀ l, exit = some l → Q (codeAt code l)) → Q post → Q (c ++ post)

/-- A piece of code whose branches stay in it or go to `exit`. -/
structure Closed (exit : Option Label) (c : List Tac) : Prop where
  once : (marks c).Nodup
  targets : ∀ t ∈ c, ∀ l, t.target = some l → l ∈ marks c ∨ exit = some l
  used : ∀ l ∈ marks c, ∃ t ∈ c, t.target = some l
  back : BackIn exit [] [] c
  last : ∀ t, c.getLast? = some t → ∀ a l, t ≠ .beqz a l ∧ t ≠ .bnez a l
  runs : Runs exit c

/-- The code `pre` before and `post` behind make no difference to a closed piece. -/
theorem Closed.backIn {exit exit' : Option Label} {c : List Tac} (h : Closed exit c)
    (pre post : List Tac) (he : ∀ l, exit = some l → l ∈ marks post ∨ exit' = some l) :
    BackIn exit' post pre c := by
  have : BackIn exit' post (pre ++ []) c := h.back.mono pre (by simp) he
  rwa [List.append_nil] at this

theorem Closed.append {exit : Option Label} {c c' : List Tac} (h : Closed exit c)
    (h' : Closed exit c') (hd : List.Disjoint (marks c) (marks c')) : Closed exit (c ++ c') where
  once := by
    rw [marks_append]
    exact h.once.append h'.once hd
  targets t ht l hl := by
    rw [marks_append, List.mem_append]
    rcases List.mem_append.1 ht with ht | ht
    · exact (h.targets t ht l hl).imp .inl id
    · exact (h'.targets t ht l hl).imp .inr id
  used l hl := by
    rw [marks_append, List.mem_append] at hl
    rcases hl with hl | hl
    · obtain ⟨t, ht, htl⟩ := h.used l hl
      exact ⟨t, List.mem_append_left _ ht, htl⟩
    · obtain ⟨t, ht, htl⟩ := h'.used l hl
      exact ⟨t, List.mem_append_right _ ht, htl⟩
  back := backIn_append.2 ⟨h.backIn _ _ fun _ he => .inr he, h'.backIn _ _ fun _ he => .inr he⟩
  last t ht := by
    rw [List.getLast?_append] at ht
    cases hc : c'.getLast? with
    | none =>
      rw [hc] at ht
      exact h.last t ht
    | some t' =>
      rw [hc] at ht
      exact h'.last t (hc.trans ht)
  runs := by
    intro pre post code Q hcode hn hQ hret hexit hpost
    rw [List.append_assoc] at hcode ⊢
    refine h.runs pre _ hcode hn hQ (fun src rest hm => hret src rest (List.mem_append_left _ hm))
      hexit ?_
    exact h'.runs (pre ++ c) post (by rw [hcode, List.append_assoc]) hn hQ
      (fun src rest hm => hret src rest (List.mem_append_right _ hm)) hexit hpost

theorem closed_instr (exit : Option Label) (i : Instr) : Closed exit [.instr i] where
  once := List.nodup_nil
  targets t ht l hl := by
    rw [List.mem_singleton] at ht
    subst ht
    cases hl
  used l hl := by simp at hl
  back := ⟨by simp, trivial⟩
  last t ht a l := by
    cases ht
    exact ⟨by simp, by simp⟩
  runs _ _ _ _ _ _ hQ _ _ hpost := hQ.instr i _ hpost

theorem closed_nil (exit : Option Label) : Closed exit [] where
  once := List.nodup_nil
  targets t ht := by simp at ht
  used l hl := by simp at hl
  back := trivial
  last t ht := by simp at ht
  runs _ _ _ _ _ _ _ _ _ hpost := hpost

/-! ## The shapes of code -/

theorem backIn_of_not_branch {exit : Option Label} {post pre : List Tac} {t : Tac}
    (h : ∀ l, t ≠ .branch l) {c : List Tac} (hc : BackIn exit post (pre ++ [t]) c) :
    BackIn exit post pre (t :: c) :=
  ⟨fun l hl => absurd hl (h l), hc⟩

/-- A test of which one side goes past `c`. -/
theorem Closed.skip {exit : Option Label} {c : List Tac} (h : Closed exit c) {t : Tac} {j : Label}
    (ht : t.target = some j) (hb : ∀ l, t ≠ .branch l) (hj : j ∉ marks c) :
    Closed exit (t :: c ++ [Tac.mark j]) where
  once := by
    have hm : t.isMark = false := by cases t <;> first | rfl | simp [Tac.target] at ht
    rw [List.cons_append, marks_cons hm, marks_append]
    exact h.once.append (List.nodup_singleton j) (by simpa using hj)
  targets u hu l hl := by
    simp only [List.cons_append, List.mem_cons, List.mem_append, List.not_mem_nil, or_false] at hu
    rw [mem_marks]
    rcases hu with rfl | hu | rfl
    · rw [ht] at hl
      cases hl
      simp
    · refine (h.targets u hu l hl).imp (fun hl => ?_) id
      simp [mem_marks.1 hl]
    · cases hl
  used l hl := by
    have hl' := mem_marks.1 hl
    simp only [List.cons_append, List.mem_cons, List.mem_append, List.not_mem_nil, or_false,
      Tac.mark.injEq] at hl'
    rcases hl' with rfl | hl' | rfl
    · cases ht
    · obtain ⟨u, hu, hul⟩ := h.used l (mem_marks.2 hl')
      exact ⟨u, by simp [hu], hul⟩
    · exact ⟨t, by simp, ht⟩
  back := by
    refine backIn_of_not_branch hb ?_
    exact backIn_append.2 ⟨h.backIn _ _ fun _ he => .inr he, backIn_of_not_branch (by simp) trivial⟩
  last u hu a l := by
    rw [List.getLast?_append] at hu
    cases hu
    exact ⟨by simp, by simp⟩
  runs := by
    intro pre post code Q hcode hn hQ hret hexit hpost
    simp only [List.cons_append, List.append_assoc] at hcode ⊢
    cases t with
    | beqz a l =>
      cases ht
      refine hQ.beqz a j _ ?_
      rw [codeAt_eq (a := pre ++ Tac.beqz a j :: c) (by simpa using hcode) hn]
      exact hQ.mark j _ hpost
    | bnez a l =>
      cases ht
      refine hQ.bnez a j _ ?_
      exact h.runs (pre ++ [Tac.bnez a j]) _ (by simpa using hcode) hn hQ
        (fun src rest hm => hret src rest (by simp [hm])) hexit (hQ.mark j _ hpost)
    | branch l => exact absurd rfl (hb l)
    | _ => cases ht

theorem Closed.ifThenElse {exit : Option Label} {c d : List Tac} (hc : Closed exit c)
    (hd : Closed exit d) {a : Temp} {j k : Label}
    (hn : (marks c ++ j :: marks d ++ [k]).Nodup) :
    Closed exit (Tac.beqz a j :: c ++ Tac.branch k :: Tac.mark j :: d ++ [Tac.mark k]) where
  once := by simpa using hn
  targets u hu l hl := by
    simp only [List.cons_append, List.append_assoc, List.mem_cons, List.mem_append,
      List.not_mem_nil, or_false] at hu
    rw [mem_marks]
    rcases hu with rfl | hu | rfl | rfl | hu | rfl
    · cases hl
      simp
    · refine (hc.targets u hu l hl).imp (fun hl => ?_) id
      simp [mem_marks.1 hl]
    · cases hl
      simp
    · cases hl
    · refine (hd.targets u hu l hl).imp (fun hl => ?_) id
      simp [mem_marks.1 hl]
    · cases hl
  used l hl := by
    have hl' := mem_marks.1 hl
    simp only [List.cons_append, List.append_assoc, List.mem_cons, List.mem_append,
      List.not_mem_nil, or_false, Tac.mark.injEq, reduceCtorEq, false_or] at hl'
    rcases hl' with hl' | rfl | hl' | rfl
    · obtain ⟨u, hu, hul⟩ := hc.used l (mem_marks.2 hl')
      exact ⟨u, by simp [hu], hul⟩
    · exact ⟨.beqz a l, by simp, rfl⟩
    · obtain ⟨u, hu, hul⟩ := hd.used l (mem_marks.2 hl')
      exact ⟨u, by simp [hu], hul⟩
    · exact ⟨.branch l, by simp, rfl⟩
  back := by
    rw [List.append_assoc]
    refine backIn_of_not_branch (by simp) (backIn_append.2
      ⟨hc.backIn _ _ fun _ he => .inr he, ⟨fun l hl => ?_, backIn_of_not_branch (by simp)
        (backIn_append.2 ⟨hd.backIn _ _ fun _ he => .inr he,
          backIn_of_not_branch (by simp) trivial⟩)⟩⟩)
    cases hl
    exact .inl (by simp)
  last u hu a l := by
    rw [List.getLast?_append] at hu
    cases hu
    exact ⟨by simp, by simp⟩
  runs := by
    intro pre post code Q hcode hn hQ hret hexit hpost
    simp only [List.cons_append, List.append_assoc] at hcode ⊢
    refine hQ.beqz a j _ ?_
    rw [codeAt_eq (a := pre ++ Tac.beqz a j :: c ++ [Tac.branch k]) (by simpa using hcode) hn]
    refine hQ.mark j _ ?_
    exact hd.runs (pre ++ Tac.beqz a j :: c ++ [Tac.branch k, Tac.mark j]) _
      (by simpa using hcode) hn hQ
      (fun src rest hm => hret src rest (by simp [hm])) hexit (hQ.mark k _ hpost)

/-- A loop: `c` is what is done before the test. -/
theorem Closed.loop {exit : Option Label} {c d : List Tac} {i j : Label} (hc : Closed none c)
    (hcalm : Calm c) (hd : Closed (some j) d) {a : Temp}
    (hn : (i :: marks c ++ marks d ++ [j]).Nodup) :
    Closed exit (Tac.mark i :: c ++ Tac.beqz a j :: d ++ [Tac.branch i, Tac.mark j]) where
  once := by simpa using hn
  targets u hu l hl := by
    simp only [List.cons_append, List.append_assoc, List.mem_cons, List.mem_append,
      List.not_mem_nil, or_false] at hu
    rw [mem_marks]
    rcases hu with rfl | hu | rfl | hu | rfl | rfl
    · cases hl
    · rcases hc.targets u hu l hl with hl | hl
      · simp [mem_marks.1 hl]
      · cases hl
    · cases hl
      simp
    · rcases hd.targets u hu l hl with hl | hl
      · simp [mem_marks.1 hl]
      · cases hl
        simp
    · cases hl
      simp
    · cases hl
  used l hl := by
    have hl' := mem_marks.1 hl
    simp only [List.cons_append, List.append_assoc, List.mem_cons, List.mem_append,
      List.not_mem_nil, or_false, Tac.mark.injEq, reduceCtorEq, false_or] at hl'
    rcases hl' with rfl | hl' | hl' | rfl
    · exact ⟨.branch l, by simp, rfl⟩
    · obtain ⟨u, hu, hul⟩ := hc.used l (mem_marks.2 hl')
      exact ⟨u, by simp [hu], hul⟩
    · obtain ⟨u, hu, hul⟩ := hd.used l (mem_marks.2 hl')
      exact ⟨u, by simp [hu], hul⟩
    · exact ⟨.beqz a l, by simp, rfl⟩
  back := by
    rw [List.append_assoc]
    refine backIn_of_not_branch (by simp) (backIn_append.2 ⟨hc.backIn _ _ (by simp),
      backIn_of_not_branch (by simp) (backIn_append.2 ⟨hd.backIn _ _ fun l he => .inl ?_,
        fun l hl => ?_, backIn_of_not_branch (by simp) trivial⟩)⟩)
    · cases he
      simp
    · -- behind the mark of the loop comes `c`, and the test at the latest
      cases hl
      exact .inr (.inr (.inr ⟨[], c ++ Tac.beqz a j :: d, by simp, hcalm.loud rfl (by simp) d⟩))
  last u hu a l := by
    rw [List.getLast?_append] at hu
    cases hu
    exact ⟨by simp, by simp⟩
  runs := by
    intro pre post code Q hcode hn hQ hret hexit hpost
    simp only [List.cons_append, List.append_assoc] at hcode ⊢
    refine hQ.mark i _ ?_
    refine hc.runs (pre ++ [Tac.mark i]) _ (by simpa using hcode) hn hQ
      (fun src rest hm => hret src rest (by simp [hm])) (by simp) (hQ.beqz a j _ ?_)
    rw [codeAt_eq (a := pre ++ Tac.mark i :: c ++ Tac.beqz a j :: d ++ [Tac.branch i])
      (by simpa using hcode)
      hn]
    exact hQ.mark j _ hpost

/-- A loop that is entered at its test. -/
theorem Closed.forLoop {exit : Option Label} {u c d : List Tac} {i j k : Label}
    (hu : Closed none u) (hucalm : Calm u) (hc : Closed none c) (hcalm : Calm c)
    (hd : Closed (some j) d) {a : Temp}
    (hn : (i :: marks u ++ k :: marks c ++ marks d ++ [j]).Nodup) :
    Closed exit (Tac.branch k :: Tac.mark i :: u ++ Tac.mark k :: c ++ Tac.beqz a j :: d
      ++ [Tac.branch i, Tac.mark j]) where
  once := by simpa using hn
  targets v hv l hl := by
    simp only [List.cons_append, List.append_assoc, List.mem_cons, List.mem_append,
      List.not_mem_nil, or_false] at hv
    rw [mem_marks]
    rcases hv with rfl | rfl | hv | rfl | hv | rfl | hv | rfl | rfl
    · cases hl
      simp
    · cases hl
    · rcases hu.targets v hv l hl with hl | hl
      · simp [mem_marks.1 hl]
      · cases hl
    · cases hl
    · rcases hc.targets v hv l hl with hl | hl
      · simp [mem_marks.1 hl]
      · cases hl
    · cases hl
      simp
    · rcases hd.targets v hv l hl with hl | hl
      · simp [mem_marks.1 hl]
      · cases hl
        simp
    · cases hl
      simp
    · cases hl
  used l hl := by
    have hl' := mem_marks.1 hl
    simp only [List.cons_append, List.append_assoc, List.mem_cons, List.mem_append,
      List.not_mem_nil, or_false, Tac.mark.injEq, reduceCtorEq, false_or] at hl'
    rcases hl' with rfl | hl' | rfl | hl' | hl' | rfl
    · exact ⟨.branch l, by simp, rfl⟩
    · obtain ⟨v, hv, hvl⟩ := hu.used l (mem_marks.2 hl')
      exact ⟨v, by simp [hv], hvl⟩
    · exact ⟨.branch l, by simp, rfl⟩
    · obtain ⟨v, hv, hvl⟩ := hc.used l (mem_marks.2 hl')
      exact ⟨v, by simp [hv], hvl⟩
    · obtain ⟨v, hv, hvl⟩ := hd.used l (mem_marks.2 hl')
      exact ⟨v, by simp [hv], hvl⟩
    · exact ⟨.beqz a l, by simp, rfl⟩
  back := by
    simp only [List.cons_append, List.append_assoc]
    refine ⟨fun l hl => ?_, backIn_of_not_branch (by simp) (backIn_append.2
      ⟨hu.backIn _ _ (by simp), backIn_of_not_branch (by simp) (backIn_append.2
        ⟨hc.backIn _ _ (by simp), backIn_of_not_branch (by simp) (backIn_append.2
          ⟨hd.backIn _ _ fun l he => .inl ?_, fun l hl => ?_,
            backIn_of_not_branch (by simp) trivial⟩)⟩)⟩)⟩
    · cases hl
      exact .inl (by simp)
    · cases he
      simp
    · cases hl
      refine .inr (.inr (.inr ⟨[Tac.branch k], u ++ Tac.mark k :: c ++ Tac.beqz a j :: d, by simp,
        ?_⟩))
      exact (hucalm.append (hcalm.mark k)).loud rfl (by simp) d
  last v hv a l := by
    rw [List.getLast?_append] at hv
    cases hv
    exact ⟨by simp, by simp⟩
  runs := by
    intro pre post code Q hcode hn hQ hret hexit hpost
    simp only [List.cons_append, List.append_assoc] at hcode ⊢
    refine hQ.branch k _ ?_
    rw [codeAt_eq (a := pre ++ Tac.branch k :: Tac.mark i :: u) (by simpa using hcode) hn]
    refine hQ.mark k _ ?_
    refine hc.runs (pre ++ Tac.branch k :: Tac.mark i :: u ++ [Tac.mark k]) _
      (by simpa using hcode) hn hQ
      (fun src rest hm => hret src rest (by simp [hm])) (by simp) (hQ.beqz a j _ ?_)
    rw [codeAt_eq (a := pre ++ Tac.branch k :: Tac.mark i :: u ++ Tac.mark k :: c
      ++ Tac.beqz a j :: d ++ [Tac.branch i]) (by simpa using hcode) hn]
    exact hQ.mark j _ hpost

theorem backIn_of_no_branch {exit : Option Label} {post : List Tac} :
    ∀ {pre c : List Tac}, (∀ l, .branch l ∉ c) → BackIn exit post pre c
  | _, [], _ => trivial
  | _, t :: c, h => by
    refine backIn_of_not_branch (fun l hl => h l (hl ▸ List.mem_cons_self)) ?_
    exact backIn_of_no_branch fun l hl => h l (List.mem_cons_of_mem _ hl)

theorem Closed.mono {c : List Tac} (h : Closed none c) (exit : Option Label) : Closed exit c where
  once := h.once
  targets t ht l hl := .inl ((h.targets t ht l hl).resolve_right (by simp))
  used := h.used
  back := h.backIn [] [] (by simp)
  last := h.last
  runs pre post _ _ hcode hn hQ hret _ hpost :=
    h.runs pre post hcode hn hQ hret (by simp) hpost

/-! ## The generator -/

/-- What running a piece of the generator adds to the code: closed code with new labels. -/
def Emits {α : Type} (exit : Option Label) (P : List Tac → Prop) (m : Emit α) : Prop :=
  ∀ g a g', m g = some (a, g') → ∃ c, g'.code = g.code ++ c ∧ g.nextLabel ≤ g'.nextLabel
    ∧ (∀ l ∈ marks c, ∃ id, l = .num id ∧ g.nextLabel ≤ id ∧ id < g'.nextLabel)
    ∧ Closed exit c ∧ P c

theorem run_bind {α β : Type} {m : Emit α} {f : α → Emit β} {g : Gen} {r : β × Gen} :
    (m >>= f) g = some r ↔ ∃ a g', m g = some (a, g') ∧ f a g' = some r := by
  simp only [bind, StateT.bind, Option.bind_eq_some_iff, Prod.exists]

theorem append_run {t : Tac} {g g' : Gen} {a : Unit} (h : append t g = some (a, g')) :
    g'.code = g.code ++ [t] ∧ g'.nextLabel = g.nextLabel := by
  cases h
  exact ⟨rfl, rfl⟩

theorem createLabel_run {g g' : Gen} {l : Label} (h : createLabel g = some (l, g')) :
    l = .num g.nextLabel ∧ g'.code = g.code ∧ g'.nextLabel = g.nextLabel + 1 := by
  cases h
  exact ⟨rfl, rfl, rfl⟩

theorem createTempI4_run {g g' : Gen} {t : Temp} (h : createTempI4 g = some (t, g')) :
    g'.code = g.code ∧ g'.nextLabel = g.nextLabel := by
  cases h
  exact ⟨rfl, rfl⟩

theorem genTo_run {op : Temp → Instr} {g g' : Gen} {t : Temp} (h : genTo op g = some (t, g')) :
    g'.code = g.code ++ [.instr (op t)] ∧ g'.nextLabel = g.nextLabel := by
  cases h
  exact ⟨rfl, rfl⟩

section Rules

variable {α β : Type} {exit : Option Label} {P : List Tac → Prop}

theorem Emits.bind {m : Emit α} {f : α → Emit β} (hP : ∀ c c', P c → P c' → P (c ++ c'))
    (hm : Emits exit P m) (hf : ∀ a, Emits exit P (f a)) : Emits exit P (m >>= f) := by
  intro g b g'' h
  obtain ⟨a, g', h1, h2⟩ := run_bind.1 h
  obtain ⟨c, hc, hle, hr, hcl, hp⟩ := hm g a g' h1
  obtain ⟨c', hc', hle', hr', hcl', hp'⟩ := hf a g' b g'' h2
  refine ⟨c ++ c', by rw [hc', hc, List.append_assoc], Nat.le_trans hle hle', fun l hl => ?_,
    hcl.append hcl' fun l hl hl' => ?_, hP c c' hp hp'⟩
  · rw [marks_append, List.mem_append] at hl
    rcases hl with hl | hl
    · obtain ⟨id, h1, h2, h3⟩ := hr l hl
      exact ⟨id, h1, h2, Nat.lt_of_lt_of_le h3 hle'⟩
    · obtain ⟨id, h1, h2, h3⟩ := hr' l hl
      exact ⟨id, h1, Nat.le_trans hle h2, h3⟩
  · -- the labels of the second part are newer
    obtain ⟨id, rfl, -, h3⟩ := hr l hl
    obtain ⟨id', he, h2', -⟩ := hr' _ hl'
    cases he
    omega

theorem emits_of_nothing {m : Emit α} (hP : P [])
    (h : ∀ g a g', m g = some (a, g') → g'.code = g.code ∧ g'.nextLabel = g.nextLabel) :
    Emits exit P m := by
  intro g a g' hm
  obtain ⟨hc, hl⟩ := h g a g' hm
  exact ⟨[], by simp [hc], Nat.le_of_eq hl.symm, by simp, closed_nil exit, hP⟩

theorem emits_pure (hP : P []) (a : α) : Emits exit P (pure a : Emit α) :=
  emits_of_nothing hP fun g a g' h => by
    cases h
    exact ⟨rfl, rfl⟩

theorem emits_createTempI4 (hP : P []) : Emits exit P createTempI4 :=
  emits_of_nothing hP fun g a g' h => by
    cases h
    exact ⟨rfl, rfl⟩

theorem emits_instr {i : Instr} (hP : P [.instr i]) : Emits exit P (append (.instr i)) := by
  intro g a g' h
  cases h
  exact ⟨[.instr i], rfl, Nat.le_refl _, by simp, closed_instr exit i, hP⟩

end Rules

/-- Code that begins with an operation and does not return. -/
structure Plain (c : List Tac) : Prop where
  head : c = [] ∨ ∃ i rest, c = .instr i :: rest
  noRet : ∀ src, .ret src ∉ c

theorem Plain.calm {c : List Tac} (h : Plain c) : Calm c := by
  obtain rfl | ⟨i, rest, rfl⟩ := h.head
  · exact calm_nil
  · exact calm_cons rfl (by simp) rest

theorem Plain.append {c c' : List Tac} (h : Plain c) (h' : Plain c') : Plain (c ++ c') where
  head := by
    obtain rfl | ⟨i, rest, rfl⟩ := h.head
    · exact h'.head
    · exact .inr ⟨i, rest ++ c', rfl⟩
  noRet src hm := (List.mem_append.1 hm).elim (h.noRet src) (h'.noRet src)

theorem plain_nil : Plain [] := ⟨.inl rfl, by simp⟩

theorem plain_instr (i : Instr) : Plain [.instr i] := ⟨.inr ⟨i, [], rfl⟩, by simp⟩

/-- Expressions, and what is made of operations only. -/
abbrev EmitsPlain {α : Type} (m : Emit α) : Prop := Emits none Plain m

theorem EmitsPlain.bind {α β : Type} {m : Emit α} {f : α → Emit β} (hm : EmitsPlain m)
    (hf : ∀ a, EmitsPlain (f a)) : EmitsPlain (m >>= f) :=
  Emits.bind (fun _ _ h h' => h.append h') hm hf

theorem calm_instr (i : Instr) : Calm [.instr i] := calm_cons rfl (by simp) []

theorem emitsPlain_pure {α : Type} (a : α) : EmitsPlain (pure a : Emit α) := emits_pure plain_nil a

theorem emitsPlain_createTempI4 : EmitsPlain createTempI4 := emits_createTempI4 plain_nil

theorem emitsPlain_instr (i : Instr) : EmitsPlain (append (.instr i)) := emits_instr (plain_instr i)

theorem emitsPlain_genTo (op : Temp → Instr) : EmitsPlain (genTo op) :=
  emitsPlain_createTempI4.bind fun _ => (emitsPlain_instr _).bind fun _ => emitsPlain_pure _

theorem emitsPlain_genMul (a b : Temp) : EmitsPlain (genMul a b) :=
  emitsPlain_createTempI4.bind fun _ => (emitsPlain_instr _).bind fun _ =>
    (emitsPlain_instr _).bind fun _ => emitsPlain_pure _

/-- `BEQZ` goes forward. -/
def Forward : List Tac → Prop
  | [] => True
  | t :: c => (∀ a l, t = .beqz a l → l ∈ marks c) ∧ Forward c

theorem Forward.suffix : ∀ {a c : List Tac}, Forward (a ++ c) → Forward c
  | [], _, h => h
  | _ :: _, _, h => Forward.suffix h.2

theorem Forward.runs {exit : Option Label} (n : ℕ) : ∀ {c : List Tac}, c.length ≤ n → Forward c →
    (∀ l, .branch l ∉ c) → Runs exit c := by
  induction n with
  | zero =>
    intro c hlen _ _ pre post code Q _ _ _ _ _ hpost
    rw [List.length_eq_zero_iff.1 (Nat.le_zero.1 hlen)]
    exact hpost
  | succ n ih =>
    intro c hlen hf hb pre post code Q hcode hn hQ hret hexit hpost
    cases c with
    | nil => exact hpost
    | cons t c =>
      -- a place further on in the code
      have hlater : ∀ {a b : List Tac}, c = a ++ b → Q (b ++ post) := by
        rintro a b rfl
        refine ih ?_ hf.2.suffix (fun l hl => hb l (by simp [hl])) (pre ++ t :: a) post
          (by simpa using hcode) hn hQ (fun src rest hm => hret src rest (by simp [hm])) hexit hpost
        rw [List.length_cons, List.length_append] at hlen
        omega
      cases t with
      | instr i => exact hQ.instr i _ (hlater (a := []) rfl)
      | ret src => exact hret src _ List.mem_cons_self
      | branch l => exact absurd List.mem_cons_self (hb l)
      | beqz x l =>
        obtain ⟨a, b, rfl⟩ := List.append_of_mem (mem_marks.1 (hf.1 x l rfl))
        refine hQ.beqz x l _ ?_
        rw [codeAt_eq (a := pre ++ Tac.beqz x l :: a) (b := b ++ post) (by simpa using hcode) hn]
        exact hlater (b := .mark l :: b) rfl
      | bnez x l => exact hQ.bnez x l _ (hlater (a := []) rfl)
      | mark l => exact hQ.mark l _ (hlater (a := []) rfl)

/-- Code without branches in which every label is marked and a target. -/
theorem closed_of_no_branch {exit : Option Label} {c : List Tac} (hn : (marks c).Nodup)
    (ht : ∀ t ∈ c, ∀ l, t.target = some l → l ∈ marks c)
    (hu : ∀ l ∈ marks c, ∃ t ∈ c, t.target = some l) (hb : ∀ l, .branch l ∉ c)
    (hl : ∀ t, c.getLast? = some t → ∀ a l, t ≠ .beqz a l ∧ t ≠ .bnez a l)
    (hf : Forward c) : Closed exit c where
  once := hn
  targets t ht' l hl' := .inl (ht t ht' l hl')
  used := hu
  back := backIn_of_no_branch hb
  last := hl
  runs := hf.runs c.length (Nat.le_refl _) hb

theorem emitsPlain_genCheckArrayIndex (array index : Temp) :
    EmitsPlain (genCheckArrayIndex array index) := by
  intro g a g' h
  cases h
  refine ⟨_, by simp only [List.append_assoc, List.singleton_append]; rfl, by simp; omega, ?_, ?_,
    ⟨.inr ⟨_, _, rfl⟩, by simp⟩⟩
  · simp
  · apply closed_of_no_branch <;> simp [Tac.target, Forward]

theorem emitsPlain_genCheckNewArraySize (size : Temp) : EmitsPlain (genCheckNewArraySize size) := by
  intro g a g' h
  cases h
  refine ⟨_, by simp only [List.append_assoc, List.singleton_append]; rfl, by simp, ?_, ?_,
    ⟨.inr ⟨_, _, rfl⟩, by simp⟩⟩
  · simp
  · apply closed_of_no_branch <;> simp [Tac.target, Forward]

theorem emitsPlain_genInstanceof (inst : Temp) (vtbl : String) :
    EmitsPlain (genInstanceof inst vtbl) := by
  intro g a g' h
  cases h
  refine ⟨_, by simp only [List.append_assoc, List.singleton_append]; rfl, by simp; omega, ?_, ?_,
    ⟨.inr ⟨_, _, rfl⟩, by simp⟩⟩
  · simp
  · apply closed_of_no_branch <;> simp [Tac.target, Forward]

/-- Operations only. -/
def Straight (c : List Tac) : Prop := ∀ t ∈ c, t.isInstr = true

theorem straight_instr (i : Instr) : Straight [.instr i] := by simp [Straight, Tac.isInstr]

theorem Straight.marks {c : List Tac} (h : Straight c) : marks c = [] := by
  rw [List.eq_nil_iff_forall_not_mem]
  intro l hl
  have := h _ (mem_marks.1 hl)
  simp [Tac.isInstr] at this

theorem Straight.target {c : List Tac} (h : Straight c) {t : Tac} (ht : t ∈ c) :
    t.target = none := by
  have := h t ht
  cases t <;> first | rfl | simp [Tac.isInstr] at this

theorem Straight.noRet {c : List Tac} (h : Straight c) (src : Option Temp) : .ret src ∉ c := by
  intro hm
  cases h _ hm

theorem Straight.forward : ∀ {c c' : List Tac}, Straight c → Forward c' → Forward (c ++ c')
  | [], _, _, h' => h'
  | t :: c, _, h, h' => by
    refine ⟨fun a l ht => ?_, Straight.forward (fun t ht => h t (List.mem_cons_of_mem _ ht)) h'⟩
    have := h t List.mem_cons_self
    rw [ht] at this
    cases this

theorem emits_straight_bind {α β : Type} {m : Emit α} {f : α → Emit β}
    (hm : Emits none Straight m) (hf : ∀ a, Emits none Straight (f a)) :
    Emits none Straight (m >>= f) :=
  Emits.bind (fun _ _ h h' t ht => (List.mem_append.1 ht).elim (h t) (h' t)) hm hf

theorem emits_straight_genTo (op : Temp → Instr) : Emits none Straight (genTo op) :=
  emits_straight_bind (emits_createTempI4 (by simp [Straight])) fun _ =>
    emits_straight_bind (emits_instr (straight_instr _)) fun _ => emits_pure (by simp [Straight]) _

theorem emits_straight_genPrintString (str : Temp) : Emits none Straight (genPrintString str) :=
  emits_straight_bind (emits_instr (straight_instr _)) fun _ => emits_instr (straight_instr _)

theorem emits_straight_genClassCastError (val : Temp) (vtbl : String) :
    Emits none Straight (genClassCastError val vtbl) :=
  emits_straight_bind (emits_straight_genTo _) fun _ =>
  emits_straight_bind (emits_straight_genPrintString _) fun _ =>
  emits_straight_bind (emits_straight_genTo _) fun _ =>
  emits_straight_bind (emits_straight_genTo _) fun _ =>
  emits_straight_bind (emits_straight_genPrintString _) fun _ =>
  emits_straight_bind (emits_straight_genTo _) fun _ =>
  emits_straight_bind (emits_straight_genPrintString _) fun _ =>
  emits_straight_bind (emits_straight_genTo _) fun _ =>
  emits_straight_bind (emits_straight_genTo _) fun _ =>
  emits_straight_bind (emits_straight_genPrintString _) fun _ =>
  emits_straight_bind (emits_straight_genTo _) fun _ =>
  emits_straight_bind (emits_straight_genPrintString _) fun _ =>
  emits_instr (straight_instr _)

/-- The search for a virtual table, with straight code `c` behind it. -/
theorem closed_search {i j : Label} (hij : i ≠ j) {a b : Temp} {x y z w : Instr} {c : List Tac}
    (hc : Straight c) :
    Closed none (Tac.instr x :: Tac.instr y :: Tac.mark i :: Tac.instr z :: Tac.bnez a j ::
      Tac.instr w :: Tac.bnez b i :: (c ++ [Tac.mark j])) := by
  have hm := hc.marks
  refine closed_of_no_branch (by simpa [hm] using hij) ?_ (by simp [hm, Tac.target]) ?_ ?_
    (by simpa [Forward] using hc.forward (by simp [Forward]))
  · intro t ht l hl
    simp only [List.mem_cons, List.mem_append, List.not_mem_nil, or_false] at ht
    rcases ht with rfl | rfl | rfl | rfl | rfl | rfl | rfl | ht | rfl
    · cases hl
    · cases hl
    · cases hl
    · cases hl
    · cases hl
      simp
    · cases hl
    · cases hl
      simp
    · rw [hc.target ht] at hl
      cases hl
    · cases hl
  · intro l hl
    simp only [List.mem_cons, List.mem_append, reduceCtorEq, false_or, List.not_mem_nil,
      or_false] at hl
    have := hc _ hl
    simp [Tac.isInstr] at this
  · intro t ht
    have hlast : ∀ pre : List Tac, (pre ++ (c ++ [Tac.mark j])).getLast? = some (Tac.mark j) :=
      fun pre => by rw [← List.append_assoc, List.getLast?_concat]
    have hj : t = .mark j := Option.some.inj (ht.symm.trans (hlast [_, _, _, _, _, _, _]))
    subst hj
    simp

theorem emitsPlain_genClassCast (val : Temp) (vtbl : String) :
    EmitsPlain (genClassCast val vtbl) := by
  intro g a g' h
  unfold genClassCast at h
  obtain ⟨i, g1, h1, h⟩ := run_bind.1 h
  obtain ⟨j, g2, h2, h⟩ := run_bind.1 h
  obtain ⟨cond, g3, h3, h⟩ := run_bind.1 h
  obtain ⟨targetVp, g4, h4, h⟩ := run_bind.1 h
  obtain ⟨vp, g5, h5, h⟩ := run_bind.1 h
  obtain ⟨_, g6, h6, h⟩ := run_bind.1 h
  obtain ⟨_, g7, h7, h⟩ := run_bind.1 h
  obtain ⟨_, g8, h8, h⟩ := run_bind.1 h
  obtain ⟨_, g9, h9, h⟩ := run_bind.1 h
  obtain ⟨_, g10, h10, h⟩ := run_bind.1 h
  obtain ⟨_, g11, h11, h12⟩ := run_bind.1 h
  obtain ⟨rfl, c1, l1⟩ := createLabel_run h1
  obtain ⟨rfl, c2, l2⟩ := createLabel_run h2
  obtain ⟨c3, l3⟩ := createTempI4_run h3
  obtain ⟨c4, l4⟩ := genTo_run h4
  obtain ⟨c5, l5⟩ := genTo_run h5
  obtain ⟨c6, l6⟩ := append_run h6
  obtain ⟨c7, l7⟩ := append_run h7
  obtain ⟨c8, l8⟩ := append_run h8
  obtain ⟨c9, l9⟩ := append_run h9
  obtain ⟨c10, l10⟩ := append_run h10
  obtain ⟨c, c11, l11, -, -, hst⟩ := emits_straight_genClassCastError val vtbl _ _ _ h11
  obtain ⟨c12, l12⟩ := append_run h12
  have hcode := c12
  rw [c11, c10, c9, c8, c7, c6, c5, c4, c3, c2, c1] at hcode
  simp only [List.append_assoc, List.cons_append, List.nil_append] at hcode
  refine ⟨_, hcode, by omega, ?_, closed_search ?_ hst, ⟨.inr ⟨_, _, rfl⟩, by simpa using hst.noRet⟩⟩
  · simp [hst.marks]
    omega
  · simp [l1]

theorem emitsPlain_genNewArray (length : Temp) : EmitsPlain (genNewArray length) := by
  refine (emitsPlain_genCheckNewArraySize length).bind fun _ => (emitsPlain_genTo _).bind fun unit =>
    (emitsPlain_genMul _ _).bind fun _ => (emitsPlain_genTo _).bind fun size =>
    (emitsPlain_instr _).bind fun _ => (emitsPlain_genTo _).bind fun obj =>
    (emitsPlain_instr _).bind fun _ => ?_
  intro g a g' h
  cases h
  refine ⟨[Tac.instr (.loadImm4 g.nextTemp 0), Tac.instr (.binary .add obj obj size)]
    ++ (Tac.mark (.num g.nextLabel) :: [Tac.instr (.binary .sub size size unit)]
      ++ Tac.beqz size (.num (g.nextLabel + 1))
        :: [Tac.instr (.binary .sub obj obj unit), Tac.instr (.store g.nextTemp obj 0)]
      ++ [Tac.branch (.num g.nextLabel), Tac.mark (.num (g.nextLabel + 1))]),
    by simp, by simp; omega, ?_, ?_, ⟨.inr ⟨_, _, rfl⟩, by simp⟩⟩
  · simp
  · refine Closed.append (closed_of_no_branch (by simp) (by simp [Tac.target]) (by simp) (by simp)
      (by simp) (by simp [Forward])) (Closed.loop (closed_instr none _) (calm_instr _) ?_ (by simp))
      (by simp)
    exact closed_of_no_branch (by simp) (by simp [Tac.target]) (by simp) (by simp) (by simp)
      (by simp [Forward])

/-! ## Expressions -/

namespace TransPass2

theorem emitsPlain_genBinaryTag (tag : BinaryTag) (str : Bool) (a b : Temp) :
    EmitsPlain (genBinaryTag tag str a b) := by
  have hcall : ∀ i, EmitsPlain (do
      genParm a
      genParm b
      genIntrinsicCall i) := fun i =>
    (emitsPlain_instr _).bind fun _ => (emitsPlain_instr _).bind fun _ => emitsPlain_genTo _
  cases tag with
  | mul => exact emitsPlain_genMul a b
  | div => exact hcall .libDiv
  | mod => exact hcall .libRem
  | eq =>
    cases str with
    | true => exact hcall .stringEqual
    | false => exact emitsPlain_genTo _
  | ne =>
    cases str with
    | true =>
      exact (emitsPlain_instr _).bind fun _ => (emitsPlain_instr _).bind fun _ =>
        (emitsPlain_genTo _).bind fun _ => emitsPlain_genTo _
    | false => exact emitsPlain_genTo _
  | _ => exact emitsPlain_genTo _

theorem emitsPlain_genParms : ∀ srcs : List Temp, EmitsPlain (genParms srcs)
  | [] => emitsPlain_pure ()
  | _ :: srcs => (emitsPlain_instr _).bind fun _ => emitsPlain_genParms srcs

section Visit

variable (this : Temp)

mutual

theorem emitsPlain_visitExpr : ∀ e : Expr, EmitsPlain (visitExpr this e)
  | .intLit _ => emitsPlain_genTo _
  | .boolLit _ => emitsPlain_genTo _
  | .strLit _ => emitsPlain_genTo _
  | .null => emitsPlain_genTo _
  | .thisExpr => emitsPlain_pure _
  | .ident _ => emits_of_nothing plain_nil fun _ _ _ h => by cases h; exact ⟨rfl, rfl⟩
  | .member owner _ => (emitsPlain_visitExpr owner).bind fun _ => emitsPlain_genTo _
  | .readIntExpr => emitsPlain_genTo _
  | .readLineExpr => emitsPlain_genTo _
  | .neg expr => (emitsPlain_visitExpr expr).bind fun _ => emitsPlain_genTo _
  | .not expr => (emitsPlain_visitExpr expr).bind fun _ => emitsPlain_genTo _
  | .binary tag str left right =>
    (emitsPlain_visitExpr left).bind fun _ => (emitsPlain_visitExpr right).bind fun _ =>
      emitsPlain_genBinaryTag tag str _ _
  | .indexed array index =>
    (emitsPlain_visitExpr array).bind fun _ => (emitsPlain_visitExpr index).bind fun _ =>
      (emitsPlain_genCheckArrayIndex _ _).bind fun _ => (emitsPlain_genTo _).bind fun _ =>
      (emitsPlain_genMul _ _).bind fun _ => (emitsPlain_genTo _).bind fun _ => emitsPlain_genTo _
  | .callExpr call => (emitsPlain_visitCall call false).bind fun _ => emitsPlain_pure _
  | .newArray length => (emitsPlain_visitExpr length).bind fun _ => emitsPlain_genNewArray _
  | .newClass _ => emitsPlain_genTo _
  | .typeTest inst vtbl => (emitsPlain_visitExpr inst).bind fun _ => emitsPlain_genInstanceof _ vtbl
  | .typeCast expr none => (emitsPlain_visitExpr expr).bind fun _ => emitsPlain_pure _
  | .typeCast expr (some vtbl) =>
    (emitsPlain_visitExpr expr).bind fun _ => (emitsPlain_genClassCast _ vtbl).bind fun _ =>
      emitsPlain_pure _

theorem emitsPlain_visitCall : ∀ (call : Call) (void : Bool), EmitsPlain (visitCall this call void)
  | .arrayLength receiver, _ =>
    (emitsPlain_visitExpr receiver).bind fun _ => (emitsPlain_genTo _).bind fun _ => emitsPlain_pure _
  | .direct _ actuals, true =>
    (emitsPlain_visitExprs actuals).bind fun _ => (emitsPlain_genParms _).bind fun _ =>
      (emitsPlain_instr _).bind fun _ => emitsPlain_pure _
  | .direct _ actuals, false =>
    (emitsPlain_visitExprs actuals).bind fun _ => (emitsPlain_genParms _).bind fun _ =>
      (emitsPlain_genTo _).bind fun _ => emitsPlain_pure _
  | .indirect receiver _ actuals, true =>
    (emitsPlain_visitExpr receiver).bind fun _ => (emitsPlain_visitExprs actuals).bind fun _ =>
      (emitsPlain_instr _).bind fun _ => (emitsPlain_genParms _).bind fun _ =>
      (emitsPlain_genTo _).bind fun _ => (emitsPlain_genTo _).bind fun _ =>
      (emitsPlain_instr _).bind fun _ => emitsPlain_pure _
  | .indirect receiver _ actuals, false =>
    (emitsPlain_visitExpr receiver).bind fun _ => (emitsPlain_visitExprs actuals).bind fun _ =>
      (emitsPlain_instr _).bind fun _ => (emitsPlain_genParms _).bind fun _ =>
      (emitsPlain_genTo _).bind fun _ => (emitsPlain_genTo _).bind fun _ =>
      (emitsPlain_genTo _).bind fun _ => emitsPlain_pure _

theorem emitsPlain_visitExprs : ∀ es : Exprs, EmitsPlain (visitExprs this es)
  | .nil => emitsPlain_pure _
  | .cons expr rest =>
    (emitsPlain_visitExpr expr).bind fun _ => (emitsPlain_visitExprs rest).bind fun _ =>
      emitsPlain_pure _

end

theorem emitsPlain_visitAssign : ∀ (left : LValue) (expr : Expr),
    EmitsPlain (visitAssign this left expr)
  | .arrayElement array index, expr =>
    (emitsPlain_visitExpr this array).bind fun _ => (emitsPlain_visitExpr this index).bind fun _ =>
      (emitsPlain_genCheckArrayIndex _ _).bind fun _ => (emitsPlain_genTo _).bind fun _ =>
      (emitsPlain_genMul _ _).bind fun _ => (emitsPlain_genTo _).bind fun _ =>
      (emitsPlain_genTo _).bind fun _ => (emitsPlain_visitExpr this expr).bind fun _ =>
      (emitsPlain_genTo _).bind fun _ => (emitsPlain_genMul _ _).bind fun _ =>
      (emitsPlain_genTo _).bind fun _ => emitsPlain_instr _
  | .memberVar owner _, expr =>
    (emitsPlain_visitExpr this owner).bind fun _ => (emitsPlain_genTo _).bind fun _ =>
      (emitsPlain_visitExpr this expr).bind fun _ => emitsPlain_instr _
  | .localVar _, expr =>
    (emitsPlain_visitExpr this expr).bind fun _ =>
      EmitsPlain.bind (emits_of_nothing plain_nil fun _ _ _ h => by cases h; exact ⟨rfl, rfl⟩)
        fun _ => emitsPlain_instr _

theorem emitsPlain_visitPrint : ∀ exprs : List (Expr × PrintType),
    EmitsPlain (visitPrint this exprs)
  | [] => emitsPlain_pure _
  | (expr, type) :: rest => by
    refine (emitsPlain_visitExpr this expr).bind fun _ => (emitsPlain_instr _).bind fun _ => ?_
    cases type <;> exact (emitsPlain_instr _).bind fun _ => emitsPlain_visitPrint rest

theorem emitsPlain_visitSimple : ∀ stmt : SimpleStmt, EmitsPlain (visitSimple this stmt)
  | .skip => emitsPlain_pure _
  | .assign left expr => emitsPlain_visitAssign this left expr
  | .exec call void => (emitsPlain_visitCall this call void).bind fun _ => emitsPlain_pure _

end Visit

end TransPass2

/-! ## Statements -/

/-- How the code of a statement begins: only the head of a `for` loop, and a `break`, begin with a
branch. -/
inductive Opening (exit : Option Label) (c : List Tac) : Prop
  | nothing (h : c = [])
  | loud (h : Loud c)
  | breakStmt {l : Label} {rest : List Tac} (he : exit = some l) (h : c = .branch l :: rest)
  | forLoop {i k : Label} {u rest : List Tac}
      (h : c = Tac.branch k :: Tac.mark i :: (u ++ Tac.mark k :: rest))
      (hu : Plain u) (hrun : Runs none u) (hrest : Loud rest) (hback : .branch i ∈ rest)

theorem Loud.append {c : List Tac} (h : Loud c) (c' : List Tac) : Loud (c ++ c') := by
  refine ⟨fun l => ?_, ?_⟩
  · rw [List.dropWhile_append, if_neg (by simpa using h.2), List.head?_append_of_ne_nil _ h.2]
    exact h.1 l
  · rw [List.dropWhile_append, if_neg (by simpa using h.2)]
    simp [h.2]

theorem Opening.append {exit : Option Label} {c c' : List Tac} (h : Opening exit c)
    (h' : Opening exit c') : Opening exit (c ++ c') := by
  cases h with
  | nothing h =>
    subst h
    exact h'
  | loud h => exact .loud (h.append c')
  | breakStmt he h =>
    subst h
    exact .breakStmt he rfl
  | @forLoop i k u rest h hu hrun hrest hback =>
    refine .forLoop (i := i) (k := k) (u := u) ?_ hu hrun (hrest.append c')
      (List.mem_append_left _ hback)
    simp [h]

theorem opening_forLoop {exit : Option Label} {i j k : Label} {a : Temp} {u c d : List Tac}
    (hu : Plain u) (hrun : Runs none u) (hc : Plain c) : Opening exit
      (Tac.branch k :: Tac.mark i :: u ++ Tac.mark k :: c ++ Tac.beqz a j :: d
        ++ [Tac.branch i, Tac.mark j]) := by
  have hloud : Loud (c ++ Tac.beqz a j :: (d ++ [Tac.branch i, Tac.mark j])) :=
    hc.calm.loud rfl (by simp) _
  refine .forLoop (i := i) (k := k) (u := u) ?_ hu hrun hloud (by simp)
  simp

theorem Plain.opening {c : List Tac} (h : Plain c) (exit : Option Label) : Opening exit c := by
  obtain rfl | ⟨i, rest, rfl⟩ := h.head
  · exact .nothing rfl
  · exact .loud (calm_nil.loud rfl (by simp) rest)

theorem EmitsPlain.emits {α : Type} {m : Emit α} (h : EmitsPlain m) (exit : Option Label) :
    Emits exit (Opening exit) m := by
  intro g a g' hm
  obtain ⟨c, hc, hle, hr, hcl, hp⟩ := h g a g' hm
  exact ⟨c, hc, hle, hr, hcl.mono exit, hp.opening exit⟩

theorem emits_bind {α β : Type} {exit : Option Label} {m : Emit α} {f : α → Emit β}
    (hm : Emits exit (Opening exit) m) (hf : ∀ a, Emits exit (Opening exit) (f a)) :
    Emits exit (Opening exit) (m >>= f) :=
  Emits.bind (fun _ _ h h' => h.append h') hm hf

theorem emits_ret (exit : Option Label) (src : Option Temp) :
    Emits exit (Opening exit) (append (.ret src)) := by
  intro g a g' h
  cases h
  exact ⟨[.ret src], rfl, Nat.le_refl _, by simp, closed_of_no_branch (by simp)
    (by simp [Tac.target]) (by simp) (by simp) (by simp) (by simp [Forward]),
    .loud (calm_nil.loud rfl (by simp) [])⟩

theorem emits_break (exit : Label) : Emits (some exit) (Opening (some exit)) (append (.branch exit)) := by
  intro g a g' h
  cases h
  refine ⟨[.branch exit], rfl, Nat.le_refl _, by simp, ⟨by simp, fun t ht l hl => ?_, by simp,
    ⟨fun l hl => ?_, trivial⟩, by simp, fun _ _ _ _ _ _ hQ _ hexit _ =>
      hQ.branch exit _ (hexit exit rfl)⟩, .breakStmt rfl rfl⟩
  · rw [List.mem_singleton] at ht
    subst ht
    cases hl
    exact .inr rfl
  · cases hl
    exact .inr (.inr (.inl rfl))

/-- Labels with numbers in a range. -/
def Within (lo hi : ℕ) (ls : List Label) : Prop :=
  ls.Nodup ∧ ∀ l ∈ ls, ∃ id, l = .num id ∧ lo ≤ id ∧ id < hi

theorem within_single (n : ℕ) : Within n (n + 1) [.num n] :=
  ⟨List.nodup_singleton _, fun _ hl =>
    ⟨n, List.mem_singleton.1 hl, Nat.le_refl n, Nat.lt_succ_self n⟩⟩

theorem Within.append {lo mid mid' hi : ℕ} {ls ls' : List Label} (h : Within lo mid ls)
    (h' : Within mid' hi ls') (hm : mid ≤ mid') (hle : lo ≤ mid) (hle' : mid' ≤ hi) :
    Within lo hi (ls ++ ls') := by
  refine ⟨h.1.append h'.1 fun l hl hl' => ?_, fun l hl => ?_⟩
  · obtain ⟨id, rfl, -, h3⟩ := h.2 l hl
    obtain ⟨id', he, h2', -⟩ := h'.2 _ hl'
    cases he
    omega
  · rcases List.mem_append.1 hl with hl | hl
    · obtain ⟨id, h1, h2, h3⟩ := h.2 l hl
      exact ⟨id, h1, h2, by omega⟩
    · obtain ⟨id, h1, h2, h3⟩ := h'.2 l hl
      exact ⟨id, h1, by omega, h3⟩

theorem Within.perm {lo hi : ℕ} {ls ls' : List Label} (h : Within lo hi ls)
    (hp : ls.Perm ls') : Within lo hi ls' :=
  ⟨hp.nodup_iff.1 h.1, fun l hl => h.2 l (hp.mem_iff.2 hl)⟩

/-- The same for the code of a piece that ends in a label, whose number was taken before. -/
theorem Within.snoc {lo n hi : ℕ} {ls ls' : List Label} (h : Within lo n ls)
    (h' : Within (n + 1) hi ls') (hle : lo ≤ n) (hle' : n + 1 ≤ hi) :
    Within lo hi (ls ++ ls' ++ [.num n]) := by
  refine ((h.append (within_single n) (Nat.le_refl n) hle (Nat.le_succ n)).append h'
    (Nat.le_refl _) (by omega) hle').perm ?_
  rw [List.append_assoc, List.append_assoc]
  exact List.Perm.append_left _ List.perm_append_comm

theorem Within.close {n hi : ℕ} {ls : List Label} (h : Within (n + 1) hi ls) (hle : n + 1 ≤ hi) :
    Within n hi (ls ++ [.num n]) :=
  Within.snoc ⟨List.nodup_nil, by simp⟩ h (Nat.le_refl n) hle

namespace TransPass2

variable (this : Temp)

section Stmt

variable (exit : Option Label)

theorem emits_ifThen (condition : Expr) {trueBranch : Stmt}
    (htrue : Emits exit (Opening exit) (visitStmt this exit trueBranch)) :
    Emits exit (Opening exit) (visitStmt this exit (.ifThen condition trueBranch)) := by
  refine emits_bind ((emitsPlain_visitExpr this condition).emits exit) fun cond => ?_
  intro g a g' h
  obtain ⟨j, g1, h1, h⟩ := run_bind.1 h
  obtain ⟨_, g2, h2, h⟩ := run_bind.1 h
  obtain ⟨_, g3, h3, h4⟩ := run_bind.1 h
  obtain ⟨rfl, c1, l1⟩ := createLabel_run h1
  obtain ⟨c2, l2⟩ := append_run h2
  obtain ⟨c, c3, l3, r3, hc, -⟩ := htrue _ _ _ h3
  obtain ⟨c4, l4⟩ := append_run h4
  have hw : Within g.nextLabel g'.nextLabel (marks c ++ [.num g.nextLabel]) := by
    have : Within (g.nextLabel + 1) g'.nextLabel (marks c) := by
      rw [l4, ← l1, ← l2]
      exact ⟨hc.once, r3⟩
    exact this.close (by omega)
  refine ⟨.beqz cond (.num g.nextLabel) :: c ++ [Tac.mark (.num g.nextLabel)], ?_, by omega,
    by simpa using hw.2, hc.skip rfl (by simp) ?_, .loud (calm_nil.loud rfl (by simp) _)⟩
  · rw [c4, c3, c2, c1]
    simp
  · have := hw.1
    rw [List.nodup_append] at this
    exact fun hm => this.2.2 _ hm _ (List.mem_singleton.2 rfl) rfl

theorem emits_ifThenElse (condition : Expr) {trueBranch falseBranch : Stmt}
    (htrue : Emits exit (Opening exit) (visitStmt this exit trueBranch))
    (hfalse : Emits exit (Opening exit) (visitStmt this exit falseBranch)) :
    Emits exit (Opening exit)
      (visitStmt this exit (.ifThenElse condition trueBranch falseBranch)) := by
  refine emits_bind ((emitsPlain_visitExpr this condition).emits exit) fun cond => ?_
  intro g a g' h
  obtain ⟨j, g1, h1, h⟩ := run_bind.1 h
  obtain ⟨_, g2, h2, h⟩ := run_bind.1 h
  obtain ⟨_, g3, h3, h⟩ := run_bind.1 h
  obtain ⟨k, g4, h4, h⟩ := run_bind.1 h
  obtain ⟨_, g5, h5, h⟩ := run_bind.1 h
  obtain ⟨_, g6, h6, h⟩ := run_bind.1 h
  obtain ⟨_, g7, h7, h8⟩ := run_bind.1 h
  obtain ⟨rfl, c1, l1⟩ := createLabel_run h1
  obtain ⟨c2, l2⟩ := append_run h2
  obtain ⟨c, c3, l3, r3, hc, -⟩ := htrue _ _ _ h3
  obtain ⟨rfl, c4, l4⟩ := createLabel_run h4
  obtain ⟨c5, l5⟩ := append_run h5
  obtain ⟨c6, l6⟩ := append_run h6
  obtain ⟨d, c7, l7, r7, hd, -⟩ := hfalse _ _ _ h7
  obtain ⟨c8, l8⟩ := append_run h8
  have hw : Within g.nextLabel g'.nextLabel
      (marks c ++ .num g.nextLabel :: marks d ++ [.num g3.nextLabel]) := by
    have w1 : Within g2.nextLabel g3.nextLabel (marks c) := ⟨hc.once, r3⟩
    have w2 : Within g6.nextLabel g7.nextLabel (marks d) := ⟨hd.once, r7⟩
    rw [l2, l1] at w1
    have w3 := w1.close (by omega)
    have w4 := w3.snoc (by rwa [l6, l5, l4] at w2) (by omega) (by omega)
    rw [l8]
    simpa using w4
  refine ⟨.beqz cond (.num g.nextLabel) :: c ++ Tac.branch (.num g3.nextLabel)
    :: Tac.mark (.num g.nextLabel) :: d ++ [Tac.mark (.num g3.nextLabel)], ?_, by omega,
    by simpa using hw.2, hc.ifThenElse hd hw.1, .loud (calm_nil.loud rfl (by simp) _)⟩
  rw [c8, c7, c6, c5, c4, c3, c2, c1]
  simp

theorem emits_whileLoop (condition : Expr) {loopBody : Stmt}
    (hbody : ∀ exit, Emits exit (Opening exit) (visitStmt this exit loopBody)) :
    Emits exit (Opening exit) (visitStmt this exit (.whileLoop condition loopBody)) := by
  intro g a g' h
  obtain ⟨i, g1, h1, h⟩ := run_bind.1 h
  obtain ⟨_, g2, h2, h⟩ := run_bind.1 h
  obtain ⟨val, g3, h3, h⟩ := run_bind.1 h
  obtain ⟨j, g4, h4, h⟩ := run_bind.1 h
  obtain ⟨_, g5, h5, h⟩ := run_bind.1 h
  obtain ⟨_, g6, h6, h⟩ := run_bind.1 h
  obtain ⟨_, g7, h7, h8⟩ := run_bind.1 h
  obtain ⟨rfl, c1, l1⟩ := createLabel_run h1
  obtain ⟨c2, l2⟩ := append_run h2
  obtain ⟨c, c3, l3, r3, hc, hplain⟩ := emitsPlain_visitExpr this condition _ _ _ h3
  obtain ⟨rfl, c4, l4⟩ := createLabel_run h4
  obtain ⟨c5, l5⟩ := append_run h5
  obtain ⟨d, c6, l6, r6, hd, -⟩ := hbody (some (.num g3.nextLabel)) _ _ _ h6
  obtain ⟨c7, l7⟩ := append_run h7
  obtain ⟨c8, l8⟩ := append_run h8
  have hw : Within g.nextLabel g'.nextLabel
      (.num g.nextLabel :: marks c ++ marks d ++ [.num g3.nextLabel]) := by
    have w1 : Within g2.nextLabel g3.nextLabel (marks c) := ⟨hc.once, r3⟩
    have w2 : Within g5.nextLabel g6.nextLabel (marks d) := ⟨hd.once, r6⟩
    have w3 := (within_single g.nextLabel).append w1 (by omega) (Nat.le_succ _) l3
    rw [l8, l7]
    exact w3.snoc (by rwa [l5, l4] at w2) (by omega) (by omega)
  refine ⟨.mark (.num g.nextLabel) :: c ++ Tac.beqz val (.num g3.nextLabel) :: d
    ++ [Tac.branch (.num g.nextLabel), Tac.mark (.num g3.nextLabel)], ?_, by omega,
    by simpa using hw.2, hc.loop hplain.calm hd hw.1, .loud ?_⟩
  · rw [c8, c7, c6, c5, c4, c3, c2, c1]
    simp
  · rw [List.append_assoc]
    exact (hplain.calm.mark _).loud rfl (by simp) _

theorem emits_forLoop (init : SimpleStmt) (condition : Expr) (update : SimpleStmt) {loopBody : Stmt}
    (hbody : ∀ exit, Emits exit (Opening exit) (visitStmt this exit loopBody)) :
    Emits exit (Opening exit) (visitStmt this exit (.forLoop init condition update loopBody)) := by
  refine emits_bind ((emitsPlain_visitSimple this init).emits exit) fun _ => ?_
  intro g a g' h
  obtain ⟨k, g1, h1, h⟩ := run_bind.1 h
  obtain ⟨i, g2, h2, h⟩ := run_bind.1 h
  obtain ⟨_, g3, h3, h⟩ := run_bind.1 h
  obtain ⟨_, g4, h4, h⟩ := run_bind.1 h
  obtain ⟨_, g5, h5, h⟩ := run_bind.1 h
  obtain ⟨_, g6, h6, h⟩ := run_bind.1 h
  obtain ⟨val, g7, h7, h⟩ := run_bind.1 h
  obtain ⟨j, g8, h8, h⟩ := run_bind.1 h
  obtain ⟨_, g9, h9, h⟩ := run_bind.1 h
  obtain ⟨_, g10, h10, h⟩ := run_bind.1 h
  obtain ⟨_, g11, h11, h12⟩ := run_bind.1 h
  obtain ⟨rfl, c1, l1⟩ := createLabel_run h1
  obtain ⟨rfl, c2, l2⟩ := createLabel_run h2
  obtain ⟨c3, l3⟩ := append_run h3
  obtain ⟨c4, l4⟩ := append_run h4
  obtain ⟨u, c5, l5, r5, hu, huplain⟩ := emitsPlain_visitSimple this update _ _ _ h5
  obtain ⟨c6, l6⟩ := append_run h6
  obtain ⟨c, c7, l7, r7, hc, hplain⟩ := emitsPlain_visitExpr this condition _ _ _ h7
  obtain ⟨rfl, c8, l8⟩ := createLabel_run h8
  obtain ⟨c9, l9⟩ := append_run h9
  obtain ⟨d, c10, l10, r10, hd, -⟩ := hbody (some (.num g7.nextLabel)) _ _ _ h10
  obtain ⟨c11, l11⟩ := append_run h11
  obtain ⟨c12, l12⟩ := append_run h12
  have hw : Within g.nextLabel g'.nextLabel (.num g1.nextLabel :: marks u
      ++ .num g.nextLabel :: marks c ++ marks d ++ [.num g7.nextLabel]) := by
    have w1 : Within g4.nextLabel g5.nextLabel (marks u) := ⟨hu.once, r5⟩
    have w2 : Within g6.nextLabel g7.nextLabel (marks c) := ⟨hc.once, r7⟩
    have w3 : Within g9.nextLabel g10.nextLabel (marks d) := ⟨hd.once, r10⟩
    have w4 := (within_single g1.nextLabel).append w1 (by omega) (Nat.le_succ _) l5
    rw [l1] at w4
    have w5 := w4.close (by omega)
    have w6 := w5.append w2 (by omega) (by omega) l7
    rw [l12, l11]
    have w7 := w6.snoc (by rwa [l9, l8] at w3) (by omega) (by omega)
    simpa [l1] using w7
  refine ⟨.branch (.num g.nextLabel) :: Tac.mark (.num g1.nextLabel) :: u
    ++ Tac.mark (.num g.nextLabel) :: c ++ Tac.beqz val (.num g7.nextLabel) :: d
    ++ [Tac.branch (.num g1.nextLabel), Tac.mark (.num g7.nextLabel)], ?_, by omega,
    by simpa using hw.2, hu.forLoop huplain.calm hc hplain.calm hd hw.1,
    opening_forLoop huplain hu.runs hplain⟩
  rw [c12, c11, c10, c9, c8, c7, c6, c5, c4, c3, c2, c1]
  simp

end Stmt

theorem emits_visitStmt : ∀ (exit : Option Label) (stmt : Stmt),
    Emits exit (Opening exit) (visitStmt this exit stmt)
  | exit, .simple stmt => (emitsPlain_visitSimple this stmt).emits exit
  | exit, .varDef _ =>
    emits_bind (emits_createTempI4 (.nothing rfl)) fun _ =>
      emits_of_nothing (.nothing rfl) fun _ _ _ h => by cases h; exact ⟨rfl, rfl⟩
  | exit, .returnStmt none => emits_ret exit none
  | exit, .returnStmt (some expr) =>
    emits_bind ((emitsPlain_visitExpr this expr).emits exit) fun _ => emits_ret exit _
  | exit, .print exprs => (emitsPlain_visitPrint this exprs).emits exit
  | none, .breakStmt => fun g a g' h => by cases h
  | some exit, .breakStmt => emits_break exit
  | exit, .ifThen condition trueBranch =>
    emits_ifThen this exit condition (emits_visitStmt exit trueBranch)
  | exit, .ifThenElse condition trueBranch falseBranch =>
    emits_ifThenElse this exit condition (emits_visitStmt exit trueBranch)
      (emits_visitStmt exit falseBranch)
  | exit, .whileLoop condition loopBody =>
    emits_whileLoop this exit condition fun exit => emits_visitStmt exit loopBody
  | exit, .forLoop init condition update loopBody =>
    emits_forLoop this exit init condition update fun exit => emits_visitStmt exit loopBody
  | exit, .seq first second =>
    emits_bind (emits_visitStmt exit first) fun _ => emits_visitStmt exit second

end TransPass2

/-- The code of a function, as the flow graph needs it. -/
structure WellFormed (code : List Tac) : Prop where
  head : ∃ name rest, code = .mark (.func name) :: rest ∧ Opening none rest
  once : (marks code).Nodup
  targets : ∀ t ∈ code, ∀ l, t.target = some l → l ∈ marks code
  used : ∀ l ∈ marks code, (∃ name, l = .func name) ∨ ∃ t ∈ code, t.target = some l
  back : BackIn none [] [] code
  last : ∀ t, code.getLast? = some t → ∀ a l, t ≠ .beqz a l ∧ t ≠ .bnez a l
  runs : Runs none code

theorem TransPass2.wellFormed {name : String} {this : Temp} {body : Stmt} {g : Gen}
    {code : List Tac} (h : visitMethodDef name this body g = some code) : WellFormed code := by
  unfold visitMethodDef at h
  obtain ⟨⟨a, g'⟩, h1, h2⟩ := Option.bind_eq_some_iff.1 h
  cases h2
  obtain ⟨c, hc, -, hr, hcl, hop⟩ := emits_visitStmt this none body _ _ _ h1
  simp only [hc, List.singleton_append]
  refine ⟨⟨name, c, rfl, hop⟩, ?_, fun t ht l hl => ?_, fun l hl => ?_, ?_, fun t ht => ?_, ?_⟩
  · rw [marks_mark, List.nodup_cons]
    refine ⟨fun hm => ?_, hcl.once⟩
    obtain ⟨id, he, -⟩ := hr _ hm
    cases he
  · rw [marks_mark]
    rcases List.mem_cons.1 ht with rfl | ht
    · cases hl
    · exact List.mem_cons_of_mem _ ((hcl.targets t ht l hl).resolve_right (by simp))
  · rw [marks_mark] at hl
    rcases List.mem_cons.1 hl with rfl | hl
    · exact .inl ⟨name, rfl⟩
    · obtain ⟨t, ht, htl⟩ := hcl.used l hl
      exact .inr ⟨t, List.mem_cons_of_mem _ ht, htl⟩
  · exact backIn_of_not_branch (by simp) (hcl.backIn _ _ (by simp))
  · cases hl : c.getLast? with
    | none =>
      rw [List.getLast?_cons, hl] at ht
      cases ht
      simp
    | some t' =>
      rw [List.getLast?_cons, hl] at ht
      cases ht
      exact hcl.last t' hl
  · intro pre post code Q hcode hn hQ hret hexit hpost
    refine hQ.mark _ _ (hcl.runs (pre ++ [Tac.mark (.func name)]) post (by simpa using hcode) hn hQ
      (fun src rest hm => hret src rest (List.mem_cons_of_mem _ hm)) hexit hpost)

end Decaf

end CacheCPU
