import CacheCPU.Decaf.BuildSym
import CacheCPU.Lib.Forest
import CacheCPU.Lib.Loop
import CacheCPU.Proofs.Inherit
import Mathlib.Data.Finset.Card
import Mathlib.Data.List.Perm.Subperm
import Mathlib.Tactic.SplitIfs

/-!
# Cycles of parents

`calcOrder` gives a class the order of its parent and one more, unless it meets a class that is
still on its way, which is then on a cycle with all that are. The order of the last of them is no
more than its parent's, so every cycle is cut there, and nothing else is.
-/

namespace CacheCPU

namespace Decaf

open Forest Relation

namespace ClassTable

variable {t t' : ClassTable} {n : ℕ} {c d x : String}

/-- `b` is the parent of `a`. -/
def Parent (t : ClassTable) (a b : String) : Prop := t.getParent a = some b

theorem getParent_mem (h : t.Parent c d) : d ∈ t.names := by
  unfold Parent getParent at h
  obtain ⟨name, -, hd⟩ := Option.bind_eq_some_iff.1 h
  unfold lookupClass at hd
  split_ifs at hd with hm
  rwa [← Option.some.inj hd]

/-! ## Orders -/

/-- The classes that have no order yet. -/
def unset (t : ClassTable) : Finset String := t.names.toFinset.filter fun c => t.order c < 0

theorem unset_setOrder (hc : c ∈ t.names) (hneg : t.order c < 0) :
    (t.setOrder c 0).unset.card < t.unset.card := by
  refine Finset.card_lt_card ⟨fun x hx => ?_, fun hsub => ?_⟩
  · obtain ⟨hm, hx⟩ := Finset.mem_filter.1 hx
    refine Finset.mem_filter.2 ⟨hm, ?_⟩
    change Function.update t.order c 0 x < 0 at hx
    rw [Function.update_apply] at hx
    split_ifs at hx with hxc
    · exact absurd hx (lt_irrefl _)
    · exact hx
  · have hmem : c ∈ t.unset := Finset.mem_filter.2 ⟨List.mem_toFinset.2 hc, hneg⟩
    have hx := (Finset.mem_filter.1 (hsub hmem)).2
    change Function.update t.order c 0 c < 0 at hx
    rw [Function.update_self] at hx
    exact absurd hx (lt_irrefl _)

theorem calcOrder_mono {c : Option String} {r : ClassTable × ℤ} (h : calcOrder n t c = some r) :
    ∀ m, n ≤ m → calcOrder m t c = some r := by
  induction n generalizing t c r with
  | zero =>
    intro m _
    cases c with
    | none => cases m <;> exact h
    | some c => cases h
  | succ n ih =>
    intro m hm
    obtain ⟨m, rfl⟩ : ∃ k, m = k + 1 := ⟨m - 1, by omega⟩
    cases c with
    | none => exact h
    | some c =>
      unfold calcOrder at h ⊢
      split_ifs at h ⊢ with hneg
      · obtain ⟨r', hr', hr⟩ := Option.map_eq_some_iff.1 h
        rw [ih hr' m (by omega), Option.map_some, hr]
      · exact h

section Marks

variable (D : String → String → Prop)

/-- The orders are right, but for the classes in `S`, which are on their way, and for those on a
cycle of `D`. -/
structure Marked (S : Set String) (t : ClassTable) : Prop where
  sub : ∀ a b, t.Parent a b → D a b
  mark : ∀ c ∈ S, 0 ≤ t.order c
  right : ∀ c ∉ S, 0 ≤ t.order c → TransGen D c c ∨
    (t.getParent c = none ∧ t.order c = 0) ∨
      ∃ q ∉ S, t.Parent c q ∧ 0 ≤ t.order q ∧ t.order c = t.order q + 1

/-- What a call of `calcOrder` leaves. -/
structure Called (S : Set String) (t : ClassTable) (c : String) (r : ClassTable × ℤ) : Prop where
  marked : Marked D S r.1
  names : r.1.names = t.names
  parentName : r.1.parentName = t.parentName
  keeps : ∀ x, 0 ≤ t.order x → r.1.order x = t.order x
  nonneg : 0 ≤ r.2
  value : r.1.order c = r.2

variable {D} {S : Set String}

/-- Starting on `c`: it gets the order 0 and is on its way. -/
theorem Marked.start (hm : Marked D S t) (hneg : t.order c < 0) :
    Marked D (insert c S) (t.setOrder c 0) where
  sub := hm.sub
  mark d hd := by
    change 0 ≤ Function.update t.order c 0 d
    rw [Function.update_apply]
    split_ifs with h
    · exact le_rfl
    · exact hm.mark d (hd.resolve_left h)
  right d hd h0 := by
    have hdc : d ≠ c := fun h => hd (.inl h)
    have hother : ∀ x, x ≠ c → (t.setOrder c 0).order x = t.order x :=
      fun x hx => Function.update_of_ne hx _ _
    rw [hother d hdc] at h0 ⊢
    refine (hm.right d (fun h => hd (.inr h)) h0).imp_right (.imp_right ?_)
    rintro ⟨q, hq, hp, hq0, he⟩
    have hqc : q ≠ c := by
      rintro rfl
      exact absurd hq0 (by omega)
    refine ⟨q, ?_, hp, ?_, ?_⟩
    · rintro (h | h)
      · exact hqc h
      · exact hq h
    · rwa [hother q hqc]
    · rwa [hother q hqc]

/-- Done with `c`: its order is one more than its parent's or it is on a cycle. -/
theorem Marked.finish {k : ℤ} (hm : Marked D (insert c S) t) (hS : c ∉ S)
    (hright : TransGen D c c ∨ (t.getParent c = none ∧ k = 0) ∨
      ∃ q ∉ insert c S, t.Parent c q ∧ 0 ≤ t.order q ∧ k = t.order q + 1) :
    Marked D S (t.setOrder c k) where
  sub := hm.sub
  mark d hd := by
    change 0 ≤ Function.update t.order c k d
    rw [Function.update_of_ne (by rintro rfl; exact hS hd)]
    exact hm.mark d (.inr hd)
  right d hd h0 := by
    have hother : ∀ x, x ≠ c → (t.setOrder c k).order x = t.order x :=
      fun x hx => Function.update_of_ne hx _ _
    have hqs : ∀ q ∉ insert c S, q ∉ S ∧ (t.setOrder c k).order q = t.order q := fun q hq =>
      ⟨fun h => hq (.inr h), hother q fun h => hq (.inl h)⟩
    by_cases hdc : d = c
    · subst hdc
      refine hright.imp_right (.imp (fun h => ⟨h.1, ?_⟩) ?_)
      · rw [← h.2]
        exact Function.update_self _ _ _
      · rintro ⟨q, hq, hp, hq0, he⟩
        refine ⟨q, (hqs q hq).1, hp, ?_, ?_⟩
        · rwa [(hqs q hq).2]
        · rw [(hqs q hq).2, ← he]
          exact Function.update_self _ _ _
    · rw [hother d hdc] at h0 ⊢
      refine (hm.right d (fun h => h.elim hdc hd) h0).imp_right (.imp_right ?_)
      rintro ⟨q, hq, hp, hq0, he⟩
      refine ⟨q, (hqs q hq).1, hp, ?_, ?_⟩
      · rwa [(hqs q hq).2]
      · rwa [(hqs q hq).2]

/-- The classes on their way lead to the one that is called for. -/
theorem calcOrder_called (hn : t.unset.card < n) (hc : c ∈ t.names) (hm : Marked D S t)
    (hreach : ∀ d ∈ S, TransGen D d c) :
    ∃ r, calcOrder n t (some c) = some r ∧ Called D S t c r := by
  induction n generalizing t c S with
  | zero => omega
  | succ n ih =>
    unfold calcOrder
    by_cases hneg : t.order c < 0
    · rw [if_pos hneg]
      have hcS : c ∉ S := fun h => absurd (hm.mark c h) (by omega)
      have hstart := hm.start hneg
      have hne : ∀ x, 0 ≤ t.order x → x ≠ c := by
        rintro x hx rfl
        omega
      rcases hq : t.getParent c with _ | q
      · -- a class without a parent
        have hcall : calcOrder n (t.setOrder c 0) none = some (t.setOrder c 0, -1) := by
          cases n <;> rfl
        rw [hcall]
        refine ⟨_, rfl, ?_, rfl, rfl, fun x hx => ?_, by simp, Function.update_self _ _ _⟩
        · exact hstart.finish hcS (.inr (.inl ⟨hq, by simp⟩))
        · exact (Function.update_of_ne (hne x hx) _ _).trans (Function.update_of_ne (hne x hx) _ _)
      · -- the classes on their way and `c` lead to the parent
        have hD : D c q := hm.sub c q hq
        have hreach' : ∀ d ∈ insert c S, TransGen D d q := by
          rintro d (rfl | hd)
          · exact .single hD
          · exact (hreach d hd).tail hD
        have hcard := unset_setOrder hc hneg
        obtain ⟨r, hr, hcalled⟩ := ih (t := t.setOrder c 0) (by omega) (getParent_mem hq) hstart
          hreach'
        rw [hr]
        have hk : 0 ≤ r.2 + 1 := by
          have := hcalled.nonneg
          omega
        refine ⟨_, rfl, ?_, hcalled.names, hcalled.parentName, fun x hx => ?_, hk,
          Function.update_self _ _ _⟩
        · have hpar : r.1.getParent c = some q := by
            unfold getParent lookupClass
            rw [hcalled.parentName, hcalled.names]
            exact hq
          refine hcalled.marked.finish hcS ?_
          by_cases hqS : q ∈ insert c S
          · left
            rcases hqS with rfl | hqS
            · exact .single hD
            · exact .head hD (hreach q hqS)
          · right; right
            refine ⟨q, hqS, hpar, ?_, ?_⟩
            · rw [hcalled.value]
              exact hcalled.nonneg
            · rw [hcalled.value]
        · have hx' : (t.setOrder c 0).order x = t.order x := Function.update_of_ne (hne x hx) _ _
          refine (Function.update_of_ne (hne x hx) _ _).trans ?_
          rw [hcalled.keeps x (by rwa [hx']), hx']
    · rw [if_neg hneg]
      exact ⟨_, rfl, hm, rfl, rfl, fun _ _ => rfl, by simpa using hneg, rfl⟩

end Marks

/-! ## The loops -/

theorem declareClasses_eq {p : TopLevel} (hp : (p.map ClassDef.name).Nodup) :
    (declareClasses p).2 = [] ∧ (declareClasses p).1.names = p.map ClassDef.name ∧
      (∀ cd ∈ p, (declareClasses p).1.parentName cd.name = cd.parent) ∧
      (∀ x ∉ p.map ClassDef.name, (declareClasses p).1.parentName x = none) ∧
      ∀ x, (declareClasses p).1.order x = -1 := by
  refine @Loop.foldl_inv _ _ (fun done s => s.2 = [] ∧ s.1.names = done.map ClassDef.name ∧
    (∀ cd ∈ done, s.1.parentName cd.name = cd.parent) ∧
    (∀ x ∉ done.map ClassDef.name, s.1.parentName x = none) ∧ ∀ x, s.1.order x = -1) p
    (⟨[], fun _ => none, fun _ => -1⟩, []) declareClass
    ⟨rfl, rfl, by simp, fun _ _ => rfl, fun _ => rfl⟩ ?_
  rintro done cd rest ⟨t, errors⟩ hl ⟨he, hnames, hparent, hnone, horder⟩
  have hnew : cd.name ∉ done.map ClassDef.name := by
    rw [hl, List.map_append, List.map_cons, List.nodup_append] at hp
    exact fun hm => hp.2.2 _ hm _ (List.mem_cons_self ..) rfl
  have hlook : (t.lookupClass cd.name).isSome = false := by
    have hn : cd.name ∉ t.names := hnames ▸ hnew
    unfold lookupClass
    rw [if_neg hn]
    rfl
  unfold declareClass
  simp only [hlook, Bool.false_eq_true, if_false]
  simp only [] at hnames
  refine ⟨he, by simp [hnames], fun d hd => ?_, fun x hx => ?_, fun x => ?_⟩
  · rcases List.mem_append.1 hd with hd | hd
    · have hne : d.name ≠ cd.name := fun h => hnew (h ▸ List.mem_map_of_mem hd)
      rw [Function.update_of_ne hne]
      exact hparent d hd
    · rw [List.mem_singleton.1 hd]
      exact Function.update_self _ _ _
  · rw [List.map_append, List.mem_append, not_or] at hx
    rw [Function.update_of_ne fun he => hx.2 (by simp [he])]
    exact hnone x hx.1
  · rw [Function.update_apply]
    split_ifs
    · rfl
    · exact horder x

theorem getParent_dettachParent (t : ClassTable) (c x : String) :
    (t.dettachParent c).getParent x = if x = c then none else t.getParent x := by
  unfold getParent dettachParent
  simp only [Function.update_apply]
  split_ifs
  · rfl
  · rfl

/-- A parent may be cut off from a class on a cycle, and where there is none. -/
theorem Marked.dettachParent {D : String → String → Prop} (hm : Marked D ∅ t)
    (hc : TransGen D c c ∨ t.getParent c = none) : Marked D ∅ (t.dettachParent c) where
  sub a b h := by
    unfold Parent at h
    rw [getParent_dettachParent] at h
    split_ifs at h
    exact hm.sub a b h
  mark _ h := h.elim
  right d _ h0 := by
    have hd := hm.right d id h0
    unfold Parent at hd ⊢
    rw [getParent_dettachParent]
    by_cases hdc : d = c
    · subst hdc
      rw [if_pos rfl]
      rcases hc with hc | hc
      · exact .inl hc
      · refine hd.imp_right fun h => ?_
        rcases h with h | ⟨q, -, hq, -⟩
        · exact .inl ⟨rfl, h.2⟩
        · rw [hc] at hq
          cases hq
    · rwa [if_neg hdc]

/-- After the second loop has gone through `done`. -/
structure Checked (t₀ : ClassTable) (done : List ClassDef) (s : ClassTable × List DecafError) :
    Prop where
  marked : Marked t₀.Parent ∅ s.1
  names : s.1.names = t₀.names
  other : ∀ x ∉ done.map ClassDef.name, s.1.getParent x = t₀.getParent x
  set : ∀ cd ∈ done, 0 ≤ s.1.order cd.name
  below : ∀ cd ∈ done, ∀ q, s.1.Parent cd.name q →
    0 ≤ s.1.order q ∧ s.1.order q < s.1.order cd.name
  cut : ∀ cd ∈ done, ∀ q, t₀.Parent cd.name q →
    s.1.Parent cd.name q ∨ .badInheritance cd.name ∈ s.2
  errors : ∀ x, .badInheritance x ∈ s.2 → TransGen t₀.Parent x x

section Step

variable {t₀ : ClassTable} {done : List ClassDef} {errors : List DecafError} {cd : ClassDef}

theorem Checked.unset_le {s : ClassTable × List DecafError} (h : Checked t₀ done s) :
    s.1.unset.card ≤ t₀.names.length := by
  rw [← h.names]
  exact (Finset.card_filter_le _ _).trans (List.toFinset_card_le _)

/-- A parent that is not there is forgotten. -/
theorem Checked.notFound {e : String} (h : Checked t₀ done (t, errors))
    (hc : t.getParent c = none) :
    Checked t₀ done (t.dettachParent c, errors ++ [.classNotFound e]) := by
  have hget : (t.dettachParent c).getParent = t.getParent := by
    funext x
    rw [getParent_dettachParent]
    split_ifs with hx
    · rw [hx, hc]
    · rfl
  refine ⟨h.marked.dettachParent (.inr hc), h.names, ?_, h.set, ?_, ?_, ?_⟩
  · simp only [hget]
    exact h.other
  · unfold Parent
    simp only [hget]
    exact h.below
  · intro d hd q hq
    unfold Parent
    simp only [hget]
    exact (h.cut d hd q hq).imp_right fun hm => List.mem_append_left _ hm
  · intro x hx
    exact h.errors x (by simpa using hx)

/-- A call of `calcOrder` sets more orders and changes none. -/
theorem Checked.called {r : ClassTable × ℤ} (h : Checked t₀ done (t, errors))
    (hr : Called t₀.Parent ∅ t c r) : Checked t₀ done (r.1, errors) := by
  have hget : r.1.getParent = t.getParent := by
    funext x
    unfold getParent lookupClass
    rw [hr.names, hr.parentName]
  refine ⟨hr.marked, hr.names.trans h.names, ?_, ?_, ?_, ?_, h.errors⟩
  · simp only [hget]
    exact h.other
  · intro d hd
    simp only [hr.keeps _ (h.set d hd)]
    exact h.set d hd
  · intro d hd q hq
    unfold Parent at hq
    rw [hget] at hq
    have hb := h.below d hd q hq
    simp only [hr.keeps _ hb.1, hr.keeps _ (h.set d hd)]
    exact hb
  · unfold Parent
    simp only [hget]
    exact h.cut

/-- The comparison of `cd` with its parent, after both calls. -/
theorem Checked.compare (h : Checked t₀ done (t, errors)) (hcd : cd.name ∉ done.map ClassDef.name)
    (hset : 0 ≤ t.order cd.name) (hpar : ∀ q, t.Parent cd.name q → 0 ≤ t.order q) :
    Checked t₀ (done ++ [cd])
      (if t.order cd.name ≤ (t.getParent cd.name).elim (-1) t.order then
        (t.dettachParent cd.name, errors ++ [.badInheritance cd.name])
      else (t, errors)) := by
  have hget := h.other cd.name hcd
  have hother : ∀ x ∉ (done ++ [cd]).map ClassDef.name, x ∉ done.map ClassDef.name ∧ x ≠ cd.name :=
    fun x hx => by simpa using hx
  have hne : ∀ d ∈ done, d.name ≠ cd.name := fun d hd he => hcd (he ▸ List.mem_map_of_mem hd)
  have hall : ∀ {Q : ClassDef → Prop}, (∀ d ∈ done, Q d) → Q cd → ∀ d ∈ done ++ [cd], Q d := by
    intro Q hQ hQc d hd
    rcases List.mem_append.1 hd with hd | hd
    · exact hQ d hd
    · rwa [List.mem_singleton.1 hd]
  split_ifs with hle
  · -- the parent has an order that is not smaller, so the class is on a cycle
    have hcycle : TransGen t₀.Parent cd.name cd.name := by
      rcases h.marked.right cd.name id hset with hc | ⟨hn, -⟩ | ⟨q, -, hq, -, he⟩
      · exact hc
      · rw [hn, Option.elim_none] at hle
        omega
      · simp only [] at he
        rw [hq, Option.elim_some] at hle
        omega
    refine ⟨h.marked.dettachParent (.inl hcycle), h.names, fun x hx => ?_, hall h.set hset, ?_, ?_,
      fun x hx => ?_⟩
    · rw [getParent_dettachParent, if_neg (hother x hx).2]
      exact h.other x (hother x hx).1
    · refine hall (fun d hd q hq => ?_) (fun q hq => ?_)
      · unfold Parent at hq
        rw [getParent_dettachParent, if_neg (hne d hd)] at hq
        exact h.below d hd q hq
      · unfold Parent at hq
        rw [getParent_dettachParent, if_pos rfl] at hq
        cases hq
    · refine hall (fun d hd q hq => ?_) (fun q hq => .inr (by simp))
      unfold Parent
      rw [getParent_dettachParent, if_neg (hne d hd)]
      exact (h.cut d hd q hq).imp_right fun hm => List.mem_append_left _ hm
    · rcases List.mem_append.1 hx with hx | hx
      · exact h.errors x hx
      · obtain rfl : x = cd.name := by simpa using hx
        exact hcycle
  · refine ⟨h.marked, h.names, fun x hx => h.other x (hother x hx).1, hall h.set hset, ?_, ?_,
      h.errors⟩
    · refine hall h.below fun q hq => ⟨hpar q hq, ?_⟩
      rw [hq, Option.elim_some] at hle
      exact not_le.1 hle
    · refine hall h.cut fun q hq => .inl ?_
      exact hget.trans hq

theorem Checked.step {s : ClassTable × List DecafError} (h : Checked t₀ done s)
    (hcd : cd.name ∉ done.map ClassDef.name) (hmem : cd.name ∈ t₀.names)
    (hn : t₀.names.length < n) :
    ∃ s', checkParent n s cd = some s' ∧ Checked t₀ (done ++ [cd]) s' := by
  obtain ⟨t, errors⟩ := s
  obtain ⟨s₁, hs₁, h₁⟩ : ∃ s₁, (if cd.parent.isSome ∧ t.getParent cd.name = none then
      (t.dettachParent cd.name, errors ++ [.classNotFound (cd.parent.getD "")])
    else (t, errors)) = s₁ ∧ Checked t₀ done s₁ := by
    refine ⟨_, rfl, ?_⟩
    split_ifs with hf
    · exact h.notFound hf.2
    · exact h
  obtain ⟨t₁, errors₁⟩ := s₁
  unfold checkParent
  simp only [hs₁]
  have hle₁ : t₁.unset.card < n := h₁.unset_le.trans_lt hn
  obtain ⟨r, hr, hcalled⟩ := calcOrder_called hle₁
    (h₁.names ▸ hmem : cd.name ∈ t₁.names) h₁.marked fun d hd => hd.elim
  have h₂ := h₁.called hcalled
  have hset : 0 ≤ r.1.order cd.name := hcalled.value ▸ hcalled.nonneg
  rw [hr, Option.bind_some]
  rcases hq : r.1.getParent cd.name with _ | q
  · have hnone : calcOrder n r.1 none = some (r.1, -1) := by cases n <;> rfl
    have hcmp := h₂.compare hcd hset fun q hq' => by
      rw [Parent, hq] at hq'
      cases hq'
    rw [hq, Option.elim_none] at hcmp
    simp only [hnone, Option.map_some, ← hcalled.value]
    exact ⟨_, rfl, hcmp⟩
  · have hle₂ : r.1.unset.card < n := h₂.unset_le.trans_lt hn
    obtain ⟨r', hr', hcalled'⟩ := calcOrder_called hle₂ (getParent_mem hq) h₂.marked
      fun d hd => hd.elim
    have h₃ := h₂.called hcalled'
    have hkeep := hcalled'.keeps cd.name hset
    have hget : r'.1.getParent cd.name = some q := by
      unfold getParent lookupClass
      rw [hcalled'.names, hcalled'.parentName]
      exact hq
    have hq0 : 0 ≤ r'.1.order q := hcalled'.value ▸ hcalled'.nonneg
    have hcmp := h₃.compare hcd (hkeep ▸ hset) fun x hx => by
      rw [Parent, hget] at hx
      rwa [← Option.some.inj hx]
    rw [hget, Option.elim_some, hkeep, hcalled'.value] at hcmp
    simp only [hr', Option.map_some, ← hcalled.value]
    exact ⟨_, rfl, hcmp⟩

end Step

theorem checkParent_mono {m : ℕ} {s s' : ClassTable × List DecafError} {cd : ClassDef}
    (hnm : n ≤ m) (h : checkParent n s cd = some s') : checkParent m s cd = some s' := by
  obtain ⟨r, hr, h⟩ := Option.bind_eq_some_iff.1 h
  obtain ⟨r', hr', h⟩ := Option.map_eq_some_iff.1 h
  refine Option.bind_eq_some_iff.2 ⟨r, calcOrder_mono hr m hnm, ?_⟩
  exact Option.map_eq_some_iff.2 ⟨r', calcOrder_mono hr' m hnm, h⟩

/-- Both loops come to their end, and a call more than there are classes is enough. -/
theorem checkParents_checked {p : TopLevel} (hp : (p.map ClassDef.name).Nodup) :
    ∃ s, (∀ n, p.length < n → checkParents n p = some s) ∧
      Checked (declareClasses p).1 p s := by
  obtain ⟨herr, hnames, -, -, horder⟩ := declareClasses_eq hp
  have hlen : (declareClasses p).1.names.length < p.length + 1 := by
    rw [hnames, List.length_map]
    exact Nat.lt_succ_self _
  have hneg : ∀ x, ¬ 0 ≤ (declareClasses p).1.order x := fun x => by
    rw [horder x]
    decide
  have hbegin : Checked (declareClasses p).1 [] (declareClasses p) :=
    ⟨⟨fun _ _ h => h, by simp, fun x _ h0 => absurd h0 (hneg x)⟩, rfl, fun _ _ => rfl,
      by simp, by simp, by simp, by simp [herr]⟩
  obtain ⟨s, hs, hc⟩ := @Loop.foldlM_some _ _ (Checked (declareClasses p).1) p _
    (checkParent (p.length + 1)) hbegin fun done cd rest s hl h => by
      have hl' := hp
      rw [hl, List.map_append, List.map_cons, List.nodup_append] at hl'
      refine h.step (fun hm => hl'.2.2 _ hm _ (List.mem_cons_self ..) rfl) ?_ hlen
      rw [hnames, hl]
      simp
  exact ⟨s, fun n hn => Loop.foldlM_mono (fun _ _ _ => checkParent_mono hn) hs, hc⟩

/-! ## Chains -/

section Acyclic

variable {t₀ : ClassTable} {p : TopLevel} {s : ClassTable × List DecafError}
  (h : Checked t₀ p s) (hnames : t₀.names = p.map ClassDef.name)
include h hnames

/-- The orders are a rank. -/
theorem Checked.rank {a b : String} (ha : a ∈ s.1.names) (hab : s.1.Parent a b) :
    b ∈ s.1.names ∧ (s.1.order b).toNat < (s.1.order a).toNat := by
  rw [h.names, hnames] at ha
  obtain ⟨cd, hcd, rfl⟩ := List.mem_map.1 ha
  obtain ⟨hb0, hlt⟩ := h.below cd hcd b hab
  exact ⟨getParent_mem hab, by omega⟩

theorem Checked.chain {c : String} (hc : c ∈ s.1.names) :
    ∃ l, Chain s.1.getParent c l ∧ l.length ≤ p.length := by
  have hrank : ∀ a ∈ {x | x ∈ s.1.names}, ∀ b, s.1.getParent a = some b →
      b ∈ {x | x ∈ s.1.names} ∧ (s.1.order b).toNat < (s.1.order a).toNat :=
    fun a ha b hab => h.rank hnames ha hab
  obtain ⟨l, hl⟩ := exists_chain _ hrank c hc
  refine ⟨l, hl, ?_⟩
  have hsub : l ⊆ s.1.names := fun x hx => (hl.mem_of_mem hrank hc hx).1
  have hle := ((hl.nodup hrank hc).subperm hsub).length_le
  rwa [h.names, hnames, List.length_map] at hle

theorem Checked.above_lt {a b : String} (hab : TransGen s.1.Parent a b) (ha : a ∈ s.1.names) :
    b ∈ s.1.names ∧ (s.1.order b).toNat < (s.1.order a).toNat := by
  induction hab with
  | single hb => exact h.rank hnames ha hb
  | tail _ hb ih =>
    have hlt := h.rank hnames ih.1 hb
    exact ⟨hlt.1, hlt.2.trans ih.2⟩

theorem Checked.acyclic (c : String) : ¬ TransGen s.1.Parent c c := by
  intro hc
  have hm : c ∈ s.1.names := by
    rcases TransGen.tail'_iff.1 hc with ⟨b, -, hb⟩
    exact getParent_mem hb
  exact absurd (h.above_lt hnames hc hm).2 (lt_irrefl _)

/-- A way up the declared parents is still there or goes over a class that has been reported. -/
theorem Checked.above {a b : String} (hab : TransGen t₀.Parent a b) (ha : a ∈ t₀.names) :
    TransGen s.1.Parent a b ∨ ∃ d, ReflTransGen t₀.Parent a d ∧ TransGen t₀.Parent d b ∧
      .badInheritance d ∈ s.2 := by
  have hcut : ∀ x ∈ t₀.names, ∀ q, t₀.Parent x q →
      s.1.Parent x q ∨ .badInheritance x ∈ s.2 := by
    intro x hx q hq
    rw [hnames] at hx
    obtain ⟨cd, hcd, rfl⟩ := List.mem_map.1 hx
    exact h.cut cd hcd q hq
  induction hab with
  | single hb =>
    rcases hcut a ha _ hb with hk | hk
    · exact .inl (.single hk)
    · exact .inr ⟨a, .refl, .single hb, hk⟩
  | tail hac hb ih =>
    rcases ih with ih | ⟨d, had, hdc, hd⟩
    · obtain ⟨x, -, hx⟩ := TransGen.tail'_iff.1 hac
      rcases hcut _ (getParent_mem hx) _ hb with hk | hk
      · exact .inl (ih.tail hk)
      · exact .inr ⟨_, hac.to_reflTransGen, .single hb, hk⟩
    · exact .inr ⟨d, had, hdc.tail hb, hd⟩

end Acyclic

/-- A chain of parents is climbed in as many calls as it has classes. -/
theorem climb_some {σ : Type} {done : σ → String → Bool} {act : σ → String → σ} {l : List String}
    (hl : Chain t.getParent c l) (hn : l.length ≤ n) (s : σ) :
    ∃ s', t.climb done act n s c = some s' := by
  induction hl generalizing n s with
  | root hp =>
    obtain ⟨n, rfl⟩ : ∃ k, n = k + 1 := ⟨n - 1, by simp at hn; omega⟩
    unfold climb
    split_ifs
    · exact ⟨_, rfl⟩
    · rw [hp]
      exact ⟨_, rfl⟩
  | step hp _ ih =>
    obtain ⟨n, rfl⟩ : ∃ k, n = k + 1 := ⟨n - 1, by simp at hn; omega⟩
    unfold climb
    split_ifs
    · exact ⟨_, rfl⟩
    · obtain ⟨s', hs'⟩ := ih (by simpa using hn) s
      rw [hp]
      simp only [hs', Option.map_some]
      exact ⟨_, rfl⟩

theorem createType_some {l : List String} (hl : Chain t.getParent c l) (hn : l.length ≤ n)
    (types : Types) : ∃ types', t.createType n types c = some types' := by
  unfold createType
  rcases hl.cases_eq with ⟨hp, -⟩ | ⟨b, l', hp, rfl, hb⟩
  · rw [hp]
    exact ⟨_, rfl⟩
  · rw [List.length_cons] at hn
    obtain ⟨s, hs⟩ : ∃ s, t.getType n types b = some s := climb_some hb (by omega) types
    rw [hp]
    simp only [hs, Option.map_some]
    exact ⟨_, rfl⟩

/-- The parent relation of the declarations. -/
def Declared (p : TopLevel) (a b : String) : Prop :=
  ∃ cd ∈ p, cd.name = a ∧ cd.parent = some b ∧ b ∈ p.map ClassDef.name

theorem parent_iff_declared {p : TopLevel} (hp : (p.map ClassDef.name).Nodup) {a b : String} :
    (declareClasses p).1.Parent a b ↔ Declared p a b := by
  obtain ⟨-, hnames, hparent, hnone, -⟩ := declareClasses_eq hp
  unfold Parent getParent lookupClass Declared
  rw [hnames]
  constructor
  · intro h
    obtain ⟨x, hx, hb⟩ := Option.bind_eq_some_iff.1 h
    split_ifs at hb with hm
    cases hb
    have ha : a ∈ p.map ClassDef.name := by
      by_contra hn
      rw [hnone a hn] at hx
      cases hx
    obtain ⟨cd, hcd, rfl⟩ := List.mem_map.1 ha
    exact ⟨cd, hcd, rfl, (hparent cd hcd).symm.trans hx, hm⟩
  · rintro ⟨cd, hcd, rfl, hb, hm⟩
    rw [hparent cd hcd, hb, Option.bind_some, if_pos hm]

/-- For classes with distinct names, both loops end. Each cycle of the declared parents has a class
that is reported, none is where there are no cycles, and the parents that are left have no cycles,
so that the recursions over parents end too. -/
theorem checkParents_acyclic {p : TopLevel} (hp : (p.map ClassDef.name).Nodup) :
    ∃ t errors, (∀ n, p.length < n → checkParents n p = some (t, errors)) ∧
      (∀ c, TransGen (Declared p) c c → ∃ d, ReflTransGen (Declared p) c d ∧
        TransGen (Declared p) d c ∧ .badInheritance d ∈ errors) ∧
      ((∀ c, ¬ TransGen (Declared p) c c) → ∀ c, .badInheritance c ∉ errors) ∧
      (∀ c, ¬ TransGen t.Parent c c) ∧
      ∀ cd ∈ p, ∀ n, p.length ≤ n →
        (∀ types, ∃ types', t.createType n types cd.name = some types') ∧
        ∀ {σ : Type} (act : σ → String → σ),
          (∀ s, ∃ s', t.checkOverride act n s cd.name = some s') ∧
          (∀ s, ∃ s', t.resolveFieldOrder act n s cd.name = some s') ∧
          ∀ s, ∃ s', t.fillVTableEntries act n s cd.name = some s' := by
  obtain ⟨s, hs, h⟩ := checkParents_checked hp
  have hnames := (declareClasses_eq hp).2.1
  have hD : (declareClasses p).1.Parent = Declared p := by
    funext a b
    exact propext (parent_iff_declared hp)
  refine ⟨s.1, s.2, hs, fun c hc => ?_, fun hno c hc => ?_, h.acyclic hnames,
    fun cd hcd n hn => ?_⟩
  · rw [← hD] at hc ⊢
    obtain ⟨x, -, hx⟩ := TransGen.tail'_iff.1 hc
    exact (h.above hnames hc (getParent_mem hx)).resolve_left (h.acyclic hnames c)
  · have := h.errors c hc
    rw [hD] at this
    exact hno c this
  · have hmem : cd.name ∈ s.1.names := by
      rw [h.names, hnames]
      exact List.mem_map_of_mem hcd
    obtain ⟨l, hl, hlen⟩ := h.chain hnames hmem
    have hln := hlen.trans hn
    exact ⟨createType_some hl hln, fun act =>
      ⟨climb_some hl hln, climb_some hl hln, climb_some hl hln⟩⟩

theorem checkParents_acyclic_three :
    let p : TopLevel := [⟨"A", some "B", []⟩, ⟨"B", some "C", []⟩, ⟨"C", some "A", []⟩]
    ∃ t errors, (∀ n, 3 < n → checkParents n p = some (t, errors)) ∧
      (∃ d, .badInheritance d ∈ errors) ∧ ∀ c, ¬ TransGen t.Parent c c := by
  intro p
  have hab : Declared p "A" "B" := ⟨⟨"A", some "B", []⟩, by simp [p], rfl, rfl, by simp [p]⟩
  have hbc : Declared p "B" "C" := ⟨⟨"B", some "C", []⟩, by simp [p], rfl, rfl, by simp [p]⟩
  have hca : Declared p "C" "A" := ⟨⟨"C", some "A", []⟩, by simp [p], rfl, rfl, by simp [p]⟩
  obtain ⟨t, errors, hn, hcycle, -, hno, -⟩ := @checkParents_acyclic p (by decide)
  obtain ⟨d, -, -, hd⟩ := hcycle "A" (((TransGen.single hab).tail hbc).tail hca)
  exact ⟨t, errors, hn, ⟨d, hd⟩, hno⟩

/-! ## The pass cut at its first error -/

section Cut

variable {p : TopLevel} {order : String → ℤ} {cd : ClassDef} {s s' : ClassTable × List DecafError}

theorem declareClass_errors (s : ClassTable × List DecafError) (cd : ClassDef) :
    s.2 <+: (declareClass s cd).2 := by
  obtain ⟨t, errors⟩ := s
  unfold declareClass
  dsimp only
  split_ifs
  · exact List.prefix_append _ _
  · exact List.prefix_rfl

/-- Both first loops refuse a name that is there already. -/
theorem declareClasses_ok_iff {earlier : List String} {t : ClassTable} {errors : List DecafError}
    (h : ∀ x, x ∈ earlier ↔ x ∈ t.names) :
    BuildSym.declareClasses earlier p = .ok () ↔
      (p.foldl declareClass (t, errors)).2 = errors := by
  induction p generalizing earlier t errors with
  | nil => simp [BuildSym.declareClasses, pure, Except.pure]
  | cons cd p ih =>
    rw [List.foldl_cons]
    by_cases hc : cd.name ∈ earlier
    · have hlook : (t.lookupClass cd.name).isSome = true := by
        rw [lookupClass, if_pos ((h _).1 hc)]
        rfl
      have hturn : declareClass (t, errors) cd = (t, errors ++ [.declConflict cd.name]) := by
        simp only [declareClass, hlook, if_true]
      rw [BuildSym.declareClasses, if_pos hc, hturn]
      refine ⟨fun hok => ?_, fun he => ?_⟩
      · cases hok
      have hgrow : errors ++ [.declConflict cd.name] <+:
          (p.foldl declareClass (t, errors ++ [.declConflict cd.name])).2 := by
        refine Loop.foldl_inv (P := fun _ s => errors ++ [.declConflict cd.name] <+: s.2) ?_
          fun _ x _ s _ hs => hs.trans (declareClass_errors s x)
        exact List.prefix_rfl
      rw [he] at hgrow
      have hlen := hgrow.length_le
      rw [List.length_append, List.length_singleton] at hlen
      omega
    · have hlook : (t.lookupClass cd.name).isSome = false := by
        rw [lookupClass, if_neg (mt (h _).2 hc)]
        rfl
      rw [BuildSym.declareClasses, if_neg hc, declareClass]
      simp only [hlook, Bool.false_eq_true, if_false]
      refine ih fun x => ?_
      rw [List.mem_cons, List.mem_append, List.mem_singleton, h x, or_comm]

/-- The table has the parents of the program. -/
def Shows (p : TopLevel) (t : ClassTable) : Prop :=
  ∀ c ∈ p, t.getParent c.name = (Decaf.getParent p c).map ClassDef.name

/-- `calcOrder` with an end is the one that has no result without. -/
theorem calcOrder_cut {c : Option ClassDef} {r : ClassTable × ℤ} (ht : Shows p t)
    (hc : ∀ d, c = some d → d ∈ p) (hr : calcOrder n t (c.map ClassDef.name) = some r) :
    BuildSym.calcOrder p n t.order c = (r.1.order, r.2) ∧ Shows p r.1 := by
  induction n generalizing t c r with
  | zero =>
    cases c with
    | none =>
      cases hr
      exact ⟨rfl, ht⟩
    | some c => cases hr
  | succ n ih =>
    cases c with
    | none =>
      cases hr
      exact ⟨rfl, ht⟩
    | some c =>
      rw [Option.map_some, calcOrder] at hr
      rw [BuildSym.calcOrder]
      split_ifs at hr ⊢ with hneg
      · obtain ⟨r', hr', rfl⟩ := Option.map_eq_some_iff.1 hr
        rw [ht c (hc c rfl)] at hr'
        obtain ⟨he, ht'⟩ := ih (t := t.setOrder c.name 0) ht
          (fun d hd => Decaf.getParent_mem hd) hr'
        exact ⟨by simp only [setOrder] at he ⊢; rw [he], ht'⟩
      · cases hr
        exact ⟨rfl, ht⟩

/-- The loop that is cut at its first error has come to its end with the same orders, or it has
been cut and the other one has issued an error. -/
def Agrees (p : TopLevel) (x : Except DecafError (String → ℤ))
    (s : ClassTable × List DecafError) : Prop :=
  (s.2 = [] ∧ Shows p s.1 ∧ x = .ok s.1.order) ∨ s.2 ≠ [] ∧ ∃ e, x = .error e

/-- What a turn of the second loop does. -/
theorem checkParent_cases (h : checkParent n s cd = some s') :
    ∃ s₁ r r', (s₁ = if cd.parent.isSome ∧ s.1.getParent cd.name = none then
        (s.1.dettachParent cd.name, s.2 ++ [.classNotFound (cd.parent.getD "")]) else s) ∧
      calcOrder n s₁.1 (some cd.name) = some r ∧
      calcOrder n r.1 (r.1.getParent cd.name) = some r' ∧
      s' = if r.2 ≤ r'.2 then
          (r'.1.dettachParent cd.name, s₁.2 ++ [.badInheritance cd.name])
        else (r'.1, s₁.2) := by
  obtain ⟨t, errors⟩ := s
  obtain ⟨r, hr, h⟩ := Option.bind_eq_some_iff.1 h
  obtain ⟨r', hr', rfl⟩ := Option.map_eq_some_iff.1 h
  exact ⟨_, r, r', rfl, hr, hr', rfl⟩

theorem checkParent_errors (h : checkParent n s cd = some s') : s.2 <+: s'.2 := by
  obtain ⟨s₁, r, r', rfl, -, -, rfl⟩ := checkParent_cases h
  split_ifs
  · exact (List.prefix_append _ _).trans (List.prefix_append _ _)
  · exact List.prefix_append _ _
  · exact List.prefix_append _ _
  · exact List.prefix_rfl

theorem foldlM_errors {l : TopLevel} (h : l.foldlM (checkParent n) s = some s') :
    s.2 <+: s'.2 := by
  induction l generalizing s with
  | nil =>
    cases h
    exact List.prefix_rfl
  | cons cd l ih =>
    rw [List.foldlM_cons] at h
    obtain ⟨s₁, hturn, h⟩ := Option.bind_eq_some_iff.1 h
    exact (checkParent_errors hturn).trans (ih h)

theorem checkParent_agrees (ht : Shows p t) (hcd : cd ∈ p)
    (hs : checkParent (p.length + 1) (t, []) cd = some s') :
    Agrees p (BuildSym.checkInheritance p t.order cd) s' := by
  have hget : t.getParent cd.name = none ↔ Decaf.getParent p cd = none := by
    rw [ht cd hcd, Option.map_eq_none_iff]
  obtain ⟨s₁, r, r', hs₁, hr, hr', rfl⟩ := checkParent_cases hs
  simp only [hget] at hs₁
  unfold BuildSym.checkInheritance
  by_cases hf : cd.parent.isSome ∧ Decaf.getParent p cd = none
  · -- the declared parent is not there
    rw [if_pos hf] at hs₁ ⊢
    subst hs₁
    refine .inr ⟨?_, _, rfl⟩
    split_ifs <;> simp
  · rw [if_neg hf] at hs₁ ⊢
    subst hs₁
    obtain ⟨hcut, ht₁⟩ := calcOrder_cut (c := some cd) ht (fun d hd => Option.some.inj hd ▸ hcd) hr
    rw [ht₁ cd hcd] at hr'
    obtain ⟨hcut', ht₂⟩ := calcOrder_cut ht₁ (fun d hd => Decaf.getParent_mem hd) hr'
    simp only [hcut, hcut']
    split_ifs
    · exact .inr ⟨by simp, _, rfl⟩
    · exact .inl ⟨rfl, ht₂, rfl⟩

theorem foldlM_agrees {l : TopLevel} (ht : Shows p t) (hl : l ⊆ p)
    (hs : l.foldlM (checkParent (p.length + 1)) (t, []) = some s') :
    Agrees p (l.foldlM (BuildSym.checkInheritance p) t.order) s' := by
  induction l generalizing t with
  | nil =>
    cases hs
    exact .inl ⟨rfl, ht, rfl⟩
  | cons cd l ih =>
    rw [List.foldlM_cons] at hs ⊢
    obtain ⟨⟨t₁, errors⟩, hturn, hs⟩ := Option.bind_eq_some_iff.1 hs
    rw [List.cons_subset] at hl
    rcases checkParent_agrees ht hl.1 hturn with ⟨he, ht₁, hx⟩ | ⟨he, e, hx⟩
    · obtain rfl : errors = [] := he
      rw [hx]
      exact ih ht₁ hl.2 hs
    · rw [hx]
      exact .inr ⟨fun hnil => he (List.prefix_nil.1 (hnil ▸ foldlM_errors hs)), e, rfl⟩

theorem shows_declareClasses (hp : (p.map ClassDef.name).Nodup) : Shows p (declareClasses p).1 := by
  obtain ⟨-, hnames, hparent, -, -⟩ := declareClasses_eq hp
  intro c hc
  rw [getParent, hparent c hc, Decaf.getParent]
  cases c.parent with
  | none => rfl
  | some x =>
    rw [Option.bind_some, Option.bind_some, lookupClass, hnames]
    cases hd : Decaf.lookupClass p x with
    | none =>
      rw [if_neg, Option.map_none]
      intro hx
      obtain ⟨d, hdp, hdx⟩ := List.mem_map.1 hx
      exact absurd hdx (by simpa using List.find?_eq_none.1 hd d hdp)
    | some d =>
      obtain ⟨hdp, rfl⟩ := lookupClass_mem hd
      rw [if_pos (List.mem_map_of_mem hdp), Option.map_some]

/-- The loops that are cut at the first error come to their end exactly if those that issue all
errors issue none, and then the orders are the same. -/
theorem checkInheritance_iff :
    BuildSym.declareClasses [] p = .ok () ∧
        p.foldlM (BuildSym.checkInheritance p) (fun _ => -1) = .ok order ↔
      ∃ t, checkParents (p.length + 1) p = some (t, []) ∧ t.order = order := by
  have hdecl : BuildSym.declareClasses [] p = .ok () ↔ (declareClasses p).2 = [] :=
    declareClasses_ok_iff fun _ => Iff.rfl
  rw [hdecl]
  by_cases he : (declareClasses p).2 = []
  · have hp := (declareClasses_ok (hdecl.2 he)).1
    obtain ⟨-, -, -, -, horder⟩ := declareClasses_eq hp
    obtain ⟨⟨t, errors⟩, hs, -⟩ := checkParents_checked hp
    have hs := hs (p.length + 1) (Nat.lt_succ_self _)
    have hagrees : Agrees p _ (t, errors) :=
      foldlM_agrees (shows_declareClasses hp) (List.Subset.refl p) (by rw [← he]; exact hs)
    rw [funext horder] at hagrees
    rw [hs]
    rcases hagrees with ⟨he', -, hx⟩ | ⟨he', e, hx⟩
    · obtain rfl : errors = [] := he'
      simp [he, hx]
    · have hne : errors ≠ [] := he'
      simp [hx, hne]
  · refine ⟨fun h => absurd h.1 he, ?_⟩
    rintro ⟨t, hs, -⟩
    exact absurd (List.prefix_nil.1 (foldlM_errors hs)) he

end Cut

end ClassTable

end Decaf

end CacheCPU
