import CacheCPU.Decaf.Symbol
import CacheCPU.Lib.Forest
import CacheCPU.Lib.Loop
import Mathlib.Data.List.Perm.Subperm

/-!
# What an accepted program looks like

`calcOrder` never changes an order that it has set, so the comparisons `BuildSym` makes one after
the other are all about the same orders, and the orders are a rank that goes down to every parent.
Chains of parents are therefore finite and have no class twice.
-/

namespace CacheCPU

namespace Decaf

open Forest

def Member.IsMethod : Member → Prop
  | .methodDef _ false _ _ => True
  | _ => False

/-- What the passes after `BuildSym` rely on. -/
structure Accepted (p : TopLevel) : Prop where
  names : (p.map ClassDef.name).Nodup
  parents : ∀ c ∈ p, c.parent.isSome → (getParent p c).isSome
  rank : ∃ rank : ClassDef → ℕ,
    ∀ c ∈ {c | c ∈ p}, ∀ q, getParent p c = some q → q ∈ {c | c ∈ p} ∧ rank q < rank c
  members : ∀ c ∈ p, (c.fields.map Member.name).Nodup
  overrides : ∀ c ∈ p, ∀ q, getParent p c = some q → ∀ m ∈ c.fields, ∀ o m',
    lookupVisible p q m.name = some (o, m') → m.IsMethod ∧ m'.IsMethod
  main : ∀ c ∈ p, c.name = mainClassName → ∀ m ∈ c.fields, m.name = mainFuncName → ¬ m.IsMethod

theorem lookupClass_mem {p : TopLevel} {name : String} {c : ClassDef}
    (h : lookupClass p name = some c) : c ∈ p ∧ c.name = name := by
  unfold lookupClass at h
  exact ⟨List.mem_of_find?_eq_some h, by simpa using List.find?_some h⟩

theorem find?_key_iff {α κ : Type} [DecidableEq κ] {key : α → κ} {l : List α}
    (hl : (l.map key).Nodup) {k : κ} {a : α} :
    l.find? (fun x => key x = k) = some a ↔ a ∈ l ∧ key a = k := by
  constructor
  · intro h
    exact ⟨List.mem_of_find?_eq_some h, by simpa using List.find?_some h⟩
  · rintro ⟨ha, rfl⟩
    obtain ⟨b, hb⟩ := Option.isSome_iff_exists.1
      (List.find?_isSome.2 ⟨a, ha, by simp⟩ : (l.find? fun x => key x = key a).isSome)
    have hba : b = a := List.inj_on_of_nodup_map hl (List.mem_of_find?_eq_some hb) ha
      (by simpa using List.find?_some hb)
    rw [hb, hba]

theorem getParent_mem {p : TopLevel} {c q : ClassDef} (h : getParent p c = some q) : q ∈ p := by
  unfold getParent at h
  obtain ⟨name, -, hq⟩ := Option.bind_eq_some_iff.1 h
  exact (lookupClass_mem hq).1

/-! ## Class names -/

theorem declareClasses_ok {earlier : List String} {p : TopLevel}
    (h : BuildSym.declareClasses earlier p = .ok ()) :
    (p.map ClassDef.name).Nodup ∧ ∀ c ∈ p, c.name ∉ earlier := by
  induction p generalizing earlier with
  | nil => simp
  | cons c p ih =>
    simp only [BuildSym.declareClasses] at h
    split_ifs at h with hc
    obtain ⟨hn, hd⟩ := ih h
    simp only [List.mem_cons, not_or] at hd
    constructor
    · rw [List.map_cons, List.nodup_cons]
      refine ⟨fun hm => ?_, hn⟩
      obtain ⟨d, hdp, hdn⟩ := List.mem_map.1 hm
      exact (hd d hdp).1 hdn
    · exact List.forall_mem_cons.2 ⟨hc, fun d hdp => (hd d hdp).2⟩

/-! ## Orders -/

/-- What a call of `calcOrder` does to the orders. -/
structure Ordered (order : String → ℤ) (c : Option ClassDef) (r : (String → ℤ) × ℤ) :
    Prop where
  keeps : ∀ x, 0 ≤ order x → r.1 x = order x
  value : ∀ d, c = some d → r.2 = r.1 d.name
  low : -1 ≤ r.2 ∧ ∀ x, -1 ≤ r.1 x

theorem calcOrder_ordered (p : TopLevel) : ∀ (n : ℕ) (order : String → ℤ)
    (c : Option ClassDef), (∀ x, -1 ≤ order x) →
    Ordered order c (BuildSym.calcOrder p n order c)
  | n, order, none, hlow => by
    cases n <;> exact ⟨fun _ _ => rfl, by simp, by simp [BuildSym.calcOrder], hlow⟩
  | 0, order, some c, hlow =>
    ⟨fun _ _ => rfl, by simp [BuildSym.calcOrder], hlow c.name, hlow⟩
  | n + 1, order, some c, hlow => by
    simp only [BuildSym.calcOrder]
    split_ifs with hneg
    · have hlow' : ∀ x, -1 ≤ Function.update order c.name 0 x := by
        intro x
        by_cases hx : x = c.name
        · simp [hx]
        · simpa [hx] using hlow x
      have ih := calcOrder_ordered p n (Function.update order c.name 0) (getParent p c) hlow'
      have hval := ih.low.1
      refine ⟨fun x hx => ?_, by simp, by simp only []; omega, fun x => ?_⟩
      · have hne : x ≠ c.name := by rintro rfl; omega
        have := ih.keeps x (by simpa [hne] using hx)
        simpa [hne] using this
      · by_cases hx : x = c.name
        · simp only [hx, Function.update_self]
          omega
        · simpa [hx] using ih.low.2 x
    · exact ⟨fun _ _ => rfl, by simp, hlow c.name, hlow⟩

theorem calcOrder_nonneg (p : TopLevel) (n : ℕ) (order : String → ℤ) (c : ClassDef)
    (hlow : ∀ x, -1 ≤ order x) : 0 ≤ (BuildSym.calcOrder p (n + 1) order (some c)).2 := by
  simp only [BuildSym.calcOrder]
  split_ifs with hneg
  · have hlow' : ∀ x, -1 ≤ Function.update order c.name 0 x := by
      intro x
      by_cases hx : x = c.name
      · simp [hx]
      · simpa [hx] using hlow x
    have := (calcOrder_ordered p n (Function.update order c.name 0) (getParent p c) hlow').low.1
    simp only []
    omega
  · exact Int.not_lt.1 hneg

/-- The orders after the second loop of `visitTopLevel` has gone through `done`. -/
structure Ranked (p : TopLevel) (done : List ClassDef) (order : String → ℤ) : Prop where
  low : ∀ x, -1 ≤ order x
  found : ∀ c ∈ done, c.parent.isSome → (getParent p c).isSome
  below : ∀ c ∈ done, ∀ q, getParent p c = some q →
    0 ≤ order q.name ∧ order q.name < order c.name
  set : ∀ c ∈ done, 0 ≤ order c.name

theorem Ranked.mono {p : TopLevel} {done : List ClassDef} {order order' : String → ℤ}
    (h : Ranked p done order) (hlow : ∀ x, -1 ≤ order' x)
    (hkeep : ∀ x, 0 ≤ order x → order' x = order x) : Ranked p done order' where
  low := hlow
  found := h.found
  below c hc q hq := by
    have := h.below c hc q hq
    rw [hkeep _ this.1, hkeep _ (h.set c hc)]
    exact this
  set c hc := by
    have := h.set c hc
    rwa [hkeep _ this]

theorem Ranked.step {p : TopLevel} {done : List ClassDef} {order order' : String → ℤ}
    {c : ClassDef} (h : Ranked p done order)
    (hc : BuildSym.checkInheritance p order c = .ok order') : Ranked p (done ++ [c]) order' := by
  unfold BuildSym.checkInheritance at hc
  split_ifs at hc with hf
  simp only [] at hc
  split_ifs at hc with hle
  cases hc
  have h1 := calcOrder_ordered p (p.length + 1) order (some c) h.low
  have h2 := calcOrder_ordered p (p.length + 1) (BuildSym.calcOrder p (p.length + 1) order
    (some c)).1 (getParent p c) h1.low.2
  have hset := calcOrder_nonneg p p.length order c h.low
  have hval := h1.value c rfl
  rw [hval] at hset hle
  have hkeep := h2.keeps c.name hset
  have hm := h.mono h2.low.2 fun x hx => by
    rw [h2.keeps x (by rwa [h1.keeps x hx]), h1.keeps x hx]
  refine ⟨hm.low, ?_, ?_, ?_⟩
  · intro d hd hp
    rcases List.mem_append.1 hd with hd | hd
    · exact hm.found d hd hp
    · rw [List.mem_singleton] at hd
      subst hd
      exact Option.isSome_iff_ne_none.2 fun hn => hf ⟨hp, hn⟩
  · intro d hd q hq
    rcases List.mem_append.1 hd with hd | hd
    · exact hm.below d hd q hq
    · rw [List.mem_singleton] at hd
      subst hd
      have hq0 := calcOrder_nonneg p p.length (BuildSym.calcOrder p (p.length + 1) order
        (some d)).1 q h1.low.2
      rw [← hq] at hq0
      have hv := h2.value q hq
      rw [hv] at hq0 hle
      rw [hkeep]
      exact ⟨hq0, Int.not_le.1 hle⟩
  · intro d hd
    rcases List.mem_append.1 hd with hd | hd
    · exact hm.set d hd
    · rw [List.mem_singleton] at hd
      subst hd
      rw [hkeep]
      exact hset

/-! ## Members and overrides -/

theorem visitVarDef_ok {p : TopLevel} {declared declared' : List String} {v : String × Ty}
    (h : BuildSym.visitVarDef p declared v = .ok declared') :
    v.1 ∉ declared ∧ declared' = v.1 :: declared := by
  unfold BuildSym.visitVarDef at h
  obtain ⟨_, -, h⟩ := Loop.bind_eq_ok.1 h
  by_cases h1 : v.2 = .void
  · rw [if_pos h1] at h
    cases h
  · simp only [if_neg h1] at h
    by_cases h2 : v.1 ∈ declared
    · rw [if_pos h2] at h
      cases h
    · rw [if_neg h2] at h
      cases h
      exact ⟨h2, rfl⟩

theorem visitField_ok {p : TopLevel} {declared declared' : List String} {m : Member}
    (h : BuildSym.visitField p declared m = .ok declared') :
    m.name ∉ declared ∧ declared' = m.name :: declared := by
  cases m with
  | varDef x t => exact visitVarDef_ok h
  | methodDef f statik r formals =>
    simp only [BuildSym.visitField] at h
    obtain ⟨_, -, h⟩ := Loop.bind_eq_ok.1 h
    split_ifs at h with hf
    · cases h
    · obtain ⟨_, -, h⟩ := Loop.bind_eq_ok.1 h
      cases h
      exact ⟨hf, rfl⟩

theorem visitClassDef_ok {p : TopLevel} {c : ClassDef} (h : BuildSym.visitClassDef p c = .ok ()) :
    (c.fields.map Member.name).Nodup := by
  unfold BuildSym.visitClassDef at h
  obtain ⟨declared, hf, -⟩ := Loop.bind_eq_ok.1 h
  have hP := @Loop.foldlM_ok _ _ _
    (fun done declared => declared = (done.map Member.name).reverse ∧ declared.Nodup)
    _ _ _ _ hf ⟨rfl, List.nodup_nil⟩ ?_
  · rw [← List.nodup_reverse, ← hP.1]
    exact hP.2
  · rintro done m rest declared declared' - ⟨rfl, hn⟩ hm
    obtain ⟨hnot, rfl⟩ := visitField_ok hm
    exact ⟨by simp, List.nodup_cons.2 ⟨hnot, hn⟩⟩

theorem checkSymbol_ok {p : TopLevel} {parent owner : ClassDef} {m m' : Member}
    (h : BuildSym.checkSymbol p parent m = .ok ())
    (hv : lookupVisible p parent m.name = some (owner, m')) : m.IsMethod ∧ m'.IsMethod := by
  simp only [BuildSym.checkSymbol, hv] at h
  split at h
  · cases h
  · cases h
  · split_ifs at h with hs hc
    simp only [not_or, Bool.not_eq_true] at hs
    rw [hs.1, hs.2]
    exact ⟨trivial, trivial⟩
  · cases h

/-- The classes in `check` have been compared with their parents. -/
def Checked (p : TopLevel) (check : List String) : Prop :=
  ∀ c ∈ p, c.name ∈ check → ∀ q, getParent p c = some q →
    ∀ m ∈ c.fields, BuildSym.checkSymbol p q m = .ok ()

theorem checkOverride_ok {p : TopLevel} (hp : (p.map ClassDef.name).Nodup) :
    ∀ {n : ℕ} {check check' : List String} {c : ClassDef}, c ∈ p → Checked p check →
      BuildSym.checkOverride p n check c = .ok check' →
      Checked p check' ∧ check ⊆ check' ∧ (0 < n → ∀ q, getParent p c = some q → c.name ∈ check')
  | 0, check, check', c, _, hch, h => by
    cases h
    exact ⟨hch, List.Subset.refl _, fun h => absurd h (Nat.lt_irrefl 0)⟩
  | n + 1, check, check', c, hc, hch, h => by
    simp only [BuildSym.checkOverride] at h
    split_ifs at h with hin
    · cases h
      exact ⟨hch, List.Subset.refl _, fun _ _ _ => hin⟩
    · split at h
      · cases h
        exact ⟨hch, List.Subset.refl _, fun _ q hq => by simp_all⟩
      · rename_i parent hparent
        obtain ⟨check1, h1, h⟩ := Loop.bind_eq_ok.1 h
        obtain ⟨_, h2, h⟩ := Loop.bind_eq_ok.1 h
        cases h
        obtain ⟨hch1, hsub, -⟩ := checkOverride_ok hp (getParent_mem hparent) hch h1
        refine ⟨fun d hd hdn q hq m hm => ?_, ?_, fun _ _ _ => by simp⟩
        · rcases List.mem_cons.1 hdn with hdn | hdn
          · have hdc : d = c := List.inj_on_of_nodup_map hp hd hc hdn
            subst hdc
            rw [hparent] at hq
            cases hq
            exact Loop.forM_ok h2 m hm
          · exact hch1 d hd hdn q hq m hm
        · exact fun x hx => List.mem_cons_of_mem _ (hsub hx)

/-- The last loop of `BuildSym`: every class that has a parent has been compared with it. -/
theorem checkOverride_all {p : TopLevel} {check : List String} (hp : (p.map ClassDef.name).Nodup)
    (h : p.foldlM (BuildSym.checkOverride p p.length) [] = .ok check) :
    ∀ c ∈ p, ∀ q, getParent p c = some q →
      ∀ m ∈ c.fields, BuildSym.checkSymbol p q m = .ok () := by
  have hP := @Loop.foldlM_ok _ _ _ (fun done check => Checked p check ∧
    ∀ c ∈ done, ∀ q, getParent p c = some q → c.name ∈ check) _ _ _ _ h
    ⟨by simp [Checked], by simp⟩ ?_
  · exact fun c hc q hq => hP.1 c hc (hP.2 c hc q hq) q hq
  · rintro done c rest check check' hl ⟨hch, hdone⟩ hc
    have hcp : c ∈ p := by rw [hl]; simp
    obtain ⟨hch', hsub, hin⟩ := checkOverride_ok hp hcp hch hc
    refine ⟨hch', fun d hd q hq => ?_⟩
    rcases List.mem_append.1 hd with hd | hd
    · exact hsub (hdone d hd q hq)
    · rw [List.mem_singleton] at hd
      subst hd
      exact hin (List.length_pos_of_mem hcp) q hq

theorem isMainClass_static {p : TopLevel} (hp : (p.map ClassDef.name).Nodup)
    (hmem : ∀ c ∈ p, (c.fields.map Member.name).Nodup) (h : BuildSym.isMainClass p = true) :
    ∀ c ∈ p, c.name = mainClassName → ∀ m ∈ c.fields, m.name = mainFuncName → ¬ m.IsMethod := by
  intro c hc hcn m hm hmn hmeth
  have h1 : lookupClass p mainClassName = some c := (find?_key_iff hp).2 ⟨hc, hcn⟩
  have h2 : c.lookup mainFuncName = some m := (find?_key_iff (hmem c hc)).2 ⟨hm, hmn⟩
  unfold BuildSym.isMainClass at h
  rw [h1, Option.bind_some, h2] at h
  cases m with
  | varDef x t => simp at h
  | methodDef f statik r formals =>
    cases statik with
    | false => simp at h
    | true => exact hmeth

theorem visitTopLevel_accepted {p : TopLevel} (h : BuildSym.visitTopLevel p = .ok ()) :
    Accepted p := by
  unfold BuildSym.visitTopLevel at h
  obtain ⟨_, h1, h⟩ := Loop.bind_eq_ok.1 h
  obtain ⟨order, h2, h⟩ := Loop.bind_eq_ok.1 h
  obtain ⟨_, h3, h⟩ := Loop.bind_eq_ok.1 h
  obtain ⟨check, h4, h⟩ := Loop.bind_eq_ok.1 h
  have hnames := (declareClasses_ok h1).1
  have hranked : Ranked p p order :=
    Loop.foldlM_ok h2 ⟨by simp, by simp, by simp, by simp⟩ fun _ _ _ _ _ _ hs hc => hs.step hc
  have hmembers : ∀ c ∈ p, (c.fields.map Member.name).Nodup :=
    fun c hc => visitClassDef_ok (Loop.forM_ok h3 c hc)
  refine ⟨hnames, hranked.found, ⟨fun c => (order c.name).toNat, fun c hc q hq => ?_⟩, hmembers,
    fun c hc q hq m hm o m' hv => checkSymbol_ok (checkOverride_all hnames h4 c hc q hq m hm) hv, ?_⟩
  · have := hranked.below c hc q hq
    exact ⟨getParent_mem hq, by simp only []; omega⟩
  · apply isMainClass_static hnames hmembers
    by_contra hmain
    rw [if_pos (by simpa using hmain)] at h
    cases h

/-! ## Chains of classes -/

namespace Accepted

variable {p : TopLevel} (hp : Accepted p) {c : ClassDef} {l : List ClassDef}
include hp

theorem exists_chain (hc : c ∈ p) : ∃ l, Chain (getParent p) c l := by
  obtain ⟨rank, hrank⟩ := hp.rank
  exact Forest.exists_chain rank hrank c hc

theorem chain_subset (h : Chain (getParent p) c l) (hc : c ∈ p) : l ⊆ p := by
  obtain ⟨rank, hrank⟩ := hp.rank
  exact fun d hd => (h.mem_of_mem hrank hc hd).1

theorem chain_nodup (h : Chain (getParent p) c l) (hc : c ∈ p) : l.Nodup := by
  obtain ⟨rank, hrank⟩ := hp.rank
  exact h.nodup hrank hc

theorem chain_length (h : Chain (getParent p) c l) (hc : c ∈ p) : l.length ≤ p.length :=
  (List.subperm_of_subset (hp.chain_nodup h hc) (hp.chain_subset h hc)).length_le

theorem eq_of_name {d : ClassDef} (hc : c ∈ p) (hd : d ∈ p) (h : c.name = d.name) : c = d :=
  List.inj_on_of_nodup_map hp.names hc hd h

theorem lookup_iff (hc : c ∈ p) {x : String} {m : Member} :
    c.lookup x = some m ↔ m ∈ c.fields ∧ m.name = x :=
  find?_key_iff (hp.members c hc)

end Accepted

theorem scopes_eq {p : TopLevel} {c : ClassDef} {l : List ClassDef}
    (h : Chain (getParent p) c l) : ∀ {n : ℕ}, l.length ≤ n → scopes p n c = l := by
  induction h with
  | root hc =>
    intro n hn
    obtain ⟨n, rfl⟩ := Nat.exists_eq_add_of_le' hn
    simp [scopes, hc]
  | step hc _ ih =>
    intro n hn
    obtain ⟨n, rfl⟩ := Nat.exists_eq_add_of_le' (Nat.le_trans (by simp) hn : 1 ≤ n)
    simp only [scopes, hc]
    rw [ih (by simpa using hn)]

/-- The first class of a chain that declares `x`. -/
def visible (l : List ClassDef) (x : String) : Option (ClassDef × Member) :=
  l.findSome? fun c => (c.lookup x).map (c, ·)

theorem visible_cons (c : ClassDef) (l : List ClassDef) (x : String) :
    visible (c :: l) x = match c.lookup x with
      | some m => some (c, m)
      | none => visible l x := by
  unfold visible
  rw [List.findSome?_cons]
  cases c.lookup x <;> rfl

theorem visible_mem {l : List ClassDef} {x : String} {c : ClassDef} {m : Member}
    (h : visible l x = some (c, m)) : c ∈ l ∧ c.lookup x = some m := by
  induction l with
  | nil => simp [visible] at h
  | cons d l ih =>
    rw [visible_cons] at h
    cases hd : d.lookup x with
    | some m' =>
      rw [hd] at h
      cases h
      exact ⟨List.mem_cons_self, hd⟩
    | none =>
      rw [hd] at h
      exact ⟨List.mem_cons_of_mem _ (ih h).1, (ih h).2⟩

theorem Accepted.lookupVisible_eq {p : TopLevel} (hp : Accepted p) {c : ClassDef}
    {l : List ClassDef} (h : Chain (getParent p) c l) (hc : c ∈ p) (x : String) :
    lookupVisible p c x = visible l x := by
  unfold lookupVisible
  rw [scopes_eq h (hp.chain_length h hc)]
  rfl

end Decaf

end CacheCPU
