import CacheCPU.Decaf.Translate
import CacheCPU.Proofs.Inherit

/-!
# Object layout

The fields of an object and the methods of a class are numbered along the chain of its classes, the
root first, and a class only adds to what its parent has. So an index in a table is an index in the
table of every subclass. `resolveFieldOrder` counts just so, in whatever order the classes come, since
it numbers a parent before it numbers a class and numbers no class twice.
-/

namespace CacheCPU

namespace Decaf

open Forest

/-! ## The tables -/

/-- The methods of a class that are not static. -/
def methods (c : ClassDef) : List String :=
  c.fields.filterMap fun
    | .methodDef f false _ _ => some f
    | _ => none

/-- The fields of an object, by class and name. -/
def fieldTable : List ClassDef → List (String × String)
  | [] => []
  | c :: l => fieldTable l ++ (TransPass1.vars c).map (c.name, ·)

/-- The methods of a class and its ancestors. An override adds none. -/
def funcTable : List ClassDef → List String
  | [] => []
  | c :: l => funcTable l ++ (methods c).filter (· ∉ funcTable l)

theorem mem_vars {c : ClassDef} {x : String} :
    x ∈ TransPass1.vars c ↔ ∃ m ∈ c.fields, m.name = x ∧ ∃ t, m = .varDef x t := by
  unfold TransPass1.vars
  rw [List.mem_filterMap]
  constructor
  · rintro ⟨m, hm, h⟩
    cases m with
    | varDef y t =>
      cases h
      exact ⟨_, hm, rfl, t, rfl⟩
    | methodDef f s r a => simp at h
  · rintro ⟨m, hm, -, t, rfl⟩
    exact ⟨_, hm, rfl⟩

theorem mem_methods {c : ClassDef} {f : String} :
    f ∈ methods c ↔ ∃ m ∈ c.fields, m.name = f ∧ m.IsMethod := by
  unfold methods
  rw [List.mem_filterMap]
  constructor
  · rintro ⟨m, hm, h⟩
    match m, h with
    | .methodDef g false r a, h =>
      cases h
      exact ⟨_, hm, rfl, trivial⟩
  · rintro ⟨m, hm, rfl, h⟩
    match m, h with
    | .methodDef g false r a, _ => exact ⟨_, hm, rfl⟩

theorem mem_fieldTable {l : List ClassDef} {a x : String} :
    (a, x) ∈ fieldTable l ↔ ∃ c ∈ l, c.name = a ∧ x ∈ TransPass1.vars c := by
  induction l with
  | nil => simp [fieldTable]
  | cons c l ih =>
    rw [fieldTable, List.mem_append, ih]
    simp only [List.mem_map, Prod.mk.injEq, List.mem_cons]
    constructor
    · rintro (⟨d, hd, h⟩ | ⟨y, hy, rfl, rfl⟩)
      · exact ⟨d, .inr hd, h⟩
      · exact ⟨c, .inl rfl, rfl, hy⟩
    · rintro ⟨d, rfl | hd, h⟩
      · exact .inr ⟨x, h.2, h.1, rfl⟩
      · exact .inl ⟨d, hd, h⟩

theorem mem_funcTable {l : List ClassDef} {f : String} :
    f ∈ funcTable l ↔ ∃ c ∈ l, f ∈ methods c := by
  induction l with
  | nil => simp [funcTable]
  | cons c l ih =>
    rw [funcTable, List.mem_append, List.mem_filter]
    by_cases hf : f ∈ funcTable l
    · have := ih.1 hf
      simp [hf, this]
    · have hno : ¬ ∃ d ∈ l, f ∈ methods d := fun h => hf (ih.2 h)
      simp only [hf, false_or, List.mem_cons, exists_eq_or_imp, hno, or_false]
      simp

theorem fieldTable_take {l l' : List ClassDef} (h : l' <:+ l) :
    fieldTable l' <+: fieldTable l := by
  obtain ⟨t, rfl⟩ := h
  induction t with
  | nil => exact List.prefix_rfl
  | cons c t ih => exact ih.trans (List.prefix_append _ _)

theorem funcTable_take {l l' : List ClassDef} (h : l' <:+ l) :
    funcTable l' <+: funcTable l := by
  obtain ⟨t, rfl⟩ := h
  induction t with
  | nil => exact List.prefix_rfl
  | cons c t ih => exact ih.trans (List.prefix_append _ _)

theorem Accepted.methods_nodup {p : TopLevel} (hp : Accepted p) {c : ClassDef} (hc : c ∈ p) :
    (methods c).Nodup := by
  have h : (methods c).Sublist (c.fields.map Member.name) := by
    unfold methods
    induction c.fields with
    | nil => exact List.Sublist.slnil
    | cons m ms ih =>
      match m with
      | .methodDef f false r a => exact ih.cons_cons f
      | .methodDef f true r a => exact ih.cons f
      | .varDef x t => exact ih.cons x
  exact h.nodup (hp.members c hc)

theorem Accepted.vars_nodup {p : TopLevel} (hp : Accepted p) {c : ClassDef} (hc : c ∈ p) :
    (TransPass1.vars c).Nodup := by
  have h : (TransPass1.vars c).Sublist (c.fields.map Member.name) := by
    unfold TransPass1.vars
    induction c.fields with
    | nil => exact List.Sublist.slnil
    | cons m ms ih =>
      match m with
      | .methodDef f b r a => exact ih.cons f
      | .varDef x t => exact ih.cons_cons x
  exact h.nodup (hp.members c hc)

theorem Accepted.funcTable_nodup {p : TopLevel} (hp : Accepted p) :
    ∀ {l : List ClassDef}, l ⊆ p → (funcTable l).Nodup
  | [], _ => List.nodup_nil
  | c :: l, h => by
    rw [funcTable]
    refine List.Nodup.append (hp.funcTable_nodup fun d hd => h (List.mem_cons_of_mem _ hd))
      ((hp.methods_nodup (h List.mem_cons_self)).filter _) fun f hf hf' => ?_
    have := (List.mem_filter.1 hf').2
    simp [hf] at this

/-! ## Lookups along a chain -/

/-- A method of a chain is seen from its first class, and what is seen is a method. -/
theorem Accepted.visible_method {p : TopLevel} (hp : Accepted p) {c : ClassDef}
    {l : List ClassDef} {f : String} (h : Chain (getParent p) c l) (hc : c ∈ p)
    (hf : f ∈ funcTable l) : ∃ o m, visible l f = some (o, m) ∧ m.IsMethod := by
  induction h with
  | root hr =>
    rename_i a
    obtain ⟨d, hd, hfd⟩ := mem_funcTable.1 hf
    rw [List.mem_singleton] at hd
    subst hd
    obtain ⟨m, hm, hmf, hmeth⟩ := mem_methods.1 hfd
    exact ⟨d, m, by rw [visible_cons, (hp.lookup_iff hc).2 ⟨hm, hmf⟩], hmeth⟩
  | step hq hch ih =>
    rename_i a b l
    rw [visible_cons]
    cases hl : a.lookup f with
    | some m =>
      obtain ⟨hm, hmf⟩ := (hp.lookup_iff hc).1 hl
      refine ⟨a, m, rfl, ?_⟩
      obtain ⟨d, hd, hfd⟩ := mem_funcTable.1 hf
      rcases List.mem_cons.1 hd with rfl | hd
      · obtain ⟨m', hm', hmf', hmeth⟩ := mem_methods.1 hfd
        rw [(hp.lookup_iff hc).2 ⟨hm', hmf'⟩] at hl
        cases hl
        exact hmeth
      · -- An ancestor has a method of this name, so `a` may only override it.
        obtain ⟨o, m', hv, -⟩ := ih (getParent_mem hq) (mem_funcTable.2 ⟨d, hd, hfd⟩)
        rw [← hp.lookupVisible_eq hch (getParent_mem hq), ← hmf] at hv
        exact (hp.overrides a hc b hq m hm o m' hv).1
    | none =>
      refine ih (getParent_mem hq) ?_
      obtain ⟨d, hd, hfd⟩ := mem_funcTable.1 hf
      rcases List.mem_cons.1 hd with rfl | hd
      · obtain ⟨m', hm', hmf', -⟩ := mem_methods.1 hfd
        rw [(hp.lookup_iff hc).2 ⟨hm', hmf'⟩] at hl
        cases hl
      · exact mem_funcTable.2 ⟨d, hd, hfd⟩

/-- Conversely a method that is seen is in the table. -/
theorem Accepted.mem_funcTable_of_visible {p : TopLevel} (hp : Accepted p) {l : List ClassDef}
    {f : String} {o : ClassDef} {m : Member} (hl : l ⊆ p) (hv : visible l f = some (o, m))
    (hm : m.IsMethod) : o ∈ l ∧ f ∈ methods o := by
  obtain ⟨ho, hlook⟩ := visible_mem hv
  obtain ⟨hmo, hmf⟩ := (hp.lookup_iff (hl ho)).1 hlook
  exact ⟨ho, mem_methods.2 ⟨m, hmo, hmf, hm⟩⟩

/-- No class declares a field that an ancestor has. -/
theorem Accepted.visible_var {p : TopLevel} (hp : Accepted p) {c d : ClassDef}
    {l : List ClassDef} {x : String} {t : Ty} (h : Chain (getParent p) c l) (hc : c ∈ p)
    (hd : d ∈ l) (hx : .varDef x t ∈ d.fields) : visible l x = some (d, .varDef x t) := by
  induction h with
  | root hr =>
    rw [List.mem_singleton] at hd
    subst hd
    have hlook : d.lookup x = some (.varDef x t) := (hp.lookup_iff hc).2 ⟨hx, rfl⟩
    rw [visible_cons, hlook]
  | step hq hch ih =>
    rename_i a b l
    rw [visible_cons]
    rcases List.mem_cons.1 hd with rfl | hd
    · have hlook : d.lookup x = some (.varDef x t) := (hp.lookup_iff hc).2 ⟨hx, rfl⟩
      rw [hlook]
    · have hv := ih (getParent_mem hq) hd
      cases hl : a.lookup x with
      | none => exact hv
      | some m =>
        obtain ⟨hm, hmx⟩ := (hp.lookup_iff hc).1 hl
        rw [← hp.lookupVisible_eq hch (getParent_mem hq), ← hmx] at hv
        exact absurd (hp.overrides a hc b hq m hm _ _ hv).2 id

/-! ## `resolveFieldOrder` -/

/-- The numbers of one class, whose ancestors are `l`. -/
structure ResolvedClass (s : Layout) (c : ClassDef) (l : List ClassDef) : Prop where
  numNonStaticFunc : (s.classes c.name).numNonStaticFunc = (funcTable (c :: l)).length
  numVar : (s.classes c.name).numVar = (fieldTable (c :: l)).length
  size : (s.classes c.name).size = 4 + 4 * (fieldTable (c :: l)).length
  varOrder : ∀ x ∈ TransPass1.vars c,
    (s.symbols c.name x).order = (fieldTable (c :: l)).idxOf (c.name, x)
  funcOrder : ∀ f ∈ methods c, (s.symbols c.name f).order = (funcTable (c :: l)).idxOf f

/-- Every class of the chain has its numbers. -/
def Resolved (s : Layout) (l : List ClassDef) : Prop :=
  ∀ c l', c :: l' <:+ l → ResolvedClass s c l'

theorem Resolved.suffix {s : Layout} {l l' : List ClassDef} (h : Resolved s l) (hl : l' <:+ l) :
    Resolved s l' :=
  fun c l'' hs => h c l'' (hs.trans hl)

theorem Resolved.cons {s : Layout} {c : ClassDef} {l : List ClassDef}
    (hc : ResolvedClass s c l) (h : Resolved s l) : Resolved s (c :: l) := by
  intro d l' hs
  rcases List.suffix_cons_iff.1 hs with he | hs
  · cases he
    exact hc
  · exact h d l' hs

/-- `s'` has what `s` has for the class `a`, as far as numbers go. -/
structure SameNumbers (s s' : Layout) (a : String) : Prop where
  numNonStaticFunc : (s'.classes a).numNonStaticFunc = (s.classes a).numNonStaticFunc
  numVar : (s'.classes a).numVar = (s.classes a).numVar
  size : (s'.classes a).size = (s.classes a).size
  order : ∀ x, (s'.symbols a x).order = (s.symbols a x).order

theorem ResolvedClass.congr {s s' : Layout} {c : ClassDef} {l : List ClassDef}
    (h : ResolvedClass s c l) (hs : SameNumbers s s' c.name) : ResolvedClass s' c l where
  numNonStaticFunc := by rw [hs.numNonStaticFunc, h.numNonStaticFunc]
  numVar := by rw [hs.numVar, h.numVar]
  size := by rw [hs.size, h.size]
  varOrder x hx := by rw [hs.order, h.varOrder x hx]
  funcOrder f hf := by rw [hs.order, h.funcOrder f hf]

theorem Resolved.congr {s s' : Layout} {l : List ClassDef} (h : Resolved s l)
    (hs : ∀ c ∈ l, SameNumbers s s' c.name) : Resolved s' l :=
  fun c l' hl => (h c l' hl).congr (hs c (hl.subset List.mem_cons_self))

/-- What numbering the class `a` leaves alone. -/
structure OnlyNumbers (s s' : Layout) (a : String) : Prop where
  classes : ∀ b, b ≠ a → s'.classes b = s.classes b
  symbols : ∀ b, b ≠ a → s'.symbols b = s.symbols b
  vtable : (s'.classes a).vtable = (s.classes a).vtable
  offset : ∀ x, (s'.symbols a x).offset = (s.symbols a x).offset
  functy : ∀ x, (s'.symbols a x).functy = (s.symbols a x).functy
  vtables : s'.vtables = s.vtables

theorem OnlyNumbers.trans {s s' s'' : Layout} {a : String} (h : OnlyNumbers s s' a)
    (h' : OnlyNumbers s' s'' a) : OnlyNumbers s s'' a where
  classes b hb := by rw [h'.classes b hb, h.classes b hb]
  symbols b hb := by rw [h'.symbols b hb, h.symbols b hb]
  vtable := by rw [h'.vtable, h.vtable]
  offset x := by rw [h'.offset, h.offset]
  functy x := by rw [h'.functy, h.functy]
  vtables := by rw [h'.vtables, h.vtables]

theorem onlyNumbers_setOrder (s : Layout) (a x : String) (order : ℤ) :
    OnlyNumbers s (s.setOrder a x order) a where
  classes b hb := rfl
  symbols b hb := Function.update_of_ne hb _ _
  vtable := rfl
  offset y := by
    unfold Layout.setOrder Layout.setSymbol
    by_cases hy : y = x
    · simp [hy]
    · simp [hy]
  functy y := by
    unfold Layout.setOrder Layout.setSymbol
    by_cases hy : y = x
    · simp [hy]
    · simp [hy]
  vtables := rfl

theorem onlyNumbers_setClass {s : Layout} {a : String} {k : ClassInfo}
    (h : k.vtable = (s.classes a).vtable) : OnlyNumbers s (s.setClass a k) a where
  classes b hb := Function.update_of_ne hb _ _
  symbols b hb := rfl
  vtable := by simp [Layout.setClass, h]
  offset y := rfl
  functy y := rfl
  vtables := rfl

theorem onlyNumbers_resolveField (p : TopLevel) (c : ClassDef) (s : Layout) (m : Member) :
    OnlyNumbers s (resolveField p c s m) c.name := by
  have hrefl : OnlyNumbers s s c.name :=
    ⟨fun _ _ => rfl, fun _ _ => rfl, rfl, fun _ => rfl, fun _ => rfl, rfl⟩
  match m with
  | .varDef x t => exact (onlyNumbers_setOrder _ _ _ _).trans (onlyNumbers_setClass rfl)
  | .methodDef f true r a => exact hrefl
  | .methodDef f false r a =>
    simp only [resolveField]
    split
    · exact (onlyNumbers_setOrder _ _ _ _).trans (onlyNumbers_setClass rfl)
    · exact onlyNumbers_setOrder _ _ _ _

@[simp] theorem setOrder_order (s : Layout) (a x y : String) (order : ℤ) :
    ((s.setOrder a x order).symbols a y).order = if y = x then order else (s.symbols a y).order := by
  unfold Layout.setOrder Layout.setSymbol
  by_cases hy : y = x
  · simp [hy]
  · simp [hy]

@[simp] theorem setOrder_classes (s : Layout) (a x : String) (order : ℤ) :
    (s.setOrder a x order).classes = s.classes := rfl

@[simp] theorem setClass_classes_self (s : Layout) (a : String) (k : ClassInfo) :
    (s.setClass a k).classes a = k := Function.update_self _ _ _

@[simp] theorem setClass_symbols (s : Layout) (a : String) (k : ClassInfo) :
    (s.setClass a k).symbols = s.symbols := rfl

/-- `c` with the members that a loop over them has gone through. -/
def ClassDef.upTo (c : ClassDef) (done : List Member) : ClassDef := { c with fields := done }

@[simp] theorem upTo_name (c : ClassDef) (done : List Member) : (c.upTo done).name = c.name := rfl

section Prefix

variable (c : ClassDef) (done : List Member) (l : List ClassDef)

theorem fieldTable_upTo_var (x : String) (t : Ty) :
    fieldTable (c.upTo (done ++ [.varDef x t]) :: l)
      = fieldTable (c.upTo done :: l) ++ [(c.name, x)] := by
  simp [fieldTable, TransPass1.vars, ClassDef.upTo]

theorem vars_upTo_var (x : String) (t : Ty) :
    TransPass1.vars (c.upTo (done ++ [.varDef x t])) = TransPass1.vars (c.upTo done) ++ [x] := by
  simp [TransPass1.vars, ClassDef.upTo]

theorem methods_upTo_var (x : String) (t : Ty) :
    methods (c.upTo (done ++ [.varDef x t])) = methods (c.upTo done) := by
  simp [methods, ClassDef.upTo]

theorem vars_upTo_method (f : String) (b : Bool) (r : Ty) (a : List (String × Ty)) :
    TransPass1.vars (c.upTo (done ++ [.methodDef f b r a])) = TransPass1.vars (c.upTo done) := by
  simp [TransPass1.vars, ClassDef.upTo]

theorem methods_upTo_static (f : String) (r : Ty) (a : List (String × Ty)) :
    methods (c.upTo (done ++ [.methodDef f true r a])) = methods (c.upTo done) := by
  simp [methods, ClassDef.upTo]

theorem methods_upTo_method (f : String) (r : Ty) (a : List (String × Ty)) :
    methods (c.upTo (done ++ [.methodDef f false r a])) = methods (c.upTo done) ++ [f] := by
  simp [methods, ClassDef.upTo]

theorem fieldTable_upTo_method (f : String) (b : Bool) (r : Ty) (a : List (String × Ty)) :
    fieldTable (c.upTo (done ++ [.methodDef f b r a]) :: l) = fieldTable (c.upTo done :: l) := by
  rw [fieldTable, fieldTable, vars_upTo_method]
  rfl

theorem funcTable_upTo_var (x : String) (t : Ty) :
    funcTable (c.upTo (done ++ [.varDef x t]) :: l) = funcTable (c.upTo done :: l) := by
  rw [funcTable, funcTable, methods_upTo_var]

theorem funcTable_upTo_static (f : String) (r : Ty) (a : List (String × Ty)) :
    funcTable (c.upTo (done ++ [.methodDef f true r a]) :: l) = funcTable (c.upTo done :: l) := by
  rw [funcTable, funcTable, methods_upTo_static]

theorem funcTable_upTo_new {f : String} (hf : f ∉ funcTable l) (r : Ty) (a : List (String × Ty)) :
    funcTable (c.upTo (done ++ [.methodDef f false r a]) :: l)
      = funcTable (c.upTo done :: l) ++ [f] := by
  rw [funcTable, funcTable, methods_upTo_method, List.filter_append, List.append_assoc]
  simp [hf]

theorem funcTable_upTo_override {f : String} (hf : f ∈ funcTable l) (r : Ty)
    (a : List (String × Ty)) :
    funcTable (c.upTo (done ++ [.methodDef f false r a]) :: l) = funcTable (c.upTo done :: l) := by
  rw [funcTable, funcTable, methods_upTo_method, List.filter_append]
  simp [hf]

end Prefix

section Step

variable {p : TopLevel} {c : ClassDef} {done : List Member} {l : List ClassDef} {s : Layout}

theorem idxOf_snoc {α : Type*} [BEq α] [LawfulBEq α] {a : α} {t : List α} (h : a ∉ t) :
    (t ++ [a]).idxOf a = t.length := by
  rw [List.idxOf_append_of_notMem h]
  simp

theorem ResolvedClass.varDef (h : ResolvedClass s (c.upTo done) l) {x : String} {t : Ty}
    (hx : (c.name, x) ∉ fieldTable (c.upTo done :: l)) (hm : x ∉ methods (c.upTo done)) :
    ResolvedClass (resolveField p c s (.varDef x t)) (c.upTo (done ++ [.varDef x t])) l where
  numNonStaticFunc := by
    rw [funcTable_upTo_var, ← h.numNonStaticFunc]
    simp [resolveField, upTo_name]
  numVar := by
    have := h.numVar
    rw [fieldTable_upTo_var]
    simp only [resolveField, upTo_name, setClass_classes_self] at this ⊢
    simp [this]
  size := by
    have := h.size
    rw [fieldTable_upTo_var]
    simp only [resolveField, upTo_name, setClass_classes_self, WORD_SIZE] at this ⊢
    simp only [this, List.length_append, List.length_singleton]
    omega
  varOrder y hy := by
    rw [vars_upTo_var, List.mem_append, List.mem_singleton] at hy
    rw [fieldTable_upTo_var]
    simp only [resolveField, upTo_name, setClass_symbols, setOrder_order]
    by_cases hyx : y = x
    · rw [if_pos hyx, hyx, idxOf_snoc hx]
      exact h.numVar
    · have hy' := hy.resolve_right hyx
      have hmem : (c.name, y) ∈ fieldTable (c.upTo done :: l) :=
        mem_fieldTable.2 ⟨_, List.mem_cons_self, rfl, hy'⟩
      rw [if_neg hyx, List.idxOf_append_of_mem hmem]
      exact h.varOrder y hy'
  funcOrder f hf := by
    rw [methods_upTo_var] at hf
    have hne : f ≠ x := fun he => hm (he ▸ hf)
    rw [funcTable_upTo_var]
    simp only [resolveField, upTo_name, setClass_symbols, setOrder_order, if_neg hne]
    exact h.funcOrder f hf

/-- A static method gets no number. -/
theorem ResolvedClass.static (h : ResolvedClass s (c.upTo done) l) {f : String} {r : Ty}
    {a : List (String × Ty)} :
    ResolvedClass (resolveField p c s (.methodDef f true r a))
      (c.upTo (done ++ [.methodDef f true r a])) l where
  numNonStaticFunc := by rw [funcTable_upTo_static]; exact h.numNonStaticFunc
  numVar := by rw [fieldTable_upTo_method]; exact h.numVar
  size := by rw [fieldTable_upTo_method]; exact h.size
  varOrder x hx := by
    rw [vars_upTo_method] at hx
    rw [fieldTable_upTo_method]
    exact h.varOrder x hx
  funcOrder g hg := by
    rw [methods_upTo_static] at hg
    rw [funcTable_upTo_static]
    exact h.funcOrder g hg

theorem ResolvedClass.new (h : ResolvedClass s (c.upTo done) l) {f : String} {r : Ty}
    {a : List (String × Ty)}
    (hv : ((getParent p c).bind fun ps => lookupVisible p ps f) = none)
    (hf : f ∉ funcTable (c.upTo done :: l)) (hx : f ∉ TransPass1.vars (c.upTo done)) :
    ResolvedClass (resolveField p c s (.methodDef f false r a))
      (c.upTo (done ++ [.methodDef f false r a])) l := by
  have hfl : f ∉ funcTable l := fun hm => hf (List.mem_append_left _ hm)
  have hstep : resolveField p c s (.methodDef f false r a)
      = (s.setOrder c.name f (s.classes c.name).numNonStaticFunc).setClass c.name
        { s.classes c.name with
          numNonStaticFunc := (s.classes c.name).numNonStaticFunc + 1 } := by
    simp only [resolveField, hv]
  have hnum := h.numNonStaticFunc
  rw [hstep]
  refine ⟨?_, ?_, ?_, fun x hx' => ?_, fun g hg => ?_⟩
  · rw [funcTable_upTo_new c done l hfl]
    simp only [upTo_name, setClass_classes_self] at hnum ⊢
    simp [hnum]
  · rw [fieldTable_upTo_method, ← h.numVar]
    simp [upTo_name]
  · rw [fieldTable_upTo_method, ← h.size]
    simp [upTo_name]
  · rw [vars_upTo_method] at hx'
    have hne : x ≠ f := fun he => hx (he ▸ hx')
    rw [fieldTable_upTo_method]
    simp only [upTo_name, setClass_symbols, setOrder_order, if_neg hne]
    exact h.varOrder x hx'
  · rw [methods_upTo_method, List.mem_append, List.mem_singleton] at hg
    rw [funcTable_upTo_new c done l hfl]
    simp only [upTo_name, setClass_symbols, setOrder_order]
    by_cases hgf : g = f
    · rw [if_pos hgf, hgf, idxOf_snoc hf]
      exact hnum
    · have hg' := hg.resolve_right hgf
      have hmem : g ∈ funcTable (c.upTo done :: l) :=
        mem_funcTable.2 ⟨_, List.mem_cons_self, hg'⟩
      rw [if_neg hgf, List.idxOf_append_of_mem hmem]
      exact h.funcOrder g hg'

/-- An override takes the number of the method it overrides. -/
theorem ResolvedClass.override (h : ResolvedClass s (c.upTo done) l) {f : String} {r : Ty}
    {a : List (String × Ty)} {owner : ClassDef} {m : Member}
    (hv : ((getParent p c).bind fun ps => lookupVisible p ps f) = some (owner, m))
    (ho : (s.symbols owner.name f).order = (funcTable l).idxOf f) (hf : f ∈ funcTable l)
    (hx : f ∉ TransPass1.vars (c.upTo done)) :
    ResolvedClass (resolveField p c s (.methodDef f false r a))
      (c.upTo (done ++ [.methodDef f false r a])) l := by
  have hstep : resolveField p c s (.methodDef f false r a)
      = s.setOrder c.name f ((funcTable l).idxOf f) := by
    simp only [resolveField, hv, ho]
  rw [hstep]
  refine ⟨?_, ?_, ?_, fun x hx' => ?_, fun g hg => ?_⟩
  · rw [funcTable_upTo_override c done l hf]
    exact h.numNonStaticFunc
  · rw [fieldTable_upTo_method]
    exact h.numVar
  · rw [fieldTable_upTo_method]
    exact h.size
  · rw [vars_upTo_method] at hx'
    have hne : x ≠ f := fun he => hx (he ▸ hx')
    rw [fieldTable_upTo_method]
    simp only [upTo_name, setOrder_order, if_neg hne]
    exact h.varOrder x hx'
  · rw [methods_upTo_method, List.mem_append, List.mem_singleton] at hg
    rw [funcTable_upTo_override c done l hf]
    simp only [upTo_name, setOrder_order]
    by_cases hgf : g = f
    · rw [if_pos hgf, hgf, funcTable, List.idxOf_append_of_mem hf]
    · rw [if_neg hgf]
      exact h.funcOrder g (hg.resolve_right hgf)

end Step

theorem methods_upTo_subset {c : ClassDef} {done : List Member} {f : String}
    (h : f ∈ methods (c.upTo done)) : f ∈ done.map Member.name := by
  obtain ⟨m, hm, rfl, -⟩ := mem_methods.1 h
  exact List.mem_map_of_mem hm

theorem vars_upTo_subset {c : ClassDef} {done : List Member} {x : String}
    (h : x ∈ TransPass1.vars (c.upTo done)) : x ∈ done.map Member.name := by
  obtain ⟨m, hm, rfl, -⟩ := mem_vars.1 h
  exact List.mem_map_of_mem hm

namespace Accepted

variable {p : TopLevel} (hp : Accepted p) {c : ClassDef} {l : List ClassDef}
include hp

theorem notMem_tail (h : Chain (getParent p) c (c :: l)) (hc : c ∈ p) {d : ClassDef}
    (hd : d ∈ l) : d.name ≠ c.name := by
  intro he
  have hdp := hp.chain_subset h hc (List.mem_cons_of_mem _ hd)
  rw [hp.eq_of_name hdp hc he] at hd
  exact (List.nodup_cons.1 (hp.chain_nodup h hc)).1 hd

/-- What the scope of the parent shows, `l` being the ancestors. -/
theorem parent_visible (h : Chain (getParent p) c (c :: l)) (f : String) :
    ((getParent p c).bind fun ps => lookupVisible p ps f) = visible l f := by
  rcases h.cases_eq with ⟨hn, hl⟩ | ⟨q, l', hq, hl, hch⟩
  · cases hl
    rw [hn]
    rfl
  · cases hl
    rw [hq, Option.bind_some, hp.lookupVisible_eq hch (getParent_mem hq)]

/-- A method that an ancestor shows is a method of an ancestor, with the number of the table. -/
theorem override_order {s : Layout} (h : Chain (getParent p) c (c :: l)) (hc : c ∈ p)
    (hs : Resolved s l) {f : String} {r : Ty} {a : List (String × Ty)}
    (hm : .methodDef f false r a ∈ c.fields) {o : ClassDef} {m : Member}
    (hv : visible l f = some (o, m)) :
    o ∈ l ∧ f ∈ funcTable l ∧ (s.symbols o.name f).order = (funcTable l).idxOf f := by
  rcases h.cases_eq with ⟨hn, hl⟩ | ⟨q, l', hq, hl, hch⟩
  · cases hl
    simp [visible] at hv
  cases hl
  have hqp := getParent_mem hq
  have hsub := hp.chain_subset hch hqp
  have hmeth : m.IsMethod := by
    have hv' := hv
    rw [← hp.lookupVisible_eq hch hqp] at hv'
    exact (hp.overrides c hc q hq _ hm o m hv').2
  obtain ⟨ho, hf⟩ := hp.mem_funcTable_of_visible hsub hv hmeth
  obtain ⟨lo, hlo, hsuf⟩ := hch.suffix ho
  obtain ⟨lo, rfl⟩ := hlo.exists_cons
  have hfo : f ∈ funcTable (o :: lo) := mem_funcTable.2 ⟨o, List.mem_cons_self, hf⟩
  refine ⟨ho, (funcTable_take hsuf).subset hfo, ?_⟩
  rw [(hs o lo hsuf).funcOrder f hf, (funcTable_take hsuf).idxOf_eq_of_mem hfo]

theorem resolveField_step {s : Layout} (h : Chain (getParent p) c (c :: l)) (hc : c ∈ p)
    (hs : Resolved s l) {done rest : List Member} {m : Member} (hf : c.fields = done ++ m :: rest)
    (hd : ResolvedClass s (c.upTo done) l) :
    ResolvedClass (resolveField p c s m) (c.upTo (done ++ [m])) l := by
  have hnew : m.name ∉ done.map Member.name := by
    have := hp.members c hc
    rw [hf, List.map_append, List.map_cons, List.nodup_append] at this
    exact fun hm => this.2.2 _ hm _ List.mem_cons_self rfl
  have hvars := fun h => hnew (vars_upTo_subset (c := c) h)
  have hmeths := fun h => hnew (methods_upTo_subset (c := c) h)
  match m with
  | .varDef x t =>
    refine hd.varDef (fun hx => ?_) hmeths
    obtain ⟨d, hdl, hdn, hxd⟩ := mem_fieldTable.1 hx
    rcases List.mem_cons.1 hdl with rfl | hdl
    · exact hvars hxd
    · exact hp.notMem_tail h hc hdl hdn
  | .methodDef f true r a => exact hd.static
  | .methodDef f false r a =>
    have hv := hp.parent_visible h f
    cases hl : visible l f with
    | some om =>
      obtain ⟨o, m'⟩ := om
      have hm : Member.methodDef f false r a ∈ c.fields := by rw [hf]; simp
      obtain ⟨-, hfl, ho⟩ := hp.override_order h hc hs hm hl
      exact hd.override (hv.trans hl) ho hfl hvars
    | none =>
      refine hd.new (hv.trans hl) (fun hft => ?_) hvars
      rw [funcTable, List.mem_append] at hft
      rcases hft with hft | hft
      · rcases h.cases_eq with ⟨hn, hl'⟩ | ⟨q, l', hq, hl', hch⟩
        · cases hl'
          simp [funcTable] at hft
        · cases hl'
          obtain ⟨o, m', hv', -⟩ := hp.visible_method hch (getParent_mem hq) hft
          rw [hl] at hv'
          cases hv'
      · exact hmeths (List.mem_filter.1 hft).1

theorem resolveFields {s : Layout} (h : Chain (getParent p) c (c :: l)) (hc : c ∈ p)
    (hs : Resolved s l) (h0 : ResolvedClass s (c.upTo []) l) :
    ResolvedClass (c.fields.foldl (resolveField p c) s) c l
      ∧ OnlyNumbers s (c.fields.foldl (resolveField p c) s) c.name := by
  refine Loop.foldl_inv
    (P := fun done s' => ResolvedClass s' (c.upTo done) l ∧ OnlyNumbers s s' c.name)
    ⟨h0, ⟨fun _ _ => rfl, fun _ _ => rfl, rfl, fun _ => rfl, fun _ => rfl, rfl⟩⟩ ?_
  rintro done m rest s' hf ⟨hd, ho⟩
  refine ⟨hp.resolveField_step h hc (hs.congr fun d hdl => ?_) hf hd,
    ho.trans (onlyNumbers_resolveField p c s' m)⟩
  have hne := hp.notMem_tail h hc hdl
  exact ⟨by rw [ho.classes _ hne], by rw [ho.classes _ hne], by rw [ho.classes _ hne],
    fun x => by rw [ho.symbols _ hne]⟩

end Accepted

/-- A class counts as numbered when its counters are not negative. -/
def Numbered (s : Layout) (a : String) : Prop :=
  0 ≤ (s.classes a).numNonStaticFunc ∧ 0 ≤ (s.classes a).numVar

/-- Classes that count as numbered have their numbers. -/
def Settled (p : TopLevel) (s : Layout) : Prop :=
  ∀ c ∈ p, Numbered s c.name → ∀ l, Chain (getParent p) c l → Resolved s l

theorem Resolved.numbered {s : Layout} {l : List ClassDef} (h : Resolved s l) {c : ClassDef}
    (hc : c ∈ l) : Numbered s c.name := by
  obtain ⟨l', l'', rfl⟩ := List.append_of_mem hc
  have := h c l'' (List.suffix_append _ _)
  unfold Numbered
  rw [this.numNonStaticFunc, this.numVar]
  omega

/-- What numbering the classes of `l` leaves alone. -/
structure OnlyNumbered (s s' : Layout) (l : List ClassDef) : Prop where
  numbered : ∀ a, Numbered s a → SameNumbers s s' a
  others : ∀ a, a ∉ l.map ClassDef.name → SameNumbers s s' a
  vtable : ∀ a, (s'.classes a).vtable = (s.classes a).vtable
  offset : ∀ a x, (s'.symbols a x).offset = (s.symbols a x).offset
  functy : ∀ a x, (s'.symbols a x).functy = (s.symbols a x).functy
  vtables : s'.vtables = s.vtables

theorem SameNumbers.refl (s : Layout) (a : String) : SameNumbers s s a := ⟨rfl, rfl, rfl, fun _ => rfl⟩

theorem SameNumbers.trans {s s' s'' : Layout} {a : String} (h : SameNumbers s s' a)
    (h' : SameNumbers s' s'' a) : SameNumbers s s'' a where
  numNonStaticFunc := by rw [h'.numNonStaticFunc, h.numNonStaticFunc]
  numVar := by rw [h'.numVar, h.numVar]
  size := by rw [h'.size, h.size]
  order x := by rw [h'.order, h.order]

theorem SameNumbers.numbered_iff {s s' : Layout} {a : String} (h : SameNumbers s s' a) :
    Numbered s' a ↔ Numbered s a := by
  unfold Numbered
  rw [h.numNonStaticFunc, h.numVar]

theorem OnlyNumbers.same {s s' : Layout} {a b : String} (h : OnlyNumbers s s' a) (hb : b ≠ a) :
    SameNumbers s s' b :=
  ⟨by rw [h.classes b hb], by rw [h.classes b hb], by rw [h.classes b hb],
    fun x => by rw [h.symbols b hb]⟩

/-- A class that was not numbered is numbered after its ancestors. -/
theorem OnlyNumbered.step {s s1 s2 : Layout} {c : ClassDef} {l : List ClassDef}
    (h : OnlyNumbered s s1 l) (hc : ¬ Numbered s c.name) (h' : OnlyNumbers s1 s2 c.name) :
    OnlyNumbered s s2 (c :: l) where
  numbered a ha := by
    have hne : a ≠ c.name := fun he => hc (he ▸ ha)
    exact (h.numbered a ha).trans (h'.same hne)
  others a ha := by
    rw [List.map_cons, List.mem_cons, not_or] at ha
    exact (h.others a ha.2).trans (h'.same ha.1)
  vtable a := by
    rw [← h.vtable a]
    by_cases ha : a = c.name
    · rw [ha, h'.vtable]
    · rw [h'.classes a ha]
  offset a x := by
    rw [← h.offset a x]
    by_cases ha : a = c.name
    · rw [ha, h'.offset]
    · rw [h'.symbols a ha]
  functy a x := by
    rw [← h.functy a x]
    by_cases ha : a = c.name
    · rw [ha, h'.functy]
    · rw [h'.symbols a ha]
  vtables := by rw [h'.vtables, h.vtables]

theorem OnlyNumbered.refl (s : Layout) (l : List ClassDef) : OnlyNumbered s s l where
  numbered a _ := SameNumbers.refl s a
  others a _ := SameNumbers.refl s a
  vtable _ := rfl
  offset _ _ := rfl
  functy _ _ := rfl
  vtables := rfl

namespace Accepted

variable {p : TopLevel} (hp : Accepted p) {c : ClassDef} {l : List ClassDef}
include hp

/-- One class is numbered, its ancestors being so. -/
theorem number_class {s s1 : Layout} (h : Chain (getParent p) c (c :: l)) (hc : c ∈ p)
    (hnot : ¬ Numbered s c.name) (hset : Settled p s1) (hres : Resolved s1 l)
    (honly : OnlyNumbered s s1 l) {k : ClassInfo}
    (hk : k.vtable = (s1.classes c.name).vtable) (hf : k.numNonStaticFunc = (funcTable l).length)
    (hv : k.numVar = (fieldTable l).length) (hsz : k.size = 4 + 4 * (fieldTable l).length) :
    let s2 := c.fields.foldl (resolveField p c) (s1.setClass c.name k)
    Settled p s2 ∧ Resolved s2 (c :: l) ∧ OnlyNumbered s s2 (c :: l) := by
  intro s2
  have hone := onlyNumbers_setClass hk
  have hfresh : ResolvedClass (s1.setClass c.name k) (c.upTo []) l := by
    refine ⟨?_, ?_, ?_, by simp [TransPass1.vars, ClassDef.upTo],
      by simp [methods, ClassDef.upTo]⟩
    · simpa [funcTable, methods, ClassDef.upTo] using hf
    · simpa [fieldTable, TransPass1.vars, ClassDef.upTo] using hv
    · simpa [fieldTable, TransPass1.vars, ClassDef.upTo] using hsz
  have hres1 : Resolved (s1.setClass c.name k) l :=
    hres.congr fun d hd => hone.same (hp.notMem_tail h hc hd)
  obtain ⟨hrc, hon⟩ := hp.resolveFields h hc hres1 hfresh
  have hon2 := hone.trans hon
  have hres2 : Resolved s2 (c :: l) :=
    .cons hrc (hres.congr fun d hd => hon2.same (hp.notMem_tail h hc hd))
  refine ⟨fun d hd hnd ld hld => ?_, hres2, honly.step hnot hon2⟩
  by_cases hdc : d.name = c.name
  · rw [hp.eq_of_name hd hc hdc] at hld
    rwa [hld.unique h]
  · -- A class numbered before has `c` not among its ancestors, since `c` was not numbered.
    have hrd := hset d hd ((hon2.same hdc).numbered_iff.1 hnd) ld hld
    refine hrd.congr fun e he => hon2.same fun hec => ?_
    have hec' := hp.eq_of_name (hp.chain_subset hld hd he) hc hec
    rw [hec'] at he
    have hcl : c.name ∉ l.map ClassDef.name := by
      intro hm
      obtain ⟨b, hb, hbn⟩ := List.mem_map.1 hm
      exact hp.notMem_tail h hc hb hbn
    exact hnot ((honly.others _ hcl).numbered_iff.1 (hrd.numbered he))

theorem resolveFieldOrder_spec (h : Chain (getParent p) c l) (hc : c ∈ p) :
    ∀ {n : ℕ} {s : Layout}, l.length ≤ n → Settled p s →
      ∃ s', resolveFieldOrder p n s c = some s' ∧ Settled p s' ∧ Resolved s' l
        ∧ OnlyNumbered s s' l := by
  induction h with
  | root hn =>
    rename_i a
    intro n s hlen hs
    obtain ⟨n, rfl⟩ := Nat.exists_eq_add_of_le' hlen
    simp only [List.length_singleton, resolveFieldOrder, hn]
    split_ifs with hnum
    · exact ⟨s, rfl, hs, hs a hc hnum _ (.root hn), OnlyNumbered.refl s _⟩
    · exact ⟨_, rfl, hp.number_class (.root hn) hc hnum hs (fun d l' hd => by simp at hd)
        (OnlyNumbered.refl s _) rfl rfl rfl rfl⟩
  | step hq hch ih =>
    rename_i a b l
    intro n s hlen hs
    obtain ⟨n, rfl⟩ := Nat.exists_eq_add_of_le' (Nat.le_trans (by simp) hlen : 1 ≤ n)
    simp only [resolveFieldOrder, hq]
    split_ifs with hnum
    · exact ⟨s, rfl, hs, hs a hc hnum _ (.step hq hch), OnlyNumbered.refl s _⟩
    · obtain ⟨s1, hs1, hset, hres, honly⟩ := ih (getParent_mem hq) (by simpa using hlen) hs
      obtain ⟨l', rfl⟩ := hch.exists_cons
      have hb := hres b l' List.suffix_rfl
      rw [hs1]
      exact ⟨_, rfl, hp.number_class (.step hq hch) hc hnum hset hres honly rfl
        hb.numNonStaticFunc hb.numVar hb.size⟩

end Accepted

end Decaf

end CacheCPU
