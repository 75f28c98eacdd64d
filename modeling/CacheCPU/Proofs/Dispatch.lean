import CacheCPU.Proofs.Layout

/-!
# Virtual tables and dynamic dispatch

A virtual table is filled from the root of the chain down, so what a class overrides replaces what
its ancestors have put there. With the numbers of the methods being the same all along a chain, the
word behind a method's offset is the one of the nearest declaration, whichever declaration the
offset is taken from.
-/

namespace CacheCPU

namespace Decaf

open Forest

/-! ## `TransPass1.visitClassDef` -/

/-- Offsets and labels of the class `a` are all that differs. -/
structure OnlyPlaces (s s' : Layout) (a : String) : Prop where
  classes : s'.classes = s.classes
  vtables : s'.vtables = s.vtables
  symbols : ∀ b, b ≠ a → s'.symbols b = s.symbols b
  order : ∀ x, (s'.symbols a x).order = (s.symbols a x).order

theorem OnlyPlaces.refl (s : Layout) (a : String) : OnlyPlaces s s a :=
  ⟨rfl, rfl, fun _ _ => rfl, fun _ => rfl⟩

theorem OnlyPlaces.trans {s s' s'' : Layout} {a : String} (h : OnlyPlaces s s' a)
    (h' : OnlyPlaces s' s'' a) : OnlyPlaces s s'' a where
  classes := by rw [h'.classes, h.classes]
  vtables := by rw [h'.vtables, h.vtables]
  symbols b hb := by rw [h'.symbols b hb, h.symbols b hb]
  order x := by rw [h'.order, h.order]

theorem OnlyPlaces.same {s s' : Layout} {a : String} (h : OnlyPlaces s s' a) (b : String) :
    SameNumbers s s' b := by
  refine ⟨by rw [h.classes], by rw [h.classes], by rw [h.classes], fun x => ?_⟩
  by_cases hb : b = a
  · rw [hb, h.order]
  · rw [h.symbols b hb]

theorem setSymbol_symbols (s : Layout) (a x y : String) (i : SymbolInfo) :
    (s.setSymbol a x i).symbols a y = if y = x then i else s.symbols a y := by
  unfold Layout.setSymbol
  by_cases hy : y = x
  · simp [hy]
  · simp [hy]

theorem onlyPlaces_setSymbol {s : Layout} {a x : String} {i : SymbolInfo}
    (h : i.order = (s.symbols a x).order) : OnlyPlaces s (s.setSymbol a x i) a where
  classes := rfl
  vtables := rfl
  symbols b hb := Function.update_of_ne hb _ _
  order y := by
    rw [setSymbol_symbols]
    split_ifs with hy
    · rw [h, hy]
    · rfl

/-- What `visitMethodDef` leaves in a method. -/
def MethodPlaced (s : Layout) (a f : String) : Prop :=
  (s.symbols a f).offset = 8 + 4 * (s.symbols a f).order
    ∧ (s.symbols a f).functy = some (funcLabel a f)

theorem Accepted.visitFields {p : TopLevel} (hp : Accepted p) {c : ClassDef} (hc : c ∈ p)
    (s : Layout) :
    OnlyPlaces s (c.fields.foldl (TransPass1.visitField c) s) c.name
      ∧ ∀ f ∈ methods c, MethodPlaced (c.fields.foldl (TransPass1.visitField c) s) c.name f := by
  refine Loop.foldl_inv
    (P := fun done s' => OnlyPlaces s s' c.name
      ∧ ∀ f ∈ methods (c.upTo done), MethodPlaced s' c.name f)
    ⟨OnlyPlaces.refl s _, by simp [methods, ClassDef.upTo]⟩ ?_
  rintro done m rest s' hf ⟨ho, hm⟩
  cases m with
  | varDef x t =>
    rw [methods_upTo_var]
    exact ⟨ho, hm⟩
  | methodDef g b r a =>
    have hnew : g ∉ done.map Member.name := by
      have := hp.members c hc
      rw [hf, List.map_append, List.map_cons, List.nodup_append] at this
      exact fun hg => this.2.2 _ hg _ List.mem_cons_self rfl
    refine ⟨ho.trans (onlyPlaces_setSymbol rfl), fun f hfm => ?_⟩
    by_cases hfg : f = g
    · cases b with
      | false =>
        simp [MethodPlaced, TransPass1.visitField, setSymbol_symbols, hfg, POINTER_SIZE,
          Int.mul_comm]
      | true =>
        rw [methods_upTo_static] at hfm
        exact absurd (methods_upTo_subset hfm) (hfg ▸ hnew)
    · have hfd : f ∈ methods (c.upTo done) := by
        cases b with
        | false =>
          rw [methods_upTo_method, List.mem_append, List.mem_singleton] at hfm
          exact hfm.resolve_right hfg
        | true => rwa [methods_upTo_static] at hfm
      simpa [MethodPlaced, TransPass1.visitField, setSymbol_symbols, hfg] using hm f hfd

theorem setOffsets_spec (c : ClassDef) : ∀ (xs : List String) (oc : ℤ) (s : Layout), xs.Nodup →
    OnlyPlaces s (TransPass1.setOffsets c oc xs s) c.name
      ∧ (∀ x ∈ xs, ((TransPass1.setOffsets c oc xs s).symbols c.name x).offset
          = oc + 4 * (xs.idxOf x : ℕ))
      ∧ ∀ x ∉ xs, (TransPass1.setOffsets c oc xs s).symbols c.name x = s.symbols c.name x
  | [], oc, s, _ => ⟨OnlyPlaces.refl s _, by simp, fun _ _ => rfl⟩
  | x :: xs, oc, s, hn => by
    rw [List.nodup_cons] at hn
    obtain ⟨ho, hin, hout⟩ := setOffsets_spec c xs (oc + WORD_SIZE) (s.setOffset c.name x oc) hn.2
    have hset : ∀ y, (s.setOffset c.name x oc).symbols c.name y
        = if y = x then { s.symbols c.name x with offset := oc } else s.symbols c.name y :=
      fun y => setSymbol_symbols _ _ _ _ _
    simp only [TransPass1.setOffsets]
    have hone : OnlyPlaces s (s.setOffset c.name x oc) c.name := onlyPlaces_setSymbol rfl
    refine ⟨hone.trans ho, fun y hy => ?_, fun y hy => ?_⟩
    · by_cases hyx : y = x
      · rw [hyx, hout x hn.1, hset, if_pos rfl, List.idxOf_cons_self]
        simp
      · have hne : x ≠ y := fun he => hyx he.symm
        rw [hin y ((List.mem_cons.1 hy).resolve_left hyx), List.idxOf_cons_ne _ hne, WORD_SIZE]
        omega
    · rw [List.mem_cons, not_or] at hy
      rw [hout y hy.2, hset, if_neg hy.1]

/-- Offsets and labels of a class, whose ancestors are `l`. -/
structure Placed (s : Layout) (c : ClassDef) (l : List ClassDef) : Prop where
  var : ∀ x ∈ TransPass1.vars c,
    (s.symbols c.name x).offset = 4 + 4 * ((fieldTable (c :: l)).idxOf (c.name, x) : ℕ)
  method : ∀ f ∈ methods c,
    (s.symbols c.name f).offset = 8 + 4 * ((funcTable (c :: l)).idxOf f : ℕ)
  functy : ∀ f ∈ methods c, (s.symbols c.name f).functy = some (funcLabel c.name f)

theorem Placed.congr {s s' : Layout} {c : ClassDef} {l : List ClassDef} (h : Placed s c l)
    (ho : ∀ x, (s'.symbols c.name x).offset = (s.symbols c.name x).offset)
    (hf : ∀ x, (s'.symbols c.name x).functy = (s.symbols c.name x).functy) : Placed s' c l where
  var x hx := by rw [ho, h.var x hx]
  method f hfm := by rw [ho, h.method f hfm]
  functy f hfm := by rw [hf, h.functy f hfm]

theorem Settled.congr {p : TopLevel} {s s' : Layout} (h : Settled p s)
    (hs : ∀ a, SameNumbers s s' a) : Settled p s' :=
  fun c hc hn l hl => (h c hc ((hs _).numbered_iff.1 hn) l hl).congr fun d _ => hs d.name

/-- Where the fields of a class start. -/
theorem start_offset {p : TopLevel} {c : ClassDef} {l : List ClassDef} {s : Layout}
    (h : Chain (getParent p) c (c :: l)) (hr : Resolved s l) :
    (match getParent p c with
      | some q => (s.classes q.name).size
      | none => POINTER_SIZE) = (4 + 4 * ((fieldTable l).length : ℕ) : ℤ) := by
  rcases h.cases_eq with ⟨hn, hl⟩ | ⟨q, l', hq, hl, hch⟩
  · cases hl
    rw [hn]
    rfl
  · cases hl
    obtain ⟨l', rfl⟩ := hch.exists_cons
    rw [hq]
    exact (hr q l' List.suffix_rfl).size

namespace Accepted

variable {p : TopLevel} (hp : Accepted p) {c : ClassDef} {l : List ClassDef}
include hp

theorem method_notMem_vars (hc : c ∈ p) {f : String} (hf : f ∈ methods c) :
    f ∉ TransPass1.vars c := by
  intro hx
  obtain ⟨m, hm, hmf, hmeth⟩ := mem_methods.1 hf
  obtain ⟨m', hm', hmf', t, rfl⟩ := mem_vars.1 hx
  have := List.inj_on_of_nodup_map (hp.members c hc) hm hm' (hmf.trans hmf'.symm)
  rw [this] at hmeth
  exact hmeth

/-- The fields of a class follow those of its ancestors. -/
theorem idxOf_field (h : Chain (getParent p) c (c :: l)) (hc : c ∈ p) {x : String} :
    (fieldTable (c :: l)).idxOf (c.name, x)
      = (fieldTable l).length + (TransPass1.vars c).idxOf x := by
  have hnot : (c.name, x) ∉ fieldTable l := by
    intro hm
    obtain ⟨d, hd, hdn, -⟩ := mem_fieldTable.1 hm
    exact hp.notMem_tail h hc hd hdn
  rw [fieldTable, List.idxOf_append_of_notMem hnot]
  congr 1
  induction TransPass1.vars c with
  | nil => simp
  | cons y ys ih =>
    by_cases hy : y = x
    · simp [hy]
    · have hy' : (c.name, y) ≠ (c.name, x) := fun he => hy (Prod.mk.inj he).2
      rw [List.map_cons, List.idxOf_cons_ne _ hy', List.idxOf_cons_ne _ hy, ih]

/-- The order of the declarations is the order of the numbers, so sorting moves nothing. -/
theorem sort_vars {s : Layout} (h : Chain (getParent p) c (c :: l)) (hc : c ∈ p)
    (hr : ResolvedClass s c l) :
    ((TransPass1.vars c).mergeSort fun x y =>
      (s.symbols c.name x).order ≤ (s.symbols c.name y).order) = TransPass1.vars c := by
  apply List.mergeSort_of_pairwise
  rw [List.pairwise_iff_getElem]
  intro i j hi hj hij
  have hn := hp.vars_nodup hc
  rw [hr.varOrder _ (List.getElem_mem hi), hr.varOrder _ (List.getElem_mem hj),
    hp.idxOf_field h hc, hp.idxOf_field h hc, hn.idxOf_getElem, hn.idxOf_getElem]
  simp only [decide_eq_true_eq]
  omega

/-- `visitClassDef` numbers and places its class and leaves the places of the others. -/
theorem visitClassDef_spec {s : Layout} (h : Chain (getParent p) c (c :: l)) (hc : c ∈ p)
    (hs : Settled p s) :
    ∃ s', TransPass1.visitClassDef p s c = some s' ∧ Settled p s' ∧ Resolved s' (c :: l)
      ∧ Placed s' c l ∧ (∀ a, Numbered s a → SameNumbers s s' a)
      ∧ (∀ a, (s'.classes a).vtable = (s.classes a).vtable) ∧ s'.vtables = s.vtables
      ∧ ∀ a, a ≠ c.name → ∀ x, (s'.symbols a x).offset = (s.symbols a x).offset
        ∧ (s'.symbols a x).functy = (s.symbols a x).functy := by
  obtain ⟨s1, h1, hset, hres, honly⟩ := hp.resolveFieldOrder_spec h hc (hp.chain_length h hc) hs
  obtain ⟨ho2, hm2⟩ := hp.visitFields hc s1
  obtain ⟨ho3, hin, hout⟩ := setOffsets_spec c (TransPass1.vars c)
    (4 + 4 * ((fieldTable l).length : ℕ)) (c.fields.foldl (TransPass1.visitField c) s1)
    (hp.vars_nodup hc)
  have hres2 := hres.congr fun d _ => ho2.same d.name
  have ho := ho2.trans ho3
  have hres3 := hres.congr fun d _ => ho.same d.name
  have hrc := hres3 c l List.suffix_rfl
  refine ⟨_, ?_, hset.congr fun a => ho.same a, hres3, ⟨fun x hx => ?_, fun f hf => ?_,
    fun f hf => ?_⟩, fun a ha => (honly.numbered a ha).trans (ho.same a), fun a => ?_, ?_,
    fun a ha x => ?_⟩
  · unfold TransPass1.visitClassDef
    rw [h1]
    simp only [Option.bind_eq_bind, Option.bind_some, Option.pure_def, Option.some.injEq]
    rw [hp.sort_vars h hc (hres2 c l List.suffix_rfl)]
    exact congrArg (fun oc => TransPass1.setOffsets c oc _ _)
      (start_offset h (hres2.suffix (List.suffix_cons _ _)))
  · rw [hin x hx, hp.idxOf_field h hc]
    omega
  · rw [← hrc.funcOrder f hf]
    have hfv : f ∉ TransPass1.vars c := hp.method_notMem_vars hc hf
    rw [hout f hfv]
    exact (hm2 f hf).1
  · have hfv : f ∉ TransPass1.vars c := hp.method_notMem_vars hc hf
    rw [hout f hfv]
    exact (hm2 f hf).2
  · rw [ho.classes, honly.vtable]
  · rw [ho.vtables, honly.vtables]
  · rw [ho.symbols a ha]
    exact ⟨honly.offset a x, honly.functy a x⟩

end Accepted

/-- What the first loop of `TransPass1.visitTopLevel` leaves. -/
structure LaidOut (p : TopLevel) (s : Layout) : Prop where
  resolved : ∀ c ∈ p, ∀ l, Chain (getParent p) c l → Resolved s l
  placed : ∀ c ∈ p, ∀ l, Chain (getParent p) c (c :: l) → Placed s c l

theorem LaidOut.congr {p : TopLevel} {s s' : Layout} (h : LaidOut p s)
    (hn : ∀ a, SameNumbers s s' a) (hs : s'.symbols = s.symbols) : LaidOut p s' where
  resolved c hc l hl := (h.resolved c hc l hl).congr fun d _ => hn d.name
  placed c hc l hl := (h.placed c hc l hl).congr (fun x => by rw [hs]) fun x => by rw [hs]

theorem Accepted.laidOut {p : TopLevel} (hp : Accepted p) :
    ∃ s, p.foldlM (TransPass1.visitClassDef p) Layout.init = some s ∧ LaidOut p s
      ∧ (∀ a, (s.classes a).vtable = none) ∧ s.vtables = [] := by
  obtain ⟨s, hs, hset, hv, hvs, hdone⟩ := Loop.foldlM_some
    (P := fun done s => Settled p s ∧ (∀ a, (s.classes a).vtable = none) ∧ s.vtables = []
      ∧ ∀ c ∈ done, Numbered s c.name
        ∧ ∀ l, Chain (getParent p) c (c :: l) → Placed s c l)
    (l := p) (f := TransPass1.visitClassDef p) (s := Layout.init)
    ⟨fun c _ hn => absurd hn.1 (by simp [Layout.init]), fun _ => rfl, rfl, by simp⟩ (by
      rintro done c rest s hl ⟨hset, hv, hvs, hdone⟩
      have hc : c ∈ p := by rw [hl]; simp
      obtain ⟨l, hch⟩ := hp.exists_chain hc
      obtain ⟨l, rfl⟩ := hch.exists_cons
      obtain ⟨s', hs', hset', hres, hpl, hsame, hv', hvs', hkeep⟩ :=
        hp.visitClassDef_spec hch hc hset
      refine ⟨s', hs', hset', fun a => (hv' a).trans (hv a), hvs'.trans hvs, fun d hd => ?_⟩
      by_cases hdc : d.name = c.name
      · have hdp : d ∈ p := by
          rw [hl]
          rcases List.mem_append.1 hd with hd | hd
          · exact List.mem_append_left _ hd
          · rw [List.mem_singleton.1 hd]
            simp
        rw [hp.eq_of_name hdp hc hdc]
        refine ⟨hres.numbered List.mem_cons_self, fun l' hl' => ?_⟩
        have := hl'.unique hch
        cases this
        exact hpl
      · have hd' : d ∈ done := by
          rcases List.mem_append.1 hd with hd | hd
          · exact hd
          · exact absurd (by rw [List.mem_singleton.1 hd]) hdc
        obtain ⟨hnum, hpd⟩ := hdone d hd'
        exact ⟨(hsame _ hnum).numbered_iff.2 hnum, fun l' hl' =>
          (hpd l' hl').congr (fun x => (hkeep _ hdc x).1) fun x => (hkeep _ hdc x).2⟩)
  exact ⟨s, hs, ⟨fun c hc l hl => hset c hc (hdone c hc).1 l hl,
    fun c hc l hl => (hdone c hc).2 l hl⟩, hv, hvs⟩

/-! ## Filling the tables -/

/-- The entries of the virtual table of a class with the chain `l`. -/
def Filled (l : List ClassDef) (entries : List (Option String)) : Prop :=
  entries.length = (funcTable l).length ∧ ∀ f ∈ funcTable l, ∃ o m, visible l f = some (o, m)
    ∧ entries[(funcTable l).idxOf f]? = some (some (funcLabel o.name f))

/-- One class of a chain writes its methods over those of its ancestors. `t` is the table of a
subclass, in which the methods have the same numbers. -/
theorem LaidOut.fillEntries {p : TopLevel} {s : Layout} (hs : LaidOut p s) {c : ClassDef}
    {l : List ClassDef} {t : List String} {e : List (Option String)}
    (h : Chain (getParent p) c (c :: l)) (hc : c ∈ p) (ht : funcTable (c :: l) <+: t)
    (hlen : e.length = t.length) :
    ∃ e', c.fields.foldlM (fillEntry s c) e = some e' ∧ e'.length = t.length
      ∧ (∀ f ∈ methods c, e'[t.idxOf f]? = some (some (funcLabel c.name f)))
      ∧ ∀ f ∈ t, f ∉ methods c → e'[t.idxOf f]? = e[t.idxOf f]? := by
  refine Loop.foldlM_some
    (P := fun done e' => e'.length = t.length
      ∧ (∀ f ∈ methods (c.upTo done), e'[t.idxOf f]? = some (some (funcLabel c.name f)))
      ∧ ∀ f ∈ t, f ∉ methods (c.upTo done) → e'[t.idxOf f]? = e[t.idxOf f]?)
    ⟨hlen, by simp [methods, ClassDef.upTo], fun _ _ _ => rfl⟩ ?_
  rintro done m rest e' hf ⟨hlen', hin, hout⟩
  rcases m with ⟨x, y⟩ | ⟨f, _ | _, r, a⟩
  case varDef =>
    rw [methods_upTo_var]
    exact ⟨e', rfl, hlen', hin, hout⟩
  case methodDef.true =>
    rw [methods_upTo_static]
    exact ⟨e', rfl, hlen', hin, hout⟩
  case methodDef.false =>
    have hfm : f ∈ methods c := mem_methods.2 ⟨.methodDef f false r a, by rw [hf]; simp, rfl, trivial⟩
    have hft : f ∈ funcTable (c :: l) := mem_funcTable.2 ⟨c, List.mem_cons_self, hfm⟩
    have hord := (hs.resolved c hc _ h c l List.suffix_rfl).funcOrder f hfm
    rw [ht.idxOf_eq_of_mem hft] at hord
    have hlt : t.idxOf f < e'.length := by
      rw [hlen']
      exact List.idxOf_lt_length_of_mem (ht.subset hft)
    refine ⟨e'.set (t.idxOf f) (some (funcLabel c.name f)), ?_, by rw [List.length_set, hlen'],
      fun g hg => ?_, fun g hg hgm => ?_⟩
    · simp only [fillEntry, (hs.placed c hc l h).functy f hfm, hord]
      simp [hlt]
    · rw [methods_upTo_method, List.mem_append, List.mem_singleton] at hg
      by_cases hgf : g = f
      · rw [hgf, List.getElem?_set_self hlt]
      · have hne : t.idxOf f ≠ t.idxOf g := fun he =>
          hgf ((List.idxOf_inj (ht.subset hft)).1 he).symm
        rw [List.getElem?_set_ne hne]
        exact hin g (hg.resolve_right hgf)
    · rw [methods_upTo_method, List.mem_append, List.mem_singleton, not_or] at hgm
      have hne : t.idxOf f ≠ t.idxOf g := fun he =>
        hgm.2 ((List.idxOf_inj (ht.subset hft)).1 he).symm
      rw [List.getElem?_set_ne hne]
      exact hout g hg hgm.1

namespace Accepted

variable {p : TopLevel} (hp : Accepted p) {c : ClassDef} {s : Layout} (hs : LaidOut p s)
include hp hs

/-- The whole chain: the nearest declaration is written last. -/
theorem fillVTableEntries_spec {l : List ClassDef} {t : List String}
    (h : Chain (getParent p) c l) (hc : c ∈ p) (ht : funcTable l <+: t) :
    ∀ {n : ℕ} {e : List (Option String)}, l.length ≤ n → e.length = t.length →
      ∃ e', fillVTableEntries p s n e c = some e' ∧ e'.length = t.length
        ∧ ∀ f ∈ funcTable l, ∃ o m, visible l f = some (o, m)
          ∧ e'[t.idxOf f]? = some (some (funcLabel o.name f)) := by
  induction h with
  | root hn =>
    rename_i a
    intro n e hlen he
    obtain ⟨n, rfl⟩ := Nat.exists_eq_add_of_le' hlen
    obtain ⟨e', he', hl', hin, -⟩ := hs.fillEntries (.root hn) hc ht he
    refine ⟨e', ?_, hl', fun f hf => ?_⟩
    · simp only [List.length_singleton, fillVTableEntries, hn]
      exact he'
    have hfm : f ∈ methods a := by
      obtain ⟨d, hd, hfd⟩ := mem_funcTable.1 hf
      rwa [List.mem_singleton.1 hd] at hfd
    obtain ⟨m, hm, hmf, -⟩ := mem_methods.1 hfm
    exact ⟨a, m, by rw [visible_cons, (hp.lookup_iff hc).2 ⟨hm, hmf⟩], hin f hfm⟩
  | step hq hch ih =>
    rename_i a b l
    intro n e hlen he
    obtain ⟨n, rfl⟩ := Nat.exists_eq_add_of_le' (Nat.le_trans (by simp) hlen : 1 ≤ n)
    have hpre : funcTable l <+: t := (funcTable_take (List.suffix_cons a l)).trans ht
    obtain ⟨e1, he1, hl1, hvis⟩ := ih (getParent_mem hq) hpre (by simpa using hlen) he
    obtain ⟨e', he', hl', hin, hout⟩ := hs.fillEntries (.step hq hch) hc ht hl1
    refine ⟨e', ?_, hl', fun f hf => ?_⟩
    · simp only [fillVTableEntries, hq, he1]
      exact he'
    · by_cases hfm : f ∈ methods a
      · obtain ⟨m, hm, hmf, -⟩ := mem_methods.1 hfm
        exact ⟨a, m, by rw [visible_cons, (hp.lookup_iff hc).2 ⟨hm, hmf⟩], hin f hfm⟩
      · obtain ⟨o, m, hv, hmeth⟩ := hp.visible_method (.step hq hch) hc hf
        have hno : a.lookup f = none := by
          cases hl : a.lookup f with
          | none => rfl
          | some m' =>
            rw [visible_cons, hl] at hv
            cases hv
            obtain ⟨hm, hmf⟩ := (hp.lookup_iff hc).1 hl
            exact absurd (mem_methods.2 ⟨m, hm, hmf, hmeth⟩) hfm
        have hfl : f ∈ funcTable l := by
          obtain ⟨d, hd, hfd⟩ := mem_funcTable.1 hf
          rcases List.mem_cons.1 hd with rfl | hd
          · exact absurd hfd hfm
          · exact mem_funcTable.2 ⟨d, hd, hfd⟩
        rw [hout f (ht.subset hf) hfm, visible_cons, hno]
        exact hvis f hfl

theorem createVTable_spec {l : List ClassDef} (h : Chain (getParent p) c l) (hc : c ∈ p)
    (hv : (s.classes c.name).vtable = none) :
    ∃ e, Filled l e ∧ createVTable p s c = some { s.setClass c.name { s.classes c.name with
      vtable := some ⟨"_" ++ c.name, none, c.name, e⟩ } with
      vtables := s.vtables ++ [c.name] } := by
  obtain ⟨l, rfl⟩ := h.exists_cons
  have hnum := (hs.resolved c hc _ h c l List.suffix_rfl).numNonStaticFunc
  obtain ⟨e, he, hlen, hf⟩ := hp.fillVTableEntries_spec hs h hc List.prefix_rfl
    (hp.chain_length h hc)
    (List.length_replicate : (List.replicate (funcTable (c :: l)).length none).length = _)
  refine ⟨e, ⟨hlen, hf⟩, ?_⟩
  simp only [createVTable, hv, hnum, Int.toNat_natCast, he]
  rfl

end Accepted

/-! ## The tables of all classes -/

/-- The virtual tables of the classes, with the parents that `parent` gives. -/
def Tables (p : TopLevel) (s : Layout) (parent : ClassDef → Option String) (c : ClassDef) : Prop :=
  ∀ l, Chain (getParent p) c l → ∃ e, Filled l e
    ∧ (s.classes c.name).vtable = some ⟨"_" ++ c.name, parent c, c.name, e⟩

/-- Setting the virtual table of a class changes nothing else. -/
theorem setClass_vtable (s : Layout) (a : String) (vt : Option VTable) :
    (∀ b, SameNumbers s (s.setClass a { s.classes a with vtable := vt }) b)
      ∧ ∀ b, b ≠ a → (s.setClass a { s.classes a with vtable := vt }).classes b = s.classes b := by
  refine ⟨fun b => ?_, fun b hb => Function.update_of_ne hb _ _⟩
  unfold Layout.setClass
  by_cases hb : b = a
  · subst hb
    exact ⟨by simp, by simp, by simp, fun _ => rfl⟩
  · exact ⟨by simp [hb], by simp [hb], by simp [hb], fun _ => rfl⟩

theorem Accepted.createVTables {p : TopLevel} (hp : Accepted p) {s : Layout} (hs : LaidOut p s)
    (hv : ∀ a, (s.classes a).vtable = none) (hvs : s.vtables = []) :
    ∃ s', p.foldlM (createVTable p) s = some s' ∧ LaidOut p s'
      ∧ s'.vtables = p.map ClassDef.name ∧ ∀ c ∈ p, Tables p s' (fun _ => none) c := by
  obtain ⟨s', hs', hlay, hvs', -, hdone⟩ := Loop.foldlM_some
    (P := fun done s' => LaidOut p s' ∧ s'.vtables = done.map ClassDef.name
      ∧ (∀ a, a ∉ done.map ClassDef.name → (s'.classes a).vtable = none)
      ∧ ∀ c ∈ done, Tables p s' (fun _ => none) c)
    (l := p) (f := createVTable p) (s := s) ⟨hs, hvs, fun a _ => hv a, by simp⟩ (by
      rintro done c rest s1 hl ⟨hlay, hvs1, hnone, hdone⟩
      have hc : c ∈ p := by rw [hl]; simp
      have hnew : c.name ∉ done.map ClassDef.name := by
        have := hp.names
        rw [hl, List.map_append, List.map_cons, List.nodup_append] at this
        exact fun hm => this.2.2 _ hm _ List.mem_cons_self rfl
      obtain ⟨l, hch⟩ := hp.exists_chain hc
      obtain ⟨e, he, hcr⟩ := hp.createVTable_spec hlay hch hc (hnone _ hnew)
      obtain ⟨hsame, hother⟩ := setClass_vtable s1 c.name (some ⟨"_" ++ c.name, none, c.name, e⟩)
      refine ⟨_, hcr, hlay.congr (fun a => ?_) rfl, by simp [hvs1], fun a ha => ?_, fun d hd => ?_⟩
      · exact ⟨(hsame a).numNonStaticFunc, (hsame a).numVar, (hsame a).size, fun _ => rfl⟩
      · simp only [List.map_append, List.map_singleton, List.mem_append, List.mem_singleton,
          not_or] at ha
        exact (congrArg ClassInfo.vtable (hother a ha.2)).trans (hnone a ha.1)
      · intro l' hl'
        by_cases hdc : d.name = c.name
        · have hdp : d ∈ p := by
            rw [hl]
            rcases List.mem_append.1 hd with hd | hd
            · exact List.mem_append_left _ hd
            · rw [List.mem_singleton.1 hd]
              simp
          rw [hp.eq_of_name hdp hc hdc] at hl' ⊢
          rw [hl'.unique hch]
          exact ⟨e, he, by simp⟩
        · have hd' : d ∈ done := by
            rcases List.mem_append.1 hd with hd | hd
            · exact hd
            · exact absurd (by rw [List.mem_singleton.1 hd]) hdc
          obtain ⟨e', he', hv'⟩ := hdone d hd' l' hl'
          exact ⟨e', he', (congrArg ClassInfo.vtable (hother _ hdc)).trans hv'⟩)
  exact ⟨s', hs', hlay, hvs', hdone⟩

/-- The word for the parent of a class. -/
def parentName (p : TopLevel) (c : ClassDef) : Option String :=
  (getParent p c).map fun q => "_" ++ q.name

theorem Accepted.setVTableParents {p : TopLevel} (hp : Accepted p) {s : Layout}
    (hs : LaidOut p s) (ht : ∀ c ∈ p, Tables p s (fun _ => none) c) :
    ∃ s', p.foldlM (setVTableParent p) s = some s' ∧ LaidOut p s' ∧ s'.vtables = s.vtables
      ∧ ∀ c ∈ p, Tables p s' (parentName p) c := by
  obtain ⟨s', hs', hlay, hvs, hdone⟩ := Loop.foldlM_some
    (P := fun done s' => LaidOut p s' ∧ s'.vtables = s.vtables
      ∧ ∀ c ∈ p, Tables p s' (fun d => if d ∈ done then parentName p d else none) c)
    (l := p) (f := setVTableParent p) (s := s) ⟨hs, rfl, by simpa using ht⟩ (by
      rintro done c rest s1 hl ⟨hlay, hvs, htab⟩
      have hc : c ∈ p := by rw [hl]; simp
      cases hq : c.parent with
      | none =>
        have hpn : parentName p c = none := by simp [parentName, getParent, hq]
        refine ⟨s1, by simp [setVTableParent, hq], hlay, hvs, fun d hd l' hl' => ?_⟩
        obtain ⟨e, he, hv⟩ := htab d hd l' hl'
        refine ⟨e, he, hv.trans ?_⟩
        by_cases hdc : d = c
        · subst hdc
          simp [hpn]
        · simp [hdc]
      | some q =>
        obtain ⟨b, hb⟩ := Option.isSome_iff_exists.1 (hp.parents c hc (by simp [hq]))
        have hpn : parentName p c = some ("_" ++ b.name) := by simp [parentName, hb]
        obtain ⟨l, hch⟩ := hp.exists_chain hc
        obtain ⟨e, he, hv⟩ := htab c hc l hch
        obtain ⟨lb, hchb⟩ := hp.exists_chain (getParent_mem hb)
        obtain ⟨eb, -, hvb⟩ := htab b (getParent_mem hb) lb hchb
        obtain ⟨hsame, hother⟩ := setClass_vtable s1 c.name
          (some ⟨"_" ++ c.name, some ("_" ++ b.name), c.name, e⟩)
        have hstep : setVTableParent p s1 c = some (s1.setClass c.name { s1.classes c.name with
            vtable := some ⟨"_" ++ c.name, some ("_" ++ b.name), c.name, e⟩ }) := by
          simp [setVTableParent, hq, hv, hb, hvb]
        refine ⟨_, hstep, hlay.congr hsame rfl, hvs, fun d hd l' hl' => ?_⟩
        by_cases hdc : d.name = c.name
        · rw [hp.eq_of_name hd hc hdc] at hl' ⊢
          rw [hl'.unique hch]
          exact ⟨e, he, by simp [hpn]⟩
        · obtain ⟨e', he', hv'⟩ := htab d hd l' hl'
          have hne : d ≠ c := fun he => hdc (he ▸ rfl)
          refine ⟨e', he', (congrArg ClassInfo.vtable (hother _ hdc)).trans (hv'.trans ?_)⟩
          simp [hne])
  refine ⟨s', hs', hlay, hvs, fun c hc l hl => ?_⟩
  obtain ⟨e, he, hv⟩ := hdone c hc l hl
  exact ⟨e, he, by simpa [hc] using hv⟩

/-- The whole pass. -/
theorem Accepted.transPass1 {p : TopLevel} (hp : Accepted p) :
    ∃ s, TransPass1.visitTopLevel p = some s ∧ LaidOut p s ∧ s.vtables = p.map ClassDef.name
      ∧ ∀ c ∈ p, Tables p s (parentName p) c := by
  obtain ⟨s1, h1, hlay1, hv1, hvs1⟩ := hp.laidOut
  obtain ⟨s2, h2, hlay2, hvs2, ht2⟩ := hp.createVTables hlay1 hv1 hvs1
  obtain ⟨s3, h3, hlay3, hvs3, ht3⟩ := hp.setVTableParents hlay2 ht2
  refine ⟨s3, ?_, hlay3, hvs3.trans hvs2, ht3⟩
  unfold TransPass1.visitTopLevel
  rw [h1]
  simp only [Option.bind_eq_bind, Option.bind_some]
  rw [h2]
  exact h3

/-! ## The words -/

theorem mapM_map_some {α : Type} (ws : List α) : (ws.map some).mapM id = some ws := by
  induction ws with
  | nil => rfl
  | cons w ws ih => simp [ih]

/-- No entry of a filled table is left out, so the table can be printed. -/
theorem Filled.words {l : List ClassDef} {e : List (Option String)} (h : Filled l e)
    (hn : (funcTable l).Nodup) :
    ∃ ws, e.mapM id = some ws ∧ ∀ f ∈ funcTable l, ∃ o m, visible l f = some (o, m)
      ∧ ws[(funcTable l).idxOf f]? = some (funcLabel o.name f) := by
  have hall : ∀ x ∈ e, ∃ w, x = some w := by
    intro x hx
    obtain ⟨i, hi, rfl⟩ := List.getElem_of_mem hx
    have hi' : i < (funcTable l).length := h.1 ▸ hi
    obtain ⟨o, m, -, hw⟩ := h.2 _ (List.getElem_mem hi')
    rw [hn.idxOf_getElem, List.getElem?_eq_getElem hi] at hw
    exact ⟨_, Option.some.inj hw⟩
  obtain ⟨ws, rfl⟩ : ∃ ws : List String, e = ws.map some := by
    clear h
    induction e with
    | nil => exact ⟨[], rfl⟩
    | cons x e ih =>
      obtain ⟨w, rfl⟩ := hall x List.mem_cons_self
      obtain ⟨ws, rfl⟩ := ih fun y hy => hall y (List.mem_cons_of_mem _ hy)
      exact ⟨w :: ws, rfl⟩
  refine ⟨ws, mapM_map_some ws, fun f hf => ?_⟩
  obtain ⟨o, m, hv, hw⟩ := h.2 f hf
  refine ⟨o, m, hv, ?_⟩
  rw [List.getElem?_map, Option.map_eq_some_iff] at hw
  obtain ⟨w, hw, he⟩ := hw
  rw [hw, he]

/-- The words of the table of a class, as they are printed. -/
theorem emitVTable_spec {p : TopLevel} {v : ClassDef → VTable} {ws : ClassDef → List String} :
    ∀ (cs : List ClassDef) (stringConst : List String), (cs.map ClassDef.name).Nodup →
      (∀ c ∈ cs, (v c).name = "_" ++ c.name ∧ (v c).parent = parentName p c
        ∧ (v c).entries.mapM id = some (ws c)) →
      ∃ data, emitVTable stringConst (cs.map v) = some data
        ∧ (∀ e ∈ data, ∃ c ∈ cs, e.label = "_" ++ c.name)
        ∧ ∀ c ∈ cs, ∃ t, data.find? (·.label = "_" ++ c.name)
          = some ⟨"_" ++ c.name, (parentName p c).getD "0" :: t :: ws c⟩
  | [], _, _, _ => ⟨[], rfl, by simp, by simp⟩
  | c :: cs, stringConst, hn, hv => by
    rw [List.map_cons, List.nodup_cons] at hn
    obtain ⟨hname, hpar, hent⟩ := hv c List.mem_cons_self
    obtain ⟨data, hd, hlab, hfind⟩ := emitVTable_spec cs
      (getStringConstLabel stringConst (v c).className).2 hn.2
      fun d hd => hv d (List.mem_cons_of_mem _ hd)
    refine ⟨⟨"_" ++ c.name, (parentName p c).getD "0"
      :: (getStringConstLabel stringConst (v c).className).1 :: ws c⟩ :: data, ?_, ?_, ?_⟩
    · simp only [List.map_cons, emitVTable, hent, hd, hname, hpar]
      rfl
    · intro e he
      rcases List.mem_cons.1 he with rfl | he
      · exact ⟨c, List.mem_cons_self, rfl⟩
      · obtain ⟨d, hd, hde⟩ := hlab e he
        exact ⟨d, List.mem_cons_of_mem _ hd, hde⟩
    · intro d hd
      by_cases hdc : d.name = c.name
      · have hdc' : d = c := by
          rcases List.mem_cons.1 hd with rfl | hd
          · rfl
          · exact absurd (List.mem_map.2 ⟨d, hd, hdc⟩) hn.1
        rw [hdc']
        exact ⟨_, by rw [List.find?_cons_of_pos (by simp)]⟩
      · have hd' : d ∈ cs := (List.mem_cons.1 hd).resolve_left fun he => hdc (he ▸ rfl)
        obtain ⟨t, ht⟩ := hfind d hd'
        have hne : ¬ "_" ++ c.name = "_" ++ d.name := fun he =>
          hdc (String.append_right_inj "_" |>.1 he).symm
        exact ⟨t, by rw [List.find?_cons_of_neg (by simpa using hne), ht]⟩

theorem mapM_map_eq {α β γ : Type} {l : List α} {g : α → β} {f : β → Option γ} {v : α → γ}
    (h : ∀ a ∈ l, f (g a) = some (v a)) : (l.map g).mapM f = some (l.map v) := by
  induction l with
  | nil => rfl
  | cons a l ih =>
    rw [List.map_cons, List.mapM_cons, h a List.mem_cons_self,
      ih fun b hb => h b (List.mem_cons_of_mem _ hb)]
    rfl

/-- The table of the class `c` in the data segment. -/
def Printed (p : TopLevel) (data : List Emitted) (c : ClassDef) : Prop :=
  ∀ l, Chain (getParent p) c l → ∃ t ws, data.find? (·.label = "_" ++ c.name)
      = some ⟨"_" ++ c.name, (parentName p c).getD "0" :: t :: ws⟩
    ∧ ∀ f ∈ funcTable l, ∃ o m, visible l f = some (o, m)
      ∧ ws[(funcTable l).idxOf f]? = some (funcLabel o.name f)

theorem Accepted.printed {p : TopLevel} (hp : Accepted p) {s : Layout}
    (hvs : s.vtables = p.map ClassDef.name) (ht : ∀ c ∈ p, Tables p s (parentName p) c)
    (stringConst : List String) :
    ∃ vts data, s.getVtables = some vts ∧ emitVTable stringConst vts = some data
      ∧ ∀ c ∈ p, Printed p data c := by
  have hex : ∀ c ∈ p, ∃ (v : VTable) (ws : List String), (s.classes c.name).vtable = some v
      ∧ v.name = "_" ++ c.name ∧ v.parent = parentName p c ∧ v.entries.mapM id = some ws
      ∧ ∀ l, Chain (getParent p) c l → ∀ f ∈ funcTable l, ∃ o m, visible l f = some (o, m)
        ∧ ws[(funcTable l).idxOf f]? = some (funcLabel o.name f) := by
    intro c hc
    obtain ⟨l, hch⟩ := hp.exists_chain hc
    obtain ⟨e, he, hv⟩ := ht c hc l hch
    obtain ⟨ws, hws, hw⟩ := he.words (hp.funcTable_nodup (hp.chain_subset hch hc))
    refine ⟨_, ws, hv, rfl, rfl, hws, fun l' hl' => ?_⟩
    rw [hl'.unique hch]
    exact hw
  have : Nonempty VTable := ⟨⟨"", none, "", []⟩⟩
  choose! v ws hv hname hpar hent hw using hex
  obtain ⟨data, hd, -, hfind⟩ := emitVTable_spec p stringConst hp.names
    fun c hc => ⟨hname c hc, hpar c hc, hent c hc⟩
  refine ⟨p.map v, data, ?_, hd, fun c hc l hl => ?_⟩
  · unfold Layout.getVtables
    rw [hvs]
    exact mapM_map_eq hv
  · obtain ⟨t, ht⟩ := hfind c hc
    exact ⟨t, ws c, ht, hw c hc l hl⟩

/-! ## Following the parents -/

/-- The tables passed by following the parent words from `vp`. -/
def parentWords (data : List Emitted) : ℕ → String → Option (List String)
  | 0, _ => none
  | n + 1, vp => do
    let w ← wordAt data vp 0
    if w = "0" then some [vp] else (parentWords data n w).map (vp :: ·)

theorem label_ne_zero (a : String) : "_" ++ a ≠ "0" := by
  intro h
  have := congrArg String.toList h
  simp at this

section Follow

variable {p : TopLevel} {data : List Emitted} (hd : ∀ c ∈ p, Printed p data c) {c : ClassDef}
  {l : List ClassDef}
include hd

theorem wordAt_zero (h : Chain (getParent p) c l) (hc : c ∈ p) :
    wordAt data ("_" ++ c.name) 0 = some ((parentName p c).getD "0") := by
  obtain ⟨t, ws, hfind, -⟩ := hd c hc l h
  simp [wordAt, hfind]

theorem parentWords_eq (h : Chain (getParent p) c l) (hc : c ∈ p) : ∀ {n : ℕ}, l.length ≤ n →
    parentWords data n ("_" ++ c.name) = some (l.map fun a => "_" ++ a.name) := by
  induction h with
  | root hn =>
    intro n hlen
    obtain ⟨n, rfl⟩ := Nat.exists_eq_add_of_le' hlen
    simp [parentWords, wordAt_zero hd (.root hn) hc, parentName, hn]
  | step hq hch ih =>
    rename_i a b l
    intro n hlen
    obtain ⟨n, rfl⟩ := Nat.exists_eq_add_of_le' (Nat.le_trans (by simp) hlen : 1 ≤ n)
    simp only [parentWords, wordAt_zero hd (.step hq hch) hc, parentName, hq, Option.map_some,
      Option.getD_some, Option.bind_eq_bind, Option.bind_some, if_neg (label_ne_zero b.name)]
    rw [ih (getParent_mem hq) (by simpa using hlen)]
    rfl

theorem instanceofLoop_eq (hp : Accepted p) (h : Chain (getParent p) c l) (hc : c ∈ p)
    {d : ClassDef} (hdp : d ∈ p) : ∀ {n : ℕ}, l.length ≤ n →
    instanceofLoop data ("_" ++ d.name) n ("_" ++ c.name) = some (decide (d ∈ l)) := by
  have hlab : ∀ a ∈ p, ("_" ++ d.name = "_" ++ a.name ↔ d = a) := fun a ha =>
    ⟨fun he => hp.eq_of_name hdp ha (String.append_right_inj "_" |>.1 he), fun he => he ▸ rfl⟩
  induction h with
  | root hn =>
    rename_i a
    intro n hlen
    obtain ⟨n, rfl⟩ := Nat.exists_eq_add_of_le' hlen
    simp only [List.length_singleton, instanceofLoop, hlab a hc]
    by_cases hda : d = a
    · simp [hda]
    · simp [hda, wordAt_zero hd (.root hn) hc, parentName, hn]
  | step hq hch ih =>
    rename_i a b l
    intro n hlen
    obtain ⟨n, rfl⟩ := Nat.exists_eq_add_of_le' (Nat.le_trans (by simp) hlen : 1 ≤ n)
    simp only [instanceofLoop, hlab a hc]
    by_cases hda : d = a
    · simp [hda]
    · simp only [hda, if_false, wordAt_zero hd (.step hq hch) hc, parentName, hq, Option.map_some,
        Option.getD_some, Option.bind_eq_bind, Option.bind_some, if_neg (label_ne_zero b.name)]
      rw [ih (getParent_mem hq) (by simpa using hlen)]
      simp [hda]

end Follow

/-! ## Layout and dispatch -/

/-- The fields of an object of class `c`, those of its ancestors among them. -/
structure ObjectLayout (p : TopLevel) (s : Layout) (c : ClassDef) : Prop where
  /-- A field is a whole word of the object, behind the word for the virtual table. -/
  inside : ∀ a x t, Ancestor (getParent p) c a → .varDef x t ∈ a.fields →
    4 ≤ (s.symbols a.name x).offset ∧ 4 ∣ (s.symbols a.name x).offset
      ∧ (s.symbols a.name x).offset + 4 ≤ (s.classes c.name).size
  distinct : ∀ a x t a' x' t', Ancestor (getParent p) c a → .varDef x t ∈ a.fields →
    Ancestor (getParent p) c a' → .varDef x' t' ∈ a'.fields →
    (s.symbols a.name x).offset = (s.symbols a'.name x').offset → a = a' ∧ x = x'
  /-- Seen from `c` the field is the symbol it is in its class, with the offset it has there. -/
  inherited : ∀ a x t, Ancestor (getParent p) c a → .varDef x t ∈ a.fields →
    lookupVisible p c x = some (a, .varDef x t)

/-- A call of the method `f` on an object of class `c`, `o` having the declaration that `c` shows. -/
structure Dispatched (p : TopLevel) (s : Layout) (data : List Emitted) (c : ClassDef) (f : String)
    (o : ClassDef) : Prop where
  declared : Ancestor (getParent p) c o ∧ ∃ m ∈ o.fields, m.name = f ∧ m.IsMethod
  label : (s.symbols o.name f).functy = some ("_" ++ o.name ++ "." ++ f)
  word : wordAt data ("_" ++ c.name) (s.symbols o.name f).offset = (s.symbols o.name f).functy
  /-- `o` is the most derived of the classes that declare `f`, and the offset is the same in all. -/
  offset : ∀ a m, Ancestor (getParent p) c a → m ∈ a.fields → m.name = f →
    m.IsMethod ∧ Ancestor (getParent p) o a
      ∧ (s.symbols a.name f).offset = (s.symbols o.name f).offset

namespace Accepted

variable {p : TopLevel} (hp : Accepted p) {c : ClassDef} {s : Layout} (hs : LaidOut p s)
include hp

/-- All declarations of a method along a chain are methods, the one that is seen coming first. -/
theorem visible_first {l : List ClassDef} {f : String} {o a : ClassDef} {m m' : Member}
    (h : Chain (getParent p) c l) (hc : c ∈ p) (hv : visible l f = some (o, m)) (hm : m.IsMethod)
    (ha : a ∈ l) (hla : a.lookup f = some m') : m'.IsMethod ∧ Ancestor (getParent p) o a := by
  induction h generalizing o m with
  | root hn =>
    rename_i b
    rw [List.mem_singleton] at ha
    subst ha
    rw [visible_cons, hla] at hv
    cases hv
    exact ⟨hm, .refl⟩
  | step hq hch ih =>
    rename_i b q l
    rw [visible_cons] at hv
    cases hl : b.lookup f with
    | none =>
      rw [hl] at hv
      rcases List.mem_cons.1 ha with rfl | ha
      · rw [hla] at hl
        cases hl
      · exact ih (getParent_mem hq) hv hm ha
    | some m0 =>
      rw [hl] at hv
      cases hv
      rcases List.mem_cons.1 ha with rfl | ha
      · rw [hla] at hl
        cases hl
        exact ⟨hm, .refl⟩
      · -- The parent shows a declaration too, and `b` may only override a method.
        obtain ⟨⟨o', m1⟩, hv1⟩ : ∃ om, visible l f = some om := by
          rw [← Option.isSome_iff_exists, visible, List.findSome?_isSome_iff]
          exact ⟨a, ha, by simp [hla]⟩
        have hm1 : m1.IsMethod := by
          obtain ⟨hmb, hmf⟩ := (hp.lookup_iff hc).1 hl
          have hv' := hv1
          rw [← hp.lookupVisible_eq hch (getParent_mem hq), ← hmf] at hv'
          exact (hp.overrides _ hc q hq m hmb o' m1 hv').2
        refine ⟨(ih (getParent_mem hq) hv1 hm1 ha).1, .head hq ?_⟩
        exact hch.mem_iff.1 ha

include hs

theorem objectLayout (hc : c ∈ p) : ObjectLayout p s c := by
  obtain ⟨l, hch⟩ := hp.exists_chain hc
  have hsize : (s.classes c.name).size = 4 + 4 * ((fieldTable l).length : ℕ) := by
    obtain ⟨l, rfl⟩ := hch.exists_cons
    exact (hs.resolved c hc _ hch c l List.suffix_rfl).size
  have hmem : ∀ {a x t}, Ancestor (getParent p) c a → .varDef x t ∈ a.fields →
      (a.name, x) ∈ fieldTable l := fun ha hx =>
    mem_fieldTable.2 ⟨_, hch.mem_iff.2 ha, rfl, mem_vars.2 ⟨_, hx, rfl, _, rfl⟩⟩
  have hoff : ∀ {a x t}, Ancestor (getParent p) c a → .varDef x t ∈ a.fields →
      (s.symbols a.name x).offset = 4 + 4 * ((fieldTable l).idxOf (a.name, x) : ℕ) := by
    intro a x t ha hx
    obtain ⟨la, hla, hsuf⟩ := hch.suffix (hch.mem_iff.2 ha)
    obtain ⟨la, rfl⟩ := hla.exists_cons
    have hap := hp.chain_subset hch hc (hch.mem_iff.2 ha)
    have hxv : x ∈ TransPass1.vars a := mem_vars.2 ⟨_, hx, rfl, t, rfl⟩
    rw [(hs.placed a hap la hla).var x hxv, (fieldTable_take hsuf).idxOf_eq_of_mem
      (mem_fieldTable.2 ⟨a, List.mem_cons_self, rfl, hxv⟩)]
  refine ⟨fun a x t ha hx => ?_, fun a x t a' x' t' ha hx ha' hx' he => ?_, fun a x t ha hx => ?_⟩
  · have hlt := List.idxOf_lt_length_of_mem (hmem ha hx)
    rw [hoff ha hx, hsize]
    omega
  · rw [hoff ha hx, hoff ha' hx'] at he
    have he' : (fieldTable l).idxOf (a.name, x) = (fieldTable l).idxOf (a'.name, x') := by omega
    obtain ⟨hn, rfl⟩ := Prod.mk.inj ((List.idxOf_inj (hmem ha hx)).1 he')
    exact ⟨hp.eq_of_name (hp.chain_subset hch hc (hch.mem_iff.2 ha))
      (hp.chain_subset hch hc (hch.mem_iff.2 ha')) hn, rfl⟩
  · rw [hp.lookupVisible_eq hch hc]
    exact hp.visible_var hch hc (hch.mem_iff.2 ha) hx

theorem dispatched {data : List Emitted} (hd : ∀ c ∈ p, Printed p data c) (hc : c ∈ p)
    {f : String} {o : ClassDef} {m : Member} (hv : lookupVisible p c f = some (o, m))
    (hm : m.IsMethod) : Dispatched p s data c f o := by
  obtain ⟨l, hch⟩ := hp.exists_chain hc
  have hsub := hp.chain_subset hch hc
  rw [hp.lookupVisible_eq hch hc] at hv
  obtain ⟨ho, hfo⟩ := hp.mem_funcTable_of_visible hsub hv hm
  have hoff : ∀ {a}, a ∈ l → f ∈ methods a →
      (s.symbols a.name f).offset = 8 + 4 * ((funcTable l).idxOf f : ℕ)
        ∧ (s.symbols a.name f).functy = some (funcLabel a.name f) := by
    intro a ha hfa
    obtain ⟨la, hla, hsuf⟩ := hch.suffix ha
    obtain ⟨la, rfl⟩ := hla.exists_cons
    have hpl := hs.placed a (hsub ha) la hla
    rw [hpl.method f hfa, (funcTable_take hsuf).idxOf_eq_of_mem
      (mem_funcTable.2 ⟨a, List.mem_cons_self, hfa⟩)]
    exact ⟨rfl, hpl.functy f hfa⟩
  have hft : f ∈ funcTable l := mem_funcTable.2 ⟨o, ho, hfo⟩
  refine ⟨⟨hch.mem_iff.1 ho, mem_methods.1 hfo⟩, ?_, ?_, fun a m' ha hm' hmf => ?_⟩
  · obtain ⟨m', hm', hmf, hmeth⟩ := mem_methods.1 hfo
    rw [(hoff ho hfo).2, funcLabel, if_neg]
    exact fun he => hp.main o (hsub ho) he.1 m' hm' (hmf.trans he.2) hmeth
  · obtain ⟨t, ws, hfind, hws⟩ := hd c hc l hch
    obtain ⟨o', m', hv', hw⟩ := hws f hft
    rw [hv] at hv'
    cases hv'
    rw [(hoff ho hfo).1, (hoff ho hfo).2, ← hw]
    have hidx : ((8 + 4 * ((funcTable l).idxOf f : ℤ)) / 4).toNat = (funcTable l).idxOf f + 2 := by
      omega
    have hmod : (8 + 4 * ((funcTable l).idxOf f : ℤ)) % 4 = 0 := by omega
    have hpos : 0 ≤ 8 + 4 * ((funcTable l).idxOf f : ℤ) := by omega
    simp only [wordAt, hfind, Option.bind_eq_bind, Option.bind_some, WORD_SIZE, hidx, hmod, hpos,
      and_self, if_true]
    rfl
  · have hal := hch.mem_iff.2 ha
    have hla := (hp.lookup_iff (hsub hal)).2 ⟨hm', hmf⟩
    obtain ⟨hmeth, hanc⟩ := hp.visible_first hch hc hv hm hal hla
    refine ⟨hmeth, hanc, ?_⟩
    rw [(hoff hal (mem_methods.2 ⟨m', hm', hmf, hmeth⟩)).1, (hoff ho hfo).1]

end Accepted

/-- Every program that `BuildSym` accepts is laid out and its tables are printed. Fields of an
object have their own words, methods are dispatched to the nearest declaration, and the parent
words lead through the ancestors of a class and no others. -/
theorem dynamic_dispatch {p : TopLevel} (h : BuildSym.visitTopLevel p = .ok ())
    (stringConst : List String) :
    ∃ s vts data, TransPass1.visitTopLevel p = some s ∧ s.getVtables = some vts
      ∧ emitVTable stringConst vts = some data
      ∧ (∀ c ∈ p, ObjectLayout p s c)
      ∧ (∀ c ∈ p, ∀ f o m, lookupVisible p c f = some (o, m) → m.IsMethod →
        Dispatched p s data c f o)
      ∧ (∀ c ∈ p, ∃ l : List ClassDef, (∀ a, a ∈ l ↔ Ancestor (getParent p) c a)
        ∧ ∀ n ≥ p.length,
          parentWords data n ("_" ++ c.name) = some (l.map fun a => "_" ++ a.name))
      ∧ ∀ c ∈ p, ∀ d ∈ p, ∀ n ≥ p.length, ∃ b,
        instanceofLoop data ("_" ++ d.name) n ("_" ++ c.name) = some b
          ∧ (b = true ↔ Ancestor (getParent p) c d) := by
  have hp := visitTopLevel_accepted h
  obtain ⟨s, hs, hlay, hvs, ht⟩ := hp.transPass1
  obtain ⟨vts, data, hvts, hdata, hd⟩ := hp.printed hvs ht stringConst
  refine ⟨s, vts, data, hs, hvts, hdata, fun c hc => hp.objectLayout hlay hc,
    fun c hc f o m hv hm => hp.dispatched hlay hd hc hv hm, fun c hc => ?_,
    fun c hc d hdp n hn => ?_⟩
  · obtain ⟨l, hch⟩ := hp.exists_chain hc
    exact ⟨l, fun a => hch.mem_iff, fun n hn =>
      parentWords_eq hd hch hc ((hp.chain_length hch hc).trans hn)⟩
  · obtain ⟨l, hch⟩ := hp.exists_chain hc
    refine ⟨_, instanceofLoop_eq hd hp hch hc hdp ((hp.chain_length hch hc).trans hn), ?_⟩
    rw [decide_eq_true_eq]
    exact hch.mem_iff

/-- A subclass declared before its parent, with an override and a field of its own. -/
def shapes : TopLevel :=
  [⟨"Square", some "Shape", [.varDef "side" .int, .methodDef "area" false .int []]⟩,
    ⟨"Main", none, [.methodDef "main" true .void []]⟩,
    ⟨"Shape", none, [.methodDef "name" false .string [], .methodDef "area" false .int [],
      .varDef "id" .int]⟩]

/-- A call through `Shape` of a method of a `Square`. -/
theorem dynamic_dispatch_shapes :
    BuildSym.visitTopLevel shapes = .ok () ∧ ∃ s vts data,
      TransPass1.visitTopLevel shapes = some s ∧ s.getVtables = some vts
        ∧ emitVTable [] vts = some data
        ∧ wordAt data "_Square" (s.symbols "Shape" "area").offset = some "_Square.area" := by
  have h : BuildSym.visitTopLevel shapes = .ok () := rfl
  obtain ⟨s, vts, data, hs, hv, hd, -, hdisp, -⟩ := dynamic_dispatch h []
  have hsq := hdisp (shapes.get ⟨0, by decide⟩) (List.get_mem _ _) "area"
    (shapes.get ⟨0, by decide⟩) (.methodDef "area" false .int []) rfl trivial
  have hoff := (hsq.offset (shapes.get ⟨2, by decide⟩) (.methodDef "area" false .int [])
    (.single rfl) (by decide) rfl).2.2
  have hword := hsq.word
  rw [hsq.label, ← hoff] at hword
  exact ⟨h, s, vts, data, hs, hv, hd, hword⟩

end Decaf

end CacheCPU
