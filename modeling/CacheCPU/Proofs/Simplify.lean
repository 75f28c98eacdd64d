import CacheCPU.Lib.Loop
import CacheCPU.Proofs.Blocks

/-!
# `simplify`

A block that is cancelled and that something goes to is a lone branch. These lead to later blocks or
to one that is kept, so every trace ends, and the graph of the kept blocks does what the graph did.
-/

namespace CacheCPU

namespace Decaf

namespace FlowGraph

open Trace

/-- Nothing but a branch. -/
def Idle (b : BasicBlock) : Prop := b.endKind = .byBranch ∧ b.tacList = []

instance (b : BasicBlock) : Decidable (Idle b) := inferInstanceAs (Decidable (_ ∧ _))

/-- What execution relies on in a graph. -/
structure Sound (bbs : List BasicBlock) : Prop where
  ops : ∀ b ∈ bbs, ∃ ops : List Instr, b.tacList = ops.map .instr
  var : ∀ b ∈ bbs, b.endKind = .byBeqz ∨ b.endKind = .byBnez → ∃ c, b.var = some c
  next : ∀ b ∈ bbs, ∀ i ∈ succs b, ∃ j : ℕ, i = j ∧ j < bbs.length

/-- The graph before `simplify`. -/
structure Gathered (bbs : List BasicBlock) : Prop extends Sound bbs where
  num : ∀ (k : ℕ) (b : BasicBlock), bbs[k]? = some b → b.bbNum = k
  ahead : ∀ (k j : ℕ) (b b' : BasicBlock), bbs[k]? = some b → Idle b → b.next0 = j →
    bbs[j]? = some b' → k < j ∨ ¬ Idle b'

/-- The block at `k` is not cancelled. -/
def Kept (bbs : List BasicBlock) (k : ℕ) : Prop :=
  ∃ b, bbs[k]? = some b ∧ 0 < inDegree bbs k ∧ ¬ Idle b

section Cancel

variable {bbs : List BasicBlock}

theorem cancel_get (bbs : List BasicBlock) (k : ℕ) : (cancel bbs)[k]? = bbs[k]?.map fun b =>
    { b with cancelled := decide (inDegree bbs k ≤ 0 ∨ Idle b) } := by
  unfold cancel
  rw [List.getElem?_mapIdx]
  congr 1

theorem length_cancel (bbs : List BasicBlock) : (cancel bbs).length = bbs.length := by
  unfold cancel
  exact List.length_mapIdx

theorem inDegree_pos {b : BasicBlock} (hb : b ∈ bbs) {i : ℤ} (hi : i ∈ succs b) :
    0 < inDegree bbs i := by
  have hc : 0 < (succs b).count i := List.count_pos_iff.2 hi
  have hsum : 0 < (bbs.map fun bb => (succs bb).count i).sum :=
    List.sum_pos_iff_exists_pos_nat.2 ⟨_, List.mem_map_of_mem hb, hc⟩
  unfold inDegree
  omega

theorem Idle.mem_succs {b : BasicBlock} (h : Idle b) : b.next0 ∈ succs b := by
  unfold succs
  rw [h.1]
  exact List.mem_singleton.2 rfl

end Cancel

/-- The code of the block at `k`. -/
def tacsAt (bbs : List BasicBlock) (k : ℕ) : List Tac := (bbs[k]?.map (·.tacList)).getD []

theorem tacsAt_eq {bbs : List BasicBlock} {k : ℕ} {b : BasicBlock} (h : bbs[k]? = some b) :
    tacsAt bbs k = b.tacList := by
  unfold tacsAt
  rw [h]
  rfl

theorem enter_natCast {σ : Type} {bbs : List BasicBlock} {k : ℕ} (h : k < bbs.length) (x : σ) :
    enter bbs k x = some (.silent ((k : ℤ), tacsAt bbs k, x)) := by
  unfold enter
  rw [getBlock_natCast, List.getElem?_eq_getElem h, tacsAt_eq (List.getElem?_eq_getElem h)]
  rfl

/-- The trace from `i` ends in `j`. -/
structure Leads (bbs : List BasicBlock) (i : ℤ) (j : ℕ) : Prop where
  trace : traceFrom (cancel bbs) (bbs.length + 1) i = some (j : ℤ)
  kept : Kept bbs j
  quiet : ∀ {σ : Type} (M : Machine σ) (x : σ), ∃ st, enter bbs i x = some (.silent st)
    ∧ Quiet (graphStep M bbs) st ((j : ℤ), tacsAt bbs j, x)

section Traces

variable {bbs : List BasicBlock} (h : Gathered bbs)
include h

theorem traceFrom_succ {n i : ℕ} (hi : i < bbs.length) (hd : 0 < inDegree bbs i) :
    traceFrom (cancel bbs) (n + 1) i
      = if Idle bbs[i] then traceFrom (cancel bbs) n bbs[i].next0 else some (i : ℤ) := by
  have hb := List.getElem?_eq_getElem hi
  have hd' : ¬ inDegree bbs i ≤ 0 := by omega
  rw [traceFrom, getBlock_natCast, cancel_get, hb]
  simp [hd', h.num i _ hb]

/-- The trace goes forward until it comes to a block that is kept, or goes back to one. -/
theorem traceFrom_spec : ∀ (n i : ℕ), i < bbs.length → 0 < inDegree bbs i →
    bbs.length - i < n → ∃ j : ℕ, traceFrom (cancel bbs) n i = some (j : ℤ) ∧ Kept bbs j
      ∧ ∀ {σ : Type} (M : Machine σ) (x : σ),
        Quiet (graphStep M bbs) ((i : ℤ), tacsAt bbs i, x) ((j : ℤ), tacsAt bbs j, x)
  | 0, i, _, _, hn => by omega
  | n + 1, i, hi, hd, hn => by
    have hb := List.getElem?_eq_getElem hi
    rw [traceFrom_succ h hi hd]
    by_cases hidle : Idle bbs[i]
    · have hmem := List.getElem_mem hi
      obtain ⟨j, hj, hjl⟩ := h.next _ hmem _ hidle.mem_succs
      have hdj : 0 < inDegree bbs j := hj ▸ inDegree_pos hmem hidle.mem_succs
      have hstep : ∀ {σ : Type} (M : Machine σ) (x : σ), graphStep M bbs ((i : ℤ), tacsAt bbs i, x)
          = some (.silent ((j : ℤ), tacsAt bbs j, x)) := by
        intro σ M x
        rw [tacsAt_eq hb, hidle.2, graphStep_byBranch M (by rw [getBlock_natCast, hb]) hidle.1, hj,
          enter_natCast hjl]
      rw [if_pos hidle, hj]
      rcases h.ahead i j _ _ hb hidle hj (List.getElem?_eq_getElem hjl) with hlt | hno
      · obtain ⟨k, hk, hkept, hq⟩ := traceFrom_spec n j hjl hdj (by omega)
        exact ⟨k, hk, hkept, fun M x => .head (hstep M x) (hq M x)⟩
      · obtain ⟨m, rfl⟩ : ∃ m, n = m + 1 := ⟨n - 1, by omega⟩
        refine ⟨j, ?_, ⟨_, List.getElem?_eq_getElem hjl, hdj, hno⟩,
          fun M x => .head (hstep M x) (.refl _)⟩
        rw [traceFrom_succ h hjl hdj, if_neg hno]
    · rw [if_neg hidle]
      exact ⟨i, rfl, ⟨_, hb, hd, hidle⟩, fun M x => .refl _⟩

theorem leads_of {b : BasicBlock} (hb : b ∈ bbs) {i : ℤ} (hi : i ∈ succs b) :
    ∃ j, Leads bbs i j := by
  obtain ⟨k, rfl, hk⟩ := h.next b hb i hi
  obtain ⟨j, hj, hkept, hq⟩ := traceFrom_spec h (bbs.length + 1) k hk (inDegree_pos hb hi) (by omega)
  exact ⟨j, hj, hkept, fun M x => ⟨_, enter_natCast hk x, hq M x⟩⟩

end Traces

/-! ## The kept blocks -/

/-- The place of the block at `k` among those that are kept. -/
def newNum (bbs : List BasicBlock) (k : ℕ) : ℕ :=
  ((cancel bbs).take k).countP fun b => ¬ b.cancelled

/-- The block `b` and what is made of it. -/
inductive Thinned (bbs : List BasicBlock) (b b' : BasicBlock) : Prop
  | ret (hk : b.endKind = .byReturn) (hk' : b'.endKind = .byReturn)
  | branch {j : ℕ} (hk : b.endKind = .byBranch) (hk' : b'.endKind = .byBranch)
      (h0 : Leads bbs b.next0 j) (h0' : b'.next0 = newNum bbs j)
  | merged {j : ℕ} (hk : b.endKind = .byBeqz ∨ b.endKind = .byBnez)
      (hk' : b'.endKind = .byBranch) (h0 : Leads bbs b.next0 j) (h1 : Leads bbs b.next1 j)
      (h0' : b'.next0 = newNum bbs j)
  | test {i j : ℕ} (hk : b.endKind = .byBeqz ∨ b.endKind = .byBnez)
      (hk' : b'.endKind = b.endKind) (h0 : Leads bbs b.next0 i) (h1 : Leads bbs b.next1 j)
      (h0' : b'.next0 = newNum bbs i) (h1' : b'.next1 = newNum bbs j)

theorem filter_get {α : Type} (p : α → Bool) {l : List α} {i : ℕ} {a : α} (hi : l[i]? = some a)
    (ha : p a) : (l.filter p)[(l.take i).countP p]? = some a := by
  obtain ⟨hlt, rfl⟩ := List.getElem?_eq_some_iff.1 hi
  conv_lhs => rw [← List.take_append_drop i l, List.drop_eq_getElem_cons hlt]
  rw [List.filter_append, List.filter_cons_of_pos ha, List.countP_eq_length_filter]
  simp

theorem filter_index {α : Type} (p : α → Bool) : ∀ {l : List α} {n : ℕ} {a : α},
    (l.filter p)[n]? = some a → ∃ i : ℕ, l[i]? = some a ∧ p a ∧ n = (l.take i).countP p
  | [], _, _, h => by simp at h
  | x :: l, n, a, h => by
    by_cases hx : p x
    · rw [List.filter_cons_of_pos hx] at h
      cases n with
      | zero =>
        obtain rfl := Option.some.inj h
        exact ⟨0, rfl, hx, rfl⟩
      | succ n =>
        obtain ⟨i, hi, ha, hn⟩ := filter_index p h
        exact ⟨i + 1, hi, ha, by rw [List.take_succ_cons, List.countP_cons_of_pos hx, hn]⟩
    · rw [List.filter_cons_of_neg hx] at h
      obtain ⟨i, hi, ha, hn⟩ := filter_index p h
      exact ⟨i + 1, hi, ha, by rw [List.take_succ_cons, List.countP_cons_of_neg hx, hn]⟩

section Simplify

variable {bbs : List BasicBlock} (h : Gathered bbs)

theorem kept_iff {k : ℕ} : Kept bbs k ↔ ∃ c, (cancel bbs)[k]? = some c ∧ c.cancelled = false := by
  unfold Kept
  rw [cancel_get]
  constructor
  · rintro ⟨b, hb, hd, hi⟩
    rw [hb]
    exact ⟨_, rfl, by simp [hi]; omega⟩
  · rintro ⟨c, hc, hcan⟩
    obtain ⟨b, hb, rfl⟩ := Option.map_eq_some_iff.1 hc
    simp only [decide_eq_false_iff_not, not_or] at hcan
    exact ⟨b, hb, by omega, hcan.2⟩

include h

omit h in
theorem redirect_byBranch {c : BasicBlock} (hc : c.cancelled = false) (hk : c.endKind = .byBranch)
    {j : ℕ} (hj : Leads bbs c.next0 j) :
    redirect (cancel bbs) c = some { c with next0 := j, next1 := j } := by
  unfold redirect
  rw [length_cancel]
  simp [hc, hk, hj.trace]

omit h in
theorem redirect_test {c : BasicBlock} (hc : c.cancelled = false)
    (hk : c.endKind = .byBeqz ∨ c.endKind = .byBnez) {i j : ℕ} (hi : Leads bbs c.next0 i)
    (hj : Leads bbs c.next1 j) : redirect (cancel bbs) c = some { c with
      next0 := i, next1 := j, endKind := if i = j then .byBranch else c.endKind } := by
  unfold redirect
  rw [length_cancel]
  rcases hk with hk | hk <;>
    simp only [hc, hk, hi.trace, hj.trace, Int.natCast_inj, Bool.false_eq_true, ↓reduceIte,
      Option.pure_def, Option.bind_eq_bind, Option.bind_some]

/-- The third loop, for one block. -/
theorem redirect_of {k : ℕ} {c : BasicBlock} (hc : (cancel bbs)[k]? = some c) :
    ∃ r, redirect (cancel bbs) c = some r ∧ r.cancelled = c.cancelled ∧ r.bbNum = k
      ∧ r.tacList = c.tacList ∧ r.var = c.var ∧ (c.cancelled = false →
        (c.endKind = .byReturn ∧ r.endKind = .byReturn)
        ∨ (c.endKind = .byBranch ∧ r.endKind = .byBranch
          ∧ ∃ j : ℕ, Leads bbs c.next0 j ∧ r.next0 = j ∧ r.next1 = j)
        ∨ ((c.endKind = .byBeqz ∨ c.endKind = .byBnez) ∧ ∃ i j : ℕ, Leads bbs c.next0 i
          ∧ Leads bbs c.next1 j ∧ r.next0 = i ∧ r.next1 = j
          ∧ r.endKind = if i = j then .byBranch else c.endKind)) := by
  rw [cancel_get] at hc
  obtain ⟨b, hb, hbc⟩ := Option.map_eq_some_iff.1 hc
  have hnum : c.bbNum = k := by
    rw [← hbc]
    exact h.num k b hb
  have hleads : ∀ i ∈ succs c, ∃ j, Leads bbs i j := fun i hi =>
    leads_of h (List.mem_of_getElem? hb) (by rwa [← hbc] at hi)
  by_cases hcan : c.cancelled = true
  · exact ⟨c, by simp [redirect, hcan], rfl, hnum, rfl, rfl, fun hf => by simp [hf] at hcan⟩
  · rw [Bool.not_eq_true] at hcan
    have hkind : c.endKind = .byReturn ∨ c.endKind = .byBranch
        ∨ (c.endKind = .byBeqz ∨ c.endKind = .byBnez) := by
      cases c.endKind <;> simp
    rcases hkind with hk | hk | hk
    · exact ⟨c, by simp [redirect, hcan, hk], rfl, hnum, rfl, rfl, fun _ => .inl ⟨hk, hk⟩⟩
    · obtain ⟨j, hj⟩ := hleads c.next0 (by simp [succs, hk])
      exact ⟨_, redirect_byBranch hcan hk hj, rfl, hnum, rfl, rfl,
        fun _ => .inr (.inl ⟨hk, hk, j, hj, rfl, rfl⟩)⟩
    · obtain ⟨i, hi⟩ := hleads c.next0 (by rcases hk with hk | hk <;> simp [succs, hk])
      obtain ⟨j, hj⟩ := hleads c.next1 (by rcases hk with hk | hk <;> simp [succs, hk])
      exact ⟨_, redirect_test hcan hk hi hj, rfl, hnum, rfl, rfl,
        fun _ => .inr (.inr ⟨hk, i, j, hi, hj, rfl, rfl, rfl⟩)⟩

omit h in
theorem countP_take {rs : List BasicBlock}
    (hrs : rs.map (·.cancelled) = (cancel bbs).map (·.cancelled)) (k : ℕ) :
    ((rs.take k).countP fun b => ¬ b.cancelled) = newNum bbs k := by
  have := congrArg (fun l => (l.take k).countP fun c => decide ¬ c = true) hrs
  rw [← List.map_take, ← List.map_take, List.countP_map, List.countP_map] at this
  exact this

omit h in
theorem newBBNum_of {rs : List BasicBlock}
    (hrs : rs.map (·.cancelled) = (cancel bbs).map (·.cancelled)) {j : ℕ} (hj : Kept bbs j) :
    newBBNum rs j = some (newNum bbs j : ℤ) := by
  obtain ⟨c, hc, hcan⟩ := kept_iff.1 hj
  have hr : (rs.map (·.cancelled))[j]? = some false := by
    rw [hrs, List.getElem?_map, hc, Option.map_some, hcan]
  rw [List.getElem?_map] at hr
  obtain ⟨r, hr, hrc⟩ := Option.map_eq_some_iff.1 hr
  unfold newBBNum
  rw [getBlock_natCast, hr]
  simp only [Option.bind_eq_bind, Option.bind_some, hrc, Int.toNat_natCast, countP_take hrs]
  rfl

omit h in
theorem renumber_next {rs : List BasicBlock}
    (hrs : rs.map (·.cancelled) = (cancel bbs).map (·.cancelled)) {r : BasicBlock} {k i j : ℕ}
    (hk : Kept bbs k) (hi : Kept bbs i) (hj : Kept bbs j) (hnum : r.bbNum = k) (h0 : r.next0 = i)
    (h1 : r.next1 = j) (hne : r.endKind ≠ .byReturn) : renumber rs r = some { r with
      bbNum := newNum bbs k, next0 := newNum bbs i, next1 := newNum bbs j } := by
  unfold renumber
  rw [hnum, h0, h1, newBBNum_of hrs hk, newBBNum_of hrs hi, newBBNum_of hrs hj]
  simp [hne]

omit h in
theorem renumber_byReturn {rs : List BasicBlock}
    (hrs : rs.map (·.cancelled) = (cancel bbs).map (·.cancelled)) {r : BasicBlock} {k : ℕ}
    (hk : Kept bbs k) (hnum : r.bbNum = k) (hr : r.endKind = .byReturn) :
    renumber rs r = some { r with bbNum := newNum bbs k } := by
  unfold renumber
  rw [hnum, newBBNum_of hrs hk]
  simp [hr]

/-- The last loop, for one block. -/
theorem renumber_of {rs : List BasicBlock}
    (hrs : rs.map (·.cancelled) = (cancel bbs).map (·.cancelled)) {k : ℕ} {c r : BasicBlock}
    (hc : (cancel bbs)[k]? = some c) (hcan : c.cancelled = false)
    (hr : redirect (cancel bbs) c = some r) :
    ∃ b', renumber rs r = some b' ∧ b'.tacList = c.tacList ∧ b'.var = c.var ∧ Thinned bbs c b' := by
  obtain ⟨r', hr', -, hnum, htac, hvar, hend⟩ := redirect_of h hc
  rw [hr] at hr'
  cases hr'
  have hk : Kept bbs k := kept_iff.2 ⟨c, hc, hcan⟩
  have hto : ∀ {i j : ℕ}, Kept bbs i → Kept bbs j → r.next0 = i → r.next1 = j →
      r.endKind ≠ .byReturn → renumber rs r = some { r with
        bbNum := newNum bbs k, next0 := newNum bbs i, next1 := newNum bbs j } :=
    fun hi hj h0 h1 hne => renumber_next hrs hk hi hj hnum h0 h1 hne
  rcases hend hcan with ⟨hc, hr⟩ | ⟨hc, hr, j, hj, h0, h1⟩ | ⟨hc, i, j, hi, hj, h0, h1, hr⟩
  · exact ⟨_, renumber_byReturn hrs hk hnum hr, htac, hvar, .ret hc hr⟩
  · exact ⟨_, hto hj.kept hj.kept h0 h1 (by simp [hr]), htac, hvar, .branch hc hr hj rfl⟩
  · by_cases hij : i = j
    · subst hij
      rw [if_pos rfl] at hr
      exact ⟨_, hto hi.kept hj.kept h0 h1 (by simp [hr]), htac, hvar, .merged hc hr hi hj rfl⟩
    · rw [if_neg hij] at hr
      refine ⟨_, hto hi.kept hj.kept h0 h1 ?_, htac, hvar, .test hc hr hi hj rfl rfl⟩
      rcases hc with hc | hc <;> simp [hr, hc]

omit h in
/-- `cancel` changes nothing that matters to what is made of a block. -/
theorem Thinned.of_cancel {k : ℕ} {c b' : BasicBlock} (hc : (cancel bbs)[k]? = some c)
    (ht : Thinned bbs c b') :
    ∃ b, bbs[k]? = some b ∧ c.tacList = b.tacList ∧ c.var = b.var ∧ Thinned bbs b b' := by
  rw [cancel_get] at hc
  obtain ⟨b, hb, rfl⟩ := Option.map_eq_some_iff.1 hc
  refine ⟨b, hb, rfl, rfl, ?_⟩
  cases ht with
  | ret hk hk' => exact .ret hk hk'
  | branch hk hk' h0 h0' => exact .branch hk hk' h0 h0'
  | merged hk hk' h0 h1 h0' => exact .merged hk hk' h0 h1 h0'
  | test hk hk' h0 h1 h0' h1' => exact .test hk hk' h0 h1 h0' h1'

section Redirects

variable {rs : List BasicBlock} (hlen : rs.length = (cancel bbs).length)
  (hget : ∀ (k : ℕ) (c : BasicBlock), (cancel bbs)[k]? = some c →
    ∃ r, rs[k]? = some r ∧ redirect (cancel bbs) c = some r)
include hlen hget

theorem redirects_cancelled : rs.map (·.cancelled) = (cancel bbs).map (·.cancelled) := by
  refine List.ext_getElem? fun k => ?_
  rw [List.getElem?_map, List.getElem?_map]
  cases hc : (cancel bbs)[k]? with
  | none =>
    rw [List.getElem?_eq_none_iff] at hc
    rw [List.getElem?_eq_none (by omega)]
  | some c =>
    obtain ⟨r, hr, hrc⟩ := hget k c hc
    obtain ⟨r', hr', hcan, -⟩ := redirect_of h hc
    rw [hrc] at hr'
    cases hr'
    rw [hr, Option.map_some, Option.map_some, hcan]

/-- What stands at a place of the new graph comes from a kept block. -/
theorem redirects_at {n : ℕ} {r : BasicBlock}
    (hr : (rs.filter fun b => ¬ b.cancelled)[n]? = some r) :
    ∃ (k : ℕ) (c : BasicBlock), (cancel bbs)[k]? = some c ∧ c.cancelled = false
      ∧ redirect (cancel bbs) c = some r ∧ n = newNum bbs k := by
  obtain ⟨k, hk, hcan, hn⟩ := filter_index _ hr
  have hlt : k < (cancel bbs).length := by
    rw [← hlen]
    exact (List.getElem?_eq_some_iff.1 hk).1
  have hc := List.getElem?_eq_getElem hlt
  obtain ⟨r', hr', hrc⟩ := hget k _ hc
  rw [hk] at hr'
  cases hr'
  obtain ⟨r', hr', hcan', -⟩ := redirect_of h hc
  rw [hrc] at hr'
  cases hr'
  refine ⟨k, _, hc, by simpa [hcan'] using hcan, hrc, ?_⟩
  rw [hn, countP_take (redirects_cancelled h hlen hget)]

/-- Each kept block stands at its new place. -/
theorem redirects_get {k : ℕ} {c : BasicBlock} (hc : (cancel bbs)[k]? = some c)
    (hcan : c.cancelled = false) : ∃ r, redirect (cancel bbs) c = some r
      ∧ (rs.filter fun b => ¬ b.cancelled)[newNum bbs k]? = some r := by
  obtain ⟨r, hr, hrc⟩ := hget k c hc
  obtain ⟨r', hr', hcan', -⟩ := redirect_of h hc
  rw [hrc] at hr'
  cases hr'
  rw [← countP_take (redirects_cancelled h hlen hget)]
  exact ⟨r, hrc, filter_get _ hr (by simp [hcan', hcan])⟩

end Redirects

/-- The two passes of `simplify` over the blocks come to an end. -/
theorem simplify_passes (hne : bbs ≠ []) : ∃ rs bbs' : List BasicBlock, simplify bbs = some bbs'
    ∧ rs.length = (cancel bbs).length
    ∧ (∀ (k : ℕ) (c : BasicBlock), (cancel bbs)[k]? = some c →
      ∃ r, rs[k]? = some r ∧ redirect (cancel bbs) c = some r)
    ∧ bbs'.length = (rs.filter fun b => ¬ b.cancelled).length
    ∧ ∀ (n : ℕ) (r : BasicBlock), (rs.filter fun b => ¬ b.cancelled)[n]? = some r →
      ∃ b', bbs'[n]? = some b' ∧ renumber rs r = some b' := by
  have hsuccs : bbs.all fun bb => (succs bb).all fun i => (getBlock bbs i).isSome := by
    rw [List.all_eq_true]
    intro b hb
    rw [List.all_eq_true]
    intro i hi
    obtain ⟨j, rfl, hj⟩ := h.next b hb i hi
    rw [getBlock_natCast, List.getElem?_eq_getElem hj]
    rfl
  obtain ⟨rs, hrs, hlen, hget⟩ := Loop.mapM_some (l := cancel bbs) (f := redirect (cancel bbs))
    fun c hc => by
      obtain ⟨k, hk⟩ := List.mem_iff_getElem?.1 hc
      obtain ⟨r, hr, -⟩ := redirect_of h hk
      exact ⟨r, hr⟩
  have hflags := redirects_cancelled h hlen hget
  obtain ⟨bbs', hbbs', hlen', hget'⟩ := Loop.mapM_some (l := rs.filter fun b => ¬ b.cancelled)
    (f := renumber rs) fun r hr => by
      obtain ⟨n, hn⟩ := List.mem_iff_getElem?.1 hr
      obtain ⟨k, c, hc, hcan, hrc, -⟩ := redirects_at h hlen hget hn
      obtain ⟨b', hb', -⟩ := renumber_of h hflags hc hcan hrc
      exact ⟨b', hb'⟩
  refine ⟨rs, bbs', ?_, hlen, hget, hlen', hget'⟩
  unfold simplify
  rw [if_neg (by simp [hne, hsuccs]), hrs]
  exact hbbs'

/-- `simplify` comes to an end. What it makes of the kept blocks stands at their new places, and
nothing else is in the graph. -/
theorem simplify_of (hne : bbs ≠ []) : ∃ bbs', simplify bbs = some bbs'
    ∧ (∀ (k : ℕ) (b : BasicBlock), Kept bbs k → bbs[k]? = some b → ∃ b', bbs'[newNum bbs k]? = some b'
      ∧ b'.tacList = b.tacList ∧ b'.var = b.var ∧ Thinned bbs b b')
    ∧ ∀ b' ∈ bbs', ∃ (k : ℕ) (b : BasicBlock), Kept bbs k ∧ bbs[k]? = some b
      ∧ b'.tacList = b.tacList ∧ b'.var = b.var ∧ Thinned bbs b b' := by
  obtain ⟨rs, bbs', hs, hlen, hget, hlen', hget'⟩ := simplify_passes h hne
  have hflags := redirects_cancelled h hlen hget
  -- the two passes for one kept block
  have hone : ∀ {k : ℕ} {c r b' : BasicBlock}, (cancel bbs)[k]? = some c → c.cancelled = false →
      redirect (cancel bbs) c = some r → renumber rs r = some b' →
      ∃ b, bbs[k]? = some b ∧ b'.tacList = b.tacList ∧ b'.var = b.var ∧ Thinned bbs b b' := by
    intro k c r b' hc hcan hrc hb'
    obtain ⟨b'', hb'', htac, hvar, ht⟩ := renumber_of h hflags hc hcan hrc
    rw [hb'] at hb''
    cases hb''
    obtain ⟨b, hb, htac', hvar', ht⟩ := ht.of_cancel hc
    exact ⟨b, hb, htac.trans htac', hvar.trans hvar', ht⟩
  refine ⟨bbs', hs, fun k b hk hb => ?_, fun b' hb' => ?_⟩
  · obtain ⟨c, hc, hcan⟩ := kept_iff.1 hk
    obtain ⟨r, hrc, hr⟩ := redirects_get h hlen hget hc hcan
    obtain ⟨b', hb', hren⟩ := hget' _ r hr
    obtain ⟨b₁, hb₁, hrest⟩ := hone hc hcan hrc hren
    rw [hb] at hb₁
    cases hb₁
    exact ⟨b', hb', hrest⟩
  · obtain ⟨n, hn⟩ := List.mem_iff_getElem?.1 hb'
    have hlt : n < (rs.filter fun b => ¬ b.cancelled).length := by
      rw [← hlen']
      exact (List.getElem?_eq_some_iff.1 hn).1
    have hr := List.getElem?_eq_getElem hlt
    obtain ⟨b'', hb'', hren⟩ := hget' n _ hr
    rw [hn] at hb''
    cases hb''
    obtain ⟨k, c, hc, hcan, hrc, -⟩ := redirects_at h hlen hget hr
    obtain ⟨b, hb, hrest⟩ := hone hc hcan hrc hren
    exact ⟨k, b, kept_iff.2 ⟨c, hc, hcan⟩, hb, hrest⟩

end Simplify

/-! ## The simplified graph -/

/-- The graphs stand at the same place of a kept block. -/
def AtKept {σ : Type} (bbs : List BasicBlock) : ℤ × List Tac × σ → ℤ × List Tac × σ → Prop
  | (i, rest, x), (i', rest', x') => x = x' ∧ rest = rest' ∧ ∃ (k : ℕ) (ops : List Instr), i = k
      ∧ i' = newNum bbs k ∧ Kept bbs k ∧ rest = ops.map .instr

section Run

variable {σ : Type} (M : Machine σ) {bbs bbs' : List BasicBlock} (h : Gathered bbs)
  (hkept : ∀ (k : ℕ) (b : BasicBlock), Kept bbs k → bbs[k]? = some b →
    ∃ b', bbs'[newNum bbs k]? = some b' ∧ b'.tacList = b.tacList ∧ b'.var = b.var ∧ Thinned bbs b b')
include h hkept

theorem enter_kept {j : ℕ} (hj : Kept bbs j) (x : σ) :
    enter bbs' (newNum bbs j) x = some (.silent ((newNum bbs j : ℤ), tacsAt bbs j, x))
      ∧ AtKept bbs ((j : ℤ), tacsAt bbs j, x) ((newNum bbs j : ℤ), tacsAt bbs j, x) := by
  obtain ⟨b, hb, -⟩ := id hj
  obtain ⟨b', hb', htac, -⟩ := hkept j b hj hb
  obtain ⟨ops, hops⟩ := h.ops b (List.mem_of_getElem? hb)
  refine ⟨?_, rfl, rfl, j, ops, rfl, rfl, hj, by rw [tacsAt_eq hb, hops]⟩
  unfold enter
  rw [getBlock_natCast, hb', tacsAt_eq hb, ← htac]
  rfl

omit h hkept in
/-- A test goes to its target or on, in both graphs alike. -/
theorem graphStep_test {i : ℤ} {b : BasicBlock} (hb : getBlock bbs i = some b)
    (hk : b.endKind = .byBeqz ∨ b.endKind = .byBnez) {c : Temp} (hv : b.var = some c) (x : σ) :
    graphStep M bbs (i, [], x) = enter bbs
      (if M.zero c x = decide (b.endKind = .byBeqz) then b.next0 else b.next1) x := by
  rcases hk with hk | hk
  · rw [graphStep_byBeqz M hb hk hv, hk]
    simp
  · rw [graphStep_byBnez M hb hk hv, hk]
    cases M.zero c x <;> rfl

/-- A block goes to where what is made of it goes to. -/
theorem matches_leads {k j : ℕ} {i : ℤ} {x : σ} (hi : Leads bbs i j)
    (hg : graphStep M bbs ((k : ℤ), [], x) = enter bbs i x)
    (hg' : graphStep M bbs' ((newNum bbs k : ℤ), [], x) = enter bbs' (newNum bbs j) x) :
    Matches (graphStep M bbs) (graphStep M bbs') (AtKept bbs) ((k : ℤ), [], x)
      ((newNum bbs k : ℤ), [], x) := by
  obtain ⟨st, hst, hq⟩ := hi.quiet M x
  obtain ⟨he, hat⟩ := enter_kept h hkept hi.kept x
  exact .silent (hg'.trans he) (hg.trans hst) hq hat

theorem follows_simplify : Follows (graphStep M bbs) (graphStep M bbs') (AtKept bbs) := by
  rintro ⟨i, rest, x⟩ ⟨i', rest', x'⟩ ⟨rfl, rfl, k, ops, rfl, rfl, hk, rfl⟩
  cases ops with
  | nil =>
    obtain ⟨b, hb, -⟩ := id hk
    obtain ⟨b', hb', -, hvar, ht⟩ := hkept k b hk hb
    have hmem := List.mem_of_getElem? hb
    rw [← getBlock_natCast] at hb hb'
    cases ht with
    | ret hk hk' =>
      have hs' := graphStep_byReturn M hb' hk' x
      rw [hvar] at hs'
      exact .stop hs' (.refl _) (graphStep_byReturn M hb hk x)
    | branch hk hk' h0 h0' =>
      exact matches_leads M h hkept h0 (graphStep_byBranch M hb hk x)
        ((graphStep_byBranch M hb' hk' x).trans (by rw [h0']))
    | merged hk hk' h0 h1 h0' =>
      have hs' := (graphStep_byBranch M hb' hk' x).trans (congrArg (enter bbs' · x) h0')
      obtain ⟨c, hc⟩ := h.var b hmem hk
      have hs := graphStep_test M hb hk hc x
      by_cases hz : M.zero c x = decide (b.endKind = .byBeqz)
      · rw [if_pos hz] at hs
        exact matches_leads M h hkept h0 hs hs'
      · rw [if_neg hz] at hs
        exact matches_leads M h hkept h1 hs hs'
    | test hk hk' h0 h1 h0' h1' =>
      obtain ⟨c, hc⟩ := h.var b hmem hk
      have hs := graphStep_test M hb hk hc x
      have hs' := graphStep_test M hb' (by rwa [hk']) (hvar.trans hc) x
      rw [hk', h0', h1'] at hs'
      by_cases hz : M.zero c x = decide (b.endKind = .byBeqz)
      · rw [if_pos hz] at hs hs'
        exact matches_leads M h hkept h0 hs hs'
      · rw [if_neg hz] at hs hs'
        exact matches_leads M h hkept h1 hs hs'
  | cons i ops =>
    cases he : M.exec i x with
    | none => exact .stop (graphStep_halt M _ bbs' _ he) (.refl _) (graphStep_halt M _ bbs _ he)
    | some x' =>
      exact .emit (graphStep_exec M _ bbs' _ he) (.refl _) (graphStep_exec M _ bbs _ he)
        ⟨rfl, rfl, k, ops, rfl, rfl, hk, rfl⟩

omit M in
/-- What is made of a sound graph is sound. -/
theorem Gathered.sound (hall : ∀ b' ∈ bbs', ∃ (k : ℕ) (b : BasicBlock), Kept bbs k
    ∧ bbs[k]? = some b ∧ b'.tacList = b.tacList ∧ b'.var = b.var ∧ Thinned bbs b b') :
    Sound bbs' where
  ops b' hb' := by
    obtain ⟨k, b, -, hb, htac, -⟩ := hall b' hb'
    rw [htac]
    exact h.ops b (List.mem_of_getElem? hb)
  var b' hb' hk := by
    obtain ⟨k, b, -, hb, -, hvar, ht⟩ := hall b' hb'
    rw [hvar]
    have hmem := List.mem_of_getElem? hb
    cases ht with
    | ret _ hk' => simp [hk'] at hk
    | branch _ hk' => simp [hk'] at hk
    | merged _ hk' => simp [hk'] at hk
    | test hk _ => exact h.var b hmem hk
  next b' hb' i hi := by
    obtain ⟨k, b, -, hb, -, -, ht⟩ := hall b' hb'
    have hin : ∀ {i : ℤ} {j : ℕ}, Leads bbs i j → newNum bbs j < bbs'.length := by
      intro i j hj
      obtain ⟨b, hb, -⟩ := id hj.kept
      obtain ⟨b', hb', -⟩ := hkept j b hj.kept hb
      exact (List.getElem?_eq_some_iff.1 hb').1
    cases ht with
    | ret _ hk' => simp [succs, hk'] at hi
    | branch _ hk' h0 h0' =>
      simp only [succs, hk', h0', List.mem_singleton] at hi
      exact ⟨_, hi, hin h0⟩
    | merged _ hk' h0 _ h0' =>
      simp only [succs, hk', h0', List.mem_singleton] at hi
      exact ⟨_, hi, hin h0⟩
    | test hk hk' h0 h1 h0' h1' =>
      have hi' : i = b'.next1 ∨ i = b'.next0 := by
        unfold succs at hi
        rw [hk'] at hi
        rcases hk with hk | hk <;> simpa [hk] using hi
      rcases hi' with rfl | rfl
      · exact ⟨_, h1', hin h1⟩
      · exact ⟨_, h0', hin h0⟩

end Run

end FlowGraph

end Decaf

end CacheCPU
