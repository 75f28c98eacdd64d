import CacheCPU.Ucore.Vmm

/-!
# Virtual memory areas

The list of areas stays sorted and disjoint, so that an address lies in at most one of them and
the cache can only hold the answer of a full search. The permission check then goes from area to
area and meets every byte of the range.
-/

namespace CacheCPU

namespace Ucore

open LinkedRing

namespace Mm

variable {m m' : Mm} {vs pre post : List ℕ} {v : ℕ} {addr : BitVec 32}

/-- The areas of `m`, in the order of the list. -/
structure Areas (m : Mm) (vs : List ℕ) : Prop where
  ring : m.link.IsRing vs
  nonempty : ∀ v ∈ vs, (m.vma v).vmStart < (m.vma v).vmEnd
  sorted : vs.Pairwise fun v w => (m.vma v).vmEnd ≤ (m.vma w).vmStart
  count : m.mapCount = vs.length

/-- The cache holds one of the areas, if anything. -/
def CacheOk (m : Mm) (vs : List ℕ) : Prop := ∀ v, m.mmapCache = some v → v ∈ vs

theorem contains_iff : m.contains v addr = true ↔
    (m.vma v).vmStart ≤ addr ∧ addr < (m.vma v).vmEnd := by
  simp [contains]

theorem Areas.next_eq (h : Areas m (pre ++ post)) : m.link.next pre.getLast? = post.head? :=
  h.ring.next_eq

/-- An address lies in one area at most. -/
theorem Areas.contains_unique (h : Areas m vs) {v w : ℕ} (hv : v ∈ vs) (hw : w ∈ vs)
    (h1 : m.contains v addr = true) (h2 : m.contains w addr = true) : v = w := by
  rw [contains_iff] at h1 h2
  by_contra hne
  obtain ⟨pre, post, rfl⟩ := List.append_of_mem hv
  have hs := List.pairwise_append.1 h.sorted
  rcases List.mem_append.1 hw with hw | hw
  · have := hs.2.2 w hw v (by simp)
    simp only [BitVec.le_def, BitVec.lt_def] at *
    omega
  · rcases List.mem_cons.1 hw with rfl | hw
    · exact hne rfl
    · have := (List.pairwise_cons.1 hs.2.1).1 w hw
      simp only [BitVec.le_def, BitVec.lt_def] at *
      omega

/-! ## `find_vma` -/

theorem findFrom_spec (h : Areas m (pre ++ post)) {fuel : ℕ} (hfuel : post.length < fuel) :
    m.findFrom addr fuel pre.getLast? = some (post.find? (m.contains · addr)) := by
  induction post generalizing pre fuel with
  | nil =>
    obtain ⟨fuel, rfl⟩ : ∃ k, fuel = k + 1 := ⟨fuel - 1, by omega⟩
    have hnext : m.link.next pre.getLast? = none := h.next_eq
    rw [findFrom, hnext]
    rfl
  | cons w post ih =>
    obtain ⟨fuel, rfl⟩ : ∃ k, fuel = k + 1 := ⟨fuel - 1, by omega⟩
    have hnext : m.link.next pre.getLast? = some w := h.next_eq
    rw [findFrom, hnext]
    simp only
    split_ifs with hw
    · simp [hw]
    · have h' : Areas m (pre ++ [w] ++ post) := by simpa using h
      have := ih h' (show post.length < fuel by simpa using hfuel)
      rw [List.getLast?_concat] at this
      rw [this]
      simp [hw]

/-- The search without the cache. -/
def search (m : Mm) (addr : BitVec 32) : Option (Option ℕ) :=
  m.findFrom addr (m.mapCount + 1) none

theorem Areas.search_eq (h : Areas m vs) :
    m.search addr = some (vs.find? (m.contains · addr)) := by
  have h' : Areas m ([] ++ vs) := h
  exact findFrom_spec h' (by have := h.count; simp [this])

theorem Areas.find?_iff (h : Areas m vs) :
    vs.find? (m.contains · addr) = some v ↔ v ∈ vs ∧ m.contains v addr = true := by
  constructor
  · intro hf
    have hc := List.find?_some hf
    exact ⟨List.mem_of_find?_eq_some hf, hc⟩
  · rintro ⟨hv, hc⟩
    cases hf : vs.find? (m.contains · addr) with
    | none => exact absurd hc (by simpa using List.find?_eq_none.1 hf v hv)
    | some w =>
      have hw := List.find?_some hf
      rw [h.contains_unique (List.mem_of_find?_eq_some hf) hv hw hc]

/-- `find_vma` returns what the full search returns, and changes nothing but the cache. -/
theorem Areas.findVma (h : Areas m vs) (hc : CacheOk m vs) (addr : BitVec 32) :
    ∃ c, m.findVma addr = some ({ m with mmapCache := c }, vs.find? (m.contains · addr))
      ∧ CacheOk { m with mmapCache := c } vs := by
  unfold Mm.findVma
  cases hcache : m.mmapCache.filter (m.contains · addr) with
  | some v =>
    obtain ⟨hv, hcon⟩ := Option.filter_eq_some_iff.1 hcache
    have hmem := hc v hv
    refine ⟨some v, ?_, fun w hw => Option.some.inj hw ▸ hmem⟩
    rw [h.find?_iff.2 ⟨hmem, hcon⟩]
  | none =>
    have hs : m.findFrom addr (m.mapCount + 1) none = _ := h.search_eq
    rw [hs]
    cases hf : vs.find? (m.contains · addr) with
    | none => exact ⟨m.mmapCache, rfl, hc⟩
    | some v =>
      exact ⟨some v, rfl, fun w hw => Option.some.inj hw ▸ List.mem_of_find?_eq_some hf⟩

/-! ## `insert_vma_struct` -/

/-- The search stops at the last area that does not start above the new one. -/
theorem insertPos_spec (h : Areas m (pre ++ post))
    (hpre : ∀ w ∈ pre, (m.vma w).vmStart ≤ (m.vma v).vmStart) {fuel : ℕ}
    (hfuel : post.length < fuel) :
    ∃ pre' post', pre ++ post = pre' ++ post' ∧ m.insertPos v fuel pre.getLast? = some pre'.getLast?
      ∧ (∀ w ∈ pre', (m.vma w).vmStart ≤ (m.vma v).vmStart)
      ∧ ∀ w ∈ post'.head?, (m.vma v).vmStart < (m.vma w).vmStart := by
  induction post generalizing pre fuel with
  | nil =>
    obtain ⟨fuel, rfl⟩ : ∃ k, fuel = k + 1 := ⟨fuel - 1, by omega⟩
    have hnext : m.link.next pre.getLast? = none := h.next_eq
    exact ⟨pre, [], rfl, by rw [insertPos, hnext], hpre, by simp⟩
  | cons w post ih =>
    obtain ⟨fuel, rfl⟩ : ∃ k, fuel = k + 1 := ⟨fuel - 1, by omega⟩
    have hnext : m.link.next pre.getLast? = some w := h.next_eq
    rw [insertPos, hnext]
    simp only
    split_ifs with hw
    · exact ⟨pre, w :: post, rfl, rfl, hpre, by simpa using hw⟩
    · have h' : Areas m (pre ++ [w] ++ post) := by simpa using h
      obtain ⟨pre', post', he, hf, h1, h2⟩ := ih h'
        (by
          intro x hx
          rcases List.mem_append.1 hx with hx | hx
          · exact hpre x hx
          · simp only [List.mem_singleton] at hx
            subst hx
            simp only [BitVec.le_def, BitVec.lt_def] at hw ⊢
            omega)
        (show post.length < fuel by simpa using hfuel)
      rw [List.getLast?_concat] at hf
      exact ⟨pre', post', by simpa using he, hf, h1, h2⟩

theorem checkVmaOverlap_iff {a b : ℕ} : m.checkVmaOverlap a b = true ↔
    (m.vma a).vmStart < (m.vma a).vmEnd ∧ (m.vma a).vmEnd ≤ (m.vma b).vmStart ∧
      (m.vma b).vmStart < (m.vma b).vmEnd := by
  simp [checkVmaOverlap, and_assoc]

/-- An area that passes the assertions has its place in the list. -/
theorem Areas.insertVmaStruct (h : Areas m vs) (hv : v ∉ vs)
    (he : m.insertVmaStruct v = some m') :
    ∃ pre post, vs = pre ++ post ∧ Areas m' (pre ++ v :: post) ∧ m'.vma = m.vma
      ∧ m'.mmapCache = m.mmapCache ∧ m'.pgdir = m.pgdir ∧ m'.mmCount = m.mmCount := by
  unfold Mm.insertVmaStruct at he
  split_ifs at he with hne
  have h0 : Areas m ([] ++ vs) := h
  obtain ⟨pre, post, hvs, hpos, hpre, hpost⟩ := insertPos_spec (v := v) h0 (by simp)
    (show vs.length < m.mapCount + 1 by have := h.count; omega)
  rw [List.nil_append] at hvs
  subst hvs
  rw [List.getLast?_nil] at hpos
  rw [hpos] at he
  have hnext := h.next_eq
  simp only [Option.bind_eq_bind, Option.bind_some, hnext] at he
  split_ifs at he with hover
  obtain rfl := Option.some.inj he
  refine ⟨pre, post, rfl, ⟨?_, ?_, ?_, ?_⟩, rfl, rfl, rfl, rfl⟩
  · refine h.ring.addAfter ?_
    rw [List.nodup_middle, List.nodup_cons]
    exact ⟨hv, h.ring.nodup⟩
  · intro w hw
    have hw' : w = v ∨ w ∈ pre ++ post := by simpa [or_left_comm] using hw
    rcases hw' with rfl | hw'
    · exact hne
    · exact h.nonempty w hw'
  · have hs := List.pairwise_append.1 h.sorted
    rw [Bool.and_eq_true] at hover
    have hbelow : ∀ w ∈ pre, (m.vma w).vmEnd ≤ (m.vma v).vmStart := by
      rcases pre.eq_nil_or_concat' with rfl | ⟨p, x, rfl⟩
      · simp
      · have hx : m.checkVmaOverlap x v = true := by simpa using hover.1
        rw [checkVmaOverlap_iff] at hx
        have hp := List.pairwise_append.1 hs.1
        intro w hw
        rcases List.mem_append.1 hw with hw | hw
        · have := hp.2.2 w hw x (by simp)
          simp only [BitVec.le_def, BitVec.lt_def] at *
          omega
        · simp only [List.mem_singleton] at hw
          exact hw ▸ hx.2.1
    have habove : ∀ w ∈ post, (m.vma v).vmEnd ≤ (m.vma w).vmStart := by
      cases post with
      | nil => simp
      | cons y q =>
        have hy : m.checkVmaOverlap v y = true := by simpa using hover.2
        rw [checkVmaOverlap_iff] at hy
        intro w hw
        rcases List.mem_cons.1 hw with rfl | hw
        · exact hy.2.1
        · have := (List.pairwise_cons.1 hs.2.1).1 w hw
          simp only [BitVec.le_def, BitVec.lt_def] at *
          omega
    refine List.pairwise_append.2 ⟨hs.1, List.pairwise_cons.2 ⟨habove, hs.2.1⟩, ?_⟩
    intro a ha b hb
    rcases List.mem_cons.1 hb with rfl | hb
    · exact hbelow a ha
    · exact hs.2.2 a ha b hb
  · have := h.count
    simp only [List.length_append, List.length_cons] at this ⊢
    omega

/-! ## `user_mem_check` -/

/-- The byte lies in an area that allows the access; the first page of a stack is not written. -/
def Allowed (m : Mm) (vs : List ℕ) (write : Bool) (x : ℕ) : Prop :=
  ∃ v ∈ vs, (m.vma v).vmStart.toNat ≤ x ∧ x < (m.vma v).vmEnd.toNat
    ∧ has (m.vma v).vmFlags (if write then vmWrite else vmRead) = true
    ∧ (write = true → has (m.vma v).vmFlags vmStack = true → (m.vma v).vmStart.toNat + 4096 ≤ x)

/-- The areas that end above an address. -/
def ahead (m : Mm) (vs : List ℕ) (start : BitVec 32) : ℕ :=
  vs.countP fun v => decide (start < (m.vma v).vmEnd)

theorem ahead_lt (hv : v ∈ vs) {start : BitVec 32} (h : start < (m.vma v).vmEnd) :
    ahead m vs (m.vma v).vmEnd < ahead m vs start := by
  obtain ⟨pre, post, rfl⟩ := List.append_of_mem hv
  have hmono : ∀ l : List ℕ, ahead m l (m.vma v).vmEnd ≤ ahead m l start := fun l =>
    List.countP_mono_left fun w _ hw => by
      simp only [decide_eq_true_eq, BitVec.lt_def] at hw h ⊢
      omega
  have h1 := hmono pre
  have h2 := hmono post
  have hnot : ¬(m.vma v).vmEnd < (m.vma v).vmEnd := by
    rw [BitVec.lt_def]
    omega
  simp only [ahead, List.countP_append, List.countP_cons, h, hnot, decide_true, decide_false,
    if_true, Bool.false_eq_true, if_false] at h1 h2 ⊢
  omega

/-- What the loop decides at `start`, for the area that holds it. -/
theorem Areas.allowed_iff (h : Areas m vs) (write : Bool) {start : BitVec 32}
    (hv : v ∈ vs) (hcon : m.contains v start = true) :
    Allowed m vs write start.toNat ↔
      has (m.vma v).vmFlags (if write then vmWrite else vmRead) = true ∧
        (write = true → has (m.vma v).vmFlags vmStack = true →
          (m.vma v).vmStart.toNat + 4096 ≤ start.toNat) := by
  constructor
  · rintro ⟨w, hw, h1, h2, h3, h4⟩
    obtain rfl := h.contains_unique hw hv (contains_iff.2 ⟨h1, h2⟩) hcon
    exact ⟨h3, h4⟩
  · rintro ⟨h3, h4⟩
    rw [contains_iff] at hcon
    exact ⟨v, hv, hcon.1, hcon.2, h3, h4⟩

theorem Areas.checkFrom (h : Areas m vs) (hc : CacheOk m vs) (write : Bool) {stop : BitVec 32}
    (hstop : stop ≤ userTop) {fuel : ℕ} {start : BitVec 32}
    (hfuel : ahead m vs start < fuel) :
    ∃ c r, m.checkFrom write stop fuel start = some ({ m with mmapCache := c }, r)
      ∧ CacheOk { m with mmapCache := c } vs
      ∧ (r = true ↔ ∀ x, start.toNat ≤ x → x < stop.toNat → Allowed m vs write x) := by
  induction fuel generalizing m start with
  | zero => omega
  | succ fuel ih =>
    rw [Mm.checkFrom]
    by_cases hlt : start < stop
    swap
    · rw [if_neg hlt]
      refine ⟨m.mmapCache, true, rfl, hc, ?_⟩
      simp only [true_iff]
      intro x h1 h2
      rw [BitVec.lt_def] at hlt
      omega
    rw [if_pos hlt]
    obtain ⟨c, hf, hc'⟩ := h.findVma hc start
    rw [BitVec.lt_def] at hlt
    -- a refusal says that the first byte is not allowed
    have hno : ¬Allowed m vs write start.toNat →
        (false = true ↔ ∀ x, start.toNat ≤ x → x < stop.toNat → Allowed m vs write x) :=
      fun hna => ⟨fun hb => by simp at hb, fun hall => absurd (hall _ (Nat.le_refl _) hlt) hna⟩
    rw [hf]
    cases hv : vs.find? (m.contains · start) with
    | none =>
      refine ⟨c, false, rfl, hc', hno ?_⟩
      rintro ⟨w, hw, h1, h2, -⟩
      exact List.find?_eq_none.1 hv w hw (contains_iff.2 ⟨h1, h2⟩)
    | some v =>
      obtain ⟨hmem, hcon⟩ := h.find?_iff.1 hv
      have hal := h.allowed_iff write hmem hcon
      have hcon' := contains_iff.1 hcon
      change ∃ c' r, (if start < (m.vma v).vmStart then _ else _) = _ ∧ _ ∧ _
      rw [if_neg (by have := hcon'.1; rw [BitVec.le_def] at this; rw [BitVec.lt_def]; omega)]
      by_cases hflag : has (m.vma v).vmFlags (if write then vmWrite else vmRead) = true
      swap
      · refine ⟨c, false, ?_, hc', hno fun ha => hflag (hal.1 ha).1⟩
        rw [if_pos (by simpa using hflag)]
        rfl
      rw [if_neg (by simp [hflag])]
      -- below the top of user space the end of the first page does not wrap
      have hwrap : ((m.vma v).vmStart + pgsize).toNat = (m.vma v).vmStart.toNat + 4096 := by
        have h1 := hcon'.1
        have h2 : userTop.toNat = 0x80000000 := rfl
        simp only [BitVec.le_def] at h1 hstop
        rw [BitVec.toNat_add, show pgsize.toNat = 4096 from rfl]
        omega
      by_cases hst : (write && has (m.vma v).vmFlags vmStack &&
          decide (start < (m.vma v).vmStart + pgsize)) = true
      · refine ⟨c, false, ?_, hc', hno fun ha => ?_⟩
        · rw [if_pos hst]
          rfl
        · simp only [Bool.and_eq_true, decide_eq_true_eq, BitVec.lt_def, hwrap] at hst
          have := (hal.1 ha).2 hst.1.1 hst.1.2
          omega
      · rw [if_neg hst]
        have hstack : write = true → has (m.vma v).vmFlags vmStack = true →
            (m.vma v).vmStart.toNat + 4096 ≤ start.toNat := by
          intro h1 h2
          simp only [h1, h2, Bool.true_and, decide_eq_true_eq, BitVec.lt_def, hwrap] at hst
          omega
        have h' : Areas { m with mmapCache := c } vs := ⟨h.ring, h.nonempty, h.sorted, h.count⟩
        have hless := ahead_lt hmem hcon'.2
        obtain ⟨c', r, he, hc'', hr⟩ := ih h' hc'
          (show ahead m vs (m.vma v).vmEnd < fuel by omega)
        refine ⟨c', r, he, hc'', hr.trans ⟨fun hall x h1 h2 => ?_, fun hall x h1 h2 => ?_⟩⟩
        · by_cases hx : x < (m.vma v).vmEnd.toNat
          · have h3 := hcon'.1
            rw [BitVec.le_def] at h3
            exact ⟨v, hmem, by omega, hx, hflag, fun h4 h5 => by have := hstack h4 h5; omega⟩
          · exact hall x (by omega) h2
        · have h3 := hcon'.2
          rw [BitVec.lt_def] at h3
          exact hall x (by omega) h2

theorem userAccess_iff {addr len : BitVec 32} : userAccess addr (addr + len) = true ↔
    0x200000 ≤ addr.toNat ∧ 0 < len.toNat ∧ addr.toNat + len.toNat ≤ 0x80000000 := by
  have h1 : userBase.toNat = 0x200000 := rfl
  have h2 : userTop.toNat = 0x80000000 := rfl
  simp only [userAccess, Bool.and_eq_true, decide_eq_true_eq, BitVec.le_def, BitVec.lt_def,
    BitVec.toNat_add, h1, h2]
  omega

theorem Areas.userMemCheck (h : Areas m vs) (hc : CacheOk m vs) (addr len : BitVec 32)
    (write : Bool) :
    ∃ c r, m.userMemCheck addr len write = some ({ m with mmapCache := c }, r)
      ∧ CacheOk { m with mmapCache := c } vs
      ∧ (r = true ↔ 0x200000 ≤ addr.toNat ∧ 0 < len.toNat
        ∧ addr.toNat + len.toNat ≤ 0x80000000
        ∧ ∀ x, addr.toNat ≤ x → x < addr.toNat + len.toNat → Allowed m vs write x) := by
  rw [Mm.userMemCheck]
  by_cases hu : userAccess addr (addr + len) = true
  · rw [if_pos hu]
    have hu' := userAccess_iff.1 hu
    have hsum : (addr + len).toNat = addr.toNat + len.toNat := by
      rw [BitVec.toNat_add]
      omega
    have hstop : addr + len ≤ userTop := by
      rw [BitVec.le_def, hsum]
      exact hu'.2.2
    have hfuel : ahead m vs addr < m.mapCount + 1 := by
      have h1 : ahead m vs addr ≤ vs.length := List.countP_le_length
      have h2 := h.count
      omega
    obtain ⟨c, r, he, hc', hr⟩ := h.checkFrom hc write hstop hfuel
    refine ⟨c, r, he, hc', hr.trans ?_⟩
    rw [hsum]
    exact ⟨fun hall => ⟨hu'.1, hu'.2.1, hu'.2.2, hall⟩, fun hall => hall.2.2.2⟩
  · rw [if_neg hu]
    refine ⟨m.mmapCache, false, rfl, hc, ⟨fun hb => by simp at hb, fun hall => ?_⟩⟩
    exact absurd (userAccess_iff.2 ⟨hall.1, hall.2.1, hall.2.2.1⟩) hu

/-! ## Runs -/

/-- An `mm` after `mm_create` and any calls that return, in any order; a new area is one that is
not on the list. -/
inductive Reachable : Mm → Prop
  | mmCreate (m : Mm) : Reachable m.mmCreate
  | insertVmaStruct {m m' : Mm} {v : ℕ} {vmStart vmEnd vmFlags : BitVec 32} :
      Reachable m → (∀ vs, m.link.IsRing vs → v ∉ vs) →
      (m.vmaCreate v vmStart vmEnd vmFlags).insertVmaStruct v = some m' → Reachable m'
  | findVma {m m' : Mm} {addr : BitVec 32} {r : Option ℕ} :
      Reachable m → m.findVma addr = some (m', r) → Reachable m'
  | userMemCheck {m m' : Mm} {addr len : BitVec 32} {write r : Bool} :
      Reachable m → m.userMemCheck addr len write = some (m', r) → Reachable m'

/-- A new area outside the list changes nothing for those on it. -/
theorem Areas.vmaCreate (h : Areas m vs) (hv : v ∉ vs) (vmStart vmEnd vmFlags : BitVec 32) :
    Areas (m.vmaCreate v vmStart vmEnd vmFlags) vs := by
  have hsame : ∀ w ∈ vs, (m.vmaCreate v vmStart vmEnd vmFlags).vma w = m.vma w := fun w hw =>
    Function.update_of_ne (show w ≠ v from fun he => hv (he ▸ hw)) _ _
  refine ⟨h.ring, fun w hw => ?_, ?_, h.count⟩
  · rw [hsame w hw]
    exact h.nonempty w hw
  · refine h.sorted.imp_of_mem fun {a b} ha hb hab => ?_
    rw [hsame a ha, hsame b hb]
    exact hab

theorem Reachable.areas (h : Reachable m) : ∃ vs, Areas m vs ∧ CacheOk m vs := by
  induction h with
  | mmCreate m =>
    exact ⟨[], ⟨Links.isRing_init, by simp, List.Pairwise.nil, rfl⟩, fun v hv => by
      simp [Mm.mmCreate] at hv⟩
  | insertVmaStruct _ hv he ih =>
    obtain ⟨vs, ha, hc⟩ := ih
    have hv' := hv vs ha.ring
    obtain ⟨pre, post, rfl, ha', hvma, hcache, -⟩ :=
      (ha.vmaCreate hv' _ _ _).insertVmaStruct hv' he
    refine ⟨_, ha', fun w hw => ?_⟩
    have := hc w (hcache.symm.trans hw)
    simp only [List.mem_append, List.mem_cons] at this ⊢
    tauto
  | findVma _ he ih =>
    obtain ⟨vs, ha, hc⟩ := ih
    obtain ⟨c, he', hc'⟩ := ha.findVma hc _
    obtain ⟨rfl, -⟩ := Prod.mk.inj (Option.some.inj (he'.symm.trans he))
    exact ⟨vs, ⟨ha.ring, ha.nonempty, ha.sorted, ha.count⟩, hc'⟩
  | userMemCheck _ he ih =>
    obtain ⟨vs, ha, hc⟩ := ih
    obtain ⟨c, r, he', hc', -⟩ := ha.userMemCheck hc _ _ _
    obtain ⟨rfl, -⟩ := Prod.mk.inj (Option.some.inj (he'.symm.trans he))
    exact ⟨vs, ⟨ha.ring, ha.nonempty, ha.sorted, ha.count⟩, hc'⟩

/-- The areas are sorted and disjoint; `find_vma` returns the one that holds the address, as a
search without the cache does; and `user_mem_check` says yes exactly for the ranges of user space,
neither empty nor wrapping, all of whose bytes may be accessed. -/
theorem vma_lookup (h : Reachable m) :
    ∃ vs, m.link.IsRing vs
      ∧ (∀ v ∈ vs, (m.vma v).vmStart < (m.vma v).vmEnd)
      ∧ vs.Pairwise (fun v w => (m.vma v).vmEnd ≤ (m.vma w).vmStart)
      ∧ (∀ addr, ∃ m' r, m.findVma addr = some (m', r) ∧ m.search addr = some r
        ∧ ∀ v, r = some v ↔ v ∈ vs ∧ (m.vma v).vmStart ≤ addr ∧ addr < (m.vma v).vmEnd)
      ∧ ∀ addr len write, ∃ m' r, m.userMemCheck addr len write = some (m', r)
        ∧ (r = true ↔ 0x200000 ≤ addr.toNat ∧ 0 < len.toNat
          ∧ addr.toNat + len.toNat ≤ 0x80000000
          ∧ ∀ x, addr.toNat ≤ x → x < addr.toNat + len.toNat → Allowed m vs write x) := by
  obtain ⟨vs, ha, hc⟩ := h.areas
  refine ⟨vs, ha.ring, ha.nonempty, ha.sorted, fun addr => ?_, fun addr len write => ?_⟩
  · obtain ⟨c, he, -⟩ := ha.findVma hc addr
    refine ⟨_, _, he, ha.search_eq, fun v => ?_⟩
    rw [ha.find?_iff, contains_iff]
  · obtain ⟨c, r, he, -, hr⟩ := ha.userMemCheck hc addr len write
    exact ⟨_, r, he, hr⟩

/-- Memory that nothing has been written to. -/
def blank : Mm where
  vma := fun _ => ⟨0#32, 0#32, 0#32⟩
  link := ⟨fun _ => none, fun _ => none⟩
  mmapCache := none
  pgdir := 0
  mapCount := 0
  mmCount := 0

/-- A text area and a stack above it, and the answer of `find_vma` for an address of the stack. -/
theorem vma_lookup_textAndStack :
    ∃ m, Reachable m ∧ m.mapCount = 2 ∧ m.search 0x7fff0000#32 = some (some 2) ∧
      ∃ m', m.findVma 0x7fff0000#32 = some (m', some 2) := by
  obtain ⟨m1, m2, h1, h2, hl, hn, hs⟩ : ∃ m1 m2 : Mm,
      (blank.mmCreate.vmaCreate 1 0x00800000#32 0x00802000#32 5#32).insertVmaStruct 1 = some m1
        ∧ (m1.vmaCreate 2 0x7ff00000#32 0x80000000#32 11#32).insertVmaStruct 2 = some m2
        ∧ m1.link = blank.mmCreate.link.addAfter ([] : List ℕ).getLast? (some 1)
        ∧ m2.mapCount = 2 ∧ m2.search 0x7fff0000#32 = some (some 2) :=
    ⟨_, _, rfl, rfl, rfl, rfl, rfl⟩
  have hempty : blank.mmCreate.link.IsRing ([] ++ []) := Links.isRing_init
  have hone : m1.link.IsRing [1] := hl ▸ hempty.addAfter (by simp)
  have hr1 : Reachable m1 := (Reachable.mmCreate blank).insertVmaStruct
    (fun vs hvs => by simp [hvs.next.unique hempty.next]) h1
  have hr2 : Reachable m2 := hr1.insertVmaStruct
    (fun vs hvs => by simp [hvs.next.unique hone.next]) h2
  obtain ⟨vs, -, -, -, hfind, -⟩ := vma_lookup hr2
  obtain ⟨m', r, he, hsearch, -⟩ := hfind 0x7fff0000#32
  obtain rfl := Option.some.inj (hs.symm.trans hsearch)
  exact ⟨m2, hr2, hn, hs, m', he⟩

end Mm

end Ucore

end CacheCPU
