import CacheCPU.Proofs.Vma

/-!
# `mm_map`

The overlap is tested by looking up the start of the range, so an area that begins further on is
not seen, and `insert_vma_struct` stops the kernel at it. A length that takes the range round the
address space is taken for what is left of it.
-/

namespace CacheCPU

namespace Ucore

open LinkedRing

namespace Mm

variable {m : Mm} {vs : List ℕ} {v : ℕ}

theorem toNat_roundDown (a : BitVec 32) :
    (roundDown a pgsize).toNat = a.toNat / 4096 * 4096 := by
  have hmod : (a % pgsize).toNat = a.toNat % 4096 := by
    rw [BitVec.toNat_umod]
    rfl
  unfold roundDown
  rw [BitVec.toNat_sub, hmod]
  omega

theorem toNat_roundUp (a : BitVec 32) :
    (roundUp a pgsize).toNat = (a.toNat + 4095) % 2 ^ 32 / 4096 * 4096 := by
  have hadd : (a + pgsize - 1#32).toNat = (a.toNat + 4095) % 2 ^ 32 := by
    have h1 : pgsize.toNat = 4096 := rfl
    rw [BitVec.toNat_sub, BitVec.toNat_add, h1, BitVec.toNat_ofNat]
    omega
  unfold roundUp
  rw [toNat_roundDown, hadd]

/-- An area that meets none of the list passes the assertions. -/
theorem Areas.insertVmaStruct_isSome (h : Areas m vs)
    (hne : (m.vma v).vmStart < (m.vma v).vmEnd)
    (hd : ∀ w ∈ vs, (m.vma w).vmEnd ≤ (m.vma v).vmStart ∨ (m.vma v).vmEnd ≤ (m.vma w).vmStart) :
    ∃ m', m.insertVmaStruct v = some m' := by
  have h0 : Areas m ([] ++ vs) := h
  obtain ⟨pre, post, hvs, hpos, hpre, hpost⟩ := insertPos_spec (v := v) h0 (by simp)
    (show vs.length < m.mapCount + 1 by have := h.count; omega)
  rw [List.nil_append] at hvs
  subst hvs
  rw [List.getLast?_nil] at hpos
  have hbefore : pre.getLast?.all (m.checkVmaOverlap · v) = true := by
    cases hl : pre.getLast? with
    | none => rfl
    | some w =>
      have hw := List.mem_of_getLast? hl
      have hwv := h.nonempty w (List.mem_append_left _ hw)
      refine checkVmaOverlap_iff.2 ⟨hwv, ?_, hne⟩
      rcases hd w (List.mem_append_left _ hw) with hle | hle
      · exact hle
      · have := hpre w hw
        rw [BitVec.le_def] at *
        rw [BitVec.lt_def] at *
        omega
  have hafter : post.head?.all (m.checkVmaOverlap v ·) = true := by
    cases hl : post.head? with
    | none => rfl
    | some w =>
      have hw := List.mem_of_mem_head? hl
      have hwv := h.nonempty w (List.mem_append_right _ hw)
      refine checkVmaOverlap_iff.2 ⟨hne, ?_, hwv⟩
      rcases hd w (List.mem_append_right _ hw) with hle | hle
      · have := hpost w hl
        rw [BitVec.le_def] at *
        rw [BitVec.lt_def] at *
        omega
      · exact hle
  unfold Mm.insertVmaStruct
  rw [if_pos hne, hpos]
  simp only [Option.bind_eq_bind, Option.bind_some, h.next_eq, hbefore, hafter, Bool.and_self,
    if_true]
  exact ⟨_, rfl⟩

/-! ## The range -/

/-- `ROUNDDOWN(addr, PGSIZE)`, as a number. -/
def mapStart (addr : BitVec 32) : ℕ := addr.toNat / 4096 * 4096

/-- The end of the range, rounded up, as it would be without a bound on the numbers. -/
def mapStop (addr len : BitVec 32) : ℕ := (addr.toNat + len.toNat + 4095) / 4096 * 4096

/-- The range lies in user space and is not empty. -/
def InUser (addr len : BitVec 32) : Prop :=
  0x200000 ≤ mapStart addr ∧ mapStart addr < mapStop addr len ∧ mapStop addr len ≤ 0x80000000

/-- The range meets the area `w`. -/
def Meets (m : Mm) (addr len : BitVec 32) (w : ℕ) : Prop :=
  (m.vma w).vmStart.toNat < mapStop addr len ∧ mapStart addr < (m.vma w).vmEnd.toNat

/-- `mm_map` rejects a range that is not in user space or meets an area, and changes no area then;
any other one becomes an area, if there is memory for it. -/
def MapsRightly (m : Mm) (vs : List ℕ) (addr len vmFlags : BitVec 32) (kmalloc : Option ℕ) :
    Prop :=
  ((¬ InUser addr len ∨ ∃ w ∈ vs, Meets m addr len w) →
    ∃ c ret, m.mmMap addr len vmFlags kmalloc = some ({ m with mmapCache := c }, ret, none)
      ∧ ret < 0)
  ∧ ((InUser addr len ∧ ∀ w ∈ vs, ¬ Meets m addr len w) → ∀ v, kmalloc = some v →
    ∃ m' pre post, m.mmMap addr len vmFlags kmalloc = some (m', 0, some v) ∧ vs = pre ++ post
      ∧ Areas m' (pre ++ v :: post) ∧ (m'.vma v).vmStart.toNat = mapStart addr
      ∧ (m'.vma v).vmEnd.toNat = mapStop addr len ∧ (m'.vma v).vmFlags = vmFlags
      ∧ ∀ w ∈ vs, m'.vma w = m.vma w)

/-- No area holds the start of the range, which `mm_map` takes to be in user space, and there is
memory; but it goes round the address space, or an area begins inside it. -/
def Slips (m : Mm) (vs : List ℕ) (addr len : BitVec 32) (kmalloc : Option ℕ) : Prop :=
  userAccess (roundDown addr pgsize) (roundUp (addr + len) pgsize) = true ∧ kmalloc.isSome
    ∧ (∀ w ∈ vs, m.contains w (roundDown addr pgsize) = false)
    ∧ (2 ^ 32 ≤ addr.toNat + len.toNat ∨ ∃ w ∈ vs, roundDown addr pgsize < (m.vma w).vmStart
      ∧ (m.vma w).vmStart < roundUp (addr + len) pgsize)

theorem userAccess_toNat (a b : BitVec 32) : userAccess a b = true ↔
    0x200000 ≤ a.toNat ∧ a.toNat < b.toNat ∧ b.toNat ≤ 0x80000000 := by
  have h1 : userBase.toNat = 0x200000 := rfl
  have h2 : userTop.toNat = 0x80000000 := rfl
  simp only [userAccess, Bool.and_eq_true, decide_eq_true_eq, BitVec.le_def, BitVec.lt_def, h1, h2,
    and_assoc]

/-- Without going round, the code has the range right. -/
theorem toNat_stop {addr len : BitVec 32} (hsum : addr.toNat + len.toNat < 2 ^ 32)
    (hu : userAccess (roundDown addr pgsize) (roundUp (addr + len) pgsize) = true) :
    (roundUp (addr + len) pgsize).toNat = mapStop addr len := by
  rw [userAccess_toNat, toNat_roundUp, BitVec.toNat_add] at hu
  rw [toNat_roundUp, BitVec.toNat_add, mapStop]
  omega

theorem userAccess_of_inUser {addr len : BitVec 32} (h : InUser addr len) :
    addr.toNat + len.toNat < 2 ^ 32
      ∧ userAccess (roundDown addr pgsize) (roundUp (addr + len) pgsize) = true := by
  obtain ⟨h1, h2, h3⟩ := h
  rw [mapStart] at h1 h2
  rw [mapStop] at h2 h3
  rw [userAccess_toNat, toNat_roundDown, toNat_roundUp, BitVec.toNat_add]
  omega

theorem inUser_of_userAccess {addr len : BitVec 32} (hsum : addr.toNat + len.toNat < 2 ^ 32)
    (hu : userAccess (roundDown addr pgsize) (roundUp (addr + len) pgsize) = true) :
    InUser addr len := by
  have hstop := toNat_stop hsum hu
  rw [userAccess_toNat, toNat_roundDown, hstop] at hu
  exact hu

section Cases

variable (h : Areas m vs) (hc : CacheOk m vs) {addr len : BitVec 32} (vmFlags : BitVec 32)
  (kmalloc : Option ℕ)

theorem mmMap_outside
    (hu : userAccess (roundDown addr pgsize) (roundUp (addr + len) pgsize) = false) :
    m.mmMap addr len vmFlags kmalloc = some (m, -eInval, none) := by
  unfold mmMap
  simp [hu]

variable (hu : userAccess (roundDown addr pgsize) (roundUp (addr + len) pgsize) = true)
include h hc hu

theorem mmMap_held {w : ℕ} (hw : w ∈ vs) (hcon : m.contains w (roundDown addr pgsize) = true) :
    ∃ c, m.mmMap addr len vmFlags kmalloc = some ({ m with mmapCache := c }, -eInval, none) := by
  obtain ⟨c, hf, -⟩ := h.findVma hc (roundDown addr pgsize)
  rw [h.find?_iff.2 ⟨hw, hcon⟩] at hf
  refine ⟨c, ?_⟩
  have hlt : (m.vma w).vmStart < roundUp (addr + len) pgsize := by
    rw [contains_iff] at hcon
    rw [userAccess_toNat] at hu
    rw [BitVec.le_def] at hcon
    rw [BitVec.lt_def]
    omega
  unfold mmMap
  simp [hu, hf, hlt]

theorem mmMap_free (hno : ∀ w ∈ vs, m.contains w (roundDown addr pgsize) = false) :
    ∃ c, CacheOk { m with mmapCache := c } vs ∧ m.mmMap addr len vmFlags kmalloc =
      match kmalloc with
      | none => some ({ m with mmapCache := c }, -eNoMem, none)
      | some v => (({ m with mmapCache := c }.vmaCreate v (roundDown addr pgsize)
          (roundUp (addr + len) pgsize) vmFlags).insertVmaStruct v).map fun m' => (m', 0, some v) := by
  obtain ⟨c, hf, hc'⟩ := h.findVma hc (roundDown addr pgsize)
  have hnone : vs.find? (m.contains · (roundDown addr pgsize)) = none := by
    rw [List.find?_eq_none]
    intro w hw
    simp [hno w hw]
  rw [hnone] at hf
  refine ⟨c, hc', ?_⟩
  unfold mmMap
  simp only [hu, hf, Bool.not_true, Bool.false_eq_true, if_false, Option.bind_eq_bind,
    Option.bind_some, Option.any_none]
  cases kmalloc with
  | none => rfl
  | some v =>
    dsimp only
    rw [Option.map_eq_bind]
    rfl

end Cases

theorem contains_of_meets {addr len : BitVec 32} {w : ℕ} (hsum : addr.toNat + len.toNat < 2 ^ 32)
    (hu : userAccess (roundDown addr pgsize) (roundUp (addr + len) pgsize) = true)
    (hw : Meets m addr len w) : m.contains w (roundDown addr pgsize) = true
      ∨ roundDown addr pgsize < (m.vma w).vmStart
        ∧ (m.vma w).vmStart < roundUp (addr + len) pgsize := by
  have hstop := toNat_stop hsum hu
  obtain ⟨h1, h2⟩ := hw
  have hstart : (roundDown addr pgsize).toNat = mapStart addr := toNat_roundDown addr
  rw [contains_iff, BitVec.le_def, BitVec.lt_def, BitVec.lt_def, BitVec.lt_def, hstop, hstart]
  omega

theorem meets_of_contains {addr len : BitVec 32} {w : ℕ} (hu : InUser addr len)
    (hw : m.contains w (roundDown addr pgsize) = true) : Meets m addr len w := by
  have hstart : (roundDown addr pgsize).toNat = mapStart addr := toNat_roundDown addr
  rw [contains_iff, BitVec.le_def, BitVec.lt_def, hstart] at hw
  obtain ⟨-, h2, -⟩ := hu
  exact ⟨by omega, hw.2⟩

/-- A range of user space that meets no area becomes one. -/
theorem mmMap_new (h : Areas m vs) (hc : CacheOk m vs) {addr len : BitVec 32}
    (vmFlags : BitVec 32) {v : ℕ} (hin : InUser addr len)
    (hmeets : ∀ w ∈ vs, ¬ Meets m addr len w) (hv : v ∉ vs) :
    ∃ m' pre post, m.mmMap addr len vmFlags (some v) = some (m', 0, some v) ∧ vs = pre ++ post
      ∧ Areas m' (pre ++ v :: post) ∧ CacheOk m' (pre ++ v :: post) ∧ m'.pgdir = m.pgdir
      ∧ (m'.vma v).vmStart.toNat = mapStart addr ∧ (m'.vma v).vmEnd.toNat = mapStop addr len
      ∧ (m'.vma v).vmFlags = vmFlags ∧ ∀ w ∈ vs, m'.vma w = m.vma w := by
  obtain ⟨hsum, hu⟩ := userAccess_of_inUser hin
  have hno : ∀ w ∈ vs, m.contains w (roundDown addr pgsize) = false := fun w hw =>
    Bool.eq_false_iff.2 fun hcon => hmeets w hw (meets_of_contains hin hcon)
  obtain ⟨c, hc', hret⟩ := mmMap_free h hc vmFlags (some v) hu hno
  have hstart : (roundDown addr pgsize).toNat = mapStart addr := toNat_roundDown addr
  have hstop := toNat_stop hsum hu
  have hareas : Areas { m with mmapCache := c } vs := ⟨h.ring, h.nonempty, h.sorted, h.count⟩
  have hnew := hareas.vmaCreate hv (roundDown addr pgsize) (roundUp (addr + len) pgsize) vmFlags
  have hcache : CacheOk ({ m with mmapCache := c }.vmaCreate v (roundDown addr pgsize)
      (roundUp (addr + len) pgsize) vmFlags) vs := hc'
  have hpgdir : ({ m with mmapCache := c }.vmaCreate v (roundDown addr pgsize)
      (roundUp (addr + len) pgsize) vmFlags).pgdir = m.pgdir := rfl
  generalize hcreate : { m with mmapCache := c }.vmaCreate v (roundDown addr pgsize)
    (roundUp (addr + len) pgsize) vmFlags = m₁ at hnew hret hcache hpgdir
  have hvma : m₁.vma v = ⟨roundDown addr pgsize, roundUp (addr + len) pgsize, vmFlags⟩ := by
    rw [← hcreate]
    exact Function.update_self v _ _
  have hother : ∀ w ∈ vs, m₁.vma w = m.vma w := by
    intro w hw
    rw [← hcreate]
    exact Function.update_of_ne (fun he : w = v => hv (he ▸ hw)) _ _
  have hne : (m₁.vma v).vmStart < (m₁.vma v).vmEnd := by
    rw [hvma]
    rw [userAccess_toNat] at hu
    exact hu.2.1
  obtain ⟨m', hm'⟩ := hnew.insertVmaStruct_isSome hne fun w hw => by
    have := hmeets w hw
    unfold Meets at this
    rw [hother w hw, hvma, BitVec.le_def, BitVec.le_def, hstart, hstop]
    omega
  obtain ⟨pre, post, hvs, ha, hvma', hcache', hpgdir', -⟩ := hnew.insertVmaStruct hv hm'
  refine ⟨m', pre, post, ?_, hvs, ha, fun w hw => ?_, hpgdir'.trans hpgdir, ?_, ?_, ?_,
    fun w hw => ?_⟩
  · rw [hret]
    dsimp only
    rw [hcreate, hm']
    rfl
  · have hmem := hcache w (hcache'.symm.trans hw)
    rw [hvs, List.mem_append] at hmem
    rw [List.mem_append, List.mem_cons]
    exact hmem.imp_right .inr
  · rw [hvma', hvma, hstart]
  · rw [hvma', hvma, hstop]
  · rw [hvma', hvma]
  · rw [hvma', hother w hw]

section Iff

variable (h : Areas m vs) (hc : CacheOk m vs) {addr len vmFlags : BitVec 32}
  {kmalloc : Option ℕ} (hk : ∀ v, kmalloc = some v → v ∉ vs)
include h hc hk

theorem mapsRightly_of_not_slips (hs : ¬ Slips m vs addr len kmalloc) :
    MapsRightly m vs addr len vmFlags kmalloc := by
  refine ⟨fun hbad => ?_, fun ⟨hin, hmeets⟩ v hv => ?_⟩
  · by_cases hu : userAccess (roundDown addr pgsize) (roundUp (addr + len) pgsize) = true
    · by_cases hheld : ∃ w ∈ vs, m.contains w (roundDown addr pgsize) = true
      · obtain ⟨w, hw, hcon⟩ := hheld
        obtain ⟨c, hret⟩ := mmMap_held h hc vmFlags kmalloc hu hw hcon
        exact ⟨c, _, hret, by decide⟩
      · have hno : ∀ w ∈ vs, m.contains w (roundDown addr pgsize) = false := fun w hw =>
          Bool.eq_false_iff.2 fun hcon => hheld ⟨w, hw, hcon⟩
        obtain ⟨c, -, hret⟩ := mmMap_free h hc vmFlags kmalloc hu hno
        cases kmalloc with
        | none => exact ⟨c, _, hret, by decide⟩
        | some v =>
          -- with memory at hand the range would have slipped through
          refine absurd ⟨hu, rfl, hno, ?_⟩ hs
          by_cases hsum : addr.toNat + len.toNat < 2 ^ 32
          · right
            obtain ⟨w, hw, hmeet⟩ := hbad.resolve_left (not_not.2 (inUser_of_userAccess hsum hu))
            refine ⟨w, hw, (contains_of_meets hsum hu hmeet).resolve_left ?_⟩
            simp [hno w hw]
          · exact .inl (by omega)
    · exact ⟨m.mmapCache, _, mmMap_outside _ _ (Bool.eq_false_iff.2 hu), by decide⟩
  · subst hv
    obtain ⟨m', pre, post, hret, hvs, ha, -, -, hrest⟩ :=
      mmMap_new h hc vmFlags hin hmeets (hk v rfl)
    exact ⟨m', pre, post, hret, hvs, ha, hrest⟩

omit hk in
theorem not_slips_of_mapsRightly (hm : MapsRightly m vs addr len vmFlags kmalloc) :
    ¬ Slips m vs addr len kmalloc := by
  rintro ⟨hu, hsome, hno, hbad⟩
  obtain ⟨v, rfl⟩ := Option.isSome_iff_exists.1 hsome
  obtain ⟨c, -, hret⟩ := mmMap_free h hc vmFlags (some v) hu hno
  have hreject : ¬ InUser addr len ∨ ∃ w ∈ vs, Meets m addr len w := by
    by_cases hsum : addr.toNat + len.toNat < 2 ^ 32
    · obtain ⟨w, hw, h1, h2⟩ := hbad.resolve_left (by omega)
      have hwv := h.nonempty w hw
      have hstart : (roundDown addr pgsize).toNat = mapStart addr := toNat_roundDown addr
      rw [BitVec.lt_def] at h1 h2 hwv
      rw [toNat_stop hsum hu] at h2
      exact .inr ⟨w, hw, h2, by omega⟩
    · exact .inl fun hin => hsum (userAccess_of_inUser hin).1
  obtain ⟨c', ret, hret', -⟩ := hm.1 hreject
  rw [hret] at hret'
  obtain ⟨m', -, he⟩ := Option.map_eq_some_iff.1 hret'
  cases he

/-- `mm_map` does what it should if and only if the range does not slip through. -/
theorem mmMap_rightly_iff :
    MapsRightly m vs addr len vmFlags kmalloc ↔ ¬ Slips m vs addr len kmalloc :=
  ⟨not_slips_of_mapsRightly h hc, mapsRightly_of_not_slips h hc hk⟩

end Iff

/-- The address space of a program with a text area. -/
def oneArea : Mm where
  vma := fun _ => ⟨0x00800000#32, 0x00802000#32, 5#32⟩
  link := blank.mmCreate.link.addAfter none (some 1)
  mmapCache := none
  pgdir := 0
  mapCount := 1
  mmCount := 1

theorem oneArea_areas : Areas oneArea [1] ∧ CacheOk oneArea [1] := by
  have hempty : blank.mmCreate.link.IsRing ([] ++ []) := Links.isRing_init
  have hring : oneArea.link.IsRing [1] := hempty.addAfter (by simp)
  refine ⟨⟨hring, fun v _ => ?_, List.pairwise_singleton _ _, rfl⟩, fun v hv => ?_⟩
  · exact show 0x00800000#32 < 0x00802000#32 by decide
  · simp [oneArea] at hv

/-- The page above the text is mapped. -/
theorem mmMap_rightly_above : oneArea.MapsRightly [1] 0x00802800#32 0x10#32 3#32 (some 2) := by
  refine (mmMap_rightly_iff oneArea_areas.1 oneArea_areas.2 (by simp)).2 ?_
  rintro ⟨-, -, -, hwrap | ⟨w, -, hlt, -⟩⟩
  · exact absurd hwrap (by decide)
  · exact absurd hlt (show ¬ roundDown 0x00802800#32 pgsize < 0x00800000#32 by decide)

/-- Two pages of which the second is the first of the text: the kernel stops. -/
theorem mmMap_panics_below : Areas oneArea [1] ∧ CacheOk oneArea [1]
    ∧ oneArea.Meets 0x007ff000#32 0x2000#32 1
    ∧ oneArea.mmMap 0x007ff000#32 0x2000#32 3#32 (some 2) = none
    ∧ ¬ oneArea.MapsRightly [1] 0x007ff000#32 0x2000#32 3#32 (some 2) := by
  have hmeets : oneArea.Meets 0x007ff000#32 0x2000#32 1 := by
    constructor
    · exact show (0x00800000#32).toNat < mapStop 0x007ff000#32 0x2000#32 by decide
    · exact show mapStart 0x007ff000#32 < (0x00802000#32).toNat by decide
  have hnone : oneArea.mmMap 0x007ff000#32 0x2000#32 3#32 (some 2) = none := rfl
  refine ⟨oneArea_areas.1, oneArea_areas.2, hmeets, hnone, fun hm => ?_⟩
  obtain ⟨c, ret, hret, -⟩ := hm.1 (.inr ⟨1, List.mem_singleton_self 1, hmeets⟩)
  rw [hnone] at hret
  cases hret

end Mm

end Ucore

end CacheCPU
