import CacheCPU.Proofs.TlbCoherence

/-!
# The stack of free TLB indices

What `tlb_get_empty` hands out and `tlb_del_callback` takes back. The entries in use are those off
the stack, so a push is in bounds as long as the entry it gives up is in use. A `TLB_P` bit that
has survived `load_pgdir` names an entry that may be free already.
-/

namespace CacheCPU

namespace Ucore

namespace Kernel

variable {δ : Type} {s s' : Kernel δ} {d : δ} {la : BitVec 32}

theorem Inv.mem_algoEmpty (h : Inv s d) (i : Fin 16) :
    i ∈ s.algoEmpty ↔ ∀ odd, validOf (s.tlb i) odd = false := by
  constructor
  · intro hi odd
    rw [h.free i hi, validOf_invalid]
  · intro hv
    by_contra hi
    obtain ⟨odd, hodd⟩ := (h.used i hi).valid
    simp [hv odd] at hodd

variable [DecidableEq δ]

/-! ## Before the first `load_pgdir` -/

theorem curPgdir_tlbInvalidate (h : s.tlbInvalidate d la = some s') : s'.curPgdir = s.curPgdir := by
  unfold Kernel.tlbInvalidate at h
  split_ifs at h
  · cases h
    rfl
  · split at h
    · cases h
      rfl
    · split at h
      · cases h
        rfl
      · simp only [tlbDelCallback, Option.bind_eq_bind, Option.bind_eq_some_iff,
          Option.ite_none_right_eq_some] at h
        obtain ⟨s₁, ⟨-, h₁⟩, h₂⟩ := h
        cases h₁
        cases h₂
        rfl

theorem curPgdir_pageRemovePte {pte : BitVec 32} (h : s.pageRemovePte d la pte = some s') :
    s'.curPgdir = s.curPgdir := by
  unfold Kernel.pageRemovePte at h
  split_ifs at h
  · obtain ⟨s₁, h₁, h₂⟩ := Option.bind_eq_some_iff.1 h
    cases h₂
    exact (curPgdir_tlbInvalidate h₁).trans rfl
  · cases h
    rfl

/-- The parts of `page_insert`. -/
theorem pageInsert_cases {page : BitVec 20} {perm : BitVec 3}
    (h : s.pageInsert d la page perm = some s') : ∃ s₁ s₂,
      (s₁ = s.createPt d la ∨ ∃ pte, (s.createPt d la).pageRemovePte d la pte = some s₁)
        ∧ s₁.tlbInvalidate d la = some s₂
        ∧ s' = s₂.updPte d la fun _ => page.setWidth 32 <<< 12 ||| pteP ||| perm.setWidth 32 := by
  simp only [Kernel.pageInsert, Option.bind_eq_bind] at h
  split_ifs at h
  · obtain ⟨s₁, h₁, h₂⟩ := Option.bind_eq_some_iff.1 h
    obtain ⟨s₂, h₃, h₄⟩ := Option.bind_eq_some_iff.1 h₂
    exact ⟨s₁, s₂, .inr ⟨_, h₁⟩, h₃, (Option.some.inj h₄).symm⟩
  · rw [Option.bind_some] at h
    obtain ⟨s₂, h₃, h₄⟩ := Option.bind_eq_some_iff.1 h
    exact ⟨_, s₂, .inl rfl, h₃, (Option.some.inj h₄).symm⟩

theorem curPgdir_pageInsert {page : BitVec 20} {perm : BitVec 3}
    (h : s.pageInsert d la page perm = some s') : s'.curPgdir = s.curPgdir := by
  obtain ⟨s₁, s₂, h₁, h₂, rfl⟩ := pageInsert_cases h
  have h₃ : s₁.curPgdir = s.curPgdir := by
    rcases h₁ with rfl | ⟨pte, h₁⟩
    · rfl
    · exact (curPgdir_pageRemovePte h₁).trans rfl
  exact (curPgdir_tlbInvalidate h₂).trans h₃

theorem curPgdir_tlbMissHandler (h : s.tlbMissHandler la = some s') :
    s'.curPgdir = s.curPgdir := by
  unfold Kernel.tlbMissHandler at h
  obtain ⟨d, -, h₁⟩ := Option.bind_eq_some_iff.1 h
  obtain ⟨pte, -, h₂⟩ := Option.bind_eq_some_iff.1 h₁
  split_ifs at h₂
  split at h₂
  · cases h₂
    rfl
  · cases h₂
    cases s.algoEmpty <;> rfl

/-- A directory once loaded is replaced only by another. -/
theorem curPgdir_step {op : Op δ} (h : s.step op = some s') (hcur : s'.curPgdir = none) :
    s.curPgdir = none := by
  cases op with
  | loadPgdir d =>
    cases h
    cases hcur
  | tlbMiss la =>
    simp only [Kernel.step] at h
    split_ifs at h
    exact (curPgdir_tlbMissHandler h).symm.trans hcur
  | pageInsert d page la perm => exact (curPgdir_pageInsert h).symm.trans hcur
  | pageRemove d la =>
    simp only [Kernel.step, Kernel.pageRemove] at h
    split at h
    · cases h
      exact hcur
    · exact (curPgdir_pageRemovePte h).symm.trans hcur
  | tlbInvalidate d la => exact (curPgdir_tlbInvalidate h).symm.trans hcur

theorem pageRemovePte_of_none (hcur : s.curPgdir = none) {pte : BitVec 32}
    (h : s.pageRemovePte d la pte = some s') : s'.algoEmpty = s.algoEmpty := by
  unfold Kernel.pageRemovePte at h
  rw [tlbInvalidate_other (by simp [hcur])] at h
  split_ifs at h <;> cases h <;> rfl

/-- Nothing is pushed before there is a directory. -/
theorem algoEmpty_step {op : Op δ} (hcur : s.curPgdir = none) (h : s.step op = some s')
    (hcur' : s'.curPgdir = none) : s'.algoEmpty = s.algoEmpty := by
  cases op with
  | loadPgdir d =>
    cases h
    cases hcur'
  | tlbMiss la =>
    simp only [Kernel.step] at h
    split_ifs at h
    simp [Kernel.tlbMissHandler, hcur] at h
  | tlbInvalidate d la =>
    cases (tlbInvalidate_other (by simp [hcur])).symm.trans h
    rfl
  | pageRemove d la =>
    simp only [Kernel.step, Kernel.pageRemove] at h
    split at h
    · cases h
      rfl
    · exact pageRemovePte_of_none hcur h
  | pageInsert d page la perm =>
    obtain ⟨s₁, s₂, h₁, h₂, rfl⟩ := pageInsert_cases h
    have h₃ : s₁.algoEmpty = s.algoEmpty ∧ s₁.curPgdir = none := by
      rcases h₁ with rfl | ⟨pte, h₁⟩
      · exact ⟨rfl, hcur⟩
      · exact ⟨pageRemovePte_of_none (s := s.createPt d la) hcur h₁,
          (curPgdir_pageRemovePte h₁).trans hcur⟩
    rw [tlbInvalidate_other (by simp [h₃.2])] at h₂
    cases h₂
    exact h₃.1

theorem algoEmpty_run {ops : List (Op δ)} (h0 : s.curPgdir = none → s.algoEmpty = [])
    (hrun : s.run ops = some s') (hcur : s'.curPgdir = none) : s'.algoEmpty = [] := by
  induction ops generalizing s with
  | nil =>
    cases hrun
    exact h0 hcur
  | cons op ops ih =>
    obtain ⟨s₁, hstep, hrest⟩ := Option.bind_eq_some_iff.1 hrun
    refine ih (fun hc => ?_) hrest
    have hs := curPgdir_step hstep hc
    rw [algoEmpty_step hs hstep hc, h0 hs]

/-! ## The stack -/

/-- In every run that acts on no stale `TLB_P` bit the stack holds distinct indices, those of the
entries that are not valid once a directory has been loaded, and no operation that acts on no
stale bit pushes onto it when it is full. -/
theorem free_stack {t : Tlb} {ops : List (Op δ)} (hrun : (boot t).run ops = some s)
    (hs : (boot t : Kernel δ).soundRun ops = true) :
    s.algoEmpty.length ≤ 16 ∧ s.algoEmpty.Nodup
      ∧ (∀ d, s.curPgdir = some d → ∀ i, i ∈ s.algoEmpty ↔ ∀ odd, validOf (s.tlb i) odd = false)
      ∧ ∀ d la, s.trusted d la = true →
        (∃ s', s.tlbInvalidate d la = some s') ∧ (∃ s', s.pageRemove d la = some s')
          ∧ ∀ page perm, ∃ s', s.pageInsert d la page perm = some s' := by
  have hboot : CurInv (boot t : Kernel δ) := by
    intro c hc
    cases hc
  have hinv := hboot.run hs hrun
  have hnodup : s.algoEmpty.Nodup := by
    cases hcur : s.curPgdir with
    | none => rw [algoEmpty_run (fun _ => rfl) hrun hcur]; exact List.nodup_nil
    | some d => exact (hinv d hcur).nodup
  refine ⟨?_, hnodup, fun d hcur i => (hinv d hcur).mem_algoEmpty i, fun d la ht => ⟨?_, ?_, ?_⟩⟩
  · have := hnodup.length_le_card
    simpa only [Fintype.card_fin] using this
  · obtain ⟨s', h, -⟩ := hinv.tlbInvalidate ht
    exact ⟨s', h⟩
  · obtain ⟨s', h, -⟩ := hinv.pageRemove ht
    exact ⟨s', h⟩
  · intro page perm
    obtain ⟨s', h, -⟩ := hinv.pageInsert ht page perm
    exact ⟨s', h⟩

/-- One page looked up, with its entry off the stack. -/
theorem free_stack_mapOne : ∃ s, (boot fun _ => 0#63 : Kernel Unit).run mapOne = some s
    ∧ s.algoEmpty.length = 15 ∧ (15 : Fin 16) ∉ s.algoEmpty
    ∧ ∃ s', s.tlbInvalidate () 0x2000#32 = some s' := by
  have hsome : ((boot fun _ => 0#63 : Kernel Unit).run mapOne).isSome = true := by decide +kernel
  obtain ⟨s, hs⟩ := Option.isSome_iff_exists.1 hsome
  have hfacts : ((boot fun _ => 0#63 : Kernel Unit).run mapOne).all
      (fun s => s.algoEmpty.length == 15 && s.trusted () 0x2000#32 && validOf (s.tlb 15) false &&
        s.curPgdir == some ()) = true := by decide +kernel
  rw [hs, Option.all_some] at hfacts
  simp only [Bool.and_eq_true, beq_iff_eq] at hfacts
  obtain ⟨⟨⟨hlen, ht⟩, hv⟩, hcur⟩ := hfacts
  obtain ⟨-, -, hmem, hops⟩ := free_stack hs (by decide +kernel)
  refine ⟨s, hs, hlen, fun hi => ?_, (hops () _ ht).1⟩
  rw [((hmem () hcur 15).1 hi) false] at hv
  cases hv

/-- A page is looked up and its directory loaded again: the stack is full, the bit `TLB_P` of the
page is still set, and `tlb_invalidate` pushes the index a second time, out of bounds. -/
theorem not_free_stack : ∃ s : Kernel Unit,
    (boot fun _ => 0#63 : Kernel Unit).run (mapOne ++ [.loadPgdir ()]) = some s
      ∧ s.algoEmpty.length = 16 ∧ s.tlbInvalidate () 0x2000#32 = none := by
  have hbad : ((boot fun _ => 0#63 : Kernel Unit).run (mapOne ++ [.loadPgdir ()])).any (fun s =>
      s.algoEmpty.length == 16 && (s.tlbInvalidate () 0x2000#32).isNone) = true := by
    decide +kernel
  obtain ⟨s, hs, hfacts⟩ := (Option.any_eq_true _ _).1 hbad
  simp only [Bool.and_eq_true, beq_iff_eq, Option.isNone_iff_eq_none] at hfacts
  exact ⟨s, hs, hfacts.1, hfacts.2⟩

end Kernel

end Ucore

end CacheCPU
