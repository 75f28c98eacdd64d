import CacheCPU.Proofs.PageRefs

/-!
# Walks over address ranges

Addresses as page table entries, and a rule for the loop that `unmap_range` and `copy_range`
share: what holds at an address and is carried on by each turn holds at the end of the range.
-/

namespace CacheCPU

namespace Ucore

open FreeArea

/-! ## Addresses -/

/-- The address that an entry of a table stands for. -/
def laOf (i j : BitVec 10) : ℕ := (i.toNat * 1024 + j.toNat) * 4096

theorem pdx_toNat (la : BitVec 32) : (pdx la).toNat = la.toNat / 4194304 := by
  have := la.isLt
  simp only [pdx, BitVec.extractLsb_toNat, Nat.shiftRight_eq_div_pow]
  omega

theorem ptx_toNat (la : BitVec 32) : (ptx la).toNat = la.toNat / 4096 % 1024 := by
  simp only [ptx, BitVec.extractLsb_toNat, Nat.shiftRight_eq_div_pow]

theorem laOf_la {la : BitVec 32} (h : la.toNat % 4096 = 0) : laOf (pdx la) (ptx la) = la.toNat := by
  rw [laOf, pdx_toNat, ptx_toNat]
  omega

theorem laOf_inj {i j i' j' : BitVec 10} (h : laOf i j = laOf i' j') : i = i' ∧ j = j' := by
  have h1 := j.isLt
  have h2 := j'.isLt
  simp only [laOf] at h
  exact ⟨BitVec.eq_of_toNat_eq (by omega), BitVec.eq_of_toNat_eq (by omega)⟩

theorem pdx_ne_vptx {la : BitVec 32} (h : la.toNat < 0x80000000) : pdx la ≠ vptx := by
  intro he
  have := congrArg BitVec.toNat he
  rw [pdx_toNat, show vptx.toNat = 1003 by decide] at this
  omega

/-- The entries of the directory `d` for the addresses from `a` to `e`. -/
def InRange (d a e : ℕ) (l : Slot) : Prop :=
  l.1 = d ∧ a ≤ laOf l.2.1 l.2.2 ∧ laOf l.2.1 l.2.2 < e

section InRange

variable {d : ℕ} {la : BitVec 32}

/-- The entries of one table, as far as the range goes. -/
theorem inRange_table {l : Slot} {a e : ℕ} (hla : la.toNat % 4096 = 0)
    (h : InRange d a (min ((la.toNat / 4194304 + 1) * 4194304) e) l) :
    InRange d a la.toNat l ∨ (l.1 = d ∧ l.2.1 = pdx la) := by
  obtain ⟨h1, h2, h3⟩ := h
  by_cases hlt : laOf l.2.1 l.2.2 < la.toNat
  · exact .inl ⟨h1, h2, hlt⟩
  · refine .inr ⟨h1, BitVec.eq_of_toNat_eq ?_⟩
    have := l.2.2.isLt
    rw [pdx_toNat]
    simp only [laOf] at h3 hlt
    omega

theorem inRange_page {l : Slot} {a : ℕ} (hla : la.toNat % 4096 = 0)
    (h : InRange d a (la.toNat + 4096) l) :
    InRange d a la.toNat l ∨ l = (d, pdx la, ptx la) := by
  obtain ⟨h1, h2, h3⟩ := h
  by_cases hlt : laOf l.2.1 l.2.2 < la.toNat
  · exact .inl ⟨h1, h2, hlt⟩
  · have heq : laOf l.2.1 l.2.2 = laOf (pdx la) (ptx la) := by
      rw [laOf_la hla]
      simp only [laOf] at h3 hlt ⊢
      omega
    obtain ⟨h4, h5⟩ := laOf_inj heq
    exact .inr (Prod.ext h1 (Prod.ext h4 h5))

theorem inRange_mono {l : Slot} {a e e' : ℕ} (h : InRange d a e l) (he : e ≤ e') :
    InRange d a e' l := ⟨h.1, h.2.1, Nat.lt_of_lt_of_le h.2.2 he⟩

end InRange

theorem roundDown_toNat (la : BitVec 32) :
    (roundDown la ptsize).toNat = la.toNat - la.toNat % 4194304 := by
  have h : (la % ptsize).toNat = la.toNat % 4194304 := by
    rw [BitVec.toNat_umod]
    rfl
  rw [roundDown, BitVec.toNat_sub, h]
  have := Nat.mod_le la.toNat 4194304
  have := la.isLt
  omega

/-- Where the walk goes on when a table is missing. -/
theorem nextTable_toNat {la : BitVec 32} (h : la.toNat < 0x80000000) :
    (roundDown (la + ptsize) ptsize).toNat = (la.toNat / 4194304 + 1) * 4194304 := by
  rw [roundDown_toNat, BitVec.toNat_add, show ptsize.toNat = 4194304 from rfl]
  omega

theorem nextPage_toNat {la : BitVec 32} (h : la.toNat < 0x80000000) :
    (la + pgsize).toNat = la.toNat + 4096 := by
  rw [BitVec.toNat_add, show pgsize.toNat = 4096 from rfl]
  omega

theorem rangeOk_iff {start stop : BitVec 32} : Pmm.rangeOk start stop = true ↔
    start.toNat % 4096 = 0 ∧ stop.toNat % 4096 = 0 ∧ 0x200000 ≤ start.toNat ∧
      start.toNat < stop.toNat ∧ stop.toNat ≤ 0x80000000 := by
  have h1 : userBase.toNat = 0x200000 := rfl
  have h2 : userTop.toNat = 0x80000000 := rfl
  have h3 : ∀ la : BitVec 32, la % pgsize = 0#32 ↔ la.toNat % 4096 = 0 := by
    intro la
    rw [← BitVec.toNat_inj, BitVec.toNat_umod]
    rfl
  simp only [Pmm.rangeOk, userAccess, Bool.and_eq_true, decide_eq_true_eq, BitVec.le_def,
    BitVec.lt_def, h1, h2, h3, and_assoc]

/-! ## The walk -/

section Walk

variable {dirs : Finset ℕ} {d : ℕ} {stop : BitVec 32}
  {act : Pmm → BitVec 32 → ℕ × BitVec 10 → Except Stop Pmm}

/-- The end of a turn, with the address to go on at. -/
def walkOn (d : ℕ) (stop : BitVec 32)
    (act : Pmm → BitVec 32 → ℕ × BitVec 10 → Except Stop Pmm) (fuel : ℕ) (s : Pmm)
    (next : BitVec 32) : Except Stop Pmm :=
  if next ≠ 0#32 ∧ next < stop then Pmm.walkFrom d stop act fuel s next else .ok s

variable {s s' : Pmm} {start : BitVec 32} {fuel t : ℕ}

theorem walkFrom_absent (h : s.getPte d start false = .ok (s, none)) {next : BitVec 32}
    (hnext : next = roundDown (start + ptsize) ptsize) :
    Pmm.walkFrom d stop act (fuel + 1) s start = walkOn d stop act fuel s next := by
  rw [Pmm.walkFrom, h, ← hnext]
  rfl

theorem walkFrom_present {ptep : ℕ × BitVec 10}
    (h : s.getPte d start false = .ok (s, some ptep)) :
    Pmm.walkFrom d stop act (fuel + 1) s start
      = (act s start ptep).bind fun x => walkOn d stop act fuel x (start + pgsize) := by
  rw [Pmm.walkFrom, h]
  simp only [bind, Except.bind, pure, Except.pure]
  cases act s start ptep <;> rfl

/-- `I a s` says what has been done up to the address `a`. -/
theorem walkFrom_rule {F : Prop} (I : ℕ → Pmm → Prop) (hd : d ∈ dirs)
    (hstop : stop.toNat ≤ 0x80000000) (halign : stop.toNat % 4096 = 0)
    (hinv : ∀ a s, I a s → ∃ g managed live, Heap g managed s.area live ∧ Core s dirs live)
    (hskip : ∀ (la : BitVec 32) s, la.toNat % 4096 = 0 → la.toNat < stop.toNat → I la.toNat s →
      tableOf s dirs (d, pdx la) = none →
      I (min ((la.toNat / 4194304 + 1) * 4194304) stop.toNat) s)
    (hact : ∀ (la : BitVec 32) s t, la.toNat % 4096 = 0 → la.toNat < stop.toNat → I la.toNat s →
      tableOf s dirs (d, pdx la) = some t →
      (F ∧ act s la (t, ptx la) = .error .noMem) ∨
        ∃ s', act s la (t, ptx la) = .ok s' ∧ I (la.toNat + 4096) s')
    (hs : start.toNat % 4096 = 0) (hlt : start.toNat < stop.toNat)
    (hfuel : stop.toNat - start.toNat ≤ 4096 * fuel) (hI : I start.toNat s) :
    (F ∧ Pmm.walkFrom d stop act fuel s start = .error .noMem) ∨
      ∃ s', Pmm.walkFrom d stop act fuel s start = .ok s' ∧ I stop.toNat s' := by
  induction fuel generalizing s start with
  | zero => omega
  | succ fuel ih =>
    obtain ⟨g, managed, live, hh, hc⟩ := hinv _ _ hI
    have hvpt : pdx start ≠ vptx := pdx_ne_vptx (by omega)
    have hget := getPte_false hh hc hd hvpt
    have hnext : ∀ (x : Pmm) (next : BitVec 32), next.toNat % 4096 = 0 → start.toNat < next.toNat →
        I (min next.toNat stop.toNat) x →
        (F ∧ walkOn d stop act fuel x next = .error .noMem) ∨
          ∃ s', walkOn d stop act fuel x next = .ok s' ∧ I stop.toNat s' := by
      intro x next hal hgt hIx
      unfold walkOn
      by_cases hlt' : next.toNat < stop.toNat
      · have hne : next ≠ 0#32 := by
          intro h0
          rw [h0] at hgt
          simp at hgt
        rw [if_pos ⟨hne, hlt'⟩]
        rw [Nat.min_eq_left (Nat.le_of_lt hlt')] at hIx
        have hdist : 4096 ≤ next.toNat - start.toNat := by omega
        exact ih hal hlt' (by omega) hIx
      · rw [if_neg fun h => hlt' h.2]
        rw [Nat.min_eq_right (by omega)] at hIx
        exact .inr ⟨x, rfl, hIx⟩
    cases ht : tableOf s dirs (d, pdx start) with
    | none =>
      rw [ht] at hget
      have hn : (roundDown (start + ptsize) ptsize).toNat
          = (start.toNat / 4194304 + 1) * 4194304 := nextTable_toNat (by omega)
      have hI' := hskip start s hs hlt hI ht
      generalize hnx : roundDown (start + ptsize) ptsize = next at hn
      rw [walkFrom_absent hget hnx.symm]
      rw [← hn] at hI'
      exact hnext s next (by omega) (by omega) hI'
    | some t =>
      rw [ht] at hget
      have hn : (start + pgsize).toNat = start.toNat + 4096 := nextPage_toNat (by omega)
      rw [walkFrom_present hget]
      rcases hact start s t hs hlt hI ht with ⟨hF, he⟩ | ⟨s', he, hI'⟩
      · rw [he]
        exact .inl ⟨hF, rfl⟩
      · rw [he]
        generalize start + pgsize = next at hn ⊢
        rw [← hn] at hI'
        refine hnext s' next (by omega) (by omega) ?_
        rwa [Nat.min_eq_left (by omega)]

end Walk

end Ucore

end CacheCPU
