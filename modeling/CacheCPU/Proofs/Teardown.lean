import CacheCPU.Proofs.Ranges
import CacheCPU.Proofs.Vma
import Mathlib.Data.Set.Card
import Mathlib.Order.Interval.Finset.Nat

/-!
# Teardown of an address space

`exit_mmap` unmaps every area and then frees the page tables, and `put_pgdir` frees the directory.
Areas may share a page table, so that `exit_range` comes to an entry again that it has cleared.
-/

namespace CacheCPU

namespace Ucore

open FreeArea LinkedRing RefCount

/-! ## `unmap_range` -/

section Unmap

variable {g : ℕ → Bool} {managed live live' : ℕ → Prop} {s s' : Pmm} {dirs : Finset ℕ}
  {d t p : ℕ} {la start stop : BitVec 32} {R R' : Slot → Prop}

/-- The entries in `R` have been cleared, and the pages they mapped have been freed. -/
structure Unmapped (g : ℕ → Bool) (managed : ℕ → Prop) (dirs : Finset ℕ) (s : Pmm)
    (live : ℕ → Prop) (R : Slot → Prop) (s' : Pmm) (live' : ℕ → Prop) : Prop where
  good : Good g managed s' dirs live'
  table : tableOf s' dirs = tableOf s dirs
  gone : ∀ l, R l → mapped s' dirs l = none
  kept : ∀ l, ¬R l → mapped s' dirs l = mapped s dirs l
  live : ∀ q, live' q ↔ live q ∧ ¬∃ l, R l ∧ mapped s dirs l = some q
  links : ∀ q, live' q → links s' dirs q = links s dirs q

theorem Unmapped.refl (h : Good g managed s dirs live) :
    Unmapped g managed dirs s live (fun _ => False) s live :=
  ⟨h, rfl, fun _ hl => hl.elim, fun _ _ => rfl, fun q => by simp, fun _ _ => rfl⟩

/-- Entries that map nothing can be taken for cleared. -/
theorem Unmapped.extend (h : Unmapped g managed dirs s live R s' live') (hR : ∀ l, R l → R' l)
    (hnone : ∀ l, R' l → R l ∨ mapped s' dirs l = none) :
    Unmapped g managed dirs s live R' s' live' := by
  have hnew : ∀ l, R' l → ¬R l → mapped s dirs l = none := fun l hl hn =>
    h.kept l hn ▸ (hnone l hl).resolve_left hn
  refine ⟨h.good, h.table, fun l hl => ?_, fun l hl => h.kept l (mt (hR l) hl), fun q => ?_, h.links⟩
  · exact (hnone l hl).elim (h.gone l) id
  · rw [h.live q]
    refine and_congr_right fun _ => not_congr ⟨fun ⟨l, hl, hq⟩ => ⟨l, hR l hl, hq⟩, ?_⟩
    rintro ⟨l, hl, hq⟩
    by_cases hn : R l
    · exact ⟨l, hn, hq⟩
    · simp [hnew l hl hn] at hq

/-- A page with one reference goes when its entry does. -/
theorem Unmapped.remove (h : Unmapped g managed dirs s live R s' live') (hd : d ∈ dirs)
    (hla : pdx la ≠ vptx) (ht : tableOf s' dirs (d, pdx la) = some t)
    (hone : ∀ p, mapped s dirs (d, pdx la, ptx la) = some p → Ucore.links s dirs p = 1) :
    ∃ s'' live'', (if s'.mem t (ptx la) ≠ 0#32 then s'.pageRemovePte d la (t, ptx la) else .ok s')
        = .ok s''
      ∧ Unmapped g managed dirs s live (fun l => R l ∨ l = (d, pdx la, ptx la)) s'' live'' := by
  have hold := mapped_eq ht
  cases hp : mapped s' dirs (d, pdx la, ptx la) with
  | none =>
    refine ⟨s', live', ?_, h.extend (fun l hl => .inl hl) fun l hl => ?_⟩
    · split_ifs
      · rw [Pmm.pageRemovePte, if_neg (by simp [pteFrame_none (hold.symm.trans hp)])]
      · rfl
    · rcases hl with hl | rfl
      · exact .inl hl
      · exact .inr hp
  | some p =>
    have hnR : ¬R (d, pdx la, ptx la) := fun hR => by simp [h.gone _ hR] at hp
    have hps : mapped s dirs (d, pdx la, ptx la) = some p := h.kept _ hnR ▸ hp
    have hpl := (h.good.maps _ _ hp).1
    obtain ⟨a, live2, hrem, hh, hc, hr, hm, hlive⟩ :=
      pageRemovePte_spec h.good.heap h.good.core h.good.refs h.good.maps hd hla ht hp
        fun q => le_refl 0
    have hstore := links_store h.good.core ht (ptx la) 0#32
    rw [hp] at hstore
    simp only [show pteFrame 0#32 = none from rfl, reduceCtorEq, if_false, Nat.add_zero,
      Option.some.injEq] at hstore
    have hzero : Ucore.links (s'.store t (ptx la) 0#32) dirs p = 0 := by
      have h1 := hstore p
      rw [if_pos rfl, h.links p hpl, hone p hps] at h1
      omega
    have hne : s'.mem t (ptx la) ≠ 0#32 := by
      intro h0
      rw [hp, h0] at hold
      simp [pteFrame, show has 0#32 pteP = false from rfl] at hold
    have hmap : mapped ({ s' with area := a }.store t (ptx la) 0#32) dirs
        = Function.update (mapped s' dirs) (d, pdx la, ptx la) none :=
      mapped_store h.good.core ht (ptx la) 0#32
    have hlive2 : ∀ q, live2 q ↔ live' q ∧ q ≠ p := fun q => by
      rw [hlive q, hzero]
      simp
    refine ⟨_, live2, by rw [if_pos hne, hrem], ⟨hh, hc, hr, hm⟩, ?_, fun l hl => ?_, fun l hl => ?_,
      fun q => ?_, fun q hq => ?_⟩
    · exact (tableOf_store h.good.core ht (ptx la) 0#32).trans h.table
    · rw [hmap]
      by_cases hle : l = (d, pdx la, ptx la)
      · rw [hle, Function.update_self]
      · rw [Function.update_of_ne hle]
        exact h.gone l (hl.resolve_right hle)
    · rw [not_or] at hl
      rw [hmap, Function.update_of_ne hl.2, h.kept l hl.1]
    · rw [hlive2, h.live q, and_assoc]
      refine and_congr_right fun _ => ⟨?_, fun hn => ⟨?_, ?_⟩⟩
      · rintro ⟨hn, hqp⟩ ⟨l, hl | rfl, hq⟩
        · exact hn ⟨l, hl, hq⟩
        · exact hqp (Option.some.inj (hq.symm.trans hps))
      · rintro ⟨l, hl, hq⟩
        exact hn ⟨l, .inl hl, hq⟩
      · rintro rfl
        exact hn ⟨_, .inr rfl, hps⟩
    · have hq' := (hlive2 q).1 hq
      have h1 := hstore q
      have h2 : Ucore.links ({ s' with area := a }.store t (ptx la) 0#32) dirs q
          = Ucore.links (s'.store t (ptx la) 0#32) dirs q := congrFun (links_congr rfl) q
      rw [if_neg (Ne.symm hq'.2)] at h1
      rw [h2, ← h.links q hq'.1]
      omega

theorem Unmapped.unmapRange (h : Unmapped g managed dirs s live R s' live') (hd : d ∈ dirs)
    (hr : Pmm.rangeOk start stop = true)
    (hone : ∀ l p, InRange d start.toNat stop.toNat l → mapped s dirs l = some p →
      Ucore.links s dirs p = 1) :
    ∃ s'' live'', s'.unmapRange d start stop = .ok s''
      ∧ Unmapped g managed dirs s live
        (fun l => R l ∨ InRange d start.toNat stop.toNat l) s'' live'' := by
  obtain ⟨h1, h2, h3, h4, h5⟩ := rangeOk_iff.1 hr
  suffices hw : ∃ s'', s'.unmapRange d start stop = .ok s'' ∧ start.toNat ≤ stop.toNat
      ∧ ∃ live'', Unmapped g managed dirs s live
        (fun l => R l ∨ InRange d start.toNat stop.toNat l) s'' live'' by
    obtain ⟨s'', he, -, live'', hu⟩ := hw
    exact ⟨s'', live'', he, hu⟩
  rw [Pmm.unmapRange, if_pos hr]
  refine Or.resolve_left (walkFrom_rule (F := False)
    (fun a x => start.toNat ≤ a ∧ ∃ live'', Unmapped g managed dirs s live
      (fun l => R l ∨ InRange d start.toNat a l) x live'')
    hd h5 h2 (fun a x hx => ?_) (fun la x hal hlt hx ht => ?_) (fun la x t hal hlt hx ht => ?_)
    h1 h4 (show stop.toNat - start.toNat ≤ 4096 * 2 ^ 20 by omega)
    ⟨Nat.le_refl _, live', h.extend (fun l hl => .inl hl) fun l hl => .inl ?_⟩) fun hf => hf.1
  · obtain ⟨-, live'', hu⟩ := hx
    exact ⟨g, managed, live'', hu.good.heap, hu.good.core⟩
  · obtain ⟨hge, live'', hu⟩ := hx
    refine ⟨by omega, live'', hu.extend (fun l hl => ?_) fun l hl => ?_⟩
    · exact hl.imp_right fun hl => inRange_mono hl (by omega)
    · rcases hl with hl | hl
      · exact .inl (.inl hl)
      · refine (inRange_table hal hl).imp .inr fun hl' => ?_
        exact mapped_of_tableOf_none (by rw [hl'.1, hl'.2, ht])
  · obtain ⟨hge, live'', hu⟩ := hx
    have hvpt : pdx la ≠ vptx := pdx_ne_vptx (by omega)
    obtain ⟨x', live3, he, hu'⟩ := hu.remove hd hvpt ht fun p hp =>
      hone _ p ⟨rfl, by rw [laOf_la hal]; omega, by rw [laOf_la hal]; omega⟩ hp
    refine .inr ⟨x', he, by omega, live3, hu'.extend (fun l hl => ?_) fun l hl => .inl ?_⟩
    · rcases hl with (hl | hl) | rfl
      · exact .inl hl
      · exact .inr (inRange_mono hl (by omega))
      · exact .inr ⟨rfl, by rw [laOf_la hal]; omega, by rw [laOf_la hal]; omega⟩
    · rcases hl with hl | hl
      · exact .inl (.inl hl)
      · exact (inRange_page hal hl).imp_left .inr
  · rcases hl with hl | ⟨-, h6, h7⟩
    · exact hl
    · omega

end Unmap

/-! ## `exit_range` -/

section Exit

variable {g : ℕ → Bool} {managed live live' : ℕ → Prop} {s s' : Pmm} {dirs : Finset ℕ}
  {d t : ℕ} {start stop : BitVec 32} {T T' : ℕ × BitVec 10 → Prop}

/-- The directory entries in `T` have been cleared, and the tables have been freed. What the tables
mapped outside the areas may have lost its last mapping, so the counts are no part of this. -/
structure Torn (g : ℕ → Bool) (managed : ℕ → Prop) (dirs : Finset ℕ) (s : Pmm)
    (live : ℕ → Prop) (T : ℕ × BitVec 10 → Prop) (s' : Pmm) (live' : ℕ → Prop) : Prop where
  heap : Heap g managed s'.area live'
  core : Core s' dirs live'
  gone : ∀ x, T x → tableOf s' dirs x = none
  kept : ∀ x, ¬T x → tableOf s' dirs x = tableOf s dirs x
  live : ∀ q, live' q ↔ live q ∧ ¬∃ x, T x ∧ tableOf s dirs x = some q

theorem Torn.refl (hh : Heap g managed s.area live) (hc : Core s dirs live) :
    Torn g managed dirs s live (fun _ => False) s live :=
  ⟨hh, hc, fun _ hx => hx.elim, fun _ _ => rfl, fun q => by simp⟩

theorem Torn.congr (h : Torn g managed dirs s live T s' live') (hT : ∀ x, T x ↔ T' x) :
    Torn g managed dirs s live T' s' live' := by
  obtain rfl : T = T' := funext fun x => propext (hT x)
  exact h

/-- A directory entry is cleared. -/
theorem tableOf_clear (a : FreeArea) (i : BitVec 10) :
    tableOf ({ s with area := a }.store d i 0#32) dirs
      = Function.update (tableOf s dirs) (d, i) none := by
  funext ⟨d', i'⟩
  by_cases hx : (d', i') = (d, i)
  · obtain ⟨rfl, rfl⟩ := Prod.mk.inj hx
    rw [Function.update_self, tableOf, store_mem_self]
    split_ifs <;> rfl
  · rw [Function.update_of_ne hx]
    unfold tableOf
    by_cases hd : d' = d
    · subst hd
      rw [store_mem_index _ fun hi => hx (Prod.ext rfl hi)]
    · rw [store_mem_frame _ _ hd]

/-- One turn of the loop. -/
def exitTable (s : Pmm) (d : ℕ) (start : BitVec 32) : Except Stop Pmm :=
  if has (s.mem d (pdx start)) pteP then do
    let t ← s.pa2page (s.mem d (pdx start))
    let s ← s.freePage t
    return s.store d (pdx start) 0#32
  else .ok s

theorem Torn.exitTable (h : Torn g managed dirs s live T s' live') (hd : d ∈ dirs)
    (hla : pdx start ≠ vptx) :
    ∃ s'' live'', exitTable s' d start = .ok s''
      ∧ Torn g managed dirs s live (fun x => T x ∨ x = (d, pdx start)) s'' live'' := by
  have htab := tableOf_eq (s := s') hd hla
  unfold Ucore.exitTable
  cases ht : tableOf s' dirs (d, pdx start) with
  | none =>
    rw [if_neg (by simp [pteFrame_none (htab.symm.trans ht)])]
    refine ⟨s', live', rfl, h.heap, h.core, fun x hx => ?_, fun x hx => h.kept x fun hT => hx (.inl hT),
      fun q => ?_⟩
    · rcases hx with hx | rfl
      · exact h.gone x hx
      · exact ht
    · rw [h.live q]
      refine and_congr_right fun _ => not_congr ⟨fun ⟨x, hx, hq⟩ => ⟨x, .inl hx, hq⟩, ?_⟩
      rintro ⟨x, hx, hq⟩
      by_cases hT : T x
      · exact ⟨x, hT, hq⟩
      · rw [← h.kept x hT, hx.resolve_left hT, ht] at hq
        simp at hq
  | some t =>
    obtain ⟨hp, hf⟩ := pteFrame_some (htab.symm.trans ht)
    obtain ⟨hlt, htd⟩ := h.core.tableLive ht
    obtain ⟨a, hfree, hh, -, -⟩ := h.heap.freePage hlt
    have hnT : ¬T (d, pdx start) := fun hT => by simp [h.gone _ hT] at ht
    have hts : tableOf s dirs (d, pdx start) = some t := h.kept _ hnT ▸ ht
    have hclear : tableOf ({ s' with area := a }.store d (pdx start) 0#32) dirs
        = Function.update (tableOf s' dirs) (d, pdx start) none := tableOf_clear a (pdx start)
    rw [if_pos hp, h.heap.pa2page (hf ▸ hlt), hf]
    refine ⟨{ s' with area := a }.store d (pdx start) 0#32, fun q => live' q ∧ q ≠ t, ?_, hh,
      ⟨fun x hx => ⟨h.core.dirLive x hx, fun he => htd (he ▸ hx)⟩, fun {x q} hx => ?_,
        fun {x x' q} hx hx' => ?_⟩, fun x hx => ?_, fun x hx => ?_, fun q => ?_⟩
    · change (s'.freePage t).bind _ = _
      rw [hfree]
      rfl
    · rw [hclear] at hx
      by_cases he : x = (d, pdx start)
      · simp [he] at hx
      · rw [Function.update_of_ne he] at hx
        have := h.core.tableLive hx
        exact ⟨⟨this.1, fun hq => he (h.core.tableInj (hq ▸ hx) ht)⟩, this.2⟩
    · rw [hclear] at hx hx'
      by_cases he : x = (d, pdx start)
      · simp [he] at hx
      · by_cases he' : x' = (d, pdx start)
        · simp [he'] at hx'
        · rw [Function.update_of_ne he] at hx
          rw [Function.update_of_ne he'] at hx'
          exact h.core.tableInj hx hx'
    · rw [hclear]
      by_cases he : x = (d, pdx start)
      · rw [he, Function.update_self]
      · rw [Function.update_of_ne he]
        exact h.gone x (hx.resolve_right he)
    · rw [not_or] at hx
      rw [hclear, Function.update_of_ne hx.2, h.kept x hx.1]
    · rw [h.live q, and_assoc]
      refine and_congr_right fun _ => ⟨?_, fun hn => ⟨?_, ?_⟩⟩
      · rintro ⟨hn, hqt⟩ ⟨x, hx | rfl, hq⟩
        · exact hn ⟨x, hx, hq⟩
        · exact hqt (Option.some.inj (hq.symm.trans hts))
      · rintro ⟨x, hx, hq⟩
        exact hn ⟨x, .inl hx, hq⟩
      · rintro rfl
        exact hn ⟨_, .inr rfl, hts⟩

/-- The directory entries from the address `a` to `e`. -/
def TableRange (d a e : ℕ) (x : ℕ × BitVec 10) : Prop :=
  x.1 = d ∧ a ≤ x.2.toNat * 4194304 ∧ x.2.toNat * 4194304 < e

/-- The end of a turn, with the address to go on at. -/
def exitOn (d : ℕ) (stop : BitVec 32) (fuel : ℕ) (s : Pmm) (next : BitVec 32) :
    Except Stop Pmm :=
  if next ≠ 0#32 ∧ next < stop then Pmm.exitFrom d stop fuel s next else .ok s

theorem exitFrom_succ (fuel : ℕ) {next : BitVec 32} (hnext : next = start + ptsize) :
    Pmm.exitFrom d stop (fuel + 1) s start
      = (exitTable s d start).bind fun x => exitOn d stop fuel x next := by
  rw [Pmm.exitFrom, ← hnext]
  unfold exitTable exitOn
  rfl

theorem Torn.exitFrom (h : Torn g managed dirs s live T s' live') (hd : d ∈ dirs)
    (hal : start.toNat % 4194304 = 0) (hlt : start.toNat < stop.toNat)
    (hstop : stop.toNat ≤ 0x80000000) {fuel : ℕ}
    (hfuel : stop.toNat - start.toNat ≤ 4194304 * fuel) :
    ∃ s'' live'', Pmm.exitFrom d stop fuel s' start = .ok s''
      ∧ Torn g managed dirs s live
        (fun x => T x ∨ TableRange d start.toNat stop.toNat x) s'' live'' := by
  induction fuel generalizing s' live' T start with
  | zero => omega
  | succ fuel ih =>
    obtain ⟨s1, live1, he, h1⟩ := h.exitTable hd (pdx_ne_vptx (show start.toNat < 0x80000000 by omega))
    obtain ⟨next, hnx, hn⟩ : ∃ next, next = start + ptsize
        ∧ next.toNat = start.toNat + 4194304 := ⟨_, rfl, by
      rw [BitVec.toNat_add, show ptsize.toNat = 4194304 from rfl]
      omega⟩
    have hfirst : ∀ x : ℕ × BitVec 10, (x = (d, pdx start) ∨ TableRange d next.toNat stop.toNat x) ↔
        TableRange d start.toNat stop.toNat x := by
      intro x
      have hi : x = (d, pdx start) ↔ x.1 = d ∧ x.2.toNat * 4194304 = start.toNat := by
        rw [Prod.ext_iff, ← BitVec.toNat_inj, pdx_toNat]
        simp only
        exact and_congr_right fun _ => by omega
      rw [hi]
      simp only [TableRange, hn]
      omega
    rw [exitFrom_succ fuel hnx, he]
    change ∃ s'' live'', exitOn d stop fuel s1 next = .ok s'' ∧ _
    unfold exitOn
    by_cases hlt' : next.toNat < stop.toNat
    · have hne : next ≠ 0#32 := by
        intro h0
        rw [h0, BitVec.toNat_zero] at hn
        omega
      rw [if_pos ⟨hne, hlt'⟩]
      obtain ⟨s2, live2, he2, h2⟩ := ih h1 (by omega) hlt' (by omega)
      exact ⟨s2, live2, he2, h2.congr fun x => by rw [or_assoc, hfirst x]⟩
    · rw [if_neg fun hc => hlt' hc.2]
      refine ⟨s1, live1, rfl, h1.congr fun x => ?_⟩
      rw [← hfirst x]
      simp only [TableRange]
      refine or_congr_right ⟨.inl, fun hx => hx.resolve_right fun hx => ?_⟩
      omega

theorem Torn.exitRange (h : Torn g managed dirs s live T s' live') (hd : d ∈ dirs)
    (hr : Pmm.rangeOk start stop = true) :
    ∃ s'' live'', s'.exitRange d start stop = .ok s''
      ∧ Torn g managed dirs s live
        (fun x => T x ∨ TableRange d (start.toNat / 4194304 * 4194304) stop.toNat x) s'' live'' := by
  obtain ⟨h1, h2, h3, h4, h5⟩ := rangeOk_iff.1 hr
  have hn := roundDown_toNat start
  rw [Pmm.exitRange, if_pos hr]
  generalize roundDown start ptsize = first at hn
  obtain ⟨s'', live'', he, ht⟩ := h.exitFrom hd
    (show first.toNat % 4194304 = 0 by omega) (by omega) h5
    (show stop.toNat - first.toNat ≤ 4194304 * 2 ^ 20 by omega)
  refine ⟨s'', live'', he, ?_⟩
  rwa [show start.toNat / 4194304 * 4194304 = first.toNat by omega]

end Exit

/-! ## The number of free pages -/

section Count

variable {g : ℕ → Bool} {managed live : ℕ → Prop} {a : FreeArea}

theorem ncard_covers {bs : List Block} (h : bs.Pairwise Block.Before) :
    {p | Covers bs p}.Finite ∧ {p | Covers bs p}.ncard = (bs.map Prod.snd).sum := by
  induction bs with
  | nil => simp [Covers]
  | cons b bs ih =>
    obtain ⟨hb, hbs⟩ := List.pairwise_cons.1 h
    obtain ⟨hfin, hcard⟩ := ih hbs
    have hblock : {p | b.Has p} = ↑(Finset.Ico b.1 (b.1 + b.2)) := by
      ext p
      simp [Block.Has]
    have hunion : {p | Covers (b :: bs) p} = {p | b.Has p} ∪ {p | Covers bs p} := by
      ext p
      simp [covers_cons]
    have hdisj : Disjoint {p | b.Has p} {p | Covers bs p} := by
      rw [Set.disjoint_left]
      rintro p hp ⟨c, hc, hcp⟩
      have := hb c hc
      simp only [Set.mem_ofPred_eq, Block.Has, Block.Before] at *
      omega
    have hbfin : {p | b.Has p}.Finite := hblock ▸ Finset.finite_toSet _
    refine ⟨hunion ▸ hbfin.union hfin, ?_⟩
    rw [hunion, Set.ncard_union_eq hdisj hbfin hfin, hcard, hblock, Set.ncard_coe_finset]
    simp

theorem Heap.finite (h : Heap g managed a live) : {p | managed p}.Finite :=
  (Set.finite_lt_nat a.npage).subset fun p hp => h.lt p hp

/-- Every managed page is free or in use. -/
theorem Heap.nrFree (h : Heap g managed a live) :
    a.nrFree + {p | live p}.ncard = {p | managed p}.ncard := by
  obtain ⟨bs, hok⟩ := h.ok
  obtain ⟨hfin, hcard⟩ := ncard_covers hok.list.sorted
  have hunion : {p | managed p} = {p | Covers bs p} ∪ {p | live p} := by
    ext p
    exact hok.cover p
  have hlive : {p | live p}.Finite := h.finite.subset fun p hp => (hok.cover p).2 (.inr hp)
  have hdisj : Disjoint {p | Covers bs p} {p | live p} := Set.disjoint_left.2 hok.disjoint
  rw [hunion, Set.ncard_union_eq hdisj hfin hlive, hcard, hok.sum]

theorem Heap.finite_live (h : Heap g managed a live) : {p | live p}.Finite := by
  obtain ⟨bs, hok⟩ := h.ok
  exact h.finite.subset fun p hp => (hok.cover p).2 (.inr hp)

/-- Where all pages are in use but for those in `W`, no more than these are free. -/
theorem Heap.nrFree_le (h : Heap g managed a live) {W : Set ℕ} (hW : W.Finite)
    (hall : ∀ q, managed q → live q ∨ q ∈ W) : a.nrFree ≤ W.ncard := by
  have hsub : {p | managed p} ⊆ {p | live p} ∪ W := hall
  have hcard := Set.ncard_le_ncard hsub (h.finite_live.union hW)
  have hunion := Set.ncard_union_le {p | live p} W
  have := h.nrFree
  omega

/-- Where the pages in `W` have been taken, no more than these are not free any longer. -/
theorem Heap.nrFree_le_add {a' : FreeArea} {live' : ℕ → Prop} (h : Heap g managed a live)
    (h' : Heap g managed a' live') {W : Set ℕ} (hW : W.Finite)
    (htaken : ∀ q, live' q → live q ∨ q ∈ W) : a.nrFree ≤ a'.nrFree + W.ncard := by
  have hsub : {p | live' p} ⊆ {p | live p} ∪ W := htaken
  have hcard := Set.ncard_le_ncard hsub (h.finite_live.union hW)
  have hunion := Set.ncard_union_le {p | live p} W
  have h1 := h.nrFree
  have h2 := h'.nrFree
  omega

/-- What has been freed is what `nr_free` has gained. -/
theorem Heap.nrFree_gain {a' : FreeArea} {live' gone : ℕ → Prop} (h : Heap g managed a live)
    (h' : Heap g managed a' live') (hlive : ∀ q, live' q ↔ live q ∧ ¬gone q) :
    a'.nrFree = a.nrFree + {q | live q ∧ gone q}.ncard := by
  have hfin := h.finite_live
  have hsplit : {q | live q} = {q | live' q} ∪ {q | live q ∧ gone q} := by
    ext q
    simp only [Set.mem_ofPred_eq, Set.mem_union, hlive q]
    tauto
  have hdisj : Disjoint {q | live' q} {q | live q ∧ gone q} :=
    Set.disjoint_left.2 fun q hq hq' => ((hlive q).1 hq).2 hq'.2
  have hcard : {q | live q}.ncard = {q | live' q}.ncard + {q | live q ∧ gone q}.ncard := by
    rw [hsplit]
    exact Set.ncard_union_eq hdisj (hfin.subset fun q hq => ((hlive q).1 hq).1)
      (hfin.subset fun q hq => hq.1)
  have h1 := h.nrFree
  have h2 := h'.nrFree
  omega

end Count

/-! ## The whole address space -/

namespace Mm

variable {m : Mm} {vs pre post : List ℕ} {s : Pmm} {dirs : Finset ℕ}

/-- A loop over the areas: what has been done for those before. -/
theorem forAreas_rule (I : List ℕ → Pmm → Prop)
    {f : Pmm → BitVec 32 → BitVec 32 → Except Stop Pmm} (h : Areas m (pre ++ post))
    (hstep : ∀ xs v s, v ∈ post → I xs s →
      ∃ s', f s (m.vma v).vmStart (m.vma v).vmEnd = .ok s' ∧ I (xs ++ [v]) s')
    {fuel : ℕ} (hfuel : post.length < fuel) (hI : I pre s) :
    ∃ s', m.forAreas f fuel pre.getLast? s = .ok s' ∧ I (pre ++ post) s' := by
  induction post generalizing pre fuel s with
  | nil =>
    obtain ⟨fuel, rfl⟩ : ∃ k, fuel = k + 1 := ⟨fuel - 1, by omega⟩
    have hnext : m.link.next pre.getLast? = none := h.next_eq
    refine ⟨s, by rw [forAreas, hnext], ?_⟩
    rwa [List.append_nil]
  | cons v post ih =>
    obtain ⟨fuel, rfl⟩ : ∃ k, fuel = k + 1 := ⟨fuel - 1, by omega⟩
    have hnext : m.link.next pre.getLast? = some v := h.next_eq
    obtain ⟨s1, he, hI1⟩ := hstep pre v s (by simp) hI
    have h' : Areas m (pre ++ [v] ++ post) := by simpa using h
    obtain ⟨s2, he2, hI2⟩ := ih h' (fun xs w x hw => hstep xs w x (List.mem_cons_of_mem v hw))
      (show post.length < fuel by simpa using hfuel) hI1
    refine ⟨s2, ?_, by simpa using hI2⟩
    rw [List.getLast?_concat] at he2
    rw [forAreas, hnext]
    change (f s (m.vma v).vmStart (m.vma v).vmEnd).bind _ = _
    rw [he]
    exact he2

/-- The areas are page-aligned and inside user space. -/
def UserAreas (m : Mm) (vs : List ℕ) : Prop :=
  ∀ v ∈ vs, Pmm.rangeOk (m.vma v).vmStart (m.vma v).vmEnd = true

/-- The pages of an address space: the directory, and for each address of an area the page table
and the page that is mapped there. -/
def Owns (m : Mm) (vs : List ℕ) (s : Pmm) (dirs : Finset ℕ) (q : ℕ) : Prop :=
  q = m.pgdir ∨ ∃ v ∈ vs, ∃ la, m.contains v la = true
    ∧ (tableOf s dirs (m.pgdir, pdx la) = some q
      ∨ mapped s dirs (m.pgdir, pdx la, ptx la) = some q)

/-- No page of an area is mapped anywhere else. -/
def Unshared (m : Mm) (vs : List ℕ) (s : Pmm) (dirs : Finset ℕ) : Prop :=
  ∀ v ∈ vs, ∀ la p, m.contains v la = true → mapped s dirs (m.pgdir, pdx la, ptx la) = some p →
    links s dirs p = 1

/-- The page table entries of the areas. -/
def AreaSlot (m : Mm) (vs : List ℕ) (l : Slot) : Prop :=
  ∃ v ∈ vs, InRange m.pgdir (m.vma v).vmStart.toNat (m.vma v).vmEnd.toNat l

/-- The directory entries of the areas. -/
def AreaTable (m : Mm) (vs : List ℕ) (x : ℕ × BitVec 10) : Prop :=
  ∃ v ∈ vs, TableRange m.pgdir ((m.vma v).vmStart.toNat / 4194304 * 4194304)
    (m.vma v).vmEnd.toNat x

theorem areaSlot_concat {v : ℕ} {l : Slot} : AreaSlot m (vs ++ [v]) l ↔
    AreaSlot m vs l ∨ InRange m.pgdir (m.vma v).vmStart.toNat (m.vma v).vmEnd.toNat l := by
  simp [AreaSlot, or_and_right, exists_or]

theorem areaTable_concat {v : ℕ} {x : ℕ × BitVec 10} : AreaTable m (vs ++ [v]) x ↔
    AreaTable m vs x ∨ TableRange m.pgdir ((m.vma v).vmStart.toNat / 4194304 * 4194304)
      (m.vma v).vmEnd.toNat x := by
  simp [AreaTable, or_and_right, exists_or]

theorem areaSlot_iff (hu : UserAreas m vs) {l : Slot} : AreaSlot m vs l ↔
    ∃ v ∈ vs, ∃ la, m.contains v la = true ∧ l = (m.pgdir, pdx la, ptx la) := by
  refine exists_congr fun v => and_congr_right fun hv => ⟨?_, ?_⟩
  · rintro ⟨h1, h2, h3⟩
    have hlt : laOf l.2.1 l.2.2 < 2 ^ 32 := by omega
    obtain ⟨la, hla⟩ : ∃ la : BitVec 32, la.toNat = laOf l.2.1 l.2.2 :=
      ⟨BitVec.ofNat 32 _, Nat.mod_eq_of_lt hlt⟩
    have hal : la.toNat % 4096 = 0 := by
      rw [hla, laOf]
      omega
    obtain ⟨h4, h5⟩ := laOf_inj ((laOf_la hal).trans hla)
    refine ⟨la, ?_, Prod.ext h1 (Prod.ext h4.symm h5.symm)⟩
    rw [contains_iff, BitVec.le_def, BitVec.lt_def]
    omega
  · rintro ⟨la, hc, rfl⟩
    rw [contains_iff, BitVec.le_def, BitVec.lt_def] at hc
    obtain ⟨h1, -⟩ := rangeOk_iff.1 (hu v hv)
    refine ⟨rfl, ?_, ?_⟩ <;>
    · rw [laOf, pdx_toNat, ptx_toNat]
      omega

theorem areaTable_iff (h : Areas m vs) {x : ℕ × BitVec 10} : AreaTable m vs x ↔
    ∃ v ∈ vs, ∃ la, m.contains v la = true ∧ x = (m.pgdir, pdx la) := by
  refine exists_congr fun v => and_congr_right fun hv => ⟨?_, ?_⟩
  · rintro ⟨h1, h2, h3⟩
    have hve := (m.vma v).vmEnd.isLt
    have hne := BitVec.lt_def.1 (h.nonempty v hv)
    -- the first address of the table that lies in the area
    obtain ⟨la, hla⟩ : ∃ la : BitVec 32,
        la.toNat = max (m.vma v).vmStart.toNat (x.2.toNat * 4194304) :=
      ⟨BitVec.ofNat 32 _, Nat.mod_eq_of_lt (by omega)⟩
    refine ⟨la, ?_, Prod.ext h1 (BitVec.eq_of_toNat_eq ?_)⟩
    · rw [contains_iff, BitVec.le_def, BitVec.lt_def]
      omega
    · rw [pdx_toNat]
      omega
  · rintro ⟨la, hc, rfl⟩
    rw [contains_iff, BitVec.le_def, BitVec.lt_def] at hc
    refine ⟨rfl, ?_, ?_⟩ <;>
    · rw [pdx_toNat]
      omega

theorem destroyFrom_spec {m : Mm} (h : m.link.IsRing vs) {fuel : ℕ} (hfuel : vs.length < fuel) :
    m.destroyFrom fuel = some vs := by
  induction vs generalizing m fuel with
  | nil =>
    obtain ⟨fuel, rfl⟩ : ∃ k, fuel = k + 1 := ⟨fuel - 1, by omega⟩
    have h0 : m.link.IsRing ([] ++ []) := h
    have hnext : m.link.next none = none := h0.next_eq
    rw [destroyFrom, hnext]
  | cons v vs ih =>
    obtain ⟨fuel, rfl⟩ : ∃ k, fuel = k + 1 := ⟨fuel - 1, by omega⟩
    have h0 : m.link.IsRing ([] ++ v :: vs) := h
    have hnext : m.link.next none = some v := h0.next_eq
    have hdel : (m.link.del (some v)).IsRing vs := h0.del
    rw [destroyFrom, hnext]
    simp only
    rw [ih (m := { m with link := m.link.del (some v) }) hdel (by simpa using hfuel)]
    rfl

/-- `exit_mmap`, `put_pgdir` and `mm_destroy` give back what the address space owns, each page
once, and nothing else. -/
theorem Areas.teardown (h : Areas m vs) (hu : UserAreas m vs)
    {g : ℕ → Bool} {managed live : ℕ → Prop} (hg : Good g managed s dirs live)
    (hd : m.pgdir ∈ dirs) (hcount : m.mmCount = 0) (hone : Unshared m vs s dirs) :
    ∃ s1 s2, m.exitMmap s = .ok s1 ∧ m.putPgdir s1 = .ok s2 ∧ m.mmDestroy = some vs
      ∧ (∀ q, InUse s2 q ↔ InUse s q ∧ ¬m.Owns vs s dirs q)
      ∧ s2.area.nrFree = s.area.nrFree + {q | InUse s q ∧ m.Owns vs s dirs q}.ncard := by
  have h0 : Areas m ([] ++ vs) := h
  have hfuel : vs.length < m.mapCount + 1 := by
    have := h.count
    omega
  -- the pages
  obtain ⟨s1, he1, live1, h1⟩ := forAreas_rule (f := fun s => s.unmapRange m.pgdir)
    (fun xs x => ∃ live', Unmapped g managed dirs s live (AreaSlot m xs) x live') h0
    (fun xs v x hv ⟨live', hx⟩ => by
      obtain ⟨x', live'', he, hx'⟩ := hx.unmapRange hd (hu v hv) fun l p hl hp => by
        obtain ⟨w, hw, la, hc, rfl⟩ := (areaSlot_iff hu).1 ⟨v, hv, hl⟩
        exact hone w hw la p hc hp
      refine ⟨x', he, live'', ?_⟩
      rwa [show AreaSlot m (xs ++ [v]) = _ from funext fun l => propext areaSlot_concat])
    hfuel ⟨live, by
      rw [show AreaSlot m [] = fun _ => False by
        funext l
        simp [AreaSlot]]
      exact Unmapped.refl hg⟩
  -- the page tables
  obtain ⟨s2, he2, live2, h2⟩ := forAreas_rule (f := fun s => s.exitRange m.pgdir)
    (fun xs x => ∃ live', Torn g managed dirs s1 live1 (AreaTable m xs) x live') h0
    (fun xs v x hv ⟨live', hx⟩ => by
      obtain ⟨x', live'', he, hx'⟩ := hx.exitRange hd (hu v hv)
      exact ⟨x', he, live'', hx'.congr fun l => areaTable_concat.symm⟩)
    hfuel ⟨live1, (Torn.refl h1.good.heap h1.good.core).congr fun x => by simp [AreaTable]⟩
  -- the directory
  obtain ⟨a, he3, hh3, -, -⟩ := h2.heap.freePage (h2.core.dirLive _ hd)
  rw [List.nil_append] at h1 h2
  have hlive : ∀ q, (live2 q ∧ q ≠ m.pgdir) ↔ live q ∧ ¬m.Owns vs s dirs q := by
    intro q
    have hslot : (∃ l, AreaSlot m vs l ∧ mapped s dirs l = some q) ↔
        ∃ v ∈ vs, ∃ la, m.contains v la = true
          ∧ mapped s dirs (m.pgdir, pdx la, ptx la) = some q := by
      constructor
      · rintro ⟨l, hl, hq⟩
        obtain ⟨v, hv, la, hc, rfl⟩ := (areaSlot_iff hu).1 hl
        exact ⟨v, hv, la, hc, hq⟩
      · rintro ⟨v, hv, la, hc, hq⟩
        exact ⟨_, (areaSlot_iff hu).2 ⟨v, hv, la, hc, rfl⟩, hq⟩
    have htable : (∃ x, AreaTable m vs x ∧ tableOf s1 dirs x = some q) ↔
        ∃ v ∈ vs, ∃ la, m.contains v la = true ∧ tableOf s dirs (m.pgdir, pdx la) = some q := by
      rw [h1.table]
      constructor
      · rintro ⟨x, hx, hq⟩
        obtain ⟨v, hv, la, hc, rfl⟩ := (areaTable_iff h).1 hx
        exact ⟨v, hv, la, hc, hq⟩
      · rintro ⟨v, hv, la, hc, hq⟩
        exact ⟨_, (areaTable_iff h).2 ⟨v, hv, la, hc, rfl⟩, hq⟩
    rw [h2.live q, h1.live q, hslot, htable, Owns]
    simp only [and_or_left, exists_or]
    rw [not_or, not_or]
    exact ⟨fun ⟨⟨⟨h3, h4⟩, h5⟩, h6⟩ => ⟨h3, h6, h5, h4⟩, fun ⟨h3, h6, h5, h4⟩ => ⟨⟨⟨h3, h4⟩, h5⟩, h6⟩⟩
  refine ⟨s2, { s2 with area := a }, ?_, he3, ?_, fun q => ?_, ?_⟩
  · rw [exitMmap, if_pos hcount]
    change (m.forAreas (fun s => s.unmapRange m.pgdir) (m.mapCount + 1) none s).bind _ = _
    have he1' : m.forAreas (fun s => s.unmapRange m.pgdir) (m.mapCount + 1) none s = .ok s1 := he1
    rw [he1']
    exact he2
  · rw [mmDestroy, if_pos hcount]
    exact destroyFrom_spec h.ring hfuel
  · rw [hh3.inUse_iff, hg.heap.inUse_iff]
    exact hlive q
  · rw [show {q | InUse s q ∧ m.Owns vs s dirs q} = {q | live q ∧ m.Owns vs s dirs q} from
      Set.ext fun q => and_congr_left' hg.heap.inUse_iff]
    exact hg.heap.nrFree_gain hh3 hlive

end Mm

end Ucore

end CacheCPU
