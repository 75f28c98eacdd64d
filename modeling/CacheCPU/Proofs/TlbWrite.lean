import CacheCPU.Proofs.MappedRead
import CacheCPU.Ucore.Tlb

/-!
# `tlb_write` on the CPU

The four `MTC0` and the `TLBWI` of `tlb_write` store one entry, and the lookup reads back the
frames and the write bits that `ENTRYLO` packed into it. Only the page pair written and the one
that the entry held before are looked up differently.
-/

namespace CacheCPU

namespace Ucore

/-! ## The fields of the entry written -/

section Entry

variable (hi lo0 lo1 pte la x : BitVec 32) (odd : Bool)

@[simp] theorem vpn2Of_tlbEntry : vpn2Of (tlbEntry hi lo0 lo1) = hi.extractLsb 31 13 := by
  unfold vpn2Of tlbEntry
  ext j hj
  grind

@[simp] theorem frameOf_tlbEntry :
    frameOf (tlbEntry hi lo0 lo1) odd = (if odd then lo1 else lo0).extractLsb 25 6 := by
  unfold frameOf tlbEntry
  cases odd
  · ext j hj
    grind
  · ext j hj
    grind

@[simp] theorem dirtyOf_tlbEntry :
    dirtyOf (tlbEntry hi lo0 lo1) odd = (if odd then lo1 else lo0).getLsbD 2 := by
  unfold dirtyOf tlbEntry
  cases odd <;> grind

@[simp] theorem validOf_tlbEntry :
    validOf (tlbEntry hi lo0 lo1) odd = (if odd then lo1 else lo0).getLsbD 1 := by
  unfold validOf tlbEntry
  cases odd <;> grind

theorem entryLo_frame : (entryLo pte).extractLsb 25 6 = pte.extractLsb 31 12 := by
  have hlow : ∀ v : BitVec 32, v.toNat < 2 ^ 6 → ∀ j, v.getLsbD (j + 6) = false := by
    intro v hv j
    exact Nat.testBit_lt_two_pow (hv.trans_le (Nat.pow_le_pow_right (by decide) (by omega)))
  have hd : ((pte >>> 1 &&& 1#32) <<< 2).toNat < 2 ^ 6 := by
    have : (pte >>> 1 &&& 1#32).toNat ≤ 1 := by
      rw [BitVec.toNat_and]
      exact Nat.and_le_right
    rw [BitVec.toNat_shiftLeft]
    omega
  unfold entryLo entryLoAux ppn
  ext j hj
  have h1 := hlow (2#32 <<< 3) (by decide) j
  have h2 := hlow 3#32 (by decide) j
  have h3 := hlow _ hd j
  simp only [BitVec.getElem_extractLsb', BitVec.extractLsb, BitVec.getLsbD_or, Nat.add_comm 6 j,
    h1, h2, h3]
  grind

theorem entryLo_dirty : (entryLo pte).getLsbD 2 = pte.getLsbD 1 := by
  unfold entryLo entryLoAux ppn
  simp

theorem entryLo_valid : (entryLo pte).getLsbD 1 = true := by
  unfold entryLo entryLoAux ppn
  simp

theorem has_twoPow (k : ℕ) (hk : k < 32) : has pte (BitVec.twoPow 32 k) = pte.getLsbD k := by
  have hne : BitVec.twoPow 32 k ≠ 0#32 := by
    intro h
    have := congrArg (fun v => v.getLsbD k) h
    simp [hk] at this
  rw [has, BitVec.and_twoPow]
  cases pte.getLsbD k <;> simp [hne]

theorem has_pteW : has pte pteW = pte.getLsbD 1 := has_twoPow pte 1 (by decide)

theorem hiOf_vpn2 : (hiOf la).extractLsb 31 13 = la.extractLsb 31 13 := by
  have hmask : ∀ j < 19, (0xffffe000#32).getLsbD (13 + j) = true := by decide
  unfold hiOf
  ext j hj
  have := hmask j (by omega)
  simp [BitVec.extractLsb, this]

theorem frame_append : pte.extractLsb 31 12 ++ x.extractLsb 11 0 =
    ppn pte <<< 12 ||| (x &&& 0xfff#32) := by
  have hmask : ∀ j < 32, (0xfff#32).getLsbD j = decide (j < 12) := by decide
  unfold ppn
  ext j hj
  have := hmask j (by omega)
  grind

end Entry

/-! ## The lookup after a write -/

/-- What a half of an entry is written as. -/
inductive Half
  | pte (p : BitVec 32)
  | invalid

/-- `ENTRYLO(pte)` or `ENTRYLO_INVALID`. -/
def Half.lo : Half → BitVec 32
  | .pte p => entryLo p
  | .invalid => entryLoInvalid

/-- The MMU with TLB `t` translates `x` as the half says. -/
def Half.Translates (t : Tlb) (x : BitVec 32) : Half → Prop
  | .pte p => tlbMissing t x = false ∧ physicalAddr t x = ppn p <<< 12 ||| (x &&& 0xfff#32) ∧
      tlbWritable t x = has p pteW
  | .invalid => tlbMissing t x = true

section Write

variable {t : Tlb} {idx : Fin 16} {la hi lo0 lo1 x : BitVec 32} {even odd : Half}

theorem tlbWrite_self : tlbWrite t idx hi lo0 lo1 idx = tlbEntry hi lo0 lo1 :=
  Function.update_self ..

theorem tlbWrite_of_ne {j : Fin 16} (h : j ≠ idx) : tlbWrite t idx hi lo0 lo1 j = t j :=
  Function.update_of_ne h ..

theorem notUseMmu_congr (h : x.extractLsb 31 13 = la.extractLsb 31 13) :
    notUseMmu x = notUseMmu la := by
  have hseg : ∀ v : BitVec 32, v.extractLsb 31 29 = (v.extractLsb 31 13).extractLsb 18 16 := by
    intro v
    ext j hj
    grind
  unfold notUseMmu
  rw [hseg x, hseg la, h]

/-- The pages written are translated as their halves say. -/
theorem translates_tlbWrite (hm : notUseMmu la = false)
    (hother : ∀ j, j ≠ idx → vpn2Of (t j) ≠ la.extractLsb 31 13)
    (hx : x.extractLsb 31 13 = la.extractLsb 31 13) :
    (if x.getLsbD 12 then odd else even).Translates
      (tlbWrite t idx (hiOf la) even.lo odd.lo) x := by
  have hmx : notUseMmu x = false := (notUseMmu_congr hx).trans hm
  have hi : tlbWhichEqual (tlbWrite t idx (hiOf la) even.lo odd.lo) x idx = true := by
    rw [tlbWhichEqual_iff, tlbWrite_self, vpn2Of_tlbEntry, hiOf_vpn2, hx]
  have hone : ∀ j, tlbWhichEqual (tlbWrite t idx (hiOf la) even.lo odd.lo) x j = true →
      j = idx := by
    intro j hj
    by_contra hne
    rw [tlbWhichEqual_iff, tlbWrite_of_ne hne, hx] at hj
    exact hother j hne hj
  obtain ⟨hmiss, hlook⟩ := lookup_unique hmx hi hone
  rw [tlbWrite_self, validOf_tlbEntry] at hmiss hlook
  rw [frameOf_tlbEntry, dirtyOf_tlbEntry] at hlook
  have hlo : (if x.getLsbD 12 = true then odd.lo else even.lo) =
      (if x.getLsbD 12 = true then odd else even).lo := by split_ifs <;> rfl
  rw [hlo] at hmiss hlook
  cases hhalf : if x.getLsbD 12 = true then odd else even with
  | pte p =>
    rw [hhalf, Half.lo, entryLo_valid] at hmiss hlook
    obtain ⟨hw, hpa⟩ := hlook rfl
    refine ⟨hmiss, ?_, ?_⟩
    · rw [hpa, entryLo_frame, frame_append]
    · rw [hw, entryLo_dirty, has_pteW]
  | invalid =>
    rw [hhalf] at hmiss
    exact hmiss

/-- Every page pair but the one written and the one replaced is looked up as before. -/
theorem lookup_tlbWrite (hx : x.extractLsb 31 13 ≠ hi.extractLsb 31 13)
    (hold : x.extractLsb 31 13 ≠ vpn2Of (t idx)) :
    tlbMissing (tlbWrite t idx hi lo0 lo1) x = tlbMissing t x ∧
      tlbWritable (tlbWrite t idx hi lo0 lo1) x = tlbWritable t x ∧
      physicalAddr (tlbWrite t idx hi lo0 lo1) x = physicalAddr t x := by
  refine lookup_congr fun j => ?_
  by_cases hj : j = idx
  · subst hj
    refine .inr ⟨Bool.eq_false_iff.2 fun h => ?_, Bool.eq_false_iff.2 fun h => ?_⟩
    · rw [tlbWhichEqual_iff, tlbWrite_self, vpn2Of_tlbEntry] at h
      exact hx h.symm
    · exact hold (tlbWhichEqual_iff.1 h).symm
  · exact .inl (tlbWrite_of_ne hj)

/-- An entry with `ENTRYHI_INVALID` matches no mapped address. -/
theorem invalid_tlbWrite (hm : notUseMmu x = false) :
    tlbWhichEqual (tlbWrite t idx entryHiInvalid lo0 lo1) x idx = false := by
  refine Bool.eq_false_iff.2 fun h => ?_
  rw [tlbWhichEqual_iff, tlbWrite_self, vpn2Of_tlbEntry] at h
  rw [notUseMmu_congr h.symm] at hm
  exact absurd hm (by decide)

end Write

end Ucore

namespace Machine

variable {m a b c : Machine} {r : BitVec 5} {v idx hi lo0 lo1 : BitVec 32}

/-- The `MTC0` of `v` to register `r` fetched at the edge of `m` has completed in `a`. -/
structure Mtc0 (m a : Machine) (r : BitVec 5) (v : BitVec 32) : Prop where
  inInstr : InInstr m a
  oldState : a.cpu.oldState = .writeB
  isMtc0 : isMtc0 a.word = true
  rd : rdOf a.word = r
  value : m.cpu.rtVal a.word = v

/-- The `TLBWI` fetched at the edge of `m` has completed in `a`. -/
structure Tlbwi (m a : Machine) : Prop where
  inInstr : InInstr m a
  oldState : a.cpu.oldState = .writeB
  isTlbwi : isTlbwi a.word = true

/-- The five instructions of `tlb_write`, one after the other. -/
def TlbWrites (m c : Machine) (idx hi lo0 lo1 : BitVec 32) : Prop :=
  ∃ a₁ a₂ a₃ a₄, Mtc0 m a₁ CP0.index idx ∧ Mtc0 a₁ a₂ CP0.entryHi hi ∧
    Mtc0 a₂ a₃ CP0.entryLo0 lo0 ∧ Mtc0 a₃ a₄ CP0.entryLo1 lo1 ∧ Tlbwi a₄ c

theorem isTlbwi_of_isMtc0 {w : BitVec 32} (h : CacheCPU.isMtc0 w = true) :
    CacheCPU.isTlbwi w = false := by
  simp only [CacheCPU.isMtc0, Bool.and_eq_true, beq_iff_eq] at h
  simp [CacheCPU.isTlbwi, h.1.2, L.mtc0, L.tlbwi]

/-- A fetch right after `WriteB` leaves the CP0 registers alone, `Count` apart. -/
theorem fetchedCp0_of_writeB (hr : Reachable m) (ho : m.cpu.oldState = .writeB)
    (hc : r ≠ CP0.count) : m.cpu.fetchedCp0.reg r = m.cpu.cp0.reg r := by
  rw [Cpu.fetchedCp0, CP0.rise_reg]
  refine CP0.regs_of_ne (by decide) (fun _ => ?_) hc
  rw [hr.control.interruptStart, ho]
  rfl

theorem Mtc0.reachable (hr : Reachable m) (h : Mtc0 m a r v) : Reachable a :=
  h.inInstr.reachable hr

theorem Mtc0.written (hr : Reachable m) (h : Mtc0 m a r v) {i : BitVec 5} (hi : i ≠ CP0.count) :
    a.cpu.cp0.reg i = (if i = r then v else m.cpu.fetchedCp0.reg i) ∧
      a.cpu.mmu.tlbMem = m.cpu.mmu.tlbMem := by
  have hfl := h.inInstr.flight hr
  simp only [Flight, h.oldState] at hfl
  obtain ⟨-, haft, -⟩ := hfl
  constructor
  · have hw : a.cpu.id.insReg = a.word := rfl
    rw [haft.cp0 i hi, Cpu.executedCp0, hw, isEret_of_isMtc0 h.isMtc0, h.isMtc0, h.rd, h.value]
    simp [Function.update_apply]
  · rw [haft.tlb, Cpu.executedTlb, isTlbwi_of_isMtc0 h.isMtc0]
    rfl

theorem Tlbwi.written (hr : Reachable m) (h : Tlbwi m a) : a.cpu.mmu.tlbMem =
    Mmu.tlbwi m.cpu.mmu.tlbMem m.cpu.fetchedCp0.tlbWriteStruct := by
  have hfl := h.inInstr.flight hr
  simp only [Flight, h.oldState] at hfl
  rw [hfl.2.1.tlb, Cpu.executedTlb, h.isTlbwi]
  rfl

open Ucore

theorem tlbwi_struct (t : Tlb) (idx hi lo0 lo1 : BitVec 32) :
    Mmu.tlbwi t (idx.extractLsb 3 0 ++ hi.extractLsb 31 13 ++ lo0.extractLsb 25 6
      ++ lo0.extractLsb 2 1 ++ lo1.extractLsb 25 6 ++ lo1.extractLsb 2 1) =
    tlbWrite t (idx.extractLsb 3 0).toFin hi lo0 lo1 := by
  have happ : ∀ (i : BitVec 4) (h : BitVec 19) (p : BitVec 20) (u : BitVec 2) (q : BitVec 20)
      (w : BitVec 2), (i ++ h ++ p ++ u ++ q ++ w).extractLsb 66 63 = i ∧
        (i ++ h ++ p ++ u ++ q ++ w).extractLsb 62 0 = h ++ p ++ u ++ q ++ w := by
    intro i h p u q w
    constructor
    · ext j hj
      grind
    · ext j hj
      grind
  unfold Mmu.tlbwi tlbWrite tlbEntry
  rw [(happ _ _ _ _ _ _).1, (happ _ _ _ _ _ _).2]

/-- The TLB after `tlb_write`. -/
theorem TlbWrites.tlbMem (hr : Reachable m) (h : TlbWrites m c idx hi lo0 lo1) :
    c.cpu.mmu.tlbMem = tlbWrite m.cpu.mmu.tlbMem (idx.extractLsb 3 0).toFin hi lo0 lo1 := by
  obtain ⟨a₁, a₂, a₃, a₄, h1, h2, h3, h4, h5⟩ := h
  have r1 := h1.reachable hr
  have r2 := h2.reachable r1
  have r3 := h3.reachable r2
  have r4 := h4.reachable r3
  -- each register keeps its value from its `MTC0` to the `TLBWI`
  have hreg : ∀ i, i ≠ CP0.count → a₄.cpu.fetchedCp0.reg i = if i = CP0.entryLo1 then lo1
      else if i = CP0.entryLo0 then lo0 else if i = CP0.entryHi then hi
      else if i = CP0.index then idx else m.cpu.fetchedCp0.reg i := by
    intro i hi
    rw [fetchedCp0_of_writeB r4 h4.oldState hi, (h4.written r3 hi).1,
      fetchedCp0_of_writeB r3 h3.oldState hi, (h3.written r2 hi).1,
      fetchedCp0_of_writeB r2 h2.oldState hi, (h2.written r1 hi).1,
      fetchedCp0_of_writeB r1 h1.oldState hi, (h1.written hr hi).1]
  have hne : CP0.index ≠ CP0.count := by decide
  rw [h5.written r4, (h4.written r3 hne).2, (h3.written r2 hne).2, (h2.written r1 hne).2,
    (h1.written hr hne).2, ← tlbwi_struct]
  unfold CP0.tlbWriteStruct
  rw [hreg CP0.index (by decide), hreg CP0.entryHi (by decide), hreg CP0.entryLo0 (by decide),
    hreg CP0.entryLo1 (by decide)]
  rfl

theorem index_toFin (idx : Fin 16) : ((BitVec.ofNat 32 idx).extractLsb 3 0).toFin = idx := by
  revert idx
  decide

/-- After `tlb_write` on the CPU the pages of `la` are translated as written, and all page pairs
but that one and the one replaced as before; an entry with `ENTRYHI_INVALID` matches nothing. -/
theorem tlb_write_lookup {idx : Fin 16} {la : BitVec 32} {even odd : Half} (hr : Reachable m)
    (hm : notUseMmu la = false)
    (hother : ∀ j, j ≠ idx → vpn2Of (m.cpu.mmu.tlbMem j) ≠ la.extractLsb 31 13) :
    (∀ c, TlbWrites m c (BitVec.ofNat 32 idx) (hiOf la) even.lo odd.lo →
      (∀ x : BitVec 32, x.extractLsb 31 13 = la.extractLsb 31 13 →
        (if x.getLsbD 12 then odd else even).Translates c.cpu.mmu.tlbMem x) ∧
      ∀ x : BitVec 32, x.extractLsb 31 13 ≠ la.extractLsb 31 13 →
        x.extractLsb 31 13 ≠ vpn2Of (m.cpu.mmu.tlbMem idx) →
        tlbMissing c.cpu.mmu.tlbMem x = tlbMissing m.cpu.mmu.tlbMem x ∧
        tlbWritable c.cpu.mmu.tlbMem x = tlbWritable m.cpu.mmu.tlbMem x ∧
        physicalAddr c.cpu.mmu.tlbMem x = physicalAddr m.cpu.mmu.tlbMem x) ∧
    ∀ c lo0 lo1, TlbWrites m c (BitVec.ofNat 32 idx) entryHiInvalid lo0 lo1 →
      ∀ x, notUseMmu x = false → tlbWhichEqual c.cpu.mmu.tlbMem x idx = false := by
  have hidx := index_toFin idx
  constructor
  · intro c h
    rw [h.tlbMem hr, hidx]
    refine ⟨fun x hx => translates_tlbWrite hm hother hx, fun x hx hold => ?_⟩
    exact lookup_tlbWrite (by rw [hiOf_vpn2]; exact hx) hold
  · intro c lo0 lo1 h x hx
    rw [h.tlbMem hr, hidx]
    exact invalid_tlbWrite hx

/-! ## Two writes to one entry -/

/-- The word `w` executed on a physical level that answers at once. -/
def exec (m : Machine) (w : BitVec 32) : Machine := m.feeds (List.replicate 4 (idle w))

/-- The four stages of the word `w` are passed through. -/
def Completes (m : Machine) (w : BitVec 32) : Prop :=
  (m.state = .insF ∧ m.phy.ready = true) ∧
    (∀ n < 3, (m.feeds (List.replicate (n + 1) (idle w))).state ≠ .exc ∧
      (m.feeds (List.replicate (n + 1) (idle w))).cpu.oldState ≠ .writeB) ∧
    (m.exec w).cpu.oldState = .writeB ∧ (m.exec w).word = w

instance (m : Machine) (w : BitVec 32) : Decidable (Completes m w) :=
  inferInstanceAs (Decidable (_ ∧ _ ∧ _ ∧ _))

theorem Completes.mtc0 {w : BitVec 32} (h : Completes m w) (hw : CacheCPU.isMtc0 w = true) :
    Mtc0 m (m.exec w) (rdOf w) (m.cpu.rtVal w) := by
  obtain ⟨hf, hn, ho, hword⟩ := h
  exact ⟨inInstr_feeds rfl hf hn, ho, by rw [hword, hw], by rw [hword], by rw [hword]⟩

theorem Completes.tlbwi {w : BitVec 32} (h : Completes m w) (hw : CacheCPU.isTlbwi w = true) :
    Tlbwi m (m.exec w) := by
  obtain ⟨hf, hn, ho, hword⟩ := h
  exact ⟨inInstr_feeds rfl hf hn, ho, by rw [hword, hw]⟩

/-- The words `ws` one after the other. -/
def execAll (m : Machine) (ws : List (BitVec 32)) : Machine := ws.foldl exec m

def CompletesAll (m : Machine) : List (BitVec 32) → Prop
  | [] => True
  | w :: ws => Completes m w ∧ CompletesAll (m.exec w) ws

instance CompletesAll.decidable (m : Machine) : ∀ ws, Decidable (CompletesAll m ws)
  | [] => inferInstanceAs (Decidable True)
  | w :: ws =>
    have := CompletesAll.decidable (m.exec w) ws
    inferInstanceAs (Decidable (_ ∧ _))

/-- `mtc0 r0, Index`, `mtc0 r1, EntryHi`, `mtc0 r2, EntryLo0`, `mtc0 r0, EntryLo1`, `tlbwi`. -/
def tlbWriteWords : List (BitVec 32) :=
  [0x40800000#32, 0x40815000#32, 0x40821000#32, 0x40801800#32, 0x42000002#32]

/-- `r1 = 0x2000` and `r2 = ENTRYLO(0x1003)`. -/
def firstPair : Machine := atReset.execAll [0x24012000#32, 0x24020057#32]

/-- After the first `tlb_write`, `r1 = 0x4000`. -/
def secondPair : Machine := (firstPair.execAll tlbWriteWords).exec 0x24014000#32

theorem Reachable.exec (hr : Reachable m) (w : BitVec 32) : Reachable (m.exec w) :=
  hr.feeds fun p hp => by rw [List.eq_of_mem_replicate hp]; rfl

theorem Reachable.execAll (hr : Reachable m) (ws : List (BitVec 32)) :
    Reachable (m.execAll ws) := by
  induction ws generalizing m with
  | nil => exact hr
  | cons w ws ih => exact ih (hr.exec w)

theorem firstPair_reachable : Reachable firstPair := Reachable.execAll (.reset atReset_isReset) _

theorem secondPair_reachable : Reachable secondPair := (firstPair_reachable.execAll _).exec _

theorem tlbWrites_words (h : CompletesAll m tlbWriteWords)
    (hidx : m.cpu.rtVal 0x40800000#32 = idx)
    (hhi : (m.execAll [0x40800000#32]).cpu.rtVal 0x40815000#32 = hi)
    (hlo0 : (m.execAll [0x40800000#32, 0x40815000#32]).cpu.rtVal 0x40821000#32 = lo0)
    (hlo1 : (m.execAll [0x40800000#32, 0x40815000#32, 0x40821000#32]).cpu.rtVal
      0x40801800#32 = lo1) : TlbWrites m (m.execAll tlbWriteWords) idx hi lo0 lo1 := by
  obtain ⟨h1, h2, h3, h4, h5, -⟩ := h
  simp only [tlbWriteWords, execAll, List.foldl_cons, List.foldl_nil] at hhi hlo0 hlo1 ⊢
  subst hidx hhi hlo0 hlo1
  exact ⟨_, _, _, _, h1.mtc0 rfl, h2.mtc0 rfl, h3.mtc0 rfl, h4.mtc0 rfl, h5.tlbwi rfl⟩

theorem firstPair_tlbWrites : TlbWrites firstPair (firstPair.execAll tlbWriteWords)
    (BitVec.ofNat 32 (0 : Fin 16)) (hiOf 0x2000#32) (Half.pte 0x1003#32).lo Half.invalid.lo :=
  tlbWrites_words (by decide +kernel) (by decide +kernel) (by decide +kernel) (by decide +kernel)
    (by decide +kernel)

theorem secondPair_tlbWrites : TlbWrites secondPair (secondPair.execAll tlbWriteWords)
    (BitVec.ofNat 32 (0 : Fin 16)) (hiOf 0x4000#32) (Half.pte 0x1003#32).lo Half.invalid.lo :=
  tlbWrites_words (by decide +kernel) (by decide +kernel) (by decide +kernel) (by decide +kernel)
    (by decide +kernel)

theorem tlb_write_lookup_first :
    physicalAddr (firstPair.execAll tlbWriteWords).cpu.mmu.tlbMem 0x2abc#32 = 0x1abc#32 := by
  have h := (@tlb_write_lookup _ 0 0x2000#32 _ _ firstPair_reachable (by decide)
    (by decide +kernel)).1 _ firstPair_tlbWrites
  exact (h.1 0x2abc#32 (by decide)).2.1

/-- The second write takes the page at `0x2000` out of the TLB. -/
theorem not_tlb_write_lookup : ¬ ∀ (m c : Machine) (idx : Fin 16) (la : BitVec 32)
    (even odd : Half), Reachable m → notUseMmu la = false →
    (∀ j, j ≠ idx → vpn2Of (m.cpu.mmu.tlbMem j) ≠ la.extractLsb 31 13) →
    TlbWrites m c (BitVec.ofNat 32 idx) (hiOf la) even.lo odd.lo →
    (∀ x : BitVec 32, x.extractLsb 31 13 = la.extractLsb 31 13 →
      (if x.getLsbD 12 then odd else even).Translates c.cpu.mmu.tlbMem x) ∧
    ∀ x : BitVec 32, x.extractLsb 31 13 ≠ la.extractLsb 31 13 →
      tlbMissing c.cpu.mmu.tlbMem x = tlbMissing m.cpu.mmu.tlbMem x ∧
      tlbWritable c.cpu.mmu.tlbMem x = tlbWritable m.cpu.mmu.tlbMem x ∧
      physicalAddr c.cpu.mmu.tlbMem x = physicalAddr m.cpu.mmu.tlbMem x := by
  intro h
  have hall := h secondPair _ 0 0x4000#32 _ _ secondPair_reachable (by decide) (by decide +kernel)
    secondPair_tlbWrites
  have hx := (hall.2 0x2000#32 (by decide)).1
  revert hx
  decide +kernel

end Machine

end CacheCPU
