import CacheCPU.Cpu

/-!
# The units one by one

What each unit does at an edge, stated so that the proofs about the whole machine need not unfold
it.
-/

namespace CacheCPU

/-! ## The MMU -/

namespace Mmu

variable {m : Mmu} {i : MmuIn} {r : Bool}

/-- A stage that reads or writes accesses memory. -/
theorem isInsFOrMem_of_access (h : m.reads i = true ∨ m.writes i = true) :
    isInsFOrMem m.stateReg = true := by
  unfold reads writes at h
  cases hs : m.stateReg <;> simp_all [isInsFOrMem]

theorem access_of_raised (h : (m.raised i).isSome) : m.reads i = true ∨ m.writes i = true := by
  unfold raised at h
  split_ifs at h <;> simp_all

theorem access_of_request (h : m.readEnableReg r i = true ∨ m.writeEnableReg r i = true) :
    m.reads i = true ∨ m.writes i = true := by
  unfold readEnableReg writeEnableReg at h
  rcases h with h | h <;> simp_all

theorem noExceptionAccur_of_request
    (h : m.readEnableReg r i = true ∨ m.writeEnableReg r i = true) :
    m.noExceptionAccur i = true := by
  unfold readEnableReg writeEnableReg mayRequest at h
  rcases h with h | h <;> simp_all

/-- An access that is let through raises nothing. -/
theorem raised_of_noExceptionAccur (h : m.noExceptionAccur i = true) : m.raised i = none := by
  unfold noExceptionAccur at h
  unfold raised
  simp_all

theorem raised_ne_zero {c : BitVec 3} (h : m.raised i = some c) : c ≠ 0#3 := by
  unfold raised at h
  split_ifs at h <;> cases h <;> decide

theorem raised_le {c : BitVec 3} (h : m.raised i = some c) :
    c = tlbModified ∨ c = tlbL ∨ c = tlbS ∨ c = adeL ∨ c = adeS := by
  unfold raised at h
  split_ifs at h <;> cases h <;> simp

/-- What `raised` depends on. -/
theorem raised_congr {m' : Mmu} {i' : MmuIn} (ha : m'.addr = m.addr)
    (hs : m'.stateReg = m.stateReg) (ht : m'.tlbMem = m.tlbMem)
    (hr : i'.readEnable = i.readEnable) (hw : i'.writeEnable = i.writeEnable)
    (hl : i'.alignType = i.alignType) : m'.raised i' = m.raised i := by
  have hreads : m'.reads i' = m.reads i := by unfold reads; rw [hs, hr]
  have hwrites : m'.writes i' = m.writes i := by unfold writes; rw [hs, hr, hw]
  unfold raised
  rw [hreads, hwrites, ha, ht, hl]

end Mmu

/-! ## Decoding and write-back -/

namespace IDecode

/-- The control words are those decoded from the word in `ins_reg`. -/
structure Latched (d : IDecode) : Prop where
  rtAddr : d.rtAddr = rtOf d.insReg
  rdAddr : d.rdAddr = rdOf d.insReg
  pcOp : d.pcOp = CacheCPU.pcOp (first d.insReg) (last d.insReg)
  compOp : d.compOp = CacheCPU.compOp (first d.insReg) (d.insReg.getLsbD 16)
  imme : d.imme = CacheCPU.imme d.insReg
  aluOps : d.aluOps = (CacheCPU.aluOps (first d.insReg) (last d.insReg)).1
  memOp : d.memOp = CacheCPU.memOp (first d.insReg)
  tlbwiEnable : d.tlbwiEnable = isTlbwi d.insReg
  alignType : d.alignType = CacheCPU.alignType (first d.insReg)
  wbOp : d.wbOp = CacheCPU.wbOp (first d.insReg) (last d.insReg) (d.insReg.getLsbD 23)
  cp0Op : d.cp0Op = isMtc0 d.insReg
  insUndef : d.insUndef = (CacheCPU.aluOps (first d.insReg) (last d.insReg)).2
  eretEnable : d.eretEnable = isEret d.insReg

theorem raised_cases {d : IDecode} (h : d.raised ≠ 0#2) :
    (d.insUndef = true ∧ d.raised = 0b10#2) ∨ (isSyscall d.insReg = true ∧ d.raised = 0b01#2) := by
  unfold raised at h ⊢
  split_ifs at h ⊢ <;> simp_all

/-- A word that raises something in `InsD` is no `ERET`. -/
theorem Latched.isEret_of_raised {d : IDecode} (hl : d.Latched) (h : d.raised ≠ 0#2) :
    isEret d.insReg = false := by
  by_contra hn
  obtain ⟨hf, -⟩ : first d.insReg = F.eret ∧ last d.insReg = L.eret := by
    simpa [isEret] using hn
  rcases raised_cases h with ⟨hu, -⟩ | ⟨hs, -⟩
  · rw [hl.insUndef, hf] at hu
    revert hu
    generalize last d.insReg = l
    revert l
    decide
  · simp [isSyscall, hf, F.eret, F.zero] at hs

theorem rise_of_ne {d : IDecode} {st : Status} {w : BitVec 32} (hf : st ≠ .insF)
    (hd : st ≠ .insD) : d.rise st w = { d with stateReg := st } := by
  cases st <;> simp_all [rise]

/-- What `InsD` latches is decoded from the word fetched. -/
theorem latched_latch {d : IDecode} (w : BitVec 32) (he : d.eretEnable = false) :
    (d.latch w).fall.Latched := by
  refine ⟨rfl, rfl, rfl, rfl, rfl, rfl, rfl, rfl, rfl, rfl, rfl, rfl, ?_⟩
  simp [latch, fall, he]

end IDecode

namespace WB

theorem dest_ne_zero {old rd rt : BitVec 5} {dst : BitVec 2}
    (h : (dest old dst rd rt).2 = true) : (dest old dst rd rt).1 ≠ 0#5 := by
  unfold dest at h ⊢
  split_ifs at h ⊢ <;> simp_all

/-- The destination depends on the old one only when nothing is written. -/
theorem dest_congr (old old' : BitVec 5) (dst : BitVec 2) (rd rt : BitVec 5) :
    (dest old dst rd rt).2 = (dest old' dst rd rt).2 ∧
      ((dest old dst rd rt).2 = true → (dest old dst rd rt).1 = (dest old' dst rd rt).1) := by
  unfold dest
  split_ifs <;> simp

theorem value_congr {kind : BitVec 3} (hk : kind ≠ 0b111#3)
    (old old' rpc mmuValue cp0Value aluResult : BitVec 32) :
    value old kind rpc mmuValue cp0Value aluResult =
      value old' kind rpc mmuValue cp0Value aluResult := by
  unfold value
  split_ifs <;> first | rfl | (exfalso; bv_omega)

end WB

/-- The control words of the write-back table. -/
theorem wbOp_mem {P : BitVec 5 → Prop} (f l : BitVec 6) (b : Bool)
    (h : ∀ v ∈ [0b01010#5, wbDisable, 0b01000#5, 0b00000#5, 0b10010#5, 0b00001#5, 0b00100#5,
      0b00011#5, 0b00101#5, 0b00110#5], P v) : P (wbOp f l b) := by
  simp only [List.forall_mem_cons] at h
  obtain ⟨h1, h2, h3, h4, h5, h6, h7, h8, h9, h10, -⟩ := h
  rw [wbOp]
  repeat' refine iteInduction (fun _ => ?_) (fun _ => ?_)
  all_goals assumption

theorem wbOp_kind (f l : BitVec 6) (b : Bool) : (wbOp f l b).extractLsb 2 0 ≠ 0b111#3 :=
  wbOp_mem (P := fun v => v.extractLsb 2 0 ≠ 0b111#3) f l b (by decide)

theorem isEret_of_isMem {w : BitVec 32} (h : isMem (first w) = true) : isEret w = false := by
  unfold isEret
  generalize first w = f at h ⊢
  simp only [isMem, Bool.or_eq_true, beq_iff_eq] at h
  rcases h with ((((rfl | rfl) | rfl) | rfl) | rfl) | rfl <;> rfl

theorem isMem_of_isMtc0 {w : BitVec 32} (h : isMtc0 w = true) : isMem (first w) = false := by
  simp only [isMtc0, Bool.and_eq_true, beq_iff_eq] at h
  rw [h.1.1]
  rfl

theorem isEret_of_isMtc0 {w : BitVec 32} (h : isMtc0 w = true) : isEret w = false := by
  simp only [isMtc0, Bool.and_eq_true, beq_iff_eq] at h
  simp [isEret, h.1.2, L.mtc0, L.eret]

/-- Only `SW` writes without reading. -/
theorem memOp_write {f : BitVec 6} (hw : (memOp f).getLsbD 1 = true)
    (hr : (memOp f).getLsbD 2 = false) : f = F.sw := by
  revert f
  decide

theorem isMem_of_sb {f : BitVec 6} (h : (f == F.sb) = true) : isMem f = true := by
  simp_all [isMem]

/-! ## CP0 -/

/-- Only the timer interrupt raises `m_compare_recover`. -/
theorem Exception.record_compareRecover (x : Exception) (i : ExceptionIn)
    (h : ¬(i.mmuExcCode = 0#3 ∧ i.idExcCode = 0#2 ∧ i.serialInt = false ∧
      i.compareInterrupt = true)) : (x.record i).compareRecover = x.compareRecover := by
  unfold record noMemExc
  by_cases hm : i.mmuExcCode = 0#3
  · by_cases hi : i.idExcCode = 0#2
    · cases hs : i.serialInt <;> cases hc : i.compareInterrupt <;> simp_all
    · rw [if_pos hm, if_neg hi]
      split_ifs <;> rfl
  · rw [if_neg hm]

namespace CP0

variable {c : CP0} {x : Exception} {st : Status} {op e : Bool} {v : BitVec 32} {i : BitVec 5}

@[simp] theorem rise_reg {rd : BitVec 5} : (c.rise st rd op v x e).reg = c.regs st op v x e := rfl

theorem rise_oldCompare {rd : BitVec 5} :
    (c.rise st rd op v x e).oldCompare = c.reg compare := by
  by_cases h : c.reg compare = c.oldCompare
  · simp [rise, h]
  · simp [rise, h]

theorem rise_addrValue {rd : BitVec 5} :
    (c.rise st rd op v x e).addrValue = if st = .insD then c.reg rd else c.addrValue := rfl

theorem rise_rdAddress {rd : BitVec 5} :
    (c.rise st rd op v x e).rdAddress = if st = .insD then rd else c.rdAddress := rfl

/-- Outside `Exe`, and without an event to take, only `Count` changes. -/
theorem regs_of_ne (hst : st ≠ .exe) (hx : st = .insF → x.interruptStart = false)
    (hi : i ≠ count) : c.regs st op v x e i = c.reg i := by
  unfold regs
  split_ifs <;> simp_all [Function.update_of_ne]

/-- Once `Compare` has been seen, nothing changes but at `Exe` and `WriteB`. -/
theorem regs_of_idle (hst : st ≠ .exe) (hw : st ≠ .writeB)
    (hx : st = .insF → x.interruptStart = false) (hc : c.oldCompare = c.reg compare) :
    c.regs st op v x e = c.reg := by
  unfold regs
  split_ifs <;> simp_all

theorem regs_exe (hc : c.oldCompare = c.reg compare) : c.regs .exe op v x e =
    if e then Function.update c.reg status (c.reg status &&& ~~~2#32)
    else if op then Function.update c.reg c.rdAddress v else c.reg := by
  cases e <;> cases op <;> simp [regs, hc]

theorem regs_compare (hst : st ≠ .exe) : c.regs st op v x e compare = c.reg compare := by
  by_cases hx : st = .insF ∧ x.interruptStart = true
  · rw [hx.1]
    rw [show c.regs .insF op v x e = c.record x by simp [regs, hx.2]]
    rfl
  · exact regs_of_ne hst (fun h => by simpa [h] using hx) (by decide)

theorem regs_insF (hx : x.interruptStart = true) : c.regs .insF op v x e = c.record x := by
  simp [regs, hx]

section Record

variable (c x)

theorem record_status : c.record x status = c.reg status ||| 2#32 := rfl

theorem record_cause : c.record x cause = (c.reg cause).extractLsb 31 16 ++ x.interruptCode
    ++ (c.reg cause).extractLsb 9 7 ++ x.cause ++ (c.reg cause).extractLsb 1 0 := rfl

theorem record_epc : c.record x epc = x.epc := rfl

theorem record_count :
    c.record x count = if x.compareRecover then 0#32 else c.reg count := rfl

theorem record_badVAddr : c.record x badVAddr = x.badVAddr := rfl

end Record

end CP0

end CacheCPU
