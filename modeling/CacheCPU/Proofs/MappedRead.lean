import CacheCPU.Proofs.Lookup
import CacheCPU.Proofs.NextPc
import CacheCPU.Proofs.Stage

/-!
# Reads of mapped pages

`no_exception_accur` asks for the `D` bit whatever the access, while a read of a page without it
raises nothing. Such a read is not performed: no request leaves and the CPU takes the word that
the physical level still drives.
-/

namespace CacheCPU

/-- The opcodes of the loads. -/
def loads : List (BitVec 6) := [F.lw, F.lb, F.lbu, F.lhu]

namespace Machine

variable {m e : Machine} {addr : BitVec 32} {i : Fin 16} {rs : List Request}

/-- The edge of `m` begins an aligned instruction fetch or load at `addr`. -/
def BeginsRead (m : Machine) (addr : BitVec 32) : Prop :=
  m.phy.ready = true ∧
    ((m.state = .insF ∧ addr = m.cpu.pcToMmu ∧ addr.extractLsb 1 0 = 0#2) ∨
      (m.state = .mem1 ∧ addr = m.cpu.alu.result ∧ first m.word ∈ loads ∧
        (first m.word = F.lw → addr.extractLsb 1 0 = 0#2) ∧
        (first m.word = F.lhu → addr.getLsbD 0 = false)))

/-- The stage sends one read of the physical address `pa`, raises nothing, and the next stage
takes the word that the physical level then drives. -/
def ReadPerformed (m : Machine) (pa : BitVec 32) : Prop :=
  ∀ rs e, Stage m rs e → e.phy.ready = true →
    rs = [.read (toPhysicalAddrReg pa)] ∧
    ((m.state = .insF ∧ e.state = .insD ∧ e.instr = e.phy.data) ∨
      (m.state = .mem1 ∧ e.state = .writeB ∧ e.cpu.dataFromMmu e.phy = e.phy.data))

theorem misaligned_quad (al : BitVec 2) (h : addr.extractLsb 1 0 = 0#2) :
    misaligned al addr = false := by
  have h0 : addr[0] = false := by
    have := congrArg (fun v => v.getLsbD 0) h
    simpa using this
  simp [misaligned, h, h0]

namespace BeginsRead

variable (hr : Reachable m) (h : BeginsRead m addr)
include h

theorem accesses : m.Accesses := by
  obtain ⟨hready, ⟨hs, -⟩ | ⟨hs, -⟩⟩ := h
  · exact ⟨hready, by rw [hs]; rfl⟩
  · exact ⟨hready, by rw [hs]; rfl⟩

theorem access : m.access = addr := by
  obtain ⟨-, ⟨hs, ha, -⟩ | ⟨hs, ha, -⟩⟩ := h
  · rw [Machine.access, if_pos hs, ha]
  · rw [Machine.access, if_neg (by simp [hs]), ha]

include hr

/-- The control words of a load. -/
theorem load (hs : m.state = .mem1) : m.cpu.id.memOp.getLsbD 2 = true ∧ m.cpu.hasMem2 = false ∧
    misaligned m.cpu.id.alignType addr = false := by
  have hfl := hr.control.inFlight_before (by rw [hs]; rfl) (by simp [hs])
  obtain ⟨hl, -, h2⟩ := hr.control.latched hfl
  obtain ⟨-, ⟨hs', -⟩ | ⟨-, -, hf, hw, hh⟩⟩ := h
  · simp [hs] at hs'
  rw [hl.memOp, hl.alignType, h2]
  simp only [word] at hf hw hh
  generalize first m.cpu.id.insReg = f at hf hw hh ⊢
  simp only [loads, List.mem_cons, List.not_mem_nil, or_false] at hf
  rcases hf with rfl | rfl | rfl | rfl
  · exact ⟨rfl, rfl, misaligned_quad _ (hw rfl)⟩
  · exact ⟨rfl, rfl, rfl⟩
  · exact ⟨rfl, rfl, rfl⟩
  · refine ⟨rfl, rfl, ?_⟩
    simp only [misaligned, hh rfl, Bool.and_false, Bool.false_or]
    rfl

theorem reads : m.reads = true ∧ misaligned m.cpu.id.alignType addr = false := by
  obtain ⟨-, ⟨hs, -, hal⟩ | ⟨hs, -⟩⟩ := id h
  · exact ⟨by simp [Machine.reads, hs], misaligned_quad _ hal⟩
  · obtain ⟨hmem, -, hal⟩ := h.load hr hs
    exact ⟨by simp [Machine.reads, hs, hmem], hal⟩

end BeginsRead

section Law

variable (hr : Reachable m) (h : BeginsRead m addr) (hm : notUseMmu addr = false)
  (hi : vpn2Of (m.cpu.mmu.tlbMem i) = addr.extractLsb 31 13)
  (hone : ∀ j, vpn2Of (m.cpu.mmu.tlbMem j) = addr.extractLsb 31 13 → j = i)
  (hv : validOf (m.cpu.mmu.tlbMem i) (addr.getLsbD 12) = true)
include hr h hm hi hone hv

/-- What the stage sends: with `D` the read, without it nothing. -/
theorem request_mapped (data : BitVec 32) : m.request data =
    if dirtyOf (m.cpu.mmu.tlbMem i) (addr.getLsbD 12) then
      [.read (toPhysicalAddrReg (frameOf (m.cpu.mmu.tlbMem i) (addr.getLsbD 12) ++
        addr.extractLsb 11 0))]
    else [] := by
  obtain ⟨hrd, hal⟩ := h.reads hr
  obtain ⟨hmiss, hlook⟩ := lookup_unique hm (tlbWhichEqual_iff.2 hi)
    fun j hj => hone j (tlbWhichEqual_iff.1 hj)
  obtain ⟨hwr, hpa⟩ := hlook hv
  have hne : addr ≠ virtualSerialStatus := by
    rintro rfl
    exact absurd hm (by decide)
  simp only [request, passes, h.access, hal, hmiss, hv, hwr, hpa, hrd]
  cases dirtyOf (m.cpu.mmu.tlbMem i) (addr.getLsbD 12) <;> simp [hne]

theorem fault_mapped : m.fault = none := by
  obtain ⟨hrd, hal⟩ := h.reads hr
  obtain ⟨hmiss, -⟩ := lookup_unique hm (tlbWhichEqual_iff.2 hi)
    fun j hj => hone j (tlbWhichEqual_iff.1 hj)
  have hnw : m.writes = false := by
    obtain ⟨-, ⟨hs, -⟩ | ⟨hs, -⟩⟩ := id h
    · simp [writes, hs]
    · simp [writes, hs, (h.load hr hs).1]
  simp only [fault, h.access, hal, hmiss, hv, hnw]
  simp

/-- A read of a valid mapped page is performed if and only if its `D` bit is set. -/
theorem mapped_read_iff :
    ReadPerformed m (frameOf (m.cpu.mmu.tlbMem i) (addr.getLsbD 12) ++ addr.extractLsb 11 0) ↔
      dirtyOf (m.cpu.mmu.tlbMem i) (addr.getLsbD 12) = true := by
  have hreq := request_mapped hr h hm hi hone hv
  have hacc := h.accesses
  constructor
  · intro hp
    obtain ⟨e, hs, he⟩ := m.stage_exists
    obtain ⟨data, hrs⟩ := hs.requests hr hacc
    by_contra hd
    have := (hp _ e hs he).1
    rw [hrs, hreq, if_neg hd] at this
    cases this
  · intro hd rs e hs he
    obtain ⟨data, hrs⟩ := hs.requests hr hacc
    obtain ⟨-, hdur⟩ := hs.during hr hacc
    refine ⟨by rw [hrs, hreq, if_pos hd], ?_⟩
    have hst := hs.state_eq hr hacc he
    rw [fault_mapped hr h hm hi hone hv] at hst
    obtain ⟨-, ⟨hm1, -⟩ | ⟨hm1, -⟩⟩ := id h
    · refine .inl ⟨hm1, by simpa [hm1, Cpu.succ] using hst, ?_⟩
      have hreg : e.cpu.mmu.stateReg = .insF := hdur.checks.stateReg.trans hm1
      simp [instr, Cpu.instrFromMmu, Mmu.instruction, hreg]
    · have hmem2 : e.cpu.hasMem2 = false := by
        have hfl : inFlight e.cpu.oldState = true := by rw [hdur.oldState, hm1]; rfl
        have hfl' := hr.control.inFlight_before (by rw [hm1]; rfl) (by simp [hm1])
        rw [((hs.during hr hacc).1.control.latched hfl).2.2, hdur.insReg,
          ← (hr.control.latched hfl').2.2]
        exact (h.load hr hm1).2.1
      refine .inr ⟨hm1, by simpa [hm1, Cpu.succ, hmem2] using hst, ?_⟩
      have haddr : e.cpu.mmu.addr = addr := hdur.checks.addr.trans h.access
      have hne : addr ≠ virtualSerialStatus := by
        rintro rfl
        exact absurd hm (by decide)
      simp [Cpu.dataFromMmu, Mmu.dataOut, Mmu.specialCom1Status, haddr, hne]

end Law

/-! ## A page without `D` -/

/-- After reset the words `ws` are executed, none of them an access to memory. -/
def executes (ws : List (BitVec 32)) : Machine :=
  atReset.feeds (ws.flatMap fun w => List.replicate 4 (idle w))

theorem executes_reachable (ws : List (BitVec 32)) : Reachable (executes ws) := by
  refine Reachable.feeds (.reset atReset_isReset) fun p hp => ?_
  obtain ⟨w, -, hw⟩ := List.mem_flatMap.1 hp
  rw [List.eq_of_mem_replicate hw]
  rfl

/-- Entry 0 maps the page at `0x2000` to frame 0 with the flags `lo`, and `lw r3, 0(r1)` with
`r1 = 0x2000` stands before its `Mem1`. -/
def loadMapped (lo : BitVec 32) : Machine :=
  (executes [0x24012000#32, 0x40815000#32, 0x24020000#32 ||| lo, 0x40821000#32,
    0x42000002#32]).feeds (List.replicate 3 (idle 0x8c230000#32))

theorem loadMapped_reachable (lo : BitVec 32) : Reachable (loadMapped lo) :=
  (executes_reachable _).feeds fun p hp => by rw [List.eq_of_mem_replicate hp]; rfl

theorem mapped_read_dirty : ReadPerformed (loadMapped 6#32) 0#32 := by
  have hpa : frameOf ((loadMapped 6#32).cpu.mmu.tlbMem 0) ((0x2000#32).getLsbD 12) ++
      (0x2000#32).extractLsb 11 0 = 0#32 := by decide +kernel
  rw [← hpa]
  refine (mapped_read_iff (loadMapped_reachable 6#32) ⟨by decide +kernel, .inr (by decide +kernel)⟩
    (by decide) (by decide +kernel) (by decide +kernel) (by decide +kernel)).2 ?_
  decide +kernel

/-- The same load from a page with `V` and without `D`. -/
theorem not_mapped_read : ¬ ∀ (m : Machine) (addr : BitVec 32) (i : Fin 16), Reachable m →
    BeginsRead m addr → notUseMmu addr = false →
    vpn2Of (m.cpu.mmu.tlbMem i) = addr.extractLsb 31 13 →
    (∀ j, vpn2Of (m.cpu.mmu.tlbMem j) = addr.extractLsb 31 13 → j = i) →
    validOf (m.cpu.mmu.tlbMem i) (addr.getLsbD 12) = true →
    ReadPerformed m (frameOf (m.cpu.mmu.tlbMem i) (addr.getLsbD 12) ++ addr.extractLsb 11 0) := by
  intro h
  have hp := h (loadMapped 2#32) 0x2000#32 0 (loadMapped_reachable 2#32)
    ⟨by decide +kernel, .inr (by decide +kernel)⟩ (by decide) (by decide +kernel)
    (by decide +kernel) (by decide +kernel) _ _
    (.enter ((loadMapped 2#32).step_feed (p := idle 0#32) rfl)) rfl
  have hsent := hp.1
  revert hsent
  decide +kernel

end Machine

end CacheCPU
