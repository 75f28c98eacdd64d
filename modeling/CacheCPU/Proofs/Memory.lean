import CacheCPU.Lib.ByteMemory
import CacheCPU.Proofs.Access
import CacheCPU.Proofs.Precise

/-!
# The RAM as a memory of bytes

What the loads and stores of a run do to the RAM is what they would do to an array of bytes:
each load returns, little-endian, what the stores before it have left, and each store changes the
bytes it names. Whatever the CPU executes in between leaves the RAM alone.
-/

namespace CacheCPU

open ByteMemory

/-! ## The array of bytes -/

/-- The words of the two SRAM chips in order. -/
def words (cells : Cells) (i : BitVec 21) : BitVec 32 := cells (i.getLsbD 20) (i.extractLsb 19 0)

/-- The bytes of the RAM by physical address. -/
def ram (cells : Cells) : BitVec 23 → BitVec 8 := bytes (words cells)

/-- The physical address of an address in kseg0 or kseg1 that lies in the RAM. -/
def ramByte (v : BitVec 32) : BitVec 23 := v.extractLsb 22 0

/-- What a load of opcode `f` returns. -/
def loadValue (f : BitVec 6) (M : BitVec 23 → BitVec 8) (a : BitVec 23) : BitVec 32 :=
  if f = F.lw then word M a
  else if f = F.lhu then (half M a).zeroExtend 32
  else if f = F.lb then (M a).signExtend 32
  else (M a).zeroExtend 32

/-- The bytes after a store of opcode `f`; any other opcode stores nothing. -/
def storeBytes (f : BitVec 6) (M : BitVec 23 → BitVec 8) (a : BitVec 23) (v : BitVec 32) :
    BitVec 23 → BitVec 8 :=
  if f = F.sw then putWord M a v
  else if f = F.sb then putByte M a (v.extractLsb 7 0)
  else M

/-- A register file after a write; register 0 is never written. -/
def setReg (regs : BitVec 5 → BitVec 32) (r : BitVec 5) (v : BitVec 32) : BitVec 5 → BitVec 32 :=
  if r = 0#5 then regs else Function.update regs r v

section Words

variable {v : BitVec 32} {cells : Cells}

theorem index_ramByte : index (ramByte v) = v.extractLsb 22 2 := by
  ext i hi
  simp only [index, ramByte]
  grind

theorem lane_ramByte : lane (ramByte v) = v.extractLsb 1 0 := by
  ext i hi
  simp only [lane, ramByte]
  grind

variable (cells) in
theorem words_index : words cells (index (ramByte v)) = cells (bank v) (cell v) := by
  have h1 : (v.extractLsb 22 2).getLsbD 20 = bank v := by
    rw [bank]
    grind
  have h2 : (v.extractLsb 22 2).extractLsb 19 0 = cell v := by
    rw [cell]
    ext i hi
    grind
  rw [words, index_ramByte, h1, h2]

theorem words_update (u : BitVec 32) :
    words (Function.update cells (bank v) (Function.update (cells (bank v)) (cell v) u)) =
      Function.update (words cells) (index (ramByte v)) u := by
  funext i
  have hi : i = index (ramByte v) ↔ i.getLsbD 20 = bank v ∧ i.extractLsb 19 0 = cell v := by
    rw [index_ramByte, bank, cell]
    constructor
    · rintro rfl
      constructor
      · grind
      · ext j hj
        grind
    · rintro ⟨h1, h2⟩
      ext j hj
      by_cases hj' : j = 20
      · subst hj'
        grind
      · have := congrArg (fun x => x.getLsbD j) h2
        grind
  by_cases h : i = index (ramByte v)
  · obtain ⟨h1, h2⟩ := hi.1 h
    rw [h, Function.update_self, ← h, words, h1, h2, Function.update_self, Function.update_self]
  · rw [Function.update_of_ne h, words, words]
    by_cases h1 : i.getLsbD 20 = bank v
    · have h2 : i.extractLsb 19 0 ≠ cell v := fun h2 => h (hi.2 ⟨h1, h2⟩)
      rw [h1, Function.update_self, Function.update_of_ne h2]
    · rw [Function.update_of_ne h1]

theorem byteAt_cases (l : BitVec 2) : l = 0#2 ∨ l = 1#2 ∨ l = 2#2 ∨ l = 3#2 := by
  revert l
  decide

/-- `WB` and `mem` pick the same lanes. -/
theorem byteOf_eq (l : BitVec 2) (u : BitVec 32) : WB.byteOf l u = byteAt l u := by
  rcases byteAt_cases l with rfl | rfl | rfl | rfl <;> rfl

theorem byteAt_selectByte (l k : BitVec 2) (u r : BitVec 32) :
    byteAt k (selectByte l u r) = if k = l then r.extractLsb 7 0 else byteAt k u := by
  rcases byteAt_cases l with rfl | rfl | rfl | rfl <;>
    rcases byteAt_cases k with rfl | rfl | rfl | rfl <;>
    (ext i hi; simp [selectByte, byteAt]; grind)

end Words

/-! ## One access -/

namespace Board

open Physical

variable {I : Image} {a b c : Board} {w : BitVec 32}

theorem ram_stored (h : InRam (first w) (effective b.cpu.archRegs w))
    (hs : isStore (first w) = true) : ram (b.storedCells w) = storeBytes (first w)
      (ram b.phys.cells) (ramByte (effective b.cpu.archRegs w)) (b.cpu.archRegs (rtOf w)) := by
  simp only [isStore, Bool.or_eq_true, beq_iff_eq] at hs
  rw [ram, storedCells, words_update]
  rcases hs with hs | hs
  · have hv : b.stored w = b.cpu.archRegs (rtOf w) := by
      rw [stored, hs]
      rfl
    rw [storeBytes, if_pos hs, hv]
    exact bytes_putWord (by rw [lane_ramByte]; exact h.quad (.inr hs))
  · rw [storeBytes, if_neg (by rw [hs]; decide), if_pos hs]
    refine bytes_putByte fun k => ?_
    have hv : b.stored w = selectByte (lane (ramByte (effective b.cpu.archRegs w)))
        (words b.phys.cells (index (ramByte (effective b.cpu.archRegs w))))
        (b.cpu.archRegs (rtOf w)) := by
      rw [stored, hs, lane_ramByte, words_index]
      rfl
    rw [hv, byteAt_selectByte]

/-- A load writes to `$t`. -/
theorem writtenRegs_rt (s : Cpu) {data : BitVec 32} {k : BitVec 3} {v : BitVec 32}
    (h : wbOp (first w) (last w) (w.getLsbD 23) = 0b00#2 ++ k)
    (hv : WB.value 0#32 k (s.pcToMmu + 4#32) data (s.fetchedCp0.reg (rdOf w))
      (s.executedAlu w).result = v) : s.writtenRegs w data = setReg s.archRegs (rtOf w) v := by
  have hk : (0b00#2 ++ k).extractLsb 4 3 = 0b00#2 ∧ (0b00#2 ++ k).extractLsb 2 0 = k := by
    clear h hv
    revert k
    decide
  rw [Cpu.writtenRegs, h, hk.1, hk.2, hv, setReg]
  by_cases hr : rtOf w = 0#5
  · rw [hr]
    rfl
  · simp [WB.dest, hr]

theorem writtenRegs_load (h : InRam (first w) (effective b.cpu.archRegs w))
    (hm : isMem (first w) = true) (hs : isStore (first w) = false) :
    b.cpu.writtenRegs w (b.phys.cells (bank (effective b.cpu.archRegs w))
      (cell (effective b.cpu.archRegs w))) =
    setReg b.cpu.archRegs (rtOf w) (loadValue (first w) (ram b.phys.cells)
      (ramByte (effective b.cpu.archRegs w))) := by
  have halu := executedAlu_mem b.cpu hm
  have hbyte : ram b.phys.cells (ramByte (effective b.cpu.archRegs w)) =
      WB.byteOf ((effective b.cpu.archRegs w).extractLsb 1 0)
        (words b.phys.cells (index (ramByte (effective b.cpu.archRegs w)))) := by
    rw [byteOf_eq, ← lane_ramByte]
    rfl
  rw [← words_index b.phys.cells]
  simp only [isStore, Bool.or_eq_false_iff, beq_eq_false_iff_ne] at hs
  simp only [isMem, Bool.or_eq_true, beq_iff_eq, hs, or_false] at hm
  rcases hm with ((hm | hm) | hm) | hm
  · refine writtenRegs_rt _ (k := 0b001#3) (by rw [hm]; rfl) ?_
    have hl : lane (ramByte (effective b.cpu.archRegs w)) = 0#2 := by
      rw [lane_ramByte]
      exact h.quad (.inl hm)
    rw [loadValue, if_pos hm, ram, word_bytes hl]
    rfl
  · refine writtenRegs_rt _ (k := 0b100#3) (by rw [hm]; rfl) ?_
    rw [loadValue, hm, hbyte, halu]
    rfl
  · refine writtenRegs_rt _ (k := 0b011#3) (by rw [hm]; rfl) ?_
    rw [loadValue, hm, hbyte, halu]
    rfl
  · refine writtenRegs_rt _ (k := 0b101#3) (by rw [hm]; rfl) ?_
    have hl : (lane (ramByte (effective b.cpu.archRegs w))).getLsbD 0 = false := by
      rw [lane_ramByte]
      have := h.word hm
      grind
    have hb : (lane (ramByte (effective b.cpu.archRegs w))).getLsbD 1 =
        (effective b.cpu.archRegs w).getLsbD 1 := by
      rw [lane_ramByte]
      grind
    rw [loadValue, hm, ram, half_bytes hl, hb, halu]
    rfl

/-! ## An instruction -/

/-- The first cycle of `Mem1`. -/
theorem Accessing.enter_mem1 (h : Accessing I b c w) (ho : c.cpu.oldState = .exe)
    (hs : c.machine.state = .mem1) (x : Exts) :
    Accessing I b (c.cycle I x) w ∧ ∃ p, At b (c.cycle I x) w p := by
  have hc := (h.inInstr.reachable h.reachable).inv.2.control
  have hno : Mmu.isInsFOrMem c.machine.cpu.oldState = false := by
    rw [show c.machine.cpu.oldState = _ from ho]
    rfl
  have hr : c.machine.phy.ready = true := by
    by_contra hn
    have := (hc.busy (by simpa using hn)).1
    simp [hno] at this
  have hq : c.cpu.requests = false := by
    by_contra hn
    have := hc.request (Bool.eq_true_of_not_eq_false hn)
    simp [hno] at this
  have hcells : c.phys.cells = b.phys.cells := by
    rcases h.inInstr.unwritten h.reachable with hu | hu | hu
    · exact hu.cells
    · rcases hu.stage with ⟨hu, -⟩ | hu <;> simp [ho] at hu
    · simp [ho] at hu
  by_cases hf : first w = F.sw
  · obtain ⟨hnext, hat⟩ := h.enter_write hr (.inl ⟨ho, hs, hf⟩) hq hcells x
    exact ⟨hnext, _, hat⟩
  · obtain ⟨hnext, hat⟩ := h.enter_read hr ho hs hf hq hcells x
    exact ⟨hnext, _, hat⟩

theorem At.oldState_mem {p : Point} (h : At b c w p) (hp : p ≠ .done) :
    c.cpu.oldState = .mem1 ∨ c.cpu.oldState = .mem2 := by
  cases p
  case done => exact absurd rfl hp
  case reading0 | reading4 | read => exact .inl h.1
  all_goals
    rw [h.1]
    split_ifs <;> simp

/-- From `Mem1` on, a load or store of the RAM stands at one of its points. -/
theorem InInstr.at_point (hb : Reachable I b) (h : InInstr I b c)
    (hm : isMem (first c.machine.word) = true)
    (hin : InRam (first c.machine.word) (effective b.cpu.archRegs c.machine.word))
    (ho : c.cpu.oldState = .mem1 ∨ c.cpu.oldState = .mem2 ∨ c.cpu.oldState = .writeB) :
    ∃ p, At b c c.machine.word p := by
  induction h with
  | fetch x hf =>
    have hs : (b.cycle I x).cpu.oldState = b.machine.state := rfl
    rw [hs, hf.1] at ho
    simp at ho
  | @next a x hpre hx hw ih =>
    have hc := (hpre.reachable hb).inv.2.control
    have hs : (a.cycle I x).cpu.oldState = a.machine.state := rfl
    rw [hs] at ho
    have hfl : inFlight a.machine.state = true := by
      rcases ho with ho | ho | ho <;> rw [ho] <;> rfl
    have hd : a.machine.state ≠ .insD := by
      rcases ho with ho | ho | ho <;> rw [ho] <;> decide
    have hword : (a.cycle I x).machine.word = a.machine.word :=
      Machine.insReg_cycle (a := a.machine) (b := (a.cycle I x).machine) rfl hd
    rw [hword] at hm hin ⊢
    have hacc : Accessing I b a a.machine.word := ⟨hb, hpre, rfl, hm, hin⟩
    have hold : inFlight a.cpu.oldState = true := hc.inFlight_before hfl hd
    have hsucc : Mmu.isInsFOrMem a.cpu.oldState = false →
        a.machine.state = a.cpu.succ a.cpu.oldState := by
      intro hno
      rcases hc.state_cases with ⟨hb, -⟩ | ⟨-, -, hs⟩ | ⟨-, -, hs⟩ | ⟨-, hf, -⟩
      · have hno' : Mmu.isInsFOrMem a.machine.cpu.oldState = false := hno
        simp [(hc.busy hb).1] at hno'
      · exact absurd hs hx
      · exact hs
      · have hf' : a.cpu.oldState = .insF := hf
        simp [hf', inFlight] at hold
    -- the stage before is `Exe` or one of the points
    cases hstage : a.cpu.oldState
    case writeB => exact absurd hstage hw
    case insF | exc => simp [hstage, inFlight] at hold
    case mem1 | mem2 =>
      obtain ⟨p, hp⟩ := ih hm hin (by simp [hstage])
      have hne : p ≠ .done := by
        rintro rfl
        have := hp.1
        simp [hstage] at this
      exact ⟨_, (hacc.step hp hne x).2⟩
    case exe =>
      have hmem : a.cpu.hasMem1 = true := by
        rw [← hm]
        exact (hc.latched hold).2.1
      have hs1 : a.machine.state = .mem1 := by
        rw [hsucc (by rw [hstage]; rfl), hstage]
        exact if_pos hmem
      exact (hacc.enter_mem1 hstage hs1 x).2
    case insD =>
      rw [hsucc (by rw [hstage]; rfl), hstage] at ho
      simp [Cpu.succ] at ho

/-- The board after `n` cycles; `x` is what comes from outside in each of them. -/
def drive (I : Image) : (ℕ → Exts) → Board → ℕ → Board
  | _, c, 0 => c
  | x, c, n + 1 => drive I (fun k => x (k + 1)) (c.cycle I (x 0)) n

/-- The number of cycles that an access takes from a point on, at most. -/
def Point.left : Point → ℕ
  | .reading0 => 7
  | .reading4 => 6
  | .read => 5
  | .writing0 => 4
  | .writing4 => 3
  | .writing8 => 2
  | .wrote => 1
  | .done => 0

theorem Point.left_next {p : Point} (sb : Bool) (h : p ≠ .done) : (p.next sb).left < p.left := by
  cases p <;> cases sb <;> first | exact absurd rfl h | decide

theorem Accessing.completes (h : Accessing I b c w) {p : Point} (hp : At b c w p) (x : ℕ → Exts) :
    ∃ n, Accessing I b (drive I x c n) w ∧ (drive I x c n).cpu.oldState = .writeB := by
  induction hk : p.left using Nat.strong_induction_on generalizing c p x with
  | _ k ih =>
    by_cases hd : p = .done
    · subst hd
      exact ⟨0, h, hp.1⟩
    · obtain ⟨hnext, hat⟩ := h.step hp hd (x 0)
      have hlt := Point.left_next (first w == F.sb) hd
      rw [hk] at hlt
      obtain ⟨n, hn⟩ := ih _ hlt hnext hat (fun k => x (k + 1)) rfl
      exact ⟨n + 1, hn⟩

/-! ## Runs -/

/-- The loads and stores of the RAM that a run from `b` completes, each with the board that
fetched it and the board after its `WriteB`. Other instructions, exceptions and interrupts may come
between them; every load or store that completes is one of the RAM. -/
inductive Executes (I : Image) (b : Board) : List (Board × Board) → Board → Prop
  | start : Executes I b [] b
  | access {l : List (Board × Board)} {a c : Board} : Executes I b l a → InInstr I a c →
      c.cpu.oldState = .writeB → isMem (first c.machine.word) = true →
      InRam (first c.machine.word) (effective a.cpu.archRegs c.machine.word) →
      Executes I b (l ++ [(a, c)]) c
  | other {l : List (Board × Board)} {a c : Board} : Executes I b l a → InInstr I a c →
      c.cpu.oldState = .writeB → isMem (first c.machine.word) = false → Executes I b l c
  | fault {l : List (Board × Board)} {a c : Board} (x : Exts) : Executes I b l a → InInstr I a c →
      c.cpu.oldState ≠ .writeB → c.machine.state = .exc → Executes I b l (c.cycle I x)
  | interrupt {l : List (Board × Board)} {a : Board} (x : Exts) : Executes I b l a →
      a.cpu.oldState = .writeB → a.machine.state = .exc → Executes I b l (a.cycle I x)

/-- The bytes that the accesses `l` leave. -/
def replay (M : BitVec 23 → BitVec 8) (l : List (Board × Board)) : BitVec 23 → BitVec 8 :=
  l.foldl (fun M p => storeBytes (first p.2.machine.word) M
    (ramByte (effective p.1.cpu.archRegs p.2.machine.word))
    (p.1.cpu.archRegs (rtOf p.2.machine.word))) M

/-- The access `p` on the bytes `M`: a store changes the bytes it names and no register, a load
no byte and one register. -/
def Performed (M : BitVec 23 → BitVec 8) (p : Board × Board) : Prop :=
  let w := p.2.machine.word
  let v := effective p.1.cpu.archRegs w
  ram p.1.phys.cells = M ∧
  ram p.2.phys.cells =
    storeBytes (first w) M (ramByte v) (p.1.cpu.archRegs (rtOf w)) ∧
  p.2.cpu.archRegs = if isStore (first w) then p.1.cpu.archRegs
    else setReg p.1.cpu.archRegs (rtOf w) (loadValue (first w) M (ramByte v))

theorem performed (hb : Reachable I b) (h : InInstr I b c) (ho : c.cpu.oldState = .writeB)
    (hm : isMem (first c.machine.word) = true)
    (hin : InRam (first c.machine.word) (effective b.cpu.archRegs c.machine.word)) :
    Performed (ram b.phys.cells) (b, c) := by
  obtain ⟨p, hp⟩ := h.at_point hb hm hin (.inr (.inr ho))
  have hdone : p = .done := by
    by_contra hn
    rcases hp.oldState_mem hn with hs | hs <;> simp [ho] at hs
  subst hdone
  obtain ⟨-, hcells, hregs⟩ := hp
  refine ⟨rfl, ?_, ?_⟩
  · by_cases hs : isStore (first c.machine.word) = true
    · rw [hcells, if_pos hs, ram_stored hin hs]
    · rw [hcells, if_neg hs]
      simp only [isStore, Bool.or_eq_true, beq_iff_eq, not_or] at hs
      rw [storeBytes, if_neg hs.1, if_neg hs.2]
  · by_cases hs : isStore (first c.machine.word) = true
    · rw [hregs, if_pos hs]
      exact writtenRegs_store _ hs
    · rw [hregs, if_neg hs]
      exact writtenRegs_load hin hm (by simpa using hs)

/-- An instruction that is no load or store leaves the RAM alone. -/
theorem cells_other (hb : Reachable I b) (h : InInstr I b c) (ho : c.cpu.oldState = .writeB)
    (hm : isMem (first c.machine.word) = false) : c.phys.cells = b.phys.cells := by
  cases h with
  | fetch x hf =>
    have hs : b.machine.state = .writeB := ho
    simp [hf.1] at hs
  | @next a x hpre hx hw =>
    have hc := (hpre.reachable hb).inv.2.control
    have hs : a.machine.state = .writeB := ho
    have hword : (a.cycle I x).machine.word = a.machine.word :=
      Machine.insReg_cycle (a := a.machine) (b := (a.cycle I x).machine) rfl (by simp [hs])
    rw [hword] at hm
    have hfl : inFlight a.machine.cpu.oldState = true :=
      hc.inFlight_before (by rw [hs]; rfl) (by simp [hs])
    obtain ⟨-, h1, h2⟩ := hc.latched hfl
    have hmem1 : a.cpu.hasMem1 = false := h1.trans hm
    rcases hpre.unwritten hb with hu | hu | hu
    · exact (hu.plain (by rw [hs]; rfl) x).cells
    · rcases hu.stage with ⟨ho', -⟩ | ho'
      · have := hc.mem1 ho'
        exact absurd (hmem1.symm.trans this) (by decide)
      · have hsb := isMem_of_sb (h2.symm.trans (hc.mem2 ho'))
        exact absurd (hm.symm.trans hsb) (by decide)
    · exact absurd hu hw

/-- Taking an interrupt leaves the RAM alone. -/
theorem cells_interrupt (ha : Reachable I a) (ho : a.cpu.oldState = .writeB)
    (hx : a.machine.state = .exc) (x : Exts) : (a.cycle I x).phys.cells = a.phys.cells := by
  obtain ⟨hinv, hr⟩ := ha.inv
  have hc := hr.control
  have hno : Mmu.isInsFOrMem a.machine.cpu.oldState = false := by
    rw [show a.machine.cpu.oldState = _ from ho]
    rfl
  have hready : a.phys.out.ready = true := by
    by_contra hn
    have := (hc.busy (Bool.eq_false_iff.2 hn)).1
    simp [hno] at this
  have hq : a.cpu.requests = false := by
    by_contra hn
    have := hc.request (Bool.eq_true_of_not_eq_false hn)
    simp [hno] at this
  have hu : Unwritten a a :=
    ⟨.inl (hinv.phase.ramIdle (hinv.ready_iff.1 hready)), rfl, writeEnable_of_requests hq⟩
  exact (hu.plain (by rw [hx]; rfl) x).cells

theorem Executes.reachable {l : List (Board × Board)} (hb : Reachable I b)
    (h : Executes I b l a) : Reachable I a := by
  induction h with
  | start => exact hb
  | access _ hin _ _ _ ih => exact hin.reachable ih
  | other _ hin _ _ ih => exact hin.reachable ih
  | fault x _ hin _ _ ih => exact (hin.reachable ih).cycle x
  | interrupt x _ _ _ ih => exact ih.cycle x

theorem Executes.ram_eq {l : List (Board × Board)} (hb : Reachable I b) (h : Executes I b l a) :
    ram a.phys.cells = replay (ram b.phys.cells) l := by
  induction h with
  | start => rfl
  | access hex hin ho hm hram ih =>
    rw [replay, List.foldl_append]
    change _ = replay (replay (ram b.phys.cells) _) _
    rw [← ih]
    exact (performed (hex.reachable hb) hin ho hm hram).2.1
  | other hex hin ho hm ih => rw [cells_other (hex.reachable hb) hin ho hm, ih]
  | fault x hex hin ho hx ih =>
    have hu := hin.unwritten_faulted (hex.reachable hb) hx ho
    rw [(hu.plain (by rw [hx]; rfl) x).cells, ih]
  | interrupt x hex ho hx ih => rw [cells_interrupt (hex.reachable hb) ho hx x, ih]

theorem Executes.performed {l : List (Board × Board)} (hb : Reachable I b)
    (h : Executes I b l a) : ∀ l₁ p l₂, l = l₁ ++ p :: l₂ →
      Performed (replay (ram b.phys.cells) l₁) p := by
  induction h with
  | start =>
    intro l₁ p l₂ hl
    simp at hl
  | @access l a c hex hin ho hm hram ih =>
    intro l₁ p l₂ hl
    rcases List.eq_nil_or_concat l₂ with rfl | ⟨l₂', q, rfl⟩
    · obtain ⟨rfl, hp⟩ := List.append_inj' hl rfl
      simp only [List.cons.injEq, and_true] at hp
      subst hp
      rw [← hex.ram_eq hb]
      exact Board.performed (hex.reachable hb) hin ho hm hram
    · have hl' : l ++ [(a, c)] = (l₁ ++ p :: l₂') ++ [q] := by simpa using hl
      exact ih l₁ p l₂' (List.append_inj' hl' rfl).1
  | other _ _ _ _ ih => exact ih
  | fault _ _ _ _ _ ih => exact ih
  | interrupt _ _ _ _ ih => exact ih

/-- The RAM is a memory of bytes. Over every run, each load returns what the stores before it have
left, each store changes its bytes and no other, and nothing else changes the RAM; and every load or
store that comes to its `Mem1` completes. -/
theorem ram_consistent {l : List (Board × Board)} (hb : Reachable I b) (h : Executes I b l a) :
    ram a.phys.cells = replay (ram b.phys.cells) l ∧
    (∀ l₁ p l₂, l = l₁ ++ p :: l₂ → Performed (replay (ram b.phys.cells) l₁) p) ∧
    ∀ c, InInstr I a c → c.cpu.oldState = .exe → c.machine.state = .mem1 →
      InRam (first c.machine.word) (effective a.cpu.archRegs c.machine.word) → ∀ x, ∃ n,
        InInstr I a (drive I x c n) ∧ (drive I x c n).cpu.oldState = .writeB := by
  refine ⟨h.ram_eq hb, h.performed hb, fun c hin ho hs hram x => ?_⟩
  have ha := h.reachable hb
  have hc := (hin.reachable ha).inv.2.control
  have hm : isMem (first c.machine.word) = true := by
    have hfl : inFlight c.machine.cpu.oldState = true := by
      rw [show c.machine.cpu.oldState = _ from ho]
      rfl
    exact (hc.latched hfl).2.1.symm.trans (Machine.hasMem1_of_state hc hs)
  have hacc : Accessing I a c c.machine.word := ⟨ha, hin, rfl, hm, hram⟩
  obtain ⟨hnext, p, hp⟩ := hacc.enter_mem1 ho hs (x 0)
  obtain ⟨n, hn, hend⟩ := hnext.completes hp fun k => x (k + 1)
  exact ⟨n + 1, hn.inInstr, hend⟩

/-! ## A store and a load -/

/-- `lui r1, 0x8000`, `sw r1, 0(r1)` and `lw r2, 0(r1)`. -/
def storesWord : Image := romOf [0x3c018000#32, 0xac210000#32, 0x8c220000#32]

/-- The board after the store, and after the load. -/
def storedWord : Board := (atReset.run storesWord 5).run storesWord 7

def loadedWord : Board := (storedWord.cycle storesWord still).run storesWord 6

/-- The word is in RAM after the store, and in the register after the load. -/
theorem ram_consistent_sw :
    ram loadedWord.phys.cells = putWord (ram (atReset.run storesWord 4).phys.cells) 0#23 0x80000000#32 ∧
    loadedWord.cpu.archRegs 2#5 = 0x80000000#32 := by
  have hb : Reachable storesWord (atReset.run storesWord 4) := (atReset_reachable _).run 4
  have hsw : InInstr storesWord (atReset.run storesWord 4) storedWord := by
    refine InInstr.run (.fetch still ⟨?_, ?_⟩) ?_
    · decide +kernel
    · decide +kernel
    · decide +kernel
  have hlw : InInstr storesWord storedWord loadedWord := by
    refine InInstr.run (.fetch still ⟨?_, ?_⟩) ?_
    · decide +kernel
    · decide +kernel
    · decide +kernel
  have hword : storedWord.machine.word = 0xac210000#32 := by decide +kernel
  have hword' : loadedWord.machine.word = 0x8c220000#32 := by decide +kernel
  have hregs : (atReset.run storesWord 4).cpu.archRegs 1#5 = 0x80000000#32 := by decide +kernel
  have hregs' : storedWord.cpu.archRegs 1#5 = 0x80000000#32 := by decide +kernel
  have hv : effective (atReset.run storesWord 4).cpu.archRegs 0xac210000#32 = 0x80000000#32 := by
    rw [effective, show rsOf 0xac210000#32 = 1#5 from rfl, hregs]
    rfl
  have hv' : effective storedWord.cpu.archRegs 0x8c220000#32 = 0x80000000#32 := by
    rw [effective, show rsOf 0x8c220000#32 = 1#5 from rfl, hregs']
    rfl
  have hex := Executes.access .start hsw (by decide +kernel) (by rw [hword]; rfl) (by
    rw [hword, hv]
    exact ⟨by decide, by decide, fun _ => by decide, fun h => by decide⟩)
  have hex' := Executes.access hex hlw (by decide +kernel) (by rw [hword']; rfl) (by
    rw [hword', hv']
    exact ⟨by decide, by decide, fun _ => by decide, fun h => by decide⟩)
  have hstore : ∀ M, replay M [(atReset.run storesWord 4, storedWord)] =
      putWord M 0#23 0x80000000#32 := by
    intro M
    rw [replay, List.foldl_cons, List.foldl_nil, hword, hv, show rtOf 0xac210000#32 = 1#5 from rfl,
      hregs]
    rfl
  obtain ⟨-, hperf, -⟩ := ram_consistent hb hex'
  obtain ⟨-, hafter, hload⟩ := hperf [(_, storedWord)] (storedWord, loadedWord) [] rfl
  simp only [hword', hv'] at hload hafter
  rw [hstore] at hload hafter
  exact ⟨hafter, (congrFun hload 2#5).trans rfl⟩

end Board

end CacheCPU
