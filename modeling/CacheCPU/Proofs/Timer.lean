import CacheCPU.Proofs.NextPc

/-!
# The timer

`CP0` finds a write to `Compare` by comparing the register with the value it held one edge before.
A write of another value restarts `Count` and drops the interrupt at the `WriteB` of its `MTC0`;
from there `Count` follows the instructions until it reaches `Compare`, and the interrupt that is
then raised stays until `Exception` acknowledges it or `Compare` changes. A write of the value
already there is not seen.
-/

namespace CacheCPU

namespace Machine

variable {m a b c : Machine} {q : PhyOut}

abbrev count (a : Machine) : BitVec 32 := a.cpu.cp0.reg CP0.count

abbrev compare (a : Machine) : BitVec 32 := a.cpu.cp0.reg CP0.compare

/-- The timer interrupt is pending. -/
abbrev pending (a : Machine) : Bool := a.cpu.cp0.compareInterrupt

/-- The next edge is the `Exe` of an `MTC0` to register `r`. -/
def WritesCp0 (a : Machine) (r : BitVec 5) : Prop :=
  a.state = .exe ∧ isMtc0 a.word = true ∧ rdOf a.word = r

/-- The edge before was the `Exe` of an `MTC0` to `Compare`. -/
def ComparePosted (a : Machine) : Prop :=
  a.cpu.oldState = .exe ∧ isMtc0 a.word = true ∧ rdOf a.word = CP0.compare

/-- The next edge takes the timer interrupt: nothing that goes before it has happened. -/
def TakesTimer (a : Machine) : Prop :=
  a.state = .exc ∧ a.cpu.mmu.excCode = 0#3 ∧ a.cpu.id.excCode = 0#2 ∧
    a.cpu.serialInterToExcep a.phy = false ∧ a.cpu.clockInterToExcep = true

/-- Any number of steps. -/
inductive Run (a : Machine) : Machine → Prop
  | refl : Run a a
  | step {b c : Machine} : Run a b → Step b c → Run a c

/-- A run that completes `k` instructions, writes neither `Count` nor `Compare` and does not take
the timer interrupt. -/
inductive TimerRun (a : Machine) : ℕ → Machine → Prop
  | start : TimerRun a 0 a
  | step {k : ℕ} {b c : Machine} : TimerRun a k b → ¬b.WritesCp0 CP0.count →
      ¬b.WritesCp0 CP0.compare → ¬b.TakesTimer → Step b c →
      TimerRun a (if b.state = .writeB then k + 1 else k) c

/-- A run in which the timer interrupt is not taken and no write to `Compare` completes. -/
inductive Held (a : Machine) : Machine → Prop
  | start : Held a a
  | step {b c : Machine} : Held a b → ¬b.TakesTimer → ¬b.ComparePosted → Step b c → Held a c

/-- The law of the timer from the `WriteB` of an `MTC0` to `Compare` on. -/
structure TimerLaw (a : Machine) : Prop where
  restart : a.pending = false ∧ a.count = 0#32
  counts : ∀ k c, TimerRun a k c → c.count.toNat = min k c.compare.toNat
  only : ∀ b c, Run a b → Step b c → b.pending = false → c.pending = true → b.compare ≤ b.count
  sticky : ∀ b c d, Run a b → Step b c → b.pending = false → c.pending = true → Held c d →
    d.pending = true

/-! ## One edge -/

theorem cp0_cycle (hcpu : b.cpu = a.cpu.cycle a.phy q) : b.cpu.cp0 =
    a.cpu.cp0.rise a.state (rdOf a.instr) a.cpu.id.cp0Op a.cpu.gpr.rtValue a.cpu.exc
      a.cpu.id.eretEnable := by
  rw [hcpu]
  rfl

theorem pending_cycle (hcpu : b.cpu = a.cpu.cycle a.phy q) :
    b.pending = a.cpu.cp0.pending a.cpu.exc.compareRecover := by
  rw [pending, cp0_cycle hcpu]
  rfl

theorem oldCompare_cycle (hcpu : b.cpu = a.cpu.cycle a.phy q) :
    b.cpu.cp0.oldCompare = a.compare := by
  rw [cp0_cycle hcpu, CP0.rise_oldCompare]

theorem recover_cycle (hcpu : b.cpu = a.cpu.cycle a.phy q) (ht : ¬a.TakesTimer)
    (hr : a.cpu.exc.compareRecover = false) : b.cpu.exc.compareRecover = false := by
  have hs : a.cpu.state a.phy = a.state := rfl
  rw [hcpu, Cpu.cycle_exc, hs]
  cases hst : a.state
  case exc =>
    refine (Exception.record_compareRecover _ _ ?_).trans hr
    exact fun h => ht ⟨hst, h⟩
  all_goals rfl

theorem Control.oldState_of_writeB (hc : Control a) (hs : a.state = .writeB) :
    a.cpu.oldState ≠ .writeB := by
  intro ho
  rcases hc.state_cases with ⟨-, -, h⟩ | ⟨-, -, h⟩ | ⟨-, -, h⟩ | ⟨-, -, h⟩
  · simp [hs, Mmu.isInsFOrMem] at h
  · simp [hs] at h
  · simp [hs, ho, Cpu.succ] at h
  · simp [hs] at h

theorem Control.recover_of_ne (hc : Control a) (h : a.cpu.oldState ≠ .exc) :
    a.cpu.exc.compareRecover = false := by
  by_contra hn
  exact h (hc.recover (by simpa using hn))

/-- What an `Exe` edge does to a CP0 register that it does not write. -/
theorem reg_exe (hc : Control a) (hcpu : b.cpu = a.cpu.cycle a.phy q) (hs : a.state = .exe)
    (hold : a.cpu.cp0.oldCompare = a.compare) {r : BitVec 5} (hr : r ≠ CP0.status)
    (hw : ¬a.WritesCp0 r) : b.cpu.cp0.reg r = a.cpu.cp0.reg r := by
  have hfl := hc.inFlight_before (by rw [hs]; rfl) (by simp [hs])
  have hl := (hc.latched hfl).1
  rw [cp0_cycle hcpu, CP0.rise_reg, hs, CP0.regs_exe hold]
  split_ifs with he hop
  · exact Function.update_of_ne hr _ _
  · rw [hl.cp0Op] at hop
    have hne : r ≠ a.cpu.cp0.rdAddress := by
      intro h
      exact hw ⟨hs, hop, by rw [h, hc.rd hfl]⟩
    exact Function.update_of_ne hne _ _
  · rfl

/-- A change of `Compare` is that of an `MTC0` whose `Exe` has just passed. -/
theorem posted_of_ne (hc : Control a) (hcpu : b.cpu = a.cpu.cycle a.phy q)
    (h : b.compare ≠ b.cpu.cp0.oldCompare) : b.ComparePosted := by
  rw [oldCompare_cycle hcpu] at h
  have hs : a.state = .exe := by
    by_contra hn
    refine h ?_
    rw [compare, cp0_cycle hcpu, CP0.rise_reg, CP0.regs_compare hn]
  have hfl := hc.inFlight_before (by rw [hs]; rfl) (by simp [hs])
  have hl := (hc.latched hfl).1
  have hw : b.word = a.word := insReg_cycle hcpu (by rw [hs]; decide)
  have hreg : b.compare = a.cpu.cp0.regs .exe a.cpu.id.cp0Op a.cpu.gpr.rtValue a.cpu.exc
      a.cpu.id.eretEnable CP0.compare := by
    rw [compare, cp0_cycle hcpu, CP0.rise_reg, hs]
  refine ⟨by rw [hcpu]; exact hs, ?_⟩
  rw [hw, ← hl.cp0Op, ← hc.rd hfl]
  by_contra hn
  refine h (hreg.trans ?_)
  have hcmp : CP0.compare ≠ CP0.status ∧ CP0.compare ≠ CP0.count := by decide
  unfold CP0.regs
  split_ifs with h1 h2 h3 h4 h5
  · exact Function.update_of_ne hcmp.1 _ _
  · exact Function.update_of_ne (fun hr => hn ⟨h2.2, hr.symm⟩) _ _
  · simp at h3
  · exact Function.update_of_ne hcmp.2 _ _
  · simp at h5
  · rfl

/-- `Count` after an edge that does not write it. -/
theorem count_cycle (hc : Control a) (hcpu : b.cpu = a.cpu.cycle a.phy q)
    (hold : a.cpu.cp0.oldCompare = a.compare) (hr : a.cpu.exc.compareRecover = false)
    (hw : ¬a.WritesCp0 CP0.count) : b.count =
      if a.state = .writeB ∧ a.pending = false then a.count + 1#32 else a.count := by
  by_cases hs : a.state = .exe
  · rw [if_neg (by simp [hs])]
    exact reg_exe hc hcpu hs hold (by decide) hw
  · rw [count, cp0_cycle hcpu, CP0.rise_reg, CP0.regs]
    simp only [hs, false_and, if_false, hold, ne_eq, not_true_eq_false]
    split_ifs with hx hp hp
    · simp [hx.1] at hp
    · rw [CP0.record_count, hr, if_neg (by simp)]
    · exact Function.update_self _ _ _
    · rfl

/-! ## A run from the restart -/

/-- `Compare` holds `v` and `k` instructions have completed since the restart. -/
structure Counting (v : BitVec 32) (k : ℕ) (b : Machine) : Prop where
  compare : b.compare = v
  oldCompare : b.cpu.cp0.oldCompare = v
  count : b.count.toNat = min k v.toNat
  recover : b.cpu.exc.compareRecover = false
  -- the interrupt is raised one edge after `Count` has reached `Compare`
  ahead : b.pending = false → k < v.toNat ∨ b.cpu.oldState = .writeB
  reached : b.pending = true → v.toNat ≤ k

theorem Counting.pending_iff {v : BitVec 32} {k : ℕ} (h : Counting v k a)
    (hcpu : b.cpu = a.cpu.cycle a.phy q) : b.pending = true ↔ v.toNat ≤ k := by
  have hle : a.compare ≤ a.count ↔ v.toNat ≤ k := by
    rw [BitVec.le_def, h.count, h.compare]
    omega
  rw [pending_cycle hcpu, CP0.pending, h.oldCompare, if_neg (by simp [h.compare]), h.recover,
    if_neg (by simp)]
  split_ifs with hp
  · simp [hle.1 hp]
  · refine ⟨h.reached, fun hk => absurd (hle.2 hk) hp⟩

theorem Counting.step {v : BitVec 32} {k : ℕ} (h : Counting v k a) (hc : Control a)
    (h1 : ¬a.WritesCp0 CP0.count) (h2 : ¬a.WritesCp0 CP0.compare) (ht : ¬a.TakesTimer)
    (hstep : Step a b) : Counting v (if a.state = .writeB then k + 1 else k) b := by
  obtain ⟨q, hcpu, -, -⟩ := step_cases hstep
  have hold : a.cpu.cp0.oldCompare = a.compare := by rw [h.oldCompare, h.compare]
  have hcount := count_cycle hc hcpu hold h.recover h1
  have hpend := h.pending_iff hcpu
  refine
    { compare := ?_
      oldCompare := by rw [oldCompare_cycle hcpu, h.compare]
      count := ?_
      recover := recover_cycle hcpu ht h.recover
      ahead := fun hb => ?_
      reached := fun hb => ?_ }
  · by_cases hs : a.state = .exe
    · rw [← h.compare]
      exact reg_exe hc hcpu hs hold (by decide) h2
    · rw [← h.compare, Machine.compare, cp0_cycle hcpu, CP0.rise_reg, CP0.regs_compare hs]
  · have hk := h.count
    have hv := v.isLt
    by_cases hs : a.state = .writeB
    · rw [hcount, if_pos hs]
      rcases Bool.eq_false_or_eq_true a.pending with hp | hp
      · have := h.reached hp
        rw [if_neg (by simp [hp]), hk]
        omega
      · have hlt : k < v.toNat := (h.ahead hp).resolve_right (hc.oldState_of_writeB hs)
        rw [if_pos ⟨hs, hp⟩, BitVec.toNat_add, hk]
        simp only [BitVec.toNat_ofNat]
        omega
    · rw [hcount, if_neg hs, if_neg (by simp [hs]), hk]
  · have hlt : ¬v.toNat ≤ k := fun hn => by simp [hpend.2 hn] at hb
    split_ifs with hs
    · exact .inr (by rw [hcpu]; exact hs)
    · exact .inl (by omega)
  · have := hpend.1 hb
    split_ifs <;> omega

theorem TimerRun.counting {v : BitVec 32} {k : ℕ} (hr : Reachable a) (h0 : Counting v 0 a)
    (h : TimerRun a k b) : Reachable b ∧ Counting v k b := by
  induction h with
  | start => exact ⟨hr, h0⟩
  | step _ h1 h2 ht hs ih => exact ⟨ih.1.step hs, ih.2.step ih.1.control h1 h2 ht hs⟩

/-! ## The pending interrupt -/

theorem Run.reachable (hr : Reachable a) (h : Run a b) : Reachable b := by
  induction h with
  | refl => exact hr
  | step _ h ih => exact ih.step h

/-- The interrupt is raised only at or beyond `Compare`. -/
theorem le_of_raised (h : Step a b) (ha : a.pending = false) (hb : b.pending = true) :
    a.compare ≤ a.count := by
  obtain ⟨q, hcpu, -, -⟩ := step_cases h
  by_contra hn
  rw [pending_cycle hcpu, CP0.pending, if_neg hn] at hb
  split_ifs at hb
  simp [ha] at hb

/-- An edge that raises the interrupt does not acknowledge it. -/
theorem recover_of_raised (h : Step a b) (ha : a.pending = false) (hb : b.pending = true) :
    b.cpu.exc.compareRecover = false := by
  obtain ⟨q, hcpu, -, -⟩ := step_cases h
  refine recover_cycle hcpu (fun ht => ?_) ?_
  · have hclk := ht.2.2.2.2
    simp [Cpu.clockInterToExcep, show a.cpu.cp0.compareInterrupt = false from ha] at hclk
  · rw [pending_cycle hcpu, CP0.pending] at hb
    split_ifs at hb <;> simp_all

theorem Held.pending (hr : Reachable a) (hstep : Step a b) (ha : a.pending = false)
    (hb : b.pending = true) (h : Held b c) : c.pending = true ∧
      c.cpu.exc.compareRecover = false ∧ ∃ d, Reachable d ∧ Step d c := by
  induction h with
  | start => exact ⟨hb, recover_of_raised hstep ha hb, a, hr, hstep⟩
  | @step x y hheld ht hp hs ih =>
    obtain ⟨hx, hrec, d, hd, hds⟩ := ih
    obtain ⟨q, hcpu, -, -⟩ := step_cases hs
    obtain ⟨q', hcpu', -, -⟩ := step_cases hds
    have heq : x.compare = x.cpu.cp0.oldCompare := by
      by_contra hn
      exact hp (posted_of_ne hd.control hcpu' hn)
    refine ⟨?_, recover_cycle hcpu ht hrec, x, hd.step hds, hs⟩
    rw [pending_cycle hcpu, CP0.pending, if_neg (by simp [heq]), hrec, if_neg (by simp)]
    split_ifs
    · rfl
    · exact hx

/-! ## The write to `Compare` -/

section Write

variable (hr : Reachable m) (h : InInstr m a) (ho : a.cpu.oldState = .writeB)
  (hw : isMtc0 a.word = true) (hrd : rdOf a.word = CP0.compare)
include hr h ho hw hrd

/-- What the `WriteB` edge of the `MTC0` finds. -/
theorem compare_writeB : ∃ b, InInstr m b ∧ Step b a ∧ b.state = .writeB ∧
    b.cpu.oldState = .exe ∧ b.compare = m.cpu.rtVal a.word ∧
    b.cpu.cp0.oldCompare = m.cpu.cp0.reg CP0.compare := by
  obtain ⟨b, hin, hstep, hs, hob, hword⟩ := h.writeB_edge hr ho (isMem_of_isMtc0 hw)
  have hfl := hin.flight hr
  simp only [Flight, hob] at hfl
  obtain ⟨-, -, haft⟩ := hfl
  have hcmp : m.cpu.fetchedCp0.reg CP0.compare = m.cpu.cp0.reg CP0.compare := by
    rw [Cpu.fetchedCp0, CP0.rise_reg, CP0.regs_compare (by decide)]
  refine ⟨b, hin, hstep, hs, hob, ?_, by rw [haft.oldCompare hob, hcmp]⟩
  rw [compare, haft.cp0 _ (by decide), ← hword, Cpu.executedCp0, isEret_of_isMtc0 hw, hw, hrd]
  simp

/-- A write of another value restarts the timer. -/
theorem counting_restart (hne : m.cpu.rtVal a.word ≠ m.cpu.cp0.reg CP0.compare) :
    a.pending = false ∧ a.count = 0#32 ∧ Counting (m.cpu.rtVal a.word) 0 a := by
  obtain ⟨b, hin, hstep, hs, hob, hcmp, hold⟩ := compare_writeB hr h ho hw hrd
  obtain ⟨q, hcpu, -, -⟩ := step_cases hstep
  have hc := (hin.reachable hr).control
  have hchange : b.cpu.cp0.reg CP0.compare ≠ b.cpu.cp0.oldCompare := by
    rw [hold]
    exact fun hn => hne (hcmp.symm.trans hn)
  have hpend : a.pending = false := by rw [pending_cycle hcpu, CP0.pending, if_pos hchange]
  have hcount : a.count = 0#32 := by
    rw [count, cp0_cycle hcpu, CP0.rise_reg, hs, CP0.regs, if_neg (by simp), if_neg (by simp),
      if_neg (by simp), if_pos hchange, Function.update_self]
  have hcomp : a.compare = m.cpu.rtVal a.word := by
    rw [← hcmp, compare, cp0_cycle hcpu, CP0.rise_reg, hs, CP0.regs_compare (by decide)]
  have hrec := (h.reachable hr).control.recover_of_ne (by simp [ho])
  exact ⟨hpend, hcount, hcomp, by rw [oldCompare_cycle hcpu, hcmp], by rw [hcount]; simp, hrec,
    fun _ => .inr ho, fun hn => by simp [hpend] at hn⟩

/-- A write of the value already there restarts nothing. -/
theorem not_restart (heq : m.cpu.rtVal a.word = m.cpu.cp0.reg CP0.compare) :
    ¬(a.pending = false ∧ a.count = 0#32) := by
  obtain ⟨b, hin, hstep, hs, hob, hcmp, hold⟩ := compare_writeB hr h ho hw hrd
  obtain ⟨d, hind, hstep', hs', hod, hword⟩ := hin.exe_edge hr hob
  obtain ⟨q, hcpu, -, -⟩ := step_cases hstep
  obtain ⟨q', hcpu', -, -⟩ := step_cases hstep'
  have hcb := (hin.reachable hr).control
  have hcd := (hind.reachable hr).control
  have hb : b.cpu.cp0.oldCompare = b.compare := by rw [hold, hcmp, heq]
  have hd : d.cpu.cp0.oldCompare = d.compare := by
    have hfl := hind.flight hr
    simp only [Flight, hod] at hfl
    obtain ⟨-, he, -⟩ := hfl
    rw [he.oldCompare, compare, he.cp0]
  have hrecb := hcb.recover_of_ne (by simp [hob])
  have hdb : d.compare = b.compare := by rw [← hb, oldCompare_cycle hcpu']
  -- the `Exe` edge has looked at `Count` already, so the interrupt is pending if it was reached
  have hlt : b.pending = false → b.count.toNat < b.compare.toNat := by
    intro hp
    rw [pending_cycle hcpu', CP0.pending, if_neg (by simp [hd]),
      hcd.recover_of_ne (by simp [hod]), if_neg (by simp)] at hp
    have hword' : a.word = d.word := (insReg_cycle hcpu (by simp [hs])).trans hword
    have hnw : ¬d.WritesCp0 CP0.count := by
      rintro ⟨-, -, hn⟩
      rw [← hword', hrd] at hn
      exact absurd hn (by decide)
    rw [count, reg_exe hcd hcpu' hs' hd (by decide) hnw, ← hdb]
    split_ifs at hp with hle
    exact Nat.lt_of_not_le hle
  rintro ⟨hpend, hcount⟩
  have hpb : b.pending = false := by
    by_contra hn
    rw [pending_cycle hcpu, CP0.pending, if_neg (by simp [hb]), hrecb, if_neg (by simp)] at hpend
    split_ifs at hpend
    exact hn hpend
  have hnw : ¬b.WritesCp0 CP0.count := fun hn => by simp [hn.1] at hs
  have hlt := hlt hpb
  have hv := b.compare.isLt
  rw [count_cycle hcb hcpu hb hrecb hnw, if_pos ⟨hs, hpb⟩, ← BitVec.toNat_inj,
    BitVec.toNat_add] at hcount
  simp only [BitVec.toNat_ofNat] at hcount
  omega

end Write

/-- After an `MTC0` to `Compare` the timer obeys its law if and only if the value written is not
the one already there. -/
theorem timer_law_iff (hr : Reachable m) (h : InInstr m a) (ho : a.cpu.oldState = .writeB)
    (hw : isMtc0 a.word = true) (hrd : rdOf a.word = CP0.compare) :
    TimerLaw a ↔ m.cpu.rtVal a.word ≠ m.cpu.cp0.reg CP0.compare := by
  constructor
  · intro hlaw heq
    exact not_restart hr h ho hw hrd heq hlaw.restart
  · intro hne
    have ha := h.reachable hr
    obtain ⟨hp, hcount, hrun⟩ := counting_restart hr h ho hw hrd hne
    refine ⟨⟨hp, hcount⟩, fun k c hc => ?_, fun b c _ hs hb hc => le_of_raised hs hb hc,
      fun b c d hb hs hpb hpc hd => (Held.pending (hb.reachable ha) hs hpb hpc hd).1⟩
    have hcc := (hc.counting ha hrun).2
    rw [hcc.count, hcc.compare]

/-- After reset: `mtc0 r0, Compare`. -/
def compareWritten : Machine := atReset.feeds (List.replicate 4 (idle 0x40805800#32))

theorem compareWritten_inInstr : InInstr atReset compareWritten := by
  refine inInstr_feeds rfl ⟨rfl, rfl⟩ ?_
  decide +kernel

theorem timer_law_zero : TimerLaw compareWritten :=
  (timer_law_iff (.reset atReset_isReset) compareWritten_inInstr (by decide +kernel)
    (by decide +kernel) (by decide +kernel)).2 (by decide +kernel)

/-- The same write again: the interrupt raised by the first stays pending. -/
theorem not_timer_law : ¬ ∀ m a : Machine, Reachable m → InInstr m a →
    a.cpu.oldState = .writeB → isMtc0 a.word = true → rdOf a.word = CP0.compare →
    TimerLaw a := by
  intro h
  have hin : InInstr compareWritten
      (compareWritten.feeds (List.replicate 4 (idle 0x40805800#32))) := by
    refine inInstr_feeds rfl ⟨?_, rfl⟩ ?_ <;> decide +kernel
  have hlaw := h _ _ (compareWritten_inInstr.reachable (.reset atReset_isReset)) hin
    (by decide +kernel) (by decide +kernel) (by decide +kernel)
  have hp := hlaw.restart.1
  revert hp
  decide +kernel

end Machine

end CacheCPU
