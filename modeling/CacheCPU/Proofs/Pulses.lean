import CacheCPU.Cadb.Debug
import Mathlib.Tactic.SplitIfs

/-!
# The clock that `bp_debug` makes

`clk_o` is the exclusive or of two flip-flops, one toggled at rising edges of `clk` and one at
falling edges. Whatever the parity that a command leaves behind, `clk_o` is low at every rising
edge, so that a pulse takes one cycle: it is high exactly between the two edges of a cycle that
makes one.
-/

namespace CacheCPU

namespace Cadb

namespace BpDebug

variable {b : BpDebug} {i : BpIn}

/-! ## What one edge does in each state -/

theorem rise_000 (h : b.state = 0b000#3) : b.rise i =
    { b with debugDataRead := false, comDebugClk := true, state := 0b001#3 } := by
  rw [rise, if_pos h]

theorem rise_001 (h : b.state = 0b001#3) : b.rise i =
    { b with
      debugDataRead := false
      comDebugClk := b.comDebugClk && !i.slc.getLsbD 2
      state := if b.comDebugClk = false ∧ i.dataComing = true then 0b010#3 else 0b001#3 } := by
  simp only [rise, h]
  rfl

theorem rise_010 (h : b.state = 0b010#3) : b.rise i = b.execute i.dataIn := by
  simp only [rise, h]
  rfl

theorem rise_011 (h : b.state = 0b011#3) (hl : b.mClkO = false) : b.rise i =
    if (i.monitor ^^^ b.breakpoint) &&& b.compare = 0#64 then { b with state := 0b000#3 }
    else { b with mClkO1 := !b.mClkO1 } := by
  simp only [rise, h, hl]
  rfl

theorem rise_100 (h : b.state = 0b100#3) (hl : b.mClkO = false) :
    b.rise i = { b with mClkO1 := !b.mClkO1, state := 0b011#3 } := by
  simp only [rise, h, hl]
  rfl

theorem rise_101 (h : b.state = 0b101#3) (hl : b.mClkO = false) : b.rise i =
    if b.runStep = 0#64 then { b with state := 0b000#3 }
    else { b with runStep := b.runStep - 1#64, mClkO1 := !b.mClkO1 } := by
  simp only [rise, h, hl]
  rfl

/-- The states that the machine names, and the two that it does not. -/
theorem state_cases (b : BpDebug) : b.state = 0b000#3 ∨ b.state = 0b001#3 ∨ b.state = 0b010#3 ∨
    b.state = 0b011#3 ∨ b.state = 0b100#3 ∨ b.state = 0b101#3 ∨
      ∀ i, b.rise i = b := by
  by_cases h0 : b.state = 0b000#3
  · exact .inl h0
  by_cases h1 : b.state = 0b001#3
  · exact .inr (.inl h1)
  by_cases h2 : b.state = 0b010#3
  · exact .inr (.inr (.inl h2))
  by_cases h3 : b.state = 0b011#3
  · exact .inr (.inr (.inr (.inl h3)))
  by_cases h4 : b.state = 0b100#3
  · exact .inr (.inr (.inr (.inr (.inl h4))))
  by_cases h5 : b.state = 0b101#3
  · exact .inr (.inr (.inr (.inr (.inr (.inl h5)))))
  refine .inr (.inr (.inr (.inr (.inr (.inr fun i => ?_)))))
  rw [rise, if_neg h0, if_neg h1, if_neg h2, if_neg h3, if_neg h4, if_neg h5]

@[simp] theorem execute_mClkO (f : Frame) : (b.execute f).mClkO = b.mClkO := by
  unfold execute
  split_ifs <;> rfl

/-! ## The level of the clock -/

/-- A pulse begins only on the way to "011" or "101". -/
theorem rise_high (hl : b.mClkO = false) (hh : (b.rise i).mClkO = true) :
    (b.rise i).state = 0b011#3 ∨ (b.rise i).state = 0b101#3 := by
  have hlow : ∀ c : BpDebug, c.mClkO = false → c.mClkO ≠ true := fun c hc hn => by
    rw [hc] at hn
    cases hn
  rcases state_cases b with h | h | h | h | h | h | h
  · rw [rise_000 h] at hh
    exact absurd hh (hlow _ hl)
  · rw [rise_001 h] at hh
    exact absurd hh (hlow _ hl)
  · rw [rise_010 h, execute_mClkO] at hh
    exact absurd hh (hlow _ hl)
  · rw [rise_011 h hl] at hh ⊢
    split_ifs at hh ⊢
    · exact absurd hh (hlow _ hl)
    · exact .inl h
  · rw [rise_100 h hl]
    exact .inl rfl
  · rw [rise_101 h hl] at hh ⊢
    split_ifs at hh ⊢
    · exact absurd hh (hlow _ hl)
    · exact .inr h
  · rw [h] at hh
    exact absurd hh (hlow _ hl)

/-- And it ends at the falling edge. -/
theorem fall_low (hh : b.mClkO = true → b.state = 0b011#3 ∨ b.state = 0b101#3) :
    b.fall.mClkO = false := by
  unfold fall
  split_ifs with hc
  · have hx : (b.mClkO1 ^^ b.mClkO2) = true := hc.2
    change (b.mClkO1 ^^ !b.mClkO2) = false
    cases h1 : b.mClkO1 <;> cases h2 : b.mClkO2 <;> simp_all
  · by_contra hn
    exact hc ⟨hh (by simpa using hn), by simpa using hn⟩

end BpDebug

namespace Debug

variable {s : Debug} {clk : Bool} {is : ℕ → DebugIn}

/-- The clock is low at rising edges of `clk`, and high only in "011" and "101". -/
theorem Reachable.clkO (h : Reachable clk s) : (clk = false → s.clkO = false) ∧
    (s.clkO = true → s.bp.state = 0b011#3 ∨ s.bp.state = 0b101#3) := by
  induction h with
  | @initial s hs =>
    have hlow : s.bp.mClkO = false := by
      rw [hs.1]
      rfl
    exact ⟨fun _ => hlow, fun hh => absurd (hlow.symm.trans hh) (by decide)⟩
  | rise i _ ih => exact ⟨fun hc => absurd hc (by decide), BpDebug.rise_high (ih.1 rfl)⟩
  | fall _ ih =>
    have hlow := BpDebug.fall_low ih.2
    exact ⟨fun _ => hlow, fun hh => absurd (hlow.symm.trans hh) (by decide)⟩
  | reset _ _ => exact ⟨fun _ => rfl, fun hh => nomatch hh⟩
  | riseReset _ _ _ => exact ⟨fun _ => rfl, fun hh => nomatch hh⟩

theorem Reachable.cycle (h : Reachable false s) (i : DebugIn) : Reachable false (s.cycle i) :=
  (h.rise i).fall

theorem Reachable.after (h : Reachable false s) (is : ℕ → DebugIn) (k : ℕ) :
    Reachable false (s.after is k) := by
  induction k with
  | zero => exact h
  | succ k ih => exact ih.cycle _

/-! ## Pulses -/

/-- The pulses in the first `k` cycles. -/
def pulses (s : Debug) (is : ℕ → DebugIn) : ℕ → ℕ
  | 0 => 0
  | k + 1 => pulses s is k + if ((s.after is k).rise (is k)).clkO then 1 else 0

/-- Waiting for a command. -/
structure Idle (s : Debug) : Prop where
  state : s.bp.state = 0b001#3
  comDebugClk : s.bp.comDebugClk = false

/-- A cycle keeps the state that its rising edge reaches. -/
theorem cycle_state (i : DebugIn) : (s.cycle i).bp.state = (s.bp.rise (s.bpIn i)).state ∧
    (s.cycle i).bp.runStep = (s.bp.rise (s.bpIn i)).runStep := by
  change (s.bp.rise (s.bpIn i)).fall.state = _ ∧ (s.bp.rise (s.bpIn i)).fall.runStep = _
  unfold BpDebug.fall
  split_ifs <;> exact ⟨rfl, rfl⟩

/-- An idle debugger takes the command up. -/
theorem Idle.take (h : s.Idle) (hd : s.com.dataComing = true) (i : DebugIn) :
    (s.cycle i).bp.state = 0b010#3 ∧ (s.rise i).clkO = s.clkO := by
  have hrise := BpDebug.rise_001 (i := s.bpIn i) h.state
  have hcond : s.bp.comDebugClk = false ∧ (s.bpIn i).dataComing = true := ⟨h.comDebugClk, hd⟩
  rw [if_pos hcond] at hrise
  refine ⟨?_, ?_⟩
  · rw [(cycle_state i).1, hrise]
  · change (s.bp.rise (s.bpIn i)).mClkO = s.bp.mClkO
    rw [hrise]
    rfl

/-- In "101" with `n` pulses to go. -/
structure Stepping (s : Debug) (n : ℕ) : Prop where
  state : s.bp.state = 0b101#3
  runStep : s.bp.runStep.toNat = n
  low : s.clkO = false

/-- The edge that takes up a step command. -/
theorem cycle_execute_step (h : s.bp.state = 0b010#3) (hl : s.clkO = false)
    (hc : s.com.comingData.command = 0x04#8) (i : DebugIn) :
    (s.cycle i).bp.state = 0b101#3 ∧ (s.cycle i).bp.runStep = s.com.comingData.value ∧
      (s.rise i).clkO = false := by
  have hrise := BpDebug.rise_010 (i := s.bpIn i) h
  have hexec : s.bp.execute s.com.comingData =
      { s.bp with debugDataRead := true, state := 0b101#3, runStep := s.com.comingData.value } := by
    simp only [BpDebug.execute, hc]
    rfl
  rw [show (s.bpIn i).dataIn = s.com.comingData from rfl, hexec] at hrise
  refine ⟨?_, ?_, ?_⟩
  · rw [(cycle_state i).1, hrise]
  · rw [(cycle_state i).2, hrise]
  · change (s.bp.rise (s.bpIn i)).mClkO = false
    rw [hrise]
    exact hl

/-- A cycle of stepping makes one pulse. -/
theorem Stepping.cycle {n : ℕ} (hr : Reachable false s) (h : s.Stepping (n + 1)) (i : DebugIn) :
    (s.cycle i).Stepping n ∧ (s.rise i).clkO = true := by
  have hne : s.bp.runStep ≠ 0#64 := by
    intro h0
    have hn := h.runStep
    rw [h0] at hn
    exact absurd hn (by simp)
  have hrise := BpDebug.rise_101 (i := s.bpIn i) h.state h.low
  rw [if_neg hne] at hrise
  refine ⟨⟨?_, ?_, (hr.cycle i).clkO.1 rfl⟩, ?_⟩
  · rw [(cycle_state i).1, hrise]
    exact h.state
  · rw [(cycle_state i).2, hrise]
    have hn := h.runStep
    change (s.bp.runStep - 1#64).toNat = n
    rw [BitVec.toNat_sub, hn]
    have hlt := s.bp.runStep.isLt
    rw [hn] at hlt
    simp only [BitVec.toNat_ofNat]
    omega
  · have hl : (s.bp.mClkO1 ^^ s.bp.mClkO2) = false := h.low
    change (s.bp.rise (s.bpIn i)).mClkO = true
    rw [hrise]
    change (!s.bp.mClkO1 ^^ s.bp.mClkO2) = true
    rw [Bool.not_xor, hl]
    rfl

/-- The last cycle only changes the state. -/
theorem Stepping.last (h : s.Stepping 0) (i : DebugIn) :
    (s.cycle i).bp.state = 0b000#3 ∧ (s.rise i).clkO = false := by
  have hz : s.bp.runStep = 0#64 := BitVec.eq_of_toNat_eq h.runStep
  have hrise := BpDebug.rise_101 (i := s.bpIn i) h.state h.low
  rw [if_pos hz] at hrise
  refine ⟨?_, ?_⟩
  · rw [(cycle_state i).1, hrise]
  · change (s.bp.rise (s.bpIn i)).mClkO = false
    rw [hrise]
    exact h.low

/-- From cycle `m` on, `n` cycles of stepping. -/
theorem Stepping.after (hr : Reachable false s) {m n : ℕ} (h : (s.after is m).Stepping n) :
    ∀ j ≤ n, (s.after is (m + j)).Stepping (n - j) ∧
      s.pulses is (m + j) = s.pulses is m + j := by
  intro j
  induction j with
  | zero => exact fun _ => ⟨h, rfl⟩
  | succ j ih =>
    intro hj
    obtain ⟨hs, hp⟩ := ih (by omega)
    rw [show n - j = (n - (j + 1)) + 1 by omega] at hs
    obtain ⟨hnext, hhigh⟩ := hs.cycle (hr.after is _) (is (m + j))
    refine ⟨hnext, ?_⟩
    change s.pulses is ((m + j) + 1) = _
    rw [pulses, hp, hhigh, if_pos rfl, Nat.add_assoc]

/-- `clk_o` is low in the states "000", "001" and "010", and a step command with the value `n` is
`n` pulses, each of which rises and falls in one cycle, after which the state is "000". -/
theorem step_command : (∀ clk s, Reachable clk s →
      s.bp.state = 0b000#3 ∨ s.bp.state = 0b001#3 ∨ s.bp.state = 0b010#3 → s.clkO = false) ∧
    ∀ (s : Debug) (n : BitVec 64) (is : ℕ → DebugIn), Reachable false s → s.Idle →
      s.com.dataComing = true → (s.cycle (is 0)).com.comingData.command = 0x04#8 →
      (s.cycle (is 0)).com.comingData.value = n →
      s.pulses is (n.toNat + 3) = n.toNat ∧ (∀ k ≤ n.toNat + 3, (s.after is k).clkO = false) ∧
        (s.after is (n.toNat + 3)).bp.state = 0b000#3 := by
  constructor
  · intro clk s hr hs
    by_contra hn
    rcases hr.clkO.2 (by simpa using hn) with h | h <;> rw [h] at hs <;> revert hs <;> decide
  · intro s n is hr hidle hd hc hv
    obtain ⟨h1, hl1⟩ := hidle.take hd (is 0)
    have hr1 := hr.after is 1
    obtain ⟨h2, hn2, hl2⟩ := cycle_execute_step h1 (hr1.clkO.1 rfl) hc (is 1)
    have hp2 : s.pulses is 2 = 0 := by
      change 0 + (if (s.rise (is 0)).clkO then 1 else 0) +
        (if ((s.cycle (is 0)).rise (is 1)).clkO then 1 else 0) = 0
      rw [hl1, hr.clkO.1 rfl, hl2]
      rfl
    have hstep : (s.after is 2).Stepping n.toNat :=
      ⟨h2, by rw [show s.after is 2 = (s.cycle (is 0)).cycle (is 1) from rfl, hn2, hv],
        (hr.after is 2).clkO.1 rfl⟩
    obtain ⟨hlast, hp⟩ := hstep.after hr n.toNat (Nat.le_refl _)
    rw [Nat.sub_self] at hlast
    obtain ⟨hstate, hl⟩ := hlast.last (is (2 + n.toNat))
    have hN : n.toNat + 3 = (2 + n.toNat) + 1 := by omega
    rw [hN]
    refine ⟨?_, fun k _ => (hr.after is k).clkO.1 rfl, hstate⟩
    rw [pulses, hp, hp2, hl]
    simp

/-- After reset, every other register zero. -/
def powerUp : Debug where
  bp := ⟨0b000#3, 0#64, BitVec.allOnes 64, 0#64, false, false, false, false⟩
  com := ⟨0, fun _ => 0#8, false, slcMax, 0, true, false⟩

theorem powerUp_reachable : Reachable false powerUp :=
  .initial ⟨rfl, ⟨rfl, rfl, rfl, rfl, rfl, rfl⟩⟩

/-- The bytes of `f` come one by one once the first bytes of the snapshot have gone out; the
transmitter is never busy and the monitor shows 0. -/
def delivers (f : Frame) (k : ℕ) : DebugIn :=
  ⟨0#64, if h : 16 ≤ k ∧ k < 33 then some (f ⟨k - 16, by omega⟩) else none, false⟩

/-- The command `step 3`. -/
def stepThree : Frame := fun k => if k = 0 then 0x04#8 else if k = 1 then 0x03#8 else 0#8

/-- The debugger when the command has arrived, and what comes from then on. -/
def stepsThree : Debug := powerUp.after (delivers stepThree) 33

def afterwards (k : ℕ) : DebugIn := delivers stepThree (33 + k)

theorem step_command_three : stepsThree.Idle ∧ stepsThree.pulses afterwards 6 = 3 ∧
    (stepsThree.after afterwards 6).bp.state = 0b000#3 := by
  have hidle : stepsThree.Idle := ⟨by decide +kernel, by decide +kernel⟩
  have h := step_command.2 stepsThree 3#64 afterwards (powerUp_reachable.after _ 33) hidle
    (by decide +kernel) (by decide +kernel) (by decide +kernel)
  exact ⟨hidle, h.1, h.2.2⟩

end Debug

end Cadb

end CacheCPU
