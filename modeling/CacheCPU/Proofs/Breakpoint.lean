import CacheCPU.Proofs.Delivery
import CacheCPU.Proofs.Literal

/-!
# A breakpoint from the client to the clock

The client writes a pattern as two numbers, the digits with 0 for each `'_'` and a mask with all
ones for each digit that counts. `bp_debug` compares the monitor with the one under the other before
each pulse.
-/

namespace CacheCPU

namespace Cadb

/-! ## Patterns -/

/-- `x` has the digits of the literal wherever they are not `'_'`; digits that are not written are
0. -/
def Matches (r : Radix) (ds : Text) (x : BitVec 64) : Prop :=
  ∀ i, ds.reverse[i]? ≠ some '_' →
    x.toNat / r.base ^ i % r.base = (ds.reverse[i]?.bind digitVal).getD 0

/-- How many bits a digit has. -/
def Radix.bits : Radix → ℕ
  | hex => 4
  | bin => 1

theorem Radix.base_eq (r : Radix) : r.base = 2 ^ r.bits := by
  cases r <;> rfl

/-- The digits of a number are those that make it. -/
theorem foldl_digit {b : ℕ} {g : Char → ℕ} {ds : Text} (h : ∀ c ∈ ds, g c < b) (i : ℕ) :
    ds.foldl (fun n c => b * n + g c) 0 / b ^ i % b = (ds.reverse[i]?.map g).getD 0 := by
  induction ds using List.reverseRecOn generalizing i with
  | nil => simp
  | append_singleton ds c ih =>
    have hc : g c < b := h c (by simp)
    rw [List.foldl_append, List.reverse_append, List.foldl_cons, List.foldl_nil]
    cases i with
    | zero =>
      rw [Nat.pow_zero, Nat.div_one, Nat.mul_add_mod, Nat.mod_eq_of_lt hc]
      rfl
    | succ i =>
      have hdiv : ∀ n, (b * n + g c) / b ^ (i + 1) = n / b ^ i := by
        intro n
        rw [Nat.pow_succ', ← Nat.div_div_eq_div_mul, Nat.mul_add_div (by omega),
          Nat.div_eq_of_lt hc, Nat.add_zero]
      rw [hdiv, ih fun d hd => h d (by simp [hd])]
      rfl

/-- Two numbers agree under a mask if they agree in each bit that it keeps. -/
theorem xor_and_eq_zero_iff {x n w : BitVec 64} : (x ^^^ n) &&& ~~~w = 0#64 ↔
    ∀ j < 64, w.getLsbD j = false → x.getLsbD j = n.getLsbD j := by
  constructor
  · intro h j hj hw
    have hbit := congrArg (fun v => v.getLsbD j) h
    simp only [BitVec.getLsbD_and, BitVec.getLsbD_xor, BitVec.getLsbD_not, hj, hw] at hbit
    simpa using hbit
  · intro h
    ext j hj
    have := h j hj
    grind

/-- The bits of a digit. -/
theorem testBit_digit {b n i k : ℕ} (hk : k < b) :
    (n / (2 ^ b) ^ i % 2 ^ b).testBit k = n.testBit (b * i + k) := by
  rw [Nat.testBit_mod_two_pow, ← Nat.pow_mul, Nat.testBit_div_two_pow, Nat.add_comm]
  simp [hk]

theorem numeral_lt {r : Radix} {ds : Text} (hd : Digits r true ds) :
    ∀ c ∈ ds, (digitVal c).getD 0 < r.base := by
  intro c hc
  rcases hd.digit c hc with h | ⟨-, rfl⟩
  · exact digitVal_lt h
  · cases r <;> decide

theorem wildcard_lt (r : Radix) (c : Char) : (if c = '_' then r.base - 1 else 0) < r.base := by
  have := r.one_lt_base
  split_ifs <;> omega

/-- Numbers agree in the bits that `w` leaves out if they agree in the digits that it leaves out. -/
theorem agree_iff {b x n w : ℕ} {p : ℕ → Prop} (hb : 0 < b) (hx : x < 2 ^ 64) (hn : n < 2 ^ 64)
    (hw : ∀ i k, k < b → ((w / (2 ^ b) ^ i % 2 ^ b).testBit k = true ↔ p i)) :
    (∀ j < 64, w.testBit j = false → x.testBit j = n.testBit j) ↔
      ∀ i, ¬ p i → x / (2 ^ b) ^ i % 2 ^ b = n / (2 ^ b) ^ i % 2 ^ b := by
  constructor
  · intro h i hi
    refine Nat.eq_of_testBit_eq fun k => ?_
    by_cases hk : k < b
    · rw [testBit_digit hk, testBit_digit hk]
      by_cases hj : b * i + k < 64
      · refine h _ hj (Bool.eq_false_iff.2 fun hbit => hi ((hw i k hk).1 ?_))
        rw [testBit_digit hk]
        exact hbit
      · have hpow : 2 ^ 64 ≤ 2 ^ (b * i + k) := Nat.pow_le_pow_right (by decide) (by omega)
        rw [Nat.testBit_lt_two_pow (by omega), Nat.testBit_lt_two_pow (by omega)]
    · simp [Nat.testBit_mod_two_pow, hk]
  · intro h j _ hwj
    have hk := Nat.mod_lt j hb
    have hj : b * (j / b) + j % b = j := Nat.div_add_mod j b
    rw [← hj, ← testBit_digit hk, ← testBit_digit hk, h]
    intro hp
    have hbit := (hw (j / b) (j % b) hk).2 hp
    rw [testBit_digit hk, hj, hwj] at hbit
    cases hbit

/-- Value and mask say what the pattern says. -/
theorem matches_iff {r : Radix} {ds : Text} (hd : Digits r true ds) (x : BitVec 64) :
    (x ^^^ BitVec.ofNat 64 (numeral r.base ds)) &&& ~~~BitVec.ofNat 64 (wildcards r ds) = 0#64 ↔
      Matches r ds x := by
  have hnlt : numeral r.base ds < 2 ^ 64 := foldl_lt_width (numeral_lt hd) hd.length
  have hwlt : wildcards r ds < 2 ^ 64 := foldl_lt_width (fun c _ => wildcard_lt r c) hd.length
  have hn : ∀ i, numeral r.base ds / r.base ^ i % r.base =
      (ds.reverse[i]?.map fun c => (digitVal c).getD 0).getD 0 := foldl_digit (numeral_lt hd)
  have hw : ∀ i, wildcards r ds / r.base ^ i % r.base =
      (ds.reverse[i]?.map fun c => if c = '_' then r.base - 1 else 0).getD 0 :=
    foldl_digit fun c _ => wildcard_lt r c
  have hwild : ∀ i k, k < r.bits →
      ((wildcards r ds / (2 ^ r.bits) ^ i % 2 ^ r.bits).testBit k = true ↔
        ds.reverse[i]? = some '_') := by
    intro i k hk
    rw [← r.base_eq, hw]
    rcases ds.reverse[i]? with _ | c
    · simp
    · by_cases hc : c = '_'
      · simp [hc, r.base_eq, Nat.testBit_two_pow_sub_one, hk]
      · simp [hc]
  rw [xor_and_eq_zero_iff]
  simp only [BitVec.getLsbD, BitVec.toNat_ofNat, Nat.mod_eq_of_lt hnlt, Nat.mod_eq_of_lt hwlt]
  rw [agree_iff (by cases r <;> decide) x.isLt hnlt hwild]
  refine forall₂_congr fun i _ => ?_
  rw [← r.base_eq, hn]
  rcases ds.reverse[i]? with _ | c <;> rfl

namespace Debug

variable {s : Debug} {is : ℕ → DebugIn}

section Commands

variable {i : DebugIn} {f : Frame} {b : BpDebug}

/-! ## The target runs -/

/-- The debugger compares the monitor with `b.breakpoint` before each pulse. -/
structure Running (s : Debug) (v c : BitVec 64) : Prop where
  state : s.bp.state = 0b011#3
  debugDataRead : s.bp.debugDataRead = true
  low : s.bp.mClkO = false
  breakpoint : s.bp.breakpoint = v
  compare : s.bp.compare = c

/-- It has stopped, and no command is there. -/
structure Stopped (s : Debug) : Prop where
  state : s.bp.state = 0b000#3 ∨ s.bp.state = 0b001#3
  dataComing : s.com.dataComing = false
  low : s.bp.mClkO = false

variable {v c : BitVec 64}

/-- A pulse rises and falls in one cycle. -/
theorem pulse (hl : b.mClkO = false) (hs : b.state = 0b011#3 ∨ b.state = 0b101#3) :
    ({ b with mClkO1 := !b.mClkO1 } : BpDebug).mClkO = true ∧
      ({ b with mClkO1 := !b.mClkO1 } : BpDebug).fall =
        { b with mClkO1 := !b.mClkO1, mClkO2 := !b.mClkO2 } ∧
      ({ b with mClkO1 := !b.mClkO1, mClkO2 := !b.mClkO2 } : BpDebug).mClkO = false := by
  have hx : (b.mClkO1 ^^ b.mClkO2) = false := hl
  have hhigh : (!b.mClkO1 ^^ b.mClkO2) = true := by
    rw [Bool.not_xor, hx]
    rfl
  refine ⟨hhigh, ?_, ?_⟩
  · rw [BpDebug.fall, if_pos ⟨hs, hhigh⟩]
  · change (!b.mClkO1 ^^ !b.mClkO2) = false
    rw [Bool.not_xor_not]
    exact hx

theorem Running.pulses (h : s.Running v c) (hm : (i.monitor ^^^ v) &&& c ≠ 0#64) :
    (s.cycle i).Running v c ∧ (s.rise i).clkO = true := by
  have hrise := BpDebug.rise_011 (i := s.bpIn i) h.state h.low
  rw [if_neg (by rw [h.breakpoint, h.compare]; exact hm)] at hrise
  obtain ⟨hhigh, hfall, hlow⟩ := pulse h.low (.inl h.state)
  have hbp : (s.cycle i).bp = { s.bp with mClkO1 := !s.bp.mClkO1, mClkO2 := !s.bp.mClkO2 } := by
    change (s.bp.rise (s.bpIn i)).fall = _
    rw [hrise, hfall]
  refine ⟨⟨?_, ?_, ?_, ?_, ?_⟩, ?_⟩
  · rw [hbp]
    exact h.state
  · rw [hbp]
    exact h.debugDataRead
  · rw [hbp]
    exact hlow
  · rw [hbp]
    exact h.breakpoint
  · rw [hbp]
    exact h.compare
  · change (s.bp.rise (s.bpIn i)).mClkO = true
    rw [hrise]
    exact hhigh

theorem Running.stops (h : s.Running v c) (hm : (i.monitor ^^^ v) &&& c = 0#64) :
    (s.cycle i).Stopped ∧ (s.rise i).clkO = false := by
  have hrise := BpDebug.rise_011 (i := s.bpIn i) h.state h.low
  rw [if_pos (by rw [h.breakpoint, h.compare]; exact hm)] at hrise
  obtain ⟨hbp, hlow⟩ := cycle_of_rise hrise h.low
  refine ⟨⟨?_, ?_, ?_⟩, hlow⟩
  · rw [hbp]
    exact .inl rfl
  · exact dataComing_of_read h.debugDataRead
  · rw [hbp]
    exact h.low

theorem Stopped.cycle (h : s.Stopped) (hi : i.receive = none) :
    (s.cycle i).Stopped ∧ (s.rise i).clkO = false := by
  have hd : (s.cycle i).com.dataComing = false := by
    rw [(com_quiet hi).2.2, h.dataComing, Bool.false_and]
  rcases h.state with hs | hs
  · obtain ⟨hbp, hlow⟩ := cycle_of_rise (BpDebug.rise_000 hs) h.low
    exact ⟨⟨by rw [hbp]; exact .inr rfl, hd, by rw [hbp]; exact h.low⟩, hlow⟩
  · have hrise := BpDebug.rise_001 (i := s.bpIn i) hs
    rw [if_neg fun hn => absurd (h.dataComing.symm.trans hn.2) (by decide)] at hrise
    obtain ⟨hbp, hlow⟩ := cycle_of_rise hrise h.low
    exact ⟨⟨by rw [hbp]; exact .inr rfl, hd, by rw [hbp]; exact h.low⟩, hlow⟩

/-! ## The commands that run it -/

variable (is) in
theorem Loaded.runs (h : s.Loaded f) (hf : f.command = 0x01#8)
    (hq : ∀ k < 2, (is k).receive = none) :
    (s.after is 2).Running s.bp.breakpoint s.bp.compare ∧ s.pulses is 2 = 0 := by
  obtain ⟨h₂, hp⟩ := h.taken is hq
  have hexec : ∀ b : BpDebug, b.execute f = { b with debugDataRead := true, state := 0b011#3 } := by
    intro b
    simp only [BpDebug.execute, hf]
    rfl
  rw [hexec] at h₂
  exact ⟨⟨by rw [h₂.bp], by rw [h₂.bp], by rw [h₂.bp]; exact h.rest.low, by rw [h₂.bp],
    by rw [h₂.bp]⟩, hp⟩

variable (is) in
/-- `continue` makes the first pulse before it compares. -/
theorem Loaded.continues (h : s.Loaded f) (hf : f.command = 0x03#8)
    (hq : ∀ k < 3, (is k).receive = none) :
    (s.after is 3).Running s.bp.breakpoint s.bp.compare ∧ s.pulses is 3 = 1 := by
  obtain ⟨h₂, hp⟩ := h.taken is fun k hk => hq k (by omega)
  have hexec : ∀ b : BpDebug, b.execute f = { b with debugDataRead := true, state := 0b100#3 } := by
    intro b
    simp only [BpDebug.execute, hf]
    rfl
  rw [hexec] at h₂
  obtain ⟨h₃, hhigh⟩ := h₂.cycle (hq 2 (by omega)) (BpDebug.rise_100 rfl h.rest.low)
  obtain ⟨hup, hfall, hlow⟩ := pulse
    (b := { s.bp with debugDataRead := true, state := 0b011#3 }) h.rest.low (.inl rfl)
  change (s.after is 3).Holds _ _ _ at h₃
  have hbp : (s.after is 3).bp = { s.bp with
      debugDataRead := true, state := 0b011#3, mClkO1 := !s.bp.mClkO1, mClkO2 := !s.bp.mClkO2 } :=
    h₃.bp.trans hfall
  refine ⟨⟨by rw [hbp], by rw [hbp], by rw [hbp]; exact hlow, by rw [hbp], by rw [hbp]⟩, ?_⟩
  change s.pulses is 2 + (if ((s.after is 2).rise (is 2)).clkO then 1 else 0) = 1
  rw [hp, show ((s.after is 2).rise (is 2)).clkO = true from hhigh.trans hup]
  rfl

end Commands

/-! ## Runs -/

section Runs

variable {v c : BitVec 64}

variable (is) in
/-- Without a match the pulses go on. -/
theorem Running.after (h : s.Running v c) {m : ℕ → BitVec 64}
    (hm : ∀ t, (is t).monitor = m (s.pulses is t)) {k : ℕ}
    (hk : ∀ j < k, (m j ^^^ v) &&& c ≠ 0#64) :
    (s.after is k).Running v c ∧ s.pulses is k = k := by
  induction k with
  | zero => exact ⟨h, rfl⟩
  | succ k ih =>
    obtain ⟨hrun, hp⟩ := ih fun j hj => hk j (by omega)
    have hne : ((is k).monitor ^^^ v) &&& c ≠ 0#64 := by
      rw [hm, hp]
      exact hk k (by omega)
    obtain ⟨hnext, hhigh⟩ := hrun.pulses hne
    refine ⟨hnext, ?_⟩
    change s.pulses is k + (if ((s.after is k).rise (is k)).clkO then 1 else 0) = _
    rw [hhigh, hp]
    rfl

theorem Stopped.after (h : s.Stopped) (hq : ∀ t, (is t).receive = none) (k : ℕ) :
    (s.after is k).Stopped ∧ s.pulses is k = 0 := by
  induction k with
  | zero => exact ⟨h, rfl⟩
  | succ k ih =>
    obtain ⟨hnext, hlow⟩ := ih.1.cycle (hq k)
    exact ⟨hnext, (pulses_succ_low is hlow).trans ih.2⟩

variable (is) in
/-- At the first match they end. -/
theorem Running.total (h : s.Running v c) (hq : ∀ t, (is t).receive = none) {m : ℕ → BitVec 64}
    (hm : ∀ t, (is t).monitor = m (s.pulses is t)) {k : ℕ} (hmatch : (m k ^^^ v) &&& c = 0#64)
    (hk : ∀ j < k, (m j ^^^ v) &&& c ≠ 0#64) {t : ℕ} (ht : k + 1 ≤ t) : s.pulses is t = k := by
  obtain ⟨hrun, hp⟩ := h.after is hm hk
  have hmon : ((is k).monitor ^^^ v) &&& c = 0#64 := by
    rw [hm, hp]
    exact hmatch
  obtain ⟨hstop, hlow⟩ := hrun.stops hmon
  obtain ⟨j, rfl⟩ : ∃ j, t = k + 1 + j := ⟨t - (k + 1), by omega⟩
  rw [pulses_add, pulses_succ_low is hlow, hp]
  exact congrArg (k + ·) (Stopped.after (s := s.after is (k + 1)) hstop (fun t => hq _) j).2

end Runs

/-- The pulses end at the first match from `k₀` on, and go on for ever if there is none. -/
def StopsAt (s : Debug) (is : ℕ → DebugIn) (m : ℕ → BitVec 64) (p : BitVec 64 → Prop) (k₀ : ℕ) :
    Prop :=
  (∀ k, k₀ ≤ k → p (m k) → (∀ j, k₀ ≤ j → j < k → ¬ p (m j)) →
    ∃ T, ∀ t, T ≤ t → s.pulses is t = k) ∧
  ((∀ k, k₀ ≤ k → ¬ p (m k)) → ∀ n, ∃ t, n ≤ s.pulses is t)

theorem Running.stopsAt {v c : BitVec 64} {m : ℕ → BitVec 64} {N k₀ : ℕ}
    (h : (s.after is N).Running v c) (hp : s.pulses is N = k₀)
    (hq : ∀ k, (is (N + k)).receive = none) (hm : ∀ t, (is t).monitor = m (s.pulses is t)) :
    s.StopsAt is m (fun y => (y ^^^ v) &&& c = 0#64) k₀ := by
  have hm' : ∀ t, (is (N + t)).monitor =
      m (k₀ + (s.after is N).pulses (fun j => is (N + j)) t) := by
    intro t
    rw [hm, pulses_add, hp]
  refine ⟨fun k hk hmatch hno => ⟨N + (k - k₀ + 1), fun t ht => ?_⟩, fun hno n => ⟨N + n, ?_⟩⟩
  · obtain ⟨j, rfl⟩ : ∃ j, t = N + j := ⟨t - N, by omega⟩
    have htotal := h.total (fun j => is (N + j)) (m := fun q => m (k₀ + q)) (k := k - k₀)
      (t := j) hq hm' (by rw [Nat.add_sub_cancel' hk]; exact hmatch)
      (fun j hj => hno (k₀ + j) (by omega) (by omega)) (by omega)
    rw [pulses_add, hp, htotal]
    omega
  · have hrun := h.after (fun j => is (N + j)) (m := fun q => m (k₀ + q)) (k := n) hm'
      fun j _ => hno (k₀ + j) (by omega)
    rw [pulses_add, hrun.2]
    omega

end Debug

/-! ## From the literal to the pulses -/

open Debug in
/-- For every pattern: what `setBreak` sends is taken up, and then what `run` sends gives the target
the pulses up to the first match, the value before the first pulse included, and what `continue`
sends those up to the first match after a pulse. -/
theorem breakpoint {r : Radix} {a ds : Text} (ht : trim a = '0' :: r.lower :: ds)
    (hd : Digits r true ds) (config : Config) (display : List (ℕ × Text))
    (recv : List (BitVec 8)) :
    ∃ brk go cont, setBreak a = .ok ⟨false, some [], some brk⟩ ∧ brk.length = 17 ∧
      (run config display recv).sent = some go ∧ (continueRun config display recv).sent = some cont ∧
      ∀ (s : Debug) (m : ℕ → BitVec 64) (is : ℕ → DebugIn), s.Gathering [] →
        (∀ t, (is t).monitor = m (s.pulses is t)) →
        (Comes is (brk ++ go) → s.StopsAt is m (Matches r ds) 0) ∧
        (Comes is (brk ++ cont) → s.StopsAt is m (Matches r ds) 1) := by
  refine ⟨_, _, _, setBreak_literal ht hd, rfl, rfl, rfl,
    fun s m is hs hm => ⟨fun hc => ?_, fun hc => ?_⟩⟩
  · obtain ⟨N, hload, hv, hcm, hp, hq⟩ := delivered hs rfl hc
    obtain ⟨hrun, hp'⟩ := hload.runs (fun j => is (N + j)) rfl fun k _ => hq k
    rw [← after_add, hv, hcm] at hrun
    have hstops := hrun.stopsAt (by rw [pulses_add, hp, hp']) (fun k => by
      rw [Nat.add_assoc]; exact hq (2 + k)) hm
    simpa only [matches_iff hd] using hstops
  · obtain ⟨N, hload, hv, hcm, hp, hq⟩ := delivered hs rfl hc
    obtain ⟨hrun, hp'⟩ := hload.continues (fun j => is (N + j)) rfl fun k _ => hq k
    rw [← after_add, hv, hcm] at hrun
    have hstops := hrun.stopsAt (by rw [pulses_add, hp, hp']) (fun k => by
      rw [Nat.add_assoc]; exact hq (3 + k)) hm
    simpa only [matches_iff hd] using hstops

/-! ## One breakpoint -/

namespace Debug

/-- A target whose monitor shows `m k` after `k` pulses, with the debugger and the pulses so far. -/
def play (s : Debug) (m : ℕ → BitVec 64) (recv : ℕ → Option (BitVec 8)) : ℕ → Debug × ℕ
  | 0 => (s, 0)
  | t + 1 =>
    let (u, k) := play s m recv t
    let i : DebugIn := ⟨m k, recv t, false⟩
    (u.cycle i, k + if (u.rise i).clkO then 1 else 0)

/-- What the debugger sees of it. -/
def shown (s : Debug) (m : ℕ → BitVec 64) (recv : ℕ → Option (BitVec 8)) (t : ℕ) : DebugIn :=
  ⟨m (s.play m recv t).2, recv t, false⟩

theorem play_eq (s : Debug) (m : ℕ → BitVec 64) (recv : ℕ → Option (BitVec 8)) (t : ℕ) :
    s.play m recv t = (s.after (s.shown m recv) t, s.pulses (s.shown m recv) t) := by
  induction t with
  | zero => rfl
  | succ t ih =>
    rw [play, after, pulses, shown, ih]

/-- The debugger when its first snapshot has been asked for. -/
def waiting : Debug := powerUp.after (fun _ => ⟨0#64, none, false⟩) 16

/-- The bytes `bs`, one in eleven cycles. -/
def spread (bs : List (BitVec 8)) (t : ℕ) : Option (BitVec 8) :=
  if t % 11 = 0 then bs[t / 11]? else none

/-- A monitor that counts up from `n`. -/
def upFrom (n k : ℕ) : BitVec 64 := BitVec.ofNat 64 (n + k)

/-- The target counts up from `n`, and the bytes `bs` come. -/
def counting (n : ℕ) (bs : List (BitVec 8)) : ℕ → DebugIn := waiting.shown (upFrom n) (spread bs)

theorem counting_monitor (n : ℕ) (bs : List (BitVec 8)) (t : ℕ) :
    (counting n bs t).monitor = upFrom n (waiting.pulses (counting n bs) t) := by
  rw [counting, shown, play_eq]

theorem received_spread {is : ℕ → DebugIn} {bs : List (BitVec 8)}
    (h : ∀ t, (is t).receive = spread bs t) (t : ℕ) : received is t = bs.take ((t + 10) / 11) := by
  induction t with
  | zero => simp [received]
  | succ t ih =>
    rw [received_succ, ih, h, spread]
    by_cases ht : t % 11 = 0
    · rw [if_pos ht, show (t + 10) / 11 = t / 11 by omega,
        show (t + 1 + 10) / 11 = t / 11 + 1 by omega, List.take_add_one]
    · rw [if_neg ht, show (t + 1 + 10) / 11 = (t + 10) / 11 by omega]
      simp

theorem comes_spread {is : ℕ → DebugIn} {bs : List (BitVec 8)}
    (h : ∀ t, (is t).receive = spread bs t) : Comes is bs := by
  have hmod : ∀ t, (is t).receive ≠ none → t % 11 = 0 := by
    intro t ht
    rw [h, spread] at ht
    by_contra hn
    rw [if_neg hn] at ht
    exact ht rfl
  refine ⟨fun {t t'} hlt ht ht' => ?_, 11 * bs.length, fun t ht => ?_⟩
  · have h1 := hmod t ht
    have h2 := hmod t' ht'
    omega
  · rw [received_spread h, List.take_of_length_le (by omega)]

theorem waiting_gathering : waiting.Gathering [] :=
  ⟨⟨by decide +kernel, by decide +kernel, by decide +kernel, by decide +kernel⟩,
    by decide +kernel, by decide +kernel, fun _ hk => absurd hk (Nat.not_lt_zero _)⟩

end Debug

open Debug in
/-- With the pattern `0x1_`: if the monitor counts up from 14, `run` makes two pulses; if it counts
up from 16, `run` makes none and `continue` one. -/
theorem breakpoint_hex : ∃ brk go cont, setBreak "0x1_".toList = .ok ⟨false, some [], some brk⟩ ∧
    (run (.empty [] 0) [] []).sent = some go ∧
    (continueRun (.empty [] 0) [] []).sent = some cont ∧
    (∃ T, ∀ t, T ≤ t → waiting.pulses (counting 14 (brk ++ go)) t = 2) ∧
    (∃ T, ∀ t, T ≤ t → waiting.pulses (counting 16 (brk ++ go)) t = 0) ∧
    ∃ T, ∀ t, T ≤ t → waiting.pulses (counting 16 (brk ++ cont)) t = 1 := by
  have hd : Digits .hex true "1_".toList := by
    refine ⟨by decide, by decide, fun c hc => ?_⟩
    rcases List.mem_pair.1 hc with rfl | rfl <;> decide
  obtain ⟨brk, go, cont, hbrk, -, hgo, hcont, h⟩ := breakpoint (a := "0x1_".toList)
    (show _ = '0' :: Radix.hex.lower :: "1_".toList by decide) hd (.empty [] 0) [] []
  have hmatch : ∀ x : BitVec 64, (x ^^^ 16#64) &&& ~~~15#64 = 0#64 ↔ Matches .hex "1_".toList x :=
    matches_iff hd
  refine ⟨brk, go, cont, hbrk, hgo, hcont, ?_, ?_, ?_⟩
  · have hstops := (h _ (upFrom 14) _ waiting_gathering (counting_monitor 14 _)).1
      (comes_spread fun _ => rfl)
    refine hstops.1 2 (by omega) ((hmatch _).1 (by decide)) fun j _ hj => ?_
    refine mt (hmatch _).2 ?_
    interval_cases j <;> decide
  · have hstops := (h _ (upFrom 16) _ waiting_gathering (counting_monitor 16 _)).1
      (comes_spread fun _ => rfl)
    exact hstops.1 0 (by omega) ((hmatch _).1 (by decide)) fun j _ hj => absurd hj (by omega)
  · have hstops := (h _ (upFrom 16) _ waiting_gathering (counting_monitor 16 _)).2
      (comes_spread fun _ => rfl)
    exact hstops.1 1 (by omega) ((hmatch _).1 (by decide)) fun j h1 hj => absurd h1 (by omega)

end Cadb

end CacheCPU
