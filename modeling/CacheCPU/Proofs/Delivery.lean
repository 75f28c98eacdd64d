import CacheCPU.Async
import CacheCPU.Cadb.Parser
import CacheCPU.Proofs.Pulses

/-!
# Commands on their way to `bp_debug`

`com_debug` puts the 17 bytes of a command together, and `bp_debug` takes it up in two cycles. The
handshake lets it take a break command up twice, which does no harm as the next byte is not there
yet: the receiver needs eleven cycles for it.
-/

namespace CacheCPU

/-! ## The receiver -/

namespace Receiver

variable {r : Receiver} {line : ℕ → Bool × Bool}

/-- The edges that a byte still takes, at least. -/
def left (s : BitVec 4) : ℕ :=
  if s = 0b0000#4 then 11
  else if s = 0b0001#4 then 10
  else if s = 0b0010#4 then 1
  else if s.getLsbD 3 then 17 - s.toNat
  else 12

/-- The receiver starts anew behind a byte. -/
def Settled (r : Receiver) : Prop := r.dataReady = true → r.state = 0b0000#4

theorem left_next : ∀ s : BitVec 4, s ≠ 0b0010#4 → waits s = true → left s ≤ left (next s) + 1 := by
  decide

theorem left_le : ∀ s : BitVec 4, left s ≤ 12 := by
  decide

/-- An edge brings a byte nearer by one at most. -/
theorem left_tick (rxd tick : Bool) : left r.state ≤ left (r.tick rxd tick).state + 1 := by
  change _ ≤ left (if r.state = _ then _ else _) + 1
  split_ifs with h0 hbit hw hsample
  · rw [h0]
    decide
  · rw [h0]
    decide
  · by_cases h2 : r.state = 0b0010#4
    · rw [h2]
      decide
    · exact left_next _ h2 hw
  · omega
  · exact left_le _

/-- A byte is ready behind the stop bit only. -/
theorem of_dataReady (rxd tick : Bool) (h : (r.tick rxd tick).dataReady = true) :
    r.state = 0b0010#4 ∧ (r.tick rxd tick).state = 0b0000#4 := by
  have h' : (r.sampleNow tick && r.state == 0b0010#4 && r.rxdBit) = true := h
  simp only [Bool.and_eq_true, beq_iff_eq] at h'
  obtain ⟨⟨hsample, hs⟩, -⟩ := h'
  refine ⟨hs, ?_⟩
  change (if r.state = _ then _ else _) = _
  rw [hs, hsample]
  rfl

theorem Settled.after (h : r.Settled) (n : ℕ) : (r.after line n).Settled := by
  cases n with
  | zero => exact h
  | succ n => exact fun hd => (of_dataReady _ _ hd).2

variable (r line) in
theorem left_after (n j : ℕ) :
    left (r.after line n).state ≤ left (r.after line (n + j)).state + j := by
  induction j with
  | zero => exact Nat.le_refl _
  | succ j ih =>
    have hstep : _ ≤ left (r.after line (n + j + 1)).state + 1 :=
      left_tick (r := r.after line (n + j)) (line (n + j)).1 (line (n + j)).2
    change _ ≤ left (r.after line (n + j + 1)).state + (j + 1)
    omega

/-- Two bytes are ready at least eleven edges apart. -/
theorem dataReady_apart (h : r.Settled) {n n' : ℕ} (hn : (r.after line n).dataReady = true)
    (hn' : (r.after line n').dataReady = true) (hlt : n < n') : n + 11 ≤ n' := by
  obtain ⟨j, rfl⟩ : ∃ j, n' = n + j + 1 := ⟨n' - n - 1, by omega⟩
  have hfirst : left (r.after line n).state = 11 := by
    rw [h.after n hn]
    rfl
  have hlast : left (r.after line (n + j)).state = 1 := by
    rw [(of_dataReady _ _ hn').1]
    rfl
  have hleft := left_after r line n j
  omega

end Receiver

namespace Cadb

/-! ## One cycle of the debugger -/

namespace BpDebug

variable {b : BpDebug}

theorem fall_of_low (h : b.mClkO = false) : b.fall = b := by
  rw [fall, if_neg fun hn => absurd (h.symm.trans hn.2) (by decide)]

/-- In "001", with the last snapshot asked for. -/
theorem rise_001_rest {i : BpIn} (hs : b.state = 0b001#3) (hc : b.comDebugClk = false) :
    b.rise i =
      { b with debugDataRead := false, state := if i.dataComing then 0b010#3 else 0b001#3 } := by
  rw [rise_001 hs, hc, Bool.false_and, ← hc]
  congr 1
  exact if_congr (by simp [hc]) rfl rfl

/-- Waiting for a command, the handshake of the last one over. -/
structure Resting (b : BpDebug) : Prop where
  state : b.state = 0b001#3
  comDebugClk : b.comDebugClk = false
  debugDataRead : b.debugDataRead = false
  low : b.mClkO = false

end BpDebug

/-- The sending process leaves the registers of the receiving one alone. -/
theorem ComDebug.send_frame (c : ComDebug) (i : ComIn) :
    (c.send i).comingData = c.comingData ∧ (c.send i).count = c.count ∧
      (c.send i).dataComing = c.dataComing := by
  unfold send
  dsimp only
  split <;> (try split_ifs) <;> exact ⟨rfl, rfl, rfl⟩

namespace Debug

variable {s : Debug} {i : DebugIn}

/-- Without a byte `com_debug` only gives up a command that has been read. -/
theorem com_quiet (h : i.receive = none) : (s.cycle i).com.comingData = s.com.comingData ∧
    (s.cycle i).com.count = s.com.count ∧
    (s.cycle i).com.dataComing = (s.com.dataComing && !s.bp.debugDataRead) := by
  obtain ⟨h1, h2, h3⟩ := (s.com.receive (s.comIn i)).send_frame (s.comIn i)
  refine ⟨h1.trans ?_, h2.trans ?_, h3.trans ?_⟩ <;> simp [ComDebug.receive, comIn, h]

theorem com_byte {x : BitVec 8} (h : i.receive = some x) :
    (s.cycle i).com.comingData = Function.update s.com.comingData s.com.count x ∧
      (s.cycle i).com.count = s.com.count + 1 ∧
      (s.cycle i).com.dataComing =
        ((s.com.dataComing || s.com.count == 16) && !s.bp.debugDataRead) := by
  obtain ⟨h1, h2, h3⟩ := (s.com.receive (s.comIn i)).send_frame (s.comIn i)
  refine ⟨h1.trans ?_, h2.trans ?_, h3.trans ?_⟩ <;> simp [ComDebug.receive, comIn, h]

/-- A command that has been read is given up. -/
theorem dataComing_of_read (h : s.bp.debugDataRead = true) :
    (s.cycle i).com.dataComing = false := by
  cases hr : i.receive with
  | none => rw [(com_quiet hr).2.2, h, Bool.not_true, Bool.and_false]
  | some x => rw [(com_byte hr).2.2, h, Bool.not_true, Bool.and_false]

/-- A cycle in which `bp_debug` goes to `b` without raising the clock. -/
theorem cycle_of_rise {b : BpDebug} (h : s.bp.rise (s.bpIn i) = b) (hl : b.mClkO = false) :
    (s.cycle i).bp = b ∧ (s.rise i).clkO = false := by
  subst h
  exact ⟨BpDebug.fall_of_low hl, hl⟩

/-- At rest without a command nothing changes. -/
theorem rest_cycle (h : s.bp.Resting) (hd : s.com.dataComing = false) :
    (s.cycle i).bp = s.bp ∧ (s.rise i).clkO = false := by
  have hrise : s.bp.rise (s.bpIn i) = s.bp := by
    rw [BpDebug.rise_001 h.state, if_neg fun hn => absurd (hd.symm.trans hn.2) (by decide)]
    obtain ⟨h1, h2, h3, -⟩ := h
    rcases s with ⟨b, c⟩
    rcases b
    simp_all
  exact cycle_of_rise hrise h.low

/-! ## A command comes -/

/-- The bytes of a command as they are sent. -/
def frameOf (bs : List (BitVec 8)) : Frame := fun k => bs.getD k 0#8

/-- At rest, with the bytes `bs` of a command. -/
structure Gathering (s : Debug) (bs : List (BitVec 8)) : Prop where
  rest : s.bp.Resting
  dataComing : s.com.dataComing = false
  count : s.com.count.val = bs.length
  bytes : ∀ k : Fin 17, k.val < bs.length → s.com.comingData k = bs.getD k 0#8

/-- At rest, with the command `f` complete. -/
structure Loaded (s : Debug) (f : Frame) : Prop where
  rest : s.bp.Resting
  dataComing : s.com.dataComing = true
  count : s.com.count = 0
  comingData : s.com.comingData = f

variable {bs : List (BitVec 8)} {f : Frame}

theorem Gathering.quiet (h : s.Gathering bs) (hi : i.receive = none) :
    (s.cycle i).Gathering bs := by
  obtain ⟨hdata, hcount, hcoming⟩ := com_quiet (s := s) hi
  refine ⟨?_, ?_, ?_, ?_⟩
  · rw [(rest_cycle h.rest h.dataComing).1]
    exact h.rest
  · rw [hcoming, h.dataComing, Bool.false_and]
  · rw [hcount]
    exact h.count
  · rw [hdata]
    exact h.bytes

/-- One byte more. -/
theorem Gathering.bytes_append (h : s.Gathering bs) {x : BitVec 8} (hi : i.receive = some x)
    (k : Fin 17) (hk : k.val < (bs ++ [x]).length) :
    (s.cycle i).com.comingData k = (bs ++ [x]).getD k 0#8 := by
  rw [(com_byte (s := s) hi).1]
  rw [List.length_append, List.length_singleton] at hk
  by_cases hlast : k = s.com.count
  · rw [hlast, Function.update_self, h.count]
    simp
  · have hne : k.val ≠ bs.length := fun hn => hlast (Fin.ext (hn.trans h.count.symm))
    rw [Function.update_of_ne hlast, h.bytes k (by omega)]
    simp [List.getElem?_append_left (show k.val < bs.length by omega)]

theorem Gathering.byte (h : s.Gathering bs) {x : BitVec 8} (hi : i.receive = some x)
    (hl : bs.length < 16) : (s.cycle i).Gathering (bs ++ [x]) := by
  obtain ⟨-, hcount, hcoming⟩ := com_byte (s := s) hi
  have hc := h.count
  refine ⟨?_, ?_, ?_, h.bytes_append hi⟩
  · rw [(rest_cycle h.rest h.dataComing).1]
    exact h.rest
  · have hne : (s.com.count == 16) = false := by
      rw [beq_eq_false_iff_ne]
      intro hn
      rw [hn] at hc
      have : (16 : Fin 17).val = 16 := rfl
      omega
    rw [hcoming, h.dataComing, hne]
    rfl
  · rw [hcount, Fin.val_add_one_of_lt' (by omega), hc]
    simp

theorem Gathering.last (h : s.Gathering bs) {x : BitVec 8} (hi : i.receive = some x)
    (hl : bs.length = 16) : (s.cycle i).Loaded (frameOf (bs ++ [x])) := by
  obtain ⟨-, hcount, hcoming⟩ := com_byte (s := s) hi
  have hc : s.com.count = 16 := Fin.ext (h.count.trans hl)
  refine ⟨?_, ?_, ?_, ?_⟩
  · rw [(rest_cycle h.rest h.dataComing).1]
    exact h.rest
  · rw [hcoming, h.dataComing, hc, h.rest.debugDataRead]
    rfl
  · rw [hcount, hc]
    rfl
  · funext k
    refine h.bytes_append hi k ?_
    rw [List.length_append, hl]
    exact k.isLt

/-! ## It is taken up -/

/-- `bp_debug` is in `b`, and the last command was `f`; `d` tells whether it is still offered. -/
structure Holds (s : Debug) (b : BpDebug) (f : Frame) (d : Bool) : Prop where
  bp : s.bp = b
  dataComing : s.com.dataComing = d
  count : s.com.count = 0
  comingData : s.com.comingData = f

section Handshake

variable {b b' : BpDebug} {d : Bool}

theorem Loaded.holds (h : s.Loaded f) : s.Holds s.bp f true :=
  ⟨rfl, h.dataComing, h.count, h.comingData⟩

/-- A cycle without a byte. -/
theorem Holds.cycle (h : s.Holds b f d) (hi : i.receive = none)
    (hb : b.rise ⟨s.com.slcNum, d, f, i.monitor⟩ = b') :
    (s.cycle i).Holds b'.fall f (d && !b.debugDataRead) ∧ (s.rise i).clkO = b'.mClkO := by
  obtain ⟨hdata, hcount, hcoming⟩ := com_quiet (s := s) hi
  have hrise : s.bp.rise (s.bpIn i) = b' := by
    rw [bpIn, h.bp, h.dataComing, h.comingData]
    exact hb
  refine ⟨⟨?_, ?_, hcount.trans h.count, hdata.trans h.comingData⟩, ?_⟩
  · change (s.bp.rise (s.bpIn i)).fall = _
    rw [hrise]
  · rw [hcoming, h.dataComing, h.bp]
  · change (s.bp.rise (s.bpIn i)).mClkO = _
    rw [hrise]

/-- One that does not raise the clock. -/
theorem Holds.cycle_low (h : s.Holds b f d) (hi : i.receive = none)
    (hb : b.rise ⟨s.com.slcNum, d, f, i.monitor⟩ = b') (hl : b'.mClkO = false) :
    (s.cycle i).Holds b' f (d && !b.debugDataRead) ∧ (s.rise i).clkO = false := by
  obtain ⟨hnext, hlow⟩ := h.cycle hi hb
  rw [BpDebug.fall_of_low hl] at hnext
  exact ⟨hnext, hlow.trans hl⟩

/-- In "001", with the last snapshot asked for. -/
theorem Holds.cycle_001 (h : s.Holds b f d) (hi : i.receive = none) (hs : b.state = 0b001#3)
    (hc : b.comDebugClk = false) (hl : b.mClkO = false) :
    (s.cycle i).Holds
        { b with debugDataRead := false, state := if d then 0b010#3 else 0b001#3 } f
        (d && !b.debugDataRead) ∧
      (s.rise i).clkO = false :=
  h.cycle_low hi (BpDebug.rise_001_rest hs hc) hl

/-- In "010". -/
theorem Holds.cycle_010 (h : s.Holds b f d) (hi : i.receive = none) (hs : b.state = 0b010#3)
    (hl : b.mClkO = false) :
    (s.cycle i).Holds (b.execute f) f (d && !b.debugDataRead) ∧ (s.rise i).clkO = false :=
  h.cycle_low hi (BpDebug.rise_010 hs) ((BpDebug.execute_mClkO f).trans hl)

theorem execute_break (h : f.command = 0x02#8) : b.execute f =
    { b with debugDataRead := true, state := 0b001#3, breakpoint := f.value, compare := f.mask } := by
  simp only [BpDebug.execute, h]
  rfl

end Handshake

section Commands

variable {is : ℕ → DebugIn} {b : BpDebug}

variable (is) in
/-- A cycle without a pulse. -/
theorem pulses_succ_low {k : ℕ} (h : ((s.after is k).rise (is k)).clkO = false) :
    s.pulses is (k + 1) = s.pulses is k := by
  rw [pulses, h]
  rfl

variable (is) in
/-- A command is taken up in the second cycle. -/
theorem Loaded.taken (h : s.Loaded f) (hq : ∀ k < 2, (is k).receive = none) :
    (s.after is 2).Holds
        (BpDebug.execute { s.bp with debugDataRead := false, state := 0b010#3 } f) f true ∧
      s.pulses is 2 = 0 := by
  obtain ⟨h₁, hl₀⟩ := h.holds.cycle_001 (hq 0 (by omega)) h.rest.state h.rest.comDebugClk h.rest.low
  rw [if_pos rfl, h.rest.debugDataRead] at h₁
  obtain ⟨h₂, hl₁⟩ := h₁.cycle_010 (hq 1 (by omega)) rfl h.rest.low
  refine ⟨h₂, ?_⟩
  rw [pulses_succ_low is (k := 1) hl₁, pulses_succ_low is (k := 0) hl₀]
  rfl

variable (is) in
/-- The break command is taken up once more, and then the debugger is at rest again. -/
theorem Loaded.breaks (h : s.Loaded f) (hf : f.command = 0x02#8)
    (hq : ∀ k < 5, (is k).receive = none) :
    (s.after is 5).Gathering [] ∧ (s.after is 5).bp.breakpoint = f.value ∧
      (s.after is 5).bp.compare = f.mask ∧ s.pulses is 5 = 0 := by
  obtain ⟨h₂, hp⟩ := h.taken is fun k hk => hq k (by omega)
  rw [execute_break hf] at h₂
  obtain ⟨h₃, hl₂⟩ := h₂.cycle_001 (hq 2 (by omega)) rfl h.rest.comDebugClk h.rest.low
  obtain ⟨h₄, hl₃⟩ := h₃.cycle_010 (hq 3 (by omega)) rfl h.rest.low
  rw [execute_break hf] at h₄
  obtain ⟨h₅, hl₄⟩ := h₄.cycle_001 (hq 4 (by omega)) rfl h.rest.comDebugClk h.rest.low
  change (s.after is 5).Holds _ _ _ at h₅
  refine ⟨⟨⟨?_, ?_, ?_, ?_⟩, h₅.dataComing, ?_, fun k hk => absurd hk (Nat.not_lt_zero _)⟩, ?_, ?_,
    ?_⟩
  · rw [h₅.bp]
    rfl
  · rw [h₅.bp]
    exact h.rest.comDebugClk
  · rw [h₅.bp]
  · rw [h₅.bp]
    exact h.rest.low
  · rw [h₅.count]
    rfl
  · rw [h₅.bp]
  · rw [h₅.bp]
  · rw [pulses_succ_low is (k := 4) hl₄, pulses_succ_low is (k := 3) hl₃,
      pulses_succ_low is (k := 2) hl₂, hp]

end Commands

section Shift

variable {is : ℕ → DebugIn}

theorem after_add (t k : ℕ) :
    s.after is (t + k) = (s.after is t).after (fun j => is (t + j)) k := by
  induction k with
  | zero => rfl
  | succ k ih =>
    change (s.after is (t + k)).cycle (is (t + k)) = _
    rw [ih]
    rfl

theorem pulses_add (t k : ℕ) : s.pulses is (t + k) =
    s.pulses is t + (s.after is t).pulses (fun j => is (t + j)) k := by
  induction k with
  | zero => rfl
  | succ k ih =>
    change s.pulses is (t + k) + (if ((s.after is (t + k)).rise (is (t + k))).clkO then 1 else 0) = _
    rw [ih, after_add, Nat.add_assoc]
    rfl

end Shift

/-! ## The bytes on the line -/

theorem bytes_append (x : BitVec 64) :
    ((x >>> 56).setWidth 8 ++ (x >>> 48).setWidth 8 ++ (x >>> 40).setWidth 8 ++
      (x >>> 32).setWidth 8 ++ (x >>> 24).setWidth 8 ++ (x >>> 16).setWidth 8 ++
      (x >>> 8).setWidth 8 ++ (x >>> 0).setWidth 8 : BitVec 64) = x := by
  ext i hi
  simp only [BitVec.getElem_append, BitVec.getElem_setWidth, BitVec.getLsbD_ushiftRight]
  grind

/-- What `com_debug` puts together is what the client took apart. -/
theorem frameOf_command (cmd : BitVec 8) (x mask : BitVec 64) :
    (frameOf (command cmd x mask)).command = cmd ∧ (frameOf (command cmd x mask)).value = x ∧
      (frameOf (command cmd x mask)).mask = mask :=
  ⟨rfl, bytes_append x, bytes_append mask⟩

section Stream

variable {is : ℕ → DebugIn} {rest : List (BitVec 8)}

/-- The bytes that have come in the first `n` cycles. -/
def received (is : ℕ → DebugIn) (n : ℕ) : List (BitVec 8) :=
  (List.range n).filterMap fun k => (is k).receive

theorem received_succ (n : ℕ) :
    received is (n + 1) = received is n ++ (is n).receive.toList := by
  rw [received, List.range_succ, List.filterMap_append]
  cases h : (is n).receive <;> simp [received, h]

theorem received_add (t k : ℕ) :
    received is (t + k) = received is t ++ received (fun j => is (t + j)) k := by
  induction k with
  | zero => simp [received]
  | succ k ih => rw [← Nat.add_assoc, received_succ, received_succ, ih, List.append_assoc]

theorem received_none {n : ℕ} (h : ∀ k < n, (is k).receive = none) : received is n = [] := by
  refine List.filterMap_eq_nil_iff.2 fun k hk => h k (List.mem_range.1 hk)

/-- The bytes `bs` come, at least eleven cycles apart, and nothing else does. -/
structure Comes (is : ℕ → DebugIn) (bs : List (BitVec 8)) : Prop where
  apart : ∀ {t t'}, t < t' → (is t).receive ≠ none → (is t').receive ≠ none → t + 11 ≤ t'
  all : ∃ T, ∀ t, T ≤ t → received is t = bs

/-- Bytes that come through the receiver are that far apart. -/
theorem Comes.of_receiver {r : Receiver} {line : ℕ → Bool × Bool} (hset : r.Settled)
    (heard : ∀ t, (is t).receive = (r.after line t).output)
    (hall : ∃ T, ∀ t, T ≤ t → received is t = bs) : Comes is bs := by
  have hready : ∀ n, (is n).receive ≠ none → (r.after line n).dataReady = true := by
    intro n hn
    rw [heard, Receiver.output] at hn
    by_contra hr
    rw [if_neg hr] at hn
    exact hn rfl
  exact ⟨fun hlt ht ht' => Receiver.dataReady_apart hset (hready _ ht) (hready _ ht') hlt, hall⟩

/-- When all of them have come nothing more does. -/
theorem Comes.quiet (h : Comes is bs) {n : ℕ} (hn : received is n = bs) (k : ℕ) :
    (is (n + k)).receive = none := by
  obtain ⟨T, hT⟩ := h.all
  have hlong := hT (n + k + 1 + T) (by omega)
  rw [received_add, received_succ, received_add, hn, List.append_assoc, List.append_assoc] at hlong
  have hnil := List.append_right_eq_self.1 hlong
  simp only [List.append_eq_nil_iff] at hnil
  cases hr : (is (n + k)).receive with
  | none => rfl
  | some x =>
    rw [hr] at hnil
    exact absurd hnil.2.1 (by simp)

/-- The cycle in which the last byte of `bs` comes. -/
theorem exists_last {T : ℕ} (h : received is T = bs ++ rest) (hne : bs ≠ []) :
    ∃ t x, received is t ++ [x] = bs ∧ (is t).receive = some x := by
  induction T generalizing rest with
  | zero =>
    have hnil : bs ++ rest = [] := h.symm
    exact absurd (List.append_eq_nil_iff.1 hnil).1 hne
  | succ T ih =>
    rw [received_succ] at h
    cases hr : (is T).receive with
    | none =>
      rw [hr] at h
      exact ih (by simpa using h)
    | some x =>
      rw [hr] at h
      rcases List.eq_nil_or_concat rest with rfl | ⟨rest', y, rfl⟩
      · exact ⟨T, x, by simpa using h, hr⟩
      · rw [List.concat_eq_append, ← List.append_assoc] at h
        exact ih (List.append_inj_left' h rfl)

variable (is) in
theorem Gathering.after (h : s.Gathering []) {n : ℕ} (hn : (received is n).length ≤ 16) :
    (s.after is n).Gathering (received is n) ∧ (s.after is n).bp = s.bp ∧ s.pulses is n = 0 := by
  induction n with
  | zero => exact ⟨h, rfl, rfl⟩
  | succ n ih =>
    rw [received_succ] at hn ⊢
    rw [List.length_append] at hn
    obtain ⟨hg, hbp, hp⟩ := ih (by omega)
    obtain ⟨hbp', hlow⟩ := rest_cycle (i := is n) hg.rest hg.dataComing
    refine ⟨?_, hbp'.trans hbp, (pulses_succ_low is hlow).trans hp⟩
    cases hr : (is n).receive with
    | none =>
      rw [Option.toList_none, List.append_nil]
      exact hg.quiet hr
    | some x =>
      rw [hr, Option.toList_some, List.length_singleton] at hn
      exact hg.byte hr (by omega)

/-- A command of 17 bytes is complete with the last of them. -/
theorem Gathering.loads (h : s.Gathering []) {n : ℕ} {x : BitVec 8}
    (hlen : (received is n).length = 16) (hx : (is n).receive = some x) :
    (s.after is (n + 1)).Loaded (frameOf (received is n ++ [x])) ∧
      (s.after is (n + 1)).bp = s.bp ∧ s.pulses is (n + 1) = 0 := by
  obtain ⟨hg, hbp, hp⟩ := h.after is (n := n) (by omega)
  obtain ⟨hbp', hlow⟩ := rest_cycle (i := is n) hg.rest hg.dataComing
  exact ⟨hg.last hx hlen, hbp'.trans hbp, (pulses_succ_low is hlow).trans hp⟩

/-- What comes after the first bytes. -/
theorem Comes.shift (h : Comes is (bs ++ rest)) {n : ℕ} (hn : received is n = bs) :
    Comes (fun j => is (n + j)) rest := by
  refine ⟨fun {t t'} hlt ht ht' => ?_, ?_⟩
  · have := h.apart (show n + t < n + t' by omega) ht ht'
    omega
  · obtain ⟨T, hT⟩ := h.all
    refine ⟨T, fun t ht => ?_⟩
    have hall := hT (n + t) (by omega)
    rw [received_add, hn] at hall
    exact List.append_cancel_left hall

/-- The break command and then another one are delivered. -/
theorem delivered (h : s.Gathering []) {v c : BitVec 64} {go : List (BitVec 8)}
    (hgo : go.length = 17) (hc : Comes is (command 0x02#8 v c ++ go)) :
    ∃ N, (s.after is N).Loaded (frameOf go) ∧ (s.after is N).bp.breakpoint = v ∧
      (s.after is N).bp.compare = c ∧ s.pulses is N = 0 ∧ ∀ k, (is (N + k)).receive = none := by
  obtain ⟨T, hT⟩ := hc.all
  obtain ⟨t₁, x₁, hbrk, hx₁⟩ := exists_last (hT T (by omega)) (by simp [command])
  have hlen₁ : (received is t₁).length = 16 := by
    have hl := congrArg List.length hbrk
    rw [List.length_append, List.length_singleton] at hl
    have : (command 0x02#8 v c).length = 17 := rfl
    omega
  obtain ⟨hload, -, hp₁⟩ := h.loads hlen₁ hx₁
  rw [hbrk] at hload
  -- the receiver leaves time for the handshake
  have hquiet : ∀ k < 5, (is (t₁ + 1 + k)).receive = none := by
    intro k hk
    by_contra hn
    have := hc.apart (show t₁ < t₁ + 1 + k by omega) (by rw [hx₁]; simp) hn
    omega
  obtain ⟨hcmd, hval, hmask⟩ := frameOf_command 0x02#8 v c
  obtain ⟨hg, hv, hcm, hp₂⟩ := hload.breaks (fun j => is (t₁ + 1 + j)) hcmd hquiet
  rw [← after_add] at hg hv hcm
  have hrec : received is (t₁ + 1 + 5) = command 0x02#8 v c := by
    rw [received_add, received_none hquiet, received_succ, hx₁, List.append_nil]
    exact hbrk
  have hp₂' : s.pulses is (t₁ + 1 + 5) = 0 := by
    rw [pulses_add, hp₁, hp₂]
  have hc₂ := hc.shift hrec
  obtain ⟨T', hT'⟩ := hc₂.all
  have hall : received (fun j => is (t₁ + 1 + 5 + j)) T' = go ++ [] := by
    rw [List.append_nil]
    exact hT' T' (by omega)
  obtain ⟨t₂, x₂, hlast, hx₂⟩ := exists_last hall fun hn => by
    rw [hn] at hgo
    cases hgo
  have hlen₂ : (received (fun j => is (t₁ + 1 + 5 + j)) t₂).length = 16 := by
    have hl := congrArg List.length hlast
    rw [List.length_append, List.length_singleton] at hl
    omega
  obtain ⟨hload', hbp, hp₃⟩ := hg.loads hlen₂ hx₂
  rw [hlast] at hload'
  rw [← after_add] at hload' hbp
  refine ⟨t₁ + 1 + 5 + (t₂ + 1), hload', ?_, ?_, ?_, fun k => ?_⟩
  · rw [hbp, hv, hval]
  · rw [hbp, hcm, hmask]
  · rw [pulses_add, hp₂', hp₃]
  · have hrec' : received (fun j => is (t₁ + 1 + 5 + j)) (t₂ + 1) = go := by
      rw [received_succ, hx₂]
      exact hlast
    have := hc₂.quiet hrec' k
    rwa [← Nat.add_assoc] at this

end Stream

end Debug

end Cadb

end CacheCPU
