import CacheCPU.Cadb.Link
import CacheCPU.Proofs.Breakpoint

/-!
# A cycle of the debugger with its transmitter

`bp_debug` and `com_debug` run beside each other: while the one waits for a command or takes up a
break, the other sends a snapshot byte by byte. They meet in `com_debug_clk`, which asks for the
snapshot and is withdrawn at byte 4.
-/

namespace CacheCPU

namespace Cadb

/-! ## The sending process -/

namespace ComDebug

variable {c : ComDebug} {i : ComIn}

/-- A snapshot is over, and another may begin. -/
structure Parked (c : ComDebug) : Prop where
  slcNum : c.slcNum = slcMax
  transmitSignal : c.transmitSignal = false
  state : c.state = 0 ∨ c.state = 1
  afterFallingEdge : c.afterFallingEdge = true

/-- The receiving process leaves the registers of the sending one alone. -/
theorem receive_frame : (c.receive i).slcNum = c.slcNum ∧ (c.receive i).state = c.state ∧
    (c.receive i).afterFallingEdge = c.afterFallingEdge ∧
    (c.receive i).transmitSignal = c.transmitSignal := by
  unfold receive
  cases i.receive <;> exact ⟨rfl, rfl, rfl, rfl⟩

theorem send_0 (hs : c.starts i = false) (h : c.state = 0) : c.send i =
    { c with state := 1, afterFallingEdge := !i.clk || c.afterFallingEdge } := by
  simp [send, hs, h]

theorem send_1 (hs : c.starts i = false) (h : c.state = 1) : c.send i =
    if i.transmitBusy = false ∧ c.slcNum < slcMax then
      { c with
        transmitSignal := true, state := 2, afterFallingEdge := !i.clk || c.afterFallingEdge }
    else { c with afterFallingEdge := !i.clk || c.afterFallingEdge } := by
  simp only [send, hs, h]
  rfl

theorem send_2 (hs : c.starts i = false) (h : c.state = 2) : c.send i =
    { c with
      transmitSignal := false, slcNum := c.slcNum + 1, state := 0
      afterFallingEdge := !i.clk || c.afterFallingEdge } := by
  simp [send, hs, h]

theorem starts_of_clk (h : i.clk = false) : c.starts i = false := by
  rw [starts, h]
  rfl

theorem starts_of_slc (h : c.slcNum ≠ slcMax) : c.starts i = false := by
  rw [starts, beq_eq_false_iff_ne.2 h, Bool.and_false, Bool.false_and]

/-- Nothing is sent while no snapshot is asked for. -/
theorem Parked.send (h : c.Parked) (hi : i.clk = false) : (c.send i).Parked := by
  have hs := starts_of_clk (c := c) hi
  rcases h.state with h0 | h1
  · rw [send_0 hs h0]
    exact ⟨h.slcNum, h.transmitSignal, .inr rfl, by rw [hi]; rfl⟩
  · have hno : ¬ (i.transmitBusy = false ∧ c.slcNum < slcMax) := by
      rw [h.slcNum]
      exact fun hn => absurd hn.2 (by decide)
    rw [send_1 hs h1, if_neg hno]
    exact ⟨h.slcNum, h.transmitSignal, h.state, by rw [hi]; rfl⟩

/-- A snapshot begins. -/
theorem Parked.start (h : c.Parked) (hi : i.clk = true) : c.send i =
    { c with slcNum := 0#16, state := 1, afterFallingEdge := false } := by
  have hs : c.starts i = true := by
    rw [starts, hi, h.slcNum, h.afterFallingEdge]
    rfl
  simp [ComDebug.send, hs]

theorem Parked.receive (h : c.Parked) : (c.receive i).Parked := by
  obtain ⟨h1, h2, h3, h4⟩ := receive_frame (c := c) (i := i)
  exact ⟨h1.trans h.slcNum, h4.trans h.transmitSignal, h2.symm ▸ h.state,
    h3.trans h.afterFallingEdge⟩

end ComDebug

end Cadb

/-! ## The transmitter -/

namespace Transmitter

/-- The ticks that the transmitter still needs. -/
def left (s : BitVec 4) : ℕ :=
  if s = 0b0000#4 then 0
  else if s = 0b0100#4 then 11
  else if s.getLsbD 3 then 18 - s.toNat
  else if s = 0b0010#4 then 2
  else 1

theorem left_next : ∀ s : BitVec 4, s ≠ 0b0000#4 → left (next s) < left s := by
  decide

/-- Nothing new is accepted. -/
theorem tick_state {t : Transmitter} {d : BitVec 8} {k : Bool} : (t.tick false d k).state =
    if t.state = 0b0000#4 then 0b0000#4 else if k then next t.state else t.state := rfl

end Transmitter

namespace Cadb

namespace Link

open Debug

variable {l : Link} {i : LinkIn} {f : Frame} {b b' : BpDebug} {d : Bool}

/-! ## One cycle -/

theorem cycle_parked (h : l.dbg.com.Parked) (hc : l.dbg.bp.comDebugClk = false) :
    (l.cycle i).dbg.com.Parked :=
  h.receive.send hc

/-- A cycle in which no byte is offered. -/
theorem events_eq (h : l.dbg.com.transmitSignal = false) : l.events i =
    (if l.dbg.bp.state = 0b010#3 then [.exec l.dbg.com.comingData] else []) ++
      if (l.dbg.rise (l.debugIn i)).clkO then [.pulse] else [] := by
  unfold events Transmitter.accepted
  rw [h, Bool.and_false]
  simp

/-- Without the last byte of a command none is there. -/
theorem dataComing_of_not_completes (h : l.dbg.com.dataComing = false)
    (hc : ∀ f, ¬ l.Completes i f) : (l.cycle i).dbg.com.dataComing = false := by
  cases hr : i.receive with
  | none =>
    have hq : (l.debugIn i).receive = none := hr
    exact (com_quiet hq).2.2.trans (by rw [h, Bool.false_and])
  | some x =>
    have hb : (l.debugIn i).receive = some x := hr
    have hne : (l.dbg.com.count == 16) = false :=
      beq_eq_false_iff_ne.2 fun hn => hc _ ⟨hn, x, hr, rfl⟩
    exact (com_byte hb).2.2.trans (by rw [h, hne, Bool.false_or, Bool.false_and])

/-- The command is there when its last byte has come. -/
theorem Completes.holds (h : l.Completes i f) (hr : l.dbg.bp.Resting)
    (hd : l.dbg.com.dataComing = false) :
    (l.cycle i).dbg.Holds l.dbg.bp f true ∧ (l.dbg.rise (l.debugIn i)).clkO = false := by
  obtain ⟨hcount, x, hx, rfl⟩ := h
  obtain ⟨hbp, hlow⟩ := rest_cycle (i := l.debugIn i) hr hd
  have hb : (l.debugIn i).receive = some x := hx
  obtain ⟨hdata, hcount', hcoming⟩ := com_byte hb
  rw [hcount] at hdata hcount' hcoming
  exact ⟨⟨hbp, hcoming.trans (by rw [hd, hr.debugDataRead]; rfl), hcount', hdata⟩, hlow⟩

/-! ## `bp_debug` waits -/

/-- No command is there. -/
structure Waits (l : Link) : Prop where
  state : l.dbg.bp.state = 0b001#3
  debugDataRead : l.dbg.bp.debugDataRead = false
  low : l.dbg.bp.mClkO = false
  dataComing : l.dbg.com.dataComing = false

/-- `bp_debug` in cycle `p` of taking up the break `f`. It is taken up twice, as `data_read` comes a
cycle too late for `data_coming` to be gone. -/
def taking (b : BpDebug) (f : Frame) : ℕ → BpDebug
  | 0 => b
  | 1 => { b with debugDataRead := false, state := 0b010#3 }
  | 2 =>
    { b with
      debugDataRead := true, state := 0b001#3, breakpoint := f.value, compare := f.mask }
  | 3 =>
    { b with
      debugDataRead := false, state := 0b010#3, breakpoint := f.value, compare := f.mask }
  | _ =>
    { b with
      debugDataRead := true, state := 0b001#3, breakpoint := f.value, compare := f.mask }

/-- It does, and began in `b`. -/
structure Takes (l : Link) (b : BpDebug) (f : Frame) (p : ℕ) : Prop where
  rest : b.Resting
  command : f.command = 0x02#8
  holds : l.dbg.Holds (taking b f p) f (decide (p < 3))

/-- What a cycle of `bp_debug` in which it waits or takes up a break means for `com_debug` and the
target. -/
structure Still (l : Link) (i : LinkIn) : Prop where
  low : (l.dbg.rise (l.debugIn i)).clkO = false
  command : l.dbg.bp.state = 0b010#3 → l.dbg.com.comingData.command = 0x02#8
  clk : l.dbg.bp.comDebugClk = false ∨ l.dbg.com.slcNum.getLsbD 2 = true →
    (l.cycle i).dbg.bp.comDebugClk = false

theorem not_010_of_001 {s : BitVec 3} {q : Prop} (h : s = 0b001#3) : s = 0b010#3 → q := by
  rintro rfl
  cases h

theorem Waits.cycle (h : l.Waits) (hc : ∀ f, ¬ l.Completes i f) :
    (l.cycle i).Waits ∧ l.Still i := by
  have hrise := BpDebug.rise_001 (i := l.dbg.bpIn (l.debugIn i)) h.state
  rw [if_neg fun hn => absurd (h.dataComing.symm.trans hn.2) (by decide)] at hrise
  obtain ⟨hbp, hlow⟩ := cycle_of_rise hrise h.low
  change (l.cycle i).dbg.bp = _ at hbp
  refine ⟨⟨?_, ?_, ?_, dataComing_of_not_completes h.dataComing hc⟩, hlow,
    not_010_of_001 h.state, fun hclk => ?_⟩
  · rw [hbp]
  · rw [hbp]
  · rw [hbp]
    exact h.low
  · rw [hbp]
    change (l.dbg.bp.comDebugClk && !l.dbg.com.slcNum.getLsbD 2) = false
    rcases hclk with hclk | hclk
    · rw [hclk, Bool.false_and]
    · rw [hclk, Bool.not_true, Bool.and_false]

/-- A break comes. -/
theorem Waits.loads (h : l.Waits) (hr : l.dbg.bp.Resting) (hf : l.Completes i f)
    (hcmd : f.command = 0x02#8) : (l.cycle i).Takes l.dbg.bp f 0 ∧ l.Still i := by
  obtain ⟨hnext, hlow⟩ := hf.holds hr h.dataComing
  refine ⟨⟨hr, hcmd, hnext⟩, hlow, not_010_of_001 h.state, fun _ => ?_⟩
  rw [hnext.bp]
  exact hr.comDebugClk

theorem taking_frame (b : BpDebug) (f : Frame) (p : ℕ) :
    (taking b f p).comDebugClk = b.comDebugClk ∧ (taking b f p).mClkO = b.mClkO := by
  unfold taking
  split <;> exact ⟨rfl, rfl⟩

/-- A cycle of taking up a break. -/
theorem Takes.cycle {p : ℕ} (h : l.Takes b f p) (hi : i.receive = none) :
    (l.cycle i).dbg.Holds
        (if p < 4 then taking b f (p + 1) else { taking b f 4 with debugDataRead := false }) f
        (decide (p < 2)) ∧
      (l.dbg.rise (l.debugIn i)).clkO = false := by
  have hq : (l.debugIn i).receive = none := hi
  obtain ⟨hclk, hlow⟩ := taking_frame b f p
  rw [h.rest.comDebugClk] at hclk
  rw [h.rest.low] at hlow
  have hread := h.rest.debugDataRead
  have hh := h.holds
  match p with
  | 0 =>
    obtain ⟨hnext, hl⟩ := hh.cycle_001 hq h.rest.state hclk hlow
    rw [show (taking b f 0).debugDataRead = false from hread] at hnext
    exact ⟨hnext, hl⟩
  | 1 =>
    obtain ⟨hnext, hl⟩ := hh.cycle_010 hq rfl hlow
    rw [execute_break h.command] at hnext
    exact ⟨hnext, hl⟩
  | 2 => exact hh.cycle_001 hq rfl hclk hlow
  | 3 =>
    obtain ⟨hnext, hl⟩ := hh.cycle_010 hq rfl hlow
    rw [execute_break h.command] at hnext
    exact ⟨hnext, hl⟩
  | p + 4 =>
    obtain ⟨hnext, hl⟩ := hh.cycle_001 hq rfl hclk hlow
    have hd : decide (p + 4 < 3) = false := decide_eq_false (by omega)
    rw [hd, Bool.false_and] at hnext
    rw [if_neg (by omega), decide_eq_false (by omega)]
    exact ⟨hnext, hl⟩

theorem Takes.still {p : ℕ} (h : l.Takes b f p) (hi : i.receive = none) : l.Still i := by
  obtain ⟨hnext, hlow⟩ := h.cycle hi
  refine ⟨hlow, fun _ => ?_, fun _ => ?_⟩
  · rw [h.holds.comingData]
    exact h.command
  · rw [hnext.bp]
    split_ifs
    · exact (taking_frame b f _).1.trans h.rest.comDebugClk
    · exact h.rest.comDebugClk

theorem Takes.next {p : ℕ} (h : l.Takes b f p) (hi : i.receive = none) (hp : p < 4) :
    (l.cycle i).Takes b f (p + 1) := by
  obtain ⟨hnext, -⟩ := h.cycle hi
  rw [if_pos hp] at hnext
  refine ⟨h.rest, h.command, ?_⟩
  rw [show decide (p + 1 < 3) = decide (p < 2) from decide_eq_decide.2 (by omega)]
  exact hnext

theorem Takes.over (h : l.Takes b f 4) (hi : i.receive = none) :
    (l.cycle i).Waits ∧ (l.cycle i).dbg.bp.breakpoint = f.value ∧
      (l.cycle i).dbg.bp.compare = f.mask := by
  obtain ⟨hnext, -⟩ := h.cycle hi
  have hbp := hnext.bp
  refine ⟨⟨?_, ?_, ?_, hnext.dataComing⟩, ?_, ?_⟩
  · rw [hbp]
    rfl
  · rw [hbp]
    rfl
  · rw [hbp]
    exact h.rest.low
  · rw [hbp]
    rfl
  · rw [hbp]
    rfl

/-! ## `com_debug` sends -/

/-- Byte `k` is the next one, with the sending process in state `n`: 1 to offer it, 2 when it is
offered, 0 behind the byte before. The request is withdrawn at byte 4. -/
structure Sends (l : Link) (k n : ℕ) : Prop where
  le : k ≤ 512
  lt : n = 2 → k < 512
  slcNum : l.dbg.com.slcNum = BitVec.ofNat 16 k
  sender : l.dbg.com.state = n
  signal : l.dbg.com.transmitSignal = decide (n = 2)
  clk : 4 < k ∨ (k = 4 ∧ n ≠ 0) → l.dbg.bp.comDebugClk = false
  edge : 5 ≤ k → l.dbg.com.afterFallingEdge = true

section Steps

variable {k n : ℕ}

theorem bit_four : (BitVec.ofNat 16 4).getLsbD 2 = true := rfl

theorem ofNat_ne_slcMax (h : k < 512) : BitVec.ofNat 16 k ≠ slcMax := by
  intro hn
  have := congrArg BitVec.toNat hn
  rw [BitVec.toNat_ofNat, Nat.mod_eq_of_lt (by omega)] at this
  have : slcMax.toNat = 512 := rfl
  omega

/-- The snapshot is complete when `slc_num` says so. -/
theorem Sends.eq_512 (h : l.Sends k n) (hs : l.dbg.com.slcNum = slcMax) : k = 512 := by
  have hle := h.le
  by_contra hne
  exact ofNat_ne_slcMax (by omega) (h.slcNum.symm.trans hs)

/-- The registers that a cycle reaches when only the sending process moves. -/
theorem Sends.mk_cycle (h : l.Sends k n) (hs : l.Still i) {c : ComDebug} {k' n' : ℕ}
    (hcom : (l.cycle i).dbg.com = c)
    (hedge : c.afterFallingEdge = (!l.dbg.bp.comDebugClk || l.dbg.com.afterFallingEdge))
    (hslc : c.slcNum = BitVec.ofNat 16 k') (hsender : c.state = n')
    (hsig : c.transmitSignal = decide (n' = 2)) (hle : k' ≤ 512) (hlt : n' = 2 → k' < 512)
    (hk : 4 < k' ∨ (k' = 4 ∧ n' ≠ 0) → 4 ≤ k)
    (hk5 : 5 ≤ k' → 5 ≤ k ∨ (k = 4 ∧ n ≠ 0)) : (l.cycle i).Sends k' n' := by
  refine ⟨hle, hlt, ?_, ?_, ?_, fun hn => hs.clk ?_, fun hn => ?_⟩
  · rw [hcom]
    exact hslc
  · rw [hcom]
    exact hsender
  · rw [hcom]
    exact hsig
  · by_cases h4 : k = 4
    · right
      rw [h.slcNum, h4]
      exact bit_four
    · have := hk hn
      exact .inl (h.clk (.inl (by omega)))
  · rw [hcom, hedge]
    rcases hk5 hn with h5 | h4
    · rw [h.edge h5, Bool.or_true]
    · rw [h.clk (.inr h4)]
      rfl

/-- The sending process before a cycle, behind the receiving one. -/
structure Before (c : ComDebug) (l : Link) (i : LinkIn) (k n : ℕ) : Prop where
  starts : c.starts (l.dbg.comIn (l.debugIn i)) = false
  slcNum : c.slcNum = BitVec.ofNat 16 k
  state : c.state = n
  signal : c.transmitSignal = decide (n = 2)
  edge : c.afterFallingEdge = l.dbg.com.afterFallingEdge

theorem Sends.before (h : l.Sends k n) (hk : k < 512) :
    Before (l.dbg.com.receive (l.dbg.comIn (l.debugIn i))) l i k n := by
  obtain ⟨h1, h2, h3, h4⟩ := ComDebug.receive_frame (c := l.dbg.com)
    (i := l.dbg.comIn (l.debugIn i))
  refine ⟨ComDebug.starts_of_slc ?_, h1.trans h.slcNum, h2.trans h.sender, h4.trans h.signal, h3⟩
  rw [h1, h.slcNum]
  exact ofNat_ne_slcMax hk

/-- The transmitter is busy. -/
theorem Sends.wait (h : l.Sends k 1) (hs : l.Still i) (hk : k < 512) (hb : l.tx.busy = true) :
    (l.cycle i).Sends k 1 := by
  have hbef := h.before (i := i) hk
  have hcom := ComDebug.send_1 hbef.starts hbef.state
  rw [if_neg fun hn => absurd (hb.symm.trans hn.1) (by decide), hbef.edge] at hcom
  exact h.mk_cycle hs hcom rfl hbef.slcNum hbef.state hbef.signal h.le h.lt (by omega) .inl

/-- It is idle, and the byte is offered. -/
theorem Sends.offer (h : l.Sends k 1) (hs : l.Still i) (hk : k < 512)
    (hb : l.tx.state = 0b0000#4) :
    (l.cycle i).Sends k 2 ∧ (l.cycle i).tx.state = 0b0000#4 := by
  have hbef := h.before (i := i) hk
  have hready : l.tx.busy = false := by
    rw [Transmitter.busy, Transmitter.ready, hb]
    rfl
  have hlt : (l.dbg.com.receive (l.dbg.comIn (l.debugIn i))).slcNum < slcMax := by
    rw [hbef.slcNum, BitVec.lt_def, BitVec.toNat_ofNat, Nat.mod_eq_of_lt (by omega)]
    exact hk
  have hcom := ComDebug.send_1 hbef.starts hbef.state
  rw [if_pos ⟨hready, hlt⟩, hbef.edge] at hcom
  refine ⟨h.mk_cycle hs hcom rfl hbef.slcNum rfl rfl h.le (fun _ => hk) (by omega) .inl, ?_⟩
  have hsig : l.dbg.com.transmitSignal = false := h.signal
  change (if l.tx.state = _ then _ else _) = _
  rw [if_pos hb, hsig]
  rfl

/-- It is taken. -/
theorem Sends.byte (h : l.Sends k 2) (hs : l.Still i) : (l.cycle i).Sends (k + 1) 0 := by
  have hk := h.lt rfl
  have hbef := h.before (i := i) hk
  have hcom := ComDebug.send_2 hbef.starts hbef.state
  rw [hbef.edge] at hcom
  refine h.mk_cycle hs hcom rfl ?_ rfl rfl (by omega) (by omega) (by omega) (by omega)
  change (l.dbg.com.receive (l.dbg.comIn (l.debugIn i))).slcNum + 1 = _
  rw [hbef.slcNum, BitVec.ofNat_add]
  rfl

theorem Sends.next (h : l.Sends k 0) (hs : l.Still i) (hk : k < 512) :
    (l.cycle i).Sends k 1 := by
  have hbef := h.before (i := i) hk
  have hcom := ComDebug.send_0 hbef.starts hbef.state
  rw [hbef.edge] at hcom
  exact h.mk_cycle hs hcom rfl hbef.slcNum rfl hbef.signal h.le (by omega) (by omega) .inl

/-- Behind the last byte nothing is sent. -/
theorem Sends.parked (h : l.Sends 512 n) (hn : n < 2) : l.dbg.com.Parked := by
  refine ⟨h.slcNum, by rw [h.signal, decide_eq_false (by omega)], ?_, h.edge (by omega)⟩
  rw [h.sender]
  omega

theorem Sends.rest (h : l.Sends 512 n) (hn : n < 2) (hs : l.Still i) :
    ∃ n' < 2, (l.cycle i).Sends 512 n' := by
  have hclk := h.clk (.inl (by omega))
  have hp := cycle_parked (i := i) (h.parked hn) hclk
  have hlt : (l.cycle i).dbg.com.state < 2 := by
    rcases hp.state with h0 | h1 <;> omega
  refine ⟨_, hlt, Nat.le_refl _, by omega, hp.slcNum, rfl, ?_, fun _ => hs.clk (.inl hclk),
    fun _ => hp.afterFallingEdge⟩
  rw [hp.transmitSignal, decide_eq_false (by omega)]

end Steps

/-! ## What is seen of it -/

/-- The breaks are not counted: they may come while a snapshot is sent. -/
def Event.isBreak : Event → Bool
  | .exec f => f.command == 0x02#8
  | _ => false

/-- What happens in a cycle besides breaks. -/
def shown (l : Link) (i : LinkIn) : List Event := (l.events i).filter fun e => !e.isBreak

theorem Still.shown_eq (h : l.Still i) : l.shown i =
    ((l.tx.accepted l.dbg.com.transmitSignal (i.datas l.dbg.com.slcNum)).map
      (.byte l.dbg.com.slcNum)).toList := by
  have hexec : (if l.dbg.bp.state = 0b010#3 then [Event.exec l.dbg.com.comingData] else []).filter
      (fun e => !e.isBreak) = [] := by
    split_ifs with hs
    · simp [Event.isBreak, h.command hs]
    · rfl
  unfold shown events
  rw [h.low, List.filter_append, List.filter_append, hexec]
  cases l.tx.accepted l.dbg.com.transmitSignal (i.datas l.dbg.com.slcNum) <;> rfl

theorem Still.mem_shown (h : l.Still i) {e : Event} (he : e ∈ l.shown i) :
    ∃ v, e = .byte l.dbg.com.slcNum v := by
  rw [h.shown_eq, Option.mem_toList, Option.map_eq_some_iff] at he
  obtain ⟨v, -, rfl⟩ := he
  exact ⟨v, rfl⟩

/-- No byte is taken while none is offered. -/
theorem Sends.shown_nil {k n : ℕ} (h : l.Sends k n) (hs : l.Still i) (hn : n ≠ 2) :
    l.shown i = [] := by
  have hsig : l.dbg.com.transmitSignal = false := by
    rw [h.signal, decide_eq_false hn]
  rw [hs.shown_eq, hsig, Transmitter.accepted, Bool.and_false]
  rfl

theorem Sends.shown_byte {k : ℕ} (h : l.Sends k 2) (hs : l.Still i) (hb : l.tx.state = 0b0000#4) :
    l.shown i = [.byte (BitVec.ofNat 16 k) (i.datas (BitVec.ofNat 16 k))] := by
  have hsig : l.dbg.com.transmitSignal = true := h.signal
  have hready : l.tx.ready = true := by
    rw [Transmitter.ready, hb]
    rfl
  rw [hs.shown_eq, hsig, h.slcNum, Transmitter.accepted, hready]
  rfl

/-! ## A command that moves the target -/

/-- The command that `bp_debug` holds, with nothing being sent. -/
structure Holding (l : Link) (b : BpDebug) (f : Frame) (d : Bool) : Prop where
  holds : l.dbg.Holds b f d
  parked : l.dbg.com.Parked

theorem Completes.holding (h : l.Completes i f) (hr : l.dbg.bp.Resting)
    (hd : l.dbg.com.dataComing = false) (hp : l.dbg.com.Parked) :
    (l.cycle i).Holding l.dbg.bp f true ∧ l.events i = [] := by
  obtain ⟨hnext, hlow⟩ := h.holds hr hd
  refine ⟨⟨hnext, cycle_parked hp hr.comDebugClk⟩, ?_⟩
  rw [events_eq hp.transmitSignal, hlow, hr.state]
  rfl

/-- A cycle of the handshake. -/
theorem Holding.cycle (h : l.Holding b f d) (hi : i.receive = none) (hc : b.comDebugClk = false)
    (hb : b.rise ⟨l.dbg.com.slcNum, d, f, i.monitor⟩ = b') (hl : b'.mClkO = false) :
    (l.cycle i).Holding b' f (d && !b.debugDataRead) ∧
      l.events i = if b.state = 0b010#3 then [.exec f] else [] := by
  have hq : (l.debugIn i).receive = none := hi
  obtain ⟨hnext, hlow⟩ := h.holds.cycle_low hq hb hl
  refine ⟨⟨hnext, cycle_parked h.parked (by rw [h.holds.bp]; exact hc)⟩, ?_⟩
  rw [events_eq h.parked.transmitSignal, hlow, h.holds.bp, h.holds.comingData]
  exact List.append_nil _

/-- It is taken up. -/
theorem Holding.take (h : l.Holding b f true) (hr : b.Resting) (hi : i.receive = none) :
    (l.cycle i).Holding { b with debugDataRead := false, state := 0b010#3 } f true ∧
      l.events i = [] := by
  obtain ⟨hnext, hes⟩ := h.cycle hi hr.comDebugClk
    (BpDebug.rise_001_rest hr.state hr.comDebugClk) hr.low
  rw [hr.debugDataRead] at hnext
  rw [hr.state] at hes
  exact ⟨hnext, hes⟩

/-- The state that a command other than break leads to. -/
def goState (f : Frame) : BitVec 3 :=
  if f.command = 0x01#8 then 0b011#3
  else if f.command = 0x03#8 then 0b100#3
  else if f.command = 0x04#8 then 0b101#3
  else 0b000#3

theorem execute_go (hf : f.command ≠ 0x02#8) : b.execute f = { b with
    debugDataRead := true, state := goState f
    runStep := if f.command = 0x04#8 then f.value else b.runStep } := by
  unfold BpDebug.execute goState
  by_cases h1 : f.command = 0x01#8
  · rw [if_pos h1, if_pos h1, h1]
    rfl
  rw [if_neg h1, if_neg h1, if_neg hf]
  by_cases h3 : f.command = 0x03#8
  · rw [if_pos h3, if_pos h3, h3]
    rfl
  rw [if_neg h3, if_neg h3]
  by_cases h4 : f.command = 0x04#8
  · rw [if_pos h4, if_pos h4, if_pos h4]
  · rw [if_neg h4, if_neg h4, if_neg h4]

/-- It is executed. -/
theorem Holding.exec (hr : b.Resting) (hf : f.command ≠ 0x02#8)
    (h : l.Holding { b with debugDataRead := false, state := 0b010#3 } f true)
    (hi : i.receive = none) :
    (l.cycle i).Holding { b with
        debugDataRead := true, state := goState f
        runStep := if f.command = 0x04#8 then f.value else b.runStep } f true ∧
      l.events i = [.exec f] := by
  obtain ⟨hnext, hes⟩ := h.cycle hi hr.comDebugClk (BpDebug.rise_010 rfl)
    ((BpDebug.execute_mClkO f).trans hr.low)
  rw [execute_go hf] at hnext
  exact ⟨hnext, hes⟩

/-! ## The command is carried out -/

/-- The target may run. A command that is complete now is dropped. -/
structure Busy (l : Link) : Prop where
  debugDataRead : l.dbg.bp.debugDataRead = true
  comDebugClk : l.dbg.bp.comDebugClk = false
  low : l.dbg.bp.mClkO = false
  parked : l.dbg.com.Parked

/-- The command is over. -/
structure Halted (l : Link) : Prop where
  state : l.dbg.bp.state = 0b000#3
  comDebugClk : l.dbg.bp.comDebugClk = false
  low : l.dbg.bp.mClkO = false
  dataComing : l.dbg.com.dataComing = false ∨ l.dbg.bp.debugDataRead = true
  parked : l.dbg.com.Parked

/-- A cycle with a pulse. -/
theorem Busy.cycle_pulse (h : l.Busy) (hs : l.dbg.bp.state ≠ 0b010#3)
    (hb : b.state = 0b011#3 ∨ b.state = 0b101#3) (hl : b.mClkO = false)
    (hd : b.debugDataRead = true) (hc : b.comDebugClk = false)
    (hrise : l.dbg.bp.rise (l.dbg.bpIn (l.debugIn i)) = { b with mClkO1 := !b.mClkO1 }) :
    (l.cycle i).Busy ∧ l.events i = [.pulse] ∧
      (l.cycle i).dbg.bp = { b with mClkO1 := !b.mClkO1, mClkO2 := !b.mClkO2 } := by
  obtain ⟨hhigh, hfall, hlow⟩ := pulse hl hb
  have hbp : (l.cycle i).dbg.bp = { b with mClkO1 := !b.mClkO1, mClkO2 := !b.mClkO2 } := by
    change (l.dbg.bp.rise (l.dbg.bpIn (l.debugIn i))).fall = _
    rw [hrise, hfall]
  have hclk : (l.dbg.rise (l.debugIn i)).clkO = true := by
    change (l.dbg.bp.rise (l.dbg.bpIn (l.debugIn i))).mClkO = true
    rw [hrise]
    exact hhigh
  refine ⟨⟨?_, ?_, ?_, cycle_parked h.parked h.comDebugClk⟩, ?_, hbp⟩
  · rw [hbp]
    exact hd
  · rw [hbp]
    exact hc
  · rw [hbp]
    exact hlow
  · rw [events_eq h.parked.transmitSignal, hclk, if_neg hs]
    rfl

/-- The last cycle. -/
theorem Busy.cycle_stop (h : l.Busy) (hs : l.dbg.bp.state ≠ 0b010#3)
    (hrise : l.dbg.bp.rise (l.dbg.bpIn (l.debugIn i)) = { l.dbg.bp with state := 0b000#3 }) :
    (l.cycle i).Halted ∧ l.events i = [] := by
  obtain ⟨hbp, hlow⟩ := cycle_of_rise hrise h.low
  change (l.cycle i).dbg.bp = _ at hbp
  refine ⟨⟨?_, ?_, ?_, .inl (dataComing_of_read h.debugDataRead),
    cycle_parked h.parked h.comDebugClk⟩, ?_⟩
  · rw [hbp]
  · rw [hbp]
    exact h.comDebugClk
  · rw [hbp]
    exact h.low
  · rw [events_eq h.parked.transmitSignal, hlow, if_neg hs]
    rfl

theorem Busy.cycle_match (h : l.Busy) (hs : l.dbg.bp.state = 0b011#3)
    (hm : (i.monitor ^^^ l.dbg.bp.breakpoint) &&& l.dbg.bp.compare = 0#64) :
    (l.cycle i).Halted ∧ l.events i = [] := by
  have hrise := BpDebug.rise_011 (i := l.dbg.bpIn (l.debugIn i)) hs h.low
  exact h.cycle_stop (by rw [hs]; decide) (hrise.trans (if_pos hm))

theorem Busy.cycle_run (h : l.Busy) (hs : l.dbg.bp.state = 0b011#3)
    (hm : (i.monitor ^^^ l.dbg.bp.breakpoint) &&& l.dbg.bp.compare ≠ 0#64) :
    (l.cycle i).Busy ∧ l.events i = [.pulse] ∧ (l.cycle i).dbg.bp =
      { l.dbg.bp with mClkO1 := !l.dbg.bp.mClkO1, mClkO2 := !l.dbg.bp.mClkO2 } := by
  have hrise := BpDebug.rise_011 (i := l.dbg.bpIn (l.debugIn i)) hs h.low
  exact h.cycle_pulse (by rw [hs]; decide) (.inl hs) h.low h.debugDataRead h.comDebugClk
    (hrise.trans (if_neg hm))

theorem Busy.cycle_first (h : l.Busy) (hs : l.dbg.bp.state = 0b100#3) :
    (l.cycle i).Busy ∧ l.events i = [.pulse] ∧ (l.cycle i).dbg.bp =
      { l.dbg.bp with
        state := 0b011#3, mClkO1 := !l.dbg.bp.mClkO1, mClkO2 := !l.dbg.bp.mClkO2 } :=
  h.cycle_pulse (b := { l.dbg.bp with state := 0b011#3 }) (by rw [hs]; decide) (.inl rfl) h.low
    h.debugDataRead h.comDebugClk (BpDebug.rise_100 hs h.low)

theorem Busy.cycle_last (h : l.Busy) (hs : l.dbg.bp.state = 0b101#3)
    (hz : l.dbg.bp.runStep = 0#64) : (l.cycle i).Halted ∧ l.events i = [] := by
  have hrise := BpDebug.rise_101 (i := l.dbg.bpIn (l.debugIn i)) hs h.low
  exact h.cycle_stop (by rw [hs]; decide) (hrise.trans (if_pos hz))

theorem Busy.cycle_step (h : l.Busy) (hs : l.dbg.bp.state = 0b101#3)
    (hz : l.dbg.bp.runStep ≠ 0#64) :
    (l.cycle i).Busy ∧ l.events i = [.pulse] ∧ (l.cycle i).dbg.bp =
      { l.dbg.bp with
        runStep := l.dbg.bp.runStep - 1#64
        mClkO1 := !l.dbg.bp.mClkO1, mClkO2 := !l.dbg.bp.mClkO2 } := by
  have hrise := BpDebug.rise_101 (i := l.dbg.bpIn (l.debugIn i)) hs h.low
  exact h.cycle_pulse (b := { l.dbg.bp with runStep := l.dbg.bp.runStep - 1#64 })
    (by rw [hs]; decide) (.inr hs) h.low h.debugDataRead h.comDebugClk (hrise.trans (if_neg hz))

/-- The target runs or makes steps. -/
def Moving (l : Link) : Prop :=
  l.dbg.bp.state = 0b011#3 ∨ l.dbg.bp.state = 0b100#3 ∨ l.dbg.bp.state = 0b101#3

theorem Busy.cycle (h : l.Busy) (hs : l.Moving) :
    ((l.cycle i).Busy ∧ (l.cycle i).Moving) ∨ (l.cycle i).Halted := by
  rcases hs with hs | hs | hs
  · by_cases hm : (i.monitor ^^^ l.dbg.bp.breakpoint) &&& l.dbg.bp.compare = 0#64
    · exact .inr (h.cycle_match hs hm).1
    · obtain ⟨hb, -, hbp⟩ := h.cycle_run hs hm
      exact .inl ⟨hb, .inl (by rw [hbp]; exact hs)⟩
  · obtain ⟨hb, -, hbp⟩ := h.cycle_first (i := i) hs
    exact .inl ⟨hb, .inl (by rw [hbp])⟩
  · by_cases hz : l.dbg.bp.runStep = 0#64
    · exact .inr (h.cycle_last hs hz).1
    · obtain ⟨hb, -, hbp⟩ := h.cycle_step (i := i) hs hz
      exact .inl ⟨hb, .inr (.inr (by rw [hbp]; exact hs))⟩

/-! ## What a command does -/

theorem Holding.busy (h : l.Holding b f d) (hr : b.debugDataRead = true)
    (hc : b.comDebugClk = false) (hl : b.mClkO = false) : l.Busy := by
  refine ⟨?_, ?_, ?_, h.parked⟩ <;> rw [h.holds.bp] <;> assumption

theorem Holding.halted (h : l.Holding b f d) (hs : b.state = 0b000#3)
    (hr : b.debugDataRead = true) (hc : b.comDebugClk = false) (hl : b.mClkO = false) :
    l.Halted := by
  refine ⟨?_, ?_, ?_, .inr ?_, h.parked⟩ <;> rw [h.holds.bp] <;> assumption

/-! ## The snapshot is asked for -/

structure Asking (l : Link) : Prop where
  waits : l.Waits
  parked : l.dbg.com.Parked
  comDebugClk : l.dbg.bp.comDebugClk = true

theorem Halted.cycle (h : l.Halted) (hc : ∀ f, ¬ l.Completes i f) :
    (l.cycle i).Asking ∧ l.events i = [] := by
  obtain ⟨hbp, hlow⟩ := cycle_of_rise (i := l.debugIn i) (BpDebug.rise_000 h.state) h.low
  change (l.cycle i).dbg.bp = _ at hbp
  have hd : (l.cycle i).dbg.com.dataComing = false := by
    rcases h.dataComing with hd | hr
    · exact dataComing_of_not_completes hd hc
    · exact dataComing_of_read hr
  refine ⟨⟨⟨?_, ?_, ?_, hd⟩, cycle_parked h.parked h.comDebugClk, ?_⟩, ?_⟩
  · rw [hbp]
  · rw [hbp]
  · rw [hbp]
    exact h.low
  · rw [hbp]
  · rw [events_eq h.parked.transmitSignal, hlow, h.state]
    rfl

theorem Asking.cycle (h : l.Asking) (hc : ∀ f, ¬ l.Completes i f) :
    (l.cycle i).Waits ∧ (l.cycle i).Sends 0 1 ∧ l.events i = [] := by
  obtain ⟨hw, hs⟩ := h.waits.cycle hc
  have hparked := h.parked.receive (i := l.dbg.comIn (l.debugIn i))
  have hcom := hparked.start (i := l.dbg.comIn (l.debugIn i)) h.comDebugClk
  change (l.cycle i).dbg.com = _ at hcom
  refine ⟨hw, ⟨by omega, by omega, ?_, ?_, ?_, by omega, by omega⟩, ?_⟩
  · rw [hcom]
  · rw [hcom]
  · rw [hcom]
    exact hparked.transmitSignal
  · rw [events_eq h.parked.transmitSignal, hs.low, h.waits.state]
    rfl

end Link

end Cadb

end CacheCPU
