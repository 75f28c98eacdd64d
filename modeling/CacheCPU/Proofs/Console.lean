import CacheCPU.Lib.CircularBuffer
import CacheCPU.Ucore.Console
import Mathlib.Tactic.Linarith

/-!
# Console input as a queue

Each buffer holds what has arrived and not been read, in order, as long as no character arrives
that it has no room for. `cons` has room for 511 characters: with the 512th its two positions meet
and all of them are forgotten. `stdin_buffer` has room for 4096, and stores the next one over the
oldest before it looks. Its positions run freely, up to the largest `off_t`.
-/

namespace CacheCPU

namespace Ucore

open CircularBuffer

/-! ## Runs -/

/-- A piece of input handling that interrupts do not break. -/
inductive ConsoleOp where
  /-- `cons_intr`, with what the serial port delivers. -/
  | intr (cs : List (BitVec 8))
  /-- `cons_getc`. -/
  | getc (cs : List (BitVec 8))
  /-- A turn of the handler of `IRQ_COM1`. -/
  | irq (cs : List (BitVec 8))
  /-- `dev_stdin_write`. -/
  | write (c : BitVec 8)
  /-- `dev_stdin_read`, up to where it returns or waits. -/
  | read (len : ℕ)

/-- What goes into the two buffers, and what the reads return. -/
structure ConsoleIo where
  consIn : List (BitVec 8)
  consOut : List (BitVec 8)
  stdinIn : List (BitVec 8)
  stdinOut : List (BitVec 8)

/-- The characters other than NUL. -/
def nonNul (cs : List (BitVec 8)) : List (BitVec 8) := cs.filter (· ≠ 0#8)

namespace Console

def step (s : Console) : ConsoleOp → Console × ConsoleIo
  | .intr cs => (s.consIntr cs, ⟨cs, [], [], []⟩)
  | .getc cs => ((s.consGetc cs).2, ⟨cs, nonNul [(s.consGetc cs).1], [], []⟩)
  | .irq cs => ((s.irqTurn cs).2,
      ⟨cs, nonNul [(s.irqTurn cs).1], nonNul [(s.irqTurn cs).1], []⟩)
  | .write c => (s.devStdinWrite c, ⟨[], [], [c], []⟩)
  | .read len => ((s.devStdinRead len).2, ⟨[], [], [], (s.devStdinRead len).1⟩)

def run (s : Console) : List ConsoleOp → Console × ConsoleIo
  | [] => (s, ⟨[], [], [], []⟩)
  | op :: ops =>
    let (s, io) := s.step op
    let (s, ios) := s.run ops
    (s, ⟨io.consIn ++ ios.consIn, io.consOut ++ ios.consOut, io.stdinIn ++ ios.stdinIn,
      io.stdinOut ++ ios.stdinOut⟩)

/-- The buffers as they are set up, whatever the arrays hold. -/
def boot (buf : ℕ → BitVec 8) (stdinBuffer : ℤ → BitVec 8) : Console :=
  ⟨buf, 0, 0, stdinBuffer, 0, 0⟩

/-- How many characters wait in `cons`, by its positions. -/
def consCount (s : Console) : ℕ := (s.wpos + consbufsize - s.rpos) % consbufsize

/-- What successive calls of `cons_getc` would return. -/
def consUnread (s : Console) : List (BitVec 8) :=
  (List.range s.consCount).map fun i => s.buf ((s.rpos + i) % consbufsize)

/-- What `dev_stdin_read` would return. -/
def stdinUnread (s : Console) : List (BitVec 8) :=
  (List.range (s.pWpos - s.pRpos).toNat).map fun i : ℕ =>
    s.stdinBuffer ((s.pRpos + i).tmod stdinBufsize)

/-- The next character does not make the positions of `cons` meet. -/
def ConsRoom (s : Console) : Prop := s.consCount < 511

/-- The next character does not find `stdin_buffer` full, nor `p_wpos` at its largest value. -/
def StdinRoom (s : Console) : Prop := s.pWpos - s.pRpos < stdinBufsize ∧ s.pWpos < 2 ^ 31 - 1

/-- There is room for each character that is delivered. -/
def ConsRoomFor (s : Console) : List (BitVec 8) → Prop
  | [] => True
  | c :: cs => (c ≠ 0#8 → s.ConsRoom) ∧ (s.consPut c).ConsRoomFor cs

def Room (s : Console) : ConsoleOp → Prop
  | .intr cs | .getc cs => s.ConsRoomFor cs
  | .irq cs => s.ConsRoomFor cs ∧ ((s.consGetc cs).1 ≠ 0#8 → s.StdinRoom)
  | .write c => c ≠ 0#8 → s.StdinRoom
  | .read _ => True

def RoomRun (s : Console) : List ConsoleOp → Prop
  | [] => True
  | op :: ops => s.Room op ∧ (s.step op).1.RoomRun ops

/-! ## `cons` -/

/-- `cons` holds `xs`. -/
structure ConsHolds (s : Console) (xs : List (BitVec 8)) : Prop where
  rpos : s.rpos < 512
  wpos : s.wpos = (s.rpos + xs.length) % 512
  length : xs.length < 512
  window : Window s.buf 512 s.rpos xs
  nonNul : ∀ c ∈ xs, c ≠ 0#8

variable {s : Console} {xs ys : List (BitVec 8)} {c : BitVec 8}

theorem ConsHolds.consCount (h : s.ConsHolds xs) : s.consCount = xs.length := by
  have h1 := h.rpos
  have h2 := h.wpos
  have h3 := h.length
  unfold Console.consCount consbufsize
  omega

/-- A position that goes back to the front is one modulo the size. -/
theorem wrap_eq {pos : ℕ} (h : pos < 512) :
    (if pos + 1 = consbufsize then 0 else pos + 1) = (pos + 1) % 512 := by
  unfold consbufsize
  split_ifs <;> omega

theorem ConsHolds.consPut (h : s.ConsHolds xs) (hr : c ≠ 0#8 → s.ConsRoom) :
    (s.consPut c).ConsHolds (xs ++ Ucore.nonNul [c]) := by
  unfold Console.consPut
  by_cases hc : c ≠ 0#8
  · have hlen : xs.length < 511 := by
      rw [← h.consCount]
      exact hr hc
    have h1 := h.rpos
    have h2 := h.wpos
    have hn : Ucore.nonNul [c] = [c] := by simp [Ucore.nonNul, hc]
    rw [if_pos hc, hn, wrap_eq (by omega)]
    refine ⟨h1, ?_, ?_, ?_, ?_⟩
    · rw [List.length_append, List.length_singleton]
      simp only
      omega
    · rw [List.length_append, List.length_singleton]
      omega
    · rw [h2]
      exact h.window.push (by omega)
    · intro d hd
      rcases List.mem_append.1 hd with hd | hd
      · exact h.nonNul d hd
      · rw [List.mem_singleton.1 hd]
        exact hc
  · have hn : Ucore.nonNul [c] = [] := by simpa [Ucore.nonNul] using hc
    rwa [if_neg hc, hn, List.append_nil]

theorem ConsHolds.consIntr : ∀ (cs : List (BitVec 8)) (s : Console) (xs : List (BitVec 8)),
    s.ConsHolds xs → s.ConsRoomFor cs → (s.consIntr cs).ConsHolds (xs ++ Ucore.nonNul cs)
  | [], s, xs, h, _ => by simpa [Console.consIntr, Ucore.nonNul] using h
  | c :: cs, s, xs, h, hr => by
    have := ConsHolds.consIntr cs (s.consPut c) _ (h.consPut hr.1) hr.2
    rw [List.append_assoc, Ucore.nonNul, Ucore.nonNul, ← List.filter_append] at this
    exact this

/-- What `cons_getc` returns is the oldest character. -/
theorem ConsHolds.consGetc (h : s.ConsHolds xs) {cs : List (BitVec 8)} (hr : s.ConsRoomFor cs) :
    ∃ ys, (s.consGetc cs).2.ConsHolds ys ∧
      xs ++ Ucore.nonNul cs = Ucore.nonNul [(s.consGetc cs).1] ++ ys := by
  have h' := ConsHolds.consIntr cs s xs h hr
  unfold Console.consGetc
  simp only
  generalize s.consIntr cs = t at h'
  generalize xs ++ Ucore.nonNul cs = zs at h'
  have h1 := h'.rpos
  have h2 := h'.wpos
  have h3 := h'.length
  cases zs with
  | nil =>
    have he : ¬ t.rpos ≠ t.wpos := by
      rw [List.length_nil] at h2
      omega
    rw [if_neg he]
    exact ⟨[], h', by simp [Ucore.nonNul]⟩
  | cons x zs =>
    have he : t.rpos ≠ t.wpos := by
      rw [List.length_cons] at h2 h3
      omega
    rw [if_pos he, wrap_eq h1]
    have hx : t.buf t.rpos = x := by
      have := h'.window.head
      rwa [Nat.mod_eq_of_lt h1] at this
    have hx0 : x ≠ 0#8 := h'.nonNul x (by simp)
    refine ⟨zs, ⟨?_, ?_, ?_, ?_, fun d hd => h'.nonNul d (by simp [hd])⟩, ?_⟩
    · simp only
      omega
    · rw [List.length_cons] at h2
      simp only
      omega
    · rw [List.length_cons] at h3
      omega
    · exact h'.window.tail.congr (Nat.mod_mod _ _).symm
    · simp [Ucore.nonNul, hx, hx0]

/-! ## `stdin_buffer` -/

/-- `stdin_buffer` holds `ys`. -/
structure StdinHolds (s : Console) (ys : List (BitVec 8)) : Prop where
  nonneg : 0 ≤ s.pRpos
  pWpos : s.pWpos = s.pRpos + ys.length
  lt : s.pWpos < 2 ^ 31
  window : Window (fun i : ℕ => s.stdinBuffer i) 4096 s.pRpos.toNat ys

/-- A position that has not run out. -/
theorem incr_eq {pos : ℤ} (h0 : 0 ≤ pos) (h : pos < 2 ^ 31 - 1) : incr pos = pos + 1 := by
  unfold incr
  rw [Int.bmod_eq_of_le_mul_two] <;> omega

theorem StdinHolds.devStdinWrite (h : s.StdinHolds ys) (hr : c ≠ 0#8 → s.StdinRoom) :
    (s.devStdinWrite c).StdinHolds (ys ++ Ucore.nonNul [c]) := by
  unfold Console.devStdinWrite
  by_cases hc : c ≠ 0#8
  · obtain ⟨hroom, hlt⟩ := hr hc
    have h1 := h.nonneg
    have h2 := h.pWpos
    have hlen : ys.length < 4096 := by
      unfold stdinBufsize at hroom
      omega
    have hn : Ucore.nonNul [c] = [c] := by simp [Ucore.nonNul, hc]
    have hidx : s.pWpos.tmod stdinBufsize = ((s.pRpos.toNat + ys.length) % 4096 : ℕ) := by
      unfold stdinBufsize
      rw [Int.tmod_eq_emod_of_nonneg (by omega)]
      omega
    simp only [if_pos hc, if_pos hroom]
    rw [hn]
    refine ⟨h1, ?_, ?_, ?_⟩
    · simp only [incr_eq (show 0 ≤ s.pWpos by omega) hlt, List.length_append, List.length_singleton]
      omega
    · simp only [incr_eq (show 0 ≤ s.pWpos by omega) hlt]
      omega
    · have hw := h.window.push (x := c) hlen
      refine ⟨hw.le, fun i hi => ?_⟩
      rw [← hw.get i hi]
      simp only [hidx, Function.update_apply, Nat.cast_inj]
  · have hn : Ucore.nonNul [c] = [] := by simpa [Ucore.nonNul] using hc
    rwa [if_neg hc, hn, List.append_nil]

/-- In a full buffer the character takes the place of the oldest one. -/
theorem StdinHolds.devStdinWrite_full {y : BitVec 8} (h : s.StdinHolds (y :: ys))
    (hfull : ys.length = 4095) (hc : c ≠ 0#8) : (s.devStdinWrite c).StdinHolds (c :: ys) := by
  have h1 := h.nonneg
  have h2 := h.pWpos
  rw [List.length_cons] at h2
  have hroom : ¬ s.pWpos - s.pRpos < stdinBufsize := by
    unfold stdinBufsize
    omega
  have hidx : s.pWpos.tmod stdinBufsize = (s.pRpos.toNat % 4096 : ℕ) := by
    unfold stdinBufsize
    rw [Int.tmod_eq_emod_of_nonneg (by omega)]
    omega
  unfold Console.devStdinWrite
  simp only [if_pos hc, if_neg hroom]
  refine ⟨h1, by simpa using h.pWpos, h.lt, by simp [hfull], fun i hi => ?_⟩
  simp only [hidx, Function.update_apply, Nat.cast_inj]
  cases i with
  | zero => simp
  | succ i =>
    rw [List.length_cons] at hi
    have hne : (s.pRpos.toNat + (i + 1)) % 4096 ≠ s.pRpos.toNat % 4096 := by omega
    rw [if_neg hne]
    exact h.window.get (i + 1) hi

theorem StdinHolds.devStdinRead : ∀ (len : ℕ) (s : Console) (ys : List (BitVec 8)),
    s.StdinHolds ys → ∃ zs, (s.devStdinRead len).2.StdinHolds zs ∧
      ys = (s.devStdinRead len).1 ++ zs
  | 0, s, ys, h => ⟨ys, h, rfl⟩
  | len + 1, s, ys, h => by
    have h1 := h.nonneg
    have h2 := h.pWpos
    have h3 := h.lt
    cases ys with
    | nil =>
      have he : ¬ s.pRpos < s.pWpos := by
        rw [List.length_nil] at h2
        omega
      rw [Console.devStdinRead, if_neg he]
      exact ⟨[], h, rfl⟩
    | cons y ys =>
      rw [List.length_cons] at h2
      have he : s.pRpos < s.pWpos := by omega
      have hinc : incr s.pRpos = s.pRpos + 1 := incr_eq h1 (by omega)
      have hy : s.stdinBuffer (s.pRpos.tmod stdinBufsize) = y := by
        rw [← h.window.head]
        unfold stdinBufsize
        rw [Int.tmod_eq_emod_of_nonneg h1]
        congr 1
        omega
      have h' : ({ s with pRpos := incr s.pRpos } : Console).StdinHolds ys := by
        rw [hinc]
        refine ⟨by simp only; omega, by simp only; omega, h3, ?_⟩
        refine h.window.tail.congr ?_
        simp only
        congr 1
        omega
      obtain ⟨zs, hz, hys⟩ := StdinHolds.devStdinRead len _ ys h'
      rw [Console.devStdinRead, if_pos he]
      exact ⟨zs, hz, by rw [hy, List.cons_append, ← hys]⟩

/-! ## The two buffers do not share anything -/

/-- `cons` is as in `s`. -/
structure SameCons (s t : Console) : Prop where
  buf : t.buf = s.buf
  rpos : t.rpos = s.rpos
  wpos : t.wpos = s.wpos

/-- `stdin_buffer` is as in `s`. -/
structure SameStdin (s t : Console) : Prop where
  stdinBuffer : t.stdinBuffer = s.stdinBuffer
  pRpos : t.pRpos = s.pRpos
  pWpos : t.pWpos = s.pWpos

variable {t : Console}

theorem ConsHolds.congr (h : s.ConsHolds xs) (hs : SameCons s t) : t.ConsHolds xs :=
  ⟨hs.rpos ▸ h.rpos, by rw [hs.wpos, hs.rpos]; exact h.wpos, h.length,
    by rw [hs.buf, hs.rpos]; exact h.window, h.nonNul⟩

theorem StdinHolds.congr (h : s.StdinHolds ys) (hs : SameStdin s t) : t.StdinHolds ys :=
  ⟨hs.pRpos ▸ h.nonneg, by rw [hs.pWpos, hs.pRpos]; exact h.pWpos, hs.pWpos ▸ h.lt,
    by rw [hs.stdinBuffer, hs.pRpos]; exact h.window⟩

theorem StdinRoom.congr (h : s.StdinRoom) (hs : SameStdin s t) : t.StdinRoom := by
  unfold StdinRoom
  rw [hs.pWpos, hs.pRpos]
  exact h

theorem SameStdin.trans {u : Console} (h : SameStdin s t) (h' : SameStdin t u) : SameStdin s u :=
  ⟨h'.stdinBuffer.trans h.stdinBuffer, h'.pRpos.trans h.pRpos, h'.pWpos.trans h.pWpos⟩

theorem sameStdin_consIntr : ∀ (cs : List (BitVec 8)) (s : Console), SameStdin s (s.consIntr cs)
  | [], s => ⟨rfl, rfl, rfl⟩
  | c :: cs, s => by
    have h : SameStdin s (s.consPut c) := by
      unfold consPut
      split
      · exact ⟨rfl, rfl, rfl⟩
      · exact ⟨rfl, rfl, rfl⟩
    exact h.trans (sameStdin_consIntr cs (s.consPut c))

theorem sameStdin_consGetc (cs : List (BitVec 8)) : SameStdin s (s.consGetc cs).2 := by
  refine (sameStdin_consIntr cs s).trans ?_
  unfold consGetc
  simp only
  split_ifs <;> exact ⟨rfl, rfl, rfl⟩

theorem sameCons_devStdinWrite (c : BitVec 8) : SameCons s (s.devStdinWrite c) := by
  unfold Console.devStdinWrite
  simp only
  split_ifs <;> exact ⟨rfl, rfl, rfl⟩

theorem sameCons_devStdinRead : ∀ (len : ℕ) (s : Console), SameCons s (s.devStdinRead len).2
  | 0, s => ⟨rfl, rfl, rfl⟩
  | len + 1, s => by
    unfold Console.devStdinRead
    split_ifs
    · obtain ⟨h1, h2, h3⟩ := sameCons_devStdinRead len { s with pRpos := incr s.pRpos }
      exact ⟨h1, h2, h3⟩
    · exact ⟨rfl, rfl, rfl⟩

/-! ## Every run -/

theorem step_holds (hx : s.ConsHolds xs) (hy : s.StdinHolds ys) (op : ConsoleOp) (hr : s.Room op) :
    ∃ xs' ys', (s.step op).1.ConsHolds xs' ∧ (s.step op).1.StdinHolds ys' ∧
      xs ++ Ucore.nonNul (s.step op).2.consIn = (s.step op).2.consOut ++ xs' ∧
      ys ++ Ucore.nonNul (s.step op).2.stdinIn = (s.step op).2.stdinOut ++ ys' := by
  cases op with
  | intr cs =>
    refine ⟨_, ys, hx.consIntr cs s xs hr, hy.congr (sameStdin_consIntr cs s), rfl, ?_⟩
    simp [step, Ucore.nonNul]
  | getc cs =>
    obtain ⟨zs, hz, heq⟩ := hx.consGetc hr
    refine ⟨zs, ys, hz, hy.congr (sameStdin_consGetc cs), heq, ?_⟩
    simp [step, Ucore.nonNul]
  | irq cs =>
    obtain ⟨zs, hz, heq⟩ := hx.consGetc hr.1
    have hy' := hy.congr (sameStdin_consGetc cs)
    have hw := hy'.devStdinWrite (c := (s.consGetc cs).1) fun hc =>
      (hr.2 hc).congr (sameStdin_consGetc cs)
    have hirq : (s.irqTurn cs).2 = (s.consGetc cs).2.devStdinWrite (s.consGetc cs).1 := by
      unfold irqTurn
      by_cases hc : (s.consGetc cs).1 ≠ 0#8
      · simp [hc]
      · simp only [if_neg hc]
        rw [devStdinWrite, if_neg hc]
    have hc : (s.irqTurn cs).1 = (s.consGetc cs).1 := rfl
    have hidem : Ucore.nonNul (Ucore.nonNul [(s.consGetc cs).1]) =
        Ucore.nonNul [(s.consGetc cs).1] := by
      simp [Ucore.nonNul]
    refine ⟨zs, ys ++ Ucore.nonNul [(s.consGetc cs).1], ?_, ?_, ?_, ?_⟩
    · change (s.irqTurn cs).2.ConsHolds zs
      rw [hirq]
      exact hz.congr (sameCons_devStdinWrite _)
    · change (s.irqTurn cs).2.StdinHolds _
      rw [hirq]
      exact hw
    · exact heq
    · change ys ++ Ucore.nonNul (Ucore.nonNul [(s.irqTurn cs).1]) = [] ++ _
      rw [hc, hidem, List.nil_append]
  | write c =>
    refine ⟨xs, _, hx.congr (sameCons_devStdinWrite c), hy.devStdinWrite hr, ?_, rfl⟩
    simp [step, Ucore.nonNul]
  | read len =>
    obtain ⟨zs, hz, heq⟩ := hy.devStdinRead len s ys
    refine ⟨xs, zs, hx.congr (sameCons_devStdinRead len s), hz, ?_, ?_⟩
    · simp [step, Ucore.nonNul]
    · simpa [step, Ucore.nonNul] using heq

theorem run_holds : ∀ (ops : List ConsoleOp) (s : Console) (xs ys : List (BitVec 8)),
    s.ConsHolds xs → s.StdinHolds ys → s.RoomRun ops →
      ∃ xs' ys', (s.run ops).1.ConsHolds xs' ∧ (s.run ops).1.StdinHolds ys' ∧
        xs ++ Ucore.nonNul (s.run ops).2.consIn = (s.run ops).2.consOut ++ xs' ∧
        ys ++ Ucore.nonNul (s.run ops).2.stdinIn = (s.run ops).2.stdinOut ++ ys'
  | [], s, xs, ys, hx, hy, _ => ⟨xs, ys, hx, hy, by simp [run, Ucore.nonNul],
      by simp [run, Ucore.nonNul]⟩
  | op :: ops, s, xs, ys, hx, hy, hr => by
    obtain ⟨xs₁, ys₁, hx₁, hy₁, hxe, hye⟩ := step_holds hx hy op hr.1
    obtain ⟨xs₂, ys₂, hx₂, hy₂, hxe₂, hye₂⟩ := run_holds ops _ xs₁ ys₁ hx₁ hy₁ hr.2
    have happ : ∀ a b : List (BitVec 8), Ucore.nonNul (a ++ b) = Ucore.nonNul a ++ Ucore.nonNul b :=
      fun a b => List.filter_append ..
    refine ⟨xs₂, ys₂, hx₂, hy₂, ?_, ?_⟩
    · change xs ++ Ucore.nonNul ((s.step op).2.consIn ++ ((s.step op).1.run ops).2.consIn) =
        ((s.step op).2.consOut ++ ((s.step op).1.run ops).2.consOut) ++ xs₂
      rw [happ, ← List.append_assoc, hxe, List.append_assoc, hxe₂, List.append_assoc]
    · change ys ++ Ucore.nonNul ((s.step op).2.stdinIn ++ ((s.step op).1.run ops).2.stdinIn) =
        ((s.step op).2.stdinOut ++ ((s.step op).1.run ops).2.stdinOut) ++ ys₂
      rw [happ, ← List.append_assoc, hye, List.append_assoc, hye₂, List.append_assoc]

theorem ConsHolds.consUnread (h : s.ConsHolds xs) : s.consUnread = xs := by
  refine List.ext_getElem (by simp [Console.consUnread, h.consCount]) fun i h1 h2 => ?_
  simp only [Console.consUnread, List.getElem_map, List.getElem_range]
  exact h.window.get i h2

theorem StdinHolds.stdinUnread (h : s.StdinHolds ys) : s.stdinUnread = ys := by
  have h1 := h.nonneg
  have h2 := h.pWpos
  refine List.ext_getElem ?_ fun i h3 h4 => ?_
  · simp only [Console.stdinUnread, List.length_map, List.length_range]
    omega
  · simp only [Console.stdinUnread, List.getElem_map, List.getElem_range]
    rw [← h.window.get i h4]
    unfold stdinBufsize
    rw [Int.tmod_eq_emod_of_nonneg (by omega)]
    congr 1
    omega

/-- In a run in which every character finds room, what the reads return is what has arrived, in
order, and the rest of it waits in the buffer. -/
theorem fifo (buf : ℕ → BitVec 8) (stdinBuffer : ℤ → BitVec 8) (ops : List ConsoleOp)
    (hr : (boot buf stdinBuffer).RoomRun ops) :
    let r := (boot buf stdinBuffer).run ops
    r.2.consOut ++ r.1.consUnread = Ucore.nonNul r.2.consIn ∧
      r.2.stdinOut ++ r.1.stdinUnread = Ucore.nonNul r.2.stdinIn := by
  have hx : (boot buf stdinBuffer).ConsHolds [] :=
    ⟨by simp [boot], rfl, by simp, Window.nil, by simp⟩
  have hy : (boot buf stdinBuffer).StdinHolds [] :=
    ⟨le_refl 0, rfl, by simp [boot], Window.nil⟩
  obtain ⟨xs, ys, hx', hy', hxe, hye⟩ := run_holds ops _ [] [] hx hy hr
  intro r
  rw [hx'.consUnread, hy'.stdinUnread]
  exact ⟨hxe.symm, hye.symm⟩

/-- Two characters arrive, the handler moves the first, and it is read. -/
theorem fifo_two :
    let ops : List ConsoleOp := [.intr [97#8, 98#8], .irq [], .read 1]
    let r := (boot (fun _ => 0) (fun _ => 0)).run ops
    (boot (fun _ => 0) (fun _ => 0)).RoomRun ops ∧
      r.2.consOut ++ r.1.consUnread = Ucore.nonNul r.2.consIn ∧
      r.2.stdinOut ++ r.1.stdinUnread = Ucore.nonNul r.2.stdinIn := by
  intro ops r
  have hr : (boot (fun _ => 0) (fun _ => 0)).RoomRun ops := by
    refine ⟨⟨fun _ => ?_, fun _ => ?_, trivial⟩, ⟨trivial, fun _ => ⟨?_, ?_⟩⟩, trivial, trivial⟩
    · change consCount _ < 511
      decide +kernel
    · change consCount _ < 511
      decide +kernel
    · decide +kernel
    · decide +kernel
  exact ⟨hr, fifo _ _ ops hr⟩

/-- 512 characters arrive in the 512 slots of `cons`, and `cons_getc` finds none. -/
theorem not_fifo_cons :
    let r := (boot (fun _ => 0) (fun _ => 0)).run [.intr (List.replicate 512 97#8), .getc []]
    Ucore.nonNul r.2.consIn = List.replicate 512 97#8 ∧ r.2.consOut = [] ∧
      r.1.consUnread = [] := by
  decide +kernel

end Console

end Ucore

end CacheCPU
