import CacheCPU.Lib.Stutter
import CacheCPU.Proofs.Lookup
import CacheCPU.Proofs.Stall

/-!
# Latency and the requests of a stage

On every timing the CPU passes through the states that it passes through on a device that answers
at once. A stage that accesses memory sends one request, unless it faults or reads the serial
status word; but a read of a page without `D` sends none either.
-/

namespace CacheCPU

/-- The device answers at once. -/
def Timing.prompt : Timing := ⟨fun _ => 0, fun _ _ => 0#32⟩

namespace World

variable {σ : Type} (D : Device σ) (T : Timing) (w : World σ)

/-! ## What is claimed -/

/-- The states at the points that the first `n` cycles pass. -/
def history (n : ℕ) : List (Arch σ) := Stutter.trace (step D T) (point D T) w n

/-- Every timing gives the same sequence of states, which does not end. -/
def Insensitive : Prop :=
  (∀ T T' n n', w.history D T n <+: w.history D T' n' ∨ w.history D T' n' <+: w.history D T n) ∧
    ∀ T k, ∃ n, k ≤ (w.history D T n).length

/-- The machine before the edge of cycle `n`. -/
def before (n : ℕ) : Machine := (w.run D T n).machine D T

/-- What leaves in cycle `n` and the `j` after it. -/
def issued (n : ℕ) : ℕ → List Request
  | 0 => (w.run D T (n + 1)).cpu.sent
  | j + 1 => issued n j ++ (w.run D T (n + 1 + (j + 1))).cpu.sent

/-- A stage that is entered in cycle `n` and stalls for `j` cycles sends one request, or none if
`Exc` follows or the address is that of the serial status word. -/
def SingleIssue : Prop :=
  ∀ n j, (w.before D T n).Accesses →
    (∀ i < j, (w.before D T (n + 1 + i)).phy.ready = false) →
    (w.before D T (n + 1 + j)).phy.ready = true →
    if (w.before D T (n + 1 + j)).state = .exc ∨ (w.before D T n).access = virtualSerialStatus then
      w.issued D T n j = []
    else (w.issued D T n j).length = 1

end World

/-- The stages of the instruction `word`. -/
def stagesOf (word : BitVec 32) : List Status :=
  [Status.insF, Status.insD, Status.exe] ++
    (if first word ∈ [F.lw, F.lb, F.lbu, F.lhu, F.sw, F.sb] then [Status.mem1] else []) ++
    (if first word = F.sb then [Status.mem2] else []) ++ [Status.writeB]

namespace World

variable {σ : Type} (D : Device σ) (T : Timing) (w : World σ)

/-- An instruction that completes passes through its stages, and one that `Exc` ends through the
first of them. -/
def Ordered : Prop :=
  ∀ n, ((w.run D T n).cpu.oldState = .writeB →
      w.stages D T n = stagesOf (w.run D T n).cpu.id.insReg) ∧
    ∃ l, l <+: stagesOf (w.run D T n).cpu.id.insReg ∧
      (w.stages D T n = l ∨ w.stages D T n = l ++ [.exc])

end World

/-- The stage reads a page that is mapped without `D`. -/
def Machine.ReadsReadOnly (m : Machine) : Prop :=
  m.reads = true ∧ m.access ≠ virtualSerialStatus ∧
    misaligned m.cpu.id.alignType m.access = false ∧
    tlbMissing m.cpu.mmu.tlbMem m.access = false ∧ tlbWritable m.cpu.mmu.tlbMem m.access = false

namespace World

variable {σ : Type} {D : Device σ} {T T' : Timing} {w a c : World σ}

/-! ## Runs -/

theorem ready_machine : (w.machine D T).phy.ready = true ↔ w.wait = 0 := by
  simp only [machine, out]
  split_ifs with h <;> simp [h]

theorem data_machine (h : (w.machine D T).phy.ready = true) :
    (w.machine D T).phy.data = D.data w.dev := by
  simp [machine, out, ready_machine.1 h]

theorem machine_step (D : Device σ) (T : Timing) (w : World σ) :
    (w.machine D T).Step ((w.step D T).machine D T) := by
  refine .cycle _ (w.out D T (w.wait - 1)) _ (fun hr => ?_) fun hr hno => ?_
  · have hw := ready_machine.1 hr
    simp [out, hw]
  · have hw := ready_machine.1 hr
    refine ready_machine.2 ?_
    have hsent : (w.cpu.cycle (w.out D T w.wait) (w.out D T (w.wait - 1))).sent = [] :=
      Cpu.sent_of_requests hno
    simp only [step, hsent, if_true]
    omega

theorem run_succ (D : Device σ) (T : Timing) (w : World σ) (n : ℕ) :
    w.run D T (n + 1) = (w.run D T n).step D T :=
  Function.iterate_succ_apply' ..

theorem before_step (D : Device σ) (T : Timing) (w : World σ) (n : ℕ) :
    (w.before D T n).Step (w.before D T (n + 1)) := by
  rw [before, before, run_succ]
  exact machine_step D T _

theorem reachable_start (hw : w.IsStart) : (w.machine D T).Reachable :=
  .reset ⟨hw.1, ready_machine.2 hw.2⟩

theorem reachable_before (hw : w.IsStart) (n : ℕ) : (w.before D T n).Reachable := by
  induction n with
  | zero => exact reachable_start hw
  | succ n ih => exact ih.step (before_step D T w n)

/-- A stalled cycle sends nothing and brings the end of the stall nearer. -/
theorem step_stall (hr : (w.machine D T).Reachable) (hs : w.wait ≠ 0) :
    (w.step D T).dev = w.dev ∧ (w.step D T).wait < w.wait := by
  have hb : (w.machine D T).phy.ready = false := by
    simpa using mt ready_machine.1 hs
  have hno : (w.cpu.cycle (w.out D T w.wait) (w.out D T (w.wait - 1))).sent = [] :=
    Cpu.sent_of_requests (Machine.requests_stall hr.control hb _)
  simp only [step, hno, List.foldl_nil, if_true, true_and]
  omega

/-! ## The prompt device is followed -/

/-- What the world `a` and the world `c` on a prompt device have in common. -/
structure Follows (D : Device σ) (T : Timing) (a c : World σ) : Prop where
  dev : a.dev = c.dev
  cpu : Same a.cpu c.cpu
  wait : c.wait = 0
  left : (a.machine D T).Reachable
  right : (c.machine D .prompt).Reachable

theorem follows_stall (h : Follows D T a c) (hs : a.wait ≠ 0) :
    Follows D T (a.step D T) c ∧ a.point D T = [] := by
  have hb : (a.machine D T).phy.ready = false := by
    simpa using mt ready_machine.1 hs
  refine ⟨⟨(step_stall h.left hs).1.trans h.dev, ?_, h.wait, h.left.step (machine_step D T a),
    h.right⟩, ?_⟩
  · exact (Machine.same_stall h.left hb).trans h.cpu
  · have hst := (h.left.control.state_busy hb).2
    rw [point, if_neg]
    rintro (hx | hx) <;> simp [hx, Mmu.isInsFOrMem] at hst

theorem arch_eq (hdev : a.dev = c.dev) (hcpu : Same a.cpu c.cpu) : a.arch = c.arch := by
  unfold arch
  rw [hcpu.pcReg, hcpu.pcToMmu, hcpu.archRegs, hcpu.alu, hcpu.reg, hcpu.tlbMem, hdev]

theorem follows_step (h : Follows D T a c) (hs : a.wait = 0) :
    Follows D T (a.step D T) (c.step D .prompt) ∧ a.point D T = c.point D .prompt := by
  have hout : a.out D T 0 = c.out D .prompt 0 := by
    simp [out, h.dev]
  have hl := h.left.control
  have hr := h.right.control
  simp only [machine, hs, h.wait, hout] at hl hr
  have hcpu : Same (a.step D T).cpu (c.step D .prompt).cpu := by
    simp only [step, hs, h.wait, hout]
    exact h.cpu.cycle hl hr
  have hsent : (a.step D T).cpu.sent = (c.step D .prompt).cpu.sent := by
    simp only [step, hs, h.wait, hout]
    exact h.cpu.sent_cycle
  have hdev : (a.step D T).dev = (c.step D .prompt).dev := by
    change (a.step D T).cpu.sent.foldl D.serve a.dev = _
    rw [hsent, h.dev]
    rfl
  have hstate : (a.machine D T).state = (c.machine D .prompt).state := by
    simp only [machine, Machine.state, hs, h.wait, hout]
    exact h.cpu.state
  refine ⟨⟨hdev, hcpu, ?_, h.left.step (machine_step D T a), h.right.step (machine_step D _ c)⟩, ?_⟩
  · simp [step, h.wait, Timing.prompt]
  · rw [point, point, hstate, arch_eq hdev hcpu]

/-- The run on any timing goes through the states of the prompt one. -/
theorem history_eq (hw : w.IsStart) (n : ℕ) : w.history D T n =
    w.history D .prompt (Stutter.advances (step D T) (fun a => a.wait != 0) w n) := by
  refine (Stutter.simulation (R := Follows D T) (fun a c h hs => ?_) (fun a c h hs => ?_)
    ⟨rfl, .refl _, hw.2, reachable_start hw, reachable_start hw⟩ n).2
  · exact follows_stall h (by simpa using hs)
  · exact follows_step h (by simpa using hs)

/-- The number of stages before `WriteB` or `Exc`. -/
def rank : Status → ℕ
  | .insF => 5
  | .insD => 4
  | .exe => 3
  | .mem1 => 2
  | .mem2 => 1
  | .writeB => 0
  | .exc => 0

theorem rank_succ (s : Cpu) {st : Status} (h : st ≠ .writeB) (h' : st ≠ .exc) :
    rank (s.succ st) < rank st := by
  cases st <;> simp only [Cpu.succ] <;> (try split_ifs) <;> simp_all [rank]

/-- Each stage of the prompt device is followed by a later one. -/
theorem rank_step (hw : c.wait = 0)
    (h : c.point D .prompt = []) :
    rank ((c.step D .prompt).machine D .prompt).state < rank (c.machine D .prompt).state := by
  have hne : (c.machine D .prompt).state ≠ .writeB ∧ (c.machine D .prompt).state ≠ .exc := by
    rw [point] at h
    split_ifs at h with hp
    simpa using hp
  have hold : ((c.step D .prompt).machine D .prompt).cpu.oldState = (c.machine D .prompt).state :=
    rfl
  have hready : ((c.step D .prompt).machine D .prompt).phy.ready = true :=
    ready_machine.2 (by simp [step, hw, Timing.prompt])
  have hpos : 0 < rank (c.machine D .prompt).state := by
    cases hs : (c.machine D .prompt).state <;> simp_all [rank]
  obtain ⟨q, hcpu, -, -⟩ := Machine.step_cases (machine_step D .prompt c)
  rcases ((c.step D .prompt).machine D .prompt).state_cases with ⟨hb, -⟩ | ⟨-, -, hs⟩ | ⟨-, -, hs⟩
  · simp [hready] at hb
  · rw [hs]
    exact hpos
  · rw [hs, (Machine.control_next hcpu).1, hold]
    exact rank_succ _ hne.1 hne.2

theorem history_unbounded (hw : w.IsStart) (T : Timing) (k : ℕ) :
    ∃ n, k ≤ (w.history D T n).length := by
  -- the prompt run comes to a point again and again
  obtain ⟨j, hj⟩ := Stutter.advances_unbounded (f := step D .prompt)
    (fun c => (c.point D .prompt).isEmpty) (μ := fun c => rank (c.machine D .prompt).state)
    (P := fun c => c.wait = 0) (fun c hc => by simp [step, hc, Timing.prompt])
    (fun c hc hs => rank_step hc (by simpa using hs)) hw.2 k
  have hlen : k ≤ (w.history D .prompt j).length := by
    refine hj.trans (Stutter.advances_le_length (fun c hc => ?_) w j)
    simpa using hc
  -- and the other one gets there
  obtain ⟨n, hn⟩ := Stutter.advances_unbounded (f := step D T) (fun a => a.wait != 0)
    (μ := wait) (P := fun a => (a.machine D T).Reachable)
    (fun a ha => ha.step (machine_step D T a))
    (fun a ha hs => (step_stall ha (by simpa using hs)).2) (reachable_start hw) j
  refine ⟨n, hlen.trans ?_⟩
  rw [history_eq (T := T) hw]
  exact (Stutter.trace_prefix _ _ _ hn).length_le

theorem insensitive (hw : w.IsStart) : w.Insensitive D := by
  refine ⟨fun T T' n n' => ?_, history_unbounded hw⟩
  rw [history_eq hw, history_eq (T := T') hw]
  rcases Nat.le_total (Stutter.advances (step D T) (fun a => a.wait != 0) w n)
    (Stutter.advances (step D T') (fun a => a.wait != 0) w n') with h | h
  · exact .inl (Stutter.trace_prefix _ _ _ h)
  · exact .inr (Stutter.trace_prefix _ _ _ h)

/-! ## The requests of a stage -/

end World

namespace Machine

variable {m : Machine}

theorem memOp_of_isMem {f : BitVec 6} (h : isMem f = true) :
    (memOp f).getLsbD 2 = true ∨ (memOp f).getLsbD 1 = true := by
  simp only [isMem, Bool.or_eq_true, beq_iff_eq] at h
  rcases h with ((((rfl | rfl) | rfl) | rfl) | rfl) | rfl <;> decide

theorem Control.reads_or_writes (hc : Control m) (h : m.Accesses) :
    m.reads = true ∨ m.writes = true := by
  have hst := h.2
  cases hs : m.state <;> simp only [hs, Mmu.isInsFOrMem, Bool.false_eq_true] at hst
  · simp [reads, hs]
  · obtain ⟨hl, h1, -⟩ := hc.latched (hc.inFlight_before (by rw [hs]; rfl) (by simp [hs]))
    rw [hasMem1_of_state hc hs] at h1
    have hop := memOp_of_isMem h1.symm
    rw [← hl.memOp] at hop
    cases hb : m.cpu.id.memOp.getLsbD 2 <;> simp_all [reads, writes]
  · simp [writes, hs]

theorem issues_readOnly (h : m.ReadsReadOnly) (data : BitVec 32) :
    m.fault = none ∧ m.request data = [] := by
  obtain ⟨hr, -, hal, hmiss, hwr⟩ := h
  simp [fault, request, passes, hal, hmiss, hwr, writes_of_reads hr]

theorem issues (hc : Control m) (h : m.Accesses) (hro : ¬m.ReadsReadOnly) (data : BitVec 32) :
    if m.fault.isSome ∨ m.access = virtualSerialStatus then m.request data = []
    else (m.request data).length = 1 := by
  have hrw := hc.reads_or_writes h
  by_cases hx : m.access = virtualSerialStatus
  · simp [request, hx]
  cases hp : m.passes with
  | true =>
    simp only [passes, Bool.and_eq_true, Bool.not_eq_true'] at hp
    have hf : m.fault = none := by simp [fault, hp]
    have hq : m.passes = true := by simp [passes, hp]
    rcases hrw with hr | hr
    · simp [hf, hx, request, hq, hr]
    · cases hr' : m.reads <;> simp [hf, hx, request, hq, hr, hr']
  | false =>
    have hf : m.fault.isSome = true := by
      simp only [passes, Bool.and_eq_false_iff, Bool.not_eq_false'] at hp
      unfold fault
      split_ifs with h1 h2 h3 h4 h5 h6 h7 h8 <;> simp_all [ReadsReadOnly]
    simp [hf, request, hp]

end Machine

namespace World

variable {σ : Type} {D : Device σ} {T T' : Timing} {w a c : World σ}

theorem stage_issued {n j : ℕ} (hb : ∀ i < j, (w.before D T (n + 1 + i)).phy.ready = false) :
    (w.before D T n).Stage (w.issued D T n j) (w.before D T (n + 1 + j)) := by
  induction j with
  | zero => exact .enter (before_step D T w n)
  | succ j ih =>
    exact .stall (ih fun i hi => hb i (by omega)) (hb j (by omega)) (before_step D T w (n + 1 + j))


theorem singleIssue_iff (hw : w.IsStart) : w.SingleIssue D T ↔
    ∀ n, (w.before D T n).Accesses → ¬(w.before D T n).ReadsReadOnly := by
  constructor
  · intro h n hacc hro
    have hr := reachable_before (D := D) (T := T) hw n
    have hs := stage_issued (D := D) (T := T) (w := w) (n := n) (j := 0) (by simp)
    obtain ⟨data, hreq⟩ := hs.requests hr hacc
    obtain ⟨hf, hno⟩ := Machine.issues_readOnly hro data
    -- nothing is sent, so the stage ends at once
    have hready : (w.before D T (n + 1)).phy.ready = true := by
      have hwait : (w.run D T n).wait = 0 := ready_machine.1 hacc.1
      have hsent : (w.run D T (n + 1)).cpu.sent = [] := hreq.trans hno
      rw [run_succ] at hsent
      refine ready_machine.2 ?_
      rw [run_succ]
      change (if ((w.run D T n).step D T).cpu.sent = [] then _ else _) = 0
      rw [if_pos hsent, hwait]
    have hst := hs.state_eq hr hacc hready
    rw [hf] at hst
    have hlen := h n 0 hacc (by simp) hready
    rw [if_neg, hreq, hno] at hlen
    · simp at hlen
    · rintro (hx | hx)
      · exact Cpu.succ_ne_exc (hst.symm.trans hx)
      · exact hro.2.1 hx
  · intro h n j hacc hb he
    have hr := reachable_before (D := D) (T := T) hw n
    have hs := stage_issued hb
    obtain ⟨data, hreq⟩ := hs.requests hr hacc
    have hone := Machine.issues hr.control hacc (h n hacc) data
    have hst := hs.state_eq hr hacc he
    have hexc : (w.before D T (n + 1 + j)).state = .exc ↔
        (w.before D T n).fault.isSome = true := by
      rw [hst]
      split_ifs with hf
      · simp [hf]
      · simpa [hf] using Cpu.succ_ne_exc
    simpa only [hreq, hexc] using hone

/-! ## The order of the stages -/

theorem isMem_iff {f : BitVec 6} :
    isMem f = true ↔ f ∈ [F.lw, F.lb, F.lbu, F.lhu, F.sw, F.sb] := by
  simp [isMem, or_assoc]

/-- `has_mem1` and `has_mem2` say which stages an instruction has. -/
theorem stagesOf_eq {m : Machine} (hc : m.Control) (h : inFlight m.cpu.oldState = true) :
    stagesOf m.cpu.id.insReg = [Status.insF, Status.insD, Status.exe] ++
      (if m.cpu.hasMem1 then [Status.mem1] else []) ++
      (if m.cpu.hasMem2 then [Status.mem2] else []) ++ [Status.writeB] := by
  obtain ⟨-, h1, h2⟩ := hc.latched h
  simp only [stagesOf, h1, h2, isMem_iff, beq_iff_eq]

/-- The stages of an instruction up to one of them. -/
def upTo (word : BitVec 32) : Status → List Status
  | .insF => [.insF]
  | .insD => [.insF, .insD]
  | .exe => [.insF, .insD, .exe]
  | .mem1 => [.insF, .insD, .exe, .mem1]
  | .mem2 => [.insF, .insD, .exe, .mem1, .mem2]
  | _ => stagesOf word

/-- A stage after `InsD` comes next after the one before it. -/
theorem upTo_succ {m : Machine} (hc : m.Control) (hfl : inFlight m.state = true)
    (hd : m.state ≠ .insD) (hr : m.phy.ready = true) :
    upTo m.cpu.id.insReg m.state = upTo m.cpu.id.insReg m.cpu.oldState ++ [m.state] := by
  have hold := hc.inFlight_before hfl hd
  have hall := stagesOf_eq hc hold
  have hs : m.state = m.cpu.succ m.cpu.oldState := by
    rcases hc.state_cases with ⟨hb, -⟩ | ⟨-, -, hs⟩ | ⟨-, -, hs⟩ | ⟨-, -, hs⟩
    · simp [hr] at hb
    · simp [hs, inFlight] at hfl
    · exact hs
    · simp [hs, inFlight] at hfl
  have hsb : m.cpu.hasMem2 = true → m.cpu.hasMem1 = true := by
    obtain ⟨-, h1, h2⟩ := hc.latched hold
    rw [h1, h2]
    exact isMem_of_sb
  rw [hs] at hfl ⊢
  cases ho : m.cpu.oldState <;> rw [ho] at hfl hold
  case insD => rfl
  case exe => cases h1 : m.cpu.hasMem1 <;> simp_all [Cpu.succ, upTo]
  case mem1 => cases h2 : m.cpu.hasMem2 <;> simp_all [Cpu.succ, upTo, hc.mem1 ho]
  case mem2 => simp_all [Cpu.succ, upTo, hc.mem2 ho]
  all_goals simp [Cpu.succ, inFlight] at hfl hold

theorem upTo_prefix {m : Machine} (hc : m.Control) :
    upTo m.cpu.id.insReg m.cpu.oldState <+: stagesOf m.cpu.id.insReg := by
  cases ho : m.cpu.oldState
  case mem1 => simp [upTo, stagesOf_eq hc (by rw [ho]; rfl), hc.mem1 ho]
  case mem2 =>
    have h1 : m.cpu.hasMem1 = true := by
      obtain ⟨-, h1, h2⟩ := hc.latched (by rw [ho]; rfl)
      rw [h1]
      exact isMem_of_sb (h2.symm.trans (hc.mem2 ho))
    simp [upTo, stagesOf_eq hc (by rw [ho]; rfl), hc.mem2 ho, h1]
  all_goals simp [upTo, stagesOf]

/-- What has been passed through when cycle `n` begins. -/
def Passed (D : Device σ) (T : Timing) (w : World σ) (n : ℕ) : Prop :=
  if (w.before D T n).cpu.oldState = .exc then
    ∃ l, l <+: stagesOf (w.before D T n).cpu.id.insReg ∧ w.stages D T n = l ++ [.exc]
  else w.stages D T n = upTo (w.before D T n).cpu.id.insReg (w.before D T n).cpu.oldState ∨
    ((w.before D T n).IsReset ∧ w.stages D T n = [])

theorem passed_succ (hw : w.IsStart) {n : ℕ} (h : Passed D T w n) : Passed D T w (n + 1) := by
  have hc := (reachable_before (D := D) (T := T) hw n).control
  obtain ⟨q, hcpu, -, -⟩ := Machine.step_cases (before_step D T w n)
  have hold : (w.before D T (n + 1)).cpu.oldState = (w.before D T n).state := by rw [hcpu]; rfl
  have hword : (w.before D T n).state ≠ .insD →
      (w.before D T (n + 1)).cpu.id.insReg = (w.before D T n).cpu.id.insReg :=
    Machine.insReg_cycle hcpu
  have hready : (w.run D T n).wait = 0 ↔ (w.before D T n).phy.ready = true := ready_machine.symm
  cases hr : (w.before D T n).phy.ready with
  | false =>
    obtain ⟨hs, hst⟩ := hc.state_busy hr
    have hx : (w.before D T n).cpu.oldState ≠ .exc := by
      intro hx
      simp [hs, hx, Mmu.isInsFOrMem] at hst
    have hd : (w.before D T n).state ≠ .insD := by
      intro hd
      simp [hd, Mmu.isInsFOrMem] at hst
    rw [Passed, if_neg hx] at h
    rw [Passed, hold, hs, if_neg hx, hword hd, stages, if_neg (by simp [hready, hr])]
    rcases h with h | ⟨hres, -⟩
    · exact .inl h
    · simp [hres.2] at hr
  | true =>
    by_cases hf : (w.before D T n).state = .insF
    · rw [Passed, hold, hf, if_neg (by simp), stages, if_pos (hready.2 hr)]
      exact .inl (if_pos hf)
    have hsnoc : w.stages D T (n + 1) = w.stages D T n ++ [(w.before D T n).state] := by
      rw [stages, if_pos (hready.2 hr)]
      exact if_neg hf
    have hnres : ¬(w.before D T n).IsReset := fun hres => hf hres.fetches.1
    -- `InsF` alone comes after `Exc`
    have hx : (w.before D T n).cpu.oldState ≠ .exc := by
      intro hx
      have := (hc.state_quiet (by simp [hx, Mmu.isInsFOrMem]) (by simp [hx]) (by simp [hx])).2
      exact hf (by rw [this, hx]; rfl)
    rw [Passed, if_neg hx] at h
    have hpre := h.resolve_right fun hres => hnres hres.1
    by_cases he : (w.before D T n).state = .exc
    · rw [Passed, hold, if_pos he, hsnoc, he, hword (by simp [he])]
      exact ⟨_, by rw [hpre]; exact upTo_prefix hc, rfl⟩
    · rw [Passed, hold, if_neg he, hsnoc, hpre]
      refine .inl ?_
      by_cases hd : (w.before D T n).state = .insD
      · rcases hc.inFlight_cases (by rw [hd]; rfl) with ⟨-, ho⟩ | ⟨hnd, -⟩
        · rw [hd, ho]
          rfl
        · exact absurd hd hnd
      · have hfl : inFlight (w.before D T n).state = true := by
          cases hs : (w.before D T n).state <;> simp_all [inFlight]
        rw [hword hd, upTo_succ hc hfl hd hr]

theorem passed (hw : w.IsStart) (n : ℕ) : Passed D T w n := by
  induction n with
  | zero =>
    have hres : (w.before D T 0).IsReset := ⟨hw.1, ready_machine.2 hw.2⟩
    rw [Passed, if_neg (by rw [hres.1.oldState]; simp)]
    exact .inr ⟨hres, rfl⟩
  | succ n ih => exact passed_succ hw ih

theorem ordered (hw : w.IsStart) : w.Ordered D T := by
  intro n
  have hcpu : (w.run D T n).cpu = (w.before D T n).cpu := rfl
  have hc := (reachable_before (D := D) (T := T) hw n).control
  have h := passed (D := D) (T := T) hw n
  rw [Passed] at h
  rw [hcpu]
  split_ifs at h with hx
  · obtain ⟨l, hl, hst⟩ := h
    exact ⟨fun ho => by simp [ho] at hx, l, hl, .inr hst⟩
  · rcases h with h | ⟨hres, h⟩
    · refine ⟨fun ho => ?_, _, upTo_prefix hc, .inl h⟩
      rw [h, ho]
      rfl
    · exact ⟨fun ho => by simp [hres.1.oldState] at ho, [], by simp, .inl h⟩

/-- Latency does not show and the stages are in order; a stage issues its one request unless it
reads a page that is mapped without `D`. -/
theorem latency_iff (hw : w.IsStart) :
    (w.Insensitive D ∧ ∀ T, w.SingleIssue D T ∧ w.Ordered D T) ↔
      ∀ T n, (w.before D T n).Accesses → ¬(w.before D T n).ReadsReadOnly := by
  constructor
  · rintro ⟨-, h⟩ T
    exact (singleIssue_iff hw).1 (h T).1
  · exact fun h => ⟨insensitive hw, fun T => ⟨(singleIssue_iff hw).2 (h T), ordered hw⟩⟩

/-! ## A program that maps nothing, and one that maps a page without `D` -/

/-- Every read answers `addiu r1, r0, 1`. -/
def addsOne : Device Unit := ⟨fun _ _ => (), fun _ => 0x24010001#32, fun _ => false⟩

def atStart {σ : Type} (d : σ) : World σ := ⟨Machine.atReset.cpu, d, 0, 0⟩

theorem atStart_isStart {σ : Type} (d : σ) : (atStart d).IsStart :=
  ⟨Machine.atReset_isReset.1, rfl⟩

/-- No other word is executed, and the TLB stays empty. -/
theorem addsOne_tlb (T : Timing) (n : ℕ) :
    (inFlight ((atStart ()).before addsOne T n).cpu.oldState = true →
      ((atStart ()).before addsOne T n).cpu.id.insReg = 0x24010001#32) ∧
    ((atStart ()).before addsOne T n).cpu.mmu.tlbMem = fun _ => 0#63 := by
  induction n with
  | zero =>
    refine ⟨fun h => ?_, rfl⟩
    have hold : ((atStart ()).before addsOne T 0).cpu.oldState = .insF := rfl
    simp [hold, inFlight] at h
  | succ n ih =>
    have hr := reachable_before (D := addsOne) (T := T) (atStart_isStart ()) n
    obtain ⟨q, hcpu, -, -⟩ := Machine.step_cases (before_step addsOne T (atStart ()) n)
    generalize hm : (atStart ()).before addsOne T n = m at ih hr hcpu
    have hdata : m.phy.ready = true → m.phy.data = 0x24010001#32 := by
      rw [← hm]
      exact data_machine
    have hc := hr.control
    have hs : ((atStart ()).before addsOne T (n + 1)).cpu.oldState = m.state := by rw [hcpu]; rfl
    constructor
    · intro hfl
      rw [hs] at hfl
      by_cases hd : m.state = .insD
      · obtain ⟨hready, hnext⟩ : m.phy.ready = true ∧ m.cpu.nextState = .insD := by
          rcases m.state_cases with ⟨hb, -⟩ | ⟨-, -, hx⟩ | ⟨hready, -, hn⟩
          · have := (hc.state_busy hb).2
            simp [hd, Mmu.isInsFOrMem] at this
          · simp [hd] at hx
          · exact ⟨hready, hn.symm.trans hd⟩
        have hreg : m.cpu.mmu.stateReg = .insF := by
          rcases hc.next with ⟨hn, hreg, -⟩ | ⟨-, hn, -⟩
          · rw [hreg]
            exact Cpu.succ_eq_insD.1 (hn.symm.trans hnext)
          · simp [hnext] at hn
        have hd' : m.cpu.state m.phy = .insD := hd
        have hi : m.cpu.instrFromMmu m.phy = 0x24010001#32 := by
          rw [Cpu.instrFromMmu, Mmu.instruction, if_pos (.inl hreg), hdata hready]
        rw [hcpu, Cpu.cycle_id, hd', hi]
        rfl
      · rw [Machine.insReg_cycle hcpu hd]
        exact ih.1 (hc.inFlight_before hfl hd)
    · have hno : ¬(m.cpu.state m.phy = .exe ∧ m.cpu.id.tlbwiEnable = true) := by
        rintro ⟨he, ht⟩
        have he' : m.state = .exe := he
        have hfl := hc.inFlight_before (by rw [he']; rfl) (by simp [he'])
        rw [(hc.latched hfl).1.tlbwiEnable, ih.1 hfl] at ht
        exact absurd ht (by decide)
      rw [hcpu, Cpu.cycle_mmu, ← ih.2]
      exact if_neg hno

/-- An address that an empty TLB translates may be written. -/
theorem tlbWritable_empty {addr : BitVec 32} (h : tlbMissing (fun _ => 0#63) addr = false) :
    tlbWritable (fun _ => 0#63) addr = true := by
  cases hm : notUseMmu addr with
  | true => simp [tlbWritable, hm]
  | false =>
    obtain ⟨i, -, hv⟩ := (tlbMissing_eq_false hm).1 h
    simp [validOf] at hv

theorem latency_addsOne : (atStart ()).Insensitive addsOne ∧
    ∀ T, (atStart ()).SingleIssue addsOne T ∧ (atStart ()).Ordered addsOne T := by
  refine (latency_iff (atStart_isStart ())).2 fun T n _ hro => ?_
  obtain ⟨-, -, -, hmiss, hwr⟩ := hro
  rw [(addsOne_tlb T n).2] at hmiss hwr
  simp [tlbWritable_empty hmiss] at hwr

/-- A ROM that keeps the address of the last read. -/
def rom (ws : List (BitVec 32)) : Device (BitVec 24) where
  serve a
    | .read addr => addr
    | .write _ _ => a
  data a := ws.getD (a.extractLsb 9 0).toNat 0#32
  serial _ := false

/-- The page at `0x2000` is mapped with `V` only and read. -/
def readsReadOnly : Device (BitVec 24) :=
  rom [0x24012000#32, 0x40815000#32, 0x24020002#32, 0x40821000#32, 0x42000002#32, 0x8c230000#32]

theorem not_latency : ¬ ∀ (σ : Type) (D : Device σ) (w : World σ), w.IsStart →
    w.Insensitive D ∧ ∀ T, w.SingleIssue D T ∧ w.Ordered D T := by
  intro h
  have hone : (atStart 0#24).SingleIssue readsReadOnly .prompt :=
    ((h _ readsReadOnly (atStart 0#24) (atStart_isStart _)).2 .prompt).1
  have hacc : ((atStart 0#24).before readsReadOnly .prompt 23).Accesses :=
    ⟨by decide +kernel, by decide +kernel⟩
  have hro : ((atStart 0#24).before readsReadOnly .prompt 23).ReadsReadOnly := by
    unfold Machine.ReadsReadOnly
    decide +kernel
  exact (singleIssue_iff (atStart_isStart _)).1 hone 23 hacc hro

end World

end CacheCPU
