import CacheCPU.Proofs.Snapshot

/-!
# Commands and snapshots

`bp_debug` takes the next command as soon as it has seen that the last snapshot has begun, and drops
one that is complete while the target runs. So commands and snapshots fit together as long as the
last byte of a command comes when `bp_debug` waits, and that of a command which moves the target
when the snapshot before it is over. Then the command is executed, its pulses are made, and the 512
bytes are taken with the clock at rest. Breaks may come while a snapshot is sent.
-/

namespace CacheCPU

namespace Cadb

namespace Link

open Debug

variable {l : Link} {is : ℕ → LinkIn} {t k n : ℕ} {f : Frame} {b : BpDebug}

/-! ## What comes -/

/-- What the receiver and the baud generator do: bytes are at least eleven cycles apart, and the
ticks go on. -/
structure Serial (is : ℕ → LinkIn) : Prop where
  apart : ∀ {t t'}, t < t' → (is t).receive ≠ none → (is t').receive ≠ none → t + 11 ≤ t'
  ticks : ∀ t, ∃ t', t ≤ t' ∧ (is t').bitTick = true

/-- The last byte of a command comes when `bp_debug` waits and, unless it is a break, the snapshot
before it is over. -/
def Orderly (l : Link) (is : ℕ → LinkIn) : Prop :=
  ∀ t f, (l.after is t).Completes (is t) f → (l.after is t).dbg.bp.Resting ∧
    (f.command ≠ 0x02#8 → (l.after is t).dbg.com.slcNum = slcMax)

theorem Serial.quiet (h : Serial is) (ht : (is t).receive ≠ none) {s : ℕ} (hs : t < s)
    (hlt : s < t + 11) : (is s).receive = none := by
  by_contra hn
  have := h.apart hs ht hn
  omega

theorem Completes.receive_ne {i : LinkIn} (h : l.Completes i f) : i.receive ≠ none := by
  obtain ⟨-, x, hx, -⟩ := h
  rw [hx]
  simp

theorem Completes.command {i : LinkIn} (h : l.Completes i f) :
    f.command = l.dbg.com.comingData 0 := by
  obtain ⟨-, x, -, rfl⟩ := h
  rfl

/-! ## What has happened -/

/-- What has happened besides breaks. -/
def record (l : Link) (is : ℕ → LinkIn) (t : ℕ) : List Event :=
  (l.history is t).filter fun e => !e.isBreak

theorem record_succ (l : Link) (is : ℕ → LinkIn) (t : ℕ) :
    l.record is (t + 1) = l.record is t ++ (l.after is t).shown (is t) :=
  List.filter_append _ _

/-- From cycle `t` on `es` happens, and then `P` holds. -/
def Leads (l : Link) (is : ℕ → LinkIn) (t : ℕ) (es : List Event) (P : ℕ → Prop) : Prop :=
  ∃ t', t ≤ t' ∧ P t' ∧ l.record is t' = l.record is t ++ es

section Leads

variable {es es' : List Event} {P Q : ℕ → Prop}

theorem Leads.trans (h : l.Leads is t es P) (hnext : ∀ t', t ≤ t' → P t' → l.Leads is t' es' Q) :
    l.Leads is t (es ++ es') Q := by
  obtain ⟨t', ht, hp, hes⟩ := h
  obtain ⟨t'', ht', hq, hes'⟩ := hnext t' ht hp
  exact ⟨t'', ht.trans ht', hq, by rw [hes', hes, List.append_assoc]⟩

/-- One cycle. -/
theorem Leads.one (hes : (l.after is t).shown (is t) = es) (h : P (t + 1)) :
    l.Leads is t es P :=
  ⟨t + 1, Nat.le_succ t, h, by rw [record_succ, hes]⟩

/-- One cycle, and then more. -/
theorem Leads.cons (hes : (l.after is t).shown (is t) = es) (h : l.Leads is (t + 1) es' P) :
    l.Leads is t (es ++ es') P := by
  obtain ⟨t', ht, hp, hes'⟩ := h
  exact ⟨t', (Nat.le_succ t).trans ht, hp, by rw [hes', record_succ, hes, List.append_assoc]⟩

theorem shown_of_events {i : LinkIn} (h : l.events i = es) :
    l.shown i = es.filter fun e => !e.isBreak := by
  rw [shown, h]

end Leads

/-! ## Between the commands that move the target -/

/-- `bp_debug` waits, or takes up a break behind which nothing comes. -/
def Listens (l : Link) (is : ℕ → LinkIn) (t : ℕ) : Prop :=
  (l.after is t).Waits ∨ ∃ b f p, p < 5 ∧ (l.after is t).Takes b f p ∧
    ∀ s, t ≤ s → s + p < t + 5 → (is s).receive = none

theorem Listens.cycle (hser : Serial is) (hord : l.Orderly is) (h : l.Listens is t)
    (hgo : ∀ f, (l.after is t).Completes (is t) f → f.command = 0x02#8) :
    l.Listens is (t + 1) ∧ (l.after is t).Still (is t) := by
  rcases h with hw | ⟨b, f, p, hp, ht, hq⟩
  · by_cases hc : ∃ f, (l.after is t).Completes (is t) f
    · obtain ⟨f, hf⟩ := hc
      obtain ⟨hnext, hs⟩ := hw.loads (hord t f hf).1 hf (hgo f hf)
      refine ⟨.inr ⟨_, f, 0, by omega, hnext, fun s hle hlt => ?_⟩, hs⟩
      exact hser.quiet hf.receive_ne (by omega) (by omega)
    · obtain ⟨hnext, hs⟩ := hw.cycle fun f hf => hc ⟨f, hf⟩
      exact ⟨.inl hnext, hs⟩
  · have hi := hq t (Nat.le_refl t) (by omega)
    refine ⟨?_, ht.still hi⟩
    by_cases h4 : p < 4
    · exact .inr ⟨b, f, p + 1, by omega, ht.next hi h4, fun s hle hlt =>
        hq s (by omega) (by omega)⟩
    · obtain rfl : p = 4 := by omega
      exact .inl (ht.over hi).1

/-- Byte `k` is the next one. -/
structure Calm (l : Link) (is : ℕ → LinkIn) (k n t : ℕ) : Prop where
  listens : l.Listens is t
  sends : (l.after is t).Sends k n
  le : n ≤ 2

/-- The bytes `vs` in the places from `k` on. -/
def bytesFrom (k : ℕ) : List (BitVec 8) → List Event
  | [] => []
  | v :: vs => .byte (BitVec.ofNat 16 k) v :: bytesFrom (k + 1) vs

section Snapshot

variable (hser : Serial is) (hord : l.Orderly is)
include hser hord

/-- Before the last byte only breaks come. -/
theorem Calm.cycle (h : l.Calm is k n t) (hk : k < 512) :
    l.Listens is (t + 1) ∧ (l.after is t).Still (is t) := by
  refine h.listens.cycle hser hord fun f hf => ?_
  by_contra hne
  have := h.sends.eq_512 ((hord t f hf).2 hne)
  omega

theorem Calm.wait (h : l.Calm is k 1 t) (hk : k < 512)
    (hb : (l.after is t).tx.state ≠ 0b0000#4) :
    l.Calm is k 1 (t + 1) ∧ (l.after is t).shown (is t) = [] ∧
      (l.after is (t + 1)).tx.state = if (is t).bitTick then
        Transmitter.next (l.after is t).tx.state else (l.after is t).tx.state := by
  obtain ⟨hl, hs⟩ := h.cycle hser hord hk
  have hbusy : (l.after is t).tx.busy = true := by
    rw [Transmitter.busy, Transmitter.ready, beq_eq_false_iff_ne.2 hb]
    rfl
  refine ⟨⟨hl, h.sends.wait hs hk hbusy, h.le⟩, h.sends.shown_nil hs (by omega), ?_⟩
  have hsig : (l.after is t).dbg.com.transmitSignal = false := h.sends.signal
  change (Transmitter.tick _ (l.after is t).dbg.com.transmitSignal _ _).state = _
  rw [hsig, Transmitter.tick_state, if_neg hb]

/-- The transmitter goes on. -/
theorem Calm.idles (h : l.Calm is k 1 t) (hk : k < 512)
    (hb : (l.after is t).tx.state ≠ 0b0000#4) :
    l.Leads is t [] fun s => l.Calm is k 1 s ∧
      Transmitter.left (l.after is s).tx.state < Transmitter.left (l.after is t).tx.state := by
  obtain ⟨t', ht, htick⟩ := hser.ticks t
  induction hd : t' - t generalizing t with
  | zero =>
    obtain rfl : t = t' := by omega
    obtain ⟨hnext, hes, htx⟩ := h.wait hser hord hk hb
    rw [if_pos htick] at htx
    exact .one hes ⟨hnext, by rw [htx]; exact Transmitter.left_next _ hb⟩
  | succ d ih =>
    obtain ⟨hnext, hes, htx⟩ := h.wait hser hord hk hb
    by_cases hnow : (is t).bitTick = true
    · rw [if_pos hnow] at htx
      exact .one hes ⟨hnext, by rw [htx]; exact Transmitter.left_next _ hb⟩
    · rw [if_neg hnow] at htx
      have hlater := ih hnext (by rw [htx]; exact hb) (by omega) (by omega)
      rw [htx] at hlater
      exact .cons hes hlater

/-- Byte `k` is offered when the transmitter has finished the byte before. -/
theorem Calm.offers (h : l.Calm is k 1 t) (hk : k < 512) :
    l.Leads is t [] fun s => l.Calm is k 2 s ∧ (l.after is s).tx.state = 0b0000#4 := by
  induction hm : Transmitter.left (l.after is t).tx.state using Nat.strong_induction_on
    generalizing t with
  | _ m ih =>
    by_cases hb : (l.after is t).tx.state = 0b0000#4
    · obtain ⟨hl, hs⟩ := h.cycle hser hord hk
      obtain ⟨hnext, htx⟩ := h.sends.offer hs hk hb
      exact .one (h.sends.shown_nil hs (by omega)) ⟨⟨hl, hnext, Nat.le_refl 2⟩, htx⟩
    · refine (h.idles hser hord hk hb).trans fun s _ hs => ?_
      exact ih _ (by rw [← hm]; exact hs.2) hs.1 rfl

theorem Calm.shoots (h : l.Calm is k 1 t) (hk : k < 512) :
    ∃ v, l.Leads is t [.byte (BitVec.ofNat 16 k) v] (l.Calm is (k + 1) 0) := by
  obtain ⟨s, hle, ⟨hc, htx⟩, hrec⟩ := h.offers hser hord hk
  obtain ⟨hl, hs⟩ := hc.cycle hser hord hk
  refine ⟨(is s).datas (BitVec.ofNat 16 k), s + 1, by omega, ⟨hl, hc.sends.byte hs, by omega⟩, ?_⟩
  rw [record_succ, hc.sends.shown_byte hs htx, hrec, List.append_nil]

/-- The bytes from `k` on are taken one after the other. -/
theorem Calm.snapshot (h : l.Calm is k 1 t) (hk : k < 512) :
    ∃ vs, vs.length + k = 512 ∧ l.Leads is t (bytesFrom k vs) (l.Calm is 512 0) := by
  induction hd : 511 - k generalizing k t with
  | zero =>
    obtain rfl : k = 511 := by omega
    obtain ⟨v, hv⟩ := h.shoots hser hord hk
    exact ⟨[v], rfl, hv⟩
  | succ d ih =>
    obtain ⟨v, hv⟩ := h.shoots hser hord hk
    obtain ⟨s, hle, hc, hrec⟩ := hv
    obtain ⟨hl, hs⟩ := hc.cycle hser hord (by omega)
    have hnext : l.Calm is (k + 1) 1 (s + 1) :=
      ⟨hl, hc.sends.next hs (by omega), by omega⟩
    obtain ⟨vs, hlen, hlead⟩ := ih hnext (by omega) (by omega)
    have hrest : l.Leads is s (bytesFrom (k + 1) vs) (l.Calm is 512 0) :=
      .cons (hc.sends.shown_nil hs (by omega)) hlead
    refine ⟨v :: vs, by rw [List.length_cons]; omega, ?_⟩
    exact Leads.trans ⟨s, hle, rfl, hrec⟩ fun s' _ hs' => hs' ▸ hrest

end Snapshot

/-! ## A command moves the target -/

section Target

variable {v c : BitVec 64}

/-- The target runs until the monitor matches. -/
theorem leads_run {j : ℕ} (hm : ((is j).monitor ^^^ v) &&& c = 0#64) (hj : t ≤ j)
    (hb : (l.after is t).Busy) (hs : (l.after is t).dbg.bp.state = 0b011#3)
    (hv : (l.after is t).dbg.bp.breakpoint = v) (hc : (l.after is t).dbg.bp.compare = c) :
    ∃ n, l.Leads is t (List.replicate n .pulse) fun s => (l.after is s).Halted := by
  induction hk : j - t generalizing t with
  | zero =>
    obtain rfl : t = j := by omega
    obtain ⟨hh, hes⟩ := hb.cycle_match hs (by rw [hv, hc]; exact hm)
    exact ⟨0, .one (shown_of_events hes) hh⟩
  | succ k ih =>
    by_cases hnow : ((is t).monitor ^^^ v) &&& c = 0#64
    · obtain ⟨hh, hes⟩ := hb.cycle_match hs (by rw [hv, hc]; exact hnow)
      exact ⟨0, .one (shown_of_events hes) hh⟩
    · obtain ⟨hb', hes, hbp⟩ := hb.cycle_run hs (by rw [hv, hc]; exact hnow)
      change (l.after is (t + 1)).Busy at hb'
      change (l.after is (t + 1)).dbg.bp = _ at hbp
      obtain ⟨n, hn⟩ := ih (by omega) hb' (by rw [hbp]; exact hs) (by rw [hbp]; exact hv)
        (by rw [hbp]; exact hc) (by omega)
      exact ⟨n + 1, .cons (shown_of_events hes) hn⟩

/-- The target makes as many steps as the command says. -/
theorem leads_step (hb : (l.after is t).Busy) (hs : (l.after is t).dbg.bp.state = 0b101#3)
    (hn : (l.after is t).dbg.bp.runStep.toNat = n) :
    l.Leads is t (List.replicate n .pulse) fun s => (l.after is s).Halted := by
  induction n generalizing t with
  | zero =>
    have hz : (l.after is t).dbg.bp.runStep = 0#64 := BitVec.eq_of_toNat_eq hn
    obtain ⟨hh, hes⟩ := hb.cycle_last hs hz
    exact .one (shown_of_events hes) hh
  | succ n ih =>
    have hz : (l.after is t).dbg.bp.runStep ≠ 0#64 := by
      intro h0
      rw [h0] at hn
      exact absurd hn (by simp)
    obtain ⟨hb', hes, hbp⟩ := hb.cycle_step hs hz
    change (l.after is (t + 1)).Busy at hb'
    change (l.after is (t + 1)).dbg.bp = _ at hbp
    refine .cons (shown_of_events hes) (ih hb' ?_ ?_)
    · rw [hbp]
      exact hs
    · rw [hbp]
      change ((l.after is t).dbg.bp.runStep - 1#64).toNat = n
      rw [BitVec.toNat_sub, hn]
      have hlt := (l.after is t).dbg.bp.runStep.isLt
      rw [hn] at hlt
      simp only [BitVec.toNat_ofNat]
      omega

end Target

/-! ## The run -/

section Run

variable (hser : Serial is) (hord : l.Orderly is)
include hord

/-- The last byte of a command that moves the target comes. -/
theorem Calm.loads (h : l.Calm is k n t) (hf : (l.after is t).Completes (is t) f)
    (hne : f.command ≠ 0x02#8) : (l.after is t).dbg.bp.Resting ∧
      (l.after is (t + 1)).Holding (l.after is t).dbg.bp f true ∧
      (l.after is t).shown (is t) = [] := by
  obtain ⟨hr, hmax⟩ := hord t f hf
  obtain rfl := h.sends.eq_512 (hmax hne)
  have hn : n < 2 := by
    have hle := h.le
    have hlt := h.sends.lt
    omega
  rcases h.listens with hw | ⟨_, _, p, hp, _, hq⟩
  · obtain ⟨hnext, hes⟩ := hf.holding hr hw.dataComing (h.sends.parked hn)
    exact ⟨hr, hnext, shown_of_events hes⟩
  · exact absurd (hq t (Nat.le_refl t) (by omega)) hf.receive_ne

include hser

theorem Calm.step (h : l.Calm is k n t)
    (hgo : ∀ f, (l.after is t).Completes (is t) f → f.command = 0x02#8) :
    ∃ k' n', k ≤ k' ∧ l.Calm is k' n' (t + 1) := by
  obtain ⟨hl, hs⟩ := h.listens.cycle hser hord hgo
  have hsends := h.sends
  have hle := h.le
  have hle' := hsends.le
  by_cases hk : k < 512
  · obtain rfl | rfl | rfl : n = 0 ∨ n = 1 ∨ n = 2 := by omega
    · exact ⟨k, 1, by omega, hl, hsends.next hs hk, by omega⟩
    · by_cases hb : (l.after is t).tx.state = 0b0000#4
      · exact ⟨k, 2, by omega, hl, (hsends.offer hs hk hb).1, by omega⟩
      · exact ⟨k, 1, by omega, (h.wait hser hord hk hb).1⟩
    · exact ⟨k + 1, 0, by omega, hl, hsends.byte hs, by omega⟩
  · obtain rfl : k = 512 := by omega
    have hlt := hsends.lt
    obtain ⟨n', hn', hnext⟩ := hsends.rest (by omega) hs
    exact ⟨512, n', by omega, hl, hnext, by omega⟩

/-- With the snapshot over nothing happens until a command moves the target. -/
theorem Calm.rests (h : l.Calm is 512 0 t) {t' : ℕ} (ht : t ≤ t')
    (hgo : ∀ s f, t ≤ s → s < t' → (l.after is s).Completes (is s) f → f.command = 0x02#8) :
    l.record is t' = l.record is t ∧ ∃ n < 2, l.Calm is 512 n t' := by
  induction t', ht using Nat.le_induction with
  | base => exact ⟨rfl, 0, by omega, h⟩
  | succ t' ht ih =>
    obtain ⟨hrec, n, hn, hc⟩ := ih fun s f hs hlt => hgo s f hs (by omega)
    obtain ⟨hl, hs⟩ := hc.listens.cycle hser hord fun f => hgo t' f ht (by omega)
    obtain ⟨n', hn', hnext⟩ := hc.sends.rest hn hs
    refine ⟨?_, n', hn', hl, hnext, by omega⟩
    rw [record_succ, hc.sends.shown_nil hs (by omega), hrec, List.append_nil]

end Run

/-- Where the debugger is in cycle `t`. -/
inductive Phase (l : Link) (is : ℕ → LinkIn) (t : ℕ) : Prop
  | calm {k n : ℕ} : l.Calm is k n t → Phase l is t
  | loaded {b : BpDebug} {f : Frame} : b.Resting → f.command ≠ 0x02#8 →
      (l.after is t).Holding b f true → (is t).receive = none → (is (t + 1)).receive = none →
      Phase l is t
  | taken {b : BpDebug} {f : Frame} : b.Resting → f.command ≠ 0x02#8 →
      (l.after is t).Holding { b with debugDataRead := false, state := 0b010#3 } f true →
      (is t).receive = none → Phase l is t
  | busy : (l.after is t).Busy → (l.after is t).Moving → Phase l is t
  | halted : (l.after is t).Halted → Phase l is t
  | asking : (l.after is t).Asking → Phase l is t

theorem goState_cases (f : Frame) : goState f = 0b011#3 ∨ goState f = 0b100#3 ∨
    goState f = 0b101#3 ∨ goState f = 0b000#3 := by
  unfold goState
  split_ifs <;> simp

section Run

variable (hord : l.Orderly is)
include hord

/-- No command comes at other times. -/
theorem not_completes_of_not_resting (h : ¬ (l.after is t).dbg.bp.Resting) (f : Frame) :
    ¬ (l.after is t).Completes (is t) f :=
  fun hf => h (hord t f hf).1

theorem Halted.not_completes (h : (l.after is t).Halted) (f : Frame) :
    ¬ (l.after is t).Completes (is t) f :=
  not_completes_of_not_resting hord (fun hr => by cases h.state.symm.trans hr.state) f

theorem Asking.not_completes (h : (l.after is t).Asking) (f : Frame) :
    ¬ (l.after is t).Completes (is t) f :=
  not_completes_of_not_resting hord
    (fun hr => by cases h.comDebugClk.symm.trans hr.comDebugClk) f

theorem Asking.calm (h : (l.after is t).Asking) :
    l.Calm is 0 1 (t + 1) ∧ (l.after is t).shown (is t) = [] := by
  obtain ⟨hw, hs, hes⟩ := h.cycle (h.not_completes hord)
  exact ⟨⟨.inl hw, hs, by omega⟩, shown_of_events hes⟩

theorem Phase.cycle (hser : Serial is) (h : l.Phase is t) : l.Phase is (t + 1) := by
  cases h with
  | calm h =>
    by_cases hgo : ∃ f, (l.after is t).Completes (is t) f ∧ f.command ≠ 0x02#8
    · obtain ⟨f, hf, hne⟩ := hgo
      obtain ⟨hr, hnext, -⟩ := h.loads hord hf hne
      exact .loaded hr hne hnext (hser.quiet hf.receive_ne (by omega) (by omega))
        (hser.quiet hf.receive_ne (by omega) (by omega))
    · obtain ⟨k', n', -, hnext⟩ := h.step hser hord fun f hf => by
        by_contra hne
        exact hgo ⟨f, hf, hne⟩
      exact .calm hnext
  | loaded hr hne h hi hi' => exact .taken hr hne (h.take hr hi).1 hi'
  | @taken b f hr hne h hi =>
    have hnext : (l.after is (t + 1)).Holding _ f true := (h.exec hr hne hi).1
    have hstate : (l.after is (t + 1)).dbg.bp.state = goState f := by
      rw [hnext.holds.bp]
    have hb : (l.after is (t + 1)).Busy := hnext.busy rfl hr.comDebugClk hr.low
    rcases goState_cases f with hs | hs | hs | hs
    · exact .busy hb (.inl (hstate.trans hs))
    · exact .busy hb (.inr (.inl (hstate.trans hs)))
    · exact .busy hb (.inr (.inr (hstate.trans hs)))
    · exact .halted (hnext.halted hs rfl hr.comDebugClk hr.low)
  | busy h hs =>
    rcases h.cycle (i := is t) hs with ⟨hb, hm⟩ | hh
    · exact .busy hb hm
    · exact .halted hh
  | halted h => exact .asking (h.cycle (h.not_completes hord)).1
  | asking h => exact .calm (h.calm hord).1

theorem Phase.of_completes (h : l.Phase is t) (hf : (l.after is t).Completes (is t) f) :
    ∃ k n, l.Calm is k n t := by
  have hr := (hord t f hf).1
  cases h with
  | calm h => exact ⟨_, _, h⟩
  | loaded _ _ _ hi _ => exact absurd hi hf.receive_ne
  | taken _ _ _ hi => exact absurd hi hf.receive_ne
  | busy h hs =>
    rw [Moving, hr.state] at hs
    exact absurd hs (by decide)
  | halted h => exact absurd hf (h.not_completes hord f)
  | asking h => exact absurd hf (h.not_completes hord f)

end Run

/-! ## Each command -/

/-- The command comes to an end: it counts steps, or the monitor matches at some time. -/
def Ends (l : Link) (is : ℕ → LinkIn) (t : ℕ) (f : Frame) : Prop :=
  f.command = 0x04#8 ∨ ∃ j, t + 3 ≤ j ∧ (f.command = 0x01#8 ∨ f.command = 0x03#8 ∧ j ≠ t + 3) ∧
    ((is j).monitor ^^^ (l.after is t).dbg.bp.breakpoint) &&& (l.after is t).dbg.bp.compare = 0#64

/-- The command `f`, whose last byte comes in cycle `t`, is executed once, then come its pulses, then
the 512 bytes of a snapshot, and then nothing until another command moves the target. -/
def Served (l : Link) (is : ℕ → LinkIn) (t : ℕ) (f : Frame) : Prop :=
  ∃ t' n vs, t ≤ t' ∧ vs.length = 512 ∧ (f.command = 0x04#8 → n = f.value.toNat) ∧
    l.record is t' =
      l.record is t ++ .exec f :: (List.replicate n .pulse ++ bytesFrom 0 vs) ∧
    ∀ t'', t' ≤ t'' → (∀ s f', t' ≤ s → s < t'' → (l.after is s).Completes (is s) f' →
      f'.command = 0x02#8) → l.record is t'' = l.record is t'

/-- The break `f`, whose last byte comes in cycle `t`, is executed. -/
def Kept (l : Link) (is : ℕ → LinkIn) (t : ℕ) (f : Frame) : Prop :=
  .exec f ∈ (l.after is (t + 2)).events (is (t + 2)) ∧
    (l.after is (t + 6)).dbg.bp.breakpoint = f.value ∧
    (l.after is (t + 6)).dbg.bp.compare = f.mask

/-- What a command does to the target. -/
theorem Ends.halts (he : l.Ends is t f) (hr : (l.after is t).dbg.bp.Resting)
    (h : (l.after is (t + 3)).Holding { (l.after is t).dbg.bp with
      debugDataRead := true, state := goState f
      runStep := if f.command = 0x04#8 then f.value else (l.after is t).dbg.bp.runStep } f true) :
    ∃ n, (f.command = 0x04#8 → n = f.value.toNat) ∧
      l.Leads is (t + 3) (List.replicate n .pulse) fun s => (l.after is s).Halted := by
  have hb := h.busy rfl hr.comDebugClk hr.low
  have hbp := h.holds.bp
  rcases he with h4 | ⟨j, hj, hcmd, hm⟩
  · refine ⟨f.value.toNat, fun _ => rfl, leads_step hb ?_ ?_⟩
    · rw [hbp]
      exact (by simp [goState, h4] : goState f = 0b101#3)
    · rw [hbp, if_pos h4]
  rcases hcmd with h1 | ⟨h3, hj'⟩
  · obtain ⟨n, hn⟩ := leads_run hm hj hb
      (by rw [hbp]; exact (by simp [goState, h1] : goState f = 0b011#3)) (by rw [hbp]) (by rw [hbp])
    exact ⟨n, fun h4 => absurd (h1.symm.trans h4) (by decide), hn⟩
  · have hs : (l.after is (t + 3)).dbg.bp.state = 0b100#3 := by
      rw [hbp]
      exact (by simp [goState, h3] : goState f = 0b100#3)
    obtain ⟨hb', hes, hbp'⟩ := hb.cycle_first (i := is (t + 3)) hs
    change (l.after is (t + 4)).Busy at hb'
    change (l.after is (t + 4)).dbg.bp = _ at hbp'
    obtain ⟨n, hn⟩ := leads_run hm (by omega : t + 4 ≤ j) hb' (by rw [hbp'])
      (by rw [hbp', hbp]) (by rw [hbp', hbp])
    exact ⟨n + 1, fun h4 => absurd (h3.symm.trans h4) (by decide),
      .cons (shown_of_events hes) hn⟩

section Commands

variable (hser : Serial is) (hord : l.Orderly is)
include hser hord

/-- The target has stopped, and a snapshot follows. -/
theorem Halted.snapshot (h : (l.after is t).Halted) : ∃ vs, vs.length = 512 ∧
    l.Leads is t (bytesFrom 0 vs) (l.Calm is 512 0) := by
  obtain ⟨hask, hes⟩ := h.cycle (h.not_completes hord)
  obtain ⟨hcalm, hes'⟩ := Asking.calm (t := t + 1) hord hask
  obtain ⟨vs, hlen, hlead⟩ := hcalm.snapshot hser hord (by omega)
  exact ⟨vs, hlen, .cons (shown_of_events hes) (.cons hes' hlead)⟩

theorem Calm.served (h : l.Calm is k n t) (hf : (l.after is t).Completes (is t) f)
    (he : l.Ends is t f) : l.Served is t f := by
  have hne : f.command ≠ 0x02#8 := by
    rintro h2
    rcases he with h4 | ⟨-, -, h1 | ⟨h3, -⟩, -⟩
    · exact absurd (h2.symm.trans h4) (by decide)
    · exact absurd (h2.symm.trans h1) (by decide)
    · exact absurd (h2.symm.trans h3) (by decide)
  obtain ⟨hr, hload, hes₀⟩ := h.loads hord hf hne
  have hq : ∀ s, t < s → s < t + 11 → (is s).receive = none := fun s => hser.quiet hf.receive_ne
  obtain ⟨htake, hes₁⟩ := hload.take hr (hq (t + 1) (by omega) (by omega))
  obtain ⟨hexec, hes₂⟩ := htake.exec hr hne (hq (t + 2) (by omega) (by omega))
  obtain ⟨n, hn, hlead⟩ := he.halts hr hexec
  obtain ⟨t₁, ht₁, hh, hrec₁⟩ := hlead
  obtain ⟨vs, hlen, t', ht', hc, hrec⟩ := hh.snapshot hser hord
  refine ⟨t', n, vs, by omega, hlen, hn, ?_, fun t'' ht'' hgo => (hc.rests hser hord ht'' hgo).1⟩
  change (l.after is (t + 2)).events (is (t + 2)) = _ at hes₂
  have hshown : (l.after is (t + 2)).shown (is (t + 2)) = [.exec f] := by
    rw [shown_of_events hes₂]
    simp [Event.isBreak, hne]
  rw [hrec, hrec₁, record_succ, hshown, record_succ, shown_of_events hes₁, record_succ, hes₀]
  simp

theorem Calm.kept (h : l.Calm is k n t) (hf : (l.after is t).Completes (is t) f)
    (h2 : f.command = 0x02#8) : l.Kept is t f := by
  have hq : ∀ s, t < s → s < t + 11 → (is s).receive = none := fun s => hser.quiet hf.receive_ne
  rcases h.listens with hw | ⟨_, _, p, hp, _, hi⟩
  · have h₀ := (hw.loads (hord t f hf).1 hf h2).1
    have h₁ := h₀.next (hq (t + 1) (by omega) (by omega)) (by omega)
    have h₂ := h₁.next (hq (t + 2) (by omega) (by omega)) (by omega)
    have h₃ := h₂.next (hq (t + 3) (by omega) (by omega)) (by omega)
    have h₄ := h₃.next (hq (t + 4) (by omega) (by omega)) (by omega)
    refine ⟨?_, (h₄.over (hq (t + 5) (by omega) (by omega))).2⟩
    change (l.after is (t + 2)).Takes _ f 1 at h₁
    have hstate : (l.after is (t + 2)).dbg.bp.state = 0b010#3 := by
      rw [h₁.holds.bp]
      rfl
    unfold events
    rw [if_pos hstate, h₁.holds.comingData]
    simp
  · exact absurd (hi t (Nat.le_refl t) (by omega)) hf.receive_ne

end Commands

/-! ## Every command -/

/-- The debugger waits, and the last snapshot is over. -/
structure Free (l : Link) : Prop where
  waits : l.Waits
  comDebugClk : l.dbg.bp.comDebugClk = false
  parked : l.dbg.com.Parked

theorem Free.calm (h : l.Free) : l.Calm is 512 l.dbg.com.state 0 := by
  have hlt : l.dbg.com.state < 2 := by
    rcases h.parked.state with h0 | h1 <;> omega
  refine ⟨.inl h.waits, ⟨Nat.le_refl _, by omega, h.parked.slcNum, rfl, ?_, fun _ => h.comDebugClk,
    fun _ => h.parked.afterFallingEdge⟩, by omega⟩
  exact h.parked.transmitSignal.trans (decide_eq_false (by omega)).symm

theorem IsReset.halted (h : l.IsReset) : l.Halted := by
  obtain ⟨⟨hbp, hcom⟩, -⟩ := h
  refine ⟨?_, ?_, ?_, .inl hcom.dataComing,
    ⟨hcom.slcNum, hcom.transmitSignal, .inl hcom.state, hcom.afterFallingEdge⟩⟩
  · rw [hbp]
    rfl
  · rw [hbp]
    rfl
  · rw [hbp]
    rfl

theorem Phase.of_start (h : l.IsReset ∨ l.Free) (hser : Serial is) (hord : l.Orderly is) (t : ℕ) :
    l.Phase is t := by
  induction t with
  | zero =>
    rcases h with hr | hf
    · exact .halted hr.halted
    · exact .calm hf.calm
  | succ t ih => exact ih.cycle hord hser

/-- From reset on, and from any state of rest. -/
theorem commands_served (h : l.IsReset ∨ l.Free) (hser : Serial is) (hord : l.Orderly is) :
    (∀ t f, (l.after is t).Completes (is t) f → l.Ends is t f → l.Served is t f) ∧
      ∀ t f, (l.after is t).Completes (is t) f → f.command = 0x02#8 → l.Kept is t f := by
  constructor
  · intro t f hf he
    obtain ⟨k, n, hc⟩ := (Phase.of_start h hser hord t).of_completes hord hf
    exact hc.served hser hord hf he
  · intro t f hf h2
    obtain ⟨k, n, hc⟩ := (Phase.of_start h hser hord t).of_completes hord hf
    exact hc.kept hser hord hf h2

/-! ## Bytes that come every eleven cycles -/

theorem resting_iff : b.Resting ↔ b.state = 0b001#3 ∧ b.comDebugClk = false ∧
    b.debugDataRead = false ∧ b.mClkO = false :=
  ⟨fun h => ⟨h.1, h.2, h.3, h.4⟩, fun h => ⟨h.1, h.2.1, h.2.2.1, h.2.2.2⟩⟩

theorem waits_iff : l.Waits ↔ l.dbg.bp.state = 0b001#3 ∧ l.dbg.bp.debugDataRead = false ∧
    l.dbg.bp.mClkO = false ∧ l.dbg.com.dataComing = false :=
  ⟨fun h => ⟨h.1, h.2, h.3, h.4⟩, fun h => ⟨h.1, h.2.1, h.2.2.1, h.2.2.2⟩⟩

/-- The debugger after power-up, and at rest. -/
def powerUp : Link := ⟨Debug.powerUp, ⟨0b0000#4, 0#8⟩⟩

def atRest : Link :=
  ⟨⟨{ Debug.powerUp.bp with state := 0b001#3 }, Debug.powerUp.com⟩, ⟨0b0000#4, 0#8⟩⟩

/-- The bytes `bs` come; the monitor and `datas` show 0. -/
def spreads (bs : List (BitVec 8)) (t : ℕ) : LinkIn := ⟨0#64, fun _ => 0#8, spread bs t, true⟩

/-- The commands `break 0`, with all bits compared, and `step 3`. -/
def breakBytes : List (BitVec 8) := 0x02#8 :: (List.replicate 8 0x00#8 ++ List.replicate 8 0xff#8)

def stepBytes : List (BitVec 8) := 0x04#8 :: 0x03#8 :: List.replicate 15 0x00#8

theorem spread_ne_none {bs : List (BitVec 8)} (h : spread bs t ≠ none) :
    t % 11 = 0 ∧ t / 11 < bs.length := by
  unfold spread at h
  split_ifs at h with ht
  · exact ⟨ht, by simpa using h⟩
  · exact absurd rfl h

theorem serial_spreads (bs : List (BitVec 8)) : Serial (spreads bs) := by
  refine ⟨fun hlt ht ht' => ?_, fun t => ⟨t, Nat.le_refl t, rfl⟩⟩
  have h := spread_ne_none ht
  have h' := spread_ne_none ht'
  omega

/-- A single command is complete with its last byte. -/
theorem eq_176_of_completes {bs : List (BitVec 8)} (hlen : bs.length = 17)
    (hcount : ∀ j < 16, (l.after (spreads bs) (11 * j)).dbg.com.count ≠ 16)
    (hf : (l.after (spreads bs) t).Completes (spreads bs t) f) : t = 176 := by
  obtain ⟨hmod, hdiv⟩ := spread_ne_none hf.receive_ne
  have ht : t = 11 * (t / 11) := by omega
  have hcount' := hf.1
  rw [ht] at hcount'
  by_contra hne
  exact hcount (t / 11) (by omega) hcount'

/-- A break while the first snapshot is sent, and a step at rest. -/
theorem commands_served_spreads :
    (powerUp.IsReset ∧ powerUp.Orderly (spreads breakBytes) ∧
      ∃ f, (powerUp.after (spreads breakBytes) 176).Completes (spreads breakBytes 176) f ∧
        powerUp.Kept (spreads breakBytes) 176 f) ∧
      atRest.Free ∧ atRest.Orderly (spreads stepBytes) ∧
      ∃ f, (atRest.after (spreads stepBytes) 176).Completes (spreads stepBytes 176) f ∧
        atRest.Served (spreads stepBytes) 176 f := by
  have hreset : powerUp.IsReset := ⟨⟨rfl, ⟨rfl, rfl, rfl, rfl, rfl, rfl⟩⟩, rfl⟩
  have hfree : atRest.Free := ⟨⟨rfl, rfl, rfl, rfl⟩, rfl, ⟨rfl, rfl, .inl rfl, rfl⟩⟩
  have hf : (powerUp.after (spreads breakBytes) 176).Completes (spreads breakBytes 176) _ :=
    ⟨by decide +kernel, 0xff#8, rfl, rfl⟩
  have hf' : (atRest.after (spreads stepBytes) 176).Completes (spreads stepBytes 176) _ :=
    ⟨by decide +kernel, 0x00#8, rfl, rfl⟩
  have hord : powerUp.Orderly (spreads breakBytes) := by
    intro t f hc
    obtain rfl := eq_176_of_completes rfl (by decide +kernel) hc
    exact ⟨resting_iff.2 (by decide +kernel),
      fun hne => absurd (hc.command.trans (by decide +kernel)) hne⟩
  have hord' : atRest.Orderly (spreads stepBytes) := by
    intro t f hc
    obtain rfl := eq_176_of_completes rfl (by decide +kernel) hc
    exact ⟨resting_iff.2 (by decide +kernel), fun _ => by decide +kernel⟩
  refine ⟨⟨hreset, hord, _, hf, ?_⟩, hfree, hord', _, hf', ?_⟩
  · exact (commands_served (.inl hreset) (serial_spreads _) hord).2 176 _ hf
      (hf.command.trans (by decide +kernel))
  · exact (commands_served (.inr hfree) (serial_spreads _) hord').1 176 _ hf'
      (.inl (hf'.command.trans (by decide +kernel)))

/-! ## A command during a snapshot -/

def Event.isFirst : Event → Bool
  | .byte slc _ => slc == 0#16
  | _ => false

/-- How many snapshots have begun. -/
def begun (l : Link) (is : ℕ → LinkIn) (t : ℕ) : ℕ := (l.record is t).countP Event.isFirst

theorem after_add (l : Link) (is : ℕ → LinkIn) (t m : ℕ) :
    l.after is (t + m) = (l.after is t).after (fun s => is (t + s)) m := by
  induction m with
  | zero => rfl
  | succ m ih =>
    change (l.after is (t + m)).cycle _ = _
    rw [ih]
    rfl

theorem begun_add (l : Link) (is : ℕ → LinkIn) (t m : ℕ) :
    l.begun is (t + m) = l.begun is t + (l.after is t).begun (fun s => is (t + s)) m := by
  induction m with
  | zero => rfl
  | succ m ih =>
    unfold begun at ih ⊢
    rw [← Nat.add_assoc, record_succ, record_succ, List.countP_append, List.countP_append, ih,
      after_add, Nat.add_assoc]

/-- While bytes other than the first are sent and no command comes, no snapshot begins. -/
theorem Calm.begun_eq_zero (h : l.Calm is k n 0) (hk : 0 < k) (hq : ∀ t, (is t).receive = none)
    (hser : Serial is) (t : ℕ) : l.begun is t = 0 := by
  have hno : ∀ t f, ¬ (l.after is t).Completes (is t) f := fun t f hf => hf.receive_ne (hq t)
  have hord : l.Orderly is := fun t f hf => absurd hf (hno t f)
  have hrun : ∃ k' n', 0 < k' ∧ l.Calm is k' n' t ∧ l.begun is t = 0 := by
    induction t with
    | zero => exact ⟨k, n, hk, h, rfl⟩
    | succ t ih =>
      obtain ⟨k', n', hk', hc, hz⟩ := ih
      have hgo : ∀ f, (l.after is t).Completes (is t) f → f.command = 0x02#8 :=
        fun f hf => absurd hf (hno t f)
      obtain ⟨k'', n'', hle, hnext⟩ := hc.step hser hord hgo
      refine ⟨k'', n'', by omega, hnext, ?_⟩
      have hs := (hc.listens.cycle hser hord hgo).2
      unfold begun at hz ⊢
      rw [record_succ, List.countP_append, hz, Nat.zero_add, List.countP_eq_zero]
      intro e he
      obtain ⟨v, rfl⟩ := hs.mem_shown he
      have hne : BitVec.ofNat 16 k' ≠ 0#16 := by
        intro h0
        have h0' := congrArg BitVec.toNat h0
        have hle' := hc.sends.le
        rw [BitVec.toNat_ofNat, Nat.mod_eq_of_lt (by omega)] at h0'
        have hzero : (0#16).toNat = 0 := rfl
        omega
      rw [hc.sends.slcNum]
      simp [Event.isFirst, hne]
  exact hrun.choose_spec.choose_spec.2.2

theorem begun_mono {t' : ℕ} (h : t ≤ t') : l.begun is t ≤ l.begun is t' := by
  obtain ⟨m, rfl⟩ := Nat.exists_eq_add_of_le h
  rw [begun_add]
  exact Nat.le_add_right _ _

/-- A snapshot begins behind a command that is served. -/
theorem Served.begun_lt (h : l.Served is t f) : ∃ t', l.begun is t < l.begun is t' := by
  obtain ⟨t', n, vs, -, hlen, -, hrec, -⟩ := h
  refine ⟨t', ?_⟩
  unfold begun
  rw [hrec, List.countP_append]
  refine Nat.lt_add_of_pos_right (List.countP_pos_iff.2 ?_)
  obtain ⟨v, vs, rfl⟩ := List.exists_cons_of_length_pos (by omega : 0 < vs.length)
  exact ⟨.byte (BitVec.ofNat 16 0) v, by simp [bytesFrom], rfl⟩

/-- A step that is complete while the first snapshot is sent is executed, but no snapshot
follows it. -/
theorem not_commands_served : powerUp.IsReset ∧ Serial (spreads stepBytes) ∧
    ¬ ∀ t f, (powerUp.after (spreads stepBytes) t).Completes (spreads stepBytes t) f →
      powerUp.Ends (spreads stepBytes) t f → powerUp.Served (spreads stepBytes) t f := by
  refine ⟨⟨⟨rfl, ⟨rfl, rfl, rfl, rfl, rfl, rfl⟩⟩, rfl⟩, serial_spreads _, fun hall => ?_⟩
  have hf : (powerUp.after (spreads stepBytes) 176).Completes (spreads stepBytes 176) _ :=
    ⟨by decide +kernel, 0x00#8, rfl, rfl⟩
  obtain ⟨t', hlt⟩ := (hall 176 _ hf (.inl (hf.command.trans (by decide +kernel)))).begun_lt
  have h₀ : powerUp.begun (spreads stepBytes) 176 = 1 := by decide +kernel
  have h₁ : powerUp.begun (spreads stepBytes) 186 = 1 := by decide +kernel
  -- from cycle 186 on `bp_debug` waits again, and the snapshot that was being sent goes on
  have hsends : (powerUp.after (spreads stepBytes) 186).dbg.com.slcNum = BitVec.ofNat 16 15 ∧
      (powerUp.after (spreads stepBytes) 186).dbg.com.state = 0 ∧
      (powerUp.after (spreads stepBytes) 186).dbg.com.transmitSignal = false ∧
      (powerUp.after (spreads stepBytes) 186).dbg.bp.comDebugClk = false ∧
      (powerUp.after (spreads stepBytes) 186).dbg.com.afterFallingEdge = true := by
    decide +kernel
  have hcalm : (powerUp.after (spreads stepBytes) 186).Calm
      (fun s => spreads stepBytes (186 + s)) 15 0 0 :=
    ⟨.inl (waits_iff.2 (by decide +kernel)), ⟨by omega, by omega, hsends.1, hsends.2.1, hsends.2.2.1,
      fun _ => hsends.2.2.2.1, fun _ => hsends.2.2.2.2⟩, by omega⟩
  have hq : ∀ s, (spreads stepBytes (186 + s)).receive = none := by
    intro s
    by_contra hn
    obtain ⟨hmod, hlen⟩ := spread_ne_none hn
    have h17 : stepBytes.length = 17 := rfl
    omega
  have hser : Serial fun s => spreads stepBytes (186 + s) :=
    ⟨fun _ ht _ => absurd (hq _) ht, fun t => ⟨t, Nat.le_refl t, rfl⟩⟩
  have h₂ : powerUp.begun (spreads stepBytes) (186 + t') = 1 := by
    rw [begun_add, h₁, hcalm.begun_eq_zero (by omega) hq hser]
  have hle : powerUp.begun (spreads stepBytes) t' ≤ powerUp.begun (spreads stepBytes) (186 + t') :=
    begun_mono (by omega)
  omega

end Link

end Cadb

end CacheCPU
