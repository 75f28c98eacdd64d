import CacheCPU.Lib.Mailbox
import CacheCPU.Proofs.FlashRead
import CacheCPU.Proofs.Transmit

/-!
# Bytes from the serial port

`phy_mem` keeps the byte that came last and a flag that it is new. A read of the serial data
register stands for four edges of the fast clock, clears the flag at each of them and takes the byte
at the first. So the register is a mailbox for one byte, except that a byte that comes at one of
those edges is latched with its flag cleared.
-/

namespace CacheCPU

open Mailbox hiding Event

/-- What happens at the serial data register, each byte as the word that a read returns. -/
abbrev SerialEvent := Mailbox.Event (BitVec 32)

/-! ## One edge -/

/-- A read of the serial port stands. -/
def SerialRead (m : Mmu) : Prop :=
  m.toPhysicalReadEnable = true ∧ m.toPhysicalAddr.extractLsb 23 22 = 0b10#2

namespace PhyMem

variable {p : PhyMem} (rom : BitVec 22 → BitVec 32) (i : PhyMemIn) (old : BitVec 8)

theorem serve_latch : (p.serve rom i old).serialportDataLatch = p.serialportDataLatch := by
  unfold serve
  split
  · unfold accept
    simp only []
    split_ifs <;> rfl
  all_goals first | rfl | (split_ifs <;> rfl)

theorem serve_ready (h : p.state = 0 → ¬ (i.readEnable = true ∧ i.addr.extractLsb 23 22 = 0b10#2)) :
    (p.serve rom i old).serialportDataReady = p.serialportDataReady := by
  unfold serve
  split
  · rename_i hs
    unfold accept
    simp only []
    split_ifs with h1 h2 h3 h4
    · rfl
    · rfl
    · rfl
    · exact absurd h4 (h hs)
    all_goals rfl
  all_goals first | rfl | (split_ifs <;> rfl)

theorem serve_read (hs : p.state = 0) (hr : i.readEnable = true)
    (hd : i.addr.extractLsb 23 22 = 0b10#2) : p.serve rom i old =
      { p with dataOut := 0x000000#24 ++ old, serialportDataReady := false, state := 0 } := by
  rw [serve_zero hs]
  unfold accept
  simp [hr, hd]

theorem receive_latch (r : Option (BitVec 8)) :
    (p.receive r).serialportDataLatch = r.getD p.serialportDataLatch ∧
      (p.receive r).serialportDataReady = (r.isSome || p.serialportDataReady) ∧
      (p.receive r).state = p.state := by
  cases r <;> exact ⟨rfl, rfl, rfl⟩

end PhyMem

namespace Physical

variable (I : Image) (e : Ext) (m : Mmu) {x : Physical}

/-- What the mailbox is said to hold. -/
def mail (x : Physical) : Option (BitVec 32) :=
  if x.phy.serialportDataReady then some (0x000000#24 ++ x.phy.serialportDataLatch) else none

/-- An edge without a read of the serial port. -/
theorem tick_mail (h : x.phy.state = 0 → ¬ SerialRead m) :
    (x.tick I e m).mail = (e.receive.map (0x000000#24 ++ ·)).or x.mail := by
  obtain ⟨hl, hr, hs⟩ := PhyMem.receive_latch (p := x.phy) e.receive
  have hready := (PhyMem.serve_ready I.rom (x.phyMemIn e m) x.phy.serialportDataLatch
    (p := x.phy.receive e.receive) fun h0 => h (hs.symm.trans h0)).trans hr
  have hlatch := (PhyMem.serve_latch I.rom (x.phyMemIn e m) x.phy.serialportDataLatch
    (p := x.phy.receive e.receive)).trans hl
  change (if ((x.phy.receive e.receive).serve I.rom (x.phyMemIn e m) _).serialportDataReady then
    some (0x000000#24 ++
      ((x.phy.receive e.receive).serve I.rom (x.phyMemIn e m) _).serialportDataLatch)
    else none) = _
  rw [hready, hlatch]
  cases e.receive <;> rfl

/-- An edge with one: the byte latched before it is read, and the flag is cleared. -/
theorem tick_read_serial (h : x.phy.state = 0) (hm : SerialRead m) :
    (x.tick I e m).mail = none ∧
      (x.tick I e m).phy.dataOut = 0x000000#24 ++ x.phy.serialportDataLatch ∧
      (x.tick I e m).phy.state = 0 := by
  obtain ⟨-, -, hs⟩ := PhyMem.receive_latch (p := x.phy) e.receive
  have hserve := PhyMem.serve_read I.rom (x.phyMemIn e m) x.phy.serialportDataLatch
    (hs.trans h) hm.1 hm.2
  change (if ((x.phy.receive e.receive).serve I.rom (x.phyMemIn e m)
      x.phy.serialportDataLatch).serialportDataReady then _ else none) = _ ∧
    ((x.phy.receive e.receive).serve I.rom (x.phyMemIn e m) x.phy.serialportDataLatch).dataOut = _ ∧
    ((x.phy.receive e.receive).serve I.rom (x.phyMemIn e m) x.phy.serialportDataLatch).state = _
  rw [hserve]
  exact ⟨rfl, rfl, rfl⟩

end Physical

/-! ## The reads -/

namespace Board

open Physical

variable {I : Image} {b : Board} {l : List SerialEvent}

/-- The edge of `b` enters a stage that reads the serial data register. -/
def ReadsSerial (b : Board) : Prop :=
  b.machine.Accesses ∧ b.machine.reads = true ∧ b.machine.passes = true ∧
    b.physical = physicalSerialData

instance (b : Board) : Decidable b.ReadsSerial :=
  inferInstanceAs (Decidable ((b.machine.phy.ready = true ∧
    Mmu.isInsFOrMem b.machine.state = true) ∧ b.machine.reads = true ∧
    b.machine.passes = true ∧ b.physical = physicalSerialData))

theorem serialRead_iff (hr : Reachable I b) (x : Exts) :
    SerialRead (b.cycle I x).cpu.mmu ↔ b.ReadsSerial := by
  constructor
  · rintro ⟨hrd, hd⟩
    have ha := accesses_of_requests hr x (by rw [Cpu.requests, hrd, Bool.true_or])
    obtain ⟨hread, -, haddr⟩ := stands hr ha x
    rw [hread] at hrd
    simp only [Bool.and_eq_true] at hrd
    rw [haddr, device_serial_iff] at hd
    exact ⟨ha, hrd.2, hrd.1.2, hd⟩
  · rintro ⟨ha, hrd, hp, hpa⟩
    obtain ⟨hread, -, haddr⟩ := stands hr ha x
    refine ⟨?_, ?_⟩
    · rw [hread, beq_eq_false_iff_ne.2 (ne_serialStatus_of_serial hpa), hp, hrd]
      rfl
    · rw [haddr, hpa]
      decide

/-- A read takes the byte that was latched before the edge at which its request comes. -/
theorem seen_serial (hr : Reachable I b) (h : b.ReadsSerial) (x : Exts) :
    b.seen (b.cycle I x) = 0x000000#24 ++ (b.phys3 I x).phy.serialportDataLatch ∧
      (b.cycle I x).phys.mail = none := by
  have hinv := hr.inv.1
  have hs3 : (b.phys3 I x).phy.state = 0 := (idle_cycle hinv (hinv.ready_iff.1 h.1.1) x).2
  obtain ⟨hmail, hdata, -⟩ := tick_read_serial I x.e3 (b.cycle I x).cpu.mmu hs3
    ((serialRead_iff hr x).2 h)
  have hdur := Machine.during_enter h.1 (hr.step x)
  exact ⟨(seen_eq hdur (ne_serialStatus_of_serial h.2.2.2)).trans hdata, hmail⟩

/-! ## Runs -/

/-- The bytes that come at the edges `es`. -/
def arrivals (es : List Ext) : List SerialEvent :=
  es.filterMap fun e => e.receive.map fun v => .arrive (0x000000#24 ++ v)

variable (I b) in
/-- What happens in a cycle: the instruction may end, bytes may come, and the serial data register
may be read, as it was before the last edge. -/
def happens (x : Exts) : List SerialEvent :=
  (if b.machine.state = .writeB then [.done] else []) ++ arrivals [x.e0, x.e1, x.e2] ++
    (if b.ReadsSerial then [.read (b.seen (b.cycle I x))] else []) ++ arrivals [x.e3]

/-- The boards that some run from reset passes through, with what has happened. Each cycle of the
run meets `P`. -/
inductive Receives (I : Image) (P : Board → List SerialEvent → Exts → Prop) :
    Board → List SerialEvent → Prop
  | reset {b : Board} : b.IsReset → b.phys.phy.serialportDataReady = false → Receives I P b []
  | cycle {b : Board} {l : List SerialEvent} (x : Exts) : Receives I P b l → P b l x →
      Receives I P (b.cycle I x) (l ++ b.happens I x)

theorem Receives.reachable {P : Board → List SerialEvent → Exts → Prop}
    (h : Receives I P b l) : Reachable I b := by
  induction h with
  | reset h => exact .reset h
  | cycle x _ _ ih => exact ih.cycle x

/-- A byte comes at an edge at which a read of the serial data register stands. -/
def Races (b : Board) (x : Exts) : Prop :=
  (SerialRead b.cpu.mmu ∧ arrivals [x.e0, x.e1, x.e2] ≠ []) ∨
    (b.ReadsSerial ∧ arrivals [x.e3] ≠ [])

instance (b : Board) (x : Exts) : Decidable (b.Races x) :=
  inferInstanceAs (Decidable (((b.cpu.mmu.toPhysicalReadEnable = true ∧
    b.cpu.mmu.toPhysicalAddr.extractLsb 23 22 = 0b10#2) ∧ arrivals [x.e0, x.e1, x.e2] ≠ []) ∨
    (b.ReadsSerial ∧ arrivals [x.e3] ≠ [])))

/-- The serial data register is read though no byte has come since its last read. -/
def Rereads (b : Board) (l : List SerialEvent) (x : Exts) : Prop :=
  b.ReadsSerial ∧ b.phys.phy.serialportDataReady = false ∧ arrivals [x.e0, x.e1, x.e2] = [] ∧
    since l ≠ none

instance (b : Board) (l : List SerialEvent) (x : Exts) : Decidable (b.Rereads l x) :=
  inferInstanceAs (Decidable (b.ReadsSerial ∧ b.phys.phy.serialportDataReady = false ∧
    arrivals [x.e0, x.e1, x.e2] = [] ∧ since l ≠ none))

/-- One edge of the mailbox without a read. -/
theorem kept_tick {x : Physical} {e : Ext} {m : Mmu} (h : Kept l x.mail)
    (hm : ¬ SerialRead m) : Kept (l ++ arrivals [e]) (x.tick I e m).mail := by
  rw [tick_mail I e m fun _ => hm]
  cases he : e.receive with
  | none => simpa [arrivals, he] using h
  | some v => simpa [arrivals, he] using h.arrive

/-- One edge at which a read stands and nothing comes. -/
theorem mail_tick_none {x : Physical} {e : Ext} {m : Mmu} (h : x.mail = none)
    (he : e.receive = none) : (x.tick I e m).mail = none := by
  by_cases hm : x.phy.state = 0 ∧ SerialRead m
  · exact (tick_read_serial I e m hm.1 hm.2).1
  · rw [tick_mail I e m fun h0 hs => hm ⟨h0, hs⟩, he, h]
    rfl

theorem arrivals_nil_iff {e₀ e₁ e₂ : Ext} : arrivals [e₀, e₁, e₂] = [] ↔
    e₀.receive = none ∧ e₁.receive = none ∧ e₂.receive = none := by
  cases h₀ : e₀.receive <;> cases h₁ : e₁.receive <;> cases h₂ : e₂.receive <;>
    simp [arrivals, h₀, h₁, h₂]

theorem arrivals_split (e₀ e₁ e₂ : Ext) :
    arrivals [e₀, e₁, e₂] = arrivals [e₀] ++ arrivals [e₁] ++ arrivals [e₂] := by
  simp only [arrivals, List.append_assoc, ← List.filterMap_append]
  rfl

/-- The mailbox is the latch with its flag; while a read stands it is empty. -/
structure Mail (b : Board) (l : List SerialEvent) : Prop where
  kept : Kept l b.phys.mail
  read : SerialRead b.cpu.mmu → b.phys.mail = none

section Cycle

variable (h : b.Mail l) {x : Exts} (hrace : ¬ b.Races x)
include h hrace

/-- The first three edges of a cycle. -/
theorem Mail.phys3 : Kept (l ++ arrivals [x.e0, x.e1, x.e2]) (b.phys3 I x).mail := by
  have hm' : (SerialRead (b.cpu.rise b.phys.out).mmu) = SerialRead b.cpu.mmu := rfl
  by_cases hm : SerialRead b.cpu.mmu
  · have hnil : arrivals [x.e0, x.e1, x.e2] = [] := by
      by_contra hn
      exact hrace (.inl ⟨hm, hn⟩)
    obtain ⟨h0, h1, h2⟩ := arrivals_nil_iff.1 hnil
    have hmail : (b.phys3 I x).mail = none :=
      mail_tick_none (mail_tick_none (mail_tick_none (h.read hm) h0) h1) h2
    rw [hnil, List.append_nil, hmail, ← h.read hm]
    exact h.kept
  · rw [arrivals_split, ← List.append_assoc, ← List.append_assoc]
    exact kept_tick (kept_tick (kept_tick h.kept hm) (hm'.symm ▸ hm)) (hm'.symm ▸ hm)

/-- If it is empty after them, it was empty before and nothing came. -/
theorem Mail.ready_of_phys3 (hmail : (b.phys3 I x).mail = none) :
    b.phys.phy.serialportDataReady = false ∧ arrivals [x.e0, x.e1, x.e2] = [] := by
  have hflag : b.phys.mail = none → b.phys.phy.serialportDataReady = false := by
    intro hn
    by_contra hr
    simp [mail, hr] at hn
  by_cases hm : SerialRead b.cpu.mmu
  · refine ⟨hflag (h.read hm), ?_⟩
    by_contra hn
    exact hrace (.inl ⟨hm, hn⟩)
  · have hm' : ¬ SerialRead (b.cpu.rise b.phys.out).mmu := hm
    rw [Board.phys3, tick_mail I x.e2 _ fun _ => hm', phys2, tick_mail I x.e1 _ fun _ => hm',
      tick_mail I x.e0 _ fun _ => hm] at hmail
    simp only [Option.or_eq_none_iff, Option.map_eq_none_iff] at hmail
    obtain ⟨h2, h1, h0, hb⟩ := hmail
    exact ⟨hflag hb, arrivals_nil_iff.2 ⟨h0, h1, h2⟩⟩

/-- The last edge of a cycle that reads. -/
theorem Mail.cycle_reads (hr : Reachable I b) (hre : ¬ b.Rereads l x) (hs : b.ReadsSerial) :
    Kept (l ++ arrivals [x.e0, x.e1, x.e2] ++ [.read (b.seen (b.cycle I x))])
      (b.cycle I x).phys.mail := by
  have h3 := h.phys3 (I := I) hrace
  obtain ⟨hseen, hnone⟩ := seen_serial hr hs x
  rw [hnone, hseen]
  by_cases hmail : (b.phys3 I x).mail = none
  · obtain ⟨hflag, hnil⟩ := h.ready_of_phys3 hrace hmail
    have hsince : since l = none := by
      by_contra hn
      exact hre ⟨hs, hflag, hnil, hn⟩
    rw [hmail] at h3
    exact h3.read_none (by rw [hnil, List.append_nil, hsince])
  · have hsome : (b.phys3 I x).mail =
        some (0x000000#24 ++ (b.phys3 I x).phy.serialportDataLatch) := by
      unfold mail at hmail ⊢
      split_ifs at hmail ⊢
      · rfl
      · exact absurd rfl hmail
    rw [hsome] at h3
    exact h3.read

theorem Mail.cycle (hr : Reachable I b) (hre : ¬ b.Rereads l x) :
    (b.cycle I x).Mail (l ++ b.happens I x) := by
  -- the end of an instruction is none of the mailbox's business
  have hdone : ∃ l₀, l ++ (if b.machine.state = .writeB then [.done] else []) = l₀ ∧ b.Mail l₀ ∧
      since l₀ = since l := by
    refine ⟨_, rfl, ?_⟩
    split_ifs
    · exact ⟨⟨h.kept.done, h.read⟩, since_append _⟩
    · rw [List.append_nil]
      exact ⟨h, rfl⟩
  obtain ⟨l₀, hl₀, h₀, hsince⟩ := hdone
  have hre₀ : ¬ b.Rereads l₀ x := by rwa [Rereads, hsince]
  rw [happens, ← List.append_assoc, ← List.append_assoc, ← List.append_assoc, hl₀]
  by_cases hs : b.ReadsSerial
  · have hlast : arrivals [x.e3] = [] := by
      by_contra hn
      exact hrace (.inr ⟨hs, hn⟩)
    rw [if_pos hs, hlast, List.append_nil]
    exact ⟨h₀.cycle_reads hrace hr hre₀ hs, fun _ => (seen_serial hr hs x).2⟩
  · have hm : ¬ SerialRead (b.cycle I x).cpu.mmu := mt (serialRead_iff hr x).1 hs
    rw [if_neg hs, List.append_nil]
    exact ⟨kept_tick (h₀.phys3 hrace) hm, fun hn => absurd hn hm⟩

end Cycle

/-- In every run in which no byte comes while a read of the serial data register stands, and in
which that register is not read twice for one byte, each byte that is not replaced before it is
read is returned by exactly one read, and the flag is set exactly while a byte is pending. -/
theorem received (h : Receives I (fun b l x => ¬ b.Races x ∧ ¬ b.Rereads l x) b l) :
    Once l ∧ (b.phys.phy.serialportDataReady = true ↔ Pending l) := by
  have hmail : b.Mail l := by
    induction h with
    | @reset b hreset hflag =>
      have hnone : b.phys.mail = none := by simp [mail, hflag]
      exact ⟨by rw [hnone]; exact .nil, fun _ => hnone⟩
    | cycle x hrun hx ih => exact ih.cycle hx.1 hrun.reachable hx.2
  refine ⟨hmail.kept.once, ?_⟩
  rw [hmail.kept.pending_iff, mail]
  split_ifs with hflag <;> simp [hflag]

/-! ## Two bytes -/

variable (I) in
/-- What happens in the first `n` cycles after reset. -/
def happened (x : ℕ → Exts) (n : ℕ) : List SerialEvent :=
  (List.range n).flatMap fun k => (drive I x atReset k).happens I (x k)

theorem Receives.drive {P : Board → List SerialEvent → Exts → Prop} (x : ℕ → Exts) (n : ℕ)
    (h : ∀ k < n, P (Board.drive I x atReset k) (happened I x k) (x k)) :
    Receives I P (Board.drive I x atReset n) (happened I x n) := by
  induction n with
  | zero =>
    exact .reset ⟨Machine.atReset_isReset.1,
      ⟨rfl, rfl, rfl, rfl, rfl, rfl, .inl rfl, fun _ => rfl, rfl⟩⟩ rfl
  | succ n ih =>
    rw [drive_succ, happened, List.range_succ, List.flatMap_append, List.flatMap_singleton]
    exact .cycle (x n) (ih fun k hk => h k (by omega)) (h n (by omega))

/-- `lui r1, 0xbfd0`, `nop` and `lw r2, 0x3f8(r1)`. -/
def readsByte : Image := romOf [0x3c01bfd0#32, 0x00000000#32, 0x8c2203f8#32]

/-- A byte comes in the first cycle. -/
def oneByte (k : ℕ) : Exts :=
  if k = 0 then { still with e0 := { still.e0 with receive := some 0x41#8 } } else still

/-- A second one comes at the edge at which the load of the first is served. -/
def twoBytes (k : ℕ) : Exts :=
  if k = 11 then { still with e3 := { still.e3 with receive := some 0x42#8 } } else oneByte k

/-- The load returns the byte. -/
theorem received_byte : happened readsByte oneByte 12 =
      [.arrive 0x41#32, .done, .done, .read 0x41#32] ∧
    Once (happened readsByte oneByte 12) ∧
    ((drive readsByte oneByte atReset 12).phys.phy.serialportDataReady = true ↔
      Pending (happened readsByte oneByte 12)) :=
  ⟨by decide +kernel, received (Receives.drive oneByte 12 (by decide +kernel))⟩

/-- The second byte is pending, and the flag is clear. -/
theorem not_received : ∃ I b l, Receives I (fun _ _ _ => True) b l ∧ spaced none l = true ∧
    ¬ (Once l ∧ (b.phys.phy.serialportDataReady = true ↔ Pending l)) := by
  refine ⟨readsByte, _, _, Receives.drive twoBytes 12 fun _ _ => trivial, by decide +kernel, ?_⟩
  rintro ⟨-, hiff⟩
  have hevents : happened readsByte twoBytes 12 =
      [.arrive 0x41#32, .done, .done, .read 0x41#32, .arrive 0x42#32] := by decide +kernel
  have hflag : (drive readsByte twoBytes atReset 12).phys.phy.serialportDataReady = false := by
    decide +kernel
  rw [hflag, hevents] at hiff
  exact absurd (hiff.2 ⟨0x42#32, [], rfl, List.not_mem_nil⟩) (by decide)

end Board

end CacheCPU
