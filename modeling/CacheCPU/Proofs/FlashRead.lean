import CacheCPU.Proofs.MappedRead
import CacheCPU.Proofs.Memory
import CacheCPU.Proofs.Regions

/-!
# Reads of the Flash and the ROM

`phy_mem` counts to 13 for a read of the Flash and holds the start signal for six edges, while
`flash` takes five edges for a read. So `flash` reads the word twice, has it from the fifth edge on
and is idle again from the tenth, before `phy_mem` takes the word over and is idle itself. A read of
the ROM is answered at once, at each of the edges at which the request stands.
-/

namespace CacheCPU

/-! ## `phy_mem` on its way through a Flash read -/

namespace PhyMem

variable {p : PhyMem} (rom : BitVec 22 → BitVec 32) (i : PhyMemIn) (old : BitVec 8)

theorem receive_flash (r : Option (BitVec 8)) : (p.receive r).state = p.state ∧
    (p.receive r).flashOpeAddr = p.flashOpeAddr ∧
    (p.receive r).flashReadSignal = p.flashReadSignal := by
  cases r <;> exact ⟨rfl, rfl, rfl⟩

theorem serve_flash_count (h : 1 ≤ p.state) (h' : p.state ≤ 12) (h6 : p.state ≠ 6) :
    p.serve rom i old = { p with state := p.state + 1 } := by
  have hmid : p.state ≤ 12 ∨ (102 ≤ p.state ∧ p.state ≤ 109) ∨ (202 ≤ p.state ∧ p.state ≤ 207) :=
    .inl h'
  unfold serve
  split <;> first | exact if_pos hmid | omega

theorem serve_flash_six (h : p.state = 6) :
    p.serve rom i old = { p with flashReadSignal := false, state := 7 } := by
  simp only [serve, h]

theorem serve_flash_end (h : p.state = 13) :
    p.serve rom i old = { p with dataOut := 0x0000#16 ++ i.flashReadData, state := 0 } := by
  simp only [serve, h]

/-- Outside a Flash read the start signal is not raised. -/
theorem serve_no_flash (h : ¬ (1 ≤ p.state ∧ p.state ≤ 13)) (hsig : p.flashReadSignal = false)
    (hno : p.state = 0 → ¬ (i.readEnable = true ∧ i.addr.extractLsb 23 22 = 0b00#2)) :
    ¬ (1 ≤ (p.serve rom i old).state ∧ (p.serve rom i old).state ≤ 13) ∧
      (p.serve rom i old).flashReadSignal = false := by
  by_cases h0 : p.state = 0
  · rw [serve_zero h0]
    unfold accept
    simp only []
    split_ifs with h1
    · exact absurd h1 (hno h0)
    all_goals simp [h0, hsig]
  · have h14 : 14 ≤ p.state := by omega
    unfold serve
    split
    · contradiction
    · omega
    · omega
    · simp [hsig]
    · simp [hsig]
    · simp [hsig]
    · simp [hsig]
    · split_ifs <;> simp [hsig]
    · split_ifs
      · exact ⟨fun hn => absurd (hn.2.trans (Nat.le_of_succ_le h14)) (Nat.not_succ_le_self _), hsig⟩
      · simp [hsig]

end PhyMem

namespace Physical

/-- No read of the Flash is under way: `flash` is idle and is not started. -/
structure FlashIdle (x : Physical) : Prop where
  state : ¬ (1 ≤ x.phy.state ∧ x.phy.state ≤ 13)
  signal : x.phy.flashReadSignal = false
  flash : x.flash.state = 0

/-- The state of `flash` when `phy_mem` is in state `k`. -/
def flashStage (k : ℕ) : ℕ :=
  if k ≤ 5 then k - 1 else if k ≤ 10 then k - 6 else 0

/-- A read of the word `a` of the Flash, with `phy_mem` in state `k`. -/
structure FlashAt (I : Image) (a : BitVec 22) (k : ℕ) (x : Physical) : Prop where
  state : x.phy.state = k
  addr : x.phy.flashOpeAddr = a
  signal : x.phy.flashReadSignal = decide (k ≤ 6)
  flash : x.flash.state = flashStage k
  floats : flashStage k = 3 ∨ flashStage k = 4 → x.flash.data = none
  drives : flashStage k = 4 → x.flash.oe = false ∧ x.flash.addr = a ++ 0b0#1
  data : 6 ≤ k → x.flash.dataOut = I.flash (a ++ 0b0#1)

section Tick

variable (I : Image) (e : Ext) (m : Mmu) {x : Physical} {a : BitVec 22} {k : ℕ}

/-- `flash` at one edge of a read. -/
theorem flash_tick (h : FlashAt I a k x) (h1 : 1 ≤ k) (h12 : k ≤ 12) :
    (x.tick I e m).flash.state = flashStage (k + 1) ∧
      (flashStage (k + 1) = 3 ∨ flashStage (k + 1) = 4 → (x.tick I e m).flash.data = none) ∧
      (flashStage (k + 1) = 4 → (x.tick I e m).flash.oe = false ∧
        (x.tick I e m).flash.addr = a ++ 0b0#1) ∧
      (6 ≤ k + 1 → (x.tick I e m).flash.dataOut = I.flash (a ++ 0b0#1)) := by
  obtain ⟨-, ha, hsig, hf, hfl, hd, hdata⟩ := h
  change (x.flash.tick x.flashIn I.flash e.flashFloating).state = _ ∧ (_ →
    (x.flash.tick x.flashIn I.flash e.flashFloating).data = _) ∧ (_ →
    (x.flash.tick x.flashIn I.flash e.flashFloating).oe = _ ∧
    (x.flash.tick x.flashIn I.flash e.flashFloating).addr = _) ∧ (_ →
    (x.flash.tick x.flashIn I.flash e.flashFloating).dataOut = _)
  interval_cases k <;> simp only [flashStage] at hf hfl hd ⊢ <;>
    simp_all [Flash.tick, flashIn, Flash.bus]

theorem FlashAt.tick (h : FlashAt I a k x) (h1 : 1 ≤ k) (h12 : k ≤ 12) :
    FlashAt I a (k + 1) (x.tick I e m) := by
  obtain ⟨hf, hfl, hd, hdata⟩ := flash_tick I e m h h1 h12
  obtain ⟨h0, ha, hsig⟩ := PhyMem.receive_flash (p := x.phy) e.receive
  have hs : (x.phy.receive e.receive).state = k := h0.trans h.state
  have hphy : (x.tick I e m).phy.state = k + 1 ∧
      (x.tick I e m).phy.flashOpeAddr = x.phy.flashOpeAddr ∧
      (x.tick I e m).phy.flashReadSignal = decide (k + 1 ≤ 6) := by
    change ((x.phy.receive e.receive).serve I.rom (x.phyMemIn e m) _).state = _ ∧
      ((x.phy.receive e.receive).serve I.rom (x.phyMemIn e m) _).flashOpeAddr = _ ∧
      ((x.phy.receive e.receive).serve I.rom (x.phyMemIn e m) _).flashReadSignal = _
    by_cases h6 : k = 6
    · rw [PhyMem.serve_flash_six _ _ _ (hs.trans h6)]
      subst h6
      exact ⟨rfl, ha, by simp⟩
    · rw [PhyMem.serve_flash_count _ _ _ (by omega) (by omega) (by omega)]
      refine ⟨by rw [hs], ha, ?_⟩
      rw [hsig, h.signal]
      congr 1
      rw [eq_iff_iff]
      omega
  exact ⟨hphy.1, hphy.2.1.trans h.addr, hphy.2.2, hf, hfl, hd, hdata⟩

/-- The word is taken over, with `flash` idle. -/
theorem FlashAt.last (h : FlashAt I a 13 x) : FlashIdle (x.tick I e m) ∧
    (x.tick I e m).phy.state = 0 ∧
    (x.tick I e m).phy.dataOut = 0x0000#16 ++ I.flash (a ++ 0b0#1) := by
  obtain ⟨h0, -, hsig⟩ := PhyMem.receive_flash (p := x.phy) e.receive
  have hphy : (x.tick I e m).phy.state = 0 ∧
      (x.tick I e m).phy.flashReadSignal = (x.phy.receive e.receive).flashReadSignal ∧
      (x.tick I e m).phy.dataOut = 0x0000#16 ++ x.flash.dataOut := by
    change ((x.phy.receive e.receive).serve I.rom (x.phyMemIn e m) _).state = _ ∧
      ((x.phy.receive e.receive).serve I.rom (x.phyMemIn e m) _).flashReadSignal = _ ∧
      ((x.phy.receive e.receive).serve I.rom (x.phyMemIn e m) _).dataOut = _
    rw [PhyMem.serve_flash_end _ _ _ (h0.trans h.state)]
    exact ⟨rfl, rfl, rfl⟩
  have hflash : (x.tick I e m).flash.state = 0 := by
    have hs : x.flash.state = 0 := h.flash
    change (x.flash.tick x.flashIn I.flash e.flashFloating).state = _
    simp [Flash.tick, hs, flashIn, h.signal]
  refine ⟨⟨by omega, ?_, hflash⟩, hphy.1, ?_⟩
  · rw [hphy.2.1, hsig, h.signal]
    rfl
  · rw [hphy.2.2, h.data (by decide)]

/-- A read of the Flash is accepted. -/
theorem FlashIdle.start (h : FlashIdle x) (hs : x.phy.state = 0)
    (hr : m.toPhysicalReadEnable = true) (hd : m.toPhysicalAddr.extractLsb 23 22 = 0b00#2) :
    FlashAt I (m.toPhysicalAddr.extractLsb 21 0) 1 (x.tick I e m) := by
  have hphy := tick_accept I e m hs
  simp only [PhyMem.accept, phyMemIn, hr, hd, and_self, if_true] at hphy
  have hflash : (x.tick I e m).flash.state = 0 := by
    have hf := h.flash
    change (x.flash.tick x.flashIn I.flash e.flashFloating).state = _
    simp [Flash.tick, hf, flashIn, h.signal]
  refine ⟨?_, ?_, ?_, hflash, by simp [flashStage], by simp [flashStage], by omega⟩
  · rw [hphy]
  · rw [hphy]
  · rw [hphy]
    rfl

/-- Everything else leaves `flash` idle. -/
theorem FlashIdle.tick (h : FlashIdle x) (hno : x.phy.state = 0 →
      ¬ (m.toPhysicalReadEnable = true ∧ m.toPhysicalAddr.extractLsb 23 22 = 0b00#2)) :
    FlashIdle (x.tick I e m) := by
  obtain ⟨h0, -, hsig⟩ := PhyMem.receive_flash (p := x.phy) e.receive
  obtain ⟨h1, h2⟩ := PhyMem.serve_no_flash I.rom (x.phyMemIn e m) x.phy.serialportDataLatch
    (p := x.phy.receive e.receive) (by rw [h0]; exact h.state) (hsig.trans h.signal)
    (fun hn => hno (h0.symm.trans hn))
  refine ⟨h1, h2, ?_⟩
  have hf := h.flash
  change (x.flash.tick x.flashIn I.flash e.flashFloating).state = _
  simp [Flash.tick, hf, flashIn, h.signal]

/-- `flash` follows `phy_mem`. -/
def FlashPhase (I : Image) (x : Physical) : Prop :=
  FlashIdle x ∨ ∃ a k, 1 ≤ k ∧ k ≤ 13 ∧ FlashAt I a k x

theorem FlashPhase.tick (h : FlashPhase I x) : FlashPhase I (x.tick I e m) := by
  rcases h with h | ⟨a, k, h1, h13, h⟩
  · by_cases hno : x.phy.state = 0 ∧ m.toPhysicalReadEnable = true ∧
        m.toPhysicalAddr.extractLsb 23 22 = 0b00#2
    · exact .inr ⟨_, 1, by omega, by omega, h.start I e m hno.1 hno.2.1 hno.2.2⟩
    · exact .inl (h.tick I e m fun hs hn => hno ⟨hs, hn⟩)
  · by_cases hk : k = 13
    · subst hk
      exact .inl (h.last I e m).1
    · exact .inr ⟨a, k + 1, by omega, by omega, h.tick I e m h1 (by omega)⟩

variable {I} in
theorem FlashPhase.idle (h : FlashPhase I x) (hs : x.phy.state = 0) : FlashIdle x := by
  rcases h with h | ⟨a, k, h1, -, h⟩
  · exact h
  · have := h.state
    omega

end Tick

/-- A read of the ROM is answered at the edge that accepts it. -/
theorem tick_rom {I : Image} {e : Ext} {m : Mmu} {x : Physical} {k : BitVec 22}
    (hs : x.phy.state = 0)
    (h : (x.phy.receive e.receive).begins (x.phyMemIn e m) = some (.rom k)) :
    (x.tick I e m).phy.state = 0 ∧ (x.tick I e m).phy.dataOut = I.rom k := by
  obtain ⟨h0, -⟩ := PhyMem.receive_flash (p := x.phy) e.receive
  change ((x.phy.receive e.receive).serve I.rom (x.phyMemIn e m) x.phy.serialportDataLatch).state
      = _ ∧
    ((x.phy.receive e.receive).serve I.rom (x.phyMemIn e m) x.phy.serialportDataLatch).dataOut = _
  rw [PhyMem.serve_of_begins_rom I.rom _ h]
  exact ⟨h0.trans hs, rfl⟩

/-- Four edges of a read of the Flash. -/
theorem FlashAt.ticks {I : Image} {e₀ e₁ e₂ e₃ : Ext} {m₀ m₁ m₂ m₃ : Mmu} {x : Physical}
    {a : BitVec 22} {k : ℕ} (h : FlashAt I a k x) (h1 : 1 ≤ k) (h9 : k ≤ 9) :
    FlashAt I a (k + 4) (ticks I e₀ e₁ e₂ e₃ m₀ m₁ m₂ m₃ x) :=
  (((h.tick I e₀ m₀ h1 (by omega)).tick I e₁ m₁ (by omega) (by omega)).tick I e₂ m₂ (by omega)
    (by omega)).tick I e₃ m₃ (by omega) (by omega)

end Physical

/-! ## The words of the address space -/

/-- The physical addresses of the Flash. -/
def InFlash (pa : BitVec 32) : Prop := 0x1e000000 ≤ pa.toNat ∧ pa.toNat < 0x1f000000

/-- The physical addresses of the words that `boot_rom` holds. -/
def InBootRom (pa : BitVec 32) : Prop :=
  0x10000000 ≤ pa.toNat ∧ pa.toNat < 0x10000000 + 4 * romSize

/-- The 16 bits of the Flash at a word address, zero-extended. Word `i` is at the even address
`2 * i` of the chip. -/
def Image.flashWord (I : Image) (pa : BitVec 32) : BitVec 32 :=
  (I.flash (BitVec.ofNat 23 ((pa.toNat - 0x1e000000) / 4 * 2))).zeroExtend 32

/-- The word of the ROM at a word address. -/
def Image.romWord (I : Image) (pa : BitVec 32) : BitVec 32 :=
  I.rom (BitVec.ofNat 22 ((pa.toNat - 0x10000000) / 4))

section Words

variable {pa : BitVec 32}

theorem InFlash.word (h : InFlash pa) (I : Image) :
    I.flashWord pa = 0x0000#16 ++ I.flash (pa.extractLsb 23 2 ++ 0b0#1) := by
  have haddr : BitVec.ofNat 23 ((pa.toNat - 0x1e000000) / 4 * 2) =
      pa.extractLsb 23 2 ++ 0b0#1 := by
    have hlt := h.2
    have hle := h.1
    apply BitVec.eq_of_toNat_eq
    simp only [BitVec.toNat_ofNat, BitVec.toNat_append, BitVec.extractLsb_toNat,
      Nat.shiftRight_eq_div_pow]
    simp [Nat.shiftLeft_eq]
    omega
  rw [Image.flashWord, haddr]
  exact BitVec.setWidth_eq_append (by decide)

theorem InBootRom.place (h : InBootRom pa) :
    placeOf pa = .rom (BitVec.ofNat 22 ((pa.toNat - 0x10000000) / 4)) := by
  obtain ⟨hle, hlt⟩ := h
  have hsize : romSize = 84 := rfl
  have h1 : pa.extractLsb 31 24 ≠ 0x1e#8 := fun hn => by
    have := (extract_flash pa).1 hn
    omega
  have h2 : pa.extractLsb 31 23 ≠ 0#9 := fun hn => by
    have := (extract_ram pa).1 hn
    omega
  have h3 : pa ≠ physicalSerialData := by
    rintro rfl
    have : physicalSerialData.toNat = 0x1fd003f8 := rfl
    omega
  have h4 : pa.extractLsb 31 12 = 0x10000#20 := (extract_rom pa).2 (by omega)
  rw [placeOf, if_neg h1, if_neg h2, if_neg h3, if_pos h4]
  congr 1
  apply BitVec.eq_of_toNat_eq
  simp only [BitVec.toNat_append, BitVec.extractLsb_toNat, Nat.shiftRight_eq_div_pow,
    BitVec.toNat_ofNat]
  simp
  omega

/-- The word address of a place. -/
def Place.base : Place → ℕ
  | .flash a => 0x1e000000 + 4 * a.toNat
  | .ram a => 4 * a.toNat
  | .serial => 0x1fd003f8
  | .rom k => 0x10000000 + 4 * k.toNat

theorem base_placeOf (h : HasDevice pa) (hal : pa.extractLsb 1 0 = 0b00#2) :
    (placeOf pa).base = pa.toNat := by
  have hmod : pa.toNat % 4 = 0 := by
    have := congrArg BitVec.toNat hal
    simpa [BitVec.extractLsb_toNat] using this
  have hserial : physicalSerialData.toNat = 0x1fd003f8 := rfl
  rcases h with ⟨hle, hlt⟩ | hlt | rfl | ⟨hle, hlt⟩
  · rw [placeOf, if_pos ((extract_flash pa).2 ⟨hle, hlt⟩)]
    simp only [Place.base, BitVec.extractLsb_toNat, Nat.shiftRight_eq_div_pow]
    omega
  · have h1 : pa.extractLsb 31 24 ≠ 0x1e#8 := fun hn => by
      have := (extract_flash pa).1 hn
      omega
    rw [placeOf, if_neg h1, if_pos ((extract_ram pa).2 hlt)]
    simp only [Place.base, BitVec.extractLsb_toNat, Nat.shiftRight_eq_div_pow]
    omega
  · rfl
  · rw [InBootRom.place ⟨hle, hlt⟩]
    have hsize : romSize = 84 := rfl
    simp only [Place.base, BitVec.toNat_ofNat]
    omega

/-- Distinct word addresses are distinct places of the devices. -/
theorem placeOf_injective {pa' : BitVec 32} (h : HasDevice pa) (h' : HasDevice pa')
    (hal : pa.extractLsb 1 0 = 0b00#2) (hal' : pa'.extractLsb 1 0 = 0b00#2)
    (he : placeOf pa = placeOf pa') : pa = pa' := by
  apply BitVec.eq_of_toNat_eq
  rw [← base_placeOf h hal, ← base_placeOf h' hal', he]

end Words

/-! ## The board -/

namespace Board

open Physical

variable {I : Image} {b c : Board} {a : BitVec 22}

theorem Reachable.flashPhase (h : Reachable I b) : FlashPhase I b.phys := by
  induction h with
  | reset h => exact .inl ⟨by rw [h.2.state]; omega, h.2.flashReadSignal, h.2.flash⟩
  | cycle x _ ih => exact (((ih.tick I x.e0 _).tick I x.e1 _).tick I x.e2 _).tick I x.e3 _

variable (I b) in
/-- The physical level before the edge at which the request of a cycle comes. -/
def phys3 (x : Exts) : Physical := (b.phys2 I x).tick I x.e2 (b.cpu.rise b.phys.out).mmu

theorem drive_succ (x : ℕ → Exts) (n : ℕ) :
    drive I x b (n + 1) = (drive I x b n).cycle I (x n) := by
  induction n generalizing x b with
  | zero => rfl
  | succ n ih => exact ih fun k => x (k + 1)

theorem Reachable.drive (h : Reachable I b) (x : ℕ → Exts) (n : ℕ) :
    Reachable I (Board.drive I x b n) := by
  induction n with
  | zero => exact h
  | succ n ih =>
    rw [drive_succ]
    exact ih.cycle _

/-- Until the answer the stage goes on. -/
theorem stage_drive (h : Reachable I b) (x : ℕ → Exts) (n : ℕ)
    (hb : ∀ k, 0 < k → k ≤ n → (drive I x b k).machine.phy.ready = false) :
    ∃ rs, Machine.Stage b.machine rs (drive I x b (n + 1)).machine := by
  induction n with
  | zero => exact ⟨_, .enter (h.step (x 0))⟩
  | succ n ih =>
    obtain ⟨rs, hs⟩ := ih fun k hk hn => hb k hk (by omega)
    rw [drive_succ]
    exact ⟨_, .stall hs (hb (n + 1) (by omega) (by omega)) ((h.drive x (n + 1)).step _)⟩

/-- A cycle in the middle of a Flash read. -/
theorem flash_cycle {k : ℕ} (h : FlashAt I a k c.phys) (h1 : 1 ≤ k) (h9 : k ≤ 9) (x : Exts) :
    FlashAt I a (k + 4) (c.cycle I x).phys :=
  h.ticks h1 h9

/-- The last cycle of a Flash read. The stage sends nothing more, so the word stays. -/
theorem flash_last (hr : Reachable I c) (h : FlashAt I a 13 c.phys) (hq : c.cpu.requests = false)
    (x : Exts) : (c.cycle I x).phys.phy.state = 0 ∧
      (c.cycle I x).phys.phy.dataOut = 0x0000#16 ++ I.flash (a ++ 0b0#1) := by
  obtain ⟨hinv, hrm⟩ := hr.inv
  have hb : c.machine.phy.ready = false := by
    refine Bool.eq_false_iff.2 (mt hinv.ready_iff.1 ?_)
    rw [h.state]
    decide
  have hq' : (c.cycle I x).cpu.requests = false := Machine.requests_stall hrm.control hb _
  simp only [Cpu.requests, Bool.or_eq_false_iff] at hq hq'
  obtain ⟨-, h0, hd0⟩ := h.last I x.e0 c.cpu.mmu
  obtain ⟨h1, hd1⟩ := tick_quiet (I := I) (e := x.e1) (m := (c.cpu.rise c.phys.out).mmu) h0
    hq.1 hq.2
  obtain ⟨h2, hd2⟩ := tick_quiet (I := I) (e := x.e2) (m := (c.cpu.rise c.phys.out).mmu) h1
    hq.1 hq.2
  obtain ⟨h3, hd3⟩ := tick_quiet (I := I) (e := x.e3) (m := (c.cycle I x).cpu.mmu) h2 hq'.1 hq'.2
  exact ⟨h3, hd3.trans (hd2.trans (hd1.trans hd0))⟩

/-! ## What a read returns -/

/-- What the CPU takes at the end `e` of the read that begins at `b`: as the instruction, or as the
data. -/
def seen (b e : Board) : BitVec 32 :=
  if b.machine.state = .insF then e.machine.instr else e.cpu.dataFromMmu e.phys.out

variable (I b) in
/-- The read that begins at `b` ends without an exception, and the CPU sees `v` at its end. -/
def Returns (x : ℕ → Exts) (v : BitVec 32) : Prop :=
  ∃ n, 0 < n ∧ (∀ k, 0 < k → k < n → (drive I x b k).machine.phy.ready = false) ∧
    (drive I x b n).machine.phy.ready = true ∧
    (drive I x b n).machine.state = (drive I x b n).cpu.succ b.machine.state ∧
    b.seen (drive I x b n) = v

/-- It is what is on the data lines. -/
theorem seen_eq {e : Board} (h : Machine.During b.machine e.machine)
    (hne : b.machine.access ≠ virtualSerialStatus) : b.seen e = e.phys.phy.dataOut := by
  unfold seen
  split_ifs with hf
  · have hreg : e.machine.cpu.mmu.stateReg = .insF := h.checks.stateReg.trans hf
    rw [Machine.instr, Cpu.instrFromMmu, Mmu.instruction, if_pos (.inl hreg)]
    rfl
  · have haddr : e.cpu.mmu.addr ≠ virtualSerialStatus := by
      rw [show e.cpu.mmu.addr = _ from h.checks.addr]
      exact hne
    rw [Cpu.dataFromMmu, Mmu.dataOut, Mmu.specialCom1Status, beq_eq_false_iff_ne.2 haddr]
    rfl

section Reads

variable (hr : Reachable I b) (ha : b.machine.Accesses)
include hr ha

theorem flashIdle_phys3 (x : Exts) : FlashIdle (b.phys3 I x) := by
  have hinv := hr.inv.1
  have hphase := ((hr.flashPhase.tick I x.e0 b.cpu.mmu).tick I x.e1
    (b.cpu.rise b.phys.out).mmu).tick I x.e2 (b.cpu.rise b.phys.out).mmu
  exact hphase.idle (idle_cycle hinv (hinv.ready_iff.1 ha.1) x).2

variable (hread : b.machine.reads = true) (hdir : notUseMmu b.machine.access = true)
  (hal : misaligned b.machine.cpu.id.alignType b.machine.access = false)
include hread hdir hal

omit hr ha hread in
theorem passes_direct : b.machine.passes = true ∧ b.machine.fault = none := by
  have hmiss : tlbMissing b.machine.cpu.mmu.tlbMem b.machine.access = false := by
    simp [tlbMissing, hdir]
  have hwr : tlbWritable b.machine.cpu.mmu.tlbMem b.machine.access = true := by
    simp [tlbWritable, hdir]
  constructor
  · simp [Machine.passes, hal, hmiss, hwr]
  · simp [Machine.fault, hal, hmiss, hwr]

omit hread in
/-- What is on the data lines when the physical level answers is what the CPU sees. -/
theorem returns_of_answer (hne : b.machine.access ≠ virtualSerialStatus) {x : ℕ → Exts} {n : ℕ}
    (hb : ∀ k, 0 < k → k ≤ n → (drive I x b k).machine.phy.ready = false)
    (hdone : (drive I x b (n + 1)).phys.phy.state = 0) :
    b.Returns I x (drive I x b (n + 1)).phys.phy.dataOut := by
  obtain ⟨rs, hs⟩ := stage_drive hr x n hb
  have hready : (drive I x b (n + 1)).machine.phy.ready = true :=
    (hr.drive x (n + 1)).inv.1.ready_iff.2 hdone
  obtain ⟨-, hdur⟩ := hs.during hr.inv.2 ha
  have hst := hs.state_eq hr.inv.2 ha hready
  rw [(passes_direct hdir hal).2] at hst
  exact ⟨n + 1, by omega, fun k hk hn => hb k hk (by omega), hready, hst, seen_eq hdur hne⟩

/-- The read is sent. -/
theorem sent_direct (hne : b.machine.access ≠ virtualSerialStatus) (x : Exts) :
    (b.cycle I x).cpu.mmu.toPhysicalReadEnable = true := by
  rw [(stands hr ha x).1, beq_eq_false_iff_ne.2 hne, (passes_direct hdir hal).1, hread]
  rfl

theorem returns_flash (hne : b.machine.access ≠ virtualSerialStatus)
    (hpa : b.physical.extractLsb 31 24 = 0x1e#8) (x : ℕ → Exts) :
    b.Returns I x (0x0000#16 ++ I.flash (b.physical.extractLsb 23 2 ++ 0b0#1)) := by
  have haddr : (b.cycle I (x 0)).cpu.mmu.toPhysicalAddr = 0b00#2 ++ b.physical.extractLsb 23 2 := by
    rw [(stands hr ha (x 0)).2.2, toPhysicalAddrReg, if_pos hpa]
  have hidle := flashIdle_phys3 hr ha (x 0)
  have hinv := hr.inv.1
  have hs3 : (b.phys3 I (x 0)).phy.state = 0 := (idle_cycle hinv (hinv.ready_iff.1 ha.1) (x 0)).2
  have h1 := hidle.start I (x 0).e3 (b.cycle I (x 0)).cpu.mmu hs3
    (sent_direct hr ha hread hdir hal hne (x 0)) (by rw [haddr]; exact (device_append _ _).1)
  rw [haddr, (device_append _ _).2] at h1
  have hat1 : FlashAt I (b.physical.extractLsb 23 2) 1 (drive I x b 1).phys := h1
  have hat5 := flash_cycle hat1 (by omega) (by omega) (x 1)
  have hat9 := flash_cycle hat5 (by omega) (by omega) (x 2)
  have hat13 := flash_cycle hat9 (by omega) (by omega) (x 3)
  have hbusy : ∀ k, 0 < k → k ≤ 4 → (drive I x b k).machine.phy.ready = false := by
    intro k hk hk4
    refine Bool.eq_false_iff.2 (mt (hr.drive x k).inv.1.ready_iff.1 ?_)
    interval_cases k
    · rw [hat1.state]
      decide
    · rw [show (drive I x b 2).phys.phy.state = _ from hat5.state]
      decide
    · rw [show (drive I x b 3).phys.phy.state = _ from hat9.state]
      decide
    · rw [show (drive I x b 4).phys.phy.state = _ from hat13.state]
      decide
  have hq : (drive I x b 4).cpu.requests = false :=
    Machine.requests_stall (hr.drive x 3).inv.2.control (hbusy 3 (by omega) (by omega)) _
  obtain ⟨hdone, hdata⟩ := flash_last (hr.drive x 4) hat13 hq (x 4)
  rw [← hdata]
  exact returns_of_answer hr ha hdir hal hne hbusy hdone

theorem returns_rom (hne : b.machine.access ≠ virtualSerialStatus) {k : BitVec 22}
    (hk : placeOf b.physical = .rom k) (x : ℕ → Exts) : b.Returns I x (I.rom k) := by
  have hinv := hr.inv.1
  have hs3 : (b.phys3 I (x 0)).phy.state = 0 := (idle_cycle hinv (hinv.ready_iff.1 ha.1) (x 0)).2
  obtain ⟨h0, -⟩ := PhyMem.receive_flash (p := (b.phys3 I (x 0)).phy) (x 0).e3.receive
  have hbegins : ((b.phys3 I (x 0)).phy.receive (x 0).e3.receive).begins
      ((b.phys3 I (x 0)).phyMemIn (x 0).e3 (b.cycle I (x 0)).cpu.mmu) = some (.rom k) := by
    rw [begins_eq (h0.trans hs3) (stands hr ha (x 0)).2.2, hk]
    exact if_pos (sent_direct hr ha hread hdir hal hne (x 0))
  obtain ⟨hdone, hdata⟩ : (drive I x b 1).phys.phy.state = 0 ∧
      (drive I x b 1).phys.phy.dataOut = I.rom k := tick_rom hs3 hbegins
  rw [← hdata]
  exact returns_of_answer hr ha hdir hal hne (n := 0) (fun _ _ _ => by omega) hdone

end Reads

variable (I b) in
/-- A read of a word of kseg0 or kseg1 that lies in the Flash or in the contents of the ROM returns
the word of that place. -/
def ReadsRight : Prop :=
  b.machine.reads = true → notUseMmu b.machine.access = true →
    b.machine.access.extractLsb 1 0 = 0b00#2 → ∀ x : ℕ → Exts,
      (InFlash b.physical → b.Returns I x (I.flashWord b.physical)) ∧
        (InBootRom b.physical → b.Returns I x (I.romWord b.physical))

theorem ne_serialStatus (hpa : InFlash b.physical ∨ InBootRom b.physical) :
    b.machine.access ≠ virtualSerialStatus := by
  intro hn
  have hdir : notUseMmu virtualSerialStatus = true := by decide
  have hphys : b.physical.toNat = 0x1fd003fc := by
    rw [physical, hn, physicalAddr, if_pos hdir]
    decide
  have hsize : romSize = 84 := rfl
  rcases hpa with ⟨-, hlt⟩ | ⟨-, hlt⟩ <;> omega

/-- A read of the Flash returns the word that the address is in, whichever of its bytes it is
for. -/
theorem returns_flashWord (hr : Reachable I b) (ha : b.machine.Accesses)
    (hread : b.machine.reads = true) (hdir : notUseMmu b.machine.access = true)
    (hal : misaligned b.machine.cpu.id.alignType b.machine.access = false)
    (hpa : InFlash b.physical) (x : ℕ → Exts) : b.Returns I x (I.flashWord b.physical) := by
  rw [hpa.word]
  exact returns_flash hr ha hread hdir hal (ne_serialStatus (.inl hpa)) ((extract_flash _).2 hpa) x

/-- Reads of the Flash and the ROM, in every run and whatever the accesses before were: each returns
the word of its address, each access is for the place of its address and distinct word addresses
are distinct places, and `flash` is idle when a request comes. -/
theorem reads_flash_rom (hr : Reachable I b) (ha : b.machine.Accesses) :
    b.ReadsRight I ∧
      (∀ x y t, t ∈ b.begun I x y → t = placeOf b.physical) ∧
      (∀ pa pa' : BitVec 32, HasDevice pa → HasDevice pa' → pa.extractLsb 1 0 = 0b00#2 →
        pa'.extractLsb 1 0 = 0b00#2 → pa ≠ pa' → placeOf pa ≠ placeOf pa') ∧
      ∀ x, FlashIdle (b.phys3 I x) := by
  refine ⟨fun hread hdir hquad x => ?_,
    fun x y t ht => (eq_place_of_begun hr ha x y ht).1,
    fun pa pa' h h' hal hal' => mt (placeOf_injective h h' hal hal'), flashIdle_phys3 hr ha⟩
  have hal := Machine.misaligned_quad b.machine.cpu.id.alignType hquad
  exact ⟨fun hpa => returns_flashWord hr ha hread hdir hal hpa x,
    fun hpa => returns_rom hr ha hread hdir hal (ne_serialStatus (.inr hpa)) hpa.place x⟩

/-- The ROM loads from the second word of a Flash that holds `0xbeef` there. -/
def loadsFlash : Image :=
  { romOf [0x3c01be00#32, 0x8c220004#32] with
    flash := fun a => if a = 2#23 then 0xbeef#16 else 0xffff#16 }

/-- The load returns `0xbeef`. -/
theorem reads_flash_second : (atReset.run loadsFlash 7).physical = 0x1e000004#32 ∧
    ∀ x, (atReset.run loadsFlash 7).Returns loadsFlash x 0xbeef#32 := by
  have hpa : (atReset.run loadsFlash 7).physical = 0x1e000004#32 := by decide +kernel
  have hread := (reads_flash_rom ((atReset_reachable loadsFlash).run 7)
    ⟨by decide +kernel, by decide +kernel⟩).1 (by decide +kernel) (by decide +kernel)
    (by decide +kernel)
  have hword : loadsFlash.flashWord 0x1e000004#32 = 0xbeef#32 := by decide
  refine ⟨hpa, fun x => ?_⟩
  have hx := (hread x).1
  rw [hpa, hword] at hx
  exact hx (by unfold InFlash; decide)

end Board

end CacheCPU
