import CacheCPU.Proofs.Divmod
import CacheCPU.Ucore.Trapentry
import Mathlib.Data.List.Nodup
import Mathlib.Tactic.SplitIfs

/-!
# The trap of `div`

`__alltraps` writes the registers but `$zero`, `$k0` and `$k1` to their places in the trapframe, so
the handler finds the operands by their numbers there, and `__trapret` reads back what the handler
has left. `$k0` and `$k1` are what the kernel works with on the way.
-/

namespace CacheCPU

namespace Ucore

open Isa Reg

/-! ## Stores -/

section Store

variable {base off v : BitVec 32} {l : List (BitVec 32 × BitVec 32)}

/-- Words stored one after the other at their distances from `base`. -/
def store (base : BitVec 32) (l : List (BitVec 32 × BitVec 32)) (mem : Memory) : Memory :=
  l.foldl (fun mem p => Function.update mem (base + p.1) p.2) mem

theorem store_of_not_mem : ∀ {l : List (BitVec 32 × BitVec 32)} {mem : Memory},
    off ∉ l.map Prod.fst → store base l mem (base + off) = mem (base + off)
  | [], _, _ => rfl
  | p :: l, mem, h => by
    rw [List.map_cons, List.mem_cons, not_or] at h
    refine (store_of_not_mem (l := l) h.2).trans (Function.update_of_ne ?_ _ _)
    exact fun he => h.1 ((BitVec.add_right_inj base).1 he)

theorem store_of_mem : ∀ {l : List (BitVec 32 × BitVec 32)} {mem : Memory},
    (l.map Prod.fst).Nodup → (off, v) ∈ l → store base l mem (base + off) = v
  | [], _, _, h => by simp at h
  | p :: l, mem, hn, h => by
    rw [List.map_cons, List.nodup_cons] at hn
    rcases List.mem_cons.1 h with rfl | h
    · exact (store_of_not_mem hn.1).trans (Function.update_self _ _ _)
    · exact store_of_mem (l := l) hn.2 h

end Store

/-! ## Registers -/

section Set

variable {s : Isa.State} {d r : BitVec 5} {v : BitVec 32}

theorem reg_set_of_ne (h : r ≠ d) : (s.set d v).reg r = s.reg r := by
  unfold Isa.State.set
  split_ifs
  · rfl
  · exact Function.update_of_ne h _ _

theorem reg_set_self (h : d ≠ 0#5) : (s.set d v).reg d = v := by
  unfold Isa.State.set
  rw [if_neg h]
  exact Function.update_self _ _ _

@[simp] theorem cp0_set : (s.set d v).cp0 = s.cp0 := by
  unfold Isa.State.set
  split_ifs <;> rfl

@[simp] theorem lo_set : (s.set d v).lo = s.lo := by
  unfold Isa.State.set
  split_ifs <;> rfl

@[simp] theorem hi_set : (s.set d v).hi = s.hi := by
  unfold Isa.State.set
  split_ifs <;> rfl

end Set

/-! ## The trapframe -/

/-- Where `struct trapframe` has a register. -/
def slot (r : BitVec 5) : BitVec 32 := 4#32 * r.zeroExtend 32

/-- The registers that are written to the trapframe. -/
def saved : List (BitVec 5) :=
  [at', v0, v1, a0, a1, a2, a3, t0, t1, t2, t3, t4, t5, t6, t7, s0, s1, s2, s3, s4, s5, s6, s7, t8,
    t9, gp, sp, fp, ra]

/-- All of the trapframe that is written. -/
def frame (s : Isa.State) : List (BitVec 32 × BitVec 32) :=
  saved.map (fun r => (slot r, s.reg r)) ++
    [(0x80#32, s.cp0 Cp0.status), (0x84#32, s.cp0 Cp0.cause), (0x88#32, s.cp0 Cp0.epc),
      (0x8c#32, s.cp0 Cp0.badVAddr), (0x90#32, s.lo), (0x94#32, s.hi)]

theorem frame_nodup (s : Isa.State) : ((frame s).map Prod.fst).Nodup := by
  have hoff : (frame s).map Prod.fst =
      saved.map slot ++ [0x80#32, 0x84#32, 0x88#32, 0x8c#32, 0x90#32, 0x94#32] := by
    simp [frame]
  rw [hoff]
  decide

/-- A trap from user mode goes to the stack of the kernel. -/
def frameBase (kstackSp : BitVec 32) (m : Machine) : BitVec 32 :=
  (if m.cpu.cp0 Cp0.status &&& 0x10#32 = 0#32 then m.cpu.reg sp else m.mem kstackSp) - 0xa0#32

theorem sub_frame (x : BitVec 32) : x + (-0xa0#16).signExtend 32 = x - 0xa0#32 := by
  rw [BitVec.sub_eq_add_neg]
  rfl

/-- A branch. -/
def Line.isBeq : Line → Bool
  | .beq _ _ _ => true
  | _ => false

section Run

variable (m : Machine) (lines : List Line)

theorem run_la (t : BitVec 5) (a : BitVec 32) :
    m.run 0 (.la t a :: lines) = Machine.run ⟨m.cpu.set t a, m.mem⟩ 0 lines := rfl

theorem run_lw (t : BitVec 5) (off : BitVec 32) (base : BitVec 5) :
    m.run 0 (.lw t off base :: lines) =
      Machine.run ⟨m.cpu.set t (m.mem (m.cpu.reg base + off)), m.mem⟩ 0 lines := rfl

theorem run_addiu (t s : BitVec 5) (imm : BitVec 16) :
    m.run 0 (Line.addiu t s imm :: lines) =
      Machine.run ⟨m.cpu.set t (m.cpu.reg s + imm.signExtend 32), m.mem⟩ 0 lines := rfl

/-- Lines without a branch, and then the others. -/
theorem run_append : ∀ (m : Machine) (l l' : List Line), l.all (¬ ·.isBeq) →
    m.run 0 (l ++ l') = (m.run 0 l).run 0 l'
  | _, [], _, _ => rfl
  | m, line :: l, l', h => by
    rw [List.all_cons, Bool.and_eq_true] at h
    have ih := run_append (m.exec line) l l' h.2
    cases line with
    | beq s t n => simp [Line.isBeq] at h
    | _ => exact ih

/-- The first three lines of `__alltraps`, and the branch. -/
theorem run_first (n : ℕ) :
    m.run 0 (Line.mfc0 k0 Cp0.status :: Line.andi k0 k0 0x0010#16 :: Line.move k1 sp ::
        .beq k0 zero n :: lines) =
      Machine.run ⟨((m.cpu.set k0 (m.cpu.cp0 Cp0.status)).set k0
        (m.cpu.cp0 Cp0.status &&& 0x10#32)).set k1 (m.cpu.reg sp + m.cpu.reg zero), m.mem⟩
        (if m.cpu.cp0 Cp0.status &&& 0x10#32 = m.cpu.reg zero then n else 0) lines := rfl

end Run

/-- The machine has gone to its stack: `$k1` keeps the old stack pointer. -/
structure Enters (kstackSp : BitVec 32) (m e : Machine) : Prop where
  reg : ∀ r, r ≠ k0 → r ≠ k1 → r ≠ sp → e.cpu.reg r = m.cpu.reg r
  old : e.cpu.reg k1 = m.cpu.reg sp
  stack : e.cpu.reg sp = frameBase kstackSp m
  cp0 : e.cpu.cp0 = m.cpu.cp0
  lo : e.cpu.lo = m.cpu.lo
  hi : e.cpu.hi = m.cpu.hi
  mem : e.mem = m.mem

theorem run_switch (kstackSp : BitVec 32) (m : Machine) (h0 : m.cpu.reg zero = 0#32)
    (lines : List Line) :
    ∃ e, Enters kstackSp m e ∧ m.run 0 ((alltraps kstackSp).take 7 ++ lines) = e.run 0 lines := by
  have hfirst := run_first m
    (.la sp kstackSp :: .lw sp 0#32 sp :: Line.addiu sp sp (-0xa0#16) :: lines) 2
  generalize hcpu : ((m.cpu.set k0 (m.cpu.cp0 Cp0.status)).set k0
    (m.cpu.cp0 Cp0.status &&& 0x10#32)).set k1 (m.cpu.reg sp + m.cpu.reg zero) = cpu at hfirst
  rw [h0] at hfirst hcpu
  have hreg : ∀ r, r ≠ k0 → r ≠ k1 → cpu.reg r = m.cpu.reg r := by
    intro r h1 h2
    rw [← hcpu, reg_set_of_ne h2, reg_set_of_ne h1, reg_set_of_ne h1]
  have hk1 : cpu.reg k1 = m.cpu.reg sp := by
    rw [← hcpu, reg_set_self (by decide), BitVec.add_zero]
  have hrest : cpu.cp0 = m.cpu.cp0 ∧ cpu.lo = m.cpu.lo ∧ cpu.hi = m.cpu.hi := by
    rw [← hcpu]
    simp
  -- what the stack pointer comes to, whichever way it has been loaded
  have henter : ∀ {c : Isa.State} {x : BitVec 32}, (∀ r, r ≠ sp → c.reg r = cpu.reg r) →
      c.cp0 = cpu.cp0 → c.lo = cpu.lo → c.hi = cpu.hi → x - 0xa0#32 = frameBase kstackSp m →
      Enters kstackSp m ⟨c.set sp (x + (-0xa0#16).signExtend 32), m.mem⟩ := by
    intro c x hr hc hl hh hx
    refine ⟨fun r h1 h2 h3 => ?_, ?_, ?_, ?_, ?_, ?_, rfl⟩
    · rw [reg_set_of_ne h3, hr r h3, hreg r h1 h2]
    · rw [reg_set_of_ne (by decide), hr k1 (by decide), hk1]
    · rw [reg_set_self (by decide), sub_frame, hx]
    · rw [cp0_set, hc, hrest.1]
    · rw [lo_set, hl, hrest.2.1]
    · rw [hi_set, hh, hrest.2.2]
  unfold frameBase at henter
  by_cases hk : m.cpu.cp0 Cp0.status &&& 0x10#32 = 0#32
  · rw [if_pos hk] at hfirst henter
    refine ⟨_, henter (fun _ _ => rfl) rfl rfl rfl rfl, hfirst.trans ?_⟩
    rw [← hreg sp (by decide) (by decide)]
    rfl
  · rw [if_neg hk] at hfirst henter
    refine ⟨_, henter (c := (cpu.set sp kstackSp).set sp (m.mem kstackSp)) (fun r hr => ?_)
      (by simp) (by simp) (by simp) rfl, hfirst.trans ?_⟩
    · rw [reg_set_of_ne hr, reg_set_of_ne hr]
    · rw [run_la, run_lw, run_addiu, reg_set_self (by decide), BitVec.add_zero,
        reg_set_self (by decide)]

/-- The lines of `__alltraps` behind the switch of the stack. -/
def pushes : List Line := (alltraps 0#32).drop 7

theorem run_pushes (m : Machine) :
    (m.run 0 pushes).mem = store (m.cpu.reg sp)
        (frame { m.cpu with reg := Function.update m.cpu.reg sp (m.cpu.reg k1) }) m.mem
      ∧ (m.run 0 pushes).cpu.reg a0 = m.cpu.reg sp + m.cpu.reg zero :=
  ⟨rfl, rfl⟩

theorem frame_congr {s s' : Isa.State} (hreg : ∀ r ∈ saved, s.reg r = s'.reg r)
    (hcp0 : s.cp0 = s'.cp0) (hlo : s.lo = s'.lo) (hhi : s.hi = s'.hi) : frame s = frame s' := by
  unfold frame
  rw [List.map_congr_left fun r hr => by rw [hreg r hr], hcp0, hlo, hhi]

/-- `__alltraps` builds the trapframe and passes it on. -/
theorem run_alltraps (kstackSp : BitVec 32) (m : Machine) (h0 : m.cpu.reg zero = 0#32) :
    (m.run 0 (alltraps kstackSp)).mem = store (frameBase kstackSp m) (frame m.cpu) m.mem
      ∧ (m.run 0 (alltraps kstackSp)).cpu.reg a0 = frameBase kstackSp m := by
  obtain ⟨e, he, hrun⟩ := run_switch kstackSp m h0 pushes
  have hsplit : alltraps kstackSp = (alltraps kstackSp).take 7 ++ pushes := rfl
  obtain ⟨hmem, ha0⟩ := run_pushes e
  rw [hsplit, hrun, hmem, ha0, he.stack, he.mem, he.reg zero (by decide) (by decide) (by decide), h0,
    BitVec.add_zero]
  refine ⟨congrArg (store _ · _) (frame_congr (fun r hr => ?_) he.cp0 he.lo he.hi), rfl⟩
  have hne : ∀ r ∈ saved, r ≠ k0 ∧ r ≠ k1 := by decide
  by_cases hr' : r = sp
  · rw [hr']
    exact (Function.update_self sp _ e.cpu.reg).trans he.old
  · exact (Function.update_of_ne hr' _ _).trans (he.reg r (hne r hr).1 (hne r hr).2 hr')

/-! ## `__trapret` -/

section Restore

variable (m : Machine)

/-- `__trapret` up to the branch. -/
theorem run_pops (r : BitVec 5) (hr : r ∈ saved.erase sp) :
    (m.run 0 (trapret.take 44)).cpu.reg r = m.mem (m.cpu.reg sp + slot r) := by
  have hsaved : saved.erase sp = [at', v0, v1, a0, a1, a2, a3, t0, t1, t2, t3, t4, t5, t6, t7, s0,
      s1, s2, s3, s4, s5, s6, s7, t8, t9, gp, fp, ra] := rfl
  revert r
  rw [hsaved]
  simp only [List.forall_mem_cons]
  and_intros <;> first | rfl | simp

theorem run_pops_rest : (m.run 0 (trapret.take 44)).cpu.lo = m.mem (m.cpu.reg sp + 0x90#32)
    ∧ (m.run 0 (trapret.take 44)).cpu.hi = m.mem (m.cpu.reg sp + 0x94#32)
    ∧ (m.run 0 (trapret.take 44)).cpu.cp0 Cp0.epc = m.mem (m.cpu.reg sp + 0x88#32)
    ∧ (m.run 0 (trapret.take 44)).cpu.reg zero = m.cpu.reg zero
    ∧ (m.run 0 (trapret.take 44)).cpu.reg k1 = m.mem (m.cpu.reg sp + slot sp)
    ∧ (m.run 0 (trapret.take 44)).cpu.reg sp = m.cpu.reg sp + 0xa0#32
    ∧ (m.run 0 (trapret.take 44)).cpu.reg k0 = (m.mem (m.cpu.reg sp + 0x80#32)
      ||| m.cpu.cp0 Cp0.status &&& (m.cpu.reg zero + 0xffffff00#32)) &&& 0x10#32 :=
  ⟨rfl, rfl, rfl, rfl, rfl, rfl, rfl⟩

theorem run_trapret :
    m.run 0 trapret = (m.run 0 (trapret.take 44)).run 0 [.beq k0 zero 1, Line.move sp k1] :=
  run_append m (trapret.take 44) _ (by decide)

/-- The mode is that of the trapframe. -/
theorem status_mode (x y : BitVec 32) :
    (x ||| y &&& (0#32 + 0xffffff00#32)) &&& 0x10#32 = x &&& 0x10#32 := by
  rw [BitVec.and_or_distrib_right, BitVec.and_assoc]
  have hmask : (0#32 + 0xffffff00#32) &&& 0x10#32 = 0#32 := by decide
  rw [hmask, BitVec.and_zero, BitVec.or_zero]

/-- What is read back from the trapframe at `$sp`. -/
structure Restores (m m' : Machine) : Prop where
  lo : m'.cpu.lo = m.mem (m.cpu.reg sp + 0x90#32)
  hi : m'.cpu.hi = m.mem (m.cpu.reg sp + 0x94#32)
  epc : m'.cpu.cp0 Cp0.epc = m.mem (m.cpu.reg sp + 0x88#32)
  hardwired : m'.cpu.reg zero = 0#32
  reg : ∀ r ∈ saved.erase sp, m'.cpu.reg r = m.mem (m.cpu.reg sp + slot r)
  stack : m'.cpu.reg sp = if m.mem (m.cpu.reg sp + 0x80#32) &&& 0x10#32 = 0#32 then
    m.cpu.reg sp + 0xa0#32 else m.mem (m.cpu.reg sp + slot sp)
  mode : m'.cpu.reg k0 = m.mem (m.cpu.reg sp + 0x80#32) &&& 0x10#32

theorem restores (h0 : m.cpu.reg zero = 0#32) : Restores m (m.run 0 trapret) := by
  obtain ⟨hlo, hhi, hepc, hzero, hk1, hsp, hk0⟩ := run_pops_rest m
  have hreg := run_pops m
  have hrun := run_trapret m
  generalize m.run 0 (trapret.take 44) = e at *
  rw [h0] at hzero hk0
  rw [status_mode] at hk0
  have hbranch : e.run 0 [.beq k0 zero 1, Line.move sp k1] =
      e.run (if e.cpu.reg k0 = e.cpu.reg zero then 1 else 0) [Line.move sp k1] := rfl
  rw [hrun, hbranch, hk0, hzero]
  have hne : ∀ r ∈ saved.erase sp, r ≠ sp := by decide
  by_cases hmode : m.mem (m.cpu.reg sp + 0x80#32) &&& 0x10#32 = 0#32
  · rw [if_pos hmode]
    exact ⟨hlo, hhi, hepc, hzero, hreg, by rw [if_pos hmode]; exact hsp, hk0⟩
  · rw [if_neg hmode]
    have hmove : e.run 0 [Line.move sp k1] =
        ⟨e.cpu.set sp (e.cpu.reg k1 + e.cpu.reg zero), e.mem⟩ := rfl
    rw [hmove, hzero, hk1, BitVec.add_zero]
    refine ⟨?_, ?_, ?_, ?_, fun r hr => ?_, ?_, ?_⟩
    · rw [lo_set, hlo]
    · rw [hi_set, hhi]
    · rw [cp0_set, hepc]
    · rw [reg_set_of_ne (by decide), hzero]
    · rw [reg_set_of_ne (hne r hr), hreg r hr]
    · rw [if_neg hmode, reg_set_self (by decide)]
    · rw [reg_set_of_ne (by decide), hk0]

end Restore

/-! ## `div` -/

/-- `div rs, rt`. -/
def IsDiv (w : BitVec 32) : Prop := w &&& 0xfc00ffff#32 = 0x0000001a#32

instance (w : BitVec 32) : Decidable (IsDiv w) := inferInstanceAs (Decidable (_ = _))

theorem and_mask (x : BitVec 32) : (x &&& 0x1f#32).toNat = x.toNat % 32 := by
  rw [BitVec.toNat_and]
  exact Nat.and_two_pow_sub_one_eq_mod x.toNat 5

theorem slot_rsOf (w : BitVec 32) : 4#32 * (w >>> 21 &&& 0x1f#32) = slot (rsOf w) := by
  refine congrArg (4#32 * ·) (BitVec.eq_of_toNat_eq ?_)
  rw [and_mask, rsOf]
  simp
  omega

theorem slot_rtOf (w : BitVec 32) : 4#32 * (w >>> 16 &&& 0x1f#32) = slot (rtOf w) := by
  refine congrArg (4#32 * ·) (BitVec.eq_of_toNat_eq ?_)
  rw [and_mask, rtOf]
  simp
  omega

/-- `__trapret` is entered with the trapframe as it is in `mem`. -/
structure Returns (tf : BitVec 32) (mem : Memory) (m : Machine) : Prop where
  stack : m.cpu.reg sp = tf
  hardwired : m.cpu.reg zero = 0#32
  frame : ∀ off : BitVec 32, off.toNat < 0x98 → m.mem (tf + off) = mem (tf + off)

/-- The quotient and the remainder are in `LO` and `HI` behind the trap, the registers that are kept
are as before it, and it goes on behind the instruction. -/
def Emulated (m : Machine) (kept : BitVec 5 → Prop) (a b : BitVec 32) (tf : BitVec 32)
    (mem : Memory) : Prop :=
  ∀ m', Returns tf mem m' →
    (m'.run 0 trapret).cpu.lo = BitVec.ofInt 32 (a.toInt.tdiv b.toInt)
    ∧ (m'.run 0 trapret).cpu.hi = BitVec.ofInt 32 (a.toInt.tmod b.toInt)
    ∧ (m'.run 0 trapret).cpu.cp0 Cp0.epc = m.cpu.cp0 Cp0.epc + 4#32
    ∧ ∀ r, kept r → (m'.run 0 trapret).cpu.reg r = m.cpu.reg r

/-- The trap of `div` for any two registers, as if none of them were special. -/
def DivEmulation (kstackSp : BitVec 32) (m : Machine) : Prop :=
  ∀ tf mem w, tf = (m.run 0 (alltraps kstackSp)).cpu.reg a0 →
    mem = (m.run 0 (alltraps kstackSp)).mem → w = mem (m.cpu.cp0 Cp0.epc) →
    (IsDiv w → m.cpu.reg (rtOf w) ≠ 0#32 → ∃ mem', riHandler tf mem = some (0, mem')
      ∧ Emulated m (fun _ => True) (m.cpu.reg (rsOf w)) (m.cpu.reg (rtOf w)) tf mem')
    ∧ ((IsDiv w → m.cpu.reg (rtOf w) = 0#32) → riHandler tf mem = some (-1, mem))

section Handler

variable {m : Machine} {tf : BitVec 32} {mem : Memory}

/-- The trapframe of `m` at `tf`. -/
structure Framed (m : Machine) (tf : BitVec 32) (mem : Memory) : Prop where
  reg : ∀ r ∈ saved, mem (tf + slot r) = m.cpu.reg r
  status : mem (tf + 0x80#32) = m.cpu.cp0 Cp0.status
  cause : mem (tf + 0x84#32) = m.cpu.cp0 Cp0.cause
  epc : mem (tf + 0x88#32) = m.cpu.cp0 Cp0.epc

theorem framed (kstackSp : BitVec 32) (h0 : m.cpu.reg zero = 0#32) :
    Framed m ((m.run 0 (alltraps kstackSp)).cpu.reg a0) (m.run 0 (alltraps kstackSp)).mem := by
  obtain ⟨hmem, ha0⟩ := run_alltraps kstackSp m h0
  rw [hmem, ha0]
  have hget : ∀ {off v : BitVec 32}, (off, v) ∈ frame m.cpu →
      store (frameBase kstackSp m) (frame m.cpu) m.mem (frameBase kstackSp m + off) = v :=
    fun h => store_of_mem (frame_nodup m.cpu) h
  refine ⟨fun r hr => hget ?_, hget ?_, hget ?_, hget ?_⟩
  · exact List.mem_append_left _ (List.mem_map_of_mem hr)
  all_goals exact List.mem_append_right _ (by simp)

theorem riHandler_other (hf : Framed m tf mem)
    (hri : m.cpu.cp0 Cp0.cause >>> 2 &&& 0x1f#32 = excRI)
    (hw : ¬ IsDiv (mem (m.cpu.cp0 Cp0.epc))) : riHandler tf mem = some (-1, mem) := by
  unfold riHandler
  rw [hf.cause, hf.epc, if_neg (not_not.2 hri)]
  exact if_neg hw

theorem riHandler_div (hf : Framed m tf mem)
    (hri : m.cpu.cp0 Cp0.cause >>> 2 &&& 0x1f#32 = excRI) {w : BitVec 32}
    (hw : mem (m.cpu.cp0 Cp0.epc) = w) (hdiv : IsDiv w) :
    riHandler tf mem = match divmod (mem (tf + slot (rsOf w))) (mem (tf + slot (rtOf w))) with
      | none => some (-1, mem)
      | some (q, r) => some (0, Function.update
          (Function.update (Function.update mem (tf + 0x90#32) q) (tf + 0x94#32) r)
          (tf + 0x88#32) (m.cpu.cp0 Cp0.epc + 4#32)) := by
  have hne : ∀ {a b : BitVec 32}, a ≠ b → tf + a ≠ tf + b :=
    fun h he => h ((BitVec.add_right_inj tf).1 he)
  unfold riHandler
  rw [hf.cause, hf.epc, if_neg (not_not.2 hri)]
  simp only [hw]
  rw [if_pos (show w &&& 0xfc00ffff#32 = 0x0000001a#32 from hdiv), slot_rsOf, slot_rtOf]
  cases divmod (mem (tf + slot (rsOf w))) (mem (tf + slot (rtOf w))) with
  | none => rfl
  | some p =>
    simp only
    rw [Function.update_of_ne (hne (by decide)), Function.update_of_ne (hne (by decide)), hf.epc]

theorem saved_cases (r : BitVec 5) (h0 : r ≠ k0) (h1 : r ≠ k1) :
    r = zero ∨ r = sp ∨ r ∈ saved.erase sp := by
  revert r
  decide

/-- Behind a handler that has changed no more than the results. -/
theorem emulated (hf : Framed m tf mem) (h0 : m.cpu.reg zero = 0#32)
    (htf : m.cpu.cp0 Cp0.status &&& 0x10#32 = 0#32 → tf + 0xa0#32 = m.cpu.reg sp)
    (a b : BitVec 32) : Emulated m (fun r => r ≠ k0 ∧ r ≠ k1) a b tf
      (Function.update (Function.update (Function.update mem (tf + 0x90#32)
        (BitVec.ofInt 32 (a.toInt.tdiv b.toInt))) (tf + 0x94#32)
        (BitVec.ofInt 32 (a.toInt.tmod b.toInt))) (tf + 0x88#32) (m.cpu.cp0 Cp0.epc + 4#32)) := by
  rintro m' ⟨rfl, hzero, hframe⟩
  have hne : ∀ {x y : BitVec 32}, x ≠ y → m'.cpu.reg sp + x ≠ m'.cpu.reg sp + y :=
    fun h he => h ((BitVec.add_right_inj _).1 he)
  have hr := restores m' hzero
  -- what the handler leaves alone
  have hold : ∀ off : BitVec 32, off.toNat < 0x98 → off ≠ 0x88#32 → off ≠ 0x90#32 → off ≠ 0x94#32 →
      m'.mem (m'.cpu.reg sp + off) = mem (m'.cpu.reg sp + off) := by
    intro off hlt h1 h2 h3
    rw [hframe off hlt, Function.update_of_ne (hne h1), Function.update_of_ne (hne h3),
      Function.update_of_ne (hne h2)]
  have hslots : ∀ r ∈ saved, (slot r).toNat < 0x98 ∧ slot r ≠ 0x88#32 ∧ slot r ≠ 0x90#32
      ∧ slot r ≠ 0x94#32 := by decide
  have hsaved : ∀ r ∈ saved, m'.mem (m'.cpu.reg sp + slot r) = m.cpu.reg r := by
    intro r hr
    obtain ⟨h1, h2, h3, h4⟩ := hslots r hr
    rw [hold _ h1 h2 h3 h4, hf.reg r hr]
  refine ⟨?_, ?_, ?_, fun r ⟨hk0, hk1⟩ => ?_⟩
  · rw [hr.lo, hframe _ (by decide), Function.update_of_ne (hne (by decide)),
      Function.update_of_ne (hne (by decide)), Function.update_self]
  · rw [hr.hi, hframe _ (by decide), Function.update_of_ne (hne (by decide)), Function.update_self]
  · rw [hr.epc, hframe _ (by decide), Function.update_self]
  rcases saved_cases r hk0 hk1 with rfl | rfl | hmem
  · rw [hr.hardwired, h0]
  · rw [hr.stack, hold _ (by decide) (by decide) (by decide) (by decide), hf.status]
    split_ifs with hmode
    · exact htf hmode
    · exact hsaved sp (by decide)
  · rw [hr.reg r hmem, hsaved r (List.mem_of_mem_erase hmem)]

end Handler

/-- The registers whose places in the trapframe are written, of those that an instruction can name. -/
def Passed (r : BitVec 5) : Prop := r ≠ zero ∧ r ≠ k0 ∧ r ≠ k1

theorem Passed.saved {r : BitVec 5} (h : Passed r) : r ∈ saved := by
  rcases saved_cases r h.2.1 h.2.2 with he | rfl | hmem
  · exact absurd he h.1
  · decide
  · exact List.mem_of_mem_erase hmem

/-- `div` of two registers in the trapframe, with operands that `divmod` divides, leaves its results
in `LO` and `HI` and every register but `$k0` and `$k1` as it was; with a divisor of 0, and for any
other instruction, the handler gives up and leaves the trapframe alone. -/
theorem div_emulation (kstackSp : BitVec 32) (m : Machine) (h0 : m.cpu.reg zero = 0#32)
    (hri : m.cpu.cp0 Cp0.cause >>> 2 &&& 0x1f#32 = excRI) :
    ∀ tf mem w, tf = (m.run 0 (alltraps kstackSp)).cpu.reg a0 →
      mem = (m.run 0 (alltraps kstackSp)).mem → w = mem (m.cpu.cp0 Cp0.epc) →
      (IsDiv w → Passed (rsOf w) → Passed (rtOf w) → m.cpu.reg (rtOf w) ≠ 0#32 →
        Divisible (m.cpu.reg (rsOf w)) (m.cpu.reg (rtOf w)) → ∃ mem',
          riHandler tf mem = some (0, mem') ∧ Emulated m (fun r => r ≠ k0 ∧ r ≠ k1)
            (m.cpu.reg (rsOf w)) (m.cpu.reg (rtOf w)) tf mem')
      ∧ (IsDiv w → Passed (rtOf w) → m.cpu.reg (rtOf w) = 0#32 → riHandler tf mem = some (-1, mem))
      ∧ (¬ IsDiv w → riHandler tf mem = some (-1, mem)) := by
  rintro tf mem w rfl rfl rfl
  have hf := framed kstackSp h0
  refine ⟨fun hw hrs hrt hb hd => ?_, fun hw hrt hb => ?_, fun hw => riHandler_other hf hri hw⟩
  · rw [riHandler_div hf hri rfl hw, hf.reg _ hrs.saved, hf.reg _ hrt.saved,
      divmod_of_divisible hb hd]
    refine ⟨_, rfl, emulated hf h0 (fun hmode => ?_) _ _⟩
    rw [(run_alltraps kstackSp m h0).2, frameBase, if_pos hmode, BitVec.sub_add_cancel]
  · rw [riHandler_div hf hri rfl hw, hf.reg _ hrt.saved, hb]
    rfl

/-- A context in the kernel, with `w` at its program counter and words of 1 elsewhere. -/
def contextOf (w a b : BitVec 32) : Machine where
  cpu :=
    { reg := fun r =>
        if r = t0 then a else if r = t1 then b else if r = k0 then 5#32
        else if r = sp then 0x80100000#32 else 0#32
      hi := 0#32
      lo := 0#32
      cp0 := fun r => if r = Cp0.cause then 0x28#32 else if r = Cp0.epc then 0x80001000#32 else 0#32 }
  mem := fun x => if x = 0x80001000#32 then w else 1#32

/-- `div $t0, $t1` with -7 and 2. -/
theorem div_emulation_seven : ∃ mem',
    riHandler (((contextOf 0x0109001a#32 (-7#32) 2#32).run 0 (alltraps 0#32)).cpu.reg a0)
      ((contextOf 0x0109001a#32 (-7#32) 2#32).run 0 (alltraps 0#32)).mem = some (0, mem')
    ∧ Emulated (contextOf 0x0109001a#32 (-7#32) 2#32) (fun r => r ≠ k0 ∧ r ≠ k1) (-7#32) 2#32
      (((contextOf 0x0109001a#32 (-7#32) 2#32).run 0 (alltraps 0#32)).cpu.reg a0) mem' :=
  (div_emulation 0#32 (contextOf 0x0109001a#32 (-7#32) 2#32) rfl (by decide) _ _ 0x0109001a#32 rfl rfl
    (by decide +kernel)).1 (by decide) ⟨by decide, by decide, by decide⟩
    ⟨by decide, by decide, by decide⟩ (by decide) ⟨by decide, fun h => absurd h (by decide)⟩

/-- No trap keeps 5 in `$k0`. -/
theorem not_emulated {m : Machine} (hk : m.cpu.reg k0 = 5#32) (a b tf : BitVec 32) (mem : Memory) :
    ¬ Emulated m (fun _ => True) a b tf mem := by
  intro h
  let m' : Machine := ⟨⟨fun r => if r = sp then tf else 0#32, 0#32, 0#32, fun _ => 0#32⟩, mem⟩
  have hk0 := (h m' ⟨rfl, rfl, fun _ _ => rfl⟩).2.2.2 k0 trivial
  rw [(restores m' rfl).mode, hk] at hk0
  have hbit := congrArg (·.getLsbD 0) hk0
  simp at hbit

/-- `$k0` does not survive the trap; and a divisor of 0 from `$zero` is not found out, since what is
in its place in the trapframe is what has been on the stack before. -/
theorem not_div_emulation :
    ¬ DivEmulation 0#32 (contextOf 0x0109001a#32 (-7#32) 2#32)
      ∧ ¬ DivEmulation 0#32 (contextOf 0x0100001a#32 (-7#32) 2#32) := by
  constructor
  · intro h
    obtain ⟨mem', -, hem⟩ := (h _ _ 0x0109001a#32 rfl rfl (by decide +kernel)).1 (by decide)
      (by decide)
    exact not_emulated rfl _ _ _ _ hem
  · intro h
    have hgives := (h _ _ 0x0100001a#32 rfl rfl (by decide +kernel)).2 fun _ => rfl
    have hzero : (riHandler (((contextOf 0x0100001a#32 (-7#32) 2#32).run 0 (alltraps 0#32)).cpu.reg a0)
        ((contextOf 0x0100001a#32 (-7#32) 2#32).run 0 (alltraps 0#32)).mem).map Prod.fst = some 0 := by
      decide +kernel
    rw [hgives] at hzero
    cases hzero

end Ucore

end CacheCPU
