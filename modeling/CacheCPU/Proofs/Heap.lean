import CacheCPU.Decaf.Heap
import CacheCPU.Lib.Patch
import CacheCPU.Proofs.Generated

/-!
# Objects in the buffer of `_Alloc`

The code for `new` asks for a number of bytes that has wrapped around, and then clears as many words
as that number says. The block is what the object needs as long as it is no longer than the buffer.
For more, all depends on `_Alloc`: it stops the program unless `cur_size` wraps around, too.
-/

namespace CacheCPU

namespace Decaf

namespace Heap

open ByteMemory Patch Relation

variable {L : Linked} {f : Fragment} {s s' : State} {rest : List Tac}

/-! ## Steps of a fragment -/

namespace Fragment

theorem next_instr {i : Instr} (h : exec L i s = some s') (hl : f.post.length ≤ rest.length) :
    f.Next L (.instr i :: rest, s) (rest, s') := by
  refine ⟨Nat.lt_succ_of_le hl, .inr ⟨i, ?_⟩⟩
  have hm : (machine L).exec i s = some s' := h
  unfold tacStep
  simp only [hm]

theorem next_mark {l : Label} (hl : f.post.length ≤ rest.length) :
    f.Next L (.mark l :: rest, s) (rest, s) :=
  ⟨Nat.lt_succ_of_le hl, .inl rfl⟩

theorem next_branch {l : Label} {c : List Tac} (hc : codeAt f.code l = c)
    (hl : f.post.length ≤ rest.length) : f.Next L (.branch l :: rest, s) (c, s) :=
  ⟨Nat.lt_succ_of_le hl, .inl (by rw [← hc]; rfl)⟩

theorem next_beqz {t : Temp} {l : Label} {c : List Tac} (hc : codeAt f.code l = c)
    (hl : f.post.length ≤ rest.length) :
    f.Next L (.beqz t l :: rest, s) (if s.temps t = 0#32 then c else rest, s) := by
  refine ⟨Nat.lt_succ_of_le hl, .inl ?_⟩
  change some (Trace.Act.silent
    (if decide (s.temps t = 0#32) then codeAt f.code l else rest, s)) = _
  rw [hc]
  simp only [decide_eq_true_eq]

theorem Next.unique {c d d' : List Tac × State} (h : f.Next L c d) (h' : f.Next L c d') :
    d = d' := by
  obtain ⟨-, h⟩ := h
  obtain ⟨-, h'⟩ := h'
  rcases h with h | ⟨i, h⟩ <;> rcases h' with h' | ⟨i', h'⟩ <;> rw [h] at h' <;> cases h' <;> rfl

variable (L f) in
/-- Any number of steps inside the fragment. -/
def Steps : List Tac × State → List Tac × State → Prop := ReflTransGen (f.Next L)

/-- Where no step follows, every run ends. -/
theorem Steps.end {c d e : List Tac × State} (hd : f.Steps L c d) (he : f.Steps L c e)
    (hend : ∀ x, ¬ f.Next L d x) : f.Steps L e d := by
  have huniq : Relator.RightUnique (f.Next L) := fun _ _ _ => Next.unique
  rcases ReflTransGen.total_of_right_unique huniq hd he with h | h
  · rcases ReflTransGen.cases_head_iff.1 h with rfl | ⟨x, hx, -⟩
    · exact .refl
    · exact absurd hx (hend x)
  · exact h

theorem not_next_post (x : List Tac × State) : ¬ f.Next L (f.post, s) x :=
  fun h => absurd h.1 (lt_irrefl _)

variable (L) in
/-- Operations one after the other. -/
def execs (is : List Instr) (s : State) : Option State := is.foldlM (fun s i => exec L i s) s

theorem steps_execs {is : List Instr} (h : execs L is s = some s')
    (hl : f.post.length ≤ rest.length) : f.Steps L (is.map Tac.instr ++ rest, s) (rest, s') := by
  induction is generalizing s with
  | nil =>
    cases h
    exact .refl
  | cons i is ih =>
    unfold execs at h
    rw [List.foldlM_cons] at h
    obtain ⟨s₁, h₁, h⟩ := Option.bind_eq_some_iff.1 h
    have hlen : f.post.length ≤ (is.map Tac.instr ++ rest).length := by
      rw [List.length_append]
      omega
    exact .head (next_instr h₁ hlen) (ih h)

end Fragment

/-! ## Clearing words -/

@[simp] theorem State.set_temps (dst : Temp) (v : BitVec 32) :
    (s.set dst v).temps = Function.update s.temps dst v := rfl

@[simp] theorem State.set_mem (dst : Temp) (v : BitVec 32) : (s.set dst v).mem = s.mem := rfl

@[simp] theorem State.set_curSize (dst : Temp) (v : BitVec 32) :
    (s.set dst v).curSize = s.curSize := rfl

theorem putWord_zero (M : BitVec 32 → BitVec 8) (a : BitVec 32) :
    putWord (k := 30) M a 0#32 = patch M a (fun _ => 0#8) 4 := by
  refine (putWord_eq_patch (k := 30) M a 0#32).trans (patch_congr fun i _ => ?_)
  simp [byteAt]

/-- One word less is to be cleared, and the one behind those has been. -/
theorem patch_clear (M : BitVec 32 → BitVec 8) (a : BitVec 32) {n : ℕ} (hn : 4 * (n + 1) ≤ 2 ^ 32) :
    patch (patch M (a - 4#32) (fun _ => 0#8) 4) (a - 4#32 - BitVec.ofNat 32 (4 * n)) (fun _ => 0#8)
      (4 * n) = patch M (a - BitVec.ofNat 32 (4 * (n + 1))) (fun _ => 0#8) (4 * (n + 1)) := by
  have ha : a - 4#32 - BitVec.ofNat 32 (4 * n) = a - BitVec.ofNat 32 (4 * (n + 1)) := by
    rw [Nat.mul_add, Nat.add_comm, BitVec.ofNat_add, sub_add_eq_sub_sub]
  have hd : a - 4#32 = a - BitVec.ofNat 32 (4 * (n + 1)) + BitVec.ofNat 32 (4 * n) := by
    rw [← ha, sub_add_cancel]
  rw [ha]
  conv_lhs => rw [hd]
  exact @patch_prepend 32 _ M _ (fun _ => 0#8) (4 * n) 4 (by omega)

theorem sub_word (n : ℕ) : BitVec.ofNat 32 (4 * (n + 1)) - 4#32 = BitVec.ofNat 32 (4 * n) := by
  rw [Nat.mul_add, BitVec.ofNat_add]
  exact add_sub_cancel_right _ _

theorem ofNat_eq_zero {n : ℕ} (hn : n < 2 ^ 30) : BitVec.ofNat 32 (4 * n) = 0#32 ↔ n = 0 := by
  rw [← BitVec.toNat_inj, BitVec.toNat_ofNat, BitVec.toNat_ofNat, Nat.mod_eq_of_lt (by omega)]
  omega

section Loop

variable {loop exit : Label} {size unit obj zeroTemp t₁ t₂ : Temp}

/-- What a loop that clears `n` words leaves. -/
structure Cleared (s s' : State) (a : BitVec 32) (n : ℕ) : Prop where
  mem : s'.mem = patch s.mem a (fun _ => 0#8) n
  curSize : s'.curSize = s.curSize

/-- The loop of `genNewArray`. -/
def arrayLoop (loop exit : Label) (size unit obj zeroTemp : Temp) (rest : List Tac) : List Tac :=
  .mark loop :: .instr (.binary .sub size size unit) :: .beqz size exit ::
    .instr (.binary .sub obj obj unit) :: .instr (.store zeroTemp obj 0) :: .branch loop ::
    .mark exit :: rest

theorem steps_arrayLoop
    (hloop : codeAt f.code loop = arrayLoop loop exit size unit obj zeroTemp rest)
    (hexit : codeAt f.code exit = .mark exit :: rest) (hl : f.post.length ≤ rest.length)
    (hso : obj ≠ size) (hzs : zeroTemp ≠ size) (hzo : zeroTemp ≠ obj) (hus : unit ≠ size)
    (huo : unit ≠ obj) {n : ℕ} (hn : n < 2 ^ 30)
    (hsize : s.temps size = BitVec.ofNat 32 (4 * (n + 1))) (hunit : s.temps unit = 4#32)
    (hzero : s.temps zeroTemp = 0#32) :
    ∃ s', f.Steps L (arrayLoop loop exit size unit obj zeroTemp rest, s) (rest, s') ∧
      s'.temps obj = s.temps obj - BitVec.ofNat 32 (4 * n) ∧
      Cleared s s' (s.temps obj - BitVec.ofNat 32 (4 * n)) (4 * n) := by
  induction n generalizing s with
  | zero =>
    have h1 : exec L (.binary .sub size size unit) s = some (s.set size 0#32) := by
      simp [exec, BinaryOp.value, hsize, hunit]
    have hz : (s.set size 0#32).temps size = 0#32 := Function.update_self _ _ _
    refine ⟨s.set size 0#32, ?_, ?_, ?_⟩
    · refine .head (Fragment.next_mark (by simp; omega)) ?_
      refine .head (Fragment.next_instr h1 (by simp; omega)) ?_
      refine .head (Fragment.next_beqz hexit (by simp; omega)) ?_
      rw [if_pos hz]
      exact .single (Fragment.next_mark hl)
    · simp [hso]
    · exact ⟨by simp, rfl⟩
  | succ n ih =>
    have hsub : exec L (.binary .sub size size unit) s =
        some (s.set size (BitVec.ofNat 32 (4 * (n + 1)))) := by
      simp only [exec, BinaryOp.value, hsize, hunit, sub_word, Option.map_some]
    have hz : (s.set size (BitVec.ofNat 32 (4 * (n + 1)))).temps size ≠ 0#32 := by
      rw [State.set_temps, Function.update_self]
      exact fun h => absurd ((ofNat_eq_zero hn).1 h) (by omega)
    obtain ⟨s₁, hs₁⟩ : ∃ s₁, s₁ = s.set size (BitVec.ofNat 32 (4 * (n + 1))) := ⟨_, rfl⟩
    rw [← hs₁] at hsub hz
    obtain ⟨s₂, hs₂⟩ : ∃ s₂, s₂ = { s₁.set obj (s.temps obj - 4#32) with
      mem := patch s.mem (s.temps obj - 4#32) (fun _ => 0#8) 4 } := ⟨_, rfl⟩
    have hexecs : Fragment.execs L [.binary .sub obj obj unit, .store zeroTemp obj 0] s₁ =
        some s₂ := by
      simp [Fragment.execs, exec, BinaryOp.value, hs₁, hs₂, hus, hso, hzs, hzo, hunit, hzero,
        putWord_zero]
    obtain ⟨s', hsteps, hobj, hclear⟩ := ih (s := s₂) (by omega) (by simp [hs₂, hs₁, hso.symm])
      (by simp [hs₂, hs₁, huo, hus, hunit]) (by simp [hs₂, hs₁, hzo, hzs, hzero])
    have hobj₂ : s₂.temps obj = s.temps obj - 4#32 := by simp [hs₂]
    have hmem := hclear.mem
    rw [hobj₂, hs₂] at hmem
    simp only [patch_clear s.mem (s.temps obj) (by omega : 4 * (n + 1) ≤ 2 ^ 32)] at hmem
    refine ⟨s', ?_, ?_, ?_, ?_⟩
    · refine .head (Fragment.next_mark (by simp; omega)) ?_
      refine .head (Fragment.next_instr hsub (by simp; omega)) ?_
      refine .head (Fragment.next_beqz hexit (by simp; omega)) ?_
      rw [if_neg hz]
      refine (Fragment.steps_execs hexecs (by simp; omega)).trans ?_
      exact .head (Fragment.next_branch hloop (by simp; omega)) hsteps
    · rw [hobj, hobj₂, sub_sub, ← BitVec.ofNat_add, Nat.mul_add, Nat.add_comm]
    · exact hmem
    · rw [hclear.curSize, hs₂, hs₁]
      rfl

/-- The loop of `genNewForClass`. -/
def classLoop (loop exit : Label) (size unit obj zeroTemp t₁ t₂ : Temp) (rest : List Tac) :
    List Tac :=
  .mark loop :: .instr (.binary .sub t₁ obj unit) :: .instr (.assign obj t₁) ::
    .instr (.binary .sub t₂ size unit) :: .instr (.assign size t₂) :: .beqz size exit ::
    .instr (.store zeroTemp obj 0) :: .branch loop :: .mark exit :: rest

theorem steps_classLoop
    (hloop : codeAt f.code loop = classLoop loop exit size unit obj zeroTemp t₁ t₂ rest)
    (hexit : codeAt f.code exit = .mark exit :: rest) (hl : f.post.length ≤ rest.length)
    (hso : obj ≠ size) (hzs : zeroTemp ≠ size) (hzo : zeroTemp ≠ obj) (hus : unit ≠ size)
    (huo : unit ≠ obj) (h1 : ∀ t ∈ [size, unit, obj, zeroTemp], t ≠ t₁)
    (h2 : ∀ t ∈ [size, unit, obj, zeroTemp], t ≠ t₂) {n : ℕ} (hn : n < 2 ^ 30)
    (hsize : s.temps size = BitVec.ofNat 32 (4 * (n + 1))) (hunit : s.temps unit = 4#32)
    (hzero : s.temps zeroTemp = 0#32) :
    ∃ s', f.Steps L (classLoop loop exit size unit obj zeroTemp t₁ t₂ rest, s) (rest, s') ∧
      s'.temps obj = s.temps obj - BitVec.ofNat 32 (4 * (n + 1)) ∧
      Cleared s s' (s.temps obj - BitVec.ofNat 32 (4 * n)) (4 * n) := by
  simp only [List.mem_cons, List.not_mem_nil, or_false, forall_eq_or_imp, forall_eq] at h1 h2
  obtain ⟨h1s, h1u, h1o, h1z⟩ := h1
  obtain ⟨h2s, h2u, h2o, h2z⟩ := h2
  have hturn : ∀ (m : ℕ) (s : State), s.temps size = BitVec.ofNat 32 (4 * (m + 1)) →
      s.temps unit = 4#32 → s.temps zeroTemp = 0#32 → ∃ s₁,
      Fragment.execs L [.binary .sub t₁ obj unit, .assign obj t₁, .binary .sub t₂ size unit,
        .assign size t₂] s = some s₁ ∧ s₁.temps obj = s.temps obj - 4#32 ∧
      s₁.temps size = BitVec.ofNat 32 (4 * m) ∧ s₁.temps unit = 4#32 ∧
      s₁.temps zeroTemp = 0#32 ∧ s₁.mem = s.mem ∧ s₁.curSize = s.curSize := by
    intro m s hsize hunit hzero
    refine ⟨(((s.set t₁ (s.temps obj - 4#32)).set obj (s.temps obj - 4#32)).set t₂
      (BitVec.ofNat 32 (4 * m))).set size (BitVec.ofNat 32 (4 * m)), ?_, ?_, ?_, ?_, ?_, rfl, rfl⟩
    · simp [Fragment.execs, exec, BinaryOp.value, hsize, hunit, h1s, h1u, hso.symm, huo,
        ← sub_word m]
    · simp [hso, h2o]
    · simp
    · simp [hus, h2u, huo, h1u, hunit]
    · simp [hzs, h2z, hzo, h1z, hzero]
  induction n generalizing s with
  | zero =>
    obtain ⟨s₁, hexecs, hobj, hz, -, -, hmem, hcur⟩ := hturn 0 s hsize hunit hzero
    refine ⟨s₁, ?_, hobj, by simpa using hmem, hcur⟩
    refine .head (Fragment.next_mark (by simp; omega)) ?_
    refine (Fragment.steps_execs hexecs (by simp; omega)).trans ?_
    refine .head (Fragment.next_beqz hexit (by simp; omega)) ?_
    rw [if_pos hz]
    exact .single (Fragment.next_mark hl)
  | succ n ih =>
    obtain ⟨s₁, hexecs, hobj, hs, hu, hz, hmem, hcur⟩ := hturn (n + 1) s hsize hunit hzero
    have hne : s₁.temps size ≠ 0#32 := by
      rw [hs]
      exact fun h => absurd ((ofNat_eq_zero hn).1 h) (by omega)
    obtain ⟨s₂, hs₂⟩ : ∃ s₂, s₂ = { s₁ with
      mem := patch s.mem (s.temps obj - 4#32) (fun _ => 0#8) 4 } := ⟨_, rfl⟩
    have hstore : exec L (.store zeroTemp obj 0) s₁ = some s₂ := by
      simp [exec, hs₂, hobj, hz, hmem, putWord_zero]
    obtain ⟨s', hsteps, hobj', hclear⟩ := ih (s := s₂) (by omega) (by simpa [hs₂] using hs)
      (by simpa [hs₂] using hu) (by simpa [hs₂] using hz)
    have hobj₂ : s₂.temps obj = s.temps obj - 4#32 := by simpa [hs₂] using hobj
    have hmem' := hclear.mem
    rw [hobj₂, hs₂] at hmem'
    simp only [patch_clear s.mem (s.temps obj) (by omega : 4 * (n + 1) ≤ 2 ^ 32)] at hmem'
    refine ⟨s', ?_, ?_, hmem', ?_⟩
    · refine .head (Fragment.next_mark (by simp; omega)) ?_
      refine (Fragment.steps_execs hexecs (by simp; omega)).trans ?_
      refine .head (Fragment.next_beqz hexit (by simp; omega)) ?_
      rw [if_neg hne]
      refine .head (Fragment.next_instr hstore (by simp; omega)) ?_
      exact .head (Fragment.next_branch hloop (by simp; omega)) hsteps
    · rw [hobj', hobj₂, sub_sub, ← BitVec.ofNat_add, Nat.mul_add 4 (n + 1), Nat.add_comm]
    · rw [hclear.curSize, hs₂]
      exact hcur

end Loop

/-! ## The code for an array -/

/-- With the temporaries from `n` on and the labels from `l` on: the check, what stands before the
allocation, and what stands behind it. -/
def arrayCheck (n l : ℕ) (length : Temp) : List Tac :=
  [.instr (.loadImm4 n 0), .instr (.binary .les (n + 1) length n), .beqz (n + 1) (.num l),
    .instr (.loadStrConst (n + 2) negativeArrSize), .instr (.parm (n + 2)),
    .instr (.directCall none Intrinsic.printString.label),
    .instr (.directCall none Intrinsic.halt.label)]

def arraySize (n : ℕ) (length : Temp) : List Instr :=
  [.loadImm4 (n + 3) WORD, .mult (n + 3) length, .mflo (n + 4),
    .binary .add (n + 5) (n + 3) (n + 4), .parm (n + 5)]

def arrayInit (n : ℕ) (length : Temp) : List Instr :=
  [.store length (n + 6) 0, .loadImm4 (n + 7) 0, .binary .add (n + 6) (n + 6) (n + 5)]

def arrayLoopOf (n l : ℕ) (rest : List Tac) : List Tac :=
  arrayLoop (.num (l + 1)) (.num (l + 2)) (n + 5) (n + 3) (n + 6) (n + 7) rest

def newArrayCode (n l : ℕ) (length : Temp) : List Tac :=
  arrayCheck n l length ++ Tac.mark (.num l) :: ((arraySize n length).map Tac.instr ++
    Tac.instr (.directCall (some (n + 6)) Intrinsic.allocate.label) ::
    ((arrayInit n length).map Tac.instr ++ arrayLoopOf n l []))

theorem run_append (t : Tac) (g : Gen) :
    (append t).run g = some ((), { g with code := g.code ++ [t] }) := rfl

theorem run_createTempI4 (g : Gen) :
    createTempI4.run g = some (g.nextTemp, { g with nextTemp := g.nextTemp + 1 }) := rfl

theorem run_createLabel (g : Gen) :
    createLabel.run g = some (.num g.nextLabel, { g with nextLabel := g.nextLabel + 1 }) := rfl

theorem genNewArray_run (g : Gen) (length : Temp) : (genNewArray length).run g =
    some (g.nextTemp + 6,
      { g with
        code := g.code ++ newArrayCode g.nextTemp g.nextLabel length
        nextTemp := g.nextTemp + 8
        nextLabel := g.nextLabel + 3 }) := by
  simp [genNewArray, genCheckNewArraySize, genTo, genBinary, genMul, genStore, genLoadImm4,
    genLoadStrConst, genParm, genCallVoid, genIntrinsicCall, run_append, run_createTempI4,
    run_createLabel, newArrayCode, arrayCheck, arraySize, arrayInit, arrayLoopOf, arrayLoop,
    StateT.run_bind]

/-! ## The allocation -/

theorem alloc_eq (cur : BitVec 32) {n : ℕ} (hn : n % 4 = 0) :
    alloc cur (BitVec.ofNat 32 n) =
      if 4096 < (cur + BitVec.ofNat 32 n).toInt then none else some (cur + BitVec.ofNat 32 n) := by
  have h3 : BitVec.ofNat 32 n &&& 3#32 = 0#32 := by
    apply BitVec.eq_of_toNat_eq
    rw [BitVec.toNat_and, BitVec.toNat_ofNat]
    change _ &&& 2 ^ 2 - 1 = 0
    rw [Nat.and_two_pow_sub_one_eq_mod]
    omega
  have hround : BitVec.ofNat 32 n + ((4#32 - (BitVec.ofNat 32 n &&& 3#32)) &&& 3#32) =
      BitVec.ofNat 32 n := by
    rw [h3]
    exact BitVec.add_zero _
  have hmax : (BitVec.ofNat 32 memBufSize).toInt = 4096 := by decide
  unfold alloc
  simp only [hround, BitVec.slt, hmax, decide_eq_true_eq]

/-- The bytes of an object: the first word and zeros. -/
def image (v : BitVec 32) (i : ℕ) : BitVec 8 :=
  if i < 4 then byteAt (BitVec.ofNat 2 i) v else 0#8

theorem putWord_image (M : BitVec 32 → BitVec 8) (a v : BitVec 32) :
    putWord (k := 30) M a v = patch M a (image v) 4 :=
  (putWord_eq_patch (k := 30) M a v).trans (patch_congr fun _ hi => (if_pos hi).symm)

theorem image_zero (v : BitVec 32) : (fun i => image v (4 + i)) = fun _ => 0#8 := by
  funext i
  exact if_neg (by omega)

/-- What running the code for `new` comes to: the program is stopped or there is a block at the old
end of the heap. -/
inductive Ran (L : Linked) (f : Fragment) (s : State) (start : State → BitVec 32) (v : BitVec 32)
    (n : ℕ) : Prop
  | full (hc : 4096 < (s.curSize + BitVec.ofNat 32 n).toInt) (h : f.Full L s)
  | made (s' : State) (hc : ¬ 4096 < (s.curSize + BitVec.ofNat 32 n).toInt) (h : f.Makes L s s')
      (hstart : start s' = L.buf + s.curSize)
      (hcur : s'.curSize = s.curSize + BitVec.ofNat 32 n)
      (hmem : n < 2 ^ 32 → s'.mem = patch s.mem (L.buf + s.curSize) (image v) n)

/-- A label that is not marked in the code before. -/
theorem Fragment.codeAt_body {a b : List Tac} {l : Label}
    (h : f.body ++ f.post = a ++ Tac.mark l :: b)
    (hpre : .mark l ∉ f.pre) (ha : .mark l ∉ a) : codeAt f.code l = .mark l :: b := by
  unfold Fragment.code
  rw [List.append_assoc, h, ← List.append_assoc]
  refine codeAt_append (fun hm => ?_) b
  exact (List.mem_append.1 hm).elim hpre ha

section Array

variable {n l : ℕ} {length : Temp}

/-- What stands behind the label after the check, from the allocation on. -/
def arrayRest (n l : ℕ) (length : Temp) (rest : List Tac) : List Tac :=
  .instr (.directCall (some (n + 6)) Intrinsic.allocate.label) ::
    ((arrayInit n length).map Tac.instr ++ arrayLoopOf n l rest)

theorem length_arrayRest (rest : List Tac) :
    (arrayRest n l length rest).length = rest.length + 11 := by
  simp [arrayRest, arrayInit, arrayLoopOf, arrayLoop]

/-- The state before the allocation, for `v` elements. -/
def beforeAllocate (n : ℕ) (v : BitVec 32) (s : State) : State :=
  { ((((s.set n 0#32).set (n + 1) 0#32).set (n + 3) 4#32).set (n + 4) (4#32 * v)).set (n + 5)
      (BitVec.ofNat 32 (4 + 4 * v.toNat)) with
    lo := 4#32 * v, parms := [BitVec.ofNat 32 (4 + 4 * v.toNat)] }

section Code

variable (hbody : f.body = newArrayCode n l length)
  (hfresh : ∀ k, l ≤ k → .mark (.num k) ∉ f.pre)
include hbody hfresh

theorem codeAt_arraySize : codeAt f.code (.num l) =
    Tac.mark (.num l) :: ((arraySize n length).map Tac.instr ++ arrayRest n l length f.post) :=
  Fragment.codeAt_body (a := arrayCheck n l length)
    (by simp [hbody, newArrayCode, arrayRest, arrayLoopOf, arrayLoop]) (hfresh l le_rfl)
    (by simp [arrayCheck])

theorem codeAt_arrayLoop : codeAt f.code (.num (l + 1)) = arrayLoopOf n l f.post :=
  Fragment.codeAt_body (a := arrayCheck n l length ++ Tac.mark (.num l) ::
    ((arraySize n length).map Tac.instr ++
    Tac.instr (.directCall (some (n + 6)) Intrinsic.allocate.label) ::
    (arrayInit n length).map Tac.instr))
    (by simp [hbody, newArrayCode, arrayLoopOf, arrayLoop]) (hfresh _ (by omega))
    (by simp [arrayCheck, arraySize, arrayInit])

theorem codeAt_arrayExit :
    codeAt f.code (.num (l + 2)) = Tac.mark (.num (l + 2)) :: f.post :=
  Fragment.codeAt_body (a := arrayCheck n l length ++ Tac.mark (.num l) ::
    ((arraySize n length).map Tac.instr ++
    Tac.instr (.directCall (some (n + 6)) Intrinsic.allocate.label) ::
    ((arrayInit n length).map Tac.instr ++ (arrayLoopOf n l []).take 6)))
    (by simp [hbody, newArrayCode, arrayLoopOf, arrayLoop]) (hfresh _ (by omega))
    (by simp [arrayCheck, arraySize, arrayInit, arrayLoopOf, arrayLoop])

/-- The check passes and the size is worked out. -/
theorem steps_arraySize (hlength : length < n) (hparms : s.parms = [])
    (hpos : 0 ≤ (s.temps length).toInt) : f.Steps L (f.body ++ f.post, s)
      (arrayRest n l length f.post, beforeAllocate n (s.temps length) s) := by
  obtain ⟨v, hv⟩ : ∃ v, v = s.temps length := ⟨_, rfl⟩
  rw [← hv] at hpos ⊢
  have hne : ∀ k, length ≠ n + k := fun k =>
    (Nat.lt_of_lt_of_le hlength (Nat.le_add_right n k)).ne
  have hne0 : length ≠ n := hne 0
  have hneg : v.slt 0#32 = false := by
    rw [BitVec.slt, decide_eq_false_iff_not, BitVec.toInt_zero]
    omega
  have hword : 4#32 + 4#32 * v = BitVec.ofNat 32 (4 + 4 * v.toNat) := by
    apply BitVec.eq_of_toNat_eq
    simp
  obtain ⟨s₁, hs₁⟩ : ∃ s₁, s₁ = (s.set n 0#32).set (n + 1) 0#32 := ⟨_, rfl⟩
  have hexecs₁ : Fragment.execs L [.loadImm4 n 0, .binary .les (n + 1) length n] s = some s₁ := by
    simp [Fragment.execs, exec, BinaryOp.value, truth, hs₁, hne0, ← hv, hneg]
  have hexecs₂ : Fragment.execs L (arraySize n length) s₁ = some (beforeAllocate n v s) := by
    simp [Fragment.execs, arraySize, exec, BinaryOp.value, hs₁, beforeAllocate, WORD, hne0, hne,
      ← hv, hword, hparms, State.set]
  have hbegin : f.body ++ f.post =
      [Instr.loadImm4 n 0, .binary .les (n + 1) length n].map Tac.instr ++
        (arrayCheck n l length).drop 2 ++ f.body.drop 7 ++ f.post := by
    simp [hbody, newArrayCode, arrayCheck]
  have hzero : s₁.temps (n + 1) = 0#32 := by simp [hs₁]
  rw [hbegin, List.append_assoc, List.append_assoc]
  refine (Fragment.steps_execs hexecs₁ (by simp; omega)).trans ?_
  refine .head (Fragment.next_beqz (codeAt_arraySize hbody hfresh) (by simp; omega)) ?_
  rw [if_pos hzero]
  refine .head (Fragment.next_mark (by simp [length_arrayRest]; omega)) ?_
  exact Fragment.steps_execs hexecs₂ (by simp [length_arrayRest])

/-- The length is stored at `a` and the loop makes the turns that the number of bytes says. -/
theorem steps_arrayInit (hlength : length < n) {a v : BitVec 32} (hobj : s.temps (n + 6) = a)
    (hv : s.temps length = v) (hunit : s.temps (n + 3) = 4#32)
    (hsize : s.temps (n + 5) = BitVec.ofNat 32 (4 + 4 * v.toNat)) :
    ∃ s', f.Steps L ((arrayInit n length).map Tac.instr ++ arrayLoopOf n l f.post, s) (f.post, s') ∧
      s'.temps (n + 6) = a + 4#32 ∧ s'.curSize = s.curSize ∧
      s'.mem = patch (putWord (k := 30) s.mem a v) (a + 4#32) (fun _ => 0#8)
        (4 * (v.toNat % 2 ^ 30)) := by
  have hne : ∀ k, length ≠ n + k := fun k =>
    (Nat.lt_of_lt_of_le hlength (Nat.le_add_right n k)).ne
  obtain ⟨s₁, hs₁⟩ : ∃ s₁, s₁ = { (s.set (n + 7) 0#32).set (n + 6)
      (a + BitVec.ofNat 32 (4 + 4 * v.toNat)) with
    mem := putWord (k := 30) s.mem a v } := ⟨_, rfl⟩
  have hexecs : Fragment.execs L (arrayInit n length) s = some s₁ := by
    simp [Fragment.execs, arrayInit, exec, BinaryOp.value, hs₁, hobj, hv, hsize, State.set]
  obtain ⟨m, hm⟩ : ∃ m, m = v.toNat % 2 ^ 30 := ⟨_, rfl⟩
  have hturns : BitVec.ofNat 32 (4 + 4 * v.toNat) = BitVec.ofNat 32 (4 * (m + 1)) := by
    apply BitVec.eq_of_toNat_eq
    simp only [BitVec.toNat_ofNat]
    omega
  obtain ⟨s', hsteps, hobj', hclear⟩ := @steps_arrayLoop L f s₁ f.post (.num (l + 1))
    (.num (l + 2)) (n + 5) (n + 3) (n + 6) (n + 7) (codeAt_arrayLoop hbody hfresh)
    (codeAt_arrayExit hbody hfresh) le_rfl (by simp) (by simp) (by simp) (by simp) (by simp) m
    (by omega) (by simp [hs₁, hsize, hturns]) (by simp [hs₁, hunit]) (by simp [hs₁])
  have hobj₁ : s₁.temps (n + 6) = a + BitVec.ofNat 32 (4 * (m + 1)) := by
    rw [← hturns, hs₁]
    simp
  have hend : s₁.temps (n + 6) - BitVec.ofNat 32 (4 * m) = a + 4#32 := by
    rw [hobj₁, add_sub_assoc, Nat.mul_add, Nat.mul_one, BitVec.ofNat_add, add_sub_cancel_left]
  rw [hend] at hobj' hclear
  refine ⟨s', (Fragment.steps_execs hexecs ?_).trans hsteps, hobj', ?_, ?_⟩
  · simp [arrayLoopOf, arrayLoop]
    omega
  · rw [hclear.curSize, hs₁]
    rfl
  · rw [hclear.mem, hs₁, ← hm]

end Code

variable {g : Gen} (hpre : f.pre = g.code)
  (hbody : f.body = newArrayCode g.nextTemp g.nextLabel length)
  (hlength : length < g.nextTemp) (hmarks : ∀ n, .mark (.num n) ∈ g.code → n < g.nextLabel)
  (hparms : s.parms = []) (hpos : 0 ≤ (s.temps length).toInt)
include hpre hbody hlength hmarks hparms hpos

theorem newArray_ran : Ran L f s (fun s' => s'.temps (g.nextTemp + 6) - 4#32) (s.temps length)
    (4 + 4 * (s.temps length).toNat) := by
  have hfresh : ∀ k, g.nextLabel ≤ k → .mark (.num k) ∉ f.pre := by
    rw [hpre]
    exact fun k hk h => absurd (hmarks k h) (by omega)
  have hsteps := steps_arraySize (L := L) hbody hfresh hlength hparms hpos
  obtain ⟨n, hn⟩ : ∃ n, n = g.nextTemp := ⟨_, rfl⟩
  obtain ⟨v, hv⟩ : ∃ v, v = s.temps length := ⟨_, rfl⟩
  rw [← hv] at hpos hsteps ⊢
  rw [← hn] at hlength hbody hsteps ⊢
  have hne : ∀ k, length ≠ n + k := fun k =>
    (Nat.lt_of_lt_of_le hlength (Nat.le_add_right n k)).ne
  have halloc := alloc_eq s.curSize (n := 4 + 4 * v.toNat) (by omega)
  by_cases hc : 4096 < (s.curSize + BitVec.ofNat 32 (4 + 4 * v.toNat)).toInt
  · rw [if_pos hc] at halloc
    refine .full hc ⟨_, _, _, hsteps, ?_, halloc⟩
    simp [arrayLoopOf, arrayLoop]
    omega
  · rw [if_neg hc] at halloc
    obtain ⟨s₁, hs₁⟩ : ∃ s₁, s₁ = { (beforeAllocate n v s).set (n + 6) (L.buf + s.curSize) with
      curSize := s.curSize + BitVec.ofNat 32 (4 + 4 * v.toNat), parms := [] } := ⟨_, rfl⟩
    have hcall : exec L (.directCall (some (n + 6)) Intrinsic.allocate.label)
        (beforeAllocate n v s) = some s₁ := by
      have hcur : (beforeAllocate n v s).curSize = s.curSize := rfl
      have hsize : (beforeAllocate n v s).parms = [BitVec.ofNat 32 (4 + 4 * v.toNat)] := rfl
      simp only [exec, if_true, hcur, hsize, List.headD_cons, halloc, Option.map_some, hs₁]
    obtain ⟨s', hsteps', hobj, hcur, hmem⟩ := steps_arrayInit (L := L) (s := s₁)
      (a := L.buf + s.curSize) (v := v) hbody hfresh hlength (by simp [hs₁])
      (by simp [hs₁, beforeAllocate, hne, show length ≠ n from hne 0, ← hv])
      (by simp [hs₁, beforeAllocate]) (by simp [hs₁, beforeAllocate])
    refine .made s' hc (hsteps.trans (.head (Fragment.next_instr hcall ?_) hsteps')) ?_ ?_
      fun hlt => ?_
    · simp [arrayLoopOf, arrayLoop]
      omega
    · simp only [hobj]
      exact add_sub_cancel_right _ _
    · rw [hcur, hs₁]
    · have hmv : v.toNat % 2 ^ 30 = v.toNat := by omega
      rw [hmem, hs₁, hmv]
      simp only [putWord_image, ← image_zero v]
      exact @patch_append 32 _ s.mem (L.buf + s.curSize) (image v) 4 (4 * v.toNat) hlt.le

end Array

/-! ## The code for an object -/

theorem run_forM_genStore (src base : Temp) (offset : ℕ → ℤ) (is : List ℕ) (g : Gen) :
    (forM is fun i => genStore src base (offset i)).run g = some ((), { g with
      code := g.code ++ (is.map fun i => Instr.store src base (offset i)).map Tac.instr }) := by
  induction is generalizing g with
  | nil => simp
  | cons i is ih =>
    have hi : (genStore src base (offset i)).run g = some ((),
      { g with code := g.code ++ [Tac.instr (.store src base (offset i))] }) := rfl
    simp only [List.forM_cons, StateT.run_bind, hi, Option.bind_eq_bind, Option.bind_some, ih]
    simp

/-- The stores that clear `k` words, one after the other. -/
theorem execs_stores {zeroTemp obj : Temp} (hz : s.temps zeroTemp = 0#32) {k : ℕ} (hk : k < 5) :
    Fragment.execs L ((List.range k).map fun (i : ℕ) => .store zeroTemp obj (WORD * (i + 1))) s =
      some { s with mem := patch s.mem (s.temps obj + 4#32) (fun _ => 0#8) (4 * k) } := by
  induction k with
  | zero => simp [Fragment.execs]
  | succ k ih =>
    have ha : s.temps obj + BitVec.ofInt 32 (WORD * (k + 1)) =
        s.temps obj + 4#32 + BitVec.ofNat 32 (4 * k) := by
      rw [BitVec.add_assoc, ← BitVec.ofNat_add, show WORD * ((k : ℤ) + 1) = ((4 + 4 * k : ℕ) : ℤ) by
        simp [WORD]; ring, BitVec.ofInt_natCast]
    have ih := ih (by omega)
    unfold Fragment.execs at ih ⊢
    rw [List.range_succ, List.map_append, List.foldlM_append, ih]
    simp only [List.map_cons, List.map_nil, List.foldlM_cons, List.foldlM_nil, exec, hz, ha,
      putWord_zero, Option.bind_eq_bind, Option.bind_some]
    rw [Nat.mul_succ, ← @patch_append 32 _ _ _ (fun _ => 0#8) (4 * k) 4 (by omega)]
    rfl

/-- What `genClear` emits clears `k` words behind the first. -/
theorem genClear_run {g : Gen} {size newObj : Temp} {k : ℕ} (hk : k < 2 ^ 29)
    (hs : size < g.nextTemp) (ho : newObj < g.nextTemp) :
    ∃ obj c n l, (genClear k size newObj).run g =
        some (obj, { g with code := g.code ++ c, nextTemp := n, nextLabel := l }) ∧ obj < n ∧
      ∀ (f : Fragment) (a rest : List Tac) (s : State), f.body ++ f.post = a ++ (c ++ rest) →
        (∀ i, g.nextLabel ≤ i → .mark (.num i) ∉ f.pre ∧ .mark (.num i) ∉ a) →
        f.post.length ≤ rest.length → s.temps size = BitVec.ofNat 32 (4 * (k + 1)) →
        ∃ s', f.Steps L (c ++ rest, s) (rest, s') ∧ s'.temps obj = s.temps newObj ∧
          s'.mem = patch s.mem (s.temps newObj + 4#32) (fun _ => 0#8) (4 * k) ∧
          s'.curSize = s.curSize := by
  have hne : ∀ i, size ≠ g.nextTemp + i ∧ newObj ≠ g.nextTemp + i := fun i =>
    ⟨(Nat.lt_of_lt_of_le hs (Nat.le_add_right _ i)).ne,
      (Nat.lt_of_lt_of_le ho (Nat.le_add_right _ i)).ne⟩
  have hne0 : size ≠ g.nextTemp ∧ newObj ≠ g.nextTemp := hne 0
  by_cases h0 : k = 0
  · -- nothing to clear
    refine ⟨newObj, [], g.nextTemp, g.nextLabel, ?_, ho, fun f a rest s _ _ _ _ =>
      ⟨s, .refl, rfl, by simp [h0], rfl⟩⟩
    simp [genClear, h0]
  by_cases h5 : k < 5
  · -- a store for each word
    refine ⟨newObj, (.loadImm4 g.nextTemp 0 :: (List.range k).map fun (i : ℕ) =>
      Instr.store g.nextTemp newObj (WORD * (i + 1))).map .instr, g.nextTemp + 1, g.nextLabel, ?_,
      Nat.lt_succ_of_lt ho, fun f a rest s _ _ hl _ => ?_⟩
    · have h5' : (k : ℤ) < 5 := by omega
      have hstores := run_forM_genStore g.nextTemp newObj (fun (i : ℕ) => WORD * (i + 1))
        (List.range k)
      simp [genClear, h0, h5', genLoadImm4, genTo, run_append, run_createTempI4, StateT.run_bind,
        hstores]
    · have hexecs := @execs_stores L (s.set g.nextTemp 0#32) g.nextTemp newObj (by simp) k h5
      have hobj : (s.set g.nextTemp 0#32).temps newObj = s.temps newObj :=
        Function.update_of_ne hne0.2 _ _
      rw [hobj] at hexecs
      exact ⟨_, Fragment.steps_execs (s := s) (Option.bind_eq_some_iff.2 ⟨_, rfl, hexecs⟩) hl, hobj,
        rfl, rfl⟩
  · -- a loop
    obtain ⟨n, hn⟩ : ∃ n, n = g.nextTemp := ⟨_, rfl⟩
    obtain ⟨l, hl⟩ : ∃ l, l = g.nextLabel := ⟨_, rfl⟩
    rw [← hn] at hne hne0
    rw [← hl]
    refine ⟨n + 2, [Instr.loadImm4 n 0, .loadImm4 (n + 1) WORD,
      .binary .add (n + 2) newObj size].map Tac.instr ++
      classLoop (.num l) (.num (l + 1)) size (n + 1) (n + 2) n (n + 3) (n + 4) [], n + 5, l + 2, ?_,
      Nat.add_lt_add_left (by decide) n, fun f a rest s hcode hlabels hlen hsize => ?_⟩
    · have h5' : ¬ (k : ℤ) < 5 := by omega
      simp [genClear, h0, h5', genLoadImm4, genTo, genBinary, genStore, run_append,
        run_createTempI4, run_createLabel, StateT.run_bind, classLoop, hn, hl]
    · have hloop : codeAt f.code (.num l) =
          classLoop (.num l) (.num (l + 1)) size (n + 1) (n + 2) n (n + 3) (n + 4) rest :=
        Fragment.codeAt_body (a := a ++ [Instr.loadImm4 n 0, .loadImm4 (n + 1) WORD,
          .binary .add (n + 2) newObj size].map Tac.instr) (by simp [hcode, classLoop])
          (hlabels l le_rfl).1 (by simp [(hlabels l le_rfl).2])
      have hexit : codeAt f.code (.num (l + 1)) = Tac.mark (.num (l + 1)) :: rest :=
        Fragment.codeAt_body (a := a ++ ([Instr.loadImm4 n 0, .loadImm4 (n + 1) WORD,
          .binary .add (n + 2) newObj size].map Tac.instr ++
          (classLoop (.num l) (.num (l + 1)) size (n + 1) (n + 2) n (n + 3) (n + 4) []).take 8))
          (by simp [hcode, classLoop]) (hlabels _ (Nat.le_succ l)).1
          (by simp [classLoop, (hlabels _ (Nat.le_succ l)).2])
      obtain ⟨s₁, hs₁⟩ : ∃ s₁, s₁ = ((s.set n 0#32).set (n + 1) 4#32).set (n + 2)
        (s.temps newObj + BitVec.ofNat 32 (4 * (k + 1))) := ⟨_, rfl⟩
      have hexecs : Fragment.execs L [.loadImm4 n 0, .loadImm4 (n + 1) WORD,
          .binary .add (n + 2) newObj size] s = some s₁ := by
        simp [Fragment.execs, exec, BinaryOp.value, hs₁, WORD, hne, hne0, hsize]
      obtain ⟨s', hsteps, hobj, hclear⟩ := @steps_classLoop L f s₁ rest (.num l) (.num (l + 1)) size
        (n + 1) (n + 2) n (n + 3) (n + 4) hloop hexit hlen (hne 2).1.symm hne0.1.symm (by simp)
        (hne 1).1.symm (by simp) (by simp [hne]) (by simp [hne]) k (by omega)
        (by simp [hs₁, hne, hne0, hsize]) (by simp [hs₁]) (by simp [hs₁])
      have hobj₁ : s₁.temps (n + 2) = s.temps newObj + BitVec.ofNat 32 (4 * (k + 1)) := by
        simp [hs₁]
      have hstart : s₁.temps (n + 2) - BitVec.ofNat 32 (4 * k) = s.temps newObj + 4#32 := by
        rw [hobj₁, add_sub_assoc, Nat.mul_add, Nat.mul_one, BitVec.ofNat_add, add_sub_cancel_left]
      refine ⟨s', ?_, ?_, ?_, ?_⟩
      · rw [List.append_assoc]
        exact (Fragment.steps_execs hexecs (by simp [classLoop]; omega)).trans hsteps
      · rw [hobj, hobj₁]
        exact add_sub_cancel_right _ _
      · rw [hclear.mem, hstart, hs₁]
        rfl
      · rw [hclear.curSize, hs₁]
        rfl

/-- The code of the function, where `c` clears the words behind the first. -/
def newClassHead (n : ℕ) (name : String) (size : ℤ) : List Tac :=
  Tac.mark (.func ("_" ++ name ++ "_New")) :: [Instr.loadImm4 n size, .parm n,
    .directCall (some (n + 1)) Intrinsic.allocate.label].map Tac.instr

theorem genNewForClass_run (g : Gen) (name vtbl : String) {size : ℤ} {k : ℕ} (hk : k < 2 ^ 29)
    (hsize : size = (4 * (k + 1) : ℕ)) :
    ∃ obj c m g', (genNewForClass name vtbl size).run g = some ((), g') ∧ obj < m ∧
      g'.code = newClassHead g.nextTemp name size ++ (c ++ [Instr.loadVtbl m vtbl,
        .store m obj 0].map Tac.instr) ++ [.ret (some obj)] ∧
      ∀ (f : Fragment) (a rest : List Tac) (s : State), f.body ++ f.post = a ++ (c ++ rest) →
        (∀ i, g.nextLabel ≤ i → Tac.mark (.num i) ∉ f.pre ∧ Tac.mark (.num i) ∉ a) →
        f.post.length ≤ rest.length → s.temps g.nextTemp = BitVec.ofNat 32 (4 * (k + 1)) →
        ∃ s', f.Steps L (c ++ rest, s) (rest, s') ∧ s'.temps obj = s.temps (g.nextTemp + 1) ∧
          s'.mem = patch s.mem (s.temps (g.nextTemp + 1) + 4#32) (fun _ => 0#8) (4 * k) ∧
          s'.curSize = s.curSize := by
  obtain ⟨obj, c, m, l, hclear, hobj, hruns⟩ := @genClear_run L
    { g with code := newClassHead g.nextTemp name size, nextTemp := g.nextTemp + 2 } g.nextTemp
    (g.nextTemp + 1) k hk (Nat.lt_add_of_pos_right (by decide)) (Nat.lt_succ_self _)
  have htime : size / WORD - 1 = k := by
    rw [hsize]
    simp [WORD]
  have hmodify : (modify fun g : Gen => { g with code := [] } : Emit Unit).run g =
      some ((), { g with code := [] }) := rfl
  simp only [newClassHead, List.map_cons, List.map_nil] at hclear
  refine ⟨obj, c, m, { g with
    code := newClassHead g.nextTemp name size ++ (c ++ [Instr.loadVtbl m vtbl,
      .store m obj 0].map Tac.instr) ++ [.ret (some obj)]
    nextTemp := m + 1, nextLabel := l }, ?_, hobj, rfl, hruns⟩
  simp [genNewForClass, hmodify, genLoadImm4, genTo, genParm, genIntrinsicCall, genLoadVTable,
    genStore, run_append, run_createTempI4, StateT.run_bind, htime, hclear, newClassHead]

theorem newClass_ran {g : Gen} {name vtbl : String} {size : ℤ} {k : ℕ} (hk : k < 2 ^ 29)
    (hsize : size = (4 * (k + 1) : ℕ)) (hf : (Request.newClass g name vtbl size).Code f)
    (hparms : s.parms = []) :
    Ran L f s (fun s' => s'.temps f.result) (L.vtbl vtbl) (4 + 4 * k) := by
  obtain ⟨g', hrun, hpre, hpost, hbody⟩ := hf
  obtain ⟨obj, c, m, g'', hrun', hobj, hcode, hruns⟩ := @genNewForClass_run L g name vtbl size k hk
    hsize
  obtain ⟨-, rfl⟩ := Prod.mk.inj (Option.some.inj (hrun.symm.trans hrun'))
  obtain ⟨n, hn⟩ : ∃ n, n = g.nextTemp := ⟨_, rfl⟩
  rw [← hn] at hcode hruns
  obtain ⟨hbody', hres⟩ : f.body = newClassHead n name size ++ (c ++ [Instr.loadVtbl m vtbl,
      .store m obj 0].map Tac.instr) ∧ f.result = obj := by
    rw [hbody, hpost] at hcode
    obtain ⟨hb, hr⟩ := List.append_inj' hcode rfl
    simp only [List.cons.injEq, Tac.ret.injEq, Option.some.injEq, and_true] at hr
    exact ⟨hb, hr⟩
  obtain ⟨w, hw⟩ : ∃ w, w = BitVec.ofNat 32 (4 * (k + 1)) := ⟨_, rfl⟩
  have hbytes : BitVec.ofNat 32 (4 + 4 * k) = w := by
    rw [hw, Nat.mul_succ, Nat.add_comm]
  have himm : BitVec.ofInt 32 size = w := by
    rw [hsize, hw, BitVec.ofInt_natCast]
  obtain ⟨tail, htail⟩ : ∃ tail, tail = [Instr.loadVtbl m vtbl, .store m obj 0].map Tac.instr ++
    f.post := ⟨_, rfl⟩
  have hlen : f.post.length ≤ tail.length := by
    rw [htail, List.length_append]
    omega
  have hlen' : f.post.length ≤ (c ++ tail).length := by
    rw [List.length_append]
    omega
  have hstart : f.body ++ f.post = newClassHead n name size ++ (c ++ tail) := by
    rw [hbody', htail]
    simp
  obtain ⟨s₁, hs₁⟩ : ∃ s₁, s₁ = { s.set n w with parms := [w] } := ⟨_, rfl⟩
  have hexecs₁ : Fragment.execs L [.loadImm4 n size, .parm n] s = some s₁ := by
    simp [Fragment.execs, exec, hs₁, himm, hparms, State.set]
  have hsteps₁ : f.Steps L (f.body ++ f.post, s) (Tac.instr (.directCall (some (n + 1))
      Intrinsic.allocate.label) :: (c ++ tail), s₁) := by
    rw [hstart]
    refine .head (Fragment.next_mark (by simp; omega)) ?_
    exact Fragment.steps_execs hexecs₁ (by simp; omega)
  have hcur₁ : s₁.curSize = s.curSize := by simp [hs₁]
  have halloc : alloc s₁.curSize (s₁.parms.headD 0#32) =
      if 4096 < (s.curSize + BitVec.ofNat 32 (4 + 4 * k)).toInt then none
      else some (s.curSize + BitVec.ofNat 32 (4 + 4 * k)) := by
    rw [hcur₁, hs₁, ← alloc_eq _ (by omega), hbytes]
    rfl
  by_cases hc : 4096 < (s.curSize + BitVec.ofNat 32 (4 + 4 * k)).toInt
  · rw [if_pos hc] at halloc
    exact .full hc ⟨_, _, _, hsteps₁, hlen', halloc⟩
  · rw [if_neg hc, hcur₁] at halloc
    obtain ⟨s₂, hs₂⟩ : ∃ s₂, s₂ = { s₁.set (n + 1) (L.buf + s.curSize) with
      curSize := s.curSize + BitVec.ofNat 32 (4 + 4 * k), parms := [] } := ⟨_, rfl⟩
    have hcall : exec L (.directCall (some (n + 1)) Intrinsic.allocate.label) s₁ = some s₂ := by
      simp only [exec, if_true, hcur₁, halloc, Option.map_some, hs₂]
    obtain ⟨s₃, hsteps₃, hobj₃, hmem₃, hcur₃⟩ := hruns f (newClassHead n name size) tail s₂ hstart
      (fun i _ => ⟨by simp [hpre], by simp [newClassHead]⟩) hlen (by simp [hs₂, hs₁, hw])
    have hptr : s₂.temps (n + 1) = L.buf + s.curSize := by simp [hs₂]
    rw [hptr] at hobj₃ hmem₃
    obtain ⟨s₄, hs₄⟩ : ∃ s₄, s₄ = { s₃.set m (L.vtbl vtbl) with
      mem := putWord (k := 30) s₃.mem (L.buf + s.curSize) (L.vtbl vtbl) } := ⟨_, rfl⟩
    have hobjm : obj ≠ m := Nat.ne_of_lt hobj
    have hexecs₄ : Fragment.execs L [.loadVtbl m vtbl, .store m obj 0] s₃ = some s₄ := by
      simp [Fragment.execs, exec, hs₄, hobjm, hobj₃, State.set]
    have hsteps₄ : f.Steps L (tail, s₃) (f.post, s₄) := by
      rw [htail]
      exact Fragment.steps_execs hexecs₄ le_rfl
    refine .made s₄ hc (hsteps₁.trans (.head (Fragment.next_instr hcall hlen')
      (hsteps₃.trans hsteps₄))) ?_ ?_ fun hlt => ?_
    · simp [hs₄, hres, hobjm, hobj₃]
    · rw [hs₄]
      exact hcur₃.trans (by simp [hs₂])
    · rw [hs₄]
      simp only [hmem₃, putWord_image, ← image_zero (L.vtbl vtbl)]
      have hmem₂ : s₂.mem = s.mem := by simp [hs₂, hs₁]
      rw [hmem₂]
      exact @patch_prepend 32 _ s.mem (L.buf + s.curSize) (image (L.vtbl vtbl)) 4 (4 * k) hlt.le

/-! ## Objects -/

namespace Request

variable {r : Request}

theorem exists_code (hv : r.Valid s) : ∃ f, r.Code f := by
  cases r with
  | newArray g length post =>
    exact ⟨⟨g.code, newArrayCode g.nextTemp g.nextLabel length, post, g.nextTemp + 6⟩, _,
      genNewArray_run g length, rfl, rfl, rfl⟩
  | newClass g name vtbl size =>
    obtain ⟨-, hpos, hmod, hlt⟩ := hv
    unfold WORD at hmod
    obtain ⟨obj, c, m, g', hrun, -, hcode, -⟩ := @genNewForClass_run
      ⟨0#32, fun _ => 0#32, fun _ => 0#32, fun _ _ => none⟩ g name vtbl size (size.toNat / 4 - 1)
      (by omega) (by omega)
    exact ⟨⟨[], _, [.ret (some obj)], obj⟩, g', hrun, rfl, rfl, hcode⟩

theorem ran (hv : r.Valid s) (hf : r.Code f) :
    Ran L f s (fun s' => r.start (s'.temps f.result)) (r.first L s) (r.bytes s) := by
  cases r with
  | newArray g length post =>
    obtain ⟨hlength, hmarks, hparms, hpos⟩ := hv
    obtain ⟨g', hrun, hpre, hbody, hpost⟩ := hf
    obtain ⟨hres, hg'⟩ := Prod.mk.inj (Option.some.inj (hrun.symm.trans (genNewArray_run g length)))
    rw [hg', hpre] at hbody
    have h := @newArray_ran L f s length g hpre (List.append_cancel_left hbody).symm hlength hmarks
      hparms hpos
    rw [← hres] at h
    exact h
  | newClass g name vtbl size =>
    obtain ⟨hparms, hpos, hmod, hlt⟩ := hv
    unfold WORD at hmod
    have h := @newClass_ran L f s g name vtbl size (size.toNat / 4 - 1) (by omega) (by omega) hf
      hparms
    have hn : 4 + 4 * (size.toNat / 4 - 1) = size.toNat := by omega
    rw [hn] at h
    exact h

end Request

/-- An object of `n` bytes from `start` on, beside the objects that there are: it lies in the buffer
and has nothing in common with them, the first word is `v`, the others are zero, and nothing else
has been written. -/
structure Made (L : Linked) (objs : List (BitVec 32 × ℕ)) (start : BitVec 32) (n : ℕ)
    (v : BitVec 32) (s s' : State) : Prop where
  inside : ∀ i < n, ∃ k < memBufSize, start + BitVec.ofNat 32 i = L.buf + BitVec.ofNat 32 k
  apart : ∀ o ∈ objs, ∀ i < n, ∀ j < o.2,
    start + BitVec.ofNat 32 i ≠ o.1 + BitVec.ofNat 32 j
  first : word (k := 30) s'.mem start = v
  zero : ∀ i, 4 ≤ i → i < n → s'.mem (start + BitVec.ofNat 32 i) = 0#8
  other : ∀ a, (∀ i < n, a ≠ start + BitVec.ofNat 32 i) → s'.mem a = s.mem a

namespace Request

variable (L) in
/-- `new` stops the program or makes an object. -/
def Holds (objs : List (BitVec 32 × ℕ)) (s : State) (r : Request) : Prop :=
  ∃ f, r.Code f ∧ (f.Full L s ∨ ∃ s', f.Makes L s s' ∧
    Made L objs (r.start (s'.temps f.result)) (r.bytes s) (r.first L s) s s')

/-- The object is no longer than the buffer, or the sum that `_Alloc` computes is. -/
def HoldsWhen (s : State) (r : Request) : Prop :=
  r.bytes s ≤ memBufSize ∨ memBufSize < (s.curSize + BitVec.ofNat 32 (r.bytes s)).toInt

end Request

/-- The objects after a run of the program, by their addresses and lengths, and `cur_size` then.
What happens between two `new` does not matter. -/
inductive Reached (L : Linked) : BitVec 32 → List (BitVec 32 × ℕ) → Prop
  | start : Reached L 0#32 []
  | step {objs : List (BitVec 32 × ℕ)} {r : Request} {f : Fragment} {s s' : State}
      (h : Reached L s.curSize objs) (hv : r.Valid s) (hw : r.HoldsWhen s) (hf : r.Code f)
      (hm : f.Makes L s s') :
      Reached L s'.curSize ((r.start (s'.temps f.result), r.bytes s) :: objs)

/-- The objects lie in front of `cur_size`. -/
structure Packed (L : Linked) (cur : BitVec 32) (objs : List (BitVec 32 × ℕ)) : Prop where
  le : cur.toNat ≤ memBufSize
  front : ∀ o ∈ objs, ∀ j < o.2,
    ∃ k < cur.toNat, o.1 + BitVec.ofNat 32 j = L.buf + BitVec.ofNat 32 k

theorem Fragment.Makes.unique {s₁ s₂ : State} (h₁ : f.Makes L s s₁) (h₂ : f.Makes L s s₂) :
    s₁ = s₂ := by
  have h := Fragment.Steps.end h₁ h₂ Fragment.not_next_post
  rcases ReflTransGen.cases_head_iff.1 h with h | ⟨x, hx, -⟩
  · exact (Prod.mk.inj h).2.symm
  · exact absurd hx (Fragment.not_next_post x)

theorem Fragment.Makes.not_full (h : f.Makes L s s') : ¬ f.Full L s := by
  rintro ⟨dst, rest, s₁, harr, hlen, halloc⟩
  have hstep : tacStep (machine L) f.code
      (.instr (.directCall (some dst) Intrinsic.allocate.label) :: rest, s₁) =
      some (.stop (.halted (.directCall (some dst) Intrinsic.allocate.label) s₁)) := by
    have hexec : (machine L).exec (.directCall (some dst) Intrinsic.allocate.label) s₁ = none := by
      simp only [machine, exec, if_true, halloc, Option.map_none]
    unfold tacStep
    simp only [hexec]
  rcases ReflTransGen.cases_head_iff.1 (Fragment.Steps.end h harr Fragment.not_next_post) with
    he | ⟨x, ⟨-, hx⟩, -⟩
  · have := congrArg List.length (Prod.mk.inj he).1
    simp at this
    omega
  · rcases hx with hx | ⟨i, hx⟩ <;> rw [hstep] at hx <;> cases hx

/-- What lies in the buffer is no longer. -/
theorem Made.le {objs : List (BitVec 32 × ℕ)} {start v : BitVec 32} {n : ℕ}
    (h : Made L objs start n v s s') : n ≤ memBufSize := by
  by_contra hn
  obtain ⟨k, hk, he⟩ := h.inside 0 (by omega)
  obtain ⟨k', hk', he'⟩ := h.inside memBufSize (by omega)
  unfold memBufSize at hk hk' he'
  have hkk : BitVec.ofNat 32 k + 4096#32 = BitVec.ofNat 32 k' := by
    have hstart : start = L.buf + BitVec.ofNat 32 k := by rw [← he, BitVec.add_zero]
    rw [hstart, BitVec.add_assoc] at he'
    exact add_left_cancel he'
  have := congrArg BitVec.toNat hkk
  simp at this
  omega

theorem word_patch {M : BitVec 32 → BitVec 8} {a v : BitVec 32} {n : ℕ} (hn : 4 ≤ n)
    (hlt : n < 2 ^ 32) : word (k := 30) (patch M a (image v) n) a = v := by
  have hbyte : ∀ i < 4, patch M a (image v) n (a + BitVec.ofNat 32 i) =
      byteAt (BitVec.ofNat 2 i) v := fun i hi =>
    (patch_add (hi.trans_le hn) hlt.le).trans (if_pos hi)
  have h0 := hbyte 0 (by decide)
  rw [BitVec.add_zero] at h0
  unfold word
  refine Eq.trans (congrArg₂ (· ++ ·) (congrArg₂ (· ++ ·) (congrArg₂ (· ++ ·)
    (hbyte 3 (by decide)) (hbyte 2 (by decide))) (hbyte 1 (by decide))) h0) ?_
  simp only [byteAt]
  ext i hi
  simp
  grind

namespace Request

variable {r : Request} {objs : List (BitVec 32 × ℕ)}

theorem holdsWhen_of_holds (hv : r.Valid s) (h : r.Holds L objs s) : r.HoldsWhen s := by
  obtain ⟨f, hf, h⟩ := h
  rcases ran (L := L) hv hf with ⟨hc, -⟩ | ⟨s₁, -, hmakes, -, -, -⟩
  · exact .inr hc
  · rcases h with h | ⟨s', hm, hmade⟩
    · exact absurd h hmakes.not_full
    · exact .inl hmade.le

theorem four_le_bytes (hv : r.Valid s) : 4 ≤ r.bytes s := by
  cases r with
  | newArray g length post => exact Nat.le_add_right 4 _
  | newClass g name vtbl size =>
    obtain ⟨-, hpos, hmod, -⟩ := hv
    unfold WORD at hmod
    change 4 ≤ size.toNat
    omega

/-- The block lies behind the objects that there are. -/
theorem made_of_ran (hv : r.Valid s) (hp : Packed L s.curSize objs) (hw : r.HoldsWhen s)
    (hc : ¬ 4096 < (s.curSize + BitVec.ofNat 32 (r.bytes s)).toInt) {start : BitVec 32}
    (hstart : start = L.buf + s.curSize) (hmem : r.bytes s < 2 ^ 32 →
      s'.mem = patch s.mem (L.buf + s.curSize) (image (r.first L s)) (r.bytes s)) :
    s.curSize.toNat + r.bytes s ≤ memBufSize ∧
      Made L objs start (r.bytes s) (r.first L s) s s' := by
  have hle := hw.resolve_right hc
  have h4 := four_le_bytes hv
  obtain ⟨n, hn⟩ : ∃ n, n = r.bytes s := ⟨_, rfl⟩
  rw [← hn] at hc hmem hle h4 ⊢
  have hcur := hp.le
  unfold memBufSize at hcur hle
  have hsum : s.curSize.toNat + n ≤ 4096 := by
    have htoInt : (s.curSize + BitVec.ofNat 32 n).toInt = s.curSize.toNat + n := by
      rw [BitVec.toInt_eq_toNat_of_lt, BitVec.toNat_add, BitVec.toNat_ofNat]
      · omega
      · rw [BitVec.toNat_add, BitVec.toNat_ofNat]
        omega
    omega
  have hat : ∀ i, start + BitVec.ofNat 32 i = L.buf + BitVec.ofNat 32 (s.curSize.toNat + i) := by
    intro i
    rw [hstart, BitVec.ofNat_add, BitVec.ofNat_toNat, BitVec.setWidth_eq, BitVec.add_assoc]
  have hmem := hmem (by omega)
  rw [← hstart] at hmem
  refine ⟨hsum, fun i hi => ⟨_, ?_, hat i⟩, fun o ho i hi j hj he => ?_, ?_, fun i hi4 hi => ?_,
    fun a ha => ?_⟩
  · unfold memBufSize
    omega
  · obtain ⟨k, hk, hok⟩ := hp.front o ho j hj
    rw [hat, hok] at he
    have := congrArg BitVec.toNat (add_left_cancel he)
    rw [BitVec.toNat_ofNat, BitVec.toNat_ofNat] at this
    omega
  · rw [hmem]
    exact word_patch h4 (by omega)
  · rw [hmem, patch_add hi (by omega)]
    exact if_neg (by omega)
  · rw [hmem]
    exact patch_of_ne ha

end Request

theorem Reached.packed {cur : BitVec 32} {objs : List (BitVec 32 × ℕ)} (h : Reached L cur objs) :
    Packed L cur objs := by
  induction h with
  | start => exact ⟨Nat.zero_le _, by simp⟩
  | @step objs r f s s' _ hv hw hf hm ih =>
    rcases Request.ran (L := L) hv hf with ⟨-, hfull⟩ | ⟨s₁, hc, hm₁, hstart, hcur, hmem⟩
    · exact absurd hfull hm.not_full
    · obtain rfl := hm.unique hm₁
      obtain ⟨hsum, -⟩ := Request.made_of_ran hv ih hw hc hstart hmem
      have hnat : s'.curSize.toNat = s.curSize.toNat + r.bytes s := by
        unfold memBufSize at hsum
        rw [hcur, BitVec.toNat_add, BitVec.toNat_ofNat]
        omega
      refine ⟨by rw [hnat]; exact hsum, fun o ho j hj => ?_⟩
      rcases List.mem_cons.1 ho with rfl | ho
      · refine ⟨s.curSize.toNat + j, ?_, ?_⟩
        · rw [hnat]
          exact Nat.add_lt_add_left hj _
        · simp only [hstart]
          rw [BitVec.ofNat_add, BitVec.ofNat_toNat, BitVec.setWidth_eq, BitVec.add_assoc]
      · obtain ⟨k, hk, he⟩ := ih.front o ho j hj
        exact ⟨k, by omega, he⟩

/-- In every run in which each `new` so far was of an object no longer than the buffer, or was
stopped, `new` does what it should if and only if the next object is so, too. -/
theorem heap_objects {objs : List (BitVec 32 × ℕ)} (h : Reached L s.curSize objs) {r : Request}
    (hv : r.Valid s) : r.Holds L objs s ↔ r.HoldsWhen s := by
  refine ⟨Request.holdsWhen_of_holds hv, fun hw => ?_⟩
  obtain ⟨f, hf⟩ := Request.exists_code hv
  refine ⟨f, hf, ?_⟩
  rcases Request.ran (L := L) hv hf with ⟨-, hfull⟩ | ⟨s', hc, hmakes, hstart, -, hmem⟩
  · exact .inl hfull
  · exact .inr ⟨s', hmakes, (Request.made_of_ran hv h.packed hw hc hstart hmem).2⟩

/-- A buffer, and nothing else that matters. -/
def noLinked : Linked := ⟨0x10000000#32, fun _ => 0x20000000#32, fun _ => 0#32, fun _ _ => none⟩

/-- A program that has been handed out `cur` bytes, with `length` in every temporary. -/
def heapAt (cur length : BitVec 32) : State := ⟨fun _ => length, 0#32, [], fun _ => 1#8, cur⟩

/-- `new` of a class with two fields. -/
def newNode : Request := .newClass ⟨[], 0, 0, fun _ => 0⟩ "Node" "_Node" 12

theorem newNode_valid (cur : BitVec 32) : newNode.Valid (heapAt cur 0#32) := by
  simp [newNode, Request.Valid, heapAt, WORD]

theorem reached_newNode : Reached noLinked 12#32 [(0x10000000#32, 12)] := by
  obtain ⟨f, hf⟩ := Request.exists_code (newNode_valid 0#32)
  rcases Request.ran (L := noLinked) (newNode_valid 0#32) hf with
    ⟨hc, -⟩ | ⟨s', -, hm, hstart, hcur, -⟩
  · exact absurd hc (by decide)
  · have h := Reached.step .start (newNode_valid 0#32) (.inl (by decide)) hf hm
    rw [hcur, hstart] at h
    exact h

/-- The second object of the class, beside the first. -/
theorem heap_objects_second : newNode.Holds noLinked [(0x10000000#32, 12)] (heapAt 12#32 0#32) :=
  (heap_objects reached_newNode (newNode_valid 12#32)).2 (.inl (by decide))

/-- An array of `2 ^ 30` words gets a block of 4 bytes. -/
theorem heap_objects_wrapped : ¬ (Request.newArray ⟨[], 1, 0, fun _ => 0⟩ 0 []).Holds
    noLinked [] (heapAt 0#32 0x40000000#32) := by
  intro h
  have hv : (Request.newArray ⟨[], 1, 0, fun _ => 0⟩ 0 []).Valid (heapAt 0#32 0x40000000#32) := by
    simp [Request.Valid, heapAt]
  rcases Request.holdsWhen_of_holds hv h with h | h
  · exact absurd h (by decide)
  · exact absurd h (by decide)

end Heap

end Decaf

end CacheCPU
