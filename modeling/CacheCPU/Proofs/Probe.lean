import CacheCPU.Cadb.Parser
import Mathlib.Tactic.Linarith
import Mathlib.Algebra.BigOperators.Group.List.Basic
import Mathlib.Data.List.GetD

/-!
# The layout of the probe

Every signal starts at a whole byte, and what is left of its last byte is padding, so `load`,
`vhdlCode` and `print` agree on where it is as long as their three ways of rounding up agree. The
one entry that goes wrong is a `std_logic` at index 0, where the assertion of `vhdlCode` evaluates
to the index it assigns.
-/

namespace CacheCPU

namespace Cadb

/-! ## What the assignments mean -/

/-- The values of the design's signals. -/
structure Signals where
  bit : Text → Bool
  vec : Text → ℤ → Bool

namespace Assign

/-- Whether the assignment drives element `i` of the probe. -/
def drives (i : ℤ) : Assign → Bool
  | .bit j _ => i = j
  | .slice ub lb _ _ _ => lb ≤ i ∧ i ≤ ub
  | .zeros ub lb => lb ≤ i ∧ i ≤ ub

/-- What it drives element `i` with. -/
def value (σ : Signals) (i : ℤ) : Assign → Bool
  | .bit _ name => σ.bit name
  | .slice _ lb name _ vlb => σ.vec name (vlb + (i - lb))
  | .zeros _ _ => false

end Assign

/-- A message of 512 bytes whose bits are the elements of the probe as `as` drives them. -/
structure Snapshot (as : List Assign) (σ : Signals) (buff : List (BitVec 8)) : Prop where
  length : buff.length = 512
  driven : ∀ a ∈ as, ∀ i : ℕ, i < 4096 → a.drives i →
    (buff.getD (i / 8) 0#8).getLsbD (i % 8) = a.value σ i

namespace Var

/-- An entry without bounds is a `std_logic`. -/
def IsBit (v : Var) : Prop := v.vhdlUb = -1 ∧ v.vhdlLb = -1

def IsVector (v : Var) : Prop := 0 ≤ v.vhdlLb ∧ v.vhdlLb ≤ v.vhdlUb

instance (v : Var) : Decidable v.IsBit := inferInstanceAs (Decidable (_ ∧ _))

instance (v : Var) : Decidable v.IsVector := inferInstanceAs (Decidable (_ ∧ _))

/-- How many bytes hold the signal. -/
def bytes (v : Var) : ℕ := (v.vhdlUb - v.vhdlLb).toNat / 8 + 1

/-- The bits of the signal, the most significant first. -/
def bits (σ : Signals) (v : Var) : List Bool :=
  if v.vhdlUb = -1 then [σ.bit v.vhdlName] else (downto v.vhdlUb v.vhdlLb).map (σ.vec v.vhdlName)

end Var

/-- `n` hexadecimal digits. -/
def hexText (n value : ℕ) : Text :=
  (List.range n).reverse.map fun k => Nat.digitChar (value / 16 ^ k % 16)

/-- `label = 0b…`. -/
def Var.shownBin (σ : Signals) (v : Var) : Text :=
  v.label ++ " = 0b".toList ++ (v.bits σ).map (if · then '1' else '0') ++ ['\n']

/-- `label = 0x…`, of the signal's value in whole bytes. -/
def Var.shownHex (σ : Signals) (v : Var) : Text :=
  v.label ++ " = 0x".toList ++ hexText (2 * v.bytes) (BitVec.ofBoolListBE (v.bits σ)).toNat ++ ['\n']

/-- The code drives each element of the probe once, and the client shows each signal as it is. -/
def Config.Agrees (c : Config) : Prop :=
  ∃ as, c.assigns = some as ∧ c.vhdlCode = some (as.flatMap (Assign.render c.vhdlVarName)) ∧
    (∀ i : ℤ, as.countP (·.drives i) = if 0 ≤ i ∧ i < 4096 then 1 else 0) ∧
    ∀ σ buff, Snapshot as σ buff → ∀ v ∈ c.vars,
      print c buff 2 v.label = some (false, v.shownBin σ) ∧
      print c buff 16 v.label = some (false, v.shownHex σ)

/-- The entries are single bits and vectors of distinct labels, and the probe holds them. -/
structure Config.WellFormed (c : Config) : Prop where
  valid : ∀ v ∈ c.vars, v.IsBit ∨ v.IsVector
  labels : (c.vars.map Var.label).Nodup
  fits : 8 * (c.vars.map Var.bytes).sum ≤ 4096

/-! ## Where `load` puts a signal -/

section Layout

variable {v : Var}

theorem Var.le_ub (h : v.IsBit ∨ v.IsVector) : v.vhdlLb ≤ v.vhdlUb := by
  unfold IsBit IsVector at h
  omega

/-- The first branch of `vhdlCode` is for the single bits. -/
theorem Var.ub_eq_neg_one_iff (h : v.IsBit ∨ v.IsVector) : v.vhdlUb = -1 ↔ v.IsBit := by
  unfold IsBit IsVector at *
  omega

theorem Config.codeIndexUb_eq (h : v.IsBit ∨ v.IsVector) (count : ℤ) :
    codeIndexUb count v = indexUb count v := by
  unfold codeIndexUb indexUb Var.IsBit Var.IsVector at *
  split_ifs <;> omega

/-- The next signal starts right after the bytes of this one. -/
theorem Config.nextCount_eq (h : v.IsBit ∨ v.IsVector) (n : ℕ) :
    nextCount (indexUb (8 * n) v) = 8 * (n + v.bytes : ℕ) := by
  have := Var.le_ub h
  unfold nextCount indexUb Var.bytes
  rw [Int.tmod_eq_emod_of_nonneg (by omega)]
  omega

end Layout

namespace Config

/-- What the loop of `load` has done with the entries `vs`. -/
def pushAll (c : Config) (count : ℤ) : List Var → Config
  | [] => c
  | v :: vs => (c.push count v).pushAll (nextCount (indexUb count v)) vs

theorem loadLines_eq_pushAll : ∀ (lines : List Text) (c c' : Config) (count : ℤ),
    c.loadLines count lines = some (false, c') → ∃ vs, c' = c.pushAll count vs
  | [], c, c', count, h => by
    simp only [loadLines, Option.some.injEq, Prod.mk.injEq, true_and] at h
    exact ⟨[], h.symm⟩
  | str :: rest, c, c', count, h => by
    simp only [loadLines] at h
    split_ifs at h with h₁ h₂ h₃
    · exact loadLines_eq_pushAll rest c c' count h
    · simp at h
    · obtain ⟨vs, hvs⟩ := loadLines_eq_pushAll rest _ c' _ h
      exact ⟨_ :: vs, hvs⟩

theorem vars_pushAll : ∀ (vs : List Var) (c : Config) (count : ℤ),
    (c.pushAll count vs).vars = c.vars ++ vs
  | [], c, count => by simp [pushAll]
  | v :: vs, c, count => by simp [pushAll, vars_pushAll vs, push]

theorem vhdlVarSize_pushAll : ∀ (vs : List Var) (c : Config) (count : ℤ),
    (c.pushAll count vs).vhdlVarSize = c.vhdlVarSize
  | [], _, _ => rfl
  | v :: vs, c, count => by rw [pushAll, vhdlVarSize_pushAll vs]; rfl

theorem ranges_pushAll_of_notMem {label : Text} : ∀ (vs : List Var) (c : Config) (count : ℤ),
    label ∉ vs.map Var.label → (c.pushAll count vs).ranges label = c.ranges label
  | [], _, _, _ => rfl
  | v :: vs, c, count, h => by
    rw [List.map_cons, List.mem_cons, not_or] at h
    rw [pushAll, ranges_pushAll_of_notMem vs _ _ h.2]
    simp [push, h.1]

/-- The range of the entry after `pre` starts behind the bytes of `pre`. -/
theorem ranges_pushAll (v : Var) (post : List Var) : ∀ (pre : List Var) (c : Config) (n : ℕ),
    (∀ u ∈ pre, u.IsBit ∨ u.IsVector) → v.label ∉ post.map Var.label →
      (c.pushAll (8 * n) (pre ++ v :: post)).ranges v.label =
        some (indexUb (8 * (n + (pre.map Var.bytes).sum : ℕ)) v,
          8 * ((n + (pre.map Var.bytes).sum : ℕ) : ℤ))
  | [], c, n, _, hl => by
    rw [List.nil_append, pushAll, ranges_pushAll_of_notMem post _ _ hl]
    simp [push]
  | u :: pre, c, n, hv, hl => by
    rw [List.cons_append, pushAll, nextCount_eq (hv u (by simp)),
      ranges_pushAll v post pre _ _ (fun w hw => hv w (by simp [hw])) hl]
    simp [Nat.add_assoc]

/-! ## What `vhdlCode` drives -/

/-- The lines of a signal in the bytes from `n` on: its own elements, then those left over. -/
theorem assignVar_eq {v : Var} (h : v.IsBit ∨ v.IsVector) (n : ℕ) :
    assignVar (8 * n) v =
      (if v.IsBit then .bit (8 * n) v.vhdlName
        else .slice (8 * n + (v.vhdlUb - v.vhdlLb)) (8 * n) v.vhdlName v.vhdlUb v.vhdlLb) ::
      if (v.vhdlUb - v.vhdlLb + 1) % 8 ≠ 0 then
        [.zeros (8 * (n + v.bytes) - 1) (8 * n + (v.vhdlUb - v.vhdlLb) + 1)]
      else [] := by
  have hle := Var.le_ub h
  have hub : codeIndexUb (8 * n) v = 8 * n + (v.vhdlUb - v.vhdlLb) := by
    rw [codeIndexUb_eq h, indexUb]
    omega
  have htop : 8 * n + (v.vhdlUb - v.vhdlLb) + 7 - (v.vhdlUb - v.vhdlLb) % 8 =
      8 * (n + v.bytes) - 1 := by
    unfold Var.bytes
    omega
  have hpad : (8 * n + (v.vhdlUb - v.vhdlLb) + 1) % 8 = (v.vhdlUb - v.vhdlLb + 1) % 8 := by omega
  unfold assignVar
  rw [hub]
  simp only
  rw [Int.tmod_eq_emod_of_nonneg (by omega), Int.tmod_eq_emod_of_nonneg (by omega), htop, hpad]
  congr 1
  by_cases hb : v.IsBit
  · rw [if_pos ((Var.ub_eq_neg_one_iff h).2 hb), if_pos hb, hb.1, hb.2]
    simp
  · rw [if_neg (mt (Var.ub_eq_neg_one_iff h).1 hb), if_neg hb]

/-- The lines of one signal drive its bytes, each element once. -/
theorem countP_assignVar {v : Var} (h : v.IsBit ∨ v.IsVector) (n : ℕ) (i : ℤ) :
    (assignVar (8 * n) v).countP (·.drives i) =
      if 8 * (n : ℤ) ≤ i ∧ i < 8 * (n + v.bytes : ℕ) then 1 else 0 := by
  have hle := Var.le_ub h
  have hb : (v.bytes : ℤ) = (v.vhdlUb - v.vhdlLb) / 8 + 1 := by
    unfold Var.bytes
    omega
  rw [assignVar_eq h]
  -- whether the signal fills its last byte, and which of the two kinds it is
  by_cases hp : (v.vhdlUb - v.vhdlLb + 1) % 8 ≠ 0 <;> by_cases hv : v.IsBit <;>
    simp only [hp, hv, if_true, if_false, List.countP_cons, List.countP_nil, Assign.drives,
      decide_eq_true_eq, not_false_eq_true, ne_eq] <;>
    unfold Var.IsBit at hv <;> split_ifs <;> omega

theorem assignFrom_cons {v : Var} (h : v.IsBit ∨ v.IsVector) (size : ℤ) (n : ℕ)
    (vs : List Var) :
    assignFrom size (8 * n) (v :: vs) =
      if v.IsBit ∧ n = 0 then none
      else (assignFrom size (8 * (n + v.bytes : ℕ)) vs).map (assignVar (8 * n) v ++ ·) := by
  rw [assignFrom, codeIndexUb_eq h, nextCount_eq h]
  simp only [Var.ub_eq_neg_one_iff h]
  congr 1
  simp

/-- The only signal the assertion stops at is a single bit at index 0. -/
theorem exists_assignFrom (size : ℤ) : ∀ (vs : List Var) (n : ℕ),
    (∀ v ∈ vs, v.IsBit ∨ v.IsVector) → (∀ v, vs.head? = some v → ¬ (v.IsBit ∧ n = 0)) →
      ∃ as, assignFrom size (8 * n) vs = some as
  | [], _, _, _ => ⟨_, rfl⟩
  | v :: vs, n, hv, hh => by
    rw [assignFrom_cons (hv v (by simp)), if_neg (hh v rfl)]
    have hpos : n + v.bytes ≠ 0 := by simp [Var.bytes]
    obtain ⟨as, has⟩ := exists_assignFrom size vs (n + v.bytes) (fun u hu => hv u (by simp [hu]))
      fun u _ hu => hpos hu.2
    exact ⟨_, by rw [has]; rfl⟩

theorem countP_assignFrom (i : ℤ) : ∀ (vs : List Var) (n : ℕ) (as : List Assign),
    (∀ v ∈ vs, v.IsBit ∨ v.IsVector) → n + (vs.map Var.bytes).sum ≤ 512 →
      assignFrom 4096 (8 * n) vs = some as →
        as.countP (·.drives i) = if 8 * (n : ℤ) ≤ i ∧ i < 4096 then 1 else 0
  | [], n, as, _, hn, h => by
    simp only [List.map_nil, List.sum_nil] at hn
    simp only [assignFrom, Option.some.injEq] at h
    subst h
    -- the tail
    split_ifs <;> simp [Assign.drives] <;> omega
  | v :: vs, n, as, hv, hn, h => by
    rw [List.map_cons, List.sum_cons] at hn
    rw [assignFrom_cons (hv v (by simp))] at h
    split_ifs at h
    obtain ⟨bs, hbs, rfl⟩ := Option.map_eq_some_iff.1 h
    rw [List.countP_append, countP_assignVar (hv v (by simp)),
      countP_assignFrom i vs _ bs (fun u hu => hv u (by simp [hu])) (by omega) hbs]
    split_ifs <;> omega

/-- The lines of the entry after `pre` are among those of the code. -/
theorem mem_assignFrom {v : Var} {post : List Var} {a : Assign} {size : ℤ} :
    ∀ (pre : List Var) (n : ℕ) (as : List Assign),
      (∀ u ∈ pre ++ v :: post, u.IsBit ∨ u.IsVector) →
      assignFrom size (8 * n) (pre ++ v :: post) = some as →
        a ∈ assignVar (8 * (n + (pre.map Var.bytes).sum : ℕ)) v → a ∈ as
  | [], n, as, hv, h, ha => by
    rw [List.nil_append, assignFrom_cons (hv v (by simp))] at h
    split_ifs at h
    obtain ⟨bs, -, rfl⟩ := Option.map_eq_some_iff.1 h
    exact List.mem_append_left _ (by simpa using ha)
  | u :: pre, n, as, hv, h, ha => by
    rw [List.cons_append, assignFrom_cons (hv u (by simp))] at h
    split_ifs at h
    obtain ⟨bs, hbs, rfl⟩ := Option.map_eq_some_iff.1 h
    refine List.mem_append_right _ (mem_assignFrom pre _ bs (fun w hw => hv w ?_) hbs ?_)
    · exact List.mem_cons_of_mem _ hw
    · simpa [Nat.add_assoc] using ha

end Config

/-! ## What the message holds of a signal -/

theorem length_downto (ub lb : ℤ) : (downto ub lb).length = (ub - lb + 1).toNat := by
  simp [downto]

theorem getElem_downto {ub lb : ℤ} {k : ℕ} (h : k < (downto ub lb).length) :
    (downto ub lb)[k] = ub - k := by
  simp [downto]

section Bits

variable {v : Var} {σ : Signals}

theorem Var.length_bits (h : v.IsBit ∨ v.IsVector) :
    (v.bits σ).length = (v.vhdlUb - v.vhdlLb).toNat + 1 := by
  have := Var.le_ub h
  have := Var.ub_eq_neg_one_iff h
  unfold bits
  unfold IsBit at *
  split_ifs
  · simp; omega
  · simp [length_downto]; omega

/-- The value of the signal as a bit vector. -/
def Var.valueBits (v : Var) (σ : Signals) : BitVec (v.bits σ).length :=
  BitVec.ofBoolListBE (v.bits σ)

/-- The lines of a signal drive its bytes with its value. -/
theorem Config.exists_drives (h : v.IsBit ∨ v.IsVector) (m j : ℕ) (hj : j < 8 * v.bytes) :
    ∃ a ∈ assignVar (8 * m) v, a.drives (8 * m + j : ℕ) ∧
      a.value σ (8 * m + j : ℕ) = (v.valueBits σ).getLsbD j := by
  have hle := Var.le_ub h
  have hlen := Var.length_bits (σ := σ) h
  have hb : (v.bytes : ℤ) = (v.vhdlUb - v.vhdlLb) / 8 + 1 := by
    unfold Var.bytes
    omega
  rw [assignVar_eq h, Var.valueBits, BitVec.getLsbD_ofBoolListBE]
  by_cases hw : (j : ℤ) ≤ v.vhdlUb - v.vhdlLb
  · refine ⟨_, List.mem_cons_self, ?_⟩
    have hk : (v.bits σ).length - 1 - j < (v.bits σ).length := by omega
    rw [decide_eq_true (by omega), Bool.true_and, List.getD_eq_getElem _ _ hk]
    by_cases hv : v.IsBit
    · have hj0 : j = 0 := by
        unfold Var.IsBit at hv
        omega
      simp [hv, hj0, Assign.drives, Assign.value, Var.bits, hv.1]
    · have hbits : v.bits σ = (downto v.vhdlUb v.vhdlLb).map (σ.vec v.vhdlName) :=
        if_neg (mt (Var.ub_eq_neg_one_iff h).1 hv)
      simp only [hbits] at hlen hk ⊢
      simp only [hv, if_false, Assign.drives, Assign.value, List.getElem_map, getElem_downto,
        decide_eq_true_eq]
      refine ⟨by omega, ?_⟩
      congr 1
      omega
  · -- past the signal: the padding
    have hp : (v.vhdlUb - v.vhdlLb + 1) % 8 ≠ 0 := by omega
    refine ⟨.zeros (8 * (m + v.bytes) - 1) (8 * m + (v.vhdlUb - v.vhdlLb) + 1), by simp [hp], ?_⟩
    rw [decide_eq_false (by omega), Bool.false_and]
    simp only [Assign.drives, Assign.value, decide_eq_true_eq, and_true]
    omega

/-- So a snapshot holds the value of the signal in the signal's bytes. -/
theorem Snapshot.getLsbD_eq {as : List Assign} {buff : List (BitVec 8)} (hs : Snapshot as σ buff)
    (h : v.IsBit ∨ v.IsVector) {m : ℕ} (hm : m + v.bytes ≤ 512)
    (has : ∀ a ∈ Config.assignVar (8 * m) v, a ∈ as) {j : ℕ} (hj : j < 8 * v.bytes) :
    (buff.getD (m + j / 8) 0#8).getLsbD (j % 8) = (v.valueBits σ).getLsbD j := by
  obtain ⟨a, ha, hd, hval⟩ := Config.exists_drives (σ := σ) h m j hj
  have := hs.driven a (has a ha) (8 * m + j) (by omega) hd
  rw [hval] at this
  rw [← this, show (8 * m + j) / 8 = m + j / 8 by omega, show (8 * m + j) % 8 = j % 8 by omega]

end Bits

/-! ## What `print` shows -/

theorem mapM_eq_some_map {α β : Type} {f : α → Option β} {g : α → β} :
    ∀ l : List α, (∀ a ∈ l, f a = some (g a)) → l.mapM f = some (l.map g)
  | [], _ => rfl
  | a :: l, h => by
    rw [List.mapM_cons, h a (by simp), mapM_eq_some_map l fun b hb => h b (by simp [hb])]
    rfl

theorem bitText_eq {buff : List (BitVec 8)} {i : ℕ} (h : i / 8 < buff.length) :
    bitText buff i = some (if (buff.getD (i / 8) 0#8).getLsbD (i % 8) then '1' else '0') := by
  have hd : ((i : ℤ).tdiv 8).toNat = i / 8 := by
    rw [Int.tdiv_eq_ediv_of_nonneg (by omega)]
    omega
  have hm : ((i : ℤ).tmod 8).toNat = i % 8 := by
    rw [Int.tmod_eq_emod_of_nonneg (by omega)]
    omega
  have hp : BitVec.twoPow 8 (i % 8) ≠ 0#8 := by
    intro h0
    have := congrArg (BitVec.getLsbD · (i % 8)) h0
    simp [Nat.mod_lt] at this
  rw [bitText, hd, hm, List.getElem?_eq_getElem h, List.getD_eq_getElem _ _ h, Option.map_some,
    ← BitVec.twoPow_eq, BitVec.and_twoPow]
  by_cases hb : buff[i / 8].getLsbD (i % 8)
  · simp [hb, hp]
  · simp [hb]

theorem byteText_eq : ∀ b : BitVec 8,
    byteText b = [Nat.digitChar (b.toNat / 16), Nat.digitChar (b.toNat % 16)] := by
  decide +kernel

theorem hexText_succ (n value : ℕ) : hexText (2 * (n + 1)) value =
    [Nat.digitChar (value / 256 ^ n % 256 / 16), Nat.digitChar (value / 256 ^ n % 256 % 16)] ++
      hexText (2 * n) value := by
  have h₁ : value / 16 ^ (2 * n) = value / 256 ^ n := by
    rw [pow_mul]
    norm_num
  have h₂ : value / 16 ^ (2 * n + 1) = value / 256 ^ n / 16 := by
    rw [pow_succ, ← Nat.div_div_eq_div_mul, h₁]
  have h₃ : value / 256 ^ n / 16 % 16 = value / 256 ^ n % 256 / 16 := by omega
  have h₄ : value / 256 ^ n % 16 = value / 256 ^ n % 256 % 16 := by omega
  unfold hexText
  rw [Nat.mul_succ, List.range_succ, List.range_succ]
  simp only [List.reverse_append, List.reverse_cons, List.reverse_nil, List.nil_append,
    List.map_cons, List.cons_append, h₁, h₂, h₃, h₄]

theorem downto_of_le {ub lb : ℤ} (h : lb ≤ ub) : downto ub lb = ub :: downto (ub - 1) lb := by
  unfold downto
  rw [show (ub - lb + 1).toNat = (ub - 1 - lb + 1).toNat + 1 by omega, List.range_succ_eq_map,
    List.map_cons, List.map_map]
  congr 1
  · simp
  · refine List.map_congr_left fun k _ => ?_
    simp only [Function.comp_apply, Nat.succ_eq_add_one]
    omega

theorem flatMap_byteText {g : ℤ → BitVec 8} {value m : ℕ} : ∀ n : ℕ,
    (∀ k < n, (g (m + k)).toNat = value / 256 ^ k % 256) →
      ((downto (m + n - 1) m).map g).flatMap byteText = hexText (2 * n) value
  | 0, _ => by simp [downto, hexText]
  | n + 1, h => by
    have hsub : (m : ℤ) + (n + 1 : ℕ) - 1 = m + n := by omega
    rw [hsub, downto_of_le (by omega), List.map_cons, List.flatMap_cons,
      flatMap_byteText n fun k hk => h k (by omega), byteText_eq, h n (by omega), hexText_succ]

section Print

variable {v : Var} {σ : Signals} {buff : List (BitVec 8)} {m : ℕ}

/-- Binary: the elements of the range one by one. -/
theorem mapM_bitText (h : v.IsBit ∨ v.IsVector) (hlen : buff.length = 512)
    (hm : m + v.bytes ≤ 512)
    (hb : ∀ j < 8 * v.bytes,
      (buff.getD (m + j / 8) 0#8).getLsbD (j % 8) = (v.valueBits σ).getLsbD j) :
    (downto (Config.indexUb (8 * m) v) (8 * m)).mapM (bitText buff) =
      some ((v.bits σ).map (if · then '1' else '0')) := by
  have hle := Var.le_ub h
  have hbits := Var.length_bits (σ := σ) h
  have hby : v.bytes = (v.vhdlUb - v.vhdlLb).toNat / 8 + 1 := rfl
  have hdl := length_downto (Config.indexUb (8 * m) v) (8 * m)
  unfold Config.indexUb at hdl ⊢
  rw [mapM_eq_some_map (g := fun i : ℤ =>
    if (v.valueBits σ).getLsbD (i - 8 * m).toNat then '1' else '0')]
  · congr 1
    refine List.ext_getElem ?_ fun k h₁ h₂ => ?_
    · rw [List.length_map, List.length_map]
      omega
    · rw [List.length_map] at h₁ h₂
      have hk : (v.bits σ).length - 1 - ((v.bits σ).length - 1 - k) = k := by omega
      have hi : (8 * (m : ℤ) + v.vhdlUb - v.vhdlLb - k - 8 * m).toNat =
          (v.bits σ).length - 1 - k := by omega
      rw [List.getElem_map, List.getElem_map, getElem_downto, hi, Var.valueBits,
        BitVec.getLsbD_ofBoolListBE, hk, List.getD_eq_getElem _ _ h₂,
        decide_eq_true (by omega), Bool.true_and]
  · intro i hi
    obtain ⟨k, hk, rfl⟩ := List.getElem_of_mem hi
    rw [getElem_downto]
    obtain ⟨j, hj⟩ : ∃ j : ℕ, 8 * (m : ℤ) + v.vhdlUb - v.vhdlLb - k = (8 * m + j : ℕ) :=
      ⟨(v.vhdlUb - v.vhdlLb - k).toNat, by omega⟩
    rw [hj, bitText_eq (by omega), show (8 * m + j) / 8 = m + j / 8 by omega,
      show (8 * m + j) % 8 = j % 8 by omega, hb j (by omega)]
    simp

/-- Hexadecimal: the bytes of the range, the padding of the last one included. -/
theorem mapM_getElem? (h : v.IsBit ∨ v.IsVector) (hlen : buff.length = 512)
    (hm : m + v.bytes ≤ 512)
    (hb : ∀ j < 8 * v.bytes,
      (buff.getD (m + j / 8) 0#8).getLsbD (j % 8) = (v.valueBits σ).getLsbD j) :
    ∃ bytes, (downto ((Config.indexUb (8 * m) v).tdiv 8) ((8 * (m : ℤ)).tdiv 8)).mapM
        (fun i => buff[i.toNat]?) = some bytes ∧
      bytes.flatMap byteText = hexText (2 * v.bytes) (v.valueBits σ).toNat := by
  have hle := Var.le_ub h
  have hby : v.bytes = (v.vhdlUb - v.vhdlLb).toNat / 8 + 1 := rfl
  have hub : (Config.indexUb (8 * m) v).tdiv 8 = m + v.bytes - 1 := by
    unfold Config.indexUb
    rw [Int.tdiv_eq_ediv_of_nonneg (by omega)]
    omega
  have hlb : (8 * (m : ℤ)).tdiv 8 = m := by
    rw [Int.tdiv_eq_ediv_of_nonneg (by omega)]
    omega
  rw [hub, hlb]
  refine ⟨_, mapM_eq_some_map (g := fun i : ℤ => buff.getD i.toNat 0#8) _ fun i hi => ?_,
    flatMap_byteText _ fun k hk => ?_⟩
  · obtain ⟨k, hk, rfl⟩ := List.getElem_of_mem hi
    rw [length_downto] at hk
    rw [getElem_downto, List.getD_eq_getElem _ _ (by omega), List.getElem?_eq_getElem]
  · -- bit by bit
    refine Nat.eq_of_testBit_eq fun j => ?_
    rw [show (256 : ℕ) = 2 ^ 8 by norm_num, Nat.testBit_mod_two_pow, ← pow_mul,
      Nat.testBit_div_two_pow]
    by_cases hj : j < 8
    · have := hb (8 * k + j) (by omega)
      rw [show (8 * k + j) / 8 = k by omega, show (8 * k + j) % 8 = j by omega] at this
      rw [decide_eq_true hj, Bool.true_and, show ((m : ℤ) + k).toNat = m + k by omega]
      rw [Nat.add_comm j]
      exact this
    · rw [decide_eq_false hj, Bool.false_and]
      exact BitVec.getLsbD_of_ge _ _ (by omega)

end Print

/-! ## The layout agrees -/

section Agrees

variable {c : Config}

theorem print_eq (hc : c.WellFormed) {pre post : List Var} {v : Var} {as : List Assign}
    {σ : Signals} {buff : List (BitVec 8)} (hv : c.vars = pre ++ v :: post) {m : ℕ}
    (hm : m = (pre.map Var.bytes).sum)
    (hr : c.ranges v.label = some (Config.indexUb (8 * m) v, 8 * (m : ℤ)))
    (has : Config.assignFrom 4096 (8 * (0 : ℕ)) c.vars = some as) (hs : Snapshot as σ buff) :
    print c buff 2 v.label = some (false, v.shownBin σ) ∧
      print c buff 16 v.label = some (false, v.shownHex σ) := by
  have hval := hc.valid
  have hfits := hc.fits
  rw [hv] at has hval hfits
  simp only [List.map_append, List.map_cons, List.sum_append, List.sum_cons] at hfits
  have hvv : v.IsBit ∨ v.IsVector := hval v (by simp)
  have hle := Var.le_ub hvv
  have hb : ∀ j < 8 * v.bytes,
      (buff.getD (m + j / 8) 0#8).getLsbD (j % 8) = (v.valueBits σ).getLsbD j := by
    intro j hj
    refine hs.getLsbD_eq hvv (by omega) (fun a ha => ?_) hj
    exact Config.mem_assignFrom pre 0 as hval has (by rwa [Nat.zero_add, ← hm])
  have hneg : ¬ (Config.indexUb (8 * m) v < 0 ∨ 8 * (m : ℤ) < 0) := by
    unfold Config.indexUb
    omega
  have hal : ¬ (8 * (m : ℤ)).tmod 8 ≠ 0 := by simp
  obtain ⟨bytes, hbytes, htext⟩ := mapM_getElem? hvv hs.length (by omega) hb
  unfold print Config.range
  simp only [hr, Option.getD_some, if_neg hneg, if_neg hal, if_true]
  refine ⟨?_, ?_⟩
  · rw [mapM_bitText hvv hs.length (by omega) hb]
    rfl
  · rw [if_neg (by decide), hbytes, Option.map_some, htext]
    rfl

/-- The layout agrees for exactly the configurations that do not begin with a single bit. -/
theorem Config.probe_layout {file : Text}
    (hl : cadbConfig.load file = some (false, c))
    (hc : c.WellFormed) : c.Agrees ↔ ∀ v, c.vars.head? = some v → ¬ v.IsBit := by
  obtain ⟨vs, rfl⟩ := Config.loadLines_eq_pushAll _ _ _ _ hl
  have hvars := vars_pushAll vs cadbConfig 0
  have hsize := vhdlVarSize_pushAll vs cadbConfig 0
  generalize hcc : cadbConfig.pushAll 0 vs = c at *
  rw [show cadbConfig.vars = [] from rfl, List.nil_append] at hvars
  have hassigns : c.assigns = assignFrom 4096 (8 * (0 : ℕ)) c.vars := by
    rw [assigns, hsize]
    rfl
  constructor
  · rintro ⟨as, has, -⟩ v hv hbit
    obtain ⟨rest, hrest⟩ : ∃ rest, c.vars = v :: rest := by
      cases hcv : c.vars with
      | nil => simp [hcv] at hv
      | cons u rest =>
        rw [hcv] at hv
        exact ⟨rest, by rw [Option.some.inj hv]⟩
    rw [hassigns, hrest, assignFrom_cons (.inl hbit), if_pos ⟨hbit, rfl⟩] at has
    simp at has
  · intro hfirst
    obtain ⟨as, has⟩ := exists_assignFrom 4096 c.vars 0 hc.valid fun v hv hb => hfirst v hv hb.1
    refine ⟨as, hassigns.trans has, by rw [vhdlCode, hassigns, has]; rfl, fun i => ?_, ?_⟩
    · have hfits := hc.fits
      have := countP_assignFrom i c.vars 0 as hc.valid (by omega) has
      simpa using this
    · intro σ buff hs v hv
      obtain ⟨pre, post, hpp⟩ := List.append_of_mem hv
      refine print_eq hc hpp rfl ?_ has hs
      have hlab := hc.labels
      have hval := hc.valid
      rw [hpp] at hlab hval
      rw [List.map_append, List.map_cons, List.nodup_append, List.nodup_cons] at hlab
      have hr := ranges_pushAll v post pre cadbConfig 0
        (fun u hu => hval u (by simp [hu])) hlab.2.1.1
      rw [← hpp, hvars, Nat.zero_add] at hr
      rw [← hcc]
      exact hr

end Agrees

theorem Config.probe_layout_timer :
    ∃ c, cadbConfig.load "us usec (9 downto 0) # time\nclk clk\n".toList = some (false, c) ∧
      c.WellFormed ∧ c.Agrees := by
  obtain ⟨c, hl, hvars⟩ : ∃ c,
      cadbConfig.load "us usec (9 downto 0) # time\nclk clk\n".toList = some (false, c) ∧
      c.vars = [⟨"us".toList, "usec".toList, 9, 0⟩, ⟨"clk".toList, "clk".toList, -1, -1⟩] :=
    ⟨_, rfl, by decide +kernel⟩
  have hc : c.WellFormed := by
    refine ⟨?_, ?_, ?_⟩ <;> rw [hvars] <;> decide
  refine ⟨c, hl, hc, (Config.probe_layout hl hc).2 ?_⟩
  rw [hvars]
  intro v hv
  cases hv
  decide

/-- A configuration that begins with a single bit: the assertion stops `vhdlCode`. -/
theorem Config.not_probe_layout_clk :
    ∃ c, cadbConfig.load "clk clk\n".toList = some (false, c) ∧ c.WellFormed ∧ c.vhdlCode = none ∧
      ¬ c.Agrees := by
  obtain ⟨c, hl, hvars, hcode⟩ : ∃ c, cadbConfig.load "clk clk\n".toList = some (false, c) ∧
      c.vars = [⟨"clk".toList, "clk".toList, -1, -1⟩] ∧ c.vhdlCode = none :=
    ⟨_, rfl, by decide +kernel, by decide +kernel⟩
  refine ⟨c, hl, ?_, hcode, ?_⟩
  · refine ⟨?_, ?_, ?_⟩ <;> rw [hvars] <;> decide
  · rintro ⟨as, -, h, -⟩
    simp [hcode] at h

end Cadb

end CacheCPU
