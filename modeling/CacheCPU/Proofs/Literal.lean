import CacheCPU.Cadb.Parser
import CacheCPU.Lib.Loop
import Mathlib.Tactic.IntervalCases
import Mathlib.Tactic.SplitIfs
import Mathlib.Tactic.Tauto

/-!
# The literals of the client's commands

`getBase` tests the characters of the whole string, prefix included, and `stoull` reads what is
behind the prefix. So a string whose letters are all right may still be no literal: it has no
digits, too many, or the letter of the prefix once more. And the letter of an upper-case prefix is
not among the characters that pass.
-/

namespace CacheCPU

namespace Cadb

/-! ## The literals -/

inductive Radix
  | hex | bin

namespace Radix

def base : Radix → ℕ
  | hex => 16
  | bin => 2

def lower : Radix → Char
  | hex => 'x'
  | bin => 'b'

def upper : Radix → Char
  | hex => 'X'
  | bin => 'B'

/-- How many digits 64 bits have. -/
def width : Radix → ℕ
  | hex => 16
  | bin => 64

theorem base_pow_width (r : Radix) : r.base ^ r.width = 2 ^ 64 := by
  cases r <;> rfl

theorem one_lt_base (r : Radix) : 1 < r.base := by
  cases r <;> decide

end Radix

/-- The digits of a literal, `'_'` among them where it is a pattern. -/
structure Digits (r : Radix) (wild : Bool) (ds : Text) : Prop where
  ne_nil : ds ≠ []
  length : ds.length ≤ r.width
  digit : ∀ c ∈ ds, isDigit r.base c = true ∨ (wild = true ∧ c = '_')

def Literal (wild : Bool) (t : Text) (r : Radix) (ds : Text) : Prop :=
  (t = '0' :: r.lower :: ds ∨ t = '0' :: r.upper :: ds) ∧ Digits r wild ds

/-- A decimal number of 64 bits. -/
structure Decimal (t : Text) : Prop where
  ne_nil : t ≠ []
  digit : ∀ c ∈ t, isDigit 10 c = true
  lt : numeral 10 t < 2 ^ 64

/-- The digits that match anything, all ones. -/
def wildcards (r : Radix) (ds : Text) : ℕ :=
  ds.foldl (fun n c => r.base * n + if c = '_' then r.base - 1 else 0) 0

/-- `setBreak` sends the pattern that the literal denotes, and reports every other string. -/
def BreakRight (a : Text) : Prop :=
  (∀ r ds, Literal true (trim a) r ds → setBreak a = .ok ⟨false, some [], some (command 0x02#8
    (BitVec.ofNat 64 (numeral r.base ds)) (~~~BitVec.ofNat 64 (wildcards r ds)))⟩) ∧
  ((∀ r ds, ¬ Literal true (trim a) r ds) → setBreak a = .ok invalid)

/-- `stepClock` sends the number that the literal denotes, 1 without one, and reports every other
string. -/
def StepRight (c : Config) (display : List (ℕ × Text)) (recv : List (BitVec 8)) (n : Text) :
    Prop :=
  let sends (k : ℕ) := stepClock c display recv n = .ok ⟨false, displayAll c recv display,
    some (command 0x04#8 (BitVec.ofNat 64 k) 0#64)⟩
  (trim n = [] → sends 1) ∧ (∀ r ds, Literal false (trim n) r ds → sends (numeral r.base ds)) ∧
    (Decimal (trim n) → sends (numeral 10 (trim n))) ∧
    (trim n ≠ [] → (∀ r ds, ¬ Literal false (trim n) r ds) → ¬ Decimal (trim n) →
      stepClock c display recv n = .ok invalid)

/-- The strings that are not treated right: a literal with an upper-case prefix, and a lower-case
prefix before characters that all pass and make no literal. -/
def Slips (wild : Bool) (t : Text) : Prop :=
  ∃ r ds, (t = '0' :: r.upper :: ds ∧ Digits r wild ds) ∨
    (t = '0' :: r.lower :: ds ∧
      (∀ c ∈ ds, c = r.lower ∨ isDigit r.base c = true ∨ (wild = true ∧ c = '_')) ∧
      ¬ Digits r wild ds)

/-! ## Digits -/

/-- Every digit is an ASCII character. -/
theorem toNat_of_digitVal {c : Char} {k : ℕ} (h : digitVal c = some k) : c.toNat < 128 := by
  have hle : ∀ d : Char, c ≤ d → c.toNat ≤ d.toNat := fun d hd => hd
  unfold digitVal at h
  split at h
  case isTrue h1 => exact lt_of_le_of_lt (hle _ h1.2) (by decide)
  split at h
  case isTrue h1 => exact lt_of_le_of_lt (hle _ h1.2) (by decide)
  split at h
  case isTrue h1 => exact lt_of_le_of_lt (hle _ h1.2) (by decide)
  cases h

/-- Also where there are finitely many characters, a text is gone through. -/
instance decidableText (t : Text) (p : Char → Prop) [DecidablePred p] :
    Decidable (∀ c ∈ t, p c) := List.decidableBAll p t

theorem isDigit_ascii : ∀ n < 128,
    (isDigit 16 (Char.ofNat n) = true ↔ Char.ofNat n ∈ "0123456789ABCDEFabcdef".toList) ∧
      (isDigit 2 (Char.ofNat n) = true ↔ Char.ofNat n ∈ "01".toList) ∧
      (isDigit 10 (Char.ofNat n) = true ↔ Char.ofNat n ∈ "1234567890".toList) := by
  decide +kernel

/-- The sets that `getBase` tests for are those of the digits. -/
theorem isDigit_iff_mem {c : Char} :
    (isDigit 16 c = true ↔ c ∈ "0123456789ABCDEFabcdef".toList) ∧
      (isDigit 2 c = true ↔ c ∈ "01".toList) ∧ (isDigit 10 c = true ↔ c ∈ "1234567890".toList) := by
  by_cases hc : c.toNat < 128
  · have h := isDigit_ascii c.toNat hc
    rwa [Char.ofNat_toNat] at h
  · have hno : ∀ base, ¬ isDigit base c = true := by
      intro base h
      obtain ⟨k, hk, -⟩ := (Option.any_eq_true _ _).1 h
      exact hc (toNat_of_digitVal hk)
    have hmem : ∀ t : Text, t.all (·.toNat < 128) = true → c ∉ t := fun t ht h =>
      hc (of_decide_eq_true (List.all_eq_true.1 ht c h))
    exact ⟨iff_of_false (hno 16) (hmem _ (by decide)), iff_of_false (hno 2) (hmem _ (by decide)),
      iff_of_false (hno 10) (hmem _ (by decide))⟩

theorem digitVal_lt {base : ℕ} {c : Char} (h : isDigit base c = true) :
    (digitVal c).getD 0 < base := by
  obtain ⟨k, hk, hlt⟩ := (Option.any_eq_true _ _).1 h
  rw [hk]
  exact of_decide_eq_true hlt

section Numerals

variable {base : ℕ}

/-- A number of `n` digits is below the `n`th power of the base. -/
theorem foldl_lt {g : Char → ℕ} : ∀ {ds : Text} (_ : ∀ c ∈ ds, g c < base) (k : ℕ),
    ds.foldl (fun n c => base * n + g c) k < base ^ ds.length * (k + 1)
  | [], _, k => by simp
  | c :: ds, h, k => by
    have hc : g c < base := h c (by simp)
    refine lt_of_lt_of_le (foldl_lt (fun d hd => h d (by simp [hd])) (base * k + g c)) ?_
    calc base ^ ds.length * (base * k + g c + 1)
        ≤ base ^ ds.length * (base * (k + 1)) := Nat.mul_le_mul_left _ (by rw [Nat.mul_add]; omega)
      _ = base ^ (ds.length + 1) * (k + 1) := by rw [Nat.pow_succ, Nat.mul_assoc]

theorem foldl_lt_width {r : Radix} {g : Char → ℕ} {ds : Text} (h : ∀ c ∈ ds, g c < r.base)
    (hl : ds.length ≤ r.width) : ds.foldl (fun n c => r.base * n + g c) 0 < 2 ^ 64 := by
  have hlt := foldl_lt h 0
  rw [Nat.zero_add, Nat.mul_one] at hlt
  refine lt_of_lt_of_le hlt ?_
  rw [← r.base_pow_width]
  exact Nat.pow_le_pow_right (by have := r.one_lt_base; omega) hl

theorem numeral_map (f : Char → Char) (ds : Text) : numeral base (ds.map f) =
    ds.foldl (fun n c => base * n + (digitVal (f c)).getD 0) 0 := by
  rw [numeral, List.foldl_map]

end Numerals

/-! ## `stoull` -/

/-- What no digit is. -/
theorem not_isDigit {base : ℕ} (h : base ≤ 16) :
    isDigit base '-' = false ∧ isDigit base '+' = false ∧ isDigit base 'x' = false ∧
      isDigit base 'X' = false ∧ ∀ c, isSpace c = true → isDigit base c = false := by
  have hmono : ∀ c, isDigit 16 c = false → isDigit base c = false := by
    intro c hc
    by_contra hn
    obtain ⟨k, hk, hlt⟩ := (Option.any_eq_true _ _).1 (Bool.eq_true_of_not_eq_false hn)
    have h16 : isDigit 16 c = true :=
      (Option.any_eq_true _ _).2 ⟨k, hk, decide_eq_true (lt_of_lt_of_le (of_decide_eq_true hlt) h)⟩
    rw [hc] at h16
    cases h16
  refine ⟨hmono _ (by decide), hmono _ (by decide), hmono _ (by decide), hmono _ (by decide),
    fun c hc => hmono c ?_⟩
  simp only [isSpace, isBlank, Bool.or_eq_true, decide_eq_true_eq] at hc
  rcases hc with ((((rfl | rfl) | rfl) | rfl) | rfl) | rfl <;> decide

/-- A string of digits is the number they make, if that has 64 bits. -/
theorem stoull_digits {base : ℕ} (hb : base ≤ 16) {t : Text} (hne : t ≠ [])
    (h : ∀ c ∈ t, isDigit base c = true) : stoull t base =
      if 2 ^ 64 ≤ numeral base t then .error .outOfRange
      else .ok (BitVec.ofNat 64 (numeral base t)) := by
  obtain ⟨hminus, hplus, hx, hX, hspace⟩ := not_isDigit hb
  have hneg : ∀ d, isDigit base d = false → d ∉ t := by
    intro d hd hmem
    rw [h d hmem] at hd
    cases hd
  have hdrop : t.dropWhile isSpace = t := by
    refine List.dropWhile_eq_self_iff.2 fun hl => ?_
    by_contra hn
    exact hneg _ (hspace _ (Bool.eq_true_of_not_eq_false (by simpa using hn))) (List.getElem_mem hl)
  have hhead : ∀ d, isDigit base d = false → t.head? ≠ some d := by
    intro d hd hh
    exact hneg d hd (List.mem_of_mem_head? hh)
  have htake : t.takeWhile (isDigit base) = t := List.takeWhile_eq_self_iff.2 h
  have hskip : skipPrefix base t = t := by
    unfold skipPrefix
    split
    · rw [if_neg]
      rintro ⟨-, rfl | rfl, -⟩
      · exact absurd (h 'x' (by simp)) (by simp [hx])
      · exact absurd (h 'X' (by simp)) (by simp [hX])
    · rfl
  unfold stoull
  simp only [hdrop, hhead _ hminus, hhead _ hplus, or_self, if_false, hskip, htake, hne]

/-! ## `getBase` -/

section GetBase

variable {w ds t : Text} {p : Char}

theorem getBase_hex (hp : p = 'x' ∨ p = 'X') : getBase ('0' :: p :: ds) w =
    if ('0' :: p :: ds).all (w ++ "x0123456789ABCDEFabcdef".toList).contains then some 16
    else none := by
  unfold getBase
  rw [if_pos ⟨by simp, rfl, hp.imp (congrArg some) (congrArg some)⟩]

theorem getBase_bin (hp : p = 'b' ∨ p = 'B') : getBase ('0' :: p :: ds) w =
    if ('0' :: p :: ds).all (w ++ "b01".toList).contains then some 2 else none := by
  have hne : ¬ (some p = some 'x' ∨ some p = some 'X') := by
    rcases hp with rfl | rfl <;> decide
  unfold getBase
  rw [if_neg fun h => hne h.2.2,
    if_pos ⟨by simp, rfl, hp.imp (congrArg some) (congrArg some)⟩]

/-- Behind a lower-case prefix the wildcard, its own letter and the digits pass. -/
theorem getBase_lower (r : Radix) : getBase ('0' :: r.lower :: ds) w =
    if ∀ c ∈ ds, c ∈ w ∨ c = r.lower ∨ isDigit r.base c = true then some r.base else none := by
  have hset : ∀ set : Text, '0' ∈ set → r.lower ∈ set →
      (∀ c, c ∈ set ↔ c = r.lower ∨ isDigit r.base c = true) →
      (('0' :: r.lower :: ds).all (w ++ set).contains = true ↔
        ∀ c ∈ ds, c ∈ w ∨ c = r.lower ∨ isDigit r.base c = true) := by
    intro set h0 hl hmem
    simp only [List.all_cons, List.contains_eq_mem, List.mem_append, h0, hl, or_true, decide_true,
      Bool.true_and, List.all_eq_true, decide_eq_true_eq, hmem]
  cases r with
  | hex =>
    rw [show Radix.hex.lower = 'x' from rfl, getBase_hex (.inl rfl)]
    refine if_congr (hset _ (by decide) (by decide) fun c => ?_) rfl rfl
    rw [Radix.base, isDigit_iff_mem.1]
    exact List.mem_cons
  | bin =>
    rw [show Radix.bin.lower = 'b' from rfl, getBase_bin (.inl rfl)]
    refine if_congr (hset _ (by decide) (by decide) fun c => ?_) rfl rfl
    rw [Radix.base, isDigit_iff_mem.2.1]
    exact List.mem_cons

/-- The letter of an upper-case prefix does not pass. -/
theorem getBase_upper (r : Radix) (hw : r.upper ∉ w) :
    getBase ('0' :: r.upper :: ds) w = none := by
  have hall : ∀ set : Text, r.upper ∉ set →
      ¬ ('0' :: r.upper :: ds).all (w ++ set).contains = true := by
    intro set hset h
    have hmem := List.all_eq_true.1 h r.upper (by simp)
    simp only [List.contains_eq_mem, List.mem_append, decide_eq_true_eq] at hmem
    exact hmem.elim hw hset
  cases r with
  | hex =>
    rw [show Radix.hex.upper = 'X' from rfl, getBase_hex (.inr rfl)]
    exact if_neg (hall _ (by decide))
  | bin =>
    rw [show Radix.bin.upper = 'B' from rfl, getBase_bin (.inr rfl)]
    exact if_neg (hall _ (by decide))

/-- The string has no prefix. -/
def Plain (t : Text) : Prop := ∀ (r : Radix) ds, t ≠ '0' :: r.lower :: ds ∧ t ≠ '0' :: r.upper :: ds

/-- Without a prefix only decimal digits pass. -/
theorem getBase_plain (h : Plain t) :
    getBase t w = if ∀ c ∈ t, isDigit 10 c = true then some 10 else none := by
  have hno : ∀ p, (∃ r : Radix, p = r.lower ∨ p = r.upper) →
      ¬ (2 ≤ t.length ∧ t[0]? = some '0' ∧ t[1]? = some p) := by
    rintro p ⟨r, hp⟩ ⟨hl, h0, h1⟩
    rcases t with _ | ⟨a, _ | ⟨b, ds⟩⟩
    · cases h0
    · cases h1
    · cases h0
      cases h1
      rcases hp with rfl | rfl
      · exact (h r ds).1 rfl
      · exact (h r ds).2 rfl
  have hx := hno 'x' ⟨.hex, .inl rfl⟩
  have hX := hno 'X' ⟨.hex, .inr rfl⟩
  have hb := hno 'b' ⟨.bin, .inl rfl⟩
  have hB := hno 'B' ⟨.bin, .inr rfl⟩
  unfold getBase
  rw [if_neg (by tauto), if_neg (by tauto)]
  refine if_congr ?_ rfl rfl
  simp only [List.all_eq_true, List.contains_eq_mem, decide_eq_true_eq, isDigit_iff_mem.2.2]

/-- A string has a lower-case prefix, an upper-case one or none. -/
theorem prefix_cases (t : Text) : (∃ r ds, t = '0' :: Radix.lower r :: ds) ∨
    (∃ r ds, t = '0' :: Radix.upper r :: ds) ∨ Plain t := by
  by_cases hl : ∃ r ds, t = '0' :: Radix.lower r :: ds
  · exact .inl hl
  by_cases hu : ∃ r ds, t = '0' :: Radix.upper r :: ds
  · exact .inr (.inl hu)
  exact .inr (.inr fun r ds => ⟨fun h => hl ⟨r, ds, h⟩, fun h => hu ⟨r, ds, h⟩⟩)

end GetBase

/-! ## The three kinds of strings -/

section Kinds

variable {r r' : Radix} {ds ds' t : Text} {wild : Bool}

theorem lower_injective (h : r.lower = r'.lower) : r = r' := by
  cases r <;> cases r' <;> first | rfl | exact absurd h (by decide)

theorem upper_injective (h : r.upper = r'.upper) : r = r' := by
  cases r <;> cases r' <;> first | rfl | exact absurd h (by decide)

theorem lower_ne_upper : r.lower ≠ r'.upper := by
  cases r <;> cases r' <;> decide

theorem literal_lower : Literal wild ('0' :: r.lower :: ds) r' ds' ↔
    r' = r ∧ ds' = ds ∧ Digits r wild ds := by
  constructor
  · rintro ⟨h | h, hd⟩
    · simp only [List.cons.injEq, true_and] at h
      obtain rfl := lower_injective h.1
      obtain rfl := h.2
      exact ⟨rfl, rfl, hd⟩
    · simp only [List.cons.injEq, true_and] at h
      exact absurd h.1 lower_ne_upper
  · rintro ⟨rfl, rfl, hd⟩
    exact ⟨.inl rfl, hd⟩

theorem literal_upper : Literal wild ('0' :: r.upper :: ds) r' ds' ↔
    r' = r ∧ ds' = ds ∧ Digits r wild ds := by
  constructor
  · rintro ⟨h | h, hd⟩
    · simp only [List.cons.injEq, true_and] at h
      exact absurd h.1.symm lower_ne_upper
    · simp only [List.cons.injEq, true_and] at h
      obtain rfl := upper_injective h.1
      obtain rfl := h.2
      exact ⟨rfl, rfl, hd⟩
  · rintro ⟨rfl, rfl, hd⟩
    exact ⟨.inr rfl, hd⟩

theorem slips_lower : Slips wild ('0' :: r.lower :: ds) ↔
    (∀ c ∈ ds, c = r.lower ∨ isDigit r.base c = true ∨ (wild = true ∧ c = '_')) ∧
      ¬ Digits r wild ds := by
  constructor
  · rintro ⟨r', ds', ⟨h, -⟩ | ⟨h, hpass⟩⟩
    · simp only [List.cons.injEq, true_and] at h
      exact absurd h.1 lower_ne_upper
    · simp only [List.cons.injEq, true_and] at h
      obtain rfl := lower_injective h.1
      obtain rfl := h.2
      exact hpass
  · exact fun h => ⟨r, ds, .inr ⟨rfl, h⟩⟩

theorem slips_upper : Slips wild ('0' :: r.upper :: ds) ↔ Digits r wild ds := by
  constructor
  · rintro ⟨r', ds', ⟨h, hd⟩ | ⟨h, -⟩⟩
    · simp only [List.cons.injEq, true_and] at h
      obtain rfl := upper_injective h.1
      obtain rfl := h.2
      exact hd
    · simp only [List.cons.injEq, true_and] at h
      exact absurd h.1.symm lower_ne_upper
  · exact fun h => ⟨r, ds, .inl ⟨rfl, h⟩⟩

theorem Plain.not_literal (h : Plain t) : ¬ Literal wild t r ds := by
  rintro ⟨ht | ht, -⟩
  · exact (h r ds).1 ht
  · exact (h r ds).2 ht

theorem Plain.not_slips (h : Plain t) : ¬ Slips wild t := by
  rintro ⟨r, ds, ⟨ht, -⟩ | ⟨ht, -⟩⟩
  · exact (h r ds).2 ht
  · exact (h r ds).1 ht

/-- What passes besides the digits. -/
def wildSet (wild : Bool) : Text := if wild then ['_'] else []

/-- A command on a string with a prefix, of which it is known what it does on a literal with a
lower-case prefix, and when it reports, treats it right if the string does not slip. -/
theorem prefixed_right_iff {res : Except StdError Reply} {sent : Radix → Text → Reply}
    (hp : ¬ Plain t)
    (hlit : ∀ r ds, t = '0' :: r.lower :: ds → Digits r wild ds → res = .ok (sent r ds))
    (hpass : ∀ r : Radix, getBase t (wildSet wild) = some r.base → res ≠ .ok invalid)
    (hnone : getBase t (wildSet wild) = none → res = .ok invalid)
    (hsent : ∀ r ds, sent r ds ≠ invalid) :
    ((∀ r ds, Literal wild t r ds → res = .ok (sent r ds)) ∧
      ((∀ r ds, ¬ Literal wild t r ds) → res = .ok invalid)) ↔ ¬ Slips wild t := by
  rcases prefix_cases t with ⟨r, ds, rfl⟩ | ⟨r, ds, rfl⟩ | hplain
  · simp only [literal_lower, slips_lower]
    rw [getBase_lower] at hpass hnone
    have hset : (∀ c ∈ ds, c ∈ wildSet wild ∨ c = r.lower ∨ isDigit r.base c = true) ↔
        ∀ c ∈ ds, c = r.lower ∨ isDigit r.base c = true ∨ (wild = true ∧ c = '_') := by
      refine forall₂_congr fun c _ => ?_
      cases wild
      · simp [wildSet]
      · simp only [wildSet, if_true, List.mem_singleton, true_and]
        rw [or_comm, or_assoc]
    simp only [hset] at hpass hnone
    by_cases hd : Digits r wild ds
    · refine iff_of_true ⟨?_, fun hno => absurd ⟨rfl, rfl, hd⟩ (hno r ds)⟩ fun h => h.2 hd
      rintro r' ds' ⟨rfl, rfl, hd⟩
      exact hlit r' ds' rfl hd
    · have hno : ∀ r' ds', ¬ (r' = r ∧ ds' = ds ∧ Digits r wild ds) := fun _ _ h => hd h.2.2
      by_cases hc : ∀ c ∈ ds, c = r.lower ∨ isDigit r.base c = true ∨ (wild = true ∧ c = '_')
      · refine iff_of_false (fun h => hpass r (if_pos hc) (h.2 hno)) fun h => h ⟨hc, hd⟩
      · exact iff_of_true ⟨fun r' ds' h => absurd h (hno r' ds'), fun _ => hnone (if_neg hc)⟩
          fun h => hc h.1
  · simp only [literal_upper, slips_upper]
    have hinv : res = .ok invalid := by
      refine hnone (getBase_upper r ?_)
      cases wild <;> cases r <;> decide
    by_cases hd : Digits r wild ds
    · refine iff_of_false (fun h => ?_) fun h => h hd
      have hsends := h.1 r ds ⟨rfl, rfl, hd⟩
      rw [hinv] at hsends
      exact hsent r ds (Except.ok.inj hsends).symm
    · exact iff_of_true ⟨fun r' ds' h => absurd h.2.2 hd, fun _ => hinv⟩ hd
  · exact absurd hplain hp

end Kinds

/-! ## `setBreak` -/

section SetBreak

variable {a : Text} {base : ℕ}

/-- What `setBreak` does once the characters pass. -/
theorem setBreak_of_base (h : getBase (trim a) ['_'] = some base) (hb : base ≠ 10) :
    setBreak a = (do
      let mask ← getMask (trim a) base
      let x ← stoull (((trim a).map fun c => if c = '_' then '0' else c).drop 2) base
      return ⟨false, some [], some (command 0x02#8 x mask)⟩) := by
  unfold setBreak
  simp only [h]

/-- Then nothing is reported. -/
theorem setBreak_ne_invalid (h : getBase (trim a) ['_'] = some base) (hb : base ≠ 10) :
    setBreak a ≠ .ok invalid := by
  rw [setBreak_of_base h hb]
  intro hn
  obtain ⟨m, -, hn⟩ := Loop.bind_eq_ok.1 hn
  obtain ⟨x, -, hn⟩ := Loop.bind_eq_ok.1 hn
  cases hn

/-- The mask of a pattern. -/
theorem getMask_literal {r : Radix} {p : Char} {ds : Text} (hp : p ≠ '_') (hd : Digits r true ds) :
    getMask ('0' :: p :: ds) r.base = .ok (~~~BitVec.ofNat 64 (wildcards r ds)) := by
  have hval : ∀ c, (digitVal (if c = '_' then (if r.base = 2 then '1' else 'f') else '0')).getD 0 =
      if c = '_' then r.base - 1 else 0 := by
    intro c
    by_cases hc : c = '_'
    · rw [if_pos hc, if_pos hc]
      cases r <;> rfl
    · rw [if_neg hc, if_neg hc]
      rfl
  have hnum : numeral r.base (('0' :: p :: ds).map fun c =>
      if c = '_' then (if r.base = 2 then '1' else 'f') else '0') = wildcards r ds := by
    rw [numeral_map]
    simp only [hval, List.foldl_cons, if_neg hp]
    rfl
  have hdigit : ∀ c ∈ ('0' :: p :: ds).map fun c =>
      if c = '_' then (if r.base = 2 then '1' else 'f') else '0', isDigit r.base c = true := by
    intro c hc
    obtain ⟨d, -, rfl⟩ := List.mem_map.1 hc
    by_cases hd : d = '_'
    · rw [if_pos hd]
      cases r <;> rfl
    · rw [if_neg hd]
      cases r <;> rfl
  have hlt : wildcards r ds < 2 ^ 64 := by
    refine foldl_lt_width (fun c _ => ?_) hd.length
    have := r.one_lt_base
    split_ifs <;> omega
  unfold getMask
  dsimp only
  rw [stoull_digits (by cases r <;> decide) (by simp) hdigit, hnum, if_neg (by omega)]
  rfl

/-- The value of a pattern. -/
theorem stoull_literal {r : Radix} {ds : Text} (hd : Digits r true ds) :
    stoull (ds.map fun c => if c = '_' then '0' else c) r.base =
      .ok (BitVec.ofNat 64 (numeral r.base ds)) := by
  have hnum : numeral r.base (ds.map fun c => if c = '_' then '0' else c) = numeral r.base ds := by
    have hval : ∀ c, (digitVal (if c = '_' then '0' else c)).getD 0 = (digitVal c).getD 0 := by
      intro c
      by_cases hc : c = '_'
      · rw [if_pos hc, hc]
        rfl
      · rw [if_neg hc]
    rw [numeral_map]
    simp only [hval]
    rfl
  have hdigit : ∀ c ∈ ds.map fun c => if c = '_' then '0' else c, isDigit r.base c = true := by
    intro c hc
    obtain ⟨d, hmem, rfl⟩ := List.mem_map.1 hc
    by_cases hd' : d = '_'
    · rw [if_pos hd']
      cases r <;> rfl
    · rw [if_neg hd']
      rcases hd.digit d hmem with h | ⟨-, h⟩
      · exact h
      · exact absurd h hd'
  have hlt : numeral r.base ds < 2 ^ 64 := by
    refine foldl_lt_width (fun c hc => ?_) hd.length
    rcases hd.digit c hc with h | ⟨-, rfl⟩
    · exact digitVal_lt h
    · cases r <;> decide
  rw [stoull_digits (by cases r <;> decide) (by simpa using hd.ne_nil) hdigit, hnum,
    if_neg (by omega)]

theorem setBreak_literal {r : Radix} {ds : Text} (ht : trim a = '0' :: r.lower :: ds)
    (hd : Digits r true ds) : setBreak a = .ok ⟨false, some [], some (command 0x02#8
      (BitVec.ofNat 64 (numeral r.base ds)) (~~~BitVec.ofNat 64 (wildcards r ds)))⟩ := by
  have hne : r.lower ≠ '_' := by cases r <;> decide
  have hbase : getBase (trim a) ['_'] = some r.base := by
    rw [ht, getBase_lower, if_pos]
    intro c hc
    rcases hd.digit c hc with h | ⟨-, h⟩
    · exact .inr (.inr h)
    · exact .inl (by simp [h])
  have hdrop : ((trim a).map fun c => if c = '_' then '0' else c).drop 2 =
      ds.map fun c => if c = '_' then '0' else c := by
    rw [ht]
    rfl
  rw [setBreak_of_base hbase (by cases r <;> decide), hdrop, ht, getMask_literal hne hd]
  dsimp only [bind, Except.bind]
  rw [stoull_literal hd]
  rfl

/-- What does not pass is reported. -/
theorem setBreak_invalid (h : getBase (trim a) ['_'] = none ∨ getBase (trim a) ['_'] = some 10) :
    setBreak a = .ok invalid := by
  unfold setBreak
  rcases h with h | h
  · simp only [h]
  · simp only [h]

theorem breakRight_iff : BreakRight a ↔ ¬ Slips true (trim a) := by
  by_cases hp : Plain (trim a)
  · refine iff_of_true ⟨fun r ds hl => absurd hl hp.not_literal, fun _ => ?_⟩ hp.not_slips
    refine setBreak_invalid ?_
    rw [getBase_plain hp]
    split_ifs
    · exact .inr rfl
    · exact .inl rfl
  · refine prefixed_right_iff hp (fun r ds ht hd => setBreak_literal ht hd)
      (fun r h => setBreak_ne_invalid h (by cases r <;> decide))
      (fun h => setBreak_invalid (.inl h)) fun r ds h => ?_
    cases congrArg Reply.code h

end SetBreak

/-! ## `stepClock` -/

section StepClock

variable {c : Config} {display : List (ℕ × Text)} {recv : List (BitVec 8)} {n : Text} {base : ℕ}

/-- What `stepClock` does once the characters pass. -/
theorem stepClock_of_base (hn : trim n ≠ []) (h : getBase (trim n) [] = some base) :
    stepClock c display recv n = (do
      let x ← stoull (if base = 10 then trim n else (trim n).drop 2) base
      return ⟨false, displayAll c recv display, some (command 0x04#8 x 0#64)⟩) := by
  unfold stepClock
  simp only [if_neg hn, h]

theorem stepClock_invalid (hn : trim n ≠ []) (h : getBase (trim n) [] = none) :
    stepClock c display recv n = .ok invalid := by
  unfold stepClock
  simp only [if_neg hn, h]

theorem stepClock_ne_invalid (hn : trim n ≠ []) (h : getBase (trim n) [] = some base) :
    stepClock c display recv n ≠ .ok invalid := by
  rw [stepClock_of_base hn h]
  intro hinv
  obtain ⟨x, -, hinv⟩ := Loop.bind_eq_ok.1 hinv
  cases hinv

theorem stepClock_nil (hn : trim n = []) : stepClock c display recv n =
    .ok ⟨false, displayAll c recv display, some (command 0x04#8 1#64 0#64)⟩ := by
  have hbase : getBase "0x01".toList [] = some 16 := by decide
  have hval : stoull "01".toList 16 = .ok 1#64 := by
    rw [stoull_digits (by decide) (by decide) (List.all_eq_true.1 (by decide))]
    rfl
  unfold stepClock
  simp only [hn, if_true, hbase]
  rw [if_neg (by decide), show "0x01".toList.drop 2 = "01".toList from rfl, hval]
  rfl

theorem stepClock_literal {r : Radix} {ds : Text} (ht : trim n = '0' :: r.lower :: ds)
    (hd : Digits r false ds) : stepClock c display recv n = .ok ⟨false, displayAll c recv display,
      some (command 0x04#8 (BitVec.ofNat 64 (numeral r.base ds)) 0#64)⟩ := by
  have hdigit : ∀ d ∈ ds, isDigit r.base d = true := by
    intro d hmem
    rcases hd.digit d hmem with h | ⟨h, -⟩
    · exact h
    · cases h
  have hbase : getBase (trim n) [] = some r.base := by
    rw [ht, getBase_lower, if_pos]
    exact fun d hmem => .inr (.inr (hdigit d hmem))
  have hlt : numeral r.base ds < 2 ^ 64 :=
    foldl_lt_width (fun d hmem => digitVal_lt (hdigit d hmem)) hd.length
  have hdrop : (trim n).drop 2 = ds := by
    rw [ht]
    rfl
  rw [stepClock_of_base (by rw [ht]; simp) hbase, if_neg (by cases r <;> decide), hdrop,
    stoull_digits (by cases r <;> decide) hd.ne_nil hdigit, if_neg (by omega)]
  rfl

/-- A string of decimal digits is sent, or is too large and throws. -/
theorem stepClock_decimal (hn : trim n ≠ []) (hp : Plain (trim n))
    (hd : ∀ d ∈ trim n, isDigit 10 d = true) : stepClock c display recv n =
      if 2 ^ 64 ≤ numeral 10 (trim n) then .error .outOfRange
      else .ok ⟨false, displayAll c recv display,
        some (command 0x04#8 (BitVec.ofNat 64 (numeral 10 (trim n))) 0#64)⟩ := by
  have hbase : getBase (trim n) [] = some 10 := by
    rw [getBase_plain hp, if_pos hd]
  rw [stepClock_of_base hn hbase, if_pos rfl, stoull_digits (by decide) hn hd]
  split_ifs <;> rfl

theorem stepRight_iff : StepRight c display recv n ↔ ¬ (Slips false (trim n) ∨
    ((∀ d ∈ trim n, isDigit 10 d = true) ∧ 2 ^ 64 ≤ numeral 10 (trim n))) := by
  unfold StepRight
  by_cases hn : trim n = []
  · have hp : Plain (trim n) := by
      intro r ds
      rw [hn]
      exact ⟨nofun, nofun⟩
    refine iff_of_true ⟨fun _ => stepClock_nil hn, fun r ds hl => absurd hl hp.not_literal,
      fun hd => absurd hn hd.ne_nil, fun h => absurd hn h⟩ ?_
    rintro (hs | ⟨-, hs⟩)
    · exact hp.not_slips hs
    · rw [hn] at hs
      exact absurd hs (by decide)
  by_cases hp : Plain (trim n)
  · by_cases hd : ∀ d ∈ trim n, isDigit 10 d = true
    · have hstep : stepClock c display recv n = _ := stepClock_decimal hn hp hd
      by_cases hlt : 2 ^ 64 ≤ numeral 10 (trim n)
      · rw [if_pos hlt] at hstep
        refine iff_of_false (fun h => ?_) fun h => h (.inr ⟨hd, hlt⟩)
        have hinv := h.2.2.2 hn (fun r ds => hp.not_literal) fun hdec => by
          have := hdec.lt
          omega
        rw [hstep] at hinv
        cases hinv
      · rw [if_neg hlt] at hstep
        refine iff_of_true ⟨fun h => absurd h hn, fun r ds hl => absurd hl hp.not_literal,
          fun _ => hstep, fun _ _ hno => absurd ⟨hn, hd, by omega⟩ hno⟩ ?_
        rintro (hs | ⟨-, hs⟩)
        · exact hp.not_slips hs
        · exact hlt hs
    · refine iff_of_true ⟨fun h => absurd h hn, fun r ds hl => absurd hl hp.not_literal,
        fun hdec => absurd hdec.digit hd, fun _ _ _ => ?_⟩ ?_
      · refine stepClock_invalid hn ?_
        rw [getBase_plain hp, if_neg hd]
      · rintro (hs | ⟨hs, -⟩)
        · exact hp.not_slips hs
        · exact hd hs
  · -- a prefix is no decimal digit
    have hnd : ¬ ∀ d ∈ trim n, isDigit 10 d = true := by
      intro h
      rcases prefix_cases (trim n) with ⟨r, ds, ht⟩ | ⟨r, ds, ht⟩ | h'
      · exact absurd (h r.lower (by rw [ht]; simp)) (by cases r <;> decide)
      · exact absurd (h r.upper (by rw [ht]; simp)) (by cases r <;> decide)
      · exact hp h'
    have hiff : ((∀ r ds, Literal false (trim n) r ds → stepClock c display recv n =
          .ok ⟨false, displayAll c recv display,
            some (command 0x04#8 (BitVec.ofNat 64 (numeral r.base ds)) 0#64)⟩) ∧
        ((∀ r ds, ¬ Literal false (trim n) r ds) → stepClock c display recv n = .ok invalid)) ↔
        ¬ Slips false (trim n) :=
      prefixed_right_iff hp (fun r ds ht hd => stepClock_literal ht hd)
        (fun r h => stepClock_ne_invalid hn h) (fun h => stepClock_invalid hn h)
        fun r ds h => by cases congrArg Reply.code h
    rw [or_iff_left fun h => hnd h.1, ← hiff]
    constructor
    · exact fun h => ⟨h.2.1, fun hno => h.2.2.2 hn hno fun hdec => hnd hdec.digit⟩
    · exact fun h => ⟨fun h0 => absurd h0 hn, h.1, fun hdec => absurd hdec.digit hnd,
        fun _ hno _ => h.2 hno⟩

end StepClock

/-- Both commands treat a string right if and only if it does not slip, and `stepClock` if it is
no decimal number of more than 64 bits either. -/
theorem literals_right_iff (c : Config) (display : List (ℕ × Text)) (recv : List (BitVec 8))
    (a : Text) : (BreakRight a ↔ ¬ Slips true (trim a)) ∧
      (StepRight c display recv a ↔ ¬ (Slips false (trim a) ∨
        ((∀ d ∈ trim a, isDigit 10 d = true) ∧ 2 ^ 64 ≤ numeral 10 (trim a)))) :=
  ⟨breakRight_iff, stepRight_iff⟩

/-- The prefix alone makes `stoull` throw. -/
theorem not_breakRight_prefix : setBreak "0x".toList = .error .invalidArgument ∧
    ¬ BreakRight "0x".toList := by
  have hthrow : setBreak "0x".toList = .error .invalidArgument := by decide
  refine ⟨hthrow, fun h => ?_⟩
  have hinv := h.2 fun r ds hl => by
    have ht : trim "0x".toList = '0' :: Radix.lower .hex :: [] := by decide
    rw [ht] at hl
    obtain ⟨-, -, hd⟩ := literal_lower.1 hl
    exact hd.ne_nil rfl
  rw [hthrow] at hinv
  cases hinv

end Cadb

end CacheCPU
