import Mathlib.Data.Int.Notation
import Mathlib.Data.Nat.Notation
import Mathlib.Tactic.SplitIfs

/-!
# Lines of assembly text

A line is cut into words, commas and parentheses, and read as a mnemonic with its operands: words,
or an offset with a base in parentheses. What is written with operands that are words is read back
as the same operands, and a number that is written in decimal as the same number.
-/

namespace AsmText

abbrev Text := List Char

inductive Token where
  | word (w : Text)
  | comma
  | lparen
  | rparen
  deriving DecidableEq

/-- What stands between words. -/
def isSep (c : Char) : Bool := c = ' ' || c = ',' || c = '(' || c = ')'

/-- What a separator is itself. -/
def sepTokens (c : Char) : List Token :=
  if c = ',' then [.comma] else if c = '(' then [.lparen] else if c = ')' then [.rparen] else []

def flush (acc : Text) : List Token := if acc = [] then [] else [.word acc]

/-- The tokens of a text, of which the word `acc` has been read so far. -/
def lex : Text → Text → List Token
  | acc, [] => flush acc
  | acc, c :: cs => if isSep c then flush acc ++ sepTokens c ++ lex [] cs else lex (acc ++ [c]) cs

inductive Operand where
  | word (w : Text)
  | addr (offset base : Text)
  deriving DecidableEq

def operands : List Token → Option (List Operand)
  | [.word w] => some [.word w]
  | [.word o, .lparen, .word b, .rparen] => some [.addr o b]
  | .word w :: .comma :: rest => (operands rest).map (.word w :: ·)
  | _ => none

/-- The mnemonic of a line and its operands. -/
def readLine (line : Text) : Option (Text × List Operand) :=
  match lex [] line with
  | .word m :: rest => (operands rest).map fun os => (m, os)
  | _ => none

/-! ## Numbers -/

def intText (i : ℤ) : Text :=
  if i < 0 then '-' :: Nat.toDigits 10 i.natAbs else Nat.toDigits 10 i.natAbs

def readNat (w : Text) : Option ℕ :=
  if w ≠ [] ∧ w.all Char.isDigit then some (Nat.ofDigitChars 10 w 0) else none

def readInt (w : Text) : Option ℤ :=
  if w.head? = some '-' then (readNat w.tail).map (-↑·) else (readNat w).map (↑·)

theorem readNat_toDigits (n : ℕ) : readNat (Nat.toDigits 10 n) = some n := by
  have hall : (Nat.toDigits 10 n).all Char.isDigit :=
    List.all_eq_true.2 fun c hc => Nat.isDigit_of_mem_toDigits (by omega) (by omega) hc
  simp [readNat, hall, Nat.toDigits_ne_nil]

theorem head?_toDigits (n : ℕ) : (Nat.toDigits 10 n).head? ≠ some '-' := by
  intro h
  have hd := Nat.isDigit_of_mem_toDigits (by omega) (by omega) (List.mem_of_mem_head? h)
  simp at hd

@[simp] theorem readInt_intText (i : ℤ) : readInt (intText i) = some i := by
  unfold readInt intText
  split_ifs with h h' h'
  · rw [List.tail_cons, readNat_toDigits, Option.map_some]
    exact congrArg some (by omega)
  · simp at h'
  · exact absurd h' (head?_toDigits _)
  · simp [readNat_toDigits]
    omega

/-! ## Words -/

/-- A text without separators. -/
def IsWord (w : Text) : Prop := w ≠ [] ∧ ∀ c ∈ w, isSep c = false

instance (w : Text) : Decidable (IsWord w) := @instDecidableAnd _ _ _ (List.decidableBAll _ w)

theorem isSep_digit {c : Char} (h : c.isDigit) : isSep c = false := by
  simp only [isSep, Bool.or_eq_false_iff, decide_eq_false_iff_not]
  refine ⟨⟨⟨?_, ?_⟩, ?_⟩, ?_⟩ <;> rintro rfl <;> simp at h

theorem isWord_intText (i : ℤ) : IsWord (intText i) := by
  have hdig : ∀ c ∈ Nat.toDigits 10 i.natAbs, isSep c = false := fun c hc =>
    isSep_digit (Nat.isDigit_of_mem_toDigits (by omega) (by omega) hc)
  unfold intText
  split_ifs
  · exact ⟨by simp, by simpa [isSep] using hdig⟩
  · exact ⟨Nat.toDigits_ne_nil, hdig⟩

section Lex

variable {w acc rest : Text}

theorem lex_word (h : ∀ c ∈ w, isSep c = false) : lex acc (w ++ rest) = lex (acc ++ w) rest := by
  induction w generalizing acc with
  | nil => simp
  | cons c w ih =>
    rw [List.cons_append, lex, if_neg (by simp [h c (by simp)]),
      ih fun d hd => h d (by simp [hd])]
    simp

/-- A word ends where a separator comes. -/
theorem lex_word_sep {c : Char} (h : IsWord w) (hc : isSep c) :
    lex [] (w ++ c :: rest) = .word w :: (sepTokens c ++ lex [] rest) := by
  rw [lex_word h.2, lex, if_pos hc]
  simp [flush, h.1]

theorem lex_word_end (h : IsWord w) : lex [] w = [.word w] := by
  have hl := @lex_word w [] [] h.2
  rw [List.append_nil] at hl
  simp [hl, lex, flush, h.1]

theorem lex_blanks (n : ℕ) : lex [] (List.replicate n ' ' ++ rest) = lex [] rest := by
  induction n with
  | zero => simp
  | succ n ih => simp [List.replicate_succ, lex, isSep, sepTokens, flush, ih]

/-- A comma and a blank. -/
theorem lex_comma (h : IsWord w) :
    lex [] (w ++ ',' :: ' ' :: rest) = .word w :: .comma :: lex [] rest := by
  rw [lex_word_sep h (by decide), lex, if_pos (by decide)]
  simp [sepTokens, flush]

theorem lex_addr {b : Text} (h : IsWord w) (hb : IsWord b) :
    lex [] (w ++ '(' :: (b ++ [')'])) = [.word w, .lparen, .word b, .rparen] := by
  rw [lex_word_sep h (by decide), lex_word_sep hb (by decide)]
  simp [sepTokens, lex, flush]

end Lex

section ReadLine

variable {m a b c : Text} (hm : IsWord m) (ha : IsWord a) (hb : IsWord b) (hc : IsWord c) (n : ℕ)
include hm

/-- A mnemonic and blanks, at least one. -/
theorem readLine_mnemonic (rest : Text) :
    readLine (m ++ ' ' :: (List.replicate n ' ' ++ rest)) =
      (operands (lex [] rest)).map fun os => (m, os) := by
  have hl : lex [] (m ++ ' ' :: (List.replicate n ' ' ++ rest)) = .word m :: lex [] rest := by
    rw [lex_word_sep hm (by decide), lex_blanks]
    simp [sepTokens]
  rw [readLine, hl]

include ha

theorem readLine_one :
    readLine (m ++ ' ' :: (List.replicate n ' ' ++ a)) = some (m, [.word a]) := by
  rw [readLine_mnemonic hm, lex_word_end ha]
  rfl

include hb

theorem readLine_two : readLine (m ++ ' ' :: (List.replicate n ' ' ++ (a ++ ',' :: ' ' :: b))) =
    some (m, [.word a, .word b]) := by
  rw [readLine_mnemonic hm, lex_comma ha, lex_word_end hb]
  rfl

include hc

theorem readLine_three :
    readLine (m ++ ' ' :: (List.replicate n ' ' ++ (a ++ ',' :: ' ' :: (b ++ ',' :: ' ' :: c)))) =
      some (m, [.word a, .word b, .word c]) := by
  rw [readLine_mnemonic hm, lex_comma ha, lex_comma hb, lex_word_end hc]
  rfl

theorem readLine_addr :
    readLine (m ++ ' ' :: (List.replicate n ' ' ++ (a ++ ',' :: ' ' :: (b ++ '(' :: (c ++ [')']))))) =
      some (m, [.word a, .addr b c]) := by
  rw [readLine_mnemonic hm, lex_comma ha, lex_addr hb hc]
  rfl

end ReadLine

end AsmText
