import Mathlib.Algebra.Group.Int.Defs
import Mathlib.Algebra.Group.Nat.Defs
import Mathlib.Data.List.DropRight

/-!
# `utils/cadb/client/config.h`: the probe configuration

A line of `cadb.cfg` names a signal of the debugged design. `load` gives each signal the next whole
bytes of the probe vector, and `vhdlCode` writes the concurrent assignments that put it there. The
`int`s of the source are integers here: `count + vhdl_ub` may pass the largest one, but comes back
when `vhdl_lb` is taken off.
-/

namespace CacheCPU

namespace Cadb

abbrev Text := List Char

/-- What `trim` takes off both ends. -/
def isBlank (c : Char) : Bool := c = ' ' || c = '\n' || c = '\t' || c = '\r'

def trim (str : Text) : Text := (str.dropWhile isBlank).rdropWhile isBlank

/-! ## `sscanf` -/

def isSpace (c : Char) : Bool := isBlank c || c = '\x0b' || c = '\x0c'

/-- `%s`. -/
def scanWord (str : Text) : Option (Text × Text) :=
  let str := str.dropWhile isSpace
  if str = [] then none else some (str.span (!isSpace ·))

def digitsVal (ds : Text) : ℕ := ds.foldl (fun n c => 10 * n + (c.toNat - '0'.toNat)) 0

/-- `%d`. -/
def scanInt (str : Text) : Option (ℤ × Text) :=
  let str := str.dropWhile isSpace
  let neg := str.head? = some '-'
  let str := if neg ∨ str.head? = some '+' then str.tail else str
  let (ds, rest) := str.span Char.isDigit
  if ds = [] then none else some (if neg then -(digitsVal ds : ℤ) else digitsVal ds, rest)

/-- Blanks, then the characters of `lit`. -/
def scanLit (lit str : Text) : Option Text :=
  let str := str.dropWhile isSpace
  if lit <+: str then some (str.drop lit.length) else none

/-- What one `sscanf` has matched and stored. -/
structure Scan where
  matchNum : ℤ
  label : Text
  vhdlName : Text
  vhdlUb : ℤ
  vhdlLb : ℤ

/-- `sscanf(str, "%s %s (%d downto %d)", …)`, the bounds being `-1` before. -/
def sscanf (str : Text) : Scan :=
  match scanWord str with
  | none => ⟨-1, [], [], -1, -1⟩
  | some (label, str) =>
  match scanWord str with
  | none => ⟨1, label, [], -1, -1⟩
  | some (name, str) =>
  match (scanLit ['('] str).bind scanInt with
  | none => ⟨2, label, name, -1, -1⟩
  | some (ub, str) =>
  match (scanLit "downto".toList str).bind scanInt with
  | none => ⟨3, label, name, ub, -1⟩
  | some (lb, _) => ⟨4, label, name, ub, lb⟩

/-- `CONFIG_VARNAME_MAX_LENGTH`. -/
def configVarnameMaxLength : ℕ := 1024

/-- The words fit in their arrays and the numbers in an `int`; otherwise the call is undefined. -/
def Scan.Defined (m : Scan) : Prop :=
  m.label.length < configVarnameMaxLength ∧ m.vhdlName.length < configVarnameMaxLength ∧
    (-2 ^ 31 ≤ m.vhdlUb ∧ m.vhdlUb < 2 ^ 31) ∧ -2 ^ 31 ≤ m.vhdlLb ∧ m.vhdlLb < 2 ^ 31

instance (m : Scan) : Decidable m.Defined :=
  inferInstanceAs (Decidable (_ ∧ _ ∧ (_ ∧ _) ∧ _ ∧ _))

/-! ## `load` -/

/-- An element of `_vars`. -/
structure Var where
  label : Text
  vhdlName : Text
  vhdlUb : ℤ
  vhdlLb : ℤ
  deriving DecidableEq

structure Config where
  vhdlVarName : Text
  vhdlVarSize : ℤ
  vars : List Var
  ranges : Text → Option (ℤ × ℤ)

namespace Config

def empty (vn : Text) (vs : ℤ) : Config := ⟨vn, vs, [], fun _ => none⟩

def range (c : Config) (label : Text) : ℤ × ℤ := (c.ranges label).getD (-1, -1)

/-- The first index of the signal after one that ends at `indexUb`. -/
def nextCount (indexUb : ℤ) : ℤ := indexUb + 8 - indexUb.tmod 8

def indexUb (count : ℤ) (v : Var) : ℤ := count + v.vhdlUb - v.vhdlLb

/-- The signal `v` at the indices from `count` on. -/
def push (c : Config) (count : ℤ) (v : Var) : Config :=
  { c with
    vars := c.vars ++ [v]
    ranges := fun l => if l = v.label then some (indexUb count v, count) else c.ranges l }

/-- The loop of `load`. `true` is the source's failure code, `none` undefined behaviour. -/
def loadLines (c : Config) (count : ℤ) : List Text → Option (Bool × Config)
  | [] => some (false, c)
  | str :: rest =>
    let str := (trim str).takeWhile (· ≠ '#')
    if str = [] then loadLines c count rest
    else
      -- `c_str()` ends at the first NUL
      let m := sscanf (str.takeWhile (· ≠ '\x00'))
      if ¬ m.Defined then none
      else if m.matchNum ≠ 2 ∧ m.matchNum ≠ 4 then some (true, c)
      else
        let v : Var := ⟨m.label, m.vhdlName, m.vhdlUb, m.vhdlLb⟩
        loadLines (c.push count v) (nextCount (indexUb count v)) rest

def load (c : Config) (file : Text) : Option (Bool × Config) :=
  c.loadLines 0 (file.splitOn '\n')

end Config

/-! ## `vhdlCode` -/

/-- A line of the code: an assignment to elements of the probe vector. -/
inductive Assign where
  | bit (i : ℤ) (name : Text)
  | slice (ub lb : ℤ) (name : Text) (vub vlb : ℤ)
  | zeros (ub lb : ℤ)
  deriving DecidableEq

def intText (i : ℤ) : Text :=
  if i < 0 then '-' :: Nat.toDigits 10 i.natAbs else Nat.toDigits 10 i.natAbs

def downtoText (ub lb : ℤ) : Text :=
  '(' :: intText ub ++ " downto ".toList ++ intText lb ++ [')']

def Assign.render (var : Text) : Assign → Text
  | .bit i name => var ++ '(' :: intText i ++ ") <= ".toList ++ name ++ ";\n".toList
  | .slice ub lb name vub vlb =>
    var ++ downtoText ub lb ++ " <= ".toList ++ name ++ downtoText vub vlb ++ ";\n".toList
  | .zeros ub lb => var ++ downtoText ub lb ++ " <= (others => '0');\n".toList

namespace Config

/-- `index_ub` after the branches of `vhdlCode`: the assertion of the first assigns it. -/
def codeIndexUb (count : ℤ) (v : Var) : ℤ :=
  if v.vhdlUb = -1 then count else indexUb count v

/-- The lines for one signal. -/
def assignVar (count : ℤ) (v : Var) : List Assign :=
  let iub := codeIndexUb count v
  (if v.vhdlUb = -1 then .bit iub v.vhdlName
    else .slice iub count v.vhdlName v.vhdlUb v.vhdlLb) ::
  if (iub + 1).tmod 8 ≠ 0 then [.zeros (iub + 7 - (v.vhdlUb - v.vhdlLb).tmod 8) (iub + 1)] else []

/-- The loop of `vhdlCode` and the line after it. `assert(index_ub = index_lb)` fails at index 0. -/
def assignFrom (size : ℤ) (count : ℤ) : List Var → Option (List Assign)
  | [] => some (if count < size - 1 then [.zeros (size - 1) count] else [])
  | v :: vs =>
    if v.vhdlUb = -1 ∧ count = 0 then none
    else (assignFrom size (nextCount (codeIndexUb count v)) vs).map (assignVar count v ++ ·)

def assigns (c : Config) : Option (List Assign) := assignFrom c.vhdlVarSize 0 c.vars

def vhdlCode (c : Config) : Option Text :=
  c.assigns.map fun as => as.flatMap (Assign.render c.vhdlVarName)

end Config

/-! ## `cadb.cc` -/

/-- The configuration before `load`, with `VHDL_VAR_NAME` and `VHDL_VAR_SIZE`. -/
def cadbConfig : Config := .empty "out_datas".toList 4096

end Cadb

end CacheCPU
