import CacheCPU.Cadb.Config

/-!
# `utils/cadb/client/parser.h`: the commands of the client

`print` is `none` where an assertion fails or the message is shorter than the label's range. A
command that is sent is a list of 17 bytes, the first one first; `stoull` may throw.
-/

namespace CacheCPU

namespace Cadb

/-- The values of `for (int i = ub; i >= lb; --i)`. -/
def downto (ub lb : ℤ) : List ℤ := (List.range (ub - lb + 1).toNat).map fun k : ℕ => ub - k

/-! ## `print` -/

/-- `bool(_buff[i / 8] & 0x01 << i % 8)`, as it is printed. -/
def bitText (buff : List (BitVec 8)) (i : ℤ) : Option Char :=
  (buff[(i.tdiv 8).toNat]?).map fun b =>
    if b &&& 1#8 <<< (i.tmod 8).toNat ≠ 0#8 then '1' else '0'

/-- A byte in hexadecimal, with the zero in front that the stream would leave out. -/
def byteText (b : BitVec 8) : Text := (if b.toNat < 16 then ['0'] else []) ++ Nat.toDigits 16 b.toNat

/-- The return code and what goes to `_out`. -/
def print (c : Config) (buff : List (BitVec 8)) (base : ℕ) (name : Text) : Option (Bool × Text) :=
  let (ub, lb) := c.range name
  if ub < 0 ∨ lb < 0 then some (true, "Invalid variable name. \n".toList)
  else if lb.tmod 8 ≠ 0 then none
  else if base = 2 then
    ((downto ub lb).mapM (bitText buff)).map fun bits =>
      (false, name ++ " = 0b".toList ++ bits ++ ['\n'])
  else if base = 16 then
    ((downto (ub.tdiv 8) (lb.tdiv 8)).mapM fun i => buff[i.toNat]?).map fun bytes =>
      (false, name ++ " = 0x".toList ++ bytes.flatMap byteText ++ ['\n'])
  else none

/-- `displayAll`. -/
def displayAll (c : Config) (buff : List (BitVec 8)) (display : List (ℕ × Text)) : Option Text :=
  (display.mapM fun d => (print c buff d.1 d.2).map (·.2)).map List.flatten

/-! ## `stoull` -/

/-- The exceptions of the standard library that get out of a command. -/
inductive StdError
  | invalidArgument | outOfRange
deriving DecidableEq

/-- The value of a digit, in any base. -/
def digitVal (c : Char) : Option ℕ :=
  if '0' ≤ c ∧ c ≤ '9' then some (c.toNat - '0'.toNat)
  else if 'a' ≤ c ∧ c ≤ 'z' then some (c.toNat - 'a'.toNat + 10)
  else if 'A' ≤ c ∧ c ≤ 'Z' then some (c.toNat - 'A'.toNat + 10)
  else none

def isDigit (base : ℕ) (c : Char) : Bool := (digitVal c).any (· < base)

/-- The number that the digits of `ds` make; what is no digit counts as 0. -/
def numeral (base : ℕ) (ds : Text) : ℕ :=
  ds.foldl (fun n c => base * n + (digitVal c).getD 0) 0

/-- An `0x` in base 16 that a digit follows. -/
def skipPrefix (base : ℕ) : Text → Text
  | '0' :: x :: c :: rest =>
    if base = 16 ∧ (x = 'x' ∨ x = 'X') ∧ isDigit 16 c then c :: rest else '0' :: x :: c :: rest
  | str => str

/-- `std::stoull(str, nullptr, base)`: blanks, a sign, in base 16 a prefix, and the longest run of
digits. -/
def stoull (str : Text) (base : ℕ) : Except StdError (BitVec 64) :=
  let str := str.dropWhile isSpace
  let neg := str.head? = some '-'
  let str := if neg ∨ str.head? = some '+' then str.tail else str
  let ds := (skipPrefix base str).takeWhile (isDigit base)
  if ds = [] then .error .invalidArgument
  else if 2 ^ 64 ≤ numeral base ds then .error .outOfRange
  else
    let n := BitVec.ofNat 64 (numeral base ds)
    .ok (if neg then -n else n)

/-! ## The commands that are sent -/

/-- What a command does: its return code, what it prints, and what it sends. -/
structure Reply where
  code : Bool
  out : Option Text
  sent : Option (List (BitVec 8))
deriving DecidableEq

/-- The eight bytes of a number, the lowest first. -/
def bytesLE (x : BitVec 64) : List (BitVec 8) :=
  (List.range 8).map fun k => (x >>> (8 * k)).setWidth 8

/-- `command`. -/
def command (cmd : BitVec 8) (x mask : BitVec 64) : List (BitVec 8) :=
  cmd :: bytesLE x ++ bytesLE mask

/-- `getBase`, `none` for -1. The letter of an upper-case prefix is not in the set that the string
is tested for. -/
def getBase (str wildcard : Text) : Option ℕ :=
  if 2 ≤ str.length ∧ str[0]? = some '0' ∧ (str[1]? = some 'x' ∨ str[1]? = some 'X') then
    if str.all (wildcard ++ "x0123456789ABCDEFabcdef".toList).contains then some 16 else none
  else if 2 ≤ str.length ∧ str[0]? = some '0' ∧ (str[1]? = some 'b' ∨ str[1]? = some 'B') then
    if str.all (wildcard ++ "b01".toList).contains then some 2 else none
  else if str.all "1234567890".toList.contains then some 10
  else none

/-- `getMask`. -/
def getMask (str : Text) (base : ℕ) : Except StdError (BitVec 64) := do
  let mask := if base = 2 then '1' else 'f'
  let n ← stoull (str.map fun c => if c = '_' then mask else '0') base
  return ~~~n

def invalid : Reply := ⟨true, some "Invalid address. \n".toList, none⟩

/-- `run`. `recv` is the message that answers, and `c` and `display` are the parser's. -/
def run (c : Config) (display : List (ℕ × Text)) (recv : List (BitVec 8)) : Reply :=
  ⟨false, displayAll c recv display, some (command 0x01#8 0#64 0#64)⟩

def continueRun (c : Config) (display : List (ℕ × Text)) (recv : List (BitVec 8)) : Reply :=
  ⟨false, displayAll c recv display, some (command 0x03#8 0#64 0#64)⟩

def setBreak (address : Text) : Except StdError Reply :=
  let addr := trim address
  match getBase addr ['_'] with
  | none | some 10 => .ok invalid
  | some base => do
    let mask ← getMask addr base
    let x ← stoull ((addr.map fun c => if c = '_' then '0' else c).drop 2) base
    return ⟨false, some [], some (command 0x02#8 x mask)⟩

def stepClock (c : Config) (display : List (ℕ × Text)) (recv : List (BitVec 8)) (n : Text) :
    Except StdError Reply :=
  let num := trim n
  let num := if num = [] then "0x01".toList else num
  match getBase num [] with
  | none => .ok invalid
  | some base => do
    let x ← stoull (if base = 10 then num else num.drop 2) base
    return ⟨false, displayAll c recv display, some (command 0x04#8 x 0#64)⟩

end Cadb

end CacheCPU
