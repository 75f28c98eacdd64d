import CacheCPU.Decaf.Symbol

/-!
# Inheritance: `decaf/typecheck/BuildSym.java`

The first loops of `visitTopLevel` with all errors that they issue. A class is given by its name, as
each name is declared once. `none` is a recursion that `n` calls are not enough for.
-/

namespace CacheCPU

namespace Decaf

/-- The global scope, with what `BuildSym` changes in the classes. -/
structure ClassTable where
  names : List String
  parentName : String → Option String
  order : String → ℤ

namespace ClassTable

variable (t : ClassTable)

def lookupClass (name : String) : Option String := if name ∈ t.names then some name else none

def getParent (c : String) : Option String := (t.parentName c).bind t.lookupClass

def setOrder (c : String) (order : ℤ) : ClassTable :=
  { t with order := Function.update t.order c order }

def dettachParent (c : String) : ClassTable :=
  { t with parentName := Function.update t.parentName c none }

/-- One turn of the first loop. -/
def declareClass (s : ClassTable × List DecafError) (cd : ClassDef) :
    ClassTable × List DecafError :=
  let (t, errors) := s
  if (t.lookupClass cd.name).isSome then (t, errors ++ [.declConflict cd.name])
  else
    ({ names := t.names ++ [cd.name]
       parentName := Function.update t.parentName cd.name cd.parent
       order := Function.update t.order cd.name (-1) }, errors)

def declareClasses (p : TopLevel) : ClassTable × List DecafError :=
  p.foldl declareClass (⟨[], fun _ => none, fun _ => -1⟩, [])

def calcOrder : ℕ → ClassTable → Option String → Option (ClassTable × ℤ)
  | _, t, none => some (t, -1)
  | 0, _, some _ => none
  | n + 1, t, some c =>
    if t.order c < 0 then
      (calcOrder n (t.setOrder c 0) (t.getParent c)).map fun r =>
        (r.1.setOrder c (r.2 + 1), r.2 + 1)
    else some (t, t.order c)

/-- One turn of the second loop. -/
def checkParent (n : ℕ) (s : ClassTable × List DecafError) (cd : ClassDef) :
    Option (ClassTable × List DecafError) :=
  let (t, errors) := s
  let (t, errors) :=
    if cd.parent.isSome ∧ t.getParent cd.name = none then
      (t.dettachParent cd.name, errors ++ [.classNotFound (cd.parent.getD "")])
    else (t, errors)
  (calcOrder n t (some cd.name)).bind fun (t, order) =>
    (calcOrder n t (t.getParent cd.name)).map fun (t, parentOrder) =>
      if order ≤ parentOrder then
        (t.dettachParent cd.name, errors ++ [.badInheritance cd.name])
      else (t, errors)

/-- Both loops. -/
def checkParents (n : ℕ) (p : TopLevel) : Option (ClassTable × List DecafError) :=
  p.foldlM (checkParent n) (declareClasses p)

/-! ## Recursion over parents -/

/-- A class that is done is left alone. For another one, the parent comes first. -/
def climb {σ : Type} (done : σ → String → Bool) (act : σ → String → σ) :
    ℕ → σ → String → Option σ
  | 0, _, _ => none
  | n + 1, s, c =>
    if done s c then some s
    else
      match t.getParent c with
      | some parent => (climb done act n s parent).map (act · c)
      | none => some (act s c)

/-- `ClassType`, as the names from the class up. -/
abbrev Types := String → Option (List String)

def setType (types : Types) (c : String) : Types :=
  Function.update types c (some (c :: ((t.getParent c).bind types).getD []))

/-- `getType`, which makes the type if there is none. -/
def getType : ℕ → Types → String → Option Types :=
  t.climb (fun types c => (types c).isSome) t.setType

def createType (n : ℕ) (types : Types) (c : String) : Option Types :=
  match t.getParent c with
  | none => some (t.setType types c)
  | some p => (t.getType n types p).map (t.setType · c)

/-- `checkOverride`, where `s` is compared with the scopes of its ancestors by `compare`, on the
classes with their flag. -/
def checkOverride {σ : Type} (compare : σ → String → σ) :
    ℕ → σ × (String → Bool) → String → Option (σ × (String → Bool)) :=
  t.climb (fun s c => s.2 c) fun s c =>
    if t.getParent c = none then s else (compare s.1 c, Function.update s.2 c true)

/-- `resolveFieldOrder`, where `resolve` numbers the symbols of a class behind those of its parent,
on the classes with both numbers. -/
def resolveFieldOrder {σ : Type} (resolve : σ → String → σ) :
    ℕ → σ × (String → Bool) → String → Option (σ × (String → Bool)) :=
  t.climb (fun s c => s.2 c) fun s c => (resolve s.1 c, Function.update s.2 c true)

/-- `fillVTableEntries`, where `fill` enters the methods of a class. -/
def fillVTableEntries {σ : Type} (fill : σ → String → σ) : ℕ → σ → String → Option σ :=
  t.climb (fun _ _ => false) fill

end ClassTable

end Decaf

end CacheCPU
