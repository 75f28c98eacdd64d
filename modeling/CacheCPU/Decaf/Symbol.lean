import Mathlib.Data.List.Basic
import Mathlib.Logic.Function.Basic
import Mathlib.Data.Int.Notation

/-!
# Classes and their symbols: `decaf/symbol`, `decaf/scope`, `decaf/typecheck/BuildSym.java`

What `BuildSym` checks of the classes of a program and of their members. A method's body is left
out: it can only add errors. The pass is cut at the first error it issues, since a program is
accepted when it issues none.
-/

namespace CacheCPU

namespace Decaf

/-- `decaf.type`, without function types. A class type is named by its class. -/
inductive Ty where
  | int
  | bool
  | string
  | void
  | array (elementType : Ty)
  | klass (name : String)
  deriving DecidableEq

/-- A field of a class: `Tree.VarDef` or `Tree.MethodDef`. -/
inductive Member where
  | varDef (name : String) (type : Ty)
  | methodDef (name : String) (statik : Bool) (returnType : Ty)
    (formals : List (String × Ty))
  deriving DecidableEq

def Member.name : Member → String
  | .varDef x _ => x
  | .methodDef f _ _ _ => f

/-- `Tree.ClassDef`, and the `Class` symbol made from it. -/
structure ClassDef where
  name : String
  parent : Option String
  fields : List Member
  deriving DecidableEq

/-- `Tree.TopLevel`. -/
abbrev TopLevel := List ClassDef

inductive DecafError where
  | declConflict (name : String)
  | classNotFound (name : String)
  | badInheritance (name : String)
  | badVarType (name : String)
  | badArrElement
  | badOverride (name parentName : String)
  | overridingVar (name : String)
  | noMainClass (name : String)

def mainClassName : String := "Main"

def mainFuncName : String := "main"

/-- `ScopeStack.lookupClass`. -/
def lookupClass (p : TopLevel) (name : String) : Option ClassDef := p.find? (·.name = name)

def getParent (p : TopLevel) (c : ClassDef) : Option ClassDef := c.parent.bind (lookupClass p)

/-- `Scope.lookup` in the scope of a class. -/
def ClassDef.lookup (c : ClassDef) (name : String) : Option Member :=
  c.fields.find? (·.name = name)

/-- The classes whose scopes the loops over `getParentScope` go through, at most `n` of them. -/
def scopes (p : TopLevel) : ℕ → ClassDef → List ClassDef
  | 0, _ => []
  | n + 1, c =>
    match getParent p c with
    | none => [c]
    | some q => c :: scopes p n q

/-- The symbol with the class it is declared in. -/
def lookupVisible (p : TopLevel) (c : ClassDef) (name : String) : Option (ClassDef × Member) :=
  (scopes p p.length c).findSome? fun cs => (cs.lookup name).map (cs, ·)

/-- `Type.compatible`, on types without errors and `null`. -/
def Ty.compatible (p : TopLevel) : Ty → Ty → Bool
  | .klass c, .klass c' =>
    match lookupClass p c with
    | none => false
    | some d => (scopes p p.length d).any (·.name = c')
  | t, t' => t = t'

/-- `FuncType.compatible` for two methods that are not static: their first parameters, both `this`,
are passed over. -/
def compatible (p : TopLevel) (r r' : Ty) (args args' : List Ty) : Bool :=
  r.compatible p r' && args.length = args'.length
    && (args.zip args').all fun a => a.2.compatible p a.1

/-! ## `BuildSym` -/

namespace BuildSym

/-- The classes are declared one after the other; `earlier` are the names declared so far. -/
def declareClasses (earlier : List String) : TopLevel → Except DecafError Unit
  | [] => pure ()
  | cd :: cds =>
    if cd.name ∈ earlier then throw (.declConflict cd.name)
    else declareClasses (cd.name :: earlier) cds

/-- The orders, `-1` where there is none yet, and the order of `c`. Every call sets the order of
one class more, so that `p.length + 1` calls are enough. -/
def calcOrder (p : TopLevel) : ℕ → (String → ℤ) → Option ClassDef → (String → ℤ) × ℤ
  | _, order, none => (order, -1)
  | 0, order, some c => (order, order c.name)
  | n + 1, order, some c =>
    if order c.name < 0 then
      let r := calcOrder p n (Function.update order c.name 0) (getParent p c)
      (Function.update r.1 c.name (r.2 + 1), r.2 + 1)
    else (order, order c.name)

/-- One turn of the second loop of `visitTopLevel`. -/
def checkInheritance (p : TopLevel) (order : String → ℤ) (c : ClassDef) :
    Except DecafError (String → ℤ) :=
  if c.parent.isSome ∧ getParent p c = none then throw (.classNotFound (c.parent.getD ""))
  else
    let r := calcOrder p (p.length + 1) order (some c)
    let r' := calcOrder p (p.length + 1) r.1 (getParent p c)
    if r.2 ≤ r'.2 then throw (.badInheritance c.name) else pure r'.1

/-- `visitTypeIdent`, `visitTypeClass` and `visitTypeArray`. -/
def visitType (p : TopLevel) : Ty → Except DecafError Unit
  | .klass c => if lookupClass p c = none then throw (.classNotFound c) else pure ()
  | .array t => do
    visitType p t
    if t = .void then throw .badArrElement
  | _ => pure ()

/-- In a class or formal scope that holds `declared`. A symbol of an outer scope, which may be that
of an ancestor, does not stop the declaration. -/
def visitVarDef (p : TopLevel) (declared : List String) (v : String × Ty) :
    Except DecafError (List String) := do
  visitType p v.2
  if v.2 = .void then throw (.badVarType v.1)
  if v.1 ∈ declared then throw (.declConflict v.1)
  pure (v.1 :: declared)

def visitField (p : TopLevel) (declared : List String) : Member → Except DecafError (List String)
  | .varDef x t => visitVarDef p declared (x, t)
  | .methodDef f _ r formals => do
    visitType p r
    if f ∈ declared then throw (.declConflict f)
    let _ ← formals.foldlM (visitVarDef p) []
    pure (f :: declared)

def visitClassDef (p : TopLevel) (c : ClassDef) : Except DecafError Unit := do
  let _ ← c.fields.foldlM (visitField p) []

/-- One symbol of a subclass against the one that its parent's scope shows under its name. The
stack of scopes also holds the global scope, but the classes it has are passed over. -/
def checkSymbol (p : TopLevel) (parent : ClassDef) (suspect : Member) : Except DecafError Unit :=
  match lookupVisible p parent suspect.name with
  | none => pure ()
  | some (owner, sym) =>
    match suspect, sym with
    | .varDef x _, .methodDef _ _ _ _ => throw (.declConflict x)
    | .methodDef f _ _ _, .varDef _ _ => throw (.declConflict f)
    | .methodDef f statik r args, .methodDef _ statik' r' args' =>
      if statik ∨ statik' then throw (.declConflict f)
      else if ¬ compatible p r r' (args.map Prod.snd) (args'.map Prod.snd) then
        throw (.badOverride f owner.name)
      else pure ()
    | .varDef x _, .varDef _ _ => throw (.overridingVar x)

/-- `check` are the classes whose flag is set. -/
def checkOverride (p : TopLevel) : ℕ → List String → ClassDef → Except DecafError (List String)
  | 0, check, _ => pure check
  | n + 1, check, c =>
    if c.name ∈ check then pure check
    else
      match getParent p c with
      | none => pure check
      | some parent => do
        let check ← checkOverride p n check parent
        c.fields.forM (checkSymbol p parent)
        pure (c.name :: check)

/-- `Function.isMain` is set for the function it finds. -/
def isMainClass (p : TopLevel) : Bool :=
  match (lookupClass p mainClassName).bind (·.lookup mainFuncName) with
  | some (.methodDef _ statik r args) => r = .void && args.length = 0 && statik
  | _ => false

def visitTopLevel (p : TopLevel) : Except DecafError Unit := do
  declareClasses [] p
  let _ ← p.foldlM (checkInheritance p) fun _ => -1
  p.forM (visitClassDef p)
  let _ ← p.foldlM (checkOverride p p.length) []
  if ¬ isMainClass p then throw (.noMainClass mainClassName)

end BuildSym

end Decaf

end CacheCPU
