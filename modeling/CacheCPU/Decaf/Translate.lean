import CacheCPU.Decaf.Symbol
import Mathlib.Data.List.Sort

/-!
# Object layout and virtual tables

`Class.resolveFieldOrder`, `decaf/translate/TransPass1.java`, the virtual tables of
`decaf/translate/Translater.java` and their words as `Mips.emitVTable` prints them. What the passes
write into the symbols is kept in a record, by the names of class and member; an exception is
`none`. The code for `new` is left out.
-/

namespace CacheCPU

namespace Decaf

def POINTER_SIZE : ℤ := 4

def WORD_SIZE : ℤ := 4

structure VTable where
  name : String
  parent : Option String
  className : String
  entries : List (Option String)

/-- The fields of `Class` that the passes set. -/
structure ClassInfo where
  numNonStaticFunc : ℤ
  numVar : ℤ
  size : ℤ
  vtable : Option VTable

/-- The fields of `Variable` and `Function` that the passes set. `functy` is the label. -/
structure SymbolInfo where
  order : ℤ
  offset : ℤ
  functy : Option String

structure Layout where
  classes : String → ClassInfo
  symbols : String → String → SymbolInfo
  /-- `Translater.vtables`, by class. -/
  vtables : List String

def Layout.init : Layout where
  classes _ := ⟨-1, -1, 0, none⟩
  symbols _ _ := ⟨0, 0, none⟩
  vtables := []

namespace Layout

def setClass (s : Layout) (c : String) (k : ClassInfo) : Layout :=
  { s with classes := Function.update s.classes c k }

def setSymbol (s : Layout) (c x : String) (i : SymbolInfo) : Layout :=
  { s with symbols := Function.update s.symbols c (Function.update (s.symbols c) x i) }

def setOrder (s : Layout) (c x : String) (order : ℤ) : Layout :=
  s.setSymbol c x { s.symbols c x with order := order }

def setOffset (s : Layout) (c x : String) (offset : ℤ) : Layout :=
  s.setSymbol c x { s.symbols c x with offset := offset }

end Layout

/-! ## `resolveFieldOrder` -/

/-- One turn of the loop over the symbols of `c`. -/
def resolveField (p : TopLevel) (c : ClassDef) (s : Layout) (sym : Member) : Layout :=
  let k := s.classes c.name
  match sym with
  | .varDef x _ =>
    (s.setOrder c.name x k.numVar).setClass c.name
      { k with numVar := k.numVar + 1, size := k.size + WORD_SIZE }
  | .methodDef _ true _ _ => s
  | .methodDef f false _ _ =>
    match (getParent p c).bind fun ps => lookupVisible p ps f with
    | none =>
      (s.setOrder c.name f k.numNonStaticFunc).setClass c.name
        { k with numNonStaticFunc := k.numNonStaticFunc + 1 }
    | some (owner, _) => s.setOrder c.name f (s.symbols owner.name f).order

/-- `none` when `n` calls are not enough. -/
def resolveFieldOrder (p : TopLevel) : ℕ → Layout → ClassDef → Option Layout
  | 0, _, _ => none
  | n + 1, s, c =>
    let k := s.classes c.name
    if 0 ≤ k.numNonStaticFunc ∧ 0 ≤ k.numVar then some s
    else
      match getParent p c with
      | some parent => do
        let s ← resolveFieldOrder p n s parent
        let q := s.classes parent.name
        let s := s.setClass c.name
          { s.classes c.name with
            numNonStaticFunc := q.numNonStaticFunc, numVar := q.numVar, size := q.size }
        pure (c.fields.foldl (resolveField p c) s)
      | none =>
        let s := s.setClass c.name
          { k with numNonStaticFunc := 0, numVar := 0, size := POINTER_SIZE }
        some (c.fields.foldl (resolveField p c) s)

/-! ## `TransPass1` -/

/-- The label that `createFuncty` makes. The main function is the one that `isMainClass` found. -/
def funcLabel (c f : String) : String :=
  if c = mainClassName ∧ f = mainFuncName then "main" else "_" ++ c ++ "." ++ f

namespace TransPass1

/-- `visitMethodDef`, without the formals; `visitVarDef` only adds to `vars`. -/
def visitField (c : ClassDef) (s : Layout) : Member → Layout
  | .varDef _ _ => s
  | .methodDef f statik _ _ =>
    let i := s.symbols c.name f
    s.setSymbol c.name f
      { i with
        offset := if statik then i.offset else 2 * POINTER_SIZE + i.order * POINTER_SIZE
        functy := some (funcLabel c.name f) }

def vars (c : ClassDef) : List String :=
  c.fields.filterMap fun
    | .varDef x _ => some x
    | .methodDef _ _ _ _ => none

/-- The offsets of `vars` from `oc` on. -/
def setOffsets (c : ClassDef) : ℤ → List String → Layout → Layout
  | _, [], s => s
  | oc, x :: xs, s => setOffsets c (oc + WORD_SIZE) xs (s.setOffset c.name x oc)

def visitClassDef (p : TopLevel) (s : Layout) (c : ClassDef) : Option Layout := do
  let s ← resolveFieldOrder p p.length s c
  let s := c.fields.foldl (visitField c) s
  let sorted := (vars c).mergeSort fun x y =>
    (s.symbols c.name x).order ≤ (s.symbols c.name y).order
  let oc := match getParent p c with
    | some q => (s.classes q.name).size
    | none => POINTER_SIZE
  pure (setOffsets c oc sorted s)

end TransPass1

/-! ## Virtual tables -/

/-- One turn of the loop of `fillVTableEntries`: the store fails outside the array, and without a
`functy`. -/
def fillEntry (s : Layout) (c : ClassDef) (entries : List (Option String)) :
    Member → Option (List (Option String))
  | .methodDef f false _ _ => do
    let i := s.symbols c.name f
    let label ← i.functy
    if 0 ≤ i.order ∧ i.order < entries.length then
      pure (entries.set i.order.toNat (some label))
    else none
  | _ => some entries

def fillVTableEntries (p : TopLevel) (s : Layout) :
    ℕ → List (Option String) → ClassDef → Option (List (Option String))
  | 0, _, _ => none
  | n + 1, entries, c => do
    let entries ← match getParent p c with
      | some q => fillVTableEntries p s n entries q
      | none => some entries
    c.fields.foldlM (fillEntry s c) entries

def createVTable (p : TopLevel) (s : Layout) (c : ClassDef) : Option Layout :=
  let k := s.classes c.name
  if k.vtable.isSome then some s
  else do
    let entries ← fillVTableEntries p s p.length
      (List.replicate k.numNonStaticFunc.toNat none) c
    let vtable : VTable := ⟨"_" ++ c.name, none, c.name, entries⟩
    pure { s.setClass c.name { k with vtable := some vtable } with
      vtables := s.vtables ++ [c.name] }

/-- The last loop of `TransPass1.visitTopLevel`. -/
def setVTableParent (p : TopLevel) (s : Layout) (c : ClassDef) : Option Layout :=
  if c.parent.isSome then do
    let k := s.classes c.name
    let vtable ← k.vtable
    let parent ← getParent p c
    pure (s.setClass c.name { k with
      vtable := some { vtable with
        parent := (s.classes parent.name).vtable.map (·.name) } })
  else some s

def TransPass1.visitTopLevel (p : TopLevel) : Option Layout := do
  let s ← p.foldlM (TransPass1.visitClassDef p) Layout.init
  let s ← p.foldlM (createVTable p) s
  p.foldlM (setVTableParent p) s

/-- A virtual table in the data segment: its label and the operands of its `.word` lines. -/
structure Emitted where
  label : String
  words : List String
  deriving DecidableEq

/-- The label of `t`, and the string constants that there are then. -/
def getStringConstLabel (stringConst : List String) (t : String) : String × List String :=
  if t ∈ stringConst then ("_STRING" ++ toString (stringConst.idxOf t), stringConst)
  else ("_STRING" ++ toString stringConst.length, stringConst ++ [t])

/-- `emitVTable`, with the string constants there are. An entry that is not set has no name. -/
def emitVTable : List String → List VTable → Option (List Emitted)
  | _, [] => some []
  | stringConst, vt :: vts => do
    let r := getStringConstLabel stringConst vt.className
    let entries ← vt.entries.mapM id
    let rest ← emitVTable r.2 vts
    pure (⟨vt.name, vt.parent.getD "0" :: r.1 :: entries⟩ :: rest)

/-- `Translater.getVtables`. -/
def Layout.getVtables (s : Layout) : Option (List VTable) :=
  s.vtables.mapM fun c => (s.classes c).vtable

/-- The word `offset` bytes behind the label. -/
def wordAt (data : List Emitted) (label : String) (offset : ℤ) : Option String := do
  let e ← data.find? (·.label = label)
  if 0 ≤ offset ∧ offset % WORD_SIZE = 0 then e.words[(offset / WORD_SIZE).toNat]? else none

/-- The loop that `genInstanceof` emits, from a table `vp` on. -/
def instanceofLoop (data : List Emitted) (targetVp : String) : ℕ → String → Option Bool
  | 0, _ => none
  | n + 1, vp =>
    if targetVp = vp then some true
    else do
      let vp ← wordAt data vp 0
      if vp = "0" then some false else instanceofLoop data targetVp n vp

end Decaf

end CacheCPU
