import CacheCPU.Decaf.Tac
import Mathlib.Logic.Function.Basic

/-!
# Code for method bodies: `decaf/translate/TransPass2.java` and `Translater.java`

The trees are as the type checker leaves them: a name has been resolved to a local variable or to a
member with its offset, and a call to a label or to an offset in a virtual table. The code is built
at the end of a list, temporaries and labels are numbered as they are made, and an exception is
`none`.
-/

namespace CacheCPU

namespace Decaf

/-! ## Trees -/

inductive BinaryTag where
  | plus
  | minus
  | mul
  | div
  | mod
  | and
  | or
  | lt
  | le
  | gt
  | ge
  | eq
  | ne

mutual

inductive Expr where
  | intLit (value : ℤ)
  | boolLit (value : Bool)
  | strLit (value : String)
  | null
  | thisExpr
  /-- A local variable or a parameter. -/
  | ident (sym : ℕ)
  | member (owner : Expr) (offset : ℤ)
  | readIntExpr
  | readLineExpr
  | neg (expr : Expr)
  | not (expr : Expr)
  /-- `str` when one side is a string. -/
  | binary (tag : BinaryTag) (str : Bool) (left right : Expr)
  | indexed (array index : Expr)
  | callExpr (call : Call)
  | newArray (length : Expr)
  | newClass (newFunc : String)
  | typeTest (instance_ : Expr) (vtbl : String)
  /-- With the table to look for, where the cast is not an upcast. -/
  | typeCast (expr : Expr) (vtbl : Option String)

inductive Call where
  | arrayLength (receiver : Expr)
  | direct (func : String) (actuals : Exprs)
  | indirect (receiver : Expr) (offset : ℤ) (actuals : Exprs)

inductive Exprs where
  | nil
  | cons (expr : Expr) (rest : Exprs)

end

inductive LValue where
  | arrayElement (array index : Expr)
  | memberVar (owner : Expr) (offset : ℤ)
  | localVar (sym : ℕ)

/-- The types that can be printed. -/
inductive PrintType where
  | bool
  | int
  | string

inductive Intrinsic where
  | libDiv
  | libRem
  | allocate
  | readLine
  | readInt
  | stringEqual
  | printInt
  | printString
  | printBool
  | halt

/-- `SimpleStmt` of the grammar, which may be empty. -/
inductive SimpleStmt where
  | skip
  | assign (left : LValue) (expr : Expr)
  | exec (call : Call) (void : Bool)

inductive Stmt where
  | simple (stmt : SimpleStmt)
  | varDef (sym : ℕ)
  | returnStmt (expr : Option Expr)
  | print (exprs : List (Expr × PrintType))
  | breakStmt
  | ifThen (condition : Expr) (trueBranch : Stmt)
  | ifThenElse (condition : Expr) (trueBranch falseBranch : Stmt)
  | whileLoop (condition : Expr) (loopBody : Stmt)
  | forLoop (init : SimpleStmt) (condition : Expr) (update : SimpleStmt) (loopBody : Stmt)
  | seq (first second : Stmt)

/-! ## `Translater` -/

def WORD : ℤ := 4

def Intrinsic.label : Intrinsic → String
  | .libDiv => "decaf_Div"
  | .libRem => "decaf_Rem"
  | .allocate => "decaf_Alloc"
  | .readLine => "decaf_ReadLine"
  | .readInt => "decaf_ReadInteger"
  | .stringEqual => "decaf_StringEqual"
  | .printInt => "decaf_PrintInt"
  | .printString => "decaf_PrintString"
  | .printBool => "decaf_PrintBool"
  | .halt => "decaf_Halt"

def arrayIndexOutOfBound : String := "Decaf runtime error: Array subscript out of bounds\n"

def negativeArrSize : String := "Decaf runtime error: Cannot create negative-sized array\n"

def classCastError1 : String := "Decaf runtime error: "

def classCastError2 : String := " cannot be cast to "

def classCastError3 : String := "\n"

/-- The code so far, the counters, and the temporaries of the variables. -/
structure Gen where
  code : List Tac
  nextTemp : ℕ
  nextLabel : ℕ
  temps : ℕ → Temp

abbrev Emit := StateT Gen Option

def append (t : Tac) : Emit Unit := modify fun g => { g with code := g.code ++ [t] }

def createTempI4 : Emit Temp :=
  modifyGet fun g => (g.nextTemp, { g with nextTemp := g.nextTemp + 1 })

def createLabel : Emit Label :=
  modifyGet fun g => (.num g.nextLabel, { g with nextLabel := g.nextLabel + 1 })

/-- An operation whose result goes to a new temporary. -/
def genTo (op : Temp → Instr) : Emit Temp := do
  let dst ← createTempI4
  append (.instr (op dst))
  pure dst

def genBinary (op : BinaryOp) (src1 src2 : Temp) : Emit Temp := genTo (.binary op · src1 src2)

def genMul (src1 src2 : Temp) : Emit Temp := do
  let dst ← createTempI4
  append (.instr (.mult src1 src2))
  append (.instr (.mflo dst))
  pure dst

def genLoad (base : Temp) (offset : ℤ) : Emit Temp := genTo (.load · base offset)

def genStore (src base : Temp) (offset : ℤ) : Emit Unit :=
  append (.instr (.store src base offset))

def genLoadImm4 (imm : ℤ) : Emit Temp := genTo (.loadImm4 · imm)

def genLoadStrConst (value : String) : Emit Temp := genTo (.loadStrConst · value)

def genLoadVTable (vtbl : String) : Emit Temp := genTo (.loadVtbl · vtbl)

def genParm (src : Temp) : Emit Unit := append (.instr (.parm src))

/-- `genIntrinsicCall` of a function that gives no value. -/
def genCallVoid (intrn : Intrinsic) : Emit Unit := append (.instr (.directCall none intrn.label))

def genIntrinsicCall (intrn : Intrinsic) : Emit Temp :=
  genTo fun dst => .directCall (some dst) intrn.label

def genCheckArrayIndex (array index : Temp) : Emit Unit := do
  let length ← genLoad array (-WORD)
  let cond ← genBinary .les index length
  let err ← createLabel
  append (.beqz cond err)
  let zeroTemp ← genLoadImm4 0
  let cond ← genBinary .les index zeroTemp
  let exit ← createLabel
  append (.beqz cond exit)
  append (.mark err)
  let msg ← genLoadStrConst arrayIndexOutOfBound
  genParm msg
  genCallVoid .printString
  genCallVoid .halt
  append (.mark exit)

def genCheckNewArraySize (size : Temp) : Emit Unit := do
  let exit ← createLabel
  let zeroTemp ← genLoadImm4 0
  let cond ← genBinary .les size zeroTemp
  append (.beqz cond exit)
  let msg ← genLoadStrConst negativeArrSize
  genParm msg
  genCallVoid .printString
  genCallVoid .halt
  append (.mark exit)

def genNewArray (length : Temp) : Emit Temp := do
  genCheckNewArraySize length
  let unit ← genLoadImm4 WORD
  let product ← genMul unit length
  let size ← genBinary .add unit product
  genParm size
  let obj ← genIntrinsicCall .allocate
  genStore length obj 0
  let loop ← createLabel
  let exit ← createLabel
  let zeroTemp ← genLoadImm4 0
  append (.instr (.binary .add obj obj size))
  append (.mark loop)
  append (.instr (.binary .sub size size unit))
  append (.beqz size exit)
  append (.instr (.binary .sub obj obj unit))
  genStore zeroTemp obj 0
  append (.branch loop)
  append (.mark exit)
  pure obj

/-- What `genNewForClass` emits to clear `time` words behind the first, with the temporary that then
holds the object. -/
def genClear (time : ℤ) (size newObj : Temp) : Emit Temp :=
  if time = 0 then pure newObj
  else do
    let zeroTemp ← genLoadImm4 0
    if time < 5 then do
      (List.range time.toNat).forM fun i => genStore zeroTemp newObj (WORD * (i + 1))
      pure newObj
    else do
      let unit ← genLoadImm4 WORD
      let loop ← createLabel
      let exit ← createLabel
      let newObj ← genBinary .add newObj size
      append (.mark loop)
      let t ← genBinary .sub newObj unit
      append (.instr (.assign newObj t))
      let t ← genBinary .sub size unit
      append (.instr (.assign size t))
      append (.beqz size exit)
      genStore zeroTemp newObj 0
      append (.branch loop)
      append (.mark exit)
      pure newObj

/-- The function that makes an object of class `name`, which takes `size` bytes. -/
def genNewForClass (name vtbl : String) (size : ℤ) : Emit Unit := do
  modify fun g => { g with code := [] }
  append (.mark (.func ("_" ++ name ++ "_New")))
  let sizeTemp ← genLoadImm4 size
  genParm sizeTemp
  let newObj ← genIntrinsicCall .allocate
  let newObj ← genClear (size / WORD - 1) sizeTemp newObj
  let vt ← genLoadVTable vtbl
  genStore vt newObj 0
  append (.ret (some newObj))

def genInstanceof (inst : Temp) (vtbl : String) : Emit Temp := do
  let dst ← createTempI4
  let loop ← createLabel
  let exit ← createLabel
  let targetVp ← genLoadVTable vtbl
  let vp ← genLoad inst 0
  append (.mark loop)
  append (.instr (.binary .equ dst targetVp vp))
  append (.bnez dst exit)
  append (.instr (.load vp vp 0))
  append (.bnez vp loop)
  append (.instr (.loadImm4 dst 0))
  append (.mark exit)
  pure dst

def genPrintString (str : Temp) : Emit Unit := do
  genParm str
  genCallVoid .printString

/-- What `genClassCast` emits for a cast that fails. -/
def genClassCastError (val : Temp) (vtbl : String) : Emit Unit := do
  let msg ← genLoadStrConst classCastError1
  genPrintString msg
  let vt ← genLoad val 0
  let instanceClassName ← genLoad vt 4
  genPrintString instanceClassName
  let msg ← genLoadStrConst classCastError2
  genPrintString msg
  let vt ← genLoadVTable vtbl
  let targetClassName ← genLoad vt 4
  genPrintString targetClassName
  let msg ← genLoadStrConst classCastError3
  genPrintString msg
  genCallVoid .halt

def genClassCast (val : Temp) (vtbl : String) : Emit Unit := do
  let loop ← createLabel
  let exit ← createLabel
  let cond ← createTempI4
  let targetVp ← genLoadVTable vtbl
  let vp ← genLoad val 0
  append (.mark loop)
  append (.instr (.binary .equ cond targetVp vp))
  append (.bnez cond exit)
  append (.instr (.load vp vp 0))
  append (.bnez vp loop)
  genClassCastError val vtbl
  append (.mark exit)

/-! ## `TransPass2` -/

namespace TransPass2

/-- `visitBinary` behind the two operands. -/
def genBinaryTag (tag : BinaryTag) (str : Bool) (left right : Temp) : Emit Temp :=
  match tag with
  | .plus => genBinary .add left right
  | .minus => genBinary .sub left right
  | .mul => genMul left right
  | .div => do
    genParm left
    genParm right
    genIntrinsicCall .libDiv
  | .mod => do
    genParm left
    genParm right
    genIntrinsicCall .libRem
  | .and => genBinary .land left right
  | .or => genBinary .lor left right
  | .lt => genBinary .les left right
  | .le => genBinary .leq left right
  | .gt => genBinary .gtr left right
  | .ge => genBinary .geq left right
  | .eq =>
    if str then do
      genParm left
      genParm right
      genIntrinsicCall .stringEqual
    else genBinary .equ left right
  | .ne =>
    if str then do
      genParm left
      genParm right
      let val ← genIntrinsicCall .stringEqual
      genTo (.lnot · val)
    else genBinary .neq left right

/-- The parameters of a call, one after the other. -/
def genParms : List Temp → Emit Unit
  | [] => pure ()
  | src :: srcs => do
    genParm src
    genParms srcs

section Visit

-- `currentThis`
variable (this : Temp)

mutual

def visitExpr : Expr → Emit Temp
  | .intLit value => genLoadImm4 value
  | .boolLit value => genLoadImm4 (if value then 1 else 0)
  | .strLit value => genLoadStrConst value
  | .null => genLoadImm4 0
  | .thisExpr => pure this
  | .ident sym => do
    let g ← get
    pure (g.temps sym)
  | .member owner offset => do
    let base ← visitExpr owner
    genLoad base offset
  | .readIntExpr => genIntrinsicCall .readInt
  | .readLineExpr => genIntrinsicCall .readLine
  | .neg expr => do
    let src ← visitExpr expr
    genTo (.neg · src)
  | .not expr => do
    let src ← visitExpr expr
    genTo (.lnot · src)
  | .binary tag str left right => do
    let src1 ← visitExpr left
    let src2 ← visitExpr right
    genBinaryTag tag str src1 src2
  | .indexed array index => do
    let base ← visitExpr array
    let i ← visitExpr index
    genCheckArrayIndex base i
    let esz ← genLoadImm4 WORD
    let t ← genMul i esz
    let element ← genBinary .add base t
    genLoad element 0
  | .callExpr call => do
    -- a call in an expression always has a value
    let dst ← visitCall call false
    pure (dst.getD 0)
  | .newArray length => do
    let n ← visitExpr length
    genNewArray n
  | .newClass newFunc => genTo fun dst => .directCall (some dst) newFunc
  | .typeTest inst vtbl => do
    let val ← visitExpr inst
    genInstanceof val vtbl
  | .typeCast expr vtbl => do
    let val ← visitExpr expr
    match vtbl with
    | some vtbl => genClassCast val vtbl
    | none => pure ()
    pure val

/-- The value of a call, where it has one: the length of an array always, a function unless it is
`void`. -/
def visitCall : Call → Bool → Emit (Option Temp)
  | .arrayLength receiver, _ => do
    let base ← visitExpr receiver
    let length ← genLoad base (-WORD)
    pure (some length)
  | .direct func actuals, void => do
    let args ← visitExprs actuals
    genParms args
    if void then do
      append (.instr (.directCall none func))
      pure none
    else do
      let dst ← genTo fun dst => .directCall (some dst) func
      pure (some dst)
  | .indirect receiver offset actuals, void => do
    let self ← visitExpr receiver
    let args ← visitExprs actuals
    genParm self
    genParms args
    let vt ← genLoad self 0
    let func ← genLoad vt offset
    if void then do
      append (.instr (.indirectCall none func))
      pure none
    else do
      let dst ← genTo fun dst => .indirectCall (some dst) func
      pure (some dst)

def visitExprs : Exprs → Emit (List Temp)
  | .nil => pure []
  | .cons expr rest => do
    let val ← visitExpr expr
    let vals ← visitExprs rest
    pure (val :: vals)

end

/-- The left side is evaluated like an expression first. -/
def visitAssign : LValue → Expr → Emit Unit
  | .arrayElement array index, expr => do
    let base ← visitExpr this array
    let i ← visitExpr this index
    genCheckArrayIndex base i
    let esz ← genLoadImm4 WORD
    let t ← genMul i esz
    let element ← genBinary .add base t
    let _ ← genLoad element 0
    let val ← visitExpr this expr
    let esz ← genLoadImm4 WORD
    let t ← genMul i esz
    let element ← genBinary .add base t
    genStore val element 0
  | .memberVar owner offset, expr => do
    let base ← visitExpr this owner
    let _ ← genLoad base offset
    let val ← visitExpr this expr
    genStore val base offset
  | .localVar sym, expr => do
    let val ← visitExpr this expr
    let g ← get
    append (.instr (.assign (g.temps sym) val))

def visitPrint : List (Expr × PrintType) → Emit Unit
  | [] => pure ()
  | (expr, type) :: rest => do
    let val ← visitExpr this expr
    genParm val
    match type with
    | .bool => genCallVoid .printBool
    | .int => genCallVoid .printInt
    | .string => genCallVoid .printString
    visitPrint rest

def visitSimple : SimpleStmt → Emit Unit
  | .skip => pure ()
  | .assign left expr => visitAssign this left expr
  | .exec call void => do
    let _ ← visitCall this call void

/-- `loopExit` is the top of `loopExits`. -/
def visitStmt : Option Label → Stmt → Emit Unit
  | _, .simple stmt => visitSimple this stmt
  | _, .varDef sym => do
    let t ← createTempI4
    modify fun g => { g with temps := Function.update g.temps sym t }
  | _, .returnStmt none => append (.ret none)
  | _, .returnStmt (some expr) => do
    let val ← visitExpr this expr
    append (.ret (some val))
  | _, .print exprs => visitPrint this exprs
  | none, .breakStmt => failure
  | some exit, .breakStmt => append (.branch exit)
  | loopExit, .ifThen condition trueBranch => do
    let cond ← visitExpr this condition
    let exit ← createLabel
    append (.beqz cond exit)
    visitStmt loopExit trueBranch
    append (.mark exit)
  | loopExit, .ifThenElse condition trueBranch falseBranch => do
    let cond ← visitExpr this condition
    let falseLabel ← createLabel
    append (.beqz cond falseLabel)
    visitStmt loopExit trueBranch
    let exit ← createLabel
    append (.branch exit)
    append (.mark falseLabel)
    visitStmt loopExit falseBranch
    append (.mark exit)
  | _, .whileLoop condition loopBody => do
    let loop ← createLabel
    append (.mark loop)
    let val ← visitExpr this condition
    let exit ← createLabel
    append (.beqz val exit)
    visitStmt (some exit) loopBody
    append (.branch loop)
    append (.mark exit)
  | _, .forLoop init condition update loopBody => do
    visitSimple this init
    let cond ← createLabel
    let loop ← createLabel
    append (.branch cond)
    append (.mark loop)
    visitSimple this update
    append (.mark cond)
    let val ← visitExpr this condition
    let exit ← createLabel
    append (.beqz val exit)
    visitStmt (some exit) loopBody
    append (.branch loop)
    append (.mark exit)
  | loopExit, .seq first second => do
    visitStmt loopExit first
    visitStmt loopExit second

end Visit

/-- `beginFunc` and the body, with the counters and the temporaries of the parameters as they are
then. -/
def visitMethodDef (name : String) (this : Temp) (body : Stmt) (g : Gen) : Option (List Tac) := do
  let r ← visitStmt this none body { g with code := [.mark (.func name)] }
  pure r.2.code

end TransPass2

end Decaf

end CacheCPU
