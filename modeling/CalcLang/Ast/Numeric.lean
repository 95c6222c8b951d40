import CalcLang.Ast.Ir

/-!
# Code generation for numeric expressions

`hasFloatType`, `BinNode.calc`, `UnaryNode.calc`, `implicitCast`, `RetNode.calc`
and `DefAndAssignNode.calc` of `compiler/ast/ast.go`, `CompareNode.calc` of
`compiler/ast/cond.go` and the parameter passing of `CallFuncNode.calc`
(`compiler/ast/function.go`), for operands of integer and floating-point types.
A variable is named by its slot. `none` is a panic of the code generator: a cast
it refuses, or a cast to a type of another kind. Casts of pointers and to
interfaces are not modelled here.

The functions that take operands already loaded (`binOp`, `assign`, ...) are what
the `calc` methods do after they compiled their children.
-/

namespace CalcLang.Ast

/-- The operators of `BinNode`, apart from `TYPE_ASSIGN`. -/
inductive BinOp where
  | plus | div | mul | sub | ps | shl | shr | bitOr | bitXor | esp
deriving DecidableEq, Repr

/-- A numeric expression. -/
inductive Exp where
  | num (val : Val)
  | var (x : Nat) (ty : Ty)
  | unary (minus : Bool) (child : Exp)
  | bin (op : BinOp) (left right : Exp)
  | assign (left right : Exp)
  | compare (op : Pred) (left right : Exp)
  | call (fn : Nat) (paramTypes : List Ty) (ret : Ty) (params : List Exp)

/-- `DefaultIntType`, on a 64-bit machine. -/
def DefaultIntType : Ty := .int 64

/-- `DefaultFloatType`, on a 64-bit machine. -/
def DefaultFloatType : Ty := .float 2

/-- `var zero`. -/
def zero : Val := .int 32 0

/-- `loadIfVar`. -/
def loadIfVar (l : Val) (b : Blk) : Val × Blk :=
  match l.ty with
  | .ptr t => b.emit (.load t l)
  | _ => (l, b)

/-! ## Widening -/

/-- A type that arithmetic is done on: `hasFloatType` gives up on the others. -/
def Ty.isNumeric : Ty → Bool
  | .float _ => true
  | .int w => w != 1
  | .ptr _ => false

/-- Floating point? -/
def Ty.isFloat : Ty → Bool
  | .float _ => true
  | _ => false

/-- `maxF.Kind` after one more operand. -/
def maxKind (k : Nat) (v : Val) : Nat :=
  match v.ty with
  | .float k' => if k' > k then k' else k
  | _ => k

/-- `maxI.BitSize` after one more operand. -/
def maxBits (w : Nat) (v : Val) : Nat :=
  match v.ty with
  | .int w' => if w' > w then w' else w
  | _ => w

/-- One operand, widened to the common type. -/
def widen (hasfloat : Bool) (maxF maxI : Nat) (v : Val) (b : Blk) : Val × Blk :=
  if hasfloat then
    match v.ty with
    | .float k => if k = maxF then (v, b) else b.emit (.fpExt v maxF)
    | _ => b.emit (.siToFP v maxF)
  else if v.ty = .int maxI then (v, b)
  else b.emit (.zext v maxI)

/-- The operands one after the other. -/
def widenAll (hasfloat : Bool) (maxF maxI : Nat) : List Val → Blk → List Val × Blk
  | [], b => ([], b)
  | v :: vs, b =>
    let (v, b) := widen hasfloat maxF maxI v b
    let (vs, b) := widenAll hasfloat maxF maxI vs b
    (v :: vs, b)

/-- `hasFloatType`: is one of the operands a float, and the operands brought to a
common type. -/
def hasFloatType (b : Blk) (ts : List Val) : Bool × List Val × Blk :=
  if ts.all fun v => v.ty.isNumeric then
    let hasfloat := ts.any fun v => v.ty.isFloat
    (hasfloat, widenAll hasfloat (ts.foldl maxKind 0) (ts.foldl maxBits 8) ts b)
  else (false, ts, b)

/-- `implicitCast`, between numeric types. -/
def implicitCast (v : Val) (target : Ty) (b : Blk) : Option (Val × Blk) :=
  if v.ty = target then some (v, b)
  else
    match v.ty, target with
    | .float k, .float k' => if k' < k then none else some (b.emit (.fpExt v k'))
    | .int w, .int w' => if w' < w then none else some (b.emit (.zext v w'))
    | _, _ => none

/-- `store`. -/
def store (r lptr : Val) (b : Blk) : Option Blk :=
  if lptr.ty = .ptr r.ty then some (b.emit (.store r lptr)).2 else none

/-! ## The nodes, with their operands computed -/

/-- The instruction of an operator. -/
def BinOp.inst (op : BinOp) (hasF : Bool) (l r : Val) : Inst :=
  match op, hasF with
  | .plus, true => .float .fadd l r
  | .plus, false => .int .add l r
  | .div, true => .float .fdiv l r
  | .div, false => .int .sdiv l r
  | .mul, true => .float .fmul l r
  | .mul, false => .int .mul l r
  | .sub, true => .float .fsub l r
  | .sub, false => .int .sub l r
  | .ps, true => .float .frem l r
  | .ps, false => .int .srem l r
  | .shl, _ => .int .shl l r
  | .shr, _ => .int .ashr l r
  | .bitOr, _ => .int .or l r
  | .bitXor, _ => .int .xor l r
  | .esp, _ => .int .and l r

/-- `BinNode.calc`, on its loaded operands. -/
def binOp (op : BinOp) (l r : Val) (b : Blk) : Option (Val × Blk) :=
  match hasFloatType b [l, r] with
  | (hasF, [l, r], b) => some (b.emit (op.inst hasF l r))
  | _ => none

/-- `CompareNode.calc`, on its loaded operands. -/
def compare (op : Pred) (l r : Val) (b : Blk) : Option (Val × Blk) :=
  match hasFloatType b [l, r] with
  | (hasF, [l, r], b) => some (b.emit (if hasF then .fcmp op l r else .icmp op l r))
  | _ => none

/-- `BinNode.calc` for `TYPE_ASSIGN`: `l` is what was loaded from the assigned
variable `rawL`. -/
def assign (rawL l r : Val) (b : Blk) : Option (Val × Blk) :=
  match hasFloatType b [l, r], rawL.ty with
  | (_, [_, r], b), .ptr t => do
    let (r1, b) ← implicitCast r t b
    let b ← store r1 rawL b
    return (zero, b)
  | _, _ => none

/-- `UnaryNode.calc`, on its loaded operand. -/
def unary (minus : Bool) (c : Val) (b : Blk) : Option (Val × Blk) :=
  if minus then
    match hasFloatType b [c] with
    | (true, [re], b) =>
      match c.ty with
      | .float k => some (b.emit (.float .fsub (.float k ['0']) re))
      | _ => none
    | (_, _, b) => some (b.emit (.int .sub zero c))
  else some (c, b)

/-- The parameters' casts, in `CallFuncNode.calc`. -/
def castParams : List Val → List Ty → Blk → Option (List Val × Blk)
  | [], _, b => some ([], b)
  | v :: vs, t :: ts, b => do
    let (p, b) ← implicitCast v t b
    let (ps, b) ← castParams vs ts b
    return (p :: ps, b)
  | _ :: _, [], _ => none

/-- `CallFuncNode.calc` of a function of the module, on its loaded parameters:
the result is kept in storage of its own. -/
def callFunc (fn : Nat) (paramTypes : List Ty) (ret : Ty) (pvs : List Val) (b : Blk) :
    Option (Val × Blk) := do
  let (params, b) ← castParams pvs paramTypes b
  let (re, b) := b.emit (.call fn params ret)
  let (alloc, b) := b.alloc ret
  let b ← store re alloc b
  return (alloc, b)

/-! ## The nodes -/

mutual

/-- `calc` of an expression. `BinNode.calc` compiles its right operand first. -/
def Exp.calc : Exp → Blk → Option (Val × Blk)
  | .num val, b => some (val, b)
  | .var x t, b => some (.slot x t, b)
  | .unary minus child, b => do
    let (c, b) ← child.calc b
    let (c, b) := loadIfVar c b
    unary minus c b
  | .bin op left right, b => do
    let (rawR, b) ← right.calc b
    let (r, b) := loadIfVar rawR b
    let (rawL, b) ← left.calc b
    let (l, b) := loadIfVar rawL b
    binOp op l r b
  | .assign left right, b => do
    let (rawR, b) ← right.calc b
    let (r, b) := loadIfVar rawR b
    let (rawL, b) ← left.calc b
    let (l, b) := loadIfVar rawL b
    assign rawL l r b
  | .compare op left right, b => do
    let (l, b) ← left.calc b
    let (l, b) := loadIfVar l b
    let (r, b) ← right.calc b
    let (r, b) := loadIfVar r b
    compare op l r b
  | .call fn paramTypes ret params, b => do
    let (pvs, b) ← calcParams params b
    callFunc fn paramTypes ret pvs b

/-- A call's parameters, computed and loaded. -/
def calcParams : List Exp → Blk → Option (List Val × Blk)
  | [], b => some ([], b)
  | e :: es, b => do
    let (v, b) ← e.calc b
    let (v, b) := loadIfVar v b
    let (vs, b) ← calcParams es b
    return (v :: vs, b)

end

/-- Is the node a `CallFuncNode`? -/
def Exp.isCallFunc : Exp → Bool
  | .call .. => true
  | _ => false

/-- The type of the variable `:=` defines. -/
def defType (isCall : Bool) (t : Ty) : Ty :=
  if isCall then t
  else
    match t with
    | .float _ => DefaultFloatType
    | .int w => if w = 1 then .int 1 else DefaultIntType
    | .ptr t => .ptr t

/-- `DefAndAssignNode.calc` of a local variable, on its loaded value: the new
variable's storage. -/
def defAndAssign (isCall : Bool) (val : Val) (b : Blk) : Option (Val × Blk) := do
  let tp := defType isCall val.ty
  let (v, b) := b.alloc tp
  let (val1, b) ← implicitCast val tp b
  let b ← store val1 v b
  return (v, b)

/-- `DefAndAssignNode.calc`. -/
def DefAndAssign (valNode : Exp) (b : Blk) : Option (Val × Blk) := do
  let (rawval, b) ← valNode.calc b
  let (val, b) := loadIfVar rawval b
  defAndAssign valNode.isCallFunc val b

/-- `RetNode.calc`: the value `NewRet` is given. -/
def Ret (exp : Exp) (rtp : Ty) (b : Blk) : Option (Val × Blk) := do
  let (ret, b) ← exp.calc b
  let (l, b) := loadIfVar ret b
  implicitCast l rtp b

end CalcLang.Ast
