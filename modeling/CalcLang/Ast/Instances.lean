import CalcLang.Ast.Frame
import CalcLang.Lib.Cells

/-!
# Instances of a generic generator

`FuncNode.AddtoScope` registers a generic function as a Go closure over its syntax
tree: every list of type arguments compiles the same tree once more. A generator's
compilation writes to the tree. `ctx.setVals` stores in each definition and await
that has a slot a closure which appends a `getelementptr` to the entry block of the
instance, and `DefineNode.calc`, `DefAndAssignNode.calc` and `AwaitNode.calc` call
the closure that they find.

The tree's closures are the cells of a `Cells` table here. `ExpNode.calc` and
`Node.calc` generate the code of an instance, `Node.layout` is the walk of
`buildCtx`, which generates the code of initialisers and awaits into a throw-away
module to learn their types. The instructions of the generated code are symbols,
logged with the function they go to; types are looked up in a `Typing`.

Left out is what the instances also share but compute alike: the flags and capture
lists of the escape analysis, the labels, the labels' counters.
-/

namespace CalcLang.Ast

open CalcLang.Lib Cells

variable {α τ : Type}

/-! ## Types, storage, code -/

/-- Where a type is written: at a definition, at a parameter, behind a function. The
last two are a function literal's. -/
inductive TypeSite
  | define (r : Ref)
  | param (x : Ident)
  | ret
  | fnParam (r : Ref) (x : Ident)
  | fnRet (r : Ref)

/-- The types of an instance with the type arguments `α`: `TypeNode.calc` of what is
written, the type of a node's value from the types of its parts' values, and the type
that a `:=` gives a variable whose initialiser has the type. -/
structure Typing (α τ : Type) where
  site : α → TypeSite → τ
  value : α → ExpNode → List (FrameTy τ) → FrameTy τ
  auto : ExpNode → FrameTy τ → FrameTy τ

/-- A function of the generated code: the instance it is of, its number, and whether
it is in a module that is thrown away. -/
structure Fn where
  inst : Nat
  num : Nat
  dry : Bool
deriving DecidableEq

/-- A closure of `setVals`: an element of the frame whose address the entry block of
`fn` computes. -/
structure Place (τ : Type) where
  fn : Fn
  path : List Nat
  tp : FrameTy τ

/-- The `v` of a `variable`. -/
inductive Holding (τ : Type)
  | value (tp : FrameTy τ)
  | field (k : Nat) (tp : FrameTy τ)
  | slot (p : Place τ)
  | alloc (r : Ref) (tp : FrameTy τ)

/-- The type of what is stored. -/
def Holding.tp : Holding τ → FrameTy τ
  | .value tp | .field _ tp | .alloc _ tp => tp
  | .slot p => p.tp

/-- The variables of a scope. -/
abbrev Vars (τ : Type) := List (Ident × Holding τ)

/-- A scope and the scopes around it. -/
abbrev InstEnv (τ : Type) := List (Vars τ)

/-- `addVar`: a name that the scope has is not changed. -/
def InstEnv.addVar (x : Ident) (v : Holding τ) : InstEnv τ → InstEnv τ
  | [] => []
  | vs :: env => if (vs.lookup x).isSome then vs :: env else ((x, v) :: vs) :: env

/-- `searchVar`. -/
def InstEnv.searchVar (x : Ident) (env : InstEnv τ) : Option (Holding τ) :=
  env.findSome? fun vs => vs.lookup x

/-- Remove a name from the innermost scope. -/
def InstEnv.delete (x : Ident) : InstEnv τ → InstEnv τ
  | [] => []
  | vs :: env => vs.filter (·.1 ≠ x) :: env

/-- What code generation appends. `op` stands for the instructions of a node, given the
types of its parts' values and the variable it names. -/
inductive Instr (τ : Type)
  | newTypeDef (rtp : List (FrameTy τ))
  | gep (path : List Nat) (tp : FrameTy τ)
  | alloc (r : Ref) (tp : FrameTy τ)
  | store (r : Ref) (tp : FrameTy τ) (dst : Holding τ)
  | op (e : ExpNode) (tps : List (FrameTy τ)) (v : Option (Holding τ))

/-- What the closure of a node appends, and where. -/
def Place.mark (p : Place τ) : Fn × Instr τ := (p.fn, .gep p.path p.tp)

/-- Code generation: the cells are the closures in the tree. -/
abbrev Gen (τ : Type) := Prog Ref (Place τ) (Fn × Instr τ)

/-- A function in the module of `fn`. -/
def newFunc (fn : Fn) : Gen τ Fn := do
  let n ← fresh
  pure { fn with num := n }

/-- `tpf`, the function of the throw-away module of a `buildCtx`. -/
def newDry (fn : Fn) : Gen τ Fn := do
  let n ← fresh
  pure { fn with num := n, dry := true }

/-- Clear the closures. -/
def clearAll : List Ref → Gen τ Unit
  | [] => pure ()
  | r :: rs => do
    put r none
    clearAll rs

/-- Set the closures to places in the frame that `fn` is handed. -/
def setAll (fn : Fn) (frame : List (FrameTy τ)) : List (Ref × List Nat) → Gen τ Unit
  | [] => pure ()
  | v :: vs => do
    put v.1 (some ⟨fn, v.2, (fieldAt frame v.2).getD .i1⟩)
    setAll fn frame vs

/-- The end of `buildGenaratorCtx`, behind what `buildCtx` returned. -/
def Build.generatorCtx (c : Build τ) (ps : List τ) (inner : τ) : GeneratorCtx τ :=
  let c' := ps.foldl (fun c p => c.field (.of p) none) c
  { rtp := c'.tps ++ [.i8Ptr, .of inner]
    idxmap := List.range' c.i ps.length
    blockAddrId := c'.i
    context := c'.idxmap }

/-- The parameters as variables: what the function is called with, and the fields of
the frame. -/
def paramVars (ps : List (Ident × τ)) : Vars τ := ps.map fun p => (p.1, .value (.of p.2))

def paramFields (ps : List (Ident × τ)) (g : GeneratorCtx τ) : Vars τ :=
  (ps.zip g.idxmap).map fun p => (p.1.1, .field p.2 (.of p.1.2))

/-- `buildGenaratorCtx` and `buildGenerator`, for a function that is compiled into the
module of `fn`: `layout` is the walk over its body, `body` generates its code. -/
def generator (fn : Fn) (ps : List (Ident × τ)) (inner : τ) (env : InstEnv τ)
    (layout : Fn → InstEnv τ → Gen τ (Build τ)) (body : Fn → InstEnv τ → Gen τ (InstEnv τ)) : Gen τ Unit := do
  let tpf ← newDry fn
  let c ← layout tpf (paramVars ps :: env)
  let g := c.generatorCtx (ps.map (·.2)) inner
  emit (fn, .newTypeDef g.rtp)
  let stepNext ← newFunc fn
  setAll stepNext g.rtp (setValsAll [] g.context)
  let _ ← body stepNext (paramFields ps g :: env)

/-- `AwaitNode.calc`: with a slot, the task is stored there. Also returns the field
`generator` of the node. -/
def awaitCalc (T : Typing α τ) (a : α) (fn : Fn) (r : Ref) (e : ExpNode)
    (exp : Gen τ (FrameTy τ)) : Gen τ (FrameTy τ × FrameTy τ) := do
  let o ← visit Place.mark r
  let t ← exp
  let generator := (o.map (·.tp)).getD t
  emit (fn, .op (.await r e) [t, generator] (o.map .slot))
  pure (T.value a (.await r e) [generator], generator)

/-- `DefAndAssignNode.calc` behind the code of the initialiser, whose value has the type
`t`. -/
def assignTo (T : Typing α τ) (fn : Fn) (r : Ref) (e : ExpNode) (o : Option (Place τ))
    (t : FrameTy τ) : Gen τ (Holding τ) := do
  let v := (o.map .slot).getD (.alloc r (T.auto e t))
  match o with
  | some _ => pure ()
  | none => emit (fn, .alloc r (T.auto e t))
  emit (fn, .store r t v)
  pure v

mutual
/-- Whether `AddtoScope` and `InlineFuncNode.calc` find an await or a yield. -/
def ExpNode.suspends : ExpNode → Bool
  | .null | .lit | .str _ | .inlineFunc _ _ _ _ | .varBlock _ _ _ _ | .arrayInit _ _ => false
  | .callFunc _ params fnNode next => suspendsAny params || next.suspends || fnNode.suspends
  | .binary _ l r => l.suspends || r.suspends
  | .unary e | .takePtr e | .takeVal _ e => e.suspends
  | .structInit _ es => suspendsAny es
  | .await _ _ => true

def suspendsAny : List ExpNode → Bool
  | [] => false
  | e :: es => e.suspends || suspendsAny es

def Node.suspends : Node → Bool
  | .exp e | .ret e | .defAndAssign _ _ e => e.suspends
  | .yield _ => true
  | .leaf | .define _ _ => false
  | .ifN c sts => c.suspends || nodesSuspend sts
  | .ifElse c sts el => c.suspends || nodesSuspend sts || el.suspends
  | .forN c d a sts => c.suspends || d.suspends || a.suspends || nodesSuspend sts
  | .sl cs => nodesSuspend cs

def nodesSuspend : List Node → Bool
  | [] => false
  | n :: ns => n.suspends || nodesSuspend ns
end

mutual
/-- The definitions that the `travel` of `InlineFuncNode.calc` meets, outside inner
functions. It sets their closures to nil; those of awaits stay. -/
def Node.defs : Node → List Ref
  | .exp _ | .ret _ | .yield _ | .leaf => []
  | .define r _ | .defAndAssign r _ _ => [r]
  | .ifN _ sts => nodesDefs sts
  | .ifElse _ sts el => nodesDefs sts ++ el.defs
  | .forN _ d _ sts => d.defs ++ nodesDefs sts
  | .sl cs => nodesDefs cs

def nodesDefs : List Node → List Ref
  | [] => []
  | n :: ns => n.defs ++ nodesDefs ns
end

/-- A callee whose type arguments are written and that is no member of anything: a
generic function, which is looked up by its name alone. -/
def ExpNode.isGeneric (generics : Bool) : ExpNode → Bool
  | .varBlock _ _ next _ => generics && next.isEmpty
  | _ => false

/-- The value that is called; a generic function is not one. -/
def callee (generic : Bool) (fnNode : Gen τ (FrameTy τ)) : Gen τ (List (FrameTy τ)) :=
  if generic then pure [] else do
    let t ← fnNode
    pure [t]

/-- The operands of a node with two: a `BinNode` generates its right side first. -/
def BinKind.operands (k : BinKind) (left right : Gen τ (FrameTy τ)) :
    Gen τ (List (FrameTy τ)) :=
  if k = .bin ∨ k = .assign then do
    let u ← right
    let t ← left
    pure [t, u]
  else do
    let t ← left
    let u ← right
    pure [t, u]

/-- What a loop variable is called. -/
def Node.loopVar : Node → Option Ident
  | .defAndAssign _ x _ => some x
  | _ => none

/-- The body of a function literal: a generator, or plain code. -/
def inlineBody (T : Typing α τ) (a : α) (fn : Fn) (env : InstEnv τ) (r : Ref) (params : List Ident)
    (async : Bool) (body : List Node)
    (layout : Vars τ → Fn → InstEnv τ → Gen τ (InstEnv τ × Build τ)) (code : Fn → InstEnv τ → Gen τ (InstEnv τ)) :
    Gen τ Unit :=
  let ps := params.map fun x => (x, T.site a (.fnParam r x))
  if async || nodesSuspend body then
    generator fn ps (T.site a (.fnRet r)) env (fun tpf env => (·.2) <$> layout (paramVars ps) tpf env)
      code
  else do
    let _ ← code fn (paramVars ps :: env)

/-! ## Code generation -/

mutual
/-- `calc` of an expression, in the function `fn`; returns the type of the value. -/
def ExpNode.calc (T : Typing α τ) (a : α) (fn : Fn) (env : InstEnv τ) :
    ExpNode → Gen τ (FrameTy τ)
  | .null => pure (T.value a .null [])
  | .lit => do
    emit (fn, .op .lit [] none)
    pure (T.value a .lit [])
  | .str r => do
    emit (fn, .op (.str r) [] none)
    pure (T.value a (.str r) [])
  | .varBlock r t next idxs => do
    let ts ← calcExps T a fn env idxs
    let v := env.searchVar t
    emit (fn, .op (.varBlock r t next idxs) ts v)
    pure (T.value a (.varBlock r t next idxs) ((v.map Holding.tp).toList ++ ts))
  | .callFunc generics params fnNode next => do
    let ts ← calcExps T a fn env params
    let f ← callee (fnNode.isGeneric generics) (fnNode.calc T a fn env)
    emit (fn, .op (.callFunc generics params fnNode next) (f ++ ts) none)
    let t ← next.calc T a fn env
    pure (T.value a (.callFunc generics params fnNode next) (t :: (f ++ ts)))
  | .binary k l r => do
    let ts ← k.operands (l.calc T a fn env) (r.calc T a fn env)
    emit (fn, .op (.binary k l r) ts none)
    pure (T.value a (.binary k l r) ts)
  | .unary e => do
    let t ← e.calc T a fn env
    emit (fn, .op (.unary e) [t] none)
    pure (T.value a (.unary e) [t])
  | .takePtr e => do
    let t ← e.calc T a fn env
    emit (fn, .op (.takePtr e) [t] none)
    pure (T.value a (.takePtr e) [t])
  | .takeVal l e => do
    let t ← e.calc T a fn env
    emit (fn, .op (.takeVal l e) [t] none)
    pure (T.value a (.takeVal l e) [t])
  | .arrayInit r es => do
    let ts ← calcExps T a fn env es
    emit (fn, .op (.arrayInit r es) ts none)
    pure (T.value a (.arrayInit r es) ts)
  | .structInit r es => do
    let ts ← calcExps T a fn env es
    emit (fn, .op (.structInit r es) ts none)
    pure (T.value a (.structInit r es) ts)
  | .await r e => do
    let t ← awaitCalc T a fn r e (e.calc T a fn env)
    pure t.1
  | .inlineFunc r params async body => do
    emit (fn, .op (.inlineFunc r params async body) [] none)
    let inner ← newFunc fn
    clearAll (nodesDefs body)
    inlineBody T a inner env r params async body
      (fun ps tpf env' => layoutAll T a ps tpf env' body .start)
      fun f env' => calcAll T a f env' body
    pure (T.value a (.inlineFunc r params async body) [])

def calcExps (T : Typing α τ) (a : α) (fn : Fn) (env : InstEnv τ) :
    List ExpNode → Gen τ (List (FrameTy τ))
  | [] => pure []
  | e :: es => do
    let t ← e.calc T a fn env
    let ts ← calcExps T a fn env es
    pure (t :: ts)

/-- `calc` of a statement, in the function `fn`; returns the scope behind it. -/
def Node.calc (T : Typing α τ) (a : α) (fn : Fn) (env : InstEnv τ) : Node → Gen τ (InstEnv τ)
  | .exp e => do
    let _ ← e.calc T a fn env
    pure env
  | .leaf => pure env
  | .define r x => do
    let o ← visit Place.mark r
    match o with
    | some p => pure (env.addVar x (.slot p))
    | none => do
      emit (fn, .alloc r (.of (T.site a (.define r))))
      pure (env.addVar x (.alloc r (.of (T.site a (.define r)))))
  | .defAndAssign r x e => do
    let o ← visit Place.mark r
    let t ← e.calc T a fn env
    let v ← assignTo T fn r e o t
    pure (env.addVar x v)
  | .ifN c sts => do
    let _ ← calcAll T a fn ([] :: env) sts
    let _ ← c.calc T a fn env
    pure env
  | .ifElse c sts el => do
    let _ ← c.calc T a fn env
    let _ ← calcAll T a fn ([] :: env) sts
    let _ ← el.calc T a fn ([] :: env)
    pure env
  | .forN c d as sts => do
    let env' ← d.calc T a fn env
    let _ ← c.calc T a fn env'
    let _ ← calcAll T a fn ([] :: env') sts
    let _ ← as.calc T a fn ([] :: env')
    let _ ← c.calc T a fn ([] :: env')
    pure ((d.loopVar.map env'.delete).getD env')
  | .ret e => do
    let t ← e.calc T a fn env
    emit (fn, .op e [t] none)
    pure env
  | .yield e => do
    let t ← e.calc T a fn env
    emit (fn, .op e [t] none)
    pure env
  | .sl cs => calcAll T a fn env cs

def calcAll (T : Typing α τ) (a : α) (fn : Fn) (env : InstEnv τ) : List Node → Gen τ (InstEnv τ)
  | [] => pure env
  | n :: ns => do
    let env' ← n.calc T a fn env
    calcAll T a fn env' ns

/-- `trf`, the cases of `buildCtx`'s walk, with what they generate into the throw-away
function `fn`. `ps` are the parameters. -/
def Node.layout (T : Typing α τ) (a : α) (ps : Vars τ) (fn : Fn) (env : InstEnv τ) :
    Node → Build τ → Gen τ (InstEnv τ × Build τ)
  | .ifElse _ sts _, c => do
    let tpf ← newDry fn
    let d ← layoutAll T a ps tpf (ps :: env) sts .start
    pure (env, c.sub c.i d.2)
  | .ifN _ sts, c => do
    let tpf ← newDry fn
    let d ← layoutAll T a ps tpf (ps :: env) sts .start
    pure (env, c.sub c.i d.2)
  | .forN _ _ _ sts, c => do
    let tpf ← newDry fn
    let d ← layoutAll T a ps tpf (ps :: env) sts .start
    pure (env, c.sub c.i d.2)
  | .exp (.inlineFunc _ _ _ body), c => do
    let tpf ← newDry fn
    let d ← layoutAll T a ps tpf (ps :: env.tail) body .start
    pure (env, c.sub 0 d.2)
  | .define r x, c => do
    let tp := .of (T.site a (.define r))
    emit (fn, .alloc r tp)
    pure (env.addVar x (.alloc r tp), c.field tp (some r))
  | .defAndAssign r x (.await w e), c => do
    let o ← visit Place.mark r
    let t ← awaitCalc T a fn w e (e.calc T a fn env)
    let v ← assignTo T fn r (.await w e) o t.1
    pure (env.addVar x v, (c.field v.tp (some r)).field t.2 (some w))
  | .defAndAssign r x e, c => do
    let o ← visit Place.mark r
    let t ← e.calc T a fn env
    let v ← assignTo T fn r e o t
    pure (env.addVar x v, c.field v.tp (some r))
  | .exp (.await r e), c => do
    let t ← awaitCalc T a fn r e (e.calc T a fn env)
    pure (env, c.field t.2 (some r))
  | _, c => pure (env, c)

def layoutAll (T : Typing α τ) (a : α) (ps : Vars τ) (fn : Fn) (env : InstEnv τ) :
    List Node → Build τ → Gen τ (InstEnv τ × Build τ)
  | [], c => pure (env, c)
  | n :: ns, c => do
    let d ← n.layout T a ps fn env c
    layoutAll T a ps fn d.1 ns d.2
end

/-! ## A generic function and its instances -/

mutual
/-- The function literals that stand as statements. -/
def ExpNode.bareFns : ExpNode → List Ref
  | .null | .lit | .str _ => []
  | .varBlock _ _ _ es | .arrayInit _ es | .structInit _ es => expsBareFns es
  | .callFunc _ params fnNode next => fnNode.bareFns ++ expsBareFns params ++ next.bareFns
  | .binary _ l r => l.bareFns ++ r.bareFns
  | .unary e | .takePtr e | .takeVal _ e | .await _ e => e.bareFns
  | .inlineFunc _ _ _ body => nodesBareFns body

def expsBareFns : List ExpNode → List Ref
  | [] => []
  | e :: es => e.bareFns ++ expsBareFns es

def Node.bareFns : Node → List Ref
  | .exp (.inlineFunc r _ _ body) => r :: nodesBareFns body
  | .exp e | .ret e | .yield e | .defAndAssign _ _ e => e.bareFns
  | .leaf | .define _ _ => []
  | .ifN c sts => c.bareFns ++ nodesBareFns sts
  | .ifElse c sts el => c.bareFns ++ nodesBareFns sts ++ el.bareFns
  | .forN c d a sts => d.bareFns ++ c.bareFns ++ a.bareFns ++ nodesBareFns sts
  | .sl cs => nodesBareFns cs

def nodesBareFns : List Node → List Ref
  | [] => []
  | n :: ns => n.bareFns ++ nodesBareFns ns
end

/-- A `FuncNode` with `Generics` that is async or has a `yield`. -/
structure FuncNode where
  params : List Ident
  body : Body
  /-- `Parser.statement` reads an expression as a statement only if it is a call or stands
  behind `await`. -/
  parsed : nodesBareFns body.statements = []

variable (T : Typing α τ) (f : FuncNode) (a b : α)

/-- The function that `addGeneric` registers, for the type arguments `a`; `i` names the
instance. -/
def FuncNode.instantiate (i : Nat) : Gen τ Unit := do
  let fn ← newFunc ⟨i, 0, false⟩
  let ps := f.params.map fun x => (x, T.site a (.param x))
  generator fn ps (T.site a .ret) []
    (fun tpf env => (·.2) <$> layoutAll T a (paramVars ps) tpf env f.body.statements .start)
    (fun stepNext env => calcAll T a stepNext env f.body.statements)

/-- What is left of an instance: the code of functions that are not thrown away, the
layout of the frames included. -/
def real (log : List (Fn × Instr τ)) : List (Fn × Instr τ) := log.filter fun w => !w.1.dry

/-- The code that the instance for `b` generates if it is the first. -/
def FuncNode.codeAlone : List (Fn × Instr τ) := real (f.instantiate T b 1 empty).2.log

/-- The code that the instance for `b` generates behind that for `a`. -/
def FuncNode.codeAfter : List (Fn × Instr τ) :=
  let s := (f.instantiate T a 0 empty).2
  real ((f.instantiate T b 1 s.renumbered).2.log.drop s.log.length)

/-- The instance for `b` does not depend on that for `a`, and leaves it as it is. -/
structure FuncNode.Independent : Prop where
  same : f.codeAfter T a b = f.codeAlone T b
  apart : ∀ w ∈ f.codeAfter T a b, w.1.inst ≠ 0

end CalcLang.Ast
