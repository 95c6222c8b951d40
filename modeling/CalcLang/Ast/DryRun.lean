import CalcLang.Lib.Guarded
import Mathlib.Logic.Function.Basic

/-!
# The tables that code generation works on, and the dry run

`buildCtx` of `compiler/ast/generator.go` lays out the frame of a generator: it compiles
the variables' initialisers once into a module that it throws away, only to see their
types. What it compiles them with is the whole code generator, so this module follows the
tables through it: the variable tables (`vartable`), the type tables (`types`) and the
bindings of type parameters (`genericMap`) of all scopes, and which module a named type
was defined in.

For the tables a type node is what `TypeNode.calc` (`compiler/ast/types.go`) makes of it,
and any other piece of syntax is the list of the table operations that its `calc` performs
(`Work`): the types it evaluates, the functions it names or instantiates, the variables it
adds and the scopes it opens. Which generic arguments the values of a call carry
(`paramGenerics`), and which bindings the interface of a generator recorded, is data of the
`Work`, as these come with the values and not from the tables.

Scopes are references: the global scope of a package, which is the one `ScopeMap` has, or
a local scope, numbered in the order of creation. Recursion is bounded by fuel; a panic and
the end of the fuel are `none`.
-/

namespace CalcLang.Ast.DryRun

open CalcLang.Lib

variable {π ν : Type} [DecidableEq π] [DecidableEq ν]

/-! ## Types -/

/-- A piece of a type's spelling; `named` is `%"pkg.id`. -/
inductive Tok (π ν : Type) where
  | prim (x : ν)
  | named (pkg : π) (id : ν)
  | lt
  | comma
  | gt
  | star
  | array (len : Nat)
  | func (args : Nat)
  | brace
  | close
deriving DecidableEq

/-- A type, by its `String()`. -/
abbrev Ty (π ν : Type) := List (Tok π ν)

/-- `id<t1,t2,>`, the full name of an instance. -/
def sig (pkg : π) (id : ν) (gens : List (Ty π ν)) : Ty π ν :=
  .named pkg id :: .lt :: (gens.flatMap (· ++ [.comma]) ++ [.gt])

/-- A type node. `custom` is a `BasicTypeNode` with one name, `imported` one with a
package in front; `Pkg` is the package it was written in. -/
inductive TypeNode (π ν : Type) where
  | prim (x : ν)
  | custom (Pkg : π) (tpname : ν) (Generics : List (TypeNode π ν))
  | imported (Pkg mod : π) (tpname : ν) (Generics : List (TypeNode π ν))
  | ptr (t : TypeNode π ν)
  | array (len : Nat) (ElmType : TypeNode π ν)
  | func (args : List (TypeNode π ν)) (ret : TypeNode π ν)
  | struct (fields : List (TypeNode π ν))
  | interf
  | calced (tp : Ty π ν)

/-! ## Syntax, as the tables see it -/

mutual

/-- What the `calc` of a statement or an expression does with the tables. -/
inductive Work (π ν : Type) where
  | type (t : TypeNode π ν)
  | ident (pkg : Option π) (id : ν)
  | call (pkg : π) (fn : ν) (gens : List (TypeNode π ν)) (paramGenerics : List (List (Ty π ν)))
  | method (pkg : π) (fn : ν) (gens : List (TypeNode π ν)) (paramGenerics : List (List (Ty π ν)))
  | alloc (gtp : TypeNode π ν)
  | var (id : ν)
  | block (ws : List (Work π ν))
  | generator (sl : List (Child π ν)) (ps : List ν) (inner : TypeNode π ν) (async : Bool)
      (genericMaps : ν → Option (Ty π ν)) (getters : List (TypeNode π ν)) (body : List (Work π ν))
      (getCurrent : TypeNode π ν)

/-- A statement of a generator, as `buildCtx` sees it: an `if`, `if`/`else` or `for` by the
statements it looks into, an inline function by its body. -/
inductive Child (π ν : Type) where
  | nested (sl : List (Child π ν))
  | inline (sl : List (Child π ν))
  | define (id : ν) (TP : TypeNode π ν)
  | defAndAssign (id : ν) (val : List (Work π ν))
  | await (exp : List (Work π ν))

end

/-! ## Scopes and tables -/

/-- A reference to a scope. -/
inductive Ref (π : Type) where
  | global (pkg : π)
  | loc (n : Nat)
deriving DecidableEq

/-- The module of the program, or one that `buildCtx` throws away. -/
inductive Mod where
  | real
  | thrown
deriving DecidableEq

/-- What never changes in a scope: `Pkgname`, which says the global scope too, the chain
of its parents, and `m`. -/
structure Scope (π : Type) where
  pkg : π
  parents : List (Ref π)
  m : Mod

/-- The tables of all scopes, and the named types that each module defines. -/
structure Tables (π ν : Type) where
  locals : List (Scope π)
  vartable : Ref π → Ty π ν → Bool
  types : Ref π → Ty π ν → Bool
  genericMap : Ref π → ν → Option (Ty π ν)
  paramGenerics : Ref π → List (List (Ty π ν))
  currParam : Ref π → Nat
  typeDefs : Mod → List (Ty π ν)

def Tables.scope (t : Tables π ν) : Ref π → Option (Scope π)
  | .global p => some ⟨p, [], .real⟩
  | .loc n => t.locals[n]?

/-- `getGenericType`: the first scope of the chain that binds the name. -/
def Tables.getGenericType (t : Tables π ν) (chain : List (Ref π)) (id : ν) : Option (Ty π ν) :=
  chain.findSome? fun r => t.genericMap r id

/-- A generic struct, `genericStructs[id]`: its parameters and its definition. -/
structure GenericStruct (π ν : Type) where
  generics : List ν
  tp : TypeNode π ν

/-- A generic function, `genericFuncs[id]`. -/
structure GenericFunc (π ν : Type) where
  generics : List ν
  params : List (TypeNode π ν)
  ret : TypeNode π ν
  body : List (Work π ν)

/-- What parsing left: the generic definitions of each package, where slices and
`heapalloc` live, and the last part of a package's path. -/
structure Env (π ν : Type) where
  genericStructs : π → ν → Option (GenericStruct π ν)
  genericFuncs : π → ν → Option (GenericFunc π ν)
  slice : π
  Slice : ν
  runtime : π
  heapalloc : ν
  lastPart : π → ν

/-! ## Operations on the tables -/

/-- A part of the code generator; `none` is a panic. -/
abbrev Gen (π ν α : Type) := StateT (Tables π ν) Option α

def scopeOf (s : Ref π) : Gen π ν (Scope π) := reads fun t => t.scope s

/-- `s.genericMap[k] = tp`. -/
def bind (s : Ref π) (k : ν) (tp : Ty π ν) : Gen π ν Unit := writes fun t =>
  { t with
    genericMap := Function.update t.genericMap s (Function.update (t.genericMap s) k (some tp)) }

/-- `s.genericMap = b`. -/
def setMap (s : Ref π) (b : ν → Option (Ty π ν)) : Gen π ν Unit := writes fun t =>
  { t with genericMap := Function.update t.genericMap s b }

/-- `for k, v := range src.genericMap { dst.genericMap[k] = v }`. -/
def copyMap (src dst : Ref π) : Gen π ν Unit := writes fun t =>
  { t with
    genericMap := Function.update t.genericMap dst fun k =>
      (t.genericMap src k).or (t.genericMap dst k) }

def setParamGenerics (s : Ref π) (gs : List (List (Ty π ν))) : Gen π ν Unit := writes fun t =>
  { t with paramGenerics := Function.update t.paramGenerics s gs }

def setCurrParam (s : Ref π) (i : Nat) : Gen π ν Unit := writes fun t =>
  { t with currParam := Function.update t.currParam s i }

/-- `Scope.addVar`. -/
def addVar (s : Ref π) (id : Ty π ν) : Gen π ν Unit := writes fun t =>
  { t with vartable := Function.update t.vartable s (Function.update (t.vartable s) id true) }

/-- `Scope.addStruct`, and `s.types[id] = …`: nothing there is replaced by anything else. -/
def addStruct (s : Ref π) (id : Ty π ν) : Gen π ν Unit := writes fun t =>
  { t with types := Function.update t.types s (Function.update (t.types s) id true) }

/-- The variable tables with those of `ScopeMap` put back. -/
def putBack (mvart vartable : Ref π → Ty π ν → Bool) : Ref π → Ty π ν → Bool
  | .global p => mvart (.global p)
  | .loc i => vartable (.loc i)

/-- `m.NewTypeDef`. -/
def newTypeDef (m : Mod) (id : Ty π ν) : Gen π ν Unit := writes fun t =>
  { t with typeDefs := Function.update t.typeDefs m (t.typeDefs m ++ [id]) }

/-- A new scope with the given fields. -/
def newScope (sc : Scope π) : Gen π ν (Ref π) := fun t =>
  some (.loc t.locals.length,
    { t with
      locals := t.locals ++ [sc]
      vartable := Function.update t.vartable (.loc t.locals.length) fun _ => false
      types := Function.update t.types (.loc t.locals.length) fun _ => false
      genericMap := Function.update t.genericMap (.loc t.locals.length) fun _ => none
      paramGenerics := Function.update t.paramGenerics (.loc t.locals.length) []
      currParam := Function.update t.currParam (.loc t.locals.length) 0 })

/-- `Scope.addChildScope`. -/
def addChildScope (s : Ref π) : Gen π ν (Ref π) := do
  let sc ← scopeOf s
  newScope { sc with parents := s :: sc.parents }

/-! ## Types -/

section Calc

variable (E : Env π ν) (add : Ref π → Ty π ν → Gen π ν Unit)

/-- `v.(*BasicTypeNode).CustomTp[0]`, its last part; the outer `none` is a failed type
assertion. -/
def customName : TypeNode π ν → Option (Option ν)
  | .prim _ => some none
  | .custom _ x _ => some (some x)
  | .imported _ mod _ _ => some (some (E.lastPart mod))
  | .ptr t => customName t
  | _ => none

/-- The parameters that a type node's arguments are, with the arguments' own. -/
def inferred : List (TypeNode π ν) → List (Ty π ν) → Option (List (ν × Ty π ν))
  | v :: vs, g :: gs =>
    (customName E v).bind fun k => k.elim (some []) fun k =>
      (inferred vs gs).map fun rest => (k, g) :: rest
  | _, _ => some []

/-- The part of `getTp` that binds parameters to what the value passed for the current
parameter carries. -/
def inferGenerics (oris : Ref π) (generics : List (TypeNode π ν)) : Gen π ν Unit := do
  let ks ← reads fun t => inferred E generics (((t.paramGenerics oris)[t.currParam oris]?).getD [])
  let _ ← ks.mapM fun b => bind oris b.1 b.2
  pure ()

/-- `for i, v := range gens { genericMap[generics[i]] = v.calc(s) }` of a struct. -/
def bindEach (f : TypeNode π ν → Gen π ν (Ty π ν)) (s : Ref π) :
    List ν → List (TypeNode π ν) → Gen π ν (List (Ty π ν))
  | _, [] => pure []
  | [], _ :: _ => fun _ => none
  | k :: ks, v :: vs => do
    let tp ← f v
    bind s k tp
    let tps ← bindEach f s ks vs
    pure (tp :: tps)

/-- `for i, v := range n.Generics { … s.genericMap[v] = tp }` of a function, where the
arguments left out are those bound already. -/
def bindGenerics (f : TypeNode π ν → Gen π ν (Ty π ν)) (s : Ref π) :
    List ν → List (TypeNode π ν) → Gen π ν (List (Ty π ν))
  | [], _ => pure []
  | k :: ks, [] => do
    let tp ← reads fun t => t.genericMap s k
    bind s k tp
    let tps ← bindGenerics f s ks []
    pure (tp :: tps)
  | k :: ks, v :: vs => do
    let tp ← f v
    bind s k tp
    let tps ← bindGenerics f s ks vs
    pure (tp :: tps)

/-- `defparams`. -/
def defparams (f : TypeNode π ν → Gen π ν (Ty π ν)) (s : Ref π) (params : List (TypeNode π ν)) :
    Gen π ν Unit := do
  setCurrParam s 0
  let _ ← params.mapM fun p => do
    let _ ← f p
    let i ← reads fun t => some (t.currParam s)
    setCurrParam s (i + 1)
  setParamGenerics s []

/-- What a name without arguments stands for: a type of the package, a bound parameter, or
a type not known yet. -/
def Tables.getTp (t : Tables π ν) (sc : Scope π) (s : Ref π) (Pkg : π) (tpname : ν) : Ty π ν :=
  if t.types (.global sc.pkg) [.named sc.pkg tpname] then [.named sc.pkg tpname]
  else (t.getGenericType (s :: sc.parents) tpname).getD [.named Pkg tpname]

mutual

/-- `TypeNode.calc`. -/
def TypeNode.calc : Nat → TypeNode π ν → Ref π → Gen π ν (Ty π ν)
  | 0, _, _ => fun _ => none
  | _ + 1, .prim x, _ => pure [.prim x]
  | _ + 1, .calced tp, _ => pure tp
  | _ + 1, .interf, _ => pure [.brace, .close]
  | n + 1, .ptr t, s => do
    let tp ← TypeNode.calc n t s
    pure (tp ++ [.star])
  | n + 1, .array len elm, s => do
    let elm ← TypeNode.calc n elm s
    if 0 < len then pure (.array len :: elm)
    else do
      let sc ← scopeOf s
      let tp ← deffunc n E.Slice sc.m (.global E.slice) [.calced elm]
      pure (tp ++ [.star])
  | n + 1, .func args ret, s => do
    let ret ← TypeNode.calc n ret s
    let args ← args.mapM fun t => TypeNode.calc n t s
    pure (.func args.length :: (ret ++ args.flatten ++ [.star]))
  | n + 1, .struct fields, s => do
    let fields ← fields.mapM fun t => TypeNode.calc n t s
    let tp := .brace :: (fields.flatMap (· ++ [.comma]) ++ [.close])
    add s tp
    pure tp
  | n + 1, .custom pkg tpname generics, oris => do
    let own ← scopeOf oris
    let s := if own.pkg = pkg then oris else .global pkg
    copyMap oris s
    getTp n pkg tpname generics oris s
  | n + 1, .imported pkg mod tpname generics, oris => getTp n pkg tpname generics oris (.global mod)

/-- `getTp` of `BasicTypeNode.calc`, where `oris` is the scope that the node is evaluated
in and `s` the one that its name is looked up in. -/
def getTp : Nat → π → ν → List (TypeNode π ν) → Ref π → Ref π → Gen π ν (Ty π ν)
  | 0, _, _, _, _, _ => fun _ => none
  | n + 1, pkg, tpname, generics, oris, s => do
    let sc ← scopeOf s
    if generics.isEmpty then reads fun t => some (t.getTp sc s pkg tpname)
    else do
      inferGenerics E oris generics
      deffunc n tpname sc.m s generics

/-- `deffunc` of `NewTypeDef`: an instance of the generic struct `id` of the package of
`s`, defined in module `m` if it is new. -/
def deffunc : Nat → ν → Mod → Ref π → List (TypeNode π ν) → Gen π ν (Ty π ν)
  | 0, _, _, _, _ => fun _ => none
  | n + 1, id, m, s, gens => do
    let sc ← scopeOf s
    let d ← reads fun _ => E.genericStructs sc.pkg id
    let tps ← bindEach (fun t => TypeNode.calc n t s) s d.generics gens
    let tp := sig sc.pkg id tps
    let there ← reads fun t => some (t.types (.global sc.pkg) tp)
    if there then pure tp
    else do
      add (.global sc.pkg) tp
      let _ ← TypeNode.calc n d.tp s
      newTypeDef m tp
      pure tp

end

/-! ## Functions, statements and expressions -/

mutual

/-- The function that `AddtoScope` registers for a generic function: an instance of `fn`
of the package of `s`, compiled in `s` unless it is there. -/
def genericFunc : Nat → ν → Ref π → List (TypeNode π ν) → Gen π ν Unit
  | 0, _, _, _ => fun _ => none
  | n + 1, fn, s, gens => do
    let sc ← scopeOf s
    let d ← reads fun _ => E.genericFuncs sc.pkg fn
    let old ← reads fun t => some (t.genericMap s)
    let ev := fun t => TypeNode.calc E add n t s
    (if gens.isEmpty then defparams ev s d.params else setMap s fun _ => none)
    let tps ← bindGenerics ev s d.generics gens
    let gen1 ← reads fun t => some (t.genericMap s)
    (if gens.isEmpty then pure () else defparams ev s d.params)
    let there ← reads fun t => some (t.vartable (.global sc.pkg) (sig sc.pkg fn tps))
    (if there then pure ()
    else do
      let _ ← ev d.ret
      addVar (.global sc.pkg) (sig sc.pkg fn tps)
      let child ← addChildScope s
      setMap child gen1
      let _ ← d.body.mapM fun w => Work.calc n w child
      pure ())
    if gens.isEmpty then pure () else setMap s old

/-- `Scope.searchVar`: a name that is no variable may be a generic function. -/
def searchVar : Nat → ν → Ref π → Gen π ν Unit
  | 0, _, _ => fun _ => none
  | n + 1, id, s => do
    let sc ← scopeOf s
    let there ← reads fun t =>
      some ((s :: sc.parents).any fun r => t.vartable r [.named sc.pkg id])
    if there then pure () else genericFunc n id s []

/-- `calc`, as far as the tables go. -/
def Work.calc : Nat → Work π ν → Ref π → Gen π ν Unit
  | 0, _, _ => fun _ => none
  | n + 1, .type t, s => do
    let _ ← TypeNode.calc E add n t s
    pure ()
  | n + 1, .ident pkg id, s => searchVar n id (pkg.elim s .global)
  | n + 1, .call pkg fn gens paramGenerics, s => do
    setParamGenerics (.global pkg) paramGenerics
    let tps ← gens.mapM fun t => TypeNode.calc E add n t s
    genericFunc n fn (.global pkg) (tps.map .calced)
  | n + 1, .method pkg fn gens paramGenerics, s => do
    copyMap s (.global pkg)
    setParamGenerics (.global pkg) paramGenerics
    if gens.isEmpty then searchVar n fn (.global pkg)
    else do
      let tps ← gens.mapM fun t => TypeNode.calc E add n t s
      genericFunc n fn (.global pkg) (tps.map .calced)
  | n + 1, .alloc gtp, s => do
    let sc ← scopeOf s
    let pkg := if (E.genericFuncs sc.pkg E.heapalloc).isSome then sc.pkg else E.runtime
    genericFunc n E.heapalloc (.global pkg) [gtp]
  | _ + 1, .var id, s => do
    let sc ← scopeOf s
    addVar s [.named sc.pkg id]
  | n + 1, .block ws, s => do
    let child ← addChildScope s
    let _ ← ws.mapM fun w => Work.calc n w child
    pure ()
  | n + 1, .generator sl ps inner async genericMaps getters body getCurrent, s => do
    -- `s` is the scope of the function, `around` the one it is compiled in
    let sc ← scopeOf s
    let around ← reads fun _ => sc.parents.head?
    buildCtx n sl s ps
    let _ ← TypeNode.calc E add n inner around
    (if async then setMap around genericMaps else pure ())
    let _ ← getters.mapM fun t => TypeNode.calc E add n t around
    let child ← addChildScope around
    let _ ← body.mapM fun w => Work.calc n w child
    setMap around genericMaps
    let _ ← TypeNode.calc E add n getCurrent around
    pure ()

/-- `buildCtx`: all variable tables of `ScopeMap` are put back at the end. -/
def buildCtx : Nat → List (Child π ν) → Ref π → List ν → Gen π ν Unit
  | 0, _, _, _ => fun _ => none
  | n + 1, sl, s, ps => do
    let mvart ← reads fun t => some t.vartable
    let sc ← scopeOf s
    let tpsc ← newScope { sc with m := .thrown }
    writes fun t =>
      { t with vartable := Function.update t.vartable tpsc (t.vartable (.global sc.pkg)) }
    let _ ← ps.mapM fun v => addVar tpsc [.named sc.pkg v]
    let _ ← sl.mapM fun c => Child.calc n c s tpsc ps
    writes fun t => { t with vartable := putBack mvart t.vartable }

/-- `trf` of `buildCtx`. -/
def Child.calc : Nat → Child π ν → Ref π → Ref π → List ν → Gen π ν Unit
  | 0, _, _, _, _ => fun _ => none
  | n + 1, .nested sl, _, tpsc, ps => do
    let child ← addChildScope tpsc
    buildCtx n sl child ps
  | n + 1, .inline sl, _, tpsc, ps => buildCtx n sl tpsc ps
  | n + 1, .define id TP, s, tpsc, _ => do
    let _ ← TypeNode.calc E add n TP s
    let sc ← scopeOf tpsc
    addVar tpsc [.named sc.pkg id]
  | n + 1, .defAndAssign id val, _, tpsc, _ => do
    let _ ← val.mapM fun w => Work.calc n w tpsc
    let sc ← scopeOf tpsc
    addVar tpsc [.named sc.pkg id]
  | n + 1, .await exp, _, tpsc, _ => do
    let _ ← exp.mapM fun w => Work.calc n w tpsc
    pure ()

end

end Calc

/-! ## Leaving no trace -/

/-- The scope is one of those that `t` has. -/
def Tables.Has (t : Tables π ν) : Ref π → Prop
  | .global _ => True
  | .loc n => n < t.locals.length

/-- Every named type that a package's table holds is defined in the real module. -/
def Tables.Defined (t : Tables π ν) : Prop :=
  ∀ p id rest, t.types (.global p) (.named p id :: rest) = true →
    .named p id :: rest ∈ t.typeDefs .real

/-- The tables of every scope that was there are as they were, so that the real module
still defines what they name. -/
structure Untouched (t t' : Tables π ν) : Prop where
  vartable : ∀ r, t.Has r → t'.vartable r = t.vartable r
  types : ∀ r, t.Has r → t'.types r = t.types r
  genericMap : ∀ r, t.Has r → t'.genericMap r = t.genericMap r
  defined : t.Defined → t'.Defined

end CalcLang.Ast.DryRun
