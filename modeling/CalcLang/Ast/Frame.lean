import CalcLang.Ast.Node

/-!
# The frame of a generator

A generator, or an async function, keeps its variables across a suspension in a
heap-allocated struct. `buildCtx` of `compiler/ast/generator.go` walks the body
and lays the struct out: each definition and each awaited task that it meets
gets a field, each nested block a field that is a struct again, and a tree of
`ctx` beside the types remembers who got which. `buildGenaratorCtx` of
`compiler/ast/function.go` appends the parameters, the resume address and the
result, and `ctx.setVals` hands every node the path of its field. A node without
one allocates on the native stack.

The type that code generation gives a definition or an awaited task is a
parameter, `tp`: `TP.calc` for a `DefineNode`, the element type of what
`DefAndAssignNode.calc` allocates, `generator` for an `AwaitNode`.

`Framed` says what the frame is for: a field for every definition and every
await of the body, each of the right type, no two of which overlap and none of
which lies in a field with another purpose.
-/

namespace CalcLang.Ast

variable {τ : Type}

/-! ## Laying out the struct -/

/-- The types of the fields. -/
inductive FrameTy (τ : Type)
  | int
  | mutexPtr
  | i1
  | i8Ptr
  | of (t : τ)
  | struct (fields : List (FrameTy τ))

/-- `ctx`: a field of the frame, with the node it is for, or a field that is the
frame of a nested block. `id` is the index that `setVals` takes it at. -/
inductive Ctx
  | field (id : Nat) (node : Option Ref)
  | sub (id : Nat) (idxmap : List Ctx)

/-- The variables of one call of `buildCtx`: the types of the fields so far, and
`idxmap` and `i` of the `ctx`. -/
structure Build (τ : Type) where
  tps : List (FrameTy τ)
  idxmap : List Ctx
  i : Nat

/-- Append a field. -/
def Build.field (c : Build τ) (tp : FrameTy τ) (node : Option Ref) : Build τ :=
  ⟨c.tps ++ [tp], c.idxmap ++ [.field c.i node], c.i + 1⟩

/-- Append the frame of a nested block, under the index `id`. -/
def Build.sub (c : Build τ) (id : Nat) (inner : Build τ) : Build τ :=
  ⟨c.tps ++ [.struct inner.tps], c.idxmap ++ [.sub id inner.idxmap], c.i + 1⟩

/-- What every frame starts with: the next task, the mutex and whether it is
done. -/
def Build.start : Build τ :=
  ((Build.field ⟨[], [], 0⟩ .int none).field .mutexPtr none).field .i1 none

mutual
/-- `trf`, the cases of `buildCtx`'s walk. -/
def Node.trf (tp : Ref → τ) : Node → Build τ → Build τ
  | .ifElse _ sts _, c | .ifN _ sts, c | .forN _ _ _ sts, c => c.sub c.i (trfs tp sts .start)
  -- the source sets `ct.i` here where the other cases set `ct.id`, which stays 0
  | .exp (.inlineFunc _ _ _ body), c => c.sub 0 (trfs tp body .start)
  | .define r _, c => c.field (.of (tp r)) (some r)
  | .defAndAssign r _ (.await a _), c =>
    (c.field (.of (tp r)) (some r)).field (.of (tp a)) (some a)
  | .defAndAssign r _ _, c => c.field (.of (tp r)) (some r)
  | .exp (.await a _), c => c.field (.of (tp a)) (some a)
  | _, c => c

def trfs (tp : Ref → τ) : List Node → Build τ → Build τ
  | [], c => c
  | n :: ns, c => trfs tp ns (n.trf tp c)
end

/-- `buildCtx`. -/
def buildCtx (tp : Ref → τ) (sl : List Node) : Build τ := trfs tp sl .start

/-- What `buildGenaratorCtx` returns: the fields of the struct type, the index of
each parameter, of the block address, and the `ctx`. -/
structure GeneratorCtx (τ : Type) where
  rtp : List (FrameTy τ)
  idxmap : List Nat
  blockAddrId : Nat
  context : List Ctx

/-- `buildGenaratorCtx`, for parameters of the types `ps` and a result of type
`inner`. -/
def buildGenaratorCtx (tp : Ref → τ) (st : List Node) (ps : List τ) (inner : τ) :
    GeneratorCtx τ :=
  let c := ps.foldl (fun c p => c.field (.of p) none) (buildCtx tp st)
  { rtp := c.tps ++ [.i8Ptr, .of inner]
    idxmap := List.range' (buildCtx tp st).i ps.length
    blockAddrId := c.i
    context := c.idxmap }

mutual
/-- `ctx.setVals`: the calls of `setVal`, in order. `path` is the chain of
`getelementptr` indices that leads to the frame the `ctx` is of. -/
def Ctx.setVals (path : List Nat) : Ctx → List (Ref × List Nat)
  | .field id (some r) => [(r, path ++ [id])]
  | .field _ none => []
  | .sub id idxmap => setValsAll (path ++ [id]) idxmap

def setValsAll (path : List Nat) : List Ctx → List (Ref × List Nat)
  | [] => []
  | v :: vs => v.setVals path ++ setValsAll path vs
end

/-- Where a node's storage is once `setVals` has run: a later `setVal` replaces
an earlier one. -/
def GeneratorCtx.slot (g : GeneratorCtx τ) (r : Ref) : Option (List Nat) :=
  (setValsAll [] g.context).reverse.lookup r

/-- The type of the field that a path leads to. -/
def fieldAt (tps : List (FrameTy τ)) : List Nat → Option (FrameTy τ)
  | [] => none
  | [k] => tps[k]?
  | k :: ks =>
    match tps[k]? with
    | some (.struct fields) => fieldAt fields ks
    | _ => none

/-- The fields with a purpose of their own: next task, mutex, done, parameters,
block address, result. -/
def GeneratorCtx.reserved (g : GeneratorCtx τ) : List Nat :=
  [0, 1, 2] ++ g.idxmap ++ [g.blockAddrId, g.blockAddrId + 1]

/-! ## What a frame is for -/

mutual
/-- The awaits in an expression, outside inner functions. -/
def ExpNode.awaits : ExpNode → List Ref
  | .null | .lit | .str _ | .inlineFunc _ _ _ _ => []
  | .varBlock _ _ _ es | .arrayInit _ es | .structInit _ es => expsAwaits es
  | .callFunc _ params fnNode next => fnNode.awaits ++ expsAwaits params ++ next.awaits
  | .binary _ l r => l.awaits ++ r.awaits
  | .unary e | .takePtr e | .takeVal _ e => e.awaits
  | .await r e => r :: e.awaits

def expsAwaits : List ExpNode → List Ref
  | [] => []
  | e :: es => e.awaits ++ expsAwaits es
end

mutual
/-- The definitions and awaits in a statement, outside inner functions. -/
def Node.vals : Node → List Ref
  | .exp e | .ret e | .yield e => e.awaits
  | .leaf => []
  | .define r _ => [r]
  | .defAndAssign r _ e => r :: e.awaits
  | .ifN c sts => c.awaits ++ nodesVals sts
  | .ifElse c sts el => c.awaits ++ nodesVals sts ++ el.vals
  | .forN c d a sts => d.vals ++ c.awaits ++ a.awaits ++ nodesVals sts
  | .sl cs => nodesVals cs

def nodesVals : List Node → List Ref
  | [] => []
  | n :: ns => n.vals ++ nodesVals ns
end

/-- The frame of a body is complete and its slots lie apart. -/
structure Framed (tp : Ref → τ) (b : Body) (ps : List τ) (inner : τ) : Prop where
  /-- Every definition and every await has a slot. -/
  slot : ∀ r ∈ nodesVals b.statements,
    ∃ p, (buildGenaratorCtx tp b.statements ps inner).slot r = some p
  /-- Different nodes have slots of which neither lies in the other. -/
  apart : ∀ r ∈ nodesVals b.statements, ∀ r' ∈ nodesVals b.statements, r ≠ r' → ∀ p p',
    (buildGenaratorCtx tp b.statements ps inner).slot r = some p →
    (buildGenaratorCtx tp b.statements ps inner).slot r' = some p' → ¬ p <+: p'
  /-- A slot has the type of what it is for. -/
  typed : ∀ r ∈ nodesVals b.statements, ∀ p,
    (buildGenaratorCtx tp b.statements ps inner).slot r = some p →
    fieldAt (buildGenaratorCtx tp b.statements ps inner).rtp p = some (.of (tp r))
  /-- No slot lies in a field with another purpose. -/
  free : ∀ r ∈ nodesVals b.statements, ∀ p,
    (buildGenaratorCtx tp b.statements ps inner).slot r = some p →
    ∀ k ∈ (buildGenaratorCtx tp b.statements ps inner).reserved, ¬ [k] <+: p

/-! ## Where the walk looks -/

/-- The awaits in an expression, apart from itself. -/
def ExpNode.innerAwaits : ExpNode → List Ref
  | .await _ e => e.awaits
  | e => e.awaits

mutual
/-- Everything in the statement that needs a slot stands where `buildCtx` looks: no
definition and no await behind an `else` or in the initialiser of a `for`, and
an await only as a statement of its own or as the whole initialiser of a `:=`. -/
def Node.Covered : Node → Prop
  | .exp e | .defAndAssign _ _ e => e.innerAwaits = []
  | .leaf | .define _ _ => True
  | .ifN c sts => c.awaits = [] ∧ CoveredAll sts
  | .ifElse c sts el => c.awaits = [] ∧ CoveredAll sts ∧ el.vals = []
  | .forN c d a sts => d.vals = [] ∧ c.awaits = [] ∧ a.awaits = [] ∧ CoveredAll sts
  | .ret e | .yield e => e.awaits = []
  | .sl cs => nodesVals cs = []

def CoveredAll : List Node → Prop
  | [] => True
  | n :: ns => n.Covered ∧ CoveredAll ns
end

end CalcLang.Ast
