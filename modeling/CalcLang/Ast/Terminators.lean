import CalcLang.Ast.Control

/-!
# Terminators

The control flow of `CalcLang.Ast.Control` again, for functions, generators and async functions
alike, as far as terminators go: which block gets which terminator, and in what order. A
statement that only appends instructions does nothing here, unless there is an `await` in it.
`AwaitNode.calc` and `YieldNode.calc` return from the block they stand in and make the block that
the function goes on in, so that a condition or a step may move the block of its scope as well.

`NewBr`, `NewCondBr` and `NewRet` replace the terminator that a block has. `emitsSL` collects what
the jumps that stand last in their block emit, and `Kept` says that these are the terminators in
the end. Branches are compared as they are: a `continue` that is replaced by the same branch is
not lost.
-/

namespace CalcLang.Ast

variable {α : Type}

/-- An expression: its value, and for each `await` in it the value of `IsDone`. -/
structure AExp (α : Type) where
  val : α
  awaits : List α

/-- A statement. -/
inductive Cmd (α : Type) where
  | exp (e : AExp α)
  | yieldN (e : Option (AExp α))
  | ifN (boolExp : AExp α) (statements : List (Cmd α))
  | ifElse (boolExp : AExp α) (statements elSt : List (Cmd α))
  | forN (defineAssign bool assign : Option (AExp α)) (statements : List (Cmd α))
  | breakN
  | continueN
  | retN (e : Option (AExp α))

/-- A block's terminator. -/
inductive Exit (α : Type) where
  | br (b : Nat)
  | condBr (c : α) (t f : Nat)
  | ret (v : Option α)
  deriving DecidableEq, Repr

/-- The blocks of an `ir.Func`, named by the order of their creation. -/
structure Blocks (α : Type) where
  size : Nat
  term : Nat → Option (Exit α)

namespace Blocks

/-- `f.NewBlock`. -/
def newBlock (g : Blocks α) : Blocks α := ⟨g.size + 1, Function.update g.term g.size none⟩

/-- `b.NewBr`, `b.NewCondBr`, `b.NewRet`: set or replace the terminator. -/
def setTerm (g : Blocks α) (b : Nat) (t : Exit α) : Blocks α :=
  { g with term := Function.update g.term b (some t) }

/-- `if b.Term == nil { b.NewBr(e) }`. -/
def closeTo (g : Blocks α) (b e : Nat) : Blocks α :=
  if (g.term b).isNone then g.setTerm b (.br e) else g

/-- `if s.parent.block != nil { e.NewBr(s.parent.block) }`. -/
def toParent (g : Blocks α) (e : Nat) : Option Nat → Blocks α
  | some p => g.setTerm e (.br p)
  | none => g

/-- The terminator of a loop's condition, or of a loop without one. -/
def branch (g : Blocks α) (b : Nat) (c : Option (AExp α)) (yes no : Nat) : Blocks α :=
  match c with
  | some c => g.setTerm b (.condBr c.val yes no)
  | none => g.setTerm b (.br yes)

end Blocks

/-- The kinds of functions. A generator and an async function have their body in `StepNext`. -/
inductive Kind where
  | func | generator | async
  deriving DecidableEq, Repr

/-- What `calc` knows of the function: its kind, the values `constant.False` and `constant.True`,
and the blocks that `continue` and `break` go to at its start. An inline function has those of the
loop it stands in, which are blocks of another function. -/
structure FnEnv (α : Type) where
  kind : Kind
  no : α
  yes : α
  loop : Option (Nat × Nat)

section Generator

variable (parent : Option Nat)

/-- The `IfElseNode` that `AwaitNode.calc` makes, with two empty branches. -/
def fakeIfElse (b : α) (s : Scope) (g : Blocks α) : Scope × Blocks α :=
  let tt := g.size
  let tf := tt + 1
  let «end» := tt + 2
  let g := g.newBlock.newBlock.newBlock
  let g := g.setTerm s.block (.condBr b tt tf)
  let g := (g.closeTo tt «end»).closeTo tf «end»
  ({ s with block := «end» }, g.toParent «end» parent)

/-- `AwaitNode.calc`. An `await` stands in an async function only, and `StepNext` has a parameter. -/
def await (b : α) (s : Scope) (g : Blocks α) : Scope × Blocks α :=
  let (s, g) := fakeIfElse parent b s g
  let nb := g.size
  let g := g.newBlock
  ({ s with block := nb }, g.setTerm s.block (.ret (some b)))

def awaitAll : List α → Scope → Blocks α → Scope × Blocks α
  | [], s, g => (s, g)
  | b :: bs, s, g =>
    let (s, g) := await parent b s g
    awaitAll bs s g

/-- `calc` of an expression. -/
def AExp.calc (e : AExp α) (s : Scope) (g : Blocks α) : Scope × Blocks α :=
  awaitAll parent e.awaits s g

/-- `calc` of one that may be missing. -/
def calcOpt (e : Option (AExp α)) (s : Scope) (g : Blocks α) : Scope × Blocks α :=
  match e with
  | some e => e.calc parent s g
  | none => (s, g)

/-- `RetNode.calc` behind its expression. An async function returns false, from a block of its
own too, whose address is stored for the next time. -/
def ret (fn : FnEnv α) (e : Option (AExp α)) (s : Scope) (g : Blocks α) : Scope × Blocks α :=
  match fn.kind with
  | .func | .generator => (s, g.setTerm s.block (.ret (e.map AExp.val)))
  | .async =>
    let nb := g.size
    let g := g.newBlock
    let g := g.setTerm s.block (.ret (some fn.no))
    ({ s with block := nb }, g.setTerm nb (.ret (some fn.no)))

end Generator

mutual

/-- `calc` of one statement. A `break` or `continue` outside a loop panics, and `SLNode.calc`
recovers from that. -/
def Cmd.calc (fn : FnEnv α) (parent : Option Nat) : Cmd α → Scope → Blocks α → Scope × Blocks α
  | .exp e, s, g => e.calc parent s g
  | .yieldN e, s, g =>
    let (s, g) := calcOpt parent e s g
    let nb := g.size
    let g := g.newBlock
    ({ s with block := nb }, g.setTerm s.block (.ret (some fn.yes)))
  | .ifN c statements, s, g =>
    let tt := g.size
    let g := g.newBlock
    let g := (calcCmds fn (some s.block) statements (s.addChildScope tt) g).2
    let «end» := g.size
    let g := g.newBlock
    let (s, g) := c.calc parent s g
    let g := g.setTerm s.block (.condBr c.val tt «end»)
    let g := g.closeTo tt «end»
    ({ s with block := «end» }, g.toParent «end» parent)
  | .ifElse c statements elSt, s, g =>
    let tt := g.size
    let tf := tt + 1
    let «end» := tt + 2
    let g := g.newBlock.newBlock.newBlock
    let (s, g) := c.calc parent s g
    let g := g.setTerm s.block (.condBr c.val tt tf)
    let s := { s with block := «end» }
    let g := (calcCmds fn (some s.block) statements (s.addChildScope tt) g).2
    let g := (calcCmds fn (some s.block) elSt (s.addChildScope tf) g).2
    let g := (g.closeTo tt «end»).closeTo tf «end»
    (s, g.toParent «end» parent)
  | .forN defineAssign bool assign statements, s, g =>
    let cond := g.size
    let body := cond + 1
    let «end» := cond + 2
    let g := g.newBlock.newBlock.newBlock
    let s := { s with continueBlock := some cond, breakBlock := some «end» }
    let child := s.addChildScope body
    let condScope := s.addChildScope cond
    let (s, g) := calcOpt parent defineAssign s g
    let (s, g) := calcOpt parent bool s g
    let g := g.branch s.block bool body «end»
    let s := { s with block := «end» }
    let (child, g) := calcCmds fn (some s.block) statements child g
    let (condScope, g) := calcOpt (some s.block) assign condScope g
    let (_, g) := calcOpt (some s.block) bool condScope g
    -- the terminator is the one of `cond`, wherever its scope has got to
    let g := g.branch cond bool body «end»
    (s, g.setTerm child.block (.br cond))
  | .breakN, s, g =>
    match s.breakBlock with
    | none => (s, g)
    | some b => (s, g.setTerm s.block (.br b))
  | .continueN, s, g =>
    match s.continueBlock with
    | none => (s, g)
    | some b => (s, g.setTerm s.block (.br b))
  | .retN e, s, g =>
    let (s, g) := calcOpt parent e s g
    ret fn e s g

/-- `SLNode.calc`. -/
def calcCmds (fn : FnEnv α) (parent : Option Nat) :
    List (Cmd α) → Scope → Blocks α → Scope × Blocks α
  | [], s, g => (s, g)
  | st :: sts, s, g =>
    let (s, g) := st.calc fn parent s g
    calcCmds fn parent sts s g

end

/-- The scope at the start of the body. -/
def FnEnv.scope (fn : FnEnv α) : Scope := ⟨0, fn.loop.map Prod.fst, fn.loop.map Prod.snd⟩

/-- The function's blocks when its body is to be compiled. -/
def Blocks.start : Blocks α := ⟨1, fun _ => none⟩

/-- The blocks of the whole function. `buildGenerator` ends `StepNext` with `ret false`. -/
def calcFunc (fn : FnEnv α) (parent : Option Nat) (body : List (Cmd α)) : Blocks α :=
  let (s, g) := calcCmds fn parent body fn.scope .start
  match fn.kind with
  | .func => g
  | .generator | .async => g.setTerm s.block (.ret (some fn.no))

/-! ## What the last statements of blocks emit -/

/-- What a return, a `break` or a `continue` emits: blocks with their terminators. -/
def Cmd.own (fn : FnEnv α) (parent : Option Nat) :
    Cmd α → Scope → Blocks α → List (Nat × Exit α)
  | .breakN, s, _ => (s.breakBlock.map fun b => (s.block, .br b)).toList
  | .continueN, s, _ => (s.continueBlock.map fun b => (s.block, .br b)).toList
  | .retN e, s, g =>
    let (s, g) := calcOpt parent e s g
    match fn.kind with
    | .func | .generator => [(s.block, .ret (e.map AExp.val))]
    | .async => [(s.block, .ret (some fn.no)), (g.size, .ret (some fn.no))]
  | _, _, _ => []

/-- What the last statement of a block emits, if it is one of these. -/
def ownCmds (fn : FnEnv α) (parent : Option Nat) :
    List (Cmd α) → Scope → Blocks α → List (Nat × Exit α)
  | [], _, _ => []
  | [st], s, g => st.own fn parent s g
  | st :: sts, s, g => ownCmds fn parent sts (st.calc fn parent s g).1 (st.calc fn parent s g).2

mutual

/-- What the last statements of the blocks in a statement emit. -/
def Cmd.emits (fn : FnEnv α) (parent : Option Nat) :
    Cmd α → Scope → Blocks α → List (Nat × Exit α)
  | .ifN _ statements, s, g =>
    let tt := g.size
    let g := g.newBlock
    emitsCmds fn (some s.block) statements (s.addChildScope tt) g ++
      ownCmds fn (some s.block) statements (s.addChildScope tt) g
  | .ifElse c statements elSt, s, g =>
    let tt := g.size
    let tf := tt + 1
    let «end» := tt + 2
    let g := g.newBlock.newBlock.newBlock
    let (s, g) := c.calc parent s g
    let g := g.setTerm s.block (.condBr c.val tt tf)
    let s := { s with block := «end» }
    let g' := (calcCmds fn (some s.block) statements (s.addChildScope tt) g).2
    emitsCmds fn (some s.block) statements (s.addChildScope tt) g ++
      ownCmds fn (some s.block) statements (s.addChildScope tt) g ++
      (emitsCmds fn (some s.block) elSt (s.addChildScope tf) g' ++
        ownCmds fn (some s.block) elSt (s.addChildScope tf) g')
  | .forN defineAssign bool _ statements, s, g =>
    let cond := g.size
    let body := cond + 1
    let «end» := cond + 2
    let g := g.newBlock.newBlock.newBlock
    let s := { s with continueBlock := some cond, breakBlock := some «end» }
    let child := s.addChildScope body
    let (s, g) := calcOpt parent defineAssign s g
    let (s, g) := calcOpt parent bool s g
    let g := g.branch s.block bool body «end»
    let s := { s with block := «end» }
    emitsCmds fn (some s.block) statements child g ++ ownCmds fn (some s.block) statements child g
  | _, _, _ => []

/-- Those of the blocks in a list of statements. -/
def emitsCmds (fn : FnEnv α) (parent : Option Nat) :
    List (Cmd α) → Scope → Blocks α → List (Nat × Exit α)
  | [], _, _ => []
  | st :: sts, s, g =>
    st.emits fn parent s g ++
      emitsCmds fn parent sts (st.calc fn parent s g).1 (st.calc fn parent s g).2

end

/-- What the last statements of all blocks of a body emit are the terminators of the function. -/
def Kept (fn : FnEnv α) (parent : Option Nat) (body : List (Cmd α)) : Prop :=
  ∀ e ∈ emitsCmds fn parent body fn.scope .start ++ ownCmds fn parent body fn.scope .start,
    (calcFunc fn parent body).term e.1 = some e.2

/-! ## What is overwritten -/

def Cmd.isFor : Cmd α → Bool
  | .forN _ _ _ _ => true
  | _ => false

/-- The last statement of a loop's body returns or breaks out of the loop, or it is a
`continue` behind another loop (`behind`), whose condition block it goes to. -/
def leavesLoop : Bool → List (Cmd α) → Bool
  | _, [] => false
  | _, [.breakN] | _, [.retN _] => true
  | behind, [.continueN] => behind
  | behind, st :: sts => leavesLoop (behind || st.isFor) sts

mutual

/-- No body of a loop leaves it. -/
def Cmd.kept : Cmd α → Bool
  | .ifN _ statements => keptCmds statements
  | .ifElse _ statements elSt => keptCmds statements && keptCmds elSt
  | .forN _ _ _ statements => !leavesLoop false statements && keptCmds statements
  | .exp _ | .yieldN _ | .breakN | .continueN | .retN _ => true

def keptCmds : List (Cmd α) → Bool
  | [] => true
  | st :: sts => st.kept && keptCmds sts

end

/-- The last statement of a generator's or async function's body: no `break` or `continue` that
has a loop in front of it or around the function, and in a generator no `return` of anything but
the constant false. -/
def endsFalse (fn : FnEnv α) : Bool → List (Cmd α) → Prop
  | _, [] => True
  | behind, [.breakN] | behind, [.continueN] => behind = false
  | _, [.retN e] => fn.kind = .generator → e.map AExp.val = some fn.no
  | behind, st :: sts => endsFalse fn (behind || st.isFor) sts

/-- What is asked of a function body. -/
def Undisturbed (fn : FnEnv α) (body : List (Cmd α)) : Prop :=
  keptCmds body = true ∧ (fn.kind ≠ .func → endsFalse fn fn.loop.isSome body)

end CalcLang.Ast
