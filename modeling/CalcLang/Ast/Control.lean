import CalcLang.Lib.Flow
import Mathlib.Logic.Function.Basic

/-!
# Control flow: the graph of basic blocks the code generator builds

`IfNode.calc`, `IfElseNode.calc` (`compiler/ast/cond.go`), `ForNode.calc`,
`BreakNode.calc`, `ContinueNode.calc` (`compiler/ast/loop.go`), `RetNode.calc`
and `SLNode.calc` (`compiler/ast/ast.go`), as far as they build blocks: which
block each of them fills, which terminators it sets, and in what order.

A statement that only appends instructions to the current block is an `atom`; so
are a loop's initialiser and step. A condition appends its instructions to the
current block and is then used by the `NewCondBr` that ends the block, so it is
kept with that terminator. An `else if` is an `else` whose block holds just the
inner `if`: both are compiled in a child scope of the same block.

The scope chain matters through two fields only: a scope's own `block`, which
moves as constructs are compiled, and `s.parent.block`. While a child's
statements are compiled the parent's `block` stands still, so it is an argument
(`parent`). `IfNode.calc` moves `s.block` to `end` *after* its body was compiled,
`IfElseNode.calc` and `ForNode.calc` before.
-/

namespace CalcLang.Ast

open CalcLang.Lib

variable {α : Type}

/-- A statement, as control flow sees it. -/
inductive Stmt (α : Type) where
  | atom (a : α)
  | ifN (boolExp : α) (statements : List (Stmt α))
  | ifElse (boolExp : α) (statements elSt : List (Stmt α))
  | forN (defineAssign bool assign : Option α) (statements : List (Stmt α))
  | breakN
  | continueN
  | retN

/-! ## Blocks -/

/-- A block's terminator. -/
inductive Term (α : Type) where
  | br (b : Nat)
  | condBr (c : α) (t f : Nat)
  | ret
deriving DecidableEq, Repr

/-- `ir.Block`. -/
structure Block (α : Type) where
  insts : List α
  term : Option (Term α)
deriving DecidableEq, Repr

/-- `ir.Func`: its blocks, named by the order of their creation; `errn` counts
the statements whose `calc` panicked. -/
structure Func (α : Type) where
  size : Nat
  block : Nat → Block α
  errn : Nat

namespace Func

/-- `f.NewBlock`. -/
def newBlock (f : Func α) : Func α :=
  { f with size := f.size + 1, block := Function.update f.block f.size ⟨[], none⟩ }

/-- An instruction appended to block `b`. -/
def append (f : Func α) (b : Nat) (a : α) : Func α :=
  { f with block := Function.update f.block b { f.block b with insts := (f.block b).insts ++ [a] } }

/-- `b.NewBr`, `b.NewCondBr`, `b.NewRet`: set or replace the terminator. -/
def setTerm (f : Func α) (b : Nat) (t : Term α) : Func α :=
  { f with block := Function.update f.block b { f.block b with term := some t } }

/-- `if b.Term == nil { b.NewBr(e) }`. -/
def closeTo (f : Func α) (b e : Nat) : Func α :=
  if (f.block b).term.isNone then f.setTerm b (.br e) else f

/-- `if s.parent.block != nil { e.NewBr(s.parent.block) }`. -/
def toParent (f : Func α) (e : Nat) (parent : Option Nat) : Func α :=
  match parent with
  | some p => f.setTerm e (.br p)
  | none => f

/-- A condition's branch, or a plain one where a loop has no condition. -/
def branch (f : Func α) (b : Nat) (c : Option α) (yes no : Nat) : Func α :=
  match c with
  | some c => f.setTerm b (.condBr c yes no)
  | none => f.setTerm b (.br yes)

/-- A loop's initialiser or step, where it has one. -/
def appendOpt (f : Func α) (b : Nat) : Option α → Func α
  | some a => f.append b a
  | none => f

end Func

/-! ## The code generator -/

/-- The fields of `Scope` that control flow uses. -/
structure Scope where
  block : Nat
  continueBlock : Option Nat
  breakBlock : Option Nat
deriving DecidableEq, Repr

/-- `addChildScope`. -/
def Scope.addChildScope (s : Scope) (block : Nat) : Scope := { s with block := block }

mutual

/-- `calc` of one statement. The panic of a `break` or `continue` outside a loop
is recovered by `SLNode.calc`, which counts it. -/
def Stmt.calc (parent : Option Nat) : Stmt α → Scope → Func α → Scope × Func α
  | .atom a, s, f => (s, f.append s.block a)
  | .ifN c statements, s, f =>
    let tt := f.size
    let f := f.newBlock
    let f := (calcSL (some s.block) statements (s.addChildScope tt) f).2
    let «end» := f.size
    let f := f.newBlock
    let f := f.setTerm s.block (.condBr c tt «end»)
    let s := { s with block := «end» }
    let f := f.closeTo tt «end»
    (s, f.toParent «end» parent)
  | .ifElse c statements elSt, s, f =>
    let tt := f.size
    let tf := tt + 1
    let «end» := tt + 2
    let f := f.newBlock.newBlock.newBlock
    let f := f.setTerm s.block (.condBr c tt tf)
    let s := { s with block := «end» }
    let f := (calcSL (some s.block) statements (s.addChildScope tt) f).2
    let f := (calcSL (some s.block) elSt (s.addChildScope tf) f).2
    let f := (f.closeTo tt «end»).closeTo tf «end»
    (s, f.toParent «end» parent)
  | .forN defineAssign bool assign statements, s, f =>
    let cond := f.size
    let body := cond + 1
    let «end» := cond + 2
    let f := f.newBlock.newBlock.newBlock
    let s := { s with continueBlock := some cond, breakBlock := some «end» }
    let child := s.addChildScope body
    let f := f.appendOpt s.block defineAssign
    let f := f.branch s.block bool body «end»
    let s := { s with block := «end» }
    let (child, f) := calcSL (some s.block) statements child f
    let f := f.appendOpt cond assign
    let f := f.branch cond bool body «end»
    (s, f.setTerm child.block (.br cond))
  | .breakN, s, f =>
    match s.breakBlock with
    | none => (s, { f with errn := f.errn + 1 })
    | some b => (s, f.setTerm s.block (.br b))
  | .continueN, s, f =>
    match s.continueBlock with
    | none => (s, { f with errn := f.errn + 1 })
    | some b => (s, f.setTerm s.block (.br b))
  | .retN, s, f => (s, f.setTerm s.block .ret)

/-- `SLNode.calc`: the statements of a block, one after the other. -/
def calcSL (parent : Option Nat) : List (Stmt α) → Scope → Func α → Scope × Func α
  | [], s, f => (s, f)
  | st :: sts, s, f =>
    let (s, f) := st.calc parent s f
    calcSL parent sts s f

end

/-- A function's graph: its statements compiled in a scope whose block is the
entry block, number 0. `parent` is the block of the enclosing scope: none for a
declared function, the block of the enclosing function for an inline one. -/
def calcBody (parent : Option Nat) (body : List (Stmt α)) : Func α :=
  (calcSL parent body ⟨0, none, none⟩ ⟨1, fun _ => ⟨[], none⟩, 0⟩).2

/-! ## Running the graph -/

/-- A place in the graph: a block and an instruction's index in it. -/
abbrev Point := Nat × Nat

/-- Execution of the graph. -/
def Func.flow (f : Func α) : Flow α Point := fun (b, i) =>
  match (f.block b).insts[i]? with
  | some a => .act a (b, i + 1)
  | none =>
    match (f.block b).term with
    | some (.br b') => .goto (b', 0)
    | some (.condBr c t e) => .test c (t, 0) (e, 0)
    | some .ret => .ret
    | none => .stuck

/-- The blocks a terminator branches to. -/
def Term.targets : Term α → List Nat
  | .br b => [b]
  | .condBr _ t f => [t, f]
  | .ret => []

/-- Blocks reachable from the entry. -/
inductive Func.Reach (f : Func α) : Nat → Prop
  | entry : Reach f 0
  | step {b b' : Nat} {t : Term α} :
      Reach f b → (f.block b).term = some t → b' ∈ t.targets → Reach f b'

/-- A well-formed graph: reachable blocks are terminated, and no block branches
to the entry block. -/
structure Func.WellFormed (f : Func α) : Prop where
  terminated : ∀ b, f.Reach b → (f.block b).term ≠ none
  entry : ∀ b < f.size, ∀ t, (f.block b).term = some t → 0 ∉ t.targets

/-! ## Running the structured program -/

/-- What is left to do: a statement, or the next round of a loop, which begins
with its step. -/
inductive Item (α : Type) where
  | stmt (st : Stmt α)
  | loop (bool assign : Option α) (statements : List (Stmt α))

/-- What a list of statements leaves to do. -/
def items (sts : List (Stmt α)) : List (Item α) := sts.map .stmt

/-- Test a loop's condition, if it has one. -/
def testBool (c : Option α) (yes no : List (Item α)) : Action α (List (Item α)) :=
  match c with
  | some c => .test c yes no
  | none => .goto yes

/-- From the innermost loop's next round on. -/
def toLoop : List (Item α) → List (Item α)
  | [] => []
  | .loop c st sts :: k => .loop c st sts :: k
  | .stmt _ :: k => toLoop k

/-- Structured execution of what is left to do. -/
def run : Flow α (List (Item α))
  | [] => .stuck
  | .stmt (.atom a) :: k => .act a k
  | .stmt (.ifN c sts) :: k => .test c (items sts ++ k) k
  | .stmt (.ifElse c sts els) :: k => .test c (items sts ++ k) (items els ++ k)
  | .stmt (.forN (some a) c st sts) :: k => .act a (.stmt (.forN none c st sts) :: k)
  | .stmt (.forN none c st sts) :: k => testBool c (items sts ++ .loop c st sts :: k) k
  | .loop c (some a) sts :: k => .act a (.stmt (.forN none c (some a) sts) :: k)
  | .loop c none sts :: k => testBool c (items sts ++ .loop c none sts :: k) k
  | .stmt .breakN :: k => .goto (toLoop k).tail
  | .stmt .continueN :: k => .goto (toLoop k)
  | .stmt .retN :: _ => .ret

/-- The graph is well formed and performs exactly what the structured program
performs, whatever the conditions come out to. -/
structure Refines (f : Func α) (body : List (Stmt α)) : Prop where
  wellFormed : f.WellFormed
  agree : Flow.Agree f.flow (0, 0) run (items body)

end CalcLang.Ast
