import CalcLang.Lib.Resumable
import Mathlib.Logic.Function.Basic

/-!
# The graph of a generator

`buildGenerator` of `compiler/ast/function.go` compiles the body of a generator into
`StepNext`, a function that is entered at the block whose address is stored in the
frame. `YieldNode.calc` (`compiler/ast/generator.go`) makes the block that the
generator goes on in, stores its address, and returns true. A bare `return` of a
generator that is not async returns nothing, in the block it stands in. Behind the
last statement stands `ret false`.

The other constructs are those of `CalcLang.Ast.Control`, without `break` and
`continue`, so the scope is a block here. The entry block, which only jumps to the
stored address, is left out: a call starts at the address. Block 0 is the one that is
stored first.
-/

namespace CalcLang.Ast

open CalcLang.Lib Resumable

variable {α : Type}

/-- A statement of a generator, as control flow sees it. -/
inductive GStmt (α : Type) where
  | atom (a : α)
  | ifN (boolExp : α) (statements : List (GStmt α))
  | ifElse (boolExp : α) (statements elSt : List (GStmt α))
  | forN (defineAssign bool assign : Option α) (statements : List (GStmt α))
  | yieldN (exp : Option α)
  | retN

/-- A block's terminator. `yield nb` stands for the store of the address of `nb` with the
`ret true` behind it. -/
inductive GTerm (α : Type) where
  | br (b : Nat)
  | condBr (c : α) (t f : Nat)
  | yield (nb : Nat)
  | retFalse
  | retVoid
deriving DecidableEq, Repr

/-- `ir.Block`. -/
structure GBlock (α : Type) where
  insts : List α
  term : Option (GTerm α)
deriving DecidableEq, Repr

/-- `ir.Func`: its blocks, named by the order of their creation. -/
structure GFunc (α : Type) where
  size : Nat
  block : Nat → GBlock α

namespace GFunc

/-- `f.NewBlock`. -/
def newBlock (f : GFunc α) : GFunc α :=
  ⟨f.size + 1, Function.update f.block f.size ⟨[], none⟩⟩

/-- An optional instruction appended to block `b`. -/
def append (f : GFunc α) (b : Nat) (a : Option α) : GFunc α :=
  { f with
    block := Function.update f.block b { f.block b with insts := (f.block b).insts ++ a.toList } }

/-- `b.NewBr`, `b.NewCondBr`, `b.NewRet`: set or replace the terminator. -/
def setTerm (f : GFunc α) (b : Nat) (t : GTerm α) : GFunc α :=
  { f with block := Function.update f.block b { f.block b with term := some t } }

/-- `if b.Term == nil { b.NewBr(e) }`. -/
def closeTo (f : GFunc α) (b e : Nat) : GFunc α :=
  if (f.block b).term.isNone then f.setTerm b (.br e) else f

/-- `if s.parent.block != nil { e.NewBr(s.parent.block) }`. -/
def toParent (f : GFunc α) (e : Nat) : Option Nat → GFunc α
  | some p => f.setTerm e (.br p)
  | none => f

end GFunc

/-- The terminator of a loop's condition, or of a loop without one. -/
def branchTerm' (yes no : Nat) : Option α → GTerm α
  | some c => .condBr c yes no
  | none => .br yes

mutual

/-- `calc` of one statement in the block `s`; returns the block the scope goes on in.
`parent` is the block of the enclosing scope. -/
def GStmt.calc (parent : Option Nat) : GStmt α → Nat → GFunc α → Nat × GFunc α
  | .atom a, s, f => (s, f.append s (some a))
  | .ifN c statements, s, f =>
    let tt := f.size
    let f := f.newBlock
    let f := (GStmt.calcSL (some s) statements tt f).2
    let «end» := f.size
    let f := f.newBlock
    let f := f.setTerm s (.condBr c tt «end»)
    let f := f.closeTo tt «end»
    («end», f.toParent «end» parent)
  | .ifElse c statements elSt, s, f =>
    let tt := f.size
    let tf := tt + 1
    let «end» := tt + 2
    let f := f.newBlock.newBlock.newBlock
    let f := f.setTerm s (.condBr c tt tf)
    let f := (GStmt.calcSL (some «end») statements tt f).2
    let f := (GStmt.calcSL (some «end») elSt tf f).2
    let f := (f.closeTo tt «end»).closeTo tf «end»
    («end», f.toParent «end» parent)
  | .forN defineAssign bool assign statements, s, f =>
    let cond := f.size
    let body := cond + 1
    let «end» := cond + 2
    let f := f.newBlock.newBlock.newBlock
    let f := f.append s defineAssign
    let f := f.setTerm s (branchTerm' body «end» bool)
    let (child, f) := GStmt.calcSL (some «end») statements body f
    let f := f.append cond assign
    let f := f.setTerm cond (branchTerm' body «end» bool)
    («end», f.setTerm child (.br cond))
  | .yieldN exp, s, f =>
    let f := f.append s exp
    let nb := f.size
    let f := f.newBlock
    (nb, f.setTerm s (.yield nb))
  | .retN, s, f => (s, f.setTerm s .retVoid)

/-- `SLNode.calc`. -/
def GStmt.calcSL (parent : Option Nat) : List (GStmt α) → Nat → GFunc α → Nat × GFunc α
  | [], s, f => (s, f)
  | st :: sts, s, f =>
    let (s, f) := st.calc parent s f
    GStmt.calcSL parent sts s f

end

/-- `StepNext`, for a generator whose enclosing scope stands at `parent`. -/
def stepNext (parent : Option Nat) (body : List (GStmt α)) : GFunc α :=
  let (s, f) := GStmt.calcSL parent body 0 ⟨1, fun _ => ⟨[], none⟩⟩
  f.setTerm s .retFalse

/-! ## Calling it -/

/-- Execution of the graph, at an instruction of a block. A `ret void` is no return of
`StepNext`, and a block without terminator is no block of a function. -/
def GFunc.code (f : GFunc α) : Code α (Nat × Nat) := fun (b, i) =>
  match (f.block b).insts[i]? with
  | some a => .act a (b, i + 1)
  | none =>
    match (f.block b).term with
    | some (.br b') => .goto (b', 0)
    | some (.condBr c t e) => .test c (t, 0) (e, 0)
    | some (.yield nb) => .suspend (nb, 0)
    | some .retFalse => .done
    | some .retVoid => .crash
    | none => .crash

/-- Exhaustion is stable: `StepNext` has only returns of its type, and behind a call that
returned false every call returns false and performs nothing. -/
structure GFunc.Stable (f : GFunc α) : Prop where
  typed : ∀ b < f.size, (f.block b).term ≠ some .retVoid
  exhausts : Exhausts f.code (0, 0)

/-! ## Where a list of statements leaves off -/

/-- What the last block of a list of statements ends with before the enclosing construct
sees it: nothing at all, what the inner `end` block of an `if` was given, nothing since
a `yield` or a `for`, or `ret void`. -/
inductive Tail where
  | blank
  | joined
  | cut
  | void
deriving DecidableEq, Repr

/-- What a statement makes of it. -/
def GStmt.tail : Tail → GStmt α → Tail
  | t, .atom _ => t
  | _, .ifN _ _ | _, .ifElse _ _ _ => .joined
  | _, .forN _ _ _ _ | _, .yieldN _ => .cut
  | _, .retN => .void

def tailSL (t : Tail) (sts : List (GStmt α)) : Tail := sts.foldl GStmt.tail t

mutual

/-- No branch of an `if` ends with a bare `return`, apart from assignments behind it. -/
def GStmt.tidy : GStmt α → Bool
  | .atom _ | .yieldN _ | .retN => true
  | .ifN _ sts => tailSL .blank sts != .void && tidySL sts
  | .ifElse _ sts els =>
    tailSL .blank sts != .void && tidySL sts && tailSL .blank els != .void && tidySL els
  | .forN _ _ _ sts => tidySL sts

def tidySL : List (GStmt α) → Bool
  | [] => true
  | st :: sts => st.tidy && tidySL sts

end

mutual

/-- The statement can be passed. -/
def GStmt.passes : GStmt α → Bool
  | .atom _ | .ifN _ _ | .yieldN _ | .retN => true
  | .ifElse _ sts els =>
    passesSL sts && (tailSL .blank sts == .blank || tailSL .blank sts == .joined) ||
      passesSL els && (tailSL .blank els == .blank || tailSL .blank els == .joined)
  | .forN _ bool _ _ => bool.isSome

/-- All statements of the list can be passed. -/
def passesSL : List (GStmt α) → Bool
  | [] => true
  | st :: sts => st.passes && passesSL sts

end

/-- Whether nothing has been performed since the generator was last called. -/
def GStmt.quiet : Bool → GStmt α → Bool
  | q, .retN => q
  | _, .yieldN _ => true
  | _, .atom _ | _, .ifN _ _ | _, .ifElse _ _ _ | _, .forN _ _ _ _ => false

def quietSL (q : Bool) (sts : List (GStmt α)) : Bool := sts.foldl GStmt.quiet q

end CalcLang.Ast
