import Mathlib.Data.List.Basic
import Mathlib.Tactic.Basic

/-!
# The syntax tree

The nodes of `compiler/ast` that stand in function bodies, as far as the
analyses over them look: `ExpNode` for the expressions, `Node` for the
statements.

What no analysis reads is left out: the values of number and boolean literals,
the arithmetic operator of a `BinNode`, the type annotations. Go's nil, for a
field that is not set, is `ExpNode.null`.

A node of Go is a pointer, and some fields of it are written by one pass and
read by another (`closureVars`, `allocOnHeap`, the storage of a definition).
The nodes with such fields carry a `ref` that stands for the pointer.

Statement lists are lists, except behind an `else`, where an `SLNode` and an
`IfNode` may stand (`sl`).
-/

namespace CalcLang.Ast

/-- A name as the lexer scans it. -/
abbrev Ident := List Char

/-- The identity of a node. -/
abbrev Ref := Nat

/-- The node types with two operands. `assign` is a `BinNode` whose `Op` is
`TYPE_ASSIGN`, `bin` any other. -/
inductive BinKind
  | bin | assign | compare | boolExp
  deriving DecidableEq, Repr

mutual
/-- Expressions. `lit` is a number, a boolean or `nil`, `unary` an `UnaryNode` or
a `NotNode`.

A `VarBlockNode` is a chain of blocks `a[i].b.c[j]`: `token` is its first name,
`next` the names that follow, `idxs` the index expressions of all blocks. The
`fnNode` of a call is such a chain; the `next` of a call is what follows the call
after a dot. -/
inductive ExpNode
  | null
  | lit
  | str (ref : Ref)
  | varBlock (ref : Ref) (token : Ident) (next : List Ident) (idxs : List ExpNode)
  | callFunc (generics : Bool) (params : List ExpNode) (fnNode next : ExpNode)
  | binary (kind : BinKind) (left right : ExpNode)
  | unary (child : ExpNode)
  | takePtr (node : ExpNode)
  | takeVal (level : Nat) (node : ExpNode)
  | arrayInit (ref : Ref) (vals : List ExpNode)
  | structInit (ref : Ref) (fields : List ExpNode)
  | inlineFunc (ref : Ref) (params : List Ident) (async : Bool) (body : List Node)
  | await (ref : Ref) (exp : ExpNode)

/-- Statements. `exp` is an expression that stands as a statement, `leaf` one
without parts: `EmptyNode`, `BreakNode`, `ContinueNode`, `ErrSTNode`. -/
inductive Node
  | exp (e : ExpNode)
  | leaf
  | define (ref : Ref) (id : Ident)
  | defAndAssign (ref : Ref) (id : Ident) (valNode : ExpNode)
  | ifN (boolExp : ExpNode) (statements : List Node)
  | ifElse (boolExp : ExpNode) (statements : List Node) (elSt : Node)
  | forN (bool : ExpNode) (defineAssign : Node) (assign : ExpNode) (statements : List Node)
  | ret (exp : ExpNode)
  | yield (exp : ExpNode)
  | sl (children : List Node)
end

/-! ## The nodes of a tree -/

mutual
/-- Every node with an identity, in the order of the text. -/
def ExpNode.refs : ExpNode → List Ref
  | .null | .lit => []
  | .str r => [r]
  | .varBlock r _ _ idxs => r :: refsExps idxs
  | .callFunc _ params fnNode next => fnNode.refs ++ refsExps params ++ next.refs
  | .binary _ l r => l.refs ++ r.refs
  | .unary e | .takePtr e | .takeVal _ e => e.refs
  | .arrayInit r es | .structInit r es => r :: refsExps es
  | .inlineFunc r _ _ body => r :: refsNodes body
  | .await r e => r :: e.refs

def refsExps : List ExpNode → List Ref
  | [] => []
  | e :: es => e.refs ++ refsExps es

def Node.refs : Node → List Ref
  | .exp e | .ret e | .yield e => e.refs
  | .leaf => []
  | .define r _ => [r]
  | .defAndAssign r _ e => r :: e.refs
  | .ifN c sts => c.refs ++ refsNodes sts
  | .ifElse c sts el => c.refs ++ refsNodes sts ++ el.refs
  | .forN c d a sts => d.refs ++ c.refs ++ a.refs ++ refsNodes sts
  | .sl cs => refsNodes cs

def refsNodes : List Node → List Ref
  | [] => []
  | n :: ns => n.refs ++ refsNodes ns
end

/-- The body of a function. Its nodes are pointers, so no two of them are the
same. -/
structure Body where
  statements : List Node
  nodup : (refsNodes statements).Nodup

end CalcLang.Ast
