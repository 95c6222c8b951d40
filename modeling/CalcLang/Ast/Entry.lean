import CalcLang.Ast.Node
import Mathlib.Data.List.Nodup

/-!
# Two readings of a tree

What the analyses over names see of a tree is where a name is used, where it is
defined and which function that is in. `Entry` is a tree of just that, and there
are two ways to read a syntax tree as one.

`source` is the text: every occurrence, in order, with the blocks it stands in.
`travel` is what the `travel` methods of the nodes hand to a callback, in their
order. The two differ: `VarBlockNode.travel` and `ArrayInitNode.travel` do not
go on into their parts, `DefAndAssignNode.travel` hands out the definition before
its initialiser, and `CallFuncNode.travel` hands out what follows a call as if it
began with a variable.
-/

namespace CalcLang.Ast

/-- What happens to names, in order. `lit` is a literal that may be allocated on
the heap, `loop` a definition that is in force in the entries under it only. -/
inductive Entry
  | use (ref : Ref) (id : Ident)
  | defn (ref : Ref) (id : Ident)
  | lit (ref : Ref)
  | block (entries : List Entry)
  | loop (ref : Ref) (id : Ident) (entries : List Entry)
  | fn (ref : Ref) (params : List Ident) (entries : List Entry)

/-! ## The text -/

mutual
/-- An expression as it is written. -/
def ExpNode.source : ExpNode → List Entry
  | .null | .lit => []
  | .str r => [.lit r]
  | .varBlock r t _ idxs => .use r t :: sources idxs
  | .callFunc generics params fnNode next =>
    fnNode.calleeSource generics ++ sources params ++ next.memberSource
  | .binary _ l r => l.source ++ r.source
  | .unary e | .takePtr e | .takeVal _ e | .await _ e => e.source
  | .arrayInit r es | .structInit r es => .lit r :: sources es
  | .inlineFunc r ps _ body => [.fn r ps (sourcesNodes body)]

/-- What is called. A plain name with type arguments is a generic function's. -/
def ExpNode.calleeSource (generics : Bool) : ExpNode → List Entry
  | .varBlock r t next idxs =>
    (if generics && next.isEmpty then [] else [.use r t]) ++ sources idxs
  | _ => []

/-- What follows a dot: its first name is a member, not a variable. -/
def ExpNode.memberSource : ExpNode → List Entry
  | .varBlock _ _ _ idxs => sources idxs
  | .callFunc _ params fnNode next =>
    fnNode.memberSource ++ sources params ++ next.memberSource
  | _ => []

def sources : List ExpNode → List Entry
  | [] => []
  | e :: es => e.source ++ sources es

/-- A statement as it is written. -/
def Node.source : Node → List Entry
  | .exp e | .ret e | .yield e => e.source
  | .leaf => []
  | .define r x => [.defn r x]
  | .defAndAssign r x e => e.source ++ [.defn r x]
  | .ifN c sts => c.source ++ [.block (sourcesNodes sts)]
  | .ifElse c sts el => c.source ++ [.block (sourcesNodes sts), .block el.source]
  | .forN c (.defAndAssign r x e) a sts =>
    e.source ++ [.loop r x (c.source ++ a.source ++ [.block (sourcesNodes sts)])]
  | .forN c d a sts => d.source ++ (c.source ++ a.source ++ [.block (sourcesNodes sts)])
  | .sl cs => sourcesNodes cs

def sourcesNodes : List Node → List Entry
  | [] => []
  | n :: ns => n.source ++ sourcesNodes ns
end

/-! ## What `travel` visits -/

mutual
/-- The nodes that the `travel` method of an expression calls back with. -/
def ExpNode.travel : ExpNode → List Entry
  | .null | .lit => []
  | .str r | .arrayInit r _ => [.lit r]
  | .varBlock r t _ _ => [.use r t]
  | .callFunc _ params fnNode next => travels params ++ next.travel ++ fnNode.travel
  | .binary _ l r => l.travel ++ r.travel
  | .unary e | .takePtr e | .takeVal _ e | .await _ e => e.travel
  | .structInit r es => .lit r :: travels es
  | .inlineFunc r ps _ body => [.fn r ps (travelsNodes body)]

def travels : List ExpNode → List Entry
  | [] => []
  | e :: es => e.travel ++ travels es

/-- The nodes that the `travel` method of a statement calls back with. -/
def Node.travel : Node → List Entry
  | .exp e | .ret e | .yield e => e.travel
  | .leaf => []
  | .define r x => [.defn r x]
  | .defAndAssign r x e => .defn r x :: e.travel
  | .ifN c sts => c.travel ++ travelsNodes sts
  | .ifElse c sts el => c.travel ++ travelsNodes sts ++ el.travel
  | .forN c d a sts => c.travel ++ d.travel ++ a.travel ++ travelsNodes sts
  | .sl cs => travelsNodes cs

def travelsNodes : List Node → List Entry
  | [] => []
  | n :: ns => n.travel ++ travelsNodes ns
end

end CalcLang.Ast
