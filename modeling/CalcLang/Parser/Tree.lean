import CalcLang.Lex.Scan

/-!
# Syntax trees

What the parser builds: `ast.TypeNode`, and the nodes of expressions and statements,
which here are one type. File names and positions, and what the later passes note in
the nodes, are left out.
-/

namespace CalcLang.Parser

open CalcLang.Lex

/-- A type expression with its pointer level. A `BasicTypeNode` is either a reserved type
(`basic`) or a named one with the names, the generic arguments and the package it stands in
(`custom`). Methods of an interface stand in the order of the text; of two with one name the last
one counts. -/
inductive TypeNode
  | basic (tp : TokenType) (ptrLevel : Nat)
  | custom (customTp : List Text) (generics : List TypeNode) (pkg : Text) (ptrLevel : Nat)
  | array (len : Int) (elmType : TypeNode) (ptrLevel : Nat)
  | struct (orderedfields : List (Text × TypeNode)) (ptrLevel : Nat)
  | interface (funcs : List (Text × (List (Text × TypeNode) × Bool) × TypeNode)) (ptrLevel : Nat)
  | func (params : List (Text × TypeNode)) (ext : Bool) (ret : Option TypeNode) (ptrLevel : Nat)

/-- `SetPtrLevel`. -/
def TypeNode.setPtrLevel (i : Nat) : TypeNode → TypeNode
  | basic tp _ => basic tp i
  | custom customTp generics pkg _ => custom customTp generics pkg i
  | array len elmType _ => array len elmType i
  | struct orderedfields _ => struct orderedfields i
  | interface funcs _ => interface funcs i
  | func params ext ret _ => func params ext ret i

/-- `ParamsNode`: the parameters of a function, and whether the first is a receiver. -/
structure ParamsNode where
  params : List (Text × TypeNode)
  ext : Bool

/-- An expression or a statement. An assignment is a `BinNode` (`bin`), as in the source. The value
of a `float` is left as it is written; a `VarBlockNode` (`varBlock`) has the blocks behind it in a
list. -/
inductive Node
  | num (val : Int) (bits : Nat)
  | float (text : Text) (double : Bool)
  | str (str : Text)
  | nil
  | bool (val : Bool)
  | varBlock (token : Text) (idxs : List Node) (next : List (Text × List Node))
  | callFunc (fnNode : Node) (generics : List TypeNode) (params : List Node) (next : Option Node)
  | bin (op : TokenType) (left right : Node)
  | unary (op : TokenType) (child : Node)
  | compare (op : TokenType) (left right : Node)
  | boolExp (op : TokenType) (left right : Node)
  | not (bool : Node)
  | takePtr (node : Node)
  | takeVal (level : Nat) (node : Node)
  | arrayInit (type : TypeNode) (vals : List Node)
  | structInit (tp : TypeNode) (fields : List (Text × Node))
  | inlineFunc (fntype : TypeNode) (async : Bool) (body : Node)
  | await (exp : Node)
  | empty
  | breakST
  | continueST
  | errST (line : Nat) (src : Text)
  | define (id : Text) (tp : TypeNode)
  | defAndAssign (id : Text) (valNode : Node)
  | ifST (boolExp statements : Node)
  | ifElse (boolExp statements elSt : Node)
  | forST (defineAssign bool assign : Option Node) (statements : Node)
  | ret (exp : Option Node)
  | yield (exp : Option Node)
  | sl (children : List Node)
  | typeDef (id : Text) (tp : TypeNode) (generics : List Text)
  | func (id : Text) (generics : List Text) (params : ParamsNode) (retType : TypeNode)
      (async : Bool) (statements : Option Node)

/-- `ProgramNode`. -/
structure ProgramNode where
  pkg : Text
  imports : Option (List (Text × Text))
  children : List Node

end CalcLang.Parser
