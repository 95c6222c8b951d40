import CalcLang.Parser.Types

/-!
# Printed expressions

An `Exp` is an expression as it is written: literals, variable chains, calls, signs and the
binary operators. `Exp.body` prints it, with blanks around the binary operators and with the
parentheses that the levels of the grammar ask for: an operand is put in parentheses if its
level is below the one of its place. `Exp.tree` is what it should be read as.
-/

namespace CalcLang.Parser

open CalcLang.Lex CalcLang.Lib

/-- The binary operators. -/
inductive Op
  | shl | shr | plus | sub | div | mul | ps
  deriving DecidableEq

/-- The level of an operator: `exp` is 0, `addedFactor` 1 and `factor` 2. -/
def Op.level : Op → Nat
  | shl | shr => 0
  | plus | sub => 1
  | div | mul | ps => 2

def Op.code : Op → TokenType
  | shl => .shl
  | shr => .shr
  | plus => .plus
  | sub => .sub
  | div => .div
  | mul => .mul
  | ps => .ps

def Op.text : Op → Text
  | shl => ['<', '<']
  | shr => ['>', '>']
  | plus => ['+']
  | sub => ['-']
  | div => ['/']
  | mul => ['*']
  | ps => ['%']

/-- The signs. -/
inductive Sign
  | plus | sub
  deriving DecidableEq

def Sign.code : Sign → TokenType
  | plus => .plus
  | sub => .sub

def Sign.char : Sign → Char
  | plus => '+'
  | sub => '-'

mutual

/-- An expression. -/
inductive Exp
  | num (n : Size)
  | ref (r : Ref)
  | unary (op : Sign) (child : Exp)
  | bin (op : Op) (left right : Exp)

/-- A variable chain, that is a name with its indices and the blocks behind it, or a call of one,
with what is taken of its result behind a dot. -/
inductive Ref
  | chain (x : Name) (idxs : List Exp) (next : List (Name × List Exp))
  | call (x : Name) (idxs : List Exp) (next : List (Name × List Exp)) (generics : List Ty)
      (params : List Exp) (tail : Option Ref)

end

/-- The level of an expression: of a `symbol` it is 3, and of a `number` 4. -/
def Exp.level : Exp → Nat
  | num _ | ref _ => 4
  | unary _ _ => 3
  | bin op _ _ => op.level

/-- Put in parentheses if need be. -/
def wrap (b : Bool) (t : Text) : Text := if b then '(' :: (t ++ [')']) else t

mutual

/-- An expression as it is printed. -/
def Exp.body : Exp → Text
  | .num n => n.text
  | .ref r => r.text
  | .unary op child => op.char :: wrap (child.level < 4) child.body
  | .bin op left right =>
    wrap (left.level < op.level) left.body ++
      ' ' :: (op.text ++ ' ' :: wrap (right.level < op.level + 1) right.body)

def Ref.text : Ref → Text
  | .chain x idxs next => x.text ++ (idxsText idxs ++ nextText next)
  | .call x idxs next generics params tail =>
    x.text ++ (idxsText idxs ++ (nextText next ++
      (argsText generics ++ '(' :: (paramsText params ++ tailText tail))))

/-- Indices. -/
def idxsText : List Exp → Text
  | [] => []
  | e :: es => '[' :: (e.body ++ ']' :: idxsText es)

/-- The blocks behind the first. -/
def nextText : List (Name × List Exp) → Text
  | [] => []
  | (x, idxs) :: bs => '.' :: (x.text ++ (idxsText idxs ++ nextText bs))

/-- The parameters of a call with the closing parenthesis. -/
def paramsText : List Exp → Text
  | [] => [')']
  | e :: es => e.body ++ moreParamsText es

def moreParamsText : List Exp → Text
  | [] => [')']
  | e :: es => ',' :: ' ' :: (e.body ++ moreParamsText es)

/-- What is taken of a call's result. -/
def tailText : Option Ref → Text
  | none => []
  | some r => '.' :: r.text

end

/-- An expression as it is printed in a place of level `k`. -/
def Exp.text (k : Nat) (e : Exp) : Text := wrap (e.level < k) e.body

mutual

/-- What an expression should be read as. -/
def Exp.tree (p : Parser) : Exp → Node
  | .num n => .num n.value (leastWidth n.value)
  | .ref r => r.tree p
  | .unary op child => .unary op.code (child.tree p)
  | .bin op left right => .bin op.code (left.tree p) (right.tree p)

def Ref.tree (p : Parser) : Ref → Node
  | .chain x idxs next => .varBlock ((p.imp x.text).getD x.text) (expTrees p idxs) (nextTrees p next)
  | .call x idxs next generics params tail =>
    .callFunc (.varBlock ((p.imp x.text).getD x.text) (expTrees p idxs) (nextTrees p next))
      (trees p generics) (expTrees p params) (tailTree p tail)

def expTrees (p : Parser) : List Exp → List Node
  | [] => []
  | e :: es => e.tree p :: expTrees p es

def nextTrees (p : Parser) : List (Name × List Exp) → List (Text × List Node)
  | [] => []
  | (x, idxs) :: bs => (x.text, expTrees p idxs) :: nextTrees p bs

def tailTree (p : Parser) : Option Ref → Option Node
  | none => none
  | some r => some (r.tree p)

end

/-- A chain of one or two names without an index could also be a type. -/
def likeType (idxs : List Exp) : List (Name × List Exp) → Bool
  | [] => idxs.isEmpty
  | [(_, idxs')] => idxs.isEmpty && idxs'.isEmpty
  | _ => false

/-- Whether the last operand of an expression, printed in a place of level `k`, is such a chain. -/
def Exp.endsLikeType (k : Nat) : Exp → Bool
  | .num _ => false
  | .ref (.chain _ idxs next) => likeType idxs next
  | .ref (.call ..) => false
  | .unary _ child => decide (k ≤ 3) && child.endsLikeType 4
  | .bin op _ right => decide (k ≤ op.level) && right.endsLikeType (op.level + 1)

end CalcLang.Parser
