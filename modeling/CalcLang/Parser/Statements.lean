import CalcLang.Parser.Expressions

/-!
# Printed statements

A `Stmt` is a statement as it is written, with one statement in a line and the lines of a
block between its braces. `Stmt.tree` is what it should be read as, where a blank line is an
`EmptyNode`; `Node.erase` drops those.

A header is ambiguous if the last thing in front of its block is a chain like a type and the
block has only blank lines: then the chain and the block are a literal of a struct.
-/

namespace CalcLang.Parser

open CalcLang.Lex CalcLang.Lib

/-! ## Headers -/

/-- A variable chain. -/
structure Chain where
  x : Name
  idxs : List Exp
  next : List (Name × List Exp)

def Chain.ref (c : Chain) : Ref := .chain c.x c.idxs c.next

/-- A call. -/
structure CallFunc where
  chain : Chain
  generics : List Ty
  params : List Exp
  tail : Option Ref

def CallFunc.ref (c : CallFunc) : Ref :=
  .call c.chain.x c.chain.idxs c.chain.next c.generics c.params c.tail

/-- The operators of a comparison. -/
inductive CompareOp
  | eq | neq | lg | sm | leq | seq
  deriving DecidableEq

def CompareOp.code : CompareOp → TokenType
  | eq => .eq
  | neq => .neq
  | lg => .lg
  | sm => .sm
  | leq => .leq
  | seq => .seq

def CompareOp.text : CompareOp → Text
  | eq => ['=', '=']
  | neq => ['!', '=']
  | lg => ['>']
  | sm => ['<']
  | leq => ['>', '=']
  | seq => ['<', '=']

/-- A condition: a chain, or a single comparison of two. -/
inductive Cond
  | chain (c : Chain)
  | compare (op : CompareOp) (left right : Chain)

/-- The operand in front of what follows. -/
def Cond.last : Cond → Chain
  | chain c => c
  | compare _ _ right => right

def Cond.text : Cond → Text
  | chain c => c.ref.text
  | compare op left right => left.ref.text ++ ' ' :: (op.text ++ ' ' :: right.ref.text)

def Cond.tree (p : Parser) : Cond → Node
  | chain c => c.ref.tree p
  | compare op left right => .compare op.code (left.ref.tree p) (right.ref.tree p)

/-- An assignment, through any number of pointers. -/
structure Assign where
  level : Nat
  target : Chain
  value : Exp

def Assign.text (a : Assign) : Text :=
  List.replicate a.level '*' ++ (a.target.ref.text ++ ' ' :: '=' :: ' ' :: a.value.body)

def Assign.tree (p : Parser) (a : Assign) : Node :=
  .bin .assign (.takeVal a.level (a.target.ref.tree p)) (a.value.tree p)

/-- What gives a variable its value: `:=` or an assignment. -/
inductive Setting
  | deas (x : Name) (value : Exp)
  | assign (a : Assign)

def Setting.text : Setting → Text
  | deas x value => x.text ++ ' ' :: ':' :: '=' :: ' ' :: value.body
  | assign a => a.text

def Setting.tree (p : Parser) : Setting → Node
  | deas x value => .defAndAssign x.text (value.tree p)
  | assign a => a.tree p

/-- What stands between `for` and the block. -/
inductive Header
  | bare
  | parts (init : Option Setting) (cond : Option Cond) (step : Option Assign)

/-- With a blank in front, if there is anything. -/
def leadText : Option Text → Text
  | none => []
  | some t => ' ' :: t

def Header.text : Header → Text
  | bare => []
  | parts init cond step => leadText (init.map Setting.text) ++
      ';' :: (leadText (cond.map Cond.text) ++ ';' :: leadText (step.map Assign.text))

/-! ## Statements -/

/-- A reserved word by its code. -/
def word (c : TokenType) : Text := ((reserved.find? fun w => w.2 = c).map Prod.fst).getD []

mutual

/-- A statement. -/
inductive Stmt
  | blank
  | define (x : Name) (tp : Ty)
  | setting (s : Setting)
  | call (c : CallFunc)
  | ifST (i : If)
  | forST (h : Header) (body : List Stmt)
  | breakST
  | continueST
  | ret (value : Option Exp)

/-- A condition with its block, and what is done otherwise. -/
inductive If
  | mk (cond : Cond) (body : List Stmt) (els : Else)

inductive Else
  | none
  | block (body : List Stmt)
  | elseIf (i : If)

end

/-- A block with the given lines. -/
def blockText (lines : Text) : Text := ' ' :: '\x7b' :: '\n' :: (lines ++ ['\x7d'])

mutual

/-- A statement as it is printed, without the newline. -/
def Stmt.text : Stmt → Text
  | .blank => []
  | .define x tp => word .resVar ++ ' ' :: (x.text ++ ' ' :: tp.text)
  | .setting s => s.text
  | .call c => c.ref.text
  | .ifST i => i.text
  | .forST h body => word .resFor ++ (h.text ++ blockText (linesText body))
  | .breakST => word .resBr
  | .continueST => word .resCo
  | .ret none => word .resRet
  | .ret (some e) => word .resRet ++ ' ' :: e.body

def If.text : If → Text
  | .mk cond body els =>
    word .resIf ++ ' ' :: (cond.text ++ (blockText (linesText body) ++ els.text))

def Else.text : Else → Text
  | .none => []
  | .block body => ' ' :: (word .resEl ++ blockText (linesText body))
  | .elseIf i => ' ' :: (word .resEl ++ ' ' :: i.text)

/-- One statement in a line. -/
def linesText : List Stmt → Text
  | [] => []
  | s :: ss => s.text ++ '\n' :: linesText ss

end

mutual

/-- What a statement should be read as. -/
def Stmt.tree (p : Parser) : Stmt → Node
  | .blank => .empty
  | .define x tp => .define x.text (tp.tree p)
  | .setting s => s.tree p
  | .call c => c.ref.tree p
  | .ifST i => i.tree p
  | .forST .bare body => .forST none none none (.sl (stmtTrees p body))
  | .forST (.parts init cond step) body =>
    .forST (init.map (Setting.tree p)) (cond.map (Cond.tree p)) (step.map (Assign.tree p))
      (.sl (stmtTrees p body))
  | .breakST => .breakST
  | .continueST => .continueST
  | .ret value => .ret (value.map (Exp.tree p))

def If.tree (p : Parser) : If → Node
  | .mk cond body .none => .ifST (cond.tree p) (.sl (stmtTrees p body))
  | .mk cond body (.block els) =>
    .ifElse (cond.tree p) (.sl (stmtTrees p body)) (.sl (stmtTrees p els))
  | .mk cond body (.elseIf i) => .ifElse (cond.tree p) (.sl (stmtTrees p body)) (i.tree p)

def stmtTrees (p : Parser) : List Stmt → List Node
  | [] => []
  | s :: ss => s.tree p :: stmtTrees p ss

end

mutual

/-- A tree without its `EmptyNode`s. -/
def Node.erase : Node → Node
  | .sl children => .sl (eraseNodes children)
  | .ifST boolExp statements => .ifST boolExp statements.erase
  | .ifElse boolExp statements elSt => .ifElse boolExp statements.erase elSt.erase
  | .forST defineAssign bool assign statements => .forST defineAssign bool assign statements.erase
  | n => n

def eraseNodes : List Node → List Node
  | [] => []
  | .empty :: ns => eraseNodes ns
  | n :: ns => n.erase :: eraseNodes ns

end

/-! ## Ambiguity -/

def Stmt.isBlank : Stmt → Bool
  | .blank => true
  | _ => false

/-- A block of blank lines. -/
def blankLines (body : List Stmt) : Bool := body.all Stmt.isBlank

def Chain.likeType (c : Chain) : Bool := Parser.likeType c.idxs c.next

/-- Whether a chain like a type stands in front of the block. -/
def Header.endsLikeType : Header → Bool
  | bare => false
  | parts _ _ none => false
  | parts _ _ (some step) => step.value.endsLikeType 0

mutual

/-- A header in the statement, at any depth, is ambiguous. -/
def Stmt.ambiguous : Stmt → Bool
  | .ifST i => i.ambiguous
  | .forST h body => (h.endsLikeType && blankLines body) || anyAmbiguous body
  | _ => false

def If.ambiguous : If → Bool
  | .mk cond body els =>
    (cond.last.likeType && blankLines body) || anyAmbiguous body || els.ambiguous

def Else.ambiguous : Else → Bool
  | .none => false
  | .block body => anyAmbiguous body
  | .elseIf i => i.ambiguous

def anyAmbiguous : List Stmt → Bool
  | [] => false
  | s :: ss => s.ambiguous || anyAmbiguous ss

end

/-! ## Trees without empty nodes -/

section Erase

variable {n : Node} {ns ms : List Node}

@[simp] theorem eraseNodes_empty (ns : List Node) : eraseNodes (.empty :: ns) = eraseNodes ns := by
  rw [eraseNodes]

theorem eraseNodes_cons (h : n ≠ .empty) : eraseNodes (n :: ns) = n.erase :: eraseNodes ns := by
  rw [eraseNodes]
  exact h

theorem eraseNodes_append : eraseNodes (ns ++ ms) = eraseNodes ns ++ eraseNodes ms := by
  induction ns with
  | nil => rfl
  | cons n ns ih =>
    by_cases h : n = .empty
    · subst h
      rw [List.cons_append, eraseNodes_empty, eraseNodes_empty, ih]
    · rw [List.cons_append, eraseNodes_cons h, eraseNodes_cons h, ih, List.cons_append]

end Erase

end CalcLang.Parser
