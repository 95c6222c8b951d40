import CalcLang.Lex.Scan
import CalcLang.Lib.Backtrack
import CalcLang.Parser.ParseInt
import CalcLang.Parser.Tree

/-!
# The parser

`compiler/parser`: a recursive descent that tries alternatives in turn and rewinds the
lexer. Every function of the source is a computation on the lexer, under its name.

The source's functions call each other in circles. Here the calls that close a circle go
through a record of functions, `Rec`, and `Parser.depth` ties the knot with a number that
bounds how deep such calls nest, and how often a loop is run. `Parser.Termination` shows
that a number above the length of the text never runs out by itself.

A loop is a definition of what it does in one turn, with a `Turn` at the end of its name: it
goes on with a left value and ends with a right one.

`SkipLn` looks for the next newline without asking for the end of the text, so its
calls are noted, and those of `ParseModule`, which is code of its own.
-/

namespace CalcLang

open CalcLang.Lex CalcLang.Lib

namespace Parser

/-- The errors that a caller can tell from each other. -/
inductive Err
  | eos | type | other
  deriving DecidableEq

/-- A call that may not return: of `SkipLn`, with the lexer as it is then, or of `ParseModule`. -/
inductive Call
  | skipLn (l : Lexer)
  | parseModule (mod : Text)
  deriving DecidableEq

/-- A computation of the parser. -/
abbrev P := Back Err Lexer Call

/-- What a call of `ParseModule` comes to. -/
inductive Loaded
  | done | panics | never
  deriving DecidableEq

end Parser

/-- A parser: the imports by their names and the module it parses a file of; `runes` and `cap`
are the array of its lexer. What is not of the parser itself is given: the modules loading this
one, how `ParseModule` ends, the order in which Go goes through a map, what a receiver's type is
called (or that it panics), and whether a function is added to the scope without a panic. -/
structure Parser where
  imp : Text → Option Text
  mod : Text
  runes : Text
  cap : Nat
  fathers : Text → Bool
  parseModule : Text → Parser.Loaded
  range : List (Text × Text) → List (Text × Text)
  typeString : Parser.TypeNode → Option Text
  addtoScope : Parser.Node → Bool

namespace Parser

/-- The functions that are called in circles, and how often a loop is run at most. -/
structure Rec where
  fuel : Nat
  allTypes : P TypeNode
  exp : P Node
  boolexp : P Node
  boolean : P Node
  allexp : P Node
  callFunc : P Node
  ifstatement : P Node
  statementList : P Node

/-! ## The lexer's functions -/

/-- `Scan`. -/
def scan : P (TokenType × Text × Bool) where
  run l :=
    match l.Scan with
    | .token code text eos l' => .ok (code, text, eos) l'
    | .panic => .panic
    | .fatal => .fatal

/-- `getChSkipEmpty`. -/
def getChSkipEmpty : P (Option Char) where
  run l :=
    match l.rest.dropWhile isBlank with
    | [] => .ok none ⟨[], l.past + 1⟩
    | c :: s => .ok (some c) ⟨s, l.past⟩

/-- `ScanType` without its first branch. At the end of the text it does not rewind. -/
def scanCode (code : TokenType) : P Text := do
  let ch ← Back.here
  let (c, t, e) ← scan
  if c = code then pure t
  else if e then Back.throw .eos
  else do
    Back.goback ch
    Back.throw .type

/-- `ScanType`. A `>` is found whatever comes behind it. -/
def scanType (code : TokenType) : P Text :=
  if code = .lg then do
    let chp ← Back.here
    match ← getChSkipEmpty with
    | none => Back.throw .eos
    | some ch =>
      if ch = '>' then pure [ch]
      else do
        Back.goback chp
        scanCode code
  else scanCode code

/-- Whether `ScanType` finds the token. -/
def sees (code : TokenType) : P Bool := do
  match ← (scanType code).attempt with
  | .ok _ => pure true
  | .error _ => pure false

/-- A call whose error is not looked at. -/
def opt {α : Type} (x : P α) : P (Option α) := do
  match ← x.attempt with
  | .ok a => pure (some a)
  | .error _ => pure none

/-- `runWithCatch` and its three like. -/
def runWithCatch {α : Type} (x : P α) : P α := Back.catching .other x

/-- `empty`. -/
def empty : P Node := do
  let _ ← (scanType .nl).must
  pure .empty

variable (p : Parser) (r : Rec)

/-- The position of the lexer. -/
def pos (l : Lexer) : Nat := p.runes.length - l.rest.length + l.past

/-- The loop of `SkipLn`, from `prev` on: the text up to the newline. -/
def skipTurn (prev : Lexer) (_ : Unit) : P (Unit ⊕ Text) := do
  let l ← Back.here
  let (code, _, _) ← scan
  if code = .nl then pure (.inr (prev.rest.take (prev.rest.length - l.rest.length)))
  else pure (.inl ())

/-- `SkipLn`: the text up to the newline, and the number of the line. -/
def skipLn : P (Text × Nat) := do
  let l ← Back.here
  Back.note (.skipLn l)
  if p.cap < p.pos l then Back.panic
  else do
    let src ← Back.iterate (skipTurn l) r.fuel ()
    pure (src, 1 + (p.runes.take (p.pos l)).count '\n')

/-- A statement that could not be parsed. -/
def errST : P Node := do
  let (src, ln) ← p.skipLn r
  pure (.errST ln src)

/-! ## Types -/

/-- The loop over the stars of a type, of a dereference and of an assignment. -/
def starsTurn (level : Nat) : P (Nat ⊕ Nat) := do
  if ← sees .mul then pure (.inl (level + 1)) else pure (.inr level)

def stars : P Nat := Back.iterate starsTurn r.fuel 0

def genericCallParamsTurn (n : List TypeNode) : P (List TypeNode ⊕ List TypeNode) := do
  if ← sees .lg then pure (.inr n)
  else do
    let _ ← scanType .comma
    let t ← r.allTypes
    pure (.inl (n ++ [t]))

/-- `genericCallParams`. -/
def genericCallParams : P (List TypeNode) := Back.rewinding do
  let _ ← scanType .sm
  let t ← r.allTypes
  Back.iterate (genericCallParamsTurn r) r.fuel [t]

/-- `basicTypes`. -/
def basicTypes : P TypeNode := Back.rewinding do
  let (code, t, eos) ← scan
  if eos then Back.throw .eos
  else
    match IsResType t with
    | some co => pure (.basic co 0)
    | none =>
      if code = .var then do
        let tp ← (do
          if ← sees .dot then do
            let t' ← scanType .var
            pure [(p.imp t).getD [], t']
          else pure [t])
        let generic ← opt (genericCallParams r)
        pure (.custom tp (generic.getD []) p.mod 0)
      else Back.throw .other

/-- `strconv.Atoi`, whose error the source does not look at. -/
def atoi (t : Text) : Int :=
  if t = [] then 0
  else
    match digits 10 0 t with
    | some n => if n < 2 ^ 63 then n else 2 ^ 63 - 1
    | none => 0

/-- `arrayTypes`. -/
def arrayTypes : P TypeNode := Back.rewinding do
  let _ ← scanType .lsb
  let len ← (do
    match ← (scanType .int).attempt with
    | .ok t => pure (atoi t)
    | .error _ => pure (-1))
  let _ ← scanType .rsb
  let tn ← r.allTypes
  pure (.array len tn 0)

/-- `funcParam`. -/
def funcParam : P (Text × TypeNode) := do
  let t ← (scanType .var).must
  let tp ← r.allTypes.must
  pure (t, tp)

/-- `extFuncParam`. -/
def extFuncParam : P (Text × TypeNode) := do
  let _ ← scanType .resThis
  funcParam r

/-- The loops of `funcParams` and `callFunc` over what stands before a `)`. -/
def untilRpTurn {α : Type} (x : P α) (as : List α) : P (List α ⊕ List α) := do
  match ← (scanType .rp).attempt with
  | .ok _ => pure (.inr as)
  | .error .eos => Back.panic
  | .error _ => do
    let _ ← (scanType .comma).must
    let a ← x
    pure (.inl (as ++ [a]))

def untilRp {α : Type} (x : P α) (as : List α) : P (List α) :=
  Back.iterate (untilRpTurn x) r.fuel as

/-- `funcParams`. -/
def funcParams : P ParamsNode := do
  let _ ← (scanType .lp).must
  match ← (scanType .rp).attempt with
  | .ok _ => pure ⟨[], false⟩
  | .error .eos => Back.panic
  | .error _ => do
    match ← (extFuncParam r).attempt with
    | .ok n => do
      let params ← untilRp r (funcParam r) [n]
      pure ⟨params, true⟩
    | .error _ => do
      let n ← funcParam r
      let params ← untilRp r (funcParam r) [n]
      pure ⟨params, false⟩

/-- `funcTypes`. -/
def funcTypes : P TypeNode := do
  let _ ← scanType .resFunc
  let args ← funcParams r
  let ret ← opt r.allTypes
  pure (.func args.params args.ext ret 0)

def structTypeTurn (ofs : List (Text × TypeNode)) :
    P (List (Text × TypeNode) ⊕ List (Text × TypeNode)) := do
  if ← sees .rb then pure (.inr ofs)
  else
    match ← (scanType .var).attempt with
    | .ok t => do
      let f ← r.allTypes.must
      pure (.inl (ofs ++ [(t, f)]))
    | .error _ => do
      let _ ← empty
      pure (.inl ofs)

/-- `structType`. -/
def structType : P TypeNode := do
  let _ ← scanType .resStruct
  let _ ← scanType .lb
  let ofs ← Back.iterate (structTypeTurn r) r.fuel []
  pure (.struct ofs 0)

/-- The methods of an interface. -/
abbrev Funcs := List (Text × (List (Text × TypeNode) × Bool) × TypeNode)

def interfaceTypeTurn (funcs : Funcs) : P (Funcs ⊕ Funcs) := do
  if ← sees .rb then pure (.inr funcs)
  else
    match ← (scanType .var).attempt with
    | .ok t => do
      let params ← funcParams r
      let retType ← r.allTypes.must
      let _ ← empty
      pure (.inl (funcs ++ [(t, (params.params, params.ext), retType)]))
    | .error _ => do
      let _ ← empty
      pure (.inl funcs)

/-- `interfaceType`. -/
def interfaceType : P TypeNode := do
  let _ ← scanType .resInterface
  let _ ← scanType .lb
  let funcs ← Back.iterate (interfaceTypeTurn r) r.fuel []
  pure (.interface funcs 0)

/-- `allTypes`. Only some of the alternatives rewind. -/
def allTypes : P TypeNode := do
  let ptrLevel ← stars r
  let n ← structType r <|> interfaceType r <|> basicTypes p r <|> arrayTypes r <|> funcTypes r
  pure (n.setPtrLevel ptrLevel)

/-! ## Expressions -/

def varBlockTurn (idxs : List Node) : P (List Node ⊕ List Node) := do
  if ← sees .lsb then do
    let e ← r.allexp
    let _ ← scanType .rsb
    pure (.inl (idxs ++ [e]))
  else pure (.inr idxs)

/-- `varBlock`: a name and its indices. -/
def varBlock : P (Text × List Node) := do
  let t ← scanType .var
  let idxs ← Back.iterate (varBlockTurn r) r.fuel []
  pure (t, idxs)

def varChainTurn (next : List (Text × List Node)) :
    P (List (Text × List Node) ⊕ List (Text × List Node)) := do
  if ← sees .dot then do
    let b ← varBlock r
    pure (.inl (next ++ [b]))
  else pure (.inr next)

/-- `varChain`. An import's name stands for its path. -/
def varChain : P Node := do
  let head ← varBlock r
  let next ← Back.iterate (varChainTurn r) r.fuel []
  pure (.varBlock ((p.imp head.1).getD head.1) head.2 next)

/-- `nilExp`. -/
def nilExp : P Node := do
  let _ ← scanType .resNil
  pure .nil

/-- `strExp`. -/
def strExp : P Node := do
  let str ← scanType .str
  pure (.str str)

def structInitTurn (fields : List (Text × Node)) :
    P (List (Text × Node) ⊕ List (Text × Node)) := do
  if ← sees .rb then pure (.inr fields)
  else
    match ← (scanType .var).attempt with
    | .error _ => do
      let _ ← empty
      pure (.inl fields)
    | .ok t => do
      if t.contains '.' then Back.panic
      else do
        let _ ← scanType .colon
        let e ← r.allexp
        if ← sees .comma then pure (.inl (fields ++ [(t, e)]))
        else do
          let _ ← scanType .rb
          pure (.inr (fields ++ [(t, e)]))

/-- What `structInit` reads behind the type. -/
def structInitBody (tp : TypeNode) : P Node := do
  let _ ← scanType .lb
  let fields ← Back.iterate (structInitTurn r) r.fuel []
  pure (.structInit tp fields)

/-- `structInit`. -/
def structInit : P Node := do
  let tp ← p.allTypes r
  structInitBody r tp

def arrayInitTurn (vals : List Node) : P (List Node ⊕ List Node) := do
  if ← sees .rb then pure (.inr vals)
  else if ← sees .nl then pure (.inl vals)
  else do
    let e ← r.allexp
    if ← sees .comma then pure (.inl (vals ++ [e]))
    else do
      let _ ← scanType .rb
      pure (.inr (vals ++ [e]))

/-- `arrayInit`. -/
def arrayInit : P Node := do
  let tp ← arrayTypes r
  let _ ← scanType .lb
  let vals ← Back.iterate (arrayInitTurn r) r.fuel []
  pure (.arrayInit tp vals)

/-- What stands behind the dots of a call: a call, or else a chain. Only the last one counts, but
a call takes all dots behind it itself. -/
def callNextTurn (next : Option Node) : P (Option Node ⊕ Option Node) := do
  if ← sees .dot then do
    let inner ← runWithCatch r.callFunc <|> (p.varChain r).must
    pure (.inl (some inner))
  else pure (.inr next)

/-- The parameters of a call, with the closing parenthesis. -/
def callParams : P (List Node) := do
  match ← (scanType .rp).attempt with
  | .ok _ => pure []
  | .error .eos => Back.panic
  | .error _ => do
    let e ← r.allexp
    untilRp r r.allexp [e]

/-- `callFunc`. -/
def callFunc : P Node := do
  let fnnode ← (runWithCatch (p.varChain r)).must
  let generics ← opt (genericCallParams r)
  let _ ← (scanType .lp).must
  let params ← callParams r
  let next ← Back.iterate (p.callNextTurn r) r.fuel none
  pure (.callFunc fnnode (generics.getD []) params next)

/-- `takeValExp`. -/
def takeValExp : P Node := do
  let level ← stars r
  let node ← runWithCatch (arrayInit r) <|> runWithCatch (p.structInit r) <|>
    runWithCatch (p.callFunc r) <|> runWithCatch (p.varChain r)
  pure (if level = 0 then node else .takeVal level node)

/-- `takePtrExp`. -/
def takePtrExp : P Node := do
  let _ ← scanType .esp
  let node ← runWithCatch (arrayInit r) <|> runWithCatch (p.structInit r) <|>
    runWithCatch (p.varChain r)
  pure (.takePtr node)

/-- `strconv.ParseFloat` on the text of a number, first with 32 bits and then with 64: whether it
is read, and whether it takes the 64. The bounds are where rounding to the nearest overflows. -/
def parseFloat (t : Text) : Option Bool :=
  let (int, frac) := (t.takeWhile (· ≠ '.'), (t.dropWhile (· ≠ '.')).tail)
  match digits 10 0 (int ++ frac) with
  | some n =>
    if n < (2 ^ 128 - 2 ^ 103) * 10 ^ frac.length then some false
    else if n < (2 ^ 1024 - 2 ^ 970) * 10 ^ frac.length then some true
    else none
  | none => none

/-- What `number` does with anything else: literals and parentheses. -/
def literal : P Node := do
  let ch ← Back.here
  let (code, t1, eos) ← scan
  if eos then Back.panic
  else if code = .float then
    match parseFloat t1 with
    | some double => pure (.float t1 double)
    | none => Back.panic
  else if code = .int then
    match ParseInt t1 with
    | some (i, bw) => pure (.num i bw)
    | none => Back.panic
  else do
    Back.goback ch
    let _ ← (scanType .lp).must
    let i ← r.exp
    let _ ← (scanType .rp).must
    pure i

/-- `number`. -/
def number : P Node :=
  runWithCatch strExp <|> runWithCatch (p.takeValExp r) <|> literal r

/-- `symbol`. -/
def symbol : P Node := do
  let ch ← Back.here
  let (code, _, eos) ← scan
  if eos then Back.panic
  else if code = .plus ∨ code = .sub then do
    let n ← p.number r
    pure (.unary code n)
  else do
    Back.goback ch
    p.number r

/-- What `exp`, `addedFactor` and `factor` have in common: operands with operators of one level
between them. The codes that `Scan` returns at the end of the text are no operators. -/
def leftAssocTurn (ops : List TokenType) (operand : P Node) (a : Node) : P (Node ⊕ Node) := do
  let ch ← Back.here
  let (code, _, eos) ← scan
  if ops.contains code then do
    let b ← operand
    pure (.inl (.bin code a b))
  else if eos then pure (.inr a)
  else do
    Back.goback ch
    pure (.inr a)

def leftAssoc (ops : List TokenType) (operand : P Node) : P Node := do
  let a ← operand
  Back.iterate (leftAssocTurn ops operand) r.fuel a

/-- `factor`. -/
def factor : P Node := leftAssoc r [.div, .mul, .ps] (p.symbol r)

/-- `addedFactor`. -/
def addedFactor : P Node := leftAssoc r [.plus, .sub] (p.factor r)

/-- `exp`. -/
def exp : P Node := leftAssoc r [.shl, .shr] (p.addedFactor r)

/-- `boolean`. -/
def boolean : P Node := Back.rewinding do
  if ← sees .resTrue then pure (.bool true)
  else if ← sees .resFalse then pure (.bool false)
  else
    runWithCatch (p.exp r) <|> nilExp <|> do
      let (code, _, eos) ← scan
      if eos then Back.throw .eos
      else if code = .not then do
        let node ← r.boolean
        pure (.not node)
      else if code = .lp then do
        let node ← r.boolexp
        let _ ← scanType .rp
        pure node
      else Back.throw .other

/-- The operators of `compare`. -/
def compareOps : List TokenType := [.eq, .neq, .lg, .sm, .leq, .seq]

def compareTurn (node : Node) : P (Node ⊕ Node) := do
  let check ← Back.here
  let (code, _, eos) ← scan
  if eos then Back.throw .eos
  else if compareOps.contains code then do
    let right ← runWithCatch (p.boolean r)
    pure (.inl (.compare code node right))
  else do
    Back.goback check
    pure (.inr node)

/-- `compare`. -/
def compare : P Node := Back.rewinding do
  let node ← runWithCatch (p.boolean r)
  Back.iterate (p.compareTurn r) r.fuel node

def bitOpTurn (node : Node) : P (Node ⊕ Node) := do
  let check ← Back.here
  let (code, _, eos) ← scan
  if eos then pure (.inr node)
  else if [TokenType.bitOr, .esp, .bitXor].contains code then do
    let right ← p.compare r
    pure (.inl (.bin code node right))
  else do
    Back.goback check
    pure (.inr node)

/-- `bitOp`. -/
def bitOp : P Node := Back.rewinding do
  let node ← p.compare r
  Back.iterate (p.bitOpTurn r) r.fuel node

/-- `boolexp`. -/
def boolexp : P Node := Back.rewinding do
  let node ← p.bitOp r
  let cp ← Back.here
  let (co, _, eos) ← scan
  if eos then Back.throw .eos
  else if co = .and ∨ co = .or then do
    let right ← p.compare r
    pure (.boolExp co node right)
  else do
    Back.goback cp
    pure node

/-- `statementBlock`. -/
def statementBlock : P Node := do
  let _ ← scanType .lb
  let n ← r.statementList
  let _ ← scanType .rb
  pure n

/-- `inlineFunc`. -/
def inlineFunc : P Node := do
  let fntp ← funcTypes r
  let async ← sees .resAsync
  let body ← runWithCatch (statementBlock r)
  pure (.inlineFunc fntp async body)

/-- `allexp`. -/
def allexp : P Node := do
  if ← sees .resAwait then do
    let e ← r.allexp
    pure (.await e)
  else
    runWithCatch (p.takePtrExp r) <|> runWithCatch (inlineFunc r) <|> (p.boolexp r).must

/-! ## Statements -/

/-- `assign`. -/
def assign : P Node := Back.rewinding do
  let level ← stars r
  let node ← runWithCatch (p.varChain r)
  let _ ← scanType .assign
  let e ← p.allexp r
  pure (.bin .assign (.takeVal level node) e)

/-- `define`. The newline is taken by a deferred call. -/
def define : P Node := do
  let n ← Back.rewinding do
    let _ ← scanType .resVar
    let id ← scanType .var
    let tp ← (p.allTypes r).must
    pure (.define id tp)
  let _ ← empty
  pure n

/-- `defineAndAssign`. -/
def defineAndAssign : P Node := Back.rewinding do
  let id ← (do
    if ← sees .resVar then do
      let id ← scanType .var
      let _ ← scanType .assign
      pure id
    else do
      let id ← scanType .var
      let _ ← scanType .deas
      pure id)
  let val ← p.allexp r
  pure (.defAndAssign id val)

/-- `breakST`. -/
def breakST : P Node := do
  let _ ← scanType .resBr
  let _ ← empty
  pure .breakST

/-- `continueST`. -/
def continueST : P Node := do
  let _ ← scanType .resCo
  let _ ← empty
  pure .continueST

/-- `ifstatement`. -/
def ifstatement : P Node := do
  let _ ← scanType .resIf
  let be ← p.boolexp r
  let statements ← statementBlock r
  if ← sees .resEl then do
    let elstatements ← r.ifstatement <|> statementBlock r
    pure (.ifElse be statements elstatements)
  else pure (.ifST be statements)

/-- `forloop`. -/
def forloop : P Node := do
  let _ ← scanType .resFor
  let defineAssign ← opt (runWithCatch (p.defineAndAssign r) <|> runWithCatch (p.assign r))
  if ← sees .semi then do
    let bool ← opt (p.boolexp r)
    let _ ← scanType .semi
    let assign ← opt (p.assign r)
    let st ← statementBlock r
    pure (.forST defineAssign bool assign st)
  else do
    let st ← statementBlock r
    pure (.forST defineAssign none none st)

/-- `returnST`. -/
def returnST : P Node := do
  let _ ← scanType .resRet
  match ← (runWithCatch empty).attempt with
  | .ok _ => pure (.ret none)
  | .error _ => do
    let e ← p.allexp r
    pure (.ret (some e))

/-- `yield`. -/
def yield : P Node := do
  let _ ← scanType .resYield
  let exp ← opt (runWithCatch (p.allexp r))
  let _ ← empty
  pure (.yield exp)

/-- What `statement` does if none of the alternatives is taken; `ch1` is where it started. -/
def otherStatement (ch1 : Lexer) : P Node := do
  let ch ← Back.here
  let (c, _, _) ← scan
  if c = .var then do
    Back.goback ch
    let cf ← p.callFunc r
    let _ ← empty
    pure cf
  else if c = .nl then do
    Back.goback ch
    empty
  else do
    Back.goback ch1
    p.errST r

/-- `statement`. After a panic the line is skipped. -/
def statement : P Node :=
  Back.recovering (do
    let ch1 ← Back.here
    if ← sees .resAwait then do
      let e ← p.allexp r
      pure (.await e)
    else
      runWithCatch continueST <|> runWithCatch breakST <|> runWithCatch (p.yield r) <|>
        runWithCatch (p.forloop r) <|> runWithCatch (p.defineAndAssign r) <|>
        runWithCatch (p.ifstatement r) <|> runWithCatch (p.assign r) <|>
        runWithCatch (p.define r) <|> runWithCatch (p.returnST r) <|> p.otherStatement r ch1)
    (p.errST r)

def statementListTurn (children : List Node) : P (List Node ⊕ List Node) := do
  let n ← p.statement r
  let ch ← Back.here
  let (c, _, _) ← scan
  Back.goback ch
  if c = .rb then pure (.inr (children ++ [n])) else pure (.inl (children ++ [n]))

/-- `statementList`. -/
def statementList : P Node := do
  let children ← Back.iterate (p.statementListTurn r) r.fuel []
  pure (.sl children)

/-- The functions that call each other, with calls nested `n` deep at most. -/
def depth (p : Parser) : Nat → Rec
  | 0 => ⟨1, Back.out, Back.out, Back.out, Back.out, Back.out, Back.out, Back.out, Back.out⟩
  | n + 1 =>
    let r := p.depth n
    ⟨n + 2, p.allTypes r, p.exp r, p.boolexp r, p.boolean r, p.allexp r, p.callFunc r,
      p.ifstatement r, p.statementList r⟩

/-! ## Files -/

def genericParamsTurn (n : List Text) : P (List Text ⊕ List Text) := do
  if ← sees .lg then pure (.inr n)
  else do
    let _ ← scanType .comma
    let t ← scanType .var
    pure (.inl (n ++ [t]))

/-- `genericParams`. -/
def genericParams : P (List Text) := Back.rewinding do
  let _ ← scanType .sm
  let t ← scanType .var
  Back.iterate genericParamsTurn r.fuel [t]

/-- `typeDef`. -/
def typeDef : P Node := do
  let _ ← scanType .resType
  let t ← scanType .var
  let generics ← opt (genericParams r)
  let tp ← p.allTypes r
  pure (.typeDef t tp (generics.getD []))

/-- `function`. -/
def function : P Node := do
  let _ ← (scanType .resFunc).must
  let id ← (scanType .var).must
  let generics ← opt (genericParams r)
  let params ← funcParams r
  let id ← (do
    match params.ext, params.params with
    | true, (_, tp) :: _ =>
      match p.typeString tp with
      | some name => pure (name.takeWhile (· ≠ '<') ++ '.' :: id)
      | none => Back.panic
    | _, _ => pure id)
  let tp ← (p.allTypes r).must
  let async ← sees .resAsync
  let statements ← opt (statementBlock r)
  let fn := Node.func id (generics.getD []) params tp async statements
  if p.addtoScope fn then pure fn else Back.panic

/-- `pkgDeclare`. -/
def pkgDeclare : P Text := do
  let _ ← scanType .resPkg
  let t ← scanType .var
  let _ ← runWithCatch empty
  pure t

/-- The file of `path.Split`: what is behind the last slash. -/
def pathFile (path : Text) : Text := (path.reverse.takeWhile (· ≠ '/')).reverse

/-- An entry of a map is set. -/
def setImport (name path : Text) (imports : List (Text × Text)) : List (Text × Text) :=
  (name, path) :: imports.filter (·.1 ≠ name)

def importStatementTurn (imports : List (Text × Text)) :
    P (List (Text × Text) ⊕ List (Text × Text)) := do
  if ← sees .rp then pure (.inr imports)
  else if ← sees .nl then pure (.inl imports)
  else do
    let str ← scanType .str
    match ← (scanType .var).attempt with
    | .ok v => pure (.inl (setImport v str imports))
    | .error _ => pure (.inl (setImport (pathFile str) str imports))

/-- `importStatement`. -/
def importStatement : P (List (Text × Text)) := do
  let _ ← scanType .resImport
  match ← (scanType .str).attempt with
  | .ok str => pure [(pathFile str, str)]
  | .error _ => do
    let _ ← scanType .lp
    Back.iterate importStatementTurn r.fuel []

/-- The loop of `program` over the imports, which loads them. -/
def loadImports (p : Parser) : List (Text × Text) → P Unit
  | [] => pure ()
  | (_, v) :: imports =>
    if p.fathers v then Back.panic
    else do
      Back.note (.parseModule v)
      match p.parseModule v with
      | .done => p.loadImports imports
      | .panics => Back.panic
      | .never => Back.out

/-- The loop of `program` over what a file declares. -/
def declarationsTurn (children : List Node) : P (List Node ⊕ List Node) := do
  let ch ← Back.here
  let (c, _, eos) ← scan
  if c = .nl then pure (.inl children)
  else do
    Back.goback ch
    if eos then pure (.inr children)
    else do
      let n ← runWithCatch (p.typeDef r) <|> runWithCatch (p.define r) <|>
        runWithCatch (p.defineAndAssign r) <|> p.function r
      pure (.inl (children ++ [n]))

/-- The loop of `program` over blank lines. -/
def blankLinesTurn (_ : Unit) : P (Unit ⊕ Unit) := do
  if ← sees .nl then pure (.inl ()) else pure (.inr ())

/-- `program`, with calls nested `n` deep at most. -/
def program (n : Nat) : P ProgramNode := do
  let r := p.depth n
  let pkg ← pkgDeclare.must
  if pkg ≠ pathFile p.mod ∧ pkg ≠ "main".toList then Back.panic
  else do
    let mod := if pkg = "main".toList then pkg else p.mod
    Back.iterate blankLinesTurn r.fuel ()
    let imports ← opt (importStatement r)
    p.loadImports (p.range (imports.getD []))
    let p := { p with mod := mod, imp := fun name => (imports.getD []).lookup name }
    let r := p.depth n
    let children ← Back.iterate (p.declarationsTurn r) r.fuel []
    pure ⟨pkg, imports, children⟩

/-- `ParseAST`, with calls nested `n` deep at most. The parser's imports and the array of its lexer
are set here, the array with `spare` places behind the text. -/
def ParseAST (p : Parser) (n spare : Nat) (s : Text) : Run Err Lexer Call ProgramNode :=
  ({ p with imp := fun _ => none, runes := s, cap := s.length + spare }.program n).run ⟨s, 0⟩

/-- A parser of a file without imports. -/
def plain : Parser where
  imp _ := none
  mod := []
  runes := []
  cap := 0
  fathers _ := false
  parseModule _ := .done
  range imports := imports
  typeString _ := none
  addtoScope _ := true

end Parser

end CalcLang
