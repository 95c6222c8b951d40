import Mathlib.Data.List.Basic
import Mathlib.Tactic.Basic

/-!
# The lexer

`compiler/lexer/lexer.go`. A `Lexer` of Go is an array of runes and a position in it;
here it is what is left of the runes from the position on (`rest`), and how far the
position is behind the end of them (`past`): at the end every `getCh` still moves it.

`Scan` returns a code, a text and whether the end was reached. A token is never
returned together with the end; what comes with it is the zero of Go's `int`, which
is the code `TYPE_INT`, or -1 if the text ends in a comment.

Two things that `Scan` does are not results: it panics on an unknown escape in a
string, and it stops the program (`log.Fatalf`) at a character no token begins with.
-/

namespace CalcLang.Lex

/-- The codes of tokens, in the order of the table. `minusOne` is not in it: it is the -1
of a comment that is not ended. -/
inductive TokenType
  | int | plus | sub | mul | div | lp | rp | assign | resVar | resInt | nl | var | float
  | resFloat | resFunc | lb | rb | comma | resRet | resVoid | resTrue | resFalse | and | or | eq
  | resBool | lg | sm | leq | seq | not | neq | resIf | resEl | deas | resFor | semi | resBr
  | resCo | resType | resStruct | colon | lsb | rsb | esp | resInt32 | resFloat32 | resInt64
  | resFloat64 | resByte | dot | resThis | resInterface | resNil | resPkg | str | resStr
  | resImport | resOp | ps | shl | shr | bitOr | bitXor | resYield | resAsync | resAwait
  | minusOne
  deriving DecidableEq, Repr

/-- A text. -/
abbrev Text := List Char

/-- `reserved`. -/
def reserved : List (Text × TokenType) :=
  [("var".toList, .resVar), ("int".toList, .resInt), ("float".toList, .resFloat),
    ("func".toList, .resFunc), ("return".toList, .resRet), ("void".toList, .resVoid),
    ("true".toList, .resTrue), ("false".toList, .resFalse), ("bool".toList, .resBool),
    ("if".toList, .resIf), ("else".toList, .resEl), ("for".toList, .resFor),
    ("break".toList, .resBr), ("continue".toList, .resCo), ("type".toList, .resType),
    ("struct".toList, .resStruct), ("int32".toList, .resInt32), ("int64".toList, .resInt64),
    ("float32".toList, .resFloat32), ("float64".toList, .resFloat64), ("byte".toList, .resByte),
    ("this".toList, .resThis), ("interface".toList, .resInterface), ("nil".toList, .resNil),
    ("package".toList, .resPkg), ("string".toList, .resStr), ("import".toList, .resImport),
    ("op".toList, .resOp), ("yield".toList, .resYield), ("async".toList, .resAsync),
    ("await".toList, .resAwait)]

/-- `reservedTypes`. -/
def reservedTypes : List (Text × TokenType) :=
  [("int".toList, .resInt), ("float".toList, .resFloat), ("void".toList, .resVoid),
    ("bool".toList, .resBool), ("int32".toList, .resInt32), ("int64".toList, .resInt64),
    ("float32".toList, .resFloat32), ("float64".toList, .resFloat64), ("byte".toList, .resByte),
    ("string".toList, .resStr)]

/-- `IsResType`. -/
def IsResType (token : Text) : Option TokenType := reservedTypes.lookup token

def isLetter (ch : Char) : Bool := ('a' ≤ ch && ch ≤ 'z') || ('A' ≤ ch && ch ≤ 'Z')

def isLetterOrUnderscore (ch : Char) : Bool := isLetter ch || ch == '_'

def isNum (ch : Char) : Bool := '0' ≤ ch && ch ≤ '9'

/-- Spaces and tabs, which `getChSkipEmpty` skips. -/
def isBlank (ch : Char) : Bool := ch == ' ' || ch == '\t'

/-- A lexer: what is left, and how far behind the end it is. -/
@[ext]
structure Lexer where
  rest : Text
  past : Nat
  deriving DecidableEq, Repr

/-- What a call of `Scan` comes to. -/
inductive Scanned
  | token (code : TokenType) (text : Text) (eos : Bool) (l : Lexer)
  | panic
  | fatal
  deriving DecidableEq, Repr

/-! ## The kinds of tokens -/

/-- The characters of a word behind its first. `past` is handed through all of these:
`getCh` adds one to it at the end. -/
def scanWord (past : Nat) : Text → Text × Lexer
  | [] => ([], ⟨[], past + 1⟩)
  | c :: s =>
    if isLetterOrUnderscore c || isNum c then
      ((c :: (scanWord past s).1), (scanWord past s).2)
    else ([], ⟨c :: s, past⟩)

/-- The characters of a number behind its first, digits and points. -/
def scanNum (past : Nat) : Text → Text × Lexer
  | [] => ([], ⟨[], past + 1⟩)
  | c :: s =>
    if c = '.' || isNum c then ((c :: (scanNum past s).1), (scanNum past s).2)
    else ([], ⟨c :: s, past⟩)

/-- What an escape stands for. -/
def escape : Char → Option Char
  | '"' => some '"'
  | '\'' => some '\''
  | 't' => some '\t'
  | 'n' => some '\n'
  | 'r' => some '\r'
  | '\\' => some '\\'
  | '0' => some '\x00'
  | _ => none

/-- A string behind its opening quote. An unknown escape panics. -/
def scanStr (past : Nat) : Text → Option (Text × Lexer)
  | [] => some ([], ⟨[], past + 1⟩)
  | ['\\'] => some ([], ⟨[], past + 1⟩)
  | '\\' :: c :: s => do
    let e ← escape c
    let (i, l) ← scanStr past s
    some (e :: i, l)
  | c :: s =>
    if c = '"' then some ([], ⟨s, past⟩)
    else (scanStr past s).map fun (i, l) => (c :: i, l)

/-- A mark of one character, or of two if the other one follows. -/
def scanMark (past : Nat) (c next : Char) (two one : TokenType) (s : Text) : Scanned :=
  if s.head? = some next then .token two [c, next] false ⟨s.tail, past⟩
  else .token one [c] false ⟨s, past⟩

/-- The `switch` at the end of `Scan`. A carriage return stands for a newline only together
with one. A single `|` has the code of two. -/
def scanSwitch (past : Nat) (ch : Char) (s : Text) : Scanned :=
  match ch with
  | '+' => .token .plus ['+'] false ⟨s, past⟩
  | '-' => .token .sub ['-'] false ⟨s, past⟩
  | '*' => .token .mul ['*'] false ⟨s, past⟩
  | '/' => .token .div ['/'] false ⟨s, past⟩
  | '(' => .token .lp ['('] false ⟨s, past⟩
  | ')' => .token .rp [')'] false ⟨s, past⟩
  | '=' => scanMark past '=' '=' .eq .assign s
  | '\n' => .token .nl ['\n'] false ⟨s, past⟩
  | '\r' => if s.head? = some '\n' then .token .nl ['\n'] false ⟨s.tail, past⟩ else .fatal
  | '\x7b' => .token .lb ['\x7b'] false ⟨s, past⟩
  | '\x7d' => .token .rb ['\x7d'] false ⟨s, past⟩
  | ',' => .token .comma [','] false ⟨s, past⟩
  | '&' => scanMark past '&' '&' .and .esp s
  | '|' => scanMark past '|' '|' .or .or s
  | '>' =>
    if s.head? = some '=' then .token .leq ['>', '='] false ⟨s.tail, past⟩
    else scanMark past '>' '>' .shr .lg s
  | '<' =>
    if s.head? = some '=' then .token .seq ['<', '='] false ⟨s.tail, past⟩
    else scanMark past '<' '<' .shl .sm s
  | '!' => scanMark past '!' '=' .neq .not s
  | ':' => scanMark past ':' '=' .deas .colon s
  | ';' => .token .semi [';'] false ⟨s, past⟩
  | '[' => .token .lsb ['['] false ⟨s, past⟩
  | ']' => .token .rsb [']'] false ⟨s, past⟩
  | '.' => .token .dot ['.'] false ⟨s, past⟩
  | '%' => .token .ps ['%'] false ⟨s, past⟩
  | '^' => .token .bitXor ['^'] false ⟨s, past⟩
  | _ => .fatal

/-- A number. Behind a first `0`, a letter may say what base it is in. -/
def scanNumber (past : Nat) (ch : Char) (s : Text) : Scanned :=
  let prefixed := ch = '0' && s.head?.any fun next => next = 'b' || next = 'o' || next = 'x'
  let i := if prefixed then ch :: s.take 1 else [ch]
  let digits := scanNum past (if prefixed then s.tail else s)
  .token (if digits.1.contains '.' then .float else .int) (i ++ digits.1) false digits.2

/-- The token that begins with `ch`. -/
def scanToken (past : Nat) (ch : Char) (s : Text) : Scanned :=
  if ch = '"' then
    match scanStr past s with
    | some i => .token .str i.1 false i.2
    | none => .panic
  else if isLetterOrUnderscore ch then
    let i := scanWord past s
    .token ((reserved.lookup (ch :: i.1)).getD .var) (ch :: i.1) false i.2
  else if isNum ch then scanNumber past ch s
  else scanSwitch past ch s

/-- `Scan`, from the start of a token or (`comment`) inside a comment. The newline that
ends a comment belongs to it. -/
def scanFrom (past : Nat) (comment : Bool) : Text → Scanned
  | [] => .token (if comment then .minusOne else .int) [] true ⟨[], past + 1⟩
  | c :: s =>
    if comment then scanFrom past (c ≠ '\n') s
    else if isBlank c then scanFrom past false s
    else if c = '/' && s.head? = some '/' then scanFrom past true s
    else scanToken past c s

/-- `Scan`. -/
def Lexer.Scan (l : Lexer) : Scanned := scanFrom l.past false l.rest

/-- A token as it is returned. -/
structure Token where
  code : TokenType
  text : Text
  deriving DecidableEq, Repr

/-! ## Whole texts -/

/-- How a sequence of calls of `Scan` ends. `more` is not an end: the calls were counted. -/
inductive Ending
  | eos | panic | fatal | more
  deriving DecidableEq, Repr

/-- Call `Scan` until it reports the end, `n` times at most. -/
def Lexer.scans : Nat → Lexer → List Token × Ending
  | 0, _ => ([], .more)
  | n + 1, l =>
    match l.Scan with
    | .token _ _ true _ => ([], .eos)
    | .token code text false l => ((⟨code, text⟩ :: (l.scans n).1), (l.scans n).2)
    | .panic => ([], .panic)
    | .fatal => ([], .fatal)

/-- The tokens of a text: every call takes a character at least, so this is enough
calls. -/
def tokens (s : Text) : List Token × Ending := Lexer.scans (s.length + 1) ⟨s, 0⟩

end CalcLang.Lex
