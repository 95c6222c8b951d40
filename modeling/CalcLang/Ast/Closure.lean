import CalcLang.Ast.Entry

/-!
# What a closure captures

Before `SLNode.calc` of `compiler/ast/ast.go` compiles the statements of a block it
looks at them for inline functions. Where it finds one - assigned, returned, or an
argument of a call, each standing as a statement's whole right side or on its own -
it travels the function's body and records in `closureVars` the names that it meets
before it has met a definition of them. `InlineFuncNode.calc` then compiles the
function with those of them that are not its parameters.

The maps of a pass, `closuredef` and `closurevar`, are made afresh for every block,
and shared by all functions that the pass takes up in it. A nested function is
travelled with the one around it, and again when the block that it stands in is
compiled; what counts in the end is the last pass that took it up.

`ExactCapture` is the purpose: a variable of an enclosing function is captured
exactly if it occurs free.
-/

namespace CalcLang.Ast

/-! ## Travelling a function -/

/-- The maps of one pass. `recorded` are the assignments to `closureVars`. -/
structure Capture where
  closuredef : List Ident
  closurevar : List Ident
  heapAllocTable : List Ident
  recorded : List (Ref × List Ident)

/-- The fresh maps of a block. -/
def Capture.fresh : Capture := ⟨[], [], [], []⟩

mutual
/-- `trf`, the callback. On an inline function it runs `travel` for it, and as it
returns true the body is then visited once more. -/
def Entry.trf : Entry → Capture → Capture
  | .use _ x, c =>
    if x ∈ c.closuredef then c
    else { c with closurevar := x :: c.closurevar, heapAllocTable := x :: c.heapAllocTable }
  | .defn _ x, c => { c with closuredef := x :: c.closuredef }
  | .lit _, c => c
  | .block l, c => trfEntries l c
  | .loop _ x l, c => trfEntries l { c with closuredef := x :: c.closuredef }
  | .fn g _ l, c =>
    let inner := trfEntries l { c with closurevar := [] }
    trfEntries l { inner with
      closurevar := inner.closurevar ++ c.closurevar
      recorded := inner.recorded ++ [(g, inner.closurevar)] }

def trfEntries : List Entry → Capture → Capture
  | [], c => c
  | i :: is, c => trfEntries is (i.trf c)
end

/-- `travel`: the body once, with `closurevar` set aside. -/
def Capture.travel (c : Capture) (g : Ref) (body : List Entry) : Capture :=
  let inner := trfEntries body { c with closurevar := [] }
  { inner with
    closurevar := inner.closurevar ++ c.closurevar
    recorded := inner.recorded ++ [(g, inner.closurevar)] }

/-! ## Where a pass looks -/

/-- An inline function as a pass finds it: the node and its body. -/
abbrev Found := Ref × List Node

/-- The inline functions that `callfanf` finds among the arguments of a call. -/
def paramClosures : List ExpNode → List Found
  | [] => []
  | .inlineFunc g _ _ body :: es => (g, body) :: paramClosures es
  | _ :: es => paramClosures es

/-- The inline functions that the right side of a statement has in the places that
`SLNode.calc` looks at. -/
def ExpNode.closures : ExpNode → List Found
  | .inlineFunc g _ _ body => [(g, body)]
  | .callFunc _ params _ _ => paramClosures params
  | _ => []

/-- The cases of `SLNode.calc`'s loop. -/
def Node.closures : Node → List Found
  | .exp (.binary .assign _ r) => r.closures
  | .exp (.callFunc generics params fnNode next) =>
    (ExpNode.callFunc generics params fnNode next).closures
  | .defAndAssign _ _ e => e.closures
  | .ret e => e.closures
  | _ => []

/-- The pass of `SLNode.calc` over a block. -/
def analysis (sts : List Node) : Capture :=
  (sts.flatMap Node.closures).foldl (fun c f => c.travel f.1 (travelsNodes f.2)) .fresh

/-! ## The blocks of a function -/

/-- The functions of the runtime that allocate are not analysed: their names contain
one of these. -/
def exemptNames : List Ident :=
  ["heapalloc".toList, "heapfree".toList, "MallocList".toList]

/-- `strings.Contains` of a function's name. -/
def exempt (ident : Ident) : Bool := exemptNames.any fun n => ident.tails.any n.isPrefixOf

mutual
/-- The blocks that `SLNode.calc` runs its pass over while it compiles an expression,
in order: those of the inline functions. None of these is exempt. -/
def ExpNode.passes : ExpNode → List (List Node)
  | .null | .lit | .str _ => []
  | .varBlock _ _ _ es | .arrayInit _ es | .structInit _ es => passesExps es
  | .callFunc _ params fnNode next => passesExps params ++ fnNode.passes ++ next.passes
  | .binary _ l r => r.passes ++ l.passes
  | .unary e | .takePtr e | .takeVal _ e | .await _ e => e.passes
  | .inlineFunc _ _ _ body => body :: passesAll false body

def passesExps : List ExpNode → List (List Node)
  | [] => []
  | e :: es => e.passes ++ passesExps es

/-- The blocks of a statement of a function, which may be exempt. -/
def Node.passes (ex : Bool) : Node → List (List Node)
  | .exp e | .ret e | .yield e | .defAndAssign _ _ e => e.passes
  | .leaf | .define _ _ => []
  | .ifN c sts => (if ex then [] else [sts]) ++ passesAll ex sts ++ c.passes
  | .ifElse c sts el => c.passes ++ ((if ex then [] else [sts]) ++ passesAll ex sts) ++ el.passes ex
  | .forN c d a sts =>
    d.passes ex ++ c.passes ++ ((if ex then [] else [sts]) ++ passesAll ex sts) ++ a.passes ++
      c.passes
  | .sl cs => (if ex then [] else [cs]) ++ passesAll ex cs

def passesAll (ex : Bool) : List Node → List (List Node)
  | [] => []
  | n :: ns => n.passes ex ++ passesAll ex ns
end

/-- A function: the name it is compiled under, its parameters and its body. -/
structure Function where
  ident : Ident
  params : List Ident
  body : Body

/-- The blocks of a function. -/
def Function.passes (f : Function) : List (List Node) :=
  (Node.sl f.body.statements).passes (exempt f.ident)

/-- The value of `closureVars` that an inline function is compiled with: the last one
recorded. -/
def Function.closureVars (f : Function) (g : Ref) : List Ident :=
  ((f.passes.flatMap fun sts => (analysis sts).recorded).reverse.lookup g).getD []

/-! ## Free variables -/

mutual
/-- The name is defined in the entries, outside inner functions. -/
def Entry.binds (x : Ident) : Entry → Bool
  | .use _ _ | .lit _ | .fn _ _ _ => false
  | .defn _ y => x = y
  | .block l => bindsAny x l
  | .loop _ y l => x = y || bindsAny x l

def bindsAny (x : Ident) : List Entry → Bool
  | [] => false
  | i :: is => i.binds x || bindsAny x is
end

mutual
/-- The name occurs free: with no definition of it before, in the same function or in
one in between. -/
def Entry.free (x : Ident) : Entry → Bool
  | .use _ y => x = y
  | .defn _ _ | .lit _ => false
  | .block l => freeAny x l
  | .loop _ y l => x ≠ y && freeAny x l
  | .fn _ ps l => x ∉ ps && freeAny x l

def freeAny (x : Ident) : List Entry → Bool
  | [] => false
  | i :: is => i.free x || (!i.binds x && freeAny x is)
end

mutual
/-- The names defined in the entries, outside inner functions. -/
def Entry.names : Entry → List Ident
  | .use _ _ | .lit _ | .fn _ _ _ => []
  | .defn _ y => [y]
  | .block l => namesAll l
  | .loop _ y l => y :: namesAll l

def namesAll : List Entry → List Ident
  | [] => []
  | i :: is => i.names ++ namesAll is
end

/-- An inline function in the text, with the variables of the functions around it. -/
structure Site where
  fn : Ref
  params : List Ident
  text : List Entry
  enclosing : List Ident

mutual
/-- The inline functions in the entries of a function with the variables `vars`. -/
def Entry.sites (vars : List Ident) : Entry → List Site
  | .use _ _ | .lit _ | .defn _ _ => []
  | .block l | .loop _ _ l => sitesAll vars l
  | .fn g ps l => ⟨g, ps, l, vars⟩ :: sitesAll (vars ++ ps ++ namesAll l) l

def sitesAll (vars : List Ident) : List Entry → List Site
  | [] => []
  | i :: is => i.sites vars ++ sitesAll vars is
end

/-- The inline functions of a function. -/
def Function.sites (f : Function) : List Site :=
  sitesAll (f.params ++ namesAll (sourcesNodes f.body.statements))
    (sourcesNodes f.body.statements)

/-- **Capture is exact**: of the variables of the enclosing functions, an inline
function is compiled with those that occur free in it. Its parameters, which
`InlineFuncNode.calc` drops from `closureVars`, are its own. -/
def Function.ExactCapture (f : Function) : Prop :=
  ∀ s ∈ f.sites, ∀ x ∈ s.enclosing,
    (x ∈ f.closureVars s.fn ∧ x ∉ s.params ↔ freeAny x s.text ∧ x ∉ s.params)

/-! ## What a pass sees -/

mutual
/-- The name is defined anywhere in the entries, inner functions included. -/
def Entry.defines (x : Ident) : Entry → Bool
  | .use _ _ | .lit _ => false
  | .defn _ y => x = y
  | .block l | .fn _ _ l => definesAny x l
  | .loop _ y l => x = y || definesAny x l

def definesAny (x : Ident) : List Entry → Bool
  | [] => false
  | i :: is => i.defines x || definesAny x is
end

mutual
/-- The name is used before any definition of it, in whichever function. -/
def Entry.sees (x : Ident) : Entry → Bool
  | .use _ y => x = y
  | .defn _ _ | .lit _ => false
  | .block l | .fn _ _ l => seesAny x l
  | .loop _ y l => x ≠ y && seesAny x l

def seesAny (x : Ident) : List Entry → Bool
  | [] => false
  | i :: is => i.sees x || (!i.defines x && seesAny x is)
end

/-- An inline function as a pass takes it up: what has been travelled before, and what
is travelled of itself. -/
structure Taken where
  before : List Entry
  body : List Entry

/-- With more travelled before. -/
def Taken.after (l : List Entry) (t : Taken) : Taken := ⟨l ++ t.before, t.body⟩

mutual
/-- How the function `g` is taken up, if an entry contains it. A function below an
inner one is last visited when that one has been travelled as a whole. -/
def Entry.taken (g : Ref) : Entry → Option Taken
  | .use _ _ | .defn _ _ | .lit _ => none
  | .block l => takenIn g l
  | .loop r x l => (takenIn g l).map (Taken.after [.defn r x])
  | .fn h ps l =>
    ((takenIn g l).map fun t => ⟨[.fn h ps l], t.body⟩).or (if h = g then some ⟨[], l⟩ else none)

def takenIn (g : Ref) : List Entry → Option Taken
  | [] => none
  | i :: is => ((takenIn g is).map (Taken.after [i])).or (i.taken g)
end

/-- How the function `g` is taken up by the pass over a block that finds the functions
`fs`: as one of them, or inside of one. -/
def takenBy (g : Ref) : List Found → Option Taken
  | [] => none
  | f :: fs =>
    ((takenBy g fs).map (Taken.after (travelsNodes f.2))).or
      (if f.1 = g then some ⟨[], travelsNodes f.2⟩ else takenIn g (travelsNodes f.2))

/-- How the function `g` is taken up last. -/
def Function.taken (f : Function) (g : Ref) : Option Taken :=
  f.passes.reverse.findSome? fun sts => takenBy g (sts.flatMap Node.closures)

/-- Where the walk sees what it has to: of the variables of the enclosing functions, an
inline function uses freely those that `travel` meets in it, at a place where no
definition of the name has been travelled before, be it in another function. -/
def Function.SeenRight (f : Function) : Prop :=
  ∀ s ∈ f.sites, ∀ x ∈ s.enclosing, x ∉ s.params →
    (freeAny x s.text ↔
      ∃ t, f.taken s.fn = some t ∧ ¬ definesAny x t.before ∧ seesAny x t.body)

end CalcLang.Ast
