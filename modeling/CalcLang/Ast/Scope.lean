import CalcLang.Ast.Closure

/-!
# Scopes

How a name finds its storage. `compiler/ast/scope.go` keeps a chain of tables, one
for each block, from full names to values: `addVar` refuses a name that the table
has, `searchVar` goes up the chain, and inside an inline function takes a captured
variable from the closure instead. `ForNode.calc` makes the variable of its
initialiser in the scope that the loop stands in, and deletes it from that scope's
table when the loop is compiled - under the name as it is written, which the
table has only for the functions of the C runtime.

`scoping` is what the `calc` methods do to the scopes, in their order, and
`Entry.calc` does it. `Entry.resolve` is lexical scoping. `LexicallyScoped` is the
purpose: a reference is compiled to the storage of the definition that is in force
where it stands.
-/

namespace CalcLang.Ast

/-- What a variable is kept in: what the node of a definition allocates, or a
parameter of the function or of an inline function. `given` is storage from outside of
the function. -/
inductive Storage
  | node (r : Ref)
  | param (fn : Option Ref) (i : Nat)
  | given (n : Nat)
  deriving DecidableEq, Repr

/-! ## The tables -/

/-- `externMap`: the functions of the C runtime. -/
def externMap : List Ident :=
  ["printf".toList, "memset".toList, "GC_malloc".toList, "GC_debug_malloc".toList,
    "GC_malloc_uncollectable".toList, "memcpy".toList, "Sleep".toList,
    "llvm.init.trampoline".toList, "llvm.adjust.trampoline".toList, "malloc".toList]

/-- `getFullName`, in the package `pkg`. -/
def getFullName (pkg id : Ident) : Ident :=
  if id.head? = some '\x7b' then id
  else if externMap.contains id then id
  else if (pkg ++ ['.']).isPrefixOf id then id
  else pkg ++ '.' :: id

/-- A `vartable`. -/
abbrev Table := List (Ident × Storage)

/-- The part of a `Scope` that names go through. `tables` are its own `vartable` and
those of its parents, up to the function's; `outer` is what the scopes further out
have. `trampolineVars` is set inside inline functions. -/
structure VarScope where
  tables : List Table
  outer : Ident → Option Storage
  trampolineVars : Option Table

/-- What the scopes of a function share: the package, and the names that
`InlineFuncNode.calc` finds in `closureVars`. -/
structure Names where
  pkg : Ident
  closureVars : Ref → List Ident

/-- `addVar`. -/
def VarScope.addVar (N : Names) (s : VarScope) (id : Ident) (v : Storage) : VarScope :=
  match s.tables with
  | [] => s
  | t :: ts =>
    if (t.lookup (getFullName N.pkg id)).isSome then s
    else { s with tables := ((getFullName N.pkg id, v) :: t) :: ts }

/-- The chain of the parents. -/
def searchTables (outer : Ident → Option Storage) (id : Ident) : List Table → Option Storage
  | [] => outer id
  | t :: ts => (t.lookup id).or (searchTables outer id ts)

/-- `searchVar`. A name of an outer table is taken from the closure if that has it. -/
def VarScope.searchVar (N : Names) (s : VarScope) (id : Ident) : Option Storage :=
  match s.tables with
  | [] => s.outer (getFullName N.pkg id)
  | t :: ts =>
    (t.lookup (getFullName N.pkg id)).or <|
      (searchTables s.outer (getFullName N.pkg id) ts).map fun v =>
        ((s.trampolineVars.bind (·.lookup (getFullName N.pkg id)))).getD v

/-- `addChildScope`. -/
def VarScope.addChildScope (s : VarScope) : VarScope := { s with tables := [] :: s.tables }

/-- The end of `ForNode.calc`: `delete(s.vartable, name)`. -/
def VarScope.delete (s : VarScope) (name : Ident) : VarScope :=
  match s.tables with
  | [] => s
  | t :: ts => { s with tables := (t.filter fun kv => kv.1 ≠ name) :: ts }

/-- Add parameters, from the `i`th on. -/
def VarScope.addParams (N : Names) (s : VarScope) (fn : Option Ref) :
    Nat → List Ident → VarScope
  | _, [] => s
  | i, p :: ps => (s.addVar N p (.param fn i)).addParams N fn (i + 1) ps

/-- The scope of an inline function: `InlineFuncNode.calc`. -/
def VarScope.closureScope (N : Names) (s : VarScope) (g : Ref) (params : List Ident) :
    VarScope :=
  VarScope.addParams N
    { s with
      tables := [] :: s.tables
      trampolineVars := some <| (N.closureVars g).filterMap fun k =>
        (s.searchVar N k).map fun v => (getFullName N.pkg k, v) } (some g) 0 params

/-! ## What the `calc` methods do to the scopes -/

mutual
/-- An expression, in the order in which `calc` evaluates its parts. -/
def ExpNode.scoping : ExpNode → List Entry
  | .null | .lit | .str _ => []
  | .varBlock r t _ idxs => .use r t :: scopings idxs
  | .callFunc generics params fnNode next =>
    scopings params ++ fnNode.calleeScoping generics ++ next.memberScoping
  | .binary _ l r => r.scoping ++ l.scoping
  | .unary e | .takePtr e | .takeVal _ e | .await _ e => e.scoping
  | .arrayInit _ es | .structInit _ es => scopings es
  | .inlineFunc r ps _ body => [.fn r ps (scopingNodes body)]

/-- What is called. -/
def ExpNode.calleeScoping (generics : Bool) : ExpNode → List Entry
  | .varBlock r t next idxs =>
    (if generics && next.isEmpty then [] else [.use r t]) ++ scopings idxs
  | _ => []

/-- What follows a dot. -/
def ExpNode.memberScoping : ExpNode → List Entry
  | .varBlock _ _ _ idxs => scopings idxs
  | .callFunc _ params fnNode next =>
    scopings params ++ fnNode.memberScoping ++ next.memberScoping
  | _ => []

def scopings : List ExpNode → List Entry
  | [] => []
  | e :: es => e.scoping ++ scopings es

/-- A statement. A loop's condition is evaluated in front of the loop and once more, with
the step, in a scope of its own. -/
def Node.scoping : Node → List Entry
  | .exp e | .ret e | .yield e => e.scoping
  | .leaf => []
  | .define r x => [.defn r x]
  | .defAndAssign r x e => e.scoping ++ [.defn r x]
  | .ifN c sts => .block (scopingNodes sts) :: c.scoping
  | .ifElse c sts el => c.scoping ++ [.block (scopingNodes sts), .block el.scoping]
  | .forN c (.defAndAssign r x e) a sts =>
    e.scoping ++
      [.loop r x (c.scoping ++ [.block (scopingNodes sts), .block (a.scoping ++ c.scoping)])]
  | .forN c d a sts =>
    d.scoping ++ (c.scoping ++ [.block (scopingNodes sts), .block (a.scoping ++ c.scoping)])
  | .sl cs => scopingNodes cs

def scopingNodes : List Node → List Entry
  | [] => []
  | n :: ns => n.scoping ++ scopingNodes ns
end

/-- What a reference was compiled to. -/
abbrev Lookups := List (Ref × Option Storage)

mutual
/-- Do to the scope what an entry says; the scope after it, and the lookups made. -/
def Entry.calc (N : Names) : Entry → VarScope → VarScope × Lookups
  | .use r x, s => (s, [(r, s.searchVar N x)])
  | .defn r x, s => (s.addVar N x (.node r), [])
  | .lit _, s => (s, [])
  | .block l, s => (s, (calcEntries N l s.addChildScope).2)
  | .loop r x l, s =>
    let body := calcEntries N l (s.addVar N x (.node r))
    (body.1.delete x, body.2)
  | .fn g ps l, s => (s, (calcEntries N l (s.closureScope N g ps)).2)

def calcEntries (N : Names) : List Entry → VarScope → VarScope × Lookups
  | [], s => (s, [])
  | i :: is, s =>
    let first := i.calc N s
    let rest := calcEntries N is first.1
    (rest.1, first.2 ++ rest.2)
end

/-! ## Lexical scoping -/

/-- What names stand for. -/
abbrev Env := Ident → Option Storage

def Env.define (env : Env) (x : Ident) (v : Storage) : Env :=
  fun y => if y = x then some v else env y

/-- Define parameters, from the `i`th on. -/
def Env.params (fn : Option Ref) : Nat → List Ident → Env → Env
  | _, [], env => env
  | i, p :: ps, env => Env.params fn (i + 1) ps (env.define p (.param fn i))

mutual
/-- Lexical scoping: the names in force after an entry, and what the references in it
refer to. A block, a loop and an inner function leave the names as they were. -/
def Entry.resolve : Entry → Env → Env × Lookups
  | .use r x, env => (env, [(r, env x)])
  | .defn r x, env => (env.define x (.node r), [])
  | .lit _, env => (env, [])
  | .block l, env => (env, (resolveAll l env).2)
  | .loop r x l, env => (env, (resolveAll l (env.define x (.node r))).2)
  | .fn g ps l, env => (env, (resolveAll l (Env.params (some g) 0 ps env)).2)

def resolveAll : List Entry → Env → Env × Lookups
  | [], env => (env, [])
  | i :: is, env =>
    let first := i.resolve env
    let rest := resolveAll is first.1
    (rest.1, first.2 ++ rest.2)
end

/-! ## Names as the front end makes them -/

/-- An identifier: no dot in it, and no brace in front. -/
def IsId (x : Ident) : Prop := '.' ∉ x ∧ x.head? ≠ some '\x7b'

/-- What a reference may begin with: an identifier, or the path of an imported package,
which is not the start of a name of this one. -/
def IsToken (pkg x : Ident) : Prop := ¬ (pkg ++ ['.']) <+: x ∧ x.head? ≠ some '\x7b'

mutual
/-- The names in an entry are such. -/
def Entry.Named (pkg : Ident) : Entry → Prop
  | .use _ x => IsToken pkg x
  | .defn _ x => IsId x
  | .lit _ => True
  | .block l => NamedAll pkg l
  | .loop _ x l => IsId x ∧ NamedAll pkg l
  | .fn _ ps l => (∀ p ∈ ps, IsId p) ∧ NamedAll pkg l

def NamedAll (pkg : Ident) : List Entry → Prop
  | [] => True
  | i :: is => i.Named pkg ∧ NamedAll pkg is
end

/-- A function in its package, with what its inline functions capture, and with what
the names of the scopes around it stand for. -/
structure ScopedFunction extends Function where
  names : Names
  outer : Ident → Option Storage
  named : NamedAll names.pkg (scopingNodes body.statements)
  params_named : ∀ p ∈ params, IsId p
  closureVars_named : ∀ g, ∀ k ∈ names.closureVars g, IsToken names.pkg k

/-- What the references of a function are compiled to. The parameters are in the scope
that the body is compiled in. -/
def ScopedFunction.lookups (f : ScopedFunction) : Lookups :=
  (calcEntries f.names (scopingNodes f.body.statements)
    (VarScope.addParams f.names ⟨[[]], f.outer, none⟩ none 0 f.params)).2

/-- What names stand for outside of the function. -/
def ScopedFunction.base (f : ScopedFunction) : Env :=
  fun x => f.outer (getFullName f.names.pkg x)

/-- What they refer to. -/
def ScopedFunction.lexical (f : ScopedFunction) : Lookups :=
  (resolveAll (sourcesNodes f.body.statements)
    (Env.params none 0 f.params f.base)).2

/-- **Scoping is lexical**: a reference is compiled to the storage of the definition in
force, and finds none where there is none. -/
def ScopedFunction.LexicallyScoped (f : ScopedFunction) : Prop :=
  ∀ r st, (r, st) ∈ f.lexical → ∀ st', (r, st') ∈ f.lookups → st' = st

/-! ## The declarations around a reference -/

/-- What happened to names in a block: a declaration, the end of a loop that declared
one. -/
inductive ScopeEvent
  | decl (id : Ident) (v : Storage)
  | over (id : Ident)

/-- A block around a reference, with what happened in it before. `fn` is set for the
outermost block of an inline function. -/
structure Level where
  fn : Option Ref
  events : List ScopeEvent

/-- The declaration of a name that a block keeps: the oldest one. That the loop is over
which declared it does not matter, except for the functions of the C runtime. -/
def Level.kept (L : Level) (x : Ident) : Option Storage :=
  L.events.foldl (fun k e =>
    match e with
    | .decl y v => if y = x then k.or (some v) else k
    | .over y => if y = x ∧ externMap.contains x then none else k) none

/-- The blocks around a reference, innermost first. -/
abbrev Context := List Level

def Context.happen (e : ScopeEvent) : Context → Context
  | [] => []
  | L :: Ls => { L with events := L.events ++ [e] } :: Ls

/-- Parameters, from the `i`th on. -/
def paramEvents (fn : Option Ref) : Nat → List Ident → List ScopeEvent
  | _, [] => []
  | i, p :: ps => .decl p (.param fn i) :: paramEvents fn (i + 1) ps

section Look

variable (N : Names) (base : Env) (x : Ident)

/-- The declaration kept by the innermost block that has one. -/
def Context.declared : Context → Option Storage
  | [] => base x
  | L :: Ls => (L.kept x).or (Context.declared Ls)

/-- The declaration that a name is taken from, and what the inline function around has
captured under it. A declaration kept by the block that the reference stands in comes
first, then what is captured, then the next block that keeps one. -/
def Context.look : Context → Option Storage × Option Storage
  | [] => (base x, none)
  | L :: Ls =>
    let captured :=
      match L.fn with
      | none => (Context.look Ls).2
      | some g => if x ∈ N.closureVars g then (Context.look Ls).1 else none
    ((L.kept x).or ((Context.declared base x Ls).map captured.getD), captured)

end Look

/-- A reference, with the blocks around it. -/
structure Reference where
  ref : Ref
  id : Ident
  ctx : Context

mutual
/-- The references in an entry, and the blocks after it. -/
def Entry.references : Entry → Context → Context × List Reference
  | .use r x, C => (C, [⟨r, x, C⟩])
  | .defn r x, C => (C.happen (.decl x (.node r)), [])
  | .lit _, C => (C, [])
  | .block l, C => (C, (referencesAll l (⟨none, []⟩ :: C)).2)
  | .loop r x l, C =>
    let body := referencesAll l (C.happen (.decl x (.node r)))
    (body.1.happen (.over x), body.2)
  | .fn g ps l, C => (C, (referencesAll l (⟨some g, paramEvents (some g) 0 ps⟩ :: C)).2)

def referencesAll : List Entry → Context → Context × List Reference
  | [], C => (C, [])
  | i :: is, C =>
    let first := i.references C
    let rest := referencesAll is first.1
    (rest.1, first.2 ++ rest.2)
end

/-- The references of a function. -/
def ScopedFunction.references (f : ScopedFunction) : List Reference :=
  (referencesAll (scopingNodes f.body.statements) [⟨none, paramEvents none 0 f.params⟩]).2

/-- Where every reference has the declaration in force for the one it is taken from: the
oldest in the innermost block that has declared the name - the initialiser of a loop
in the same block included, even if the loop is over - and no captured variable of the
same name before that. -/
def ScopedFunction.OldestInForce (f : ScopedFunction) : Prop :=
  ∀ q ∈ f.references, ∀ st, (q.ref, st) ∈ f.lexical → (q.ctx.look f.names f.base q.id).1 = st

end CalcLang.Ast
