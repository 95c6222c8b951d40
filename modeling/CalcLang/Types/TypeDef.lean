import Mathlib.Data.List.Basic
import Mathlib.Logic.Function.Basic

/-!
# Type definitions: `NewTypeDef` and the loop of `CalcGlobals`

The parser leaves one `defFunc` for each `type` declaration of a module. `CalcGlobals`
empties the table of types and calls them all, again and again, until none of them fails.

A `defFunc` puts a placeholder under its own name into the table, so that the type may
refer to itself, and computes its type. A name of the module is looked up in the table and
an error if it is not there; a name of another module is looked up in that module's
scope, which is not `strict`, so that an unknown one makes a new empty type. A panic on the
way (the scope of a module that was not loaded is nil) is recovered and is an error as
well. After an error the name is deleted from the table. The methods of an interface are
not looked at.

Declarations and references are without generics; a slice is an instance of the runtime's
`Slice`, so all it asks is that the module of that is loaded.
-/

namespace CalcLang.Types

/-- The keys of `typedic`. -/
inductive ResType
  | float | int | bool | float32 | int32 | float64 | int64 | byte | void | str
  deriving DecidableEq, Repr

/-- A type expression. The number is `PtrLevel`. The methods of an interface are given by their
function types. -/
inductive TypeNode
  | basic (resType : ResType) (ptrLevel : Nat)
  /-- `CustomTp`: a name of the module `pkg`. -/
  | custom (pkg name : String) (ptrLevel : Nat)
  /-- A slice if `len` is not positive. -/
  | array (len : Int) (elmType : TypeNode) (ptrLevel : Nat)
  | func (args : List TypeNode) (ret : Option TypeNode) (ptrLevel : Nat)
  | struct (orderedfields : List (String × TypeNode)) (ptrLevel : Nat)
  | interface (funcs : List (String × TypeNode)) (ptrLevel : Nat)

/-- A computed type. A declared type is referred to by its name. -/
inductive Ty
  | res (t : ResType)
  | named (name : String)
  | ptr (t : Ty)
  | array (len : Nat) (t : Ty)
  | slice (t : Ty)
  | func (ret : Option Ty) (args : List Ty)
  | struct (fields : List Ty)
  | interf (funcs : List String)

/-- A `type` declaration. -/
structure TypeDef where
  id : String
  tp : TypeNode

/-- The module at hand, and what has been loaded before it. -/
structure Env where
  pkgname : String
  /-- The other modules' scopes, as far as they are there, with the names they declare. -/
  scopeMap : String → Option (String → Bool)
  /-- `ScopeMap[SLICE]` is there. -/
  slice : Bool

/-- `globalScope.types`: nothing, the placeholder, or a type. -/
abbrev Table := String → Option (Option Ty)

def pointers : Nat → Ty → Ty
  | 0, t => t
  | n + 1, t => pointers n (.ptr t)

/-- The one name that need not be there when it is looked up: the type `string` has it. -/
def strName : String := "github.com/Chronostasys/calc/runtime/strings._str"

/-- `getTp` for a name without generics. -/
def getTp (env : Env) (types : Table) (pkg name : String) : Except String Ty :=
  if pkg = env.pkgname then
    match types name with
    | some _ => .ok (.named (pkg ++ "." ++ name))
    | none =>
      if pkg ++ "." ++ name = strName then .ok (.named (pkg ++ "." ++ name))
      else .error ("type " ++ pkg ++ "." ++ name ++ " not found")
  else
    match env.scopeMap pkg with
    | some _ => .ok (.named (pkg ++ "." ++ name))
    | none => .error "runtime error: invalid memory address or nil pointer dereference"

mutual

/-- `calc` of a type expression. -/
def TypeNode.calc (env : Env) (types : Table) : TypeNode → Except String Ty
  | .basic t p => .ok (pointers p (.res t))
  | .custom pkg name p => do
    let t ← getTp env types pkg name
    return pointers p t
  | .array len elm p => do
    let t ← elm.calc env types
    if len > 0 then return pointers p (.array len.toNat t)
    else if env.slice then return pointers (p + 1) (.slice t)
    else .error "runtime error: invalid memory address or nil pointer dereference"
  | .func args none p => do
    let ts ← calcArgs env types args
    return pointers (p + 1) (.func none ts)
  | .func args (some ret) p => do
    let t ← ret.calc env types
    let ts ← calcArgs env types args
    return pointers (p + 1) (.func (some t) ts)
  | .struct fields p => do
    let ts ← calcFields env types fields
    return pointers p (.struct ts)
  | .interface funcs p => .ok (pointers p (.interf (funcs.map Prod.fst)))

def calcArgs (env : Env) (types : Table) : List TypeNode → Except String (List Ty)
  | [] => .ok []
  | n :: ns => do
    let t ← n.calc env types
    let ts ← calcArgs env types ns
    return t :: ts

def calcFields (env : Env) (types : Table) : List (String × TypeNode) → Except String (List Ty)
  | [] => .ok []
  | (_, n) :: ns => do
    let t ← n.calc env types
    let ts ← calcFields env types ns
    return t :: ts

end

/-- `addStruct`; a name that is there stays as it is. -/
def addStruct (types : Table) (id : String) (td : Option Ty) : Table :=
  match types id with
  | some _ => types
  | none => Function.update types id (some td)

/-- A `defFunc`: its error, if it fails, and the table it leaves. -/
def TypeDef.defFunc (env : Env) (d : TypeDef) (types : Table) : Option String × Table :=
  match d.tp.calc env (addStruct types d.id none) with
  | .error err => (some err, Function.update (addStruct types d.id none) d.id none)
  | .ok t =>
    match types d.id with
    | some _ => (none, types)
    | none => (none, Function.update types d.id (some (some t)))

/-- The body of the loop: the `defFuncs` that failed, and the table. -/
def pass (env : Env) : List TypeDef → Table → List TypeDef × Table
  | [], types => ([], types)
  | d :: ds, types =>
    match d.defFunc env types with
    | (some _, types) => (d :: (pass env ds types).1, (pass env ds types).2)
    | (none, types) => pass env ds types

/-- What the definition of a module's types comes to. -/
inductive Outcome
  | defined (types : Table)
  | reported (err : String)

/-- The loop, if it ends within so many rounds. It has no other end than this one. -/
def defineTypes (env : Env) : Nat → List TypeDef → Table → Option Outcome
  | 0, _, _ => none
  | n + 1, defFuncs, types =>
    match pass env defFuncs types with
    | ([], types) => some (.defined types)
    | (failed, types) => defineTypes env n failed types

/-- `CalcGlobals`, as far as types go. -/
def CalcGlobals (env : Env) (defFuncs : List TypeDef) (rounds : Nat) : Option Outcome :=
  defineTypes env rounds defFuncs fun _ => none

end CalcLang.Types
