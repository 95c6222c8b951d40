import CalcLang.Lib.Resolve
import CalcLang.Types.TypeDef

/-!
# The declarations of a module: parsing, merging, emitting

The files of a module are parsed by goroutines, each into a scope of its own.
`ParseModule` merges them in the order in which they arrive (`Merge`,
`MergeGlobalScopes`) and emits the module: `CalcGlobals` defines the types in rounds, then
declares the functions, then calculates the global variables one after the other, and
`Emit` compiles the functions' bodies.

This module follows the names. A declaration is given by its name and by the names that
its parts mention, in the order in which they are looked up: generic structs that are
named with arguments (`struct`) and identifiers (`ident`). A name is looked up in the
tables as they stand, and a panic follows if it is not there; what a generic struct or
function mentions is looked up when it is instantiated, which happens once for the same
arguments. Types without arguments are looked up in the rounds only (`CalcLang.Types`):
later an unknown one is no error.

The receiver of a method is the exception. `Parser.function` needs its name while the file
is parsed, and `String` calculates the type for that, in the scope of the file so far.

The type declarations are those of `CalcLang.Types`, without generic instances in them. No
name is declared twice in a module.
-/

namespace CalcLang.Module.Declarations

open CalcLang.Lib

/-! ## Declarations -/

/-- A name that is looked up. -/
inductive Mention
  | struct (tpname : String)
  | ident (token : String)
deriving DecidableEq, Repr

/-- `type id<…> …`, with the generic structs that its definition names. -/
structure GenericStruct where
  id : String
  tp : List String
deriving DecidableEq, Repr

/-- The type of a `this` parameter; the generic structs among its arguments if it has
arguments. -/
structure Receiver where
  tpname : String
  Generics : Option (List String)
deriving DecidableEq, Repr

/-- `FuncNode`: the generic structs named in its parameters and result, and what its
statements mention. -/
structure FuncNode where
  this : Option Receiver
  name : String
  isGeneric : Bool
  Params : List String
  Statements : List Mention
deriving DecidableEq, Repr

/-- A global variable, `DefineNode` or `DefAndAssignNode`. -/
structure GlobalNode where
  ID : String
  ValNode : List Mention
deriving DecidableEq, Repr

inductive Decl
  | type (d : Types.TypeDef)
  | genericStruct (g : GenericStruct)
  | func (f : FuncNode)
  | global (g : GlobalNode)

/-- `fn.ID`: the name of a method has that of its receiver in front, without arguments. -/
def FuncNode.ID (pkgname : String) (f : FuncNode) : String :=
  f.this.elim f.name fun r => pkgname ++ "." ++ r.tpname ++ "." ++ f.name

/-- What is looked up for the name of a function: its receiver, if that has arguments. -/
def FuncNode.named (f : FuncNode) : List Mention :=
  (f.this.bind Receiver.Generics).elim [] fun gens =>
    ((f.this.elim "" Receiver.tpname) :: gens).map .struct

/-! ## Scopes -/

/-- The module at hand, and what can be named besides its own declarations: the functions
of `AddSTDFunc` and the imported modules. -/
structure Env where
  types : Types.Env
  outside : String → Bool

/-- A variable of the global scope: a function or a global variable. -/
inductive Variable
  | func (f : FuncNode)
  | global (g : GlobalNode)
deriving DecidableEq, Repr

/-- A global scope, as parsing leaves it. -/
structure Scope where
  genericStructs : String → Option GenericStruct
  genericFuncs : String → Option FuncNode
  defFuncs : List Types.TypeDef
  funcDefFuncs : List FuncNode

def NewGlobalScope : Scope := ⟨fun _ => none, fun _ => none, [], []⟩

/-- `searchVar` and `getGenericStruct`: what the thing found mentions in its turn, when it is
instantiated. -/
def Scope.lookup (s : Scope) (outside : String → Bool) (vartable : String → Option Variable) :
    Mention → Option (List Mention)
  | .struct tpname => (s.genericStructs tpname).map fun g => g.tp.map .struct
  | .ident token =>
    ((vartable token).map fun _ => []).or
      (((s.genericFuncs token).map fun f => f.Params.map .struct ++ f.Statements).or
        (if outside token then some [] else none))

/-! ## Parsing -/

/-- `AddtoScope`. -/
def FuncNode.AddtoScope (pkgname : String) (f : FuncNode) (s : Scope) : Scope :=
  if f.isGeneric then { s with genericFuncs := addOnce s.genericFuncs (f.ID pkgname) f }
  else { s with funcDefFuncs := s.funcDefFuncs ++ [f] }

/-- A top-level declaration is parsed; `none` is a panic. -/
def parseDecl (pkgname : String) (n : Nat) (s : Scope) : Decl → Option Scope
  | .type d => some { s with defFuncs := s.defFuncs ++ [d] }
  | .genericStruct g => some { s with genericStructs := addOnce s.genericStructs g.id g }
  | .func f => (visit (s.lookup (fun _ => false) fun _ => none) n f.named []).map fun _ =>
      f.AddtoScope pkgname s
  | .global _ => some s

/-- `ParseAST` of a file: its children and its scope. -/
def ParseAST (pkgname : String) (n : Nat) (file : List Decl) : Option (List Decl × Scope) :=
  (file.foldlM (parseDecl pkgname n) NewGlobalScope).map fun s => (file, s)

/-! ## Merging -/

/-- What one file's scope adds in `MergeGlobalScopes`. -/
def Scope.merge (s v : Scope) : Scope where
  genericStructs id := (s.genericStructs id).or (v.genericStructs id)
  genericFuncs id := (s.genericFuncs id).or (v.genericFuncs id)
  defFuncs := s.defFuncs ++ v.defFuncs
  funcDefFuncs := s.funcDefFuncs ++ v.funcDefFuncs

/-- `Merge`. -/
def Merge (ns : List (List Decl × Scope)) : List Decl × Scope :=
  (ns.flatMap Prod.fst, (ns.map Prod.snd).foldl Scope.merge NewGlobalScope)

/-! ## Emitting -/

/-- The `funcDefFuncs`: the types of a function are looked up, and it is declared. -/
def declareFuncs (pkgname : String) (n : Nat) (s : Scope) :
    List FuncNode → (String → Option Variable) → Option (String → Option Variable)
  | [], vartable => some vartable
  | f :: fs, vartable =>
    (visit (s.lookup (fun _ => false) fun _ => none) n (f.Params.map .struct) []).bind fun _ =>
      declareFuncs pkgname n s fs (addOnce vartable (f.ID pkgname) (.func f))

/-- The global variables, in the order of the children. -/
def calcGlobals (outside : String → Bool) (n : Nat) (s : Scope) :
    List GlobalNode → (String → Option Variable) → Option (String → Option Variable)
  | [], vartable => some vartable
  | g :: gs, vartable =>
    (visit (s.lookup outside vartable) n g.ValNode []).bind fun _ =>
      calcGlobals outside n s gs (addOnce vartable g.ID (.global g))

def Decl.type? : Decl → Option Types.TypeDef
  | .type d => some d
  | _ => none

def Decl.genericStruct? : Decl → Option GenericStruct
  | .genericStruct g => some g
  | _ => none

/-- A function that is no generic one. -/
def Decl.func? : Decl → Option FuncNode
  | .func f => if f.isGeneric then none else some f
  | _ => none

def Decl.genericFunc? : Decl → Option FuncNode
  | .func f => if f.isGeneric then some f else none
  | _ => none

def Decl.global? : Decl → Option GlobalNode
  | .global g => some g
  | _ => none

/-- The bodies of all functions that are not generic. -/
def calcFuncs (outside : String → Bool) (n : Nat) (s : Scope) (vartable : String → Option Variable)
    (fs : List FuncNode) : Bool :=
  fs.all fun f => (visit (s.lookup outside vartable) n f.Statements []).isSome

/-- What a module comes to: the types it defines, and what its names stand for. -/
structure Emitted where
  types : Types.Table
  genericStructs : String → Option GenericStruct
  genericFuncs : String → Option FuncNode
  vartable : String → Option Variable

/-- The types, if their rounds have come to an end. -/
def definedTypes : Option Types.Outcome → Option Types.Table
  | some (.defined types) => some types
  | _ => none

/-- `Emit`; the types get `rounds` rounds. -/
def Emit (env : Env) (n rounds : Nat) (p : List Decl × Scope) : Option Emitted :=
  (definedTypes (Types.CalcGlobals env.types p.2.defFuncs rounds)).bind fun types =>
  (declareFuncs env.types.pkgname n p.2 p.2.funcDefFuncs fun _ => none).bind fun vartable =>
  (calcGlobals env.outside n p.2 (p.1.filterMap Decl.global?) vartable).bind fun vartable =>
  if calcFuncs env.outside n p.2 vartable (p.1.filterMap Decl.func?) then
    some ⟨types, p.2.genericStructs, p.2.genericFuncs, vartable⟩
  else none

/-- `ParseModule`, for the files in the order in which they arrive. -/
def ParseModule (env : Env) (n rounds : Nat) (files : List (List Decl)) : Option Emitted :=
  if files.isEmpty then none
  else (files.mapM (ParseAST env.types.pkgname n)).bind fun ns => Emit env n rounds (Merge ns)

/-! ## Modules and orders -/

/-- The names of a list of declarations are different. -/
structure Distinct (env : Env) (ds : List Decl) : Prop where
  types : ((ds.filterMap Decl.type?).map Types.TypeDef.id).Nodup
  genericStructs : ((ds.filterMap Decl.genericStruct?).map GenericStruct.id).Nodup
  idents : ((ds.filterMap Decl.func?).map (FuncNode.ID env.types.pkgname) ++
    (ds.filterMap Decl.global?).map GlobalNode.ID ++
    (ds.filterMap Decl.genericFunc?).map (FuncNode.ID env.types.pkgname)).Nodup
  own : ∀ g ∈ ds.filterMap Decl.global?, env.outside g.ID = false

/-- The files of a module. -/
structure Files (env : Env) where
  files : List (List Decl)
  distinct : Distinct env files.flatten

/-- The same files in another order, with their declarations in another order. -/
def Reordered (files files' : List (List Decl)) : Prop :=
  ∃ fs, files.Perm fs ∧ List.Forall₂ List.Perm fs files'

/-- With enough fuel and rounds, the module comes to `r`. -/
def Compiles (env : Env) (files : List (List Decl)) (r : Emitted) : Prop :=
  ∃ n rounds, ParseModule env n rounds files = some r

/-- Every order comes to the same, or no order to anything. -/
def OrderIrrelevant (env : Env) (m : Files env) : Prop :=
  ∀ m' : Files env, Reordered m.files m'.files → ∀ r,
    Compiles env m.files r ↔ Compiles env m'.files r

end CalcLang.Module.Declarations
