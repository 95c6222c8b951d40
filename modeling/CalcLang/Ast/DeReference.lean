import CalcLang.Ast.Node
import CalcLang.Lib.Calls

/-!
# `deReference`

In front of an index, a selector or a method the code generator follows pointers until only one level is left.
The loop that does it leaves from inside the case of a pointer, so for any other type it goes on for ever.

What it is handed is decided by `VarBlockNode.calc` and `CallFuncNode.calc`, which are here at the level of types, over
any scope: what a name is bound to, the address of a field or an element, or the result of a call. A result
is an address as well, where it has been stored, unless the function returns nothing.
`deReference_iff` says that the result of such a function, and a name that is bound to no pointer, are the only
things on which `deReference` does not come to an end.
-/

namespace CalcLang.Ast.DeReference

open CalcLang.Lib.Calls

/-! ## The loop -/

/-- Types, as far as the code generator tells them apart here. A function type is the type of its result, with
the types of its parameters in front. -/
inductive Ty
  | void
  | int (bits : Nat)
  | float (bits : Nat)
  | struct (name : Ident)
  | interf (name : Ident)
  | array (len : Nat) (elem : Ty)
  | func (ret : Ty)
  | arrow (param fn : Ty)
  | ptr (elem : Ty)
  deriving DecidableEq, Repr

namespace Ty

def isPtr : Ty → Bool
  | ptr _ => true
  | _ => false

/-- `loadElmType`: the type under all pointers. -/
def loadElmType : Ty → Ty
  | ptr t => loadElmType t
  | t => t

/-- The parameters and the result, if it is a function type. -/
def sig : Ty → Option (List Ty × Ty)
  | func ret => some ([], ret)
  | arrow param fn => fn.sig.map fun s => (param :: s.1, s.2)
  | _ => none

end Ty

/-- One round of the loop, with `tpptr` and the type of `va`. On the right is the type of what is returned. -/
def turn : Ty × Ty → Ty × Ty ⊕ Ty
  | (.ptr (.ptr t), _) => .inl (.ptr t, .ptr t)
  | (.ptr _, va) => .inr va
  | (t, va) => .inl (t, va)

/-- So many rounds. -/
def rounds : Nat → Ty × Ty → Option Ty
  | 0, _ => none
  | n + 1, x =>
    match turn x with
    | .inl y => rounds n y
    | .inr va => some va

/-- `deReference` of a value of type `t` returns a value of type `w`. -/
def Returns (t w : Ty) : Prop := ∃ n, rounds n (t, t) = some w

theorem rounds_eq_none {t : Ty} (h : t.isPtr = false) (n : Nat) (va : Ty) : rounds n (t, va) = none := by
  induction n with
  | zero => rfl
  | succ n ih => cases t <;> first | exact ih | exact absurd h Bool.true_eq_false.mp

theorem returns_ptr (t : Ty) : Returns (.ptr t) (.ptr t.loadElmType) := by
  induction t with
  | ptr t ih =>
    obtain ⟨n, hn⟩ := ih
    exact ⟨n + 1, hn⟩
  | _ => exact ⟨1, rfl⟩

theorem eq_of_rounds {n : Nat} {t w : Ty} (h : rounds n (.ptr t, .ptr t) = some w) : w = .ptr t.loadElmType := by
  induction n generalizing t with
  | zero => exact absurd h (by simp [rounds])
  | succ n ih =>
    cases t with
    | ptr t => exact ih (t := t) h
    | _ => exact (Option.some.inj h).symm

/-- It does so just for pointers, and follows them to the last. -/
theorem returns_iff {t w : Ty} : Returns t w ↔ t.isPtr ∧ w = .ptr t.loadElmType := by
  cases h : t.isPtr with
  | false =>
    -- nothing changes from one round to the next
    refine iff_of_false (fun ⟨n, hn⟩ => ?_) (by simp)
    rw [rounds_eq_none h] at hn
    exact Option.some_ne_none w hn.symm
  | true =>
    cases t with
    | ptr t =>
      simp only [Ty.loadElmType, true_and]
      constructor
      · exact fun ⟨n, hn⟩ => eq_of_rounds hn
      · exact fun hw => hw ▸ returns_ptr t
    | _ => exact absurd h Bool.false_ne_true

/-! ## What it is handed -/

/-- The values that are handed over: what a name is bound to, an address that the code generator has made of a value
of type `elem`, and the result of a call, which is stored and stands for its address if there is one. -/
inductive Loc
  | bound (x : Ident) (ty : Ty)
  | addr (elem : Ty)
  | result (ret : Ty)
  deriving DecidableEq, Repr

def Loc.ty : Loc → Ty
  | bound _ ty => ty
  | addr elem => .ptr elem
  | result .void => .void
  | result ret => .ptr ret

/-- All values. -/
inductive Val
  | loc (l : Loc)
  | temp (ty : Ty)
  | nilval

def Val.ty : Val → Ty
  | loc l => l.ty
  | temp ty => ty
  | nilval => .ptr (.int 8)

/-- `loadIfVar`. -/
def loadIfVar : Val → Val
  | .nilval => .nilval
  | v =>
    match v.ty with
    | .ptr t => if t.sig.isSome then v else .temp t
    | _ => v

/-- What the name of a method may stand for: a function of an interface, a function with the name of the type in front, a
field of a function type. -/
inductive Kind
  | interfaceFunc | method | member
  deriving DecidableEq, Repr

/-- What is called. The parameters are those that are declared; the receiver is one of them for a `method`. -/
structure Callee where
  kind : Kind
  params : List Ty
  ret : Ty
  async : Bool

/-- A scope: what the lookups find in it. A name has its package in front, if it is of another. -/
structure Env where
  /-- The type of the value a name is bound to. -/
  var : Ident → Option Ty
  /-- The type of a field. -/
  field : Ty → Ident → Option Ty
  /-- The method or the function field of that name, with type arguments or without. -/
  method : Ty → Nat → Ident → Option Callee
  /-- The generic function of that name, with its type arguments. -/
  genericFunc : Nat → Ident → Option Callee
  /-- Whether a call by that name, or of that type, is queued as a task. -/
  async : Ident → Ty → Bool
  /-- Whether a cast is possible between two types that are not the same. -/
  cast : Ty → Ty → Bool
  /-- The type of the result of any other node. -/
  node : Nat → List Ty → Option Ty
  stateMachine : Ty

/-- The two fields of the scope that an assignment leaves for its left side. -/
structure St where
  rightValue : Option Val
  assigned : Bool

abbrev Gen := Prog Loc St

/-- What `deReference` returns: an address, if it does. -/
def deReferenced (l : Loc) : Option Loc :=
  match l.ty with
  | .ptr t => some (.addr t.loadElmType)
  | _ => none

def deRef (l : Loc) : Gen Loc := Prog.call deReferenced l

variable (env : Env)

/-- The value of the first name of a chain, or the address of a field of `parent`. -/
def head (token : Ident) : Option Loc → Gen Loc
  | none =>
    match env.var token with
    | some ty => pure (.bound token ty)
    | none => Prog.panic
  | some parent =>
    match env.field parent.ty token with
    | some elem => pure (.addr elem)
    | none => Prog.panic

/-- Goes on where the condition holds. -/
def expect (b : Bool) : Gen Unit := if b then pure () else Prog.panic

/-- The start of `implicitCast` of a pointer. -/
def followPtr (v : Val) : Gen Unit :=
  match v.ty with
  | .ptr t => do
    let _ ← deRef (.addr t)
    pure ()
  | _ => pure ()

/-- `implicitCast`. -/
def implicitCast (v : Val) (target : Ty) : Gen Unit :=
  match v with
  | .nilval => expect target.isPtr
  | v =>
    if v.ty = target then pure ()
    else do
      followPtr v
      expect (env.cast v.ty target)

/-- The arguments, each cast to the type of its parameter. -/
def castArgs : List Val → List Ty → Gen Unit
  | [], _ => pure ()
  | _ :: _, [] => Prog.panic
  | v :: vs, t :: ts => do
    implicitCast env v t
    castArgs vs ts

/-- The receiver of a call. What comes back are the parameters for the other arguments. -/
def passReceiver (recv : Loc) (c : Callee) : Gen (List Ty) :=
  match c.kind, c.params with
  | .interfaceFunc, params => do
    let _ ← deRef recv
    -- the pointer out of the interface is the first argument, and a pointer
    let _ ← deRef (.addr (.int 8))
    pure params
  | .method, .ptr _ :: params => do
    let _ ← deRef recv
    pure params
  | .method, params => pure params.tail
  | .member, params => pure params

/-- A call of a method, behind the arguments. -/
def callMethod (recv : Loc) (generics : Nat) (token : Ident) (args : List Val) : Gen (Callee × Loc) :=
  match env.method recv.ty generics token with
  | none => Prog.panic
  | some c => do
    let params ← passReceiver recv c
    castArgs env args params
    pure (c, .result c.ret)

/-- The end of `CallFuncNode.calc`: what an async function returns is put into the queue. -/
def queueTask (c : Callee) (re : Val) : Gen Unit :=
  if c.async then implicitCast env (loadIfVar re) env.stateMachine else pure ()

def INDEX_RELOAD : Ident := "IndexOp".toList

def INDEX_SET_RELOAD : Ident := "IndexSetOp".toList

/-- A call of `IndexOp` by `getReloadIdx`. -/
def callIndexOp (index : Gen Val) (recv : Loc) : Gen Loc := do
  let i ← index
  let (c, re) ← callMethod env recv 0 INDEX_RELOAD [loadIfVar i]
  queueTask env c (.loc re)
  pure re

/-- The call of `IndexSetOp`, with the assigned value as it is in front of the index. -/
def callIndexSetOp (index : Gen Val) (recv : Loc) : Gen Loc := do
  let st ← Prog.get
  let i ← index
  match st.rightValue with
  | none => Prog.panic
  | some r => do
    let (c, re) ← callMethod env recv 0 INDEX_SET_RELOAD [loadIfVar i, loadIfVar r]
    queueTask env c (.loc re)
    pure re

/-- The loop of `getReloadIdx` for reading. -/
def reloadRead : List (Gen Val) → Loc → Gen Loc
  | [], val => pure val
  | v :: idxs, val => do
    let val ← callIndexOp env v val
    reloadRead idxs val

/-- The loop for an assignment. -/
def reloadSet : List (Gen Val) → Loc → Gen Loc
  | [], val => do
    Prog.modify fun st => { st with assigned := true }
    pure val
  | [v], val => do
    let val ← callIndexSetOp env v val
    Prog.modify fun st => { st with assigned := true }
    pure val
  | v :: idxs, val => do
    let val ← callIndexOp env v val
    reloadSet idxs val

/-- `getReloadIdx`; `last` says that there is no `Next`. -/
def getReloadIdx (last : Bool) (idxs : List (Gen Val)) (val : Loc) : Gen Loc := do
  let st ← Prog.get
  if last && st.rightValue.isSome then reloadSet env idxs val else reloadRead env idxs val

/-- The loop of `VarBlockNode.calc` over the indices, each of which may take all of them. -/
def walkIdxs (last : Bool) (all : List (Gen Val)) : List (Gen Val) → Loc → Gen Loc
  | [], va => pure va
  | v :: idxs, va =>
    match va.ty with
    | .ptr (.array _ elem) => do
      let _ ← v
      walkIdxs last all idxs (.addr elem)
    | .ptr _ => do
      let va ← getReloadIdx env last all va
      walkIdxs last all idxs va
    | _ => Prog.panic

/-- A block of a chain, with its indices. -/
def block (token : Ident) (idxs : List (Gen Val)) (last : Bool) (parent : Option Loc) : Gen Loc := do
  let va ← head env token parent
  match idxs with
  | [] => pure va
  | _ => do
    let va ← deRef va
    walkIdxs env last idxs idxs va

/-- Expressions, and assignments. A chain is a `varBlock` with the rest of it in `next`; the `fnNode` of a call is split at
its last block, as `CallFuncNode.calc` does, into a receiver and the block with the name. `cast` is a value that is
cast where it stands: an element of a literal, what is returned or defined. `node` is any other node, with the
expressions in it. The body of an inner function is compiled by itself. -/
inductive Exp
  | nilN
  | varBlock (token : Ident) (idxs : List Exp) (next : Option Exp)
  | callFunc (generics : Nat) (params : List Exp) (recv : Option Exp) (token : Ident) (idxs : List Exp) (next : Option Exp)
  | bin (op : Nat) (left right : Exp)
  | assign (left right : Exp)
  | cast (exp : Exp) (target : Ty)
  | node (op : Nat) (operands : List Exp)

def Exp.isNil : Exp → Bool
  | nilN => true
  | _ => false

/-- Whether it can follow a dot. -/
def Exp.isLink : Exp → Bool
  | varBlock _ _ _ | callFunc _ _ _ _ _ _ => true
  | _ => false

/-- The values in their order. -/
def evalAll : List (Gen Val) → Gen (List Val)
  | [] => pure []
  | e :: es => do
    let v ← e
    let vs ← evalAll es
    pure (v :: vs)

def ofNode (op : Nat) (tys : List Ty) : Gen Val :=
  match env.node op tys with
  | some ty => pure (.temp ty)
  | none => Prog.panic

/-- What is called without a receiver. -/
def callee (generics : Nat) (token : Ident) (idxs : List (Gen Val)) : Gen Callee :=
  match generics with
  | 0 => do
    let v ← block env token idxs true none
    match (loadIfVar (.loc v)).ty.loadElmType.sig with
    | some (params, ret) => pure ⟨.member, params, ret, env.async token v.ty⟩
    | none => Prog.panic
  | _ =>
    match env.genericFunc generics token with
    | some c => pure c
    | none => Prog.panic

/-- `store` of `r` to the left side. -/
def storeTo (left right : Val) (toNil : Bool) : Gen Val :=
  match left.ty with
  | .ptr t => do
    if toNil then expect t.isPtr else implicitCast env right t
    pure (if toNil then left else .temp (.int 32))
  | _ => Prog.panic

/-- The end of an assignment: there is a store, unless `IndexSetOp` has been called. -/
def endAssign (left right : Val) (toNil : Bool) : Gen Val := do
  let st ← Prog.get
  Prog.modify fun st => { st with rightValue := none, assigned := false }
  if st.assigned then pure (.temp (.int 32)) else storeTo env left right toNil

/-- The rest of a chain, or what follows a call. -/
def goOn (re : Loc) : Option (Loc → Gen Val) → Gen Val
  | none => pure (.loc re)
  | some next => do
    let re ← deRef re
    next re

/-- The function, found and called. -/
def callWith (generics : Nat) (args : List Val) (token : Ident) (idxs : List (Gen Val)) :
    Option Loc → Option (Gen Val) → Gen (Callee × Loc)
  -- where there is a parent, a receiver in the chain is not looked at
  | some parent, _ => callMethod env parent generics token args
  | none, some recv => do
    match ← recv with
    | .loc l => do
      let l ← deRef l
      callMethod env l generics token args
    | _ => Prog.panic
  | none, none => do
    let c ← callee env generics token idxs
    castArgs env args c.params
    pure (c, .result c.ret)

mutual
/-- `calc`; `parent` is what stands in front of the dot. -/
def Exp.calc : Exp → Option Loc → Gen Val
  | .nilN, _ => pure .nilval
  | .varBlock token idxs next, parent => do
    let va ← block env token (evals idxs) next.isNone parent
    goOn va (evalNext next)
  | .callFunc generics params recv token idxs next, parent => do
    let vs ← evalAll (evals params)
    let (c, re) ← callWith env generics (vs.map loadIfVar) token (evals idxs) parent (evalRecv recv)
    let re ← goOn re (evalNext next)
    queueTask env c re
    pure re
  | .bin op left right, _ => do
    let r ← right.calc none
    let l ← left.calc none
    Prog.modify fun st => { st with rightValue := none }
    ofNode env op [(loadIfVar l).ty, (loadIfVar r).ty]
  | .assign left right, _ => do
    let r ← right.calc none
    Prog.modify fun st => { st with rightValue := some (loadIfVar r) }
    let l ← left.calc none
    endAssign env l (loadIfVar r) right.isNil
  | .cast e target, _ => do
    let v ← e.calc none
    implicitCast env (loadIfVar v) target
    pure (.temp target)
  | .node op es, _ => do
    let vs ← evalAll (evals es)
    ofNode env op (vs.map Val.ty)

def evals : List Exp → List (Gen Val)
  | [] => []
  | e :: es => e.calc none :: evals es

/-- The receiver of a call, a chain. -/
def evalRecv : Option Exp → Option (Gen Val)
  | none => none
  | some e => some (e.calc none)

/-- What follows after a dot. -/
def evalNext : Option Exp → Option (Loc → Gen Val)
  | none => none
  | some e => some fun l => if e.isLink then e.calc (some l) else Prog.panic
end

/-! ## Where it ends -/

/-- What a name is bound to is in the scope. -/
def Loc.From (l : Loc) : Prop := ∀ x ty, l = .bound x ty → env.var x = some ty

def Val.From (v : Val) : Prop := ∀ l, v = .loc l → l.From env

/-- A program that hangs just if it hands over something that is no pointer, and hands over nothing that is bound to
a name but what the scope has. -/
abbrev Fine {α : Type} (Q : α → Prop) (x : Gen α) : Prop := Sound (fun l => l.ty.isPtr = false) (Loc.From env) Q x

variable {env}

theorem deReferenced_eq_none_iff {l : Loc} : deReferenced l = none ↔ l.ty.isPtr = false := by
  unfold deReferenced
  cases l.ty <;> simp [Ty.isPtr]

theorem from_addr (t : Ty) : (Loc.addr t).From env := fun _ _ h => Loc.noConfusion h

theorem from_result (t : Ty) : (Loc.result t).From env := fun _ _ h => Loc.noConfusion h

theorem from_loc {l : Loc} (h : l.From env) : (Val.loc l).From env := fun _ hl => Val.loc.inj hl ▸ h

theorem from_temp (t : Ty) : (Val.temp t).From env := fun _ h => Val.noConfusion h

theorem fine_deRef {l : Loc} (h : l.From env) : Fine env (Loc.From env) (deRef l) := by
  refine Sound.call deReferenced_eq_none_iff h ?_
  intro l' hl'
  unfold deReferenced at hl'
  cases hty : l.ty <;> rw [hty] at hl' <;> simp at hl'
  exact hl' ▸ from_addr _

theorem fine_head (token : Ident) (parent : Option Loc) : Fine env (Loc.From env) (head env token parent) := by
  unfold head
  cases parent with
  | none =>
    cases h : env.var token with
    | none => exact Sound.panic
    | some ty => exact Sound.pure fun x t hb => (Loc.bound.inj hb).1 ▸ (Loc.bound.inj hb).2 ▸ h
  | some p =>
    cases h : env.field p.ty token with
    | none => simpa [h] using Sound.panic
    | some elem => simpa [h] using Sound.pure (from_addr elem)

theorem fine_expect (b : Bool) : Fine env (fun _ => True) (expect b) := by
  cases b with
  | false => exact Sound.panic
  | true => exact Sound.pure trivial

theorem fine_followPtr (v : Val) : Fine env (fun _ => True) (followPtr v) := by
  unfold followPtr
  split
  · exact (fine_deRef (from_addr _)).bind fun _ _ => Sound.pure trivial
  · exact Sound.pure trivial

theorem fine_implicitCast (v : Val) (target : Ty) : Fine env (fun _ => True) (implicitCast env v target) := by
  unfold implicitCast
  split
  · exact fine_expect _
  · split
    · exact Sound.pure trivial
    · exact (fine_followPtr v).bind fun _ _ => fine_expect _

theorem fine_castArgs (vs : List Val) (ts : List Ty) : Fine env (fun _ => True) (castArgs env vs ts) := by
  induction vs generalizing ts with
  | nil => exact Sound.pure trivial
  | cons v vs ih =>
    cases ts with
    | nil => exact Sound.panic
    | cons t ts => exact (fine_implicitCast v t).bind fun _ _ => ih ts

theorem fine_passReceiver {recv : Loc} (h : recv.From env) (c : Callee) :
    Fine env (fun _ => True) (passReceiver recv c) := by
  unfold passReceiver
  split
  · exact (fine_deRef h).bind fun _ _ => (fine_deRef (from_addr _)).bind fun _ _ => Sound.pure trivial
  · exact (fine_deRef h).bind fun _ _ => Sound.pure trivial
  · exact Sound.pure trivial
  · exact Sound.pure trivial

theorem fine_callMethod {recv : Loc} (h : recv.From env) (generics : Nat) (token : Ident) (args : List Val) :
    Fine env (fun re => re.2.From env) (callMethod env recv generics token args) := by
  unfold callMethod
  split
  · exact Sound.panic
  · refine (fine_passReceiver h _).bind fun params _ => ?_
    exact (fine_castArgs args params).bind fun _ _ => Sound.pure (from_result _)

theorem fine_queueTask (c : Callee) (re : Val) : Fine env (fun _ => True) (queueTask env c re) := by
  unfold queueTask
  split
  · exact fine_implicitCast _ _
  · exact Sound.pure trivial

/-! ### Indices -/

theorem fine_callIndexOp {index : Gen Val} (hi : Fine env (Val.From env) index) {recv : Loc} (h : recv.From env) :
    Fine env (Loc.From env) (callIndexOp env index recv) := by
  refine hi.bind fun i _ => ?_
  refine (fine_callMethod h _ _ _).bind fun (c, re) hre => ?_
  exact (fine_queueTask c _).bind fun _ _ => Sound.pure hre

theorem fine_callIndexSetOp {index : Gen Val} (hi : Fine env (Val.From env) index) {recv : Loc} (h : recv.From env) :
    Fine env (Loc.From env) (callIndexSetOp env index recv) := by
  refine Sound.get.bind fun st _ => hi.bind fun i _ => ?_
  split
  · exact Sound.panic
  · refine (fine_callMethod h _ _ _).bind fun (c, re) hre => ?_
    exact (fine_queueTask c _).bind fun _ _ => Sound.pure hre

theorem fine_reloadRead {idxs : List (Gen Val)} (hi : ∀ v ∈ idxs, Fine env (Val.From env) v) {val : Loc}
    (h : val.From env) : Fine env (Loc.From env) (reloadRead env idxs val) := by
  induction idxs generalizing val with
  | nil => exact Sound.pure h
  | cons v idxs ih =>
    obtain ⟨hv, hrest⟩ := List.forall_mem_cons.mp hi
    exact (fine_callIndexOp hv h).bind fun val hval => ih hrest hval

theorem fine_reloadSet {idxs : List (Gen Val)} (hi : ∀ v ∈ idxs, Fine env (Val.From env) v) {val : Loc}
    (h : val.From env) : Fine env (Loc.From env) (reloadSet env idxs val) := by
  induction idxs generalizing val with
  | nil => exact (Sound.modify _).bind fun _ _ => Sound.pure h
  | cons v idxs ih =>
    obtain ⟨hv, hrest⟩ := List.forall_mem_cons.mp hi
    cases idxs with
    | nil => exact (fine_callIndexSetOp hv h).bind fun val hval => (Sound.modify _).bind fun _ _ => Sound.pure hval
    | cons w idxs => exact (fine_callIndexOp hv h).bind fun val hval => ih hrest hval

theorem fine_walkIdxs (last : Bool) {all idxs : List (Gen Val)} (hall : ∀ v ∈ all, Fine env (Val.From env) v)
    (hi : ∀ v ∈ idxs, Fine env (Val.From env) v) {va : Loc} (h : va.From env) :
    Fine env (Loc.From env) (walkIdxs env last all idxs va) := by
  induction idxs generalizing va with
  | nil => exact Sound.pure h
  | cons v idxs ih =>
    obtain ⟨hv, hrest⟩ := List.forall_mem_cons.mp hi
    unfold walkIdxs
    split
    · exact hv.bind fun _ _ => ih hrest (from_addr _)
    -- an index operator takes all the indices, at each of them
    · refine Sound.bind (Q := Loc.From env) ?_ fun va hva => ih hrest hva
      refine Sound.get.bind fun st _ => ?_
      split
      · exact fine_reloadSet hall h
      · exact fine_reloadRead hall h
    · exact Sound.panic

theorem fine_block (token : Ident) {idxs : List (Gen Val)} (hi : ∀ v ∈ idxs, Fine env (Val.From env) v) (last : Bool)
    (parent : Option Loc) : Fine env (Loc.From env) (block env token idxs last parent) := by
  refine (fine_head token parent).bind fun va hva => ?_
  split
  · exact Sound.pure hva
  · exact (fine_deRef hva).bind fun va hva => fine_walkIdxs last hi hi hva

/-! ### Expressions -/

theorem fine_evalAll {es : List (Gen Val)} (h : ∀ e ∈ es, Fine env (Val.From env) e) :
    Fine env (fun _ => True) (evalAll es) := by
  induction es with
  | nil => exact Sound.pure trivial
  | cons e es ih =>
    obtain ⟨he, hrest⟩ := List.forall_mem_cons.mp h
    exact he.bind fun _ _ => (ih hrest).bind fun _ _ => Sound.pure trivial

theorem fine_ofNode (op : Nat) (tys : List Ty) : Fine env (Val.From env) (ofNode env op tys) := by
  unfold ofNode
  split
  · exact Sound.pure (from_temp _)
  · exact Sound.panic

theorem fine_callee (generics : Nat) (token : Ident) {idxs : List (Gen Val)}
    (hi : ∀ v ∈ idxs, Fine env (Val.From env) v) : Fine env (fun _ => True) (callee env generics token idxs) := by
  unfold callee
  split
  · refine (fine_block token hi true none).bind fun v _ => ?_
    split
    · exact Sound.pure trivial
    · exact Sound.panic
  · split
    · exact Sound.pure trivial
    · exact Sound.panic

theorem fine_callWith (generics : Nat) (args : List Val) (token : Ident) {idxs : List (Gen Val)}
    (hi : ∀ v ∈ idxs, Fine env (Val.From env) v) {parent : Option Loc} (hp : ∀ p ∈ parent, p.From env)
    {recv : Option (Gen Val)} (hr : ∀ r ∈ recv, Fine env (Val.From env) r) :
    Fine env (fun re => re.2.From env) (callWith env generics args token idxs parent recv) := by
  unfold callWith
  split
  · exact fine_callMethod (hp _ rfl) generics token args
  · refine (hr _ rfl).bind fun v hv => ?_
    split
    · exact (fine_deRef (hv _ rfl)).bind fun l hl => fine_callMethod hl generics token args
    · exact Sound.panic
  · refine (fine_callee generics token hi).bind fun c _ => ?_
    exact (fine_castArgs args c.params).bind fun _ _ => Sound.pure (from_result _)

theorem fine_goOn {re : Loc} (h : re.From env) {next : Option (Loc → Gen Val)}
    (hn : ∀ n ∈ next, ∀ l : Loc, l.From env → Fine env (Val.From env) (n l)) : Fine env (Val.From env) (goOn re next) := by
  unfold goOn
  split
  · exact Sound.pure (from_loc h)
  · exact (fine_deRef h).bind fun l hl => hn _ rfl l hl

theorem fine_endAssign {left : Val} (h : left.From env) (right : Val) (toNil : Bool) :
    Fine env (Val.From env) (endAssign env left right toNil) := by
  have hstore : Fine env (Val.From env) (storeTo env left right toNil) := by
    unfold storeTo
    split
    · cases toNil with
      | false => exact (fine_implicitCast right _).bind fun _ _ => Sound.pure (from_temp _)
      | true => exact (fine_expect _).bind fun _ _ => Sound.pure h
    · exact Sound.panic
  refine Sound.get.bind fun st _ => (Sound.modify _).bind fun _ _ => ?_
  split
  · exact Sound.pure (from_temp _)
  · exact hstore

mutual

theorem fine_calc (e : Exp) (parent : Option Loc) (hp : ∀ p ∈ parent, p.From env) :
    Fine env (Val.From env) (e.calc env parent) := by
  cases e with
  | nilN => exact Sound.pure fun _ h => Val.noConfusion h
  | varBlock token idxs next =>
    rw [Exp.calc]
    exact (fine_block token (fine_evals idxs) _ parent).bind fun va hva => fine_goOn hva (fine_evalNext next)
  | callFunc generics params recv token idxs next =>
    rw [Exp.calc]
    refine (fine_evalAll (fine_evals params)).bind fun vs _ => ?_
    refine (fine_callWith generics _ token (fine_evals idxs) hp (fine_evalRecv recv)).bind fun (c, re) hre => ?_
    refine (fine_goOn hre (fine_evalNext next)).bind fun re hre => ?_
    exact (fine_queueTask c re).bind fun _ _ => Sound.pure hre
  | bin op left right =>
    rw [Exp.calc]
    refine (fine_calc right none (by simp)).bind fun r _ => (fine_calc left none (by simp)).bind fun l _ => ?_
    exact (Sound.modify _).bind fun _ _ => fine_ofNode op _
  | assign left right =>
    rw [Exp.calc]
    refine (fine_calc right none (by simp)).bind fun r _ => (Sound.modify _).bind fun _ _ => ?_
    exact (fine_calc left none (by simp)).bind fun l hl => fine_endAssign hl _ _
  | cast e target =>
    rw [Exp.calc]
    refine (fine_calc e none (by simp)).bind fun v _ => ?_
    exact (fine_implicitCast _ target).bind fun _ _ => Sound.pure (from_temp _)
  | node op es =>
    rw [Exp.calc]
    exact (fine_evalAll (fine_evals es)).bind fun vs _ => fine_ofNode op _

theorem fine_evals (es : List Exp) : ∀ v ∈ evals env es, Fine env (Val.From env) v := by
  cases es with
  | nil => exact fun v hv => absurd hv List.not_mem_nil
  | cons e es =>
    rw [evals]
    exact List.forall_mem_cons.mpr ⟨fine_calc e none (by simp), fine_evals es⟩

theorem fine_evalRecv (recv : Option Exp) : ∀ r ∈ evalRecv env recv, Fine env (Val.From env) r := by
  cases recv with
  | none => simp [evalRecv]
  | some e =>
    intro r hr
    rw [evalRecv, Option.mem_some] at hr
    exact hr ▸ fine_calc e none (by simp)

theorem fine_evalNext (next : Option Exp) :
    ∀ n ∈ evalNext env next, ∀ l : Loc, l.From env → Fine env (Val.From env) (n l) := by
  cases next with
  | none => simp [evalNext]
  | some e =>
    intro n hn l hl
    rw [evalNext, Option.mem_some] at hn
    rw [← hn]
    split
    · exact fine_calc e (some l) (by simpa using hl)
    · exact Sound.panic

end

/-! ## Which calls return -/

variable (env)

/-- What is handed to `deReference` while `e` is compiled. -/
def handed (e : Exp) (st : St) : List Loc := (e.calc env none st).1

variable {env}

/-- The code generator does not come to an end just if it hands over something that is no pointer. -/
theorem hangs_iff (e : Exp) (st : St) :
    (e.calc env none st).2 = .hang ↔ ∃ l ∈ handed env e st, ¬ ∃ w, Returns l.ty w := by
  have hstuck : ∀ l : Loc, (¬ ∃ w, Returns l.ty w) ↔ l.ty.isPtr = false := by
    intro l
    simp only [returns_iff]
    cases l.ty.isPtr <;> simp
  simp only [hstuck]
  exact (fine_calc e none (by simp)).hangs st

theorem var_of_handed {e : Exp} {st : St} {x : Ident} {ty : Ty} (h : .bound x ty ∈ handed env e st) :
    env.var x = some ty :=
  (fine_calc e none (by simp)).args st _ h x ty rfl

/-- The result of a call is no pointer just if the function returns nothing. -/
theorem isPtr_result (ret : Ty) : (Loc.result ret).ty.isPtr ↔ ret ≠ .void := by
  cases ret <;> simp [Loc.ty, Ty.isPtr]

/-- `f().g()`. -/
def chained : Exp := .callFunc 0 [] none ['f'] [] (some (.callFunc 0 [] none ['g'] [] none))

/-- A scope with a function `f` that returns nothing. -/
def voidScope : Env where
  var x := if x = ['f'] then some (.ptr (.func .void)) else none
  field _ _ := none
  method _ _ _ := none
  genericFunc _ _ := none
  async _ _ := false
  cast _ _ := false
  node _ _ := none
  stateMachine := .struct []

end CalcLang.Ast.DeReference
