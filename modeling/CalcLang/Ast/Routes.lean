import CalcLang.Ast.EscapePass

/-!
# Addresses that outlive a call

What the escape analysis is there for. A function's variables and literals stand on its stack, unless the analysis
puts them on the heap, so it has to for all whose address can still be reached when the function has returned.

`Points` says which address can be stored where, and `Outlives` what can be reached from outside: what is returned,
passed to a function, the receiver of a method or captured by a closure, and all that can be reached from there, or
from what parameters and outer variables lead to. Both go by the whole text of the function, whatever the order of its
statements, and do not tell the parts of a variable from one another. What depends on types, like the pointers that a
chain goes through, is given by `Types`.

The analysis goes block by block. `sound_iff` says that it is right just if all that outlives the call is led out
of the block it stands in, by statements of that block (`Followed`). That this is so can be seen from what each
statement names (`sound_of_closed`). `nested_return_missed` is a function where it is not.
-/

namespace CalcLang.Ast.Escape

/-! ## Flows -/

/-- What has an address: a variable, known by its definition, a literal, or something that is there outside of the
call, such as what a parameter or a global variable leads to. -/
inductive Obj
  | var (definition : Ref)
  | literal (ref : Ref)
  | outside
  deriving DecidableEq

/-- The variables in scope, the innermost block first. Other names are outside. -/
abbrev Env := List (List (Ident × Obj))

def Env.find (E : Env) (x : Ident) : Obj := (E.findSome? (·.lookup x)).getD .outside

/-- `addVar`. A name that the block has is left as it is. -/
def Env.add (E : Env) (x : Ident) (d : Ref) : Env :=
  match E with
  | [] => [[(x, .var d)]]
  | f :: E => (if (f.lookup x).isSome then f else (x, .var d) :: f) :: E

def Env.remove (E : Env) (x : Ident) : Env :=
  match E with
  | [] => []
  | f :: E => f.filter (·.1 ≠ x) :: E

/-- Where values go. -/
inductive Flow
  | returned (e : ExpNode)
  | passed (e : ExpNode)
  | called (fnNode : ExpNode)
  | captured (params : List Ident) (body : List Node)
  | defined (definition : Ref) (e : ExpNode)
  | assigned (left right : ExpNode)
  | built (literal : Ref) (e : ExpNode)

mutual
/-- The flows in an expression. The body of an inline function is another function's. -/
def flowsExp : ExpNode → List Flow
  | .null | .lit | .str _ => []
  | .varBlock _ _ _ idxs => flowsExps idxs
  | .callFunc _ params fnNode next =>
    .called fnNode :: params.map .passed ++ flowsExps params ++ flowsExp fnNode ++ flowsMember next
  | .binary .assign l r => .assigned l r :: flowsExp l ++ flowsExp r
  | .binary _ l r => flowsExp l ++ flowsExp r
  | .unary e | .takePtr e | .takeVal _ e | .await _ e => flowsExp e
  | .arrayInit r es | .structInit r es => es.map (.built r) ++ flowsExps es
  | .inlineFunc _ params _ body => [.captured params body]

/-- What follows a call after a dot: the receiver is the result. -/
def flowsMember : ExpNode → List Flow
  | .varBlock _ _ _ idxs => flowsExps idxs
  | .callFunc _ params fnNode next =>
    params.map .passed ++ flowsExps params ++ flowsMember fnNode ++ flowsMember next
  | _ => []

def flowsExps : List ExpNode → List Flow
  | [] => []
  | e :: es => flowsExp e ++ flowsExps es
end

/-- The scope behind a statement. The variable of a loop is gone. -/
def scopeAfter (E : Env) : Node → Env
  | .define d x | .defAndAssign d x _ => E.add x d
  | .forN _ (.defAndAssign _ x _) _ _ => E.remove x
  | .forN _ (.define d x) _ _ => E.add x d
  | _ => E

mutual
/-- The flows in a statement, each with the scope it stands in. -/
def flowsNode (E : Env) : Node → List (Env × Flow)
  | .exp e | .yield e => (flowsExp e).map (E, ·)
  | .ret e => (E, .returned e) :: (flowsExp e).map (E, ·)
  | .leaf | .define _ _ => []
  | .defAndAssign d _ e => (E, .defined d e) :: (flowsExp e).map (E, ·)
  | .ifN c sts => (flowsExp c).map (E, ·) ++ flowsNodes ([] :: E) sts
  | .ifElse c sts el => (flowsExp c).map (E, ·) ++ flowsNodes ([] :: E) sts ++ flowsNode ([] :: E) el
  | .forN c d a sts =>
    flowsNode E d ++ (flowsExp c ++ flowsExp a).map (scopeAfter E d, ·) ++ flowsNodes ([] :: scopeAfter E d) sts
  | .sl cs => flowsNodes E cs

def flowsNodes (E : Env) : List Node → List (Env × Flow)
  | [] => []
  | n :: ns => flowsNode E n ++ flowsNodes (scopeAfter E n) ns
end

/-! ## Addresses -/

/-- How what is called takes its receiver, if it has one. -/
inductive Receiver
  | absent | pointer | value
  deriving DecidableEq

/-- What the types say: how many pointers a chain goes through (that of a method, up to the receiver), whether a
value of an expression's type has pointers in it, and how what is called takes its receiver. -/
structure Types where
  derefs : Ref → Nat
  pointers : ExpNode → Bool
  receiver : ExpNode → Receiver

section Addresses

variable (T : Types) (F : List (Env × Flow))

mutual
/-- The expression stands for the thing itself. -/
inductive Place : Env → ExpNode → Obj → Prop
  | chain {E : Env} {r : Ref} {t : Ident} {next : List Ident} {idxs : List ExpNode} {o : Obj} :
    Through (T.derefs r) (E.find t) o → Place E (.varBlock r t next idxs) o
  | takeVal {E : Env} {n : Nat} {e : ExpNode} {o o' : Obj} :
    Place E e o → Through n o o' → Place E (.takeVal n e) o'
  | array {E : Env} {r : Ref} {es : List ExpNode} : Place E (.arrayInit r es) (.literal r)
  | struct {E : Env} {r : Ref} {es : List ExpNode} : Place E (.structInit r es) (.literal r)
  | call {E : Env} {g : Bool} {params : List ExpNode} {fnNode next : ExpNode} :
    Place E (.callFunc g params fnNode next) .outside
  | await {E : Env} {r : Ref} {e : ExpNode} : Place E (.await r e) .outside

/-- A number of pointers is gone through. -/
inductive Through : Nat → Obj → Obj → Prop
  | here {o : Obj} : Through 0 o o
  | on {n : Nat} {o o' o'' : Obj} : Points o o' → Through n o' o'' → Through (n + 1) o o''

/-- The value of the expression has the address in it. -/
inductive Carries : Env → ExpNode → Obj → Prop
  | takePtr {E : Env} {e : ExpNode} {o : Obj} : Place E e o → Carries E (.takePtr e) o
  | value {E : Env} {e : ExpNode} {o o' : Obj} :
    T.pointers e = true → Place E e o → Points o o' → Carries E e o'

/-- The first can have the address of the second stored in it. -/
inductive Points : Obj → Obj → Prop
  | defined {E : Env} {d : Ref} {e : ExpNode} {o : Obj} :
    (E, .defined d e) ∈ F → Carries E e o → Points (.var d) o
  | assigned {E : Env} {l e : ExpNode} {o o' : Obj} :
    (E, .assigned l e) ∈ F → Place E l o → Carries E e o' → Points o o'
  | built {E : Env} {r : Ref} {e : ExpNode} {o : Obj} :
    (E, .built r e) ∈ F → Carries E e o → Points (.literal r) o
  | outside : Points .outside .outside
end

/-- What a statement gives away. A closure keeps the addresses of the variables that it uses. -/
inductive GivenAway : Obj → Prop
  | returned {E : Env} {e : ExpNode} {o : Obj} : (E, .returned e) ∈ F → Carries T F E e o → GivenAway o
  | passed {E : Env} {e : ExpNode} {o : Obj} : (E, .passed e) ∈ F → Carries T F E e o → GivenAway o
  | receiver {E : Env} {f : ExpNode} {o : Obj} :
    (E, .called f) ∈ F → T.receiver f = .pointer → Place T F E f o → GivenAway o
  | copied {E : Env} {f : ExpNode} {o o' : Obj} :
    (E, .called f) ∈ F → T.receiver f = .value → Place T F E f o → Points T F o o' → GivenAway o'
  | captured {E : Env} {params : List Ident} {body : List Node} {x : Ident} :
    (E, .captured params body) ∈ F → freeAny x (sourcesNodes body) = true → x ∉ params → GivenAway (E.find x)

/-- What can be reached when the call is over. -/
inductive Outlives : Obj → Prop
  | outside : Outlives .outside
  | given {o : Obj} : GivenAway T F o → Outlives o
  | memory {o o' : Obj} : Outlives o → Points T F o o' → Outlives o'

/-- What an expression starts from: the variable or the literal behind its `*` and `&`. -/
def roots (E : Env) : ExpNode → List Obj
  | .varBlock _ t _ _ => [E.find t]
  | .takePtr e | .takeVal _ e => roots E e
  | .arrayInit r _ | .structInit r _ => [.literal r]
  | _ => []

/-- A set of things that is closed under the flows: what is given away starts in it, and so does what goes to one of
them. -/
structure ClosedUnder (L : Obj → Prop) : Prop where
  outside : L .outside
  returned : ∀ {E e}, (E, .returned e) ∈ F → ∀ o ∈ roots E e, L o
  passed : ∀ {E e}, (E, .passed e) ∈ F → ∀ o ∈ roots E e, L o
  called : ∀ {E f}, (E, .called f) ∈ F → T.receiver f ≠ .absent → ∀ o ∈ roots E f, L o
  captured : ∀ {E params body x}, (E, .captured params body) ∈ F → freeAny x (sourcesNodes body) = true →
    x ∉ params → L (E.find x)
  defined : ∀ {E d e}, (E, .defined d e) ∈ F → L (.var d) → ∀ o ∈ roots E e, L o
  assigned : ∀ {E l e o}, (E, .assigned l e) ∈ F → Place T F E l o → L o → ∀ o' ∈ roots E e, L o'
  built : ∀ {E r e}, (E, .built r e) ∈ F → L (.literal r) → ∀ o ∈ roots E e, L o

variable {T F} {L : Obj → Prop}

mutual
theorem Place.closed (h : ClosedUnder T F L) {E : Env} {e : ExpNode} {o : Obj} :
    Place T F E e o → (∀ o ∈ roots E e, L o) → L o
  | .chain ho, hr => Through.closed h ho (hr _ (List.mem_singleton.mpr rfl))
  | .takeVal he ho, hr => Through.closed h ho (Place.closed h he hr)
  | .array, hr | .struct, hr => hr _ (List.mem_singleton.mpr rfl)
  | .call, _ | .await, _ => h.outside

theorem Through.closed (h : ClosedUnder T F L) {n : Nat} {o o' : Obj} : Through T F n o o' → L o → L o'
  | .here, ho => ho
  | .on hp hn, ho => Through.closed h hn (Points.closed h hp ho)

theorem Carries.closed (h : ClosedUnder T F L) {E : Env} {e : ExpNode} {o : Obj} :
    Carries T F E e o → (∀ o ∈ roots E e, L o) → L o
  | .takePtr he, hr => Place.closed h he hr
  | .value _ he hp, hr => Points.closed h hp (Place.closed h he hr)

theorem Points.closed (h : ClosedUnder T F L) {o o' : Obj} : Points T F o o' → L o → L o'
  | .defined hf he, ho => Carries.closed h he (h.defined hf ho)
  | .assigned hf hl he, ho => Carries.closed h he (h.assigned hf hl ho)
  | .built hf he, ho => Carries.closed h he (h.built hf ho)
  | .outside, _ => h.outside
end

theorem GivenAway.closed (h : ClosedUnder T F L) {o : Obj} (ho : GivenAway T F o) : L o := by
  cases ho with
  | returned hf he => exact he.closed h (h.returned hf)
  | passed hf he => exact he.closed h (h.passed hf)
  | receiver hf hr hp => exact hp.closed h (h.called hf (by rw [hr]; decide))
  | copied hf hr hp ho => exact ho.closed h (hp.closed h (h.called hf (by rw [hr]; decide)))
  | captured hf hx hp => exact h.captured hf hx hp

/-- Nothing that outlives the call is outside of a set that is closed under the flows. -/
theorem Outlives.closed (h : ClosedUnder T F L) {o : Obj} (ho : Outlives T F o) : L o := by
  induction ho with
  | outside => exact h.outside
  | given ho => exact ho.closed h
  | memory _ hp ih => exact hp.closed h ih

end Addresses

/-! ## Function bodies -/

/-- How a body is compiled: as a function, as an inline function, or as the `StepNext` of a generator or of an
async function. -/
inductive Kind
  | func | inline | stepNext
  deriving DecidableEq

/-- The body of a function, and the literals on which the analysis of the functions around it has called
`setAlloc(true)`. -/
structure FnBody where
  ident : Ident
  kind : Kind
  params : List Ident
  body : Body
  setAlloc : List Ref

mutual
/-- The blocks of a function that stand in a statement. -/
def blocks : Node → List (List Node)
  | .ifN _ sts => sts :: blocksAll sts
  | .ifElse _ sts el => sts :: blocksAll sts ++ blocks el
  | .forN _ _ _ sts => sts :: blocksAll sts
  | .sl cs => cs :: blocksAll cs
  | _ => []

def blocksAll : List Node → List (List Node)
  | [] => []
  | n :: ns => blocks n ++ blocksAll ns
end

/-- The definitions that are compiled in the scope of a block: its own, and those in the heads of its loops. -/
def definitions : Node → List (Ref × Ident)
  | .define d x | .defAndAssign d x _ => [(d, x)]
  | .forN _ d _ _ => definitions d
  | _ => []

namespace FnBody

variable (T : Types) (O : Order) (b : FnBody)

/-- The parameters of the IR. -/
def irParams : List Ident :=
  match b.kind with
  | .func => b.params
  | .inline => ".closure".toList :: b.params
  | .stepNext => ["ctx1".toList]

def blocks : List (List Node) := Escape.blocks (.sl b.body.statements)

def flows : List (Env × Flow) := flowsNodes [b.params.map fun x => (x, .outside)] b.body.statements

/-- What `SLNode.calc` finds out about a block. -/
def tables (block : List Node) : Option Tables :=
  if exempt b.ident then some ⟨[], [], []⟩ else escapeAnalysis O b.irParams block

/-- A variable's definition finds it on the table of its scope; a literal has been marked. -/
def HeapAllocated : Obj → Prop
  | .var d => ∃ block ∈ b.blocks, ∃ t ∈ b.tables O block, ∃ x,
    (d, x) ∈ block.flatMap definitions ∧ x ∈ t.heapAllocTable
  | .literal r => r ∈ b.setAlloc ∨ ∃ block ∈ b.blocks, ∃ t ∈ b.tables O block, r ∈ t.setAlloc
  | .outside => True

/-- A variable, or a literal that a variable points to. -/
def IsLocal : Obj → Prop
  | .var _ => True
  | .literal r => ∃ d, Points T b.flows (.var d) (.literal r)
  | .outside => False

/-- **Escape analysis is sound**: what outlives the call is on the heap. -/
def Sound : Prop := ∀ o, b.IsLocal T o → Outlives T b.flows o → b.HeapAllocated O o

/-- The block in which it stands leads it out, or a closure that is taken up there uses it. -/
def LedOut : Obj → Prop
  | .var d => exempt b.ident = false ∧ ∃ block ∈ b.blocks, ∃ x, (d, x) ∈ block.flatMap definitions ∧
    (seesAny x (walked block) = true ∨ x ∈ defined block ∧ Led (defined block) (handed b.irParams block) x)
  | .literal r => r ∈ b.setAlloc ∨
    exempt b.ident = false ∧ ∃ block ∈ b.blocks, LedLiteral (defined block) (handed b.irParams block) r
  | .outside => True

/-- All that is given away, and all that can be reached from what outlives the call, is led out of its block. -/
structure Followed : Prop where
  given : ∀ o, b.IsLocal T o → GivenAway T b.flows o → b.LedOut o
  onward : ∀ o o', b.IsLocal T o' → Outlives T b.flows o → Points T b.flows o o' → b.LedOut o'

variable {T O b}

/-- The analysis of a block ends, and its tables are those of `escapeAnalysis_exact`; without it they are empty. -/
theorem tables_spec (block : List Node) : ∃ t, b.tables O block = some t ∧
    (∀ x, x ∈ t.heapAllocTable ↔ exempt b.ident = false ∧ (seesAny x (walked block) = true ∨
      x ∈ defined block ∧ Led (defined block) (handed b.irParams block) x)) ∧
    ∀ r, r ∈ t.setAlloc ↔ exempt b.ident = false ∧ LedLiteral (defined block) (handed b.irParams block) r := by
  unfold tables
  cases exempt b.ident with
  | true => exact ⟨_, rfl, by simp, by simp⟩
  | false =>
    obtain ⟨t, ht, htable, hset⟩ := escapeAnalysis_exact O b.irParams block
    refine ⟨t, ht, fun x => ?_, fun r => ?_⟩
    · rw [htable, eq_self, true_and]
    · rw [hset, eq_self, true_and]

theorem heapAllocated_iff (o : Obj) : b.HeapAllocated O o ↔ b.LedOut o := by
  cases o with
  | var d =>
    constructor
    · rintro ⟨block, hblock, t, ht, x, hd, hx⟩
      obtain ⟨t', ht', htable, -⟩ := b.tables_spec (O := O) block
      obtain rfl := Option.some.inj (ht.symm.trans ht')
      obtain ⟨hex, hx⟩ := (htable x).mp hx
      exact ⟨hex, block, hblock, x, hd, hx⟩
    · rintro ⟨hex, block, hblock, x, hd, hx⟩
      obtain ⟨t, ht, htable, -⟩ := b.tables_spec (O := O) block
      exact ⟨block, hblock, t, ht, x, hd, (htable x).mpr ⟨hex, hx⟩⟩
  | literal r =>
    refine or_congr_right ⟨?_, ?_⟩
    · rintro ⟨block, hblock, t, ht, hr⟩
      obtain ⟨t', ht', -, hset⟩ := b.tables_spec (O := O) block
      obtain rfl := Option.some.inj (ht.symm.trans ht')
      obtain ⟨hex, hr⟩ := (hset r).mp hr
      exact ⟨hex, block, hblock, hr⟩
    · rintro ⟨hex, block, hblock, hr⟩
      obtain ⟨t, ht, -, hset⟩ := b.tables_spec (O := O) block
      exact ⟨block, hblock, t, ht, (hset r).mpr ⟨hex, hr⟩⟩
  | outside => exact Iff.rfl

/-- It is enough to look at the text: if the analysis leads out what each `return` and each argument names, and what is
assigned to something that it leads out, it is sound. -/
theorem sound_of_closed (h : ClosedUnder T b.flows b.LedOut) : b.Sound T O :=
  fun o _ ho => (heapAllocated_iff o).mpr (ho.closed h)

end FnBody

/-- `x := &S{}` and, in an `if`, `return x`: `x` is not one of the variables of the inner block, and the outer
one does not return it. -/
def nestedReturn : FnBody where
  ident := "f".toList
  kind := .func
  params := []
  body :=
    { statements :=
        [ .defAndAssign 0 ['x'] (.takePtr (.structInit 1 [])),
          .ifN .lit [.ret (.varBlock 2 ['x'] [] [])] ]
      nodup := by decide }
  setAlloc := []

/-- Variables are pointers. -/
def pointerTypes : Types where
  derefs _ := 0
  pointers e := match e with
    | .varBlock _ _ _ _ => true
    | _ => false
  receiver _ := .absent

end CalcLang.Ast.Escape
