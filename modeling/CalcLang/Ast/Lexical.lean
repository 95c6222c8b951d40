import CalcLang.Ast.Compile
import CalcLang.Ast.Scope
import CalcLang.Lib.Chain

/-!
# Compiled functions with names

In `CalcLang.Ast.Compile` a variable is named by its slot. In the source it has a name, and the scope's tables say which
slot that is when code is generated (`Stmt.tables`): `DefAndAssignNode.calc` adds the name of a variable, and every
occurrence of it searches for it.

What the names mean is lexical scoping. `scoping` is that language: a block begins with a table of its own and ends by
dropping it (`enter`, `leave`), a loop is a block around its variable, and a name is the innermost one that was defined.
Read so, each occurrence can be given its slot in advance (`Stmt.lexical`), and that changes nothing: the names always
stand for what is in the slots (`NamesFollow`).

So the code does what the names mean if the tables lead each name to the slot it should have (`named_compile_correct`).
`CalcLang.Ast.ScopeExact` says when they do.
-/

namespace CalcLang.Ast

open CalcLang.Lib CalcLang.Parser

/-! ## The language -/

/-- An expression with names. -/
inductive NamedExp : Sort2 → Type where
  | num (t : List Char) (i : Int) (bw : Nat) (h : ParseInt t = some (i, bw)) : NamedExp .int
  | name {k : Sort2} (x : Ident) : NamedExp k
  | unary (minus : Bool) (child : NamedExp .int) : NamedExp .int
  | bin (op : BinOp) (left right : NamedExp .int) : NamedExp .int
  | boolConst (val : Bool) : NamedExp .bool
  | compare (op : Pred) (left right : NamedExp .int) : NamedExp .bool
  | boolExp (op : BoolOp) (left right : NamedExp .bool) : NamedExp .bool
  | notN (bool : NamedExp .bool) : NamedExp .bool

/-- What a function does between its branches. A definition comes with the slot that its node allocates. -/
inductive Named where
  | define {k : Sort2} (r : Ref) (x : Ident) (val : NamedExp k)
  | assign {k : Sort2} (x : Ident) (right : NamedExp k)
  | cond (boolExp : NamedExp .bool)

/-- A value of either sort. -/
abbrev Value := (k : Sort2) × k.Value

def Value.get (v : Value) (k : Sort2) : Option k.Value := if h : v.1 = k then some (h ▸ v.2) else none

/-- What the names stand for, block by block. -/
abbrev Frames := List (List (Ident × Value))

/-- The value of an expression. -/
def NamedExp.eval (E : Frames) : {k : Sort2} → NamedExp k → Option k.Value
  | _, .num _ i _ _ => some (BitVec.ofInt 64 i)
  | k, .name x => do (← Chain.search x E).get k
  | _, .unary minus child => (child.eval E).map fun v => if minus then -v else v
  | _, .bin op left right => do
    let r ← right.eval E
    let l ← left.eval E
    op.int.eval l r
  | _, .boolConst val => some val
  | _, .compare op left right => do
    let l ← left.eval E
    let r ← right.eval E
    return op.eval l r
  | _, .boolExp .and left right => do if ← left.eval E then right.eval E else return false
  | _, .boolExp .or left right => do if ← left.eval E then return true else right.eval E
  | _, .notN bool => (bool.eval E).map not

/-- A part of the function, or the begin or the end of a block. -/
inductive Scoped where
  | part (c : Named)
  | enter
  | leave

/-- Lexical scoping. -/
def scoping : Interp Scoped Frames where
  act
    | .part (.define _ x e), E => (e.eval E).map fun v => Chain.addAt 0 (x, ⟨_, v⟩) E
    | .part (@Named.assign k x e), E => do
      let v ← e.eval E
      let old ← Chain.search x E
      if old.1 = k then some (Chain.set x ⟨k, v⟩ E) else none
    | .part (.cond e), E => (e.eval E).map fun _ => E
    | .enter, E => some ([] :: E)
    | .leave, E => some E.tail
  test
    | .part (.cond e), E => e.eval E
    | _, _ => none

mutual

/-- A statement with its blocks. A loop is a block around its variable. -/
def Stmt.scopes : Stmt Named → List (Stmt Scoped)
  | .atom a => [.atom (.part a)]
  | .ifN c sts => [.ifN (.part c) (.atom .enter :: (scopesSL sts ++ [.atom .leave]))]
  | .ifElse c sts els =>
    [.ifElse (.part c) (.atom .enter :: (scopesSL sts ++ [.atom .leave]))
      (.atom .enter :: (scopesSL els ++ [.atom .leave]))]
  | .forN init c step sts =>
    [.atom .enter,
      .forN (init.map .part) (c.map .part) (step.map .part) (.atom .enter :: (scopesSL sts ++ [.atom .leave])),
      .atom .leave]
  | .breakN => [.breakN]
  | .continueN => [.continueN]
  | .retN => [.retN]

def scopesSL : List (Stmt Named) → List (Stmt Scoped)
  | [] => []
  | st :: sts => st.scopes ++ scopesSL sts

end

/-- The statements of a block, from its begin to its end. -/
def inBlock (sts : List (Stmt Named)) : List (Stmt Scoped) := .atom .enter :: (scopesSL sts ++ [.atom .leave])

/-! ## Slots for names -/

/-- A variable in its slot. -/
def OpExp.var (r : Nat) : (k : Sort2) → OpExp k
  | .int => .intVar r .int
  | .bool => .boolVar r

section Slots

variable (Γ : Nat → Sort2) (look : Ident → Option Nat)

/-- The names are replaced by their slots. -/
def NamedExp.slots : {k : Sort2} → NamedExp k → Option (OpExp k)
  | _, .num t i bw h => some (.num t i bw h)
  | k, .name x => do
    let r ← look x
    if Γ r = k then some (.var r k) else none
  | _, .unary minus child => do return .unary minus (← child.slots)
  | _, .bin op left right => do return .bin op (← left.slots) (← right.slots)
  | _, .boolConst val => some (.boolConst val)
  | _, .compare op left right => do return .compare op (← left.slots) (← right.slots)
  | _, .boolExp op left right => do return .boolExp op (← left.slots) (← right.slots)
  | _, .notN bool => do return .notN (← bool.slots)

def Named.slots : Named → Option Code
  | @Named.define k r _ val => do if Γ r = k then return .define r (← val.slots Γ look) else none
  | @Named.assign k x right => do
    let r ← look x
    if Γ r = k then return .assign r (← right.slots Γ look) else none
  | .cond boolExp => do return .cond (← boolExp.slots Γ look)

/-- A part that may be missing. -/
def slotsOpt : Option Named → Option (Option Code)
  | none => some none
  | some c => (c.slots Γ look).map some

end Slots

/-- The name that a part defines, and the slot. -/
def Named.defines : Named → Option (Ident × Ref)
  | .define r x _ => some (x, r)
  | _ => none

/-! ## The tables of the code generator -/

/-- The slot that `searchVar` leads to. -/
def VarScope.slot (N : Names) (s : VarScope) (x : Ident) : Option Nat :=
  match s.searchVar N x with
  | some (.node r) => some r
  | _ => none

/-- The scope behind a part. -/
def VarScope.behind (N : Names) (s : VarScope) (c : Named) : VarScope :=
  match c.defines with
  | some (x, r) => s.addVar N x (.node r)
  | none => s

mutual

/-- What `calc` does with the names of a statement. -/
def Stmt.tables (N : Names) (Γ : Nat → Sort2) : Stmt Named → VarScope → Option (Stmt Code × VarScope)
  | .atom a, s => do return (.atom (← a.slots Γ (s.slot N)), s.behind N a)
  | .ifN c sts, s => do
    let (sts', _) ← tablesSL N Γ sts s.addChildScope
    return (.ifN (← c.slots Γ (s.slot N)) sts', s)
  | .ifElse c sts els, s => do
    let c' ← c.slots Γ (s.slot N)
    let (sts', _) ← tablesSL N Γ sts s.addChildScope
    let (els', _) ← tablesSL N Γ els s.addChildScope
    return (.ifElse c' sts' els', s)
  | .forN init c step sts, s => do
    -- the variable is put into the scope that the loop stands in; both copies of the condition find the same there
    let init' ← slotsOpt Γ (s.slot N) init
    let s' := init.elim s (s.behind N)
    let c' ← slotsOpt Γ (s'.slot N) c
    let (sts', _) ← tablesSL N Γ sts s'.addChildScope
    let step' ← slotsOpt Γ (s'.addChildScope.slot N) step
    return (.forN init' c' step' sts', ((init.bind Named.defines).elim s' fun d => s'.delete d.1))
  | .breakN, s => some (.breakN, s)
  | .continueN, s => some (.continueN, s)
  | .retN, s => some (.retN, s)

def tablesSL (N : Names) (Γ : Nat → Sort2) : List (Stmt Named) → VarScope → Option (List (Stmt Code) × VarScope)
  | [], s => some ([], s)
  | st :: sts, s => do
    let (st', s) ← st.tables N Γ s
    let (sts', s) ← tablesSL N Γ sts s
    return (st' :: sts', s)

end

/-- The compiled code of a body with names, in a declared function: nothing is captured there. -/
def compileNamed (N : Names) (Γ : Nat → Sort2) (tables : List Table) (outer : Ident → Option Storage)
    (body : List (Stmt Named)) : Option (List CodeBlock) := do
  let (body', _) ← tablesSL N Γ body ⟨tables, outer, none⟩
  compileBody none body'

/-! ## Lexical scoping, in advance -/

/-- The slots of the names, block by block. -/
abbrev Slots := List (List (Ident × Nat))

/-- The slots behind a part. A definition has a slot that no name in force has. -/
def Slots.behind (S : Slots) (c : Named) : Option Slots :=
  match c.defines with
  | some (x, r) => if r ∈ Chain.values S then none else some (Chain.addAt 0 (x, r) S)
  | none => some S

mutual

/-- A statement with the slots that its names should have. -/
def Stmt.lexical (Γ : Nat → Sort2) : Stmt Named → Slots → Option (Stmt Code × Slots)
  | .atom a, S => do return (.atom (← a.slots Γ (Chain.search · S)), ← S.behind a)
  | .ifN c sts, S => do
    let c' ← c.slots Γ (Chain.search · S)
    let (sts', _) ← lexicalSL Γ sts ([] :: S)
    return (.ifN c' sts', S)
  | .ifElse c sts els, S => do
    let c' ← c.slots Γ (Chain.search · S)
    let (sts', _) ← lexicalSL Γ sts ([] :: S)
    let (els', _) ← lexicalSL Γ els ([] :: S)
    return (.ifElse c' sts' els', S)
  | .forN init c step sts, S => do
    let init' ← slotsOpt Γ (Chain.search · ([] :: S)) init
    let S' ← init.elim (some ([] :: S)) (Slots.behind ([] :: S))
    let c' ← slotsOpt Γ (Chain.search · S') c
    let step' ← slotsOpt Γ (Chain.search · S') step
    let (sts', _) ← lexicalSL Γ sts ([] :: S')
    if (step.bind Named.defines).isSome then none else return (.forN init' c' step' sts', S)
  | .breakN, _ | .continueN, _ | .retN, _ => none

def lexicalSL (Γ : Nat → Sort2) : List (Stmt Named) → Slots → Option (List (Stmt Code) × Slots)
  | [], S => some ([], S)
  | st :: sts, S => do
    let (st', S) ← st.lexical Γ S
    let (sts', S) ← lexicalSL Γ sts S
    return (st' :: sts', S)

end

/-! ## Names and slots -/

/-- What is in a slot. -/
def Valuation.value (Γ : Nat → Sort2) (σ : Valuation) (r : Nat) : Value := ⟨Γ r, σ.get (Γ r) r⟩

/-- The names, for what is in their slots. -/
abbrev Slots.frames (Γ : Nat → Sort2) (σ : Valuation) (S : Slots) : Frames := Chain.mapValues (σ.value Γ) S

section Slots

variable {Γ : Nat → Sort2} {σ : Valuation} {S S₁ : Slots} {k : Sort2} {r : Nat}

theorem Value.get_self (v : k.Value) : Value.get ⟨k, v⟩ k = some v := by
  simp [Value.get]

theorem OpExp.eval_var : (OpExp.var r k).eval σ = some (σ.get k r) := by
  cases k <;> rfl

theorem Valuation.get_set_of_ne {r' : Nat} (k' : Sort2) (v : k.Value) (h : r' ≠ r) :
    (σ.set r v).get k' r' = σ.get k' r' := by
  cases k <;> cases k' <;> first | rfl | exact Function.update_of_ne h _ _

theorem Valuation.get_set (v : k.Value) : (σ.set r v).get k r = v := by
  cases k <;> exact Function.update_self ..

/-- A slot is set. -/
theorem Valuation.value_set (v : (Γ r).Value) : (σ.set r v).value Γ = Function.update (σ.value Γ) r ⟨Γ r, v⟩ := by
  funext r'
  by_cases h : r' = r
  · subst h
    rw [Function.update_self, value, get_set]
  · rw [Function.update_of_ne h, value, get_set_of_ne _ v h, value]

/-- An expression has the value that it has with slots. -/
theorem NamedExp.slots_eval : ∀ {k : Sort2} (e : NamedExp k) {e' : OpExp k},
    e.slots Γ (Chain.search · S) = some e' → e.eval (S.frames Γ σ) = e'.eval σ
  | _, .num t i bw h, e', he => by
    obtain rfl := Option.some.inj he
    rfl
  | k, .name x, e', he => by
    simp only [slots, Option.bind_eq_bind, Option.bind_eq_some_iff, Option.ite_none_right_eq_some,
      Option.some.injEq] at he
    obtain ⟨r, hr, rfl, rfl⟩ := he
    rw [eval, Chain.search_mapValues, hr, OpExp.eval_var]
    exact Value.get_self _
  | _, .boolConst val, e', he => by
    obtain rfl := Option.some.inj he
    rfl
  | _, .unary minus child, e', he => by
    simp only [slots, Option.bind_eq_bind, Option.bind_eq_some_iff, Option.pure_def, Option.some.injEq] at he
    obtain ⟨c, hc, rfl⟩ := he
    rw [eval, OpExp.eval, child.slots_eval hc]
  | _, .bin op left right, e', he => by
    simp only [slots, Option.bind_eq_bind, Option.bind_eq_some_iff, Option.pure_def, Option.some.injEq] at he
    obtain ⟨l, hl, r, hr, rfl⟩ := he
    rw [eval, OpExp.eval, left.slots_eval hl, right.slots_eval hr]
  | _, .compare op left right, e', he => by
    simp only [slots, Option.bind_eq_bind, Option.bind_eq_some_iff, Option.pure_def, Option.some.injEq] at he
    obtain ⟨l, hl, r, hr, rfl⟩ := he
    rw [eval, OpExp.eval, left.slots_eval hl, right.slots_eval hr]
  | _, .boolExp op left right, e', he => by
    simp only [slots, Option.bind_eq_bind, Option.bind_eq_some_iff, Option.pure_def, Option.some.injEq] at he
    obtain ⟨l, hl, r, hr, rfl⟩ := he
    cases op <;> simp only [eval, OpExp.eval, left.slots_eval hl, right.slots_eval hr]
  | _, .notN bool, e', he => by
    simp only [slots, Option.bind_eq_bind, Option.bind_eq_some_iff, Option.pure_def, Option.some.injEq] at he
    obtain ⟨b, hb, rfl⟩ := he
    rw [eval, OpExp.eval, bool.slots_eval hb]

/-- A part does to the names what it does to the slots. -/
theorem Named.slots_act {c : Named} {c' : Code} (hc : c.slots Γ (Chain.search · S) = some c')
    (hbehind : S.behind c = some S₁) (hn : (Chain.values S).Nodup) :
    scoping.act (.part c) (S.frames Γ σ) = (language.act c' σ).map fun σ' => S₁.frames Γ σ' := by
  cases c with
  | @define k r x val =>
    simp only [slots, Option.bind_eq_bind, Option.ite_none_right_eq_some, Option.bind_eq_some_iff, Option.pure_def,
      Option.some.injEq] at hc
    obtain ⟨rfl, e, he, rfl⟩ := hc
    simp only [Slots.behind, defines, Option.ite_none_left_eq_some, Option.some.injEq] at hbehind
    obtain ⟨hr, rfl⟩ := hbehind
    simp only [scoping, language, val.slots_eval he, Option.map_map]
    refine Option.map_congr fun v _ => ?_
    show Chain.addAt 0 (x, ⟨Γ r, v⟩) (S.frames Γ σ) = Chain.mapValues ((σ.set r v).value Γ) (Chain.addAt 0 (x, r) S)
    rw [Chain.add_mapValues, Valuation.value_set, Function.update_self, Chain.mapValues_update hr]
  | @assign k x right =>
    simp only [slots, Option.bind_eq_bind, Option.ite_none_right_eq_some, Option.bind_eq_some_iff, Option.pure_def,
      Option.some.injEq] at hc
    obtain ⟨r, hr, rfl, e, he, rfl⟩ := hc
    obtain rfl := Option.some.inj hbehind
    simp only [scoping, language, right.slots_eval he, Chain.search_mapValues, hr]
    cases e.eval σ with
    | none => rfl
    | some v =>
      have hset : Chain.set x ⟨Γ r, v⟩ (S.frames Γ σ) = S.frames Γ (σ.set r v) := by
        rw [Slots.frames, Chain.set_mapValues hr hn, ← Valuation.value_set]
      simp [Valuation.value, hset]
  | cond boolExp =>
    simp only [slots, Option.bind_eq_bind, Option.bind_eq_some_iff, Option.pure_def, Option.some.injEq] at hc
    obtain ⟨e, he, rfl⟩ := hc
    obtain rfl := Option.some.inj hbehind
    simp only [scoping, language, boolExp.slots_eval he, Option.map_map]
    rfl

theorem Named.slots_test {c : Named} {c' : Code} (hc : c.slots Γ (Chain.search · S) = some c') :
    scoping.test (.part c) (S.frames Γ σ) = language.test c' σ := by
  cases c with
  | define r x val =>
    simp only [slots, Option.bind_eq_bind, Option.ite_none_right_eq_some, Option.bind_eq_some_iff, Option.pure_def,
      Option.some.injEq] at hc
    obtain ⟨-, e, -, rfl⟩ := hc
    rfl
  | assign x right =>
    simp only [slots, Option.bind_eq_bind, Option.ite_none_right_eq_some, Option.bind_eq_some_iff, Option.pure_def,
      Option.some.injEq] at hc
    obtain ⟨r, -, -, e, -, rfl⟩ := hc
    rfl
  | cond boolExp =>
    simp only [slots, Option.bind_eq_bind, Option.bind_eq_some_iff, Option.pure_def, Option.some.injEq] at hc
    obtain ⟨e, he, rfl⟩ := hc
    exact boolExp.slots_eval he

end Slots

/-! ## Blocks -/

/-- What is left to do with slots and, in the blocks of the names `S`, with names; `S'` are the names at the end. -/
inductive Matches (Γ : Nat → Sort2) (S' : Slots) : Slots → List (Item Code) → List (Item Scoped) → Prop
  | ret : Matches Γ S' S' [.stmt .retN] [.stmt .retN]
  | atom {S S₁ : Slots} {a : Named} {a' : Code} {ks : List (Item Code)} {ks' : List (Item Scoped)} :
      a.slots Γ (Chain.search · S) = some a' → S.behind a = some S₁ → Matches Γ S' S₁ ks ks' →
      Matches Γ S' S (.stmt (.atom a') :: ks) (.stmt (.atom (.part a)) :: ks')
  | ifN {S S₁ : Slots} {c : Named} {c' : Code} {sts : List (Stmt Named)} {sts' : List (Stmt Code)}
      {ks : List (Item Code)} {ks' : List (Item Scoped)} :
      c.slots Γ (Chain.search · S) = some c' → lexicalSL Γ sts ([] :: S) = some (sts', S₁) → Matches Γ S' S ks ks' →
      Matches Γ S' S (.stmt (.ifN c' sts') :: ks) (.stmt (.ifN (.part c) (inBlock sts)) :: ks')
  | ifElse {S S₁ S₂ : Slots} {c : Named} {c' : Code} {sts els : List (Stmt Named)} {sts' els' : List (Stmt Code)}
      {ks : List (Item Code)} {ks' : List (Item Scoped)} :
      c.slots Γ (Chain.search · S) = some c' → lexicalSL Γ sts ([] :: S) = some (sts', S₁) →
      lexicalSL Γ els ([] :: S) = some (els', S₂) → Matches Γ S' S ks ks' →
      Matches Γ S' S (.stmt (.ifElse c' sts' els') :: ks)
        (.stmt (.ifElse (.part c) (inBlock sts) (inBlock els)) :: ks')
  | init {S S₁ : Slots} {a : Named} {a' : Code} {c st : Option Scoped} {c' st' : Option Code}
      {sts : List (Stmt Scoped)} {sts' : List (Stmt Code)} {ks : List (Item Code)} {ks' : List (Item Scoped)} :
      a.slots Γ (Chain.search · S) = some a' → S.behind a = some S₁ →
      Matches Γ S' S₁ (.stmt (.forN none c' st' sts') :: ks) (.stmt (.forN none c st sts) :: ks') →
      Matches Γ S' S (.stmt (.forN (some a') c' st' sts') :: ks) (.stmt (.forN (some (.part a)) c st sts) :: ks')
  | forN {S S₁ : Slots} {c st : Option Named} {c' st' : Option Code} {sts : List (Stmt Named)}
      {sts' : List (Stmt Code)} {ks : List (Item Code)} {ks' : List (Item Scoped)} :
      slotsOpt Γ (Chain.search · S) c = some c' → slotsOpt Γ (Chain.search · S) st = some st' →
      st.bind Named.defines = none → lexicalSL Γ sts ([] :: S) = some (sts', S₁) → Matches Γ S' S ks ks' →
      Matches Γ S' S (.stmt (.forN none c' st' sts') :: ks)
        (.stmt (.forN none (c.map .part) (st.map .part) (inBlock sts)) :: ks')
  | loop {S S₁ : Slots} {c st : Option Named} {c' st' : Option Code} {sts : List (Stmt Named)}
      {sts' : List (Stmt Code)} {ks : List (Item Code)} {ks' : List (Item Scoped)} :
      slotsOpt Γ (Chain.search · S) c = some c' → slotsOpt Γ (Chain.search · S) st = some st' →
      st.bind Named.defines = none → lexicalSL Γ sts ([] :: S) = some (sts', S₁) → Matches Γ S' S ks ks' →
      Matches Γ S' S (.loop c' st' sts' :: ks)
        (.loop (c.map .part) (st.map .part) (inBlock sts) :: ks')
  | enter {S : Slots} {ks : List (Item Code)} {ks' : List (Item Scoped)} :
      Matches Γ S' ([] :: S) ks ks' → Matches Γ S' S ks (.stmt (.atom .enter) :: ks')
  | leave {S : Slots} {t : List (Ident × Nat)} {ks : List (Item Code)} {ks' : List (Item Scoped)} :
      Matches Γ S' S ks ks' → Matches Γ S' (t :: S) ks (.stmt (.atom .leave) :: ks')

section Blocks

variable {Γ : Nat → Sort2} {S S₁ S' : Slots} {t : List (Ident × Nat)} {ks : List (Item Code)}
  {ks' : List (Item Scoped)}

theorem Slots.behind_cons {c : Named} (h : Slots.behind (t :: S) c = some S₁) : ∃ t', S₁ = t' :: S := by
  unfold behind at h
  split at h
  · simp only [Option.ite_none_left_eq_some, Option.some.injEq] at h
    exact ⟨_, h.2.symm⟩
  · exact ⟨t, (Option.some.inj h).symm⟩

theorem Slots.behind_nodup {c : Named} (h : S.behind c = some S₁) (hn : (Chain.values S).Nodup) :
    (Chain.values S₁).Nodup := by
  unfold behind at h
  split at h
  · simp only [Option.ite_none_left_eq_some, Option.some.injEq] at h
    obtain ⟨hr, rfl⟩ := h
    cases S with
    | nil => exact hn
    | cons t S =>
      rw [Chain.values_add]
      exact List.nodup_cons.mpr ⟨hr, hn⟩
  · rwa [← Option.some.inj h]

theorem Stmt.lexical_cons {st : Stmt Named} {st' : Stmt Code} (h : st.lexical Γ (t :: S) = some (st', S₁)) :
    ∃ t', S₁ = t' :: S := by
  cases st with
  | atom a =>
    simp only [lexical, Option.bind_eq_bind, Option.bind_eq_some_iff, Option.pure_def, Option.some.injEq] at h
    obtain ⟨a', -, S₂, hS₂, heq⟩ := h
    obtain rfl := (Prod.mk.inj heq).2
    exact Slots.behind_cons hS₂
  | ifN c sts =>
    simp only [lexical, Option.bind_eq_bind, Option.bind_eq_some_iff, Option.pure_def, Option.some.injEq] at h
    obtain ⟨c', -, p, -, heq⟩ := h
    exact ⟨t, (Prod.mk.inj heq).2.symm⟩
  | ifElse c sts els =>
    simp only [lexical, Option.bind_eq_bind, Option.bind_eq_some_iff, Option.pure_def, Option.some.injEq] at h
    obtain ⟨c', -, p, -, q, -, heq⟩ := h
    exact ⟨t, (Prod.mk.inj heq).2.symm⟩
  | forN init c step sts =>
    simp only [lexical, Option.bind_eq_bind, Option.bind_eq_some_iff, Option.pure_def,
      Option.ite_none_left_eq_some, Option.some.injEq] at h
    obtain ⟨init', -, S₂, -, c', -, step', -, p, -, -, heq⟩ := h
    exact ⟨t, (Prod.mk.inj heq).2.symm⟩
  | breakN | continueN | retN => simp [lexical] at h

theorem exists_of_lexicalSL {st : Stmt Named} {sts : List (Stmt Named)} {body : List (Stmt Code)}
    (h : lexicalSL Γ (st :: sts) S = some (body, S₁)) : ∃ st' S₂ sts', body = st' :: sts' ∧
      st.lexical Γ S = some (st', S₂) ∧ lexicalSL Γ sts S₂ = some (sts', S₁) := by
  simp only [lexicalSL, Option.bind_eq_bind, Option.bind_eq_some_iff, Option.pure_def, Option.some.injEq] at h
  obtain ⟨⟨st', S₂⟩, hst, ⟨sts', S₃⟩, hsts, heq⟩ := h
  obtain ⟨rfl, rfl⟩ := Prod.mk.inj heq
  exact ⟨st', S₂, sts', rfl, hst, hsts⟩

/-- Only the names of the innermost block change. -/
theorem lexicalSL_cons : ∀ (sts : List (Stmt Named)) {t : List (Ident × Nat)} {sts' : List (Stmt Code)},
    lexicalSL Γ sts (t :: S) = some (sts', S₁) → ∃ t', S₁ = t' :: S
  | [], t, sts', h => ⟨t, (Prod.mk.inj (Option.some.inj h)).2.symm⟩
  | st :: sts, t, sts', h => by
    obtain ⟨st', S₂, sts₁, -, hst, hsts⟩ := exists_of_lexicalSL h
    obtain ⟨t', rfl⟩ := Stmt.lexical_cons hst
    exact lexicalSL_cons sts hsts

theorem Matches.stmt (st : Stmt Named) {st' : Stmt Code} (h : st.lexical Γ S = some (st', S₁))
    (hks : Matches Γ S' S₁ ks ks') : Matches Γ S' S (.stmt st' :: ks) (items st.scopes ++ ks') := by
  cases st with
  | atom a =>
    simp only [Stmt.lexical, Option.bind_eq_bind, Option.bind_eq_some_iff, Option.pure_def, Option.some.injEq] at h
    obtain ⟨a', ha, S₂, hS₂, heq⟩ := h
    obtain ⟨rfl, rfl⟩ := Prod.mk.inj heq
    exact .atom ha hS₂ hks
  | ifN c sts =>
    simp only [Stmt.lexical, Option.bind_eq_bind, Option.bind_eq_some_iff, Option.pure_def, Option.some.injEq] at h
    obtain ⟨c', hc, ⟨sts', S₂⟩, hsts, heq⟩ := h
    obtain ⟨rfl, rfl⟩ := Prod.mk.inj heq
    exact .ifN hc hsts hks
  | ifElse c sts els =>
    simp only [Stmt.lexical, Option.bind_eq_bind, Option.bind_eq_some_iff, Option.pure_def, Option.some.injEq] at h
    obtain ⟨c', hc, ⟨sts', S₂⟩, hsts, ⟨els', S₃⟩, hels, heq⟩ := h
    obtain ⟨rfl, rfl⟩ := Prod.mk.inj heq
    exact .ifElse hc hsts hels hks
  | forN init c step sts =>
    simp only [Stmt.lexical, Option.bind_eq_bind, Option.bind_eq_some_iff, Option.pure_def,
      Option.ite_none_left_eq_some, Option.some.injEq] at h
    obtain ⟨init', hinit, S₂, hS₂, c', hc, step', hstep, ⟨sts', S₃⟩, hsts, hkeeps, heq⟩ := h
    obtain ⟨rfl, rfl⟩ := Prod.mk.inj heq
    have hkeeps : step.bind Named.defines = none := by simpa using hkeeps
    refine .enter ?_
    cases init with
    | none =>
      obtain rfl := Option.some.inj hinit
      obtain rfl := Option.some.inj hS₂
      exact .forN hc hstep hkeeps hsts (.leave hks)
    | some a =>
      obtain ⟨a', ha, rfl⟩ := Option.map_eq_some_iff.mp hinit
      obtain ⟨t, rfl⟩ := Slots.behind_cons hS₂
      exact .init ha hS₂ (.forN hc hstep hkeeps hsts (.leave hks))
  | breakN | continueN | retN => simp [Stmt.lexical] at h

/-- The rest is left to do behind a list of statements. -/
theorem Matches.stmts : ∀ (sts : List (Stmt Named)) {S : Slots} {sts' : List (Stmt Code)},
    lexicalSL Γ sts S = some (sts', S₁) → Matches Γ S' S₁ ks ks' →
    Matches Γ S' S (items sts' ++ ks) (items (scopesSL sts) ++ ks')
  | [], S, sts', h, hks => by
    obtain ⟨rfl, rfl⟩ := Prod.mk.inj (Option.some.inj h)
    exact hks
  | st :: sts, S, sts', h, hks => by
    obtain ⟨st', S₂, sts₁, rfl, hst, hsts⟩ := exists_of_lexicalSL h
    have hrest := Matches.stmt st hst (stmts sts hsts hks)
    simpa [scopesSL, items, List.append_assoc] using hrest

/-- The rest is left to do behind a block. -/
theorem Matches.block {sts : List (Stmt Named)} {sts' : List (Stmt Code)}
    (h : lexicalSL Γ sts ([] :: S) = some (sts', S₁)) (hks : Matches Γ S' S ks ks') :
    Matches Γ S' S (items sts' ++ ks) (items (inBlock sts) ++ ks') := by
  obtain ⟨t, rfl⟩ := lexicalSL_cons sts h
  have hrest := Matches.enter (Matches.stmts sts h (.leave hks))
  simpa [inBlock, items, List.append_assoc] using hrest

end Blocks

/-! ## Runs -/

/-- Run with names, and with slots. -/
def NamesFollow (Γ : Nat → Sort2) (S' : Slots) (c : List (Item Scoped) × Frames) (d : List (Item Code) × Valuation) :
    Prop :=
  ∃ S : Slots, (Chain.values S).Nodup ∧ c.2 = S.frames Γ d.2 ∧ Matches Γ S' S d.1 c.1

/-- A step with slots is some steps with names. -/
def Advances (Γ : Nat → Sort2) (S' : Slots) (c : List (Item Scoped) × Frames) (d : List (Item Code) × Valuation) :
    Prop :=
  (∃ o o', Yields (scoping.step run) c o ∧ language.step run d = .inr o' ∧ o = o'.map fun σ => S'.frames Γ σ) ∨
    ∃ c' d', Plus (scoping.step run) c c' ∧ language.step run d = .inl d' ∧ NamesFollow Γ S' c' d'

section Runs

variable {Γ : Nat → Sort2} {S S₁ S' : Slots} {σ : Valuation} {ks ys ns : List (Item Code)}
  {ks' ys' ns' : List (Item Scoped)} {E : Frames}

theorem Advances.before {c c₁ : List (Item Scoped) × Frames} {d : List (Item Code) × Valuation}
    (hs : scoping.step run c = .inl c₁) (h : Advances Γ S' c₁ d) : Advances Γ S' c d := by
  rcases h with ⟨o, o', ho, hd⟩ | ⟨c', d', hplus, hd⟩
  · exact .inl ⟨o, o', ho.later hs, hd⟩
  · exact .inr ⟨c', d', .cons hs hplus, hd⟩

theorem Advances.act {a : Named} {a' : Code} (hks : run ks = .act a' ys) (hks' : run ks' = .act (.part a) ys')
    (ha : a.slots Γ (Chain.search · S) = some a') (hbehind : S.behind a = some S₁) (hn : (Chain.values S).Nodup)
    (h : Matches Γ S' S₁ ys ys') : Advances Γ S' (ks', S.frames Γ σ) (ks, σ) := by
  have hact := Named.slots_act (σ := σ) ha hbehind hn
  cases hσ : language.act a' σ with
  | none =>
    rw [hσ] at hact
    exact .inl ⟨.wrong, .wrong, ⟨0, .now (by simp [Interp.step, hks', hact])⟩, by simp [Interp.step, hks, hσ], rfl⟩
  | some σ' =>
    rw [hσ] at hact
    exact .inr ⟨(ys', S₁.frames Γ σ'), (ys, σ'), .one (by simp [Interp.step, hks', hact]),
      by simp [Interp.step, hks, hσ], S₁, Slots.behind_nodup hbehind hn, rfl, h⟩

theorem Advances.test {c : Named} {c' : Code} (hks : run ks = .test c' ys ns)
    (hks' : run ks' = .test (.part c) ys' ns') (hc : c.slots Γ (Chain.search · S) = some c')
    (hn : (Chain.values S).Nodup) (hy : Matches Γ S' S ys ys') (hno : Matches Γ S' S ns ns') :
    Advances Γ S' (ks', S.frames Γ σ) (ks, σ) := by
  have htest := Named.slots_test (σ := σ) hc
  cases hσ : language.test c' σ with
  | none =>
    rw [hσ] at htest
    exact .inl ⟨.wrong, .wrong, ⟨0, .now (by simp [Interp.step, hks', htest])⟩, by simp [Interp.step, hks, hσ], rfl⟩
  | some b =>
    rw [hσ] at htest
    refine .inr ⟨(if b then ys' else ns', S.frames Γ σ), (if b then ys else ns, σ),
      .one (by simp [Interp.step, hks', htest]), by simp [Interp.step, hks, hσ], S, hn, rfl, ?_⟩
    cases b
    · exact hno
    · exact hy

/-- A loop's condition, if it has one. -/
theorem Advances.testBool {c : Option Named} {c' : Option Code} (hks : run ks = Ast.testBool c' ys ns)
    (hks' : run ks' = Ast.testBool (c.map .part) ys' ns') (hc : slotsOpt Γ (Chain.search · S) c = some c')
    (hn : (Chain.values S).Nodup) (hy : Matches Γ S' S ys ys') (hno : Matches Γ S' S ns ns') :
    Advances Γ S' (ks', S.frames Γ σ) (ks, σ) := by
  cases c with
  | some c =>
    obtain ⟨c', hslots, rfl⟩ := Option.map_eq_some_iff.mp hc
    exact .test hks hks' hslots hn hy hno
  | none =>
    obtain rfl := Option.some.inj hc
    exact .inr ⟨(ys', S.frames Γ σ), (ys, σ), .one (by simp [Interp.step, hks', Ast.testBool]),
      by simp [Interp.step, hks, Ast.testBool], S, hn, rfl, hy⟩

/-- One step. -/
theorem Matches.advances (h : Matches Γ S' S ks ks') (hn : (Chain.values S).Nodup) :
    Advances Γ S' (ks', S.frames Γ σ) (ks, σ) := by
  induction h with
  | ret => exact .inl ⟨_, _, ⟨0, .now rfl⟩, rfl, rfl⟩
  | atom ha hbehind hks => exact .act rfl rfl ha hbehind hn hks
  | ifN hc hsts hks => exact .test rfl rfl hc hn (.block hsts hks) hks
  | ifElse hc hsts hels hks => exact .test rfl rfl hc hn (.block hsts hks) (.block hels hks)
  | init ha hbehind hks => exact .act rfl rfl ha hbehind hn hks
  | forN hc hst hkeeps hsts hks =>
    exact .testBool rfl rfl hc hn (.block hsts (.loop hc hst hkeeps hsts hks)) hks
  | @loop S S₁ c st c' st' sts sts' ks ks' hc hst hkeeps hsts hks =>
    cases st with
    | none =>
      obtain rfl := Option.some.inj hst
      exact .testBool rfl rfl hc hn (.block hsts (.loop hc hst hkeeps hsts hks)) hks
    | some a =>
      obtain ⟨a', ha, rfl⟩ := Option.map_eq_some_iff.mp hst
      have hbehind : S.behind a = some S := by
        have hnone : a.defines = none := hkeeps
        rw [Slots.behind, hnone]
      exact .act rfl rfl ha hbehind hn (.forN hc hst hkeeps hsts hks)
  | enter hks ih => exact .before rfl (ih hn)
  | @leave S t ks ks' hks ih =>
    refine .before rfl (ih ?_)
    rw [Chain.values_cons, List.nodup_append] at hn
    exact hn.2.1

/-- The names always stand for what is in the slots. -/
theorem namesFollow_coarse (Γ : Nat → Sort2) (S' : Slots) : Coarse (scoping.step run) (language.step run)
    (fun o o' => o = o'.map fun σ => S'.frames Γ σ) (NamesFollow Γ S') := by
  rintro ⟨ks', E⟩ ⟨ks, σ⟩ ⟨S, hn, hE, h⟩
  obtain rfl : E = S.frames Γ σ := hE
  exact h.advances hn

end Runs

/-! ## Main result -/

section Main

variable {F : Type} {Γ : Nat → Sort2}

theorem read_zero : ParseInt ['0'] = some (0, 8) := by decide
theorem read_one : ParseInt ['1'] = some (1, 8) := by decide
theorem read_two : ParseInt ['2'] = some (2, 8) := by decide

/-- `s := 0; for i := 0; i < n; i = i + 1 { if i % 2 == 0 { n := i; s = s + n } }`, where `n` is in slot 0. -/
def shadowing : List (Stmt Named) :=
  let zero := .num ['0'] 0 8 read_zero
  let one := .num ['1'] 1 8 read_one
  let two := .num ['2'] 2 8 read_two
  [.atom (.define 1 ['s'] zero),
    .forN (some (.define 2 ['i'] zero)) (some (.cond (.compare .lt (.name ['i']) (.name ['n']))))
      (some (.assign ['i'] (.bin .plus (.name ['i']) one)))
      [.ifN (.cond (.compare .eq (.bin .ps (.name ['i']) two) zero))
        [.atom (@Named.define .int 3 ['n'] (.name ['i'])),
          .atom (.assign ['s'] (.bin .plus (.name ['s']) (.name ['n'])))]]]

def shadowingSlots : List (Stmt Code) :=
  let n := .intVar 0 .int
  let s := .intVar 1 .int
  let i := .intVar 2 .int
  let n' := .intVar 3 .int
  let zero := .num ['0'] 0 8 read_zero
  let one := .num ['1'] 1 8 read_one
  let two := .num ['2'] 2 8 read_two
  [.atom (.define 1 zero),
    .forN (some (.define 2 zero)) (some (.cond (.compare .lt i n))) (some (.assign 2 (.bin .plus i one)))
      [.ifN (.cond (.compare .eq (.bin .ps i two) zero))
        [.atom (@Code.define .int 3 i), .atom (.assign 1 (.bin .plus s n'))]]]

/-- A machine without floating point numbers. -/
def noFloats : Sem Unit :=
  ⟨fun _ _ => (), fun _ _ => (), fun _ _ => (), fun _ _ _ => (), fun _ _ _ => true, fun _ _ => none⟩

end Main

end CalcLang.Ast
