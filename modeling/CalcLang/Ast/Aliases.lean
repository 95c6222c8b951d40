import CalcLang.Ast.Scope

/-!
# Import aliases and variables

A chain of names may begin with a variable or with an imported module. `docs/scope.md` has the rule: the name
is searched for in the symbol tables first, and then as the name of a module.

The parser does not know the symbol tables. `varChain` puts the path of an import for every head that is
one of its aliases, and the search that comes later, in `VarBlockNode.calc`, is for the path. So an alias
hides every variable of its name. And `CallFuncNode.calc` asks for a module first, which decides how
it takes the chain apart.

`imported` is a tree as the parser leaves it, `targets` what `calc` finds for its chains, and
`Site.lookup` the rule. `targets_iff` says for which functions the two agree.
-/

namespace CalcLang.Ast.Aliases

/-- What a chain is: a value, or what is called. -/
inductive Position
  | value
  | call (generics : Bool)
  deriving DecidableEq, Repr

/-- What is found for a chain: the variable that it begins with, a member of a module, a generic function of the
own module, or nothing. `crash` is a nil dereference. -/
inductive Target
  | variable (v : Storage)
  | member (pkg name : Ident)
  | generic (name : Ident)
  | undefined
  | crash
  deriving DecidableEq, Repr

/-- The global scope of a module, as far as it is searched from outside. -/
structure Module where
  vartable : Ident → Bool
  genericFuncs : Ident → Bool

/-- `ScopeMap`, the own global scope, and what the types of variables have: `onlyMethod v f` says that `f` is
a method and not a field. -/
structure Globals where
  ScopeMap : Ident → Option Module
  genericFuncs : Ident → Bool
  onlyMethod : Storage → Ident → Bool

/-- The import table. -/
abbrev Imports := Ident → Option Ident

/-- `varChain`, of the first name. -/
def varChain (imp : Imports) (token : Ident) : Ident := (imp token).getD token

variable (N : Names) (G : Globals)

/-! ## The search -/

/-- A member of a module, as `VarBlockNode.calc` takes it from a chain that does not begin with a variable. -/
def moduleVar (token : Ident) (next : List Ident) : Target :=
  match G.ScopeMap token, next with
  | none, _ => .undefined
  | some _, [] => .crash
  | some scope, f :: _ => if scope.vartable f then .member token f else .undefined

/-- `VarBlockNode.calc`, of the head of a chain. -/
def VarBlockNode.calc (s : VarScope) (token : Ident) (next : List Ident) : Target :=
  match s.searchVar N token with
  | some v => .variable v
  | none => moduleVar G token next

/-- A name with type arguments. -/
def genericVar (token : Ident) : List Ident → Target
  | [] => if G.genericFuncs token then .generic token else .undefined
  | f :: _ =>
    match G.ScopeMap token with
    | none => .undefined
    | some scope => if scope.genericFuncs f then .member token f else .undefined

/-- `CallFuncNode.calc`, of the chain that is called. -/
def CallFuncNode.calc (generics : Bool) (s : VarScope) (token : Ident) (next : List Ident) : Target :=
  match G.ScopeMap token, next with
  -- there is nothing behind the name of the module
  | some _, [] => .crash
  | some _, [f] =>
    if generics then genericVar G token [f]
    else
      match VarBlockNode.calc N G s token [f] with
      -- the last name is looked for among the fields
      | .variable v => if G.onlyMethod v f then .crash else .variable v
      | t => t
  | none, [] => if generics then genericVar G token [] else VarBlockNode.calc N G s token []
  -- the receiver of a method
  | _, f :: fs => VarBlockNode.calc N G s token (f :: fs).dropLast

def resolve (pos : Position) (s : VarScope) (token : Ident) (next : List Ident) : Target :=
  match pos with
  | .value => VarBlockNode.calc N G s token next
  | .call generics => CallFuncNode.calc N G generics s token next

/-! ## The chains of a function -/

section Collect

variable {α : Type} (f : Position → VarScope → Ident → List Ident → α)

mutual
/-- The scope behind a statement. -/
def Node.after (s : VarScope) : Node → VarScope
  | .define r x | .defAndAssign r x _ => s.addVar N x (.node r)
  | .forN _ (.defAndAssign r x _) _ _ => (s.addVar N x (.node r)).delete x
  | .forN _ d _ _ => Node.after s d
  | .sl cs => afterNodes s cs
  | _ => s

def afterNodes (s : VarScope) : List Node → VarScope
  | [] => s
  | n :: ns => afterNodes (Node.after s n) ns
end

mutual
/-- Something for every chain of an expression, in the order of `calc`. -/
def ExpNode.collect (s : VarScope) : ExpNode → List α
  | .null | .lit | .str _ => []
  | .varBlock _ t next idxs => f .value s t next :: collectExps s idxs
  | .callFunc generics params fnNode next =>
    collectExps s params ++ ExpNode.calleeCollect s generics fnNode ++ ExpNode.memberCollect s next
  | .binary _ l r => ExpNode.collect s r ++ ExpNode.collect s l
  | .unary e | .takePtr e | .takeVal _ e | .await _ e => ExpNode.collect s e
  | .arrayInit _ es | .structInit _ es => collectExps s es
  | .inlineFunc g ps _ body => collectNodes (s.closureScope N g ps) body

/-- What is called. -/
def ExpNode.calleeCollect (s : VarScope) (generics : Bool) : ExpNode → List α
  | .varBlock _ t next idxs => f (.call generics) s t next :: collectExps s idxs
  | _ => []

/-- What follows a dot: its first name is a member. -/
def ExpNode.memberCollect (s : VarScope) : ExpNode → List α
  | .varBlock _ _ _ idxs => collectExps s idxs
  | .callFunc _ params fnNode next =>
    collectExps s params ++ ExpNode.memberCollect s fnNode ++ ExpNode.memberCollect s next
  | _ => []

def collectExps (s : VarScope) : List ExpNode → List α
  | [] => []
  | e :: es => ExpNode.collect s e ++ collectExps s es

/-- A statement. -/
def Node.collect (s : VarScope) : Node → List α
  | .exp e | .ret e | .yield e | .defAndAssign _ _ e => ExpNode.collect s e
  | .leaf | .define _ _ => []
  | .ifN c sts => collectNodes s.addChildScope sts ++ ExpNode.collect s c
  | .ifElse c sts el =>
    ExpNode.collect s c ++ collectNodes s.addChildScope sts ++ Node.collect s.addChildScope el
  | .forN c d a sts =>
    let s' := Node.after N s d
    Node.collect s d ++ ExpNode.collect s' c ++ collectNodes s'.addChildScope sts ++
      ExpNode.collect s'.addChildScope a ++ ExpNode.collect s'.addChildScope c
  | .sl cs => collectNodes s cs

def collectNodes (s : VarScope) : List Node → List α
  | [] => []
  | n :: ns => Node.collect s n ++ collectNodes (Node.after N s n) ns
end

end Collect

mutual
/-- An expression as the parser leaves it. -/
def ExpNode.imported (imp : Imports) : ExpNode → ExpNode
  | .null => .null
  | .lit => .lit
  | .str r => .str r
  | .varBlock r t next idxs => .varBlock r (varChain imp t) next (importedExps imp idxs)
  | .callFunc generics params fnNode next =>
    .callFunc generics (importedExps imp params) (ExpNode.imported imp fnNode) (ExpNode.imported imp next)
  | .binary kind l r => .binary kind (ExpNode.imported imp l) (ExpNode.imported imp r)
  | .unary e => .unary (ExpNode.imported imp e)
  | .takePtr e => .takePtr (ExpNode.imported imp e)
  | .takeVal level e => .takeVal level (ExpNode.imported imp e)
  | .arrayInit r es => .arrayInit r (importedExps imp es)
  | .structInit r es => .structInit r (importedExps imp es)
  | .inlineFunc r ps async body => .inlineFunc r ps async (importedNodes imp body)
  | .await r e => .await r (ExpNode.imported imp e)

def importedExps (imp : Imports) : List ExpNode → List ExpNode
  | [] => []
  | e :: es => ExpNode.imported imp e :: importedExps imp es

/-- A statement as the parser leaves it. -/
def Node.imported (imp : Imports) : Node → Node
  | .exp e => .exp (ExpNode.imported imp e)
  | .leaf => .leaf
  | .define r x => .define r x
  | .defAndAssign r x e => .defAndAssign r x (ExpNode.imported imp e)
  | .ifN c sts => .ifN (ExpNode.imported imp c) (importedNodes imp sts)
  | .ifElse c sts el => .ifElse (ExpNode.imported imp c) (importedNodes imp sts) (Node.imported imp el)
  | .forN c d a sts =>
    .forN (ExpNode.imported imp c) (Node.imported imp d) (ExpNode.imported imp a) (importedNodes imp sts)
  | .ret e => .ret (ExpNode.imported imp e)
  | .yield e => .yield (ExpNode.imported imp e)
  | .sl cs => .sl (importedNodes imp cs)

def importedNodes (imp : Imports) : List Node → List Node
  | [] => []
  | n :: ns => Node.imported imp n :: importedNodes imp ns
end

/-- What `calc` finds for the chains of a function, when its body is written so and begins in the scope `s`. -/
def targets (imp : Imports) (s : VarScope) (body : List Node) : List Target :=
  collectNodes N (resolve N G) s (importedNodes imp body)

/-! ## The rule -/

/-- A chain as it is written, with the scope that it stands in. -/
structure Site where
  pos : Position
  scope : VarScope
  head : Ident
  next : List Ident

/-- The chains of a function. -/
def sites (s : VarScope) (body : List Node) : List Site := collectNodes N Site.mk s body

/-- What stands for a chain that does not begin with a variable. -/
def Site.moduleMember (imp : Imports) (q : Site) : Target :=
  match q.pos, q.next with
  | .value, next => moduleVar G (varChain imp q.head) next
  | .call generics, next =>
    match G.ScopeMap (varChain imp q.head), next with
    | some _, [] => .crash
    | some _, [f] =>
      if generics then genericVar G (varChain imp q.head) [f] else moduleVar G (varChain imp q.head) [f]
    | none, [] =>
      if generics then genericVar G (varChain imp q.head) [] else moduleVar G (varChain imp q.head) []
    | _, f :: fs => moduleVar G (varChain imp q.head) (f :: fs).dropLast

/-- The rule: a chain begins with the variable of its name, and only if there is none with an imported
module. -/
def Site.lookup (imp : Imports) (q : Site) : Target :=
  match q.scope.searchVar N q.head with
  | some v => .variable v
  | none => q.moduleMember G imp

/-! ## Where the two agree -/

/-- Calls for which no variable is searched: of the name of a module alone, and of a name with type arguments
that stands alone or behind the name of a module. -/
def Site.skips (imp : Imports) (q : Site) : Bool :=
  match q.pos, q.next with
  | .call generics, [] => generics || (G.ScopeMap (varChain imp q.head)).isSome
  | .call generics, [_] => generics && (G.ScopeMap (varChain imp q.head)).isSome
  | _, _ => false

/-- What is called, where only a field can be: behind a name that is also a module's. -/
def Site.field (imp : Imports) (q : Site) : Option Ident :=
  match q.pos, q.next with
  | .call false, [f] => if (G.ScopeMap (varChain imp q.head)).isSome then some f else none
  | _, _ => none

/-- The head, and what the parser puts for it, are names of the same variable, or of none; and a variable is
searched for, and called by a field where it must be. -/
structure Site.Agrees (imp : Imports) (q : Site) : Prop where
  shared : q.skips G imp = false →
    q.scope.searchVar N (varChain imp q.head) = q.scope.searchVar N q.head
  searched : q.skips G imp → q.scope.searchVar N q.head = none
  field : ∀ f ∈ q.field G imp, ∀ v ∈ q.scope.searchVar N q.head, G.onlyMethod v f = false

/-- The variable that is found, or what there is without one. -/
def search (found : Option Storage) (t : Target) : Target :=
  match found with
  | some v => .variable v
  | none => t

theorem search_eq_iff {a b : Option Storage} {t : Target} (ht : ∀ v, t ≠ .variable v) :
    search a t = search b t ↔ a = b := by
  cases a with
  | none =>
    cases b with
    | none => simp
    | some v => simpa [search] using ht v
  | some v =>
    cases b with
    | none => simpa [search] using (ht v).symm
    | some w => simp [search]

theorem moduleVar_ne_variable (token : Ident) (next : List Ident) (v : Storage) :
    moduleVar G token next ≠ .variable v := by
  unfold moduleVar
  split
  · simp
  · simp
  · split <;> simp

theorem genericVar_ne_variable (token : Ident) (next : List Ident) (v : Storage) :
    genericVar G token next ≠ .variable v := by
  unfold genericVar
  split
  · split <;> simp
  · split
    · simp
    · split <;> simp

theorem moduleMember_ne_variable (imp : Imports) (q : Site) (v : Storage) :
    q.moduleMember G imp ≠ .variable v := by
  unfold Site.moduleMember
  split
  · exact moduleVar_ne_variable G _ _ v
  · split
    · simp
    · split
      · exact genericVar_ne_variable G _ _ v
      · exact moduleVar_ne_variable G _ _ v
    · split
      · exact genericVar_ne_variable G _ _ v
      · exact moduleVar_ne_variable G _ _ v
    · exact moduleVar_ne_variable G _ _ v

/-! What `calc` does, in the three cases. -/

theorem resolve_of_skips {imp : Imports} {q : Site} (h : q.skips G imp) :
    resolve N G q.pos q.scope (varChain imp q.head) q.next = q.moduleMember G imp := by
  obtain ⟨pos, s, x, next⟩ := q
  cases pos with
  | value => cases h
  | call generics =>
    obtain _ | ⟨f, _ | ⟨g, fs⟩⟩ := next
    · cases hM : G.ScopeMap (varChain imp x) with
      | none =>
        have hg : generics = true := by simpa [Site.skips, hM] using h
        simp [resolve, CallFuncNode.calc, Site.moduleMember, hM, hg]
      | some scope => simp [resolve, CallFuncNode.calc, Site.moduleMember, hM]
    · obtain ⟨hg, hM⟩ : generics = true ∧ (G.ScopeMap (varChain imp x)).isSome := by
        simpa [Site.skips] using h
      obtain ⟨scope, hM⟩ := Option.isSome_iff_exists.mp hM
      simp [resolve, CallFuncNode.calc, Site.moduleMember, hM, hg]
    · cases h

theorem resolve_of_shared {imp : Imports} {q : Site} (hs : q.skips G imp = false) (hf : q.field G imp = none) :
    resolve N G q.pos q.scope (varChain imp q.head) q.next =
      search (q.scope.searchVar N (varChain imp q.head)) (q.moduleMember G imp) := by
  obtain ⟨pos, s, x, next⟩ := q
  cases pos with
  | value => rfl
  | call generics =>
    obtain _ | ⟨f, _ | ⟨g, fs⟩⟩ := next
    · obtain ⟨hg, hM⟩ : generics = false ∧ G.ScopeMap (varChain imp x) = none := by
        simpa [Site.skips] using hs
      simp only [resolve, CallFuncNode.calc, Site.moduleMember, hM, hg]
      rfl
    · cases hM : G.ScopeMap (varChain imp x) with
      | none =>
        simp only [resolve, CallFuncNode.calc, Site.moduleMember, hM]
        rfl
      | some scope =>
        have hg : generics = false := by simpa [Site.skips, hM] using hs
        subst hg
        simp [Site.field, hM] at hf
    · cases hM : G.ScopeMap (varChain imp x) with
      | none =>
        simp only [resolve, CallFuncNode.calc, Site.moduleMember, hM]
        rfl
      | some scope =>
        simp only [resolve, CallFuncNode.calc, Site.moduleMember, hM]
        rfl

variable {G} in
theorem of_field {imp : Imports} {q : Site} {f : Ident} (hf : q.field G imp = some f) :
    q.pos = .call false ∧ q.next = [f] ∧ ∃ scope, G.ScopeMap (varChain imp q.head) = some scope := by
  obtain ⟨pos, s, x, next⟩ := q
  cases pos with
  | value => cases hf
  | call generics =>
    cases generics with
    | true => cases hf
    | false =>
      obtain _ | ⟨g, _ | ⟨h, fs⟩⟩ := next
      · cases hf
      · obtain ⟨hM, rfl⟩ : (G.ScopeMap (varChain imp x)).isSome ∧ g = f := by simpa [Site.field] using hf
        exact ⟨rfl, rfl, Option.isSome_iff_exists.mp hM⟩
      · cases hf

/-- A call by a field: a method is not found. -/
theorem resolve_of_field {imp : Imports} {q : Site} {f : Ident} (hf : q.field G imp = some f) :
    resolve N G q.pos q.scope (varChain imp q.head) q.next =
      match q.scope.searchVar N (varChain imp q.head) with
      | some v => if G.onlyMethod v f then .crash else .variable v
      | none => q.moduleMember G imp := by
  obtain ⟨hpos, hnext, scope, hM⟩ := of_field hf
  simp only [hpos, hnext, resolve, CallFuncNode.calc, VarBlockNode.calc, Site.moduleMember, moduleVar, hM]
  cases q.scope.searchVar N (varChain imp q.head) with
  | none => by_cases hv : scope.vartable f <;> simp [hv]
  | some v => rfl

theorem moduleMember_ne_crash {imp : Imports} {q : Site} {f : Ident} (hf : q.field G imp = some f) :
    q.moduleMember G imp ≠ .crash := by
  obtain ⟨hpos, hnext, scope, hM⟩ := of_field hf
  simp only [hpos, hnext, Site.moduleMember, moduleVar, hM]
  by_cases hv : scope.vartable f <;> simp [hv]

/-- A call by a field is found as the rule says, if the variable is and has the field. -/
theorem field_eq_iff {a b : Option Storage} {t : Target} {f : Ident} (ht : ∀ v, t ≠ .variable v)
    (hcrash : t ≠ .crash) :
    (match a with
      | some v => if G.onlyMethod v f then Target.crash else .variable v
      | none => t) = search b t ↔ a = b ∧ ∀ v ∈ b, G.onlyMethod v f = false := by
  cases a with
  | none =>
    cases b with
    | none => simp [search]
    | some v => simpa [search] using ht v
  | some v =>
    by_cases hm : G.onlyMethod v f
    · -- nothing of the rule's is a crash
      have hne : search b t ≠ .crash := by
        cases b with
        | none => exact hcrash
        | some w => simp [search]
      simp only [hm, if_true]
      refine iff_of_false hne.symm ?_
      rintro ⟨rfl, hfield⟩
      rw [hfield v rfl] at hm
      cases hm
    · have hm' : G.onlyMethod v f = false := by simpa using hm
      have hleft : search (some v) t = search b t ↔ some v = b := search_eq_iff ht
      simp only [hm']
      refine hleft.trans ⟨?_, And.left⟩
      rintro rfl
      refine ⟨rfl, fun w hw => ?_⟩
      cases hw
      exact hm'

/-- A chain is found as the rule says just where the two agree. -/
theorem resolve_eq_iff (imp : Imports) (q : Site) :
    resolve N G q.pos q.scope (varChain imp q.head) q.next = q.lookup N G imp ↔ q.Agrees N G imp := by
  have hmember := moduleMember_ne_variable G imp q
  have hlookup : q.lookup N G imp = search (q.scope.searchVar N q.head) (q.moduleMember G imp) := rfl
  rw [hlookup]
  cases hs : q.skips G imp with
  | true =>
    -- the scope is not asked, which is right where it has no such variable
    have hnone : search none (q.moduleMember G imp) = q.moduleMember G imp := rfl
    rw [resolve_of_skips N G hs]
    nth_rewrite 1 [← hnone]
    rw [search_eq_iff hmember]
    constructor
    · intro h
      exact ⟨by simp [hs], fun _ => h.symm, by simp [← h]⟩
    · intro h
      exact (h.searched hs).symm
  | false =>
    cases hf : q.field G imp with
    | none =>
      rw [resolve_of_shared N G hs hf, search_eq_iff hmember]
      constructor
      · intro h
        exact ⟨fun _ => h, by simp [hs], by simp [hf]⟩
      · intro h
        exact h.shared hs
    | some f =>
      rw [resolve_of_field N G hf, field_eq_iff G hmember (moduleMember_ne_crash G hf)]
      constructor
      · intro h
        refine ⟨fun _ => h.1, by simp [hs], fun f' hf' => ?_⟩
        rw [hf] at hf'
        cases hf'
        exact h.2
      · intro h
        exact ⟨h.shared hs, h.field f hf⟩

/-! ## The scopes -/

section Scopes

variable {N}

/-- Nothing is declared. -/
def Quiet (N : Names) (l : List Entry) : Prop := ∀ e ∈ l, ∀ s, (e.calc N s).1 = s

theorem Quiet.append {l l' : List Entry} (h : Quiet N l) (h' : Quiet N l') : Quiet N (l ++ l') :=
  List.forall_mem_append.mpr ⟨h, h'⟩

theorem Quiet.calc {l : List Entry} (h : Quiet N l) (s : VarScope) : (calcEntries N l s).1 = s := by
  induction l with
  | nil => rfl
  | cons e l ih =>
    obtain ⟨he, hl⟩ := List.forall_mem_cons.mp h
    show (calcEntries N l (e.calc N s).1).1 = s
    rw [he s, ih hl]

theorem calcEntries_append (l l' : List Entry) (s : VarScope) :
    (calcEntries N (l ++ l') s).1 = (calcEntries N l' (calcEntries N l s).1).1 := by
  induction l generalizing s with
  | nil => rfl
  | cons e l ih => exact ih (e.calc N s).1

theorem quiet_use (r : Ref) (x : Ident) : Quiet N [.use r x] := by
  intro e he s
  rw [List.mem_singleton.mp he]
  rfl

theorem quiet_block (l : List Entry) : Quiet N [.block l] := by
  intro e he s
  rw [List.mem_singleton.mp he]
  rfl

mutual
theorem quiet_scoping : ∀ e : ExpNode, Quiet N e.scoping
  | .null | .lit | .str _ => by simp [Quiet, ExpNode.scoping]
  | .varBlock r t _ idxs => (quiet_use r t).append (quiet_scopings idxs)
  | .callFunc generics params fnNode next =>
    ((quiet_scopings params).append (quiet_callee fnNode generics)).append (quiet_member next)
  | .binary _ l r => (quiet_scoping r).append (quiet_scoping l)
  | .unary e | .takePtr e | .takeVal _ e | .await _ e => quiet_scoping e
  | .arrayInit _ es | .structInit _ es => quiet_scopings es
  | .inlineFunc _ _ _ _ => by
    intro e he s
    rw [List.mem_singleton.mp he]
    rfl

theorem quiet_callee : ∀ (e : ExpNode) (generics : Bool), Quiet N (e.calleeScoping generics)
  | .varBlock r t next idxs, generics => by
    refine Quiet.append ?_ (quiet_scopings idxs)
    split
    · simp [Quiet]
    · exact quiet_use r t
  | .null, _ | .lit, _ | .str _, _ | .callFunc _ _ _ _, _ | .binary _ _ _, _ | .unary _, _ | .takePtr _, _
  | .takeVal _ _, _ | .arrayInit _ _, _ | .structInit _ _, _ | .inlineFunc _ _ _ _, _ | .await _ _, _ => by
    simp [Quiet, ExpNode.calleeScoping]

theorem quiet_member : ∀ e : ExpNode, Quiet N e.memberScoping
  | .varBlock _ _ _ idxs => quiet_scopings idxs
  | .callFunc _ params fnNode next =>
    ((quiet_scopings params).append (quiet_member fnNode)).append (quiet_member next)
  | .null | .lit | .str _ | .binary _ _ _ | .unary _ | .takePtr _ | .takeVal _ _ | .arrayInit _ _
  | .structInit _ _ | .inlineFunc _ _ _ _ | .await _ _ => by simp [Quiet, ExpNode.memberScoping]

theorem quiet_scopings : ∀ es : List ExpNode, Quiet N (scopings es)
  | [] => by simp [Quiet, scopings]
  | e :: es => (quiet_scoping e).append (quiet_scopings es)
end

mutual
/-- The scope behind a statement is the one that `Entry.calc` leaves. -/
theorem calc_scoping : ∀ (n : Node) (s : VarScope), (calcEntries N n.scoping s).1 = Node.after N s n
  | .exp e, s | .ret e, s | .yield e, s => (quiet_scoping e).calc s
  | .leaf, _ | .define _ _, _ => rfl
  | .defAndAssign r x e, s => by
    show (calcEntries N (e.scoping ++ [.defn r x]) s).1 = _
    rw [calcEntries_append, (quiet_scoping e).calc]
    rfl
  | .ifN c sts, s => ((quiet_block _).append (quiet_scoping c)).calc s
  | .ifElse c sts el, s => ((quiet_scoping c).append ((quiet_block _).append (quiet_block _))).calc s
  | .forN c d a sts, s => by
    have hbody : Quiet N (c.scoping ++ [.block (scopingNodes sts), .block (a.scoping ++ c.scoping)]) :=
      (quiet_scoping c).append ((quiet_block _).append (quiet_block _))
    have ih := calc_scoping d s
    cases d with
    | defAndAssign r x e =>
      show (calcEntries N (e.scoping ++ [.loop r x _]) s).1 = (s.addVar N x (.node r)).delete x
      rw [calcEntries_append, (quiet_scoping e).calc]
      exact congrArg (VarScope.delete · x) (hbody.calc _)
    | _ =>
      simp only [Node.scoping] at ih ⊢
      rw [calcEntries_append, hbody.calc]
      exact ih
  | .sl cs, s => calc_scopingNodes cs s

theorem calc_scopingNodes : ∀ (ns : List Node) (s : VarScope),
    (calcEntries N (scopingNodes ns) s).1 = afterNodes N s ns
  | [], _ => rfl
  | n :: ns, s => by
    show (calcEntries N (n.scoping ++ scopingNodes ns) s).1 = _
    rw [calcEntries_append, calc_scoping n, calc_scopingNodes ns]
    rfl
end

end Scopes

/-! ## The two phases -/

mutual
theorem after_imported (imp : Imports) : ∀ (n : Node) (s : VarScope),
    Node.after N s (Node.imported imp n) = Node.after N s n
  | .exp _, _ | .leaf, _ | .define _ _, _ | .defAndAssign _ _ _, _ | .ifN _ _, _ | .ifElse _ _ _, _ | .ret _, _
  | .yield _, _ => rfl
  | .forN c d a sts, s => by
    have ih := after_imported imp d s
    cases d with
    | defAndAssign r x e => rfl
    | _ => exact ih
  | .sl cs, s => afterNodes_imported imp cs s

theorem afterNodes_imported (imp : Imports) : ∀ (ns : List Node) (s : VarScope),
    afterNodes N s (importedNodes imp ns) = afterNodes N s ns
  | [], _ => rfl
  | n :: ns, s => by
    show afterNodes N (Node.after N s (Node.imported imp n)) (importedNodes imp ns) = _
    rw [after_imported imp n, afterNodes_imported imp ns]
    rfl
end


section Phases

variable {α : Type} (f : Position → VarScope → Ident → List Ident → α) (imp : Imports)

/-- Something for a chain, as the parser leaves it. -/
def Site.parsed (q : Site) : α := f q.pos q.scope (varChain imp q.head) q.next

mutual
/-- `calc` comes to the chains as they are written, with the heads that the parser has put. -/
theorem collect_imported :
    ∀ (e : ExpNode) (s : VarScope), ExpNode.collect N f s (ExpNode.imported imp e) =
      (ExpNode.collect N Site.mk s e).map (Site.parsed f imp)
  | .null, _ | .lit, _ | .str _, _ => rfl
  | .varBlock _ t next idxs, s =>
    congrArg (f .value s (varChain imp t) next :: ·) (collectExps_imported idxs s)
  | .callFunc generics params fnNode next, s => by
    simp only [ExpNode.imported, ExpNode.collect, List.map_append, collectExps_imported params,
      calleeCollect_imported fnNode, memberCollect_imported next]
  | .binary _ l r, s => by
    simp only [ExpNode.imported, ExpNode.collect, List.map_append, collect_imported l,
      collect_imported r]
  | .unary e, s | .takePtr e, s | .takeVal _ e, s | .await _ e, s => collect_imported e s
  | .arrayInit _ es, s | .structInit _ es, s => collectExps_imported es s
  | .inlineFunc g ps _ body, s => collectNodes_imported body (s.closureScope N g ps)

theorem calleeCollect_imported :
    ∀ (e : ExpNode) (s : VarScope) (generics : Bool),
      ExpNode.calleeCollect N f s generics (ExpNode.imported imp e) =
        (ExpNode.calleeCollect N Site.mk s generics e).map (Site.parsed f imp)
  | .varBlock _ t next idxs, s, generics =>
    congrArg (f (.call generics) s (varChain imp t) next :: ·) (collectExps_imported idxs s)
  | .null, _, _ | .lit, _, _ | .str _, _, _ | .callFunc _ _ _ _, _, _ | .binary _ _ _, _, _ | .unary _, _, _
  | .takePtr _, _, _ | .takeVal _ _, _, _ | .arrayInit _ _, _, _ | .structInit _ _, _, _
  | .inlineFunc _ _ _ _, _, _ | .await _ _, _, _ => rfl

theorem memberCollect_imported :
    ∀ (e : ExpNode) (s : VarScope), ExpNode.memberCollect N f s (ExpNode.imported imp e) =
      (ExpNode.memberCollect N Site.mk s e).map (Site.parsed f imp)
  | .varBlock _ _ _ idxs, s => collectExps_imported idxs s
  | .callFunc _ params fnNode next, s => by
    simp only [ExpNode.imported, ExpNode.memberCollect, List.map_append, collectExps_imported params,
      memberCollect_imported fnNode, memberCollect_imported next]
  | .null, _ | .lit, _ | .str _, _ | .binary _ _ _, _ | .unary _, _ | .takePtr _, _ | .takeVal _ _, _
  | .arrayInit _ _, _ | .structInit _ _, _ | .inlineFunc _ _ _ _, _ | .await _ _, _ => rfl

theorem collectExps_imported :
    ∀ (es : List ExpNode) (s : VarScope), collectExps N f s (importedExps imp es) =
      (collectExps N Site.mk s es).map (Site.parsed f imp)
  | [], _ => rfl
  | e :: es, s => by
    simp only [importedExps, collectExps, List.map_append, collect_imported e, collectExps_imported es]

theorem collectNode_imported :
    ∀ (n : Node) (s : VarScope), Node.collect N f s (Node.imported imp n) =
      (Node.collect N Site.mk s n).map (Site.parsed f imp)
  | .exp e, s | .ret e, s | .yield e, s | .defAndAssign _ _ e, s => collect_imported e s
  | .leaf, _ | .define _ _, _ => rfl
  | .ifN c sts, s => by
    simp only [Node.imported, Node.collect, List.map_append, collect_imported c,
      collectNodes_imported sts]
  | .ifElse c sts el, s => by
    simp only [Node.imported, Node.collect, List.map_append, collect_imported c,
      collectNodes_imported sts, collectNode_imported el]
  | .forN c d a sts, s => by
    simp only [Node.imported, Node.collect, List.map_append, collect_imported c,
      collect_imported a, collectNodes_imported sts, collectNode_imported d,
      after_imported N imp d]
  | .sl cs, s => collectNodes_imported cs s

theorem collectNodes_imported :
    ∀ (ns : List Node) (s : VarScope), collectNodes N f s (importedNodes imp ns) =
      (collectNodes N Site.mk s ns).map (Site.parsed f imp)
  | [], _ => rfl
  | n :: ns, s => by
    simp only [importedNodes, collectNodes, List.map_append, collectNode_imported n,
      collectNodes_imported ns, after_imported N imp n]
end

end Phases

/-- Every chain of a function begins with what the rule says, just if for every chain the scope that it
stands in has the variable for both names. -/
theorem targets_iff (imp : Imports) (s : VarScope) (body : List Node) :
    targets N G imp s body = (sites N s body).map (Site.lookup N G imp) ↔
      ∀ q ∈ sites N s body, q.Agrees N G imp := by
  unfold targets sites
  rw [collectNodes_imported, List.map_inj_left]
  exact forall₂_congr fun q _ => resolve_eq_iff N G imp q

/-! ## A variable with the name of an import -/

/-- The package `main`, with no inline functions. -/
def mainNames : Names := ⟨"main".toList, fun _ => []⟩

/-- There is a module `lib/list`, and it has a `len`. -/
def withList : Globals where
  ScopeMap pkg := if pkg = "lib/list".toList then some ⟨fun f => f = "len".toList, fun _ => false⟩ else none
  genericFuncs _ := false
  onlyMethod _ _ := false

/-- `import "lib/list"`. -/
def importList : Imports := fun x => if x = "list".toList then some "lib/list".toList else none

/-- `list := New()` and `return list.len`. -/
def localList : List Node :=
  [.defAndAssign 0 "list".toList (.callFunc false [] (.varBlock 1 "New".toList [] []) .null),
    .ret (.varBlock 2 "list".toList ["len".toList] [])]

/-- What is returned is the module's `len`. -/
theorem import_hides_local :
    ¬ targets mainNames withList importList ⟨[[]], fun _ => none, none⟩ localList =
      (sites mainNames ⟨[[]], fun _ => none, none⟩ localList).map
        (Site.lookup mainNames withList importList) := by
  decide +kernel

end CalcLang.Ast.Aliases
