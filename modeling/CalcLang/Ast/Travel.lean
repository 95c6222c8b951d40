import CalcLang.Lib.Descent

/-!
# Tree walks

Every node type of `compiler/ast` has a `travel`, written by hand, that hands the node to a visitor and goes on to
the nodes below. Capture and escape analysis and the labels of suspensions are visitors.

`Tree` is a syntax tree with the nodes below each node, and `kids` lists those, each under the field it stands in.
Some of the thirty-odd `travel`s forget a field: those of a chain and of an array literal go nowhere,
that of a program leaves out what stands in front of the declarations, and that of a statement that could not be
parsed does not even call the visitor. `travel_all_iff` says that this is all that is ever missed.
-/

namespace CalcLang.Ast.Travel

open CalcLang.Lib.Descent

/-! ## Trees -/

/-- The fields of a node that hold nodes. `next` is that of a chain, `callNext` that of a call. -/
inductive Field
  | left | right | child | bool | node | exp | valNode | body | boolExp | statements | elSt | defineAssign | assign
  | idxs | next | params | callNext | fnNode | vals | fields | children | pkg | imports
  deriving DecidableEq, Repr

/-- Where a node stands in the one above: the field and, in a field that holds a list, the index. -/
abbrev Place := Field × Nat

abbrev Path := List Place

/-- Nodes. An optional field is one that Go leaves nil; a list in `structInit` is in the order in
which Go ranges over the map. Types are no nodes, and a `fakeNode` is made by the code generator only. -/
inductive Tree
  | errST | num | str | nil | boolConst | empty | define | breakST | continueST | typeDef | param
  | package | import_
  | bin (left right : Tree)
  | compare (left right : Tree)
  | boolExp (left right : Tree)
  | unary (child : Tree)
  | not (bool : Tree)
  | takePtr (node : Tree)
  | takeVal (node : Tree)
  | await (exp : Tree)
  | varBlock (idxs : List Tree) (next : Option Tree)
  | callFunc (params : List Tree) (fnNode : Tree) (next : Option Tree)
  | arrayInit (vals : List Tree)
  | structInit (fields : List Tree)
  | inlineFunc (body : Tree)
  | defAndAssign (valNode : Tree)
  | ret (exp : Option Tree)
  | yield (exp : Option Tree)
  | ifN (boolExp statements : Tree)
  | ifElse (boolExp statements elSt : Tree)
  | forN (bool defineAssign assign : Option Tree) (statements : Tree)
  | sl (children : List Tree)
  | params (params : List Tree)
  | func (params : Tree) (statements : Option Tree)
  | program (pkg imports : Option Tree) (children : List Tree)
  deriving Repr

namespace Tree

/-- The elements of a list from the `i`-th on. -/
def listed (field : Field) (i : Nat) : List Tree → List (Place × Tree)
  | [] => []
  | t :: ts => ((field, i), t) :: listed field (i + 1) ts

def optional (field : Field) (t : Option Tree) : List (Place × Tree) := t.toList.map ((field, 0), ·)

/-- The nodes below a node. -/
def kids : Tree → List (Place × Tree)
  | errST | num | str | nil | boolConst | empty | define | breakST | continueST | typeDef | param | package | import_ => []
  | bin l r | compare l r | boolExp l r => [((.left, 0), l), ((.right, 0), r)]
  | unary t => [((.child, 0), t)]
  | not t => [((.bool, 0), t)]
  | takePtr t | takeVal t => [((.node, 0), t)]
  | await t => [((.exp, 0), t)]
  | varBlock idxs next => listed .idxs 0 idxs ++ optional .next next
  | callFunc ps fnNode next => listed .params 0 ps ++ optional .callNext next ++ [((.fnNode, 0), fnNode)]
  | arrayInit vals => listed .vals 0 vals
  | structInit fields => listed .fields 0 fields
  | inlineFunc body => [((.body, 0), body)]
  | defAndAssign t => [((.valNode, 0), t)]
  | ret t | yield t => optional .exp t
  | ifN b sts => [((.boolExp, 0), b), ((.statements, 0), sts)]
  | ifElse b sts el => [((.boolExp, 0), b), ((.statements, 0), sts), ((.elSt, 0), el)]
  | forN b d a sts => optional .bool b ++ optional .defineAssign d ++ optional .assign a ++ [((.statements, 0), sts)]
  | sl cs => listed .children 0 cs
  | params ps => listed .params 0 ps
  | func ps sts => ((.params, 0), ps) :: optional .statements sts
  | program pkg imports cs => optional .pkg pkg ++ optional .imports imports ++ listed .children 0 cs

/-- The node `n` stands in the tree, at the path `p`. -/
abbrev Has (t : Tree) (p : Path) (n : Tree) : Prop := At kids t p n

end Tree

/-! ## `travel` -/

variable (f : Path × Tree → Bool)

mutual
/-- `travel`, at the path `p` of the whole tree: the calls of the visitor, in their order. The visitor is handed
a pointer to the node, which is its path here. Only an inline function asks what it answers. -/
def travel (p : Path) : Tree → List (Path × Tree)
  | .errST => []
  | .num => [(p, .num)]
  | .str => [(p, .str)]
  | .nil => [(p, .nil)]
  | .boolConst => [(p, .boolConst)]
  | .empty => [(p, .empty)]
  | .define => [(p, .define)]
  | .breakST => [(p, .breakST)]
  | .continueST => [(p, .continueST)]
  | .typeDef => [(p, .typeDef)]
  | .param => [(p, .param)]
  | .package => [(p, .package)]
  | .import_ => [(p, .import_)]
  | .bin l r => (p, .bin l r) :: (travel (p ++ [(.left, 0)]) l ++ travel (p ++ [(.right, 0)]) r)
  | .compare l r => (p, .compare l r) :: (travel (p ++ [(.left, 0)]) l ++ travel (p ++ [(.right, 0)]) r)
  | .boolExp l r => (p, .boolExp l r) :: (travel (p ++ [(.left, 0)]) l ++ travel (p ++ [(.right, 0)]) r)
  | .unary t => (p, .unary t) :: travel (p ++ [(.child, 0)]) t
  | .not t => (p, .not t) :: travel (p ++ [(.bool, 0)]) t
  | .takePtr t => (p, .takePtr t) :: travel (p ++ [(.node, 0)]) t
  | .takeVal t => (p, .takeVal t) :: travel (p ++ [(.node, 0)]) t
  | .await t => (p, .await t) :: travel (p ++ [(.exp, 0)]) t
  -- the indices and the rest of the chain are left out
  | .varBlock idxs next => [(p, .varBlock idxs next)]
  | .callFunc ps fnNode next =>
    (p, .callFunc ps fnNode next) ::
      (travelList p .params 0 ps ++ travelOption p .callNext next ++ travel (p ++ [(.fnNode, 0)]) fnNode)
  -- so are the elements
  | .arrayInit vals => [(p, .arrayInit vals)]
  | .structInit fields => (p, .structInit fields) :: travelList p .fields 0 fields
  | .inlineFunc body =>
    (p, .inlineFunc body) :: if f (p, .inlineFunc body) then travel (p ++ [(.body, 0)]) body else []
  | .defAndAssign t => (p, .defAndAssign t) :: travel (p ++ [(.valNode, 0)]) t
  | .ret t => (p, .ret t) :: travelOption p .exp t
  | .yield t => (p, .yield t) :: travelOption p .exp t
  | .ifN b sts => (p, .ifN b sts) :: (travel (p ++ [(.boolExp, 0)]) b ++ travel (p ++ [(.statements, 0)]) sts)
  | .ifElse b sts el =>
    (p, .ifElse b sts el) ::
      (travel (p ++ [(.boolExp, 0)]) b ++ travel (p ++ [(.statements, 0)]) sts ++ travel (p ++ [(.elSt, 0)]) el)
  | .forN b d a sts =>
    (p, .forN b d a sts) ::
      (travelOption p .bool b ++ travelOption p .defineAssign d ++ travelOption p .assign a ++
        travel (p ++ [(.statements, 0)]) sts)
  | .sl cs => (p, .sl cs) :: travelList p .children 0 cs
  | .params ps => (p, .params ps) :: travelList p .params 0 ps
  | .func ps sts => (p, .func ps sts) :: (travel (p ++ [(.params, 0)]) ps ++ travelOption p .statements sts)
  -- `PKG` and `Imports` are left out
  | .program pkg imports cs => (p, .program pkg imports cs) :: travelList p .children 0 cs

def travelList (p : Path) (field : Field) (i : Nat) : List Tree → List (Path × Tree)
  | [] => []
  | t :: ts => travel (p ++ [(field, i)]) t ++ travelList p field (i + 1) ts

def travelOption (p : Path) (field : Field) : Option Tree → List (Path × Tree)
  | none => []
  | some t => travel (p ++ [(field, 0)]) t
end

/-! ## What it comes to -/

/-- The fields that no `travel` looks into. -/
def Field.forgotten : Field → Bool
  | idxs | next | vals | pkg | imports => true
  | _ => false

/-- The nodes that `travel` does not hand over, or not with all that is below. -/
def Tree.hides : Tree → Bool
  | errST => true
  | varBlock idxs next => !idxs.isEmpty || next.isSome
  | arrayInit vals => !vals.isEmpty
  | program pkg imports _ => pkg.isSome || imports.isSome
  | _ => false

/-- Whether `travel` goes on to a node below. -/
def goes (e : Place × Tree) : Bool := !e.1.1.forgotten

namespace Tree

variable {field : Field} {i : Nat} {t c : Tree} {s : Place}

/-- The nodes below that `travel` goes on to. -/
def entered (t : Tree) : List (Place × Tree) := t.kids.filter goes

theorem filter_listed (ts : List Tree) :
    (listed field i ts).filter goes = if field.forgotten then [] else listed field i ts := by
  induction ts generalizing i with
  | nil => simp [listed]
  | cons t ts ih =>
    rw [listed, List.filter_cons, ih]
    cases h : field.forgotten <;> simp [goes, h]

theorem filter_optional (t : Option Tree) :
    (optional field t).filter goes = if field.forgotten then [] else optional field t := by
  cases t <;> cases h : field.forgotten <;> simp [optional, goes, h]

theorem forall_listed (ts : List Tree) : (∀ e ∈ listed field i ts, goes e) ↔ (field.forgotten → ts = []) := by
  rw [← List.filter_eq_self, filter_listed]
  cases h : field.forgotten <;> cases ts <;> simp [listed]

theorem forall_optional (t : Option Tree) : (∀ e ∈ optional field t, goes e) ↔ (field.forgotten → t = none) := by
  rw [← List.filter_eq_self, filter_optional]
  cases h : field.forgotten <;> cases t <;> simp [optional]

theorem hides_eq_false_iff (t : Tree) : t.hides = false ↔ t ≠ errST ∧ ∀ e ∈ t.kids, goes e := by
  cases t <;>
    simp only [hides, kids, List.forall_mem_append, List.forall_mem_cons, forall_listed, forall_optional] <;>
    simp [goes, Field.forgotten]

theorem mem_of_mem_listed {ts : List Tree} (h : (s, c) ∈ listed field i ts) : c ∈ ts := by
  induction ts generalizing i with
  | nil => exact absurd h List.not_mem_nil
  | cons t ts ih =>
    rcases List.mem_cons.mp h with h | h
    · exact (Prod.mk.injEq .. ▸ h).2 ▸ List.mem_cons_self
    · exact List.mem_cons_of_mem _ (ih h)

theorem eq_of_mem_optional {t : Option Tree} (h : (s, c) ∈ optional field t) : t = some c := by
  cases t with
  | none => exact absurd h List.not_mem_nil
  | some t => simp_all [optional]

theorem sizeOf_kids_lt (h : (s, c) ∈ t.kids) : sizeOf c < sizeOf t := by
  -- a node below stands in a list or in an optional field of the constructor, or is a field itself
  have hl : ∀ {field i ts}, (s, c) ∈ listed field i ts → sizeOf c < sizeOf ts :=
    fun hc => List.sizeOf_lt_of_mem (mem_of_mem_listed hc)
  have ho : ∀ {field o}, (s, c) ∈ optional field o → sizeOf c < sizeOf o := by
    intro field o hc
    rw [eq_of_mem_optional hc]
    simp
  cases t <;> simp [kids] at h <;> grind

end Tree

open CalcLang.Ast.Travel.Tree

variable {f : Path × Tree → Bool} {p : Path}

theorem travelList_eq (field : Field) (i : Nat) (ts : List Tree) :
    travelList f p field i ts = (listed field i ts).flatMap fun e => travel f (p ++ [e.1]) e.2 := by
  induction ts generalizing i with
  | nil => rfl
  | cons t ts ih => rw [travelList, listed, List.flatMap_cons, ih]

theorem travelOption_eq (field : Field) (t : Option Tree) :
    travelOption f p field t = (optional field t).flatMap fun e => travel f (p ++ [e.1]) e.2 := by
  cases t with
  | none => rfl
  | some t => simp [travelOption, Tree.optional]

/-- A node that is called is called first, and then `travel` goes on to what it enters. -/
theorem travel_eq (hf : ∀ x, f x = true) {t : Tree} (ht : t ≠ .errST) :
    travel f p t = (p, t) :: t.entered.flatMap fun e => travel f (p ++ [e.1]) e.2 := by
  cases t <;>
    simp [travel, entered, kids, goes, hf, filter_listed, filter_optional, Field.forgotten, travelList_eq, travelOption_eq] at ht ⊢

/-- A walk that does as `travel`. -/
abbrev Travels : Tree → Path → Tree → Prop := Seen kids (· ≠ .errST) (·.1.forgotten = false)

theorem mem_travel_of_travels (hf : ∀ x, f x = true) {t n : Tree} {q : Path} (h : Travels t q n) :
    (p ++ q, n) ∈ travel f p t := by
  induction h generalizing p with
  | here hn =>
    rw [travel_eq hf hn, List.append_nil]
    exact List.mem_cons_self
  | @under n c m s q hn hc hs _ ih =>
    rw [travel_eq hf hn]
    refine List.mem_cons_of_mem _ (List.mem_flatMap.mpr ⟨(s, c), ?_, ?_⟩)
    · exact List.mem_filter.mpr ⟨hc, by simp [goes, hs]⟩
    · simpa using ih (p := p ++ [s])

theorem travels_of_mem_travel (hf : ∀ x, f x = true) {p : Path} {t : Tree} {x : Path × Tree}
    (h : x ∈ travel f p t) : ∃ q, x.1 = p ++ q ∧ Travels t q x.2 := by
  -- the recursion is on the tree, by way of what is below it
  by_cases ht : t = .errST
  · rw [ht] at h
    exact absurd h List.not_mem_nil
  rw [travel_eq hf ht] at h
  rcases List.mem_cons.mp h with rfl | h
  · exact ⟨[], (List.append_nil p).symm, .here ht⟩
  obtain ⟨⟨s, c⟩, hc, hx⟩ := List.mem_flatMap.mp h
  obtain ⟨hc, hs⟩ := List.mem_filter.mp hc
  have hlt := sizeOf_kids_lt hc
  obtain ⟨q, hq, hw⟩ := travels_of_mem_travel hf hx
  exact ⟨s :: q, by simp [hq], .under ht hc (by simpa [goes] using hs) hw⟩
termination_by sizeOf t

/-- From the root, `travel` calls a visitor that always returns true on what such a walk comes to. -/
theorem mem_travel_iff (hf : ∀ x, f x = true) {t n : Tree} {q : Path} : (q, n) ∈ travel f [] t ↔ Travels t q n := by
  constructor
  · intro h
    obtain ⟨q', rfl, hw⟩ := travels_of_mem_travel hf h
    exact hw
  · exact fun h => mem_travel_of_travels hf h

/-- With a visitor that always returns true, `travel` calls it on every node of the tree just if there stand in
it no statement that could not be parsed, no chain with an index or a further name, no array literal with elements
and no program with a package clause or imports. -/
theorem travel_all_iff (hf : ∀ x, f x = true) (t : Tree) :
    (∀ p n, t.Has p n → (p, n) ∈ travel f [] t) ↔ ∀ p n, t.Has p n → n.hides = false := by
  simp only [mem_travel_iff hf, hides_eq_false_iff, seen_all_iff]
  simp [goes]

/-- In `-1` it is called on the number. -/
theorem travel_all_unary : ([(.child, 0)], .num) ∈ travel (fun _ => true) [] (.unary .num) := by
  refine (travel_all_iff (fun _ => rfl) (.unary .num)).mpr (fun p n h => ?_) _ _ (.under List.mem_cons_self .here)
  cases h with
  | here => rfl
  | under hc h =>
    obtain ⟨rfl, rfl⟩ : _ ∧ _ := Prod.mk.inj (List.mem_singleton.mp hc)
    cases h with
    | here => rfl
    | under hc _ => exact absurd hc List.not_mem_nil

/-- In `a[i]` it is not called on the index. -/
theorem index_missed :
    ¬ ∀ (f : Path × Tree → Bool), (∀ x, f x = true) →
      ∀ t p n, Tree.Has t p n → (p, n) ∈ travel f [] t := by
  intro h
  have hi := h (fun _ => true) (fun _ => rfl) (.varBlock [.varBlock [] none] none) [(.idxs, 0)] (.varBlock [] none)
    (.under List.mem_cons_self .here)
  simp [travel] at hi

end CalcLang.Ast.Travel
