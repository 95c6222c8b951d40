import CalcLang.Ast.ClosureExact
import CalcLang.Ast.Escape

/-!
# The escape analysis of a block

Before `SLNode.calc` compiles the statements of a block it looks at them, one after the other, for what is assigned
to which variable and for what gets out of the block: returned, passed to a function, or used by a closure. It looks
at the statements themselves and not at those inside of them, which are analysed when their block is compiled.
Variables that the block has not defined so far stand in the maps as `extern..x`.

`escapeAnalysis_exact` says what comes out, in terms of the text: `takesAll` lists what the statements assign and
give away, and a variable goes to the heap if it is `Led` out of the block by these, or used by a closure.
-/

namespace CalcLang.Ast.Escape

open CalcLang.Lib

/-! ## The maps -/

/-- The maps of one pass over the statements. `heapAllocTable` is in `capture`, with what the closures need. -/
structure Pass where
  defMap : List Ident
  escMap : List (Ident × List EscNode)
  escPoint : List Ident
  setAlloc : List Ref
  capture : Capture

def Pass.fresh : Pass := ⟨[], [], [], [], .fresh⟩

/-- A variable of an outer block. -/
def outerName (x : Ident) : Ident := "extern..".toList ++ x

/-- What a variable is called in the maps. -/
def name (defMap : List Ident) (x : Ident) : Ident := if defMap.contains x then x else outerName x

mutual
/-- What the callbacks of the pass make of the nodes that `travel` visits. -/
def visits (name : Ident → Ident) : Entry → List EscNode
  | .use _ x => [⟨name x, none⟩]
  | .lit r => [⟨[], some r⟩]
  | .defn _ _ => []
  | .block l | .loop _ _ l | .fn _ _ l => visitsAll name l

def visitsAll (name : Ident → Ident) : List Entry → List EscNode
  | [] => []
  | i :: is => visits name i ++ visitsAll name is
end

/-- A variable is assigned a value, or, without a target, the value gets out of the block. -/
def Pass.take (p : Pass) (target : Option Ident) (v : EscNode) : Pass :=
  match target, v.initNode with
  | some k, _ => { p with escMap := Search.append p.escMap k v }
  | none, some r => { p with setAlloc := p.setAlloc ++ [r] }
  | none, none => { p with escPoint := p.escPoint ++ [v.token] }

def Pass.takes (p : Pass) (target : Option Ident) (vs : List EscNode) : Pass := vs.foldl (·.take target) p

/-! ## The statements -/

/-- `getVarNode`: the node behind the `*` and `&` in front of it, if it is an `alloca`. -/
def getVarNode : ExpNode → Option ExpNode
  | .takeVal _ e | .takePtr e => getVarNode e
  | .varBlock r t next idxs => some (.varBlock r t next idxs)
  | .str r => some (.str r)
  | .arrayInit r es => some (.arrayInit r es)
  | .structInit r es => some (.structInit r es)
  | _ => none

/-- What a right side is for the pass. -/
inductive Right
  | var (token : Ident)
  | literal (ref : Ref)
  | call (params : List ExpNode) (fnNode : ExpNode)
  | other

def rightSide (e : ExpNode) : Right :=
  match getVarNode e with
  | some (.varBlock _ t _ _) => .var t
  | some (.str r) | some (.arrayInit r _) | some (.structInit r _) => .literal r
  | _ =>
    match e with
    | .callFunc _ params fnNode _ => .call params fnNode
    | _ => .other

/-- An inline function on the right side, or as an argument, is travelled. -/
def Pass.closure (p : Pass) : ExpNode → Pass
  | .inlineFunc g _ _ body => { p with capture := p.capture.travel g (travelsNodes body) }
  | _ => p

/-- The token of what is called. It is taken as it is, without a prefix. -/
def callee : ExpNode → List EscNode
  | .varBlock _ t _ _ => [⟨t, none⟩]
  | _ => []

/-- `callfanf`. -/
def Pass.callfanf (p : Pass) (params : List ExpNode) (fnNode : ExpNode) : Pass :=
  params.foldl (fun p v =>
    ((p.closure v).takes none (visitsAll (name p.defMap) v.travel)).takes none (callee fnNode)) p

/-- The right side of an assignment or a definition; without a target, of a `return`. -/
def Pass.right (p : Pass) (target : Option Ident) (e : ExpNode) : Pass :=
  let p := p.closure e
  match rightSide e with
  | .var t => p.take target ⟨name p.defMap t, none⟩
  | .literal r =>
    (p.take target ⟨[], some r⟩).takes target
      ((visitsAll (name p.defMap) e.travel).filter (·.initNode.isNone))
  | .call params fnNode => p.callfanf params fnNode
  | .other => p

/-- The variable that is assigned to. The parser puts nothing else there. -/
def leftToken (l : ExpNode) : Ident :=
  match getVarNode l with
  | some (.varBlock _ t _ _) => t
  | _ => []

/-- The cases of the loop of `SLNode.calc`. -/
def Pass.node (p : Pass) : Node → Pass
  | .exp (.binary .assign l r) => p.right (some (name p.defMap (leftToken l))) r
  | .exp (.callFunc _ params fnNode _) => p.callfanf params fnNode
  | .defAndAssign _ x e => { p with defMap := p.defMap ++ [x] }.right (some x) e
  | .define _ x => { p with defMap := p.defMap ++ [x] }
  | .ret e => p.right none e
  | _ => p

/-- An order in which Go ranges over the keys of a map. -/
structure Order where
  run : List Ident → List Ident
  mem : ∀ {ks : List Ident} {k : Ident}, k ∈ run ks ↔ k ∈ ks

/-- The analysis of a block, in a function whose IR has the parameters `params`. -/
def escapeAnalysis (O : Order) (params : List Ident) (sts : List Node) : Option Tables :=
  let p := sts.foldl Pass.node .fresh
  escapes p.defMap.contains (p.escMap.length + 2) (O.run (p.escPoint ++ params.map outerName))
    ⟨p.escMap, p.capture.heapAllocTable, p.setAlloc⟩

/-! ## What the text says -/

/-- A value, and where it goes. -/
abbrev Take := Option Ident × EscNode

/-- What the arguments of a call give away. The callee goes with each of them. -/
def callTakes (D : List Ident) (params : List ExpNode) (fnNode : ExpNode) : List Take :=
  params.flatMap fun v => (visitsAll (name D) v.travel ++ callee fnNode).map (none, ·)

/-- What goes to the target. -/
def rightTakes (D : List Ident) (target : Option Ident) (e : ExpNode) : List Take :=
  match rightSide e with
  | .var t => [(target, ⟨name D t, none⟩)]
  | .literal r =>
    (target, ⟨[], some r⟩) :: ((visitsAll (name D) e.travel).filter (·.initNode.isNone)).map (target, ·)
  | .call params fnNode => callTakes D params fnNode
  | .other => []

/-- The name that a statement of the block defines. -/
def named : Node → List Ident
  | .define _ x | .defAndAssign _ x _ => [x]
  | _ => []

/-- What a statement assigns and gives away, where `D` have been defined before. -/
def nodeTakes (D : List Ident) : Node → List Take
  | .exp (.binary .assign l r) => rightTakes D (some (name D (leftToken l))) r
  | .exp (.callFunc _ params fnNode _) => callTakes D params fnNode
  | .defAndAssign _ x e => rightTakes (D ++ [x]) (some x) e
  | .ret e => rightTakes D none e
  | _ => []

def takesAll (D : List Ident) : List Node → List Take
  | [] => []
  | n :: ns => nodeTakes D n ++ takesAll (D ++ named n) ns

/-- The variables that are led out of the block: those that get out, and from one on to those of the block that it has
been assigned. -/
inductive Led (D : List Ident) (ts : List Take) : Ident → Prop
  | out {k : Ident} : (none, ⟨k, none⟩) ∈ ts → Led D ts k
  | on {k k' : Ident} : Led D ts k → (some k, ⟨k', none⟩) ∈ ts → k' ∈ D → Led D ts k'

/-- A literal that is led out: one that gets out itself, or that a variable that does has been assigned. -/
def LedLiteral (D : List Ident) (ts : List Take) (r : Ref) : Prop :=
  ∃ k, (none, ⟨k, some r⟩) ∈ ts ∨ ∃ x, Led D ts x ∧ (some x, ⟨k, some r⟩) ∈ ts

/-- The variables that the statements of a block define. -/
def defined (sts : List Node) : List Ident := sts.flatMap named

/-- What a block assigns and gives away. A parameter of the function outlives it, so what is assigned to one gets out. -/
def handed (params : List Ident) (sts : List Node) : List Take :=
  takesAll [] sts ++ params.map fun x => (none, ⟨outerName x, none⟩)

/-- The functions that a pass takes up, one after the other. -/
def travelAll (fs : List Found) (c : Capture) : Capture := fs.foldl (fun c f => c.travel f.1 (travelsNodes f.2)) c

/-- All that is walked in a block. -/
def walked (sts : List Node) : List Entry := (sts.flatMap Node.closures).flatMap fun f => travelsNodes f.2

/-! ## The pass as one list -/

section Reading

variable {p : Pass} {D : List Ident} {target : Option Ident} {v : EscNode} {e fnNode : ExpNode} {params : List ExpNode}
  {ts us : List Take} {k x : Ident} {c : Capture}

/-- What defines a name, and the functions that are taken up, come in beside what is taken. -/
def Pass.enter (p : Pass) (xs : List Ident) (fs : List Found) : Pass :=
  { p with defMap := p.defMap ++ xs, capture := travelAll fs p.capture }

def Pass.apply (p : Pass) (ts : List Take) : Pass := ts.foldl (fun p t => p.take t.1 t.2) p

theorem travelAll_append (fs gs : List Found) : travelAll (fs ++ gs) c = travelAll gs (travelAll fs c) :=
  List.foldl_append

theorem Pass.enter_nil : p.enter [] [] = p := by simp [enter, travelAll]

theorem Pass.enter_enter (xs ys : List Ident) (fs gs : List Found) :
    (p.enter xs fs).enter ys gs = p.enter (xs ++ ys) (fs ++ gs) := by
  simp [enter, travelAll_append, List.append_assoc]

theorem Pass.apply_cons (t : Take) : p.apply (t :: ts) = (p.take t.1 t.2).apply ts := rfl

theorem Pass.apply_append : p.apply (ts ++ us) = (p.apply ts).apply us := List.foldl_append

theorem Pass.takes_eq (vs : List EscNode) : p.takes target vs = p.apply (vs.map (target, ·)) := by
  rw [apply, List.foldl_map]
  rfl

theorem Pass.take_defMap : (p.take target v).defMap = p.defMap := by
  unfold take
  split <;> rfl

theorem Pass.take_capture : (p.take target v).capture = p.capture := by
  unfold take
  split <;> rfl

theorem Pass.apply_defMap : (p.apply ts).defMap = p.defMap := by
  induction ts generalizing p with
  | nil => rfl
  | cons t ts ih => rw [apply_cons, ih, take_defMap]

theorem Pass.apply_capture : (p.apply ts).capture = p.capture := by
  induction ts generalizing p with
  | nil => rfl
  | cons t ts ih => rw [apply_cons, ih, take_capture]

theorem Pass.take_enter (xs : List Ident) (fs : List Found) :
    (p.take target v).enter xs fs = (p.enter xs fs).take target v := by
  unfold take
  split <;> rfl

/-- What is taken and what is entered do not depend on each other. -/
theorem Pass.apply_enter (xs : List Ident) (fs : List Found) :
    (p.apply ts).enter xs fs = (p.enter xs fs).apply ts := by
  induction ts generalizing p with
  | nil => rfl
  | cons t ts ih => rw [apply_cons, ih, take_enter, apply_cons]

/-! ## The statements -/

theorem Pass.closure_eq : p.closure e = p.enter [] (paramClosures [e]) := by
  cases e <;> simp [closure, enter, paramClosures, travelAll]

theorem paramClosures_cons (es : List ExpNode) : paramClosures (e :: es) = paramClosures [e] ++ paramClosures es := by
  cases e <;> rfl

theorem Pass.callfanf_eq : p.callfanf params fnNode =
    (p.enter [] (paramClosures params)).apply (callTakes p.defMap params fnNode) := by
  induction params generalizing p with
  | nil => exact p.enter_nil.symm
  | cons v vs ih =>
    have hstep : p.callfanf (v :: vs) fnNode = (((p.closure v).takes none
        (visitsAll (name p.defMap) v.travel)).takes none (callee fnNode)).callfanf vs fnNode := by
      rw [closure_eq]
      simp [callfanf, closure_eq, enter]
    rw [hstep, ih, takes_eq, takes_eq, ← apply_append, ← List.map_append, apply_enter, apply_defMap, closure_eq,
      enter_enter, ← paramClosures_cons, ← apply_append]
    simp [callTakes, enter]

theorem rightSide_call (h : rightSide e = .call params fnNode) : ∃ g next, e = .callFunc g params fnNode next := by
  unfold rightSide at h
  split at h
  · cases h
  · cases h
  · cases h
  · cases h
  · split at h
    · cases h
      exact ⟨_, _, rfl⟩
    · cases h

/-- The functions on a right side are those that `closure` takes up, or the arguments of a call. -/
theorem closures_eq (e : ExpNode) : e.closures = paramClosures [e] ++
    match rightSide e with
    | .call params _ => paramClosures params
    | _ => [] := by
  cases hr : rightSide e with
  | call params fnNode =>
    obtain ⟨g, next, rfl⟩ := rightSide_call hr
    rfl
  | _ =>
    cases e with
    | callFunc g params fnNode next => cases hr
    | _ => rfl

theorem Pass.right_eq : p.right target e = (p.enter [] e.closures).apply (rightTakes p.defMap target e) := by
  rw [closures_eq, right, rightTakes, closure_eq]
  cases rightSide e with
  | var t => simp [enter, apply]
  | literal r =>
    rw [List.append_nil]
    dsimp only
    rw [takes_eq, apply_cons]
    simp [enter]
  | call params fnNode =>
    dsimp only
    rw [callfanf_eq, enter_enter]
    simp [enter]
  | other =>
    rw [List.append_nil]
    rfl

theorem Pass.node_eq (n : Node) :
    p.node n = (p.enter (named n) n.closures).apply (nodeTakes p.defMap n) := by
  cases n with
  | exp e =>
    cases e with
    | binary kind l r =>
      cases kind with
      | assign => exact right_eq
      | _ => exact p.enter_nil.symm
    | callFunc g params fnNode next => exact callfanf_eq
    | _ => exact p.enter_nil.symm
  | define r x => simp [node, named, nodeTakes, enter, Node.closures, travelAll, apply]
  | defAndAssign r x e =>
    rw [node, right_eq]
    simp [named, nodeTakes, enter, Node.closures]
  | ret e => exact right_eq
  | _ => exact p.enter_nil.symm

theorem Pass.nodes_eq (sts : List Node) : sts.foldl Pass.node p =
    (p.enter (defined sts) (sts.flatMap Node.closures)).apply (takesAll p.defMap sts) := by
  induction sts generalizing p with
  | nil => exact p.enter_nil.symm
  | cons n ns ih =>
    rw [List.foldl_cons, ih, node_eq, apply_enter, apply_defMap, enter_enter, ← apply_append]
    rfl

end Reading

/-! ## What closures use -/

section Closures

variable {x : Ident} {c : Capture}

theorem seesAny_append (a b : List Entry) :
    seesAny x (a ++ b) ↔ seesAny x a ∨ ¬ definesAny x a ∧ seesAny x b := by
  induction a with
  | nil => simp [seesAny, definesAny]
  | cons i a ih =>
    rw [List.cons_append, seesAny, definesAny, seesAny, Bool.or_eq_true, Bool.and_eq_true, ih]
    cases i.sees x <;> cases i.defines x <;> simp

theorem trf_closuredef (i : Entry) : x ∈ (i.trf c).closuredef ↔ x ∈ c.closuredef ∨ i.defines x := by
  have h := (travelled [i] c).closuredef x
  rwa [definesAny_singleton] at h

mutual
/-- A walk puts a name on the table if it sees it used before any definition. -/
theorem trf_heapAllocTable : ∀ (i : Entry) (c : Capture),
    x ∈ (i.trf c).heapAllocTable ↔ x ∈ c.heapAllocTable ∨ x ∉ c.closuredef ∧ i.sees x
  | .use _ y, c => by
    rw [Entry.trf, Entry.sees, decide_eq_true_iff]
    by_cases hy : y ∈ c.closuredef
    · rw [if_pos hy, or_iff_left]
      rintro ⟨hx, rfl⟩
      exact hx hy
    · rw [if_neg hy, List.mem_cons, or_comm]
      refine or_congr_right ⟨?_, And.right⟩
      rintro rfl
      exact ⟨hy, rfl⟩
  | .defn _ _, c | .lit _, c => by simp [Entry.trf, Entry.sees]
  | .block l, c => trfEntries_heapAllocTable l c
  | .loop _ y l, c => by
    refine (trfEntries_heapAllocTable l _).trans ?_
    simp [Entry.sees, and_assoc, and_left_comm]
  | .fn g _ l, c => by
    have hinner := trfEntries_heapAllocTable l { c with closurevar := [] }
    have hdef := (travelled l { c with closurevar := [] }).closuredef x
    refine (trfEntries_heapAllocTable l _).trans ?_
    -- the second visit sees no more than the first
    dsimp only at hinner hdef ⊢
    rw [hinner, hdef, Entry.sees]
    tauto

theorem trfEntries_heapAllocTable : ∀ (l : List Entry) (c : Capture),
    x ∈ (trfEntries l c).heapAllocTable ↔ x ∈ c.heapAllocTable ∨ x ∉ c.closuredef ∧ seesAny x l
  | [], c => by simp [trfEntries, seesAny]
  | i :: is, c => by
    rw [trfEntries, trfEntries_heapAllocTable is, trf_heapAllocTable i, trf_closuredef, seesAny, Bool.or_eq_true,
      Bool.and_eq_true, Bool.not_eq_true']
    cases i.sees x <;> cases i.defines x <;> simp
    tauto
end

theorem travelAll_heapAllocTable (fs : List Found) (c : Capture) : x ∈ (travelAll fs c).heapAllocTable ↔
    x ∈ c.heapAllocTable ∨ x ∉ c.closuredef ∧ seesAny x (fs.flatMap fun f => travelsNodes f.2) := by
  induction fs generalizing c with
  | nil => simp [travelAll, seesAny]
  | cons f fs ih =>
    have hheap := trfEntries_heapAllocTable (x := x) (travelsNodes f.2) { c with closurevar := [] }
    have hdef := (travelled (travelsNodes f.2) { c with closurevar := [] }).closuredef x
    have hstep : travelAll (f :: fs) c = travelAll fs (c.travel f.1 (travelsNodes f.2)) := rfl
    rw [hstep, ih, List.flatMap_cons, seesAny_append]
    show x ∈ (trfEntries _ _).heapAllocTable ∨ x ∉ (trfEntries _ _).closuredef ∧ _ ↔ _
    rw [hheap, hdef]
    tauto

end Closures

/-! ## The maps in the end -/

section Exact

variable {p : Pass} {D : List Ident} {ts : List Take} {k : Ident} {r : Ref} {v : EscNode}

theorem mem_escPoint : k ∈ (p.apply ts).escPoint ↔ k ∈ p.escPoint ∨ (none, ⟨k, none⟩) ∈ ts := by
  induction ts generalizing p with
  | nil => simp [Pass.apply]
  | cons t ts ih =>
    rw [Pass.apply_cons, ih, List.mem_cons]
    obtain ⟨_ | j, ⟨y, _ | i⟩⟩ := t <;> simp [Pass.take, or_assoc]

theorem mem_setAlloc : r ∈ (p.apply ts).setAlloc ↔ r ∈ p.setAlloc ∨ ∃ k, (none, ⟨k, some r⟩) ∈ ts := by
  induction ts generalizing p with
  | nil => simp [Pass.apply]
  | cons t ts ih =>
    rw [Pass.apply_cons, ih]
    obtain ⟨_ | j, ⟨y, _ | i⟩⟩ := t <;> simp [Pass.take, or_assoc, exists_or]

theorem mem_edges : v ∈ Search.edges (p.apply ts).escMap k ↔
    v ∈ Search.edges p.escMap k ∨ (some k, v) ∈ ts := by
  induction ts generalizing p with
  | nil => simp [Pass.apply]
  | cons t ts ih =>
    rw [Pass.apply_cons, ih, List.mem_cons]
    obtain ⟨_ | j, ⟨y, _ | i⟩⟩ := t <;> simp [Pass.take, Search.edges_append, or_assoc]

theorem escapes_iff_led {escMap : List (Ident × List EscNode)} {escPoint : List Ident}
    (hpoint : ∀ k, k ∈ escPoint ↔ (none, ⟨k, none⟩) ∈ ts)
    (hmap : ∀ k v, v ∈ Search.edges escMap k ↔ (some k, v) ∈ ts) :
    Escapes D.contains escMap escPoint k ↔ Led D ts k := by
  constructor
  · intro h
    induction h with
    | point hk => exact .out ((hpoint _).mp hk)
    | @assigned x v _ hv hnil hdef ih =>
      obtain ⟨y, _⟩ := v
      obtain rfl : _ = none := hnil
      exact .on ih ((hmap _ _).mp hv) (List.contains_iff_mem.mp hdef)
  · intro h
    induction h with
    | out hk => exact .point ((hpoint _).mpr hk)
    | on _ hv hdef ih => exact .assigned ih ((hmap _ _).mpr hv) rfl (List.contains_iff_mem.mpr hdef)

/-- **What the analysis of a block finds**: the variables that a closure uses, and of those that the block defines the
ones that are led out of it; and the literals that are led out. -/
theorem escapeAnalysis_exact (O : Order) (params : List Ident) (sts : List Node) :
    ∃ t, escapeAnalysis O params sts = some t ∧
      (∀ x, x ∈ t.heapAllocTable ↔
        seesAny x (walked sts) ∨ x ∈ defined sts ∧ Led (defined sts) (handed params sts) x) ∧
      ∀ r, r ∈ t.setAlloc ↔ LedLiteral (defined sts) (handed params sts) r := by
  obtain ⟨p, hp⟩ : ∃ p, sts.foldl Pass.node .fresh = p := ⟨_, rfl⟩
  have heq : p = (Pass.fresh.enter (defined sts) (sts.flatMap Node.closures)).apply (takesAll [] sts) := by
    rw [← hp, Pass.nodes_eq]
    rfl
  have hdef : p.defMap = defined sts := by
    rw [heq, Pass.apply_defMap]
    rfl
  have hheap : ∀ x, x ∈ p.capture.heapAllocTable ↔ seesAny x (walked sts) := by
    intro x
    rw [heq, Pass.apply_capture]
    refine (travelAll_heapAllocTable _ _).trans ?_
    simp [Pass.fresh, Capture.fresh, walked]
  have hpoint : ∀ k, k ∈ O.run (p.escPoint ++ params.map outerName) ↔ (none, ⟨k, none⟩) ∈ handed params sts := by
    intro k
    rw [O.mem, List.mem_append, heq, mem_escPoint, handed, List.mem_append]
    simp [Pass.enter, Pass.fresh]
  have hmap : ∀ k v, v ∈ Search.edges p.escMap k ↔ (some k, v) ∈ handed params sts := by
    intro k v
    rw [heq, mem_edges, handed, List.mem_append]
    simp [Pass.enter, Pass.fresh, Search.edges]
  have hset : ∀ r, r ∈ p.setAlloc ↔ ∃ k, (none, ⟨k, some r⟩) ∈ handed params sts := by
    intro r
    rw [heq, mem_setAlloc]
    simp [Pass.enter, Pass.fresh, handed]
  obtain ⟨t, ht, htable, hflag⟩ := @escapes_exact p.defMap.contains
    (O.run (p.escPoint ++ params.map outerName)) ⟨p.escMap, p.capture.heapAllocTable, p.setAlloc⟩
  refine ⟨t, ?_, fun x => ?_, fun r => ?_⟩
  · rw [escapeAnalysis, hp]
    exact ht _ (Nat.le_refl _)
  · rw [htable, List.contains_iff_mem, hdef, escapes_iff_led hpoint hmap, hheap]
  · rw [hflag, hset, LedLiteral, exists_or, hdef]
    refine or_congr_right ⟨?_, ?_⟩
    · rintro ⟨x, hx, ⟨k, _⟩, hv, rfl⟩
      exact ⟨k, x, (escapes_iff_led hpoint hmap).mp hx, (hmap _ _).mp hv⟩
    · rintro ⟨k, x, hx, hv⟩
      exact ⟨x, (escapes_iff_led hpoint hmap).mpr hx, ⟨k, some r⟩, (hmap _ _).mpr hv, rfl⟩

-- `x := &S{}` and `return x`
example : (escapeAnalysis ⟨id, Iff.rfl⟩ [] [.defAndAssign 0 ['x'] (.takePtr (.structInit 1 [])),
    .ret (.varBlock 2 ['x'] [] [])]).map (·.setAlloc) = some [1] := by decide

end Exact

end CalcLang.Ast.Escape
