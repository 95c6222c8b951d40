import CalcLang.Ast.Node
import CalcLang.Lib.Search

/-!
# How an escape spreads

The last part of the escape analysis in `SLNode.calc`. By then the statements of the block have been looked
at: `escMap` has what was assigned to each variable, other variables and literals, and `escPoint` the variables that
get out of the block. From the escape points on `findEsc` goes to what was assigned to them, and so on through
the variables that the block defines, deleting from `escMap` what it has been at.

`Escapes` is what that is meant to find, and `escapes_exact` that it does, for any table and in
whatever order Go ranges over the escape points. Variables of outer blocks are in the table under names of their own
(`extern..x`): one can be an escape point, but no path leads through it.
-/

namespace CalcLang.Ast.Escape

open CalcLang.Lib

/-- `escNode`: a variable, or a literal if `initNode` is not nil. -/
structure EscNode where
  token : Ident
  initNode : Option Ref

/-- The maps of the analysis, and the literals for which `setAlloc(true)` has been called. -/
structure Tables where
  escMap : List (Ident × List EscNode)
  heapAllocTable : List Ident
  setAlloc : List Ref

-- The variables that the block defines.
variable (defMap : Ident → Bool)

/-- `findEsc`. It calls itself; `n` bounds how deep the calls nest. -/
def findEsc : Nat → List EscNode → Tables → Option Tables
  | 0, _, _ => none
  | n + 1, next, t =>
    next.foldlM (fun t v =>
      if v.initNode = none ∧ defMap v.token = true then
        let t := { t with heapAllocTable := t.heapAllocTable ++ [v.token] }
        let next := Search.edges t.escMap v.token
        let t := { t with escMap := Search.delete t.escMap v.token }
        findEsc n next t
      else
        match v.initNode with
        | some r => some { t with setAlloc := t.setAlloc ++ [r] }
        | none => some t) t

/-- What `SLNode.calc` does for an escape point. -/
def escapePoint (n : Nat) (t : Tables) (v : Ident) : Option Tables :=
  let t := if defMap v then { t with heapAllocTable := t.heapAllocTable ++ [v] } else t
  let next := Search.edges t.escMap v
  let t := { t with escMap := Search.delete t.escMap v }
  findEsc defMap n next t

/-- The loop of `SLNode.calc` over the escape points, in the order in which Go ranges over them. -/
def escapes (n : Nat) (escPoint : List Ident) (t : Tables) : Option Tables :=
  escPoint.foldlM (escapePoint defMap n) t

/-- What escapes: the escape points, and the variables of the block that were assigned to what escapes. -/
inductive Escapes (escMap : List (Ident × List EscNode)) (escPoint : List Ident) : Ident → Prop
  | point {x : Ident} : x ∈ escPoint → Escapes escMap escPoint x
  | assigned {x : Ident} {v : EscNode} : Escapes escMap escPoint x → v ∈ Search.edges escMap x →
    v.initNode = none → defMap v.token = true → Escapes escMap escPoint v.token

/-! ## It is a search -/

/-- Where an assigned value leads. -/
def EscNode.target (v : EscNode) : Option Ident :=
  if v.initNode = none ∧ defMap v.token = true then some v.token else none

variable {defMap}

theorem EscNode.target_eq_some {v : EscNode} {x : Ident} :
    v.target defMap = some x ↔ (v.initNode = none ∧ defMap v.token = true) ∧ v.token = x := by
  unfold EscNode.target
  rw [Option.ite_none_right_eq_some, Option.some.injEq]

theorem escapes_iff_found {escMap : List (Ident × List EscNode)} {escPoint : List Ident} {x : Ident} :
    Escapes defMap escMap escPoint x ↔ Search.Found (EscNode.target defMap) escMap escPoint x := by
  constructor
  · intro h
    induction h with
    | point hx => exact .point hx
    | assigned _ hv hnil hdef ih => exact .edge ih hv (EscNode.target_eq_some.mpr ⟨⟨hnil, hdef⟩, rfl⟩)
  · intro h
    induction h with
    | point hx => exact .point hx
    | edge _ hv ht ih =>
      obtain ⟨⟨hnil, hdef⟩, rfl⟩ := EscNode.target_eq_some.mp ht
      exact .assigned ih hv hnil hdef

/-- The tables when a search that was begun at `t` is at `s`. -/
def Tables.after (defMap : Ident → Bool) (t : Tables) (s : Search.State Ident EscNode) : Tables :=
  ⟨s.left, t.heapAllocTable ++ s.entered.filter defMap, t.setAlloc ++ s.met.filterMap (·.initNode)⟩

section Refinement

variable {t : Tables} {s : Search.State Ident EscNode} {v : EscNode} {n : Nat}

/-- A variable that is entered. -/
theorem Tables.after_enter (x : Ident) : t.after defMap (s.enter x) =
    let t' := if defMap x then
      { t.after defMap s with heapAllocTable := (t.after defMap s).heapAllocTable ++ [x] } else t.after defMap s
    { t' with escMap := Search.delete t'.escMap x } := by
  unfold Tables.after Search.State.enter
  cases hx : defMap x <;> simp [List.filter_append, hx]

theorem Tables.after_meet_var (h : v.initNode = none) : t.after defMap (s.meet v) = t.after defMap s := by
  simp [Tables.after, Search.State.meet, List.filterMap_append, h]

theorem Tables.after_meet_lit {r : Ref} (h : v.initNode = some r) : t.after defMap (s.meet v) =
    { t.after defMap s with setAlloc := (t.after defMap s).setAlloc ++ [r] } := by
  simp [Tables.after, Search.State.meet, List.filterMap_append, h]

theorem findEsc_eq (next : List EscNode) : findEsc defMap n next (t.after defMap s) =
    (Search.follow (EscNode.target defMap) n next s).map (t.after defMap) := by
  induction n generalizing next s with
  | zero => rfl
  | succ n ih =>
    unfold findEsc Search.follow
    refine Search.foldlM_image (fun s v => ?_) next s
    by_cases hv : v.initNode = none ∧ defMap v.token = true
    · -- a variable of the block: it goes to the heap, and what was assigned to it is next
      have htarget : v.target defMap = some v.token := EscNode.target_eq_some.mpr ⟨hv, rfl⟩
      have henter := @Tables.after_enter defMap t (s.meet v) v.token
      rw [Tables.after_meet_var hv.1, if_pos hv.2] at henter
      rw [if_pos hv, htarget]
      show findEsc defMap n (Search.edges s.left v.token) _ = Option.map _ _
      rw [← ih, henter]
    · -- a literal, or a variable of an outer block, which is left alone
      have htarget : v.target defMap = none := if_neg hv
      rw [if_neg hv, htarget]
      cases hinit : v.initNode with
      | none => exact congrArg some (Tables.after_meet_var hinit).symm
      | some r => exact congrArg some (Tables.after_meet_lit hinit).symm

theorem escapes_eq (escPoint : List Ident) : escapes defMap n escPoint (t.after defMap s) =
    (Search.search (EscNode.target defMap) n escPoint s).map (t.after defMap) := by
  refine Search.foldlM_image (fun s x => ?_) escPoint s
  have henter := @Tables.after_enter defMap t s x
  show findEsc defMap n _ _ = Option.map _ (Search.follow _ n (Search.edges s.left x) (s.enter x))
  rw [← findEsc_eq, henter]
  cases defMap x <;> rfl

end Refinement

/-! ## What it finds -/

/-- **The propagation ends, and finds exactly what escapes**: the variables of the block that escape are added
to `heapAllocTable`, and `setAlloc(true)` is called on the literals assigned to what escapes. -/
theorem escapes_exact (escPoint : List Ident) (t : Tables) :
    ∃ t', (∀ n, t.escMap.length + 2 ≤ n → escapes defMap n escPoint t = some t') ∧
      (∀ x, x ∈ t'.heapAllocTable ↔
        x ∈ t.heapAllocTable ∨ defMap x = true ∧ Escapes defMap t.escMap escPoint x) ∧
      ∀ r, r ∈ t'.setAlloc ↔ r ∈ t.setAlloc ∨
        ∃ x, Escapes defMap t.escMap escPoint x ∧ ∃ v ∈ Search.edges t.escMap x, v.initNode = some r := by
  obtain ⟨s, hs⟩ : ∃ s, ∀ n, t.escMap.length + 2 ≤ n →
      Search.search (EscNode.target defMap) n escPoint ⟨t.escMap, [], []⟩ = some s :=
    Search.search_total ⟨t.escMap, [], []⟩ escPoint
  have hstart : t.after defMap ⟨t.escMap, [], []⟩ = t := by simp [Tables.after]
  obtain ⟨hentered, hmet⟩ := Search.search_spec (hs _ (Nat.le_refl _))
  refine ⟨t.after defMap s, fun n hn => ?_, fun x => ?_, fun r => ?_⟩
  · have heq := @escapes_eq defMap t ⟨t.escMap, [], []⟩ n escPoint
    rw [hstart, hs n hn] at heq
    exact heq
  · show x ∈ t.heapAllocTable ++ s.entered.filter defMap ↔ _
    rw [List.mem_append, List.mem_filter, hentered, escapes_iff_found, and_comm]
  · show r ∈ t.setAlloc ++ s.met.filterMap (·.initNode) ↔ _
    rw [List.mem_append, List.mem_filterMap]
    refine or_congr_right ⟨?_, ?_⟩
    · rintro ⟨v, hv, hr⟩
      obtain ⟨x, hx, hv⟩ := (hmet v).mp hv
      exact ⟨x, escapes_iff_found.mpr hx, v, hv, hr⟩
    · rintro ⟨x, hx, v, hv, hr⟩
      exact ⟨v, (hmet v).mpr ⟨x, escapes_iff_found.mp hx, hv⟩, hr⟩

end CalcLang.Ast.Escape
