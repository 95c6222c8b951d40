import CalcLang.Ast.Node
import Mathlib.Data.List.Chain
import Mathlib.Data.List.Nodup

/-!
# The labels of suspensions

A function with `yield` or `await` in it is compiled to a state machine, and where it is suspended a block
begins that has the suspension's label. `AddtoScope` gives out the labels, and
`InlineFuncNode.calc` those of a function without a name: they walk the body with `travel` and count.
The counter is raised before the label of a `yield` is written, and after that of an `await`.

`travel` does not come to every `await` that `calc` compiles: it stops at a chain and at an array literal, whose
index expressions and elements have none of their own. These keep the empty label. And where an `await`
follows a `yield`, both have the number that the counter has between them. `labels_iff` says that
these are the only two ways to go wrong.
-/

namespace CalcLang.Ast.Labels

abbrev Text := List Char

inductive Kind
  | yield | await
  deriving DecidableEq, Repr

/-- A `yield` or an `await`, and whether `travel` comes to it. -/
structure Suspension where
  kind : Kind
  travelled : Bool
  deriving DecidableEq, Repr

/-! ## The walk -/

-- Whether `calc` compiles an index expression of a chain, the `k`-th: it leaves those behind the name of a
-- package out, and those behind the name of a method.
variable (compiles : Ref → Nat → Bool)

mutual
/-- The suspensions of an expression, in the order in which `travel` comes to them. An inner function
has its own. The fields of a struct literal are in the order in which Go ranges over the map. -/
def ExpNode.suspensions (travelled : Bool) : ExpNode → List Suspension
  | .null | .lit | .str _ | .inlineFunc _ _ _ _ => []
  | .varBlock r _ _ idxs => suspensionsIdxs (compiles r) 0 idxs
  | .callFunc _ params fnNode next =>
    suspensionsExps travelled params ++ ExpNode.suspensions travelled next ++
      ExpNode.suspensions travelled fnNode
  | .binary _ left right => ExpNode.suspensions travelled left ++ ExpNode.suspensions travelled right
  | .unary e | .takePtr e | .takeVal _ e => ExpNode.suspensions travelled e
  -- `travel` of an array literal does not go on to the elements
  | .arrayInit _ vals => suspensionsExps false vals
  | .structInit _ fields => suspensionsExps travelled fields
  | .await _ e => ⟨.await, travelled⟩ :: ExpNode.suspensions travelled e

def suspensionsExps (travelled : Bool) : List ExpNode → List Suspension
  | [] => []
  | e :: es => ExpNode.suspensions travelled e ++ suspensionsExps travelled es

/-- The suspensions in the index expressions of a chain. -/
def suspensionsIdxs (compiled : Nat → Bool) (k : Nat) : List ExpNode → List Suspension
  | [] => []
  | e :: es =>
    if compiled k then ExpNode.suspensions false e ++ suspensionsIdxs compiled (k + 1) es
    else suspensionsIdxs compiled (k + 1) es
end

mutual
/-- The suspensions of a statement. -/
def Node.suspensions : Node → List Suspension
  | .exp e | .ret e => ExpNode.suspensions compiles true e
  | .leaf | .define _ _ => []
  | .defAndAssign _ _ e => ExpNode.suspensions compiles true e
  | .yield e => ⟨.yield, true⟩ :: ExpNode.suspensions compiles true e
  | .ifN c sts => ExpNode.suspensions compiles true c ++ suspensionsNodes sts
  | .ifElse c sts el => ExpNode.suspensions compiles true c ++ suspensionsNodes sts ++ Node.suspensions el
  | .forN c d a sts =>
    ExpNode.suspensions compiles true c ++ Node.suspensions d ++ ExpNode.suspensions compiles true a ++
      suspensionsNodes sts
  | .sl cs => suspensionsNodes cs

def suspensionsNodes : List Node → List Suspension
  | [] => []
  | n :: ns => Node.suspensions n ++ suspensionsNodes ns
end

/-- `.yield%d`. -/
def label (lableid : Nat) : Text := ".yield".toList ++ Nat.toDigits 10 lableid

/-- The label of every suspension. There are none when an `await` is refused. -/
def visit (async : Bool) : Nat → List Suspension → Option (List Text)
  | _, [] => some []
  | lableid, ⟨_, false⟩ :: ss => (visit async lableid ss).map ([] :: ·)
  | lableid, ⟨.yield, true⟩ :: ss => (visit async (lableid + 1) ss).map (label (lableid + 1) :: ·)
  | lableid, ⟨.await, true⟩ :: ss =>
    -- "await only allowed in async func"
    if async = false then none else (visit async (lableid + 1) ss).map (label lableid :: ·)

/-- The labels of a function. -/
def FuncNode.AddtoScope (async : Bool) (statements : List Node) : Option (List Text) :=
  visit async 0 (suspensionsNodes compiles statements)

/-- The labels of a function without a name. -/
def InlineFuncNode.calc (async : Bool) (body : List Node) : Option (List Text) :=
  visit async 0 (suspensionsNodes compiles body)

/-! ## The labels -/

/-- Every suspension has a label, and no two have the same. -/
def Unique (labels : Option (List Text)) : Prop := ∀ ls ∈ labels, (∀ l ∈ ls, l ≠ []) ∧ ls.Nodup

/-- An `await` that the visitor refuses. -/
def Refused (async : Bool) (ss : List Suspension) : Prop := async = false ∧ ⟨.await, true⟩ ∈ ss

/-- The visitor comes to all of them, and to no `await` right behind a `yield`. -/
def Orderly (ss : List Suspension) : Prop :=
  (∀ s ∈ ss, s.travelled) ∧ (ss.map (·.kind)).IsChain fun a b => ¬ (a = .yield ∧ b = .await)

/-- The numbers in the labels, from where the counter stands. -/
def numbers : Nat → List Kind → List Nat
  | _, [] => []
  | lableid, .yield :: ks => (lableid + 1) :: numbers (lableid + 1) ks
  | lableid, .await :: ks => lableid :: numbers (lableid + 1) ks

theorem le_of_mem_numbers {n lableid : Nat} {ks : List Kind} (h : n ∈ numbers lableid ks) : lableid ≤ n := by
  induction ks generalizing lableid with
  | nil => cases h
  | cons k ks ih =>
    cases k with
    | yield =>
      obtain heq | hrest := List.mem_cons.mp h
      · omega
      · exact Nat.le_of_succ_le (ih hrest)
    | await =>
      obtain heq | hrest := List.mem_cons.mp h
      · omega
      · exact Nat.le_of_succ_le (ih hrest)

/-- The counter's own number is given out at once or not at all. -/
theorem self_mem_numbers (lableid : Nat) (ks : List Kind) :
    lableid ∈ numbers lableid ks ↔ ks.head? = some .await := by
  have hlater : ∀ ks, lableid ∉ numbers (lableid + 1) ks := fun ks h => by
    have := le_of_mem_numbers h
    omega
  cases ks with
  | nil => simp [numbers]
  | cons k ks =>
    cases k with
    | yield => simp [numbers, hlater ks]
    | await => simp [numbers]

theorem numbers_nodup_iff (lableid : Nat) (ks : List Kind) :
    (numbers lableid ks).Nodup ↔ ks.IsChain fun a b => ¬ (a = .yield ∧ b = .await) := by
  induction ks generalizing lableid with
  | nil => simp [numbers]
  | cons k ks ih =>
    rw [List.isChain_cons, ← ih (lableid + 1)]
    cases k with
    | yield =>
      show ((lableid + 1) :: numbers (lableid + 1) ks).Nodup ↔ _
      rw [List.nodup_cons, self_mem_numbers]
      refine and_congr_left fun _ => ?_
      cases ks with
      | nil => simp
      | cons b ks => simp
    | await =>
      show (lableid :: numbers (lableid + 1) ks).Nodup ↔ _
      have hfresh : lableid ∉ numbers (lableid + 1) ks := fun h => by
        have := le_of_mem_numbers h
        omega
      rw [List.nodup_cons]
      simp [hfresh]

theorem label_injective : Function.Injective label := by
  intro a b h
  have hdigits : Nat.toDigits 10 a = Nat.toDigits 10 b := List.append_cancel_left h
  have hread := congrArg (fun ds => Nat.ofDigitChars 10 ds 0) hdigits
  simpa using hread

theorem label_ne_nil (lableid : Nat) : label lableid ≠ [] :=
  List.append_ne_nil_of_right_ne_nil _ Nat.toDigits_ne_nil

/-- Nothing is refused when awaits are allowed, or when the visitor comes to none. -/
theorem visit_eq_none_iff (async : Bool) (lableid : Nat) (ss : List Suspension) :
    visit async lableid ss = none ↔ Refused async ss := by
  induction ss generalizing lableid with
  | nil => simp [visit, Refused]
  | cons s ss ih =>
    obtain ⟨k, t⟩ := s
    cases t with
    | false => simp [visit, Refused, ih]
    | true =>
      cases k with
      | yield => simp [visit, Refused, ih]
      | await =>
        cases async with
        | false => simp [visit, Refused]
        | true => simp [visit, Refused, ih]

/-- A suspension the visitor does not come to has no label. -/
theorem nil_mem_of_visit {async : Bool} {lableid : Nat} {ss : List Suspension} {ls : List Text}
    (h : visit async lableid ss = some ls) (hs : ∃ s ∈ ss, s.travelled = false) : [] ∈ ls := by
  induction ss generalizing lableid ls with
  | nil =>
    obtain ⟨s, hs, -⟩ := hs
    cases hs
  | cons s ss ih =>
    obtain ⟨k, t⟩ := s
    cases t with
    | false =>
      obtain ⟨ls', -, rfl⟩ := Option.map_eq_some_iff.mp h
      exact List.mem_cons_self
    | true =>
      have hrest : ∃ s ∈ ss, s.travelled = false := by simpa using hs
      cases k with
      | yield =>
        obtain ⟨ls', hls, rfl⟩ := Option.map_eq_some_iff.mp h
        exact List.mem_cons_of_mem _ (ih hls hrest)
      | await =>
        simp only [visit] at h
        split at h
        · cases h
        · obtain ⟨ls', hls, rfl⟩ := Option.map_eq_some_iff.mp h
          exact List.mem_cons_of_mem _ (ih hls hrest)

/-- What the visitor writes when it comes to all of them. -/
theorem visit_eq {async : Bool} {lableid : Nat} {ss : List Suspension} {ls : List Text}
    (h : visit async lableid ss = some ls) (hs : ∀ s ∈ ss, s.travelled) :
    ls = (numbers lableid (ss.map (·.kind))).map label := by
  induction ss generalizing lableid ls with
  | nil =>
    cases h
    rfl
  | cons s ss ih =>
    obtain ⟨k, t⟩ := s
    have ht : t = true := hs _ List.mem_cons_self
    subst ht
    have hrest : ∀ s ∈ ss, s.travelled := fun s hmem => hs s (List.mem_cons_of_mem _ hmem)
    cases k with
    | yield =>
      obtain ⟨ls', hls, rfl⟩ := Option.map_eq_some_iff.mp h
      exact congrArg _ (ih hls hrest)
    | await =>
      simp only [visit] at h
      split at h
      · cases h
      · obtain ⟨ls', hls, rfl⟩ := Option.map_eq_some_iff.mp h
        exact congrArg _ (ih hls hrest)

theorem unique_iff (async : Bool) (ss : List Suspension) :
    Unique (visit async 0 ss) ↔ Refused async ss ∨ Orderly ss := by
  cases hv : visit async 0 ss with
  | none =>
    have hr : Refused async ss := (visit_eq_none_iff async 0 ss).mp hv
    simp [Unique, hr]
  | some ls =>
    have hr : ¬ Refused async ss := by
      intro hr
      rw [(visit_eq_none_iff async 0 ss).mpr hr] at hv
      cases hv
    have hone : Unique (some ls) ↔ (∀ l ∈ ls, l ≠ []) ∧ ls.Nodup := by simp [Unique]
    rw [hone, or_iff_right hr, Orderly]
    by_cases hs : ∀ s ∈ ss, s.travelled
    · -- The labels are those of the numbers.
      rw [visit_eq hv hs, List.nodup_map_iff label_injective, numbers_nodup_iff]
      refine and_congr_left fun _ => iff_of_true ?_ hs
      intro l hl
      obtain ⟨n, -, rfl⟩ := List.mem_map.mp hl
      exact label_ne_nil n
    · refine iff_of_false ?_ fun h => hs h.1
      intro h
      have hex : ∃ s ∈ ss, s.travelled = false := by simpa using hs
      exact h.1 [] (nil_mem_of_visit hv hex) rfl

/-- The suspensions of a function have labels that differ just if the function is refused, or `travel`
comes to all of its suspensions and to no `await` right behind a `yield`. -/
theorem labels_iff (async : Bool) (body : List Node) :
    (Unique (FuncNode.AddtoScope compiles async body) ↔
      Refused async (suspensionsNodes compiles body) ∨ Orderly (suspensionsNodes compiles body)) ∧
    (Unique (InlineFuncNode.calc compiles async body) ↔
      Refused async (suspensionsNodes compiles body) ∨ Orderly (suspensionsNodes compiles body)) :=
  ⟨unique_iff async _, unique_iff async _⟩

/-! ## A yield before an await -/

/-- `yield 1` and `await f()`. -/
def yieldAwait : List Node :=
  [.yield .lit, .exp (.await 0 (.callFunc false [] (.varBlock 1 ['f'] [] []) .null))]

/-- Both are labelled `.yield1`. -/
theorem label_twice : ¬ Unique (FuncNode.AddtoScope (fun _ _ => true) true yieldAwait) := by
  intro h
  have hnodup : [label 1, label 1].Nodup := (h [label 1, label 1] rfl).2
  exact (List.nodup_cons.mp hnodup).1 List.mem_cons_self

end CalcLang.Ast.Labels
