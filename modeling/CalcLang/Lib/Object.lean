import Mathlib.Data.List.Basic

/-!
# Objects and refinement

An object is a state with operations that answer, or that are refused: a data
structure seen from outside. `Refines R` says that an object does what an
abstract one does, as seen through `R`: wherever the abstract object performs an
operation, the other one performs it too and gives the same answer. What it says
of one operation, `Refines.run` says of every sequence of them.
-/

namespace CalcLang.Lib

variable {σ α ι ο : Type*}

/-- A state with operations that answer; `none` is an operation refused. -/
structure Object (σ : Type*) (ι : Type*) (ο : Type*) where
  call : σ → ι → Option (ο × σ)

namespace Object

/-- Call the operations one after another and collect the answers. -/
def run (O : Object σ ι ο) : σ → List ι → Option (List ο × σ)
  | s, [] => some ([], s)
  | s, i :: is => (O.call s i).bind fun (o, s') =>
      (O.run s' is).map fun (os, s'') => (o :: os, s'')

/-- What `A` performs, `C` performs with the same answer, as seen through `R`. -/
def Refines (C : Object σ ι ο) (A : Object α ι ο) (R : σ → α → Prop) : Prop :=
  ∀ s a i o a', R s a → A.call a i = some (o, a') → ∃ s', C.call s i = some (o, s') ∧ R s' a'

/-- A refinement holds along every sequence of operations. -/
theorem Refines.run {C : Object σ ι ο} {A : Object α ι ο} {R : σ → α → Prop}
    (h : C.Refines A R) {is : List ι} {s : σ} {a a' : α} {os : List ο} (hR : R s a)
    (hrun : A.run a is = some (os, a')) : ∃ s', C.run s is = some (os, s') ∧ R s' a' := by
  induction is generalizing s a os with
  | nil =>
    simp only [Object.run, Option.some.injEq, Prod.mk.injEq] at hrun ⊢
    obtain ⟨rfl, rfl⟩ := hrun
    exact ⟨s, ⟨rfl, rfl⟩, hR⟩
  | cons i is ih =>
    simp only [Object.run, Option.bind_eq_some_iff, Option.map_eq_some_iff] at hrun
    obtain ⟨⟨o, a₁⟩, hcall, ⟨os', a₂⟩, hrest, heq⟩ := hrun
    obtain ⟨rfl, rfl⟩ := Prod.mk.inj heq
    obtain ⟨s₁, hs₁, hR₁⟩ := h s a i o a₁ hR hcall
    obtain ⟨s₂, hs₂, hR₂⟩ := ih hR₁ hrest
    refine ⟨s₂, ?_, hR₂⟩
    simp only [Object.run, hs₁, hs₂, Option.bind_some, Option.map_some]

end Object

end CalcLang.Lib
