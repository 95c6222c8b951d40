import Mathlib.Data.Finset.Basic
import Mathlib.Logic.Relation
import Mathlib.Order.WellFoundedSet

/-!
# Waiting for one another

`r x y` says that `x` waits for `y`. If no party waits for itself through others, there
is, among finitely many, one that waits for nobody (`Acyclic.exists_last`); and this
stays so when one party begins to wait for another that does not wait for it
(`Acyclic.insert`).
-/

namespace CalcLang.Lib

open Relation

/-- Nobody waits for itself, through whomever. -/
def Acyclic {α : Type*} (r : α → α → Prop) : Prop := ∀ x, ¬ TransGen r x x

namespace Acyclic

variable {α : Type*} {r r' : α → α → Prop} {u : α}

theorem mono (h : Acyclic r) (hr : ∀ x y, r' x y → r x y) : Acyclic r' :=
  fun x hx => h x (TransGen.mono hr _ _ hx)

theorem of_rank (f : α → ℕ) (hf : ∀ x y, r x y → f y < f x) : Acyclic r := by
  intro x hx
  have hlt : TransGen (fun a b : ℕ => b < a) (f x) (f x) := hx.lift f hf
  exact Nat.lt_irrefl _ (transGen_eq_self (r := fun a b : ℕ => b < a) ▸ hlt)

theorem exists_last (h : Acyclic r) {S : Finset α} (hS : ∀ x ∈ S, ∀ y, r x y → y ∈ S) {x : α}
    (hx : x ∈ S) : ∃ y ∈ S, ∀ z, ¬ r y z := by
  have hstrict : IsStrictOrder α (fun a b => TransGen r b a) :=
    { irrefl := h, trans := fun _ _ _ hab hbc => hbc.trans hab }
  obtain ⟨y, hy, hlast⟩ := (S.wellFoundedOn (r := fun a b => TransGen r b a)).has_min
    Set.univ ⟨⟨x, hx⟩, trivial⟩
  refine ⟨y, y.2, fun z hz => ?_⟩
  exact hlast ⟨z, hS y y.2 z hz⟩ trivial (.single hz)

/-- A path where `u` may also wait for some that do not wait for it. -/
private theorem path (hr : ∀ x y, r' x y → r x y ∨ x = u ∧ ¬ ReflTransGen r y u) {x y : α}
    (h : TransGen r' x y) :
    TransGen r x y ∨
      ReflTransGen r x u ∧ ∃ v, ¬ ReflTransGen r v u ∧ ReflTransGen r v y := by
  induction h with
  | single hxy =>
    rcases hr _ _ hxy with hxy | ⟨rfl, hne⟩
    · exact .inl (.single hxy)
    · exact .inr ⟨.refl, _, hne, .refl⟩
  | tail _ hyz ih =>
    rcases hr _ _ hyz with hyz | ⟨rfl, hne⟩
    · exact ih.imp (·.tail hyz) (fun ⟨hxu, v, hv, hvy⟩ => ⟨hxu, v, hv, hvy.tail hyz⟩)
    · rcases ih with hp | ⟨-, v, hv, hvu⟩
      · exact .inr ⟨hp.to_reflTransGen, _, hne, .refl⟩
      · exact absurd hvu hv

theorem insert (h : Acyclic r) (hr : ∀ x y, r' x y → r x y ∨ x = u ∧ ¬ ReflTransGen r y u) :
    Acyclic r' := by
  intro x hx
  rcases path hr hx with hp | ⟨hxu, v, hv, hvx⟩
  · exact h x hp
  · exact hv (hvx.trans hxu)

end Acyclic

end CalcLang.Lib
