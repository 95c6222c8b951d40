import CalcLang.Lib.Transition
import Mathlib.Algebra.BigOperators.Group.Finset.Basic
import Mathlib.Algebra.BigOperators.Ring.Finset
import Mathlib.Algebra.Order.BigOperators.Group.Finset
import Mathlib.Data.Fintype.BigOperators

/-!
# Machines that come to rest

A machine of finitely many parties is at rest when none of them can move. `tally` weighs the places of the
parties, so that a move of one party is a small change of a sum (`tally_update`).

A rank that every move of a party makes smaller, and that what comes from outside raises by no more than `k`,
bounds the length of a run by how often something has come from outside (`exec_length_le`).
-/

namespace CalcLang.Lib

/-! ## Weighing the parties -/

section Tally

variable {α β : Type*} [Fintype α] {w : β → ℕ} {f : α → β} {a : α} {b : β}

/-- The weight of all parties together. -/
def tally (w : β → ℕ) (f : α → β) : ℕ := ∑ x, w (f x)

/-- One party moves. -/
theorem tally_update [DecidableEq α] (w : β → ℕ) (f : α → β) (a : α) (b : β) :
    tally w (Function.update f a b) + w (f a) = tally w f + w b := by
  have hnew := Finset.add_sum_erase Finset.univ (fun x => w (Function.update f a b x)) (Finset.mem_univ a)
  have hold := Finset.add_sum_erase Finset.univ (fun x => w (f x)) (Finset.mem_univ a)
  have hrest : ∑ x ∈ Finset.univ.erase a, w (Function.update f a b x) = ∑ x ∈ Finset.univ.erase a, w (f x) := by
    apply Finset.sum_congr rfl
    intro x hx
    rw [Function.update_of_ne (Finset.ne_of_mem_erase hx)]
  rw [hrest] at hnew
  simp only [Function.update_self] at hnew
  unfold tally
  omega

/-- The parties weigh nothing if none of them does. -/
theorem tally_eq_zero (h : ∀ x, w (f x) = 0) : tally w f = 0 := Finset.sum_eq_zero fun x _ => h x

end Tally

/-! ## Runs of bounded length -/

namespace Machine

variable {σ ι : Type*} {M : Machine σ ι}

/-- Every step from inside takes something off the rank, and one from outside adds `k` at most. -/
theorem exec_length_le {P : σ → Prop} {rank : σ → ℕ} {outside : ι → Bool} {k : ℕ}
    (hkeep : ∀ s i s', P s → M.step s i = some s' → P s')
    (hrank : ∀ s i s', P s → M.step s i = some s' → rank s' + 1 ≤ rank s + if outside i then k + 1 else 0)
    {s s' : σ} (hs : P s) {is : List ι} (he : M.exec s is = some s') :
    is.length + rank s' ≤ rank s + (k + 1) * is.countP outside := by
  induction is generalizing s with
  | nil =>
    simp only [Machine.exec, Option.some.injEq] at he
    subst he
    simp
  | cons i is ih =>
    simp only [Machine.exec, Option.bind_eq_some_iff] at he
    obtain ⟨s₁, hs₁, he⟩ := he
    have hstep := hrank s i s₁ hs hs₁
    have hrest := ih (hkeep s i s₁ hs hs₁) he
    rw [List.length_cons, List.countP_cons]
    by_cases hi : outside i = true
    · simp only [hi, if_true] at hstep ⊢
      rw [Nat.mul_add]
      omega
    · simp only [hi] at hstep ⊢
      simp only [Bool.false_eq_true, if_false, Nat.add_zero] at hstep ⊢
      omega

/-- A schedule of labels that are always allowed reaches its final state. -/
theorem Reach.exec_ok {ok : σ → ι → Prop} {s s' : σ} (h : Reach M ok s) {is : List ι}
    (he : M.exec s is = some s') (hok : ∀ i ∈ is, ∀ t, ok t i) : Reach M ok s' := by
  induction is generalizing s with
  | nil =>
    simp only [Machine.exec, Option.some.injEq] at he
    exact he ▸ h
  | cons i is ih =>
    simp only [Machine.exec, Option.bind_eq_some_iff] at he
    obtain ⟨s₁, hs₁, he⟩ := he
    exact ih (.step h (hok i List.mem_cons_self s) hs₁) he fun j hj => hok j (List.mem_cons_of_mem i hj)

end Machine

end CalcLang.Lib
