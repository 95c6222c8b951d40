import Mathlib.Data.Option.Basic

/-!
# Trying again after a step

A procedure looks whether it can do its work. If it cannot, it takes a step and tries again. A step may fail, and
then the procedure has failed.

`retry_iff` takes the recursion apart: the procedure comes to do its work in a state just if that is the first state
along the steps (`after`) in which it can.
-/

namespace CalcLang.Lib.Retry

variable {σ : Type} (can : σ → Bool) (step : σ → Option σ)

/-- Where the procedure does its work, if it tries no more than `n` times. -/
def retry : Nat → σ → Option σ
  | 0, _ => none
  | n + 1, s => if can s then some s else (step s).bind (retry n)

/-- The state after so many steps. -/
def after : Nat → σ → Option σ
  | 0, s => some s
  | k + 1, s => (step s).bind (after k)

variable {can step} {s t : σ} {n k : Nat}

theorem after_succ : after step (k + 1) s = (after step k s).bind step := by
  induction k generalizing s with
  | zero =>
    rw [after, after, Option.bind_some]
    cases step s <;> rfl
  | succ k ih =>
    rw [after, after, Option.bind_assoc]
    congr 1
    funext u
    exact ih

/-- `t` is the first state on the way from `s`, after `k` steps, in which the procedure can work. -/
structure First (can : σ → Bool) (step : σ → Option σ) (s t : σ) (k : Nat) : Prop where
  after_eq : after step k s = some t
  can_last : can t
  not_before : ∀ j < k, ∀ u, after step j s = some u → can u = false

theorem First.cons {u : σ} (h : First can step u t k) (hs : can s = false) (hu : step s = some u) :
    First can step s t (k + 1) where
  after_eq := by rw [after, hu, Option.bind_some, h.after_eq]
  can_last := h.can_last
  not_before j hj v hv := by
    cases j with
    | zero => exact Option.some.inj hv ▸ hs
    | succ j =>
      rw [after, hu, Option.bind_some] at hv
      exact h.not_before j (Nat.lt_of_succ_lt_succ hj) v hv

theorem first_of_retry (h : retry can step n s = some t) : ∃ k, First can step s t k := by
  induction n generalizing s with
  | zero => exact absurd h (Option.some_ne_none t ∘ Eq.symm)
  | succ n ih =>
    unfold retry at h
    split at h
    · rename_i hcan
      obtain rfl := Option.some.inj h
      exact ⟨0, rfl, hcan, fun j hj => absurd hj (Nat.not_lt_zero j)⟩
    · rename_i hcan
      obtain ⟨u, hu, ht⟩ := Option.bind_eq_some_iff.mp h
      obtain ⟨k, hk⟩ := ih ht
      exact ⟨k + 1, hk.cons (Bool.eq_false_iff.mpr hcan) hu⟩

theorem First.retry (h : First can step s t k) : retry can step (k + 1) s = some t := by
  induction k generalizing s with
  | zero =>
    obtain rfl := Option.some.inj h.after_eq
    exact if_pos h.can_last
  | succ k ih =>
    have hs : can s = false := h.not_before 0 (Nat.succ_pos k) s rfl
    obtain ⟨u, hu, ht⟩ := Option.bind_eq_some_iff.mp h.after_eq
    have hu' : First can step u t k :=
      ⟨ht, h.can_last, fun j hj v hv => h.not_before (j + 1) (Nat.succ_lt_succ hj) v (by rw [after, hu, Option.bind_some, hv])⟩
    rw [Retry.retry, if_neg (by simp [hs]), hu, Option.bind_some]
    exact ih hu'

theorem retry_iff : (∃ n, retry can step n s = some t) ↔ ∃ k, First can step s t k :=
  ⟨fun ⟨_, h⟩ => first_of_retry h, fun ⟨k, h⟩ => ⟨k + 1, h.retry⟩⟩

end CalcLang.Lib.Retry
