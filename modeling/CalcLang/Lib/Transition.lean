import Mathlib.Data.List.Basic

/-!
# Labelled machines, guarded reachability, and the invariant rule

A `Machine` is a labelled transition system whose step is a partial *function*
of the label: all nondeterminism (which thread moves, which chunk arrives) is
in the label, so a schedule is a list of labels and can be executed.

`Reach M ok` is reachability along steps that all meet `ok`. With `ok` trivially
true it is plain reachability; a restricting `ok` says under which steps a
property survives. `Reach.invariant` is the only induction over runs that the
developments built on this file need: an invariant of one step is an invariant
of every reachable state.
-/

namespace CalcLang.Lib

/-- A labelled transition system with a partial step function. -/
structure Machine (σ : Type*) (ι : Type*) where
  /-- The state every run starts from. -/
  start : σ
  /-- What a label does to a state; `none` where the step is not enabled. -/
  step : σ → ι → Option σ

namespace Machine

variable {σ ι : Type*}

/-- Execute a schedule; `none` as soon as one of its steps is not enabled. -/
def exec (M : Machine σ ι) : σ → List ι → Option σ
  | s, [] => some s
  | s, i :: is => (M.step s i).bind fun s' => M.exec s' is

/-- States reached from the start by steps that all meet `ok`. -/
inductive Reach (M : Machine σ ι) (ok : σ → ι → Prop) : σ → Prop
  | start : Reach M ok M.start
  | step {s s' : σ} {i : ι} :
      Reach M ok s → ok s i → M.step s i = some s' → Reach M ok s'

variable {M : Machine σ ι} {ok ok' : σ → ι → Prop}

/-- The invariant rule: what holds at the start and is kept by every step that
meets `ok` holds in every state those steps reach. -/
theorem Reach.invariant {P : σ → Prop} (h0 : P M.start)
    (hstep : ∀ s i s', P s → ok s i → M.step s i = some s' → P s') {s : σ}
    (h : Reach M ok s) : P s := by
  induction h with
  | start => exact h0
  | step _ hok hs ih => exact hstep _ _ _ ih hok hs

/-- What a state leads to by steps that all meet `ok`. -/
inductive Leads (M : Machine σ ι) (ok : σ → ι → Prop) (s : σ) : σ → Prop
  | refl : Leads M ok s s
  | step {t u : σ} {i : ι} : Leads M ok s t → ok t i → M.step t i = some u → Leads M ok s u

/-- The invariant rule from an arbitrary state on. -/
theorem Leads.invariant {P : σ → Prop} {s t : σ} (h : Leads M ok s t) (h0 : P s)
    (hstep : ∀ s i s', P s → ok s i → M.step s i = some s' → P s') : P t := by
  induction h with
  | refl => exact h0
  | step _ hok hs ih => exact hstep _ _ _ ih hok hs

/-- A schedule that executes reaches its final state. -/
theorem Reach.exec {s s' : σ} (h : Reach M (fun _ _ => True) s) {is : List ι}
    (he : M.exec s is = some s') : Reach M (fun _ _ => True) s' := by
  induction is generalizing s with
  | nil =>
    simp only [Machine.exec, Option.some.injEq] at he
    exact he ▸ h
  | cons i is ih =>
    simp only [Machine.exec, Option.bind_eq_some_iff] at he
    obtain ⟨s₁, hs₁, he⟩ := he
    exact ih (.step h trivial hs₁) he

end Machine

end CalcLang.Lib
