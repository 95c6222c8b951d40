import Mathlib.Logic.Function.Basic

/-!
# Mutual exclusion

`Guards mu inside`: the threads between their lock and their unlock are exactly the
holder of the mutex. It is kept by a thread that moves without locking, by one that
locks a free mutex, and by one that unlocks; and under it, two threads inside are the
same one.
-/

namespace CalcLang.Lib

variable {θ : Type*} {mu : Option θ} {inside inside' : θ → Bool} {t u : θ}

/-- A thread is inside exactly when it holds the mutex. -/
def Guards (mu : Option θ) (inside : θ → Bool) : Prop := ∀ t, inside t = true ↔ mu = some t

namespace Guards

/-- Nobody is inside a free mutex. -/
theorem free (h : ∀ t, inside t = false) : Guards none inside := by
  intro t
  rw [h t]
  exact ⟨fun hf => absurd hf Bool.false_ne_true, fun hn => absurd hn.symm (Option.some_ne_none t)⟩

/-- Two threads are never inside together. -/
theorem eq (h : Guards mu inside) (ht : inside t = true) (hu : inside u = true) : t = u :=
  Option.some.inj (((h t).mp ht).symm.trans ((h u).mp hu))

/-- Nobody else is inside. -/
theorem outside (h : Guards mu inside) (ht : inside t = true) (hu : u ≠ t) :
    inside u = false := by
  rw [← Bool.not_eq_true]
  intro hin
  exact hu (h.eq hin ht)

/-- Threads that move without passing a lock or an unlock. -/
theorem stay (h : Guards mu inside) (hall : ∀ u, inside' u = inside u) : Guards mu inside' := by
  intro u
  rw [hall u]
  exact h u

/-- `t` locks a free mutex. -/
theorem enter (h : Guards none inside) (hother : ∀ u, u ≠ t → inside' u = inside u)
    (ht : inside' t = true) : Guards (some t) inside' := by
  intro u
  by_cases hu : u = t
  · subst hu
    exact ⟨fun _ => rfl, fun _ => ht⟩
  · rw [hother u hu, h u]
    exact ⟨fun hn => absurd hn.symm (Option.some_ne_none u),
      fun hs => absurd (Option.some.inj hs).symm hu⟩

/-- `t` unlocks. -/
theorem leave (h : Guards mu inside) (hin : inside t = true)
    (hother : ∀ u, u ≠ t → inside' u = inside u) (ht : inside' t = false) :
    Guards none inside' := by
  apply free
  intro u
  by_cases hu : u = t
  · rw [hu, ht]
  · rw [hother u hu]
    exact h.outside hin hu

end Guards

end CalcLang.Lib
