import Mathlib.Data.List.Basic

/-!
# Programs that call a function which may not return

A program has a state, and calls one function. The calls are recorded, each by its argument. `ans v` is what the
function returns for `v`, and `none` if it never does; the program hangs then. It can also end early by itself.

`Sound` says of a program that it hangs just if it calls the function where it does not return, that `P` holds
of all arguments, and `Q` of the result. It goes through sequencing (`Sound.bind`), so for a program that is put
together by recursion it is an induction along the text.
-/

namespace CalcLang.Lib.Calls

/-- How a program ends. -/
inductive Outcome (σ α : Type)
  | ok (a : α) (s : σ)
  | panic
  | hang

/-- A program: from a state to the arguments of its calls and its end. -/
def Prog (ν σ α : Type) := σ → List ν × Outcome σ α

variable {ν σ α β : Type}

namespace Prog

def pure (a : α) : Prog ν σ α := fun s => ([], .ok a s)

def bind (x : Prog ν σ α) (f : α → Prog ν σ β) : Prog ν σ β := fun s =>
  match x s with
  | (vs, .ok a s') => (vs ++ (f a s').1, (f a s').2)
  | (vs, .panic) => (vs, .panic)
  | (vs, .hang) => (vs, .hang)

instance : Monad (Prog ν σ) where
  pure := Prog.pure
  bind := Prog.bind

def panic : Prog ν σ α := fun _ => ([], .panic)

def get : Prog ν σ σ := fun s => ([], .ok s s)

def modify (f : σ → σ) : Prog ν σ Unit := fun s => ([], .ok () (f s))

/-- A call. -/
def call (ans : ν → Option α) (v : ν) : Prog ν σ α := fun s =>
  match ans v with
  | some a => ([v], .ok a s)
  | none => ([v], .hang)

end Prog

/-- From any state the program hangs just if one of its calls does not return, its arguments are in `P` and
its result is in `Q`. -/
structure Sound (stuck P : ν → Prop) (Q : α → Prop) (x : Prog ν σ α) : Prop where
  hangs : ∀ s, (x s).2 = .hang ↔ ∃ v ∈ (x s).1, stuck v
  args : ∀ s, ∀ v ∈ (x s).1, P v
  result : ∀ s a s', (x s).2 = .ok a s' → Q a

namespace Sound

variable {stuck P : ν → Prop} {Q : α → Prop} {R : β → Prop}

theorem pure {a : α} (ha : Q a) : Sound stuck P Q (Pure.pure a : Prog ν σ α) where
  hangs s := by simp [Pure.pure, Prog.pure]
  args s := by simp [Pure.pure, Prog.pure]
  result s b s' h := by
    simp only [Pure.pure, Prog.pure, Outcome.ok.injEq] at h
    exact h.1 ▸ ha

theorem bind {x : Prog ν σ α} {f : α → Prog ν σ β} (hx : Sound stuck P Q x) (hf : ∀ a, Q a → Sound stuck P R (f a)) :
    Sound stuck P R (x >>= f) where
  hangs s := by
    have hs := hx.hangs s
    simp only [Bind.bind, Prog.bind]
    rcases h : x s with ⟨vs, ⟨a, s'⟩ | _ | _⟩
    · have ha : Q a := hx.result s a s' (by rw [h])
      rw [h] at hs
      simp only [reduceCtorEq, false_iff, not_exists, not_and] at hs
      simp only [(hf a ha).hangs s', List.mem_append, or_and_right, exists_or]
      refine ⟨Or.inr, fun h => h.resolve_left ?_⟩
      rintro ⟨v, hv, hstuck⟩
      exact hs v hv hstuck
    · rw [h] at hs
      simpa using hs
    · rw [h] at hs
      simpa using hs
  args s := by
    have hs := hx.args s
    simp only [Bind.bind, Prog.bind]
    rcases h : x s with ⟨vs, ⟨a, s'⟩ | _ | _⟩
    · have ha : Q a := hx.result s a s' (by rw [h])
      rw [h] at hs
      exact fun v hv => (List.mem_append.mp hv).elim (hs v) ((hf a ha).args s' v)
    · rwa [h] at hs
    · rwa [h] at hs
  result s b t hb := by
    simp only [Bind.bind, Prog.bind] at hb
    rcases h : x s with ⟨vs, ⟨a, s'⟩ | _ | _⟩ <;> rw [h] at hb
    · exact (hf a (hx.result s a s' (by rw [h]))).result s' b t hb
    · exact absurd hb (by simp)
    · exact absurd hb (by simp)

theorem panic : Sound stuck P Q (Prog.panic : Prog ν σ α) where
  hangs s := by simp [Prog.panic]
  args s := by simp [Prog.panic]
  result s a s' h := by simp [Prog.panic] at h

theorem get : Sound stuck P (fun _ => True) (Prog.get : Prog ν σ σ) where
  hangs s := by simp [Prog.get]
  args s := by simp [Prog.get]
  result _ _ _ _ := trivial

theorem modify (f : σ → σ) : Sound stuck P (fun _ => True) (Prog.modify f : Prog ν σ Unit) where
  hangs s := by simp [Prog.modify]
  args s := by simp [Prog.modify]
  result _ _ _ _ := trivial

theorem call {ans : ν → Option α} {v : ν} (hstuck : ans v = none ↔ stuck v) (hv : P v) (hans : ∀ a, ans v = some a → Q a) :
    Sound stuck P Q (Prog.call ans v : Prog ν σ α) where
  hangs s := by
    simp only [Prog.call]
    cases h : ans v with
    | none => simp [hstuck.mp h]
    | some a => simpa [h] using hstuck
  args s := by
    simp only [Prog.call]
    cases h : ans v <;> simpa using hv
  result s a s' ha := by
    simp only [Prog.call] at ha
    cases h : ans v with
    | none => simp [h] at ha
    | some b =>
      simp only [h, Outcome.ok.injEq] at ha
      exact ha.1 ▸ hans b h

end Sound

end CalcLang.Lib.Calls
