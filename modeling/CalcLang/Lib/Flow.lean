import Mathlib.Data.List.Basic

/-!
# Control flow: what a program performs, and when two programs perform the same

A `Flow` says, at each control point, what happens next: an action, a test with
two continuations, a silent jump, a return, or nothing (`stuck`). Both ends of a
translation are flows: structured source code, whose points are "the rest of the
program", and a graph of basic blocks.

`Performs F s t`: started at `s`, the first events are `t`. The set of these
finite sequences is the meaning of a point. The outcome of a test is part of its
event, so equality of the two sets says that for *every* sequence of outcomes
the two programs perform the same events, whether or not they terminate.

`Bisim.agree` is the rule for proving agreement: relate points that may each
jump silently to points with matching actions. The lemmas on `Agree` go the
other way, from agreement at two points to agreement at their successors.
-/

namespace CalcLang.Lib

/-- What happens at a control point. -/
inductive Action (α σ : Type*) where
  | act (a : α) (next : σ)
  | test (c : α) (yes no : σ)
  | goto (next : σ)
  | ret
  | stuck
deriving DecidableEq, Repr

/-- What an observer sees of it. -/
inductive Event (α : Type*) where
  | act (a : α)
  | test (c : α) (b : Bool)
  | ret
deriving DecidableEq, Repr

/-- A deterministic program, given by what each control point does. -/
abbrev Flow (α σ : Type*) := σ → Action α σ

namespace Flow

variable {α σ τ : Type*} {F : Flow α σ} {F' : Flow α τ} {s s' u : σ}

/-- Started at `s`, the program may perform `t` first. -/
inductive Performs (F : Flow α σ) : σ → List (Event α) → Prop
  | start (s : σ) : Performs F s []
  | act {s s' : σ} {a : α} {t : List (Event α)} :
      F s = .act a s' → Performs F s' t → Performs F s (.act a :: t)
  | test {s y n : σ} {c : α} (b : Bool) {t : List (Event α)} :
      F s = .test c y n → Performs F (if b then y else n) t → Performs F s (.test c b :: t)
  | goto {s s' : σ} {t : List (Event α)} :
      F s = .goto s' → Performs F s' t → Performs F s t
  | ret {s : σ} : F s = .ret → Performs F s [.ret]

/-- Silent jumps. -/
inductive Goes (F : Flow α σ) : σ → σ → Prop
  | refl (s : σ) : Goes F s s
  | head {s s' u : σ} : F s = .goto s' → Goes F s' u → Goes F s u

theorem Goes.single (h : F s = .goto s') : F.Goes s s' := .head h (.refl s')

/-- Points a run may pass through. -/
inductive Visits (F : Flow α σ) : σ → σ → Prop
  | refl (s : σ) : Visits F s s
  | act {s s' u : σ} {a : α} : F s = .act a s' → Visits F s' u → Visits F s u
  | yes {s y n u : σ} {c : α} : F s = .test c y n → Visits F y u → Visits F s u
  | no {s y n u : σ} {c : α} : F s = .test c y n → Visits F n u → Visits F s u
  | goto {s s' u : σ} : F s = .goto s' → Visits F s' u → Visits F s u

theorem Visits.trans (h : F.Visits s s') (h' : F.Visits s' u) : F.Visits s u := by
  induction h with
  | refl s => exact h'
  | act hs _ ih => exact .act hs (ih h')
  | yes hs _ ih => exact .yes hs (ih h')
  | no hs _ ih => exact .no hs (ih h')
  | goto hs _ ih => exact .goto hs (ih h')

/-! ## What the action at a point says about its runs -/

theorem performs_goto_iff (h : F s = .goto s') {t : List (Event α)} :
    F.Performs s t ↔ F.Performs s' t := by
  refine ⟨fun ht => ?_, .goto h⟩
  cases ht with
  | start => exact .start s'
  | act hs _ => cases h.symm.trans hs
  | test b hs _ => cases h.symm.trans hs
  | goto hs ht =>
    cases h.symm.trans hs
    exact ht
  | ret hs => cases h.symm.trans hs

theorem performs_act_iff {a : α} (h : F s = .act a s') {e : Event α} {t : List (Event α)} :
    F.Performs s (e :: t) ↔ e = .act a ∧ F.Performs s' t := by
  constructor
  · intro ht
    cases ht with
    | act hs ht =>
      cases h.symm.trans hs
      exact ⟨rfl, ht⟩
    | test b hs _ => cases h.symm.trans hs
    | goto hs _ => cases h.symm.trans hs
    | ret hs => cases h.symm.trans hs
  · rintro ⟨rfl, ht⟩
    exact .act h ht

theorem performs_test_iff {c : α} {y n : σ} (h : F s = .test c y n) {e : Event α}
    {t : List (Event α)} :
    F.Performs s (e :: t) ↔ ∃ b, e = .test c b ∧ F.Performs (if b then y else n) t := by
  constructor
  · intro ht
    cases ht with
    | act hs _ => cases h.symm.trans hs
    | test b hs ht =>
      cases h.symm.trans hs
      exact ⟨b, rfl, ht⟩
    | goto hs _ => cases h.symm.trans hs
    | ret hs => cases h.symm.trans hs
  · rintro ⟨b, rfl, ht⟩
    exact .test b h ht

theorem Goes.performs_iff (h : F.Goes s s') {t : List (Event α)} :
    F.Performs s t ↔ F.Performs s' t := by
  induction h with
  | refl s => exact Iff.rfl
  | head hs _ ih => rw [performs_goto_iff hs, ih]

/-! ## Agreement -/

/-- The two programs perform the same events, whatever the tests come out to. -/
def Agree (F : Flow α σ) (s : σ) (F' : Flow α τ) (s' : τ) : Prop :=
  ∀ t, F.Performs s t ↔ F'.Performs s' t

theorem Agree.goto_left {s' : τ} {u : σ} (h : Agree F s F' s') (hs : F s = .goto u) :
    Agree F u F' s' := fun t => (performs_goto_iff hs).symm.trans (h t)

theorem Agree.goto_right {s' u : τ} (h : Agree F s F' s') (hs : F' s' = .goto u) :
    Agree F s F' u := fun t => (h t).trans (performs_goto_iff hs)

theorem Agree.act {s' v : τ} {u : σ} {a : α} (h : Agree F s F' s') (hs : F s = .act a u)
    (hs' : F' s' = .act a v) : Agree F u F' v := by
  intro t
  have ht := h (.act a :: t)
  rw [performs_act_iff hs, performs_act_iff hs'] at ht
  simpa using ht

theorem Agree.test {s' y' n' : τ} {y n : σ} {c : α} (h : Agree F s F' s')
    (hs : F s = .test c y n) (hs' : F' s' = .test c y' n') :
    Agree F y F' y' ∧ Agree F n F' n' := by
  have hb : ∀ (b : Bool) t, F.Performs (if b then y else n) t ↔
      F'.Performs (if b then y' else n') t := by
    intro b t
    have ht := h (.test c b :: t)
    rw [performs_test_iff hs, performs_test_iff hs'] at ht
    simpa using ht
  exact ⟨hb true, hb false⟩

/-! ## The first event -/

/-- A run may begin with an event of `x`. -/
def Opens (F : Flow α σ) (s : σ) (x : α) : Prop :=
  F.Performs s [.act x] ∨ ∃ b, F.Performs s [.test x b]

theorem opens_goto_iff (h : F s = .goto s') {x : α} : F.Opens s x ↔ F.Opens s' x := by
  simp only [Opens, performs_goto_iff h]

theorem opens_act_iff {a x : α} (h : F s = .act a s') : F.Opens s x ↔ x = a := by
  simp only [Opens, performs_act_iff h, Event.act.injEq, Performs.start, and_true, reduceCtorEq,
    exists_const, or_false]

theorem opens_test_iff {c x : α} {y n : σ} (h : F s = .test c y n) : F.Opens s x ↔ x = c := by
  simp only [Opens, performs_test_iff h, reduceCtorEq, exists_const, Event.test.injEq,
    Performs.start, and_true, false_or]
  constructor
  · rintro ⟨_, _, hx, -⟩
    exact hx
  · rintro rfl
    exact ⟨true, true, rfl, rfl⟩

theorem Agree.opens {s' : τ} (h : Agree F s F' s') {x : α} (hx : F.Opens s x) : F'.Opens s' x :=
  hx.imp (h _).mp (Exists.imp fun _ => (h _).mp)

/-! ## The bisimulation rule -/

/-- The two actions match, with related continuations. -/
inductive Match (R : σ → τ → Prop) : Action α σ → Action α τ → Prop
  | act {a : α} {s : σ} {s' : τ} : R s s' → Match R (.act a s) (.act a s')
  | test {c : α} {y n : σ} {y' n' : τ} :
      R y y' → R n n' → Match R (.test c y n) (.test c y' n')
  | goto {s : σ} {s' : τ} : R s s' → Match R (.goto s) (.goto s')
  | ret : Match R .ret .ret

/-- `R` relates points that jump silently to points with matching actions. -/
def Bisim (F : Flow α σ) (F' : Flow α τ) (R : σ → τ → Prop) : Prop :=
  ∀ s s', R s s' → ∃ u u', F.Goes s u ∧ F'.Goes s' u' ∧ Match R (F u) (F' u')

theorem Match.swap {R : σ → τ → Prop} {x : Action α σ} {y : Action α τ} (h : Match R x y) :
    Match (fun s' s => R s s') y x := by
  cases h with
  | act h => exact .act h
  | test hy hn => exact .test hy hn
  | goto h => exact .goto h
  | ret => exact .ret

theorem Bisim.swap {R : σ → τ → Prop} (h : Bisim F F' R) : Bisim F' F fun s' s => R s s' := by
  intro s' s hR
  obtain ⟨u, u', hu, hu', hm⟩ := h s s' hR
  exact ⟨u', u, hu', hu, hm.swap⟩

/-- `Performs`, with a bound on the number of steps taken. -/
private inductive PerformsIn (F : Flow α σ) : Nat → σ → List (Event α) → Prop
  | start (n : Nat) (s : σ) : PerformsIn F n s []
  | act {n : Nat} {s s' : σ} {a : α} {t : List (Event α)} :
      F s = .act a s' → PerformsIn F n s' t → PerformsIn F (n + 1) s (.act a :: t)
  | test {n : Nat} {s y z : σ} {c : α} (b : Bool) {t : List (Event α)} :
      F s = .test c y z → PerformsIn F n (if b then y else z) t →
        PerformsIn F (n + 1) s (.test c b :: t)
  | goto {n : Nat} {s s' : σ} {t : List (Event α)} :
      F s = .goto s' → PerformsIn F n s' t → PerformsIn F (n + 1) s t
  | ret {n : Nat} {s : σ} : F s = .ret → PerformsIn F n s [.ret]

private theorem Performs.bounded {t : List (Event α)} (h : F.Performs s t) :
    ∃ n, PerformsIn F n s t := by
  induction h with
  | start s => exact ⟨0, .start 0 s⟩
  | act hs _ ih =>
    obtain ⟨n, hn⟩ := ih
    exact ⟨n + 1, .act hs hn⟩
  | test b hs _ ih =>
    obtain ⟨n, hn⟩ := ih
    exact ⟨n + 1, .test b hs hn⟩
  | goto hs _ ih =>
    obtain ⟨n, hn⟩ := ih
    exact ⟨n + 1, .goto hs hn⟩
  | ret hs => exact ⟨0, .ret hs⟩

/-- Silent jumps only use steps up. -/
private theorem PerformsIn.goes {n : Nat} {t : List (Event α)} (h : PerformsIn F n s t)
    (hg : F.Goes s u) : ∃ m, m ≤ n ∧ PerformsIn F m u t := by
  induction hg generalizing n with
  | refl s => exact ⟨n, Nat.le_refl n, h⟩
  | head hs _ ih =>
    cases h with
    | start n => exact ⟨n, Nat.le_refl n, .start n _⟩
    | act hs' _ => cases hs.symm.trans hs'
    | test b hs' _ => cases hs.symm.trans hs'
    | goto hs' ht =>
      cases hs.symm.trans hs'
      obtain ⟨m, hm, hu⟩ := ih ht
      exact ⟨m, by omega, hu⟩
    | ret hs' => cases hs.symm.trans hs'

private theorem Bisim.performsIn {R : σ → τ → Prop} (h : Bisim F F' R) (n : Nat) :
    ∀ {s : σ} {s' : τ} {t : List (Event α)}, R s s' → PerformsIn F n s t → F'.Performs s' t := by
  induction n using Nat.strongRecOn with
  | ind n ih =>
    intro s s' t hR ht
    obtain ⟨u, u', hu, hu', hm⟩ := h s s' hR
    obtain ⟨m, hmn, hrun⟩ := ht.goes hu
    rw [hu'.performs_iff]
    cases hrun with
    | start => exact .start u'
    | @act k _ _ _ _ hs hrest =>
      rw [hs] at hm
      cases hF' : F' u' <;> rw [hF'] at hm <;> cases hm
      next hR' => exact .act hF' (ih k (by omega) hR' hrest)
    | @test k _ _ _ _ b _ hs hrest =>
      rw [hs] at hm
      cases hF' : F' u' <;> rw [hF'] at hm <;> cases hm
      next hy hn =>
        refine .test b hF' (ih k (by omega) ?_ hrest)
        cases b
        · exact hn
        · exact hy
    | @goto k _ _ _ hs hrest =>
      rw [hs] at hm
      cases hF' : F' u' <;> rw [hF'] at hm <;> cases hm
      next hR' => exact .goto hF' (ih k (by omega) hR' hrest)
    | ret hs =>
      rw [hs] at hm
      cases hF' : F' u' <;> rw [hF'] at hm <;> cases hm
      exact .ret hF'

/-- **Bisimilar points agree.** -/
theorem Bisim.agree {R : σ → τ → Prop} (h : Bisim F F' R) {s' : τ} (hR : R s s') :
    Agree F s F' s' := by
  intro t
  constructor
  · intro ht
    obtain ⟨n, hn⟩ := ht.bounded
    exact h.performsIn n hR hn
  · intro ht
    obtain ⟨n, hn⟩ := ht.bounded
    exact h.swap.performsIn n hR hn

/-- On the way to a matched point, or at it. -/
private def Ahead (F : Flow α σ) (F' : Flow α τ) (R : σ → τ → Prop) (s : σ) : Prop :=
  ∃ u u', F.Goes s u ∧ Match R (F u) (F' u')

private theorem Bisim.ahead {R : σ → τ → Prop} (h : Bisim F F' R) {v : σ} (hv : F.Visits s v) :
    Ahead F F' R s → Ahead F F' R v := by
  have hnext : ∀ {s : σ} {s' : τ}, R s s' → Ahead F F' R s := by
    intro s s' hR
    obtain ⟨u, u', hu, -, hm⟩ := h s s' hR
    exact ⟨u, u', hu, hm⟩
  induction hv with
  | refl s => exact id
  -- at an action or a test nothing is skipped, so it is here that `F'` was matched
  | act hs _ ih =>
    rintro ⟨u, u', hu, hm⟩
    cases hu with
    | refl =>
      rw [hs] at hm
      cases hF' : F' u' <;> rw [hF'] at hm <;> cases hm
      next hR' => exact ih (hnext hR')
    | head hs' _ => cases hs.symm.trans hs'
  | yes hs _ ih =>
    rintro ⟨u, u', hu, hm⟩
    cases hu with
    | refl =>
      rw [hs] at hm
      cases hF' : F' u' <;> rw [hF'] at hm <;> cases hm
      next hy _ => exact ih (hnext hy)
    | head hs' _ => cases hs.symm.trans hs'
  | no hs _ ih =>
    rintro ⟨u, u', hu, hm⟩
    cases hu with
    | refl =>
      rw [hs] at hm
      cases hF' : F' u' <;> rw [hF'] at hm <;> cases hm
      next _ hn => exact ih (hnext hn)
    | head hs' _ => cases hs.symm.trans hs'
  | goto hs _ ih =>
    rintro ⟨u, u', hu, hm⟩
    cases hu with
    | refl =>
      rw [hs] at hm
      cases hF' : F' u' <;> rw [hF'] at hm <;> cases hm
      next hR' => exact ih (hnext hR')
    -- the matched point is further on
    | head hs' hu =>
      cases hs.symm.trans hs'
      exact ih ⟨u, u', hu, hm⟩

/-- **Bisimilar points never get stuck.** -/
theorem Bisim.not_stuck {R : σ → τ → Prop} (h : Bisim F F' R) {s' : τ} (hR : R s s') {v : σ}
    (hv : F.Visits s v) : F v ≠ .stuck := by
  obtain ⟨u, u', hu, -, hm⟩ := h s s' hR
  obtain ⟨w, w', hw, hmw⟩ := h.ahead hv ⟨u, u', hu, hm⟩
  intro hstuck
  cases hw with
  | refl =>
    rw [hstuck] at hmw
    cases hmw
  | head hs _ => cases hstuck.symm.trans hs

end Flow

end CalcLang.Lib
