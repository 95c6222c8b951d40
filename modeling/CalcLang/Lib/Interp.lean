import CalcLang.Lib.Flow
import Mathlib.Logic.Relation

/-!
# Flows that work on data

A `Flow` says in which order things are done. An `Interp` says what they do: what an action makes of the data, and how
a test comes out. Either may have no result, and then the program goes wrong.

`Yields` is what comes out of a machine that makes one step after the other. Flows that agree yield the same
(`Agree.yields_iff`): a run is a sequence of events that the data allow, and they have the same sequences.
`Coarse` is for two machines of which one does in a step what the other does in several.
-/

namespace CalcLang.Lib

/-! ## What a machine yields -/

/-- How a run may end. -/
inductive Outcome (δ : Type*) where
  | ended (d : δ)
  | wrong
  | stuck
deriving DecidableEq, Repr

def Outcome.map {δ ε : Type*} (f : δ → ε) : Outcome δ → Outcome ε
  | .ended d => .ended (f d)
  | .wrong => .wrong
  | .stuck => .stuck

/-- The machine comes to `o` from `c`, in `n` steps and the one that ends the run. -/
inductive YieldsIn {γ ο : Type*} (step : γ → γ ⊕ ο) : ℕ → γ → ο → Prop
  | now {c : γ} {o : ο} : step c = .inr o → YieldsIn step 0 c o
  | later {n : ℕ} {c c' : γ} {o : ο} : step c = .inl c' → YieldsIn step n c' o → YieldsIn step (n + 1) c o

/-- The machine comes to `o` from `c`. -/
def Yields {γ ο : Type*} (step : γ → γ ⊕ ο) (c : γ) (o : ο) : Prop := ∃ n, YieldsIn step n c o

/-- Some steps, one at least. -/
inductive Plus {γ ο : Type*} (step : γ → γ ⊕ ο) : γ → γ → Prop
  | one {c c' : γ} : step c = .inl c' → Plus step c c'
  | cons {c c' c'' : γ} : step c = .inl c' → Plus step c' c'' → Plus step c c''

section Machines

variable {γ ο : Type*} {step : γ → γ ⊕ ο} {c c' : γ} {o o' : ο}

theorem Plus.trans {c'' : γ} (h : Plus step c c') (h' : Plus step c' c'') : Plus step c c'' := by
  induction h with
  | one hs => exact .cons hs h'
  | cons hs _ ih => exact .cons hs (ih h')

theorem Yields.later (hs : step c = .inl c') (h : Yields step c' o) : Yields step c o := by
  obtain ⟨n, h⟩ := h
  exact ⟨n + 1, .later hs h⟩

theorem Plus.yields (h : Plus step c c') (hy : Yields step c' o) : Yields step c o := by
  induction h with
  | one hs => exact .later hs hy
  | cons hs _ ih => exact .later hs (ih hy)

/-- A machine that has made some steps has fewer to make. -/
theorem Plus.yieldsIn (h : Plus step c c') {n : ℕ} (hy : YieldsIn step n c o) :
    ∃ m < n, YieldsIn step m c' o := by
  induction h generalizing n with
  | one hs =>
    cases hy with
    | now hn => cases hs.symm.trans hn
    | later hl hy =>
      obtain rfl := Sum.inl.inj (hs.symm.trans hl)
      exact ⟨_, Nat.lt_succ_self _, hy⟩
  | cons hs _ ih =>
    cases hy with
    | now hn => cases hs.symm.trans hn
    | later hl hy =>
      obtain rfl := Sum.inl.inj (hs.symm.trans hl)
      obtain ⟨m, hm, hy⟩ := ih hy
      exact ⟨m, Nat.lt_succ_of_lt hm, hy⟩

theorem YieldsIn.unique {n m : ℕ} (h : YieldsIn step n c o) (h' : YieldsIn step m c o') : o = o' := by
  induction h generalizing m with
  | now hn =>
    cases h' with
    | now hn' => exact Sum.inr.inj (hn.symm.trans hn')
    | later hl _ => cases hn.symm.trans hl
  | later hl _ ih =>
    cases h' with
    | now hn' => cases hl.symm.trans hn'
    | later hl' h' =>
      obtain rfl := Sum.inl.inj (hl.symm.trans hl')
      exact ih h'

end Machines

section Coarse

variable {γ γ' ο ο' : Type*} {step : γ → γ ⊕ ο} {step' : γ' → γ' ⊕ ο'} {c : γ} {c' : γ'} {o : ο} {o' : ο'}
  {Q : ο → ο' → Prop} {R : γ → γ' → Prop}

/-- The second machine does in one step what the first does in several; `Q` says what their results have to do with
each other. -/
def Coarse (step : γ → γ ⊕ ο) (step' : γ' → γ' ⊕ ο') (Q : ο → ο' → Prop) (R : γ → γ' → Prop) : Prop :=
  ∀ c c', R c c' → (∃ o o', Yields step c o ∧ step' c' = .inr o' ∧ Q o o') ∨
    ∃ d d', Plus step c d ∧ step' c' = .inl d' ∧ R d d'

/-- What the second machine comes to, the first does. -/
theorem Coarse.exists_fine (h : Coarse step step' Q R) (hR : R c c') (hy : Yields step' c' o') :
    ∃ o, Yields step c o ∧ Q o o' := by
  obtain ⟨n, hy⟩ := hy
  induction hy generalizing c with
  | now hn =>
    rcases h _ _ hR with ⟨o, o₂, ho, hs, hQ⟩ | ⟨d, d', -, hs, -⟩
    · obtain rfl := Sum.inr.inj (hn.symm.trans hs)
      exact ⟨o, ho, hQ⟩
    · cases hn.symm.trans hs
  | later hl _ ih =>
    rcases h _ _ hR with ⟨o, o₂, -, hs, -⟩ | ⟨d, d', hplus, hs, hR'⟩
    · cases hl.symm.trans hs
    · obtain rfl := Sum.inl.inj (hl.symm.trans hs)
      obtain ⟨o, ho, hQ⟩ := ih hR'
      exact ⟨o, hplus.yields ho, hQ⟩

/-- And the other way round: a step of the second machine leaves the first with fewer steps to make. -/
theorem Coarse.exists_coarse (h : Coarse step step' Q R) (hR : R c c') (hy : Yields step c o) :
    ∃ o', Yields step' c' o' ∧ Q o o' := by
  obtain ⟨n, hy⟩ := hy
  induction n using Nat.strongRecOn generalizing c c' with
  | ind n ih =>
    rcases h _ _ hR with ⟨o₂, o', ⟨m, ho⟩, hs, hQ⟩ | ⟨d, d', hplus, hs, hR'⟩
    · rw [hy.unique ho]
      exact ⟨o', ⟨0, .now hs⟩, hQ⟩
    · obtain ⟨m, hm, hy'⟩ := hplus.yieldsIn hy
      obtain ⟨o', ho', hQ⟩ := ih m hm hR' hy'
      exact ⟨o', ho'.later hs, hQ⟩

/-- Where the results of the one are determined by those of the other, they come to the same. -/
theorem Coarse.yields_iff {f : ο → ο'} (h : Coarse step step' (fun o o' => o' = f o) R) (hR : R c c') :
    Yields step' c' o' ↔ ∃ o, Yields step c o ∧ o' = f o := by
  constructor
  · exact h.exists_fine hR
  · rintro ⟨o, ho, rfl⟩
    obtain ⟨o', ho', rfl⟩ := h.exists_coarse hR ho
    exact ho'

end Coarse

/-! ## Flows -/

/-- What actions and tests do to data. -/
structure Interp (α δ : Type*) where
  act : α → δ → Option δ
  test : α → δ → Option Bool

namespace Interp

variable {α δ σ τ : Type*} {I : Interp α δ} {F : Flow α σ} {F' : Flow α τ} {s : σ} {s' : τ} {d d' : δ}
  {t t' : List (Event α)} {e : Event α}

/-- A step of a flow on data. -/
def step (I : Interp α δ) (F : Flow α σ) (c : σ × δ) : (σ × δ) ⊕ Outcome δ :=
  match F c.1 with
  | .act a s =>
    match I.act a c.2 with
    | some d => .inl (s, d)
    | none => .inr .wrong
  | .test x y n =>
    match I.test x c.2 with
    | some b => .inl (if b then y else n, c.2)
    | none => .inr .wrong
  | .goto s => .inl (s, c.2)
  | .ret => .inr (.ended c.2)
  | .stuck => .inr .stuck

/-- What an event does to the data, if they allow it. -/
def event (I : Interp α δ) (d : δ) : Event α → Option δ
  | .act a => I.act a d
  | .test x b => if I.test x d = some b then some d else none
  | .ret => some d

def replay (I : Interp α δ) : δ → List (Event α) → Option δ
  | d, [] => some d
  | d, e :: t => (I.event d e).bind fun d' => I.replay d' t

/-- What the data make of an event: the run ends with it, or goes wrong. -/
def last (I : Interp α δ) (d : δ) : Event α → Option (Outcome δ)
  | .act a => if I.act a d = none then some .wrong else none
  | .test x _ => if I.test x d = none then some .wrong else none
  | .ret => some (.ended d)

/-- A run that comes to an end performs events that the data allow, and one that ends it. -/
theorem exists_performs {n : ℕ} {c : σ × δ} {o : Outcome δ} (h : YieldsIn (I.step F) n c o) (ho : o ≠ .stuck) :
    ∃ t e d', F.Performs c.1 (t ++ [e]) ∧ I.replay c.2 t = some d' ∧ I.last d' e = some o := by
  induction h with
  | @now c o hn =>
    unfold step at hn
    cases hF : F c.1 with
    | act a s =>
      simp only [hF] at hn
      cases ha : I.act a c.2 with
      | some d => simp [ha] at hn
      | none =>
        simp only [ha, Sum.inr.injEq] at hn
        exact ⟨[], .act a, c.2, .act hF (.start s), rfl, by simp [last, ha, hn]⟩
    | test x y n =>
      simp only [hF] at hn
      cases hx : I.test x c.2 with
      | some b => simp [hx] at hn
      | none =>
        simp only [hx, Sum.inr.injEq] at hn
        exact ⟨[], .test x true, c.2, .test true hF (.start y), rfl, by simp [last, hx, hn]⟩
    | goto s => simp [hF] at hn
    | ret =>
      simp only [hF, Sum.inr.injEq] at hn
      exact ⟨[], .ret, c.2, .ret hF, rfl, by simp [last, hn]⟩
    | stuck =>
      simp only [hF, Sum.inr.injEq] at hn
      exact absurd hn.symm ho
  | @later n c c' o hl _ ih =>
    obtain ⟨t, e, d', hp, hr, hlast⟩ := ih ho
    unfold step at hl
    cases hF : F c.1 with
    | act a s =>
      simp only [hF] at hl
      cases ha : I.act a c.2 with
      | none => simp [ha] at hl
      | some d =>
        simp only [ha, Sum.inl.injEq] at hl
        subst hl
        exact ⟨.act a :: t, e, d', .act hF hp, by simp [replay, event, ha, hr], hlast⟩
    | test x y n =>
      simp only [hF] at hl
      cases hx : I.test x c.2 with
      | none => simp [hx] at hl
      | some b =>
        simp only [hx, Sum.inl.injEq] at hl
        subst hl
        exact ⟨.test x b :: t, e, d', .test b hF hp, by simp [replay, event, hx, hr], hlast⟩
    | goto s =>
      simp only [hF, Sum.inl.injEq] at hl
      subst hl
      exact ⟨t, e, d', .goto hF hp, hr, hlast⟩
    | ret => simp [hF] at hl
    | stuck => simp [hF] at hl

/-- What a flow may perform, as far as the data allow it, is a run. -/
theorem yields_of_performs {l : List (Event α)} (h : F.Performs s l) (hl : l = t ++ [e])
    (hr : I.replay d t = some d') {o : Outcome δ} (ho : I.last d' e = some o) : Yields (I.step F) (s, d) o := by
  induction h generalizing t d with
  | start s => cases t <;> cases hl
  | @act s s₁ a l hF hp ih =>
    cases t with
    | nil =>
      obtain ⟨rfl, -⟩ := List.cons.inj hl
      obtain rfl := Option.some.inj hr
      simp only [last, Option.ite_none_right_eq_some, Option.some.injEq] at ho
      exact ⟨0, .now (by simp [step, hF, ho.1, ho.2])⟩
    | cons e₁ t =>
      obtain ⟨rfl, htail⟩ := List.cons.inj hl
      obtain ⟨d₁, hd₁, hr⟩ := Option.bind_eq_some_iff.mp hr
      have hd₁ : I.act a d = some d₁ := hd₁
      exact .later (by simp [step, hF, hd₁]) (ih htail hr)
  | @test s y n x b l hF hp ih =>
    cases t with
    | nil =>
      obtain ⟨rfl, -⟩ := List.cons.inj hl
      obtain rfl := Option.some.inj hr
      simp only [last, Option.ite_none_right_eq_some, Option.some.injEq] at ho
      exact ⟨0, .now (by simp [step, hF, ho.1, ho.2])⟩
    | cons e₁ t =>
      obtain ⟨rfl, htail⟩ := List.cons.inj hl
      obtain ⟨d₁, hd₁, hr⟩ := Option.bind_eq_some_iff.mp hr
      simp only [event, Option.ite_none_right_eq_some, Option.some.injEq] at hd₁
      obtain ⟨hx, rfl⟩ := hd₁
      exact .later (by simp [step, hF, hx]) (ih htail hr)
  | @goto s s₁ l hF hp ih => exact .later (by simp [step, hF]) (ih hl hr)
  | @ret s hF =>
    cases t with
    | nil =>
      obtain ⟨rfl, -⟩ := List.cons.inj hl
      obtain rfl := Option.some.inj hr
      simp only [last, Option.some.injEq] at ho
      exact ⟨0, .now (by simp [step, hF, ho])⟩
    | cons e₁ t => cases t <;> cases (List.cons.inj hl).2

/-- Flows that agree end with the same data, and go wrong on the same data. -/
theorem yields_iff_of_agree (h : Flow.Agree F s F' s') {o : Outcome δ} (ho : o ≠ .stuck) :
    Yields (I.step F) (s, d) o ↔ Yields (I.step F') (s', d) o := by
  constructor
  · rintro ⟨n, hy⟩
    obtain ⟨t, e, d', hp, hr, hlast⟩ := exists_performs hy ho
    exact yields_of_performs ((h _).mp hp) rfl hr hlast
  · rintro ⟨n, hy⟩
    obtain ⟨t, e, d', hp, hr, hlast⟩ := exists_performs hy ho
    exact yields_of_performs ((h _).mpr hp) rfl hr hlast

end Interp

end CalcLang.Lib
