import CalcLang.Lib.Backtrack

/-!
# Ordered choice

`choose` tries one alternative after the other, each from where the one in front of it has left the
state. That is a choice between the alternatives if one that returns an error leaves the state where
it was (`Untraced`): then it accepts what any of them accepts (`choose_ok_iff`), given
that an alternative only accepts where those in front of it return an error.
-/

namespace CalcLang.Lib.Back

variable {ε σ κ α β : Type} {x y : Back ε σ κ α} {f : α → Back ε σ κ β} {s s' : σ}

/-! ## Results -/

/-- The value that is returned, and the state behind it. -/
def Accepts (x : Back ε σ κ α) (s : σ) (a : α) (s' : σ) : Prop := (x.run s).result = .ok a s'

/-- An error is returned, and the state is left at `s'`. -/
def Errs (x : Back ε σ κ α) (s s' : σ) : Prop := ∃ e, (x.run s).result = .err e s'

theorem accepts_of_run {a : α} (h : x.run s = .ok a s') : x.Accepts s a s' := by
  unfold Accepts
  rw [h]
  rfl

theorem errs_of_run {e : ε} (h : x.run s = .err e s') : x.Errs s s' :=
  ⟨e, by rw [h]; rfl⟩

theorem Accepts.unique {a a' : α} {s'' : σ} (h : x.Accepts s a s') (h' : x.Accepts s a' s'') :
    a = a' ∧ s' = s'' :=
  Result.ok.inj (h.symm.trans h')

section Sequence

theorem bind_result (h : x.Accepts s a s') : ((x >>= f).run s).result = ((f a).run s').result := by
  rw [bind_run]
  unfold Run.andThen
  rw [h]

theorem Accepts.bind {b : β} {s'' : σ} {a : α} (h : x.Accepts s a s') (hf : (f a).Accepts s' b s'') :
    (x >>= f).Accepts s b s'' :=
  (bind_result h).trans hf

theorem Errs.bind (h : x.Errs s s') : (x >>= f).Errs s s' := by
  obtain ⟨e, he⟩ := h
  refine ⟨e, ?_⟩
  rw [bind_run]
  unfold Run.andThen
  rw [he]
  rfl

theorem Errs.after {a : α} {s'' : σ} (h : x.Accepts s a s') (hf : (f a).Errs s' s'') :
    (x >>= f).Errs s s'' := by
  obtain ⟨e, he⟩ := hf
  exact ⟨e, (bind_result h).trans he⟩

/-- Where an error of a sequence comes from. -/
theorem bind_errs (h : (x >>= f).Errs s s') :
    x.Errs s s' ∨ ∃ a s'', x.Accepts s a s'' ∧ (f a).Errs s'' s' := by
  obtain ⟨e, he⟩ := h
  rw [bind_run] at he
  unfold Run.andThen at he
  split at he
  next a s'' hx => exact .inr ⟨a, s'', hx, e, he⟩
  next e' s'' hx =>
    obtain ⟨rfl, rfl⟩ := Result.err.inj he
    exact .inl ⟨e', hx⟩
  all_goals cases he

/-- Where a value comes from. -/
theorem bind_accepts {b : β} (h : (x >>= f).Accepts s b s') :
    ∃ a s'', x.Accepts s a s'' ∧ (f a).Accepts s'' b s' := by
  unfold Accepts at h
  rw [bind_run] at h
  rcases andThen_result_ok h with ⟨a, s'', ha, hb⟩ | ⟨e, s'', -, hb⟩ | ⟨-, hb⟩
  · exact ⟨a, s'', ha, hb⟩
  · cases hb
  · cases hb

/-- The value of a loop comes from its last turn. -/
theorem iterate_accepts {body : α → Back ε σ κ (α ⊕ β)} {b : β} : ∀ {n : Nat} {a : α} {s : σ},
    (Back.iterate body n a).Accepts s b s' → ∃ a' s'', (body a').Accepts s'' (.inr b) s'
  | 0, _, _, h => by cases h
  | n + 1, a, s, h => by
    obtain ⟨v, s'', hv, h⟩ := bind_accepts h
    cases v with
    | inl a' => exact iterate_accepts h
    | inr b' =>
      obtain ⟨rfl, rfl⟩ := Result.ok.inj h
      exact ⟨a, s, hv⟩

/-- A turn that goes on, or the last one. -/
theorem iterate_succ_accepts {body : α → Back ε σ κ (α ⊕ β)} {n : Nat} {a : α} {b : β} :
    (Back.iterate body (n + 1) a).Accepts s b s' ↔
      (∃ a' s'', (body a).Accepts s (.inl a') s'' ∧ (Back.iterate body n a').Accepts s'' b s') ∨
        (body a).Accepts s (.inr b) s' := by
  refine ⟨?_, ?_⟩
  · intro h
    obtain ⟨v, s'', hv, h⟩ := bind_accepts h
    cases v with
    | inl a' => exact .inl ⟨a', s'', hv, h⟩
    | inr b' =>
      obtain ⟨rfl, rfl⟩ := Result.ok.inj h
      exact .inr hv
  · rintro (⟨a', s'', hv, h⟩ | hv)
    · exact Accepts.bind hv h
    · exact Accepts.bind hv rfl

theorem attempt_accepts {a : Except ε α} :
    x.attempt.Accepts s a s' ↔ (∃ v, a = .ok v ∧ x.Accepts s v s') ∨ ∃ e, a = .error e ∧
      (x.run s).result = .err e s' := by
  unfold Accepts
  rw [attempt_run]
  unfold Run.andThen
  cases (x.run s).result <;> simp [Run.ok, Run.panic, eq_comm, and_comm]

theorem orElse_accepts {a : α} :
    (x <|> y).Accepts s a s' ↔ x.Accepts s a s' ∨ ∃ s'', x.Errs s s'' ∧ y.Accepts s'' a s' := by
  refine ⟨?_, ?_⟩
  · intro h
    unfold Accepts at h
    rw [orElse_run] at h
    rcases andThen_result_ok h with ⟨b, s'', hb, ha⟩ | ⟨e, s'', he, ha⟩ | ⟨-, ha⟩
    · obtain ⟨rfl, rfl⟩ := Result.ok.inj ha
      exact .inl hb
    · exact .inr ⟨s'', ⟨e, he⟩, ha⟩
    · cases ha
  · rintro (h | ⟨s'', ⟨e, he⟩, h⟩)
    · unfold Accepts
      rw [orElse_run]
      unfold Run.andThen
      rw [h]
      rfl
    · unfold Accepts
      rw [orElse_run]
      unfold Run.andThen
      rw [he]
      exact h

theorem orElse_errs : (x <|> y).Errs s s' ↔ ∃ s'', x.Errs s s'' ∧ y.Errs s'' s' := by
  refine ⟨?_, ?_⟩
  · rintro ⟨e, he⟩
    rw [orElse_run] at he
    unfold Run.andThen at he
    split at he
    next => cases he
    next e' s'' hx => exact ⟨s'', ⟨e', hx⟩, e, he⟩
    all_goals cases he
  · rintro ⟨s'', ⟨e, he⟩, e', he'⟩
    refine ⟨e', ?_⟩
    rw [orElse_run]
    unfold Run.andThen
    rw [he]
    exact he'

theorem rewinding_accepts {a : α} : x.rewinding.Accepts s a s' ↔ x.Accepts s a s' := by
  unfold Accepts
  rw [rewinding_run]
  unfold Run.andThen
  cases (x.run s).result <;> simp [Run.ok, Run.err, Run.panic]

theorem rewinding_errs : x.rewinding.Errs s s' ↔ (∃ s'', x.Errs s s'') ∧ s' = s := by
  unfold Errs
  rw [rewinding_run]
  unfold Run.andThen
  cases (x.run s).result <;> simp [Run.ok, Run.err, Run.panic, eq_comm]

/-- A caught alternative leaves the state where it was. -/
theorem caught_accepts {e : ε} {a : α} (h : (x.catching e <|> y).Accepts s a s') :
    x.Accepts s a s' ∨ y.Accepts s a s' := by
  rcases orElse_accepts.mp h with h | ⟨s'', ⟨e', he⟩, hy⟩
  · unfold Accepts at h
    rw [catching_run] at h
    rcases andThen_result_ok h with ⟨b, s'', hb, h⟩ | ⟨_, _, -, h⟩ | ⟨-, h⟩
    · obtain ⟨rfl, rfl⟩ := Result.ok.inj h
      exact .inl hb
    · cases h
    · cases h
  · obtain rfl : s'' = s := by
      rw [catching_run] at he
      unfold Run.andThen at he
      split at he <;> cases he <;> rfl
    exact .inr hy

theorem recovering_accepts {a : α} (h : (x.recovering y).Accepts s a s') :
    x.Accepts s a s' ∨ y.Accepts s a s' := by
  unfold Accepts at h
  rw [recovering_run] at h
  rcases andThen_result_ok h with ⟨b, s'', hb, h⟩ | ⟨_, _, -, h⟩ | ⟨-, h⟩
  · obtain ⟨rfl, rfl⟩ := Result.ok.inj h
    exact .inl hb
  · cases h
  · exact .inr h

/-! Where the alternatives do not accept -/

/-- An error or a panic. -/
def Fails (x : Back ε σ κ α) (s : σ) : Prop := (x.run s).result = .panic ∨ ∃ s', x.Errs s s'

theorem Fails.panics (h : x.Fails s) (hno : ∀ s', ¬ x.Errs s s') : (x.run s).result = .panic :=
  h.resolve_right fun ⟨s', herr⟩ => hno s' herr

/-- Behind an alternative that is caught, the next one is tried from the same place. -/
theorem Fails.next {e : ε} (h : x.Fails s) : ((x.catching e <|> y).run s).result = (y.run s).result := by
  rw [orElse_run, catching_run]
  unfold Run.andThen
  rcases h with h | ⟨s', e', h⟩
  · rw [h]
    rfl
  · rw [h]
    rfl

/-- A panic that is recovered from, or a result that is the same anyway. -/
theorem recovering_result (h : (x.run s).result = .panic ∨ (x.run s).result = (y.run s).result) :
    ((x.recovering y).run s).result = (y.run s).result := by
  rw [recovering_run]
  unfold Run.andThen
  cases hx : (x.run s).result with
  | panic => rfl
  | ok a s' => rw [← h.resolve_left (by rw [hx]; rintro ⟨⟩), hx]; rfl
  | err e s' => rw [← h.resolve_left (by rw [hx]; rintro ⟨⟩), hx]; rfl
  | fatal => rw [← h.resolve_left (by rw [hx]; rintro ⟨⟩), hx]
  | out => rw [← h.resolve_left (by rw [hx]; rintro ⟨⟩), hx]

end Sequence

/-! ## No errors -/

/-- No error is returned, from anywhere. -/
def NeverErrs (x : Back ε σ κ α) : Prop := ∀ s s', ¬ x.Errs s s'

namespace NeverErrs

theorem pure (a : α) : (Pure.pure a : Back ε σ κ α).NeverErrs := by
  rintro s s' ⟨e, he⟩
  cases he

theorem panic : (Back.panic : Back ε σ κ α).NeverErrs := by
  rintro s s' ⟨e, he⟩
  cases he

theorem out : (Back.out : Back ε σ κ α).NeverErrs := by
  rintro s s' ⟨e, he⟩
  cases he

theorem here : (Back.here : Back ε σ κ σ).NeverErrs := by
  rintro s s' ⟨e, he⟩
  cases he

theorem goback (s₀ : σ) : (Back.goback s₀ : Back ε σ κ Unit).NeverErrs := by
  rintro s s' ⟨e, he⟩
  cases he

theorem note (k : κ) : (Back.note k : Back ε σ κ Unit).NeverErrs := by
  rintro s s' ⟨e, he⟩
  cases he

theorem bind (hx : x.NeverErrs) (hf : ∀ a, (f a).NeverErrs) : (x >>= f).NeverErrs := by
  intro s s' h
  rcases bind_errs h with h | ⟨a, s'', -, h⟩
  · exact hx s s' h
  · exact hf a s'' s' h

theorem attempt (x : Back ε σ κ α) : x.attempt.NeverErrs := by
  rintro s s' ⟨e, he⟩
  rw [attempt_run] at he
  unfold Run.andThen at he
  split at he <;> cases he

theorem must (x : Back ε σ κ α) : x.must.NeverErrs := by
  rintro s s' ⟨e, he⟩
  rw [must_run] at he
  unfold Run.andThen at he
  split at he <;> cases he

theorem orElse (hy : y.NeverErrs) : (x <|> y).NeverErrs := by
  intro s s' h
  obtain ⟨s'', -, h⟩ := orElse_errs.mp h
  exact hy s'' s' h

theorem recovering (hx : x.NeverErrs) (hy : y.NeverErrs) : (x.recovering y).NeverErrs := by
  rintro s s' ⟨e, he⟩
  rw [recovering_run] at he
  unfold Run.andThen at he
  split at he
  next => cases he
  next e' s'' hx' => exact hx s s'' ⟨e', hx'⟩
  next => exact hy s s' ⟨e, he⟩
  all_goals cases he

theorem iterate {body : α → Back ε σ κ (α ⊕ β)} (h : ∀ a, (body a).NeverErrs) :
    ∀ (n : Nat) (a : α), (Back.iterate body n a).NeverErrs
  | 0, _ => out
  | n + 1, a => by
    refine bind (h a) fun b => ?_
    cases b with
    | inl a => exact iterate h n a
    | inr b => exact pure b

end NeverErrs

/-! ## Choices -/

/-- One alternative after the other, from wherever the state is by then. -/
def choose (x : Back ε σ κ α) : List (Back ε σ κ α) → Back ε σ κ α
  | [] => x
  | y :: ys => x <|> choose y ys

/-- An error leaves the state at a place like the one it was at. -/
def Untraced (like : σ → σ → Prop) (x : Back ε σ κ α) (s : σ) : Prop := ∀ s', x.Errs s s' → like s s'

/-- Where no alternative leaves a trace, and none accepts but where the ones in front of it return
an error, a choice accepts what one of the alternatives does. -/
theorem choose_ok_iff {a : α} {s' : σ} : ∀ {x : Back ε σ κ α} {xs : List (Back ε σ κ α)},
    (∀ y ∈ x :: xs, Untraced Eq y s) →
    (x :: xs).Pairwise (fun y z => (∃ a s', z.Accepts s a s') → ∃ s', y.Errs s s') →
    ((choose x xs).Accepts s a s' ↔ ∃ y ∈ x :: xs, y.Accepts s a s')
  | x, [], _, _ => by
    show x.Accepts s a s' ↔ _
    simp
  | x, y :: ys, huntraced, hpair => by
    obtain ⟨hx, hpair'⟩ := List.pairwise_cons.mp hpair
    have hrest : (choose y ys).Accepts s a s' ↔ ∃ z ∈ y :: ys, z.Accepts s a s' :=
      choose_ok_iff (fun z hz => huntraced z (List.mem_cons_of_mem _ hz)) hpair'
    show (x <|> choose y ys).Accepts s a s' ↔ _
    rw [orElse_accepts, List.exists_mem_cons_iff]
    refine or_congr_right ⟨?_, ?_⟩
    · rintro ⟨s'', hs'', h⟩
      obtain rfl : s = s'' := huntraced x List.mem_cons_self s'' hs''
      exact hrest.mp h
    · rintro ⟨z, hz, h⟩
      obtain ⟨s'', hs''⟩ := hx z hz ⟨a, s', h⟩
      obtain rfl : s = s'' := huntraced x List.mem_cons_self s'' hs''
      exact ⟨s, hs'', hrest.mpr ⟨z, hz, h⟩⟩

/-- At places where no alternative accepts, nor leads out of them, a choice does not accept. -/
theorem choose_rejects {I : σ → Prop} {a : α} {s' : σ} : ∀ {x : Back ε σ κ α}
    {xs : List (Back ε σ κ α)}, (∀ y ∈ x :: xs, ∀ s, I s → ¬ y.Accepts s a s') →
    (∀ y ∈ x :: xs, ∀ s s', I s → y.Errs s s' → I s') → ∀ s, I s → ¬ (choose x xs).Accepts s a s'
  | x, [], hno, _, s, hs => hno x List.mem_cons_self s hs
  | x, y :: ys, hno, hkeep, s, hs => by
    intro h
    rcases orElse_accepts.mp h with h | ⟨s'', hs'', h⟩
    · exact hno x List.mem_cons_self s hs h
    · exact choose_rejects (fun z hz => hno z (List.mem_cons_of_mem _ hz))
        (fun z hz => hkeep z (List.mem_cons_of_mem _ hz)) s'' (hkeep x List.mem_cons_self s s'' hs hs'') h

end CalcLang.Lib.Back
