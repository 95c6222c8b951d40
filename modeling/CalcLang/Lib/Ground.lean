import CalcLang.Lib.Backtrack

/-!
# Computations that keep to a ground

A `Ground` is a set of states, each with a bound on how far it is to the end. A computation `Holds`
on it if from a state of the ground it only gets to states of the ground, and not further away from
the end; nearer to it, if it is known to have read something. Some values may also be returned right
`Off` the ground (and some errors anywhere); if nothing is off it, the ground is `Open`.

What is gained: such a computation runs out of fuel only by a bad call, and it ends the program only
if that is `Fatal` for the ground. A loop needs as much fuel as it is far to the end, because every turn
that is not the last one gets nearer to it (`Holds.iterate`).
-/

namespace CalcLang.Lib

variable {ε σ κ α β : Type}

structure Ground (σ κ : Type) where
  /-- The state is on the ground, and not further than the number from the end. -/
  On : Nat → σ → Prop
  mono : ∀ {j k s}, On j s → j ≤ k → On k s
  /-- Where one gets from the ground. -/
  Off : σ → Prop
  bad : κ → Prop
  Fatal : Prop

/-- Which states may be off the ground: those with a value or those with an error. -/
inductive Edge
  | none | value | error
  deriving DecidableEq

namespace Ground

variable (G : Ground σ κ) {j k : Nat} {s s' : σ}

/-- Nothing leads out of it. -/
def Open : Prop := ∀ s, ¬ G.Off s

/-- Where a value is returned; `eats` says that something has been read. -/
def After (edge : Edge) (eats : Bool) (k : Nat) (s : σ) : Prop :=
  edge = .value ∧ G.Off s ∨ if eats then ∃ j < k, G.On j s else G.On k s

/-- Where an error is returned. -/
def Beside (edge : Edge) (k : Nat) (s : σ) : Prop := edge ≠ .error → G.On k s

/-- What a run from a place that is at most `k` from the end comes to. -/
structure Keeps (edge : Edge) (eats : α → Bool) (k : Nat) (r : Run ε σ κ α) : Prop where
  ok : ∀ a s, r.result = .ok a s → G.After edge (eats a) k s
  err : ∀ e s, r.result = .err e s → G.Beside edge k s
  fatal : r.result = .fatal → G.Fatal
  out : r.result = .out ↔ ∃ c ∈ r.calls, G.bad c

/-- A computation that keeps to the ground. -/
def Holds (edge : Edge) (eats : α → Bool) (k : Nat) (x : Back ε σ κ α) : Prop :=
  ∀ s, G.On k s → G.Keeps edge eats k (x.run s)

/-- It always reads something. -/
abbrev Eats (k : Nat) (x : Back ε σ κ α) : Prop := G.Holds .none (fun _ => true) k x

/-- It may read something. -/
abbrev Stays (k : Nat) (x : Back ε σ κ α) : Prop := G.Holds .none (fun _ => false) k x

variable {G} {edge edge' : Edge} {eats eats' : α → Bool} {b : Bool}

/-! ## Places -/

theorem After.mono (h : G.After edge b k s) (hedge : edge = .none ∨ edge' = edge)
    {b' : Bool} (hb : b' = true → b = true) : G.After edge' b' k s := by
  rcases h with ⟨rfl, hoff⟩ | hs
  · exact .inl ⟨hedge.resolve_left (by rintro ⟨⟩), hoff⟩
  · refine .inr ?_
    cases b with
    | true =>
      obtain ⟨j, hj, hs⟩ := hs
      cases b' with
      | true => exact ⟨j, hj, hs⟩
      | false => exact G.mono hs (Nat.le_of_lt hj)
    | false =>
      cases b' with
      | true => cases hb rfl
      | false => exact hs

/-- Where a value cannot be off the ground. -/
theorem After.on (h : G.After .none b k s) : if b then ∃ j < k, G.On j s else G.On k s :=
  h.resolve_left fun hoff => by cases hoff.1

/-- What is read behind something that has been read. -/
theorem After.behind (h : G.After edge false j s) (hj : j < k) : G.After edge b k s := by
  refine h.imp_right fun hs => ?_
  cases b with
  | true => exact ⟨j, hj, hs⟩
  | false => exact G.mono hs (Nat.le_of_lt hj)

theorem Beside.behind (h : G.Beside edge j s) (hj : j ≤ k) : G.Beside edge k s :=
  fun hedge => G.mono (h hedge) hj

/-- All of the states are on the ground. -/
theorem beside_of_on (h : G.On k s) : G.Beside edge k s := fun _ => h

/-! ## Runs -/

namespace Keeps

variable {r : Run ε σ κ α}

theorem ofOk {a : α} (h : G.After edge (eats a) k s) : G.Keeps edge eats k (Run.ok a s : Run ε σ κ α) where
  ok a' s' h' := by
    obtain ⟨rfl, rfl⟩ := Result.ok.inj h'
    exact h
  err _ _ h' := by cases h'
  fatal h' := by cases h'
  out := by simp [Run.ok]

theorem ofErr {e : ε} (h : G.Beside edge k s) : G.Keeps edge eats k (Run.err e s : Run ε σ κ α) where
  ok _ _ h' := by cases h'
  err e' s' h' := by
    obtain ⟨rfl, rfl⟩ := Result.err.inj h'
    exact h
  fatal h' := by cases h'
  out := by simp [Run.err]

theorem ofPanic : G.Keeps edge eats k (Run.panic : Run ε σ κ α) where
  ok _ _ h' := by cases h'
  err _ _ h' := by cases h'
  fatal h' := by cases h'
  out := by simp [Run.panic]

theorem ofFatal (h : G.Fatal) : G.Keeps edge eats k (Run.fatal : Run ε σ κ α) where
  ok _ _ h' := by cases h'
  err _ _ h' := by cases h'
  fatal _ := h
  out := by simp [Run.fatal]

theorem mono (h : G.Keeps edge eats k r) (hok : ∀ a s, G.After edge (eats a) k s → G.After edge' (eats' a) j s)
    (herr : ∀ s, G.Beside edge k s → G.Beside edge' j s) : G.Keeps edge' eats' j r :=
  ⟨fun a s h' => hok a s (h.ok a s h'), fun e s h' => herr s (h.err e s h'), h.fatal, h.out⟩

/-- What was called before is good, unless the fuel is out. -/
private theorem after {r' : Run ε σ κ β} {eats' : β → Bool} (h : G.Keeps edge eats k r)
    (hne : r.result ≠ .out) (h' : G.Keeps edge' eats' j r') :
    G.Keeps edge' eats' j (⟨r'.result, r.calls ++ r'.calls⟩ : Run ε σ κ β) where
  ok := h'.ok
  err := h'.err
  fatal := h'.fatal
  out := by
    refine h'.out.trans ⟨fun ⟨c, hc, hbad⟩ => ⟨c, List.mem_append_right _ hc, hbad⟩, ?_⟩
    rintro ⟨c, hc, hbad⟩
    rcases List.mem_append.mp hc with hc | hc
    · exact absurd (h.out.mpr ⟨c, hc, hbad⟩) hne
    · exact ⟨c, hc, hbad⟩

/-- The rule behind those of the combinators. -/
theorem andThen {ok : α → σ → Run ε σ κ β} {err : ε → σ → Run ε σ κ β} {panic : Run ε σ κ β}
    {eats' : β → Bool} (h : G.Keeps edge eats k r)
    (hok : ∀ a s, r.result = .ok a s → G.After edge (eats a) k s → G.Keeps edge' eats' j (ok a s))
    (herr : ∀ e s, G.Beside edge k s → G.Keeps edge' eats' j (err e s))
    (hpanic : G.Keeps edge' eats' j panic) : G.Keeps edge' eats' j (r.andThen ok err panic) := by
  unfold Run.andThen
  split
  next a s hr => exact h.after (by rw [hr]; rintro ⟨⟩) (hok a s hr (h.ok a s hr))
  next e s hr => exact h.after (by rw [hr]; rintro ⟨⟩) (herr e s (h.err e s hr))
  next hr => exact h.after (by rw [hr]; rintro ⟨⟩) hpanic
  next hr =>
    refine ⟨by rintro _ _ ⟨⟩, by rintro _ _ ⟨⟩, fun _ => h.fatal hr, iff_of_false (by rintro ⟨⟩) ?_⟩
    intro hbad
    rw [← h.out, hr] at hbad
    cases hbad
  next hr =>
    exact ⟨by rintro _ _ ⟨⟩, by rintro _ _ ⟨⟩, by rintro ⟨⟩, iff_of_true rfl (h.out.mp hr)⟩

end Keeps

/-! ## Computations -/

/-- An error has read nothing. -/
def hits (eats : α → Bool) : Except ε α → Bool
  | .ok a => eats a
  | .error _ => false

namespace Holds

variable {x y : Back ε σ κ α} {f : α → Back ε σ κ β} {eats₂ : β → Bool}

/-- What is known of a computation may be forgotten. -/
theorem weaken (h : G.Holds .none eats k x) (he : ∀ a, eats' a = true → eats a = true) :
    G.Holds edge eats' k x :=
  fun s hs => (h s hs).mono (fun a _ hok => hok.mono (.inl rfl) (he a))
    fun _ herr _ => herr (by rintro ⟨⟩)

theorem stays (h : G.Holds .none eats k x) : G.Holds edge (fun _ => false) k x :=
  h.weaken fun _ h => by cases h

/-- Where nothing leads out of the ground. -/
theorem opened (h : G.Holds .value eats k x) (hopen : G.Open) : G.Holds .none eats k x :=
  fun s hs => (h s hs).mono (fun _ s' hok => .inr (hok.resolve_left fun hoff => hopen s' hoff.2))
    fun _ herr _ => herr (by rintro ⟨⟩)

theorem pure {a : α} (h : eats a = false) : G.Holds edge eats k (Pure.pure a : Back ε σ κ α) := by
  intro s hs
  refine .ofOk (.inr ?_)
  rw [h]
  exact hs

theorem throw {e : ε} : G.Holds edge eats k (Back.throw e : Back ε σ κ α) :=
  fun _ hs => .ofErr fun _ => hs

theorem panic : G.Holds edge eats k (Back.panic : Back ε σ κ α) := fun _ _ => .ofPanic

/-- Behind a value that has been read for, it is nearer to the end. -/
theorem bind (h : G.Holds .none eats k x)
    (hbehind : ∀ a, eats a = true → ∀ j < k, G.Holds edge (fun _ => false) j (f a))
    (hhere : ∀ a, eats a = false → G.Holds edge eats₂ k (f a)) : G.Holds edge eats₂ k (x >>= f) := by
  intro s hs
  refine (h s hs).andThen ?_ (fun _ _ herr => .ofErr fun _ => herr (by rintro ⟨⟩)) .ofPanic
  intro a s' _ hok
  have hs' := hok.on
  cases ha : eats a with
  | true =>
    rw [ha] at hs'
    obtain ⟨j, hj, hs'⟩ := hs'
    exact (hbehind a ha j hj s' hs').mono (fun _ _ hok => hok.behind hj)
      fun _ herr => herr.behind (Nat.le_of_lt hj)
  | false =>
    rw [ha] at hs'
    exact hhere a ha s' hs'

theorem eat (h : G.Eats k x) (hf : ∀ a, ∀ j < k, G.Holds edge (fun _ => false) j (f a)) :
    G.Holds edge eats₂ k (x >>= f) :=
  bind h (fun a _ => hf a) fun _ ha => by cases ha

theorem stay (h : G.Stays k x) (hf : ∀ a, G.Holds edge eats₂ k (f a)) : G.Holds edge eats₂ k (x >>= f) :=
  bind h (fun _ ha => by cases ha) fun a _ => hf a

/-- The value is only made into another one. -/
theorem map (h : G.Holds edge eats k x) {g : α → β} (hg : ∀ a, eats₂ (g a) = true → eats a = true) :
    G.Holds edge eats₂ k (x >>= fun a => Pure.pure (g a)) := by
  intro s hs
  refine (h s hs).andThen (fun a _ _ hok => ?_) (fun _ _ herr => .ofErr herr) .ofPanic
  exact .ofOk (hok.mono (.inr rfl) (hg a))

theorem attempt (h : G.Holds edge eats k x) (hedge : edge ≠ .error) :
    G.Holds edge (hits eats) k x.attempt := by
  intro s hs
  refine (h s hs).andThen (fun _ _ _ hok => .ofOk hok) (fun _ _ herr => .ofOk (.inr ?_)) .ofPanic
  exact herr hedge

/-- A value ends it, and after an error it goes on. -/
theorem attempt_else {g : Except ε α → Back ε σ κ β} (h : G.Holds edge eats k x) (hedge : edge ≠ .error)
    (hok : ∀ a, ∃ b, g (.ok a) = Pure.pure b ∧ (eats₂ b = true → eats a = true))
    (herr : ∀ e, G.Holds edge eats₂ k (g (.error e))) : G.Holds edge eats₂ k (x.attempt >>= g) := by
  intro s hs
  have hrun : (x.attempt >>= g).run s =
      (x.run s).andThen (fun a s' => (g (.ok a)).run s') (fun e s' => (g (.error e)).run s') .panic := by
    rw [Back.bind_run, Back.attempt_run]
    unfold Run.andThen
    cases (x.run s).result <;> simp [Run.ok, Run.panic]
  rw [hrun]
  refine (h s hs).andThen (fun a s' _ hok' => ?_) (fun e s' herr' => herr e s' (herr' hedge)) .ofPanic
  obtain ⟨b, hb, hle⟩ := hok a
  rw [hb]
  exact .ofOk (hok'.mono (.inr rfl) hle)

/-- Where no value is returned, nothing comes behind. -/
theorem never (h : G.Holds .none eats k x) (hno : ∀ s, G.On k s → ∀ a s', (x.run s).result ≠ .ok a s') :
    G.Holds edge eats₂ k (x >>= f) := by
  intro s hs
  refine (h s hs).andThen (fun a s' hok _ => ?_) (fun _ _ herr => .ofErr fun _ => herr (by rintro ⟨⟩)) .ofPanic
  exact absurd hok (hno s hs a s')

theorem must (h : G.Holds edge eats k x) : G.Holds edge eats k x.must :=
  fun s hs => (h s hs).andThen (fun _ _ _ hok => .ofOk hok) (fun _ _ _ => .ofPanic) .ofPanic

/-- What is rewound may have left the ground with an error. -/
theorem rewinding (h : G.Holds .error eats k x) : G.Holds edge eats k x.rewinding := by
  intro s hs
  refine (h s hs).andThen (fun _ _ _ hok => .ofOk (.inr ?_)) (fun _ _ _ => .ofErr ?_) .ofPanic
  · exact hok.resolve_left fun hoff => by cases hoff.1
  · exact beside_of_on hs

theorem catching {e : ε} (h : G.Holds edge eats k x) : G.Holds edge eats k (x.catching e) :=
  fun s hs => (h s hs).andThen (fun _ _ _ hok => .ofOk hok) (fun _ _ _ => .ofErr (beside_of_on hs))
    (.ofErr (beside_of_on hs))

theorem orElse (h : G.Holds edge eats k x) (hedge : edge ≠ .error) (hy : G.Holds edge eats k y) :
    G.Holds edge eats k (x <|> y) :=
  fun s hs => (h s hs).andThen (fun _ _ _ hok => .ofOk hok) (fun _ s' herr => hy s' (herr hedge)) .ofPanic

/-- The second alternative may leave the ground with an error. -/
theorem orElse_last (h : G.Holds .none eats k x) (hy : G.Holds edge eats k y) :
    G.Holds edge eats k (x <|> y) :=
  fun s hs => (h s hs).andThen (fun _ _ _ hok => .ofOk (hok.mono (.inl rfl) id))
    (fun _ s' herr => hy s' (herr (by rintro ⟨⟩))) .ofPanic

theorem recovering (h : G.Holds edge eats k x) (hy : G.Holds edge eats k y) :
    G.Holds edge eats k (x.recovering y) :=
  fun s hs => (h s hs).andThen (fun _ _ _ hok => .ofOk hok) (fun _ _ herr => .ofErr herr) (hy s hs)

/-- Every turn but the last one reads something. -/
theorem iterate {body : α → Back ε σ κ (α ⊕ β)} {n : Nat}
    (h : ∀ a, ∀ j ≤ k, G.Holds .none Sum.isLeft j (body a)) (hn : k < n) (a : α) :
    G.Stays k (Back.iterate body n a) := by
  induction n generalizing k a with
  | zero => cases hn
  | succ n ih =>
    refine bind (h a k (Nat.le_refl k)) ?_ ?_
    · rintro (a' | b) ha j hj
      · exact ih (fun a i hi => h a i (by omega)) (by omega) a'
      · cases ha
    · rintro (a' | b) ha
      · cases ha
      · exact pure rfl

/-- So does the loop if the last turn does as well. -/
theorem iterate_eats {body : α → Back ε σ κ (α ⊕ β)} {n : Nat} (h : ∀ a, ∀ j ≤ k, G.Eats j (body a))
    (hn : k < n) (a : α) : G.Eats k (Back.iterate body n a) := by
  obtain ⟨m, rfl⟩ : ∃ m, n = m + 1 := ⟨n - 1, by omega⟩
  refine eat (h a k (Nat.le_refl k)) ?_
  rintro (a' | b) j hj
  · exact iterate (fun a i hi => (h a i (by omega)).weaken fun _ _ => rfl) (by omega) a'
  · exact pure rfl

end Holds

end Ground

end CalcLang.Lib
