import CalcLang.Lib.Flow

/-!
# Procedures that are resumed

A resumable procedure is called again and again. A call starts at a stored point and
ends by suspending, which stores the point to go on from, or by being done, which
stores nothing. The outcomes of tests are free, as in `Flow`.

`Exhausts` says that being done is for good: behind a call that is done, every call
is done at once. `exhausts_iff` takes the calls apart: it is enough to know that
whenever the end is reached, the call that reaches it has done nothing.
-/

namespace CalcLang.Lib.Resumable

variable {α σ : Type*}

/-- What happens at a point. -/
inductive Action (α σ : Type*) where
  | act (a : α) (next : σ)
  | test (c : α) (yes no : σ)
  | goto (next : σ)
  | suspend (next : σ)
  | done
  | crash
deriving DecidableEq, Repr

/-- A procedure, given by what each point does. -/
abbrev Code (α σ : Type*) := σ → Action α σ

variable {F : Code α σ} {s s' p p' a : σ} {t : List (Event α)}

/-! ## Calls -/

/-- How a call ends. -/
inductive Outcome (σ : Type*) where
  | suspended (next : σ)
  | done
deriving DecidableEq, Repr

/-- The stored point behind a call that started at `s`. -/
def Outcome.next (s : σ) : Outcome σ → σ
  | .suspended s' => s'
  | .done => s

/-- A call from `s` performs `t` and ends with the outcome. -/
inductive Runs (F : Code α σ) : σ → List (Event α) → Outcome σ → Prop
  | act {s s' : σ} {x : α} {t : List (Event α)} {o : Outcome σ} :
      F s = .act x s' → Runs F s' t o → Runs F s (.act x :: t) o
  | test {s y n : σ} {c : α} (b : Bool) {t : List (Event α)} {o : Outcome σ} :
      F s = .test c y n → Runs F (if b then y else n) t o → Runs F s (.test c b :: t) o
  | goto {s s' : σ} {t : List (Event α)} {o : Outcome σ} :
      F s = .goto s' → Runs F s' t o → Runs F s t o
  | suspend {s s' : σ} : F s = .suspend s' → Runs F s [] (.suspended s')
  | done {s : σ} : F s = .done → Runs F s [] .done

/-- Calls one after the other, from the stored point `s` to the stored point `s'`. -/
inductive Calls (F : Code α σ) : σ → List (List (Event α) × Outcome σ) → σ → Prop
  | nil (s : σ) : Calls F s [] s
  | cons {s s' : σ} {t : List (Event α)} {o : Outcome σ}
      {cs : List (List (Event α) × Outcome σ)} :
      Runs F s t o → Calls F (o.next s) cs s' → Calls F s ((t, o) :: cs) s'

theorem Calls.snoc {cs : List (List (Event α) × Outcome σ)} {o : Outcome σ}
    (h : Calls F s cs s') (hr : Runs F s' t o) : Calls F s (cs ++ [(t, o)]) (o.next s') := by
  induction h with
  | nil s => exact .cons hr (.nil _)
  | cons hr' _ ih => exact .cons hr' (ih hr)

/-- Behind a call that is done, every call is done and performs nothing. -/
def Exhausts (F : Code α σ) (s : σ) : Prop :=
  ∀ cs s', Calls F s cs s' → cs.Pairwise fun c d => c.2 = .done → d = ([], .done)

/-! ## Inside a call -/

/-- Where a procedure is: the point stored when the call began, the current point, and
what the call has performed. -/
structure Config (α σ : Type*) where
  stored : σ
  point : σ
  events : List (Event α)

/-- A call begins. -/
def Config.call (s : σ) : Config α σ := ⟨s, s, []⟩

/-- One step; a call that suspends is followed by the next. -/
inductive Step (F : Code α σ) : Config α σ → Config α σ → Prop
  | act {a p p' : σ} {x : α} {t : List (Event α)} :
      F p = .act x p' → Step F ⟨a, p, t⟩ ⟨a, p', t ++ [.act x]⟩
  | test {a p y n : σ} {c : α} (b : Bool) {t : List (Event α)} :
      F p = .test c y n → Step F ⟨a, p, t⟩ ⟨a, if b then y else n, t ++ [.test c b]⟩
  | goto {a p p' : σ} {t : List (Event α)} : F p = .goto p' → Step F ⟨a, p, t⟩ ⟨a, p', t⟩
  | suspend {a p p' : σ} {t : List (Event α)} :
      F p = .suspend p' → Step F ⟨a, p, t⟩ (.call p')

/-- A number of steps. -/
inductive Steps (F : Code α σ) : Nat → Config α σ → Config α σ → Prop
  | refl (c : Config α σ) : Steps F 0 c c
  | head {n : Nat} {c c' d : Config α σ} : Step F c c' → Steps F n c' d → Steps F (n + 1) c d

theorem Steps.trans {m n : Nat} {c d e : Config α σ} (h : Steps F m c d) (h' : Steps F n d e) :
    Steps F (n + m) c e := by
  induction h with
  | refl => exact h'
  | head hs _ ih => exact .head hs (ih h')

/-- Some number of steps. -/
def Reaches (F : Code α σ) (c d : Config α σ) : Prop := ∃ n, Steps F n c d

theorem Reaches.refl (c : Config α σ) : Reaches F c c := ⟨0, .refl c⟩

theorem Reaches.trans {c d e : Config α σ} (h : Reaches F c d) (h' : Reaches F d e) :
    Reaches F c e := by
  obtain ⟨m, hm⟩ := h
  obtain ⟨n, hn⟩ := h'
  exact ⟨n + m, hm.trans hn⟩

theorem Reaches.single {c d : Config α σ} (h : Step F c d) : Reaches F c d :=
  ⟨1, .head h (.refl d)⟩

/-- What a call has performed so far is what it performs first. -/
theorem Steps.calls {n : Nat} {c d : Config α σ} (h : Steps F n c d)
    {cs : List (List (Event α) × Outcome σ)} (hcs : Calls F s cs c.stored)
    (hc : ∀ t o, Runs F c.point t o → Runs F c.stored (c.events ++ t) o) :
    (∃ cs, Calls F s cs d.stored) ∧
      ∀ t o, Runs F d.point t o → Runs F d.stored (d.events ++ t) o := by
  induction h generalizing cs with
  | refl => exact ⟨⟨cs, hcs⟩, hc⟩
  | head hs _ ih =>
    cases hs with
    | act hp =>
      refine ih hcs fun t o ht => ?_
      rw [List.append_assoc]
      exact hc _ o (.act hp ht)
    | test b hp =>
      refine ih hcs fun t o ht => ?_
      rw [List.append_assoc]
      exact hc _ o (.test b hp ht)
    | goto hp => exact ih hcs fun t o ht => hc t o (.goto hp ht)
    | suspend hp => exact ih (hcs.snoc (hc [] _ (.suspend hp))) fun t o ht => ht

/-- A call is a sequence of steps, up to its end. -/
theorem Runs.steps {o : Outcome σ} (h : Runs F p t o) (a : σ) (u : List (Event α)) :
    ∃ q, Reaches F ⟨a, p, u⟩ ⟨a, q, u ++ t⟩ ∧
      ((∃ s', F q = .suspend s' ∧ o = .suspended s') ∨ F q = .done ∧ o = .done) := by
  induction h generalizing u with
  | act hp _ ih =>
    obtain ⟨q, hq, ho⟩ := ih (u ++ [.act _])
    rw [List.append_assoc] at hq
    exact ⟨q, (Reaches.single (.act hp)).trans hq, ho⟩
  | test b hp _ ih =>
    obtain ⟨q, hq, ho⟩ := ih (u ++ [.test _ b])
    rw [List.append_assoc] at hq
    exact ⟨q, (Reaches.single (.test b hp)).trans hq, ho⟩
  | goto hp _ ih =>
    obtain ⟨q, hq, ho⟩ := ih u
    exact ⟨q, (Reaches.single (.goto hp)).trans hq, ho⟩
  | @suspend p s' hp =>
    rw [List.append_nil]
    exact ⟨p, .refl _, .inl ⟨s', hp, rfl⟩⟩
  | @done p hp =>
    rw [List.append_nil]
    exact ⟨p, .refl _, .inr ⟨hp, rfl⟩⟩

/-- A call that is done at once can do nothing else. -/
theorem Runs.only {u : List (Event α)} {o : Outcome σ} (h : Runs F s [] .done)
    (h' : Runs F s u o) : u = [] ∧ o = .done := by
  generalize ht : ([] : List (Event α)) = t at h
  generalize ho : (Outcome.done : Outcome σ) = o' at h
  induction h with
  | act | test => cases ht
  | suspend => cases ho
  | goto hp _ ih =>
    cases h' with
    | goto hp' h' =>
      cases hp.symm.trans hp'
      exact ih h' ht ho
    | act hp' | test _ hp' | suspend hp' | done hp' => cases hp.symm.trans hp'
  | done hp =>
    cases h' with
    | done => exact ⟨rfl, rfl⟩
    | act hp' | test _ hp' | suspend hp' | goto hp' => cases hp.symm.trans hp'

/-- Behind a call that is done at once, so are all. -/
theorem Calls.silent {cs : List (List (Event α) × Outcome σ)} (h : Calls F s cs s')
    (hs : Runs F s [] .done) : ∀ d ∈ cs, d = ([], .done) := by
  induction h with
  | nil => exact fun d hd => absurd hd List.not_mem_nil
  | cons hr _ ih =>
    obtain ⟨rfl, rfl⟩ := hs.only hr
    intro d hd
    rcases List.mem_cons.mp hd with rfl | hd
    · rfl
    · exact ih hs d hd

/-- If no call that reaches the end has performed anything, the calls from a stored point
are exhausted for good. -/
private theorem Calls.pairwise {s₀ : σ} {cs : List (List (Event α) × Outcome σ)}
    (h : Calls F s cs s')
    (hall : ∀ c, Reaches F (.call s₀) c → F c.point = .done → c.events = [])
    (hs : Reaches F (.call s₀) (.call s)) :
    cs.Pairwise fun c d => c.2 = .done → d = ([], .done) := by
  induction h with
  | nil => exact .nil
  | @cons s s' t o cs hr hcs ih =>
    obtain ⟨q, hq, ho⟩ := hr.steps s []
    rcases ho with ⟨s₁, hq', rfl⟩ | ⟨hq', rfl⟩
    · refine .cons (fun d _ hd => by cases hd) (ih ?_)
      exact hs.trans (hq.trans (.single (.suspend hq')))
    · obtain rfl : t = [] := hall _ (hs.trans hq) hq'
      exact .cons (fun d hd _ => hcs.silent hr d hd) (ih hs)

/-- **Exhaustion, step by step**: a procedure is exhausted for good exactly if no call
that reaches the end has performed anything. -/
theorem exhausts_iff : Exhausts F s ↔
    ∀ c, Reaches F (.call s) c → F c.point = .done → c.events = [] := by
  constructor
  · rintro h ⟨a, p, t⟩ ⟨n, hn⟩ hp
    obtain ⟨⟨cs, hcs⟩, hruns⟩ := hn.calls (.nil s) fun t o ht => ht
    have hrun : Runs F a t .done := by
      have := hruns [] .done (.done hp)
      rwa [List.append_nil] at this
    -- the same call twice
    have hpair := h _ _ ((hcs.snoc hrun).snoc hrun)
    rw [List.append_assoc] at hpair
    have hlast := (List.pairwise_append.mp hpair).2.1
    have heq : (t, (.done : Outcome σ)) = ([], .done) :=
      (List.pairwise_cons.mp hlast).1 _ (List.mem_singleton.mpr rfl) rfl
    exact congrArg Prod.fst heq
  · intro h cs s' hcs
    exact hcs.pairwise h (.refl _)

/-! ## Steps up to the end -/

/-- From `c`, `n` steps lead to `d`, where the call is done. -/
def Ends (F : Code α σ) (n : Nat) (c d : Config α σ) : Prop :=
  Steps F n c d ∧ F d.point = .done

namespace Ends

variable {n : Nat} {d : Config α σ}

/-- At the end, nothing is left. -/
theorem eq_of_done (h : Ends F n ⟨a, p, t⟩ d) (hp : F p = .done) : d = ⟨a, p, t⟩ := by
  obtain ⟨hs, -⟩ := h
  cases hs with
  | refl => rfl
  | head hs _ => cases hs with | act h | test _ h | goto h | suspend h => cases hp.symm.trans h

theorem act {x : α} (h : Ends F n ⟨a, p, t⟩ d) (hp : F p = .act x p') :
    ∃ m < n, Ends F m ⟨a, p', t ++ [.act x]⟩ d := by
  obtain ⟨hs, hd⟩ := h
  cases hs with
  | refl => cases hp.symm.trans hd
  | head hs hs' =>
    cases hs with
    | act h =>
      cases hp.symm.trans h
      exact ⟨_, Nat.lt_succ_self _, hs', hd⟩
    | test _ h | goto h | suspend h => cases hp.symm.trans h

theorem test {x : α} {y z : σ} (h : Ends F n ⟨a, p, t⟩ d) (hp : F p = .test x y z) :
    ∃ m < n, ∃ b, Ends F m ⟨a, if b then y else z, t ++ [.test x b]⟩ d := by
  obtain ⟨hs, hd⟩ := h
  cases hs with
  | refl => cases hp.symm.trans hd
  | head hs hs' =>
    cases hs with
    | test b h =>
      cases hp.symm.trans h
      exact ⟨_, Nat.lt_succ_self _, b, hs', hd⟩
    | act h | goto h | suspend h => cases hp.symm.trans h

theorem goto (h : Ends F n ⟨a, p, t⟩ d) (hp : F p = .goto p') :
    ∃ m < n, Ends F m ⟨a, p', t⟩ d := by
  obtain ⟨hs, hd⟩ := h
  cases hs with
  | refl => cases hp.symm.trans hd
  | head hs hs' =>
    cases hs with
    | goto h =>
      cases hp.symm.trans h
      exact ⟨_, Nat.lt_succ_self _, hs', hd⟩
    | act h | test _ h | suspend h => cases hp.symm.trans h

theorem suspend (h : Ends F n ⟨a, p, t⟩ d) (hp : F p = .suspend p') :
    ∃ m < n, Ends F m (.call p') d := by
  obtain ⟨hs, hd⟩ := h
  cases hs with
  | refl => cases hp.symm.trans hd
  | head hs hs' =>
    cases hs with
    | suspend h =>
      cases hp.symm.trans h
      exact ⟨_, Nat.lt_succ_self _, hs', hd⟩
    | act h | test _ h | goto h => cases hp.symm.trans h

theorem not_crash (h : Ends F n ⟨a, p, t⟩ d) (hp : F p = .crash) : False := by
  obtain ⟨hs, hd⟩ := h
  cases hs with
  | refl => cases hp.symm.trans hd
  | head hs _ => cases hs with | act h | test _ h | goto h | suspend h => cases hp.symm.trans h

end Ends

end CalcLang.Lib.Resumable
