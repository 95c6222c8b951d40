import CalcLang.Lib.Resumable

/-!
# Calling a procedure until it is done

The calls of a resumable procedure, up to the first that is done, are one run (`iterated`), in which a suspension is an
action like others. Nothing is lost by that: the run tells which call has performed what (`performs_marks_iff`,
`performs_done_iff`). So a flow that agrees with this run says what each of the calls does.
-/

namespace CalcLang.Lib.Resumable

variable {α σ : Type*}

/-- The calls of a procedure as one run. `none` is a suspension. -/
def iterated (F : Code α σ) : Flow (Option α) σ := fun s =>
  match F s with
  | .act a s' => .act (some a) s'
  | .test c y n => .test (some c) y n
  | .goto s' => .goto s'
  | .suspend s' => .act none s'
  | .done => .ret
  | .crash => .stuck

/-- Calls one after the other that perform `ts` and suspend. -/
inductive Suspends (F : Code α σ) : σ → List (List (Event α)) → σ → Prop
  | nil (s : σ) : Suspends F s [] s
  | cons {s s' s'' : σ} {t : List (Event α)} {ts : List (List (Event α))} :
      Runs F s t (.suspended s') → Suspends F s' ts s'' → Suspends F s (t :: ts) s''

/-- An event of a call, in the run. -/
def seen : Event α → Event (Option α)
  | .act a => .act (some a)
  | .test c b => .test (some c) b
  | .ret => .ret

/-- What calls that suspend perform, in the run. -/
def marks (ts : List (List (Event α))) : List (Event (Option α)) :=
  ts.flatMap fun t => t.map seen ++ [.act none]

section Runs

variable {F : Code α σ} {s s' : σ} {t : List (Event α)} {u v : List (Event (Option α))}

theorem iterated_act {x : Option α} (h : iterated F s = .act x s') :
    (∃ a, x = some a ∧ F s = .act a s') ∨ x = none ∧ F s = .suspend s' := by
  unfold iterated at h
  cases hs : F s <;> simp_all

theorem iterated_test {x : Option α} {y n : σ} (h : iterated F s = .test x y n) :
    ∃ c, x = some c ∧ F s = .test c y n := by
  unfold iterated at h
  cases hs : F s <;> simp_all

theorem iterated_goto (h : iterated F s = .goto s') : F s = .goto s' := by
  unfold iterated at h
  cases hs : F s <;> simp_all

theorem iterated_ret (h : iterated F s = .ret) : F s = .done := by
  unfold iterated at h
  cases hs : F s <;> simp_all

theorem iterated_crash (h : F s = .crash) : iterated F s = .stuck := by
  rw [iterated, h]

theorem seen_eq_act {e : Event α} {x : Option α} (h : seen e = .act x) : ∃ a, e = .act a ∧ x = some a := by
  cases e with
  | act a => exact ⟨a, rfl, (Event.act.inj h).symm⟩
  | test | ret => cases h

theorem seen_eq_test {e : Event α} {x : Option α} {b : Bool} (h : seen e = .test x b) :
    ∃ c, e = .test c b ∧ x = some c := by
  cases e with
  | test c b' =>
    obtain ⟨rfl, rfl⟩ := Event.test.inj h
    exact ⟨c, rfl, rfl⟩
  | act | ret => cases h

/-- A call is a part of the run. -/
theorem Runs.performs {o : Outcome σ} (h : Runs F s t o) :
    (∀ s', o = .suspended s' → (iterated F).Performs s' u →
      (iterated F).Performs s (t.map seen ++ .act none :: u)) ∧
    (o = .done → (iterated F).Performs s (t.map seen ++ [.ret])) := by
  induction h with
  | act hs _ ih =>
    refine ⟨fun s' ho hu => .act ?_ (ih.1 s' ho hu), fun ho => .act ?_ (ih.2 ho)⟩ <;> rw [iterated, hs]
  | test b hs _ ih =>
    refine ⟨fun s' ho hu => .test b ?_ (ih.1 s' ho hu), fun ho => .test b ?_ (ih.2 ho)⟩ <;> rw [iterated, hs]
  | goto hs _ ih =>
    refine ⟨fun s' ho hu => .goto ?_ (ih.1 s' ho hu), fun ho => .goto ?_ (ih.2 ho)⟩ <;> rw [iterated, hs]
  | suspend hs =>
    refine ⟨fun s' ho hu => ?_, nofun⟩
    obtain rfl := Outcome.suspended.inj ho
    exact .act (by rw [iterated, hs]) hu
  | done hs => exact ⟨nofun, fun _ => .ret (by rw [iterated, hs])⟩

/-- Up to a suspension, the run is a call. -/
theorem exists_suspended (h : (iterated F).Performs s v) (hv : v = t.map seen ++ .act none :: u) :
    ∃ s', Runs F s t (.suspended s') ∧ (iterated F).Performs s' u := by
  induction h generalizing t with
  | start => cases t <;> cases hv
  | act hs hrest ih =>
    rcases t with _ | ⟨e, t⟩
    · obtain ⟨hx, rfl⟩ := List.cons.inj hv
      rcases iterated_act hs with ⟨a, rfl, -⟩ | ⟨-, hs⟩
      · cases hx
      · exact ⟨_, .suspend hs, hrest⟩
    · obtain ⟨hx, htail⟩ := List.cons.inj hv
      obtain ⟨a, rfl, rfl⟩ := seen_eq_act hx.symm
      rcases iterated_act hs with ⟨a', ha, hs⟩ | ⟨ha, -⟩
      · obtain rfl := Option.some.inj ha
        obtain ⟨s', hrun, hu⟩ := ih htail
        exact ⟨s', .act hs hrun, hu⟩
      · cases ha
  | test b hs _ ih =>
    rcases t with _ | ⟨e, t⟩
    · cases (List.cons.inj hv).1
    · obtain ⟨hx, htail⟩ := List.cons.inj hv
      obtain ⟨c, rfl, rfl⟩ := seen_eq_test hx.symm
      obtain ⟨c', hc, hs⟩ := iterated_test hs
      obtain rfl := Option.some.inj hc
      obtain ⟨s', hrun, hu⟩ := ih htail
      exact ⟨s', .test b hs hrun, hu⟩
  | goto hs _ ih =>
    obtain ⟨s', hrun, hu⟩ := ih hv
    exact ⟨s', .goto (iterated_goto hs) hrun, hu⟩
  | ret hs =>
    rcases t with _ | ⟨e, t⟩
    · cases (List.cons.inj hv).1
    · cases t <;> cases (List.cons.inj hv).2

/-- Up to its end, it is one that is done. -/
theorem runs_done (h : (iterated F).Performs s v) (hv : v = t.map seen ++ [.ret]) : Runs F s t .done := by
  induction h generalizing t with
  | start => cases t <;> cases hv
  | act hs _ ih =>
    rcases t with _ | ⟨e, t⟩
    · cases (List.cons.inj hv).1
    · obtain ⟨hx, htail⟩ := List.cons.inj hv
      obtain ⟨a, rfl, rfl⟩ := seen_eq_act hx.symm
      rcases iterated_act hs with ⟨a', ha, hs⟩ | ⟨ha, -⟩
      · obtain rfl := Option.some.inj ha
        exact .act hs (ih htail)
      · cases ha
  | test b hs _ ih =>
    rcases t with _ | ⟨e, t⟩
    · cases (List.cons.inj hv).1
    · obtain ⟨hx, htail⟩ := List.cons.inj hv
      obtain ⟨c, rfl, rfl⟩ := seen_eq_test hx.symm
      obtain ⟨c', hc, hs⟩ := iterated_test hs
      obtain rfl := Option.some.inj hc
      exact .test b hs (ih htail)
  | goto hs _ ih => exact .goto (iterated_goto hs) (ih hv)
  | ret hs =>
    rcases t with _ | ⟨e, t⟩
    · exact .done (iterated_ret hs)
    · cases t <;> cases (List.cons.inj hv).2

/-- The run performs what the calls do, and then something else. -/
theorem performs_append_iff {ts : List (List (Event α))} :
    (iterated F).Performs s (marks ts ++ u) ↔ ∃ s', Suspends F s ts s' ∧ (iterated F).Performs s' u := by
  induction ts generalizing s with
  | nil =>
    refine ⟨fun h => ⟨s, .nil s, h⟩, ?_⟩
    rintro ⟨s', hs, hu⟩
    cases hs
    exact hu
  | cons t ts ih =>
    have hmarks : marks (t :: ts) ++ u = t.map seen ++ .act none :: (marks ts ++ u) := by
      simp [marks, List.append_assoc]
    rw [hmarks]
    constructor
    · intro h
      obtain ⟨s₁, hrun, hrest⟩ := exists_suspended h rfl
      obtain ⟨s', hs', hu⟩ := ih.mp hrest
      exact ⟨s', .cons hrun hs', hu⟩
    · rintro ⟨s', hs', hu⟩
      cases hs' with
      | cons hrun hrest => exact hrun.performs.1 _ rfl (ih.mpr ⟨s', hrest, hu⟩)

/-- **Calls that suspend.** -/
theorem performs_marks_iff {ts : List (List (Event α))} :
    (iterated F).Performs s (marks ts) ↔ ∃ s', Suspends F s ts s' := by
  have h : (iterated F).Performs s (marks ts ++ []) ↔ _ := performs_append_iff
  rw [List.append_nil] at h
  rw [h]
  exact ⟨fun ⟨s', hs', _⟩ => ⟨s', hs'⟩, fun ⟨s', hs'⟩ => ⟨s', hs', .start s'⟩⟩

/-- **And one that is done.** -/
theorem performs_done_iff {ts : List (List (Event α))} :
    (iterated F).Performs s (marks ts ++ (t.map seen ++ [.ret])) ↔
      ∃ s', Suspends F s ts s' ∧ Runs F s' t .done := by
  rw [performs_append_iff]
  refine exists_congr fun s' => and_congr_right fun _ => ⟨fun h => runs_done h rfl, fun h => ?_⟩
  exact (h.performs (u := [])).2 rfl

end Runs

end CalcLang.Lib.Resumable
