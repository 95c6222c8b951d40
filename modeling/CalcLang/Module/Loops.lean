import CalcLang.Module.Emission

/-!
# Loops in the imports

A goroutine that is to load one of its own fathers panics, and that is the only look for
a loop there is. When two goroutines enter a loop at different modules, each comes
to a module that the other has put into `startMap`: neither finds a father there, and both
wait for ever (`two_ways_deadlock`).

This is all that can go wrong. As long as no goroutine of a module `u` calls `ParseModule`
for a module that waits for `u` already (`Untangled`), the modules that wait form no loop,
so something always goes on; and since a run in which `ParseDir` finishes has emitted every
module behind its imports, a loop that `main` leads to ends it with the panic (`loops_found`).
A step that is not `Untangled` leaves a loop of waiting modules (`tangled_of_enter`), and no
later step undoes it (`tangled_for_ever`).
-/

namespace CalcLang.Module

open CalcLang.Lib Relation

variable {P : Project} {s s' : State} {l : Label}

/-- All goroutines are asleep: nothing can go on, though nobody has panicked and `ParseDir` has
not finished. -/
def Deadlocked (P : Project) (s : State) : Prop :=
  s.loop = false ∧ s.place none ≠ .finished ∧ ∀ l, step P s l = none

/-- If the step takes a goroutine of `u` into a call of `ParseModule` for `v`, then `v` does not
wait for `u`, through whatever others. -/
def Untangled (s : State) (l : Label) : Prop :=
  ∀ u i v left, l = .enter (some (u, i)) → s.place (some (u, i)) = .calls v left →
    ¬ ReflTransGen (WaitsFor s) v u

theorem closed_kept (hs : Step P s l s') {v : String} (hv : s.startMap v = some .closed) :
    s'.startMap v = some .closed := by
  have hother : ∀ {m st}, s.startMap m ≠ some .closed →
      Function.update s.startMap m (some st) v = some .closed := by
    intro m st hm
    rwa [Function.update_of_ne (by rintro rfl; exact hm hv)]
  cases hs with
  | go hm | lock hm | unlock hm | close hm => exact hother (by rw [hm]; nofun)
  | perform hg hnone => exact hother (by rw [hnone]; nofun)
  | _ => exact hv

/-- Who waits after a step waited before, or has just entered a call. -/
theorem waitsFor_step (hs : Step P s l s') {u v : String} (hw : WaitsFor s' u v) :
    WaitsFor s u v ∨
      ∃ i left, l = .enter (some (u, i)) ∧ s.place (some (u, i)) = .calls v left := by
  obtain ⟨⟨i, left, hp⟩, hc⟩ := hw
  have hcs : s.startMap v ≠ some .closed := mt (closed_kept hs) hc
  by_cases hold : s.place (some (u, i)) = .waits v left ∨ s.place (some (u, i)) = .performs v left
  · exact .inl ⟨⟨i, left, hold⟩, hcs⟩
  -- the goroutine has moved, and into a call
  have hmoved : ∀ {g p}, (p = .waits v left ∨ p = .performs v left → some (u, i) ≠ g) →
      (Function.update s.place g p (some (u, i)) = .waits v left ∨
        Function.update s.place g p (some (u, i)) = .performs v left) → False := by
    intro g p hne hp
    by_cases heq : some (u, i) = g
    · rw [heq, Function.update_self] at hp
      exact hne hp heq
    · rw [Function.update_of_ne heq] at hp
      exact hold hp
  cases hs with
  | @wait g w left' hg hw =>
    by_cases heq : some (u, i) = g
    · rw [State.move_place, heq, Function.update_self] at hp
      obtain ⟨rfl, rfl⟩ := Place.waits.inj (hp.resolve_right nofun)
      exact .inr ⟨i, _, by rw [heq], heq ▸ hg⟩
    · exact (hmoved (fun _ => heq) hp).elim
  | @perform g w left' hg hw =>
    by_cases heq : some (u, i) = g
    · rw [State.move_place, heq, Function.update_self] at hp
      obtain ⟨rfl, rfl⟩ := Place.performs.inj (hp.resolve_left nofun)
      exact .inr ⟨i, _, by rw [heq], heq ▸ hg⟩
    · exact (hmoved (fun _ => heq) hp).elim
  | loop | lock | unlock | close => exact absurd hp hold
  | go | call | resume | leave | parse | receive =>
    simp only [State.note_place, State.move_place] at hp
    exact (hmoved (by rintro (h | h) <;> nomatch h) hp).elim

/-- An untangled step keeps the modules that wait from waiting for themselves. -/
theorem Untangled.kept (hu : Untangled s l) (h : Acyclic (WaitsFor s)) (hs : Step P s l s') :
    Acyclic (WaitsFor s') := by
  by_cases henter : ∃ u i v left, l = .enter (some (u, i)) ∧ s.place (some (u, i)) = .calls v left
  · obtain ⟨u, i, v, left, rfl, hp⟩ := henter
    refine h.insert (u := u) fun x y hw => ?_
    rcases waitsFor_step hs hw with hw | ⟨i', left', hl, hp'⟩
    · exact .inl hw
    · obtain ⟨rfl, rfl⟩ := Prod.mk.inj (Option.some.inj (Label.enter.inj hl))
      obtain ⟨rfl, -⟩ := Place.calls.inj (hp.symm.trans hp')
      exact .inr ⟨rfl, hu _ _ _ _ rfl hp⟩
  · refine h.mono fun x y hw => (waitsFor_step hs hw).resolve_right ?_
    rintro ⟨i, left, hl, hp⟩
    exact henter ⟨x, i, y, left, hl, hp⟩

/-- When `ParseDir` finishes, no module that `main` leads to imports itself: each begins its
`Emit` behind the end of that of its imports. -/
theorem acyclic_of_finished (hinv : Inv P s) (hlog : Logged P s) (hfin : s.place none = .finished)
    {m : String} (hm : ReflTransGen P.Imports "main" m) : ¬ TransGen P.Imports m m := by
  have hlater : ∀ u v, ReflTransGen P.Imports "main" u → P.Imports u v →
      s.log.idxOf (.emits v) < s.log.idxOf (.emits u) := by
    intro u v hu huv
    have hmem : .emits u ∈ s.log :=
      (hlog.emits u).mpr ⟨_, hinv.closed_of_finished hfin hu, nofun⟩
    obtain ⟨before, behind, heq⟩ := List.append_of_mem hmem
    obtain ⟨b₁, b₂, heq'⟩ := List.append_of_mem ((hlog.ordered.begins _ _ _ heq).2 v huv)
    have hv : .emits v ∈ before := by
      rw [heq', List.append_assoc] at heq
      rw [heq']
      exact List.mem_append_left _ (hlog.ordered.ends _ _ _ heq)
    have hu' : .emits u ∉ before := fun hu' => by
      have hnd := hlog.nodup
      rw [heq] at hnd
      exact List.disjoint_of_nodup_append hnd hu' List.mem_cons_self
    rw [heq, List.idxOf_append_of_mem hv, List.idxOf_append_of_notMem hu', List.idxOf_cons_self]
    exact List.idxOf_lt_length_of_mem hv
  have hpath : ∀ u, TransGen P.Imports m u → s.log.idxOf (.emits u) < s.log.idxOf (.emits m) := by
    intro u hu
    induction hu with
    | single hmu => exact hlater m _ hm hmu
    | tail hmu huv ih => exact (hlater _ _ (hm.trans hmu.to_reflTransGen) huv).trans ih
  exact fun hcycle => Nat.lt_irrefl _ (hpath m hcycle)

/-- Every run of `ParseDir` comes to an end. In a run of untangled steps there is no deadlock,
and if `main` leads to a loop in the imports, the end is the panic. -/
theorem loops_found (P : Project) :
    (∃ bound, ∀ ls s, (loading P).exec .start ls = some s → ls.length ≤ bound) ∧
    ∀ s, (loading P).Reach Untangled s → ¬ Deadlocked P s ∧
      ((∃ m, ReflTransGen P.Imports "main" m ∧ TransGen P.Imports m m) →
        (∀ l, step P s l = none) → s.loop = true) := by
  refine ⟨⟨_, fun ls s hs => runs_end P hs⟩, fun s hs => ?_⟩
  have hw : Acyclic (WaitsFor s) := by
    refine hs.invariant (P := fun s => Acyclic (WaitsFor s)) ?_ fun s l s' h hu hstep =>
      hu.kept h (step_cases hstep).2
    rintro x hx
    obtain ⟨y, ⟨⟨i, left, hp⟩, -⟩, -⟩ := TransGen.head'_iff.mp hx
    exact hp.elim nofun nofun
  obtain ⟨hinv, hlog, -⟩ := reach_inv hs
  have hgo : s.loop = false → s.place none ≠ .finished → ¬ ∀ l, step P s l = none := by
    intro hl hfin hend
    obtain ⟨l, s', hs'⟩ := hinv.progress hl hw hfin
    rw [hend l] at hs'
    nomatch hs'
  refine ⟨fun ⟨hl, hfin, hend⟩ => hgo hl hfin hend, ?_⟩
  rintro ⟨m, hm, hcycle⟩ hend
  by_contra hl
  have hl : s.loop = false := by simpa using hl
  have hfin : s.place none = .finished := by
    by_contra hne
    exact hgo hl hne hend
  exact acyclic_of_finished hinv hlog hfin hm hcycle

/-- A goroutine of the module has been started and not finished. -/
def AtWork (s : State) (m : String) : Prop :=
  ∃ i, s.place (some (m, i)) ≠ .unstarted ∧ s.place (some (m, i)) ≠ .finished

theorem WaitsFor.atWork {u v : String} (h : WaitsFor s u v) : AtWork s u := by
  obtain ⟨⟨i, left, hp⟩, -⟩ := h
  refine ⟨i, ?_, ?_⟩ <;> rcases hp with hp | hp <;> rw [hp] <;> nofun

theorem Inv.not_closed_of_atWork (h : Inv P s) {m : String} (hm : AtWork s m) {st : Stage}
    (hst : s.startMap m = some st) : ∃ n, st = .starting n := by
  by_contra hne
  push Not at hne
  obtain ⟨i, hu, hf⟩ := hm
  exact hf (h.received m st hst hne i (h.bound hu).2)

/-- A module goes on waiting as long as what it waits for is at work. -/
theorem waitsFor_kept (hinv : Inv P s) (hs : Step P s l s') {u v : String}
    (huv : WaitsFor s u v) (hv : AtWork s v) : WaitsFor s' u v := by
  obtain ⟨⟨i, left, hp⟩, hc⟩ := huv
  have hplace : ∀ {g p}, (s.place g = .waits v left ∨ s.place g = .performs v left → False) →
      (Function.update s.place g p (some (u, i)) = .waits v left ∨
        Function.update s.place g p (some (u, i)) = .performs v left) := by
    intro g p hg
    rwa [Function.update_of_ne]
    rintro rfl
    exact hg hp
  have hstage : ∀ {m st}, st ≠ .closed →
      Function.update s.startMap m (some st) v ≠ some .closed := by
    intro m st hst
    by_cases heq : v = m
    · rw [heq, Function.update_self]
      exact fun h => hst (Option.some.inj h)
    · rwa [Function.update_of_ne heq]
  cases hs with
  | loop => exact ⟨⟨i, left, hp⟩, hc⟩
  | lock | unlock => exact ⟨⟨i, left, hp⟩, hstage nofun⟩
  | @close m hm =>
    refine ⟨⟨i, left, hp⟩, ?_⟩
    -- it waits until `v` is closed, and `v` is at work still
    have hne : v ≠ m := by
      rintro rfl
      obtain ⟨n, hn⟩ := hinv.not_closed_of_atWork hv hm
      nomatch hn
    rwa [State.setStage_startMap, Function.update_of_ne hne]
  | @go m n hm hn =>
    have hun := (hinv.unstarted m n).mpr fun st hst => by
      obtain rfl := Option.some.inj (hm.symm.trans hst)
      exact le_rfl
    exact ⟨⟨i, left, hplace (by rw [hun]; exact fun h => h.elim nofun nofun)⟩, hstage nofun⟩
  | perform hg =>
    exact ⟨⟨i, left, hplace (by rw [hg]; exact fun h => h.elim nofun nofun)⟩, hstage nofun⟩
  | @resume g w' left'' hg hw' =>
    refine ⟨⟨i, left, hplace ?_⟩, hc⟩
    rcases hg with hg | hg <;> rw [hg] <;> rintro (h | h) <;> cases h <;> exact hc hw'
  | leave => exact ⟨⟨i, left, hp⟩, hc⟩
  | call hg | wait hg | parse hg | receive _ hg =>
    exact ⟨⟨i, left, hplace (by rw [hg]; exact fun h => h.elim nofun nofun)⟩, hc⟩

/-- A call that is not untangled: its module waits for itself. -/
theorem tangled_of_enter (hinv : Inv P s) {u v : String} {i : ℕ} {left : List String}
    (hs : Step P s (.enter (some (u, i))) s') (hp : s.place (some (u, i)) = .calls v left)
    (hvu : ReflTransGen (WaitsFor s) v u) : TransGen (WaitsFor s') v v := by
  have hu : AtWork s u := ⟨i, by rw [hp]; nofun, by rw [hp]; nofun⟩
  have hv : AtWork s v := by
    rcases hvu.cases_head with rfl | ⟨w, hvw, -⟩
    · exact hu
    · exact hvw.atWork
  have hpath : ReflTransGen (WaitsFor s') v u := by
    have hkept : ∀ y, ReflTransGen (WaitsFor s) v y → AtWork s y → ReflTransGen (WaitsFor s') v y := by
      intro y hy
      induction hy with
      | refl => exact fun _ => .refl
      | tail _ hby ih => exact fun hy => (ih hby.atWork).tail (waitsFor_kept hinv hs hby hy)
    exact hkept u hvu hu
  refine TransGen.tail' hpath ⟨⟨i, left, ?_⟩, fun hc => ?_⟩
  · cases hs with
    | wait hg =>
      obtain ⟨rfl, rfl⟩ := Place.calls.inj (hp.symm.trans hg)
      exact .inl (Function.update_self ..)
    | perform hg =>
      obtain ⟨rfl, rfl⟩ := Place.calls.inj (hp.symm.trans hg)
      exact .inr (Function.update_self ..)
  · have hc' : s.startMap v = some .closed := by
      cases hs with
      | wait hg => exact hc
      | @perform _ w _ hg hnone =>
        obtain ⟨rfl, rfl⟩ := Place.calls.inj (hp.symm.trans hg)
        rw [State.move_startMap, State.setStage_startMap, Function.update_self] at hc
        nomatch hc
    obtain ⟨n, hn⟩ := hinv.not_closed_of_atWork hv hc'
    nomatch hn

/-- Modules that wait for one another do so for ever. -/
theorem tangled_for_ever {m : String} (hinv : Inv P s) (hm : TransGen (WaitsFor s) m m)
    {ls : List Label} (hs : (loading P).exec s ls = some s') : TransGen (WaitsFor s') m m := by
  induction ls generalizing s with
  | nil => exact Option.some.inj hs ▸ hm
  | cons l ls ih =>
    obtain ⟨s₁, hs₁, hs⟩ := Option.bind_eq_some_iff.mp hs
    obtain ⟨-, hstep⟩ := step_cases hs₁
    have hpath : ∀ {y z}, TransGen (WaitsFor s) m y → WaitsFor s y z →
        TransGen (WaitsFor s₁) m y := by
      intro y z hy hyz
      induction hy generalizing z with
      | single hmy => exact .single (waitsFor_kept hinv hstep hmy hyz.atWork)
      | tail _ hby ih => exact (ih hby).tail (waitsFor_kept hinv hstep hby hyz.atWork)
    obtain ⟨y, hmy, -⟩ := TransGen.head'_iff.mp hm
    exact ih (hinv.kept hstep) (hpath hm hmy) hs

/-- Two files of `main` enter a loop of two modules, each at another. -/
def twoWays : Project where
  modules := (runtimeModules ++ ["main", "a", "b"]).toFinset
  files m := if m = "main" then [["a"], ["b"]] else if m = "a" then [["b"]] else
    if m = "b" then [["a"]] else [[]]
  sources m _ := by split_ifs <;> nofun
  loaded := by decide
  closed := by decide
  library := by
    have himp : ∀ m ∈ runtimeModules, (if m = "main" then [["a"], ["b"]] else
        if m = "a" then [["b"]] else if m = "b" then [["a"]] else [[]]) = [[]] := by decide
    intro m hm h
    rcases h.cases_head with rfl | ⟨v, ⟨file, hfile, hv⟩, -⟩
    · exact absurd hm (by decide)
    · rw [himp m hm, List.mem_singleton] at hfile
      rw [hfile] at hv
      nomatch hv

/-- The runtime is loaded; then `main` loads `a` and `b` at the same time. -/
def entersBoth : List Label :=
  (runtimeModules.flatMap fun r => [.call none r, .enter none, .go r, .finish (some (r, 0)),
    .receive r 0, .lock r, .unlock r, .close r, .resume none]) ++
  [.call none "main", .enter none, .go "main", .go "main",
    .call (some ("main", 0)) "a", .call (some ("main", 1)) "b",
    .enter (some ("main", 0)), .enter (some ("main", 1)), .go "a", .go "b",
    .call (some ("a", 0)) "b", .call (some ("b", 0)) "a",
    .enter (some ("a", 0)), .enter (some ("b", 0))]

/-- A goroutine that has not been started, has finished, or is in a call that has not returned. -/
def State.asleep (s : State) (g : Goroutine) : Bool :=
  match s.place g with
  | .unstarted | .finished => true
  | .waits v _ | .performs v _ => s.startMap v ≠ some .closed
  | _ => false

/-- A call that has ended, or has a goroutine that has not finished. -/
def State.stuck (P : Project) (s : State) (m : String) : Bool :=
  match s.startMap m with
  | none | some .closed => true
  | some (.starting n) => n = (P.files m).length ∧
    ∃ i ∈ List.range n, s.place (some (m, i)) ≠ .finished
  | _ => false

/-- How a deadlock looks. -/
theorem Inv.no_step (h : Inv P s) (hroot : s.asleep none)
    (hg : ∀ m ∈ P.modules, ∀ i ∈ List.range (P.files m).length, s.asleep (some (m, i)))
    (hm : ∀ m ∈ P.modules, s.stuck P m) (l : Label) : step P s l = none := by
  have hasleep : ∀ g, s.asleep g := by
    rintro (_ | ⟨m, i⟩)
    · exact hroot
    by_cases hun : s.place (some (m, i)) = .unstarted
    · simp [State.asleep, hun]
    · obtain ⟨hmod, hi⟩ := h.bound hun
      exact hg m hmod i (List.mem_range.mpr hi)
  have hstuck : ∀ {m st}, s.startMap m = some st → s.stuck P m :=
    fun hst => hm _ (h.known _ (by rw [hst]; nofun))
  rw [Option.eq_none_iff_forall_ne_some]
  intro s' hs
  obtain ⟨-, hstep⟩ := step_cases hs
  cases hstep with
  | go hst hn =>
    have := hstuck hst
    simp only [State.stuck, hst, Bool.decide_and, Bool.and_eq_true, decide_eq_true_eq] at this
    omega
  | @loop g v left hp | @call g v left hp | @wait g v left hp | @perform g v left hp =>
    have := hasleep g
    simp [State.asleep, hp] at this
  | @resume g v left hp hv =>
    have := hasleep g
    rcases hp with hp | hp <;> simp [State.asleep, hp, hv] at this
  | leave hp =>
    have := hasleep none
    simp [State.asleep, hp] at this
  | @parse m i hp | @receive m i _ hp =>
    have := hasleep (some (m, i))
    simp [State.asleep, hp] at this
  | lock hst _ hfin =>
    have := hstuck hst
    simp [State.stuck, hst] at this
    obtain ⟨i, hi, hne⟩ := this
    exact hne (hfin i hi)
  | unlock hst | close hst =>
    have := hstuck hst
    simp [State.stuck, hst] at this

/-- `main` leads to a loop in the imports; its two goroutines enter it at `a` and at `b`, and
everything comes to a halt without the panic. -/
theorem two_ways_deadlock :
    (ReflTransGen twoWays.Imports "main" "a" ∧ TransGen twoWays.Imports "a" "a") ∧
      ∃ s, (loading twoWays).Reach (fun _ _ => True) s ∧ Deadlocked twoWays s := by
  have hmain : twoWays.Imports "main" "a" := ⟨by decide, ["a"], by decide, by decide⟩
  have hab : twoWays.Imports "a" "b" := ⟨by decide, ["b"], by decide, by decide⟩
  have hba : twoWays.Imports "b" "a" := ⟨by decide, ["a"], by decide, by decide⟩
  refine ⟨⟨.single hmain, .tail (.single hab) hba⟩, ?_⟩
  have hrun : ((loading twoWays).exec .start entersBoth).any fun s =>
      !s.loop && s.place none = .performs "main" [] && s.asleep none &&
      decide (∀ m ∈ twoWays.modules, ∀ i ∈ List.range (twoWays.files m).length,
        s.asleep (some (m, i))) && decide (∀ m ∈ twoWays.modules, s.stuck twoWays m) := by
    decide +kernel
  obtain ⟨s, hs, hcheck⟩ := (Option.any_eq_true _ _).mp hrun
  simp only [Bool.and_eq_true, Bool.not_eq_true', decide_eq_true_eq] at hcheck
  obtain ⟨⟨⟨⟨hloop, hplace⟩, hroot⟩, hg⟩, hm⟩ := hcheck
  have hreach := Machine.Reach.start.exec hs
  refine ⟨s, hreach, hloop, by rw [hplace]; nofun, fun l => ?_⟩
  exact (reach_inv hreach).1.no_step hroot hg hm l

end CalcLang.Module
