import CalcLang.Module.Progress

/-!
# Modules are emitted once, behind what they import

If no module imports itself through others, every run of `ParseDir` ends with every module
that `main` reaches parsed and emitted, once each, and every `Emit` begins behind the
`Emit` of what its module imports (`emitted_once_in_order`). The order is kept by every
run, also by one with a loop in the imports, as long as it lasts (`Logged.ordered`); what
the hypothesis adds is that no goroutine panics and that something always goes on: a
module that waits for another imports it.
-/

namespace CalcLang.Module

open CalcLang.Lib Relation

variable {P : Project} {s s' : State} {l : Label}

/-- The fathers of a call are modules that lead to it, so the panic is about a loop. -/
structure Lineage (P : Project) (s : State) : Prop where
  fathers : ∀ m, ∀ x ∈ s.fathers m, TransGen P.Imports x m
  loop : s.loop = true → ∃ m, TransGen P.Imports m m

theorem Lineage.start : Lineage P .start := ⟨nofun, nofun⟩

theorem Inv.imports (h : Inv P s) {m v : String} {i : ℕ} (hv : v ∈ (s.place (some (m, i))).pending) :
    P.Imports m v := by
  have hne : s.place (some (m, i)) ≠ .unstarted := by
    intro hun
    rw [hun] at hv
    nomatch hv
  have hmem := h.pending _ v hv
  obtain ⟨hm, hi⟩ := h.bound hne
  simp only [Project.imports, List.getElem?_eq_getElem hi, Option.getD_some] at hmem
  exact ⟨hm, _, List.getElem_mem hi, hmem⟩

/-- `newF` of a goroutine with `v` to load. -/
theorem Lineage.newF (h : Lineage P s) (hinv : Inv P s) {g : Goroutine} {v x : String}
    (hv : v ∈ (s.place g).pending) (hx : x ∈ s.newF g) : TransGen P.Imports x v := by
  cases g with
  | none => nomatch hx
  | some f =>
    obtain ⟨m, i⟩ := f
    have himp := hinv.imports hv
    rcases List.mem_cons.mp hx with rfl | hx
    · exact .single himp
    · exact (h.fathers m x hx).tail himp

theorem Lineage.kept (h : Lineage P s) (hinv : Inv P s) (hs : Step P s l s') : Lineage P s' := by
  cases hs with
  | @loop g v left hg hv hf =>
    have hpend : v ∈ (s.place g).pending := by
      rw [hg]
      exact mem_left_of_mayCall hv
    exact ⟨h.fathers, fun _ => ⟨v, h.newF hinv hpend hf⟩⟩
  | @perform g v left hg hv =>
    refine ⟨fun m x hx => ?_, h.loop⟩
    simp only [State.move_fathers, State.setStage_fathers] at hx
    by_cases heq : m = v
    · rw [heq, Function.update_self] at hx
      exact heq ▸ h.newF hinv (by rw [hg]; exact List.mem_cons_self) hx
    · rw [Function.update_of_ne heq] at hx
      exact h.fathers m x hx
  | _ => exact ⟨h.fathers, h.loop⟩

/-- Everything a reachable state satisfies. -/
theorem reach_inv {ok : State → Label → Prop} (h : (loading P).Reach ok s) :
    Inv P s ∧ Logged P s ∧ Lineage P s := by
  refine h.invariant (P := fun s => Inv P s ∧ Logged P s ∧ Lineage P s)
    ⟨.start, .start, .start⟩ ?_
  rintro s l s' ⟨hinv, hlog, hlin⟩ - hs
  obtain ⟨-, hstep⟩ := step_cases hs
  exact ⟨hinv.kept hstep, hlog.kept hinv hstep, hlin.kept hinv hstep⟩

/-- A module that waits for another imports it. -/
theorem Inv.imports_of_waitsFor (h : Inv P s) {u v : String} (hw : WaitsFor s u v) :
    P.Imports u v := by
  obtain ⟨⟨i, left, hp⟩, -⟩ := hw
  refine h.imports (i := i) ?_
  rcases hp with hp | hp <;> rw [hp] <;> exact List.mem_cons_self

/-- What is imported, through whatever others, by a module that is loaded. -/
theorem Inv.closed_of_reaches (h : Inv P s) {u v : String} (hu : s.startMap u = some .closed)
    (hv : ReflTransGen P.Imports u v) : s.startMap v = some .closed := by
  induction hv with
  | refl => exact hu
  | tail _ hvw ih => exact h.closed_of_received (h.received _ _ ih nofun) hvw

/-- `ParseDir` finishes when `main` is loaded, and the rest with it. -/
theorem Inv.closed_of_finished (h : Inv P s) (hfin : s.place none = .finished) {m : String}
    (hm : ReflTransGen P.Imports "main" m) : s.startMap m = some .closed := by
  refine h.closed_of_reaches ?_ hm
  have hret := h.returned none (by rw [hfin]; rintro ⟨⟩) "main" (by simp [Project.imports])
  rw [hfin] at hret
  rcases hret with hret | hret
  · cases hret
  · exact hret

/-- A module that is loaded has left its traces in the log, one of each. -/
theorem Logged.count (h : Logged P s) (hinv : Inv P s) {m : String}
    (hm : s.startMap m = some .closed) :
    (∀ i < (P.files m).length, s.log.count (.parsed m i) = 1) ∧
      s.log.count (.emits m) = 1 ∧ s.log.count (.emitted m) = 1 := by
  refine ⟨fun i hi => ?_, ?_, ?_⟩ <;> refine List.count_eq_one_of_mem h.nodup ?_
  · exact (h.parsed m i).mpr (.inr (hinv.received m _ hm nofun i hi))
  · exact (h.emits m).mpr ⟨_, hm, nofun⟩
  · exact (h.emitted m).mpr (.inr hm)

/-- Without a loop in the imports every run of `ParseDir` comes to an end. Nothing is
parsed or emitted twice, and an `Emit` begins behind the parse of its module's files and the `Emit`
of what they import; and when nothing can go on any more, each module that `main` leads to
has been parsed and emitted. -/
theorem emitted_once_in_order (P : Project) (hP : Acyclic P.Imports) :
    (∃ bound, ∀ ls s, (loading P).exec .start ls = some s → ls.length ≤ bound) ∧
    ∀ s, (loading P).Reach (fun _ _ => True) s →
      s.loop = false ∧ s.log.Nodup ∧ Ordered P s.log ∧
      ((∀ l, step P s l = none) → ∀ m, ReflTransGen P.Imports "main" m →
        (∀ i < (P.files m).length, s.log.count (.parsed m i) = 1) ∧
          s.log.count (.emits m) = 1 ∧ s.log.count (.emitted m) = 1) := by
  refine ⟨⟨_, fun ls s hs => runs_end P hs⟩, fun s hs => ?_⟩
  obtain ⟨hinv, hlog, hlin⟩ := reach_inv hs
  have hloop : s.loop = false := by
    by_contra hl
    obtain ⟨m, hm⟩ := hlin.loop (by simpa using hl)
    exact hP m hm
  refine ⟨hloop, hlog.nodup, hlog.ordered, fun hend m hm => ?_⟩
  have hfin : s.place none = .finished := by
    by_contra hne
    have hw : Acyclic (WaitsFor s) := hP.mono fun u v => hinv.imports_of_waitsFor
    obtain ⟨l, s', hs'⟩ := hinv.progress hloop hw hne
    rw [hend l] at hs'
    nomatch hs'
  exact hlog.count hinv (hinv.closed_of_finished hfin hm)

/-- Two files of `main` import `a` and `b`, and these both `c`. -/
def diamond : Project where
  modules := (runtimeModules ++ ["main", "a", "b", "c"]).toFinset
  files m := if m = "main" then [["a"], ["b"]] else if m = "a" ∨ m = "b" then [["c"]] else [[]]
  sources m _ := by split_ifs <;> nofun
  loaded := by decide
  closed := by decide
  library := by
    have himp : ∀ m ∈ runtimeModules, (if m = "main" then [["a"], ["b"]] else
        if m = "a" ∨ m = "b" then [["c"]] else [[]]) = [[]] := by decide
    intro m hm h
    rcases h.cases_head with rfl | ⟨v, ⟨file, hfile, hv⟩, -⟩
    · exact absurd hm (by decide)
    · rw [himp m hm, List.mem_singleton] at hfile
      rw [hfile] at hv
      nomatch hv

theorem emitted_once_in_order_diamond :
    (∃ bound, ∀ ls s, (loading diamond).exec .start ls = some s → ls.length ≤ bound) ∧
    ∀ s, (loading diamond).Reach (fun _ _ => True) s →
      s.loop = false ∧ s.log.Nodup ∧ Ordered diamond s.log ∧
      ((∀ l, step diamond s l = none) → ∀ m, ReflTransGen diamond.Imports "main" m →
        (∀ i < (diamond.files m).length, s.log.count (.parsed m i) = 1) ∧
          s.log.count (.emits m) = 1 ∧ s.log.count (.emitted m) = 1) := by
  have hrank : ∀ m ∈ diamond.modules, ∀ file ∈ diamond.files m, ∀ v ∈ file,
      (if v = "main" then 2 else if v = "a" ∨ v = "b" then 1 else 0) <
        (if m = "main" then 2 else if m = "a" ∨ m = "b" then 1 else 0) := by decide
  refine emitted_once_in_order diamond (.of_rank
    (fun m => if m = "main" then 2 else if m = "a" ∨ m = "b" then 1 else 0) ?_)
  rintro m v ⟨hm, file, hfile, hv⟩
  exact hrank m hm file hfile v hv

end CalcLang.Module
