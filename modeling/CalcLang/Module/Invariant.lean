import Mathlib.Tactic.Basic
import CalcLang.Module.ParseModule

/-!
# What every step of loading keeps

`Inv` is about control: which goroutines have been started, what each has left to do,
what is loaded already when a call of `ParseModule` has returned (`returned`) or a
module's files have been received (`received`), and who holds `emitMu`. `Logged` is
about the log, which it ties to the state: a file is in it once it is parsed, a
module once its call has come to `Emit`. Most steps move one goroutine or take one call
one stage further; `Inv.move` and `Inv.setStage` are the two lemmas for those.
-/

namespace CalcLang.Module

open CalcLang.Lib Relation

variable {P : Project} {s s' : State} {l : Label}

/-- What the control of the goroutines keeps. -/
structure Inv (P : Project) (s : State) : Prop where
  root : s.place none ≠ .unstarted ∧ s.place none ≠ .parsed
  known : ∀ m, s.startMap m ≠ none → m ∈ P.modules
  pending : ∀ g, ∀ v ∈ (s.place g).pending, v ∈ P.imports g
  unstarted : ∀ m i, s.place (some (m, i)) = .unstarted ↔
    ∀ st, s.startMap m = some st → st.started (P.files m).length ≤ i
  starting : ∀ m n, s.startMap m = some (.starting n) → n ≤ (P.files m).length
  inside : ∀ g v left, s.place g = .waits v left ∨ s.place g = .performs v left →
    s.startMap v ≠ none
  returned : ∀ g, s.place g ≠ .unstarted → ∀ v ∈ P.imports g,
    v ∈ (s.place g).pending ∨ s.startMap v = some .closed
  received : ∀ m st, s.startMap m = some st → (∀ n, st ≠ .starting n) →
    ∀ i < (P.files m).length, s.place (some (m, i)) = .finished
  holder : ∀ m, s.emitMu = some m ↔ s.startMap m = some .emitting

theorem mem_left_of_mayCall {g : Goroutine} {v : String} {left : List String}
    (h : mayCall g v left) : v ∈ left := by
  unfold mayCall at h
  split at h
  · exact List.mem_of_mem_head? (by simpa using h)
  · exact List.contains_iff_mem.mp h

theorem mem_modules_of_imports (P : Project) {m v : String} {i : Nat} (hm : m ∈ P.modules)
    (h : v ∈ P.imports (some (m, i))) : v ∈ P.modules := by
  cases hf : (P.files m)[i]? with
  | none => simp [Project.imports, hf] at h
  | some file =>
    simp only [Project.imports, hf, Option.getD_some] at h
    exact P.closed m hm file (List.mem_of_getElem? hf) v h

theorem Inv.start : Inv P .start where
  root := ⟨nofun, nofun⟩
  known _ h := absurd rfl h
  pending g v hv := by
    unfold State.start at hv
    cases g with
    | none => exact hv
    | some g => nomatch hv
  unstarted m i := by simp [State.start]
  starting _ _ h := nomatch h
  inside g v left h := by
    cases g <;> simp [State.start] at h
  returned g hg v hv := by
    cases g with
    | none => exact .inl hv
    | some g => simp [State.start] at hg
  received _ _ h := nomatch h
  holder _ := by simp [State.start]

theorem Inv.mem_modules (h : Inv P s) {g : Goroutine} {v : String}
    (hv : v ∈ (s.place g).pending) : v ∈ P.modules := by
  have hi := h.pending g v hv
  cases g with
  | none => exact P.loaded v hi
  | some f =>
    obtain ⟨m, i⟩ := f
    refine mem_modules_of_imports P (h.known m fun hm => ?_) hi
    rw [(h.unstarted m i).mpr fun st hst => absurd hst (by rw [hm]; nofun)] at hv
    nomatch hv

theorem Inv.note (h : Inv P s) (e : Event) : Inv P (s.note e) := by
  obtain ⟨h₁, h₂, h₃, h₄, h₅, h₆, h₇, h₈, h₉⟩ := h
  exact ⟨h₁, h₂, h₃, h₄, h₅, h₆, h₇, h₈, h₉⟩

/-- A goroutine that has been started goes on. -/
private theorem Inv.move (h : Inv P s) {g : Goroutine} {p : Place}
    (hg : s.place g ≠ .unstarted) (hp : p ≠ .unstarted)
    (hsub : ∀ v ∈ p.pending, v ∈ (s.place g).pending)
    (hret : ∀ v ∈ (s.place g).pending, v ∈ p.pending ∨ s.startMap v = some .closed)
    (hin : ∀ v left, p = .waits v left ∨ p = .performs v left → s.startMap v ≠ none)
    (hfin : s.place g = .finished → p = .finished) (hroot : g = none → p ≠ .parsed) :
    Inv P (s.move g p) where
  root := by
    rw [State.move_place]
    by_cases heq : none = g
    · rw [heq, Function.update_self]
      exact ⟨hp, hroot heq.symm⟩
    · rw [Function.update_of_ne heq]
      exact h.root
  known := h.known
  starting := h.starting
  holder := h.holder
  pending g' v hv := by
    rw [State.move_place] at hv
    by_cases heq : g' = g
    · rw [heq, Function.update_self] at hv
      rw [heq]
      exact h.pending g v (hsub v hv)
    · rw [Function.update_of_ne heq] at hv
      exact h.pending g' v hv
  unstarted m i := by
    rw [State.move_place, State.move_startMap, ← h.unstarted m i]
    by_cases heq : some (m, i) = g
    · rw [heq, Function.update_self]
      exact iff_of_false hp hg
    · rw [Function.update_of_ne heq]
  inside g' v left hin' := by
    rw [State.move_place] at hin'
    rw [State.move_startMap]
    by_cases heq : g' = g
    · rw [heq, Function.update_self] at hin'
      exact hin v left hin'
    · rw [Function.update_of_ne heq] at hin'
      exact h.inside g' v left hin'
  returned g' hg' v hv := by
    rw [State.move_place] at hg' ⊢
    rw [State.move_startMap]
    by_cases heq : g' = g
    · subst heq
      rw [Function.update_self]
      exact (h.returned g' hg v hv).elim (hret v) .inr
    · rw [Function.update_of_ne heq] at hg' ⊢
      exact h.returned g' hg' v hv
  received m st hm hst i hi := by
    rw [State.move_place]
    by_cases heq : some (m, i) = g
    · rw [heq, Function.update_self]
      exact hfin (heq ▸ h.received m st hm hst i hi)
    · rw [Function.update_of_ne heq]
      exact h.received m st hm hst i hi

/-- The call that performs a module, with its files received, goes on. -/
private theorem Inv.setStage (h : Inv P s) {m : String} {st st' : Stage} {mu : Option String}
    (hm : s.startMap m = some st) (hst : st.started (P.files m).length = (P.files m).length)
    (hclosed : st ≠ .closed) (hst' : ∀ n, st' ≠ .starting n)
    (hfin : ∀ i < (P.files m).length, s.place (some (m, i)) = .finished)
    (hmu : ∀ m', mu = some m' ↔
      Function.update s.startMap m (some st') m' = some .emitting) :
    Inv P ({ s with emitMu := mu }.setStage m st') where
  root := h.root
  pending := h.pending
  holder := hmu
  known m' hm' := by
    by_cases heq : m' = m
    · exact heq ▸ h.known m (by rw [hm]; nofun)
    · rw [State.setStage_startMap, Function.update_of_ne heq] at hm'
      exact h.known m' hm'
  unstarted m' i := by
    refine (h.unstarted m' i).trans ?_
    rw [State.setStage_startMap]
    by_cases heq : m' = m
    · subst heq
      have hall : st'.started (P.files m').length = (P.files m').length := by
        cases st' with
        | starting n => exact absurd rfl (hst' n)
        | _ => rfl
      rw [Function.update_self]
      simp only [hm, Option.some.injEq, forall_eq', hst, hall]
    · rw [Function.update_of_ne heq]
  starting m' n hm' := by
    rw [State.setStage_startMap] at hm'
    by_cases heq : m' = m
    · rw [heq, Function.update_self] at hm'
      exact absurd (Option.some.inj hm') (hst' n)
    · rw [Function.update_of_ne heq] at hm'
      exact h.starting m' n hm'
  inside g v left hg := by
    rw [State.setStage_startMap]
    by_cases heq : v = m
    · rw [heq, Function.update_self]
      nofun
    · rw [Function.update_of_ne heq]
      exact h.inside g v left hg
  returned g hg v hv := by
    refine (h.returned g hg v hv).imp_right fun hv' => ?_
    have hne : v ≠ m := by
      rintro rfl
      exact hclosed (Option.some.inj (hm.symm.trans hv'))
    rwa [State.setStage_startMap, Function.update_of_ne hne]
  received m' st'' hm' hst'' i hi := by
    rw [State.setStage_startMap] at hm'
    by_cases heq : m' = m
    · subst heq
      exact hfin i hi
    · rw [Function.update_of_ne heq] at hm'
      exact h.received m' st'' hm' hst'' i hi

theorem Inv.kept (h : Inv P s) (hs : Step P s l s') : Inv P s' := by
  cases hs with
  | @go m n hm hn =>
    -- the fields speak of the stages and the places, and `go` starts the files of one module
    have hun : s.place (some (m, n)) = .unstarted := by
      refine (h.unstarted m n).mpr fun st hst => ?_
      obtain rfl := Option.some.inj (hm.symm.trans hst)
      exact le_rfl
    obtain ⟨hroot, hk, hp, hu, hst, hin, hret, hrec, hhold⟩ := h
    constructor <;>
      simp only [State.move_startMap, State.move_place, State.move_emitMu,
        State.setStage_startMap, State.setStage_place, State.setStage_emitMu] <;>
      grind [Function.update_apply, Place.pending, Stage.started]
  | loop hg hv hf =>
    obtain ⟨h₁, h₂, h₃, h₄, h₅, h₆, h₇, h₈, h₉⟩ := h
    exact ⟨h₁, h₂, h₃, h₄, h₅, h₆, h₇, h₈, h₉⟩
  | @call g v left hg hv hf =>
    have hmem := mem_left_of_mayCall hv
    refine h.move (by rw [hg]; nofun) nofun ?_ ?_ nofun (by rw [hg]; nofun) nofun
    · rw [hg]
      exact fun w hw => (List.mem_cons.mp hw).elim (· ▸ hmem) List.mem_of_mem_erase
    · rw [hg]
      intro w hw
      by_cases hwv : w = v
      · exact .inl (hwv ▸ List.mem_cons_self)
      · exact .inl (List.mem_cons_of_mem _ ((List.mem_erase_of_ne hwv).mpr hw))
  | wait hg hv =>
    refine h.move (by rw [hg]; nofun) nofun (by rw [hg]; exact fun _ => id)
      (by rw [hg]; exact fun _ => .inl) ?_ (by rw [hg]; nofun) nofun
    rintro w left (heq | heq)
    · obtain ⟨rfl, rfl⟩ := Place.waits.inj heq
      exact hv
    · nomatch heq
  | @perform g v left hg hv =>
    have hmod : v ∈ P.modules := h.mem_modules (by rw [hg]; exact List.mem_cons_self)
    obtain ⟨hroot, hk, hp, hu, hst, hin, hret, hrec, hhold⟩ := h
    constructor <;>
      simp only [State.move_startMap, State.move_place, State.move_emitMu,
        State.setStage_startMap, State.setStage_place, State.setStage_emitMu] <;>
      grind [Function.update_apply, Place.pending, Stage.started]
  | @resume g v left hg hv =>
    have hpend : (s.place g).pending = v :: left := by rcases hg with hg | hg <;> rw [hg] <;> rfl
    refine h.move (by rcases hg with hg | hg <;> rw [hg] <;> nofun) nofun ?_ ?_ nofun
      (by rcases hg with hg | hg <;> rw [hg] <;> nofun) nofun
    · rw [hpend]
      exact fun _ => List.mem_cons_of_mem _
    · rw [hpend]
      exact fun w hw => (List.mem_cons.mp hw).elim (fun hwv => .inr (hwv ▸ hv)) .inl
  | leave hg =>
    exact h.move (by rw [hg]; nofun) nofun nofun (by rw [hg]; nofun) nofun (by rw [hg]; nofun)
      nofun
  | parse hg =>
    exact (h.move (g := some _) (p := .parsed) (by rw [hg]; nofun) nofun nofun (by rw [hg]; nofun) nofun
      (by rw [hg]; nofun) nofun).note _
  | receive hm hg =>
    exact h.move (by rw [hg]; nofun) nofun nofun (by rw [hg]; nofun) nofun (by rw [hg]; nofun)
      nofun
  | @lock m hm hmu hfin =>
    have hnext : Inv P ({ s with emitMu := some m }.setStage m .emitting) := by
      refine h.setStage hm rfl nofun nofun hfin fun m' => ?_
      have := h.holder m'
      grind [Function.update_apply]
    exact hnext.note _
  | @unlock m hm =>
    have hnext : Inv P ({ s with emitMu := none }.setStage m .emitted) := by
      refine h.setStage hm rfl nofun nofun (h.received m _ hm nofun) fun m' => ?_
      have := h.holder m'
      have := h.holder m
      grind [Function.update_apply]
    exact hnext.note _
  | @close m hm =>
    refine h.setStage hm rfl nofun nofun (h.received m _ hm nofun) fun m' => ?_
    have := h.holder m'
    grind [Function.update_apply]

/-! ## The log -/

/-- Each `Emit` in the log begins behind all that it needs: the parse of the module's files
and the `Emit` of what they import. And it ends behind where it begins. -/
structure Ordered (P : Project) (log : List Event) : Prop where
  begins : ∀ before m behind, log = before ++ .emits m :: behind →
    (∀ i < (P.files m).length, .parsed m i ∈ before) ∧ ∀ v, P.Imports m v → .emitted v ∈ before
  ends : ∀ before m behind, log = before ++ .emitted m :: behind → .emits m ∈ before

/-- An event of a log with one more. -/
private theorem snoc_cases {log before behind : List Event} {e e' : Event}
    (h : log ++ [e] = before ++ e' :: behind) :
    e = e' ∧ log = before ∨ ∃ behind', log = before ++ e' :: behind' := by
  rcases List.eq_nil_or_concat behind with rfl | ⟨behind, e'', rfl⟩
  · obtain ⟨rfl, hlast⟩ := List.append_inj' h rfl
    exact .inl ⟨(List.cons.inj hlast).1, rfl⟩
  · rw [List.concat_eq_append, ← List.cons_append, ← List.append_assoc] at h
    exact .inr ⟨behind, (List.append_inj' h rfl).1⟩

theorem Ordered.snoc {log : List Event} {e : Event} (h : Ordered P log)
    (he : ∀ m, e = .emits m → (∀ i < (P.files m).length, .parsed m i ∈ log) ∧
      ∀ v, P.Imports m v → .emitted v ∈ log)
    (he' : ∀ m, e = .emitted m → .emits m ∈ log) : Ordered P (log ++ [e]) where
  begins before m behind heq := by
    rcases snoc_cases heq with ⟨rfl, rfl⟩ | ⟨behind', heq⟩
    · exact he m rfl
    · exact h.begins before m behind' heq
  ends before m behind heq := by
    rcases snoc_cases heq with ⟨rfl, rfl⟩ | ⟨behind', heq⟩
    · exact he' m rfl
    · exact h.ends before m behind' heq

structure Logged (P : Project) (s : State) : Prop where
  nodup : s.log.Nodup
  parsed : ∀ m i, .parsed m i ∈ s.log ↔
    s.place (some (m, i)) = .parsed ∨ s.place (some (m, i)) = .finished
  emits : ∀ m, .emits m ∈ s.log ↔ ∃ st, s.startMap m = some st ∧ ∀ n, st ≠ .starting n
  emitted : ∀ m, .emitted m ∈ s.log ↔ s.startMap m = some .emitted ∨ s.startMap m = some .closed
  ordered : Ordered P s.log

theorem Logged.start : Logged P .start where
  nodup := List.nodup_nil
  parsed m i := by simp [State.start]
  emits m := by simp [State.start]
  emitted m := by simp [State.start]
  ordered := ⟨fun _ _ _ h => by simp [State.start] at h, fun _ _ _ h => by simp [State.start] at h⟩

theorem exists_imports {m v : String} (h : P.Imports m v) :
    ∃ i < (P.files m).length, v ∈ P.imports (some (m, i)) := by
  obtain ⟨-, file, hfile, hv⟩ := h
  obtain ⟨i, hi, rfl⟩ := List.mem_iff_getElem.mp hfile
  refine ⟨i, hi, ?_⟩
  simp only [Project.imports, List.getElem?_eq_getElem hi, Option.getD_some]
  exact hv

/-- What a module imports is loaded when its files have been received. -/
theorem Inv.closed_of_received (h : Inv P s) {m v : String}
    (hfin : ∀ i < (P.files m).length, s.place (some (m, i)) = .finished) (hv : P.Imports m v) :
    s.startMap v = some .closed := by
  obtain ⟨i, hi, hv⟩ := exists_imports hv
  have hret := h.returned (some (m, i)) (by rw [hfin i hi]; nofun) v hv
  rw [hfin i hi] at hret
  exact hret.elim nofun id

private theorem Logged.move (h : Logged P s) {g : Goroutine} {p : Place}
    (hp : ∀ f, g = some f →
      ((s.place g = .parsed ∨ s.place g = .finished) ↔ (p = .parsed ∨ p = .finished))) :
    Logged P (s.move g p) where
  nodup := h.nodup
  emits := h.emits
  emitted := h.emitted
  ordered := h.ordered
  parsed m i := by
    refine (h.parsed m i).trans ?_
    rw [State.move_place]
    by_cases heq : some (m, i) = g
    · rw [heq, Function.update_self]
      exact hp _ heq.symm
    · rw [Function.update_of_ne heq]

private theorem Logged.setStage (h : Logged P s) {m : String} {st : Stage}
    (hem : (∀ n, st ≠ .starting n) ↔ ∃ st', s.startMap m = some st' ∧ ∀ n, st' ≠ .starting n)
    (hemd : (st = .emitted ∨ st = .closed) ↔
      (s.startMap m = some .emitted ∨ s.startMap m = some .closed)) :
    Logged P (s.setStage m st) where
  nodup := h.nodup
  parsed := h.parsed
  ordered := h.ordered
  emits m' := by
    refine (h.emits m').trans ?_
    rw [State.setStage_startMap]
    by_cases heq : m' = m
    · rw [heq, Function.update_self, ← hem]
      simp
    · rw [Function.update_of_ne heq]
  emitted m' := by
    refine (h.emitted m').trans ?_
    rw [State.setStage_startMap]
    by_cases heq : m' = m
    · rw [heq, Function.update_self, ← hemd]
      simp
    · rw [Function.update_of_ne heq]

theorem Logged.kept (h : Inv P s) (hlog : Logged P s) (hs : Step P s l s') : Logged P s' := by
  cases hs with
  | @go m n hm hn =>
    have hun : s.place (some (m, n)) = .unstarted := by
      refine (h.unstarted m n).mpr fun st hst => ?_
      obtain rfl := Option.some.inj (hm.symm.trans hst)
      exact le_rfl
    refine (hlog.setStage ?_ ?_).move fun _ _ => ?_
    · simp [hm]
    · simp [hm]
    · simp [hun]
  | loop hg hv hf =>
    obtain ⟨hnd, hpar, hem, hemd, hord⟩ := hlog
    exact ⟨hnd, hpar, hem, hemd, hord⟩
  | call hg hv hf | wait hg hv => exact hlog.move fun _ _ => by simp [hg]
  | @perform g v left hg hv =>
    have hnew : Logged P { s with fathers := Function.update s.fathers v (s.newF g) } := by
      obtain ⟨hnd, hpar, hem, hemd, hord⟩ := hlog
      exact ⟨hnd, hpar, hem, hemd, hord⟩
    refine (hnew.setStage ?_ ?_).move fun _ _ => ?_
    · simp [hv]
    · simp [hv]
    · simp [hg]
  | resume hg hv => exact hlog.move fun _ _ => by rcases hg with hg | hg <;> simp [hg]
  | leave hg => exact hlog.move nofun
  | receive hm hg => exact hlog.move fun _ _ => by simp [hg]
  | close hm => exact hlog.setStage (by simp [hm]) (by simp [hm])
  | @parse m i hg =>
    obtain ⟨hnd, hpar, hem, hemd, hord⟩ := hlog
    have hnew : Event.parsed m i ∉ s.log := by simp [hpar, hg]
    refine ⟨?_, fun m' i' => ?_, by simpa using hem, by simpa using hemd, hord.snoc nofun nofun⟩
    · exact List.nodup_append_comm.mpr (List.nodup_cons.mpr ⟨hnew, hnd⟩)
    · have := hpar m' i'
      simp only [State.note_log, State.note_place, State.move_log, State.move_place]
      grind [Function.update_apply]
  | @lock m hm hmu hfin =>
    obtain ⟨hnd, hpar, hem, hemd, hord⟩ := hlog
    have hnew : Event.emits m ∉ s.log := by simp [hem, hm]
    refine ⟨?_, by simpa using hpar, fun m' => ?_, fun m' => ?_, ?_⟩
    · exact List.nodup_append_comm.mpr (List.nodup_cons.mpr ⟨hnew, hnd⟩)
    · have := hem m'
      simp only [State.note_log, State.note_startMap, State.setStage_log, State.setStage_startMap]
      grind [Function.update_apply]
    · have := hemd m'
      simp only [State.note_log, State.note_startMap, State.setStage_log, State.setStage_startMap]
      grind [Function.update_apply]
    · refine hord.snoc (fun m' heq => ?_) nofun
      obtain rfl := Event.emits.inj heq
      exact ⟨fun i hi => (hpar m i).mpr (.inr (hfin i hi)),
        fun v hv => (hemd v).mpr (.inr (h.closed_of_received hfin hv))⟩
  | @unlock m hm =>
    obtain ⟨hnd, hpar, hem, hemd, hord⟩ := hlog
    have hnew : Event.emitted m ∉ s.log := by simp [hemd, hm]
    have hbegun : .emits m ∈ s.log := (hem m).mpr ⟨_, hm, nofun⟩
    refine ⟨?_, by simpa using hpar, fun m' => ?_, fun m' => ?_,
      hord.snoc nofun fun m' heq => Event.emitted.inj heq ▸ hbegun⟩
    · exact List.nodup_append_comm.mpr (List.nodup_cons.mpr ⟨hnew, hnd⟩)
    · have := hem m'
      simp only [State.note_log, State.note_startMap, State.setStage_log, State.setStage_startMap]
      grind [Function.update_apply]
    · have := hemd m'
      simp only [State.note_log, State.note_startMap, State.setStage_log, State.setStage_startMap]
      grind [Function.update_apply]

end CalcLang.Module
