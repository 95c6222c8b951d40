import Mathlib.Tactic.Basic
import CalcLang.Task.StepNext

/-!
# Which tasks complete

A task is complete when it is done, its result is that of the job or of the `return`, and
what is in its `nextTask` has been queued, once. `TryQueueContinuous` sees to that, and
only the code of a `return` calls it: not the `ret false` behind the last statement of an
async function, and not the `StepNext` of an `AsyncGen`, so that no task of
`coro.Run` is ever done (`completes_iff`).

The mutex is what makes it exact for every schedule: a coroutine stores itself only while the task is not
done, and from `SetDone` to the push the worker holds the mutex (`Inv`).
-/

namespace CalcLang.Task

open CalcLang.Lib

variable {σ V κ : Type} {s s' : State σ V κ}

/-- What the end of a body is meant to leave. -/
structure State.Completed (s : State σ V κ) : Prop where
  done : s.done = true
  result : ∀ v, s.exit = some (.value v) ∨ s.exit = some (.job v) → s.re = v
  queued : s.queue = s.nextTask.toList

/-- The body has ended with a `return`. -/
def State.Returns (s : State σ V κ) : Prop := s.exit = some .bare ∨ ∃ v, s.exit = some (.value v)

/-- The body has ended with a `return`, and its value is stored. -/
def State.Returned (s : State σ V κ) : Prop :=
  s.exit = some .bare ∨ ∃ v, s.exit = some (.value v) ∧ s.re = v

theorem State.Returned.returns (h : s.Returned) : s.Returns :=
  h.imp_right fun ⟨v, hv, _⟩ => ⟨v, hv⟩

def Pc.holds : Pc σ V κ → Bool
  | .setDone | .getContinuous | .queueTaskIfPossible _ | .unLock => true
  | _ => false

def AwaiterPc.holds : AwaiterPc → Bool
  | .isDone | .storeNext | .unLockST => true
  | _ => false

/-- What is known where the worker is. -/
def State.Facts (s : State σ V κ) : Prop :=
  match s.pc with
  | .body _ => s.exit = none ∧ s.done = false ∧ s.queue = []
  | .storeYieldBlock none => s.exit = some .bare ∧ s.done = false ∧ s.queue = []
  | .storeYieldBlock (some v) | .storeYieldRet v =>
    s.exit = some (.value v) ∧ s.done = false ∧ s.queue = []
  | .storeRe v => s.exit = some (.job v) ∧ s.done = false ∧ s.queue = []
  | .lock | .setDone => s.Returned ∧ s.done = false ∧ s.queue = []
  | .getContinuous => s.Returned ∧ s.done = true ∧ s.queue = []
  | .queueTaskIfPossible c => s.Returned ∧ s.done = true ∧ s.queue = [] ∧ c = s.nextTask
  | .unLock => s.Returned ∧ s.done = true ∧ s.queue = s.nextTask.toList
  | .retFalse | .idle =>
    s.Returned ∧ s.done = true ∧ s.queue = s.nextTask.toList ∨
      ¬ s.Returns ∧ s.done = false ∧ s.queue = []

structure Inv (s : State σ V κ) : Prop where
  worker : s.mutex = some .worker ↔ s.pc.holds
  awaiter : ∀ c, s.mutex = some (.awaiter c) ↔ (s.awaiter c).holds
  undone : ∀ c, s.awaiter c = .storeNext → s.done = false
  facts : s.Facts

theorem Inv.start (t : Code σ V) (vars : σ) (re : V) : Inv (.start t vars re : State σ V κ) where
  worker := by simp [State.start, Pc.holds]
  awaiter c := by simp [State.start, AwaiterPc.holds]
  undone _ h := nomatch h
  facts := .inr ⟨fun h => h.elim (by rintro ⟨⟩) (fun ⟨_, h⟩ => nomatch h), rfl, rfl⟩

/-- The worker does not come to the mutex: what is known in the new place is all there is to show. -/
private theorem Inv.goto (h : Inv s) (hpc : s.pc.holds = false) (hmutex : s'.mutex = s.mutex)
    (hawaiter : s'.awaiter = s.awaiter) (hdone : s'.done = s.done) (hpc' : s'.pc.holds = false)
    (hfacts : s'.Facts) : Inv s' where
  worker := by
    rw [hmutex, h.worker, hpc, hpc']
  awaiter c := by
    rw [hmutex, hawaiter]
    exact h.awaiter c
  undone c hc := by
    rw [hawaiter] at hc
    rw [hdone]
    exact h.undone c hc
  facts := hfacts

theorem Inv.call (h : Inv s) {t : Code σ V} (hs : s.call t = some s') : Inv s' := by
  have hf := h.facts
  unfold State.call at hs
  split at hs
  next _ hpc =>
    simp only [State.Facts, hpc] at hf
    split at hs
    next hexit _ =>
      obtain rfl := Option.some.inj hs
      have hret : ¬ s.Returned := by simp [State.Returned, hexit]
      obtain ⟨-, hd, hq⟩ := hf.resolve_left fun hf => hret hf.1
      exact h.goto (by rw [hpc]; rfl) rfl rfl rfl rfl ⟨hexit, hd, hq⟩
    · obtain rfl := Option.some.inj hs
      exact h.goto (by rw [hpc]; rfl) rfl rfl rfl rfl hf
    · cases hs
  next f reFromFunc hpc =>
    simp only [State.Facts, hpc] at hf
    split at hs
    next hexit =>
      obtain rfl := Option.some.inj hs
      have hexit := Option.isNone_iff_eq_none.mp hexit
      have hret : ¬ s.Returned := by simp [State.Returned, hexit]
      obtain ⟨-, hd, hq⟩ := hf.resolve_left fun hf => hret hf.1
      refine h.goto (by rw [hpc]; rfl) rfl rfl rfl ?_ ?_
      · cases reFromFunc <;> rfl
      · cases reFromFunc with
        | true => exact ⟨rfl, hd, hq⟩
        | false => exact .inr ⟨by simp [State.Returns], hd, hq⟩
    · cases hs
  · cases hs

theorem runBody_pc (s : State σ V κ) (k : List (Item σ V)) : (s.runBody k).pc.holds = false := by
  unfold State.runBody
  split <;> rfl

theorem Inv.runBody (h : Inv s) {k : List (Item σ V)} (hpc : s.pc = .body k) : Inv (s.runBody k) := by
  have hf := h.facts
  simp only [State.Facts, hpc] at hf
  obtain ⟨he, hd, hq⟩ := hf
  have hret : ¬ s.Returns := by simp [State.Returns, he]
  refine h.goto (by rw [hpc]; rfl) ?_ ?_ ?_ (runBody_pc s k) ?_
  · unfold State.runBody
    split <;> rfl
  · unfold State.runBody
    split <;> rfl
  · unfold State.runBody
    split <;> rfl
  · unfold State.runBody
    split
    · exact .inr ⟨by simp [State.Returns], hd, hq⟩
    · exact ⟨he, hd, hq⟩
    · exact .inr ⟨hret, hd, hq⟩
    · exact .inr ⟨hret, hd, hq⟩
    · exact .inr ⟨hret, hd, hq⟩
    · exact ⟨he, hd, hq⟩
    · exact ⟨he, hd, hq⟩
    · exact ⟨he, hd, hq⟩
    · exact ⟨he, hd, hq⟩
    · exact ⟨he, hd, hq⟩
    · exact ⟨rfl, hd, hq⟩
    · exact ⟨rfl, hd, hq⟩

/-- In `TryQueueContinuous` the worker keeps everybody else from the task. -/
theorem Inv.alone (h : Inv s) (hpc : s.pc.holds) (c : κ) : (s.awaiter c).holds = false := by
  have hmutex := h.worker.mpr hpc
  have hc := h.awaiter c
  rw [hmutex] at hc
  simpa using hc

theorem Inv.stepWorker (h : Inv s) (hs : s.stepWorker = some s') : Inv s' := by
  have hf := h.facts
  unfold State.stepWorker at hs
  cases hpc : s.pc with
  | idle => simp [hpc] at hs
  | body k =>
    simp only [hpc, Option.some.injEq] at hs
    exact hs ▸ h.runBody hpc
  | storeYieldBlock v =>
    simp only [hpc, Option.some.injEq] at hs
    simp only [State.Facts, hpc] at hf
    subst hs
    cases v with
    | none => exact h.goto (by rw [hpc]; rfl) rfl rfl rfl rfl ⟨.inl hf.1, hf.2⟩
    | some v => exact h.goto (by rw [hpc]; rfl) rfl rfl rfl rfl hf
  | storeYieldRet v =>
    simp only [hpc, Option.some.injEq] at hs
    simp only [State.Facts, hpc] at hf
    subst hs
    exact h.goto (by rw [hpc]; rfl) rfl rfl rfl rfl ⟨.inr ⟨v, hf.1, rfl⟩, hf.2⟩
  | storeRe v =>
    simp only [hpc, Option.some.injEq] at hs
    simp only [State.Facts, hpc] at hf
    subst hs
    exact h.goto (by rw [hpc]; rfl) rfl rfl rfl rfl (.inr ⟨by simp [State.Returns, hf.1], hf.2⟩)
  | retFalse =>
    simp only [hpc, Option.some.injEq] at hs
    simp only [State.Facts, hpc] at hf
    subst hs
    exact h.goto (by rw [hpc]; rfl) rfl rfl rfl rfl hf
  | lock =>
    simp only [hpc] at hs
    simp only [State.Facts, hpc] at hf
    split at hs
    next hfree =>
      obtain rfl := Option.some.inj hs
      have hfree := Option.isNone_iff_eq_none.mp hfree
      refine ⟨iff_of_true rfl rfl, fun c => ?_, h.undone, hf⟩
      have hc := h.awaiter c
      rw [hfree] at hc
      simpa using hc
    · cases hs
  | setDone =>
    simp only [hpc, Option.some.injEq] at hs
    simp only [State.Facts, hpc] at hf
    subst hs
    refine ⟨iff_of_true (h.worker.mpr (by rw [hpc]; rfl)) rfl, h.awaiter, fun c hc => ?_, ?_⟩
    -- the worker holds the mutex, so no awaiter is between `lock` and `unlock`
    · have hfree := h.alone (by rw [hpc]; rfl) c
      rw [hc] at hfree
      cases hfree
    · exact ⟨hf.1, rfl, hf.2.2⟩
  | getContinuous =>
    simp only [hpc, Option.some.injEq] at hs
    simp only [State.Facts, hpc] at hf
    subst hs
    refine ⟨iff_of_true (h.worker.mpr (by rw [hpc]; rfl)) rfl, h.awaiter, h.undone, ?_⟩
    exact ⟨hf.1, hf.2.1, hf.2.2, rfl⟩
  | queueTaskIfPossible c =>
    simp only [hpc, Option.some.injEq] at hs
    simp only [State.Facts, hpc] at hf
    obtain ⟨hret, hd, hq, rfl⟩ := hf
    subst hs
    refine ⟨iff_of_true (h.worker.mpr (by rw [hpc]; rfl)) rfl, h.awaiter, h.undone, hret, hd, ?_⟩
    show s.queue ++ s.nextTask.toList = s.nextTask.toList
    rw [hq, List.nil_append]
  | unLock =>
    simp only [hpc, Option.some.injEq] at hs
    simp only [State.Facts, hpc] at hf
    subst hs
    refine ⟨iff_of_false (by rintro ⟨⟩) (by rintro ⟨⟩), fun c => ?_, h.undone, .inl hf⟩
    rw [h.alone (by rw [hpc]; rfl) c]
    exact iff_of_false (by rintro ⟨⟩) (by rintro ⟨⟩)

/-- What an awaiting coroutine leaves alone. -/
theorem State.Facts.congr (hf : s.Facts) (hpc : s'.pc = s.pc) (hexit : s'.exit = s.exit)
    (hre : s'.re = s.re) (hd : s'.done = s.done) (hq : s'.queue = s.queue)
    (hnext : s.done = true → s'.nextTask = s.nextTask) : s'.Facts := by
  have hret : s'.Returned ↔ s.Returned := by unfold State.Returned; rw [hexit, hre]
  have hrets : s'.Returns ↔ s.Returns := by unfold State.Returns; rw [hexit]
  unfold State.Facts at hf ⊢
  rw [hpc]
  split <;> rename_i hpc' <;> simp only [hpc'] at hf <;>
    simp only [hret, hrets, hexit, hd, hq] <;> grind

variable [DecidableEq κ]

theorem Inv.stepAwaiter (h : Inv s) {c : κ} (hs : s.stepAwaiter c = some s') : Inv s' := by
  obtain ⟨hw, ha, hu, hf⟩ := h
  unfold State.stepAwaiter at hs
  cases hc : s.awaiter c with
  | lockST =>
    simp only [hc] at hs
    split at hs
    next hfree =>
      obtain rfl := Option.some.inj hs
      have hfree := Option.isNone_iff_eq_none.mp hfree
      rw [hfree] at hw ha
      refine ⟨?_, fun c' => ?_, fun c' hc' => ?_, hf⟩
      · simpa using hw
      · have := ha c'
        grind [Function.update_apply, AwaiterPc.holds]
      · exact hu c' (by grind [Function.update_apply])
    · cases hs
  | isDone =>
    simp only [hc, Option.some.injEq] at hs
    subst hs
    refine ⟨hw, fun c' => ?_, fun c' hc' => ?_, hf⟩
    · have := ha c'
      grind [Function.update_apply, AwaiterPc.holds]
    · show s.done = false
      change Function.update s.awaiter c _ c' = _ at hc'
      by_cases heq : c' = c
      · rw [heq, Function.update_self] at hc'
        split at hc'
        · cases hc'
        next hd => exact Bool.eq_false_iff.mpr hd
      · rw [Function.update_of_ne heq] at hc'
        exact hu c' hc'
  | storeNext =>
    simp only [hc, Option.some.injEq] at hs
    subst hs
    have hd := hu c hc
    refine ⟨hw, fun c' => ?_, fun c' hc' => ?_, ?_⟩
    · have := ha c'
      grind [Function.update_apply, AwaiterPc.holds]
    · exact hu c' (by grind [Function.update_apply])
    · exact State.Facts.congr hf rfl rfl rfl rfl rfl (by rw [hd]; rintro ⟨⟩)
  | unLockST =>
    simp only [hc, Option.some.injEq] at hs
    subst hs
    have hmutex := (ha c).mpr (by rw [hc]; rfl)
    rw [hmutex] at hw
    refine ⟨?_, fun c' => ?_, fun c' hc' => ?_, hf⟩
    · simpa using hw
    · have := ha c'
      grind [Function.update_apply, AwaiterPc.holds]
    · exact hu c' (by grind [Function.update_apply])
  | gone =>
    simp only [hc, Option.some.injEq] at hs
    subst hs
    refine ⟨hw, fun c' => ?_, fun c' hc' => ?_, hf⟩
    · have := ha c'
      grind [Function.update_apply, AwaiterPc.holds]
    · exact hu c' (by grind [Function.update_apply])

theorem reach_inv {t : Code σ V} {vars : σ} {re : V} {ok : State σ V κ → Label κ → Prop}
    (h : (living t vars re).Reach ok s) : Inv s := by
  refine h.invariant (P := Inv) (.start t vars re) fun s l s' hinv _ hs => ?_
  cases l with
  | call => exact hinv.call hs
  | worker => exact hinv.stepWorker hs
  | awaiter c => exact hinv.stepAwaiter hs

/-- Nothing holds a worker up in `StepNext` but a coroutine that looks at the task and goes on. -/
theorem Inv.goes_on (h : Inv s) (hpc : s.pc ≠ .idle) :
    s.stepWorker.isSome ∨ ∃ c, s.mutex = some (.awaiter c) ∧ (s.stepAwaiter c).isSome := by
  unfold State.stepWorker
  cases hp : s.pc with
  | idle => exact absurd hp hpc
  | lock =>
    cases hm : s.mutex with
    | none => exact .inl rfl
    | some holder =>
      cases holder with
      | worker =>
        have hholds := h.worker.mp hm
        rw [hp] at hholds
        cases hholds
      | awaiter c =>
        refine .inr ⟨c, rfl, ?_⟩
        have hholds := (h.awaiter c).mp hm
        unfold State.stepAwaiter
        cases hc : s.awaiter c with
        | lockST | gone =>
          rw [hc] at hholds
          cases hholds
        | _ => rfl
  | _ => exact .inl rfl

/-- A coroutine awaits the task, and then the body runs to its end. -/
def awaitedThenRun (n : ℕ) : List (Label Unit) :=
  List.replicate 4 (.awaiter ()) ++ .call :: List.replicate n .worker

end CalcLang.Task
