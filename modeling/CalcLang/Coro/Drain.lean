import CalcLang.Coro.Scheduler
import CalcLang.Lib.Rest

/-!
# The scheduler comes to rest

For the safety of the queue a signal may be lost. That no task is left lying there needs what pthreads says of
signals: one wakes a sleeper, if there is any. `Signals` are the steps of which that is true.

A worker looks at the list again after it has been woken, and again before it sleeps. So while one
of them sleeps there are no more tasks in the list than workers on their way to it, or about to be woken
(`Awake`). Each call and each task is good for so many steps only, and when nobody can move any more all
tasks have been taken (`queue_drains`).
-/

namespace CalcLang.Coro.Scheduler

open CalcLang.Lib CalcLang.Linkedlist

variable {κ ω τ : Type}

/-- What the scheduler does not do by itself: a call of `QueueTask`, a wake-up without a signal, and a `StepNext` that
asks to be called again. -/
def Label.outside : Label κ ω τ → Bool
  | .call _ _ | .spurious _ => true
  | .caller _ _ => false
  | .worker _ more => more

namespace State

/-- A signal wakes somebody if anybody sleeps. -/
def Signals (s : State κ ω τ) : Label κ ω τ → Prop
  | .caller c none => s.caller c = .signal → ∀ w, s.worker w ≠ .asleep
  | _ => True

/-- How many tasks have been pushed and not been taken. -/
def backlog (s : State κ ω τ) : ℕ := s.pushed.length - s.taken.length

end State

/-! ## The steps, as far as they matter here -/

/-- A caller's next place, and how many tasks it pushes. -/
inductive CallPc.Next : CallPc τ → CallPc τ → ℕ → Prop
  | lock {st : τ} : CallPc.Next (.lock st) (.push st) 0
  | push {st : τ} : CallPc.Next (.push st) .signal 1
  | signal : CallPc.Next .signal .unLock 0
  | unLock : CallPc.Next .unLock .idle 0

/-- A worker's next place, and how many tasks it takes, with `n` tasks in the list. -/
inductive WorkerPc.Next (n : ℕ) (more : Bool) : WorkerPc τ → WorkerPc τ → ℕ → Prop
  | lock : WorkerPc.Next n more .lock .len 0
  | empty : n = 0 → WorkerPc.Next n more .len .wait 0
  | task : n ≠ 0 → WorkerPc.Next n more .len .shift 0
  | wait : WorkerPc.Next n more .wait .asleep 0
  | awake : WorkerPc.Next n more .awake .len 0
  | shift {t : τ} : n ≠ 0 → WorkerPc.Next n more .shift (.unLock t) 1
  | unLock {t : τ} : WorkerPc.Next n more (.unLock t) (.stepNext t) 0
  | again {t : τ} : more = true → WorkerPc.Next n more (.stepNext t) (.stepNext t) 0
  | done {t : τ} : more = false → WorkerPc.Next n more (.stepNext t) .lock 0

namespace Inv

variable {s s' : State κ ω τ} {c : κ} {w : ω}

/-- No more has been taken than pushed. -/
theorem taken_le (h : Inv s) : s.taken.length ≤ s.pushed.length := by
  obtain ⟨d, hd⟩ := h.record
  rw [hd.order, List.length_append, List.length_map]
  exact Nat.le_add_right _ _

/-- `Len` is the number of tasks that have been pushed and not been taken. -/
theorem len (h : Inv s) : s.tasks.Len = (s.backlog : Int) := by
  obtain ⟨d, hd⟩ := h.record
  have hlen : s.pushed.length = s.taken.length + d.items.length := by
    rw [hd.order, List.length_append, List.length_map]
  show s.tasks.li.len = (s.backlog : Int)
  rw [hd.holds.len, State.backlog, hlen, Nat.add_sub_cancel_left]

theorem len_eq_zero (h : Inv s) : s.tasks.Len = 0 ↔ s.backlog = 0 := by
  rw [h.len]
  exact Int.natCast_eq_zero

variable [DecidableEq κ] [DecidableEq ω]

/-- A step of a caller changes its place, that of the worker it wakes, and what has been pushed. -/
theorem stepCaller_next (h : Inv s) {woken : Option ω} (hs : s.stepCaller c woken = some s') :
    ∃ pc k, CallPc.Next (s.caller c) pc k ∧ s'.caller = Function.update s.caller c pc ∧
      s'.pushed.length = s.pushed.length + k ∧ s'.taken = s.taken ∧
      (s'.worker = s.worker ∧ (s.caller c = .signal → woken = none) ∨
        ∃ w, s.caller c = .signal ∧ s.worker w = .asleep ∧ s'.worker = Function.update s.worker w .awake) := by
  unfold State.stepCaller at hs
  cases hpc : s.caller c with
  | idle => simp [hpc] at hs
  | lock st =>
    simp only [hpc, Option.ite_none_right_eq_some, Option.some.injEq] at hs
    obtain ⟨-, rfl⟩ := hs
    exact ⟨_, _, .lock, rfl, rfl, rfl, .inl ⟨rfl, by simp⟩⟩
  | push st =>
    obtain ⟨d, hd⟩ := h.record
    obtain ⟨tasks', d', hpush, -, -⟩ := hd.push st
    simp only [hpc, hpush, Option.some.injEq] at hs
    subst hs
    refine ⟨_, _, .push, rfl, ?_, rfl, .inl ⟨rfl, by simp⟩⟩
    simp [State.callerGoto]
  | signal =>
    simp only [hpc, Option.ite_none_right_eq_some, Option.some.injEq] at hs
    obtain ⟨hwoken, rfl⟩ := hs
    cases woken with
    | none => exact ⟨_, _, .signal, rfl, rfl, rfl, .inl ⟨rfl, fun _ => rfl⟩⟩
    | some w =>
      have hw : s.worker w = .asleep := by
        simp only [Option.all_some] at hwoken
        split at hwoken
        · assumption
        · cases hwoken
      exact ⟨_, _, .signal, rfl, rfl, rfl, .inr ⟨w, rfl, hw, rfl⟩⟩
  | unLock =>
    simp only [hpc, Option.some.injEq] at hs
    subst hs
    exact ⟨_, _, .unLock, rfl, rfl, rfl, .inl ⟨rfl, by simp⟩⟩

omit [DecidableEq κ] in
/-- A step of a worker changes its place and what has been taken. -/
theorem stepWorker_next (h : Inv s) {more : Bool} (hs : s.stepWorker w more = some s') :
    ∃ pc k, WorkerPc.Next s.backlog more (s.worker w) pc k ∧ s'.worker = Function.update s.worker w pc ∧
      s'.caller = s.caller ∧ s'.pushed = s.pushed ∧ s'.taken.length = s.taken.length + k := by
  unfold State.stepWorker at hs
  cases hpc : s.worker w with
  | lock =>
    simp only [hpc, Option.ite_none_right_eq_some, Option.some.injEq] at hs
    obtain ⟨-, rfl⟩ := hs
    exact ⟨_, _, .lock, rfl, rfl, rfl, rfl⟩
  | awake =>
    simp only [hpc, Option.ite_none_right_eq_some, Option.some.injEq] at hs
    obtain ⟨-, rfl⟩ := hs
    exact ⟨_, _, .awake, rfl, rfl, rfl, rfl⟩
  | len =>
    simp only [hpc, Option.some.injEq] at hs
    subst hs
    by_cases hzero : s.tasks.Len = 0
    · simp only [hzero, if_true]
      exact ⟨_, _, .empty (h.len_eq_zero.mp hzero), rfl, rfl, rfl, rfl⟩
    · simp only [hzero, if_false]
      exact ⟨_, _, .task (fun hb => hzero (h.len_eq_zero.mpr hb)), rfl, rfl, rfl, rfl⟩
  | wait =>
    simp only [hpc, Option.some.injEq] at hs
    subst hs
    exact ⟨_, _, .wait, rfl, rfl, rfl, rfl⟩
  | asleep => simp [hpc] at hs
  | shift =>
    obtain ⟨d, hd⟩ := h.record
    have hlen := h.nonempty w hpc
    obtain ⟨n, t, tasks', d', hfirst, hshift, -⟩ := hd.shift hlen w
    simp only [hpc, hfirst, hshift, Option.some.injEq] at hs
    subst hs
    refine ⟨_, _, .shift (fun hb => hlen (h.len_eq_zero.mpr hb)), rfl, rfl, rfl, ?_⟩
    simp [State.workerGoto]
  | unLock t =>
    simp only [hpc, Option.some.injEq] at hs
    subst hs
    exact ⟨_, _, .unLock, rfl, rfl, rfl, rfl⟩
  | stepNext t =>
    simp only [hpc, Option.some.injEq] at hs
    subst hs
    cases more with
    | true => exact ⟨_, _, .again rfl, rfl, rfl, rfl, rfl⟩
    | false => exact ⟨_, _, .done rfl, rfl, rfl, rfl, rfl⟩

end Inv

/-- What a step does, in terms of the places and of the number of tasks. -/
inductive Stepped [DecidableEq κ] [DecidableEq ω] (s s' : State κ ω τ) : Label κ ω τ → Prop
  | call {c : κ} {st : τ} : s.caller c = .idle → s'.caller = Function.update s.caller c (.lock st) →
      s'.worker = s.worker → s'.backlog = s.backlog → Stepped s s' (.call c st)
  | caller {c : κ} {woken : Option ω} {pc : CallPc τ} {k : ℕ} : CallPc.Next (s.caller c) pc k →
      s'.caller = Function.update s.caller c pc → s'.worker = s.worker →
      (s.caller c = .signal → woken = none) → s'.backlog = s.backlog + k → Stepped s s' (.caller c woken)
  | woken {c : κ} {woken : Option ω} {w : ω} : s.caller c = .signal → s.worker w = .asleep →
      s'.caller = Function.update s.caller c .unLock → s'.worker = Function.update s.worker w .awake →
      s'.backlog = s.backlog → Stepped s s' (.caller c woken)
  | worker {w : ω} {more : Bool} {pc : WorkerPc τ} {k : ℕ} : WorkerPc.Next s.backlog more (s.worker w) pc k →
      s'.worker = Function.update s.worker w pc → s'.caller = s.caller → s'.backlog = s.backlog - k →
      Stepped s s' (.worker w more)
  | spurious {w : ω} : s.worker w = .asleep → s'.worker = Function.update s.worker w .awake →
      s'.caller = s.caller → s'.backlog = s.backlog → Stepped s s' (.spurious w)

theorem Inv.stepped [DecidableEq κ] [DecidableEq ω] {s s' : State κ ω τ} (h : Inv s) {i : Label κ ω τ}
    (hs : s.step i = some s') : Stepped s s' i := by
  have hle := h.taken_le
  unfold State.step at hs
  rw [h.alive] at hs
  simp only [Bool.false_eq_true, if_false] at hs
  cases i with
  | call c st =>
    simp only [Option.ite_none_right_eq_some, Option.some.injEq] at hs
    obtain ⟨hidle, rfl⟩ := hs
    split at hidle
    · rename_i hpc
      exact .call hpc rfl rfl rfl
    · cases hidle
  | caller c woken =>
    obtain ⟨pc, k, hnext, hc, hp, ht, hw⟩ := h.stepCaller_next hs
    have hback : s'.backlog = s.backlog + k := by
      rw [State.backlog, State.backlog, hp, ht]
      omega
    rcases hw with ⟨hw, hnone⟩ | ⟨w, hsig, hasleep, hw⟩
    · exact .caller hnext hc hw hnone hback
    · rw [hsig] at hnext
      cases hnext
      exact .woken hsig hasleep hc hw hback
  | worker w more =>
    obtain ⟨pc, k, hnext, hw, hc, hp, ht⟩ := h.stepWorker_next hs
    refine .worker hnext hw hc ?_
    rw [State.backlog, State.backlog, hp, ht]
    omega
  | spurious w =>
    simp only [Option.ite_none_right_eq_some, Option.some.injEq] at hs
    obtain ⟨hasleep, rfl⟩ := hs
    split at hasleep
    · rename_i hpc
      exact .spurious hpc rfl rfl rfl
    · cases hasleep

/-! ## No wake-up is lost -/

/-- A worker that looks at the list before it sleeps. -/
def WorkerPc.coming : WorkerPc τ → ℕ
  | .lock | .awake | .len | .shift => 1
  | .wait | .asleep | .unLock _ | .stepNext _ => 0

/-- A caller that has pushed a task and is about to wake somebody. -/
def CallPc.signalling : CallPc τ → ℕ
  | .signal => 1
  | .idle | .lock _ | .push _ | .unLock => 0

variable [DecidableEq κ] [DecidableEq ω] [Fintype κ] [Fintype ω]

/-- While somebody sleeps there are no more tasks than workers on their way to them. -/
structure Awake (s : State κ ω τ) : Prop where
  inv : Inv s
  wait : ∀ w, s.worker w = .wait → s.backlog = 0
  asleep : ∀ w, s.worker w = .asleep →
    s.backlog ≤ tally WorkerPc.coming s.worker + tally CallPc.signalling s.caller

namespace Awake

variable {s s' : State κ ω τ}

theorem start : Awake (machine κ ω τ).start where
  inv := .start
  wait := by
    intro w h
    cases h
  asleep := by
    intro w h
    cases h

omit [DecidableEq κ] [DecidableEq ω] in
/-- Nobody has just seen an empty list while a caller is inside. -/
theorem not_wait (h : Awake s) {c : κ} (hin : (s.caller c).inside = true) (w : ω) : s.worker w ≠ .wait := by
  intro hw
  have hwin : s.inside (.worker w) = true := by simp [State.inside, hw, WorkerPc.inside]
  have hcin : s.inside (.caller c) = true := hin
  cases h.inv.holder.eq hcin hwin

omit [DecidableEq κ] [Fintype κ] [Fintype ω] in
/-- The place of a worker that is not the one that moves. -/
theorem worker_of_ne {w w' : ω} {pc pc' : WorkerPc τ} (hw : s'.worker = Function.update s.worker w pc)
    (hne : pc ≠ pc') (hw' : s'.worker w' = pc') : s.worker w' = pc' := by
  rw [hw] at hw'
  by_cases heq : w' = w
  · rw [heq, Function.update_self] at hw'
    exact absurd hw' hne
  · rwa [Function.update_of_ne heq] at hw'

theorem step (h : Awake s) {i : Label κ ω τ} (hok : s.Signals i) (hs : s.step i = some s') : Awake s' := by
  refine ⟨h.inv.step hs, ?_, ?_⟩
  · -- what a worker has seen when it decides to wait is still true
    intro w hw
    cases h.inv.stepped hs with
    | call hidle hc hworker hb =>
      rw [hb]
      exact h.wait w (by rwa [← hworker])
    | @caller c woken pc k hnext hc hworker hnone hb =>
      rw [hworker] at hw
      have hout : (s.caller c).inside = false := by
        rw [← Bool.not_eq_true]
        intro hin
        exact h.not_wait hin w hw
      rw [hb, h.wait w hw]
      generalize s.caller c = pc₀ at hnext hout
      cases hnext with
      | lock | signal | unLock => rfl
      | push => cases hout
    | woken hsig hasleep hc hworker hb =>
      rw [hb]
      exact h.wait w (worker_of_ne hworker (by simp) hw)
    | @worker w₀ more pc k hnext hworker hc hb =>
      rw [hb]
      by_cases hww : w = w₀
      · subst hww
        rw [hworker, Function.update_self] at hw
        subst hw
        generalize s.worker w = pc₀ at hnext
        cases hnext with
        | empty hzero => omega
      · rw [hworker, Function.update_of_ne hww] at hw
        rw [h.wait w hw, Nat.zero_sub]
    | spurious hasleep hworker hc hb =>
      rw [hb]
      exact h.wait w (worker_of_ne hworker (by simp) hw)
  · intro w hw
    cases h.inv.stepped hs with
    | @call c st hidle hc hworker hb =>
      have hcall := tally_update CallPc.signalling s.caller c (.lock st)
      rw [hb, hc, hworker]
      rw [hworker] at hw
      have := h.asleep w hw
      simp only [hidle, CallPc.signalling] at hcall
      omega
    | @caller c woken pc k hnext hc hworker hnone hb =>
      have hcall := tally_update CallPc.signalling s.caller c pc
      rw [hworker] at hw
      have hle := h.asleep w hw
      rw [hb, hc, hworker]
      generalize hpc : s.caller c = pc₀ at hnext hcall
      cases hnext with
      | lock | push | unLock =>
        simp only [CallPc.signalling] at hcall
        omega
      | signal =>
        -- a signal that wakes nobody finds nobody asleep
        have hn := hnone hpc
        subst hn
        exact absurd hw (hok hpc w)
    | @woken c woken w₀ hsig hasleep hc hworker hb =>
      have hcall := tally_update CallPc.signalling s.caller c .unLock
      have hwork := tally_update WorkerPc.coming s.worker w₀ .awake
      have hle := h.asleep w₀ hasleep
      rw [hb, hc, hworker]
      simp only [hsig, CallPc.signalling] at hcall
      simp only [hasleep, WorkerPc.coming] at hwork
      omega
    | @worker w₀ more pc k hnext hworker hc hb =>
      have hwork := tally_update WorkerPc.coming s.worker w₀ pc
      rw [hb, hc, hworker]
      by_cases hww : w = w₀
      · -- the worker that goes to sleep has seen an empty list
        subst hww
        rw [hworker, Function.update_self] at hw
        subst hw
        generalize hpc : s.worker w = pc₀ at hnext hwork
        cases hnext with
        | wait =>
          rw [h.wait w hpc]
          exact Nat.zero_le _
      · rw [hworker, Function.update_of_ne hww] at hw
        have hle := h.asleep w hw
        generalize s.worker w₀ = pc₀ at hnext hwork
        cases hnext with
        | lock | task | wait | awake | unLock | again | done | shift =>
          simp only [WorkerPc.coming] at hwork
          omega
        | empty hzero => omega
    | @spurious w₀ hasleep hworker hc hb =>
      have hwork := tally_update WorkerPc.coming s.worker w₀ .awake
      have hle := h.asleep w₀ hasleep
      rw [hb, hc, hworker]
      simp only [hasleep, WorkerPc.coming] at hwork
      omega

end Awake

/-! ## Every run comes to rest -/

/-- How many steps a caller may have before it, and those that the signal makes for a worker. -/
def CallPc.rank : CallPc τ → ℕ
  | .idle => 0
  | .lock _ => 12
  | .push _ => 11
  | .signal => 5
  | .unLock => 1

/-- How many steps a worker may have before it, if there is nothing more to take. -/
def WorkerPc.rank : WorkerPc τ → ℕ
  | .asleep => 0
  | .wait | .shift => 1
  | .len => 2
  | .lock | .awake => 3
  | .stepNext _ => 4
  | .unLock _ => 5

/-- How many steps there are before everybody rests. A task is good for five. -/
def State.rank (s : State κ ω τ) : ℕ :=
  5 * s.backlog + tally CallPc.rank s.caller + tally WorkerPc.rank s.worker

theorem Stepped.rank {s s' : State κ ω τ} {i : Label κ ω τ} (h : Stepped s s' i) :
    s'.rank + 1 ≤ s.rank + if i.outside then 12 + 1 else 0 := by
  unfold State.rank
  cases h with
  | @call c st hidle hc hworker hb =>
    have hcall := tally_update CallPc.rank s.caller c (.lock st)
    simp only [hidle, CallPc.rank] at hcall
    simp only [hb, hc, hworker, Label.outside, if_true]
    omega
  | @caller c woken pc k hnext hc hworker hnone hb =>
    have hcall := tally_update CallPc.rank s.caller c pc
    rw [hb, hc, hworker]
    generalize s.caller c = pc₀ at hnext hcall
    cases hnext with
    | lock | push | signal | unLock =>
      simp only [CallPc.rank] at hcall
      omega
  | @woken c woken w hsig hasleep hc hworker hb =>
    have hcall := tally_update CallPc.rank s.caller c .unLock
    have hwork := tally_update WorkerPc.rank s.worker w .awake
    simp only [hsig, CallPc.rank] at hcall
    simp only [hasleep, WorkerPc.rank] at hwork
    rw [hb, hc, hworker]
    omega
  | @worker w more pc k hnext hworker hc hb =>
    have hwork := tally_update WorkerPc.rank s.worker w pc
    rw [hb, hc, hworker]
    generalize s.worker w = pc₀ at hnext hwork
    cases hnext with
    | lock | empty | task | wait | awake | shift | unLock | done =>
      simp only [WorkerPc.rank] at hwork
      omega
    | again hmore =>
      simp only [hmore, Label.outside, if_true]
      omega
  | @spurious w hasleep hworker hc hb =>
    have hwork := tally_update WorkerPc.rank s.worker w .awake
    simp only [hasleep, WorkerPc.rank] at hwork
    simp only [hb, hc, hworker, Label.outside, if_true]
    omega

/-- No thread can take a step by itself. -/
def State.Resting (s : State κ ω τ) : Prop :=
  ∀ i, i.outside = false → s.Signals i → s.step i = none

namespace Awake

variable {s : State κ ω τ}

theorem step_caller (h : Awake s) (c : κ) (woken : Option ω) :
    s.step (.caller c woken) = s.stepCaller c woken := by
  simp [State.step, h.inv.alive]

theorem step_worker (h : Awake s) (w : ω) (more : Bool) :
    s.step (.worker w more) = s.stepWorker w more := by
  simp [State.step, h.inv.alive]

omit [DecidableEq ω] [Fintype κ] [Fintype ω] in
/-- A caller that holds the mutex can go on; for a signal there is somebody to wake, or nobody sleeps. -/
theorem caller_inside (h : Inv s) {c : κ} (hin : (s.caller c).inside = true) [DecidableEq ω] :
    ∃ woken, s.Signals (.caller c woken) ∧ s.stepCaller c woken ≠ none := by
  cases hpc : s.caller c with
  | idle | lock => simp [hpc, CallPc.inside] at hin
  | push st =>
    obtain ⟨d, hd⟩ := h.record
    obtain ⟨tasks', d', hpush, -, -⟩ := hd.push st
    exact ⟨none, by simp [State.Signals, hpc], by simp [State.stepCaller, hpc, hpush]⟩
  | signal =>
    by_cases hs : ∃ w, s.worker w = .asleep
    · obtain ⟨w, hw⟩ := hs
      exact ⟨some w, trivial, by simp [State.stepCaller, hpc, hw]⟩
    · exact ⟨none, fun _ w hw => hs ⟨w, hw⟩, by simp [State.stepCaller, hpc]⟩
  | unLock => exact ⟨none, by simp [State.Signals, hpc], by simp [State.stepCaller, hpc]⟩

omit [DecidableEq κ] [Fintype κ] [Fintype ω] in
/-- A worker that holds the mutex can go on. -/
theorem worker_inside (h : Inv s) {w : ω} (hin : (s.worker w).inside = true) :
    s.stepWorker w false ≠ none := by
  cases hpc : s.worker w with
  | lock | asleep | awake | stepNext => simp [hpc, WorkerPc.inside] at hin
  | len | wait | unLock => simp [State.stepWorker, hpc]
  | shift =>
    obtain ⟨d, hd⟩ := h.record
    obtain ⟨n, t, tasks', d', hfirst, hshift, -⟩ := hd.shift (h.nonempty w hpc) w
    simp [State.stepWorker, hpc, hfirst, hshift]

/-- Whoever holds the mutex can go on, so nobody does in a state of rest. -/
theorem resting_free (h : Awake s) (hr : s.Resting) : s.mu = none := by
  cases hmu : s.mu with
  | none => rfl
  | some t =>
    have hin := (h.inv.holder t).mpr hmu
    cases t with
    | caller c =>
      obtain ⟨woken, hok, hstep⟩ := caller_inside h.inv hin
      rw [← h.step_caller] at hstep
      exact absurd (hr _ rfl hok) hstep
    | worker w =>
      have hstep := worker_inside h.inv hin
      rw [← h.step_worker] at hstep
      exact absurd (hr (.worker w false) rfl trivial) hstep

theorem resting_caller (h : Awake s) (hr : s.Resting) (c : κ) : s.caller c = .idle := by
  have hfree := h.resting_free hr
  have hout : s.inside (.caller c) = false := by
    rw [← Bool.not_eq_true, h.inv.holder, hfree]
    simp
  cases hpc : s.caller c with
  | idle => rfl
  | lock st =>
    have hnone := hr (.caller c none) rfl (by simp [State.Signals, hpc])
    simp [h.step_caller, State.stepCaller, hpc, hfree] at hnone
  | push | signal | unLock => simp [State.inside, hpc, CallPc.inside] at hout

theorem resting_worker (h : Awake s) (hr : s.Resting) (w : ω) : s.worker w = .asleep := by
  have hfree := h.resting_free hr
  have hout : s.inside (.worker w) = false := by
    rw [← Bool.not_eq_true, h.inv.holder, hfree]
    simp
  have hnone : s.step (.worker w false) = none := hr (.worker w false) rfl trivial
  rw [h.step_worker] at hnone
  cases hpc : s.worker w with
  | asleep => rfl
  | lock | awake | stepNext => simp [State.stepWorker, hpc, hfree] at hnone
  | len | wait | shift | unLock => simp [State.inside, hpc, WorkerPc.inside] at hout

/-- Nobody rests in front of a task. -/
theorem resting_taken [Nonempty ω] (h : Awake s) (hr : s.Resting) : s.taken.map Prod.snd = s.pushed := by
  obtain ⟨w⟩ := ‹Nonempty ω›
  have hcoming : tally WorkerPc.coming s.worker = 0 :=
    tally_eq_zero fun w => by rw [h.resting_worker hr w, WorkerPc.coming]
  have hsignalling : tally CallPc.signalling s.caller = 0 :=
    tally_eq_zero fun c => by rw [h.resting_caller hr c, CallPc.signalling]
  have hzero := h.asleep w (h.resting_worker hr w)
  rw [hcoming, hsignalling] at hzero
  obtain ⟨d, hd⟩ := h.inv.record
  have hitems : d.items = [] := by
    have hlen := congrArg List.length hd.order
    rw [List.length_append, List.length_map] at hlen
    unfold State.backlog at hzero
    exact List.eq_nil_of_length_eq_zero (by omega)
  rw [hd.order, hitems, List.append_nil]

end Awake

/-- **The scheduler comes to rest with all its work done.** In every state that any interleaving reaches, if a signal
wakes a sleeper when there is one: while a worker sleeps there are no more tasks in the list than workers on their way
to it and callers about to signal; a run from there is no longer than a bound that depends on the state, and
on how often it is given something to do from outside; and where no thread can move, no call is under way, every
worker sleeps, and all that has been pushed has been taken, in order. -/
theorem queue_drains [Nonempty ω] {s : State κ ω τ} (h : (machine κ ω τ).Reach State.Signals s) :
    (∀ w, s.worker w = .asleep →
      s.tasks.Len ≤ (tally WorkerPc.coming s.worker + tally CallPc.signalling s.caller : ℕ)) ∧
      (∃ n, ∀ is s', (machine κ ω τ).exec s is = some s' → is.length ≤ n + 13 * is.countP Label.outside) ∧
      (s.Resting → (∀ c, s.caller c = .idle) ∧ (∀ w, s.worker w = .asleep) ∧ s.taken.map Prod.snd = s.pushed) := by
  have hA : Awake s := h.invariant .start fun _ _ _ hA hok hs => hA.step hok hs
  refine ⟨?_, ⟨s.rank, ?_⟩, fun hr => ⟨hA.resting_caller hr, hA.resting_worker hr, hA.resting_taken hr⟩⟩
  · intro w hw
    rw [hA.inv.len]
    exact_mod_cast hA.asleep w hw
  · intro is s' he
    have hle : is.length + s'.rank ≤ s.rank + (12 + 1) * is.countP Label.outside :=
      Machine.exec_length_le (P := Inv) (fun _ _ _ hI hs => hI.step hs) (fun _ _ _ hI hs => (hI.stepped hs).rank)
        hA.inv he
    omega

/-- A worker sleeps, is woken by a call, takes its task and sleeps again: everybody rests, and the task is done. -/
theorem queue_drains_woken :
    ∃ s, (machine Unit Unit Nat).Reach State.Signals s ∧ s.Resting ∧
      s.pushed = [(0, 7)] ∧ s.taken.map Prod.snd = s.pushed := by
  obtain ⟨s, hs, hpushed, hcaller, hworker, hfree⟩ :
      ∃ s, (machine Unit Unit Nat).exec (machine Unit Unit Nat).start
          [.worker () false, .worker () false, .worker () false, .call () 7, .caller () (some ()),
            .caller () (some ()), .caller () (some ()), .caller () (some ()), .worker () false, .worker () false,
            .worker () false, .worker () false, .worker () false, .worker () false, .worker () false,
            .worker () false] = some s ∧
        s.pushed = [(0, 7)] ∧ s.caller () = .idle ∧ s.worker () = .asleep ∧ s.crashed = false :=
    ⟨_, rfl, rfl, rfl, rfl, rfl⟩
  have hreach : (machine Unit Unit Nat).Reach State.Signals s := by
    refine Machine.Reach.exec_ok .start hs fun i hi t => ?_
    simp only [List.mem_cons, List.not_mem_nil, or_false] at hi
    rcases hi with rfl | rfl | rfl | rfl | rfl | rfl | rfl | rfl | rfl | rfl | rfl | rfl | rfl | rfl | rfl | rfl <;>
      trivial
  have hrest : s.Resting := by
    intro i hout hok
    cases i with
    | call c st => cases hout
    | caller c woken => simp [State.step, State.stepCaller, hcaller]
    | worker w more => simp [State.step, State.stepWorker, hworker]
    | spurious w => cases hout
  exact ⟨s, hreach, hrest, hpushed, ((queue_drains hreach).2.2 hrest).2.2⟩

end CalcLang.Coro.Scheduler
