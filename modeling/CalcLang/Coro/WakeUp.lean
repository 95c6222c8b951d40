import CalcLang.Lib.Mutex
import CalcLang.Lib.Transition

/-!
# One await and one completion

A coroutine `P` awaits a task `Q` while `Q` is completed. The code that
`AwaitNode.calc` emits locks `Q`'s mutex, reads `IsDone`, stores `P` into
`nextTask` if `Q` is not done, and unlocks; `TryQueueContinuous` locks, calls
`SetDone`, reads `nextTask`, queues what it finds there, and unlocks. (It also
clears the pointer in its own copy of the interface, which nobody reads again.)

Each of these steps is atomic and the two threads interleave in any way. The two
critical sections cannot overlap, so one of them comes first as a whole: if it is
the await's, the completion finds `P`; if it is the completion's, the await sees
the task done. `wake_up_once` is the invariant form of this argument.
-/

namespace CalcLang.Coro.WakeUp

open CalcLang.Lib

variable {τ : Type} {P : τ}

/-- Where the await is; `b` is what `IsDone` returned. -/
inductive AwaiterPc where
  | lock
  | isDone
  | store
  | unLock (b : Bool)
  | finished (b : Bool)
deriving DecidableEq, Repr

/-- Where the completion is; `c` is what `GetContinuous` returned. -/
inductive CompleterPc (τ : Type) where
  | lock
  | setDone
  | getContinuous
  | queueTask (c : Option τ)
  | unLock
  | finished
deriving DecidableEq, Repr

/-- The two threads. -/
inductive Thread where
  | awaiter
  | completer
deriving DecidableEq, Repr

/-- `Q`, the scheduler queue, and the places of the two threads. `pushed` is what
the completion has put on the queue. -/
structure State (τ : Type) where
  mutex : Option Thread
  done : Bool
  nextTask : Option τ
  pushed : List τ
  awaiter : AwaiterPc
  completer : CompleterPc τ
deriving DecidableEq, Repr

namespace State

/-- A step of the code `AwaitNode.calc` emits. -/
def stepAwaiter (P : τ) (s : State τ) : Option (State τ) :=
  match s.awaiter with
  | .lock =>
    if s.mutex = none then some { s with mutex := some .awaiter, awaiter := .isDone } else none
  | .isDone => some { s with awaiter := if s.done then .unLock true else .store }
  | .store => some { s with nextTask := some P, awaiter := .unLock false }
  | .unLock b => some { s with mutex := none, awaiter := .finished b }
  | .finished _ => none

/-- A step of `TryQueueContinuous`. `QueueTaskIfPossible` does nothing with nil. -/
def stepCompleter (s : State τ) : Option (State τ) :=
  match s.completer with
  | .lock =>
    if s.mutex = none then some { s with mutex := some .completer, completer := .setDone }
    else none
  | .setDone => some { s with done := true, completer := .getContinuous }
  | .getContinuous => some { s with completer := .queueTask s.nextTask }
  | .queueTask c => some { s with pushed := s.pushed ++ c.toList, completer := .unLock }
  | .unLock => some { s with mutex := none, completer := .finished }
  | .finished => none

/-- A step of either thread. -/
def step (P : τ) (s : State τ) : Thread → Option (State τ)
  | .awaiter => s.stepAwaiter P
  | .completer => s.stepCompleter

end State

/-- `P` is about to await `Q`, and `Q` is about to be completed. -/
def machine (P : τ) : Machine (State τ) Thread where
  start := ⟨none, false, none, [], .lock, .lock⟩
  step := State.step P

/-! ## The invariant -/

/-- The await is between its `Lock` and its `UnLock`. -/
def AwaiterPc.inside : AwaiterPc → Bool
  | .isDone | .store | .unLock _ => true
  | .lock | .finished _ => false

/-- The await has left `P` in `nextTask`. -/
def AwaiterPc.registered : AwaiterPc → Bool
  | .unLock false | .finished false => true
  | _ => false

/-- The completion is between its `Lock` and its `UnLock`. -/
def CompleterPc.inside : CompleterPc τ → Bool
  | .lock | .finished => false
  | _ => true

/-- The completion has called `SetDone`. -/
def CompleterPc.done : CompleterPc τ → Bool
  | .lock | .setDone => false
  | _ => true

/-- What the completion has done with `nextTask`: nothing, read it, queued it. -/
def CompleterPc.Delivered (nextTask : Option τ) (pushed : List τ) : CompleterPc τ → Prop
  | .lock | .setDone | .getContinuous => pushed = []
  | .queueTask c => c = nextTask ∧ pushed = []
  | .unLock | .finished => pushed = nextTask.toList

def State.inside (s : State τ) : Thread → Bool
  | .awaiter => s.awaiter.inside
  | .completer => s.completer.inside

structure Inv (P : τ) (s : State τ) : Prop where
  holder : Guards s.mutex s.inside
  next : s.nextTask = if s.awaiter.registered then some P else none
  done : s.done = s.completer.done
  /-- `P` is only stored into a task that is not done. -/
  undone : s.awaiter = .store → s.done = false
  delivered : s.completer.Delivered s.nextTask s.pushed

namespace Inv

variable {s s' : State τ}

theorem start (P : τ) : Inv P (machine P).start where
  holder := .free fun t => by cases t <;> rfl
  next := rfl
  done := rfl
  undone := by simp [machine]
  delivered := rfl

/-- The other thread does not move. -/
theorem completer_frame {s s' : State τ} (h : s'.completer = s.completer) (t : Thread)
    (ht : t ≠ .awaiter) : s'.inside t = s.inside t := by
  cases t with
  | awaiter => exact absurd rfl ht
  | completer => exact congrArg CompleterPc.inside h

theorem awaiter_frame {s s' : State τ} (h : s'.awaiter = s.awaiter) (t : Thread)
    (ht : t ≠ .completer) : s'.inside t = s.inside t := by
  cases t with
  | awaiter => exact congrArg AwaiterPc.inside h
  | completer => exact absurd rfl ht

/-- A thread moves without passing a lock. -/
theorem stay (h : Inv P s) (s' : State τ) (ha : s'.awaiter.inside = s.awaiter.inside)
    (hc : s'.completer.inside = s.completer.inside) (hm : s'.mutex = s.mutex) :
    Guards s'.mutex s'.inside := by
  rw [hm]
  apply h.holder.stay
  intro t
  cases t with
  | awaiter => exact ha
  | completer => exact hc

/-- A step of the await keeps the invariant. -/
theorem stepAwaiter (h : Inv P s) (hs : s.stepAwaiter P = some s') : Inv P s' := by
  have hstay := h.stay s'
  obtain ⟨hholder, hnext, hdone, hundone, hdel⟩ := h
  unfold State.stepAwaiter at hs
  cases hpc : s.awaiter with
  | lock =>
    simp only [hpc, Option.ite_none_right_eq_some, Option.some.injEq] at hs
    obtain ⟨hfree, rfl⟩ := hs
    rw [hpc] at hnext
    rw [hfree] at hholder
    exact ⟨hholder.enter (completer_frame rfl) rfl, hnext, hdone, by simp, hdel⟩
  | isDone =>
    simp only [hpc, Option.some.injEq] at hs
    rw [hpc] at hnext hstay
    subst hs
    cases hd : s.done with
    | true =>
      refine ⟨?_, hnext, by rw [← hd]; exact hdone, by simp, hdel⟩
      rw [hd] at hstay
      exact hstay rfl rfl rfl
    | false =>
      refine ⟨?_, hnext, by rw [← hd]; exact hdone, fun _ => rfl, hdel⟩
      rw [hd] at hstay
      exact hstay rfl rfl rfl
  | store =>
    simp only [hpc, Option.some.injEq] at hs
    rw [hpc] at hstay
    subst hs
    refine ⟨hstay rfl rfl rfl, rfl, hdone, by simp, ?_⟩
    -- `Q` is not done, so the completion has not read `nextTask` yet
    have hbefore : s.completer.done = false := hdone ▸ hundone hpc
    cases hc : s.completer with
    | lock | setDone =>
      rw [hc] at hdel
      exact hdel
    | getContinuous | queueTask _ | unLock | finished =>
      rw [hc] at hbefore
      cases hbefore
  | unLock b =>
    simp only [hpc, Option.some.injEq] at hs
    rw [hpc] at hnext
    subst hs
    have hin : s.inside .awaiter = true := by simp [State.inside, hpc, AwaiterPc.inside]
    refine ⟨hholder.leave hin (completer_frame rfl) rfl, ?_, hdone, by simp, hdel⟩
    cases b with
    | true => exact hnext
    | false => exact hnext
  | finished b =>
    rw [hpc] at hs
    cases hs

/-- A step of the completion keeps the invariant. -/
theorem stepCompleter (h : Inv P s) (hs : s.stepCompleter = some s') : Inv P s' := by
  have hstay := h.stay s'
  obtain ⟨hholder, hnext, hdone, hundone, hdel⟩ := h
  have hin : s.completer.inside = true → s.inside .completer = true := id
  unfold State.stepCompleter at hs
  cases hpc : s.completer with
  | lock =>
    simp only [hpc, Option.ite_none_right_eq_some, Option.some.injEq] at hs
    obtain ⟨hfree, rfl⟩ := hs
    rw [hpc] at hdone hdel
    rw [hfree] at hholder
    exact ⟨hholder.enter (awaiter_frame rfl) rfl, hnext, hdone, hundone, hdel⟩
  | setDone =>
    simp only [hpc, Option.some.injEq] at hs
    rw [hpc] at hdel hstay hin
    subst hs
    refine ⟨hstay rfl rfl rfl, hnext, rfl, ?_, hdel⟩
    -- the await cannot stand between its read and its store
    intro hstore
    have hawait : s.inside .awaiter = true := by
      rw [State.inside, show s.awaiter = .store from hstore]
      rfl
    cases hholder.eq (hin rfl) hawait
  | getContinuous =>
    simp only [hpc, Option.some.injEq] at hs
    rw [hpc] at hdone hdel hstay
    subst hs
    exact ⟨hstay rfl rfl rfl, hnext, hdone, hundone, rfl, hdel⟩
  | queueTask c =>
    simp only [hpc, Option.some.injEq] at hs
    rw [hpc] at hdone hdel hstay
    obtain ⟨rfl, hempty⟩ := hdel
    subst hs
    refine ⟨hstay rfl rfl rfl, hnext, hdone, hundone, ?_⟩
    show s.pushed ++ s.nextTask.toList = s.nextTask.toList
    rw [hempty, List.nil_append]
  | unLock =>
    simp only [hpc, Option.some.injEq] at hs
    rw [hpc] at hdone hdel hin
    subst hs
    exact ⟨hholder.leave (hin rfl) (awaiter_frame rfl) rfl, hnext, hdone, hundone, hdel⟩
  | finished =>
    rw [hpc] at hs
    cases hs

theorem step (h : Inv P s) {t : Thread} (hs : s.step P t = some s') : Inv P s' := by
  cases t with
  | awaiter => exact h.stepAwaiter hs
  | completer => exact h.stepCompleter hs

/-- As long as one of the threads has not finished, one of them can go on: whoever
holds the mutex, or else whoever has not finished. -/
theorem progress (h : Inv P s) (hs : (∀ b, s.awaiter ≠ .finished b) ∨ s.completer ≠ .finished) :
    ∃ t s', s.step P t = some s' := by
  by_cases ha : s.awaiter.inside = true
  · refine ⟨.awaiter, ?_⟩
    simp only [State.step, State.stepAwaiter]
    cases hpc : s.awaiter with
    | lock | finished _ =>
      rw [hpc] at ha
      cases ha
    | isDone | store | unLock _ => exact ⟨_, rfl⟩
  by_cases hc : s.completer.inside = true
  · refine ⟨.completer, ?_⟩
    simp only [State.step, State.stepCompleter]
    cases hpc : s.completer with
    | lock | finished =>
      rw [hpc] at hc
      cases hc
    | setDone | getContinuous | queueTask _ | unLock => exact ⟨_, rfl⟩
  -- nobody is inside, so whoever waits for the mutex gets it
  have hfree : s.mutex = none := by
    cases hm : s.mutex with
    | none => rfl
    | some t =>
      cases t with
      | awaiter => exact absurd ((h.holder .awaiter).mpr hm) ha
      | completer => exact absurd ((h.holder .completer).mpr hm) hc
  rcases hs with hs | hs
  · refine ⟨.awaiter, ?_⟩
    simp only [State.step, State.stepAwaiter, hfree]
    cases hpc : s.awaiter with
    | finished b => exact absurd hpc (hs b)
    | lock | isDone | store | unLock _ => exact ⟨_, rfl⟩
  · refine ⟨.completer, ?_⟩
    simp only [State.step, State.stepCompleter, hfree]
    cases hpc : s.completer with
    | finished => exact absurd hpc hs
    | lock | setDone | getContinuous | queueTask _ | unLock => exact ⟨_, rfl⟩

end Inv

/-! ## Every interleaving -/

theorem reach_inv {s : State τ} (h : (machine P).Reach (fun _ _ => True) s) : Inv P s :=
  h.invariant (.start P) fun _ _ _ hI _ hs => hI.step hs

/-- **No wake-up is lost or doubled.** In every interleaving, once the await and the
completion have finished, `P` is on the scheduler queue exactly once if the await
saw `Q` not done, and not at all if it saw `Q` done. -/
theorem wake_up_once {s : State τ} (h : (machine P).Reach (fun _ _ => True) s) {b : Bool}
    (ha : s.awaiter = .finished b) (hc : s.completer = .finished) :
    s.pushed = if b then [] else [P] := by
  have hI := reach_inv h
  have hdel := hI.delivered
  rw [hc] at hdel
  rw [show s.pushed = s.nextTask.toList from hdel, hI.next, ha]
  cases b with
  | true => rfl
  | false => rfl

/-- The await comes first, and the completion finds `P`. -/
theorem wake_up_once_registered :
    ∃ s, (machine 7).exec (machine 7).start
        [.awaiter, .awaiter, .awaiter, .awaiter, .completer, .completer, .completer, .completer,
          .completer] = some s ∧ s.pushed = [7] := by
  have hrun : (machine 7).exec (machine 7).start
      [.awaiter, .awaiter, .awaiter, .awaiter, .completer, .completer, .completer, .completer,
        .completer] = some ⟨none, true, some 7, [7], .finished false, .finished⟩ := rfl
  exact ⟨_, hrun, wake_up_once (.exec .start hrun) rfl rfl⟩

end CalcLang.Coro.WakeUp
