import CalcLang.Lib.Transition
import Mathlib.Logic.Function.Basic

/-!
# Awaiting a task, completing it, and running the scheduler's workers

The three programs that meet in a coroutine's wake-up:

* the code `AwaitNode.calc` emits inside `P.StepNext` (`compiler/ast/coro.go`):
  lock the awaited task, read `IsDone`, store `P` into `nextTask` if it is not
  done, unlock, *then* store the resume address, and return what was read;
* `TryQueueContinuous` (`runtime/coro/coro.calc`): lock, `SetDone`, read
  `nextTask`, push it if it is there, unlock;
* the loop of `Exec`: pop a task, call its `StepNext` until it returns false.

`P` is a chain of blocks; block `k < N` awaits its own task `k`, and a block
past the last returns false. There are any number of workers (`ω`) and each
task is completed once. Each atomic step is a label, so every interleaving is a
schedule.

Between the unlock and the return, `P` can be completed, queued and popped
while its resume address is still the block it is about to leave:
`await_races`. The repository's own `YieldNode.calc` and `RetNode.calc` store
the address before anything can wake the coroutine. As long as nobody calls
`P.StepNext` in that window, the wake-up protocol is right: `await_safe`.
-/

namespace CalcLang.Coro

open CalcLang.Lib

variable {ω : Type}

/-- Why a worker calls `P.StepNext`: `P` was queued when it was created, it was
queued by the completion of task `k`, or the same worker calls again because
the await of task `k` returned true. -/
inductive Origin where
  | start
  | queued (k : Nat)
  | seenDone (k : Nat)
deriving DecidableEq, Repr

/-- An entry of the scheduler queue: `P`, or a task that has nothing to do with
it. -/
inductive Entry where
  | P (o : Origin)
  | other
deriving DecidableEq, Repr

/-- Where a worker is. `lock k` to `ret k b` are inside `P.StepNext`, in the
block that awaits task `k`; `b` is what `IsDone` returned. -/
inductive WorkerPc where
  | idle
  | popped (o : Origin)
  | lock (k : Nat)
  | read (k : Nat)
  | store (k : Nat)
  | unlock (k : Nat) (b : Bool)
  | setResume (k : Nat) (b : Bool)
  | ret (k : Nat) (b : Bool)
  | again (k : Nat)
  | last (k : Nat)
deriving DecidableEq, Repr

/-- Where the one completion of a task is, in `TryQueueContinuous`. -/
inductive CompleterPc where
  | lock
  | setDone
  | readNext
  | push (c : Bool)
  | unlock
  | finished
deriving DecidableEq, Repr

/-- Who holds a task's mutex. -/
inductive Holder (ω : Type) where
  | worker (w : ω)
  | completer
deriving DecidableEq, Repr

/-- The shared state. `resume` is `P`'s stored resume address; `entries` records
each call of `P.StepNext` with its reason and the block it entered. -/
structure State (ω : Type) where
  mutex : Nat → Option (Holder ω)
  done : Nat → Bool
  nextTask : Nat → Bool
  resume : Nat
  queue : List Entry
  worker : ω → WorkerPc
  completer : Nat → CompleterPc
  entries : List (Origin × Nat)

/-- The threads that can move, and other tasks being submitted. -/
inductive Label (ω : Type) where
  | worker (w : ω)
  | complete (k : Nat)
  | submit
deriving DecidableEq, Repr

namespace State

variable [DecidableEq ω]

/-- Worker `w` goes on to `pc`. -/
def goto (s : State ω) (w : ω) (pc : WorkerPc) : State ω :=
  { s with worker := Function.update s.worker w pc }

/-- The completion of task `k` goes on to `pc`. -/
def completerGoto (s : State ω) (k : Nat) (pc : CompleterPc) : State ω :=
  { s with completer := Function.update s.completer k pc }

/-- Call `P.StepNext`: its entry block jumps to the stored resume address. -/
def enter (N : Nat) (s : State ω) (w : ω) (o : Origin) : State ω :=
  { s.goto w (if s.resume < N then .lock s.resume else .last s.resume) with
    entries := s.entries ++ [(o, s.resume)] }

/-- One step of worker `w`: `Exec`'s loop, and `P.StepNext` while it is inside. -/
def stepWorker (N : Nat) (s : State ω) (w : ω) : Option (State ω) :=
  match s.worker w with
  | .idle =>
    match s.queue with
    | [] => none
    | .other :: q => some { s with queue := q }
    | .P o :: q => some ({ s with queue := q }.goto w (.popped o))
  | .popped o => some (s.enter N w o)
  | .lock k =>
    if s.mutex k = none then
      some ({ s with mutex := Function.update s.mutex k (some (.worker w)) }.goto w (.read k))
    else none
  | .read k => some (s.goto w (if s.done k then .unlock k true else .store k))
  | .store k =>
    some ({ s with nextTask := Function.update s.nextTask k true }.goto w (.unlock k false))
  | .unlock k b =>
    some ({ s with mutex := Function.update s.mutex k none }.goto w (.setResume k b))
  | .setResume k b => some ({ s with resume := k + 1 }.goto w (.ret k b))
  | .ret k b => some (s.goto w (if b then .again k else .idle))
  | .again k => some (s.enter N w (.seenDone k))
  | .last _ => some (s.goto w .idle)

/-- One step of `TryQueueContinuous` for task `k`. -/
def stepCompleter (s : State ω) (k : Nat) : Option (State ω) :=
  match s.completer k with
  | .lock =>
    if s.mutex k = none then
      some ({ s with mutex := Function.update s.mutex k (some .completer) }.completerGoto k
        .setDone)
    else none
  | .setDone =>
    some ({ s with done := Function.update s.done k true }.completerGoto k .readNext)
  | .readNext => some (s.completerGoto k (.push (s.nextTask k)))
  | .push c =>
    some ({ s with queue := if c then s.queue ++ [Entry.P (.queued k)] else s.queue }.completerGoto k
      .unlock)
  | .unlock =>
    some ({ s with mutex := Function.update s.mutex k none }.completerGoto k .finished)
  | .finished => none

end State

/-- `P` has been created and queued; nobody has run it yet. -/
def State.initial : State ω where
  mutex _ := none
  done _ := false
  nextTask _ := false
  resume := 0
  queue := [.P .start]
  worker _ := .idle
  completer _ := .lock
  entries := []

/-- The system: `P` with `N` awaits, the workers `ω`, and one completion for
each task. -/
def await (ω : Type) [DecidableEq ω] (N : Nat) : Machine (State ω) (Label ω) where
  start := .initial
  step s
    | .worker w => s.stepWorker N w
    | .complete k => s.stepCompleter k
    | .submit => some { s with queue := s.queue ++ [.other] }

/-- The worker is inside `P.StepNext`. -/
def WorkerPc.inside : WorkerPc → Bool
  | .idle | .popped _ | .again _ => false
  | _ => true

/-- The worker is inside `P.StepNext` and has released the awaited task's mutex:
it has still to store the resume address, or to return. -/
def WorkerPc.leaving : WorkerPc → Bool
  | .setResume _ _ | .ret _ _ => true
  | _ => false

/-- What the wake-up protocol promises. -/
structure State.Safe (s : State ω) : Prop where
  /-- a call of `P.StepNext` after task `k`'s completion queued `P` enters the
  block following that await -/
  resumes : ∀ k b, (.queued k, b) ∈ s.entries → b = k + 1
  exclusive : ∀ w w', (s.worker w).inside → (s.worker w').inside → w = w'

/-- A worker that took `P` from the queue calls `P.StepNext` only when no worker
is on its way out of it. -/
def Undisturbed (s : State ω) : Label ω → Prop
  | .worker w => ∀ o, s.worker w = .popped o → ∀ w', (s.worker w').leaving = false
  | _ => True

/-! ## The invariant: where `P` is -/

namespace WorkerPc

/-- The mutex a worker holds. -/
def holds : WorkerPc → Option Nat
  | .read k | .store k | .unlock k _ => some k
  | _ => none

/-- The await a worker has registered `P` for and not yet returned from. -/
def parked : WorkerPc → Option Nat
  | .unlock k false | .setResume k false | .ret k false => some k
  | _ => none

/-- The worker is the one that runs `P`: it has not given `P` away. -/
def runs : WorkerPc → Bool
  | .lock _ | .read _ | .store _ | .unlock _ true | .setResume _ true | .ret _ true
  | .again _ | .last _ => true
  | _ => false

/-- What `P`'s resume address is while a worker is here. -/
def address : WorkerPc → Option Nat
  | .idle | .popped _ => none
  | .ret k _ | .again k => some (k + 1)
  | .lock k | .read k | .store k | .unlock k _ | .setResume k _ | .last k => some k

end WorkerPc

namespace CompleterPc

/-- The completion holds its task's mutex. -/
def holds : CompleterPc → Bool
  | .lock | .finished => false
  | _ => true

/-- The completion has performed `SetDone`. -/
def isDone : CompleterPc → Bool
  | .lock | .setDone => false
  | _ => true

/-- A continuation registered now will still be seen. -/
def unread : CompleterPc → Bool
  | .lock | .setDone | .readNext => true
  | _ => false

end CompleterPc

/-- Who has `P`. -/
inductive Phase (ω : Type) where
  | queued (o : Origin)
  | popped (w : ω) (o : Origin)
  | running (w : ω)
  | waiting (k : Nat)
  | finished

/-- The await whose completion is what will wake, or has woken, `P`. -/
def Phase.owed : Phase ω → Option Nat
  | .queued (.queued k) | .popped _ (.queued k) | .waiting k => some k
  | _ => none

/-- The reason `P` was queued for, while it is on its way to a worker. -/
def Phase.ticket : Phase ω → Option Origin
  | .queued o | .popped _ o => some o
  | _ => none

/-- The completion that owes `P` its wake-up is the one it was queued for. -/
theorem Phase.ticket_of_owed {ph : Phase ω} {k : Nat} {o : Origin} (hk : ph.owed = some k)
    (ho : ph.ticket = some o) : o = .queued k := by
  cases ph with
  | queued o' | popped w o' =>
    cases o' <;> simp_all [Phase.owed, Phase.ticket]
  | _ => cases ho

/-- The three places where a worker has registered `P` and not yet returned. -/
theorem WorkerPc.parked_eq_some {pc : WorkerPc} {k : Nat} (h : pc.parked = some k) :
    pc = .unlock k false ∨ pc = .setResume k false ∨ pc = .ret k false := by
  unfold WorkerPc.parked at h
  split at h <;> simp_all

/-- The queue's entries for `P`. -/
def pEntries (q : List Entry) : List Origin :=
  q.filterMap fun | .P o => some o | .other => none

/-- The shared state says that `P` is where `ph` says. -/
structure Tracks (s : State ω) (ph : Phase ω) : Prop where
  queue : pEntries s.queue = match ph with | .queued o => [o] | _ => []
  popped : ∀ w o, s.worker w = .popped o ↔ ph = .popped w o
  runs : ∀ w, (s.worker w).runs = true ↔ ph = .running w
  parked : ∀ w k, (s.worker w).parked = some k → ph.owed = some k
  parked_unique : ∀ w w' k k', (s.worker w).parked = some k → (s.worker w').parked = some k' →
    w = w'
  address : ∀ w a, (s.worker w).address = some a → s.resume = a
  /-- once nobody is on the way out of the await, the address is the next block -/
  settled : ∀ k, ph.owed = some k → (∀ w, (s.worker w).parked ≠ some k) → s.resume = k + 1
  ticket : ∀ o, ph.ticket = some o → (o = .start ∧ s.resume = 0) ∨ ∃ k, o = .queued k
  mutex_worker : ∀ k w, s.mutex k = some (.worker w) ↔ (s.worker w).holds = some k
  mutex_completer : ∀ k, s.mutex k = some .completer ↔ (s.completer k).holds = true
  done : ∀ k, s.done k = (s.completer k).isDone
  registered : ∀ k, s.nextTask k = true ∧ (s.completer k).unread = true ∨
    s.completer k = .push true ↔ ph = .waiting k
  /-- an await not yet reached has no continuation -/
  ahead : ∀ j, s.nextTask j = true → j < s.resume ∨ ph.owed = some j
  /-- a task seen unfinished stays so while its mutex is held -/
  unfinished : ∀ w k, s.worker w = .store k ∨ s.worker w = .unlock k false → s.done k = false
  woken : ∀ k, ph.ticket = some (.queued k) → s.done k = true
  resumes : ∀ k b, (Origin.queued k, b) ∈ s.entries → b = k + 1

/-- A worker that is anywhere between a call of `P.StepNext` and the end of that
call is the only one. -/
theorem Tracks.alone {s : State ω} {ph : Phase ω} (h : Tracks s ph) {w w' : ω} {a a' : Nat}
    (hw : (s.worker w).address = some a) (hw' : (s.worker w').address = some a') : w = w' := by
  have hcases : ∀ w a, (s.worker w).address = some a →
      ph = .running w ∨ ∃ k, (s.worker w).parked = some k := by
    intro w a hw
    rw [← h.runs w]
    cases hpc : s.worker w with
    | unlock k b => cases b <;> simp [WorkerPc.runs, WorkerPc.parked]
    | setResume k b => cases b <;> simp [WorkerPc.runs, WorkerPc.parked]
    | ret k b => cases b <;> simp [WorkerPc.runs, WorkerPc.parked]
    | _ => simp [hpc, WorkerPc.address, WorkerPc.runs] at hw ⊢
  rcases hcases w a hw with hr | ⟨k, hp⟩ <;> rcases hcases w' a' hw' with hr' | ⟨k', hp'⟩
  · cases hr.symm.trans hr'
    rfl
  · have howed := h.parked w' k' hp'
    rw [hr] at howed
    cases howed
  · have howed := h.parked w k hp
    rw [hr'] at howed
    cases howed
  · exact h.parked_unique w w' k k' hp hp'

/-- Tracking implies the protocol's promise. -/
theorem Tracks.safe {s : State ω} {ph : Phase ω} (h : Tracks s ph) : s.Safe := by
  have hin : ∀ w, (s.worker w).inside = true → ∃ a, (s.worker w).address = some a := by
    intro w hw
    cases hpc : s.worker w <;> simp [hpc, WorkerPc.inside, WorkerPc.address] at hw ⊢
  refine ⟨h.resumes, fun w w' hw hw' => ?_⟩
  obtain ⟨a, ha⟩ := hin w hw
  obtain ⟨a', ha'⟩ := hin w' hw'
  exact h.alone ha ha'

/-- Before anybody has moved, `P` is in the queue. -/
theorem tracks_initial : Tracks (State.initial : State ω) (.queued .start) := by
  constructor <;> simp [State.initial, pEntries, WorkerPc.runs, WorkerPc.parked, WorkerPc.address,
    WorkerPc.holds, CompleterPc.holds, CompleterPc.isDone, Phase.owed, Phase.ticket]

/-! ## What each step does to it

One lemma for each program counter. The phase changes when `P` changes hands:
at a pop, at a call, at the store into `nextTask`, and at the push. -/

section Steps

variable {N : Nat} {s : State ω} {ph : Phase ω} {w : ω} {k : Nat}

attribute [local grind] WorkerPc.runs WorkerPc.parked WorkerPc.address WorkerPc.holds
  WorkerPc.leaving CompleterPc.holds CompleterPc.isDone CompleterPc.unread Phase.owed Phase.ticket
attribute [local grind =] Function.update_apply

/-- Only the queue's entries for `P` matter. -/
theorem Tracks.requeue (h : Tracks s ph) {q : List Entry} (hq : pEntries q = pEntries s.queue) :
    Tracks { s with queue := q } ph where
  __ := h
  queue := hq.trans h.queue

/-- The completion takes the mutex. -/
theorem Tracks.completerLock (h : Tracks s ph) (hpc : s.completer k = .lock)
    (hfree : s.mutex k = none) :
    Tracks ({ s with mutex := Function.update s.mutex k (some .completer) }.completerGoto k
      .setDone) ph := by
  have htracks := h
  obtain ⟨hq, hpop, hrun, hpark, huniq, haddr, hset, htick, hmw, hmc, hdone, hreg, hahead, hunfin,
    hwoken, hres⟩ := htracks
  refine { h with mutex_worker := ?_, mutex_completer := ?_, done := ?_, registered := ?_ } <;>
    simp only [State.completerGoto] <;> grind

/-- `SetDone`. No worker is between its reading of `IsDone` and its unlock: it
would hold the mutex. -/
theorem Tracks.completerSetDone (h : Tracks s ph) (hpc : s.completer k = .setDone) :
    Tracks ({ s with done := Function.update s.done k true }.completerGoto k .readNext) ph := by
  have htracks := h
  obtain ⟨hq, hpop, hrun, hpark, huniq, haddr, hset, htick, hmw, hmc, hdone, hreg, hahead, hunfin,
    hwoken, hres⟩ := htracks
  have hheld : s.mutex k = some .completer := (hmc k).mpr (by rw [hpc]; rfl)
  have hnobody : ∀ w, (s.worker w).holds ≠ some k := by
    intro w hw
    cases hheld.symm.trans ((hmw k w).mpr hw)
  refine { h with
    mutex_completer := ?_, done := ?_, registered := ?_, unfinished := ?_, woken := ?_ } <;>
    simp only [State.completerGoto] <;> grind

/-- Reading `nextTask`. -/
theorem Tracks.completerReadNext (h : Tracks s ph) (hpc : s.completer k = .readNext) :
    Tracks (s.completerGoto k (.push (s.nextTask k))) ph := by
  have htracks := h
  obtain ⟨hq, hpop, hrun, hpark, huniq, haddr, hset, htick, hmw, hmc, hdone, hreg, hahead, hunfin,
    hwoken, hres⟩ := htracks
  refine { h with mutex_completer := ?_, done := ?_, registered := ?_ } <;>
    simp only [State.completerGoto] <;> cases hn : s.nextTask k <;> grind

/-- Pushing the continuation: `P` is on its way to a worker. -/
theorem Tracks.completerPush (h : Tracks s ph) (hpc : s.completer k = .push true) :
    Tracks ({ s with queue := s.queue ++ [Entry.P (.queued k)] }.completerGoto k .unlock)
      (.queued (.queued k)) := by
  obtain rfl : ph = .waiting k := (h.registered k).mp (Or.inr hpc)
  have htracks := h
  obtain ⟨hq, hpop, hrun, hpark, huniq, haddr, hset, htick, hmw, hmc, hdone, hreg, hahead, hunfin,
    hwoken, hres⟩ := htracks
  have hpush : pEntries (s.queue ++ [Entry.P (.queued k)]) = [.queued k] := by
    rw [pEntries, List.filterMap_append]
    exact congrArg (· ++ [Origin.queued k]) hq
  refine { h with
    queue := ?_, popped := ?_, runs := ?_, parked := ?_, settled := ?_, ticket := ?_,
    mutex_completer := ?_, done := ?_, registered := ?_, ahead := ?_, woken := ?_ } <;>
    simp only [State.completerGoto] <;> grind

/-- Nothing to push. -/
theorem Tracks.completerSkip (h : Tracks s ph) (hpc : s.completer k = .push false) :
    Tracks (s.completerGoto k .unlock) ph := by
  have htracks := h
  obtain ⟨hq, hpop, hrun, hpark, huniq, haddr, hset, htick, hmw, hmc, hdone, hreg, hahead, hunfin,
    hwoken, hres⟩ := htracks
  refine { h with mutex_completer := ?_, done := ?_, registered := ?_ } <;>
    simp only [State.completerGoto] <;> grind

/-- The completion releases the mutex. -/
theorem Tracks.completerUnlock (h : Tracks s ph) (hpc : s.completer k = .unlock) :
    Tracks ({ s with mutex := Function.update s.mutex k none }.completerGoto k .finished) ph := by
  have htracks := h
  obtain ⟨hq, hpop, hrun, hpark, huniq, haddr, hset, htick, hmw, hmc, hdone, hreg, hahead, hunfin,
    hwoken, hres⟩ := htracks
  have hheld : s.mutex k = some .completer := (hmc k).mpr (by rw [hpc]; rfl)
  have hnobody : ∀ w, (s.worker w).holds ≠ some k := by
    intro w hw
    cases hheld.symm.trans ((hmw k w).mpr hw)
  refine { h with mutex_worker := ?_, mutex_completer := ?_, done := ?_, registered := ?_ } <;>
    simp only [State.completerGoto] <;> grind

/-- A completion's step keeps the invariant, for some place of `P`. -/
theorem stepCompleter_tracks {s' : State ω} (h : Tracks s ph)
    (hstep : s.stepCompleter k = some s') : ∃ ph', Tracks s' ph' := by
  unfold State.stepCompleter at hstep
  cases hpc : s.completer k with
  | lock =>
    simp only [hpc, Option.ite_none_right_eq_some, Option.some.injEq] at hstep
    exact ⟨_, hstep.2 ▸ h.completerLock hpc hstep.1⟩
  | setDone =>
    simp only [hpc, Option.some.injEq] at hstep
    exact ⟨_, hstep ▸ h.completerSetDone hpc⟩
  | readNext =>
    simp only [hpc, Option.some.injEq] at hstep
    exact ⟨_, hstep ▸ h.completerReadNext hpc⟩
  | push c =>
    simp only [hpc, Option.some.injEq] at hstep
    subst hstep
    cases c with
    | true => exact ⟨_, h.completerPush hpc⟩
    | false => exact ⟨_, h.completerSkip hpc⟩
  | unlock =>
    simp only [hpc, Option.some.injEq] at hstep
    exact ⟨_, hstep ▸ h.completerUnlock hpc⟩
  | finished => simp [hpc] at hstep

variable [DecidableEq ω]

/-- A worker that moved is where it went, and no other worker moved. -/
private theorem update_worker (f : ω → WorkerPc) (w : ω) (pc : WorkerPc) :
    Function.update f w pc w = pc ∧ ∀ w', w' ≠ w → Function.update f w pc w' = f w' :=
  ⟨Function.update_self .., fun _ hne => Function.update_of_ne hne ..⟩

/-- Two places of a worker that are the same to the phase. -/
structure WorkerPc.Alike (pc pc' : WorkerPc) : Prop where
  runs : pc.runs = pc'.runs
  parked : pc.parked = pc'.parked
  address : pc.address = pc'.address
  popped : ∀ o, pc = .popped o ↔ pc' = .popped o

/-- Going on to a place like the one before: only who holds the mutex is new. -/
theorem Tracks.within (h : Tracks s ph) {pc : WorkerPc} (halike : pc.Alike (s.worker w))
    {mutex : Nat → Option (Holder ω)}
    (hmw : ∀ k w', mutex k = some (.worker w') ↔ (Function.update s.worker w pc w').holds = some k)
    (hmc : ∀ k, mutex k = some .completer ↔ (s.completer k).holds = true)
    (hunfin : ∀ w' k, Function.update s.worker w pc w' = .store k ∨
      Function.update s.worker w pc w' = .unlock k false → s.done k = false) :
    Tracks ({ s with mutex := mutex }.goto w pc) ph := by
  have hall : ∀ w', (Function.update s.worker w pc w').Alike (s.worker w') := by
    intro w'
    obtain ⟨hself, hne⟩ := update_worker s.worker w pc
    by_cases hw : w' = w
    · subst hw
      rw [hself]
      exact halike
    · rw [hne w' hw]
      exact ⟨rfl, rfl, rfl, fun _ => Iff.rfl⟩
  refine { h with
    popped := fun w' o => ((hall w').popped o).trans (h.popped w' o)
    runs := fun w' => ?_
    parked := fun w' j hj => h.parked w' j ((hall w').parked.symm.trans hj)
    parked_unique := fun w₁ w₂ j j' hj hj' => ?_
    address := fun w' a ha => h.address w' a ((hall w').address.symm.trans ha)
    settled := fun j hj hnobody => ?_
    mutex_worker := hmw
    mutex_completer := hmc
    unfinished := hunfin }
  · rw [← h.runs w', ← (hall w').runs]
    exact Iff.rfl
  · exact h.parked_unique w₁ w₂ j j' ((hall w₁).parked.symm.trans hj) ((hall w₂).parked.symm.trans hj')
  · exact h.settled j hj fun w' hw' => hnobody w' ((hall w').parked.trans hw')

/-- Taking a task's mutex. -/
theorem Tracks.lock (h : Tracks s ph) (hpc : s.worker w = .lock k) (hfree : s.mutex k = none) :
    Tracks ({ s with mutex := Function.update s.mutex k (some (.worker w)) }.goto w (.read k))
      ph := by
  have hmw := h.mutex_worker
  have hmc := h.mutex_completer
  have hunfin := h.unfinished
  have hmove := update_worker s.worker w (.read k)
  have halike : (WorkerPc.read k).Alike (s.worker w) := by
    rw [hpc]
    exact ⟨rfl, rfl, rfl, by simp⟩
  refine h.within halike ?_ ?_ ?_ <;> grind

/-- Reading `IsDone` under the mutex. -/
theorem Tracks.read (h : Tracks s ph) (hpc : s.worker w = .read k) :
    Tracks (s.goto w (if s.done k then .unlock k true else .store k)) ph := by
  have hmw := h.mutex_worker
  have hunfin := h.unfinished
  have hmove := update_worker s.worker w (if s.done k then .unlock k true else .store k)
  have halike : (if s.done k then WorkerPc.unlock k true else .store k).Alike (s.worker w) := by
    rw [hpc]
    split <;> exact ⟨rfl, rfl, rfl, by simp⟩
  refine h.within halike ?_ h.mutex_completer ?_ <;> grind

/-- Storing `P` into `nextTask`: the worker gives `P` away. The completion has
not performed `SetDone`, since it would need the mutex, so it will still see the
continuation. -/
theorem Tracks.register (h : Tracks s ph) (hpc : s.worker w = .store k) :
    Tracks ({ s with nextTask := Function.update s.nextTask k true }.goto w (.unlock k false))
      (.waiting k) := by
  have hunread : (s.completer k).unread = true := by
    have hnd := h.unfinished w k (Or.inl hpc)
    rw [h.done] at hnd
    cases hc : s.completer k <;> simp_all [CompleterPc.isDone, CompleterPc.unread]
  have htracks := h
  obtain ⟨hq, hpop, hrun, hpark, huniq, haddr, hset, htick, hmw, hmc, hdone, hreg, hahead, hunfin,
    hwoken, hres⟩ := htracks
  have hph : ph = .running w := (hrun w).mp (by rw [hpc]; rfl)
  have hmove := update_worker s.worker w (.unlock k false)
  subst hph
  refine { h with
    popped := ?_, runs := ?_, parked := ?_, parked_unique := ?_, address := ?_, settled := ?_,
    mutex_worker := ?_, registered := ?_, ahead := ?_, unfinished := ?_ } <;>
    simp only [State.goto] <;> grind

/-- Releasing the mutex. -/
theorem Tracks.unlock {b : Bool} (h : Tracks s ph) (hpc : s.worker w = .unlock k b) :
    Tracks ({ s with mutex := Function.update s.mutex k none }.goto w (.setResume k b)) ph := by
  have hmw := h.mutex_worker
  have hmc := h.mutex_completer
  have hunfin := h.unfinished
  have hheld : s.mutex k = some (.worker w) := (hmw k w).mpr (by rw [hpc]; rfl)
  have hother : ∀ w', (s.worker w').holds = some k → w' = w := by
    intro w' hw'
    have := hheld.symm.trans ((hmw k w').mpr hw')
    cases this
    rfl
  have hmove := update_worker s.worker w (.setResume k b)
  have halike : (WorkerPc.setResume k b).Alike (s.worker w) := by
    rw [hpc]
    cases b <;> exact ⟨rfl, rfl, rfl, by simp⟩
  refine h.within halike ?_ ?_ ?_ <;> grind

/-- Storing the resume address. -/
theorem Tracks.setResume {b : Bool} (h : Tracks s ph) (hpc : s.worker w = .setResume k b) :
    Tracks ({ s with resume := k + 1 }.goto w (.ret k b)) ph := by
  have hnobody : ∀ w', w' ≠ w → (s.worker w').address = none := by
    intro w' hne
    rw [Option.eq_none_iff_forall_ne_some]
    intro a ha
    have hk : (s.worker w).address = some k := by rw [hpc]; rfl
    exact hne (h.alone ha hk)
  have haway : ∀ o, ph.ticket = some o → ∃ j, o = .queued j := by
    intro o ho
    cases b with
    | true =>
      rw [(h.runs w).mp (by rw [hpc]; rfl)] at ho
      cases ho
    | false =>
      exact ⟨k, Phase.ticket_of_owed (h.parked w k (by rw [hpc]; rfl)) ho⟩
  have htracks := h
  obtain ⟨hq, hpop, hrun, hpark, huniq, haddr, hset, htick, hmw, hmc, hdone, hreg, hahead, hunfin,
    hwoken, hres⟩ := htracks
  have hmove := update_worker s.worker w (.ret k b)
  refine { h with
    popped := ?_, runs := ?_, parked := ?_, parked_unique := ?_, address := ?_, settled := ?_,
    ticket := ?_, mutex_worker := ?_, ahead := ?_, unfinished := ?_ } <;>
    simp only [State.goto] <;> cases b <;> grind

/-- Returning from `P.StepNext`. -/
theorem Tracks.ret {b : Bool} (h : Tracks s ph) (hpc : s.worker w = .ret k b) :
    Tracks (s.goto w (if b then .again k else .idle)) ph := by
  cases b with
  | true =>
    have hmw := h.mutex_worker
    have hunfin := h.unfinished
    have hmove := update_worker s.worker w (.again k)
    have halike : (WorkerPc.again k).Alike (s.worker w) := by
      rw [hpc]
      exact ⟨rfl, rfl, rfl, by simp⟩
    refine h.within halike ?_ h.mutex_completer ?_ <;> grind
  | false =>
    have haddr' : s.resume = k + 1 := h.address w _ (by rw [hpc]; rfl)
    have htracks := h
    obtain ⟨-, hpop, hrun, hpark, huniq, haddr, hset, -, hmw, -, -, -, -, hunfin, -, -⟩ := htracks
    have hmove := update_worker s.worker w .idle
    refine { h with
      popped := ?_, runs := ?_, parked := ?_, parked_unique := ?_, address := ?_, settled := ?_,
      mutex_worker := ?_, unfinished := ?_ } <;>
      simp only [State.goto] <;> grind

/-- Returning false from the block past the last await. -/
theorem Tracks.last (h : Tracks s ph) (hpc : s.worker w = .last k) :
    Tracks (s.goto w .idle) .finished := by
  obtain rfl : ph = .running w := (h.runs w).mp (by rw [hpc]; rfl)
  have htracks := h
  obtain ⟨hq, hpop, hrun, hpark, huniq, haddr, hset, htick, hmw, hmc, hdone, hreg, hahead, hunfin,
    hwoken, hres⟩ := htracks
  have hmove := update_worker s.worker w .idle
  refine { h with
    popped := ?_, runs := ?_, parked := ?_, parked_unique := ?_, address := ?_, settled := ?_,
    mutex_worker := ?_, registered := ?_, ahead := ?_, unfinished := ?_ } <;>
    simp only [State.goto] <;> grind

/-- Calling `P.StepNext` with `P` taken from the queue. Here the guard is
needed: with nobody on the way out, the resume address has been stored. -/
theorem Tracks.enter {o : Origin} (h : Tracks s ph) (hpc : s.worker w = .popped o)
    (hok : ∀ w', (s.worker w').leaving = false) : Tracks (s.enter N w o) (.running w) := by
  have hph : ph = .popped w o := (h.popped w o).mp hpc
  -- a parked worker that is not leaving holds the mutex its completion needed
  have hunparked : ∀ w' j, (s.worker w').parked ≠ some j := by
    intro w' j hj
    have hticket : ph.ticket = some o := by rw [hph]; rfl
    have hdone := h.woken j (Phase.ticket_of_owed (h.parked w' j hj) hticket ▸ hticket)
    have hstay := hok w'
    rcases WorkerPc.parked_eq_some hj with hw | hw | hw
    · rw [h.unfinished w' j (Or.inr hw)] at hdone
      cases hdone
    · rw [hw] at hstay
      cases hstay
    · rw [hw] at hstay
      cases hstay
  subst hph
  have htracks := h
  obtain ⟨hq, hpop, hrun, hpark, huniq, haddr, hset, htick, hmw, hmc, hdone, hreg, hahead, hunfin,
    hwoken, hres⟩ := htracks
  have hmove := update_worker s.worker w
    (if s.resume < N then .lock s.resume else .last s.resume)
  refine { h with
    popped := ?_, runs := ?_, parked := ?_, parked_unique := ?_, address := ?_, settled := ?_,
    ticket := ?_, mutex_worker := ?_, registered := ?_, ahead := ?_, unfinished := ?_,
    woken := ?_, resumes := ?_ } <;>
    simp only [State.goto, State.enter] <;> grind

/-- Calling `P.StepNext` again after it returned true. -/
theorem Tracks.again (h : Tracks s ph) (hpc : s.worker w = .again k) :
    Tracks (s.enter N w (.seenDone k)) ph := by
  have htracks := h
  obtain ⟨hq, hpop, hrun, hpark, huniq, haddr, hset, htick, hmw, hmc, hdone, hreg, hahead, hunfin,
    hwoken, hres⟩ := htracks
  have hph : ph = .running w := (hrun w).mp (by rw [hpc]; rfl)
  have hmove := update_worker s.worker w
    (if s.resume < N then .lock s.resume else .last s.resume)
  refine { h with
    popped := ?_, runs := ?_, parked := ?_, parked_unique := ?_, address := ?_, settled := ?_,
    mutex_worker := ?_, unfinished := ?_, resumes := ?_ } <;>
    simp only [State.goto, State.enter] <;> grind

/-- Taking `P` from the queue. -/
theorem Tracks.pop {o : Origin} {q : List Entry} (h : Tracks s ph) (hpc : s.worker w = .idle)
    (hq : s.queue = .P o :: q) :
    Tracks ({ s with queue := q }.goto w (.popped o)) (.popped w o) := by
  have hpq := h.queue
  rw [hq] at hpq
  obtain ⟨rfl, hrest⟩ : ph = .queued o ∧ pEntries q = [] := by
    cases ph <;> simp_all [pEntries]
  have howed : (Phase.popped w o).owed = (Phase.queued o : Phase ω).owed := by cases o <;> rfl
  have htracks := h
  obtain ⟨-, hpop, hrun, hpark, huniq, haddr, hset, htick, hmw, hmc, hdone, hreg, hahead, hunfin,
    hwoken, hres⟩ := htracks
  have hmove := update_worker s.worker w (.popped o)
  refine { h with
    queue := ?_, popped := ?_, runs := ?_, parked := ?_, parked_unique := ?_, address := ?_,
    settled := ?_, mutex_worker := ?_, registered := ?_, ahead := ?_, unfinished := ?_ } <;>
    simp only [State.goto] <;> grind

/-! ## Steps and runs -/

/-- A worker's step keeps the invariant, for some place of `P`. -/
theorem stepWorker_tracks {s' : State ω} (h : Tracks s ph) (hok : Undisturbed s (.worker w))
    (hstep : s.stepWorker N w = some s') : ∃ ph', Tracks s' ph' := by
  unfold State.stepWorker at hstep
  -- a lemma for each place of a worker
  cases hpc : s.worker w with
  | idle =>
    simp only [hpc] at hstep
    cases hq : s.queue with
    | nil => simp [hq] at hstep
    | cons e q =>
      cases e with
      | P o =>
        simp only [hq, Option.some.injEq] at hstep
        exact ⟨_, hstep ▸ h.pop hpc hq⟩
      | other =>
        simp only [hq, Option.some.injEq] at hstep
        exact ⟨_, hstep ▸ h.requeue (by rw [hq]; rfl)⟩
  | popped o =>
    simp only [hpc, Option.some.injEq] at hstep
    exact ⟨_, hstep ▸ h.enter hpc (hok o hpc)⟩
  | lock k =>
    simp only [hpc, Option.ite_none_right_eq_some, Option.some.injEq] at hstep
    exact ⟨_, hstep.2 ▸ h.lock hpc hstep.1⟩
  | read k =>
    simp only [hpc, Option.some.injEq] at hstep
    exact ⟨_, hstep ▸ h.read hpc⟩
  | store k =>
    simp only [hpc, Option.some.injEq] at hstep
    exact ⟨_, hstep ▸ h.register hpc⟩
  | unlock k b =>
    simp only [hpc, Option.some.injEq] at hstep
    exact ⟨_, hstep ▸ h.unlock hpc⟩
  | setResume k b =>
    simp only [hpc, Option.some.injEq] at hstep
    exact ⟨_, hstep ▸ h.setResume hpc⟩
  | ret k b =>
    simp only [hpc, Option.some.injEq] at hstep
    exact ⟨_, hstep ▸ h.ret hpc⟩
  | again k =>
    simp only [hpc, Option.some.injEq] at hstep
    exact ⟨_, hstep ▸ h.again hpc⟩
  | last k =>
    simp only [hpc, Option.some.injEq] at hstep
    exact ⟨_, hstep ▸ h.last hpc⟩

end Steps

/-- **The wake-up protocol is safe** in every run in which nobody calls
`P.StepNext` while another worker is between its unlock and its return: `P` is
never run by two workers, and a completion resumes it after the await. -/
theorem await_safe (ω : Type) [DecidableEq ω] (N : Nat) (s : State ω)
    (h : (await ω N).Reach Undisturbed s) : s.Safe := by
  have hinv : ∃ ph, Tracks s ph := by
    refine h.invariant (P := fun s => ∃ ph, Tracks s ph) ⟨_, tracks_initial⟩ ?_
    intro s i s' ⟨ph, hs⟩ hok hstep
    cases i with
    | worker w => exact stepWorker_tracks hs hok hstep
    | complete k => exact stepCompleter_tracks hs hstep
    | submit =>
      simp only [await, Option.some.injEq] at hstep
      exact ⟨_, hstep ▸ hs.requeue (by simp [pEntries])⟩
  obtain ⟨ph, hs⟩ := hinv
  exact hs.safe

/-- One worker that takes `P` from the queue and calls it. -/
theorem await_safe_first_call :
    ((({ State.initial with queue := [] } : State Unit).goto () (.popped .start)).enter 1 ()
      .start).Safe :=
  await_safe Unit 1 _ (.step (i := .worker ()) (.step (i := .worker ()) .start
    (by intro o ho; cases ho) rfl) (by intro o _ w'; cases w'; rfl) rfl)

/-- The race: worker 0 registers `P` and unlocks; the task completes and queues
`P`; worker 1 pops it and calls `P.StepNext` before worker 0 has stored the
resume address, so block 0 runs a second time, in two workers at once. -/
theorem await_races :
    ¬ ∀ s, (await (Fin 2) 1).Reach (fun _ _ => True) s → s.Safe := by
  intro h
  have hrun : ((await (Fin 2) 1).exec State.initial
      (List.replicate 6 (.worker 0) ++ List.replicate 5 (.complete 0) ++
        List.replicate 2 (.worker 1))).any
      (fun s => s.entries = [(.start, 0), (.queued 0, 0)]) = true := by decide +kernel
  obtain ⟨s, hs, hbad⟩ := (Option.any_eq_true _ _).mp hrun
  have hentries := of_decide_eq_true hbad
  have hsafe := h s (Machine.Reach.start.exec hs)
  exact absurd (hsafe.resumes 0 0 (by rw [hentries]; simp)) (by decide)

end CalcLang.Coro
