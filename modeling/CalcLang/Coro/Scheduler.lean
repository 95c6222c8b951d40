import CalcLang.Lib.Mutex
import CalcLang.Lib.Transition
import CalcLang.Linkedlist.Refinement

/-!
# The scheduler queue

`defaultScheduler` in `runtime/coro/coro.calc`: a linked list of tasks under a mutex
and a condition. `QueueTask` locks, pushes, signals and unlocks; each worker of `Exec`
locks, waits as long as the list is empty, shifts, unlocks, calls the task's `StepNext`
until it returns false, and starts again.

There are any number of callers and workers. A caller stands for whatever calls
`QueueTask`, on a thread of its own or from inside a task, one call after another. Of
pthreads the model has no more than its manual promises: a mutex has one holder; a wait
gives the mutex up and sleeps in one step, and takes it again before it returns; a
signal wakes one of the sleepers, or nobody; and a sleeper may wake up at any time
without a signal.

The list is the linked list itself, nodes and links. `crashed` is set where `Push` or
`Shift` follows nil. What was pushed and what was taken is recorded with the node made
for it, so that two pushes of one task are two entries.
-/

namespace CalcLang.Coro.Scheduler

open CalcLang.Lib CalcLang.Linkedlist

variable {κ ω τ : Type}

/-- Where a caller is, in `QueueTask`. -/
inductive CallPc (τ : Type) where
  | idle
  | lock (st : τ)
  | push (st : τ)
  | signal
  | unLock
deriving DecidableEq, Repr

/-- Where a worker is, in the loop of `Exec`. -/
inductive WorkerPc (τ : Type) where
  | lock
  | len
  | wait
  | asleep
  | awake
  | shift
  | unLock (t : τ)
  | stepNext (t : τ)
deriving DecidableEq, Repr

/-- A thread. -/
inductive Thread (κ ω : Type) where
  | caller (c : κ)
  | worker (w : ω)
deriving DecidableEq, Repr

/-- The scheduler, the places of all threads, and the record. -/
structure State (κ ω τ : Type) where
  mu : Option (Thread κ ω)
  tasks : Store τ
  caller : κ → CallPc τ
  worker : ω → WorkerPc τ
  crashed : Bool
  pushed : List (Addr × τ)
  taken : List (ω × Addr × τ)

/-- The steps. The scheduler of the threads chooses the step; a signal also names the
sleeper it wakes, and `more` is what `StepNext` returns. -/
inductive Label (κ ω τ : Type) where
  | call (c : κ) (st : τ)
  | caller (c : κ) (woken : Option ω)
  | worker (w : ω) (more : Bool)
  | spurious (w : ω)
deriving DecidableEq, Repr

namespace State

variable [DecidableEq κ] [DecidableEq ω]

def callerGoto (s : State κ ω τ) (c : κ) (pc : CallPc τ) : State κ ω τ :=
  { s with caller := Function.update s.caller c pc }

def workerGoto (s : State κ ω τ) (w : ω) (pc : WorkerPc τ) : State κ ω τ :=
  { s with worker := Function.update s.worker w pc }

/-- A signal wakes the sleeper `w`, or nobody. -/
def wake (s : State κ ω τ) : Option ω → State κ ω τ
  | none => s
  | some w => s.workerGoto w .awake

/-- A step of `QueueTask`. -/
def stepCaller (s : State κ ω τ) (c : κ) (woken : Option ω) : Option (State κ ω τ) :=
  match s.caller c with
  | .idle => none
  | .lock st =>
    if s.mu = none then some ({ s with mu := some (.caller c) }.callerGoto c (.push st)) else none
  | .push st =>
    match s.tasks.Push st with
    | none => some { s with crashed := true }
    | some tasks =>
      some ({ s with tasks := tasks, pushed := s.pushed ++ [(s.tasks.nodes.length, st)] }.callerGoto
        c .signal)
  | .signal =>
    if woken.all fun w => s.worker w matches .asleep then some ((s.wake woken).callerGoto c .unLock)
    else none
  | .unLock => some ({ s with mu := none }.callerGoto c .idle)

/-- A step of a worker. -/
def stepWorker (s : State κ ω τ) (w : ω) (more : Bool) : Option (State κ ω τ) :=
  match s.worker w with
  | .lock =>
    if s.mu = none then some ({ s with mu := some (.worker w) }.workerGoto w .len) else none
  | .len => some (s.workerGoto w (if s.tasks.Len = 0 then .wait else .shift))
  | .wait => some ({ s with mu := none }.workerGoto w .asleep)
  | .asleep => none
  | .awake =>
    if s.mu = none then some ({ s with mu := some (.worker w) }.workerGoto w .len) else none
  | .shift =>
    match s.tasks.li.first, s.tasks.Shift with
    | some n, some (t, tasks) =>
      some ({ s with tasks := tasks, taken := s.taken ++ [(w, n, t)] }.workerGoto w (.unLock t))
    | _, _ => some { s with crashed := true }
  | .unLock t => some ({ s with mu := none }.workerGoto w (.stepNext t))
  | .stepNext t => some (s.workerGoto w (if more then .stepNext t else .lock))

/-- A step. A process that has crashed makes none. -/
def step (s : State κ ω τ) (i : Label κ ω τ) : Option (State κ ω τ) :=
  if s.crashed then none
  else match i with
    | .call c st => if s.caller c matches .idle then some (s.callerGoto c (.lock st)) else none
    | .caller c woken => s.stepCaller c woken
    | .worker w more => s.stepWorker w more
    | .spurious w => if s.worker w matches .asleep then some (s.workerGoto w .awake) else none

end State

/-- `NewScheduler`, with its workers about to enter their loop. -/
def machine (κ ω τ : Type) [DecidableEq κ] [DecidableEq ω] :
    Machine (State κ ω τ) (Label κ ω τ) where
  start := ⟨none, .New [], fun _ => .idle, fun _ => .lock, false, [], []⟩
  step := State.step

/-! ## The invariant -/

/-- Between `Lock` and `UnLock` in `QueueTask`. -/
def CallPc.inside : CallPc τ → Bool
  | .idle | .lock _ => false
  | .push _ | .signal | .unLock => true

/-- Between `Lock` and `UnLock` in `Exec`, the wait left out. -/
def WorkerPc.inside : WorkerPc τ → Bool
  | .lock | .asleep | .awake | .stepNext _ => false
  | .len | .wait | .shift | .unLock _ => true

def State.inside (s : State κ ω τ) : Thread κ ω → Bool
  | .caller c => (s.caller c).inside
  | .worker w => (s.worker w).inside

/-- The list holds `d`, and with what was taken before it makes up what was pushed, in
order. Every push made a node of its own. -/
structure Record (tasks : Store τ) (pushed : List (Addr × τ)) (taken : List (ω × Addr × τ))
    (d : Deque τ) : Prop where
  holds : Holds tasks d
  order : pushed = taken.map Prod.snd ++ d.items
  made : ∀ x ∈ pushed, x.1 < d.fresh
  nodup : (pushed.map Prod.fst).Nodup

structure Inv (s : State κ ω τ) : Prop where
  holder : Guards s.mu s.inside
  alive : s.crashed = false
  record : ∃ d, Record s.tasks s.pushed s.taken d
  /-- What a worker has seen of `Len` is still true when it shifts. -/
  nonempty : ∀ w, s.worker w = .shift → s.tasks.Len ≠ 0

section Caller

variable [DecidableEq κ] {s : State κ ω τ} {c : κ} {pc : CallPc τ}

theorem inside_caller : (s.callerGoto c pc).inside (.caller c) = pc.inside := by
  simp [State.inside, State.callerGoto]

theorem inside_of_ne_caller {u : Thread κ ω} (hu : u ≠ .caller c) :
    (s.callerGoto c pc).inside u = s.inside u := by
  cases u with
  | caller c' =>
    have hne : c' ≠ c := fun h => hu (h ▸ rfl)
    simp [State.inside, State.callerGoto, Function.update_of_ne hne]
  | worker w => rfl

/-- A caller that stays inside or outside changes nothing there. -/
theorem inside_caller_stay (h : pc.inside = (s.caller c).inside) (u : Thread κ ω) :
    (s.callerGoto c pc).inside u = s.inside u := by
  by_cases hu : u = .caller c
  · rw [hu, inside_caller, h]
    rfl
  · exact inside_of_ne_caller hu

end Caller

section Worker

variable [DecidableEq ω] {s : State κ ω τ} {w : ω} {pc : WorkerPc τ}

theorem inside_worker : (s.workerGoto w pc).inside (.worker w) = pc.inside := by
  simp [State.inside, State.workerGoto]

theorem inside_of_ne_worker {u : Thread κ ω} (hu : u ≠ .worker w) :
    (s.workerGoto w pc).inside u = s.inside u := by
  cases u with
  | caller c => rfl
  | worker w' =>
    have hne : w' ≠ w := fun h => hu (h ▸ rfl)
    simp [State.inside, State.workerGoto, Function.update_of_ne hne]

/-- A worker that stays inside or outside changes nothing there. -/
theorem inside_worker_stay (h : pc.inside = (s.worker w).inside) (u : Thread κ ω) :
    (s.workerGoto w pc).inside u = s.inside u := by
  by_cases hu : u = .worker w
  · rw [hu, inside_worker, h]
    rfl
  · exact inside_of_ne_worker hu

end Worker

namespace Record

variable {tasks : Store τ} {pushed : List (Addr × τ)} {taken : List (ω × Addr × τ)} {d : Deque τ}

theorem start : Record (Store.New []) [] ([] : List (ω × Addr × τ)) ⟨0, []⟩ :=
  ⟨.new [], rfl, fun _ hx => absurd hx List.not_mem_nil, List.nodup_nil⟩

/-- `Push` goes well and adds an entry of its own behind the others. -/
theorem push (h : Record tasks pushed taken d) (st : τ) :
    ∃ tasks' d', tasks.Push st = some tasks' ∧ tasks'.Len = tasks.Len + 1 ∧
      Record tasks' (pushed ++ [(tasks.nodes.length, st)]) taken d' := by
  obtain ⟨tasks', hpush, h'⟩ := h.holds.push st
  refine ⟨tasks', _, hpush, ?_, h', ?_, ?_, ?_⟩
  · show tasks'.li.len = tasks.li.len + 1
    rw [h'.len, h.holds.len, List.length_append]
    rfl
  · rw [h.order, h.holds.fresh, List.append_assoc]
  · intro x hx
    rcases List.mem_append.mp hx with hx | hx
    · exact Nat.lt_succ_of_lt (h.made x hx)
    · rw [List.mem_singleton.mp hx, h.holds.fresh]
      exact Nat.lt_succ_self _
  · rw [List.map_append, List.nodup_append]
    refine ⟨h.nodup, List.nodup_singleton _, ?_⟩
    intro a ha b hb
    obtain ⟨x, hx, rfl⟩ := List.mem_map.mp ha
    have hlt := h.made x hx
    rw [List.mem_singleton.mp hb]
    show x.1 ≠ tasks.nodes.length
    rw [h.holds.fresh]
    exact Nat.ne_of_lt hlt

/-- `Shift` of a list with tasks goes well and takes the oldest entry. -/
theorem shift (h : Record tasks pushed taken d) (hlen : tasks.Len ≠ 0) (w : ω) :
    ∃ n t tasks' d', tasks.li.first = some n ∧ tasks.Shift = some (t, tasks') ∧
      Record tasks' pushed (taken ++ [(w, n, t)]) d' := by
  cases hd : d.items with
  | nil =>
    have hzero : tasks.Len = 0 := by
      show tasks.li.len = 0
      rw [h.holds.len, hd]
      rfl
    exact absurd hzero hlen
  | cons x xs =>
    obtain ⟨tasks', hshift, h'⟩ := h.holds.shift hd
    have hfirst := h.holds.links.forward
    rw [Deque.handles, hd] at hfirst
    refine ⟨x.1, x.2, tasks', _, hfirst.1, hshift, h', ?_, h.made, h.nodup⟩
    rw [h.order, hd]
    simp

end Record

namespace Inv

variable {s s' : State κ ω τ} {c : κ} {w : ω} {pc : CallPc τ} {wpc : WorkerPc τ} {st : τ}

/-- Nobody shifts while another thread is inside. -/
theorem not_shift (h : Inv s) (hin : s.inside (.caller c) = true) : s.worker w ≠ .shift := by
  intro hw
  have hwin : s.inside (.worker w) = true := by simp [State.inside, hw, WorkerPc.inside]
  cases h.holder.eq hin hwin

variable [DecidableEq κ] [DecidableEq ω]

theorem start : Inv (machine κ ω τ).start where
  holder := .free fun u => by cases u <;> rfl
  alive := rfl
  record := ⟨_, .start⟩
  nonempty := by
    intro w h
    cases h

omit [DecidableEq ω] in
/-- A caller that moves without passing a lock. -/
theorem callerGoto (h : Inv s) (hpc : pc.inside = (s.caller c).inside) :
    Inv (s.callerGoto c pc) :=
  ⟨h.holder.stay (inside_caller_stay hpc), h.alive, h.record, h.nonempty⟩

omit [DecidableEq κ] in
/-- What the workers that shift have seen, when a worker that does not goes on. -/
theorem nonempty_workerGoto (h : Inv s) (hshift : wpc = .shift → s.tasks.Len ≠ 0) (w' : ω)
    (hw' : (s.workerGoto w wpc).worker w' = .shift) : s.tasks.Len ≠ 0 := by
  by_cases hww : w' = w
  · apply hshift
    simpa [State.workerGoto, hww] using hw'
  · apply h.nonempty w'
    simpa [State.workerGoto, Function.update_of_ne hww] using hw'

omit [DecidableEq κ] in
/-- A worker that moves without passing a lock; to shift it must have seen a task. -/
theorem workerGoto (h : Inv s) (hpc : wpc.inside = (s.worker w).inside)
    (hshift : wpc = .shift → s.tasks.Len ≠ 0) : Inv (s.workerGoto w wpc) :=
  ⟨h.holder.stay (inside_worker_stay hpc), h.alive, h.record, h.nonempty_workerGoto hshift⟩

theorem stepCaller (h : Inv s) {woken : Option ω} (hs : s.stepCaller c woken = some s') :
    Inv s' := by
  unfold State.stepCaller at hs
  cases hpc : s.caller c with
  | idle =>
    rw [hpc] at hs
    cases hs
  | lock st =>
    simp only [hpc, Option.ite_none_right_eq_some, Option.some.injEq] at hs
    obtain ⟨hfree, rfl⟩ := hs
    have hholder := h.holder
    rw [hfree] at hholder
    exact ⟨hholder.enter (fun _ hu => inside_of_ne_caller hu) inside_caller, h.alive, h.record,
      h.nonempty⟩
  | push st =>
    have hin : s.inside (.caller c) = true := by simp [State.inside, hpc, CallPc.inside]
    obtain ⟨d, hd⟩ := h.record
    obtain ⟨tasks', d', hpush, -, hd'⟩ := hd.push st
    simp only [hpc, hpush, Option.some.injEq] at hs
    subst hs
    refine ⟨h.holder.stay (inside_caller_stay ?_), h.alive, ⟨d', hd'⟩, ?_⟩
    · show CallPc.inside _ = (s.caller c).inside
      rw [hpc]
      rfl
    · intro w hw
      exact absurd hw (h.not_shift hin)
  | signal =>
    simp only [hpc, Option.ite_none_right_eq_some, Option.some.injEq] at hs
    obtain ⟨hwoken, rfl⟩ := hs
    cases woken with
    | none =>
      apply h.callerGoto
      rw [hpc]
      rfl
    | some w =>
      -- the worker wakes up, and the caller goes on
      have hw : s.worker w = .asleep := by
        simp only [Option.all_some] at hwoken
        split at hwoken
        · assumption
        · cases hwoken
      have hwake : Inv (s.workerGoto w .awake) := by
        apply h.workerGoto
        · rw [hw]
          rfl
        · intro hawake
          cases hawake
      apply hwake.callerGoto
      show CallPc.inside _ = (s.caller c).inside
      rw [hpc]
      rfl
  | unLock =>
    simp only [hpc, Option.some.injEq] at hs
    subst hs
    have hin : s.inside (.caller c) = true := by simp [State.inside, hpc, CallPc.inside]
    exact ⟨h.holder.leave hin (fun _ hu => inside_of_ne_caller hu) inside_caller, h.alive,
      h.record, h.nonempty⟩

omit [DecidableEq κ] in
theorem stepWorker (h : Inv s) {more : Bool} (hs : s.stepWorker w more = some s') : Inv s' := by
  have hin : (s.worker w).inside = true → s.inside (.worker w) = true := id
  unfold State.stepWorker at hs
  cases hpc : s.worker w with
  | lock | awake =>
    simp only [hpc, Option.ite_none_right_eq_some, Option.some.injEq] at hs
    obtain ⟨hfree, rfl⟩ := hs
    have hholder := h.holder
    rw [hfree] at hholder
    exact ⟨hholder.enter (fun _ hu => inside_of_ne_worker hu) inside_worker, h.alive, h.record,
      h.nonempty_workerGoto (by simp)⟩
  | len =>
    simp only [hpc, Option.some.injEq] at hs
    subst hs
    -- it goes to `Shift` only with something in the queue
    apply h.workerGoto
    · rw [hpc]
      split
      · rfl
      · rfl
    · intro hshift
      split at hshift
      · cases hshift
      · assumption
  | wait =>
    simp only [hpc, Option.some.injEq] at hs
    subst hs
    rw [hpc] at hin
    exact ⟨h.holder.leave (hin rfl) (fun _ hu => inside_of_ne_worker hu) inside_worker, h.alive,
      h.record, h.nonempty_workerGoto (by simp)⟩
  | asleep =>
    rw [hpc] at hs
    cases hs
  | shift =>
    rw [hpc] at hin
    obtain ⟨d, hd⟩ := h.record
    obtain ⟨n, t, tasks', d', hfirst, hshift, hd'⟩ := hd.shift (h.nonempty w hpc) w
    simp only [hpc, hfirst, hshift, Option.some.injEq] at hs
    subst hs
    refine ⟨h.holder.stay (inside_worker_stay ?_), h.alive, ⟨d', hd'⟩, ?_⟩
    · show WorkerPc.inside _ = (s.worker w).inside
      rw [hpc]
      rfl
    · -- nobody else can be about to shift
      intro w' hw'
      by_cases hww : w' = w
      · simp [State.workerGoto, hww] at hw'
      · have hw'' : s.worker w' = .shift := by
          simpa [State.workerGoto, Function.update_of_ne hww] using hw'
        have hin' : s.inside (.worker w') = true := by
          simp [State.inside, hw'', WorkerPc.inside]
        cases h.holder.eq (hin rfl) hin'
        exact absurd rfl hww
  | unLock t =>
    simp only [hpc, Option.some.injEq] at hs
    subst hs
    rw [hpc] at hin
    exact ⟨h.holder.leave (hin rfl) (fun _ hu => inside_of_ne_worker hu) inside_worker, h.alive,
      h.record, h.nonempty_workerGoto (by simp)⟩
  | stepNext t =>
    simp only [hpc, Option.some.injEq] at hs
    subst hs
    apply h.workerGoto
    · rw [hpc]
      split
      · rfl
      · rfl
    · intro hshift
      split at hshift
      · cases hshift
      · cases hshift

theorem step (h : Inv s) {i : Label κ ω τ} (hs : s.step i = some s') : Inv s' := by
  unfold State.step at hs
  rw [h.alive] at hs
  simp only [Bool.false_eq_true, if_false] at hs
  cases i with
  | call c st =>
    simp only [Option.ite_none_right_eq_some, Option.some.injEq] at hs
    obtain ⟨hidle, rfl⟩ := hs
    apply h.callerGoto
    split at hidle
    · rename_i hpc
      rw [hpc]
      rfl
    · cases hidle
  | caller c woken => exact h.stepCaller hs
  | worker w more => exact h.stepWorker hs
  | spurious w =>
    simp only [Option.ite_none_right_eq_some, Option.some.injEq] at hs
    obtain ⟨hasleep, rfl⟩ := hs
    apply h.workerGoto
    · split at hasleep
      · rename_i hpc
        rw [hpc]
        rfl
      · cases hasleep
    · intro hawake
      cases hawake

end Inv

/-! ## Every interleaving -/

/-- **The scheduler queue is safe.** In every state that any interleaving reaches, no
operation of the list has followed nil and a worker that is about to shift finds a
task; and the nodes pushed, each a new one, are those taken so far, each by one worker
and in the order of the pushes, followed by those that the list holds. -/
theorem queue_safe [DecidableEq κ] [DecidableEq ω] {s : State κ ω τ}
    (h : (machine κ ω τ).Reach (fun _ _ => True) s) :
    s.crashed = false ∧ (∀ w, s.worker w = .shift → s.tasks.Len ≠ 0) ∧
      (s.pushed.map Prod.fst).Nodup ∧
      ∃ d, Holds s.tasks d ∧ s.pushed = s.taken.map Prod.snd ++ d.items := by
  have hI : Inv s := h.invariant .start fun _ _ _ hI _ hs => hI.step hs
  obtain ⟨d, hd⟩ := hI.record
  exact ⟨hI.alive, hI.nonempty, hd.nodup, d, hd.holds, hd.order⟩

/-- A worker finds the list empty and waits, is woken by a call, and takes its task. -/
theorem queue_safe_woken :
    ∃ s, (machine Unit Unit Nat).exec (machine Unit Unit Nat).start
        [.worker () false, .worker () false, .worker () false, .call () 7, .caller () none,
          .caller () none, .caller () (some ()), .caller () none, .worker () false,
          .worker () false, .worker () false] = some s ∧
      s.crashed = false ∧ s.taken = [((), 0, 7)] := by
  obtain ⟨s, hs, htaken⟩ : ∃ s, (machine Unit Unit Nat).exec (machine Unit Unit Nat).start
      [.worker () false, .worker () false, .worker () false, .call () 7, .caller () none,
        .caller () none, .caller () (some ()), .caller () none, .worker () false,
        .worker () false, .worker () false] = some s ∧ s.taken = [((), 0, 7)] := ⟨_, rfl, rfl⟩
  exact ⟨s, hs, (queue_safe (.exec .start hs)).1, htaken⟩

end CalcLang.Coro.Scheduler
