import CalcLang.Lib.Transition
import Mathlib.Logic.Function.Basic

/-!
# The life of one task

A task is what `coro.Run` makes of a job, or what a call of an async function returns.
Workers call its `StepNext`; coroutines that await it look at `IsDone` under its mutex and,
if it is not done, leave themselves in `nextTask`.

The `StepNext` of an async function is emitted by `buildGenerator`: its entry jumps to
the stored block address, the body runs from there, an `await` or a `yield` stores the
address of what comes behind it and returns, and behind the last statement stands
`ret false`. A `return` is emitted by `RetNode.calc`: it stores the address of its `.exit`
block (which returns false) and its value, calls `TryQueueContinuous`, and returns
false. The `StepNext` of an `AsyncGen` calls the job, keeps its result if `reFromFunc` is set, and
returns false.

The body works on variables of any type `σ`; what it reads from elsewhere can be kept
there as well, so that its statements are functions. `exit` remembers how the body ended.
All steps of the worker and of the awaiting coroutines are atomic steps of their own, and a
schedule interleaves them in any way.
-/

namespace CalcLang.Task

open CalcLang.Lib

variable {σ V κ : Type}

/-- A statement of an async function. An `if` without `else` has an empty one. -/
inductive Stmt (σ V : Type)
  | atom (f : σ → σ)
  | await (f : σ → σ)
  | yield (exp : Option (σ → V))
  | ifElse (boolExp : σ → Bool) (statements elSt : List (Stmt σ V))
  | forN (bool : σ → Bool) (assign : σ → σ) (statements : List (Stmt σ V))
  | breakN
  | continueN
  | retN (exp : Option (σ → V))

/-- What is left to do: a statement, or the next round of a loop. -/
inductive Item (σ V : Type)
  | stmt (st : Stmt σ V)
  | loop (bool : σ → Bool) (assign : σ → σ) (statements : List (Stmt σ V))

def items (sts : List (Stmt σ V)) : List (Item σ V) := sts.map .stmt

/-- From the innermost loop's next round on. -/
def toLoop : List (Item σ V) → List (Item σ V)
  | [] => []
  | .loop c st sts :: k => .loop c st sts :: k
  | .stmt _ :: k => toLoop k

/-- The two kinds of tasks. -/
inductive Code (σ V : Type)
  /-- The ctx of an async function. -/
  | generator (statements : List (Stmt σ V))
  /-- An `AsyncGen` with its job `f`. -/
  | asyncGen (f : σ → V) (reFromFunc : Bool)

/-- `coro.Run`. -/
def Run (job : σ → V) : Code σ V := .asyncGen job true

/-- How the execution of a body ends. -/
inductive Exit (V : Type)
  | value (v : V)
  | bare
  | endOfStatements
  | job (v : V)
  deriving DecidableEq

/-- Where the worker is: outside `StepNext`, in the body, or in one of the instructions that
end it. From `lock` to `unLock` it is in `TryQueueContinuous`. -/
inductive Pc (σ V κ : Type)
  | idle
  | body (k : List (Item σ V))
  | storeYieldBlock (v : Option V)
  | storeYieldRet (v : V)
  | storeRe (v : V)
  | lock
  | setDone
  | getContinuous
  | queueTaskIfPossible (c : Option κ)
  | unLock
  | retFalse

/-- Where an awaiting coroutine is. From `isDone` to `unLockST` it has the mutex. -/
inductive AwaiterPc
  | lockST
  | isDone
  | storeNext
  | unLockST
  | gone
  deriving DecidableEq

inductive Holder (κ : Type)
  | worker
  | awaiter (c : κ)
  deriving DecidableEq

structure State (σ V κ : Type) where
  vars : σ
  nextTask : Option κ
  mutex : Option (Holder κ)
  done : Bool
  /-- The result: `yieldRet` of a ctx, `re` of an `AsyncGen`. -/
  re : V
  /-- The stored block address; none is that of `.exit`. -/
  yieldBlock : Option (List (Item σ V))
  /-- What has been pushed on the scheduler queue. -/
  queue : List κ
  pc : Pc σ V κ
  awaiter : κ → AwaiterPc
  exit : Option (Exit V)

/-- A task as it is created. -/
def State.start (t : Code σ V) (vars : σ) (re : V) : State σ V κ where
  vars := vars
  nextTask := none
  mutex := none
  done := false
  re := re
  yieldBlock :=
    match t with
    | .generator statements => some (items statements)
    | .asyncGen _ _ => some []
  queue := []
  pc := .idle
  awaiter _ := .lockST
  exit := none

/-- A worker takes the task from the queue and calls `StepNext`, the worker in it takes a step,
or an awaiting coroutine does. -/
inductive Label (κ : Type)
  | call
  | worker
  | awaiter (c : κ)
  deriving DecidableEq

/-- A call of `StepNext`. Once its body has ended, nobody queues the task again; if somebody
calls it all the same, the `.exit` block returns false. -/
def State.call (t : Code σ V) (s : State σ V κ) : Option (State σ V κ) :=
  match s.pc, t with
  | .idle, .generator _ =>
    match s.exit, s.yieldBlock with
    | none, some k => some { s with pc := .body k }
    | some _, none => some { s with pc := .retFalse }
    | _, _ => none
  | .idle, .asyncGen f reFromFunc =>
    if s.exit.isNone then
      some { s with
        exit := some (.job (f s.vars))
        pc := if reFromFunc then .storeRe (f s.vars) else .retFalse }
    else none
  | _, _ => none

/-- The next item of the body. -/
def State.runBody (s : State σ V κ) : List (Item σ V) → State σ V κ
  | [] => { s with exit := some .endOfStatements, pc := .retFalse }
  | .stmt (.atom f) :: k => { s with vars := f s.vars, pc := .body k }
  | .stmt (.await f) :: k =>
    { s with yieldBlock := some (.stmt (.atom f) :: k), pc := .idle }
  | .stmt (.yield none) :: k => { s with yieldBlock := some k, pc := .idle }
  | .stmt (.yield (some e)) :: k =>
    { s with re := e s.vars, yieldBlock := some k, pc := .idle }
  | .stmt (.ifElse c st el) :: k =>
    { s with pc := .body (items (if c s.vars then st else el) ++ k) }
  | .stmt (.forN c f st) :: k =>
    { s with pc := .body (if c s.vars then items st ++ .loop c f st :: k else k) }
  | .loop c f st :: k => { s with vars := f s.vars, pc := .body (.stmt (.forN c f st) :: k) }
  | .stmt .breakN :: k => { s with pc := .body (toLoop k).tail }
  | .stmt .continueN :: k => { s with pc := .body (toLoop k) }
  | .stmt (.retN none) :: _ => { s with exit := some .bare, pc := .storeYieldBlock none }
  | .stmt (.retN (some e)) :: _ =>
    { s with exit := some (.value (e s.vars)), pc := .storeYieldBlock (some (e s.vars)) }

/-- One step of the worker. `TryQueueContinuous` also sets its copy `st` of the task's interface
value to 0 when there is a continuation; nothing reads that. -/
def State.stepWorker (s : State σ V κ) : Option (State σ V κ) :=
  match s.pc with
  | .idle => none
  | .body k => some (s.runBody k)
  | .storeYieldBlock v =>
    some { s with
      yieldBlock := none
      pc := match v with
        | some v => .storeYieldRet v
        | none => .lock }
  | .storeYieldRet v => some { s with re := v, pc := .lock }
  | .storeRe v => some { s with re := v, pc := .retFalse }
  | .lock =>
    if s.mutex.isNone then some { s with mutex := some .worker, pc := .setDone } else none
  | .setDone => some { s with done := true, pc := .getContinuous }
  | .getContinuous => some { s with pc := .queueTaskIfPossible s.nextTask }
  | .queueTaskIfPossible c => some { s with queue := s.queue ++ c.toList, pc := .unLock }
  | .unLock => some { s with mutex := none, pc := .retFalse }
  | .retFalse => some { s with pc := .idle }

/-- One step of a coroutine that awaits the task. -/
def State.stepAwaiter [DecidableEq κ] (s : State σ V κ) (c : κ) : Option (State σ V κ) :=
  let goto (s : State σ V κ) (pc : AwaiterPc) : State σ V κ :=
    { s with awaiter := Function.update s.awaiter c pc }
  match s.awaiter c with
  | .lockST =>
    if s.mutex.isNone then some (goto { s with mutex := some (.awaiter c) } .isDone) else none
  | .isDone => some (goto s (if s.done then .unLockST else .storeNext))
  | .storeNext => some (goto { s with nextTask := some c } .unLockST)
  | .unLockST => some (goto { s with mutex := none } .gone)
  | .gone => some (goto s .lockST)

/-- The runs of a task. -/
def living [DecidableEq κ] (t : Code σ V) (vars : σ) (re : V) : Machine (State σ V κ) (Label κ) where
  start := .start t vars re
  step s
    | .call => s.call t
    | .worker => s.stepWorker
    | .awaiter c => s.stepAwaiter c

end CalcLang.Task
