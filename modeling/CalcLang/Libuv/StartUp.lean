import CalcLang.Lib.Mutex
import CalcLang.Lib.Transition

/-!
# Starting the loop thread

`StartUVLoop` creates the thread of the event loop, locks `mu`, waits on `cond`, and unlocks. The idle callback of
the loop locks `mu`, signals, unlocks, and stops the idle handle, so that it is called once. `Wait` gives the
mutex up and sleeps in one step; a signal wakes whoever sleeps, and is lost otherwise.

The mutex keeps the signal from coming between the lock and the sleep, and nothing keeps it from
coming before the lock: nobody looks whether the loop runs already. So the main thread wakes up if it is
the first to lock (`woken_iff`), and sleeps forever if the loop thread is.
-/

namespace CalcLang.Libuv.StartUp

open CalcLang.Lib

/-- Where `StartUVLoop` is. After it has been woken up, `Wait` locks again. -/
inductive MainPc where
  | create
  | lock
  | wait
  | asleep
  | relock
  | unLock
  | finished
deriving DecidableEq, Repr

/-- Where the loop thread is: not created yet, or in the idle callback or after it. -/
inductive LoopPc where
  | unborn
  | lock
  | signal
  | unLock
  | stop
  | finished
deriving DecidableEq, Repr

inductive Thread where
  | main
  | loop
deriving DecidableEq, Repr

/-- The mutex, the two threads, and whether the signal has been sent. -/
structure State where
  mu : Option Thread
  main : MainPc
  loop : LoopPc
  signalled : Bool
deriving DecidableEq, Repr

/-- What happens: a step of a thread, or a wake-up without a signal. -/
inductive Label where
  | thread (t : Thread)
  | spurious
deriving DecidableEq, Repr

namespace State

/-- A step of `StartUVLoop`. -/
def stepMain (s : State) : Option State :=
  match s.main with
  | .create => some { s with main := .lock, loop := .lock }
  | .lock => if s.mu = none then some { s with mu := some .main, main := .wait } else none
  | .wait => some { s with mu := none, main := .asleep }
  | .asleep => none
  | .relock => if s.mu = none then some { s with mu := some .main, main := .unLock } else none
  | .unLock => some { s with mu := none, main := .finished }
  | .finished => none

/-- A step of the idle callback. -/
def stepLoop (s : State) : Option State :=
  match s.loop with
  | .unborn => none
  | .lock => if s.mu = none then some { s with mu := some .loop, loop := .signal } else none
  | .signal =>
    some { s with
      signalled := true
      main := if s.main = .asleep then .relock else s.main
      loop := .unLock }
  | .unLock => some { s with mu := none, loop := .stop }
  | .stop => some { s with loop := .finished }
  | .finished => none

/-- A step. `pthread_cond_wait` may return without a signal. -/
def step (s : State) : Label → Option State
  | .thread .main => s.stepMain
  | .thread .loop => s.stepLoop
  | .spurious => if s.main = .asleep then some { s with main := .relock } else none

/-- The main thread waits or is about to, and the signal has been sent. -/
def Lost (s : State) : Prop := s.signalled = true ∧ s.main ∈ [.create, .lock, .wait, .asleep]

/-- The main thread has been the first to lock. -/
def MainFirst (s : State) : Prop := s.main ≠ .create ∧ s.main ≠ .lock

/-- The loop thread locks after the main thread. -/
def Ordered (s : State) (l : Label) : Prop := l = .thread .loop → s.loop = .lock → s.MainFirst

end State

/-- `StartUVLoop` and the thread that it creates. -/
def startUVLoop : Machine State Label where
  start := ⟨none, .create, .unborn, false⟩
  step := State.step

/-! ## The invariant -/

def MainPc.inside : MainPc → Bool
  | .wait | .unLock => true
  | _ => false

def LoopPc.inside : LoopPc → Bool
  | .signal | .unLock => true
  | _ => false

/-- The loop thread has sent the signal. -/
def LoopPc.signalled : LoopPc → Bool
  | .unLock | .stop | .finished => true
  | _ => false

def State.inside (s : State) : Thread → Bool
  | .main => s.main.inside
  | .loop => s.loop.inside

structure Inv (s : State) : Prop where
  holder : Guards s.mu s.inside
  signalled : s.signalled = s.loop.signalled
  unborn : s.main = .create → s.loop = .unborn
  /-- The loop thread is still in front of its lock, or the main thread is past its own. -/
  first : s.loop = .unborn ∨ s.loop = .lock ∨ s.MainFirst
  woken : s.signalled = true → s.main ∈ [.relock, .unLock, .finished]

namespace Inv

variable {s s' : State}

theorem start : Inv startUVLoop.start where
  holder := .free fun t => by cases t <;> rfl
  signalled := rfl
  unborn _ := rfl
  first := .inl rfl
  woken h := by cases h

theorem loop_frame {s s' : State} (h : s'.loop = s.loop) (t : Thread) (ht : t ≠ .main) :
    s'.inside t = s.inside t := by
  cases t with
  | main => exact absurd rfl ht
  | loop => exact congrArg LoopPc.inside h

theorem main_frame {s s' : State} (h : s'.main = s.main) (t : Thread) (ht : t ≠ .loop) :
    s'.inside t = s.inside t := by
  cases t with
  | main => exact congrArg MainPc.inside h
  | loop => exact absurd rfl ht

/-- A step that passes no lock. -/
theorem stay (h : Inv s) (s' : State) (hm : s'.main.inside = s.main.inside)
    (hl : s'.loop.inside = s.loop.inside) (hmu : s'.mu = s.mu) : Guards s'.mu s'.inside := by
  rw [hmu]
  apply h.holder.stay
  intro t
  cases t with
  | main => exact hm
  | loop => exact hl

theorem stepMain (h : Inv s) (hs : s.stepMain = some s') : Inv s' := by
  have hstay := h.stay s'
  obtain ⟨hholder, hsig, hunborn, hfirst, hwoken⟩ := h
  unfold State.stepMain at hs
  cases hpc : s.main with
  | create =>
    simp only [hpc, Option.some.injEq] at hs
    have hloop := hunborn hpc
    rw [hpc, hloop] at hstay
    subst hs
    refine ⟨hstay rfl rfl rfl, ?_, by simp, .inr (.inl rfl), fun hlost => ?_⟩
    · show s.signalled = false
      rw [hsig, hloop]
      rfl
    · have := hwoken hlost
      simp [hpc] at this
  | lock =>
    simp only [hpc, Option.ite_none_right_eq_some, Option.some.injEq] at hs
    obtain ⟨hfree, rfl⟩ := hs
    rw [hfree] at hholder
    refine ⟨hholder.enter (loop_frame rfl) rfl, hsig, by simp, .inr (.inr ⟨by simp, by simp⟩), fun hlost => ?_⟩
    have := hwoken hlost
    simp [hpc] at this
  | wait =>
    simp only [hpc, Option.some.injEq] at hs
    subst hs
    have hin : s.inside .main = true := by simp [State.inside, hpc, MainPc.inside]
    refine ⟨hholder.leave hin (loop_frame rfl) rfl, hsig, by simp, .inr (.inr ⟨by simp, by simp⟩), fun hlost => ?_⟩
    have := hwoken hlost
    simp [hpc] at this
  | relock =>
    simp only [hpc, Option.ite_none_right_eq_some, Option.some.injEq] at hs
    obtain ⟨hfree, rfl⟩ := hs
    rw [hfree] at hholder
    exact ⟨hholder.enter (loop_frame rfl) rfl, hsig, by simp, .inr (.inr ⟨by simp, by simp⟩), fun _ => by simp⟩
  | unLock =>
    simp only [hpc, Option.some.injEq] at hs
    subst hs
    have hin : s.inside .main = true := by simp [State.inside, hpc, MainPc.inside]
    exact ⟨hholder.leave hin (loop_frame rfl) rfl, hsig, by simp, .inr (.inr ⟨by simp, by simp⟩), fun _ => by simp⟩
  | asleep | finished =>
    simp [hpc] at hs

theorem stepLoop (h : Inv s) (hok : s.loop = .lock → s.MainFirst) (hs : s.stepLoop = some s') : Inv s' := by
  have hstay := h.stay s'
  obtain ⟨hholder, hsig, hunborn, hfirst, hwoken⟩ := h
  unfold State.stepLoop at hs
  cases hpc : s.loop with
  | lock =>
    simp only [hpc, Option.ite_none_right_eq_some, Option.some.injEq] at hs
    obtain ⟨hfree, rfl⟩ := hs
    rw [hfree] at hholder
    rw [hpc] at hsig
    exact ⟨hholder.enter (main_frame rfl) rfl, hsig, fun hm => absurd hm (hok hpc).1, .inr (.inr (hok hpc)), hwoken⟩
  | signal =>
    simp only [hpc, Option.some.injEq] at hs
    have hmain : s.MainFirst := (hfirst.resolve_left (by simp [hpc])).resolve_left (by simp [hpc])
    -- The loop thread has the mutex, so the main thread is not between its lock and its sleep.
    have hout : s.main ≠ .wait := by
      intro hwait
      have hin : s.inside .loop = true := by simp [State.inside, hpc, LoopPc.inside]
      have hin' : s.inside .main = true := by simp [State.inside, hwait, MainPc.inside]
      cases hholder.eq hin hin'
    rw [hpc] at hstay
    subst hs
    have hnew : (if s.main = .asleep then .relock else s.main) ∈ [MainPc.relock, .unLock, .finished] := by
      cases hm : s.main with
      | create => exact absurd hm hmain.1
      | lock => exact absurd hm hmain.2
      | wait => exact absurd hm hout
      | asleep | relock | unLock | finished => simp
    refine ⟨hstay ?_ rfl rfl, rfl, fun hc => ?_, .inr (.inr ⟨fun hc => ?_, fun hc => ?_⟩), fun _ => hnew⟩
    · show (if s.main = .asleep then MainPc.relock else s.main).inside = s.main.inside
      split
      · rename_i hm
        rw [hm]
        rfl
      · rfl
    · have hc : (if s.main = .asleep then MainPc.relock else s.main) = .create := hc
      simp [hc] at hnew
    · have hc : (if s.main = .asleep then MainPc.relock else s.main) = .create := hc
      simp [hc] at hnew
    · have hc : (if s.main = .asleep then MainPc.relock else s.main) = .lock := hc
      simp [hc] at hnew
  | unLock =>
    simp only [hpc, Option.some.injEq] at hs
    have hmain : s.MainFirst := (hfirst.resolve_left (by simp [hpc])).resolve_left (by simp [hpc])
    have hin : s.inside .loop = true := by simp [State.inside, hpc, LoopPc.inside]
    rw [hpc] at hsig
    subst hs
    exact ⟨hholder.leave hin (main_frame rfl) rfl, hsig, fun hm => absurd hm hmain.1, .inr (.inr hmain), hwoken⟩
  | stop =>
    simp only [hpc, Option.some.injEq] at hs
    have hmain : s.MainFirst := (hfirst.resolve_left (by simp [hpc])).resolve_left (by simp [hpc])
    rw [hpc] at hsig hstay
    subst hs
    exact ⟨hstay rfl rfl rfl, hsig, fun hm => absurd hm hmain.1, .inr (.inr hmain), hwoken⟩
  | unborn | finished =>
    simp [hpc] at hs

theorem step (h : Inv s) {l : Label} (hok : s.Ordered l) (hs : s.step l = some s') : Inv s' := by
  cases l with
  | thread t =>
    cases t with
    | main => exact h.stepMain hs
    | loop => exact h.stepLoop (hok rfl) hs
  | spurious =>
    obtain ⟨hpc, hs⟩ := Option.ite_none_right_eq_some.mp hs
    obtain rfl := Option.some.inj hs
    have hstay := h.stay { s with main := .relock }
    rw [hpc] at hstay
    exact ⟨hstay rfl rfl rfl, h.signalled, by simp, .inr (.inr ⟨by simp, by simp⟩), fun _ => by simp⟩

theorem not_lost (h : Inv s) : ¬ s.Lost := by
  intro hlost
  have hpc := h.woken hlost.1
  have hwait := hlost.2
  cases hm : s.main <;> simp [hm] at hpc hwait

end Inv

/-- In every run in which the main thread is the first to lock, the main thread neither waits nor is about to after
the signal; and if the loop thread locks first, its next step sends the signal before the main thread waits. -/
theorem woken_iff (s : State) (h : startUVLoop.Reach State.Ordered s) :
    ¬ s.Lost ∧ ∀ l s', startUVLoop.step s l = some s' → ¬ s.Ordered l →
      ∃ s'', startUVLoop.step s' (.thread .loop) = some s'' ∧ s''.Lost := by
  have hinv : Inv s := h.invariant Inv.start fun _ _ _ hi hok hs => hi.step hok hs
  refine ⟨hinv.not_lost, fun l s' hs hout => ?_⟩
  obtain ⟨rfl, hpc, hmain⟩ : l = .thread .loop ∧ s.loop = .lock ∧ ¬ s.MainFirst := by
    simpa only [State.Ordered, Classical.not_imp] using hout
  have hs : s.stepLoop = some s' := hs
  simp only [State.stepLoop, hpc, Option.ite_none_right_eq_some, Option.some.injEq] at hs
  obtain ⟨-, rfl⟩ := hs
  refine ⟨_, rfl, rfl, ?_⟩
  have hlock : s.main = .lock ∨ s.main = .create := by
    by_contra hne
    exact hmain ⟨fun hm => hne (.inr hm), fun hm => hne (.inl hm)⟩
  obtain hm | hm := hlock
  · simp [hm]
  · simp [hm]

/-- The main thread creates the other one and locks. -/
theorem woken_main_first :
    ¬ State.Lost ⟨some .main, .wait, .lock, false⟩ ∧
      ∀ l s', startUVLoop.step ⟨some .main, .wait, .lock, false⟩ l = some s' →
        ¬ State.Ordered ⟨some .main, .wait, .lock, false⟩ l →
          ∃ s'', startUVLoop.step s' (.thread .loop) = some s'' ∧ s''.Lost :=
  woken_iff _ (.step (i := .thread .main) (.step (i := .thread .main) .start (by intro h; cases h) rfl)
    (by intro h; cases h) rfl)

/-- The loop thread runs before the main thread locks, and the main thread waits for a signal that has been sent. -/
theorem signal_lost : ¬ ∀ s, startUVLoop.Reach (fun _ _ => True) s → ¬ s.Lost := by
  intro h
  have hrun : startUVLoop.exec startUVLoop.start
      [.thread .main, .thread .loop, .thread .loop, .thread .loop, .thread .main, .thread .main] =
      some ⟨none, .asleep, .stop, true⟩ := rfl
  exact h _ (Machine.Reach.start.exec hrun) ⟨rfl, by simp⟩

end CalcLang.Libuv.StartUp
