import CalcLang.Coro.Scheduler
import CalcLang.Lib.Rest

/-!
# The jobs of the event loop

libuv may be called on the loop thread only. What another thread wants of it is a job: `QueueEvJob` of
`runtime/libuv/evqueue.calc` puts it into `evlist`, under `evmu`, and then calls `uv_async_send`. The callback of
that, in `StartUVLoop`, takes the jobs out of the list and performs them, one after the other, until there are none.

libuv lets several calls of `uv_async_send` have one callback. It forgets them in front of the callback and
not behind it, so that a job which comes too late for one is there for the next.

The callback has `evmu` while it performs the jobs. A job that calls `QueueEvJob` itself waits there
for the thread it is on; `calls` says which jobs do that. Other callbacks of the loop, of a timer or
a connection, may call it like any thread.
-/

namespace CalcLang.Libuv.Jobs

open CalcLang.Lib CalcLang.Linkedlist CalcLang.Coro.Scheduler

variable {κ φ : Type}

/-- Where a call of `QueueEvJob` is. -/
inductive CallPc (φ : Type) where
  | idle
  | lock (f : φ)
  | push (f : φ)
  | unLock
  | send
deriving DecidableEq, Repr

/-- Where the loop thread is: waiting for something to do, in a callback that calls `QueueEvJob`, or in the callback
that performs the jobs. The job that it performs has `fs` yet to queue. -/
inductive LoopPc (φ : Type) where
  | poll
  | callback (pc : CallPc φ)
  | lock
  | len
  | shift
  | job (fs : List φ) (pc : CallPc φ)
  | unLock
deriving DecidableEq, Repr

inductive Thread (κ : Type) where
  | caller (c : κ)
  | loop
deriving DecidableEq, Repr

/-- The list and its mutex, whether a callback is due, the threads, and the record. -/
structure State (κ φ : Type) where
  evmu : Option (Thread κ)
  evlist : Store φ
  pending : Bool
  caller : κ → CallPc φ
  loop : LoopPc φ
  crashed : Bool
  queued : List (Addr × φ)
  performed : List (Addr × φ)

inductive Label (κ φ : Type) where
  | call (c : κ) (f : φ)
  | callback (f : φ)
  | caller (c : κ)
  | loop
deriving DecidableEq, Repr

namespace State

/-- A step of `QueueEvJob`, on whatever thread. -/
def QueueEvJob (s : State κ φ) (t : Thread κ) : CallPc φ → Option (State κ φ × CallPc φ)
  | .idle => none
  | .lock f => if s.evmu.isNone then some ({ s with evmu := some t }, .push f) else none
  | .push f =>
    match s.evlist.Push f with
    | none => some ({ s with crashed := true }, .push f)
    | some evlist =>
      some ({ s with evlist := evlist, queued := s.queued ++ [(s.evlist.nodes.length, f)] }, .unLock)
  | .unLock => some ({ s with evmu := none }, .send)
  | .send => some ({ s with pending := true }, .idle)

def callerGoto [DecidableEq κ] (s : State κ φ) (c : κ) (pc : CallPc φ) : State κ φ :=
  { s with caller := Function.update s.caller c pc }

/-- A step of the loop thread. -/
def stepLoop (calls : φ → List φ) (s : State κ φ) : Option (State κ φ) :=
  match s.loop with
  | .poll => if s.pending then some { s with pending := false, loop := .lock } else none
  | .callback .idle => some { s with loop := .poll }
  | .callback pc => (s.QueueEvJob .loop pc).map fun r => { r.1 with loop := .callback r.2 }
  | .lock => if s.evmu.isNone then some { s with evmu := some .loop, loop := .len } else none
  | .len => some { s with loop := if 0 < s.evlist.Len then .shift else .unLock }
  | .shift =>
    match s.evlist.li.first, s.evlist.Shift with
    | some n, some (f, evlist) =>
      some { s with evlist := evlist, performed := s.performed ++ [(n, f)], loop := .job (calls f) .idle }
    | _, _ => some { s with crashed := true }
  | .job [] .idle => some { s with loop := .len }
  | .job (f :: fs) .idle => some { s with loop := .job fs (.lock f) }
  | .job fs pc => (s.QueueEvJob .loop pc).map fun r => { r.1 with loop := .job fs r.2 }
  | .unLock => some { s with evmu := none, loop := .poll }

/-- A step. A call of libuv's other callbacks begins where the loop waits. -/
def step [DecidableEq κ] (calls : φ → List φ) (s : State κ φ) (i : Label κ φ) : Option (State κ φ) :=
  if s.crashed then none
  else match i with
    | .call c f => if s.caller c matches .idle then some (s.callerGoto c (.lock f)) else none
    | .callback f => if s.loop matches .poll then some { s with loop := .callback (.lock f) } else none
    | .caller c => (s.QueueEvJob (.caller c) (s.caller c)).map fun r => r.1.callerGoto c r.2
    | .loop => s.stepLoop calls

end State

/-- The event loop, once it runs. -/
def machine (κ : Type) [DecidableEq κ] (calls : φ → List φ) : Machine (State κ φ) (Label κ φ) where
  start := ⟨none, .New [], false, fun _ => .idle, .poll, false, [], []⟩
  step := State.step calls

/-! ## The invariant -/

/-- Between `Lock` and `UnLock` of `QueueEvJob`. -/
def CallPc.inside : CallPc φ → Bool
  | .idle | .lock _ | .send => false
  | .push _ | .unLock => true

/-- Behind `Push`, and in front of the end of `uv_async_send`. -/
def CallPc.sending : CallPc φ → Bool
  | .unLock | .send => true
  | .idle | .lock _ | .push _ => false

/-- With `evmu` locked. -/
def LoopPc.inside : LoopPc φ → Bool
  | .poll | .lock => false
  | .callback pc => pc.inside
  | .len | .shift | .job _ _ | .unLock => true

/-- On the way to the jobs, with another look at the list to come. -/
def LoopPc.draining : LoopPc φ → Bool
  | .lock | .len | .shift | .job _ _ => true
  | .poll | .callback _ | .unLock => false

/-- In a job that calls `QueueEvJob`. -/
def LoopPc.queueing : LoopPc φ → Bool
  | .job [] .idle => false
  | .job _ _ => true
  | _ => false

/-- The loop thread waits for itself. -/
def LoopPc.stuck : LoopPc φ → Bool
  | .job _ (.lock _) => true
  | _ => false

namespace State

/-- The call of `QueueEvJob` that a thread is in, as far as it can come to its end. -/
def place (s : State κ φ) : Thread κ → CallPc φ
  | .caller c => s.caller c
  | .loop => match s.loop with
    | .callback pc => pc
    | _ => .idle

def inside (s : State κ φ) : Thread κ → Bool
  | .caller c => (s.caller c).inside
  | .loop => s.loop.inside

/-- How many jobs have been queued and not been begun. -/
def backlog (s : State κ φ) : ℕ := s.queued.length - s.performed.length

end State

structure Inv (calls : φ → List φ) (s : State κ φ) : Prop where
  holder : Guards s.evmu s.inside
  alive : s.crashed = false
  record : ∃ d, Record s.evlist s.queued (s.performed.map (Prod.mk ())) d
  /-- What the loop has seen of `Len` is still true when it shifts. -/
  nonempty : s.loop = .shift → s.backlog ≠ 0
  empty : s.loop = .unLock → s.backlog = 0
  /-- A job that queues another never comes further than to the lock. -/
  job : ∀ fs pc, s.loop = .job fs pc → pc = .idle ∨ ∃ f, pc = .lock f
  queueing : s.loop.queueing = true ↔ ∃ x ∈ s.performed, calls x.2 ≠ []
  /-- A job in the list will be looked for. -/
  woken : s.backlog ≠ 0 → s.pending = true ∨ s.loop.draining = true ∨ ∃ t, (s.place t).sending = true

/-! ## A step of `QueueEvJob` -/

/-- What a step of `QueueEvJob` changes, on the thread `t`. -/
inductive CallPc.Next (s s' : State κ φ) (t : Thread κ) : CallPc φ → CallPc φ → Prop
  | lock {f : φ} : s.evmu = none → s'.evmu = some t → s'.pending = s.pending → s'.backlog = s.backlog →
      CallPc.Next s s' t (.lock f) (.push f)
  | push {f : φ} : s'.evmu = s.evmu → s'.pending = s.pending → s'.backlog = s.backlog + 1 →
      CallPc.Next s s' t (.push f) .unLock
  | unLock : s'.evmu = none → s'.pending = s.pending → s'.backlog = s.backlog → CallPc.Next s s' t .unLock .send
  | send : s'.evmu = s.evmu → s'.pending = true → s'.backlog = s.backlog → CallPc.Next s s' t .send .idle

namespace CallPc.Next

variable {s s' : State κ φ} {t : Thread κ} {pc pc' : CallPc φ} {inside inside' : Thread κ → Bool}
  {place place' : Thread κ → CallPc φ} {P : Prop}

theorem holder (hn : CallPc.Next s s' t pc pc') (h : Guards s.evmu inside) (hpc : inside t = pc.inside)
    (hpc' : inside' t = pc'.inside) (hother : ∀ u, u ≠ t → inside' u = inside u) : Guards s'.evmu inside' := by
  have hstay : pc'.inside = pc.inside → Guards s.evmu inside' := by
    intro hsame
    apply h.stay
    intro u
    by_cases hu : u = t
    · rw [hu, hpc', hpc, hsame]
    · exact hother u hu
  cases hn with
  | lock hfree hmu hp hb =>
    rw [hfree] at h
    rw [hmu]
    exact h.enter hother hpc'
  | push hmu hp hb =>
    rw [hmu]
    exact hstay rfl
  | unLock hmu hp hb =>
    rw [hmu]
    exact h.leave hpc hother hpc'
  | send hmu hp hb =>
    rw [hmu]
    exact hstay rfl

/-- Whoever has pushed a job sees to it that the loop looks for it. -/
theorem woken (hn : CallPc.Next s s' t pc pc')
    (h : s.backlog ≠ 0 → s.pending = true ∨ P ∨ ∃ u, (place u).sending = true) (hpc : place t = pc)
    (hpc' : place' t = pc') (hother : ∀ u, u ≠ t → place' u = place u) :
    s'.backlog ≠ 0 → s'.pending = true ∨ P ∨ ∃ u, (place' u).sending = true := by
  intro hne
  cases hn with
  | lock hfree hmu hp hb =>
    rw [hb] at hne
    rw [hp]
    refine (h hne).imp_right fun h => h.imp_right fun ⟨u, hu⟩ => ⟨u, ?_⟩
    by_cases hut : u = t
    · rw [hut, hpc] at hu
      cases hu
    · rwa [hother u hut]
  | push hmu hp hb => exact .inr (.inr ⟨t, by rw [hpc']; rfl⟩)
  | unLock hmu hp hb => exact .inr (.inr ⟨t, by rw [hpc']; rfl⟩)
  | send hmu hp hb => exact .inl hp

end CallPc.Next

namespace Inv

variable {calls : φ → List φ} {s s' : State κ φ} {t : Thread κ} {pc pc' : CallPc φ}

theorem performed_le (h : Inv calls s) : s.performed.length ≤ s.queued.length := by
  obtain ⟨d, hd⟩ := h.record
  rw [hd.order, List.length_append, List.length_map, List.length_map]
  exact Nat.le_add_right _ _

/-- `Len` is the number of jobs that have been queued and not been begun. -/
theorem len (h : Inv calls s) : s.evlist.Len = (s.backlog : Int) := by
  obtain ⟨d, hd⟩ := h.record
  have hlen : s.queued.length = s.performed.length + d.items.length := by
    rw [hd.order, List.length_append, List.length_map, List.length_map]
  show s.evlist.li.len = (s.backlog : Int)
  rw [hd.holds.len, State.backlog, hlen, Nat.add_sub_cancel_left]

theorem QueueEvJob_next (h : Inv calls s) (hs : s.QueueEvJob t pc = some (s', pc')) :
    (s'.caller = s.caller ∧ s'.loop = s.loop ∧ s'.performed = s.performed ∧ s'.crashed = false) ∧
      (∃ d, Record s'.evlist s'.queued (s'.performed.map (Prod.mk ())) d) ∧ CallPc.Next s s' t pc pc' := by
  cases pc with
  | idle => cases hs
  | lock f =>
    simp only [State.QueueEvJob, Option.ite_none_right_eq_some, Option.some.injEq, Prod.mk.injEq] at hs
    obtain ⟨hfree, rfl, rfl⟩ := hs
    exact ⟨⟨rfl, rfl, rfl, h.alive⟩, h.record, .lock (Option.isNone_iff_eq_none.mp hfree) rfl rfl rfl⟩
  | push f =>
    have hle := h.performed_le
    obtain ⟨d, hd⟩ := h.record
    obtain ⟨evlist, d', hpush, -, hd'⟩ := hd.push f
    simp only [State.QueueEvJob, hpush, Option.some.injEq, Prod.mk.injEq] at hs
    obtain ⟨rfl, rfl⟩ := hs
    refine ⟨⟨rfl, rfl, rfl, h.alive⟩, ⟨d', hd'⟩, .push rfl rfl ?_⟩
    simp only [State.backlog, List.length_append, List.length_singleton]
    omega
  | unLock =>
    simp only [State.QueueEvJob, Option.some.injEq, Prod.mk.injEq] at hs
    obtain ⟨rfl, rfl⟩ := hs
    exact ⟨⟨rfl, rfl, rfl, h.alive⟩, h.record, .unLock rfl rfl rfl⟩
  | send =>
    simp only [State.QueueEvJob, Option.some.injEq, Prod.mk.injEq] at hs
    obtain ⟨rfl, rfl⟩ := hs
    exact ⟨⟨rfl, rfl, rfl, h.alive⟩, h.record, .send rfl rfl rfl⟩

/-- Who has the mutex can go on. -/
theorem QueueEvJob_inside (h : Inv calls s) (hin : pc.inside = true) : s.QueueEvJob t pc ≠ none := by
  cases pc with
  | idle | lock | send => cases hin
  | push f =>
    obtain ⟨d, hd⟩ := h.record
    obtain ⟨evlist, d', hpush, -, -⟩ := hd.push f
    simp [State.QueueEvJob, hpush]
  | unLock => simp [State.QueueEvJob]

theorem start [DecidableEq κ] : Inv calls (machine κ calls).start where
  holder := .free fun t => by cases t <;> rfl
  alive := rfl
  record := ⟨_, .start⟩
  nonempty h := by cases h
  empty _ := rfl
  job _ _ h := by cases h
  queueing := by simp [machine, LoopPc.queueing]
  woken h := absurd rfl h

/-- Nobody else is inside while the loop thread is. -/
theorem caller_outside (h : Inv calls s) (hin : s.loop.inside = true) (c : κ) : (s.caller c).inside = false := by
  rw [← Bool.not_eq_true]
  intro hc
  have hc' : s.inside (.caller c) = true := hc
  have hl' : s.inside .loop = true := hin
  cases h.holder.eq hc' hl'

variable [DecidableEq κ]

/-- A caller that begins a call, which changes nothing else. -/
theorem call (h : Inv calls s) {c : κ} {f : φ} (hidle : s.caller c = .idle) :
    Inv calls (s.callerGoto c (.lock f)) := by
  refine ⟨?_, h.alive, h.record, h.nonempty, h.empty, h.job, h.queueing, ?_⟩
  · apply h.holder.stay
    intro u
    cases u with
    | loop => rfl
    | caller c' =>
      by_cases hc : c' = c
      · subst hc
        simp [State.inside, State.callerGoto, hidle, CallPc.inside]
      · simp [State.inside, State.callerGoto, Function.update_of_ne hc]
  · intro hne
    refine (h.woken hne).imp_right fun h => h.imp_right fun ⟨u, hu⟩ => ⟨u, ?_⟩
    cases u with
    | loop => exact hu
    | caller c' =>
      by_cases hc : c' = c
      · subst hc
        simp [State.place, hidle, CallPc.sending] at hu
      · simpa [State.place, State.callerGoto, Function.update_of_ne hc] using hu

/-- A step of a caller. -/
theorem caller (h : Inv calls s) {c : κ} (hs : s.QueueEvJob (.caller c) (s.caller c) = some (s', pc')) :
    Inv calls (s'.callerGoto c pc') := by
  obtain ⟨⟨hc, hl, hp, ha⟩, hrec, hn⟩ := h.QueueEvJob_next hs
  have hother : ∀ u, u ≠ .caller c → (s'.callerGoto c pc').inside u = s.inside u := by
    intro u hu
    cases u with
    | loop => simp [State.inside, State.callerGoto, hl]
    | caller c' =>
      have hne : c' ≠ c := fun heq => hu (heq ▸ rfl)
      simp [State.inside, State.callerGoto, Function.update_of_ne hne, hc]
  have hplace : ∀ u, u ≠ .caller c → (s'.callerGoto c pc').place u = s.place u := by
    intro u hu
    cases u with
    | loop => simp [State.place, State.callerGoto, hl]
    | caller c' =>
      have hne : c' ≠ c := fun heq => hu (heq ▸ rfl)
      simp [State.place, State.callerGoto, Function.update_of_ne hne, hc]
  -- what the loop has seen of the list stays true, as nobody pushes while it has the mutex
  have hback : s.loop.inside = true → s'.backlog = s.backlog := by
    intro hin
    have hout := h.caller_outside hin c
    generalize s.caller c = pc at hn hout
    cases hn with
    | lock _ _ _ hb => exact hb
    | push => cases hout
    | unLock _ _ hb => exact hb
    | send _ _ hb => exact hb
  refine ⟨hn.holder h.holder rfl (by simp [State.inside, State.callerGoto]) hother, ha, hrec, ?_, ?_, ?_, ?_, ?_⟩
  · intro hloop
    have hloop' : s.loop = .shift := hl ▸ hloop
    show s'.backlog ≠ 0
    rw [hback (by rw [hloop']; rfl)]
    exact h.nonempty hloop'
  · intro hloop
    have hloop' : s.loop = .unLock := hl ▸ hloop
    show s'.backlog = 0
    rw [hback (by rw [hloop']; rfl)]
    exact h.empty hloop'
  · intro fs pc hloop
    exact h.job fs pc (hl ▸ hloop)
  · show s'.loop.queueing = true ↔ ∃ x ∈ s'.performed, calls x.2 ≠ []
    rw [hl, hp]
    exact h.queueing
  · show s'.backlog ≠ 0 → s'.pending = true ∨ s'.loop.draining = true ∨ _
    rw [hl]
    exact hn.woken h.woken rfl (by simp [State.place, State.callerGoto]) hplace

omit [DecidableEq κ] in
/-- A step of the loop thread in a callback that queues a job. -/
theorem callback (h : Inv calls s) (hpc : s.loop = .callback pc) (hs : s.QueueEvJob .loop pc = some (s', pc')) :
    Inv calls { s' with loop := .callback pc' } := by
  obtain ⟨⟨hc, hl, hp, ha⟩, hrec, hn⟩ := h.QueueEvJob_next hs
  refine ⟨?_, ha, hrec, by simp, by simp, by simp, ?_, ?_⟩
  · refine hn.holder h.holder (by simp [State.inside, hpc, LoopPc.inside]) rfl fun u hu => ?_
    cases u with
    | loop => exact absurd rfl hu
    | caller c => simp [State.inside, hc]
  · show false = true ↔ ∃ x ∈ s'.performed, calls x.2 ≠ []
    have hq := h.queueing
    rw [hpc] at hq
    rw [hp]
    exact hq
  · have hw := h.woken
    rw [hpc] at hw
    refine hn.woken hw (show s.place .loop = _ by simp [State.place, hpc]) rfl fun u hu => ?_
    cases u with
    | loop => exact absurd rfl hu
    | caller c => simp [State.place, hc]

omit [DecidableEq κ] in
/-- The loop thread moves and leaves the list and the callers alone. -/
theorem loopGoto (h : Inv calls s) {evmu : Option (Thread κ)} {pending : Bool} {pc : LoopPc φ}
    (hholder : Guards evmu ({ s with evmu := evmu, pending := pending, loop := pc } : State κ φ).inside)
    (hshift : pc = .shift → s.backlog ≠ 0) (hempty : pc = .unLock → s.backlog = 0)
    (hjob : ∀ fs pc', pc = .job fs pc' → pc' = .idle ∨ ∃ f, pc' = .lock f)
    (hqueueing : pc.queueing = s.loop.queueing)
    (hwoken : s.backlog ≠ 0 → pending = true ∨ pc.draining = true ∨
      ∃ t, (({ s with evmu := evmu, pending := pending, loop := pc } : State κ φ).place t).sending = true) :
    Inv calls { s with evmu := evmu, pending := pending, loop := pc } :=
  ⟨hholder, h.alive, h.record, hshift, hempty, hjob, by rw [← h.queueing]; simp [hqueueing], hwoken⟩

omit [DecidableEq κ] in
/-- The callers are where they were. -/
theorem holder_loop (h : Inv calls s) {evmu : Option (Thread κ)} {pending : Bool} {pc : LoopPc φ}
    (hmu : evmu = s.evmu ∧ pc.inside = s.loop.inside ∨ s.evmu = none ∧ evmu = some .loop ∧ pc.inside = true ∨
      s.loop.inside = true ∧ evmu = none ∧ pc.inside = false) :
    Guards evmu ({ s with evmu := evmu, pending := pending, loop := pc } : State κ φ).inside := by
  have hother : ∀ u, u ≠ .loop →
      ({ s with evmu := evmu, pending := pending, loop := pc } : State κ φ).inside u = s.inside u := by
    intro u hu
    cases u with
    | loop => exact absurd rfl hu
    | caller c => rfl
  rcases hmu with ⟨rfl, hin⟩ | ⟨hfree, rfl, hin⟩ | ⟨hin, rfl, hout⟩
  · apply h.holder.stay
    intro u
    cases u with
    | loop => exact hin
    | caller c => rfl
  · have hholder := h.holder
    rw [hfree] at hholder
    exact hholder.enter hother hin
  · exact h.holder.leave (t := .loop) hin hother hout

omit [DecidableEq κ] in
/-- A job that the loop is not about to find has been seen to by a caller. -/
theorem woken_elsewhere (h : Inv calls s) (hdraining : s.loop.draining = false)
    (hplace : (s.place .loop).sending = false) (hne : s.backlog ≠ 0) :
    s.pending = true ∨ ∃ c, (s.caller c).sending = true := by
  refine (h.woken hne).imp_right fun hw => ?_
  rcases hw with hd | ⟨t, ht⟩
  · rw [hdraining] at hd
    cases hd
  · cases t with
    | caller c => exact ⟨c, ht⟩
    | loop =>
      rw [hplace] at ht
      cases ht

omit [DecidableEq κ] in
/-- The loop thread begins a call in a callback, or has come to its end. -/
theorem callbackGoto (h : Inv calls s) {pc : LoopPc φ} (hpc : pc.inside = s.loop.inside)
    (hnew : pc = .poll ∨ ∃ pc', pc = .callback pc') (hqueueing : s.loop.queueing = false)
    (hdraining : s.loop.draining = false) (hplace : (s.place .loop).sending = false) :
    Inv calls { s with loop := pc } := by
  have hwoken : s.backlog ≠ 0 → s.pending = true ∨ pc.draining = true ∨
      ∃ t, (({ s with loop := pc } : State κ φ).place t).sending = true := by
    intro hne
    rcases h.woken_elsewhere hdraining hplace hne with hp | ⟨c, hc⟩
    · exact .inl hp
    · exact .inr (.inr ⟨.caller c, hc⟩)
  rcases hnew with rfl | ⟨pc', rfl⟩
  · exact h.loopGoto (h.holder_loop (.inl ⟨rfl, hpc⟩)) (by simp) (by simp) (by simp) hqueueing.symm hwoken
  · exact h.loopGoto (h.holder_loop (.inl ⟨rfl, hpc⟩)) (by simp) (by simp) (by simp) hqueueing.symm hwoken

omit [DecidableEq κ] in
theorem stepLoop (h : Inv calls s) (hs : s.stepLoop calls = some s') : Inv calls s' := by
  unfold State.stepLoop at hs
  cases hpc : s.loop with
  | poll =>
    simp only [hpc, Option.ite_none_right_eq_some, Option.some.injEq] at hs
    obtain ⟨-, rfl⟩ := hs
    exact h.loopGoto (h.holder_loop (.inl ⟨rfl, by simp [hpc, LoopPc.inside]⟩)) (by simp) (by simp) (by simp)
      (by simp [hpc, LoopPc.queueing]) (fun _ => .inr (.inl rfl))
  | callback pc =>
    cases pc with
    | idle =>
      simp only [hpc, Option.some.injEq] at hs
      subst hs
      exact h.callbackGoto (by simp [hpc, LoopPc.inside, CallPc.inside]) (.inl rfl) (by simp [hpc, LoopPc.queueing])
        (by simp [hpc, LoopPc.draining]) (by simp [State.place, hpc, CallPc.sending])
    | lock | push | unLock | send =>
      simp only [hpc, Option.map_eq_some_iff] at hs
      obtain ⟨⟨s₁, pc'⟩, hstep, rfl⟩ := hs
      exact h.callback hpc hstep
  | lock =>
    simp only [hpc, Option.ite_none_right_eq_some, Option.some.injEq] at hs
    obtain ⟨hfree, rfl⟩ := hs
    exact h.loopGoto (h.holder_loop (.inr (.inl ⟨Option.isNone_iff_eq_none.mp hfree, rfl, rfl⟩))) (by simp) (by simp)
      (by simp) (by simp [hpc, LoopPc.queueing]) (fun _ => .inr (.inl rfl))
  | len =>
    simp only [hpc, Option.some.injEq] at hs
    subst hs
    have hlen := h.len
    by_cases hpos : 0 < s.evlist.Len
    · simp only [hpos, if_true]
      exact h.loopGoto (h.holder_loop (.inl ⟨rfl, by simp [hpc, LoopPc.inside]⟩)) (fun _ => by omega) (by simp)
        (by simp) (by simp [hpc, LoopPc.queueing]) (fun _ => .inr (.inl rfl))
    · simp only [hpos, if_false]
      exact h.loopGoto (h.holder_loop (.inl ⟨rfl, by simp [hpc, LoopPc.inside]⟩)) (by simp) (fun _ => by omega)
        (by simp) (by simp [hpc, LoopPc.queueing]) (fun hne => by omega)
  | shift =>
    have hle := h.performed_le
    have hlen : s.evlist.Len ≠ 0 := by
      rw [h.len]
      exact_mod_cast h.nonempty hpc
    obtain ⟨d, hd⟩ := h.record
    obtain ⟨n, f, evlist, d', hfirst, hshift, hd'⟩ := hd.shift hlen ()
    simp only [hpc, hfirst, hshift, Option.some.injEq] at hs
    subst hs
    have hquiet : ∀ x ∈ s.performed, calls x.2 = [] := by
      intro x hx
      by_contra hne
      have hq := h.queueing.mpr ⟨x, hx, hne⟩
      simp [hpc, LoopPc.queueing] at hq
    refine ⟨?_, h.alive, ⟨d', ?_⟩, by simp, by simp, by simp, ?_, fun _ => .inr (.inl rfl)⟩
    · apply h.holder.stay
      intro u
      cases u with
      | loop => simp [State.inside, hpc, LoopPc.inside]
      | caller c => rfl
    · rw [List.map_append]
      exact hd'
    · -- the jobs before have queued nothing, so it depends on this one
      simp only [List.mem_append, List.mem_singleton]
      constructor
      · intro hq
        refine ⟨(n, f), .inr rfl, fun hnil => ?_⟩
        rw [hnil] at hq
        cases hq
      · rintro ⟨x, hx | rfl, hne⟩
        · exact absurd (hquiet x hx) hne
        · cases hf : calls f with
          | nil => exact absurd hf hne
          | cons => rfl
  | job fs pc =>
    rcases h.job fs pc hpc with rfl | ⟨f, rfl⟩
    · cases fs with
      | nil =>
        simp only [hpc, Option.some.injEq] at hs
        subst hs
        exact h.loopGoto (h.holder_loop (.inl ⟨rfl, by simp [hpc, LoopPc.inside]⟩)) (by simp) (by simp)
          (by simp) (by simp [hpc, LoopPc.queueing]) (fun _ => .inr (.inl rfl))
      | cons f fs =>
        simp only [hpc, Option.some.injEq] at hs
        subst hs
        exact h.loopGoto (h.holder_loop (.inl ⟨rfl, by simp [hpc, LoopPc.inside]⟩)) (by simp) (by simp)
          (by simp) (by simp [hpc, LoopPc.queueing]) (fun _ => .inr (.inl rfl))
    · -- the mutex is held by the thread that asks for it
      have hmu : s.evmu = some .loop := (h.holder .loop).mp (by simp [State.inside, hpc, LoopPc.inside])
      simp [hpc, State.QueueEvJob, hmu] at hs
  | unLock =>
    simp only [hpc, Option.some.injEq] at hs
    subst hs
    exact h.loopGoto (h.holder_loop (.inr (.inr ⟨by simp [hpc, LoopPc.inside], rfl, rfl⟩))) (by simp) (by simp)
      (by simp) (by simp [hpc, LoopPc.queueing]) (fun hne => absurd (h.empty hpc) hne)

theorem step (h : Inv calls s) {i : Label κ φ} (hs : s.step calls i = some s') : Inv calls s' := by
  unfold State.step at hs
  rw [if_neg (by simp [h.alive])] at hs
  cases i with
  | call c f =>
    simp only [Option.ite_none_right_eq_some, Option.some.injEq] at hs
    obtain ⟨hidle, rfl⟩ := hs
    split at hidle
    · rename_i hpc
      exact h.call hpc
    · cases hidle
  | callback f =>
    simp only [Option.ite_none_right_eq_some, Option.some.injEq] at hs
    obtain ⟨hpoll, rfl⟩ := hs
    split at hpoll
    · rename_i hpc
      exact h.callbackGoto (by simp [hpc, LoopPc.inside, CallPc.inside]) (.inr ⟨.lock f, rfl⟩)
        (by simp [hpc, LoopPc.queueing]) (by simp [hpc, LoopPc.draining]) (by simp [State.place, hpc, CallPc.sending])
    · cases hpoll
  | caller c =>
    simp only [Option.map_eq_some_iff] at hs
    obtain ⟨⟨s₁, pc'⟩, hstep, rfl⟩ := hs
    exact h.caller hstep
  | loop => exact h.stepLoop hs

end Inv

/-! ## Every run comes to rest -/

/-- What the threads do not do by themselves: a call of `QueueEvJob`, and one of libuv's other callbacks. -/
def Label.outside : Label κ φ → Bool
  | .call _ _ | .callback _ => true
  | .caller _ | .loop => false

/-- How many steps a call has before it, with those of the callback that it asks for. -/
def CallPc.rank : CallPc φ → ℕ
  | .idle => 0
  | .lock _ => 11
  | .push _ => 10
  | .unLock => 6
  | .send => 5

/-- How many steps the loop thread has before it, if there is nothing more in the list. -/
def LoopPc.rank : LoopPc φ → ℕ
  | .poll => 0
  | .callback pc => pc.rank + 1
  | .shift | .unLock => 1
  | .len => 2
  | .lock | .job _ .idle => 3
  | .job _ _ => 0

/-- How many steps there are before everybody rests. A job is good for three, and a callback that is due for four. -/
def State.rank [Fintype κ] (s : State κ φ) : ℕ :=
  3 * s.backlog + (if s.pending then 4 else 0) + tally CallPc.rank s.caller + s.loop.rank

section Rank

variable {calls : φ → List φ} {s s' : State κ φ}

theorem CallPc.Next.rank {t : Thread κ} {pc pc' : CallPc φ} (hn : CallPc.Next s s' t pc pc') :
    3 * s'.backlog + (if s'.pending then 4 else 0) + pc'.rank + 1 ≤
      3 * s.backlog + (if s.pending then 4 else 0) + pc.rank := by
  cases hn with
  | lock hfree hmu hp hb =>
    simp only [hp, hb, CallPc.rank]
    omega
  | push hmu hp hb =>
    simp only [hp, hb, CallPc.rank]
    omega
  | unLock hmu hp hb =>
    simp only [hp, hb, CallPc.rank]
    omega
  | send hmu hp hb =>
    simp only [hp, hb, CallPc.rank, if_true]
    omega

variable [Fintype κ]

theorem Inv.rank_stepLoop (h : Inv calls s) (hs : s.stepLoop calls = some s') : s'.rank + 1 ≤ s.rank := by
  unfold State.stepLoop at hs
  cases hpc : s.loop with
  | poll =>
    simp only [hpc, Option.ite_none_right_eq_some, Option.some.injEq] at hs
    obtain ⟨hp, rfl⟩ := hs
    simp only [State.rank, State.backlog, hpc, hp, LoopPc.rank, if_true, Bool.false_eq_true, if_false]
    omega
  | callback pc =>
    have hcall : ∀ s₁ pc', s.QueueEvJob .loop pc = some (s₁, pc') → s' = { s₁ with loop := .callback pc' } →
        s'.rank + 1 ≤ s.rank := by
      rintro s₁ pc' hstep rfl
      obtain ⟨⟨hc, -, -, -⟩, -, hn⟩ := h.QueueEvJob_next hstep
      have hr := hn.rank
      simp only [State.rank, hpc, hc, LoopPc.rank]
      show 3 * s₁.backlog + (if s₁.pending then 4 else 0) + _ + _ + 1 ≤ _
      omega
    cases pc with
    | idle =>
      simp only [hpc, Option.some.injEq] at hs
      subst hs
      simp only [State.rank, State.backlog, hpc, LoopPc.rank]
      omega
    | lock | push | unLock | send =>
      simp only [hpc, Option.map_eq_some_iff] at hs
      obtain ⟨⟨s₁, pc'⟩, hstep, rfl⟩ := hs
      exact hcall s₁ pc' hstep rfl
  | lock =>
    simp only [hpc, Option.ite_none_right_eq_some, Option.some.injEq] at hs
    obtain ⟨hfree, rfl⟩ := hs
    simp only [State.rank, State.backlog, hpc, LoopPc.rank]
    omega
  | len =>
    simp only [hpc, Option.some.injEq] at hs
    subst hs
    have hloop : (if 0 < s.evlist.Len then LoopPc.shift else .unLock : LoopPc φ).rank = 1 := by
      split
      · rfl
      · rfl
    simp only [State.rank, State.backlog, hloop]
    simp only [hpc, LoopPc.rank]
    omega
  | shift =>
    have hne := h.nonempty hpc
    have hlen : s.evlist.Len ≠ 0 := by
      rw [h.len]
      exact_mod_cast hne
    obtain ⟨d, hd⟩ := h.record
    obtain ⟨n, f, evlist, d', hfirst, hshift, -⟩ := hd.shift hlen ()
    simp only [hpc, hfirst, hshift, Option.some.injEq] at hs
    subst hs
    unfold State.backlog at hne
    simp only [State.rank, State.backlog, hpc, LoopPc.rank, List.length_append, List.length_singleton]
    omega
  | job fs pc =>
    rcases h.job fs pc hpc with rfl | ⟨f, rfl⟩
    · cases fs with
      | nil | cons =>
        simp only [hpc, Option.some.injEq] at hs
        subst hs
        simp only [State.rank, State.backlog, hpc, LoopPc.rank]
        omega
    · have hmu : s.evmu = some .loop := (h.holder .loop).mp (by simp [State.inside, hpc, LoopPc.inside])
      simp [hpc, State.QueueEvJob, hmu] at hs
  | unLock =>
    simp only [hpc, Option.some.injEq] at hs
    subst hs
    simp only [State.rank, State.backlog, hpc, LoopPc.rank]
    omega

theorem Inv.rank_step [DecidableEq κ] (h : Inv calls s) {i : Label κ φ} (hs : s.step calls i = some s') :
    s'.rank + 1 ≤ s.rank + if i.outside then 12 + 1 else 0 := by
  unfold State.step at hs
  rw [if_neg (by simp [h.alive])] at hs
  cases i with
  | call c f =>
    simp only [Option.ite_none_right_eq_some, Option.some.injEq] at hs
    obtain ⟨hidle, rfl⟩ := hs
    split at hidle
    · rename_i hpc
      have htally := tally_update CallPc.rank s.caller c (.lock f)
      simp only [hpc, CallPc.rank] at htally
      have hrank : (s.callerGoto c (.lock f)).rank = 3 * s.backlog + (if s.pending then 4 else 0) +
          tally CallPc.rank (Function.update s.caller c (.lock f)) + s.loop.rank := rfl
      rw [hrank]
      simp only [State.rank, Label.outside, if_true]
      omega
    · cases hidle
  | callback f =>
    simp only [Option.ite_none_right_eq_some, Option.some.injEq] at hs
    obtain ⟨hpoll, rfl⟩ := hs
    split at hpoll
    · rename_i hpc
      simp only [State.rank, State.backlog, hpc, LoopPc.rank, CallPc.rank, Label.outside, if_true]
      omega
    · cases hpoll
  | caller c =>
    simp only [Option.map_eq_some_iff] at hs
    obtain ⟨⟨s₁, pc'⟩, hstep, rfl⟩ := hs
    obtain ⟨⟨hc, hl, -, -⟩, -, hn⟩ := h.QueueEvJob_next hstep
    have hr := hn.rank
    have htally := tally_update CallPc.rank s.caller c pc'
    simp only [State.rank, State.callerGoto, hc, hl, Label.outside, Bool.false_eq_true, if_false]
    show 3 * s₁.backlog + (if s₁.pending then 4 else 0) + _ + _ + 1 ≤ _
    omega
  | loop =>
    simp only [Label.outside, Bool.false_eq_true, if_false]
    exact h.rank_stepLoop hs

end Rank

/-- No thread can take a step by itself. -/
def State.Resting [DecidableEq κ] (calls : φ → List φ) (s : State κ φ) : Prop :=
  ∀ i, i.outside = false → s.step calls i = none

namespace Inv

variable [DecidableEq κ] {calls : φ → List φ} {s : State κ φ}

theorem resting_caller (h : Inv calls s) (hr : s.Resting calls) (c : κ) :
    s.QueueEvJob (.caller c) (s.caller c) = none := by
  have hnone := hr (.caller c) rfl
  simpa [State.step, h.alive] using hnone

theorem resting_loop (h : Inv calls s) (hr : s.Resting calls) : s.stepLoop calls = none := by
  have hnone := hr .loop rfl
  simpa [State.step, h.alive] using hnone

/-- No caller rests with the mutex. -/
theorem resting_outside (h : Inv calls s) (hr : s.Resting calls) (c : κ) : (s.caller c).inside = false := by
  rw [← Bool.not_eq_true]
  intro hin
  exact h.QueueEvJob_inside hin (h.resting_caller hr c)

/-- The mutex is free, or the loop thread has it. -/
theorem resting_evmu (h : Inv calls s) (hr : s.Resting calls) (hloop : s.loop.inside = false) : s.evmu = none := by
  cases hmu : s.evmu with
  | none => rfl
  | some t =>
    have hin := (h.holder t).mpr hmu
    cases t with
    | caller c =>
      have hout := h.resting_outside hr c
      rw [show s.inside (.caller c) = (s.caller c).inside from rfl, hout] at hin
      cases hin
    | loop =>
      rw [show s.inside .loop = s.loop.inside from rfl, hloop] at hin
      cases hin

/-- The loop thread rests where it waits for something to do, and where it waits for itself. -/
theorem resting_cases (h : Inv calls s) (hr : s.Resting calls) :
    s.loop = .poll ∧ s.pending = false ∨ s.loop.stuck = true := by
  have hnone := h.resting_loop hr
  have hfree := h.resting_evmu hr
  unfold State.stepLoop at hnone
  cases hpc : s.loop with
  | poll =>
    refine .inl ⟨rfl, ?_⟩
    simpa [hpc] using hnone
  | callback pc =>
    cases pc with
    | idle => simp [hpc] at hnone
    | lock f =>
      rw [hpc] at hfree
      simp [hpc, State.QueueEvJob, hfree rfl] at hnone
    | push f =>
      have hin : (CallPc.push f).inside = true := rfl
      rw [hpc] at hnone
      simp only [Option.map_eq_none_iff] at hnone
      exact absurd hnone (h.QueueEvJob_inside hin)
    | unLock | send => simp [hpc, State.QueueEvJob] at hnone
  | lock =>
    rw [hpc] at hfree
    simp [hpc, hfree rfl] at hnone
  | len | unLock => simp [hpc] at hnone
  | shift =>
    have hlen : s.evlist.Len ≠ 0 := by
      rw [h.len]
      exact_mod_cast h.nonempty hpc
    obtain ⟨d, hd⟩ := h.record
    obtain ⟨n, f, evlist, d', hfirst, hshift, -⟩ := hd.shift hlen ()
    simp [hpc, hfirst, hshift] at hnone
  | job fs pc =>
    rcases h.job fs pc hpc with rfl | ⟨f, rfl⟩
    · cases fs with
      | nil | cons => simp [hpc] at hnone
    · exact .inr rfl

theorem resting_idle (h : Inv calls s) (hr : s.Resting calls) (hpoll : s.loop = .poll) (c : κ) :
    s.caller c = .idle := by
  have hnone := h.resting_caller hr c
  have hout := h.resting_outside hr c
  have hfree := h.resting_evmu hr (by rw [hpoll]; rfl)
  cases hpc : s.caller c with
  | idle => rfl
  | lock f => simp [hpc, State.QueueEvJob, hfree] at hnone
  | push | unLock => simp [hpc, CallPc.inside] at hout
  | send => simp [hpc, State.QueueEvJob] at hnone

/-- Where the loop thread waits for something to do, everything has been done. -/
theorem resting_performed (h : Inv calls s) (hr : s.Resting calls) (hpoll : s.loop = .poll)
    (hpending : s.pending = false) : s.performed = s.queued := by
  have hzero : s.backlog = 0 := by
    by_contra hne
    rcases h.woken hne with hp | hd | ⟨t, ht⟩
    · rw [hpending] at hp
      cases hp
    · rw [hpoll] at hd
      cases hd
    · cases t with
      | caller c => simp [State.place, h.resting_idle hr hpoll c, CallPc.sending] at ht
      | loop => simp [State.place, hpoll, CallPc.sending] at ht
  obtain ⟨d, hd⟩ := h.record
  have hitems : d.items = [] := by
    have hlen := congrArg List.length hd.order
    rw [List.length_append, List.length_map, List.length_map] at hlen
    unfold State.backlog at hzero
    exact List.eq_nil_of_length_eq_zero (by omega)
  have horder := hd.order
  rw [hitems, List.append_nil, List.map_map] at horder
  rw [horder]
  exact (List.map_id _).symm

end Inv

/-- **Every job is performed, once and in order.** In every state that any interleaving reaches: the jobs that have been
performed are those queued first, each of its own entry in the list, and the rest is in the list; while there is a job
in the list the loop is about to look there, or will be told to; a run from there is no longer than a bound that
depends on the state, and on how often something comes from outside; and where no thread can move, all jobs have been
performed and everybody waits for something to do, exactly if none of the jobs performed has called `QueueEvJob`. -/
theorem jobs_performed [DecidableEq κ] [Fintype κ] {calls : φ → List φ} {s : State κ φ}
    (h : (machine κ calls).Reach (fun _ _ => True) s) :
    (s.crashed = false ∧ (s.queued.map Prod.fst).Nodup ∧
        ∃ d, Holds s.evlist d ∧ s.queued = s.performed ++ d.items) ∧
      (s.evlist.Len ≠ 0 → s.pending = true ∨ s.loop.draining = true ∨ ∃ t, (s.place t).sending = true) ∧
      (∃ n, ∀ is s', (machine κ calls).exec s is = some s' → is.length ≤ n + 13 * is.countP Label.outside) ∧
      (s.Resting calls →
        (((∀ c, s.caller c = .idle) ∧ s.loop = .poll ∧ s.performed = s.queued) ↔
          ∀ x ∈ s.performed, calls x.2 = [])) := by
  have hI : Inv calls s := h.invariant .start fun _ _ _ hI _ hs => hI.step hs
  obtain ⟨d, hd⟩ := hI.record
  refine ⟨⟨hI.alive, hd.nodup, d, hd.holds, ?_⟩, ?_, ⟨s.rank, ?_⟩, fun hr => ⟨?_, ?_⟩⟩
  · rw [hd.order, List.map_map]
    exact congrArg (· ++ d.items) (List.map_id _)
  · intro hlen
    refine hI.woken fun hzero => hlen ?_
    rw [hI.len, hzero]
    rfl
  · intro is s' he
    have hle : is.length + s'.rank ≤ s.rank + (12 + 1) * is.countP Label.outside :=
      Machine.exec_length_le (P := Inv calls) (fun _ _ _ hI hs => hI.step hs) (fun _ _ _ hI hs => hI.rank_step hs) hI he
    omega
  · rintro ⟨-, hpoll, -⟩ x hx
    by_contra hne
    have hq := hI.queueing.mpr ⟨x, hx, hne⟩
    rw [hpoll] at hq
    cases hq
  · intro hquiet
    rcases hI.resting_cases hr with ⟨hpoll, hpending⟩ | hstuck
    · exact ⟨hI.resting_idle hr hpoll, hpoll, hI.resting_performed hr hpoll hpending⟩
    · have hq : s.loop.queueing = true := by
        cases hpc : s.loop with
        | poll | callback | lock | len | shift | unLock => simp [hpc, LoopPc.stuck] at hstuck
        | job fs pc =>
          cases pc with
          | idle | push | unLock | send => simp [hpc, LoopPc.stuck] at hstuck
          | lock f => cases fs <;> rfl
      obtain ⟨x, hx, hne⟩ := hI.queueing.mp hq
      exact absurd (hquiet x hx) hne

/-- Two jobs are queued before the loop looks, with one callback for both of them, which performs them in order. -/
theorem jobs_performed_twice :
    ∃ s, (machine Unit fun _ : ℕ => []).Reach (fun _ _ => True) s ∧ s.Resting (fun _ => []) ∧
      s.queued.map Prod.snd = [7, 8] ∧ s.performed = s.queued := by
  obtain ⟨s, hs, hqueued, hcaller, hloop, hpending⟩ : ∃ s, (machine Unit fun _ : ℕ => []).exec
      (machine Unit fun _ : ℕ => []).start
      [.call () 7, .caller (), .caller (), .caller (), .caller (), .call () 8, .caller (), .caller (), .caller (),
        .caller (), .loop, .loop, .loop, .loop, .loop, .loop, .loop, .loop, .loop, .loop] = some s ∧
      s.queued.map Prod.snd = [7, 8] ∧ s.caller () = .idle ∧ s.loop = .poll ∧ s.pending = false :=
    ⟨_, rfl, rfl, rfl, rfl, rfl⟩
  have hreach : (machine Unit fun _ : ℕ => []).Reach (fun _ _ => True) s := .exec .start hs
  have hrest : s.Resting (fun _ : ℕ => []) := by
    intro i hout
    cases i with
    | call c f => cases hout
    | callback f => cases hout
    | caller c => simp [State.step, State.QueueEvJob, hcaller]
    | loop => simp [State.step, State.stepLoop, hloop, hpending]
  exact ⟨s, hreach, hrest, hqueued, (((jobs_performed hreach).2.2.2 hrest).mpr fun _ _ => rfl).2.2⟩

/-- A job that calls `QueueEvJob` is never done with: while it is performed nothing else is. -/
theorem Inv.queueing_step [DecidableEq κ] {calls : φ → List φ} {s s' : State κ φ} (h : Inv calls s)
    (hq : s.loop.queueing = true) {i : Label κ φ} (hs : s.step calls i = some s') :
    s'.loop.queueing = true ∧ s'.performed = s.performed := by
  unfold State.step at hs
  rw [if_neg (by simp [h.alive])] at hs
  cases i with
  | call c f =>
    simp only [Option.ite_none_right_eq_some, Option.some.injEq] at hs
    obtain ⟨-, rfl⟩ := hs
    exact ⟨hq, rfl⟩
  | callback f =>
    simp only [Option.ite_none_right_eq_some, Option.some.injEq] at hs
    obtain ⟨hpoll, rfl⟩ := hs
    split at hpoll
    · rename_i hpc
      simp [hpc, LoopPc.queueing] at hq
    · cases hpoll
  | caller c =>
    simp only [Option.map_eq_some_iff] at hs
    obtain ⟨⟨s₁, pc'⟩, hstep, rfl⟩ := hs
    obtain ⟨⟨-, hl, hp, -⟩, -, -⟩ := h.QueueEvJob_next hstep
    refine ⟨?_, hp⟩
    show s₁.loop.queueing = true
    rwa [hl]
  | loop =>
    have hs : s.stepLoop calls = some s' := hs
    unfold State.stepLoop at hs
    cases hpc : s.loop with
    | poll | callback | lock | len | shift | unLock => simp [hpc, LoopPc.queueing] at hq
    | job fs pc =>
      rcases h.job fs pc hpc with rfl | ⟨f, rfl⟩
      · cases fs with
        | nil => simp [hpc, LoopPc.queueing] at hq
        | cons f fs =>
          simp only [hpc, Option.some.injEq] at hs
          subst hs
          refine ⟨?_, rfl⟩
          cases fs <;> rfl
      · have hmu : s.evmu = some .loop := (h.holder .loop).mp (by simp [State.inside, hpc, LoopPc.inside])
        simp [hpc, State.QueueEvJob, hmu] at hs

/-- **A job must not queue a job.** Once a job has been begun that calls `QueueEvJob`, no run performs another one. -/
theorem queueing_hangs [DecidableEq κ] {calls : φ → List φ} {s t : State κ φ}
    (h : (machine κ calls).Reach (fun _ _ => True) s) (hq : ∃ x ∈ s.performed, calls x.2 ≠ [])
    (ht : (machine κ calls).Leads (fun _ _ => True) s t) : t.performed = s.performed := by
  have hI : Inv calls s := h.invariant .start fun _ _ _ hI _ hs => hI.step hs
  have hall : Inv calls t ∧ t.loop.queueing = true ∧ t.performed = s.performed := by
    apply ht.invariant (P := fun u => Inv calls u ∧ u.loop.queueing = true ∧ u.performed = s.performed)
      ⟨hI, hI.queueing.mpr hq, rfl⟩
    intro s₁ i s₂ h₁ _ hs
    obtain ⟨hq₂, hp₂⟩ := h₁.1.queueing_step h₁.2.1 hs
    exact ⟨h₁.1.step hs, hq₂, hp₂.trans h₁.2.2⟩
  exact hall.2.2

/-- The job 7 queues the job 8, and the loop thread waits for itself: a caller's job 9 stays where it is. -/
theorem queueing_hangs_nested :
    ∃ s t, (machine Unit fun f => if f = 7 then [8] else []).Leads (fun _ _ => True) s t ∧
      s.performed = [(0, 7)] ∧ t.loop.stuck = true ∧ t.caller () = .lock 9 ∧ t.performed = s.performed := by
  obtain ⟨s, hs, hp⟩ : ∃ s, (machine Unit fun f => if f = 7 then [8] else []).exec
      (machine Unit fun f => if f = 7 then [8] else []).start
      [.call () 7, .caller (), .caller (), .caller (), .caller (), .loop, .loop, .loop, .loop] = some s ∧
      s.performed = [(0, 7)] := ⟨_, rfl, rfl⟩
  have hreach : (machine Unit fun f => if f = 7 then [8] else []).Reach (fun _ _ => True) s := .exec .start hs
  obtain ⟨u, hu⟩ : ∃ u, (machine Unit fun f => if f = 7 then [8] else []).step s .loop = some u := by
    cases hs
    exact ⟨_, rfl⟩
  obtain ⟨t, ht, hstuck, hcaller⟩ : ∃ t,
      (machine Unit fun f => if f = 7 then [8] else []).step u (.call () 9) = some t ∧
        t.loop.stuck = true ∧ t.caller () = .lock 9 := by
    cases hs
    cases hu
    exact ⟨_, rfl, rfl, rfl⟩
  have hleads : (machine Unit fun f => if f = 7 then [8] else []).Leads (fun _ _ => True) s t :=
    .step (.step .refl trivial hu) trivial ht
  exact ⟨s, t, hleads, hp, hstuck, hcaller, queueing_hangs hreach ⟨(0, 7), by simp [hp], by simp⟩ hleads⟩

end CalcLang.Libuv.Jobs
