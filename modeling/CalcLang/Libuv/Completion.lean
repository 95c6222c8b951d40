import CalcLang.Libuv.Tcp
import Mathlib.Data.List.Nodup

/-!
# Which operations complete

The operations of a connection make a task, and hand a job to the loop thread that calls libuv. They
complete by `TryQueueContinuous`, in the callback or, if there will be none, in the job.

`WriteBufAsync` does both, `CloseAsync` has a callback in any case. `ConnectAsync` only prints something when
`uv_tcp_connect` fails at once, and `ReadBufAsync` does not look at what `uv_read_start` returns: their
tasks never complete then. The callback of a read that is told about an error, the end, or that
nothing was there completes the task that is in the buffer, and leaves it there, so that the next callback
may complete it again.

`Ops` has the operations of one connection in any order, with whatever libuv returns and calls back; at most
one read is asked for at a time. `Once` says that nothing has completed twice, and that what has not
completed has its callback still to come. It is exactly the steps above that break it (`once_iff`).
-/

namespace CalcLang.Libuv

open CalcLang.Lib

/-! ## The read callback -/

namespace Conn

/-- The reads that have completed. -/
def completed (s : Conn) : List Nat := s.results.map Prod.fst

/-- The read that the callback would complete. -/
def completes (s : Conn) (nread : Int) : Option Nat :=
  s.data.bind fun d => d.task.bind fun ag =>
    if nread ≤ 0 ∨ d.explen ≤ d.len + nread.toNat then some ag else none

/-- The callback of an error, of the end or of no data. libuv may have asked for a buffer before. -/
def noData (s : Conn) (suggested_size : Option Nat) (nread : Int) : Conn :=
  (suggested_size.elim s fun n => (s.tcpAllocCB n).2).readCB nread

/-- Two connections with the same reads, whose buffers differ in where the bytes are. -/
structure Alike (s t : Conn) : Prop where
  results : t.results = s.results
  asked : t.asked = s.asked
  data : (t.data.map fun d => (d.len, d.explen, d.task)) = s.data.map fun d => (d.len, d.explen, d.task)

variable {s t : Conn}

theorem Alike.completes (h : s.Alike t) (nread : Int) : t.completes nread = s.completes nread := by
  have hf : ∀ u : Conn, u.completes nread =
      (u.data.map fun d => (d.len, d.explen, d.task)).bind fun v => v.2.2.bind fun ag =>
        if nread ≤ 0 ∨ v.2.1 ≤ v.1 + nread.toNat then some ag else none := by
    intro u
    cases hu : u.data <;> simp [Conn.completes, hu]
  rw [hf, hf, h.data]

theorem Alike.outstanding (h : s.Alike t) : t.outstanding = s.outstanding := by
  have hf : ∀ u : Conn, u.outstanding = (u.data.map fun d => (d.len, d.explen, d.task)).bind fun v => v.2.2 := by
    intro u
    cases hu : u.data <;> simp [Conn.outstanding, hu]
  rw [hf, hf, h.data]

theorem Alike.isNone (h : s.Alike t) : t.data.isNone = s.data.isNone := by
  have := congrArg Option.isNone h.data
  simpa using this

theorem tcpAllocCB_alike (s : Conn) (n : Nat) : s.Alike (s.tcpAllocCB n).2 := by
  unfold tcpAllocCB
  cases hd : s.data with
  | none => exact ⟨rfl, rfl, rfl⟩
  | some d =>
    obtain ⟨hl, he, ht⟩ := d.PreWrite_frame s.heap n
    exact ⟨rfl, rfl, by simp [hd, hl, he, ht]⟩

/-- The callback completes what it completes, and leaves what is outstanding or ends it. -/
theorem readCB_spec (s : Conn) (nread : Int) :
    (s.readCB nread).asked = s.asked ∧
      (s.readCB nread).completed = s.completed ++ (s.completes nread).toList ∧
      (s.readCB nread).data.isNone = s.data.isNone ∧
      ((s.readCB nread).outstanding = s.outstanding ∨
        (s.readCB nread).outstanding = none ∧ s.completes nread ≠ none) := by
  unfold readCB
  cases hd : s.data with
  | none => simp [completes, outstanding, hd]
  | some d =>
    cases ht : d.task with
    | none => simp [completes, outstanding, hd, ht]
    | some ag =>
      by_cases hn : nread ≤ 0
      · simp [completes, outstanding, completed, hd, ht, hn]
      · by_cases hl : d.explen ≤ d.len + nread.toNat
        · simp [completes, outstanding, completed, complete, Buffer.consume, hd, ht, hn, hl]
        · simp [completes, outstanding, completed, hd, ht, hn, hl]

theorem completes_outstanding {nread : Int} {ag : Nat} (h : s.completes nread = some ag) :
    s.outstanding = some ag := by
  unfold completes at h
  unfold outstanding
  cases hd : s.data with
  | none => simp [hd] at h
  | some d =>
    cases ht : d.task with
    | none => simp [hd, ht] at h
    | some ag' =>
      simp only [hd, ht, Option.bind_some, Option.ite_none_right_eq_some] at h
      simpa [ht] using h.2

/-- What a callback with `nread` does to the reads, whether it stores bytes or not. -/
structure CalledBack (s t : Conn) (nread : Int) : Prop where
  asked : t.asked = s.asked
  completed : t.completed = s.completed ++ (s.completes nread).toList
  isNone : t.data.isNone = s.data.isNone
  outstanding : t.outstanding = s.outstanding ∨ t.outstanding = none ∧ s.completes nread ≠ none

theorem Alike.calledBack (h : s.Alike t) (nread : Int) : s.CalledBack (t.readCB nread) nread := by
  obtain ⟨ha, hc, hd, ho⟩ := t.readCB_spec nread
  refine ⟨ha.trans h.asked, ?_, hd.trans h.isNone, ?_⟩
  · rw [hc, h.completes, completed, h.results]
    rfl
  · rw [h.outstanding, h.completes] at ho
    exact ho

theorem noData_calledBack (s : Conn) (suggested_size : Option Nat) (nread : Int) :
    s.CalledBack (s.noData suggested_size nread) nread := by
  cases suggested_size with
  | none => exact Alike.calledBack ⟨rfl, rfl, rfl⟩ nread
  | some n => exact (s.tcpAllocCB_alike n).calledBack nread

theorem deliver_calledBack (s : Conn) (suggested_size : Nat) (chunk : List UInt8) :
    s.CalledBack (s.deliver suggested_size chunk) chunk.length := by
  have h := s.tcpAllocCB_alike suggested_size
  exact Alike.calledBack (t := { (s.tcpAllocCB suggested_size).2 with
    heap := (s.tcpAllocCB suggested_size).2.heap.write (s.tcpAllocCB suggested_size).1.data chunk
    received := (s.tcpAllocCB suggested_size).2.received ++ chunk }) ⟨h.results, h.asked, h.data⟩ _

/-- A read job completes its read at once, or leaves it outstanding. -/
theorem readJob_spec (s : Conn) (len : Nat) :
    (s.readJob len).asked = s.asked ++ [len] ∧ (s.readJob len).data.isNone = false ∧
      ((s.readJob len).completed = s.completed ++ [s.asked.length] ∧ s.data.isNone = false ∧
          (s.readJob len).outstanding = s.outstanding ∨
        (s.readJob len).completed = s.completed ∧ (s.readJob len).outstanding = some s.asked.length) := by
  unfold readJob
  cases hd : s.data with
  | none => simp [completed, outstanding]
  | some d =>
    by_cases hl : len ≤ d.len
    · simp [completed, outstanding, complete, Buffer.consume, hd, hl]
    · simp [completed, outstanding, hl]

end Conn

/-! ## The operations of a connection -/

/-- The operations on a connection. Of those that are not reads, `calls` says for each whether its callback is still
to come, and `queued` are those on whose task `TryQueueContinuous` has been called. `reading` is whether
`uv_read_start` has succeeded. -/
structure Ops where
  calls : List Bool
  queued : List Nat
  conn : Conn
  reading : Bool

namespace Ops

/-- `ConnectAsync`, if `uv_tcp_connect` returns `re`. -/
def connectAsync (s : Ops) (re : Int) : Ops := { s with calls := s.calls ++ [decide (re = 0)] }

/-- `WriteBufAsync`, if `uv_write` returns `re`. -/
def writeBufAsync (s : Ops) (re : Int) : Ops :=
  { s with
    calls := s.calls ++ [decide (re = 0)]
    queued := if re ≠ 0 then s.queued ++ [s.calls.length] else s.queued }

/-- `CloseAsync`. `uv_close` returns nothing. -/
def closeAsync (s : Ops) : Ops := { s with calls := s.calls ++ [true] }

/-- The callback of one of these: it sets the result and completes the task, whatever the status is. -/
def callback (s : Ops) (i : Nat) : Ops := { s with calls := s.calls.set i false, queued := s.queued ++ [i] }

/-- `ReadBufAsync`. It starts reading if there is no buffer yet; `uv_read_start` returns `re` then. -/
def readBufAsync (s : Ops) (len : Nat) (re : Int) : Ops :=
  { s with
    conn := s.conn.readJob len
    reading := if s.conn.data.isNone then decide (re = 0) else s.reading }

end Ops

/-- What may happen on a connection. -/
inductive OpEvent where
  | connect (re : Int)
  | write (re : Int)
  | close
  | callback (i : Nat) (status : Int)
  | read (len : Nat) (re : Int)
  | chunk (suggested_size : Nat) (bytes : List UInt8)
  | noData (suggested_size : Option Nat) (nread : Int)
deriving DecidableEq, Repr

/-- The operations as a machine. libuv calls back once where it has not returned an error, and about reads
as often as it likes. A read is asked for when all reads before have completed. -/
def io : Machine Ops OpEvent where
  start := ⟨[], [], Conn.fresh, false⟩
  step s
    | .connect re => some (s.connectAsync re)
    | .write re => some (s.writeBufAsync re)
    | .close => some s.closeAsync
    | .callback i _ => if s.calls[i]? = some true then some (s.callback i) else none
    | .read len re =>
      if ∀ i < s.conn.asked.length, i ∈ s.conn.completed then some (s.readBufAsync len re) else none
    | .chunk suggested_size bytes =>
      if s.reading ∧ 0 < bytes.length ∧ bytes.length ≤ suggested_size then
        some { s with conn := s.conn.deliver suggested_size bytes }
      else none
    | .noData suggested_size nread =>
      if s.reading ∧ nread ≤ 0 then some { s with conn := s.conn.noData suggested_size nread } else none

/-- Nothing has completed twice, and what has not completed has its callback still to come: for a read, it is
the one that the callback will find, and libuv is reading. -/
structure Ops.Once (s : Ops) : Prop where
  queued : s.queued.Nodup
  calls : ∀ i < s.calls.length, i ∉ s.queued → s.calls[i]? = some true
  completed : s.conn.completed.Nodup
  reads : ∀ i < s.conn.asked.length, i ∉ s.conn.completed → s.conn.outstanding = some i ∧ s.reading

/-- Neither connecting nor the start of reading fails at once, and no callback completes a read that has
completed. -/
def Ops.Attends (s : Ops) : OpEvent → Prop
  | .connect re => re = 0
  | .read _ re => s.conn.data.isNone → re = 0
  | .chunk _ bytes => ∀ ag ∈ s.conn.completes bytes.length, ag ∉ s.conn.completed
  | .noData _ nread => ∀ ag ∈ s.conn.completes nread, ag ∉ s.conn.completed
  | .write _ | .close | .callback _ _ => True

/-! ## The invariant -/

/-- What holds as long as all steps meet the condition. -/
structure Ops.Inv (s : Ops) : Prop where
  once : s.Once
  called : ∀ i ∈ s.queued, s.calls[i]? = some false
  asked : ∀ i ∈ s.conn.completed, i < s.conn.asked.length
  outstanding : ∀ i ∈ s.conn.outstanding, i < s.conn.asked.length
  reading : s.conn.data.isNone = false → s.reading

namespace Ops

variable {s : Ops}

/-- One more operation that is not a read. -/
theorem Inv.call (h : s.Inv) (due : Bool) :
    Inv { s with
      calls := s.calls ++ [due]
      queued := if due then s.queued else s.queued ++ [s.calls.length] } := by
  have hlt : ∀ i ∈ s.queued, i < s.calls.length := fun i hi => (List.getElem?_eq_some_iff.mp (h.called i hi)).1
  have hnew : s.calls.length ∉ s.queued := fun hi => Nat.lt_irrefl _ (hlt _ hi)
  refine ⟨⟨?_, ?_, h.once.completed, h.once.reads⟩, ?_, h.asked, h.outstanding, h.reading⟩
  · cases due with
    | true => exact h.once.queued
    | false => exact List.Nodup.append h.once.queued (List.nodup_singleton _) (by simpa using hnew)
  · intro i hi hq
    have hi : i < s.calls.length + 1 := by simpa using hi
    cases due with
    | true =>
      by_cases hil : i < s.calls.length
      · rw [List.getElem?_append_left hil]
        exact h.once.calls i hil hq
      · obtain rfl : i = s.calls.length := by omega
        simp
    | false =>
      have hq : i ∉ s.queued ∧ i ≠ s.calls.length := by simpa using hq
      have hil : i < s.calls.length := by omega
      rw [List.getElem?_append_left hil]
      exact h.once.calls i hil hq.1
  · intro i hi
    cases due with
    | true => exact (List.getElem?_append_left (hlt i hi)).trans (h.called i hi)
    | false =>
      obtain hi | hi := List.mem_append.mp hi
      · exact (List.getElem?_append_left (hlt i hi)).trans (h.called i hi)
      · rw [List.mem_singleton.mp hi]
        simp

theorem Inv.callback (h : s.Inv) {i : Nat} (hi : s.calls[i]? = some true) : Inv (s.callback i) := by
  have hnew : i ∉ s.queued := by
    intro hq
    have := h.called i hq
    rw [hi] at this
    cases this
  have hlt : i < s.calls.length := (List.getElem?_eq_some_iff.mp hi).1
  refine ⟨⟨?_, ?_, h.once.completed, h.once.reads⟩, ?_, h.asked, h.outstanding, h.reading⟩
  · exact List.Nodup.append h.once.queued (List.nodup_singleton _) (by simpa using hnew)
  · intro j hj hq
    have hj : j < s.calls.length := by simpa [Ops.callback] using hj
    have hq : j ∉ s.queued ∧ j ≠ i := by simpa [Ops.callback] using hq
    show (s.calls.set i false)[j]? = some true
    rw [List.getElem?_set_ne (Ne.symm hq.2)]
    exact h.once.calls j hj hq.1
  · intro j hj
    show (s.calls.set i false)[j]? = some false
    by_cases hji : i = j
    · subst hji
      exact List.getElem?_set_self hlt
    · rw [List.getElem?_set_ne hji]
      obtain hj | hj := List.mem_append.mp hj
      · exact h.called j hj
      · exact absurd (List.mem_singleton.mp hj).symm hji

/-- A read, where all reads before have completed. Nobody calls back if `uv_read_start` fails. -/
theorem Inv.readBuf_iff (h : s.Inv) (hall : ∀ i < s.conn.asked.length, i ∈ s.conn.completed) (len : Nat) (re : Int) :
    ((s.readBufAsync len re).Once ↔ (s.conn.data.isNone → re = 0)) ∧
      ((s.conn.data.isNone → re = 0) → Inv (s.readBufAsync len re)) := by
  obtain ⟨ha, hd, hr⟩ := s.conn.readJob_spec len
  have hnew : s.conn.asked.length ∉ s.conn.completed := fun hi => Nat.lt_irrefl _ (h.asked _ hi)
  have hkeep : (s.conn.data.isNone → re = 0) → Inv (s.readBufAsync len re) := by
    intro hre
    have hreading : (s.readBufAsync len re).reading := by
      show (if s.conn.data.isNone then decide (re = 0) else s.reading) = true
      cases hdata : s.conn.data.isNone with
      | true => simpa using hre hdata
      | false => exact h.reading hdata
    have hlen : (s.readBufAsync len re).conn.asked.length = s.conn.asked.length + 1 := by
      show (s.conn.readJob len).asked.length = _
      rw [ha, List.length_append, List.length_singleton]
    obtain ⟨hc, -, ho⟩ | ⟨hc, ho⟩ := hr
    · refine ⟨⟨h.once.queued, h.once.calls, ?_, ?_⟩, h.called, ?_, ?_, fun _ => hreading⟩
      · show (s.conn.readJob len).completed.Nodup
        rw [hc]
        exact List.Nodup.append h.once.completed (List.nodup_singleton _) (by simpa using hnew)
      · intro i hi hnot
        have hnot : i ∉ s.conn.completed ∧ i ≠ s.conn.asked.length := by
          have : i ∉ (s.conn.readJob len).completed := hnot
          rw [hc] at this
          simpa using this
        exact absurd (hall i (by omega)) hnot.1
      · intro i hi
        have hi : i ∈ (s.conn.readJob len).completed := hi
        rw [hc] at hi
        rw [hlen]
        obtain hi | hi := List.mem_append.mp hi
        · have := h.asked i hi
          omega
        · have := List.mem_singleton.mp hi
          omega
      · intro i hi
        have hi : i ∈ (s.conn.readJob len).outstanding := hi
        rw [ho] at hi
        have := h.outstanding i hi
        omega
    · refine ⟨⟨h.once.queued, h.once.calls, ?_, ?_⟩, h.called, ?_, ?_, fun _ => hreading⟩
      · show (s.conn.readJob len).completed.Nodup
        rw [hc]
        exact h.once.completed
      · intro i hi hnot
        have hnot : i ∉ (s.conn.readJob len).completed := hnot
        rw [hc] at hnot
        refine ⟨?_, hreading⟩
        show (s.conn.readJob len).outstanding = some i
        have hge : ¬ i < s.conn.asked.length := fun hlt => hnot (hall i hlt)
        obtain rfl : i = s.conn.asked.length := by omega
        exact ho
      · intro i hi
        have hi : i ∈ (s.conn.readJob len).completed := hi
        rw [hc] at hi
        have := h.asked i hi
        omega
      · intro i hi
        have hi : i ∈ (s.conn.readJob len).outstanding := hi
        rw [ho] at hi
        have := Option.some.inj hi
        omega
  refine ⟨⟨fun hOnce hnone => ?_, fun hre => (hkeep hre).once⟩, hkeep⟩
  -- The read is the first one, so it has not completed.
  have hnot : s.conn.asked.length ∉ (s.readBufAsync len re).conn.completed := by
    show s.conn.asked.length ∉ (s.conn.readJob len).completed
    obtain ⟨-, hsome, -⟩ | ⟨hc, -⟩ := hr
    · rw [hnone] at hsome
      cases hsome
    · rw [hc]
      exact hnew
  have hlt : s.conn.asked.length < (s.readBufAsync len re).conn.asked.length := by
    show _ < (s.conn.readJob len).asked.length
    rw [ha, List.length_append, List.length_singleton]
    exact Nat.lt_succ_self _
  have hreading : (if s.conn.data.isNone then decide (re = 0) else s.reading) = true :=
    (hOnce.reads _ hlt hnot).2
  rw [hnone] at hreading
  simpa using hreading

/-- A callback about reads. -/
theorem Inv.calledBack_iff (h : s.Inv) (hreading : s.reading) {t : Conn} {nread : Int}
    (ht : s.conn.CalledBack t nread) :
    (Once { s with conn := t } ↔ ∀ ag ∈ s.conn.completes nread, ag ∉ s.conn.completed) ∧
      ((∀ ag ∈ s.conn.completes nread, ag ∉ s.conn.completed) → Inv { s with conn := t }) := by
  have hkeep : (∀ ag ∈ s.conn.completes nread, ag ∉ s.conn.completed) → Inv { s with conn := t } := by
    intro hok
    refine ⟨⟨h.once.queued, h.once.calls, ?_, ?_⟩, h.called, ?_, ?_, fun _ => hreading⟩
    · show t.completed.Nodup
      rw [ht.completed]
      refine List.Nodup.append h.once.completed ?_ ?_
      · cases s.conn.completes nread <;> simp
      · intro ag hag hc
        exact hok ag (by simpa using hc) hag
    · intro i hi hnot
      have hi : i < s.conn.asked.length := by
        have : i < t.asked.length := hi
        rwa [ht.asked] at this
      have hnot : i ∉ t.completed := hnot
      rw [ht.completed, List.mem_append, not_or] at hnot
      obtain ⟨ho, -⟩ := h.once.reads i hi hnot.1
      refine ⟨?_, hreading⟩
      show t.outstanding = some i
      -- had the callback completed the read that was outstanding, it would be this one
      obtain hsame | ⟨-, hne⟩ := ht.outstanding
      · rw [hsame, ho]
      · obtain ⟨ag, hag⟩ := Option.ne_none_iff_exists'.mp hne
        have := Conn.completes_outstanding hag
        rw [ho] at this
        obtain rfl := Option.some.inj this
        exact absurd (by simp [hag]) hnot.2
    · intro i hi
      have hi : i ∈ t.completed := hi
      rw [ht.completed] at hi
      show i < t.asked.length
      rw [ht.asked]
      obtain hi | hi := List.mem_append.mp hi
      · exact h.asked i hi
      · exact h.outstanding i (Conn.completes_outstanding (by simpa using hi))
    · intro i hi
      have hi : i ∈ t.outstanding := hi
      show i < t.asked.length
      rw [ht.asked]
      obtain hsame | ⟨hnone, -⟩ := ht.outstanding
      · exact h.outstanding i (hsame ▸ hi)
      · rw [hnone] at hi
        cases hi
  refine ⟨⟨fun hOnce ag hag hmem => ?_, fun hok => (hkeep hok).once⟩, hkeep⟩
  have hnodup : t.completed.Nodup := hOnce.completed
  rw [ht.completed, Option.mem_def.mp hag] at hnodup
  exact (List.nodup_append.mp hnodup).2.2 ag hmem ag (by simp) rfl

/-- A step leaves what it should just if it meets the condition, and then it keeps the invariant. -/
theorem Inv.step_iff (h : s.Inv) {e : OpEvent} {s' : Ops} (hs : io.step s e = some s') :
    (s'.Once ↔ s.Attends e) ∧ (s.Attends e → s'.Inv) := by
  cases e with
  | connect re =>
    obtain rfl := Option.some.inj hs
    have hkeep : re = 0 → Inv (s.connectAsync re) := by
      intro hre
      have hc := h.call true
      unfold Ops.connectAsync
      rw [decide_eq_true hre]
      exact hc
    refine ⟨⟨fun hOnce => ?_, fun hre => (hkeep hre).once⟩, hkeep⟩
    have hnew : s.calls.length ∉ s.queued := by
      intro hi
      exact Nat.lt_irrefl _ (List.getElem?_eq_some_iff.mp (h.called _ hi)).1
    have hlt : s.calls.length < (s.connectAsync re).calls.length := by simp [Ops.connectAsync]
    have hdue := hOnce.calls _ hlt hnew
    simpa [Ops.connectAsync, Ops.Attends] using hdue
  | write re =>
    obtain rfl := Option.some.inj hs
    have hkeep : Inv (s.writeBufAsync re) := by
      have hc := h.call (decide (re = 0))
      by_cases hre : re = 0
      · simpa [Ops.writeBufAsync, hre] using hc
      · simpa [Ops.writeBufAsync, hre] using hc
    exact ⟨⟨fun _ => trivial, fun _ => hkeep.once⟩, fun _ => hkeep⟩
  | close =>
    obtain rfl := Option.some.inj hs
    have hkeep : Inv s.closeAsync := h.call true
    exact ⟨⟨fun _ => trivial, fun _ => hkeep.once⟩, fun _ => hkeep⟩
  | callback i status =>
    obtain ⟨hi, hs⟩ := Option.ite_none_right_eq_some.mp hs
    obtain rfl := Option.some.inj hs
    have hkeep := h.callback hi
    exact ⟨⟨fun _ => trivial, fun _ => hkeep.once⟩, fun _ => hkeep⟩
  | read len re =>
    obtain ⟨hall, hs⟩ := Option.ite_none_right_eq_some.mp hs
    obtain rfl := Option.some.inj hs
    exact h.readBuf_iff hall len re
  | chunk suggested_size bytes =>
    obtain ⟨⟨hreading, -, -⟩, hs⟩ := Option.ite_none_right_eq_some.mp hs
    obtain rfl := Option.some.inj hs
    exact h.calledBack_iff hreading (s.conn.deliver_calledBack suggested_size bytes)
  | noData suggested_size nread =>
    obtain ⟨⟨hreading, -⟩, hs⟩ := Option.ite_none_right_eq_some.mp hs
    obtain rfl := Option.some.inj hs
    exact h.calledBack_iff hreading (s.conn.noData_calledBack suggested_size nread)

end Ops

end CalcLang.Libuv
