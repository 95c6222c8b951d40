import CalcLang.Lib.Transition
import CalcLang.Libuv.Buf

/-!
# Reading from a TCP connection

`ReadBufAsync` of `runtime/libuv/tcp.calc`: a read job and a read callback that
share one `Buffer` per connection and run one at a time on the loop thread. The
job either takes buffered bytes at once or leaves its task in the buffer for the
callback to complete; the callback is always preceded by `tcpAllocCB`, which
tells libuv where to put the chunk.

The connection is a machine whose labels are the events (`read n`, a chunk).
`returned` is read from memory in the *current* state, not when a read
completed, so the statements below also say that a buffer once handed out is
never overwritten.

The callback gives up before it has counted the bytes of a chunk when no task is
pending (`data.task==nil`), so such a chunk is overwritten by the next one:
`unread_chunk_lost`. As long as every chunk finds a read outstanding, nothing is
lost, duplicated or reordered: `reads_exact`.
-/

namespace CalcLang.Libuv

open CalcLang.Lib

/-- `Buf`: what a completed read hands out. -/
structure Buf where
  Data : Ptr
  Len : Nat
deriving DecidableEq, Repr

/-- `UVBuf`, as `tcpAllocCB` fills it in. -/
structure UVBuf where
  data : Ptr
  len : Nat
deriving DecidableEq, Repr

/-- One connection. `data` is what `get_tcp_data` returns; a read's task is
named by the number of reads asked for before it. `asked`, `results` (the
`SetResult`/`TryQueueContinuous` pairs performed, in order) and `received` are
what an observer has seen. -/
structure Conn where
  heap : Heap
  data : Option (Buffer Nat)
  asked : List Nat
  results : List (Nat × Buf)
  received : List UInt8

namespace Conn

/-- `tcpAllocCB`. -/
def tcpAllocCB (s : Conn) (suggested_size : Nat) : UVBuf × Conn :=
  match s.data with
  | none => (⟨.nil, 0⟩, s)
  | some data =>
    let (p, data, heap) := data.PreWrite s.heap suggested_size
    (⟨p, suggested_size⟩, { s with heap := heap, data := some data })

/-- Complete the read `ag` with the first `n` buffered bytes and consume them. -/
def complete (s : Conn) (ag : Nat) (data : Buffer Nat) (n : Nat) : Conn :=
  { s with
    data := some (data.consume n)
    results := s.results ++ [(ag, ⟨data.buf, n⟩)] }

/-- The job `ReadBufAsync` queues on the loop thread, for a read of `len`. -/
def readJob (s : Conn) (len : Nat) : Conn :=
  let ag := s.asked.length
  let s := { s with asked := s.asked ++ [len] }
  match s.data with
  | some data =>
    if data.len ≥ len then s.complete ag data len
    else { s with data := some { data with task := some ag, explen := len } }
  | none => { s with data := some ⟨0, .nil, 0, len, some ag⟩ }

/-- The read callback. -/
def readCB (s : Conn) (nread : Int) : Conn :=
  match s.data with
  | none => s
  | some data =>
    match data.task with
    | none => s
    | some ag1 =>
      if nread ≤ 0 then
        { s with results := s.results ++ [(ag1, ⟨data.buf, data.len⟩)] }
      else
        let data := { data with len := data.len + nread.toNat }
        if data.len ≥ data.explen then s.complete ag1 { data with task := none } data.explen
        else { s with data := some data }

/-- libuv delivers a chunk: it asks for a buffer, stores the bytes from its
start, and calls back with their number. -/
def deliver (s : Conn) (suggested_size : Nat) (chunk : List UInt8) : Conn :=
  let (b, s) := s.tcpAllocCB suggested_size
  { s with
    heap := s.heap.write b.data chunk
    received := s.received ++ chunk }.readCB chunk.length

/-- The read that is waiting for bytes, if any. -/
def outstanding (s : Conn) : Option Nat := s.data.bind (·.task)

/-- The bytes handed to completed reads, as they are in memory now. -/
def returned (s : Conn) : List UInt8 :=
  s.results.flatMap fun r => s.heap.read r.2.Data r.2.Len

end Conn

/-- The events of a connection. -/
inductive Event where
  | read (n : Nat)
  | chunk (suggested_size : Nat) (bytes : List UInt8)
deriving DecidableEq, Repr

/-- A connection before its first read. -/
def Conn.fresh : Conn := ⟨Mem.empty 0, none, [], [], []⟩

/-- A connection as a machine. A read asks for at least one byte and is issued
only when none is outstanding; chunks arrive once `uv_read_start` has been
called, which the first read does, and fit the buffer libuv was given. -/
def tcp : Machine Conn Event where
  start := Conn.fresh
  step s
    | .read n => if 0 < n ∧ s.outstanding = none then some (s.readJob n) else none
    | .chunk suggested bytes =>
      if s.data.isSome ∧ 0 < bytes.length ∧ bytes.length ≤ suggested then
        some (s.deliver suggested bytes)
      else none

/-- Every completed read of `n` returned `n` bytes, and the bytes returned so
far are the first bytes received. -/
structure Conn.Exact (s : Conn) : Prop where
  lengths : ∀ r ∈ s.results, s.asked[r.1]? = some r.2.Len
  inOrder : s.returned <+: s.received

/-- A chunk arrives only while a read is outstanding. -/
def Attended (s : Conn) : Event → Prop
  | .read _ => True
  | .chunk _ _ => s.outstanding ≠ none

instance (s : Conn) (e : Event) : Decidable (Attended s e) := by
  cases e <;> simp only [Attended] <;> infer_instance

/-! ## The invariant -/

/-- What a connection's buffer `d` owes to the reads completed so far: they are
numbered in the order they were asked, their regions lie below the buffer's
head, and what those hold, followed by the unread bytes, is everything
received. -/
structure Conn.Core (s : Conn) (d : Buffer Nat) : Prop where
  wf : d.WF s.heap
  head : d.buf.block < s.heap.sizes.length
  numbered : s.results.map Prod.fst = List.range s.results.length
  lengths : s.results.map (fun r => r.2.Len) = s.asked.take s.results.length
  regions : ∀ r ∈ s.results, r.2.Data.block < s.heap.sizes.length ∧
    (r.2.Data.block ≠ d.buf.block ∨ r.2.Data.off + r.2.Len ≤ d.buf.off)
  stream : s.received = s.returned ++ d.contents s.heap

/-- The connection invariant: `Core`, and the buffer's task is the one read
that was asked and has no result yet, still short of its bytes. -/
def Conn.Inv (s : Conn) : Prop :=
  match s.data with
  | none => s.asked = [] ∧ s.results = [] ∧ s.received = [] ∧ 0 < s.heap.sizes.length
  | some d => s.Core d ∧
    match d.task with
    | none => s.asked.length = s.results.length
    | some ag => ag = s.results.length ∧ s.asked.length = ag + 1 ∧
        s.asked[ag]? = some d.explen ∧ d.len < d.explen

namespace Conn

variable {s : Conn} {d : Buffer Nat}

/-- Completing the next read keeps the core: its region is the part of the
buffer that its consumption gives up. -/
theorem Core.complete (h : s.Core d) {n : Nat} (hn : n ≤ d.len)
    (hask : s.asked[s.results.length]? = some n) :
    (s.complete s.results.length d n).Core (d.consume n) where
  wf := Buffer.consume_wf h.wf hn
  head := h.head
  numbered := by
    simp only [Conn.complete, List.map_append, List.map_cons, List.map_nil, List.length_append,
      List.length_singleton, List.range_succ, h.numbered]
  lengths := by
    simp only [Conn.complete, List.map_append, List.map_cons, List.map_nil, List.length_append,
      List.length_singleton, List.take_add_one, hask, h.lengths, Option.toList_some]
  regions := by
    intro r hr
    rcases List.mem_append.mp hr with hr | hr
    · obtain ⟨hblk, hap⟩ := h.regions r hr
      refine ⟨hblk, hap.imp id fun hle => ?_⟩
      simp only [Buffer.consume, Ptr.add_off]
      omega
    · obtain rfl := List.mem_singleton.mp hr
      exact ⟨h.head, Or.inr (Nat.le_refl _)⟩
  stream := by
    have hsplit := d.consume_contents s.heap hn
    simp only [Conn.complete, returned, List.flatMap_append, List.flatMap_cons, List.flatMap_nil,
      List.append_nil, List.append_assoc, hsplit]
    exact h.stream

/-- A further request changes nothing about the reads completed so far. -/
theorem Core.ask (h : s.Core d) (len : Nat) :
    ({ s with asked := s.asked ++ [len] } : Conn).Core d where
  wf := h.wf
  head := h.head
  numbered := h.numbered
  lengths := by
    have hle : s.results.length ≤ s.asked.length := by
      have := congrArg List.length h.lengths
      simp only [List.length_map, List.length_take] at this
      omega
    simp only [List.take_append_of_le_length hle, h.lengths]
  regions := h.regions
  stream := h.stream

/-- The core does not look at the pending task. -/
theorem Core.setTask (h : s.Core d) (e : Nat) (t : Option Nat) :
    s.Core { d with explen := e, task := t } :=
  ⟨⟨h.wf.len_le, h.wf.inBounds⟩, h.head, h.numbered, h.lengths, h.regions, h.stream⟩

/-- Replacing the connection's own record of its buffer changes no other field. -/
theorem Core.setData (h : s.Core d) (o : Option (Buffer Nat)) :
    ({ s with data := o } : Conn).Core d :=
  ⟨h.wf, h.head, h.numbered, h.lengths, h.regions, h.stream⟩

end Conn

/-- Storing a chunk where `PreWrite` says keeps the core, with the chunk
appended to the unread bytes. This is the step that could overwrite a region
already handed out: such a region is either in another block or below the head. -/
theorem Conn.Core.store {s : Conn} {d : Buffer Nat} (h : s.Core d) {len : Nat}
    {chunk : List UInt8} (hlen : chunk.length ≤ len) {p : Ptr} {d' : Buffer Nat} {heap' : Heap}
    (hp : d.PreWrite s.heap len = (p, d', heap')) :
    ({ s with
        heap := heap'.write p chunk
        received := s.received ++ chunk } : Conn).Core
      { d' with len := d'.len + chunk.length } := by
  have hptr := d.PreWrite_ptr s.heap len
  have hframe := d.PreWrite_frame s.heap len
  have hbuf := d.PreWrite_buf s.heap len
  have hhead := d.PreWrite_head h.head len
  have hsz := d.PreWrite_sizes s.heap len
  have hread := fun q k => d.PreWrite_read s.heap len (q := q) (k := k)
  have hcont := Buffer.PreWrite_contents h.wf len
  have hwf := Buffer.PreWrite_wf h.wf len
  rw [hp] at hptr hframe hbuf hhead hsz hread hcont hwf
  dsimp only at hptr hframe hbuf hhead hsz hread hcont hwf
  obtain ⟨rfl, hroom⟩ := hptr
  obtain ⟨hl, -, -⟩ := hframe
  rw [← hl] at hroom ⊢
  -- a region handed out is apart from where the chunk goes
  have hregions : ∀ r ∈ s.results, r.2.Data.block < s.heap.sizes.length ∧
      (r.2.Data.block ≠ d'.buf.block ∨ r.2.Data.off + r.2.Len ≤ d'.buf.off) := by
    intro r hr
    obtain ⟨hblk, hap⟩ := h.regions r hr
    refine ⟨hblk, ?_⟩
    rcases hbuf with hb | hb
    · rw [hb]; exact hap
    · left; rw [hb]; exact Nat.ne_of_lt hblk
  have hkept : ∀ r ∈ s.results,
      (heap'.write (d'.buf.add d'.len) chunk).read r.2.Data r.2.Len
        = s.heap.read r.2.Data r.2.Len := by
    intro r hr
    obtain ⟨hblk, hap⟩ := hregions r hr
    rw [Mem.read_write_of_apart, hread _ _ hblk]
    rcases hap with hb | hle
    · exact Or.inl (Ne.symm hb)
    · right; right
      simp only [Ptr.add_off]
      omega
  refine ⟨⟨by simp only; omega, hwf.inBounds⟩, hhead, h.numbered, h.lengths, ?_, ?_⟩
  · intro r hr
    obtain ⟨hblk, hap⟩ := hregions r hr
    exact ⟨Nat.lt_of_lt_of_le hblk hsz, hap⟩
  · have hret : s.results.flatMap (fun r =>
          (heap'.write (d'.buf.add d'.len) chunk).read r.2.Data r.2.Len) = s.returned :=
      List.flatMap_congr hkept
    have hunread : (heap'.write (d'.buf.add d'.len) chunk).read d'.buf (d'.len + chunk.length)
        = d.contents s.heap ++ chunk := by
      rw [Mem.read_add, Mem.read_write_self, ← hcont,
        Mem.read_write_of_apart _ (Or.inr (Or.inr (Nat.le_refl _)))]
      rfl
    simp only [returned, Buffer.contents]
    rw [hret, hunread, h.stream, List.append_assoc]

namespace Conn

variable {s : Conn}

/-- A read job keeps the invariant. -/
theorem readJob_inv (h : s.Inv) (hout : s.outstanding = none) {n : Nat} (hn : 0 < n) :
    (s.readJob n).Inv := by
  unfold readJob
  dsimp only
  cases hd : s.data with
  | none =>
    simp only [Inv, hd] at h ⊢
    obtain ⟨hask, hres, hrec, hsz⟩ := h
    refine ⟨⟨⟨Nat.le_refl _, fun hpos => absurd hpos (by simp)⟩, hsz, ?_, ?_, ?_, ?_⟩, ?_⟩
    all_goals simp [hask, hres, hrec, returned, Buffer.contents, hn]
  | some d =>
    have hnone : d.task = none := by simpa [outstanding, hd] using hout
    simp only [Inv, hd, hnone] at h
    obtain ⟨hcore, hlen⟩ := h
    have hget : (s.asked ++ [n])[s.results.length]? = some n := by
      rw [← hlen, List.getElem?_concat_length]
    dsimp only
    split
    next hge =>
      have hc := (hcore.ask n).complete hge hget
      simp only [Inv, complete, Buffer.consume, hnone] at hc ⊢
      rw [hlen]
      exact ⟨hc.setData _, by simp [hlen]⟩
    next hlt =>
      have hc := (hcore.ask n).setTask n (some s.asked.length)
      simp only [Inv]
      exact ⟨hc.setData _, hlen, by simp, by rw [hlen]; exact hget, Nat.lt_of_not_le hlt⟩

/-- A chunk that finds a read outstanding keeps the invariant. -/
theorem deliver_inv (h : s.Inv) (hout : s.outstanding ≠ none) {len : Nat} {chunk : List UInt8}
    (hpos : 0 < chunk.length) (hlen : chunk.length ≤ len) : (s.deliver len chunk).Inv := by
  cases hd : s.data with
  | none => simp [outstanding, hd] at hout
  | some d =>
    obtain ⟨ag, hag⟩ : ∃ ag, d.task = some ag := by
      simpa [outstanding, hd, Option.ne_none_iff_exists'] using hout
    simp only [Inv, hd, hag] at h
    obtain ⟨hcore, rfl, hask, hget, hshort⟩ := h
    obtain ⟨p, d', heap', hp⟩ : ∃ p d' heap', d.PreWrite s.heap len = (p, d', heap') := ⟨_, _, _, rfl⟩
    have hstore := hcore.store hlen hp
    obtain ⟨hl, he, ht⟩ := d.PreWrite_frame s.heap len
    simp only [hp] at hl he ht
    have hnp : ¬ (chunk.length : Int) ≤ 0 := by omega
    simp only [deliver, tcpAllocCB, hd, hp, readCB, ht, hag, if_neg hnp, Int.toNat_natCast]
    split
    next hge =>
      have hc := ((hstore.setTask d'.explen none).setData (some d')).complete
        (n := d'.explen) hge (by rw [he]; exact hget)
      simp only [Inv, complete, Buffer.consume] at hc ⊢
      exact ⟨hc.setData _, by simp [hask]⟩
    next hlt =>
      simp only [Inv]
      exact ⟨(hstore.setTask d'.explen (some s.results.length)).setData _, trivial, hask,
        by rw [he]; exact hget, by omega⟩

/-- The invariant is what the claim about completed reads needs. -/
theorem Inv.exact (h : s.Inv) : s.Exact := by
  cases hd : s.data with
  | none =>
    simp only [Inv, hd] at h
    obtain ⟨-, hres, -, -⟩ := h
    exact ⟨by simp [hres], by simp [returned, hres]⟩
  | some d =>
    simp only [Inv, hd] at h
    obtain ⟨hcore, -⟩ := h
    refine ⟨?_, ⟨_, hcore.stream.symm⟩⟩
    intro r hr
    obtain ⟨i, hi, rfl⟩ := List.getElem_of_mem hr
    have hnum : s.results[i].1 = i := by
      have := congrArg (·[i]?) hcore.numbered
      simpa [hi] using this
    have hlen := congrArg (·[i]?) hcore.lengths
    simp only [List.getElem?_map, List.getElem?_eq_getElem hi, Option.map_some,
      List.getElem?_take_of_lt hi] at hlen
    rw [hnum, ← hlen]

end Conn

/-- One event of an attended run keeps the invariant. -/
theorem tcp_step_inv (s : Conn) (e : Event) (s' : Conn) (h : s.Inv) (hok : Attended s e)
    (hstep : tcp.step s e = some s') : s'.Inv := by
  cases e with
  | read n =>
    simp only [tcp, Option.ite_none_right_eq_some, Option.some.injEq] at hstep
    obtain ⟨⟨hn, hout⟩, rfl⟩ := hstep
    exact Conn.readJob_inv h hout hn
  | chunk suggested bytes =>
    simp only [tcp, Option.ite_none_right_eq_some, Option.some.injEq] at hstep
    obtain ⟨⟨-, hpos, hlen⟩, rfl⟩ := hstep
    exact Conn.deliver_inv h hok hpos hlen

/-- **Reads are exact** in every run in which each chunk finds a read
outstanding: a completed read of `n` returned `n` bytes, and the bytes returned,
as memory holds them now, are the first bytes received. -/
theorem reads_exact (s : Conn) (h : tcp.Reach Attended s) : s.Exact :=
  (h.invariant (P := Conn.Inv) (by simp [tcp, Conn.fresh, Conn.Inv, Mem.empty])
    tcp_step_inv).exact

/-- One read of one byte, served by one chunk. -/
theorem reads_exact_one_read :
    ((Conn.fresh.readJob 1).deliver 4 [7]).Exact :=
  reads_exact _ (.step (i := .chunk 4 [7]) (.step (i := .read 1) .start trivial rfl)
    (by decide) rfl)

/-- The second chunk arrives between two reads; the callback returns before it
has counted it, the third chunk overwrites it, and the second read returns the
third chunk's byte. -/
theorem unread_chunk_lost : ¬ ∀ s, tcp.Reach (fun _ _ => True) s → s.Exact := by
  intro h
  have hrun : (tcp.exec tcp.start
      [.read 1, .chunk 4 [1], .chunk 4 [2], .read 1, .chunk 4 [3]]).any
      (fun s => s.returned = [1, 3] ∧ s.received = [1, 2, 3]) = true := by decide
  obtain ⟨s, hs, hlost⟩ := (Option.any_eq_true _ _).mp hrun
  obtain ⟨hret, hrec⟩ := of_decide_eq_true hlost
  have hpre := (h s (Machine.Reach.start.exec hs)).inOrder
  rw [hret, hrec] at hpre
  exact absurd hpre (by decide)

end CalcLang.Libuv
