import CalcLang.Lib.Transition
import CalcLang.Libuv.Buf

/-!
# The libuv buffer is a byte queue

Any use of one `Buffer`: bytes are appended by `Write`, or by `PreWrite` and a store to
the place it returned, and consumed as `ReadBufAsync` does. The state records what was
appended, and every region handed out with the bytes it had then.

`buffer_is_queue` says that in every state the bytes handed out so far, read where they
were handed out, followed by the bytes at `buf`, are the bytes appended. The buffer is
always in a place that no region handed out reaches into: either it has moved to
another allocation, or the region ends at or before `buf` (`Inv.below`).
-/

namespace CalcLang.Libuv.Queue

open CalcLang.Lib

variable {τ : Type}

/-- A region that a consumption handed out, and the bytes it had. -/
structure Region where
  data : Ptr
  bytes : List UInt8
deriving DecidableEq, Repr

/-- A buffer in memory, with the record of its use. -/
structure State (τ : Type) where
  heap : Heap
  buf : Buffer τ
  appended : List UInt8
  handed : List Region

/-- What can happen to the buffer. With `data` the program gets bytes of its own, which
`Write` can append. -/
inductive Op where
  | data (bytes : List UInt8)
  | Write (data : Ptr) (len : Nat)
  | PreWrite (n : Nat) (bytes : List UInt8)
  | consume (m : Nat)
deriving DecidableEq, Repr

/-- Bytes are stored where `PreWrite` said, and `len` is raised. -/
def fill (r : Ptr × Buffer τ × Heap) (bytes : List UInt8) : Buffer τ × Heap :=
  ({ r.2.1 with len := r.2.1.len + bytes.length }, r.2.2.write r.1 bytes)

namespace State

/-- One step; it goes wrong nowhere, but see `Op.InRange`. -/
def step (s : State τ) : Op → State τ
  | .data bytes =>
    let (p, h) := GC_malloc s.heap bytes.length
    { s with heap := h.write p bytes }
  | .Write data len =>
    let (b, h) := s.buf.Write s.heap data len
    { s with heap := h, buf := b, appended := s.appended ++ s.heap.read data len }
  | .PreWrite n bytes =>
    let (b, h) := fill (s.buf.PreWrite s.heap n) bytes
    { s with heap := h, buf := b, appended := s.appended ++ bytes }
  | .consume m =>
    { s with
      buf := s.buf.consume m
      handed := s.handed ++ [⟨s.buf.buf, s.heap.read s.buf.buf m⟩] }

end State

/-- `Write` gets bytes that are there, no more is stored than `PreWrite` made room for,
and no more consumed than there is. -/
def Op.InRange (s : State τ) : Op → Prop
  | .data _ => True
  | .Write src len => s.heap.InBounds src len
  | .PreWrite n bytes => bytes.length ≤ n
  | .consume m => m ≤ s.buf.len

/-- An empty `Buffer{}`. -/
def machine (explen : Nat) (task : Option τ) : Machine (State τ) Op where
  start := ⟨.empty 0, ⟨0, .nil, 0, explen, task⟩, [], []⟩
  step s op := some (s.step op)

/-! ## The invariant -/

structure Inv (s : State τ) : Prop where
  wf : s.buf.WF s.heap
  head : s.buf.buf.block < s.heap.sizes.length
  stream : s.appended = (s.handed.flatMap fun r => r.bytes) ++ s.buf.contents s.heap
  /-- A region handed out is not where the buffer goes on. -/
  below : ∀ r ∈ s.handed, r.data.block < s.heap.sizes.length ∧
    (r.data.block = s.buf.buf.block → r.data.off + r.bytes.length ≤ s.buf.buf.off)
  intact : ∀ r ∈ s.handed, s.heap.read r.data r.bytes.length = r.bytes

namespace Inv

variable {s : State τ}

theorem start (explen : Nat) (task : Option τ) : Inv (machine explen task).start where
  wf := ⟨Nat.le_refl _, fun h => absurd h (Nat.lt_irrefl 0)⟩
  head := Nat.zero_lt_one
  stream := rfl
  below := fun _ hr => absurd hr List.not_mem_nil
  intact := fun _ hr => absurd hr List.not_mem_nil

/-- The program gets memory of its own. -/
theorem gets (h : Inv s) (bytes : List UInt8) : Inv (s.step (.data bytes)) := by
  have hread : ∀ (q : Ptr) (k : Nat), q.block < s.heap.sizes.length →
      (s.step (.data bytes)).heap.read q k = s.heap.read q k := by
    intro q k hq
    show ((s.heap.alloc 0 bytes.length).2.write ⟨s.heap.sizes.length, 0⟩ bytes).read q k = _
    rw [Mem.read_write_of_apart _ (.inl (Nat.ne_of_gt hq)), Mem.read_alloc _ _ _ hq]
  have hsizes : s.heap.sizes.length < (s.step (.data bytes)).heap.sizes.length := by
    show s.heap.sizes.length < (s.heap.sizes ++ [bytes.length]).length
    rw [List.length_append]
    exact Nat.lt_succ_self _
  refine ⟨⟨h.wf.len_le, fun hpos => (h.wf.inBounds hpos).grow (List.prefix_append _ _)⟩,
    Nat.lt_trans h.head hsizes, ?_, fun r hr => ?_, fun r hr => ?_⟩
  · show s.appended = _ ++ (s.step (.data bytes)).heap.read s.buf.buf s.buf.len
    rw [hread _ _ h.head]
    exact h.stream
  · exact ⟨Nat.lt_trans (h.below r hr).1 hsizes, (h.below r hr).2⟩
  · rw [hread _ _ (h.below r hr).1]
    exact h.intact r hr

/-- **Appending**: bytes are stored where `PreWrite` said. -/
theorem fill (h : Inv s) {n : Nat} {bytes : List UInt8} (hn : bytes.length ≤ n) :
    Inv { s with
      heap := (fill (s.buf.PreWrite s.heap n) bytes).2
      buf := (fill (s.buf.PreWrite s.heap n) bytes).1
      appended := s.appended ++ bytes } := by
  have hptr := s.buf.PreWrite_ptr s.heap n
  have hlen := (s.buf.PreWrite_frame s.heap n).1
  have hbuf := s.buf.PreWrite_buf s.heap n
  have hhead := s.buf.PreWrite_head h.head n
  have hsizes := s.buf.PreWrite_sizes s.heap n
  have hread : ∀ (q : Ptr) (k : Nat), q.block < s.heap.sizes.length →
      (s.buf.PreWrite s.heap n).2.2.read q k = s.heap.read q k :=
    fun q k hq => s.buf.PreWrite_read s.heap n hq
  have hcontents := Buffer.PreWrite_contents h.wf n
  have hwf := Buffer.PreWrite_wf h.wf n
  unfold Queue.fill
  generalize s.buf.PreWrite s.heap n = r at *
  obtain ⟨p, b, heap⟩ := r
  dsimp only at *
  obtain ⟨rfl, hroom⟩ := hptr
  rw [← hlen] at hroom ⊢
  have hbelow : ∀ r ∈ s.handed, r.data.block < heap.sizes.length ∧
      (r.data.block = b.buf.block → r.data.off + r.bytes.length ≤ b.buf.off) := by
    intro r hr
    obtain ⟨hblock, hoff⟩ := h.below r hr
    refine ⟨Nat.lt_of_lt_of_le hblock hsizes, fun heq => ?_⟩
    -- the bytes go behind what is there, or to a new block
    rcases hbuf with hstay | hnew
    · rw [hstay] at heq ⊢
      exact hoff heq
    · rw [hnew] at heq
      exact absurd hblock (by rw [heq]; exact Nat.lt_irrefl _)
  refine ⟨⟨?_, fun hpos => hwf.inBounds hpos⟩, hhead, ?_, hbelow, fun r hr => ?_⟩
  · show b.len + bytes.length ≤ b.max
    omega
  · show s.appended ++ bytes = _ ++ (heap.write (b.buf.add b.len) bytes).read b.buf _
    rw [Mem.read_add, Mem.read_write_self,
      Mem.read_write_of_apart _ (.inr (.inr (Nat.le_refl _))), ← List.append_assoc, h.stream]
    congr 2
    exact hcontents.symm
  · show (heap.write (b.buf.add b.len) bytes).read _ _ = _
    obtain ⟨-, hoff⟩ := hbelow r hr
    rw [Mem.read_write_of_apart, hread _ _ (h.below r hr).1, h.intact r hr]
    by_cases hblock : r.data.block = b.buf.block
    · have := hoff hblock
      exact .inr (.inr (by simp only [Ptr.add_off]; omega))
    · exact .inl (Ne.symm hblock)

/-- `Write` appends what it is given. -/
theorem write (h : Inv s) {src : Ptr} {len : Nat} (hsrc : s.heap.InBounds src len) :
    Inv (s.step (.Write src len)) := by
  have hlength : (s.heap.read src len).length ≤ len := Nat.le_of_eq (Mem.length_read ..)
  have hfill := h.fill hlength
  have hread := s.buf.PreWrite_read s.heap len (q := src) (k := len) hsrc.block_lt
  have hlen := (s.buf.PreWrite_frame s.heap len).1
  unfold Queue.fill at hfill
  rw [Mem.length_read, ← hread, hlen] at hfill
  have hstep : s.step (.Write src len) = { s with
      heap := (s.buf.Write s.heap src len).2
      buf := (s.buf.Write s.heap src len).1
      appended := s.appended ++ s.heap.read src len } := rfl
  rw [hstep, Buffer.Write_eq, ← hread]
  exact hfill

/-- A consumption hands out the first bytes. -/
theorem consume (h : Inv s) {m : Nat} (hm : m ≤ s.buf.len) : Inv (s.step (.consume m)) := by
  refine ⟨Buffer.consume_wf h.wf hm, h.head, ?_, fun r hr => ?_, fun r hr => ?_⟩
  · show s.appended = (List.flatMap _ (s.handed ++ [_])) ++ (s.buf.consume m).contents s.heap
    rw [List.flatMap_append, List.flatMap_singleton, List.append_assoc,
      Buffer.consume_contents s.buf s.heap hm]
    exact h.stream
  · rcases List.mem_append.mp hr with hr | hr
    · obtain ⟨hblock, hoff⟩ := h.below r hr
      refine ⟨hblock, fun heq => ?_⟩
      have hle := hoff heq
      show _ ≤ s.buf.buf.off + m
      omega
    · rw [List.mem_singleton.mp hr]
      refine ⟨h.head, fun _ => ?_⟩
      show s.buf.buf.off + (s.heap.read s.buf.buf m).length ≤ s.buf.buf.off + m
      exact Nat.le_of_eq (by rw [Mem.length_read])
  · rcases List.mem_append.mp hr with hr | hr
    · exact h.intact r hr
    · rw [List.mem_singleton.mp hr]
      show s.heap.read s.buf.buf (s.heap.read s.buf.buf m).length = _
      rw [Mem.length_read]

theorem step (h : Inv s) {op : Op} (hop : op.InRange s) : Inv (s.step op) := by
  cases op with
  | data bytes => exact h.gets bytes
  | Write src len => exact h.write hop
  | PreWrite n bytes => exact h.fill hop
  | consume m => exact h.consume hop

end Inv

/-- **The buffer is a byte queue.** In every state that operations in range reach from an
empty `Buffer`, `len ≤ max` and `max` bytes from `buf` on are in one allocation; the `len`
bytes at `buf` are the bytes appended less those handed out, in order; and every region
handed out still has the bytes it had then. -/
theorem buffer_is_queue (explen : Nat) (task : Option τ) {s : State τ}
    (h : (machine explen task).Reach (fun s op => op.InRange s) s) :
    s.buf.len ≤ s.buf.max ∧ (0 < s.buf.max → s.heap.InBounds s.buf.buf s.buf.max) ∧
      s.appended = (s.handed.flatMap fun r => r.bytes) ++ s.buf.contents s.heap ∧
      ∀ r ∈ s.handed, s.heap.read r.data r.bytes.length = r.bytes := by
  have hI : Inv s := by
    apply h.invariant (P := Inv) (.start explen task)
    intro s op s' hI hop hs
    obtain rfl := Option.some.inj hs
    exact hI.step hop
  exact ⟨hI.wf.len_le, hI.wf.inBounds, hI.stream, hI.intact⟩

/-- Three bytes come in, two go out, three more do not fit any longer. -/
theorem buffer_is_queue_regrown : ∃ s : State Nat,
    (machine 0 none).exec (machine 0 none).start
        [.PreWrite 3 [1, 2, 3], .consume 2, .PreWrite 3 [4, 5, 6]] = some s ∧
      s.appended = [1, 2, 3, 4, 5, 6] ∧
      s.appended = (s.handed.flatMap fun r => r.bytes) ++ s.buf.contents s.heap := by
  have h₁ : (machine 0 (none : Option Nat)).Reach (fun s op => op.InRange s) _ :=
    .step .start (i := .PreWrite 3 [1, 2, 3]) (Nat.le_refl 3) rfl
  have h₂ : (machine 0 (none : Option Nat)).Reach (fun s op => op.InRange s) _ :=
    .step h₁ (i := .consume 2) (by decide : 2 ≤ 3) rfl
  have h₃ : (machine 0 (none : Option Nat)).Reach (fun s op => op.InRange s) _ :=
    .step h₂ (i := .PreWrite 3 [4, 5, 6]) (Nat.le_refl 3) rfl
  exact ⟨_, rfl, rfl, (buffer_is_queue 0 none h₃).2.2.1⟩

end CalcLang.Libuv.Queue
