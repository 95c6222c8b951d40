import CalcLang.Lib.Memory

/-!
# The libuv read buffer

`runtime/libuv/buf.calc`: a growable byte buffer with a moving head. `buf`
points at the unread bytes, `len` of them are filled, and `max` cells from
`buf` on belong to the buffer's allocation. Consuming bytes moves `buf` up and
shrinks `max`, so regions already handed out stay below `buf` in the same
block; growing opens a new block.

The fields follow the source. Its `int` counters are `Nat` here: every
subtraction the source performs on them is guarded by a comparison.
-/

namespace CalcLang.Libuv

open CalcLang.Lib

/-- `Buffer`; `τ` is the type of the pending read's task. -/
structure Buffer (τ : Type) where
  max : Nat
  buf : Ptr
  len : Nat
  explen : Nat
  task : Option τ
deriving DecidableEq, Repr

/-- The byte memory the runtime allocates from; `GC_malloc` clears what it
hands out. -/
abbrev Heap := Mem UInt8

/-- `GC_malloc`. -/
def GC_malloc (h : Heap) (n : Nat) : Ptr × Heap := h.alloc 0 n

namespace Buffer

variable {τ : Type}

/-- `Buffer.PreWrite`: make room for `len` more bytes and return the address
they go to. The old allocation is kept when it is large enough. -/
def PreWrite (b : Buffer τ) (h : Heap) (len : Nat) : Ptr × Buffer τ × Heap :=
  if len + b.len > b.max then
    let (newbuf, h₁) := GC_malloc h (len + b.len)
    let h₂ := if b.len > 0 then h₁.copy newbuf b.buf b.len else h₁
    (newbuf.add b.len, { b with max := len + b.len, buf := newbuf }, h₂)
  else
    (b.buf.add b.len, b, h)

/-- `Buffer.Write`. -/
def Write (b : Buffer τ) (h : Heap) (data : Ptr) (len : Nat) : Buffer τ × Heap :=
  if len + b.len > b.max then
    let (newbuf, h₁) := GC_malloc h (len + b.len)
    let h₂ := h₁.copy newbuf b.buf b.len
    let h₃ := h₂.copy (newbuf.add b.len) data len
    ({ b with max := len + b.len, len := len + b.len, buf := newbuf }, h₃)
  else
    ({ b with len := len + b.len }, h.copy (b.buf.add b.len) data len)

/-- What consuming `n` bytes does to the buffer: both places of
`ReadBufAsync` that complete a read perform these three updates. -/
def consume (b : Buffer τ) (n : Nat) : Buffer τ :=
  { b with buf := b.buf.add n, len := b.len - n, max := b.max - n }

/-- The bytes received and not yet consumed. -/
def contents (b : Buffer τ) (h : Heap) : List UInt8 := h.read b.buf b.len

/-- A buffer is well formed when its `max` cells lie in one allocation and its
filled part fits. An empty `Buffer{}` has no allocation yet. -/
structure WF (b : Buffer τ) (h : Heap) : Prop where
  len_le : b.len ≤ b.max
  inBounds : 0 < b.max → h.InBounds b.buf b.max

/-! ## `PreWrite` -/

variable {b : Buffer τ} {h : Heap}

/-- Where `PreWrite` writes next, and that it leaves room for `len` bytes. -/
theorem PreWrite_ptr (b : Buffer τ) (h : Heap) (len : Nat) :
    (b.PreWrite h len).1 = (b.PreWrite h len).2.1.buf.add b.len ∧
      len + b.len ≤ (b.PreWrite h len).2.1.max := by
  unfold PreWrite
  split
  next => exact ⟨rfl, Nat.le_refl _⟩
  next hle => exact ⟨rfl, Nat.le_of_not_lt hle⟩

/-- `PreWrite` moves only `max` and `buf`. -/
theorem PreWrite_frame (b : Buffer τ) (h : Heap) (len : Nat) :
    (b.PreWrite h len).2.1.len = b.len ∧
      (b.PreWrite h len).2.1.explen = b.explen ∧
      (b.PreWrite h len).2.1.task = b.task := by
  unfold PreWrite
  split <;> exact ⟨rfl, rfl, rfl⟩

/-- The buffer never moves to a lower position of the allocation order: either
it stays where it is or it goes to a block no region handed out so far is in. -/
theorem PreWrite_buf (b : Buffer τ) (h : Heap) (len : Nat) :
    (b.PreWrite h len).2.1.buf = b.buf ∨
      (b.PreWrite h len).2.1.buf = ⟨h.sizes.length, 0⟩ := by
  unfold PreWrite
  split
  next => exact Or.inr rfl
  next => exact Or.inl rfl

/-- `PreWrite` only ever adds blocks. -/
theorem PreWrite_sizes (b : Buffer τ) (h : Heap) (len : Nat) :
    h.sizes.length ≤ (b.PreWrite h len).2.2.sizes.length := by
  unfold PreWrite GC_malloc
  split
  next =>
    dsimp only
    split <;> simp
  next => exact Nat.le_refl _

/-- The head stays in an opened block. -/
theorem PreWrite_head (b : Buffer τ) {h : Heap} (hb : b.buf.block < h.sizes.length) (len : Nat) :
    (b.PreWrite h len).2.1.buf.block < (b.PreWrite h len).2.2.sizes.length := by
  unfold PreWrite GC_malloc
  split
  next =>
    dsimp only
    split <;> simp
  next => exact hb

/-- No region of a block that existed before is changed by `PreWrite`. -/
theorem PreWrite_read (b : Buffer τ) (h : Heap) (len : Nat) {q : Ptr} {k : Nat}
    (hq : q.block < h.sizes.length) : (b.PreWrite h len).2.2.read q k = h.read q k := by
  unfold PreWrite GC_malloc
  split
  next =>
    dsimp only
    split
    next =>
      rw [Mem.read_copy_of_apart _ (Or.inl (by simp only [Mem.alloc_ptr]; omega)),
        Mem.read_alloc _ _ _ hq]
    next => exact Mem.read_alloc _ _ _ hq
  next => rfl

/-- `PreWrite` keeps the unread bytes, wherever they now are. -/
theorem PreWrite_contents (hwf : b.WF h) (len : Nat) :
    (b.PreWrite h len).2.1.contents (b.PreWrite h len).2.2 = b.contents h := by
  unfold PreWrite GC_malloc contents
  split
  next =>
    dsimp only
    split
    next hpos =>
      have hblk := (hwf.inBounds (by have := hwf.len_le; omega)).block_lt
      rw [Mem.read_copy_self, Mem.read_alloc _ _ _ hblk]
    next hpos =>
      have : b.len = 0 := by omega
      rw [this]
      simp
  next => rfl

/-- `PreWrite` keeps the buffer well formed. -/
theorem PreWrite_wf (hwf : b.WF h) (len : Nat) :
    (b.PreWrite h len).2.1.WF (b.PreWrite h len).2.2 := by
  unfold PreWrite GC_malloc
  split
  next =>
    refine ⟨Nat.le_add_left _ _, fun _ => ?_⟩
    dsimp only
    have hnew := Mem.inBounds_alloc h 0 (len + b.len)
    split
    next => exact hnew
    next => exact hnew
  next => exact hwf

/-- `Write` is `PreWrite` and a copy to the place it returns. -/
theorem Write_eq (b : Buffer τ) (h : Heap) (data : Ptr) (len : Nat) :
    b.Write h data len = ({ (b.PreWrite h len).2.1 with len := b.len + len },
      (b.PreWrite h len).2.2.copy (b.PreWrite h len).1 data len) := by
  unfold Write PreWrite
  rw [Nat.add_comm b.len len]
  split
  · dsimp only
    split
    · rfl
    · -- the copy that `PreWrite` leaves out is one of no bytes
      rename_i hempty
      rw [show b.len = 0 by omega, Mem.copy_zero]
  · rfl

/-! ## Consumption -/

/-- Consuming filled bytes keeps the buffer well formed. -/
theorem consume_wf (hwf : b.WF h) {n : Nat} (hn : n ≤ b.len) : (b.consume n).WF h := by
  have hle := hwf.len_le
  refine ⟨Nat.sub_le_sub_right hle n, fun hpos => ?_⟩
  simp only [consume] at hpos ⊢
  exact (hwf.inBounds (by omega)).drop (by omega)

/-- The bytes consumed and the bytes left are the bytes there were. -/
theorem consume_contents (b : Buffer τ) (h : Heap) {n : Nat} (hn : n ≤ b.len) :
    h.read b.buf n ++ (b.consume n).contents h = b.contents h := by
  simp only [consume, contents]
  rw [← Mem.read_add, Nat.add_sub_cancel' hn]

end Buffer

end CalcLang.Libuv
