import Mathlib.Data.List.Basic

/-!
# Block memory

Memory as a family of blocks: a pointer is a block number and an offset, an
allocation opens a new block, and no assumption is made on where blocks lie, so
two regions are disjoint exactly when they are in different blocks or their
offset ranges do not meet. This is the layout-free reading of a C heap under
pointer arithmetic *inside* one allocation.

The cell type is arbitrary. Bounds are kept as data (`sizes`), so that "the
access is inside one allocation" is a statement about the model rather than a
side condition of its operations.
-/

namespace CalcLang.Lib

/-- A pointer: a block and an offset in it. Block `0` is never allocated; its
offset `0` is the nil pointer. -/
structure Ptr where
  block : Nat
  off : Nat
deriving DecidableEq, Repr

namespace Ptr

/-- The nil pointer. -/
def nil : Ptr := ⟨0, 0⟩

/-- Pointer arithmetic inside a block. -/
def add (p : Ptr) (n : Nat) : Ptr := ⟨p.block, p.off + n⟩

@[simp] theorem add_block (p : Ptr) (n : Nat) : (p.add n).block = p.block := rfl
@[simp] theorem add_off (p : Ptr) (n : Nat) : (p.add n).off = p.off + n := rfl
@[simp] theorem add_zero (p : Ptr) : p.add 0 = p := rfl

end Ptr

/-- A memory: the size of every block opened so far, and the cells. -/
structure Mem (β : Type*) where
  sizes : List Nat
  cell : Nat → Nat → β

namespace Mem

variable {β : Type*}

/-- The empty memory: only the reserved block `0`, of size `0`. -/
def empty (z : β) : Mem β := ⟨[0], fun _ _ => z⟩

/-- Open a new block of `n` cells, all `z`. -/
def alloc (m : Mem β) (z : β) (n : Nat) : Ptr × Mem β :=
  (⟨m.sizes.length, 0⟩,
    { sizes := m.sizes ++ [n]
      cell := fun b o => if b = m.sizes.length then z else m.cell b o })

/-- The `n` cells from `p` on. -/
def read (m : Mem β) (p : Ptr) (n : Nat) : List β :=
  (List.range n).map fun i => m.cell p.block (p.off + i)

/-- Store `bs` from `p` on. -/
def write (m : Mem β) (p : Ptr) (bs : List β) : Mem β :=
  { m with cell := fun b o =>
      if b = p.block ∧ p.off ≤ o then bs.getD (o - p.off) (m.cell b o) else m.cell b o }

/-- `memcpy`: the source is read before the destination is written. -/
def copy (m : Mem β) (dst src : Ptr) (n : Nat) : Mem β := m.write dst (m.read src n)

/-- The `n` cells from `p` on lie inside one allocation. -/
def InBounds (m : Mem β) (p : Ptr) (n : Nat) : Prop :=
  ∃ sz, m.sizes[p.block]? = some sz ∧ p.off + n ≤ sz

/-- The regions `(p, m)` and `(q, n)` share no cell. -/
def Apart (p : Ptr) (m : Nat) (q : Ptr) (n : Nat) : Prop :=
  p.block ≠ q.block ∨ p.off + m ≤ q.off ∨ q.off + n ≤ p.off

@[simp] theorem length_read (m : Mem β) (p : Ptr) (n : Nat) : (m.read p n).length = n := by
  simp [read]

@[simp] theorem read_zero (m : Mem β) (p : Ptr) : m.read p 0 = [] := rfl

/-- A read splits at any offset. -/
theorem read_add (m : Mem β) (p : Ptr) (a b : Nat) :
    m.read p (a + b) = m.read p a ++ m.read (p.add a) b := by
  simp only [read, List.range_add, List.map_append, List.map_map, Ptr.add_block, Ptr.add_off]
  congr 1
  apply List.map_congr_left
  intro i _
  simp [Nat.add_assoc]

/-- Elements `i` to `j` of what is read are read from the `i`-th cell on. -/
theorem read_sub (m : Mem β) (p : Ptr) {i j n : Nat} (hij : i ≤ j) (hjn : j ≤ n) :
    m.read (p.add i) (j - i) = ((m.read p n).take j).drop i := by
  obtain ⟨k, rfl⟩ := Nat.exists_eq_add_of_le hij
  obtain ⟨l, rfl⟩ := Nat.exists_eq_add_of_le hjn
  rw [read_add, read_add, List.take_left' (by simp), List.drop_left' (by simp),
    Nat.add_sub_cancel_left]

/-- One cell of what is read. -/
theorem getElem?_read (m : Mem β) (p : Ptr) {i n : Nat} (h : i < n) :
    (m.read p n)[i]? = some (m.cell p.block (p.off + i)) := by
  simp [read, h]

/-- Two memories that agree on a region read the same there. -/
theorem read_congr {m m' : Mem β} {p : Ptr} {n : Nat}
    (h : ∀ i, i < n → m'.cell p.block (p.off + i) = m.cell p.block (p.off + i)) :
    m'.read p n = m.read p n := by
  apply List.map_congr_left
  intro i hi
  exact h i (List.mem_range.mp hi)

/-! ## Writes -/

@[simp] theorem sizes_write (m : Mem β) (p : Ptr) (bs : List β) :
    (m.write p bs).sizes = m.sizes := rfl

/-- A write is read back. -/
theorem read_write_self (m : Mem β) (p : Ptr) (bs : List β) :
    (m.write p bs).read p bs.length = bs := by
  apply List.ext_getElem
  · simp
  · intro i h₁ h₂
    simp [read, write, List.getD_eq_getElem?_getD, List.getElem?_eq_getElem h₂]

/-- One cell at the end of what is read. -/
theorem read_write_snoc (m : Mem β) (p : Ptr) (n : Nat) (b : β) :
    (m.write (p.add n) [b]).read p (n + 1) = (m.write (p.add n) [b]).read p n ++ [b] := by
  rw [read_add]
  congr 1
  exact read_write_self m (p.add n) [b]

/-- A write is not seen in a region apart from it. -/
theorem read_write_of_apart (m : Mem β) {p q : Ptr} {bs : List β} {n : Nat}
    (h : Apart p bs.length q n) : (m.write p bs).read q n = m.read q n := by
  apply read_congr
  intro i hi
  simp only [write]
  split
  next hc =>
    have hout : ¬ q.off + i - p.off < bs.length := by
      rcases h with hb | hlo | hhi
      · exact absurd hc.1.symm hb
      · omega
      · omega
    rw [List.getD_eq_getElem?_getD, List.getElem?_eq_none (by omega), Option.getD_none]
  next => rfl

/-- A write of one cell changes that element of what is read. -/
theorem read_write_set (m : Mem β) (p : Ptr) (i n : Nat) (b : β) :
    (m.write (p.add i) [b]).read p n = (m.read p n).set i b := by
  apply List.ext_getElem
  · simp
  · intro k h₁ h₂
    rw [List.getElem_set]
    simp only [read, write, Ptr.add_block, Ptr.add_off, List.getElem_map, List.getElem_range,
      true_and]
    by_cases hik : i = k
    · subst hik
      simp
    · rw [if_neg hik]
      split
      next hle =>
        rw [List.getD_eq_getElem?_getD, List.getElem?_eq_none, Option.getD_none]
        simp only [List.length_singleton]
        omega
      next => rfl

@[simp] theorem sizes_copy (m : Mem β) (dst src : Ptr) (n : Nat) :
    (m.copy dst src n).sizes = m.sizes := rfl

/-- Copying nothing changes nothing. -/
@[simp] theorem copy_zero (m : Mem β) (dst src : Ptr) : m.copy dst src 0 = m := by
  unfold copy write
  congr 1
  funext b o
  split <;> rfl

/-- `memcpy` puts the source's cells at the destination. -/
theorem read_copy_self (m : Mem β) (dst src : Ptr) (n : Nat) :
    (m.copy dst src n).read dst n = m.read src n := by
  have h := read_write_self m dst (m.read src n)
  rwa [length_read] at h

/-- `memcpy` changes nothing apart from its destination. -/
theorem read_copy_of_apart (m : Mem β) {dst src q : Ptr} {n k : Nat} (h : Apart dst n q k) :
    (m.copy dst src n).read q k = m.read q k :=
  read_write_of_apart m (by rwa [length_read])

/-! ## Allocation -/

@[simp] theorem alloc_ptr (m : Mem β) (z : β) (n : Nat) :
    (m.alloc z n).1 = ⟨m.sizes.length, 0⟩ := rfl

@[simp] theorem alloc_sizes (m : Mem β) (z : β) (n : Nat) :
    (m.alloc z n).2.sizes = m.sizes ++ [n] := rfl

/-- An allocation changes no block opened before it. -/
theorem read_alloc (m : Mem β) (z : β) (n : Nat) {q : Ptr} {k : Nat}
    (h : q.block < m.sizes.length) : (m.alloc z n).2.read q k = m.read q k := by
  apply read_congr
  intro i _
  show (if q.block = m.sizes.length then z else m.cell q.block (q.off + i)) = _
  rw [if_neg (by omega)]

/-- The new block is in bounds over its whole size. -/
theorem inBounds_alloc (m : Mem β) (z : β) (n : Nat) :
    (m.alloc z n).2.InBounds (m.alloc z n).1 n :=
  ⟨n, by simp, by simp⟩

theorem InBounds.block_lt {m : Mem β} {p : Ptr} {n : Nat} (h : m.InBounds p n) :
    p.block < m.sizes.length := by
  obtain ⟨sz, hsz, _⟩ := h
  exact (List.getElem?_eq_some_iff.mp hsz).1

/-- A memory with more blocks keeps the bounds of the old ones. -/
theorem InBounds.grow {m m' : Mem β} {p : Ptr} {n : Nat} (h : m.InBounds p n)
    (hm : m.sizes <+: m'.sizes) : m'.InBounds p n := by
  obtain ⟨sz, hsz, hle⟩ := h
  obtain ⟨ext, hext⟩ := hm
  refine ⟨sz, ?_, hle⟩
  rw [← hext, List.getElem?_append_left (List.getElem?_eq_some_iff.mp hsz).1]
  exact hsz

/-- A suffix of an in-bounds region is in bounds. -/
theorem InBounds.drop {m : Mem β} {p : Ptr} {n : Nat} (h : m.InBounds p n) {k : Nat}
    (hk : k ≤ n) : m.InBounds (p.add k) (n - k) := by
  obtain ⟨sz, hsz, hle⟩ := h
  exact ⟨sz, hsz, by simp only [Ptr.add_off]; omega⟩

end Mem

end CalcLang.Lib
