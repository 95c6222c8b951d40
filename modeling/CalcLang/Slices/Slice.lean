import CalcLang.Lib.Memory
import CalcLang.Lib.Transition
import Mathlib.Algebra.Group.Int.Defs
import Mathlib.Algebra.Group.Nat.Defs

/-!
# Slices

`runtime/slice/slice.calc`: a slice is a head pointer with a length and a capacity.
Several slices can look at one allocation, and two of them can overlap in it.

Memory is counted in elements: where the source multiplies a count by `sizeof<T>()`,
which is 64-bit arithmetic on the size of memory that is in use, the model has the
count. The `int32` fields are `Int` with every result brought back into range by
`int32`, so that a length or a capacity that does not fit shows.

A state holds the memory and the records of all slices made so far; a slice is known by
its place in that list. What an operation needs of its arguments is `Op.InRange`.
-/

namespace CalcLang.Slices

open CalcLang.Lib

variable {τ : Type}

/-- What is left of a number in an `int32`. -/
def int32 (n : Int) : Int := n.bmod (2 ^ 32)

theorem int32_of_lt {n : Int} (h0 : 0 ≤ n) (h : n < 2 ^ 31) : int32 n = n := by
  unfold int32
  rw [Int.bmod_eq_of_le (by omega) (by omega)]

/-- `_gep`. -/
def gep (p : Ptr) (i : Int) : Ptr := ⟨p.block, (p.off + i).toNat⟩

theorem gep_of_nonneg {p : Ptr} {i : Int} (h : 0 ≤ i) : gep p i = p.add i.toNat := by
  unfold gep Ptr.add
  congr
  omega

/-- `Slice`. -/
structure Slice where
  thead : Ptr
  len : Int
  cap : Int
deriving DecidableEq, Repr

/-- `NewSlice`. -/
def NewSlice : Slice := ⟨.nil, 0, 0⟩

/-- `GC_malloc`, of cleared memory. -/
def GC_malloc (z : τ) (m : Mem τ) (n : Int) : Ptr × Mem τ := m.alloc z n.toNat

namespace Slice

/-- `IndexOp`. -/
def IndexOp (arr : Slice) (m : Mem τ) (index : Int) : τ :=
  let g := gep arr.thead index
  m.cell g.block g.off

/-- `IndexSetOp`. -/
def IndexSetOp (arr : Slice) (m : Mem τ) (index : Int) (i : τ) : Mem τ :=
  m.write (gep arr.thead index) [i]

/-- The branch of `Push` without room: twice the capacity in a new place. -/
def grow (z : τ) (m : Mem τ) (arr : Slice) : Slice × Mem τ :=
  let arr := if arr.cap = 0 then { arr with cap := 2 } else arr
  let (mem, m) := GC_malloc z m (2 * arr.cap)
  let head := arr.thead
  let arr := { arr with thead := mem }
  let m := if head ≠ .nil then m.copy mem head arr.len.toNat else m
  ({ arr with cap := int32 (2 * arr.cap) }, m)

/-- `Push`. It calls itself after it has made room; `n` bounds the calls. -/
def Push (z : τ) : Nat → Slice → Mem τ → τ → Option (Slice × Mem τ)
  | 0, _, _, _ => none
  | n + 1, arr, m, t =>
    if arr.cap > arr.len then
      some ({ arr with len := int32 (arr.len + 1) }, m.write (gep arr.thead arr.len) [t])
    else
      let (arr, m) := grow z m arr
      Push z n arr m t

/-- `Append`. -/
def Append (z : τ) (m : Mem τ) (arr arr2 : Slice) : Slice × Mem τ :=
  if int32 (arr.len + arr2.len) = 0 then (NewSlice, m)
  else
    let (mem, m) := GC_malloc z m (int32 (arr.len + arr2.len))
    let thead := mem
    let (mem, m) :=
      if arr.thead ≠ .nil then (gep thead arr.len, m.copy mem arr.thead arr.len.toNat)
      else (mem, m)
    let m := if arr2.thead ≠ .nil then m.copy mem arr2.thead arr2.len.toNat else m
    let cap := int32 (arr.len + arr2.len)
    (⟨thead, cap, cap⟩, m)

/-- `Slice`. -/
def slice (arr : Slice) (start stop : Int) : Slice :=
  ⟨gep arr.thead start, int32 (stop - start), int32 (arr.cap - start)⟩

end Slice

/-- `FromArr`. -/
def FromArr (head : Ptr) (len : Int) : Slice := ⟨head, len, len⟩

/-! ## Programs that use slices -/

/-- The memory and the slices made so far. -/
structure State (τ : Type) where
  mem : Mem τ
  slices : List Slice

/-- What a program does: it makes arrays and slices, and uses them. -/
inductive Op (τ : Type) where
  | array (xs : List τ)
  | NewSlice
  | FromArr (head : Ptr) (len : Int)
  | Push (a : Nat) (t : τ)
  | IndexOp (a : Nat) (index : Int)
  | IndexSetOp (a : Nat) (index : Int) (t : τ)
  | Slice (a : Nat) (start stop : Int)
  | Append (a b : Nat)
deriving DecidableEq, Repr

namespace State

/-- A new slice. -/
def add (s : State τ) (arr : Slice) : State τ := { s with slices := s.slices ++ [arr] }

/-- Perform an operation. -/
def step (z : τ) (n : Nat) (s : State τ) : Op τ → Option (State τ)
  | .array xs =>
    let (p, m) := s.mem.alloc z xs.length
    some { s with mem := m.write p xs }
  | .NewSlice => some (s.add NewSlice)
  | .FromArr head len => some (s.add (FromArr head len))
  | .Push a t => do
    let arr ← s.slices[a]?
    let (arr, m) ← arr.Push z n s.mem t
    some ⟨m, s.slices.set a arr⟩
  | .IndexOp a _ => do
    let _ ← s.slices[a]?
    some s
  | .IndexSetOp a index t => do
    let arr ← s.slices[a]?
    some { s with mem := arr.IndexSetOp s.mem index t }
  | .Slice a start stop => do
    let arr ← s.slices[a]?
    some (s.add (arr.slice start stop))
  | .Append a b => do
    let arr ← s.slices[a]?
    let arr2 ← s.slices[b]?
    let (newarr, m) := Slice.Append z s.mem arr arr2
    some { mem := m, slices := s.slices ++ [newarr] }

/-- What `IndexOp` returns. -/
def index (s : State τ) (a : Nat) (i : Int) : Option τ :=
  s.slices[a]?.map fun arr => arr.IndexOp s.mem i

/-- The elements of a slice. -/
def contents (s : State τ) (a : Nat) : List τ :=
  match s.slices[a]? with
  | none => []
  | some arr => s.mem.read arr.thead arr.len.toNat

end State

/-- The arguments are in range, and the result has fewer than 2³⁰ elements. -/
def Op.InRange (s : State τ) : Op τ → Prop
  | .array _ | .NewSlice => True
  | .FromArr head len => 0 ≤ len ∧ len < 2 ^ 30 ∧ s.mem.InBounds head len.toNat
  | .Push a _ => ∃ arr, s.slices[a]? = some arr ∧ arr.len + 1 < 2 ^ 30
  | .IndexOp a index | .IndexSetOp a index _ =>
    ∃ arr, s.slices[a]? = some arr ∧ 0 ≤ index ∧ index < arr.len
  | .Slice a start stop =>
    ∃ arr, s.slices[a]? = some arr ∧ 0 ≤ start ∧ start ≤ stop ∧ stop ≤ arr.len
  | .Append a b =>
    ∃ arr arr2, s.slices[a]? = some arr ∧ s.slices[b]? = some arr2 ∧
      arr.len + arr2.len < 2 ^ 30

/-- The operation writes to slice `a`. -/
def Op.Writes (a : Nat) : Op τ → Prop
  | .Push a' _ | .IndexSetOp a' _ _ => a' = a
  | _ => False

/-- A program starts with nothing but cleared memory to come. `n` bounds how often `Push`
calls itself. -/
def machine (z : τ) (n : Nat) : Machine (State τ) (Op τ) where
  start := ⟨.empty z, []⟩
  step := State.step z n

end CalcLang.Slices
