import CalcLang.Lib.Links
import CalcLang.Lib.Object

/-!
# The linked list

`runtime/linkedlist/linkedlist.calc`: a doubly linked list of nodes with a
separate length counter. A node is known by its address, nil is `none`, and
every access goes through `deref`, so an operation that follows a nil pointer
has no result. A node that is removed stays where it is and keeps its links:
the collector may or may not find it, and `Pop` reads its value after that.

`len` is an `int` that counts nodes that are all in memory at once; it is an
`Int` here.

The abstract layer is `Deque`: a sequence of values, each under the handle it got
when it was inserted, so that "remove this node" is an operation of the sequence.
`linkedlist_refines_deque` connects the two for every sequence of operations.
-/

namespace CalcLang.Linkedlist

open CalcLang.Lib

variable {τ : Type}

/-- The address of a node: how many were allocated before it. -/
abbrev Addr := Nat

/-- `Node`. -/
structure Node (τ : Type) where
  val : τ
  next : Option Addr
  prev : Option Addr
deriving DecidableEq, Repr

/-- `List`. -/
structure LinkedList where
  first : Option Addr
  tail : Option Addr
  len : Int
deriving DecidableEq, Repr

/-- The nodes allocated so far, and the list. -/
structure Store (τ : Type) where
  nodes : List (Node τ)
  li : LinkedList
deriving DecidableEq, Repr

/-! ## Memory -/

namespace Store

/-- The node a pointer points at. -/
def deref (s : Store τ) (p : Option Addr) : Option (Node τ) := p.bind fun n => s.nodes[n]?

/-- `&Node<T>{val:t}`. -/
def alloc (s : Store τ) (t : τ) : Addr × Store τ :=
  (s.nodes.length, { s with nodes := s.nodes ++ [⟨t, none, none⟩] })

/-- The node at `n` changes by `f`. -/
def modify (s : Store τ) (n : Addr) (f : Node τ → Node τ) : Store τ :=
  { s with nodes := s.nodes.modify n f }

/-- `p.next = q`. -/
def setNext (s : Store τ) (p q : Option Addr) : Option (Store τ) :=
  p.bind fun n =>
    if n < s.nodes.length then some (s.modify n fun nd => { nd with next := q }) else none

/-- `p.prev = q`. -/
def setPrev (s : Store τ) (p q : Option Addr) : Option (Store τ) :=
  p.bind fun n =>
    if n < s.nodes.length then some (s.modify n fun nd => { nd with prev := q }) else none

/-! ## The operations -/

/-- `New`, in a memory that may hold other nodes. -/
def New (nodes : List (Node τ)) : Store τ := ⟨nodes, ⟨none, none, 0⟩⟩

/-- `UnShift`. -/
def UnShift (s : Store τ) (t : τ) : Option (Store τ) := do
  let s := { s with li.len := s.li.len + 1 }
  let (n, s) := s.alloc t
  if s.li.first = none then
    some { s with li.first := some n, li.tail := some n }
  else
    let s ← s.setNext (some n) s.li.first
    let s ← s.setPrev s.li.first (some n)
    some { s with li.first := some n }

/-- `Push`. -/
def Push (s : Store τ) (t : τ) : Option (Store τ) := do
  let s := { s with li.len := s.li.len + 1 }
  let (n, s) := s.alloc t
  if s.li.first = none then
    some { s with li.first := some n, li.tail := some n }
  else
    let s ← s.setNext s.li.tail (some n)
    let s ← s.setPrev (some n) s.li.tail
    some { s with li.tail := some n }

/-- `Len`. -/
def Len (s : Store τ) : Int := s.li.len

/-- The loop of `IndexOp`: the node reached when `i`, which every turn raises by
one, has `k` still to go to `index`. -/
def walk (s : Store τ) : Nat → Option Addr → Option (Option Addr)
  | 0, n => some n
  | k + 1, n => do
    let nd ← s.deref n
    s.walk k nd.next

/-- `IndexOp`. A negative index is never met by `i`, so the loop runs off the
end of the list. -/
def IndexOp (s : Store τ) (index : Int) : Option τ :=
  if 0 ≤ index then do
    let n ← s.walk index.toNat s.li.first
    let nd ← s.deref n
    some nd.val
  else none

/-- `remove`. -/
def remove (s : Store τ) (n : Option Addr) : Option (Store τ) := do
  let s := { s with li.len := s.li.len - 1 }
  let nd ← s.deref n
  if nd.prev = none ∧ nd.next = none then
    some { s with li.first := none, li.tail := none }
  else if nd.prev = none then
    let s := { s with li.first := nd.next }
    s.setPrev nd.next none
  else if nd.next = none then
    let s := { s with li.tail := nd.prev }
    s.setNext s.li.tail none
  else
    let s ← s.setNext nd.prev nd.next
    let nd ← s.deref n
    s.setPrev nd.next nd.prev

/-- `Shift`. -/
def Shift (s : Store τ) : Option (τ × Store τ) := do
  let n := s.li.first
  let nd ← s.deref n
  let s ← s.remove n
  some (nd.val, s)

/-- `Pop`. -/
def Pop (s : Store τ) : Option (τ × Store τ) := do
  let n := s.li.tail
  let s ← s.remove n
  let nd ← s.deref n
  some (nd.val, s)

end Store

/-- The operations on a list. -/
inductive Op (τ : Type) where
  | Push (t : τ)
  | UnShift (t : τ)
  | Shift
  | Pop
  | remove (n : Addr)
  | Len
  | IndexOp (index : Int)
deriving DecidableEq, Repr

/-- What they return. -/
inductive Ret (τ : Type) where
  | void
  | val (t : τ)
  | len (n : Int)
deriving DecidableEq, Repr

/-- The list as the runtime implements it. -/
def list (τ : Type) : Object (Store τ) (Op τ) (Ret τ) where
  call s
    | .Push t => (s.Push t).map fun s => (.void, s)
    | .UnShift t => (s.UnShift t).map fun s => (.void, s)
    | .Shift => s.Shift.map fun (t, s) => (.val t, s)
    | .Pop => s.Pop.map fun (t, s) => (.val t, s)
    | .remove n => (s.remove (some n)).map fun s => (.void, s)
    | .Len => some (.len s.Len, s)
    | .IndexOp index => (s.IndexOp index).map fun t => (.val t, s)

/-! ## The abstract sequence -/

/-- A double-ended queue. Each value stands under the handle it got when it was
inserted; `fresh` is the next handle. -/
structure Deque (τ : Type) where
  fresh : Nat
  items : List (Nat × τ)
deriving DecidableEq, Repr

/-- The handles, in order. -/
def Deque.handles (d : Deque τ) : List Nat := d.items.map Prod.fst

/-- What the operations do to the sequence: `Shift` and `Pop` need an element,
`remove` one of the sequence's own, and `IndexOp` an index in range. -/
def deque (τ : Type) : Object (Deque τ) (Op τ) (Ret τ) where
  call d
    | .Push t => some (.void, ⟨d.fresh + 1, d.items ++ [(d.fresh, t)]⟩)
    | .UnShift t => some (.void, ⟨d.fresh + 1, (d.fresh, t) :: d.items⟩)
    | .Shift => d.items.head?.map fun x => (.val x.2, { d with items := d.items.tail })
    | .Pop => d.items.getLast?.map fun x => (.val x.2, { d with items := d.items.dropLast })
    | .remove n =>
      if n ∈ d.handles then
        some (.void, { d with items := d.items.eraseP fun x => x.1 = n })
      else none
    | .Len => some (.len d.items.length, d)
    | .IndexOp index =>
      if 0 ≤ index then d.items[index.toNat]?.map fun x => (.val x.2, d) else none

end CalcLang.Linkedlist
