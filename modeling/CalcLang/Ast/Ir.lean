import Mathlib.Data.List.Basic
import Mathlib.Logic.Function.Basic

/-!
# The part of LLVM IR that numeric code is emitted in

Types, values and instructions as the code generator builds them with llir
(`s.block.NewAdd`, `NewZExt`, ...), and what they do. A block's instructions are
numbered by their position, and an instruction's result is a register of that
number. Variables and call results live in slots (`autoAlloc`, `gcmalloc`,
`stackAlloc`); a pointer value is a slot.

Integers are taken modulo `2 ^ width`. An operation that LLVM leaves undefined or
poisoned (a division by zero, a shift past the width), or that is given operands
of two widths, has no result. Floating point and calls into other code are
parameters (`Sem`).
-/

namespace CalcLang.Ast

/-- Types. `float 0`, `float 1`, `float 2` are `half`, `float`, `double`, in the
order of `types.FloatKind`. -/
inductive Ty where
  | int (width : Nat)
  | float (kind : Nat)
  | ptr (elem : Ty)
deriving DecidableEq, Repr

/-- Values: constants, the result of instruction `i`, and a variable's storage. -/
inductive Val where
  | int (width : Nat) (n : Int)
  | float (kind : Nat) (text : List Char)
  | reg (i : Nat) (ty : Ty)
  | slot (x : Nat) (elem : Ty)
deriving DecidableEq, Repr

/-- `v.Type()`. -/
def Val.ty : Val → Ty
  | .int w _ => .int w
  | .float k _ => .float k
  | .reg _ t => t
  | .slot _ t => .ptr t

@[simp] theorem Val.ty_slot (x : Nat) (t : Ty) : (Val.slot x t).ty = .ptr t := rfl

/-- Integer operations. -/
inductive IntOp where
  | add | sub | mul | sdiv | srem | shl | ashr | and | or | xor
deriving DecidableEq, Repr

/-- Floating-point operations. -/
inductive FloatOp where
  | fadd | fsub | fmul | fdiv | frem
deriving DecidableEq, Repr

/-- Comparison predicates: `IPredEQ`, `IPredNE` and the signed orders, and their
ordered floating-point counterparts. -/
inductive Pred where
  | eq | ne | gt | ge | lt | le
deriving DecidableEq, Repr

/-- Instructions. -/
inductive Inst where
  | load (elem : Ty) (p : Val)
  | store (v p : Val)
  | zext (v : Val) (width : Nat)
  | siToFP (v : Val) (kind : Nat)
  | fpExt (v : Val) (kind : Nat)
  | int (op : IntOp) (l r : Val)
  | float (op : FloatOp) (l r : Val)
  | icmp (p : Pred) (l r : Val)
  | fcmp (p : Pred) (l r : Val)
  | call (fn : Nat) (args : List Val) (ret : Ty)
deriving DecidableEq, Repr

/-- The type of an instruction's result. -/
def Inst.ty : Inst → Ty
  | .load t _ => t
  | .store v _ => v.ty
  | .zext _ w => .int w
  | .siToFP _ k | .fpExt _ k => .float k
  | .int _ l _ | .float _ l _ => l.ty
  | .icmp .. | .fcmp .. => .int 1
  | .call _ _ t => t

/-- The block being filled: its instructions, and the number of slots allocated
so far. -/
structure Blk where
  insts : List Inst
  slots : Nat
deriving DecidableEq, Repr

/-- Append an instruction; its result. -/
def Blk.emit (b : Blk) (i : Inst) : Val × Blk :=
  (.reg b.insts.length i.ty, { b with insts := b.insts ++ [i] })

/-- Allocate storage. -/
def Blk.alloc (b : Blk) (t : Ty) : Val × Blk :=
  (.slot b.slots t, { b with slots := b.slots + 1 })

/-! ## Execution -/

/-- A value at run time. -/
inductive Word (F : Type) where
  | int (width : Nat) (b : BitVec width)
  | float (kind : Nat) (x : F)
deriving DecidableEq

/-- What is left open: floating point, and what called code returns. -/
structure Sem (F : Type) where
  ofText : Nat → List Char → F
  ofInt : Nat → Int → F
  ext : Nat → F → F
  arith : FloatOp → F → F → F
  cmp : Pred → F → F → Bool
  callee : Nat → List (Word F) → Option (Word F)

/-- Registers, slots, and the calls made so far. -/
structure State (F : Type) where
  regs : List (Option (Word F))
  mem : Nat → Option (Word F)
  calls : List (Nat × List (Word F))

variable {F : Type}

/-- A value in a state. -/
def Val.eval (sem : Sem F) (s : State F) : Val → Option (Word F)
  | .int w n => some (.int w (BitVec.ofInt w n))
  | .float k t => some (.float k (sem.ofText k t))
  | .reg i _ => (s.regs[i]?).join
  | .slot .. => none

/-- Two's complement arithmetic, where LLVM defines it. -/
def IntOp.eval {w : Nat} (op : IntOp) (x y : BitVec w) : Option (BitVec w) :=
  match op with
  | .add => some (x + y)
  | .sub => some (x - y)
  | .mul => some (x * y)
  | .sdiv => if y = 0 ∨ x = BitVec.intMin w ∧ y = -1 then none else some (x.sdiv y)
  | .srem => if y = 0 ∨ x = BitVec.intMin w ∧ y = -1 then none else some (x.srem y)
  | .shl => if y.toNat < w then some (x <<< y.toNat) else none
  | .ashr => if y.toNat < w then some (x.sshiftRight y.toNat) else none
  | .and => some (x &&& y)
  | .or => some (x ||| y)
  | .xor => some (x ^^^ y)

/-- The signed comparisons. -/
def Pred.eval {w : Nat} (p : Pred) (x y : BitVec w) : Bool :=
  match p with
  | .eq => x == y
  | .ne => x != y
  | .gt => y.slt x
  | .ge => y.sle x
  | .lt => x.slt y
  | .le => x.sle y

/-- An integer operation on two words of one width. -/
def intWords (f : ∀ {w : Nat}, BitVec w → BitVec w → Option (Word F)) :
    Word F → Word F → Option (Word F)
  | .int w x, .int w' y => if h : w' = w then f x (y.cast h) else none
  | _, _ => none

/-- A floating-point operation on two words of one kind. -/
def floatWords (f : Nat → F → F → Word F) : Word F → Word F → Option (Word F)
  | .float k x, .float k' y => if k = k' then some (f k x y) else none
  | _, _ => none

namespace State

/-- The next register's value. -/
def push (s : State F) (w : Option (Word F)) : State F := { s with regs := s.regs ++ [w] }

/-- Two operands' values. -/
def eval₂ (sem : Sem F) (s : State F) (f : Word F → Word F → Option (Word F)) (l r : Val) :
    Option (State F) := do
  let x ← l.eval sem s
  let y ← r.eval sem s
  let z ← f x y
  return s.push (some z)

/-- One instruction. -/
def exec (sem : Sem F) (s : State F) : Inst → Option (State F)
  | .load _ p =>
    match p with
    | .slot x _ => (s.mem x).map fun w => s.push (some w)
    | _ => none
  | .store v p =>
    match p with
    | .slot x _ => (v.eval sem s).map fun w =>
        { s with mem := Function.update s.mem x (some w) }.push none
    | _ => none
  | .zext v w =>
    match v.eval sem s with
    | some (.int _ b) => some (s.push (some (.int w (b.setWidth w))))
    | _ => none
  | .siToFP v k =>
    match v.eval sem s with
    | some (.int _ b) => some (s.push (some (.float k (sem.ofInt k b.toInt))))
    | _ => none
  | .fpExt v k =>
    match v.eval sem s with
    | some (.float _ x) => some (s.push (some (.float k (sem.ext k x))))
    | _ => none
  | .int op l r => s.eval₂ sem (intWords fun x y => (op.eval x y).map (.int _)) l r
  | .float op l r => s.eval₂ sem (floatWords fun k x y => .float k (sem.arith op x y)) l r
  | .icmp p l r => s.eval₂ sem (intWords fun x y => some (.int 1 (.ofBool (p.eval x y)))) l r
  | .fcmp p l r =>
    s.eval₂ sem (floatWords fun _ x y => .int 1 (.ofBool (sem.cmp p x y))) l r
  | .call fn args _ => do
    let ws ← args.mapM fun v => v.eval sem s
    let w ← sem.callee fn ws
    return { s with calls := s.calls ++ [(fn, ws)] }.push (some w)

/-- Instructions one after the other. -/
def execs (sem : Sem F) : State F → List Inst → Option (State F)
  | s, [] => some s
  | s, i :: is => (s.exec sem i).bind fun s' => execs sem s' is

end State

/-- The registers of `s` are the results of the instructions of `b`. -/
def Blk.Aligned (b : Blk) (s : State F) : Prop := s.regs.length = b.insts.length

/-- Run what a piece of code generation appended to `b`: its value and the state
reached. -/
def Blk.ran (sem : Sem F) (b : Blk) (s : State F) (res : Option (Val × Blk)) :
    Option (Val × State F) := do
  let (v, b') ← res
  let s' ← State.execs sem s (b'.insts.drop b.insts.length)
  return (v, s')

/-- The value of what a piece of code generation appended to `b`. -/
def Blk.value (sem : Sem F) (b : Blk) (s : State F) (res : Option (Val × Blk)) :
    Option (Word F) := do
  let (v, s') ← b.ran sem s res
  v.eval sem s'

/-! ## Running what was appended -/

section Ran

variable {sem : Sem F} {s s' : State F} {b : Blk} {i : Inst} {v : Val} {w x y : Word F}

theorem State.execs_append (is is' : List Inst) :
    State.execs sem s (is ++ is') =
      (State.execs sem s is).bind fun s' => State.execs sem s' is' := by
  induction is generalizing s with
  | nil => rfl
  | cons i is ih =>
    simp only [List.cons_append, State.execs, Option.bind_assoc]
    exact Option.bind_congr fun s' _ => ih

private theorem State.eval₂_regs {f : Word F → Word F → Option (Word F)} {l r : Val}
    (h : s.eval₂ sem f l r = some s') : ∃ w, s'.regs = s.regs ++ [w] := by
  simp only [State.eval₂, Option.bind_eq_bind, Option.bind_eq_some_iff, Option.pure_def,
    Option.some.injEq] at h
  obtain ⟨_, _, _, _, z, _, rfl⟩ := h
  exact ⟨some z, rfl⟩

/-- An instruction adds one register. -/
theorem State.exec_regs (h : s.exec sem i = some s') : ∃ w, s'.regs = s.regs ++ [w] := by
  cases i with
  | load t p =>
    cases p with
    | slot x t' =>
      simp only [State.exec, Option.map_eq_some_iff] at h
      obtain ⟨w, _, rfl⟩ := h
      exact ⟨some w, rfl⟩
    | _ => cases h
  | store v p =>
    cases p with
    | slot x t' =>
      simp only [State.exec, Option.map_eq_some_iff] at h
      obtain ⟨w, _, rfl⟩ := h
      exact ⟨none, rfl⟩
    | _ => cases h
  | zext v w | siToFP v k | fpExt v k =>
    simp only [State.exec] at h
    split at h <;> cases h
    exact ⟨_, rfl⟩
  | int op l r | float op l r | icmp p l r | fcmp p l r => exact State.eval₂_regs h
  | call fn args t =>
    simp only [State.exec, Option.bind_eq_bind, Option.bind_eq_some_iff, Option.pure_def,
      Option.some.injEq] at h
    obtain ⟨ws, _, w, _, rfl⟩ := h
    exact ⟨some w, rfl⟩

theorem State.execs_regs {is : List Inst} (h : State.execs sem s is = some s') :
    ∃ ws, s'.regs = s.regs ++ ws ∧ ws.length = is.length := by
  induction is generalizing s with
  | nil =>
    cases h
    exact ⟨[], by simp⟩
  | cons i is ih =>
    simp only [State.execs, Option.bind_eq_some_iff] at h
    obtain ⟨s₁, h₁, h⟩ := h
    obtain ⟨w, hw⟩ := State.exec_regs h₁
    obtain ⟨ws, hws, hlen⟩ := ih h
    exact ⟨w :: ws, by simp [hws, hw], by simp [hlen]⟩

/-- What has a value keeps it. -/
theorem Val.eval_execs {is : List Inst} (h : State.execs sem s is = some s')
    (hv : v.eval sem s = some w) : v.eval sem s' = some w := by
  cases v with
  | reg j t =>
    obtain ⟨ws, hws, -⟩ := State.execs_regs h
    simp only [Val.eval] at hv ⊢
    have hlt : j < s.regs.length := by
      by_contra hge
      simp [List.getElem?_eq_none (Nat.le_of_not_lt hge)] at hv
    rw [hws, List.getElem?_append_left hlt, hv]
  | _ => exact hv

/-- From `b`, in state `s`, code was appended that runs to `s'` and leaves
variables, calls and slots alone; the value `p.1` comes out as `w`. -/
structure Blk.Computes (sem : Sem F) (b : Blk) (s : State F) (p : Val × Blk) (s' : State F)
    (w : Word F) : Prop where
  run : ∃ is, p.2.insts = b.insts ++ is ∧ State.execs sem s is = some s'
  slots : p.2.slots = b.slots
  mem : s'.mem = s.mem
  calls : s'.calls = s.calls
  eval : p.1.eval sem s' = some w

/-- A value at hand. -/
theorem Blk.Computes.refl (hv : v.eval sem s = some w) : b.Computes sem s (v, b) s w where
  run := ⟨[], by simp [State.execs]⟩
  slots := rfl
  mem := rfl
  calls := rfl
  eval := hv

/-- One instruction that only fills its register. -/
theorem Blk.Computes.emit (hb : b.Aligned s) (hi : s.exec sem i = some (s.push (some w))) :
    b.Computes sem s (b.emit i) (s.push (some w)) w where
  run := ⟨[i], rfl, by simp [State.execs, hi]⟩
  slots := rfl
  mem := rfl
  calls := rfl
  eval := by simp [Blk.emit, Val.eval, State.push, ← show s.regs.length = b.insts.length from hb]

variable {p q : Val × Blk} {s₁ s₂ : State F} {w₁ w₂ : Word F}

theorem Blk.Computes.aligned (h : b.Computes sem s p s₁ w₁) (hb : b.Aligned s) :
    p.2.Aligned s₁ := by
  obtain ⟨is, hp, hrun⟩ := h.run
  obtain ⟨ws, hws, hlen⟩ := State.execs_regs hrun
  rw [Blk.Aligned, hws, hp, List.length_append, List.length_append, hb, hlen]

/-- Values from before are kept. -/
theorem Blk.Computes.keep (h : b.Computes sem s p s₁ w₁) (hv : v.eval sem s = some w) :
    v.eval sem s₁ = some w := by
  obtain ⟨is, -, hrun⟩ := h.run
  exact Val.eval_execs hrun hv

/-- One computation after the other. -/
theorem Blk.Computes.trans (h : b.Computes sem s p s₁ w₁) (h' : p.2.Computes sem s₁ q s₂ w₂) :
    b.Computes sem s q s₂ w₂ where
  run := by
    obtain ⟨is, hp, hrun⟩ := h.run
    obtain ⟨is', hq, hrun'⟩ := h'.run
    exact ⟨is ++ is', by rw [hq, hp, List.append_assoc], by simp [State.execs_append, hrun, hrun']⟩
  slots := h'.slots.trans h.slots
  mem := h'.mem.trans h.mem
  calls := h'.calls.trans h.calls
  eval := h'.eval

/-- What `ran` and `value` make of it. -/
theorem Blk.Computes.ran (h : b.Computes sem s p s₁ w₁) :
    b.ran sem s (some p) = some (p.1, s₁) := by
  obtain ⟨is, hp, hrun⟩ := h.run
  simp [Blk.ran, hp, hrun]

theorem Blk.Computes.value (h : b.Computes sem s p s₁ w₁) :
    b.value sem s (some p) = some w₁ := by
  simp [Blk.value, h.ran, h.eval]

/-- Code appended after a computation goes on from the state it reached. -/
theorem Blk.Computes.ran_after (h : b.Computes sem s p s₁ w₁) (is : List Inst) {q : Val × Blk}
    (hq : q.2.insts = p.2.insts ++ is) :
    b.ran sem s (some q) = (State.execs sem s₁ is).map fun s' => (q.1, s') := by
  obtain ⟨is', hp, hrun⟩ := h.run
  simp only [Blk.ran, hq, hp, List.append_assoc, List.drop_left, State.execs_append, hrun,
    Option.bind_eq_bind, Option.bind_some, Option.pure_def]
  cases State.execs sem s₁ is <;> rfl

end Ran

end CalcLang.Ast
