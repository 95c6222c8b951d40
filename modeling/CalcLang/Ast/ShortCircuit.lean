import Mathlib.Data.List.Basic
import Mathlib.Tactic.Basic

/-!
# Logical operators: `BoolExpNode.calc`

`BoolExpNode.calc` (`compiler/ast/cond.go`) emits the instructions of its left operand, those of
its right operand, and an `and` or an `or` of the two values. It makes no blocks and no
branches. Where an operand makes some of its own (an `await` does), all the ways through them
come together before the next instruction, so the code of an expression is one sequence.

`Short` is what is asked of a logical operator: an instruction of the right operand begins only
on executions on which the left one has come out the way that the other one matters. As the
instructions are there unconditionally, this holds if the right operand has none, or if the
left operand never comes out the other way (`short_iff`). What the code computes is the same
with both operands evaluated, and that is `calc_exec`: the way from the code to `eval`, in which
the condition is stated.

Instructions other than those of the four nodes are a parameter, the machine: each of them may
read the results in front of it and change the state, and it has a result or fails.
-/

namespace CalcLang.Ast

/-- `TYPE_AND` and `TYPE_OR`. -/
inductive BoolOp where
  | and | or
  deriving DecidableEq, Repr

def BoolOp.apply : BoolOp → Bool → Bool → Bool
  | .and, l, r => l && r
  | .or, l, r => l || r

/-- The value of the left operand with which the right one matters. -/
def BoolOp.goesOn : BoolOp → Bool
  | .and => true
  | .or => false

/-- A boolean expression: `BoolConstNode`, `NotNode`, `BoolExpNode`, and any other, a comparison, a
variable, a call, with the expressions in it that are evaluated first. Its last instruction
gives its value. -/
inductive BNode (ι : Type) where
  | const (val : Bool)
  | notN (bool : BNode ι)
  | boolExp (op : BoolOp) (left right : BNode ι)
  | other (operands : List (BNode ι)) (code : List ι) (last : ι)

/-- A value: a constant, or the result of an instruction, by its number. -/
inductive BVal where
  | const (b : Bool)
  | reg (k : Nat)
  deriving DecidableEq, Repr

/-- An instruction. -/
inductive BInst (ι : Type) where
  | own (i : ι)
  | icmpFalse (v : BVal)
  | bool (op : BoolOp) (l r : BVal)
  deriving DecidableEq, Repr

variable {ι σ : Type}

mutual

/-- `calc`, behind the instructions `c`: the value, and all instructions. -/
def BNode.calc : BNode ι → List (BInst ι) → BVal × List (BInst ι)
  | .const val, c => (.const val, c)
  | .notN bool, c =>
    let (v, c) := bool.calc c
    (.reg c.length, c ++ [.icmpFalse v])
  | .boolExp op left right, c =>
    let (l, c) := left.calc c
    let (r, c) := right.calc c
    (.reg c.length, c ++ [.bool op l r])
  | .other operands code last, c =>
    let c := calcOperands operands c ++ code.map .own
    (.reg c.length, c ++ [.own last])

def calcOperands : List (BNode ι) → List (BInst ι) → List (BInst ι)
  | [], c => c
  | e :: es, c => calcOperands es (e.calc c).2

end

/-! ## Executions -/

/-- What an instruction of the rest of the language does, given the results so far and the
state: a new state and a result, or nothing if it fails. -/
abbrev Machine (ι σ : Type) := ι → List Bool → σ → Option (σ × Bool)

/-- The results so far, and the state. -/
abbrev Store (σ : Type) := List Bool × σ

def BVal.get (regs : List Bool) : BVal → Bool
  | .const b => b
  | .reg k => regs.getD k false

def Store.push (st : Store σ) (b : Bool) : Store σ := (st.1 ++ [b], st.2)

variable (m : Machine ι σ)

def BInst.step : BInst ι → Store σ → Option (Store σ)
  | .own i, st => (m i st.1 st.2).map fun r => (st.1 ++ [r.2], r.1)
  | .icmpFalse v, st => some (st.push (!v.get st.1))
  | .bool op l r, st => some (st.push (op.apply (l.get st.1) (r.get st.1)))

/-- All instructions, one after the other. -/
def exec (c : List (BInst ι)) (st : Store σ) : Option (Store σ) :=
  c.foldlM (fun st i => i.step m st) st

/-- The store in which the instruction number `k` of the code begins. -/
def Begins (c : List (BInst ι)) (k : Nat) (st : Store σ) : Prop :=
  k < c.length ∧ ∃ s, exec m (c.take k) ([], s) = some st

/-! ## What is asked -/

/-- A logical operator in the code: its left value, and the instructions of its right operand,
from the first to the one behind the last. -/
structure Operator where
  op : BoolOp
  left : BVal
  first : Nat
  behind : Nat
  deriving DecidableEq

mutual

/-- The logical operators of an expression that is compiled behind `c`. -/
def BNode.operators : BNode ι → List (BInst ι) → List Operator
  | .const _, _ => []
  | .notN bool, c => bool.operators c
  | .boolExp op left right, c =>
    left.operators c ++ right.operators (left.calc c).2 ++
      [⟨op, (left.calc c).1, (left.calc c).2.length, (right.calc (left.calc c).2).2.length⟩]
  | .other operands _ _, c => operatorsOf operands c

def operatorsOf : List (BNode ι) → List (BInst ι) → List Operator
  | [], _ => []
  | e :: es, c => e.operators c ++ operatorsOf es (e.calc c).2

end

/-- No instruction of a right operand begins but where the left operand lets it matter. -/
def Short (e : BNode ι) (c : List (BInst ι)) : Prop :=
  ∀ o ∈ e.operators c, ∀ k st, o.first ≤ k → k < o.behind → Begins m (e.calc c).2 k st →
    o.left.get st.1 = o.op.goesOn

/-! ## Expressions with both operands evaluated -/

/-- Instructions of the machine. -/
def execOwn (code : List ι) (st : Store σ) : Option (Store σ) := exec m (code.map .own) st

mutual

/-- The value of an expression, and the store behind it. Each node but a constant has a result. -/
def BNode.eval : BNode ι → Store σ → Option (Store σ × Bool)
  | .const val, st => some (st, val)
  | .notN bool, st => (bool.eval st).map fun x => (x.1.push (!x.2), !x.2)
  | .boolExp op left right, st =>
    (left.eval st).bind fun l =>
      (right.eval l.1).map fun r => (r.1.push (op.apply l.2 r.2), op.apply l.2 r.2)
  | .other operands code last, st =>
    (evalOperands operands st).bind fun st =>
      (execOwn m code st).bind fun st =>
        (m last st.1 st.2).map fun r => ((st.1 ++ [r.2], r.1), r.2)

def evalOperands : List (BNode ι) → Store σ → Option (Store σ)
  | [], st => some st
  | e :: es, st => (e.eval st).bind fun x => evalOperands es x.1

end

/-- A constant: the one expression without instructions. -/
def BNode.isConst : BNode ι → Bool
  | .const _ => true
  | _ => false

mutual

/-- Where evaluation may start in the stores `S`: the right operand of every logical operator is
a constant, or its left operand comes out the way it matters. -/
def BNode.Guarded : BNode ι → (Store σ → Prop) → Prop
  | .const _, _ => True
  | .notN bool, S => bool.Guarded S
  | .boolExp op left right, S =>
    left.Guarded S ∧
    right.Guarded (fun st' => ∃ st b, S st ∧ left.eval m st = some (st', b)) ∧
    (right.isConst = true ∨ ∀ st st' b, S st → left.eval m st = some (st', b) → b = op.goesOn)
  | .other operands _ _, S => GuardedAll operands S

def GuardedAll : List (BNode ι) → (Store σ → Prop) → Prop
  | [], _ => True
  | e :: es, S =>
    e.Guarded S ∧ GuardedAll es (fun st' => ∃ st b, S st ∧ e.eval m st = some (st', b))

end

/-- The stores behind the instructions `c`, from any state. -/
def Behind (c : List (BInst ι)) (st : Store σ) : Prop := ∃ s, exec m c ([], s) = some st

/-! ## Sequences of instructions -/

section Exec

variable {m} {c d : List (BInst ι)} {st st' : Store σ}

theorem exec_append (c d : List (BInst ι)) (st : Store σ) :
    exec m (c ++ d) st = (exec m c st).bind fun st => exec m d st :=
  List.foldlM_append

theorem exec_cons (i : BInst ι) (c : List (BInst ι)) (st : Store σ) :
    exec m (i :: c) st = (i.step m st).bind fun st => exec m c st :=
  List.foldlM_cons

theorem exec_singleton (i : BInst ι) (st : Store σ) : exec m [i] st = i.step m st := by
  rw [exec_cons]
  exact Option.bind_fun_some _

/-- An instruction adds its result. -/
theorem step_grows {i : BInst ι} (h : i.step m st = some st') : ∃ b, st'.1 = st.1 ++ [b] := by
  cases i with
  | own i =>
    obtain ⟨r, -, hr⟩ := Option.map_eq_some_iff.mp h
    exact ⟨r.2, by rw [← hr]⟩
  | icmpFalse v => exact ⟨_, by rw [← Option.some.inj h]; rfl⟩
  | bool op l r => exact ⟨_, by rw [← Option.some.inj h]; rfl⟩

/-- Results stay, and each instruction has one. -/
theorem exec_grows (h : exec m c st = some st') :
    ∃ bs, st'.1 = st.1 ++ bs ∧ bs.length = c.length := by
  induction c generalizing st with
  | nil =>
    obtain rfl : st = st' := Option.some.inj h
    exact ⟨[], (List.append_nil _).symm, rfl⟩
  | cons i c ih =>
    rw [exec_cons, Option.bind_eq_some_iff] at h
    obtain ⟨st₁, hstep, hrest⟩ := h
    obtain ⟨b, hb⟩ := step_grows hstep
    obtain ⟨bs, hbs, hlen⟩ := ih hrest
    exact ⟨b :: bs, by rw [hbs, hb, List.append_assoc]; rfl, by rw [List.length_cons, hlen]; rfl⟩

end Exec

/-! ## Values -/

/-- The value is known when there are `n` results. -/
def BVal.Below (n : Nat) : BVal → Prop
  | .const _ => True
  | .reg k => k < n

theorem BVal.get_append {v : BVal} {regs : List Bool} (h : v.Below regs.length) (bs : List Bool) :
    v.get (regs ++ bs) = v.get regs := by
  cases v with
  | const b => rfl
  | reg k =>
    have hk : k < regs.length := h
    rw [get, get, List.getD_eq_getElem?_getD, List.getElem?_append_left hk,
      List.getD_eq_getElem?_getD]

theorem BVal.get_last (regs : List Bool) (b : Bool) : (BVal.reg regs.length).get (regs ++ [b]) = b := by
  simp [get]

/-! ## The code computes the expression -/

/-- What `calc` of `e` behind `c` has to do. -/
structure Computes (e : BNode ι) (c d : List (BInst ι)) : Prop where
  code : (e.calc c).2 = c ++ d
  below : (e.calc c).1.Below (c ++ d).length
  exec : ∀ st : Store σ, st.1.length = c.length →
    Ast.exec m d st = (e.eval m st).map Prod.fst
  value : ∀ st : Store σ, st.1.length = c.length → ∀ st' b, e.eval m st = some (st', b) →
    (e.calc c).1.get st'.1 = b

section Compile

variable {m}

theorem Computes.length {e : BNode ι} {c d : List (BInst ι)} (h : Computes m e c d) {st st' : Store σ}
    {b : Bool} (hst : st.1.length = c.length) (heval : e.eval m st = some (st', b)) :
    ∃ bs, st'.1 = st.1 ++ bs ∧ st'.1.length = (c ++ d).length := by
  have hexec := h.exec st hst
  rw [heval] at hexec
  obtain ⟨bs, hbs, hlen⟩ := exec_grows hexec
  exact ⟨bs, hbs, by rw [hbs, List.length_append, List.length_append, hlen, hst]⟩

mutual

/-- The code of an expression computes its value, both operands evaluated. -/
theorem BNode.computes (m : Machine ι σ) : ∀ (e : BNode ι) (c : List (BInst ι)),
    ∃ d, Computes m e c d
  | .const val, c => by
    refine ⟨[], (List.append_nil c).symm, trivial, fun st _ => rfl, ?_⟩
    intro st _ st' b heval
    exact (Prod.mk.inj (Option.some.inj heval)).2
  | .notN bool, c => by
    obtain ⟨d, hd⟩ := bool.computes m c
    have hcalc : (BNode.notN bool).calc c =
        (.reg (c ++ d).length, c ++ d ++ [.icmpFalse (bool.calc c).1]) := by
      rw [← hd.code]
      rfl
    refine ⟨d ++ [.icmpFalse (bool.calc c).1], ?_, ?_, ?_, ?_⟩
    · rw [hcalc, List.append_assoc]
    · rw [hcalc, ← List.append_assoc, List.length_append]
      exact Nat.lt_succ_self _
    · intro st hst
      rw [exec_append, hd.exec st hst, BNode.eval]
      cases hval : bool.eval m st with
      | none => rfl
      | some x =>
        show exec m [_] x.1 = some (x.1.push (!x.2))
        rw [exec_singleton, BInst.step, hd.value st hst x.1 x.2 hval]
    · intro st hst st' b heval
      obtain ⟨x, hval, hx⟩ := Option.map_eq_some_iff.mp heval
      obtain ⟨hst', hb⟩ := Prod.mk.inj hx
      obtain ⟨bs, -, hlen⟩ := hd.length hst (b := x.2) hval
      rw [hcalc, ← hst', ← hb, ← hlen]
      exact BVal.get_last _ _
  | .boolExp op left right, c => by
    obtain ⟨d₁, h₁⟩ := left.computes m c
    obtain ⟨d₂, h₂⟩ := right.computes m (c ++ d₁)
    have hcalc : (BNode.boolExp op left right).calc c = (.reg (c ++ d₁ ++ d₂).length,
        c ++ d₁ ++ d₂ ++ [.bool op (left.calc c).1 (right.calc (c ++ d₁)).1]) := by
      rw [← h₂.code, ← h₁.code]
      rfl
    refine ⟨d₁ ++ (d₂ ++ [.bool op (left.calc c).1 (right.calc (c ++ d₁)).1]), ?_, ?_, ?_, ?_⟩
    · rw [hcalc]
      simp only [List.append_assoc]
    · rw [hcalc]
      show (c ++ d₁ ++ d₂).length < _
      simp only [List.length_append, List.length_singleton]
      omega
    · intro st hst
      rw [exec_append, h₁.exec st hst, BNode.eval]
      cases hl : left.eval m st with
      | none => rfl
      | some l =>
        obtain ⟨bs, -, hlen⟩ := h₁.length hst (b := l.2) hl
        show exec m (d₂ ++ _) l.1 = ((right.eval m l.1).map _).map _
        -- the right operand runs on the registers that the left one has filled
        rw [exec_append, h₂.exec l.1 hlen]
        cases hr : right.eval m l.1 with
        | none => rfl
        | some r =>
          obtain ⟨bs', hbs', -⟩ := h₂.length hlen (b := r.2) hr
          have hbelow := h₁.below
          rw [← hlen] at hbelow
          show exec m [_] r.1 = some (r.1.push (op.apply l.2 r.2))
          rw [exec_singleton, BInst.step, h₂.value l.1 hlen r.1 r.2 hr, hbs',
            BVal.get_append hbelow, h₁.value st hst l.1 l.2 hl]
    · intro st hst st' b heval
      obtain ⟨l, hl, heval⟩ := Option.bind_eq_some_iff.mp heval
      obtain ⟨r, hr, hx⟩ := Option.map_eq_some_iff.mp heval
      obtain ⟨hst', hb⟩ := Prod.mk.inj hx
      obtain ⟨bs, -, hlen⟩ := h₁.length hst (b := l.2) hl
      obtain ⟨bs', -, hlen'⟩ := h₂.length hlen (b := r.2) hr
      rw [hcalc, ← hst', ← hb, ← hlen']
      exact BVal.get_last _ _
  | .other operands code last, c => by
    obtain ⟨d, hd, hexec⟩ := computesOperands m operands c
    have hcalc : (BNode.other operands code last).calc c =
        (.reg (c ++ d ++ code.map BInst.own).length, c ++ d ++ code.map BInst.own ++ [.own last]) := by
      rw [← hd]
      rfl
    refine ⟨d ++ (code.map BInst.own ++ [.own last]), ?_, ?_, ?_, ?_⟩
    · rw [hcalc]
      simp only [List.append_assoc]
    · rw [hcalc]
      show (c ++ d ++ code.map BInst.own).length < _
      simp only [List.length_append, List.length_singleton]
      omega
    · intro st hst
      rw [exec_append, hexec st hst, BNode.eval, Option.map_bind]
      congr 1
      funext st₁
      rw [exec_append]
      show (execOwn m code st₁).bind _ = ((execOwn m code st₁).bind _).map _
      rw [Option.map_bind]
      congr 1
      funext st₂
      show exec m [_] st₂ = ((m last st₂.1 st₂.2).map _).map _
      rw [exec_singleton, Option.map_map]
      rfl
    · intro st hst st' b heval
      obtain ⟨st₁, h₁, heval⟩ := Option.bind_eq_some_iff.mp heval
      obtain ⟨st₂, h₂, heval⟩ := Option.bind_eq_some_iff.mp heval
      obtain ⟨r, -, hx⟩ := Option.map_eq_some_iff.mp heval
      obtain ⟨hst', hb⟩ := Prod.mk.inj hx
      obtain ⟨bs, hbs, hlen⟩ := exec_grows ((hexec st hst).trans h₁)
      obtain ⟨bs', hbs', hlen'⟩ := exec_grows h₂
      have hregs : (c ++ d ++ code.map BInst.own).length = st₂.1.length := by
        rw [hbs', hbs]
        simp only [List.length_append, hlen, hlen', hst]
      rw [hcalc, ← hst', ← hb, hregs]
      exact BVal.get_last _ _

theorem computesOperands (m : Machine ι σ) : ∀ (es : List (BNode ι)) (c : List (BInst ι)),
    ∃ d, calcOperands es c = c ++ d ∧
      ∀ st : Store σ, st.1.length = c.length → exec m d st = evalOperands m es st
  | [], c => ⟨[], (List.append_nil c).symm, fun _ _ => rfl⟩
  | e :: es, c => by
    obtain ⟨d₁, h₁⟩ := e.computes m c
    obtain ⟨d₂, hcode, hexec⟩ := computesOperands m es (c ++ d₁)
    refine ⟨d₁ ++ d₂, ?_, ?_⟩
    · rw [calcOperands, h₁.code, hcode, List.append_assoc]
    · intro st hst
      rw [exec_append, h₁.exec st hst, evalOperands]
      cases hval : e.eval m st with
      | none => rfl
      | some x =>
        obtain ⟨bs, -, hlen⟩ := h₁.length hst (b := x.2) hval
        exact hexec x.1 hlen

end

end Compile

/-! ## Where an operator's right operand begins -/

section Exact

variable {m}

/-- The instructions of an expression are added behind what is there. -/
theorem BNode.calc_prefix (e : BNode ι) (c : List (BInst ι)) : c <+: (e.calc c).2 := by
  -- any machine will do
  obtain ⟨d, hd⟩ := e.computes (fun _ _ s => some (s, true) : Machine ι Unit) c
  exact ⟨d, hd.code.symm⟩

theorem calcOperands_initial (es : List (BNode ι)) (c : List (BInst ι)) : c <+: calcOperands es c := by
  obtain ⟨d, hd, -⟩ := computesOperands (fun _ _ s => some (s, true) : Machine ι Unit) es c
  exact ⟨d, hd.symm⟩

/-- A constant has no instruction, and everything else has one. -/
theorem BNode.calc_length (e : BNode ι) (c : List (BInst ι)) :
    (e.calc c).2.length = c.length ↔ e.isConst = true := by
  have hle : ∀ (e : BNode ι) (c : List (BInst ι)), c.length ≤ (e.calc c).2.length :=
    fun e c => (e.calc_prefix c).length_le
  cases e with
  | const val => exact iff_of_true rfl rfl
  | notN bool =>
    refine iff_of_false ?_ Bool.false_ne_true
    have := hle bool c
    show ((bool.calc c).2 ++ [_]).length ≠ _
    rw [List.length_append, List.length_singleton]
    omega
  | boolExp op left right =>
    refine iff_of_false ?_ Bool.false_ne_true
    have := hle left c
    have := hle right (left.calc c).2
    show ((right.calc (left.calc c).2).2 ++ [_]).length ≠ _
    rw [List.length_append, List.length_singleton]
    omega
  | other operands code last =>
    refine iff_of_false ?_ Bool.false_ne_true
    have := (calcOperands_initial operands c).length_le
    show ((calcOperands operands c ++ code.map BInst.own) ++ [_]).length ≠ _
    rw [List.length_append, List.length_append, List.length_singleton]
    omega

/-- The stores behind an expression are those that it leaves. -/
theorem behind_calc (m : Machine ι σ) (e : BNode ι) (c : List (BInst ι)) :
    Behind m (e.calc c).2 = fun st' => ∃ st b, Behind m c st ∧ e.eval m st = some (st', b) := by
  obtain ⟨d, hd⟩ := e.computes m c
  have hlen : ∀ {s : σ} {st : Store σ}, exec m c ([], s) = some st → st.1.length = c.length := by
    intro s st hst
    obtain ⟨bs, hbs, hlen⟩ := exec_grows hst
    rw [hbs, List.nil_append, hlen]
  funext st'
  refine propext ⟨?_, ?_⟩
  · intro h
    obtain ⟨s, hs⟩ := h
    rw [hd.code, exec_append] at hs
    obtain ⟨st, hst, hrest⟩ := Option.bind_eq_some_iff.mp hs
    rw [hd.exec st (hlen hst)] at hrest
    obtain ⟨x, hx, hfst⟩ := Option.map_eq_some_iff.mp hrest
    exact ⟨st, x.2, ⟨s, hst⟩, by rw [hx, ← hfst]⟩
  · intro h
    obtain ⟨st, b, ⟨s, hst⟩, heval⟩ := h
    refine ⟨s, ?_⟩
    rw [hd.code, exec_append, hst]
    show exec m d st = some st'
    rw [hd.exec st (hlen hst), heval]
    rfl

/-- `Short` for one operator, in the code `c`. -/
def Operator.Short (m : Machine ι σ) (o : Operator) (c : List (BInst ι)) : Prop :=
  ∀ k st, o.first ≤ k → k < o.behind → Begins m c k st → o.left.get st.1 = o.op.goesOn

/-- What comes behind the right operand does not matter for it. -/
theorem Operator.short_prefix {o : Operator} {c c' : List (BInst ι)} (h : c <+: c')
    (hbehind : o.behind ≤ c.length) : o.Short m c' ↔ o.Short m c := by
  obtain ⟨d, hd⟩ := h
  refine forall₄_congr fun k st _ hk => ?_
  have hlt : k < c.length := Nat.lt_of_lt_of_le hk hbehind
  have htake : c'.take k = c.take k := by
    rw [← hd, List.take_append_of_le_length (Nat.le_of_lt hlt)]
  have hlt' : k < c'.length := by
    rw [← hd, List.length_append]
    omega
  rw [Begins, Begins, htake]
  exact imp_congr (and_congr (iff_of_true hlt' hlt) Iff.rfl) Iff.rfl

mutual

theorem BNode.operators_behind : ∀ (e : BNode ι) (c : List (BInst ι)),
    ∀ o ∈ e.operators c, o.behind ≤ (e.calc c).2.length
  | .const _, _, _, ho => absurd ho List.not_mem_nil
  | .notN bool, c, o, ho => by
    have hle := bool.operators_behind c o ho
    show _ ≤ ((bool.calc c).2 ++ [_]).length
    rw [List.length_append]
    omega
  | .boolExp op left right, c, o, ho => by
    have hright := (right.calc_prefix (left.calc c).2).length_le
    show _ ≤ ((right.calc (left.calc c).2).2 ++ [_]).length
    rw [List.length_append]
    rcases List.mem_append.mp ho with ho | ho
    · rcases List.mem_append.mp ho with ho | ho
      · have hle := left.operators_behind c o ho
        omega
      · have hle := right.operators_behind (left.calc c).2 o ho
        omega
    · obtain rfl := List.mem_singleton.mp ho
      exact Nat.le_add_right _ _
  | .other operands code last, c, o, ho => by
    have hle := operatorsOf_behind operands c o ho
    show _ ≤ ((calcOperands operands c ++ code.map BInst.own) ++ [_]).length
    rw [List.length_append, List.length_append]
    omega

theorem operatorsOf_behind : ∀ (es : List (BNode ι)) (c : List (BInst ι)),
    ∀ o ∈ operatorsOf es c, o.behind ≤ (calcOperands es c).length
  | [], _, _, ho => absurd ho List.not_mem_nil
  | e :: es, c, o, ho => by
    have hrest := (calcOperands_initial es (e.calc c).2).length_le
    show _ ≤ (calcOperands es (e.calc c).2).length
    rcases List.mem_append.mp ho with ho | ho
    · have hle := e.operators_behind c o ho
      omega
    · exact operatorsOf_behind es (e.calc c).2 o ho

end

/-- One operator: its right operand has no instructions, or whenever its left operand is
evaluated the right one matters. -/
theorem operator_short_iff (m : Machine ι σ) (op : BoolOp) (left right : BNode ι)
    (c : List (BInst ι)) :
    (⟨op, (left.calc c).1, (left.calc c).2.length, (right.calc (left.calc c).2).2.length⟩ :
        Operator).Short m (right.calc (left.calc c).2).2 ↔
      right.isConst = true ∨
        ∀ st st' b, Behind m c st → left.eval m st = some (st', b) → b = op.goesOn := by
  obtain ⟨d, hd⟩ := left.computes m c
  obtain ⟨d', hd'⟩ := right.calc_prefix (left.calc c).2
  -- behind the left operand, its value is the one it has been evaluated to
  have hvalue : ∀ st', Behind m (left.calc c).2 st' → ∃ st b, Behind m c st ∧
      left.eval m st = some (st', b) ∧ (left.calc c).1.get st'.1 = b ∧
      (left.calc c).1.Below st'.1.length := by
    intro st' hst'
    rw [behind_calc] at hst'
    obtain ⟨st, b, ⟨s, hs⟩, heval⟩ := hst'
    obtain ⟨bs, hbs, hlen⟩ := exec_grows hs
    have hst : st.1.length = c.length := by rw [hbs, List.nil_append, hlen]
    obtain ⟨-, -, hlen'⟩ := hd.length hst heval
    exact ⟨st, b, ⟨s, hs⟩, heval, hd.value st hst st' b heval, hlen' ▸ hd.below⟩
  constructor
  · intro hshort
    by_cases hconst : right.isConst = true
    · exact .inl hconst
    · refine .inr ?_
      intro st st' b hst heval
      have hlt : (left.calc c).2.length < (right.calc (left.calc c).2).2.length :=
        Nat.lt_of_le_of_ne (right.calc_prefix _).length_le
          fun heq => hconst ((right.calc_length _).mp heq.symm)
      have hbehind : Behind m (left.calc c).2 st' := by
        rw [behind_calc]
        exact ⟨st, b, hst, heval⟩
      obtain ⟨s, hs⟩ := hst
      obtain ⟨bs, hbs, hlen⟩ := exec_grows hs
      have hvalue := hd.value st (by rw [hbs, List.nil_append, hlen]) st' b heval
      rw [← hvalue]
      refine hshort _ st' (Nat.le_refl _) hlt ⟨hlt, ?_⟩
      rw [← hd', List.take_left]
      exact hbehind
  · intro hmeets k st hfirst hk hbegins
    obtain ⟨-, s, hs⟩ := hbegins
    have hnot : right.isConst ≠ true := by
      intro hconst
      have hlen := (right.calc_length (left.calc c).2).mpr hconst
      show False
      have hk' : k < (right.calc (left.calc c).2).2.length := hk
      have hfirst' : (left.calc c).2.length ≤ k := hfirst
      omega
    -- the execution has passed the end of the left operand
    rw [← hd', List.take_append, List.take_of_length_le hfirst, exec_append] at hs
    obtain ⟨st', hst', hrest⟩ := Option.bind_eq_some_iff.mp hs
    obtain ⟨st₀, b, hst₀, heval, hb, hbelow⟩ := hvalue st' ⟨s, hst'⟩
    obtain ⟨bs, hbs, -⟩ := exec_grows hrest
    show (left.calc c).1.get st.1 = op.goesOn
    rw [hbs, BVal.get_append hbelow, hb]
    exact hmeets.resolve_left hnot st₀ st' b hst₀ heval

mutual

/-- Every operator of an expression, and those in its operands. -/
theorem guarded_iff (m : Machine ι σ) : ∀ (e : BNode ι) (c : List (BInst ι)),
    Short m e c ↔ e.Guarded m (Behind m c)
  | .const _, _ => iff_of_true (fun _ ho => absurd ho List.not_mem_nil) trivial
  | .notN bool, c => by
    rw [BNode.Guarded, ← guarded_iff m bool c]
    refine forall₂_congr fun o ho => ?_
    exact Operator.short_prefix (List.prefix_append _ _) (bool.operators_behind c o ho)
  | .boolExp op left right, c => by
    rw [BNode.Guarded, ← behind_calc, ← guarded_iff m left c, ← guarded_iff m right (left.calc c).2,
      ← operator_short_iff]
    have hcode : (right.calc (left.calc c).2).2 <+: ((BNode.boolExp op left right).calc c).2 :=
      List.prefix_append _ _
    show (∀ o ∈ left.operators c ++ right.operators (left.calc c).2 ++ [_],
      o.Short m ((BNode.boolExp op left right).calc c).2) ↔ _
    rw [List.forall_mem_append, List.forall_mem_append, List.forall_mem_singleton, and_assoc]
    refine and_congr (forall₂_congr fun o ho => ?_) (and_congr (forall₂_congr fun o ho => ?_) ?_)
    · exact Operator.short_prefix ((right.calc_prefix _).trans hcode) (left.operators_behind c o ho)
    · exact Operator.short_prefix hcode (right.operators_behind _ o ho)
    · exact Operator.short_prefix hcode (Nat.le_refl _)
  | .other operands code last, c => by
    rw [BNode.Guarded, ← guardedAll_iff m operands c]
    refine forall₂_congr fun o ho => ?_
    refine Operator.short_prefix ?_ (operatorsOf_behind operands c o ho)
    exact (List.prefix_append _ _).trans (List.prefix_append _ _)

theorem guardedAll_iff (m : Machine ι σ) : ∀ (es : List (BNode ι)) (c : List (BInst ι)),
    (∀ o ∈ operatorsOf es c, o.Short m (calcOperands es c)) ↔ GuardedAll m es (Behind m c)
  | [], _ => iff_of_true (fun _ ho => absurd ho List.not_mem_nil) trivial
  | e :: es, c => by
    rw [GuardedAll, ← behind_calc, ← guarded_iff m e c, ← guardedAll_iff m es (e.calc c).2]
    show (∀ o ∈ e.operators c ++ operatorsOf es (e.calc c).2, _) ↔ _
    rw [List.forall_mem_append]
    refine and_congr (forall₂_congr fun o ho => ?_) Iff.rfl
    exact Operator.short_prefix (calcOperands_initial es _) (e.operators_behind c o ho)

end

/-- **Right operands begin only where they matter if and only if each of them is a constant, or its
left operand comes out the way it matters whenever it is evaluated.** -/
theorem short_iff (m : Machine ι σ) (e : BNode ι) (c : List (BInst ι)) :
    Short m e c ↔ e.Guarded m (Behind m c) :=
  guarded_iff m e c

end Exact

/-- `data == nil || data.task == nil`: the load of the task begins where the data is nil. -/
theorem load_begins_behind_nil :
    ¬ Short (fun i _ nil => if i = "load" ∧ nil then none else some (nil, nil) : Machine String Bool)
      (.boolExp .or (.other [] [] "data == nil") (.other [] ["load"] "task == nil")) [] := by
  intro hshort
  have hnil := hshort ⟨.or, .reg 0, 1, 3⟩ (by decide) 1 ([true], true) (by decide) (by decide)
    ⟨by decide, true, by decide⟩
  exact absurd hnil (by decide)

end CalcLang.Ast
