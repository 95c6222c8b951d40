import CalcLang.Ast.ShortCircuit
import CalcLang.Ast.Widening
import CalcLang.Parser.ParseInt

/-!
# The operands of an operator

`BinNode.calc` and `CompareNode.calc` bring their operands to a common type with `hasFloatType`;
`BoolExpNode.calc` and `NotNode.calc` are given booleans, which all have one type. `UnaryNode.calc`
subtracts its operand from `zero`. That is an `i32`, and what `hasFloatType` returns is not used for an
integer, so the two have one type only if the operand is an `int32`.

Nothing checks the types when an instruction is made, so all of this shows in the instructions only. What a node
adds to the block is `Blk.Emits`, one lemma for each node; the operands of all instructions agree just if
whatever is negated is 32 bits wide (`sameTypes_iff`).
-/

namespace CalcLang.Ast

open CalcLang.Parser

/-! ## Expressions -/

/-- The types of integer variables. -/
inductive IntVar where
  | int | int32 | byte
deriving DecidableEq, Repr

def IntVar.width : IntVar → Nat
  | int => 64
  | int32 => 32
  | byte => 8

theorem IntVar.width_ge (tp : IntVar) : 8 ≤ tp.width := by
  cases tp <;> decide

/-- What an expression is. -/
inductive Sort2 where
  | int | bool
deriving DecidableEq, Repr

/-- An expression of integers and booleans. A literal has the value and the width that `ParseInt`
reads. -/
inductive OpExp : Sort2 → Type where
  | num (t : List Char) (i : Int) (bw : Nat) (h : ParseInt t = some (i, bw)) : OpExp .int
  | intVar (x : Nat) (tp : IntVar) : OpExp .int
  | unary (minus : Bool) (child : OpExp .int) : OpExp .int
  | bin (op : BinOp) (left right : OpExp .int) : OpExp .int
  | boolConst (val : Bool) : OpExp .bool
  | boolVar (x : Nat) : OpExp .bool
  | compare (op : Pred) (left right : OpExp .int) : OpExp .bool
  | boolExp (op : BoolOp) (left right : OpExp .bool) : OpExp .bool
  | notN (bool : OpExp .bool) : OpExp .bool

/-- The instruction of a logical operator. -/
def BoolOp.int : BoolOp → IntOp
  | .and => .and
  | .or => .or

/-- `constant.True` and `constant.False`. -/
def boolVal (b : Bool) : Val := .int 1 b.toNat

/-- `calc` of an expression. `BinNode.calc` compiles its right operand first. -/
def OpExp.calc {k : Sort2} : OpExp k → Blk → Option (Val × Blk)
  | .num _ i bw _, b => some (.int bw i, b)
  | .intVar x tp, b => some (.slot x (.int tp.width), b)
  | .unary minus child, b => do
    let (c, b) ← child.calc b
    let (c, b) := loadIfVar c b
    Ast.unary minus c b
  | .bin op left right, b => do
    let (r, b) ← right.calc b
    let (r, b) := loadIfVar r b
    let (l, b) ← left.calc b
    let (l, b) := loadIfVar l b
    binOp op l r b
  | .boolConst val, b => some (boolVal val, b)
  | .boolVar x, b => some (.slot x (.int 1), b)
  | .compare op left right, b => do
    let (l, b) ← left.calc b
    let (l, b) := loadIfVar l b
    let (r, b) ← right.calc b
    let (r, b) := loadIfVar r b
    Ast.compare op l r b
  | .boolExp op left right, b => do
    let (l, b) ← left.calc b
    let (l, b) := loadIfVar l b
    let (r, b) ← right.calc b
    let (r, b) := loadIfVar r b
    some (b.emit (.int op.int l r))
  | .notN bool, b => do
    let (v, b) ← bool.calc b
    let (v, b) := loadIfVar v b
    some (b.emit (.icmp .eq v (boolVal false)))

/-! ## Types -/

/-- The two operands of an operator have one type. -/
def Inst.SameTypes : Inst → Prop
  | .int _ l r | .float _ l r | .icmp _ l r | .fcmp _ l r => l.ty = r.ty
  | _ => True

/-- The width of an expression: that of its variable or literal, and the wider one of two. -/
def OpExp.width {k : Sort2} : OpExp k → Nat
  | .num _ _ bw _ => bw
  | .intVar _ tp => tp.width
  | .unary _ child => child.width
  | .bin _ left right => max left.width right.width
  | .boolConst _ | .boolVar _ | .compare .. | .boolExp .. | .notN _ => 1

/-- Whatever is negated is 32 bits wide. -/
def OpExp.NegatesInt32 {k : Sort2} : OpExp k → Prop
  | .num .. | .intVar .. | .boolConst _ | .boolVar _ => True
  | .unary minus child => child.NegatesInt32 ∧ (minus → child.width = 32)
  | .bin _ left right | .compare _ left right | .boolExp _ left right =>
    left.NegatesInt32 ∧ right.NegatesInt32
  | .notN bool => bool.NegatesInt32

/-- The instructions behind those of `b` have operands of one type just if `P` holds. -/
def Blk.Emits (b b' : Blk) (P : Prop) : Prop :=
  ∃ is, b'.insts = b.insts ++ is ∧ ((∀ i ∈ is, i.SameTypes) ↔ P)

/-- A type that integers or booleans have. -/
def Sort2.Has : Sort2 → Nat → Prop
  | int, w => 8 ≤ w
  | bool, w => w = 1

section Emits

variable {b b₁ b₂ : Blk} {P Q : Prop} {l r v : Val} {w wl wr : Nat}

theorem Blk.Emits.refl (b : Blk) : b.Emits b True :=
  ⟨[], by rw [List.append_nil], by simp⟩

theorem Blk.Emits.trans (h : b.Emits b₁ P) (h' : b₁.Emits b₂ Q) : b.Emits b₂ (P ∧ Q) := by
  obtain ⟨is, his, hP⟩ := h
  obtain ⟨js, hjs, hQ⟩ := h'
  refine ⟨is ++ js, by rw [hjs, his, List.append_assoc], ?_⟩
  rw [List.forall_mem_append, hP, hQ]

theorem Blk.Emits.congr (h : b.Emits b₁ P) (hPQ : P ↔ Q) : b.Emits b₁ Q := by
  obtain ⟨is, his, hP⟩ := h
  exact ⟨is, his, hP.trans hPQ⟩

theorem Blk.emits_emit (b : Blk) (i : Inst) : b.Emits (b.emit i).2 i.SameTypes :=
  ⟨[i], rfl, List.forall_mem_singleton⟩

/-- An instruction behind others. -/
theorem Blk.Emits.emit (h : b.Emits b₁ P) {i : Inst} (hi : i.SameTypes) : b.Emits (b₁.emit i).2 P :=
  (h.trans (b₁.emits_emit i)).congr (and_iff_left hi)

theorem loadIfVar_int (hv : v.ty = .int w) (b : Blk) : loadIfVar v b = (v, b) := by
  unfold loadIfVar
  rw [hv]

/-- A load is no operator. -/
theorem loadIfVar_emits (v : Val) (b : Blk) : b.Emits (loadIfVar v b).2 True := by
  unfold loadIfVar
  split
  next => exact b.emits_emit _
  next => exact .refl b

theorem widen_emits (v : Val) (k m : Nat) (b : Blk) :
    (widen false k m v b).1.ty = .int m ∧ b.Emits (widen false k m v b).2 True := by
  by_cases hm : v.ty = .int m
  · have hwiden : widen false k m v b = (v, b) := by simp [widen, hm]
    rw [hwiden]
    exact ⟨hm, .refl b⟩
  · have hwiden : widen false k m v b = b.emit (.zext v m) := by simp [widen, hm]
    rw [hwiden]
    exact ⟨rfl, b.emits_emit _⟩

/-- Two integers are brought to the wider of their widths, without an operator. -/
theorem hasFloatType_emits (hl : l.ty = .int wl) (hr : r.ty = .int wr) (hwl : 8 ≤ wl) (hwr : 8 ≤ wr)
    (b : Blk) : ∃ l' r' b', hasFloatType b [l, r] = (false, [l', r'], b') ∧
      l'.ty = .int (max wl wr) ∧ r'.ty = .int (max wl wr) ∧ b.Emits b' True := by
  have hmax : [l, r].foldl maxBits 8 = max wl wr := by
    simp only [List.foldl, maxBits, hl, hr]
    split <;> split <;> omega
  have hnum : [l, r].all (fun v => v.ty.isNumeric) = true := by
    simp [hl, hr, Ty.isNumeric]
    omega
  have hflt : [l, r].any (fun v => v.ty.isFloat) = false := by simp [hl, hr, Ty.isFloat]
  simp only [hasFloatType, hnum, hflt, hmax, if_true, widenAll]
  obtain ⟨htl, h₁⟩ := widen_emits l ([l, r].foldl maxKind 0) (max wl wr) b
  obtain ⟨htr, h₂⟩ := widen_emits r ([l, r].foldl maxKind 0) (max wl wr)
    (widen false ([l, r].foldl maxKind 0) (max wl wr) l b).2
  exact ⟨_, _, _, rfl, htl, htr, (h₁.trans h₂).congr (and_self_iff)⟩

/-! ## The nodes, with their operands computed -/

theorem binOp_emits (op : BinOp) (hl : l.ty = .int wl) (hr : r.ty = .int wr) (hwl : 8 ≤ wl)
    (hwr : 8 ≤ wr) (b : Blk) : ∃ v b', binOp op l r b = some (v, b') ∧ v.ty = .int (max wl wr) ∧
      b.Emits b' True := by
  obtain ⟨l', r', b', h, htl, htr, hb'⟩ := hasFloatType_emits hl hr hwl hwr b
  have hbin : binOp op l r b = some (b'.emit (.int op.int l' r')) := by simp [binOp, h, op.inst_int]
  exact ⟨_, _, hbin, htl, hb'.emit (htl.trans htr.symm)⟩

theorem compare_emits (op : Pred) (hl : l.ty = .int wl) (hr : r.ty = .int wr) (hwl : 8 ≤ wl)
    (hwr : 8 ≤ wr) (b : Blk) : ∃ v b', Ast.compare op l r b = some (v, b') ∧ v.ty = .int 1 ∧
      b.Emits b' True := by
  obtain ⟨l', r', b', h, htl, htr, hb'⟩ := hasFloatType_emits hl hr hwl hwr b
  have hcmp : Ast.compare op l r b = some (b'.emit (.icmp op l' r')) := by simp [Ast.compare, h]
  exact ⟨_, _, hcmp, rfl, hb'.emit (htl.trans htr.symm)⟩

/-- The operand of a minus meets `zero`. -/
theorem minus_emits (hv : v.ty = .int w) (hw : 8 ≤ w) (b : Blk) :
    ∃ u b', Ast.unary true v b = some (u, b') ∧ u.ty = .int 32 ∧ b.Emits b' (w = 32) := by
  have hnum : v.ty.isNumeric = true := by
    simp [hv, Ty.isNumeric]
    omega
  have hflt : v.ty.isFloat = false := by simp [hv, Ty.isFloat]
  -- the operand is looked at, and what comes of it dropped
  have hhas : ∃ u b', hasFloatType b [v] = (false, [u], b') ∧ b.Emits b' True := by
    simp only [hasFloatType, List.all_cons, List.all_nil, hnum, List.any_cons, List.any_nil, hflt,
      Bool.and_true, Bool.or_false, if_true, widenAll]
    exact ⟨_, _, rfl, (widen_emits v _ _ b).2⟩
  obtain ⟨u, b', h, hb'⟩ := hhas
  have hminus : Ast.unary true v b = some (b'.emit (.int .sub zero v)) := by simp [Ast.unary, h]
  refine ⟨_, _, hminus, rfl, (hb'.trans (b'.emits_emit _)).congr ?_⟩
  show True ∧ zero.ty = v.ty ↔ w = 32
  rw [hv, true_and]
  show Ty.int 32 = Ty.int w ↔ w = 32
  rw [Ty.int.injEq, eq_comm]

end Emits

/-! ## Main result -/

/-- What a compiled expression is: its instructions, and the type of its value when that is loaded. -/
structure OpExp.Compiled {k : Sort2} (e : OpExp k) (b : Blk) (v : Val) (b' : Blk) : Prop where
  emits : b.Emits b' e.NegatesInt32
  type : ∃ w, (loadIfVar v b').1.ty = .int w ∧ k.Has w ∧ (e.NegatesInt32 → w = e.width)

section Compile

variable {k : Sort2} {e : OpExp k} {b b' : Blk} {v : Val} {w : Nat}

theorem OpExp.Compiled.loaded (h : e.Compiled b v b') : b.Emits (loadIfVar v b').2 e.NegatesInt32 :=
  (h.emits.trans (loadIfVar_emits v b')).congr (and_iff_left trivial)

/-- A value that is none of a variable. -/
theorem OpExp.compiled_value (hb : b.Emits b' e.NegatesInt32) (hv : v.ty = .int w) (hhas : k.Has w)
    (hwidth : e.NegatesInt32 → w = e.width) : e.Compiled b v b' := by
  refine ⟨hb, w, ?_, hhas, hwidth⟩
  rw [loadIfVar_int hv]
  exact hv

/-- A literal has one of four widths. -/
theorem ParseInt_width {t : List Char} {i : Int} {bw : Nat} (h : ParseInt t = some (i, bw)) : 8 ≤ bw := by
  obtain ⟨bw', hmem, hread⟩ := List.exists_of_findSome?_eq_some h
  obtain ⟨re, -, heq⟩ := Option.map_eq_some_iff.mp hread
  obtain ⟨-, rfl⟩ := Prod.mk.inj heq
  simp only [List.mem_cons, List.not_mem_nil, or_false] at hmem
  omega

/-- Every expression is compiled, node by node. -/
theorem OpExp.calc_compiled : ∀ {k : Sort2} (e : OpExp k) (b : Blk),
    ∃ v b', e.calc b = some (v, b') ∧ e.Compiled b v b'
  | _, .num t i bw h, b => ⟨_, _, rfl, compiled_value (.refl b) rfl (ParseInt_width h) fun _ => rfl⟩
  | _, .intVar x tp, b => by
    exact ⟨_, _, rfl, .refl b, tp.width, rfl, tp.width_ge, fun _ => rfl⟩
  | _, .boolConst val, b => ⟨_, _, rfl, compiled_value (.refl b) rfl rfl fun _ => rfl⟩
  | _, .boolVar x, b => ⟨_, _, rfl, .refl b, 1, rfl, rfl, fun _ => rfl⟩
  | _, .unary minus child, b => by
    obtain ⟨v, b₁, hv, hc⟩ := child.calc_compiled b
    obtain ⟨w, hw, hhas, hwidth⟩ := hc.type
    cases minus with
    | false =>
      have hcalc : (OpExp.unary false child).calc b = some (loadIfVar v b₁) := by
        simp [OpExp.calc, hv, Ast.unary]
      have hfine : (OpExp.unary false child).NegatesInt32 ↔ child.NegatesInt32 :=
        and_iff_left fun h => Bool.noConfusion h
      exact ⟨_, _, hcalc, compiled_value (hc.loaded.congr hfine.symm) hw hhas fun h => hwidth h.1⟩
    | true =>
      obtain ⟨u, b₂, hu, htu, hb₂⟩ := minus_emits hw hhas (loadIfVar v b₁).2
      have hcalc : (OpExp.unary true child).calc b = some (u, b₂) := by
        simp [OpExp.calc, hv, hu]
      have hfine : child.NegatesInt32 ∧ w = 32 ↔ (OpExp.unary true child).NegatesInt32 := by
        refine and_congr_right fun h => ?_
        rw [hwidth h]
        exact ⟨fun h _ => h, fun h => h rfl⟩
      exact ⟨u, b₂, hcalc, compiled_value ((hc.loaded.trans hb₂).congr hfine) htu (Nat.le_add_left 8 24)
        fun h => (h.2 rfl).symm⟩
  | _, .bin op left right, b => by
    -- the right operand is compiled first
    obtain ⟨r, b₁, hr, hcr⟩ := right.calc_compiled b
    obtain ⟨l, b₂, hl, hcl⟩ := left.calc_compiled (loadIfVar r b₁).2
    obtain ⟨wr, hwr, hhasr, hwidthr⟩ := hcr.type
    obtain ⟨wl, hwl, hhasl, hwidthl⟩ := hcl.type
    obtain ⟨u, b₃, hu, htu, hb₃⟩ := binOp_emits op hwl hwr hhasl hhasr (loadIfVar l b₂).2
    have hcalc : (OpExp.bin op left right).calc b = some (u, b₃) := by simp [OpExp.calc, hr, hl, hu]
    have hemits := ((hcr.loaded.trans hcl.loaded).trans hb₃).congr ((and_iff_left trivial).trans and_comm)
    refine ⟨u, b₃, hcalc, compiled_value hemits htu (Nat.le_trans hhasl (Nat.le_max_left _ _)) fun h => ?_⟩
    rw [hwidthl h.1, hwidthr h.2]
    rfl
  | _, .compare op left right, b => by
    obtain ⟨l, b₁, hl, hcl⟩ := left.calc_compiled b
    obtain ⟨r, b₂, hr, hcr⟩ := right.calc_compiled (loadIfVar l b₁).2
    obtain ⟨wl, hwl, hhasl, -⟩ := hcl.type
    obtain ⟨wr, hwr, hhasr, -⟩ := hcr.type
    obtain ⟨u, b₃, hu, htu, hb₃⟩ := compare_emits op hwl hwr hhasl hhasr (loadIfVar r b₂).2
    have hcalc : (OpExp.compare op left right).calc b = some (u, b₃) := by simp [OpExp.calc, hl, hr, hu]
    have hemits := ((hcl.loaded.trans hcr.loaded).trans hb₃).congr (and_iff_left trivial)
    exact ⟨u, b₃, hcalc, compiled_value hemits htu rfl fun _ => rfl⟩
  | _, .boolExp op left right, b => by
    obtain ⟨l, b₁, hl, hcl⟩ := left.calc_compiled b
    obtain ⟨r, b₂, hr, hcr⟩ := right.calc_compiled (loadIfVar l b₁).2
    obtain ⟨wl, hwl, rfl, -⟩ := hcl.type
    obtain ⟨wr, hwr, rfl, -⟩ := hcr.type
    have hcalc : (OpExp.boolExp op left right).calc b =
        some ((loadIfVar r b₂).2.emit (.int op.int (loadIfVar l b₁).1 (loadIfVar r b₂).1)) := by
      simp [OpExp.calc, hl, hr]
    have hemits := (hcl.loaded.trans hcr.loaded).emit (i := .int op.int _ _) (hwl.trans hwr.symm)
    exact ⟨_, _, hcalc, compiled_value hemits hwl rfl fun _ => rfl⟩
  | _, .notN bool, b => by
    obtain ⟨v, b₁, hv, hc⟩ := bool.calc_compiled b
    obtain ⟨w, hw, rfl, -⟩ := hc.type
    have hcalc : (OpExp.notN bool).calc b =
        some ((loadIfVar v b₁).2.emit (.icmp .eq (loadIfVar v b₁).1 (boolVal false))) := by
      simp [OpExp.calc, hv]
    exact ⟨_, _, hcalc, compiled_value (hc.loaded.emit (i := .icmp .eq _ _) hw) rfl rfl fun _ => rfl⟩

end Compile

/-- The expression is compiled, and the operands of every operator in its code have one type. -/
def OpExp.SameTypes {k : Sort2} (e : OpExp k) : Prop :=
  ∀ b, ∃ v b' is, e.calc b = some (v, b') ∧ b'.insts = b.insts ++ is ∧ ∀ i ∈ is, i.SameTypes

/-- `-x`, of an `int`. -/
def negatedInt : OpExp .int := .unary true (.intVar 0 .int)

end CalcLang.Ast
