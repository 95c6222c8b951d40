import CalcLang.Ast.Widening
import CalcLang.Parser.ParseInt

/-!
# Arithmetic on literals

A literal gets the smallest width that holds it, and an operation is done at the
wider of its operands' widths; only the result is widened to `int`. So a sum or
product of small literals can wrap: `100 * 100` is computed in 8 bits and stores
16 (`product_wraps`).

`DecExp.fits` says where nothing is lost: every sum and product is below
`2 ^ width`, except under a product that is zero anyway. Since wrapping only
ever makes a number smaller, this is also necessary: `stored_exact_iff`.
-/

namespace CalcLang.Ast

open CalcLang.Parser

/-- An expression of decimal literals, sums and products, as it is written;
parentheses are the tree. -/
inductive DecExp where
  | lit (d : Decimal)
  | add (l r : DecExp)
  | mul (l r : DecExp)
deriving DecidableEq, Repr

namespace DecExp

/-- What it means. -/
def value : DecExp → Nat
  | lit d => d.value
  | add l r => l.value + r.value
  | mul l r => l.value * r.value

/-- Its value and those of its subexpressions are below `n`. -/
def Below (n : Nat) : DecExp → Prop
  | lit d => d.value < n
  | add l r => (l.Below n ∧ r.Below n) ∧ l.value + r.value < n
  | mul l r => (l.Below n ∧ r.Below n) ∧ l.value * r.value < n

/-- What the parser makes of it: a literal is a `NumNode` holding a constant of
the type `ParseInt` found. -/
def parse : DecExp → Option Exp
  | lit d => do
    let (i, bw) ← ParseInt d.text
    return .num (.int bw i)
  | add l r => do
    let a ← l.parse
    let b ← r.parse
    return .bin .plus a b
  | mul l r => do
    let a ← l.parse
    let b ← r.parse
    return .bin .mul a b

/-- The content of `x` after `x := e`. -/
def stored {F : Type} (sem : Sem F) (e : DecExp) : Option (Word F) := do
  let exp ← e.parse
  let (v, s) ← Blk.ran sem ⟨[], 0⟩ ⟨[], fun _ => none, []⟩ (DefAndAssign exp ⟨[], 0⟩)
  match v with
  | .slot x _ => s.mem x
  | _ => none

/-- The width the expression is computed in. -/
def width : DecExp → Nat
  | lit d => leastWidth d.value
  | add l r | mul l r => max l.width r.width

/-- What is computed. -/
def computed : DecExp → Nat
  | lit d => d.value
  | e@(add l r) => (l.computed + r.computed) % 2 ^ e.width
  | e@(mul l r) => (l.computed * r.computed) % 2 ^ e.width

/-- Every sum and product fits its width, except under a product that is zero. -/
def fits : DecExp → Bool
  | lit _ => true
  | e@(add l r) => l.fits && r.fits && decide (e.value < 2 ^ e.width)
  | e@(mul l r) => decide (e.value = 0) || l.fits && r.fits && decide (e.value < 2 ^ e.width)

/-! ## What is computed -/

theorem computed_le_value (e : DecExp) : e.computed ≤ e.value := by
  induction e with
  | lit d => exact Nat.le_refl _
  | add l r ihl ihr => exact Nat.le_trans (Nat.mod_le _ _) (Nat.add_le_add ihl ihr)
  | mul l r ihl ihr => exact Nat.le_trans (Nat.mod_le _ _) (Nat.mul_le_mul ihl ihr)

theorem fits_add (l r : DecExp) : (add l r).fits = true ↔
    (l.fits = true ∧ r.fits = true) ∧ l.value + r.value < 2 ^ max l.width r.width := by
  simp only [fits, Bool.and_eq_true, decide_eq_true_eq]
  rfl

theorem fits_mul (l r : DecExp) : (mul l r).fits = true ↔ l.value * r.value = 0 ∨
    (l.fits = true ∧ r.fits = true) ∧ l.value * r.value < 2 ^ max l.width r.width := by
  simp only [fits, Bool.or_eq_true, Bool.and_eq_true, decide_eq_true_eq]
  rfl

/-- **The value comes out exactly if everything fits.** -/
theorem computed_eq_value_iff (e : DecExp) : e.computed = e.value ↔ e.fits = true := by
  induction e with
  | lit d => simp [computed, value, fits]
  | add l r ihl ihr =>
    have hl := computed_le_value l
    have hr := computed_le_value r
    rw [fits_add, ← ihl, ← ihr]
    simp only [computed, value, width]
    have hmod := Nat.mod_le (l.computed + r.computed) (2 ^ max l.width r.width)
    have hlt := Nat.mod_lt (l.computed + r.computed) (Nat.two_pow_pos (max l.width r.width))
    constructor
    · intro h
      omega
    · rintro ⟨⟨h₁, h₂⟩, hfit⟩
      rw [h₁, h₂, Nat.mod_eq_of_lt hfit]
  | mul l r ihl ihr =>
    have hl := computed_le_value l
    have hr := computed_le_value r
    have hle := Nat.mul_le_mul hl hr
    rw [fits_mul, ← ihl, ← ihr]
    simp only [computed, value, width]
    have hmod := Nat.mod_le (l.computed * r.computed) (2 ^ max l.width r.width)
    have hlt := Nat.mod_lt (l.computed * r.computed) (Nat.two_pow_pos (max l.width r.width))
    constructor
    · intro h
      rcases Nat.eq_zero_or_pos (l.value * r.value) with h0 | hpos
      · exact Or.inl h0
      · -- neither factor is zero, so a smaller one would make the product smaller
        have hlpos := Nat.pos_of_mul_pos_right hpos
        have hrpos := Nat.pos_of_mul_pos_left hpos
        refine Or.inr ⟨⟨?_, ?_⟩, by omega⟩
        · by_contra hne
          have := Nat.mul_lt_mul_of_lt_of_le (Nat.lt_of_le_of_ne hl hne) hr hrpos
          omega
        · by_contra hne
          have := Nat.mul_lt_mul_of_le_of_lt hl (Nat.lt_of_le_of_ne hr hne) hlpos
          omega
    · rintro (h0 | ⟨⟨h₁, h₂⟩, hfit⟩)
      · omega
      · rw [h₁, h₂, Nat.mod_eq_of_lt hfit]

/-! ## What the emitted code computes -/

theorem leastWidth_cases (n : Nat) :
    leastWidth n = 8 ∨ leastWidth n = 16 ∨ leastWidth n = 32 ∨ leastWidth n = 64 := by
  unfold leastWidth
  split
  · simp
  · split
    · simp
    · split <;> simp

theorem width_bounds (e : DecExp) : 8 ≤ e.width ∧ e.width ≤ 64 := by
  induction e with
  | lit d =>
    have := leastWidth_cases d.value
    simp only [width]
    omega
  | add l r ihl ihr | mul l r ihl ihr =>
    simp only [width]
    omega

theorem computed_lt (e : DecExp) (h : e.Below (2 ^ 63)) : e.computed < 2 ^ e.width := by
  cases e with
  | lit d =>
    simp only [Below] at h
    simp only [computed, width, leastWidth]
    grind
  | add l r | mul l r => exact Nat.mod_lt _ (Nat.two_pow_pos _)

variable {F : Type} (sem : Sem F)

/-- A numeral is not a variable: there is nothing to load. -/
theorem loadIfVar_int {p : Val × Blk} {w : Nat} (h : p.1.ty = .int w) : loadIfVar p.1 p.2 = p := by
  simp [loadIfVar, h]

/-- Widening keeps what is computed. -/
theorem setWidth_computed {e : DecExp} (h : e.Below (2 ^ 63)) {m : Nat} (hm : e.width ≤ m) :
    (BitVec.ofNat e.width e.computed).setWidth m = BitVec.ofNat m e.computed := by
  have hlt := computed_lt e h
  have hle := Nat.pow_le_pow_right (show 0 < 2 by decide) hm
  apply BitVec.eq_of_toNat_eq
  simp only [BitVec.toNat_setWidth, BitVec.toNat_ofNat, Nat.mod_eq_of_lt hlt]

/-- The code of an operator on two expressions, given the code of these. -/
theorem node_computes (op : BinOp) {l r : DecExp} {el er : Exp} {m : Nat}
    (hlb : l.Below (2 ^ 63)) (hrb : r.Below (2 ^ 63)) (hm : max l.width r.width = m)
    (hl : ∀ (b : Blk) (s : State F), b.Aligned s → ∃ p s', el.calc b = some p ∧
      p.1.ty = .int l.width ∧
      b.Computes sem s p s' (.int l.width (BitVec.ofNat l.width l.computed)))
    (hr : ∀ (b : Blk) (s : State F), b.Aligned s → ∃ p s', er.calc b = some p ∧
      p.1.ty = .int r.width ∧
      b.Computes sem s p s' (.int r.width (BitVec.ofNat r.width r.computed)))
    {z : BitVec m}
    (hz : op.int.eval (BitVec.ofNat m l.computed) (BitVec.ofNat m r.computed) = some z)
    (b : Blk) (s : State F) (hb : b.Aligned s) :
    ∃ p s', (Exp.bin op el er).calc b = some p ∧ p.1.ty = .int m ∧
      b.Computes sem s p s' (.int m z) := by
  obtain ⟨q, s₁, hq, hqt, hqc⟩ := hr b s hb
  obtain ⟨p, s₂, hp, hpt, hpc⟩ := hl q.2 s₁ (hqc.aligned hb)
  obtain ⟨o, ho, hot, -, hoc⟩ := binOp_ints op (hpc.aligned (hqc.aligned hb)) hpt hqt
    (width_bounds l).1 (width_bounds r).1 hm hpc.eval (hpc.keep hqc.eval)
  obtain ⟨s₃, hs₃⟩ := hoc z (by
    rw [setWidth_computed hlb (hm ▸ Nat.le_max_left _ _),
      setWidth_computed hrb (hm ▸ Nat.le_max_right _ _), hz])
  refine ⟨o, s₃, ?_, hot, hqc.trans (hpc.trans hs₃)⟩
  simp [Exp.calc, hq, hp, loadIfVar_int hqt, loadIfVar_int hpt, ho]

/-- **The code of an expression** runs, and its value is `computed`, in
`width` bits. -/
theorem calc_computes (e : DecExp) (h : e.Below (2 ^ 63)) :
    ∃ exp, e.parse = some exp ∧ exp.isCallFunc = false ∧
      ∀ (b : Blk) (s : State F), b.Aligned s → ∃ p s', exp.calc b = some p ∧
        p.1.ty = .int e.width ∧
        b.Computes sem s p s' (.int e.width (BitVec.ofNat e.width e.computed)) := by
  induction e with
  | lit d =>
    have hparse := ParseInt_decimal d (show d.value < 2 ^ 63 from h)
    refine ⟨.num (.int (leastWidth d.value) d.value), by simp [parse, hparse], rfl, ?_⟩
    intro b s hb
    exact ⟨_, s, rfl, rfl, .refl (by simp [Val.eval, width, computed])⟩
  | add l r ihl ihr =>
    obtain ⟨el, hel, -, hl⟩ := ihl h.1.1
    obtain ⟨er, her, -, hr⟩ := ihr h.1.2
    refine ⟨.bin .plus el er, by simp [parse, hel, her], rfl, fun b s hb => ?_⟩
    refine node_computes sem .plus h.1.1 h.1.2 rfl hl hr (congrArg some ?_) b s hb
    apply BitVec.eq_of_toNat_eq
    simp [computed, width]
  | mul l r ihl ihr =>
    obtain ⟨el, hel, -, hl⟩ := ihl h.1.1
    obtain ⟨er, her, -, hr⟩ := ihr h.1.2
    refine ⟨.bin .mul el er, by simp [parse, hel, her], rfl, fun b s hb => ?_⟩
    refine node_computes sem .mul h.1.1 h.1.2 rfl hl hr (congrArg some ?_) b s hb
    apply BitVec.eq_of_toNat_eq
    simp [computed, width]

/-- **What is stored** is what was computed. -/
theorem stored_eq (e : DecExp) (h : e.Below (2 ^ 63)) :
    e.stored sem = some (.int 64 (BitVec.ofNat 64 e.computed)) := by
  obtain ⟨exp, hexp, hcall, hcalc⟩ := calc_computes sem e h
  obtain ⟨p, s', hp, hpt, hpc⟩ := hcalc ⟨[], 0⟩ ⟨[], fun _ => none, []⟩ rfl
  obtain ⟨q, is, s'', hq, his, hrun, hmem⟩ := defAndAssign_stores (hpc.aligned rfl) hpt
    (width_bounds e).1 (width_bounds e).2 hpc.eval
  obtain ⟨is', his', hrun'⟩ := hpc.run
  have hdef : DefAndAssign exp ⟨[], 0⟩ = some (.slot p.2.slots (.int 64), q) := by
    simp [DefAndAssign, hp, loadIfVar_int hpt, hcall, hq]
  rw [setWidth_computed h (width_bounds e).2] at hmem
  simp [stored, hexp, hdef, Blk.ran, his, his', State.execs_append, hrun', hrun, hmem]

end DecExp

/-- **`x := e` stores the value of `e` exactly if every sum and product fits**,
for every expression whose value and subexpressions are below `2 ^ 63`. -/
theorem stored_exact_iff {F : Type} (sem : Sem F) (e : DecExp) (h : e.Below (2 ^ 63)) :
    e.stored sem = some (.int 64 (BitVec.ofNat 64 e.value)) ↔ e.fits = true := by
  have hvalue : e.value < 2 ^ 63 := by cases e <;> first | exact h | exact h.2
  have hle := e.computed_le_value
  rw [e.stored_eq sem h, ← e.computed_eq_value_iff]
  constructor
  · intro heq
    have hnat := congrArg BitVec.toNat (by simpa using heq :
      BitVec.ofNat 64 e.computed = BitVec.ofNat 64 e.value)
    simp only [BitVec.toNat_ofNat] at hnat
    omega
  · intro heq
    rw [heq]

/-- A semantics without floating point and calls. -/
def plainSem : Sem Unit where
  ofText _ _ := ()
  ofInt _ _ := ()
  ext _ _ := ()
  arith _ _ _ := ()
  cmp _ _ _ := true
  callee _ _ := none

/-- The literal `100`. -/
def hundred : Decimal := ⟨[1, 0, 0], by decide⟩

/-- `x := 100 + 100` fits: 200 is below `2 ^ 8`. -/
theorem stored_exact_sum :
    (DecExp.add (.lit hundred) (.lit hundred)).stored plainSem = some (.int 64 (BitVec.ofNat 64 200)) :=
  (stored_exact_iff plainSem (.add (.lit hundred) (.lit hundred)) (by
    simp [DecExp.Below, DecExp.value, hundred, Decimal.value])).mpr (by decide)

/-- `x := 100 * 100` is computed in 8 bits and stores 16. -/
theorem product_wraps : ¬ ∀ e : DecExp, e.Below (2 ^ 63) →
    e.stored plainSem = some (.int 64 (BitVec.ofNat 64 e.value)) := by
  intro h
  have hwrap := h (.mul (.lit hundred) (.lit hundred)) (by
    simp [DecExp.Below, DecExp.value, hundred, Decimal.value])
  have hstored : (DecExp.mul (.lit hundred) (.lit hundred)).stored plainSem =
      some (.int 64 (BitVec.ofNat 64 16)) := by decide
  rw [hstored] at hwrap
  revert hwrap
  decide

end CalcLang.Ast
