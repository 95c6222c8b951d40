import CalcLang.Ast.Operands

/-!
# What an expression means

The meaning of an expression is a number of 64 bits or a truth value (`OpExp.eval`): an `int` has 64 bits, and the
right operand of `&&` and `||` is only looked at if the left one leaves it open. Where the hardware has no result, a
division by zero or a shift by too much, there is none.

The code is another thing. Literals have the width that their text needs, operands are widened with zeros, a minus
subtracts from an `i32`, and both operands of a logical operator are computed. `OpExp.sound` says which expressions
come out all the same, and `OpExp.evaluates` that they do: there the code computes the value, or goes wrong if there is
none.
-/

namespace CalcLang.Ast

open CalcLang.Parser

/-! ## Meaning -/

/-- The values of an expression. -/
abbrev Sort2.Value : Sort2 → Type
  | int => BitVec 64
  | bool => Bool

/-- The width of a variable. -/
def Sort2.width : Sort2 → Nat
  | int => 64
  | bool => 1

/-- How a value is kept in a variable. -/
def Sort2.bits : (k : Sort2) → k.Value → BitVec k.width
  | int, v => v
  | bool, v => .ofBool v

/-- The variables, by their slots. -/
structure Valuation where
  int : Nat → BitVec 64
  bool : Nat → Bool

def Valuation.get (σ : Valuation) : (k : Sort2) → Nat → k.Value
  | .int, x => σ.int x
  | .bool, x => σ.bool x

def Valuation.set (σ : Valuation) (x : Nat) : {k : Sort2} → k.Value → Valuation
  | .int, v => { σ with int := Function.update σ.int x v }
  | .bool, v => { σ with bool := Function.update σ.bool x v }

/-- The value of an expression. -/
def OpExp.eval (σ : Valuation) : {k : Sort2} → OpExp k → Option k.Value
  | _, .num _ i _ _ => some (BitVec.ofInt 64 i)
  | _, .intVar x _ => some (σ.int x)
  | _, .unary minus child => (child.eval σ).map fun v => if minus then -v else v
  | _, .bin op left right => do
    let r ← right.eval σ
    let l ← left.eval σ
    op.int.eval l r
  | _, .boolConst val => some val
  | _, .boolVar x => some (σ.bool x)
  | _, .compare op left right => do
    let l ← left.eval σ
    let r ← right.eval σ
    return op.eval l r
  | _, .boolExp .and left right => do if ← left.eval σ then right.eval σ else return false
  | _, .boolExp .or left right => do if ← left.eval σ then return true else right.eval σ
  | _, .notN bool => (bool.eval σ).map not

/-- The operators that may have no result. -/
def BinOp.mayFail : BinOp → Bool
  | .div | .ps | .shl | .shr => true
  | _ => false

/-- There is always a value. -/
def OpExp.total {k : Sort2} : OpExp k → Bool
  | .num .. | .intVar .. | .boolConst _ | .boolVar _ => true
  | .unary _ child => child.total
  | .bin op left right => !op.mayFail && left.total && right.total
  | .compare _ left right | .boolExp _ left right => left.total && right.total
  | .notN bool => bool.total

/-- The code means what the expression means: variables are those of `Γ`, a literal is not negative unless it has all
64 bits, nothing is negated, one operand of each operator has 64 bits, and the right operand of a logical operator may
be computed in any case. -/
def OpExp.sound (Γ : Nat → Sort2) {k : Sort2} : OpExp k → Bool
  | .num _ i bw _ => decide (0 ≤ i) || bw == 64
  | .intVar x tp => tp == .int && Γ x == .int
  | .unary minus child => !minus && child.sound Γ
  | .bin _ left right | .compare _ left right =>
    max left.width right.width == 64 && left.sound Γ && right.sound Γ
  | .boolConst _ => true
  | .boolVar x => Γ x == .bool
  | .boolExp _ left right => left.sound Γ && right.sound Γ && right.total
  | .notN bool => bool.sound Γ

theorem BinOp.eval_isSome {op : BinOp} (h : op.mayFail = false) {w : Nat} (x y : BitVec w) :
    (op.int.eval x y).isSome := by
  cases op <;> simp [BinOp.mayFail] at h <;> rfl

theorem OpExp.eval_isSome (σ : Valuation) : ∀ {k : Sort2} (e : OpExp k), e.total = true → (e.eval σ).isSome
  | _, .num .., _ | _, .intVar .., _ | _, .boolConst _, _ | _, .boolVar _, _ => rfl
  | _, .unary minus child, h => by
    simpa [OpExp.eval] using child.eval_isSome σ h
  | _, .bin op left right, h => by
    simp only [OpExp.total, Bool.and_eq_true, Bool.not_eq_true'] at h
    obtain ⟨l, hl⟩ := Option.isSome_iff_exists.mp (left.eval_isSome σ h.1.2)
    obtain ⟨r, hr⟩ := Option.isSome_iff_exists.mp (right.eval_isSome σ h.2)
    simpa [OpExp.eval, hl, hr] using BinOp.eval_isSome h.1.1 l r
  | _, .compare op left right, h => by
    simp only [OpExp.total, Bool.and_eq_true] at h
    obtain ⟨l, hl⟩ := Option.isSome_iff_exists.mp (left.eval_isSome σ h.1)
    obtain ⟨r, hr⟩ := Option.isSome_iff_exists.mp (right.eval_isSome σ h.2)
    simp [OpExp.eval, hl, hr]
  | _, .boolExp op left right, h => by
    simp only [OpExp.total, Bool.and_eq_true] at h
    obtain ⟨l, hl⟩ := Option.isSome_iff_exists.mp (left.eval_isSome σ h.1)
    obtain ⟨r, hr⟩ := Option.isSome_iff_exists.mp (right.eval_isSome σ h.2)
    cases op <;> cases l <;> simp [OpExp.eval, hl, hr]
  | _, .notN bool, h => by
    simpa [OpExp.eval] using bool.eval_isSome σ h

/-! ## Widths -/

theorem parseUint_lt {s : List Char} {base bw n : Nat} (h : parseUint s base bw = some n) : n < 2 ^ bw := by
  simp only [parseUint, Option.bind_eq_bind] at h
  split at h
  · cases h
  · obtain ⟨m, -, hm⟩ := Option.bind_eq_some_iff.mp h
    split at hm
    · next hlt =>
      cases hm
      exact hlt
    · cases hm

/-- The number that is read fits the width, as an unsigned one. -/
theorem readWidth_lt {base bw : Nat} {s : List Char} {i : Int} (h : readWidth base s bw = some i) : i < 2 ^ bw := by
  have hcast : ∀ n : Nat, n < 2 ^ bw → (n : Int) < 2 ^ bw := fun n hn => by exact_mod_cast hn
  unfold readWidth at h
  split at h
  · obtain ⟨n, hn, rfl⟩ := Option.map_eq_some_iff.mp h
    have hle : (BitVec.ofNat 64 n).toInt ≤ n := by
      rw [BitVec.toInt_eq_toNat_cond, BitVec.toNat_ofNat]
      have := Nat.mod_le n (2 ^ 64)
      split <;> omega
    exact Int.lt_of_le_of_lt hle (hcast n (parseUint_lt hn))
  · simp only [parseInt, Option.bind_eq_bind, Option.bind_eq_some_iff] at h
    obtain ⟨n, hn, h⟩ := h
    have hlt := hcast n (parseUint_lt hn)
    split at h <;> split at h <;> cases h
    · omega
    · exact hlt

theorem ParseInt_lt {t : List Char} {i : Int} {bw : Nat} (h : ParseInt t = some (i, bw)) :
    bw ≤ 64 ∧ i < 2 ^ bw := by
  obtain ⟨bw', hmem, hread⟩ := List.exists_of_findSome?_eq_some h
  obtain ⟨re, hre, heq⟩ := Option.map_eq_some_iff.mp hread
  obtain ⟨rfl, rfl⟩ := Prod.mk.inj heq
  simp only [List.mem_cons, List.not_mem_nil, or_false] at hmem
  exact ⟨by omega, readWidth_lt hre⟩

theorem OpExp.width_bool (e : OpExp .bool) : e.width = 1 := by
  cases e <;> rfl

theorem OpExp.width_le : ∀ {k : Sort2} (e : OpExp k), e.width ≤ k.width
  | _, .num _ _ _ h => (ParseInt_lt h).1
  | _, .intVar _ tp => by
    show tp.width ≤ 64
    cases tp <;> decide
  | _, .unary _ child => child.width_le
  | _, .bin _ left right => Nat.max_le.mpr ⟨left.width_le, right.width_le⟩
  | _, .boolConst _ | _, .boolVar _ | _, .compare .. | _, .boolExp .. | _, .notN _ => Nat.le_refl 1

theorem OpExp.sound_negates {Γ : Nat → Sort2} : ∀ {k : Sort2} (e : OpExp k), e.sound Γ = true → e.NegatesInt32
  | _, .num .., _ | _, .intVar .., _ | _, .boolConst _, _ | _, .boolVar _, _ => trivial
  | _, .unary minus child, h => by
    simp only [OpExp.sound, Bool.and_eq_true, Bool.not_eq_true'] at h
    refine ⟨child.sound_negates h.2, fun hminus => ?_⟩
    simp [h.1] at hminus
  | _, .bin _ left right, h | _, .compare _ left right, h => by
    simp only [OpExp.sound, Bool.and_eq_true] at h
    exact ⟨left.sound_negates h.1.2, right.sound_negates h.2⟩
  | _, .boolExp _ left right, h => by
    simp only [OpExp.sound, Bool.and_eq_true] at h
    exact ⟨left.sound_negates h.1.1, right.sound_negates h.1.2⟩
  | _, .notN bool, h => bool.sound_negates h

/-- A value as the code has it. -/
def OpExp.word {F : Type} {k : Sort2} (e : OpExp k) (v : k.Value) : Word F :=
  .int e.width ((k.bits v).setWidth e.width)

section Words

variable {F : Type} {Γ : Nat → Sort2} {σ : Valuation}

theorem OpExp.word_int {e : OpExp .int} (h : e.width = 64) (v : BitVec 64) : (e.word v : Word F) = .int 64 v := by
  unfold word
  rw [h]
  exact congrArg _ (BitVec.setWidth_eq v)

theorem OpExp.word_bool (e : OpExp .bool) (v : Bool) : (e.word v : Word F) = .int 1 (.ofBool v) := by
  unfold word
  rw [e.width_bool]
  exact congrArg _ (BitVec.setWidth_eq (.ofBool v))

/-- Nothing is lost in the width that the code has, as zeros are put back. -/
theorem OpExp.fits : ∀ (e : OpExp .int), e.sound Γ = true → ∀ {v : BitVec 64}, e.eval σ = some v →
    (v.setWidth e.width).setWidth 64 = v
  | .num t i bw h, hs, v, hv => by
    obtain rfl := Option.some.inj hv
    obtain ⟨hle, hlt⟩ := ParseInt_lt h
    show ((BitVec.ofInt 64 i).setWidth bw).setWidth 64 = BitVec.ofInt 64 i
    simp only [sound, Bool.or_eq_true, decide_eq_true_eq, beq_iff_eq] at hs
    rcases hs with hpos | rfl
    · obtain ⟨n, rfl⟩ := Int.eq_ofNat_of_zero_le hpos
      have hn : n < 2 ^ bw := by exact_mod_cast hlt
      have hpow : 2 ^ bw ≤ 2 ^ 64 := Nat.pow_le_pow_right (by decide) hle
      apply BitVec.eq_of_toNat_eq
      simp only [BitVec.toNat_setWidth, BitVec.ofInt_natCast, BitVec.toNat_ofNat]
      rw [Nat.mod_eq_of_lt (Nat.lt_of_lt_of_le hn hpow), Nat.mod_eq_of_lt hn,
        Nat.mod_eq_of_lt (Nat.lt_of_lt_of_le hn hpow)]
    · simp
  | .intVar x tp, hs, v, _ => by
    simp only [sound, Bool.and_eq_true, beq_iff_eq] at hs
    rw [hs.1]
    simp [width, IntVar.width]
  | .unary minus child, hs, v, hv => by
    simp only [sound, Bool.and_eq_true, Bool.not_eq_true'] at hs
    obtain ⟨rfl, hs⟩ := hs
    obtain ⟨u, hu, rfl⟩ := Option.map_eq_some_iff.mp hv
    exact child.fits hs hu
  | .bin op left right, hs, v, _ => by
    simp only [sound, Bool.and_eq_true, beq_iff_eq] at hs
    have hw : (OpExp.bin op left right).width = 64 := hs.1.1
    rw [hw]
    simp

theorem OpExp.fits_bits (e : OpExp .int) (hs : e.sound Γ = true) {v : Sort2.int.Value} (hv : e.eval σ = some v) :
    ((Sort2.int.bits v).setWidth e.width).setWidth 64 = v := e.fits hs hv

end Words

/-! ## Code that may go wrong -/

/-- Instructions were appended. -/
def Blk.Extends (b b' : Blk) : Prop := ∃ is, b'.insts = b.insts ++ is

/-- The instructions that were appended compute `o`, and go wrong where that is nothing. -/
def Blk.Evaluates {F : Type} (sem : Sem F) (b : Blk) (s : State F) (p : Val × Blk) : Option (Word F) → Prop
  | some w => ∃ s', b.Computes sem s p s' w
  | none => ∃ is, p.2.insts = b.insts ++ is ∧ State.execs sem s is = none

section Evaluates

variable {F : Type} {sem : Sem F} {s s' : State F} {b b' b'' : Blk} {p q : Val × Blk} {i : Inst} {w : Word F}
  {o o' : Option (Word F)}

theorem Blk.Extends.refl (b : Blk) : b.Extends b := ⟨[], (List.append_nil _).symm⟩

theorem Blk.Extends.trans (h : b.Extends b') (h' : b'.Extends b'') : b.Extends b'' := by
  obtain ⟨is, his⟩ := h
  obtain ⟨js, hjs⟩ := h'
  exact ⟨is ++ js, by rw [hjs, his, List.append_assoc]⟩

theorem Blk.extends_emit (b : Blk) (i : Inst) : b.Extends (b.emit i).2 := ⟨[i], rfl⟩

theorem Blk.Emits.extends {P : Prop} (h : b.Emits b' P) : b.Extends b' := by
  obtain ⟨is, his, -⟩ := h
  exact ⟨is, his⟩

/-- Code that has gone wrong does not come to what follows. -/
theorem Blk.Evaluates.before (h : b.Evaluates sem s p none) (hext : p.2.Extends q.2) :
    b.Evaluates sem s q none := by
  obtain ⟨is, hp, hrun⟩ := h
  obtain ⟨js, hq⟩ := hext
  refine ⟨is ++ js, by rw [hq, hp, List.append_assoc], ?_⟩
  rw [State.execs_append, hrun, Option.bind_none]

theorem Blk.Computes.then (h : b.Computes sem s p s' w) (h' : p.2.Evaluates sem s' q o) :
    b.Evaluates sem s q o := by
  cases o with
  | some w' =>
    obtain ⟨s'', hs⟩ := h'
    exact ⟨s'', h.trans hs⟩
  | none =>
    obtain ⟨is, hp, hrun⟩ := h.run
    obtain ⟨js, hq, hwrong⟩ := h'
    refine ⟨is ++ js, by rw [hq, hp, List.append_assoc], ?_⟩
    rw [State.execs_append, hrun, Option.bind_some, hwrong]

/-- One operand after the other: either one of them goes wrong, or both are there. -/
theorem Blk.Evaluates.both (hb : b.Aligned s) (h : b.Evaluates sem s p o) (hext : p.2.Extends q.2)
    (h' : ∀ s', s'.mem = s.mem → p.2.Aligned s' → p.2.Evaluates sem s' q o') :
    ((o = none ∨ o' = none) ∧ b.Evaluates sem s q none) ∨
      ∃ w w' s', o = some w ∧ o' = some w' ∧ p.1.eval sem s' = some w ∧ b.Computes sem s q s' w' := by
  cases o with
  | none => exact .inl ⟨.inl rfl, h.before hext⟩
  | some w =>
    obtain ⟨s₁, h⟩ := h
    have h' := h' s₁ h.mem (h.aligned hb)
    cases o' with
    | none => exact .inl ⟨.inr rfl, h.then h'⟩
    | some w' =>
      obtain ⟨s₂, h'⟩ := h'
      exact .inr ⟨w, w', s₂, rfl, rfl, h'.keep h.eval, h.trans h'⟩

/-- An instruction that fills its register or goes wrong. -/
theorem Blk.evaluates_emit (hb : b.Aligned s) (hi : s.exec sem i = o.map fun w => s.push (some w)) :
    b.Evaluates sem s (b.emit i) o := by
  cases o with
  | some w => exact ⟨_, .emit hb hi⟩
  | none => exact ⟨[i], rfl, by rw [State.execs, hi]; rfl⟩

variable {l r : Val} {wl wr : Nat} {x : BitVec wl} {y : BitVec wr}

/-- An operator on two integers, one of which has 64 bits. -/
theorem binOp_evaluates (op : BinOp) (hb : b.Aligned s) (hl : l.ty = .int wl) (hr : r.ty = .int wr)
    (hwl : 8 ≤ wl) (hwr : 8 ≤ wr) (hm : max wl wr = 64) (hx : l.eval sem s = some (.int wl x))
    (hy : r.eval sem s = some (.int wr y)) (hp : binOp op l r b = some p) :
    b.Evaluates sem s p ((op.int.eval (x.setWidth 64) (y.setWidth 64)).map (.int 64)) := by
  obtain ⟨l', r', b', s₁, h, htl, htr, hl', hc⟩ := hasFloatType_ints hb hl hr hwl hwr hm hx hy
  have hbin : binOp op l r b = some (b'.emit (.int op.int l' r')) := by simp [binOp, h, op.inst_int]
  obtain rfl := Option.some.inj (hbin.symm.trans hp)
  refine hc.then (Blk.evaluates_emit (hc.aligned hb) ?_)
  cases hz : op.int.eval (x.setWidth 64) (y.setWidth 64) <;>
    simp [State.exec, State.eval₂, hl', hc.eval, intWords, hz]

theorem compare_evaluates (op : Pred) (hb : b.Aligned s) (hl : l.ty = .int wl) (hr : r.ty = .int wr)
    (hwl : 8 ≤ wl) (hwr : 8 ≤ wr) (hm : max wl wr = 64) (hx : l.eval sem s = some (.int wl x))
    (hy : r.eval sem s = some (.int wr y)) (hp : Ast.compare op l r b = some p) :
    b.Evaluates sem s p (some (.int 1 (.ofBool (op.eval (x.setWidth 64) (y.setWidth 64))))) := by
  obtain ⟨l', r', b', s₁, h, htl, htr, hl', hc⟩ := hasFloatType_ints hb hl hr hwl hwr hm hx hy
  have hcmp : Ast.compare op l r b = some (b'.emit (.icmp op l' r')) := by simp [Ast.compare, h]
  obtain rfl := Option.some.inj (hcmp.symm.trans hp)
  refine hc.then (Blk.evaluates_emit (hc.aligned hb) ?_)
  simp [State.exec, State.eval₂, hl', hc.eval, intWords]

end Evaluates

/-! ## Main result -/

/-- The variables in the memory of the code. -/
def Valuation.memory {F : Type} (Γ : Nat → Sort2) (σ : Valuation) (x : Nat) : Option (Word F) :=
  some (.int (Γ x).width ((Γ x).bits (σ.get (Γ x) x)))

section Compile

variable {F : Type} {sem : Sem F} {Γ : Nat → Sort2} {σ : Valuation}

/-- What is known of the code of an expression before it is run. -/
structure OpExp.Coded {k : Sort2} (e : OpExp k) (b : Blk) (v : Val) (b' : Blk) : Prop where
  code : e.calc b = some (v, b')
  type : (loadIfVar v b').1.ty = .int e.width
  has : k.Has e.width
  ext : b.Extends (loadIfVar v b').2

theorem OpExp.exists_coded {k : Sort2} (e : OpExp k) (hs : e.sound Γ = true) (b : Blk) :
    ∃ v b', e.Coded b v b' := by
  obtain ⟨v, b', hcalc, hc⟩ := e.calc_compiled b
  obtain ⟨w, hw, hhas, hwidth⟩ := hc.type
  obtain rfl := hwidth (e.sound_negates hs)
  exact ⟨v, b', hcalc, hw, hhas, hc.loaded.extends⟩

theorem setWidth_ofInt {w : Nat} (h : w ≤ 64) (i : Int) : (BitVec.ofInt 64 i).setWidth w = BitVec.ofInt w i := by
  have hdvd : ((2 ^ w : Nat) : Int) ∣ ((2 ^ 64 : Nat) : Int) := Int.natCast_dvd_natCast.mpr (Nat.pow_dvd_pow 2 h)
  have hpos : 0 ≤ i % ((2 ^ 64 : Nat) : Int) := Int.emod_nonneg i (by decide)
  apply BitVec.eq_of_toNat_eq
  rw [BitVec.toNat_setWidth, BitVec.toNat_ofInt, BitVec.toNat_ofInt, ← Int.emod_emod_of_dvd i hdvd,
    Int.toNat_emod hpos (Int.natCast_nonneg _), Int.toNat_natCast]

/-- The code of a variable loads it. -/
theorem loadIfVar_evaluates {s : State F} {b : Blk} {w : Nat} {x : Nat} {u : BitVec w} (hb : b.Aligned s)
    (hx : s.mem x = some (.int w u)) :
    b.Evaluates sem s (loadIfVar (.slot x (.int w)) b) (some (.int w u)) :=
  Blk.evaluates_emit (i := .load (.int w) (.slot x (.int w))) hb (by simp [State.exec, hx])

variable (sem) in
/-- **The code of a sound expression computes its value**, and goes wrong if it has none. -/
theorem OpExp.evaluates : ∀ {k : Sort2} (e : OpExp k), e.sound Γ = true → ∀ {s : State F} {b b' : Blk} {v : Val},
    s.mem = σ.memory Γ → b.Aligned s → e.calc b = some (v, b') →
    b.Evaluates sem s (loadIfVar v b') ((e.eval σ).map e.word)
  | _, .num t i bw h, hs, s, b, b', v, hmem, hb, hcalc => by
    obtain ⟨rfl, rfl⟩ := Prod.mk.inj (Option.some.inj hcalc)
    refine ⟨s, .refl ?_⟩
    show some (Word.int bw (BitVec.ofInt bw i)) = some (.int bw ((BitVec.ofInt 64 i).setWidth bw))
    rw [setWidth_ofInt (ParseInt_lt h).1]
  | _, .intVar x tp, hs, s, b, b', v, hmem, hb, hcalc => by
    obtain ⟨rfl, rfl⟩ := Prod.mk.inj (Option.some.inj hcalc)
    simp only [sound, Bool.and_eq_true, beq_iff_eq] at hs
    obtain ⟨rfl, hΓ⟩ := hs
    have hx : s.mem x = some (.int 64 (σ.int x)) := by
      rw [hmem, Valuation.memory, hΓ]
      rfl
    rw [eval, Option.map_some, word_int rfl]
    exact loadIfVar_evaluates hb hx
  | _, .boolConst val, hs, s, b, b', v, hmem, hb, hcalc => by
    obtain ⟨rfl, rfl⟩ := Prod.mk.inj (Option.some.inj hcalc)
    rw [eval, Option.map_some, word_bool]
    exact ⟨s, .refl (by cases val <;> rfl)⟩
  | _, .boolVar x, hs, s, b, b', v, hmem, hb, hcalc => by
    obtain ⟨rfl, rfl⟩ := Prod.mk.inj (Option.some.inj hcalc)
    have hΓ : Γ x = .bool := by simpa [sound] using hs
    have hx : s.mem x = some (.int 1 (.ofBool (σ.bool x))) := by
      rw [hmem, Valuation.memory, hΓ]
      rfl
    rw [eval, Option.map_some, word_bool]
    exact loadIfVar_evaluates hb hx
  | _, .unary minus child, hs, s, b, b', v, hmem, hb, hcalc => by
    simp only [sound, Bool.and_eq_true, Bool.not_eq_true'] at hs
    obtain ⟨rfl, hs⟩ := hs
    obtain ⟨c, b₁, hc⟩ := child.exists_coded hs b
    have hplus : (OpExp.unary false child).calc b = some (loadIfVar c b₁) := by
      simp [OpExp.calc, hc.code, Ast.unary]
    have heq := Option.some.inj (hplus.symm.trans hcalc)
    have hv : loadIfVar v b' = loadIfVar c b₁ := by
      have ht : v.ty = .int child.width := by rw [← hc.type, heq]
      rw [loadIfVar_int ht, heq]
    rw [hv]
    have hval : (OpExp.unary false child).eval σ = child.eval σ := by
      cases h : child.eval σ <;> simp [eval, h]
    rw [hval]
    exact child.evaluates hs hmem hb hc.code
  | _, .bin op left right, hs, s, b, b', v, hmem, hb, hcalc => by
    simp only [sound, Bool.and_eq_true, beq_iff_eq] at hs
    obtain ⟨⟨hm, hl⟩, hr⟩ := hs
    obtain ⟨r, b₁, hcr⟩ := right.exists_coded hr b
    obtain ⟨l, b₂, hcl⟩ := left.exists_coded hl (loadIfVar r b₁).2
    have hbin : binOp op (loadIfVar l b₂).1 (loadIfVar r b₁).1 (loadIfVar l b₂).2 = some (v, b') := by
      simpa [OpExp.calc, hcr.code, hcl.code] using hcalc
    obtain ⟨u, b₃, hu, htu, hext⟩ := binOp_emits op hcl.type hcr.type hcl.has hcr.has (loadIfVar l b₂).2
    obtain ⟨rfl, rfl⟩ := Prod.mk.inj (Option.some.inj (hu.symm.trans hbin))
    rw [loadIfVar_int htu]
    rcases Blk.Evaluates.both hb (right.evaluates hr hmem hb hcr.code) hcl.ext fun s' hmem' hb' =>
      left.evaluates hl (hmem'.trans hmem) hb' hcl.code with ⟨hnone, hwrong⟩ | ⟨_, _, s', hvr, hvl, hkeep, hc⟩
    · have heval : (OpExp.bin op left right).eval σ = none := by
        simp only [Option.map_eq_none_iff] at hnone
        rcases hnone with h | h <;> simp [eval, h]
      rw [heval]
      exact hwrong.before hext.extends
    · obtain ⟨y, hy, rfl⟩ := Option.map_eq_some_iff.mp hvr
      obtain ⟨x, hx, rfl⟩ := Option.map_eq_some_iff.mp hvl
      have hrun := binOp_evaluates op (hc.aligned hb) hcl.type hcr.type hcl.has hcr.has hm hc.eval hkeep hu
      have heval : ((OpExp.bin op left right).eval σ).map (OpExp.word (F := F) (.bin op left right)) =
          (op.int.eval x y).map (.int 64) := by
        simp only [eval, hx, hy, Option.bind_eq_bind, Option.bind_some]
        exact Option.map_congr fun z _ => word_int (e := .bin op left right) hm z
      rw [left.fits_bits hl hx, right.fits_bits hr hy] at hrun
      rw [heval]
      exact hc.then hrun
  | _, .compare op left right, hs, s, b, b', v, hmem, hb, hcalc => by
    simp only [sound, Bool.and_eq_true, beq_iff_eq] at hs
    obtain ⟨⟨hm, hl⟩, hr⟩ := hs
    obtain ⟨l, b₁, hcl⟩ := left.exists_coded hl b
    obtain ⟨r, b₂, hcr⟩ := right.exists_coded hr (loadIfVar l b₁).2
    have hcmp : Ast.compare op (loadIfVar l b₁).1 (loadIfVar r b₂).1 (loadIfVar r b₂).2 = some (v, b') := by
      simpa [OpExp.calc, hcl.code, hcr.code] using hcalc
    obtain ⟨u, b₃, hu, htu, hext⟩ := compare_emits op hcl.type hcr.type hcl.has hcr.has (loadIfVar r b₂).2
    obtain ⟨rfl, rfl⟩ := Prod.mk.inj (Option.some.inj (hu.symm.trans hcmp))
    rw [loadIfVar_int htu]
    rcases Blk.Evaluates.both hb (left.evaluates hl hmem hb hcl.code) hcr.ext fun s' hmem' hb' =>
      right.evaluates hr (hmem'.trans hmem) hb' hcr.code with ⟨hnone, hwrong⟩ | ⟨_, _, s', hvl, hvr, hkeep, hc⟩
    · have heval : (OpExp.compare op left right).eval σ = none := by
        simp only [Option.map_eq_none_iff] at hnone
        rcases hnone with h | h <;> simp [eval, h]
      rw [heval]
      exact hwrong.before hext.extends
    · obtain ⟨x, hx, rfl⟩ := Option.map_eq_some_iff.mp hvl
      obtain ⟨y, hy, rfl⟩ := Option.map_eq_some_iff.mp hvr
      have hrun := compare_evaluates op (hc.aligned hb) hcl.type hcr.type hcl.has hcr.has hm hkeep hc.eval hu
      rw [left.fits_bits hl hx, right.fits_bits hr hy] at hrun
      have heval : (OpExp.compare op left right).eval σ = some (op.eval x y) := by simp [eval, hx, hy]
      rw [heval, Option.map_some, word_bool]
      exact hc.then hrun
  | _, .boolExp op left right, hs, s, b, b', v, hmem, hb, hcalc => by
    simp only [sound, Bool.and_eq_true] at hs
    obtain ⟨⟨hl, hr⟩, htotal⟩ := hs
    obtain ⟨l, b₁, hcl⟩ := left.exists_coded hl b
    obtain ⟨r, b₂, hcr⟩ := right.exists_coded hr (loadIfVar l b₁).2
    have hemit : (loadIfVar r b₂).2.emit (.int op.int (loadIfVar l b₁).1 (loadIfVar r b₂).1) = (v, b') := by
      simpa [OpExp.calc, hcl.code, hcr.code] using hcalc
    have hv : _ = v := congrArg Prod.fst hemit
    have htv : v.ty = .int 1 := by
      rw [← hv, ← left.width_bool]
      exact hcl.type
    rw [loadIfVar_int htv, ← hemit]
    rcases Blk.Evaluates.both hb (left.evaluates hl hmem hb hcl.code) hcr.ext fun s' hmem' hb' =>
      right.evaluates hr (hmem'.trans hmem) hb' hcr.code with ⟨hnone, hwrong⟩ | ⟨_, _, s', hvl, hvr, hkeep, hc⟩
    · obtain ⟨y, hy⟩ := Option.isSome_iff_exists.mp (right.eval_isSome σ htotal)
      have hx : left.eval σ = none := by simpa [hy] using hnone
      have heval : (OpExp.boolExp op left right).eval σ = none := by cases op <;> simp [eval, hx]
      rw [heval]
      exact hwrong.before (Blk.extends_emit _ _)
    · obtain ⟨x, hx, rfl⟩ := Option.map_eq_some_iff.mp hvl
      obtain ⟨y, hy, rfl⟩ := Option.map_eq_some_iff.mp hvr
      rw [word_bool] at hkeep
      have hval := hc.eval
      rw [word_bool] at hval
      -- with both operands there, it makes no difference which of them was needed
      have heval : (OpExp.boolExp op left right).eval σ = some (op.apply x y) := by
        cases op <;> cases x <;> simp [eval, hx, hy, BoolOp.apply]
      rw [heval, Option.map_some, word_bool]
      refine hc.then (Blk.evaluates_emit (hc.aligned hb) ?_)
      cases op <;> cases x <;> cases y <;>
        simp [State.exec, State.eval₂, hkeep, hval, intWords, BoolOp.int, IntOp.eval, BoolOp.apply]
  | _, .notN bool, hs, s, b, b', v, hmem, hb, hcalc => by
    obtain ⟨c, b₁, hc⟩ := bool.exists_coded hs b
    have hemit : (loadIfVar c b₁).2.emit (.icmp .eq (loadIfVar c b₁).1 (boolVal false)) = (v, b') := by
      simpa [OpExp.calc, hc.code] using hcalc
    have hv : _ = v := congrArg Prod.fst hemit
    have htv : v.ty = .int 1 := by
      rw [← hv]
      rfl
    rw [loadIfVar_int htv, ← hemit]
    have hrun := bool.evaluates hs hmem hb hc.code
    cases hx : bool.eval σ with
    | none =>
      rw [hx] at hrun
      rw [eval, hx]
      exact Blk.Evaluates.before hrun (Blk.extends_emit _ _)
    | some x =>
      rw [hx, Option.map_some, word_bool] at hrun
      obtain ⟨s', hcomp⟩ := hrun
      rw [eval, hx, Option.map_some, Option.map_some, word_bool]
      refine hcomp.then (Blk.evaluates_emit (hcomp.aligned hb) ?_)
      have hfalse : (boolVal false).eval sem s' = some (.int 1 0) := rfl
      cases x <;> simp [State.exec, State.eval₂, hcomp.eval, hfalse, intWords, Pred.eval]

end Compile

end CalcLang.Ast
