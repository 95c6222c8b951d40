import CalcLang.Ast.Numeric
import Mathlib.Tactic.Common

/-!
# Widening: what mixed-width code computes

Both places that bring integers to a common width, `hasFloatType` for operators
and `implicitCast` for stores, calls and returns, emit `zext`, while division,
remainder, right shift and the comparisons are emitted as signed operations. So
a mixed operation is the signed operation on the *unsigned* value of its narrower
operand: `binOp_ints`, `compare_ints`.

`Widens v` is what one expects of an `int32` value `v` that meets the 64-bit
`int`, in every context in which the compiler widens it. It holds exactly for
the values that are not negative: `widens_iff`.
-/

namespace CalcLang.Ast

variable {F : Type} {sem : Sem F} {s : State F} {b : Blk} {v l r : Val} {w wl wr m : Nat}

/-- The integer operation of an operator. -/
def BinOp.int : BinOp → IntOp
  | .plus => .add
  | .div => .sdiv
  | .mul => .mul
  | .sub => .sub
  | .ps => .srem
  | .shl => .shl
  | .shr => .ashr
  | .bitOr => .or
  | .bitXor => .xor
  | .esp => .and

theorem BinOp.inst_int (op : BinOp) (l r : Val) : op.inst false l r = .int op.int l r := by
  cases op <;> rfl

/-! ## The two ways to widen -/

/-- Widening fills up with zeros. -/
theorem widen_computes (hb : b.Aligned s) (hv : v.ty = .int w) {x : BitVec w}
    (hx : v.eval sem s = some (.int w x)) (k m : Nat) :
    (widen false k m v b).1.ty = .int m ∧
      ∃ s', b.Computes sem s (widen false k m v b) s' (.int m (x.setWidth m)) := by
  by_cases hw : w = m
  · subst hw
    simp only [widen, Bool.false_eq_true, if_false, hv, if_true, BitVec.setWidth_eq, true_and]
    exact ⟨s, .refl hx⟩
  · have hne : v.ty ≠ .int m := by simp [hv, hw]
    simp only [widen, Bool.false_eq_true, if_false, hne]
    exact ⟨rfl, _, .emit hb (by simp [State.exec, hx])⟩

/-- So does an implicit cast. -/
theorem implicitCast_computes (hb : b.Aligned s) (hv : v.ty = .int w) {x : BitVec w}
    (hx : v.eval sem s = some (.int w x)) (hm : w ≤ m) :
    ∃ p s', implicitCast v (.int m) b = some p ∧ p.1.ty = .int m ∧
      b.Computes sem s p s' (.int m (x.setWidth m)) := by
  by_cases hw : w = m
  · subst hw
    exact ⟨(v, b), s, by simp [implicitCast, hv], hv, by simpa using Blk.Computes.refl hx⟩
  · refine ⟨b.emit (.zext v m), s.push (some (.int m (x.setWidth m))), ?_, rfl, .emit hb ?_⟩
    · simp [implicitCast, hv, hw, Nat.not_lt.mpr hm]
    · simp [State.exec, hx]

/-- Two integer operands are brought to the wider of their widths. -/
theorem hasFloatType_ints (hb : b.Aligned s) (hl : l.ty = .int wl) (hr : r.ty = .int wr)
    (hwl : 8 ≤ wl) (hwr : 8 ≤ wr) (hm : max wl wr = m) {x : BitVec wl} {y : BitVec wr}
    (hx : l.eval sem s = some (.int wl x)) (hy : r.eval sem s = some (.int wr y)) :
    ∃ l' r' b' s', hasFloatType b [l, r] = (false, [l', r'], b') ∧
      l'.ty = .int m ∧ r'.ty = .int m ∧
      l'.eval sem s' = some (.int _ (x.setWidth m)) ∧
      b.Computes sem s (r', b') s' (.int _ (y.setWidth m)) := by
  have hmax : [l, r].foldl maxBits 8 = m := by
    simp only [List.foldl, maxBits, hl, hr]
    split <;> split <;> omega
  have hnum : [l, r].all (fun v => v.ty.isNumeric) = true := by
    simp [hl, hr, Ty.isNumeric]
    omega
  have hflt : [l, r].any (fun v => v.ty.isFloat) = false := by simp [hl, hr, Ty.isFloat]
  simp only [hasFloatType, hnum, hflt, hmax, if_true, widenAll]
  obtain ⟨htl, s₁, h₁⟩ := widen_computes hb hl hx ([l, r].foldl maxKind 0) m
  obtain ⟨htr, s₂, h₂⟩ := widen_computes (h₁.aligned hb) hr (h₁.keep hy)
    ([l, r].foldl maxKind 0) m
  exact ⟨_, _, _, s₂, rfl, htl, htr, h₂.keep h₁.eval, h₁.trans h₂⟩

/-! ## Mixed operations -/

/-- **An operator on two integers** computes on their zero-extended values. -/
theorem binOp_ints (op : BinOp) (hb : b.Aligned s) (hl : l.ty = .int wl) (hr : r.ty = .int wr)
    (hwl : 8 ≤ wl) (hwr : 8 ≤ wr) (hm : max wl wr = m) {x : BitVec wl} {y : BitVec wr}
    (hx : l.eval sem s = some (.int wl x)) (hy : r.eval sem s = some (.int wr y)) :
    ∃ p, binOp op l r b = some p ∧ p.1.ty = .int m ∧
      b.value sem s (some p) =
        (op.int.eval (x.setWidth m) (y.setWidth m)).map (.int _) ∧
      ∀ z, op.int.eval (x.setWidth m) (y.setWidth m) = some z →
        ∃ s', b.Computes sem s p s' (.int _ z) := by
  obtain ⟨l', r', b', s₁, h, htl, htr, hl', hc⟩ :=
    hasFloatType_ints hb hl hr hwl hwr hm hx hy
  have hcomp : ∀ z, op.int.eval (x.setWidth m) (y.setWidth m) = some z →
      ∃ s', b.Computes sem s (b'.emit (.int op.int l' r')) s' (.int _ z) := by
    intro z hz
    refine ⟨_, hc.trans (.emit (hc.aligned hb) ?_)⟩
    simp [State.exec, State.eval₂, hl', hc.eval, intWords, hz]
  refine ⟨b'.emit (.int op.int l' r'), by simp [binOp, h, op.inst_int], htl, ?_, hcomp⟩
  cases hz : op.int.eval (x.setWidth m) (y.setWidth m) with
  | none =>
    rw [Blk.value, hc.ran_after [.int op.int l' r'] rfl]
    simp [State.execs, State.exec, State.eval₂, hl', hc.eval, intWords, hz]
  | some z =>
    obtain ⟨s', hs'⟩ := hcomp z hz
    rw [hs'.value]
    rfl

/-- **A comparison of two integers** compares their zero-extended values, as
signed numbers. -/
theorem compare_ints (op : Pred) (hb : b.Aligned s) (hl : l.ty = .int wl) (hr : r.ty = .int wr)
    (hwl : 8 ≤ wl) (hwr : 8 ≤ wr) (hm : max wl wr = m) {x : BitVec wl} {y : BitVec wr}
    (hx : l.eval sem s = some (.int wl x)) (hy : r.eval sem s = some (.int wr y)) :
    b.value sem s (compare op l r b) =
      some (.int 1 (.ofBool (op.eval (x.setWidth m) (y.setWidth m)))) := by
  obtain ⟨l', r', b', s₁, h, -, -, hl', hc⟩ := hasFloatType_ints hb hl hr hwl hwr hm hx hy
  have hcmp : compare op l r b = some (b'.emit (.icmp op l' r')) := by simp [compare, h]
  rw [hcmp]
  refine (hc.trans (.emit (hc.aligned hb) ?_)).value
  simp [State.exec, State.eval₂, hl', hc.eval, intWords]

/-! ## Definitions -/

/-- **`x := v`** stores the zero-extended value in the new variable. -/
theorem defAndAssign_stores (hb : b.Aligned s) (hv : v.ty = .int w) (hw : 8 ≤ w) (hw' : w ≤ 64)
    {x : BitVec w} (hx : v.eval sem s = some (.int w x)) :
    ∃ q is s', defAndAssign false v b = some (.slot b.slots (.int 64), q) ∧
      q.insts = b.insts ++ is ∧ State.execs sem s is = some s' ∧
      s'.mem b.slots = some (.int 64 (x.setWidth 64)) := by
  have hb' : (b.alloc (.int 64)).2.Aligned s := hb
  obtain ⟨p, s₁, hp, hty, hc⟩ := implicitCast_computes hb' hv hx hw'
  obtain ⟨is, his, hrun⟩ := hc.run
  refine ⟨(p.2.emit (.store p.1 (.slot b.slots (.int 64)))).2,
    is ++ [.store p.1 (.slot b.slots (.int 64))],
    { s₁ with mem := Function.update s₁.mem b.slots (some (.int 64 (x.setWidth 64))) }.push none,
    ?_, ?_, ?_, ?_⟩
  · have hne : w ≠ 1 := by omega
    simp only [Blk.alloc] at hp
    simp [defAndAssign, defType, hv, hne, DefaultIntType, hp, store, hty, Blk.alloc]
  · simp [Blk.emit, his, Blk.alloc]
  · simp [State.execs_append, hrun, State.execs, State.exec, hc.eval]
  · simp [State.push]

/-! ## Signed values -/

/-- What is expected of an `int32` value where the compiler widens it to `int`:
the 64-bit value that equals it, in a store, a definition, an argument, a return
value, and as either operand of a mixed operation. -/
structure Widens (sem : Sem F) (v : BitVec 32) : Prop where
  assign : ∀ (b : Blk) (s : State F) (x : Nat) (l r : Val) (u : BitVec 64), b.Aligned s →
    l.ty = .int 64 → l.eval sem s = some (.int 64 u) →
    r.ty = .int 32 → r.eval sem s = some (.int 32 v) →
    (b.ran sem s (CalcLang.Ast.assign (.slot x (.int 64)) l r b)).bind (fun p => p.2.mem x) =
      some (.int 64 (v.signExtend 64))
  define : ∀ (b : Blk) (s : State F) (r : Val), b.Aligned s →
    r.ty = .int 32 → r.eval sem s = some (.int 32 v) →
    (b.ran sem s (defAndAssign false r b)).bind (fun p => p.2.mem b.slots) =
      some (.int 64 (v.signExtend 64))
  arg : ∀ (b : Blk) (s : State F) (r : Val) (fn : Nat), b.Aligned s →
    (∀ ws, (sem.callee fn ws).isSome) →
    r.ty = .int 32 → r.eval sem s = some (.int 32 v) →
    (b.ran sem s (callFunc fn [.int 64] (.int 64) [r] b)).map (fun p => p.2.calls) =
      some (s.calls ++ [(fn, [.int 64 (v.signExtend 64)])])
  ret : ∀ (b : Blk) (s : State F) (r : Val), b.Aligned s →
    r.ty = .int 32 → r.eval sem s = some (.int 32 v) →
    b.value sem s (implicitCast r (.int 64) b) = some (.int 64 (v.signExtend 64))
  left : ∀ (op : BinOp) (b : Blk) (s : State F) (l r : Val) (u : BitVec 64), b.Aligned s →
    l.ty = .int 32 → l.eval sem s = some (.int 32 v) →
    r.ty = .int 64 → r.eval sem s = some (.int 64 u) →
    b.value sem s (binOp op l r b) = (op.int.eval (v.signExtend 64) u).map (.int 64)
  right : ∀ (op : BinOp) (b : Blk) (s : State F) (l r : Val) (u : BitVec 64), b.Aligned s →
    l.ty = .int 64 → l.eval sem s = some (.int 64 u) →
    r.ty = .int 32 → r.eval sem s = some (.int 32 v) →
    b.value sem s (binOp op l r b) = (op.int.eval u (v.signExtend 64)).map (.int 64)
  compareLeft : ∀ (op : Pred) (b : Blk) (s : State F) (l r : Val) (u : BitVec 64), b.Aligned s →
    l.ty = .int 32 → l.eval sem s = some (.int 32 v) →
    r.ty = .int 64 → r.eval sem s = some (.int 64 u) →
    b.value sem s (compare op l r b) = some (.int 1 (.ofBool (op.eval (v.signExtend 64) u)))
  compareRight : ∀ (op : Pred) (b : Blk) (s : State F) (l r : Val) (u : BitVec 64), b.Aligned s →
    l.ty = .int 64 → l.eval sem s = some (.int 64 u) →
    r.ty = .int 32 → r.eval sem s = some (.int 32 v) →
    b.value sem s (compare op l r b) = some (.int 1 (.ofBool (op.eval u (v.signExtend 64))))

/-- The zero extension of a negative value is another value. -/
theorem signExtend_eq_iff (v : BitVec 32) :
    v.setWidth 64 = v.signExtend 64 ↔ 0 ≤ v.toInt := by
  constructor
  · intro h
    have hint := congrArg BitVec.toInt h
    rw [BitVec.toInt_signExtend_of_le (by decide)] at hint
    rw [← hint, BitVec.toInt_setWidth]
    have := v.isLt
    rw [Int.bmod_eq_of_le] <;> omega
  · intro h
    rw [BitVec.signExtend_eq_setWidth_of_msb_false]
    exact BitVec.msb_eq_false_iff_two_mul_lt.mpr (by
      have := BitVec.toInt_eq_toNat_cond v
      omega)

/-- **Implicit widening keeps a signed value exactly if it is not negative**, in
every context. -/
theorem widens_iff (sem : Sem F) (v : BitVec 32) : Widens sem v ↔ 0 ≤ v.toInt := by
  rw [← signExtend_eq_iff]
  constructor
  · intro h
    have hb : Blk.Aligned (F := F) ⟨[], 0⟩ ⟨[], fun _ => none, []⟩ := rfl
    have hv : (Val.int 32 v.toInt).eval sem ⟨[], fun _ => none, []⟩ = some (.int 32 v) := by
      simp [Val.eval]
    have hret := h.ret ⟨[], 0⟩ ⟨[], fun _ => none, []⟩ (.int 32 v.toInt) hb rfl hv
    obtain ⟨p, s', hp, -, hc⟩ := implicitCast_computes hb rfl hv
      (show 32 ≤ 64 by decide)
    rw [hp, hc.value] at hret
    simpa using hret
  · intro hv
    constructor
    -- an assignment, a definition, an argument, what is returned, and the operands
    · intro b s x l r u hb hl hu hr hx
      obtain ⟨l', r', b', s', h, -, htr, -, hc⟩ :=
        hasFloatType_ints hb hl hr (by decide) (by decide) (show max 64 32 = 64 by decide) hu hx
      have hassign : CalcLang.Ast.assign (.slot x (.int 64)) l r b =
          some (zero, (b'.emit (.store r' (.slot x (.int 64)))).2) := by
        simp [CalcLang.Ast.assign, h, implicitCast, htr, store]
      rw [hassign, hc.ran_after [.store r' (.slot x (.int 64))] rfl]
      simp [State.execs, State.exec, hc.eval, State.push, hv]
    · intro b s r hb hr hx
      obtain ⟨q, is, s', hq, his, hrun, hmem⟩ :=
        defAndAssign_stores hb hr (by decide) (by decide) hx
      simp [hq, Blk.ran, his, hrun, hmem, hv]
    · intro b s r fn hb hfn hr hx
      obtain ⟨p, s', hp, -, hc⟩ := implicitCast_computes hb hr hx (m := 64) (by decide)
      obtain ⟨w, hw⟩ := Option.isSome_iff_exists.mp (hfn [Word.int 64 (v.setWidth 64)])
      have hal : s'.regs.length = p.2.insts.length := hc.aligned hb
      have hcall : callFunc fn [.int 64] (.int 64) [r] b = some (.slot p.2.slots (.int 64),
          (((p.2.emit (.call fn [p.1] (.int 64))).2.alloc (.int 64)).2.emit
            (.store (.reg p.2.insts.length (.int 64)) (.slot p.2.slots (.int 64)))).2) := by
        simp [callFunc, castParams, hp, store, Blk.emit, Blk.alloc, Val.ty, Inst.ty]
      rw [hcall, hc.ran_after [.call fn [p.1] (.int 64),
        .store (.reg p.2.insts.length (.int 64)) (.slot p.2.slots (.int 64))]
        (by simp [Blk.emit, Blk.alloc])]
      have hexec : s'.exec sem (.call fn [p.1] (.int 64)) = some
          (State.push { s' with calls := s'.calls ++ [(fn, [Word.int 64 (v.setWidth 64)])] }
            (some w)) := by
        simp [State.exec, hc.eval, hw]
      simp only [State.execs, hexec, Option.bind_some]
      simp [State.exec, Val.eval, State.push, ← hal, hc.calls, hv]
    · intro b s r hb hr hx
      obtain ⟨p, s', hp, -, hc⟩ := implicitCast_computes hb hr hx (m := 64) (by decide)
      rw [hp, hc.value, hv]
    · intro op b s l r u hb hl hx hr hu
      obtain ⟨p, hp, -, hval, -⟩ := binOp_ints op hb hl hr (m := 64) (by decide) (by decide)
        (by decide) hx hu
      rw [hp, hval, ← hv, BitVec.setWidth_eq]
    · intro op b s l r u hb hl hu hr hx
      obtain ⟨p, hp, -, hval, -⟩ := binOp_ints op hb hl hr (m := 64) (by decide) (by decide)
        (by decide) hu hx
      rw [hp, hval, ← hv, BitVec.setWidth_eq]
    · intro op b s l r u hb hl hx hr hu
      rw [compare_ints op hb hl hr (m := 64) (by decide) (by decide) (by decide) hx hu, ← hv,
        BitVec.setWidth_eq]
    · intro op b s l r u hb hl hu hr hx
      rw [compare_ints op hb hl hr (m := 64) (by decide) (by decide) (by decide) hu hx, ← hv,
        BitVec.setWidth_eq]

/-- `-1` in an `int32` is 4294967295 once it is returned as an `int`. -/
theorem minus_one_widened : ¬ ∀ (sem : Sem Unit) (v : BitVec 32), Widens sem v := by
  intro h
  have hret := (h ⟨fun _ _ => (), fun _ _ => (), fun _ _ => (), fun _ _ _ => (), fun _ _ _ => true,
    fun _ _ => none⟩ (-1)).ret ⟨[], 0⟩ ⟨[], fun _ => none, []⟩ (.int 32 (-1)) rfl rfl rfl
  revert hret
  decide

end CalcLang.Ast
