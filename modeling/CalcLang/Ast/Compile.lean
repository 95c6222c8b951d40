import CalcLang.Ast.ControlRefine
import CalcLang.Ast.Meaning
import CalcLang.Lib.Interp
import Mathlib.Data.List.Forall2

/-!
# Compiled functions

`calcBody` makes a graph of a function body, in which definitions, assignments and conditions are still as they stand
in the source. `Block.compile` fills a block: `DefAndAssignNode.calc`, `BinNode.calc` of an assignment and the `calc` of
a condition append their instructions, and the terminator branches on the value that the condition has come to.

What the body means is known without the graph: `run` says what comes next, `language` what is done with the variables.
`compile_correct` compares the two for bodies whose graph is wired right (`wiredSL`) and whose expressions are sound
(`OpExp.sound`). The variables are in memory then, under their slots, and the instructions of a block go wrong just if
the source does.
-/

namespace CalcLang.Ast

open CalcLang.Lib

/-! ## The language -/

/-- What a function does between its branches. A variable is named by its slot. -/
inductive Code where
  | define {k : Sort2} (x : Nat) (val : OpExp k)
  | assign {k : Sort2} (x : Nat) (right : OpExp k)
  | cond (boolExp : OpExp .bool)

/-- The meaning of a function's parts. -/
def language : Interp Code Valuation where
  act
    | .define x e, σ | .assign x e, σ => (e.eval σ).map (σ.set x)
    | .cond e, σ => (e.eval σ).map fun _ => σ
  test
    | .cond e, σ => e.eval σ
    | _, _ => none

/-- The variables are those of `Γ`, and expressions are sound. -/
def Code.sound (Γ : Nat → Sort2) : Code → Bool
  | @define k x e | @assign k x e => Γ x == k && e.sound Γ
  | .cond e => e.sound Γ

/-- What may be branched on. -/
def Code.isCond : Code → Bool
  | .cond _ => true
  | _ => false

variable {α : Type}

mutual

/-- All of a statement's parts satisfy `p`, and its conditions `q`. -/
def Stmt.all (p q : α → Bool) : Stmt α → Bool
  | .atom a => p a
  | .ifN c statements => q c && allSL p q statements
  | .ifElse c statements elSt => q c && allSL p q statements && allSL p q elSt
  | .forN defineAssign bool assign statements =>
    defineAssign.all p && bool.all q && assign.all p && allSL p q statements
  | .breakN | .continueN | .retN => true

def allSL (p q : α → Bool) : List (Stmt α) → Bool
  | [] => true
  | st :: sts => st.all p q && allSL p q sts

end

theorem allSL_append {p q : α → Bool} (xs ys : List (Stmt α)) :
    allSL p q (xs ++ ys) = (allSL p q xs && allSL p q ys) := by
  induction xs with
  | nil => rfl
  | cons st xs ih => rw [List.cons_append, allSL, allSL, ih, Bool.and_assoc]

/-- A body the code of whose parts means what they mean. -/
def soundSL (Γ : Nat → Sort2) (body : List (Stmt Code)) : Bool :=
  allSL (Code.sound Γ) (fun c => c.isCond && c.sound Γ) body

/-! ## Code generation -/

/-- `calc` of a part. A definition's storage is the slot of its variable. -/
def Code.calc : Code → Blk → Option (Val × Blk)
  | .define x val, b => do
    let (rawval, b) ← val.calc b
    let (val, b) := loadIfVar rawval b
    defAndAssign false val { b with slots := x }
  | @assign k x right, b => do
    let (rawR, b) ← right.calc b
    let (r, b) := loadIfVar rawR b
    let rawL := .slot x (.int k.width)
    let (l, b) := loadIfVar rawL b
    Ast.assign rawL l r b
  | .cond boolExp, b => do
    let (v, b) ← boolExp.calc b
    return loadIfVar v b

/-- A block of instructions. -/
structure CodeBlock where
  insts : List Inst
  term : Option (Term Val)
deriving DecidableEq, Repr

/-- The parts of a block, one after the other. -/
def calcParts : List Code → Blk → Option Blk
  | [], b => some b
  | c :: cs, b => do
    let (_, b) ← c.calc b
    calcParts cs b

/-- The terminator of a block: a condition's instructions stand in front of it. -/
def calcTerm : Option (Term Code) → Blk → Option (Option (Term Val) × Blk)
  | none, b => some (none, b)
  | some (.br t), b => some (some (.br t), b)
  | some .ret, b => some (some .ret, b)
  | some (.condBr c t f), b => do
    let (v, b) ← c.calc b
    return (some (.condBr v t f), b)

def Block.compile (blk : Block Code) : Option CodeBlock := do
  let b ← calcParts blk.insts ⟨[], 0⟩
  let (t, b) ← calcTerm blk.term b
  return ⟨b.insts, t⟩

/-- The blocks of a function. -/
def Func.compile (g : Func Code) : Option (List CodeBlock) := (List.range g.size).mapM fun b => (g.block b).compile

/-! ## The machine -/

/-- What a branch takes for true. -/
def Word.truth {F : Type} : Word F → Option Bool
  | .int 1 b => some (b == 1)
  | _ => none

/-- Where a block goes when `d` has come out of it: `test` is what a condition comes to. -/
def Term.leave {ν δ : Type} (test : ν → Option Bool) (d : δ) : Option (Term ν) → (Nat × δ) ⊕ Outcome δ
  | none => .inr .stuck
  | some .ret => .inr (.ended d)
  | some (.br b) => .inl (b, d)
  | some (.condBr c t f) =>
    match test c with
    | none => .inr .wrong
    | some x => .inl (if x then t else f, d)

/-- A block is run from its first instruction. -/
def CodeBlock.run {F : Type} (sem : Sem F) (blk : CodeBlock) (m : Nat → Option (Word F)) :
    (Nat × (Nat → Option (Word F))) ⊕ Outcome (Nat → Option (Word F)) :=
  match State.execs sem ⟨[], m, []⟩ blk.insts with
  | none => .inr .wrong
  | some s => Term.leave (fun v => (v.eval sem s).bind Word.truth) s.mem blk.term

/-- The function is run, block by block. -/
def machine {F : Type} (sem : Sem F) (code : List CodeBlock) (c : Nat × (Nat → Option (Word F))) :
    (Nat × (Nat → Option (Word F))) ⊕ Outcome (Nat → Option (Word F)) :=
  match code[c.1]? with
  | none => .inr .stuck
  | some blk => blk.run sem c.2

/-- What a block of the graph does to the data. -/
def Block.run {α δ : Type} (I : Interp α δ) (blk : Block α) (d : δ) : (Nat × δ) ⊕ Outcome δ :=
  match blk.insts.foldlM (fun d a => I.act a d) d with
  | none => .inr .wrong
  | some d => Term.leave (fun c => I.test c d) d blk.term

/-! ## What is in the graph -/

/-- All parts in the blocks satisfy `p`, and the conditions of branches `q`. -/
structure Func.All (p q : α → Bool) (g : Func α) : Prop where
  insts : ∀ b, ∀ a ∈ (g.block b).insts, p a = true
  conds : ∀ b c t f, (g.block b).term = some (.condBr c t f) → q c = true

section All

variable {p q : α → Bool} {g : Func α} {b : Nat}

theorem Func.All.newBlock (h : g.All p q) : g.newBlock.All p q := by
  constructor
  · intro b a ha
    by_cases hb : b = g.size
    · simp [Func.newBlock, hb] at ha
    · exact h.insts b a (by simpa [Func.newBlock, Function.update_of_ne hb] using ha)
  · intro b c t f hc
    by_cases hb : b = g.size
    · simp [Func.newBlock, hb] at hc
    · exact h.conds b c t f (by simpa [Func.newBlock, Function.update_of_ne hb] using hc)

theorem Func.All.append (h : g.All p q) {a : α} (ha : p a = true) : (g.append b a).All p q := by
  constructor
  · intro b' a' ha'
    by_cases hb : b' = b
    · subst hb
      simp only [Func.append, Function.update_self, List.mem_append, List.mem_singleton] at ha'
      rcases ha' with ha' | rfl
      · exact h.insts b' a' ha'
      · exact ha
    · exact h.insts b' a' (by simpa [Func.append, Function.update_of_ne hb] using ha')
  · intro b' c t f hc
    refine h.conds b' c t f ?_
    by_cases hb : b' = b
    · subst hb
      simpa [Func.append] using hc
    · simpa [Func.append, Function.update_of_ne hb] using hc

theorem Func.All.setTerm (h : g.All p q) {t : Term α} (ht : ∀ c x y, t = .condBr c x y → q c = true) :
    (g.setTerm b t).All p q := by
  constructor
  · intro b' a ha
    refine h.insts b' a ?_
    by_cases hb : b' = b
    · subst hb
      simpa [Func.setTerm] using ha
    · simpa [Func.setTerm, Function.update_of_ne hb] using ha
  · intro b' c x y hc
    by_cases hb : b' = b
    · subst hb
      exact ht c x y (by simpa [Func.setTerm] using hc)
    · exact h.conds b' c x y (by simpa [Func.setTerm, Function.update_of_ne hb] using hc)

theorem Func.All.setBr (h : g.All p q) {e : Nat} : (g.setTerm b (.br e)).All p q := h.setTerm fun _ _ _ hc => nomatch hc

theorem Func.All.setCond (h : g.All p q) {c : α} {x y : Nat} (hc : q c = true) :
    (g.setTerm b (.condBr c x y)).All p q := by
  refine h.setTerm fun c' _ _ heq => ?_
  cases heq
  exact hc

theorem Func.All.closeTo (h : g.All p q) {e : Nat} : (g.closeTo b e).All p q := by
  unfold Func.closeTo
  split
  · exact h.setBr
  · exact h

theorem Func.All.toParent (h : g.All p q) (parent : Option Nat) : (g.toParent b parent).All p q := by
  cases parent with
  | none => exact h
  | some _ => exact h.setBr

theorem Func.All.branch (h : g.All p q) {c : Option α} {yes no : Nat} (hc : c.all q = true) :
    (g.branch b c yes no).All p q := by
  cases c with
  | none => exact h.setBr
  | some c => exact h.setCond hc

theorem Func.All.appendOpt (h : g.All p q) {a : Option α} (ha : a.all p = true) : (g.appendOpt b a).All p q := by
  cases a with
  | none => exact h
  | some a => exact h.append ha

mutual

/-- Code generation makes nothing up. -/
theorem Stmt.calc_all (parent : Option Nat) : ∀ (st : Stmt α) (s : Scope) (g : Func α), st.all p q = true →
    g.All p q → (st.calc parent s g).2.All p q
  | .atom a, s, g, hst, h => h.append hst
  | .ifN c statements, s, g, hst, h => by
    simp only [Stmt.all, Bool.and_eq_true] at hst
    exact (((calcSL_all _ statements _ _ hst.2 h.newBlock).newBlock.setCond hst.1).closeTo).toParent parent
  | .ifElse c statements elSt, s, g, hst, h => by
    simp only [Stmt.all, Bool.and_eq_true] at hst
    have hbody := calcSL_all (some (g.size + 2)) statements (s.addChildScope g.size) _ hst.1.2
      (h.newBlock.newBlock.newBlock.setCond (b := s.block) (x := g.size) (y := g.size + 1) hst.1.1)
    exact ((calcSL_all _ elSt _ _ hst.2 hbody).closeTo.closeTo).toParent parent
  | .forN defineAssign bool assign statements, s, g, hst, h => by
    simp only [Stmt.all, Bool.and_eq_true] at hst
    have hhead : (((g.newBlock.newBlock.newBlock).appendOpt s.block defineAssign).branch s.block bool (g.size + 1)
        (g.size + 2)).All p q := (h.newBlock.newBlock.newBlock.appendOpt hst.1.1.1).branch hst.1.1.2
    exact (((calcSL_all _ statements _ _ hst.2 hhead).appendOpt hst.1.2).branch hst.1.1.2).setBr
  | .breakN, s, g, _, h => by
    cases hb : s.breakBlock with
    | none =>
      simp only [Stmt.calc, hb]
      exact ⟨h.insts, h.conds⟩
    | some e => simpa [Stmt.calc, hb] using h.setBr
  | .continueN, s, g, _, h => by
    cases hb : s.continueBlock with
    | none =>
      simp only [Stmt.calc, hb]
      exact ⟨h.insts, h.conds⟩
    | some e => simpa [Stmt.calc, hb] using h.setBr
  | .retN, s, g, _, h => h.setTerm fun _ _ _ hc => nomatch hc

theorem calcSL_all (parent : Option Nat) : ∀ (sts : List (Stmt α)) (s : Scope) (g : Func α), allSL p q sts = true →
    g.All p q → (calcSL parent sts s g).2.All p q
  | [], s, g, _, h => h
  | st :: sts, s, g, hst, h => by
    simp only [allSL, Bool.and_eq_true] at hst
    exact calcSL_all parent sts _ _ hst.2 (st.calc_all parent s g hst.1 h)

end

theorem calcBody_all (parent : Option Nat) {body : List (Stmt α)} (h : allSL p q body = true) :
    (calcBody parent body).All p q := by
  refine calcSL_all parent body _ _ h ⟨?_, ?_⟩
  · intro _ a ha
    cases ha
  · intro _ c t f hc
    cases hc

end All

/-! ## What the parts do -/

/-- The instructions that were appended take the memory to `o`, and go wrong where that is nothing. -/
def Blk.Does {F : Type} (sem : Sem F) (b : Blk) (s : State F) (b' : Blk) (o : Option (Nat → Option (Word F))) : Prop :=
  ∃ is, b'.insts = b.insts ++ is ∧ (State.execs sem s is).map State.mem = o

section Parts

variable {F : Type} {sem : Sem F} {Γ : Nat → Sort2} {σ : Valuation} {s s' : State F} {b b' b'' : Blk} {v l r : Val}
  {w x : Nat} {k : Sort2} {o : Option (Nat → Option (Word F))} {m : Nat → Option (Word F)}

theorem Blk.Does.before (h : b.Does sem s b' none) (hext : b'.Extends b'') : b.Does sem s b'' none := by
  obtain ⟨is, his, hrun⟩ := h
  obtain ⟨js, hjs⟩ := hext
  refine ⟨is ++ js, by rw [hjs, his, List.append_assoc], ?_⟩
  rw [State.execs_append, Option.map_eq_none_iff.mp hrun]
  rfl

theorem Blk.Does.then (hb : b.Aligned s) (h : b.Does sem s b' (some m))
    (h' : ∀ s', s'.mem = m → b'.Aligned s' → b'.Does sem s' b'' o) : b.Does sem s b'' o := by
  obtain ⟨is, his, hrun⟩ := h
  obtain ⟨s', hs', hm⟩ := Option.map_eq_some_iff.mp hrun
  have hal : b'.Aligned s' := by
    obtain ⟨ws, hws, hlen⟩ := State.execs_regs hs'
    rw [Blk.Aligned, hws, his, List.length_append, List.length_append, hb, hlen]
  obtain ⟨js, hjs, hrun'⟩ := h' s' hm hal
  refine ⟨is ++ js, by rw [hjs, his, List.append_assoc], ?_⟩
  rw [State.execs_append, hs']
  exact hrun'

theorem Blk.Evaluates.does {p : Val × Blk} (h : b.Evaluates sem s p none) (hext : p.2.Extends b') :
    b.Does sem s b' none := by
  obtain ⟨is, his, hwrong⟩ := h
  obtain ⟨js, hjs⟩ := hext
  refine ⟨is ++ js, by rw [hjs, his, List.append_assoc], ?_⟩
  rw [State.execs_append, hwrong]
  rfl

/-- A value is computed and stored. -/
theorem Blk.Computes.store {p : Val × Blk} {u : Word F} (h : b.Computes sem s p s' u) (t : Ty) :
    b.Does sem s (p.2.emit (.store p.1 (.slot x t))).2 (some (Function.update s.mem x (some u))) := by
  obtain ⟨is, his, hrun⟩ := h.run
  refine ⟨is ++ [.store p.1 (.slot x t)], by simp [Blk.emit, his], ?_⟩
  simp [State.execs_append, hrun, State.execs, State.exec, h.eval, h.mem, State.push]

theorem Valuation.get_set_self (σ : Valuation) (x : Nat) (v : k.Value) : (σ.set x v).get k x = v := by
  cases k <;> simp [Valuation.set, Valuation.get]

theorem Valuation.get_set_ne (σ : Valuation) (v : k.Value) (k' : Sort2) {y : Nat} (h : y ≠ x) :
    (σ.set x v).get k' y = σ.get k' y := by
  cases k <;> cases k' <;> simp [Valuation.set, Valuation.get, Function.update_of_ne h]

/-- A variable is set in memory. -/
theorem Valuation.memory_set (hx : Γ x = k) (v : k.Value) : ((σ.set x v).memory Γ : Nat → Option (Word F)) =
    Function.update (σ.memory Γ) x (some (.int k.width (k.bits v))) := by
  subst hx
  funext y
  by_cases hy : y = x
  · subst hy
    rw [Function.update_self, Valuation.memory, Valuation.get_set_self]
  · rw [Function.update_of_ne hy, Valuation.memory, Valuation.memory, Valuation.get_set_ne σ v _ hy]

theorem OpExp.fits_value (e : OpExp k) (hs : e.sound Γ = true) {v : k.Value} (hv : e.eval σ = some v) :
    ((k.bits v).setWidth e.width).setWidth k.width = k.bits v := by
  cases k with
  | int => exact e.fits hs hv
  | bool =>
    rw [e.width_bool]
    exact (BitVec.setWidth_eq _).trans (BitVec.setWidth_eq _)

/-- An implicit cast to a type that is no narrower. -/
theorem implicitCast_int (hv : v.ty = .int w) {w' : Nat} (hle : w ≤ w') (b : Blk) :
    ∃ p, implicitCast v (.int w') b = some p ∧ p.1.ty = .int w' ∧ b.Extends p.2 := by
  by_cases hw : w = w'
  · subst hw
    exact ⟨(v, b), by simp [implicitCast, hv], hv, .refl b⟩
  · exact ⟨b.emit (.zext v w'), by simp [implicitCast, hv, hw, Nat.not_lt.mpr hle], rfl, Blk.extends_emit b _⟩

variable (sem) in
/-- The operands of an assignment. -/
theorem hasFloatType_assign (hl : l.ty = .int k.width) (hr : r.ty = .int w) (hhas : k.Has w) (hle : w ≤ k.width)
    (b : Blk) : ∃ l' r' b', hasFloatType b [l, r] = (false, [l', r'], b') ∧ r'.ty = .int k.width ∧ b.Extends b' ∧
      ∀ (s : State F) x y, b.Aligned s → l.eval sem s = some (.int k.width x) → r.eval sem s = some (.int w y) →
        ∃ s', b.Computes sem s (r', b') s' (.int k.width (y.setWidth k.width)) := by
  cases k with
  | int =>
    have hmax : max Sort2.int.width w = Sort2.int.width := Nat.max_eq_left hle
    obtain ⟨l', r', b', h, -, htr, hext⟩ := hasFloatType_emits hl hr (by decide) hhas b
    rw [hmax] at htr
    refine ⟨l', r', b', h, htr, hext.extends, fun s x y hb hx hy => ?_⟩
    obtain ⟨l₂, r₂, b₂, s', h', -, -, -, hc⟩ := hasFloatType_ints hb hl hr (by decide) hhas hmax hx hy
    simp only [h, Prod.mk.injEq, List.cons.injEq, true_and, and_true] at h'
    obtain ⟨⟨rfl, rfl⟩, rfl⟩ := h'
    exact ⟨s', hc⟩
  | bool =>
    obtain rfl : w = 1 := hhas
    have hnum : [l, r].all (fun v => v.ty.isNumeric) = false := by simp [hl, hr, Ty.isNumeric]
    refine ⟨l, r, b, by simp [hasFloatType, hnum], hr, .refl b, fun s x y _ _ hy => ⟨s, ?_⟩⟩
    exact .refl (hy.trans (congrArg (fun z => some (Word.int 1 z)) (BitVec.setWidth_eq y).symm))

theorem OpExp.defType_eq {e : OpExp k} (h : k.Has e.width) : defType false (.int e.width) = .int k.width := by
  cases k with
  | int =>
    have hne : e.width ≠ 1 := by
      have : 8 ≤ e.width := h
      omega
    simp [defType, hne, DefaultIntType, Sort2.width]
  | bool => simp [defType, e.width_bool, Sort2.width]

variable (sem) in
/-- The code of a definition. -/
theorem Code.define_does (e : OpExp k) (hs : e.sound Γ = true) (hx : Γ x = k) (b : Blk) :
    ∃ v b', (Code.define x e).calc b = some (v, b') ∧ b.Extends b' ∧ ∀ (s : State F) (σ : Valuation),
      s.mem = σ.memory Γ → b.Aligned s → b.Does sem s b' ((e.eval σ).map fun v => (σ.set x v).memory Γ) := by
  obtain ⟨v, b₁, hc⟩ := e.exists_coded hs b
  obtain ⟨p, hp, hpt, hpext⟩ := implicitCast_int hc.type e.width_le ⟨(loadIfVar v b₁).2.insts, x + 1⟩
  have hcalc : (Code.define x e).calc b =
      some (.slot x (.int k.width), (p.2.emit (.store p.1 (.slot x (.int k.width)))).2) := by
    simp [Code.calc, hc.code, defAndAssign, hc.type, OpExp.defType_eq hc.has, Blk.alloc, hp, store, hpt]
  -- the slot is taken before the value is cast, and no instruction shows it
  have hext : (loadIfVar v b₁).2.Extends (p.2.emit (.store p.1 (.slot x (.int k.width)))).2 :=
    Blk.Extends.trans hpext (Blk.extends_emit _ _)
  refine ⟨_, _, hcalc, hc.ext.trans hext, fun s σ hmem hb => ?_⟩
  have hrun := e.evaluates sem hs hmem hb hc.code
  cases hv : e.eval σ with
  | none =>
    rw [hv] at hrun
    exact Blk.Evaluates.does hrun hext
  | some u =>
    rw [hv] at hrun
    obtain ⟨s₁, h₁⟩ := hrun
    obtain ⟨p', s₂, hp', -, h₂⟩ := implicitCast_computes (b := ⟨(loadIfVar v b₁).2.insts, x + 1⟩)
      (h₁.aligned hb) hc.type h₁.eval e.width_le
    obtain rfl := Option.some.inj (hp.symm.trans hp')
    rw [e.fits_value hs hv] at h₂
    rw [Option.map_some, Valuation.memory_set hx, ← hmem, ← h₁.mem]
    obtain ⟨is, his, hrun₁⟩ := h₁.run
    obtain ⟨js, hjs, hrun₂⟩ := h₂.store (.int k.width)
    refine ⟨is ++ js, by rw [hjs, ← List.append_assoc, ← his], ?_⟩
    rw [State.execs_append, hrun₁, Option.bind_some, hrun₂]

variable (sem) in
/-- The code of an assignment. -/
theorem Code.assign_does (e : OpExp k) (hs : e.sound Γ = true) (hx : Γ x = k) (b : Blk) :
    ∃ v b', (Code.assign x e).calc b = some (v, b') ∧ b.Extends b' ∧ ∀ (s : State F) (σ : Valuation),
      s.mem = σ.memory Γ → b.Aligned s → b.Does sem s b' ((e.eval σ).map fun v => (σ.set x v).memory Γ) := by
  obtain ⟨v, b₁, hc⟩ := e.exists_coded hs b
  -- the variable is loaded, though nothing is done with what it was
  let load : Inst := .load (.int k.width) (.slot x (.int k.width))
  obtain ⟨l', r', b₂, hflt, htr, hext, hrun₂⟩ := hasFloatType_assign sem
    (l := ((loadIfVar v b₁).2.emit load).1) rfl hc.type hc.has e.width_le ((loadIfVar v b₁).2.emit load).2
  have hcalc : (Code.assign x e).calc b = some (zero, (b₂.emit (.store r' (.slot x (.int k.width)))).2) := by
    have hload : loadIfVar (.slot x (.int k.width)) (loadIfVar v b₁).2 = (loadIfVar v b₁).2.emit load := rfl
    simp [Code.calc, hc.code, hload, Ast.assign, hflt, implicitCast, htr, store]
  have hext' : (loadIfVar v b₁).2.Extends (b₂.emit (.store r' (.slot x (.int k.width)))).2 :=
    (Blk.extends_emit _ load).trans (hext.trans (Blk.extends_emit _ _))
  refine ⟨_, _, hcalc, hc.ext.trans hext', fun s σ hmem hb => ?_⟩
  have hrun := e.evaluates sem hs hmem hb hc.code
  cases hv : e.eval σ with
  | none =>
    rw [hv] at hrun
    exact Blk.Evaluates.does hrun hext'
  | some u =>
    rw [hv] at hrun
    obtain ⟨s₁, h₁⟩ := hrun
    have hx₁ : s₁.mem x = some (.int k.width (k.bits (σ.get k x))) := by rw [h₁.mem, hmem, Valuation.memory, hx]
    have hl : (loadIfVar v b₁).2.Computes sem s₁ ((loadIfVar v b₁).2.emit load)
        (s₁.push (some (.int k.width (k.bits (σ.get k x))))) (.int k.width (k.bits (σ.get k x))) :=
      .emit (h₁.aligned hb) (by simp [State.exec, load, hx₁])
    obtain ⟨s₂, h₂⟩ := hrun₂ _ _ _ (hl.aligned (h₁.aligned hb)) hl.eval (hl.keep h₁.eval)
    rw [e.fits_value hs hv] at h₂
    rw [Option.map_some, Valuation.memory_set hx, ← hmem]
    exact ((h₁.trans hl).trans h₂).store (.int k.width)

variable (sem) in
/-- **The code of a part** does to the memory what the part does to the variables. -/
theorem Code.calc_does (c : Code) (hs : c.sound Γ = true) (b : Blk) :
    ∃ v b', c.calc b = some (v, b') ∧ b.Extends b' ∧ ∀ (s : State F) (σ : Valuation), s.mem = σ.memory Γ → b.Aligned s →
      b.Does sem s b' ((language.act c σ).map (Valuation.memory Γ)) := by
  cases c with
  | define x e =>
    simp only [Code.sound, Bool.and_eq_true, beq_iff_eq] at hs
    obtain ⟨v, b', hcalc, hext, hdoes⟩ := define_does sem e hs.2 hs.1 b
    refine ⟨v, b', hcalc, hext, fun s σ hmem hb => ?_⟩
    simpa [language, Function.comp_def] using hdoes s σ hmem hb
  | assign x e =>
    simp only [Code.sound, Bool.and_eq_true, beq_iff_eq] at hs
    obtain ⟨v, b', hcalc, hext, hdoes⟩ := assign_does sem e hs.2 hs.1 b
    refine ⟨v, b', hcalc, hext, fun s σ hmem hb => ?_⟩
    simpa [language, Function.comp_def] using hdoes s σ hmem hb
  | cond e =>
    obtain ⟨v, b₁, hc⟩ := e.exists_coded hs b
    refine ⟨(loadIfVar v b₁).1, (loadIfVar v b₁).2, by simp [Code.calc, hc.code], hc.ext, fun s σ hmem hb => ?_⟩
    have hrun := e.evaluates sem hs hmem hb hc.code
    cases hv : e.eval σ with
    | none =>
      rw [hv] at hrun
      simpa [language, hv] using Blk.Evaluates.does hrun (.refl _)
    | some u =>
      rw [hv] at hrun
      obtain ⟨s₁, h₁⟩ := hrun
      obtain ⟨is, his, hrun⟩ := h₁.run
      exact ⟨is, his, by simp [language, hv, hrun, h₁.mem, hmem]⟩

variable (sem) in
/-- The parts of a block, one after the other. -/
theorem calcParts_does : ∀ (cs : List Code), (∀ c ∈ cs, c.sound Γ = true) → ∀ b : Blk, ∃ b', calcParts cs b = some b' ∧
    b.Extends b' ∧ ∀ (s : State F) (σ : Valuation), s.mem = σ.memory Γ → b.Aligned s →
      b.Does sem s b' ((cs.foldlM (fun σ c => language.act c σ) σ).map (Valuation.memory Γ))
  | [], _, b => ⟨b, rfl, .refl b, fun s σ hmem _ => ⟨[], (List.append_nil _).symm, by simp [State.execs, hmem]⟩⟩
  | c :: cs, hs, b => by
    obtain ⟨v, b₁, hcalc, hext, hdoes⟩ := c.calc_does sem (hs c List.mem_cons_self) b
    obtain ⟨b₂, hcalc', hext', hdoes'⟩ := calcParts_does cs (fun c hc => hs c (List.mem_cons_of_mem _ hc)) b₁
    refine ⟨b₂, by simp [calcParts, hcalc, hcalc'], hext.trans hext', fun s σ hmem hb => ?_⟩
    have h := hdoes s σ hmem hb
    rw [List.foldlM_cons]
    cases hact : language.act c σ with
    | none =>
      rw [hact] at h
      exact h.before hext'
    | some σ' =>
      rw [hact] at h
      exact h.then hb fun s' hmem' hb' => hdoes' s' σ' hmem' hb'

variable (sem) in
/-- The end of a block: the instructions of its condition, and the branch. -/
theorem calcTerm_leaves (t : Option (Term Code))
    (ht : ∀ c x y, t = some (.condBr c x y) → c.isCond = true ∧ c.sound Γ = true) (b : Blk) :
    ∃ t' b' is, calcTerm t b = some (t', b') ∧ b'.insts = b.insts ++ is ∧ ∀ (s : State F) (σ : Valuation),
      s.mem = σ.memory Γ → b.Aligned s →
        (match State.execs sem s is with
          | none => .inr .wrong
          | some s' => Term.leave (fun v => (v.eval sem s').bind Word.truth) s'.mem t') =
        Sum.map (Prod.map id (Valuation.memory Γ)) (Outcome.map (Valuation.memory Γ))
          (Term.leave (fun c => language.test c σ) σ t) := by
  cases t with
  | none => exact ⟨none, b, [], rfl, (List.append_nil _).symm, fun s σ hmem _ => by rfl⟩
  | some t =>
    cases t with
    | br e =>
      refine ⟨some (.br e), b, [], rfl, (List.append_nil _).symm, fun s σ hmem _ => ?_⟩
      simp [State.execs, Term.leave, hmem]
    | ret =>
      refine ⟨some .ret, b, [], rfl, (List.append_nil _).symm, fun s σ hmem _ => ?_⟩
      simp [State.execs, Term.leave, hmem, Outcome.map]
    | condBr c x y =>
      obtain ⟨hcond, hs⟩ := ht c x y rfl
      cases c with
      | define | assign => cases hcond
      | cond e =>
        obtain ⟨v, b₁, hc⟩ := e.exists_coded hs b
        obtain ⟨is, his⟩ := hc.ext
        refine ⟨some (.condBr (loadIfVar v b₁).1 x y), (loadIfVar v b₁).2, is,
          by simp [calcTerm, Code.calc, hc.code], his, fun s σ hmem hb => ?_⟩
        have hrun := e.evaluates sem hs hmem hb hc.code
        cases hu : e.eval σ with
        | none =>
          rw [hu] at hrun
          obtain ⟨js, hjs, hwrong⟩ := hrun
          obtain rfl := List.append_cancel_left (his.symm.trans hjs)
          simp [hwrong, Term.leave, language, hu, Outcome.map]
        | some u =>
          rw [hu, Option.map_some, e.word_bool] at hrun
          obtain ⟨s₁, h₁⟩ := hrun
          obtain ⟨js, hjs, hrun⟩ := h₁.run
          obtain rfl := List.append_cancel_left (his.symm.trans hjs)
          have htruth : (Word.int 1 (.ofBool u) : Word F).truth = some u := by cases u <;> rfl
          simp [hrun, Term.leave, language, hu, h₁.eval, htruth, h₁.mem, hmem]

variable (sem) in
/-- **A block of instructions** does to the memory what the block of the graph does to the variables. -/
theorem Block.compile_run (blk : Block Code) (hinsts : ∀ c ∈ blk.insts, c.sound Γ = true)
    (hconds : ∀ c t f, blk.term = some (.condBr c t f) → c.isCond = true ∧ c.sound Γ = true) :
    ∃ cb, blk.compile = some cb ∧ ∀ σ : Valuation, cb.run sem (σ.memory Γ) =
      Sum.map (Prod.map id (Valuation.memory Γ)) (Outcome.map (Valuation.memory (F := F) Γ)) (blk.run language σ) := by
  obtain ⟨b₁, hcalc, -, hdoes⟩ := calcParts_does sem blk.insts hinsts ⟨[], 0⟩
  obtain ⟨t, b₂, js, hterm, hjs, hleaves⟩ := calcTerm_leaves sem blk.term hconds b₁
  refine ⟨⟨b₂.insts, t⟩, by simp [Block.compile, hcalc, hterm], fun σ => ?_⟩
  obtain ⟨is, his, hrun⟩ := hdoes ⟨[], σ.memory Γ, []⟩ σ rfl rfl
  have hins : b₁.insts = is := his
  simp only [CodeBlock.run, Block.run, hjs, hins, State.execs_append]
  cases hσ : blk.insts.foldlM (fun σ c => language.act c σ) σ with
  | none =>
    rw [hσ] at hrun
    rw [Option.map_eq_none_iff.mp hrun]
    rfl
  | some σ' =>
    rw [hσ] at hrun
    obtain ⟨s, hs, hmem⟩ := Option.map_eq_some_iff.mp hrun
    obtain ⟨ws, hws, hlen⟩ := State.execs_regs hs
    rw [hs]
    exact hleaves s σ' hmem (by rw [Blk.Aligned, hws, hins, List.nil_append, hlen])

end Parts

/-! ## Blocks at one go -/

section Coarse

variable {δ : Type} {I : Interp α δ} {g : Func α} {b : Nat}

/-- At the end of a block a step goes where the block leaves for. -/
theorem Func.step_last (d : δ) : I.step g.flow (g.last b, d) =
    Sum.map (fun c => ((c.1, 0), c.2)) id (Term.leave (fun c => I.test c d) d (g.block b).term) := by
  simp only [Interp.step, Func.last, Func.flow_end]
  cases (g.block b).term with
  | none => rfl
  | some t =>
    cases t with
    | br | ret => rfl
    | condBr c y n =>
      simp only [termAction, Term.leave]
      cases I.test c d with
      | none => rfl
      | some x => cases x <;> rfl

/-- The rest of a block goes wrong or is run to its end. -/
theorem Func.steps_insts : ∀ (as : List α) (i : Nat) (d : δ), (g.block b).insts.drop i = as →
    i ≤ (g.block b).insts.length →
    (as.foldlM (fun d a => I.act a d) d = none → Yields (I.step g.flow) ((b, i), d) .wrong) ∧
    ∀ d', as.foldlM (fun d a => I.act a d) d = some d' →
      ((b, i), d) = (g.last b, d') ∨ Plus (I.step g.flow) ((b, i), d) (g.last b, d')
  | [], i, d, h, hi => by
    have hlen : i = (g.block b).insts.length := Nat.le_antisymm hi (List.drop_eq_nil_iff.mp h)
    refine ⟨nofun, fun d' hd' => .inl ?_⟩
    obtain rfl := Option.some.inj hd'
    rw [hlen, Func.last]
  | a :: as, i, d, h, hi => by
    have ha : (g.block b).insts[i]? = some a := by rw [← List.head?_drop, h, List.head?_cons]
    have hrest : (g.block b).insts.drop (i + 1) = as := by rw [← List.drop_drop, h, List.drop_one, List.tail_cons]
    have hlt : i < (g.block b).insts.length := (List.getElem?_eq_some_iff.mp ha).1
    cases hact : I.act a d with
    | none =>
      have hstep : I.step g.flow ((b, i), d) = .inr .wrong := by simp [Interp.step, Func.flow_act ha, hact]
      refine ⟨fun _ => ⟨0, .now hstep⟩, fun d' hd' => ?_⟩
      simp [List.foldlM_cons, hact] at hd'
    | some d₁ =>
      have hstep : I.step g.flow ((b, i), d) = .inl ((b, i + 1), d₁) := by
        simp [Interp.step, Func.flow_act ha, hact]
      obtain ⟨hwrong, hend⟩ := steps_insts as (i + 1) d₁ hrest hlt
      simp only [List.foldlM_cons, hact, Option.bind_eq_bind, Option.bind_some]
      refine ⟨fun hnone => (hwrong hnone).later hstep, fun d' hd' => .inr ?_⟩
      rcases hend d' hd' with heq | hplus
      · rw [← heq]
        exact .one hstep
      · exact .cons hstep hplus

/-- A block at one go does what its steps do. -/
theorem Block.run_coarse (I : Interp α δ) (g : Func α) :
    Coarse (I.step g.flow) (fun c : Nat × δ => (g.block c.1).run I c.2) (fun o o' => o' = o)
      fun c c' => c = ((c'.1, 0), c'.2) := by
  rintro _ ⟨b, d⟩ rfl
  obtain ⟨hwrong, hend⟩ := Func.steps_insts (I := I) (g := g) (b := b) _ 0 d rfl (Nat.zero_le _)
  rw [List.drop_zero] at hwrong hend
  simp only [Block.run]
  cases hfold : (g.block b).insts.foldlM (fun d a => I.act a d) d with
  | none => exact .inl ⟨.wrong, _, hwrong hfold, rfl, rfl⟩
  | some d' =>
    have hlast := Func.step_last (I := I) (g := g) (b := b) d'
    cases hleave : Term.leave (fun c => I.test c d') d' (g.block b).term with
    | inr o =>
      rw [hleave] at hlast
      refine .inl ⟨o, _, ?_, hleave, rfl⟩
      rcases hend d' hfold with heq | hplus
      · rw [heq]
        exact ⟨0, .now hlast⟩
      · exact hplus.yields ⟨0, .now hlast⟩
    | inl c =>
      rw [hleave] at hlast
      refine .inr ⟨_, c, ?_, hleave, rfl⟩
      rcases hend d' hfold with heq | hplus
      · rw [heq]
        exact .one hlast
      · exact hplus.trans (.one hlast)

/-- A step leads to a block that can be reached, and where blocks are terminated none gets stuck. -/
theorem Func.Reach.step_of {c : Point × δ} (hc : g.Reach c.1.1) (hterm : (g.block c.1.1).term ≠ none) :
    (∀ c', I.step g.flow c = .inl c' → g.Reach c'.1.1) ∧ I.step g.flow c ≠ .inr .stuck := by
  obtain ⟨⟨b, i⟩, d⟩ := c
  cases ha : (g.block b).insts[i]? with
  | some a =>
    simp only [Interp.step, Func.flow_act ha]
    cases I.act a d with
    | none => simp
    | some d' => simpa using hc
  | none =>
    cases ht : (g.block b).term with
    | none => exact absurd ht hterm
    | some t =>
      have hnext : ∀ b' ∈ t.targets, g.Reach b' := fun b' hb' => .step hc ht hb'
      cases t with
      | ret => simp [Interp.step, Func.flow, ha, ht]
      | br e =>
        have he : g.Reach e := hnext e (by simp [Term.targets])
        simpa [Interp.step, Func.flow, ha, ht] using he
      | condBr x y n =>
        have hy : g.Reach y := hnext y (by simp [Term.targets])
        have hn : g.Reach n := hnext n (by simp [Term.targets])
        simp only [Interp.step, Func.flow, ha, ht]
        cases I.test x d with
        | none => simp
        | some v => cases v <;> simpa

/-- Where all blocks are terminated, a run does not get stuck. -/
theorem Func.not_stuck (h : ∀ b, g.Reach b → (g.block b).term ≠ none) {c : Point × δ} (hc : g.Reach c.1.1) :
    ¬ Yields (I.step g.flow) c .stuck := by
  rintro ⟨n, hy⟩
  generalize ho : Outcome.stuck = o at hy
  induction hy with
  | @now c o hn =>
    subst ho
    exact (hc.step_of (h _ hc)).2 hn
  | @later n c c' o hl _ ih => exact ih ((hc.step_of (h _ hc)).1 _ hl) ho

end Coarse

/-! ## Main result -/

section Main

variable {F : Type} {Γ : Nat → Sort2}

theorem mapM_forall₂ {β γ : Type} {f : β → Option γ} {P : β → γ → Prop} : ∀ (l : List β),
    (∀ x ∈ l, ∃ y, f x = some y ∧ P x y) → ∃ ys, l.mapM f = some ys ∧ List.Forall₂ P l ys
  | [], _ => ⟨[], rfl, .nil⟩
  | x :: l, h => by
    obtain ⟨y, hy, hP⟩ := h x List.mem_cons_self
    obtain ⟨ys, hys, hall⟩ := mapM_forall₂ l fun x hx => h x (List.mem_cons_of_mem _ hx)
    exact ⟨y :: ys, by simp [List.mapM_cons, hy, hys], .cons hP hall⟩

/-- The blocks of a graph, compiled. -/
theorem Func.exists_compile {g : Func Code} {P : Block Code → CodeBlock → Prop}
    (h : ∀ b, ∃ cb, (g.block b).compile = some cb ∧ P (g.block b) cb) : ∃ code, g.compile = some code ∧
      (∀ b < g.size, ∃ cb, code[b]? = some cb ∧ P (g.block b) cb) ∧ ∀ b, g.size ≤ b → code[b]? = none := by
  obtain ⟨code, hcode, hall⟩ := mapM_forall₂ (List.range g.size) fun b _ => h b
  have hlen : code.length = g.size := by rw [← hall.length_eq, List.length_range]
  refine ⟨code, hcode, fun b hb => ?_, fun b hb => List.getElem?_eq_none (by omega)⟩
  have hb' : b < code.length := by omega
  refine ⟨code[b], List.getElem?_eq_getElem hb', ?_⟩
  simpa using hall.get (i := b) (by simpa using hb) hb'

/-- The compiled code of a function body without jumps, with the `return` behind it. -/
def compileBody (parent : Option Nat) (body : List (Stmt Code)) : Option (List CodeBlock) :=
  (calcBody parent (body ++ [.retN])).compile

/-- What the compiled code comes to, from the memory of the variables, and what the body does. -/
theorem compileBody_yields (sem : Sem F) (parent : Option Nat) {body : List (Stmt Code)} (hp : plainSL body = true)
    (hw : wiredSL .function true body = true) (hs : soundSL Γ body = true) :
    ∃ code, compileBody parent body = some code ∧ ∀ (σ : Valuation) (o : Outcome (Nat → Option (Word F))),
      Yields (machine sem code) (0, σ.memory Γ) o ↔ ∃ o', Yields (language.step run) (items (body ++ [.retN]), σ) o' ∧
        o' ≠ .stuck ∧ o = o'.map (Valuation.memory Γ) := by
  have href := wired_refines parent hp hw
  have hall : (calcBody parent (body ++ [.retN])).All (Code.sound Γ) fun c => c.isCond && c.sound Γ := by
    refine calcBody_all parent ?_
    have hbody : allSL (Code.sound Γ) (fun c => c.isCond && c.sound Γ) body = true := hs
    rw [allSL_append, hbody]
    rfl
  have hbeyond : ∀ b, (calcBody parent (body ++ [.retN])).size ≤ b →
      (calcBody parent (body ++ [.retN])).block b = ⟨[], none⟩ := by
    obtain ⟨e, hc⟩ := calcBody_compiled parent hp
    exact hc.beyond
  unfold compileBody
  generalize calcBody parent (body ++ [.retN]) = g at *
  have hblock := fun b => (g.block b).compile_run sem (hall.insts b)
    fun c t f hc => by simpa using hall.conds b c t f hc
  obtain ⟨code, hcode, hin, hout⟩ := Func.exists_compile (P := fun blk cb => ∀ σ : Valuation,
    cb.run sem (σ.memory Γ) =
      Sum.map (Prod.map id (Valuation.memory Γ)) (Outcome.map (Valuation.memory Γ)) (blk.run language σ)) hblock
  refine ⟨code, hcode, fun σ o => ?_⟩
  have hmachine : ∀ (b : Nat) (σ : Valuation), machine sem code (b, σ.memory Γ) =
      Sum.map (Prod.map id (Valuation.memory Γ)) (Outcome.map (Valuation.memory Γ))
        ((g.block b).run language σ) := by
    intro b σ
    by_cases hb : b < g.size
    · obtain ⟨cb, hcb, hrun⟩ := hin b hb
      simp only [machine, hcb, hrun]
    · simp only [machine, hout b (by omega), hbeyond b (by omega)]
      rfl
  have hcoarse : Coarse (language.step g.flow) (machine sem code) (fun o o' => o' = o.map (Valuation.memory Γ))
      fun c c' => c.1 = (c'.1, 0) ∧ c'.2 = c.2.memory Γ := by
    rintro ⟨p, σ⟩ ⟨b, m⟩ ⟨hp, hm⟩
    obtain rfl : p = (b, 0) := hp
    obtain rfl : m = σ.memory Γ := hm
    rw [hmachine]
    rcases Block.run_coarse language g _ (b, σ) rfl with ⟨o, _, ho, hrun, rfl⟩ | ⟨d, ⟨b', σ'⟩, hplus, hrun, rfl⟩
    · refine .inl ⟨_, _, ho, ?_, rfl⟩
      simp only at hrun
      rw [hrun]
      rfl
    · refine .inr ⟨_, (b', σ'.memory Γ), hplus, ?_, rfl, rfl⟩
      simp only at hrun
      rw [hrun]
      rfl
  rw [hcoarse.yields_iff (c := ((0, 0), σ)) ⟨rfl, rfl⟩]
  have hstuck : ¬ Yields (language.step g.flow) ((0, 0), σ) .stuck := Func.not_stuck href.wellFormed.terminated .entry
  constructor
  · rintro ⟨o', ho', rfl⟩
    have hne : o' ≠ .stuck := fun h => hstuck (h ▸ ho')
    exact ⟨o', (Interp.yields_iff_of_agree href.agree hne).mp ho', hne, rfl⟩
  · rintro ⟨o', ho', hne, rfl⟩
    exact ⟨o', (Interp.yields_iff_of_agree href.agree hne).mpr ho', rfl⟩

/-- **Compiled code does what the source says.** A function of definitions, assignments, `if`, `if`/`else` and `for`,
whose graph is wired right and whose expressions are sound, is compiled; run on the memory of the variables the code
ends just if the body does, with the memory of the variables that the body ends with, and goes wrong just if the body
does. -/
theorem compile_correct (sem : Sem F) (parent : Option Nat) {body : List (Stmt Code)} (hp : plainSL body = true)
    (hw : wiredSL .function true body = true) (hs : soundSL Γ body = true) :
    ∃ code, compileBody parent body = some code ∧ ∀ σ : Valuation,
      (∀ m, Yields (machine sem code) (0, σ.memory Γ) (.ended m) ↔
        ∃ σ', Yields (language.step run) (items (body ++ [.retN]), σ) (.ended σ') ∧ m = σ'.memory Γ) ∧
      (Yields (machine sem code) (0, σ.memory Γ) .wrong ↔
        Yields (language.step run) (items (body ++ [.retN]), σ) .wrong) ∧
      ¬ Yields (machine sem code) (0, σ.memory Γ) .stuck := by
  obtain ⟨code, hcode, hyields⟩ := compileBody_yields sem parent hp hw hs
  refine ⟨code, hcode, fun σ => ⟨fun m => ?_, ?_, ?_⟩⟩
  · rw [hyields]
    constructor
    · rintro ⟨o, ho, -, hm⟩
      cases o with
      | ended σ' => exact ⟨σ', ho, Outcome.ended.inj hm⟩
      | wrong | stuck => cases hm
    · rintro ⟨σ', hσ', rfl⟩
      exact ⟨.ended σ', hσ', by simp, rfl⟩
  · rw [hyields]
    constructor
    · rintro ⟨o, ho, -, hm⟩
      cases o with
      | wrong => exact ho
      | ended | stuck => cases hm
    · exact fun h => ⟨.wrong, h, by simp, rfl⟩
  · rw [hyields]
    rintro ⟨o, -, hne, hm⟩
    cases o with
    | stuck => exact hne rfl
    | ended | wrong => cases hm

/-- `for i := 0; i < n; i = i + 1 { if i % 2 == 0 { s = s + i } }`, with `n`, `s` and `i` in the slots 0, 1 and 2. -/
def sumEven : List (Stmt Code) :=
  let n := .intVar 0 .int
  let s := .intVar 1 .int
  let i := .intVar 2 .int
  let zero := .num ['0'] 0 8 (by decide)
  let one := .num ['1'] 1 8 (by decide)
  let two := .num ['2'] 2 8 (by decide)
  [.forN (some (.define 2 zero)) (some (.cond (.compare .lt i n))) (some (.assign 2 (.bin .plus i one)))
    [.ifN (.cond (.compare .eq (.bin .ps i two) zero)) [.atom (.assign 1 (.bin .plus s i))]]]

theorem compile_correct_sumEven : ∃ code, compileBody none sumEven = some code ∧ ∀ σ : Valuation,
    (∀ m, Yields (machine (F := Unit) ⟨fun _ _ => (), fun _ _ => (), fun _ _ => (), fun _ _ _ => (), fun _ _ _ => true,
        fun _ _ => none⟩ code) (0, σ.memory fun _ => .int) (.ended m) ↔
      ∃ σ', Yields (language.step run) (items (sumEven ++ [.retN]), σ) (.ended σ') ∧ m = σ'.memory fun _ => .int) ∧
    (Yields (machine ⟨fun _ _ => (), fun _ _ => (), fun _ _ => (), fun _ _ _ => (), fun _ _ _ => true,
        fun _ _ => none⟩ code) (0, σ.memory fun _ => .int) .wrong ↔
      Yields (language.step run) (items (sumEven ++ [.retN]), σ) .wrong) ∧
    ¬ Yields (machine ⟨fun _ _ => (), fun _ _ => (), fun _ _ => (), fun _ _ _ => (), fun _ _ _ => true,
        fun _ _ => none⟩ code) (0, σ.memory fun _ => .int) .stuck :=
  compile_correct _ none (by decide) (by decide) (by decide)

end Main

end CalcLang.Ast
