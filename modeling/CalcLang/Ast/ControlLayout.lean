import CalcLang.Ast.Control
import Mathlib.Data.List.Infix

/-!
# Control flow: how a statement list lies in the finished graph

`LaidSL g sts p e` says that in the graph `g` the statements `sts` begin at
point `p` and leave at point `e`, and it says where every branch on the way
goes. `calcSL_laid` proves that the code generator's output is laid out so.

A branch or body's own exit is where the constructs differ. Its last block was
given a terminator by the last construct inside it (`lastConstruct`), before the
enclosing `calc` could do it:

* no construct inside: the enclosing `calc` finds the block unterminated and
  branches to its `end`;
* an `if` or `if`/`else`: the inner `end` branches to `s.parent.block`, which is
  the enclosing `end` for `IfElseNode` but, for `IfNode`, still the block in
  front of the `if`;
* a `for`: the inner `end` has no terminator.

A loop's body is the exception: `ForNode.calc` sets the terminator of the body's
last block whatever was there.
-/

namespace CalcLang.Ast

open CalcLang.Lib

variable {α : Type}

/-! ## The statements without jumps -/

mutual

/-- No break, continue or return. -/
def Stmt.plain : Stmt α → Bool
  | .atom _ => true
  | .ifN _ sts => plainSL sts
  | .ifElse _ sts els => plainSL sts && plainSL els
  | .forN _ _ _ sts => plainSL sts
  | .breakN | .continueN | .retN => false

/-- No break, continue or return in a list of statements. -/
def plainSL : List (Stmt α) → Bool
  | [] => true
  | st :: sts => st.plain && plainSL sts

end

/-- The two ways a construct leaves its `end` block. -/
inductive Construct where
  | cond
  | loop
deriving DecidableEq, Repr

/-- Which construct a statement is. -/
def Stmt.construct : Stmt α → Option Construct
  | .ifN .. | .ifElse .. => some .cond
  | .forN .. => some .loop
  | _ => none

/-- The last construct of a list of statements. -/
def lastConstruct : List (Stmt α) → Option Construct
  | [] => none
  | st :: sts => (lastConstruct sts).or st.construct

/-- The body of an `if` whose last construct is an `if` or `if`/`else` branches
back to the block in front of the `if`. -/
def Stmt.jumpsBack : Stmt α → Bool
  | .ifN _ sts => lastConstruct sts == some .cond
  | _ => false

/-- The first construct of a list of statements branches back to the block the
list starts in. -/
def jumpsToStart : List (Stmt α) → Bool
  | [] => false
  | st :: sts => st.jumpsBack || (st.construct.isNone && jumpsToStart sts)

/-! ## The layout -/

/-- Where a branch's last block goes: `e` is the construct's end, `back` where
the inner `end` went. -/
def exitTo (last : Option Construct) (e back : Point) : Action α Point :=
  match last with
  | none => .goto e
  | some .cond => .goto back
  | some .loop => .stuck

/-- An optional instruction of a loop, from `p` to `e`. -/
def LaidOpt (g : Func α) (a : Option α) (p e : Point) : Prop :=
  match a with
  | some a => g.flow p = .act a e
  | none => e = p

/-- What a loop's condition, or its absence, does at a point. -/
def branchTo (c : Option α) (yes no : Point) : Action α Point :=
  match c with
  | some c => .test c yes no
  | none => .goto yes

mutual

/-- `st` begins at `p` and leaves at `e`. -/
def Stmt.Laid (g : Func α) : Stmt α → Point → Point → Prop
  | .atom a, p, e => g.flow p = .act a e
  | .ifN c sts, p, e => ∃ tt x, g.flow p = .test c (tt, 0) e ∧ LaidSL g sts (tt, 0) x ∧
      g.flow x = exitTo (lastConstruct sts) e (p.1, 0)
  | .ifElse c sts els, p, e => ∃ tt tf x y, g.flow p = .test c (tt, 0) (tf, 0) ∧
      LaidSL g sts (tt, 0) x ∧ g.flow x = exitTo (lastConstruct sts) e e ∧
      LaidSL g els (tf, 0) y ∧ g.flow y = exitTo (lastConstruct els) e e
  | .forN init c step sts, p, e => ∃ q body cond r x, LaidOpt g init p q ∧
      g.flow q = branchTo c (body, 0) e ∧ LaidSL g sts (body, 0) x ∧
      g.flow x = .goto (cond, 0) ∧ LaidOpt g step (cond, 0) r ∧
      g.flow r = branchTo c (body, 0) e
  | .breakN, _, _ | .continueN, _, _ | .retN, _, _ => False

/-- The statements begin at `p` and leave at `e`. -/
def LaidSL (g : Func α) : List (Stmt α) → Point → Point → Prop
  | [], p, e => e = p
  | st :: sts, p, e => ∃ q, st.Laid g p q ∧ LaidSL g sts q e

end

/-! ## What one compilation leaves behind -/

/-- The end of block `b`. -/
def Func.last (f : Func α) (b : Nat) : Point := (b, (f.block b).insts.length)

/-- `g` is a later graph: it keeps the blocks from `b` on that `f'` had made or
filled, and may have gone on filling `cur`. -/
structure Func.Extends (g f' : Func α) (b n cur : Nat) : Prop where
  keep : ∀ b', b' = b ∨ n ≤ b' → b' < f'.size → b' ≠ cur → g.block b' = f'.block b'
  grow : (f'.block cur).insts <+: (g.block cur).insts

/-- Compiling `sts` in scope `s` took `f` to `f'` and the scope to `s'`: the
blocks touched, the terminator left at the end, the targets of the others, and
the layout in every later graph. -/
structure Emits (parent : Option Nat) (sts : List (Stmt α)) (s : Scope) (f : Func α) (s' : Scope)
    (f' : Func α) : Prop where
  size : f.size ≤ f'.size
  frame : ∀ b < f.size, b ≠ s.block → f'.block b = f.block b
  beyond : ∀ b, f'.size ≤ b → f'.block b = f.block b
  grow : (f.block s.block).insts <+: (f'.block s.block).insts
  cur : s'.block = s.block ∧ lastConstruct sts = none ∨
    f.size ≤ s'.block ∧ s'.block < f'.size ∧ lastConstruct sts ≠ none
  term : (f'.block s'.block).term = match lastConstruct sts with
    | none => (f.block s.block).term
    | some .cond => parent.map .br
    | some .loop => none
  closed : lastConstruct sts ≠ none → (f'.block s.block).term ≠ none
  target : ∀ b, b = s.block ∨ f.size ≤ b → b < f'.size → b ≠ s'.block →
    ∀ t, (f'.block b).term = some t → ∀ b' ∈ t.targets,
      f.size ≤ b' ∨ b' = s.block ∧ jumpsToStart sts = true
  laid : ∀ g : Func α, g.Extends f' s.block f.size s'.block →
    LaidSL g sts (f.last s.block) (f'.last s'.block)

namespace Emits

variable {parent : Option Nat} {s s₁ s₂ : Scope} {f f₁ f₂ : Func α} {st : Stmt α}
  {sts : List (Stmt α)}

/-- Nothing to compile. -/
theorem nil (parent : Option Nat) (s : Scope) (f : Func α) : Emits parent [] s f s f where
  size := le_refl _
  frame _ _ _ := rfl
  beyond _ _ := rfl
  grow := List.prefix_refl _
  cur := Or.inl ⟨rfl, rfl⟩
  term := rfl
  closed h := absurd rfl h
  target := by
    rintro b (rfl | hb) hlt hne
    · exact absurd rfl hne
    · omega
  laid _ _ := rfl

/-- A later graph for the rest is one for the first statement. -/
private theorem extends_first {g : Func α} (h : Emits parent [st] s f s₁ f₁)
    (h' : Emits parent sts s₁ f₁ s₂ f₂) (hs : s.block < f.size)
    (hg : g.Extends f₂ s.block f.size s₂.block) :
    g.Extends f₁ s.block f.size s₁.block where
  keep b' hb' hlt hne := by
    have hsize := h'.size
    have hne₂ : b' ≠ s₂.block := by rcases h'.cur with ⟨hc, -⟩ | ⟨hc, -, -⟩ <;> omega
    rw [hg.keep b' hb' (by omega) hne₂, h'.frame b' hlt hne]
  grow := by
    have hsize := h'.size
    refine h'.grow.trans ?_
    by_cases he : s₁.block = s₂.block
    · rw [he]
      exact hg.grow
    · have hown : s₁.block = s.block ∨ f.size ≤ s₁.block := by
        rcases h.cur with ⟨hc, -⟩ | ⟨hc, -, -⟩ <;> omega
      have hlt : s₁.block < f₂.size := by
        have := h.size
        rcases h.cur with ⟨hc, -⟩ | ⟨-, hc, -⟩ <;> omega
      rw [hg.keep s₁.block hown hlt he]

/-- A later graph for the whole is one for the rest. -/
private theorem extends_rest {g : Func α} (h : Emits parent [st] s f s₁ f₁)
    (hg : g.Extends f₂ s.block f.size s₂.block) :
    g.Extends f₂ s₁.block f₁.size s₂.block where
  keep b' hb' hlt hne := by
    have hsize := h.size
    refine hg.keep b' ?_ hlt hne
    rcases h.cur with ⟨hc, -⟩ | ⟨hc, -, -⟩ <;> omega
  grow := hg.grow

private theorem lastConstruct_cons (st : Stmt α) (sts : List (Stmt α)) :
    lastConstruct (st :: sts) = (lastConstruct sts).or (lastConstruct [st]) := by
  simp [lastConstruct]

private theorem construct_isNone (st : Stmt α) :
    st.construct.isNone = true ↔ lastConstruct [st] = none := by
  simp [lastConstruct]

/-- One statement, and then the rest. -/
theorem cons (h : Emits parent [st] s f s₁ f₁) (h' : Emits parent sts s₁ f₁ s₂ f₂)
    (hs : s.block < f.size) : Emits parent (st :: sts) s f s₂ f₂ where
  size := h.size.trans h'.size
  frame b hb hne := by
    have hsize := h.size
    have hne₁ : b ≠ s₁.block := by rcases h.cur with ⟨hc, -⟩ | ⟨hc, -, -⟩ <;> omega
    rw [h'.frame b (by omega) hne₁, h.frame b hb hne]
  beyond b hb := by rw [h'.beyond b hb, h.beyond b (h'.size.trans hb)]
  grow := by
    have hsize := h.size
    refine h.grow.trans ?_
    by_cases he : s.block = s₁.block
    · rw [he]
      exact h'.grow
    · rw [h'.frame s.block (by omega) he]
  cur := by
    have hsize := h.size
    have hsize' := h'.size
    rw [lastConstruct_cons]
    rcases h.cur with ⟨hc, hl⟩ | ⟨hc, hlt, hl⟩ <;> rcases h'.cur with ⟨hc', hl'⟩ | ⟨hc', hlt', hl'⟩
    · exact Or.inl ⟨hc'.trans hc, by rw [hl, hl']; rfl⟩
    · exact Or.inr ⟨by omega, hlt', by simp [hl']⟩
    · exact Or.inr ⟨by omega, by omega, by simp [hl]⟩
    · exact Or.inr ⟨by omega, hlt', by simp [hl']⟩
  term := by
    rw [lastConstruct_cons, h'.term]
    cases lastConstruct sts with
    | none => exact h.term
    | some k => cases k <;> rfl
  closed hl := by
    have hsize := h.size
    rcases h.cur with ⟨hc, hl₁⟩ | ⟨hc, -, hl₁⟩
    · rw [lastConstruct_cons, hl₁, Option.or_none] at hl
      exact hc ▸ h'.closed hl
    · rw [h'.frame s.block (by omega) (by omega)]
      exact h.closed hl₁
  target b hb hlt hne t ht b' hb' := by
    have hsize := h.size
    -- a block of the rest, or one of the first statement that the rest leaves alone
    by_cases hown : b = s₁.block ∨ f₁.size ≤ b
    · rcases h'.target b hown hlt hne t ht b' hb' with hge | ⟨he, hj⟩
      · exact Or.inl (by omega)
      · rcases h.cur with ⟨hc, hl⟩ | ⟨hc, -, -⟩
        · refine Or.inr ⟨he.trans hc, ?_⟩
          simp only [jumpsToStart, hj, (construct_isNone st).mpr hl, Bool.and_self, Bool.or_true]
        · exact Or.inl (by omega)
    · obtain ⟨hne₁, hlt₁⟩ := not_or.mp hown
      rw [h'.frame b (by omega) hne₁] at ht
      rcases h.target b hb (by omega) hne₁ t ht b' hb' with hge | ⟨he, hj⟩
      · exact Or.inl hge
      · refine Or.inr ⟨he, ?_⟩
        simp only [jumpsToStart, Bool.and_false, Bool.or_false] at hj
        simp only [jumpsToStart, hj, Bool.true_or]
  laid g hg :=
    ⟨_, by simpa [LaidSL] using h.laid g (extends_first h h' hs hg),
      h'.laid g (extends_rest h hg)⟩

end Emits

/-! ## The blocks after each primitive -/

section Blocks

variable (f : Func α) (b b' e yes no : Nat) (a : α) (t : Term α)

@[simp] theorem Func.newBlock_size : f.newBlock.size = f.size + 1 := rfl
@[simp] theorem Func.append_size : (f.append b a).size = f.size := rfl
@[simp] theorem Func.setTerm_size : (f.setTerm b t).size = f.size := rfl

@[simp] theorem Func.closeTo_size : (f.closeTo b e).size = f.size := by
  unfold Func.closeTo
  split <;> rfl

@[simp] theorem Func.toParent_size (p : Option Nat) : (f.toParent e p).size = f.size := by
  cases p <;> rfl

@[simp] theorem Func.branch_size (c : Option α) : (f.branch b c yes no).size = f.size := by
  cases c <;> rfl

@[simp] theorem Func.appendOpt_size (a : Option α) : (f.appendOpt b a).size = f.size := by
  cases a <;> rfl

@[simp] theorem Func.newBlock_block :
    f.newBlock.block b = if b = f.size then ⟨[], none⟩ else f.block b := by
  simp only [Func.newBlock, Function.update_apply]

@[simp] theorem Func.append_block :
    (f.append b a).block b' =
      if b' = b then ⟨(f.block b).insts ++ [a], (f.block b).term⟩ else f.block b' := by
  simp only [Func.append, Function.update_apply]

@[simp] theorem Func.setTerm_block :
    (f.setTerm b t).block b' = if b' = b then ⟨(f.block b).insts, some t⟩ else f.block b' := by
  simp only [Func.setTerm, Function.update_apply]

@[simp] theorem Func.closeTo_block :
    (f.closeTo b e).block b' =
      if b' = b ∧ (f.block b).term = none then ⟨(f.block b).insts, some (.br e)⟩
      else f.block b' := by
  unfold Func.closeTo
  cases ht : (f.block b).term <;> simp

@[simp] theorem Func.toParent_block (p : Option Nat) :
    (f.toParent e p).block b' =
      if b' = e then ⟨(f.block e).insts, (p.map .br).or (f.block e).term⟩ else f.block b' := by
  cases p with
  | none =>
    simp only [Func.toParent, Option.map_none, Option.none_or]
    split
    · next h => rw [h]
    · rfl
  | some p => simp [Func.toParent]

/-- The terminator of a condition's branch. -/
def branchTerm (c : Option α) (yes no : Nat) : Term α :=
  match c with
  | some c => .condBr c yes no
  | none => .br yes

@[simp] theorem Func.branch_block (c : Option α) :
    (f.branch b c yes no).block b' =
      if b' = b then ⟨(f.block b).insts, some (branchTerm c yes no)⟩ else f.block b' := by
  cases c <;> simp [Func.branch, branchTerm]

@[simp] theorem Func.appendOpt_block (a : Option α) :
    (f.appendOpt b a).block b' =
      if b' = b then ⟨(f.block b).insts ++ a.toList, (f.block b).term⟩ else f.block b' := by
  cases a with
  | none =>
    simp only [Func.appendOpt, Option.toList_none, List.append_nil]
    split
    · next h => rw [h]
    · rfl
  | some a => simp [Func.appendOpt]

end Blocks

/-! ## What the flow does inside a block, and at its end -/

theorem Func.flow_act {g : Func α} {b i : Nat} {a : α} (h : (g.block b).insts[i]? = some a) :
    g.flow (b, i) = .act a (b, i + 1) := by
  simp only [Func.flow, h]

/-- What a terminator, or none, does. -/
def termAction : Option (Term α) → Action α Point
  | some (.br b) => .goto (b, 0)
  | some (.condBr c t e) => .test c (t, 0) (e, 0)
  | some .ret => .ret
  | none => .stuck

theorem Func.flow_end {g : Func α} {b i : Nat} (h : i = (g.block b).insts.length) :
    g.flow (b, i) = termAction (g.block b).term := by
  have hnone : (g.block b).insts[i]? = none := by simp [h]
  simp only [Func.flow, hnone]
  rcases (g.block b).term with _ | _ | _ | _ <;> rfl

theorem termAction_branchTerm (c : Option α) (yes no : Nat) :
    termAction (some (branchTerm c yes no)) = branchTo c (yes, 0) (no, 0) := by
  cases c <;> rfl

private theorem getElem?_of_grown {l m : List α} {a : α} (h : l ++ [a] <+: m) :
    m[l.length]? = some a := by
  obtain ⟨r, rfl⟩ := h
  simp

/-- An optional instruction that a block goes on with. -/
theorem laidOpt {g : Func α} {b : Nat} {a : Option α} {l : List α}
    (h : l ++ a.toList <+: (g.block b).insts) :
    LaidOpt g a (b, l.length) (b, (l ++ a.toList).length) := by
  cases a with
  | none => simp [LaidOpt]
  | some a =>
    rw [List.length_append]
    exact Func.flow_act (getElem?_of_grown h)

/-! ## Each statement -/

section Statements

variable {parent : Option Nat} {s : Scope} {f : Func α}

theorem emits_atom (a : α) (hs : s.block < f.size) :
    Emits parent [.atom a] s f s (f.append s.block a) where
  size := le_refl _
  frame b _ hne := by simp [hne]
  beyond b hb := by
    simp only [Func.append_size] at hb
    simp [(hs.trans_le hb).ne']
  grow := by simp
  cur := Or.inl ⟨rfl, rfl⟩
  term := by simp [lastConstruct, Stmt.construct]
  closed hl := absurd rfl hl
  target := by
    rintro b (rfl | hb) hlt hne
    · exact absurd rfl hne
    · simp only [Func.append_size] at hlt
      omega
  laid g hg := by
    have hgrow := hg.grow
    simp only [Func.append_block, if_true] at hgrow
    exact ⟨_, Func.flow_act (getElem?_of_grown hgrow), by simp [Func.last, LaidSL]⟩

/-- **A branch's statements**, compiled from the blank block `c.block` in a scope
whose parent stands at `back`, in a graph where that block, if it was still open
at the end, was closed to `e`. -/
theorem Emits.branch {back e : Nat} {sts : List (Stmt α)} {c s₁ : Scope} {f₁ g : Func α}
    (h : Emits (some back) sts c f s₁ f₁) (hblank : f.block c.block = ⟨[], none⟩)
    (hc : c.block < f.size)
    (hg : ∀ b, b = c.block ∨ f.size ≤ b → b < f₁.size → g.block b =
      if b = c.block ∧ lastConstruct sts = none then ⟨(f₁.block b).insts, some (.br e)⟩
      else f₁.block b) :
    (LaidSL g sts (c.block, 0) (f₁.last s₁.block) ∧
      g.flow (f₁.last s₁.block) = exitTo (lastConstruct sts) (e, 0) (back, 0)) ∧
    ∀ b, b = c.block ∨ f.size ≤ b → b < f₁.size → ∀ t, (g.block b).term = some t →
      ∀ x ∈ t.targets, x = c.block ∨ f.size ≤ x ∨ x = e ∨
        x = back ∧ lastConstruct sts = some .cond := by
  have hsize := h.size
  have hown : s₁.block = c.block ∨ f.size ≤ s₁.block := by
    rcases h.cur with ⟨hs, -⟩ | ⟨hs, -, -⟩ <;> omega
  have hlt : s₁.block < f₁.size := by
    rcases h.cur with ⟨hs, -⟩ | ⟨-, hs, -⟩ <;> omega
  have hinsts : (g.block s₁.block).insts = (f₁.block s₁.block).insts := by
    rw [hg s₁.block hown hlt]
    split <;> rfl
  -- the last block is closed to `e` behind the branch, has been closed to `back`, or is left open
  have hterm : (g.block s₁.block).term = match lastConstruct sts with
      | none => some (.br e)
      | some .cond => some (.br back)
      | some .loop => none := by
    rw [hg s₁.block hown hlt]
    rcases h.cur with ⟨hs, hl⟩ | ⟨hs, -, hl⟩
    · simp [hs, hl]
    · rw [if_neg (fun hb => hl hb.2), h.term]
      cases hk : lastConstruct sts with
      | none => exact absurd hk hl
      | some k => cases k <;> rfl
  have hkeep : ∀ b, b = c.block ∨ f.size ≤ b → b < f₁.size → b ≠ s₁.block →
      g.block b = f₁.block b := by
    intro b hb hb' hne
    rw [hg b hb hb', if_neg]
    rintro ⟨rfl, hl⟩
    rcases h.cur with ⟨hs, -⟩ | ⟨-, -, hl'⟩
    · exact hne hs.symm
    · exact hl' hl
  refine ⟨⟨?_, ?_⟩, ?_⟩
  · have hl := h.laid g ⟨hkeep, by rw [hinsts]⟩
    rwa [Func.last, hblank] at hl
  · rw [Func.last, Func.flow_end (by rw [hinsts]), hterm]
    cases lastConstruct sts with
    | none => rfl
    | some k => cases k <;> rfl
  · intro b hb hb' t ht x hx
    by_cases hne : b = s₁.block
    · subst hne
      rw [hterm] at ht
      cases hk : lastConstruct sts with
      | none =>
        simp only [hk, Option.some.injEq] at ht
        subst ht
        exact Or.inr (Or.inr (Or.inl (by simpa [Term.targets] using hx)))
      | some k =>
        cases k with
        | cond =>
          simp only [hk, Option.some.injEq] at ht
          subst ht
          exact Or.inr (Or.inr (Or.inr ⟨by simpa [Term.targets] using hx, rfl⟩))
        | loop => simp [hk] at ht
    · rw [hkeep b hb hb' hne] at ht
      rcases h.target b hb hb' hne t ht x hx with hge | ⟨he, -⟩
      · exact Or.inr (Or.inl hge)
      · exact Or.inl he

/-- A block is still open after its statements exactly if they hold no
construct. -/
theorem Emits.open_iff {sts : List (Stmt α)} {c s₁ : Scope} {f₁ : Func α}
    (h : Emits parent sts c f s₁ f₁) (hblank : f.block c.block = ⟨[], none⟩) :
    (f₁.block c.block).term = none ↔ lastConstruct sts = none := by
  constructor
  · intro ht
    by_contra hl
    exact h.closed hl ht
  · intro hl
    rcases h.cur with ⟨hc, -⟩ | ⟨-, -, hl'⟩
    · rw [← hc, h.term, hl]
      exact congrArg Block.term hblank
    · exact absurd hl hl'

theorem emits_ifN {c : α} {sts : List (Stmt α)} {s₁ : Scope} {f₁ : Func α}
    (h : Emits (some s.block) sts (s.addChildScope f.size) f.newBlock s₁ f₁)
    (hs : s.block < f.size) :
    Emits parent [.ifN c sts] s f { s with block := f₁.size }
      (((f₁.newBlock.setTerm s.block (.condBr c f.size f₁.size)).closeTo f.size
        f₁.size).toParent f₁.size parent) := by
  have hsize : f.size + 1 ≤ f₁.size := h.size
  have hblank : f.newBlock.block f.size = ⟨[], none⟩ := by simp
  have hframe : ∀ b < f.size, f₁.block b = f.block b := by
    intro b hb
    rw [h.frame b (by simp; omega) (by simp [Scope.addChildScope]; omega)]
    simp [hb.ne]
  have hopen := h.open_iff hblank
  simp only [Scope.addChildScope] at hopen
  -- the finished blocks
  have hblock : ∀ b, (((f₁.newBlock.setTerm s.block (.condBr c f.size f₁.size)).closeTo f.size
      f₁.size).toParent f₁.size parent).block b =
      if b = f₁.size then ⟨[], parent.map .br⟩
      else if b = s.block then ⟨(f.block b).insts, some (.condBr c f.size f₁.size)⟩
      else if b = f.size ∧ lastConstruct sts = none then
        ⟨(f₁.block b).insts, some (.br f₁.size)⟩
      else f₁.block b := by
    intro b
    have := hframe s.block hs
    simp
    grind
  generalize hF : ((f₁.newBlock.setTerm s.block (.condBr c f.size f₁.size)).closeTo f.size
        f₁.size).toParent f₁.size parent = F at hblock
  have hFsize : F.size = f₁.size + 1 := by simp [← hF]
  have hbranch := fun (g : Func α) hg => h.branch (g := g) (e := f₁.size) hblank
    (by simp [Scope.addChildScope]) hg
  simp only [Scope.addChildScope, Func.newBlock_size] at hbranch
  have hbeyond := h.beyond
  simp only [Func.newBlock_block] at hbeyond
  constructor
  · omega
  · intro b hb hne
    grind
  · intro b hb
    grind
  · grind
  · exact Or.inr ⟨by simp; omega, by simp; omega, by simp [lastConstruct, Stmt.construct]⟩
  · simp [hblock, lastConstruct, Stmt.construct]
  · intro _
    grind
  · intro b hb hlt hne t ht x hx
    have hne' : b ≠ f₁.size := hne
    by_cases hbs : b = s.block
    · have hterm : t = .condBr c f.size f₁.size := by grind
      subst hterm
      simp only [Term.targets, List.mem_cons, List.not_mem_nil, or_false] at hx
      omega
    · have htargets := (hbranch F (by intro b hb hb'; grind)).2 b (by omega) (by omega) t ht x hx
      rcases htargets with hx | hx | hx | ⟨hx, hl⟩
      · omega
      · omega
      · omega
      · exact Or.inr ⟨hx, by simp [jumpsToStart, Stmt.jumpsBack, hl]⟩
  · intro g hg
    have hkeep : ∀ b, b = s.block ∨ f.size ≤ b → b < f₁.size → g.block b = F.block b := by
      intro b hb hlt
      exact hg.keep b hb (by omega) (by simp; omega)
    obtain ⟨⟨hlaid, hexit⟩, -⟩ := hbranch g (by intro b hb hb'; grind)
    have hlast : F.last f₁.size = (f₁.size, 0) := by simp [Func.last, hblock]
    refine ⟨_, ⟨f.size, f₁.last s₁.block, ?_, hlaid, hexit⟩, hlast⟩
    have hg' : g.block s.block = ⟨(f.block s.block).insts, some (.condBr c f.size f₁.size)⟩ := by
      grind
    rw [Func.last, Func.flow_end (by rw [hg']), hg']
    rfl

theorem emits_ifElse {c : α} {sts els : List (Stmt α)} {s₁ s₂ : Scope} {f₁ f₂ : Func α}
    (h₁ : Emits (some (f.size + 2)) sts (s.addChildScope f.size)
      (f.newBlock.newBlock.newBlock.setTerm s.block (.condBr c f.size (f.size + 1))) s₁ f₁)
    (h₂ : Emits (some (f.size + 2)) els (s.addChildScope (f.size + 1)) f₁ s₂ f₂)
    (hs : s.block < f.size) :
    Emits parent [.ifElse c sts els] s f { s with block := f.size + 2 }
      (((f₂.closeTo f.size (f.size + 2)).closeTo (f.size + 1) (f.size + 2)).toParent (f.size + 2)
        parent) := by
  have hsize₁ : f.size + 3 ≤ f₁.size := h₁.size
  have hsize₂ := h₂.size
  have hblank₁ : (f.newBlock.newBlock.newBlock.setTerm s.block
      (.condBr c f.size (f.size + 1))).block f.size = ⟨[], none⟩ := by
    simp [hs.ne']
  have hframe₁ : ∀ b < f.size + 3, b ≠ f.size → f₁.block b =
      if b = s.block then ⟨(f.block b).insts, some (.condBr c f.size (f.size + 1))⟩
      else if f.size < b then ⟨[], none⟩ else f.block b := by
    intro b hb hne
    rw [h₁.frame b hb hne]
    simp
    grind
  have hblank₂ : f₁.block (f.size + 1) = ⟨[], none⟩ := by
    rw [hframe₁ _ (by omega) (by omega), if_neg (by omega), if_pos (by omega)]
  have hframe₂ : ∀ b < f₁.size, b ≠ f.size + 1 → f₂.block b = f₁.block b :=
    fun b hb hne => h₂.frame b hb hne
  have hopen₁ := h₁.open_iff hblank₁
  have hopen₂ := h₂.open_iff hblank₂
  simp only [Scope.addChildScope] at hopen₁ hopen₂
  -- the finished blocks
  have hblock : ∀ b, (((f₂.closeTo f.size (f.size + 2)).closeTo (f.size + 1)
      (f.size + 2)).toParent (f.size + 2) parent).block b =
      if b = f.size + 2 then ⟨[], parent.map .br⟩
      else if b = f.size ∧ lastConstruct sts = none then
        ⟨(f₁.block b).insts, some (.br (f.size + 2))⟩
      else if b = f.size + 1 ∧ lastConstruct els = none then
        ⟨(f₂.block b).insts, some (.br (f.size + 2))⟩
      else f₂.block b := by
    intro b
    have hend := hframe₁ (f.size + 2) (by omega) (by omega)
    rw [if_neg (by omega), if_pos (by omega)] at hend
    have htt := hframe₂ f.size (by omega) (by omega)
    have hend₂ := hframe₂ (f.size + 2) (by omega) (by omega)
    simp
    grind
  generalize hF : ((f₂.closeTo f.size (f.size + 2)).closeTo (f.size + 1)
      (f.size + 2)).toParent (f.size + 2) parent = F at hblock
  have hFsize : F.size = f₂.size := by simp [← hF]
  have hbranch₁ := fun (g : Func α) hg => h₁.branch (g := g) (e := f.size + 2) hblank₁
    (by simp [Scope.addChildScope]; omega) hg
  have hbranch₂ := fun (g : Func α) hg => h₂.branch (g := g) (e := f.size + 2) hblank₂
    (by simp [Scope.addChildScope]; omega) hg
  simp only [Scope.addChildScope, Func.setTerm_size, Func.newBlock_size] at hbranch₁ hbranch₂
  have hg₁ : ∀ g : Func α, (∀ b, b = s.block ∨ f.size ≤ b → b < f₂.size → b ≠ f.size + 2 →
      g.block b = F.block b) → ∀ b, b = f.size ∨ f.size + 1 + 1 + 1 ≤ b → b < f₁.size →
      g.block b = if b = f.size ∧ lastConstruct sts = none then
        ⟨(f₁.block b).insts, some (.br (f.size + 2))⟩ else f₁.block b := by
    intro g hg b hb hlt
    rw [hg b (by omega) (by omega) (by omega), hblock, if_neg (by omega)]
    have := hframe₂ b (by omega) (by omega)
    grind
  have hg₂ : ∀ g : Func α, (∀ b, b = s.block ∨ f.size ≤ b → b < f₂.size → b ≠ f.size + 2 →
      g.block b = F.block b) → ∀ b, b = f.size + 1 ∨ f₁.size ≤ b → b < f₂.size →
      g.block b = if b = f.size + 1 ∧ lastConstruct els = none then
        ⟨(f₂.block b).insts, some (.br (f.size + 2))⟩ else f₂.block b := by
    intro g hg b hb hlt
    rw [hg b (by omega) (by omega) (by omega), hblock, if_neg (by omega), if_neg (by omega)]
  have hsblock : F.block s.block =
      ⟨(f.block s.block).insts, some (.condBr c f.size (f.size + 1))⟩ := by
    rw [hblock, if_neg (by omega), if_neg (by omega), if_neg (by omega),
      hframe₂ _ (by omega) (by omega), hframe₁ _ (by omega) (by omega), if_pos rfl]
  constructor
  · omega
  · intro b hb hne
    rw [hblock, if_neg (by omega), if_neg (by omega), if_neg (by omega),
      hframe₂ _ (by omega) (by omega), hframe₁ _ (by omega) (by omega), if_neg hne,
      if_neg (by omega)]
  · intro b hb
    have hbeyond := h₁.beyond b (by omega)
    simp only [Func.setTerm_block, Func.newBlock_block, Func.newBlock_size] at hbeyond
    rw [hblock, if_neg (by omega), if_neg (by omega), if_neg (by omega), h₂.beyond b (by omega),
      hbeyond, if_neg (by omega), if_neg (by omega), if_neg (by omega), if_neg (by omega)]
  · rw [hsblock]
  · exact Or.inr ⟨by simp, by simp; omega, by simp [lastConstruct, Stmt.construct]⟩
  · simp [hblock, lastConstruct, Stmt.construct]
  · intro _
    rw [hsblock]
    simp
  · intro b hb hlt hne t ht x hx
    have hne' : b ≠ f.size + 2 := hne
    by_cases hbs : b = s.block
    · rw [hbs, hsblock, Option.some.injEq] at ht
      subst ht
      simp only [Term.targets, List.mem_cons, List.not_mem_nil, or_false] at hx
      omega
    · by_cases hown : b = f.size + 1 ∨ f₁.size ≤ b
      · have htargets := (hbranch₂ F (hg₂ F fun _ _ _ _ => rfl)).2 b hown (by omega) t ht x hx
        omega
      · by_cases hb₁ : b = f.size ∨ f.size + 1 + 1 + 1 ≤ b
        · have htargets := (hbranch₁ F (hg₁ F fun _ _ _ _ => rfl)).2 b hb₁ (by omega) t ht x hx
          omega
        · omega
  · intro g hg
    have hkeep : ∀ b, b = s.block ∨ f.size ≤ b → b < f₂.size → b ≠ f.size + 2 →
        g.block b = F.block b := fun b hb hlt hne => hg.keep b hb (by omega) hne
    obtain ⟨⟨hlaid₁, hexit₁⟩, -⟩ := hbranch₁ g (hg₁ g hkeep)
    obtain ⟨⟨hlaid₂, hexit₂⟩, -⟩ := hbranch₂ g (hg₂ g hkeep)
    have hlast : F.last (f.size + 2) = (f.size + 2, 0) := by simp [Func.last, hblock]
    refine ⟨_, ⟨f.size, f.size + 1, f₁.last s₁.block, f₂.last s₂.block, ?_, hlaid₁, hexit₁,
      hlaid₂, hexit₂⟩, hlast⟩
    have hg' := hkeep s.block (Or.inl rfl) (by omega) (by omega)
    rw [hsblock] at hg'
    rw [Func.last, Func.flow_end (by rw [hg']), hg']
    rfl

theorem emits_forN {init bool step : Option α} {sts : List (Stmt α)} {c s₁ : Scope} {f₁ : Func α}
    (hc : c.block = f.size + 1)
    (h : Emits (some (f.size + 2)) sts c
      ((f.newBlock.newBlock.newBlock.appendOpt s.block init).branch s.block bool (f.size + 1)
        (f.size + 2)) s₁ f₁)
    (hs : s.block < f.size) :
    Emits parent [.forN init bool step sts] s f
      { s with
        block := f.size + 2
        continueBlock := some f.size
        breakBlock := some (f.size + 2) }
      (((f₁.appendOpt f.size step).branch f.size bool (f.size + 1) (f.size + 2)).setTerm s₁.block
        (.br f.size)) := by
  have hstart : ((f.newBlock.newBlock.newBlock.appendOpt s.block init).branch s.block bool
      (f.size + 1) (f.size + 2)).size = f.size + 3 := by
    rw [Func.branch_size, Func.appendOpt_size]
    rfl
  have hsize : f.size + 3 ≤ f₁.size := hstart ▸ h.size
  have hframe : ∀ b < f.size + 3, b ≠ f.size + 1 → f₁.block b =
      if b = s.block then
        ⟨(f.block b).insts ++ init.toList, some (branchTerm bool (f.size + 1) (f.size + 2))⟩
      else if f.size ≤ b then ⟨[], none⟩ else f.block b := by
    intro b hb hne
    rw [h.frame b (by rwa [hstart]) (by omega)]
    simp
    grind
  have hown : f.size + 1 = s₁.block ∨ f.size + 3 ≤ s₁.block := by
    rcases h.cur with ⟨hs₁, -⟩ | ⟨hs₁, -, -⟩
    · omega
    · simp at hs₁
      omega
  have hlt : s₁.block < f₁.size := by
    rcases h.cur with ⟨hs₁, -⟩ | ⟨-, hs₁, -⟩ <;> omega
  -- the finished blocks
  have hblock : ∀ b, (((f₁.appendOpt f.size step).branch f.size bool (f.size + 1)
      (f.size + 2)).setTerm s₁.block (.br f.size)).block b =
      if b = s₁.block then ⟨(f₁.block b).insts, some (.br f.size)⟩
      else if b = f.size then
        ⟨step.toList, some (branchTerm bool (f.size + 1) (f.size + 2))⟩
      else f₁.block b := by
    intro b
    have hcond := hframe f.size (by omega) (by omega)
    rw [if_neg (by omega), if_pos (by omega)] at hcond
    simp
    grind
  generalize hF : ((f₁.appendOpt f.size step).branch f.size bool (f.size + 1)
      (f.size + 2)).setTerm s₁.block (.br f.size) = F at hblock
  have hFsize : F.size = f₁.size := by simp [← hF]
  have hsblock : F.block s.block = ⟨(f.block s.block).insts ++ init.toList,
      some (branchTerm bool (f.size + 1) (f.size + 2))⟩ := by
    rw [hblock, if_neg (by omega), if_neg (by omega), hframe _ (by omega) (by omega), if_pos rfl]
  have hend : F.block (f.size + 2) = ⟨[], none⟩ := by
    rw [hblock, if_neg (by omega), if_neg (by omega), hframe _ (by omega) (by omega),
      if_neg (by omega), if_pos (by omega)]
  have hbranchTargets : ∀ x ∈ (branchTerm bool (f.size + 1) (f.size + 2)).targets, f.size ≤ x := by
    intro x hx
    cases bool <;> simp [branchTerm, Term.targets] at hx <;> omega
  constructor
  · omega
  · intro b hb hne
    rw [hblock, if_neg (by omega), if_neg (by omega), hframe _ (by omega) (by omega), if_neg hne,
      if_neg (by omega)]
  · intro b hb
    have hbeyond := h.beyond b (by omega)
    simp at hbeyond
    rw [hblock, if_neg (by omega), if_neg (by omega), hbeyond]
    grind
  · rw [hsblock]
    exact List.prefix_append _ _
  · exact Or.inr ⟨by simp, by simp; omega, by simp [lastConstruct, Stmt.construct]⟩
  · simp [hend, lastConstruct, Stmt.construct]
  · intro _
    rw [hsblock]
    simp
  · intro b hb hlt' hne t ht x hx
    have hne' : b ≠ f.size + 2 := hne
    left
    by_cases hbs : b = s.block
    · rw [hbs, hsblock, Option.some.injEq] at ht
      exact hbranchTargets x (ht ▸ hx)
    · rw [hblock] at ht
      split at ht
      · simp only [Option.some.injEq] at ht
        subst ht
        simp only [Term.targets, List.mem_cons, List.not_mem_nil, or_false] at hx
        omega
      · next hne₁ =>
        split at ht
        · simp only [Option.some.injEq] at ht
          exact hbranchTargets x (ht ▸ hx)
        · have htargets := h.target b (by simp; omega) (by omega) hne₁ t ht x hx
          simp at htargets
          omega
  · intro g hg
    have hkeep : ∀ b, b = s.block ∨ f.size ≤ b → b < f₁.size → b ≠ f.size + 2 →
        g.block b = F.block b := fun b hb hlt hne => hg.keep b hb (by omega) hne
    have hlast : F.last (f.size + 2) = (f.size + 2, 0) := by simp [Func.last, hend]
    have hg' := hkeep s.block (Or.inl rfl) (by omega) (by omega)
    rw [hsblock] at hg'
    have hcond := hkeep f.size (Or.inr (by omega)) (by omega) (by omega)
    rw [hblock, if_neg (by omega), if_pos rfl] at hcond
    have hbody := hkeep s₁.block (Or.inr (by omega)) (by omega) (by omega)
    rw [hblock, if_pos rfl] at hbody
    have hblank : ((f.newBlock.newBlock.newBlock.appendOpt s.block init).branch s.block bool
        (f.size + 1) (f.size + 2)).last c.block = (f.size + 1, 0) := by
      simp [Func.last, hc]
      grind
    have hlaid : LaidSL g sts (f.size + 1, 0) (f₁.last s₁.block) := by
      rw [← hblank]
      refine h.laid g ⟨fun b hb hlt hne => ?_, by rw [hbody]⟩
      simp at hb
      rw [hkeep b (by omega) (by omega) (by omega), hblock, if_neg hne, if_neg (by omega)]
    rw [hlast]
    refine ⟨_, ⟨_, f.size + 1, f.size, _, f₁.last s₁.block,
      laidOpt (l := (f.block s.block).insts) (by rw [hg']), ?_, hlaid, ?_,
      laidOpt (l := []) (by rw [hcond]; simp), ?_⟩, rfl⟩
    · rw [Func.flow_end (by rw [hg']), hg', termAction_branchTerm]
    · rw [Func.last, Func.flow_end (by rw [hbody]), hbody]
      rfl
    · rw [Func.flow_end (by rw [hcond]; simp), hcond, termAction_branchTerm]

end Statements

/-! ## Every statement list -/

mutual

theorem Stmt.calc_emits (parent : Option Nat) : ∀ (st : Stmt α) (s : Scope) (f : Func α),
    st.plain = true → s.block < f.size →
      Emits parent [st] s f (st.calc parent s f).1 (st.calc parent s f).2
  | .atom a, s, f, _, hs => emits_atom a hs
  | .ifN _ sts, s, f, hp, hs =>
    emits_ifN (calcSL_emits _ sts _ _ hp (Nat.lt_succ_self f.size)) hs
  | .ifElse c sts els, s, f, hp, hs => by
    have hp' : plainSL sts = true ∧ plainSL els = true := by simpa [Stmt.plain] using hp
    have h₁ := calcSL_emits (some (f.size + 2)) sts (s.addChildScope f.size)
      (f.newBlock.newBlock.newBlock.setTerm s.block (.condBr c f.size (f.size + 1))) hp'.1
      (by simp [Scope.addChildScope]; omega)
    have hsize := h₁.size
    simp only [Func.setTerm_size, Func.newBlock_size] at hsize
    exact emits_ifElse h₁ (calcSL_emits _ els _ _ hp'.2 (Nat.lt_of_lt_of_le (by
      simp only [Scope.addChildScope]; omega) hsize)) hs
  | .forN init bool step sts, s, f, hp, hs => by
    refine emits_forN rfl (calcSL_emits _ sts _ _ hp ?_) hs
    simp [Scope.addChildScope]

theorem calcSL_emits (parent : Option Nat) : ∀ (sts : List (Stmt α)) (s : Scope) (f : Func α),
    plainSL sts = true → s.block < f.size →
      Emits parent sts s f (calcSL parent sts s f).1 (calcSL parent sts s f).2
  | [], s, f, _, _ => Emits.nil parent s f
  | st :: sts, s, f, hp, hs => by
    have hp' : st.plain = true ∧ plainSL sts = true := by simpa [plainSL] using hp
    have h := Stmt.calc_emits parent st s f hp'.1 hs
    refine h.cons (calcSL_emits parent sts _ _ hp'.2 ?_) hs
    have hsize := h.size
    rcases h.cur with ⟨hc, -⟩ | ⟨-, hc, -⟩ <;> omega

end

end CalcLang.Ast
