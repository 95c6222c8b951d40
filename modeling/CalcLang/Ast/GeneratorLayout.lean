import CalcLang.Ast.Generator
import Mathlib.Data.List.Infix

/-!
# How a generator's statements lie in the graph

`LaidSL` says where the statements of a list begin and leave in the finished graph, and
where every branch on the way goes; `emits` proves that the code generator lays them out
so. It also keeps count of the `ret void`s: `Emits.void` says that the blocks a list of
statements is done with have none exactly if the list is tidy.
-/

namespace CalcLang.Ast.Generator

open CalcLang.Lib Resumable

variable {α : Type}

/-! ## The layout -/

/-- A place in the graph: a block and an instruction's index in it. -/
abbrev Place := Nat × Nat

/-- An optional instruction, from `p` to `e`. -/
def LaidOpt (g : GFunc α) (a : Option α) (p e : Place) : Prop :=
  e.1 = p.1 ∧
    match a with
    | some a => g.code p = .act a e
    | none => e = p

/-- What a loop's condition, or its absence, does at a point. -/
def branchTo (yes no : Place) : Option α → Resumable.Action α Place
  | some c => .test c yes no
  | none => .goto yes

/-- Where a branch's last block goes: `e` is the construct's end, `back` where an inner
`end` went. -/
def exitTo (e back : Place) : Tail → Resumable.Action α Place
  | .blank => .goto e
  | .joined => .goto back
  | .cut | .void => .crash

mutual

/-- `st` begins at `p` and leaves at `e`. -/
def Laid (g : GFunc α) : GStmt α → Place → Place → Prop
  | .atom a, p, e => g.code p = .act a e ∧ e = (p.1, p.2 + 1)
  | .ifN c sts, p, e => ∃ tt x, g.code p = .test c (tt, 0) e ∧
      p.2 = (g.block p.1).insts.length ∧ e.2 = 0 ∧
      LaidSL g sts (tt, 0) x ∧ g.code x = exitTo e (p.1, 0) (tailSL .blank sts)
  | .ifElse c sts els, p, e => ∃ tt tf x y, g.code p = .test c (tt, 0) (tf, 0) ∧ e.2 = 0 ∧
      LaidSL g sts (tt, 0) x ∧ g.code x = exitTo e e (tailSL .blank sts) ∧
      LaidSL g els (tf, 0) y ∧ g.code y = exitTo e e (tailSL .blank els)
  | .forN init c step sts, p, e => ∃ q body cond r x, LaidOpt g init p q ∧
      g.code q = branchTo (body, 0) e c ∧ e.2 = 0 ∧ LaidSL g sts (body, 0) x ∧
      g.code x = .goto (cond, 0) ∧ LaidOpt g step (cond, 0) r ∧
      g.code r = branchTo (body, 0) e c
  | .yieldN a, p, e => ∃ q, LaidOpt g a p q ∧ g.code q = .suspend e ∧ e.2 = 0
  | .retN, p, e => e = p

/-- The statements begin at `p` and leave at `e`. -/
def LaidSL (g : GFunc α) : List (GStmt α) → Place → Place → Prop
  | [], p, e => e = p
  | st :: sts, p, e => ∃ q, Laid g st p q ∧ LaidSL g sts q e

end

/-! ## Blocks -/

section Blocks

variable (f : GFunc α) (b b' e : Nat) (a : Option α) (t : GTerm α)

@[simp] theorem newBlock_size : f.newBlock.size = f.size + 1 := rfl
@[simp] theorem append_size : (f.append b a).size = f.size := rfl
@[simp] theorem setTerm_size : (f.setTerm b t).size = f.size := rfl

@[simp] theorem closeTo_size : (f.closeTo b e).size = f.size := by
  unfold GFunc.closeTo
  split <;> rfl

@[simp] theorem toParent_size (p : Option Nat) : (f.toParent e p).size = f.size := by
  cases p <;> rfl

@[simp] theorem newBlock_block :
    f.newBlock.block b = if b = f.size then ⟨[], none⟩ else f.block b := by
  simp only [GFunc.newBlock, Function.update_apply]

@[simp] theorem append_block :
    (f.append b a).block b' =
      if b' = b then ⟨(f.block b).insts ++ a.toList, (f.block b).term⟩ else f.block b' := by
  simp only [GFunc.append, Function.update_apply]

@[simp] theorem setTerm_block :
    (f.setTerm b t).block b' = if b' = b then ⟨(f.block b).insts, some t⟩ else f.block b' := by
  simp only [GFunc.setTerm, Function.update_apply]

@[simp] theorem closeTo_block :
    (f.closeTo b e).block b' =
      if b' = b ∧ (f.block b).term = none then ⟨(f.block b).insts, some (.br e)⟩
      else f.block b' := by
  unfold GFunc.closeTo
  cases ht : (f.block b).term <;> simp

@[simp] theorem toParent_block (p : Option Nat) :
    (f.toParent e p).block b' =
      if b' = e then ⟨(f.block e).insts, (p.map .br).or (f.block e).term⟩ else f.block b' := by
  cases p with
  | none =>
    simp only [GFunc.toParent, Option.map_none, Option.none_or]
    split
    · next h => rw [h]
    · rfl
  | some p => simp [GFunc.toParent]

end Blocks

/-- The end of block `b`. -/
def last (f : GFunc α) (b : Nat) : Place := (b, (f.block b).insts.length)

theorem code_act {g : GFunc α} {b i : Nat} {a : α} (h : (g.block b).insts[i]? = some a) :
    g.code (b, i) = .act a (b, i + 1) := by
  simp only [GFunc.code, h]

/-- What a terminator, or none, does. -/
def termAction : Option (GTerm α) → Resumable.Action α Place
  | some (.br b) => .goto (b, 0)
  | some (.condBr c t e) => .test c (t, 0) (e, 0)
  | some (.yield nb) => .suspend (nb, 0)
  | some .retFalse => .done
  | some .retVoid | none => .crash

theorem code_end {g : GFunc α} {b i : Nat} (h : i = (g.block b).insts.length) :
    g.code (b, i) = termAction (g.block b).term := by
  have hnone : (g.block b).insts[i]? = none := by simp [h]
  simp only [GFunc.code, hnone]
  rcases (g.block b).term with _ | _ | _ | _ | _ | _ <;> rfl

theorem termAction_branchTerm' (c : Option α) (yes no : Nat) :
    termAction (some (branchTerm' yes no c)) = branchTo (yes, 0) (no, 0) c := by
  cases c <;> rfl

theorem getElem?_of_grown {l m : List α} {a : α} (h : l ++ [a] <+: m) : m[l.length]? = some a := by
  obtain ⟨r, rfl⟩ := h
  simp

/-- An optional instruction that a block goes on with. -/
theorem laidOpt {g : GFunc α} {b : Nat} {a : Option α} {l : List α}
    (h : l ++ a.toList <+: (g.block b).insts) :
    LaidOpt g a (b, l.length) (b, (l ++ a.toList).length) := by
  cases a with
  | none => exact ⟨rfl, by simp⟩
  | some a =>
    rw [List.length_append]
    exact ⟨rfl, code_act (getElem?_of_grown h)⟩

/-! ## What one compilation leaves behind -/

/-- Whether a statement ends the block it begins in. -/
def ends : GStmt α → Bool
  | .atom _ | .retN => false
  | _ => true

/-- The block the list begins in was ended by one of its statements. -/
def endsSL : List (GStmt α) → Bool
  | [] => false
  | st :: sts => ends st || endsSL sts

/-- The terminator of the last block, given that at the list's start and the parent. -/
def tailTerm (start : Option (GTerm α)) (parent : Option Nat) : Tail → Option (GTerm α)
  | .blank => start
  | .joined => parent.map .br
  | .cut => none
  | .void => some .retVoid

/-- Where the tail stands, whatever stood in front. -/
theorem tailSL_from (sts : List (GStmt α)) (t : Tail) :
    tailSL t sts = if tailSL .blank sts = .blank then t else tailSL .blank sts := by
  induction sts generalizing t with
  | nil => rfl
  | cons st sts ih =>
    have hcons (t : Tail) : tailSL t (st :: sts) = tailSL (st.tail t) sts := rfl
    rw [hcons, hcons, ih (st.tail t), ih (st.tail .blank)]
    cases st <;> simp only [GStmt.tail] <;> split <;> simp_all

theorem tail_cons (st : GStmt α) (sts : List (GStmt α)) :
    tailSL .blank (st :: sts) =
      if tailSL .blank sts = .blank then tailSL .blank [st] else tailSL .blank sts :=
  tailSL_from sts (st.tail .blank)

/-- A block that is not ended is as it was, or has a `ret void`. -/
theorem tail_of_not_ends {sts : List (GStmt α)} (h : endsSL sts = false) :
    tailSL .blank sts = .blank ∨ tailSL .blank sts = .void := by
  induction sts with
  | nil => exact .inl rfl
  | cons st sts ih =>
    rw [endsSL, Bool.or_eq_false_iff] at h
    rw [tail_cons]
    split
    · cases st with
      | atom => exact .inl rfl
      | retN => exact .inr rfl
      | ifN | ifElse | forN | yieldN => cases h.1
    · exact ih h.2

theorem not_ends_of_blank {sts : List (GStmt α)} (h : tailSL .blank sts = .blank) :
    endsSL sts = false := by
  induction sts with
  | nil => rfl
  | cons st sts ih =>
    rw [tail_cons] at h
    split at h
    · next hsts =>
      rw [endsSL, ih hsts, Bool.or_false]
      cases st with
      | atom => rfl
      | ifN | ifElse | forN | yieldN | retN => cases h
    · next hsts => exact absurd h hsts

/-- `g` is a later graph: it keeps the blocks from `b` on that `f'` had made or filled,
and may have gone on filling `cur`. -/
structure Extends (g f' : GFunc α) (b n cur : Nat) : Prop where
  keep : ∀ b', b' = b ∨ n ≤ b' → b' < f'.size → b' ≠ cur → g.block b' = f'.block b'
  grow : (f'.block cur).insts <+: (g.block cur).insts

/-- Compiling `sts` in block `s` took `f` to `f'` and the scope to the block `s'`. -/
structure Emits (parent : Option Nat) (sts : List (GStmt α)) (s : Nat) (f : GFunc α) (s' : Nat)
    (f' : GFunc α) : Prop where
  size : f.size ≤ f'.size
  frame : ∀ b < f.size, b ≠ s → f'.block b = f.block b
  grow : (f.block s).insts <+: (f'.block s).insts
  cur : s' = s ∧ endsSL sts = false ∨ f.size ≤ s' ∧ s' < f'.size ∧ endsSL sts = true
  term : (f'.block s').term = tailTerm (f.block s).term parent (tailSL .blank sts)
  closed : endsSL sts = true → (f'.block s).term ≠ none ∧ (f'.block s).term ≠ some .retVoid
  void : (∀ b, b = s ∨ f.size ≤ b → b < f'.size → b ≠ s' →
    (f'.block b).term ≠ some .retVoid) ↔ tidySL sts = true
  laid : ∀ g : GFunc α, Extends g f' s f.size s' → LaidSL g sts (last f s) (last f' s')

namespace Emits

variable {parent : Option Nat} {s s₁ s₂ : Nat} {f f₁ f₂ g : GFunc α} {st : GStmt α}
  {sts : List (GStmt α)}

/-- The last block is the first or a new one. -/
theorem own (h : Emits parent sts s f s₁ f₁) : s₁ = s ∨ f.size ≤ s₁ := by
  rcases h.cur with ⟨hc, -⟩ | ⟨hc, -, -⟩
  · exact .inl hc
  · exact .inr hc

theorem lt (h : Emits parent sts s f s₁ f₁) (hs : s < f.size) : s₁ < f₁.size := by
  have hsize := h.size
  rcases h.cur with ⟨hc, -⟩ | ⟨-, hc, -⟩ <;> omega

/-- Nothing to compile. -/
theorem nil (parent : Option Nat) (s : Nat) (f : GFunc α) : Emits parent [] s f s f where
  size := le_refl _
  frame _ _ _ := rfl
  grow := List.prefix_refl _
  cur := .inl ⟨rfl, rfl⟩
  term := rfl
  closed h := by simp [endsSL] at h
  void := by
    simp only [tidySL, iff_true]
    intro b hb hlt hne
    exact absurd hlt (Nat.not_lt.mpr (hb.resolve_left hne))
  laid _ _ := rfl

/-- A later graph for the rest is one for the first statement. -/
private theorem extends_first (h : Emits parent [st] s f s₁ f₁)
    (h' : Emits parent sts s₁ f₁ s₂ f₂) (hs : s < f.size) (hg : Extends g f₂ s f.size s₂) :
    Extends g f₁ s f.size s₁ where
  keep b' hb' hlt hne := by
    have hsize := h'.size
    have hown := h'.own
    rw [hg.keep b' hb' (by omega) (by omega), h'.frame b' hlt hne]
  grow := by
    have hsize := h'.size
    refine h'.grow.trans ?_
    by_cases he : s₁ = s₂
    · rw [he]
      exact hg.grow
    · have hown := h.own
      have hlt := h.lt hs
      rw [hg.keep s₁ (by omega) (by omega) he]

/-- A later graph for the whole is one for the rest. -/
private theorem extends_rest (h : Emits parent [st] s f s₁ f₁)
    (hg : Extends g f₂ s f.size s₂) : Extends g f₂ s₁ f₁.size s₂ where
  keep b' hb' hlt hne := by
    have hsize := h.size
    have hown := h.own
    exact hg.keep b' (by omega) hlt hne
  grow := hg.grow

/-- One statement, and then the rest. -/
theorem cons (h : Emits parent [st] s f s₁ f₁) (h' : Emits parent sts s₁ f₁ s₂ f₂)
    (hs : s < f.size) : Emits parent (st :: sts) s f s₂ f₂ where
  size := h.size.trans h'.size
  frame b hb hne := by
    have hsize := h.size
    have hown := h.own
    rw [h'.frame b (by omega) (by omega), h.frame b hb hne]
  grow := by
    have hsize := h.size
    refine h.grow.trans ?_
    by_cases he : s = s₁
    · rw [he]
      exact h'.grow
    · rw [h'.frame s (by omega) he]
  cur := by
    have hsize := h.size
    have hsize' := h'.size
    have hends : endsSL (st :: sts) = (endsSL [st] || endsSL sts) := by simp [endsSL]
    rw [hends]
    rcases h.cur with ⟨hc, hl⟩ | ⟨hc, hlt, hl⟩ <;> rcases h'.cur with ⟨hc', hl'⟩ | ⟨hc', hlt', hl'⟩
    · exact .inl ⟨hc'.trans hc, by rw [hl, hl']; rfl⟩
    · exact .inr ⟨by omega, hlt', by rw [hl', Bool.or_true]⟩
    · exact .inr ⟨by omega, by omega, by rw [hl, Bool.true_or]⟩
    · exact .inr ⟨by omega, hlt', by rw [hl', Bool.or_true]⟩
  term := by
    rw [tail_cons, h'.term]
    split
    · next hblank => rw [hblank, tailTerm, h.term]
    · next hblank =>
      cases ht : tailSL .blank sts with
      | blank => exact absurd ht hblank
      | joined | cut | void => rfl
  closed hl := by
    have hsize := h.size
    have hends : endsSL (st :: sts) = (endsSL [st] || endsSL sts) := by simp [endsSL]
    rcases h.cur with ⟨hc, hl₁⟩ | ⟨hc, -, hl₁⟩
    · rw [hends, hl₁, Bool.false_or] at hl
      exact hc ▸ h'.closed hl
    · rw [h'.frame s (by omega) (by omega)]
      exact h.closed hl₁
  void := by
    have hsize := h.size
    have hsize' := h'.size
    have hown := h.own
    have hown' := h'.own
    have hlt := h.lt hs
    have htidy : tidySL (st :: sts) = true ↔ tidySL [st] = true ∧ tidySL sts = true := by
      simp [tidySL]
    rw [htidy, ← h.void, ← h'.void]
    constructor
    · intro hall
      refine ⟨fun b hb hlt₁ hne => ?_, fun b hb hlt₂ hne => hall b (by omega) hlt₂ hne⟩
      rw [← h'.frame b hlt₁ hne]
      exact hall b hb (by omega) (by omega)
    · rintro ⟨h₁, h₂⟩ b hb hlt₂ hne
      -- a block of the rest, or one of the first statement that the rest leaves alone
      by_cases hrest : b = s₁ ∨ f₁.size ≤ b
      · exact h₂ b hrest hlt₂ hne
      · rw [h'.frame b (by omega) (by omega)]
        exact h₁ b hb (by omega) (by omega)
  laid g hg :=
    ⟨_, by simpa [LaidSL] using h.laid g (extends_first h h' hs hg),
      h'.laid g (extends_rest h hg)⟩

/-- A block is still open after its statements exactly if they leave it blank. -/
theorem open_iff (h : Emits parent sts s f s₁ f₁) (hblank : f.block s = ⟨[], none⟩) :
    (f₁.block s).term = none ↔ tailSL .blank sts = .blank := by
  constructor
  · intro hterm
    cases hends : endsSL sts with
    | true => exact absurd hterm (h.closed hends).1
    | false =>
      rcases h.cur with ⟨hc, -⟩ | ⟨-, -, hl⟩
      · rcases tail_of_not_ends hends with ht | ht
        · exact ht
        · have := h.term
          rw [ht, hc, hterm] at this
          cases this
      · rw [hends] at hl
        cases hl
  · intro ht
    rcases h.cur with ⟨hc, -⟩ | ⟨-, -, hl⟩
    · rw [← hc, h.term, ht, tailTerm, hblank]
    · rw [not_ends_of_blank ht] at hl
      cases hl

/-- **A branch's statements**, compiled from the blank block `s` in a scope whose parent
stands at `back`, in a graph where that block, if it was still open at the end, was
closed to `e`. -/
theorem branch {back e : Nat} (h : Emits (some back) sts s f s₁ f₁)
    (hblank : f.block s = ⟨[], none⟩) (hs : s < f.size)
    (hg : ∀ b, b = s ∨ f.size ≤ b → b < f₁.size → g.block b =
      if b = s ∧ tailSL .blank sts = .blank then ⟨(f₁.block b).insts, some (.br e)⟩
      else f₁.block b) :
    (LaidSL g sts (s, 0) (last f₁ s₁) ∧
      g.code (last f₁ s₁) = exitTo (e, 0) (back, 0) (tailSL .blank sts)) ∧
    ((∀ b, b = s ∨ f.size ≤ b → b < f₁.size → (g.block b).term ≠ some .retVoid) ↔
      tailSL .blank sts ≠ .void ∧ tidySL sts = true) := by
  have hsize := h.size
  have hown := h.own
  have hlt := h.lt hs
  have hblank' : tailSL .blank sts = .blank → s₁ = s := by
    intro ht
    rcases h.cur with ⟨hc, -⟩ | ⟨-, -, hl⟩
    · exact hc
    · rw [not_ends_of_blank ht] at hl
      cases hl
  have hinsts : (g.block s₁).insts = (f₁.block s₁).insts := by
    rw [hg s₁ hown hlt]
    split <;> rfl
  have hterm : (g.block s₁).term = tailTerm (some (.br e)) (some back) (tailSL .blank sts) := by
    rw [hg s₁ hown hlt]
    split
    · next hb => rw [hb.2, tailTerm]
    · next hb =>
      rw [h.term]
      cases ht : tailSL .blank sts with
      | blank => exact absurd ⟨hblank' ht, ht⟩ hb
      | joined | cut | void => rfl
  have hkeep : ∀ b, b = s ∨ f.size ≤ b → b < f₁.size → b ≠ s₁ → g.block b = f₁.block b := by
    intro b hb hb' hne
    rw [hg b hb hb', if_neg]
    rintro ⟨rfl, ht⟩
    exact hne (hblank' ht).symm
  refine ⟨⟨?_, ?_⟩, ?_⟩
  · have hl := h.laid g ⟨hkeep, by rw [hinsts]⟩
    rwa [last, hblank] at hl
  · rw [last, code_end (by rw [hinsts]), hterm]
    cases tailSL .blank sts <;> rfl
  · have hvoid : (g.block s₁).term ≠ some .retVoid ↔ tailSL .blank sts ≠ .void := by
      rw [hterm]
      cases tailSL .blank sts <;> simp [tailTerm]
    rw [← h.void, ← hvoid]
    constructor
    · intro hall
      refine ⟨hall s₁ hown hlt, fun b hb hb' hne => ?_⟩
      rw [← hkeep b hb hb' hne]
      exact hall b hb hb'
    · rintro ⟨hlast, hall⟩ b hb hb'
      by_cases hne : b = s₁
      · rw [hne]
        exact hlast
      · rw [hkeep b hb hb' hne]
        exact hall b hb hb' hne

end Emits

/-! ## Each statement -/

section Statements

variable {parent : Option Nat} {s s₁ s₂ : Nat} {f f₁ f₂ : GFunc α} {sts els : List (GStmt α)}

theorem emits_atom (parent : Option Nat) (a : α) (s : Nat) (f : GFunc α) :
    Emits parent [.atom a] s f s (f.append s (some a)) where
  size := le_refl _
  frame b _ hne := by simp [hne]
  grow := by simp
  cur := .inl ⟨rfl, rfl⟩
  term := by simp [tailSL, GStmt.tail, tailTerm]
  closed h := by simp [endsSL, ends] at h
  void := by
    simp only [tidySL, GStmt.tidy, Bool.and_self, iff_true, append_size]
    intro b hb hlt hne
    exact absurd hlt (Nat.not_lt.mpr (hb.resolve_left hne))
  laid g hg := by
    have hgrow := hg.grow
    simp only [append_block, if_true, Option.toList_some] at hgrow
    refine ⟨_, ⟨code_act (getElem?_of_grown hgrow), rfl⟩, ?_⟩
    simp [last, LaidSL]

theorem emits_retN (parent : Option Nat) (s : Nat) (f : GFunc α) :
    Emits parent [.retN] s f s (f.setTerm s .retVoid) where
  size := le_refl _
  frame b _ hne := by simp [hne]
  grow := by simp
  cur := .inl ⟨rfl, rfl⟩
  term := by simp [tailSL, GStmt.tail, tailTerm]
  closed h := by simp [endsSL, ends] at h
  void := by
    simp only [tidySL, GStmt.tidy, Bool.and_self, iff_true, setTerm_size]
    intro b hb hlt hne
    exact absurd hlt (Nat.not_lt.mpr (hb.resolve_left hne))
  laid g _ := by
    refine ⟨_, rfl, ?_⟩
    simp [last, LaidSL]

theorem emits_yieldN (a : Option α) (hs : s < f.size) :
    Emits parent [.yieldN a] s f f.size
      ((f.append s a).newBlock.setTerm s (.yield f.size)) where
  size := by simp
  frame b hb hne := by simp [hne, hb.ne]
  grow := by simp [hs.ne]
  cur := .inr ⟨by simp, by simp, rfl⟩
  term := by simp [tailSL, GStmt.tail, tailTerm, hs.ne']
  closed _ := by simp
  void := by
    simp only [tidySL, GStmt.tidy, Bool.and_self, iff_true, setTerm_size, newBlock_size, append_size]
    intro b hb hlt hne
    obtain rfl : b = s := by omega
    simp
  laid g hg := by
    have hg' : g.block s = ⟨(f.block s).insts ++ a.toList, some (.yield f.size)⟩ := by
      rw [hg.keep s (.inl rfl) (by simp; omega) hs.ne]
      simp [hs.ne]
    refine ⟨(f.size, 0), ⟨_, laidOpt (by rw [hg']), ?_, rfl⟩, ?_⟩
    · rw [code_end (by rw [hg']), hg']
      rfl
    · simp [last, LaidSL, hs.ne']

theorem emits_ifN {c : α} (h : Emits (some s) sts f.size f.newBlock s₁ f₁) (hs : s < f.size) :
    Emits parent [.ifN c sts] s f f₁.size
      (((f₁.newBlock.setTerm s (.condBr c f.size f₁.size)).closeTo f.size f₁.size).toParent
        f₁.size parent) := by
  have hsize : f.size + 1 ≤ f₁.size := h.size
  have hblank : f.newBlock.block f.size = ⟨[], none⟩ := by simp
  have hframe : ∀ b < f.size, f₁.block b = f.block b := by
    intro b hb
    rw [h.frame b (by simp; omega) (by omega)]
    simp [hb.ne]
  have hopen := h.open_iff hblank
  -- the finished blocks
  have hblock : ∀ b, (((f₁.newBlock.setTerm s (.condBr c f.size f₁.size)).closeTo f.size
      f₁.size).toParent f₁.size parent).block b =
      if b = f₁.size then ⟨[], parent.map .br⟩
      else if b = s then ⟨(f.block s).insts, some (.condBr c f.size f₁.size)⟩
      else if b = f.size ∧ tailSL .blank sts = .blank then
        ⟨(f₁.block b).insts, some (.br f₁.size)⟩
      else f₁.block b := by
    intro b
    have := hframe s hs
    simp
    grind
  generalize hF : ((f₁.newBlock.setTerm s (.condBr c f.size f₁.size)).closeTo f.size
    f₁.size).toParent f₁.size parent = F at hblock
  have hFsize : F.size = f₁.size + 1 := by simp [← hF]
  have hbranch := fun (g : GFunc α) hg => h.branch (g := g) (e := f₁.size) hblank (by simp) hg
  simp only [newBlock_size] at hbranch
  have hsblock : F.block s = ⟨(f.block s).insts, some (.condBr c f.size f₁.size)⟩ := by
    rw [hblock, if_neg (by omega), if_pos rfl]
  have hown : ∀ b, b = f.size ∨ f.size + 1 ≤ b → b < f₁.size → F.block b =
      if b = f.size ∧ tailSL .blank sts = .blank then ⟨(f₁.block b).insts, some (.br f₁.size)⟩
      else f₁.block b := by
    intro b hb hlt
    rw [hblock, if_neg (by omega), if_neg (by omega)]
  constructor
  · omega
  · intro b hb hne
    rw [hblock, if_neg (by omega), if_neg hne, if_neg (by omega), hframe b hb]
  · rw [hsblock]
  · exact .inr ⟨by omega, by omega, rfl⟩
  · rw [hblock, if_pos rfl]
    rfl
  · intro _
    rw [hsblock]
    simp
  · have htidy : tidySL [.ifN c sts] = true ↔ tailSL .blank sts ≠ .void ∧ tidySL sts = true := by
      simp [tidySL, GStmt.tidy]
    rw [htidy, ← (hbranch F hown).2]
    constructor
    · intro hall b hb hlt
      exact hall b (by omega) (by omega) (by omega)
    · intro hall b hb hlt hne
      by_cases hbs : b = s
      · rw [hbs, hsblock]
        simp
      · exact hall b (by omega) (by omega)
  · intro g hg
    have hkeep : ∀ b, b = s ∨ f.size ≤ b → b < f₁.size → g.block b = F.block b :=
      fun b hb hlt => hg.keep b hb (by omega) (by omega)
    obtain ⟨⟨hlaid, hexit⟩, -⟩ := hbranch g fun b hb hlt => by
      rw [hkeep b (by omega) hlt, hown b hb hlt]
    have hlast : last F f₁.size = (f₁.size, 0) := by simp [last, hblock]
    have hg' := hkeep s (.inl rfl) (by omega)
    rw [hsblock] at hg'
    refine ⟨(f₁.size, 0), ⟨f.size, last f₁ s₁, ?_, ?_, rfl, hlaid, hexit⟩, hlast⟩
    · rw [last, code_end (by rw [hg']), hg']
      rfl
    · rw [last, hg']

theorem emits_ifElse {c : α}
    (h₁ : Emits (some (f.size + 2)) sts f.size
      (f.newBlock.newBlock.newBlock.setTerm s (.condBr c f.size (f.size + 1))) s₁ f₁)
    (h₂ : Emits (some (f.size + 2)) els (f.size + 1) f₁ s₂ f₂) (hs : s < f.size) :
    Emits parent [.ifElse c sts els] s f (f.size + 2)
      (((f₂.closeTo f.size (f.size + 2)).closeTo (f.size + 1) (f.size + 2)).toParent (f.size + 2)
        parent) := by
  have hsize₁ : f.size + 3 ≤ f₁.size := h₁.size
  have hsize₂ := h₂.size
  have hblank₁ : (f.newBlock.newBlock.newBlock.setTerm s
      (.condBr c f.size (f.size + 1))).block f.size = ⟨[], none⟩ := by
    simp [hs.ne']
  have hframe₁ : ∀ b < f.size + 3, b ≠ f.size → f₁.block b =
      if b = s then ⟨(f.block b).insts, some (.condBr c f.size (f.size + 1))⟩
      else if f.size < b then ⟨[], none⟩ else f.block b := by
    intro b hb hne
    rw [h₁.frame b hb hne]
    simp
    grind
  have hblank₂ : f₁.block (f.size + 1) = ⟨[], none⟩ := by
    rw [hframe₁ _ (by omega) (by omega), if_neg (by omega), if_pos (by omega)]
  have hframe₂ : ∀ b < f₁.size, b ≠ f.size + 1 → f₂.block b = f₁.block b :=
    fun b hb hne => h₂.frame b hb hne
  have hopen₁ := h₁.open_iff hblank₁
  have hopen₂ := h₂.open_iff hblank₂
  -- the finished blocks
  have hblock : ∀ b, (((f₂.closeTo f.size (f.size + 2)).closeTo (f.size + 1)
      (f.size + 2)).toParent (f.size + 2) parent).block b =
      if b = f.size + 2 then ⟨[], parent.map .br⟩
      else if b = f.size ∧ tailSL .blank sts = .blank then
        ⟨(f₁.block b).insts, some (.br (f.size + 2))⟩
      else if b = f.size + 1 ∧ tailSL .blank els = .blank then
        ⟨(f₂.block b).insts, some (.br (f.size + 2))⟩
      else f₂.block b := by
    intro b
    have hend := hframe₁ (f.size + 2) (by omega) (by omega)
    rw [if_neg (by omega), if_pos (by omega)] at hend
    have htt := hframe₂ f.size (by omega) (by omega)
    have hend₂ := hframe₂ (f.size + 2) (by omega) (by omega)
    simp
    grind
  generalize hF : ((f₂.closeTo f.size (f.size + 2)).closeTo (f.size + 1)
    (f.size + 2)).toParent (f.size + 2) parent = F at hblock
  have hFsize : F.size = f₂.size := by simp [← hF]
  have hbranch₁ := fun (g : GFunc α) hg => h₁.branch (g := g) (e := f.size + 2) hblank₁
    (by simp; omega) hg
  have hbranch₂ := fun (g : GFunc α) hg => h₂.branch (g := g) (e := f.size + 2) hblank₂
    (by omega) hg
  simp only [setTerm_size, newBlock_size] at hbranch₁
  have hown₁ : ∀ b, b = f.size ∨ f.size + 1 + 1 + 1 ≤ b → b < f₁.size → F.block b =
      if b = f.size ∧ tailSL .blank sts = .blank then
        ⟨(f₁.block b).insts, some (.br (f.size + 2))⟩ else f₁.block b := by
    intro b hb hlt
    have := hframe₂ b (by omega) (by omega)
    rw [hblock, if_neg (by omega)]
    grind
  have hown₂ : ∀ b, b = f.size + 1 ∨ f₁.size ≤ b → b < f₂.size → F.block b =
      if b = f.size + 1 ∧ tailSL .blank els = .blank then
        ⟨(f₂.block b).insts, some (.br (f.size + 2))⟩ else f₂.block b := by
    intro b hb hlt
    rw [hblock, if_neg (by omega), if_neg (by omega)]
  have hsblock : F.block s = ⟨(f.block s).insts, some (.condBr c f.size (f.size + 1))⟩ := by
    rw [hblock, if_neg (by omega), if_neg (by omega), if_neg (by omega),
      hframe₂ _ (by omega) (by omega), hframe₁ _ (by omega) (by omega), if_pos rfl]
  constructor
  · omega
  · intro b hb hne
    rw [hblock, if_neg (by omega), if_neg (by omega), if_neg (by omega),
      hframe₂ _ (by omega) (by omega), hframe₁ _ (by omega) (by omega), if_neg hne,
      if_neg (by omega)]
  · rw [hsblock]
  · exact .inr ⟨by omega, by omega, rfl⟩
  · rw [hblock, if_pos rfl]
    rfl
  · intro _
    rw [hsblock]
    simp
  · have htidy : tidySL [.ifElse c sts els] = true ↔
        (tailSL .blank sts ≠ .void ∧ tidySL sts = true) ∧
          (tailSL .blank els ≠ .void ∧ tidySL els = true) := by
      simp [tidySL, GStmt.tidy, and_assoc]
    rw [htidy, ← (hbranch₁ F hown₁).2, ← (hbranch₂ F hown₂).2]
    constructor
    · intro hall
      exact ⟨fun b hb hlt => hall b (by omega) (by omega) (by omega),
        fun b hb hlt => hall b (by omega) (by omega) (by omega)⟩
    · rintro ⟨hall₁, hall₂⟩ b hb hlt hne
      by_cases hbs : b = s
      · rw [hbs, hsblock]
        simp
      · by_cases hb₂ : b = f.size + 1 ∨ f₁.size ≤ b
        · exact hall₂ b hb₂ (by omega)
        · exact hall₁ b (by omega) (by omega)
  · intro g hg
    have hkeep : ∀ b, b = s ∨ f.size ≤ b → b < f₂.size → b ≠ f.size + 2 →
        g.block b = F.block b := fun b hb hlt hne => hg.keep b hb (by omega) hne
    obtain ⟨⟨hlaid₁, hexit₁⟩, -⟩ := hbranch₁ g fun b hb hlt => by
      rw [hkeep b (by omega) (by omega) (by omega), hown₁ b hb hlt]
    obtain ⟨⟨hlaid₂, hexit₂⟩, -⟩ := hbranch₂ g fun b hb hlt => by
      rw [hkeep b (by omega) (by omega) (by omega), hown₂ b hb hlt]
    have hlast : last F (f.size + 2) = (f.size + 2, 0) := by simp [last, hblock]
    have hg' := hkeep s (.inl rfl) (by omega) (by omega)
    rw [hsblock] at hg'
    refine ⟨(f.size + 2, 0), ⟨f.size, f.size + 1, last f₁ s₁, last f₂ s₂, ?_, rfl, hlaid₁, hexit₁,
      hlaid₂, hexit₂⟩, hlast⟩
    rw [last, code_end (by rw [hg']), hg']
    rfl

theorem emits_forN {init bool step : Option α}
    (h : Emits (some (f.size + 2)) sts (f.size + 1)
      ((f.newBlock.newBlock.newBlock.append s init).setTerm s
        (branchTerm' (f.size + 1) (f.size + 2) bool)) s₁ f₁) (hs : s < f.size) :
    Emits parent [.forN init bool step sts] s f (f.size + 2)
      (((f₁.append f.size step).setTerm f.size
        (branchTerm' (f.size + 1) (f.size + 2) bool)).setTerm s₁ (.br f.size)) := by
  have hsize : f.size + 3 ≤ f₁.size := h.size
  have hframe : ∀ b < f.size + 3, b ≠ f.size + 1 → f₁.block b =
      if b = s then
        ⟨(f.block b).insts ++ init.toList, some (branchTerm' (f.size + 1) (f.size + 2) bool)⟩
      else if f.size ≤ b then ⟨[], none⟩ else f.block b := by
    intro b hb hne
    rw [h.frame b hb hne]
    simp
    grind
  have hown : s₁ = f.size + 1 ∨ f.size + 3 ≤ s₁ := h.own
  have hlt : s₁ < f₁.size := h.lt (by simp)
  -- the finished blocks
  have hblock : ∀ b, (((f₁.append f.size step).setTerm f.size
      (branchTerm' (f.size + 1) (f.size + 2) bool)).setTerm s₁ (.br f.size)).block b =
      if b = s₁ then ⟨(f₁.block b).insts, some (.br f.size)⟩
      else if b = f.size then
        ⟨step.toList, some (branchTerm' (f.size + 1) (f.size + 2) bool)⟩
      else f₁.block b := by
    intro b
    have hcond := hframe f.size (by omega) (by omega)
    rw [if_neg (by omega), if_pos (by omega)] at hcond
    simp
    grind
  generalize hF : ((f₁.append f.size step).setTerm f.size
    (branchTerm' (f.size + 1) (f.size + 2) bool)).setTerm s₁ (.br f.size) = F at hblock
  have hFsize : F.size = f₁.size := by simp [← hF]
  have hsblock : F.block s = ⟨(f.block s).insts ++ init.toList,
      some (branchTerm' (f.size + 1) (f.size + 2) bool)⟩ := by
    rw [hblock, if_neg (by omega), if_neg (by omega), hframe _ (by omega) (by omega), if_pos rfl]
  have hend : F.block (f.size + 2) = ⟨[], none⟩ := by
    rw [hblock, if_neg (by omega), if_neg (by omega), hframe _ (by omega) (by omega),
      if_neg (by omega), if_pos (by omega)]
  have hbr : ∀ yes no, branchTerm' yes no bool ≠ .retVoid := by
    intro yes no
    cases bool <;> simp [branchTerm']
  constructor
  · omega
  · intro b hb hne
    rw [hblock, if_neg (by omega), if_neg (by omega), hframe _ (by omega) (by omega), if_neg hne,
      if_neg (by omega)]
  · rw [hsblock]
    exact List.prefix_append _ _
  · exact .inr ⟨by omega, by omega, rfl⟩
  · rw [hend]
    rfl
  · intro _
    rw [hsblock]
    exact ⟨by simp, by simpa using hbr _ _⟩
  · have htidy : tidySL [.forN init bool step sts] = true ↔ tidySL sts = true := by
      simp [tidySL, GStmt.tidy]
    rw [htidy, ← h.void]
    simp only [setTerm_size, append_size, newBlock_size]
    constructor
    · intro hall b hb hlt' hne
      have := hall b (by omega) (by omega) (by omega)
      rwa [hblock, if_neg hne, if_neg (by omega)] at this
    · intro hall b hb hlt' hne
      by_cases hbs : b = s
      · rw [hbs, hsblock]
        simpa using hbr _ _
      · rw [hblock]
        split
        · simp
        · next hne₁ =>
          split
          · simpa using hbr _ _
          · exact hall b (by omega) (by omega) hne₁
  · intro g hg
    have hkeep : ∀ b, b = s ∨ f.size ≤ b → b < f₁.size → b ≠ f.size + 2 →
        g.block b = F.block b := fun b hb hlt hne => hg.keep b hb (by omega) hne
    have hlast : last F (f.size + 2) = (f.size + 2, 0) := by simp [last, hend]
    have hg' := hkeep s (.inl rfl) (by omega) (by omega)
    rw [hsblock] at hg'
    have hcond := hkeep f.size (.inr (by omega)) (by omega) (by omega)
    rw [hblock, if_neg (by omega), if_pos rfl] at hcond
    have hbody := hkeep s₁ (.inr (by omega)) (by omega) (by omega)
    rw [hblock, if_pos rfl] at hbody
    have hblank : last ((f.newBlock.newBlock.newBlock.append s init).setTerm s
        (branchTerm' (f.size + 1) (f.size + 2) bool)) (f.size + 1) = (f.size + 1, 0) := by
      simp [last]
      grind
    have hlaid : LaidSL g sts (f.size + 1, 0) (last f₁ s₁) := by
      rw [← hblank]
      refine h.laid g ⟨fun b hb hlt hne => ?_, by rw [hbody]⟩
      simp at hb
      rw [hkeep b (by omega) (by omega) (by omega), hblock, if_neg hne, if_neg (by omega)]
    rw [hlast]
    refine ⟨(f.size + 2, 0), ⟨_, f.size + 1, f.size, _, last f₁ s₁,
      laidOpt (l := (f.block s).insts) (by rw [hg']), ?_, rfl, hlaid, ?_,
      laidOpt (l := []) (by rw [hcond]; simp), ?_⟩, rfl⟩
    · rw [code_end (by rw [hg']), hg', termAction_branchTerm']
    · rw [last, code_end (by rw [hbody]), hbody]
      rfl
    · rw [code_end (by rw [hcond]; simp), hcond, termAction_branchTerm']

end Statements

/-! ## Every statement list -/

mutual

theorem calc_emits (parent : Option Nat) : ∀ (st : GStmt α) (s : Nat) (f : GFunc α),
    s < f.size → Emits parent [st] s f (st.calc parent s f).1 (st.calc parent s f).2
  | .atom a, s, f, _ => emits_atom parent a s f
  | .retN, s, f, _ => emits_retN parent s f
  | .yieldN a, _, _, hs => emits_yieldN a hs
  | .ifN _ sts, _, f, hs => emits_ifN (calcSL_emits _ sts _ _ (Nat.lt_succ_self f.size)) hs
  | .ifElse c sts els, s, f, hs => by
    have h₁ := calcSL_emits (some (f.size + 2)) sts f.size
      (f.newBlock.newBlock.newBlock.setTerm s (.condBr c f.size (f.size + 1))) (by simp; omega)
    have hsize := h₁.size
    simp only [setTerm_size, newBlock_size] at hsize
    exact emits_ifElse h₁ (calcSL_emits _ els _ _ (by omega)) hs
  | .forN init bool step sts, s, f, hs =>
    emits_forN (calcSL_emits _ sts _ _ (by simp)) hs

theorem calcSL_emits (parent : Option Nat) : ∀ (sts : List (GStmt α)) (s : Nat) (f : GFunc α),
    s < f.size →
      Emits parent sts s f (GStmt.calcSL parent sts s f).1 (GStmt.calcSL parent sts s f).2
  | [], s, f, _ => Emits.nil parent s f
  | st :: sts, s, f, hs => by
    have h := calc_emits parent st s f hs
    exact h.cons (calcSL_emits parent sts _ _ (h.lt hs)) hs

end

end CalcLang.Ast.Generator
