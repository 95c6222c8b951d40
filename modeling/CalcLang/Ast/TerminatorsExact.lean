import CalcLang.Ast.Terminators

/-!
# Which terminators stay

`calc` in a scope changes the terminators of the block it starts in and of the blocks it makes,
and the scope's block is one of these afterwards (`Step`). So what the blocks inside a construct
emit can only be overwritten by the construct itself, as the scope has gone on to another
block behind it (`Cmd.emits_range`). Among the constructs only a loop does so: it branches from the
last block of its body, where the terminator of the body's last statement is, to its condition.
`kept_iff` says for which function bodies nothing is lost by this, nor by the `ret false` that ends
`StepNext`.
-/

namespace CalcLang.Ast

variable {α : Type}

/-! ## Blocks -/

namespace Blocks

variable {g : Blocks α} {b c : Nat}

@[simp] theorem newBlock_size (g : Blocks α) : g.newBlock.size = g.size + 1 := rfl

@[simp] theorem setTerm_size (g : Blocks α) (b : Nat) (t : Exit α) :
    (g.setTerm b t).size = g.size := rfl

@[simp] theorem closeTo_size (g : Blocks α) (b e : Nat) : (g.closeTo b e).size = g.size := by
  unfold closeTo
  split <;> rfl

@[simp] theorem toParent_size (g : Blocks α) (e : Nat) (parent : Option Nat) :
    (g.toParent e parent).size = g.size := by
  cases parent <;> rfl

@[simp] theorem branch_size (g : Blocks α) (b : Nat) (e : Option (AExp α)) (yes no : Nat) :
    (g.branch b e yes no).size = g.size := by
  cases e <;> rfl

theorem setTerm_self (g : Blocks α) (b : Nat) (t : Exit α) : (g.setTerm b t).term b = some t :=
  Function.update_self b _ _

theorem setTerm_ne (g : Blocks α) (t : Exit α) (h : c ≠ b) : (g.setTerm b t).term c = g.term c :=
  Function.update_of_ne h _ _

end Blocks

/-- `g` has come out of `g₀`, and below `n` no block but `b` has got another terminator. -/
structure Grown (n b : Nat) (g₀ g : Blocks α) : Prop where
  size : n ≤ g.size
  term : ∀ c < n, c ≠ b → g.term c = g₀.term c

namespace Grown

variable {n b c : Nat} {g₀ g g' : Blocks α}

theorem refl (n b : Nat) {g : Blocks α} (h : n ≤ g.size) : Grown n b g g := ⟨h, fun _ _ _ => rfl⟩

theorem newBlock (h : Grown n b g₀ g) : Grown n b g₀ g.newBlock := by
  refine ⟨Nat.le_succ_of_le h.size, ?_⟩
  intro d hd hne
  have hsize : d ≠ g.size := by
    have := h.size
    omega
  show Function.update g.term g.size none d = _
  rw [Function.update_of_ne hsize, h.term d hd hne]

/-- A terminator for `b` or a new block. -/
theorem setTerm (h : Grown n b g₀ g) (hc : c = b ∨ n ≤ c) (t : Exit α) :
    Grown n b g₀ (g.setTerm c t) := by
  refine ⟨h.size, ?_⟩
  intro d hd hne
  have hdc : d ≠ c := by omega
  rw [Blocks.setTerm_ne g t hdc, h.term d hd hne]

theorem closeTo (h : Grown n b g₀ g) (hc : c = b ∨ n ≤ c) (e : Nat) :
    Grown n b g₀ (g.closeTo c e) := by
  unfold Blocks.closeTo
  split
  · exact h.setTerm hc _
  · exact h

theorem toParent (h : Grown n b g₀ g) (hc : c = b ∨ n ≤ c) (parent : Option Nat) :
    Grown n b g₀ (g.toParent c parent) := by
  cases parent with
  | none => exact h
  | some p => exact h.setTerm hc _

theorem branch (h : Grown n b g₀ g) (hc : c = b ∨ n ≤ c) (e : Option (AExp α)) (yes no : Nat) :
    Grown n b g₀ (g.branch c e yes no) := by
  cases e with
  | none => exact h.setTerm hc _
  | some e => exact h.setTerm hc _

/-- What was done from `g` on, in `b` or a new block. -/
theorem trans (h : Grown n b g₀ g) (hc : c = b ∨ n ≤ c) (h' : Grown g.size c g g') :
    Grown n b g₀ g' := by
  have hle := h.size
  refine ⟨Nat.le_trans hle h'.size, ?_⟩
  intro d hd hne
  rw [h'.term d (by omega) (by omega), h.term d hd hne]

end Grown

/-- What `calc` does: it starts in the block of `s` and goes on in the block of `r`. -/
structure Step (s : Scope) (g : Blocks α) (r : Scope × Blocks α) : Prop where
  grown : Grown g.size s.block g r.2
  block : r.1.block = s.block ∨ g.size ≤ r.1.block
  lt : r.1.block < r.2.size

namespace Step

variable {s : Scope} {g : Blocks α} {r r' : Scope × Blocks α}

theorem refl (h : s.block < g.size) : Step s g (s, g) :=
  ⟨.refl _ _ (Nat.le_refl _), .inl rfl, h⟩

theorem trans (h : Step s g r) (h' : Step r.1 r.2 r') : Step s g r' := by
  have hle := h.grown.size
  refine ⟨h.grown.trans h.block h'.grown, ?_, h'.lt⟩
  have hblock := h.block
  have hblock' := h'.block
  omega

end Step

section Expressions

variable {parent : Option Nat} {s : Scope} {g : Blocks α}

theorem fakeIfElse_step (b : α) : Step s g (fakeIfElse parent b s g) := by
  refine ⟨?_, .inr (Nat.le_add_right _ _), ?_⟩
  · unfold fakeIfElse
    have hnew : Grown g.size s.block g g.newBlock.newBlock.newBlock :=
      (Grown.refl _ _ (Nat.le_refl _)).newBlock.newBlock.newBlock
    exact (((hnew.setTerm (.inl rfl) _).closeTo (.inr (Nat.le_refl _)) _).closeTo
      (.inr (by omega)) _).toParent (.inr (by omega)) parent
  · simp [fakeIfElse]

/-- A return from the block of the scope, which goes on in a new one. -/
theorem Step.suspend {r : Scope × Blocks α} (h : Step s g r) (v : Option α) :
    Step s g ({ r.1 with block := r.2.size }, r.2.newBlock.setTerm r.1.block (.ret v)) := by
  refine ⟨h.grown.newBlock.setTerm h.block _, .inr h.grown.size, ?_⟩
  show r.2.size < r.2.size + 1
  omega

theorem await_step (b : α) : Step s g (await parent b s g) := (fakeIfElse_step b).suspend _

theorem awaitAll_step (bs : List α) (h : s.block < g.size) : Step s g (awaitAll parent bs s g) := by
  induction bs generalizing s g with
  | nil => exact .refl h
  | cons b bs ih =>
    have hone : Step s g (await parent b s g) := await_step b
    exact hone.trans (ih hone.lt)

theorem AExp.calc_step (e : AExp α) (h : s.block < g.size) : Step s g (e.calc parent s g) :=
  awaitAll_step e.awaits h

theorem calcOpt_step (e : Option (AExp α)) (h : s.block < g.size) :
    Step s g (calcOpt parent e s g) := by
  cases e with
  | none => exact .refl h
  | some e => exact e.calc_step h

/-- Expressions leave the loop alone. -/
theorem awaitAll_loop (bs : List α) (s : Scope) (g : Blocks α) :
    (awaitAll parent bs s g).1.continueBlock = s.continueBlock ∧
      (awaitAll parent bs s g).1.breakBlock = s.breakBlock := by
  induction bs generalizing s g with
  | nil => exact ⟨rfl, rfl⟩
  | cons b bs ih => exact ih (await parent b s g).1 (await parent b s g).2

theorem calcOpt_loop (parent : Option Nat) (e : Option (AExp α)) (s : Scope) (g : Blocks α) :
    (calcOpt parent e s g).1.continueBlock = s.continueBlock ∧
      (calcOpt parent e s g).1.breakBlock = s.breakBlock := by
  cases e with
  | none => exact ⟨rfl, rfl⟩
  | some e => exact awaitAll_loop e.awaits s g

end Expressions

/-! ## Statements, with the states inside them named -/

section Constructs

variable (fn : FnEnv α) (parent : Option Nat) (s : Scope) (g : Blocks α)

/-- Three new blocks. -/
def Blocks.three (g : Blocks α) : Blocks α := g.newBlock.newBlock.newBlock

@[simp] theorem Blocks.three_size (g : Blocks α) : g.three.size = g.size + 3 := rfl

theorem Grown.three (g : Blocks α) (b : Nat) : Grown g.size b g g.three :=
  (Grown.refl _ _ (Nat.le_refl _)).newBlock.newBlock.newBlock

/-- The body of an `if`. -/
def ifBody (statements : List (Cmd α)) : Scope × Blocks α :=
  calcCmds fn (some s.block) statements (s.addChildScope g.size) g.newBlock

/-- The condition of an `if` is compiled behind its body. -/
def ifCond (c : AExp α) (statements : List (Cmd α)) : Scope × Blocks α :=
  c.calc parent s (ifBody fn s g statements).2.newBlock

theorem calc_ifN (c : AExp α) (statements : List (Cmd α)) :
    (Cmd.ifN c statements).calc fn parent s g =
      ({ (ifCond fn parent s g c statements).1 with block := (ifBody fn s g statements).2.size },
        (((ifCond fn parent s g c statements).2.setTerm (ifCond fn parent s g c statements).1.block
          (.condBr c.val g.size (ifBody fn s g statements).2.size)).closeTo g.size
            (ifBody fn s g statements).2.size).toParent (ifBody fn s g statements).2.size parent) :=
  rfl

/-- Behind the condition of an `if`/`else`. -/
def elseHead (c : AExp α) : Scope × Blocks α :=
  ({ (c.calc parent s g.three).1 with block := g.size + 2 },
    (c.calc parent s g.three).2.setTerm (c.calc parent s g.three).1.block
      (.condBr c.val g.size (g.size + 1)))

/-- Its first branch. -/
def thenBranch (c : AExp α) (statements : List (Cmd α)) : Scope × Blocks α :=
  calcCmds fn (some (g.size + 2)) statements ((elseHead parent s g c).1.addChildScope g.size)
    (elseHead parent s g c).2

def elseBranch (c : AExp α) (statements elSt : List (Cmd α)) : Scope × Blocks α :=
  calcCmds fn (some (g.size + 2)) elSt ((elseHead parent s g c).1.addChildScope (g.size + 1))
    (thenBranch fn parent s g c statements).2

theorem calc_ifElse (c : AExp α) (statements elSt : List (Cmd α)) :
    (Cmd.ifElse c statements elSt).calc fn parent s g =
      ((elseHead parent s g c).1,
        (((elseBranch fn parent s g c statements elSt).2.closeTo g.size (g.size + 2)).closeTo
          (g.size + 1) (g.size + 2)).toParent (g.size + 2) parent) :=
  rfl

/-- The scope of a loop's body. -/
def forChild : Scope := ⟨g.size + 1, some g.size, some (g.size + 2)⟩

/-- In front of the loop's body. -/
def forHead (defineAssign bool : Option (AExp α)) : Scope × Blocks α :=
  let r := calcOpt parent defineAssign ⟨s.block, some g.size, some (g.size + 2)⟩ g.three
  let r := calcOpt parent bool r.1 r.2
  ({ r.1 with block := g.size + 2 }, r.2.branch r.1.block bool (g.size + 1) (g.size + 2))

def forBody (defineAssign bool : Option (AExp α)) (statements : List (Cmd α)) : Scope × Blocks α :=
  calcCmds fn (some (g.size + 2)) statements (forChild g) (forHead parent s g defineAssign bool).2

/-- The step and the condition, once more. -/
def forCond (defineAssign bool assign : Option (AExp α)) (statements : List (Cmd α)) :
    Scope × Blocks α :=
  let r := calcOpt (some (g.size + 2)) assign ⟨g.size, some g.size, some (g.size + 2)⟩
    (forBody fn parent s g defineAssign bool statements).2
  calcOpt (some (g.size + 2)) bool r.1 r.2

theorem calc_forN (defineAssign bool assign : Option (AExp α)) (statements : List (Cmd α)) :
    (Cmd.forN defineAssign bool assign statements).calc fn parent s g =
      ((forHead parent s g defineAssign bool).1,
        ((forCond fn parent s g defineAssign bool assign statements).2.branch g.size bool
          (g.size + 1) (g.size + 2)).setTerm
            (forBody fn parent s g defineAssign bool statements).1.block (.br g.size)) :=
  rfl

theorem calc_retN (e : Option (AExp α)) : (Cmd.retN e).calc fn parent s g =
    ret fn e (calcOpt parent e s g).1 (calcOpt parent e s g).2 :=
  rfl

end Constructs

/-! ## What a statement does to the blocks -/

section Steps

variable {fn : FnEnv α} {parent : Option Nat} {s : Scope} {g : Blocks α}

theorem elseHead_step (c : AExp α) (h : s.block < g.size) : Step s g (elseHead parent s g c) := by
  have hthree := Grown.three g s.block
  have hcond : Step s g.three (c.calc parent s g.three) :=
    c.calc_step (Nat.lt_of_lt_of_le h hthree.size)
  have hsize := hcond.grown.size
  have hblock := hcond.block
  rw [Blocks.three_size] at hsize hblock
  refine ⟨(hthree.trans (.inl rfl) hcond.grown).setTerm (by omega) _, ?_, ?_⟩
  · exact .inr (Nat.le_add_right _ _)
  · show g.size + 2 < (c.calc parent s g.three).2.size
    omega

theorem forHead_step (defineAssign bool : Option (AExp α)) (h : s.block < g.size) :
    Step s g (forHead parent s g defineAssign bool) := by
  have hthree := Grown.three g s.block
  let s' : Scope := ⟨s.block, some g.size, some (g.size + 2)⟩
  have hdef : Step s' g.three (calcOpt parent defineAssign s' g.three) :=
    calcOpt_step defineAssign (Nat.lt_of_lt_of_le h hthree.size)
  have hbool : Step _ _ (calcOpt parent bool (calcOpt parent defineAssign s' g.three).1
    (calcOpt parent defineAssign s' g.three).2) := calcOpt_step bool hdef.lt
  have hboth := hdef.trans hbool
  have hsize := hboth.grown.size
  have hblock : _ = s.block ∨ _ := hboth.block
  rw [Blocks.three_size] at hsize hblock
  have hgrown := (hthree.trans (.inl rfl) hboth.grown).branch
    (hblock.imp_right (Nat.le_trans (Nat.le_add_right g.size 3))) bool (g.size + 1) (g.size + 2)
  refine ⟨hgrown, .inr (Nat.le_add_right _ _), ?_⟩
  show g.size + 2 < (Blocks.branch _ _ bool _ _).size
  rw [Blocks.branch_size]
  exact hsize

/-- The condition's block is in the scope of the step. -/
theorem forCond_step (fn : FnEnv α) (parent : Option Nat) (s : Scope) (g : Blocks α)
    (defineAssign bool assign : Option (AExp α)) (statements : List (Cmd α))
    (h : g.size < (forBody fn parent s g defineAssign bool statements).2.size) :
    Step ⟨g.size, some g.size, some (g.size + 2)⟩
      (forBody fn parent s g defineAssign bool statements).2
      (forCond fn parent s g defineAssign bool assign statements) := by
  have hassign : Step ⟨g.size, some g.size, some (g.size + 2)⟩ _
    (calcOpt (some (g.size + 2)) assign ⟨g.size, some g.size, some (g.size + 2)⟩
      (forBody fn parent s g defineAssign bool statements).2) := calcOpt_step assign h
  exact hassign.trans (calcOpt_step bool hassign.lt)

theorem ret_step (e : Option (AExp α)) (h : s.block < g.size) : Step s g (ret fn e s g) := by
  have hrefl := Grown.refl g.size s.block (Nat.le_refl g.size)
  unfold ret
  split
  · exact ⟨hrefl.setTerm (.inl rfl) _, .inl rfl, h⟩
  · exact ⟨hrefl.setTerm (.inl rfl) _, .inl rfl, h⟩
  · refine ⟨(hrefl.newBlock.setTerm (.inl rfl) _).setTerm (.inr (Nat.le_refl _)) _, ?_, ?_⟩
    · exact .inr (Nat.le_refl _)
    · exact Nat.lt_succ_self _

mutual

theorem Cmd.calc_step (fn : FnEnv α) (parent : Option Nat) : ∀ (st : Cmd α) (s : Scope)
    (g : Blocks α), s.block < g.size → Step s g (st.calc fn parent s g)
  | .exp e, _, _, h => e.calc_step h
  | .yieldN e, _, _, h => (calcOpt_step e h).suspend _
  | .breakN, s, g, h => by
    unfold Cmd.calc
    split
    · exact .refl h
    · exact ⟨(Grown.refl _ _ (Nat.le_refl _)).setTerm (.inl rfl) _, .inl rfl, h⟩
  | .continueN, s, g, h => by
    unfold Cmd.calc
    split
    · exact .refl h
    · exact ⟨(Grown.refl _ _ (Nat.le_refl _)).setTerm (.inl rfl) _, .inl rfl, h⟩
  | .retN e, _, _, h => (calcOpt_step e h).trans (ret_step e (calcOpt_step e h).lt)
  | .ifN c statements, s, g, h => by
    have hbody : Step (s.addChildScope g.size) g.newBlock (ifBody fn s g statements) :=
      calcCmds_step fn (some s.block) statements _ _ (Nat.lt_succ_self _)
    have hsize : g.size + 1 ≤ (ifBody fn s g statements).2.size := hbody.grown.size
    have hgrown : Grown g.size s.block g (ifBody fn s g statements).2.newBlock :=
      ((Grown.refl _ _ (Nat.le_refl _)).newBlock.trans (.inr (Nat.le_refl _)) hbody.grown).newBlock
    -- the condition is compiled behind the body
    have hcond : Step s _ (ifCond fn parent s g c statements) :=
      c.calc_step (Nat.lt_of_lt_of_le h hgrown.size)
    have hblock := hcond.block
    have hmore := hcond.grown.size
    rw [Blocks.newBlock_size] at hblock hmore
    rw [calc_ifN]
    refine ⟨?_, .inr (Nat.le_of_succ_le hsize), ?_⟩
    · exact (((hgrown.trans (.inl rfl) hcond.grown).setTerm (by omega) _).closeTo
        (.inr (Nat.le_refl _)) _).toParent (.inr (by omega)) parent
    · simp only [Blocks.toParent_size, Blocks.closeTo_size, Blocks.setTerm_size]
      omega
  | .ifElse c statements elSt, s, g, h => by
    have hhead : Step s g (elseHead parent s g c) := elseHead_step c h
    have hlt : g.size + 2 < (elseHead parent s g c).2.size := hhead.lt
    have hthen : Step _ _ (thenBranch fn parent s g c statements) :=
      calcCmds_step fn _ statements _ _ (Nat.lt_trans (by show g.size < g.size + 2; omega) hlt)
    have hsize := hthen.grown.size
    have helse : Step _ _ (elseBranch fn parent s g c statements elSt) :=
      calcCmds_step fn _ elSt _ _ (by show g.size + 1 < _; omega)
    have hmore := helse.grown.size
    rw [calc_ifElse]
    refine ⟨?_, .inr (Nat.le_add_right _ _), ?_⟩
    · exact (((hhead.grown.trans (.inr (Nat.le_refl _)) hthen.grown).trans
        (.inr (Nat.le_add_right _ _)) helse.grown).closeTo (.inr (Nat.le_refl _)) _).closeTo
          (.inr (Nat.le_add_right _ _)) _ |>.toParent (.inr (Nat.le_add_right _ _)) parent
    · simp only [Blocks.toParent_size, Blocks.closeTo_size]
      show g.size + 2 < _
      omega
  | .forN defineAssign bool assign statements, s, g, h => by
    have hhead : Step s g (forHead parent s g defineAssign bool) := forHead_step defineAssign bool h
    have hbig : g.size + 2 < (forHead parent s g defineAssign bool).2.size := hhead.lt
    have hbody : Step (forChild g) _ (forBody fn parent s g defineAssign bool statements) :=
      calcCmds_step fn _ statements _ _ (by show g.size + 1 < _; omega)
    have hsize := hbody.grown.size
    have hcond := forCond_step fn parent s g defineAssign bool assign statements (by omega)
    have hmore := hcond.grown.size
    have hblock : _ = g.size + 1 ∨ _ := hbody.block
    rw [calc_forN]
    refine ⟨?_, .inr (Nat.le_add_right _ _), ?_⟩
    · exact (((hhead.grown.trans (.inr (Nat.le_add_right _ _)) hbody.grown).trans
        (.inr (Nat.le_refl _)) hcond.grown).branch (.inr (Nat.le_refl _)) _ _ _).setTerm
          (.inr (by omega)) _
    · simp only [Blocks.branch_size, Blocks.setTerm_size]
      show g.size + 2 < _
      omega

theorem calcCmds_step (fn : FnEnv α) (parent : Option Nat) : ∀ (sts : List (Cmd α)) (s : Scope)
    (g : Blocks α), s.block < g.size → Step s g (calcCmds fn parent sts s g)
  | [], _, _, h => .refl h
  | st :: sts, s, g, h =>
    have hone := Cmd.calc_step fn parent st s g h
    hone.trans (calcCmds_step fn parent sts _ _ hone.lt)

end

end Steps

/-! ## Where the emitted terminators are -/

section Emitted

variable {fn : FnEnv α} {parent : Option Nat} {s : Scope} {g : Blocks α}

/-- Right behind a jump its terminators are there, in the block of the scope or in new ones. -/
theorem Cmd.own_holds (st : Cmd α) (h : s.block < g.size) : ∀ e ∈ st.own fn parent s g,
    (e.1 = s.block ∨ g.size ≤ e.1) ∧ e.1 < (st.calc fn parent s g).2.size ∧
      (st.calc fn parent s g).2.term e.1 = some e.2 := by
  intro e he
  cases st with
  | breakN =>
    cases hb : s.breakBlock with
    | none => simp [own, hb] at he
    | some b =>
      obtain rfl : e = (s.block, .br b) := by simpa [own, hb] using he
      simp only [Cmd.calc, hb]
      exact ⟨.inl trivial, h, Blocks.setTerm_self g _ _⟩
  | continueN =>
    cases hb : s.continueBlock with
    | none => simp [own, hb] at he
    | some b =>
      obtain rfl : e = (s.block, .br b) := by simpa [own, hb] using he
      simp only [Cmd.calc, hb]
      exact ⟨.inl trivial, h, Blocks.setTerm_self g _ _⟩
  | retN x =>
    have hexp : Step s g (calcOpt parent x s g) := calcOpt_step x h
    have hblock := hexp.block
    have hlt := hexp.lt
    have hsize := hexp.grown.size
    rw [calc_retN]
    unfold ret
    cases hkind : fn.kind with
    | func | generator =>
      obtain rfl : e = _ := by simpa [own, hkind] using he
      exact ⟨hblock, hlt, Blocks.setTerm_self _ _ _⟩
    | async =>
      -- two returns: in the block of the scope, and in the new one that it goes on in
      have hne : (calcOpt parent x s g).1.block ≠ (calcOpt parent x s g).2.size := by omega
      rcases (by simpa [own, hkind] using he : e = _ ∨ e = _) with heq | heq
      · rw [heq]
        refine ⟨hblock, Nat.lt_succ_of_lt hlt, ?_⟩
        show (Blocks.setTerm _ _ _).term _ = _
        rw [Blocks.setTerm_ne _ _ hne, Blocks.setTerm_self]
      · rw [heq]
        exact ⟨.inr hsize, Nat.lt_succ_self _, Blocks.setTerm_self _ _ _⟩
  | exp _ | yieldN _ | ifN _ _ | ifElse _ _ _ | forN _ _ _ _ => cases he

theorem ownCmds_holds (sts : List (Cmd α)) (h : s.block < g.size) :
    ∀ e ∈ ownCmds fn parent sts s g,
      (e.1 = s.block ∨ g.size ≤ e.1) ∧ e.1 < (calcCmds fn parent sts s g).2.size ∧
        (calcCmds fn parent sts s g).2.term e.1 = some e.2 := by
  induction sts generalizing s g with
  | nil =>
    intro e he
    cases he
  | cons st sts ih =>
    cases sts with
    | nil => exact st.own_holds h
    | cons st' sts =>
      intro e he
      have hone := Cmd.calc_step fn parent st s g h
      obtain ⟨hwhere, hlt, hterm⟩ := ih hone.lt e he
      have hblock := hone.block
      have hsize := hone.grown.size
      exact ⟨by omega, hlt, hterm⟩

/-- What a block emits lies in its first block or in new ones. -/
def InRange (fn : FnEnv α) (parent : Option Nat) (sts : List (Cmd α)) (s : Scope) (g : Blocks α) : Prop :=
  ∀ e ∈ emitsCmds fn parent sts s g ++ ownCmds fn parent sts s g,
    (e.1 = s.block ∨ g.size ≤ e.1) ∧ e.1 < (calcCmds fn parent sts s g).2.size

/-- Those of the block itself are in one it has been in. -/
theorem inRange_of {sts : List (Cmd α)} (h : s.block < g.size) (hin : ∀ e ∈ emitsCmds fn parent sts s g,
    g.size ≤ e.1 ∧ e.1 < (calcCmds fn parent sts s g).2.size ∧
      e.1 ≠ (calcCmds fn parent sts s g).1.block) : InRange fn parent sts s g := by
  intro e he
  rcases List.mem_append.mp he with he | he
  · exact ⟨.inr (hin e he).1, (hin e he).2.1⟩
  · have hown := ownCmds_holds sts h e he
    exact ⟨hown.1, hown.2.1⟩

theorem ifN_range (c : AExp α) {statements : List (Cmd α)} (h : s.block < g.size)
    (hin : InRange fn (some s.block) statements (s.addChildScope g.size) g.newBlock) :
    ∀ e ∈ (Cmd.ifN c statements).emits fn parent s g, g.size ≤ e.1 ∧
      e.1 < ((Cmd.ifN c statements).calc fn parent s g).2.size ∧
      e.1 ≠ ((Cmd.ifN c statements).calc fn parent s g).1.block := by
  intro e he
  have hlt : e.1 < (ifBody fn s g statements).2.size := (hin e he).2
  have hblock : e.1 = g.size ∨ g.size + 1 ≤ e.1 := (hin e he).1
  have hbody := calcCmds_step fn (some s.block) statements (s.addChildScope g.size) g.newBlock
    (Nat.lt_succ_self _)
  have hcond : (ifBody fn s g statements).2.size + 1 ≤ (ifCond fn parent s g c statements).2.size := by
    have hstep : Step s _ (ifCond fn parent s g c statements) := c.calc_step (by
      have := hbody.grown.size
      rw [Blocks.newBlock_size] at this
      show s.block < (ifBody fn s g statements).2.size + 1
      show s.block < (calcCmds _ _ _ _ _).2.size + 1
      omega)
    have hmore := hstep.grown.size
    rwa [Blocks.newBlock_size] at hmore
  rw [calc_ifN]
  simp only [Blocks.toParent_size, Blocks.closeTo_size, Blocks.setTerm_size]
  exact ⟨by omega, by omega, by omega⟩

theorem ifElse_range (c : AExp α) {statements elSt : List (Cmd α)} (h : s.block < g.size)
    (hthen : InRange fn (some (g.size + 2)) statements
      ((elseHead parent s g c).1.addChildScope g.size) (elseHead parent s g c).2)
    (hels : InRange fn (some (g.size + 2)) elSt
      ((elseHead parent s g c).1.addChildScope (g.size + 1))
      (thenBranch fn parent s g c statements).2) :
    ∀ e ∈ (Cmd.ifElse c statements elSt).emits fn parent s g, g.size ≤ e.1 ∧
      e.1 < ((Cmd.ifElse c statements elSt).calc fn parent s g).2.size ∧
      e.1 ≠ ((Cmd.ifElse c statements elSt).calc fn parent s g).1.block := by
  intro e he
  have hhead : Step s g (elseHead parent s g c) := elseHead_step c h
  have hlt : g.size + 2 < (elseHead parent s g c).2.size := hhead.lt
  have hfirst : Step _ _ (thenBranch fn parent s g c statements) :=
    calcCmds_step fn _ statements _ _ (Nat.lt_trans (by show g.size < g.size + 2; omega) hlt)
  have hsize := hfirst.grown.size
  have hsecond : Step _ _ (elseBranch fn parent s g c statements elSt) :=
    calcCmds_step fn _ elSt _ _ (by show g.size + 1 < _; omega)
  have hmore := hsecond.grown.size
  have hrange : (e.1 = g.size ∨ e.1 = g.size + 1 ∨ (elseHead parent s g c).2.size ≤ e.1) ∧
      e.1 < (elseBranch fn parent s g c statements elSt).2.size := by
    rcases List.mem_append.mp he with he | he
    · have hblock : e.1 = g.size ∨ (elseHead parent s g c).2.size ≤ e.1 := (hthen e he).1
      have hin : e.1 < (thenBranch fn parent s g c statements).2.size := (hthen e he).2
      omega
    · have hblock : e.1 = g.size + 1 ∨ (thenBranch fn parent s g c statements).2.size ≤ e.1 :=
        (hels e he).1
      have hin : e.1 < (elseBranch fn parent s g c statements elSt).2.size := (hels e he).2
      omega
  rw [calc_ifElse]
  simp only [Blocks.toParent_size, Blocks.closeTo_size]
  show _ ∧ _ ∧ e.1 ≠ g.size + 2
  omega

theorem forN_range (defineAssign bool assign : Option (AExp α)) {statements : List (Cmd α)}
    (h : s.block < g.size)
    (hin : InRange fn (some (g.size + 2)) statements (forChild g) (forHead parent s g defineAssign bool).2) :
    ∀ e ∈ (Cmd.forN defineAssign bool assign statements).emits fn parent s g, g.size ≤ e.1 ∧
      e.1 < ((Cmd.forN defineAssign bool assign statements).calc fn parent s g).2.size ∧
      e.1 ≠ ((Cmd.forN defineAssign bool assign statements).calc fn parent s g).1.block := by
  intro e he
  have hhead : Step s g (forHead parent s g defineAssign bool) := forHead_step defineAssign bool h
  have hbig : g.size + 2 < (forHead parent s g defineAssign bool).2.size := hhead.lt
  have hblock : e.1 = g.size + 1 ∨ (forHead parent s g defineAssign bool).2.size ≤ e.1 := (hin e he).1
  have hlt : e.1 < (forBody fn parent s g defineAssign bool statements).2.size := (hin e he).2
  have hcond := forCond_step fn parent s g defineAssign bool assign statements (by omega)
  have hmore := hcond.grown.size
  rw [calc_forN]
  simp only [Blocks.branch_size, Blocks.setTerm_size]
  show _ ∧ _ ∧ e.1 ≠ g.size + 2
  omega

mutual

/-- The blocks inside a statement are new, and the scope goes on in another one behind it. -/
theorem Cmd.emits_range (fn : FnEnv α) (parent : Option Nat) : ∀ (st : Cmd α) (s : Scope)
    (g : Blocks α), s.block < g.size → ∀ e ∈ st.emits fn parent s g,
      g.size ≤ e.1 ∧ e.1 < (st.calc fn parent s g).2.size ∧ e.1 ≠ (st.calc fn parent s g).1.block
  | .exp _, _, _, _, _, he | .yieldN _, _, _, _, _, he | .breakN, _, _, _, _, he
  | .continueN, _, _, _, _, he | .retN _, _, _, _, _, he => absurd he List.not_mem_nil
  | .ifN c statements, s, g, h, e, he =>
    ifN_range c h (inRange_of (Nat.lt_succ_self _)
      (emitsCmds_range fn _ statements (s.addChildScope g.size) g.newBlock (Nat.lt_succ_self _))) e he
  | .ifElse c statements elSt, s, g, h, e, he => by
    have hlt : g.size + 2 < (elseHead parent s g c).2.size := (elseHead_step c h).lt
    have hthen : g.size < (elseHead parent s g c).2.size := Nat.lt_of_le_of_lt (Nat.le_add_right _ _) hlt
    have hsize : (elseHead parent s g c).2.size ≤ (thenBranch fn parent s g c statements).2.size :=
      (calcCmds_step fn (some (g.size + 2)) statements
        ((elseHead parent s g c).1.addChildScope g.size) _ hthen).grown.size
    have hels : g.size + 1 < (thenBranch fn parent s g c statements).2.size := by omega
    exact ifElse_range c h (inRange_of hthen (emitsCmds_range fn _ statements _ _ hthen))
      (inRange_of hels (emitsCmds_range fn _ elSt _ _ hels)) e he
  | .forN defineAssign bool assign statements, s, g, h, e, he => by
    have hlt : g.size + 2 < (forHead parent s g defineAssign bool).2.size :=
      (forHead_step defineAssign bool h).lt
    have hbody : g.size + 1 < (forHead parent s g defineAssign bool).2.size := Nat.lt_of_succ_lt hlt
    exact forN_range defineAssign bool assign h
      (inRange_of hbody (emitsCmds_range fn _ statements (forChild g) _ hbody)) e he

theorem emitsCmds_range (fn : FnEnv α) (parent : Option Nat) : ∀ (sts : List (Cmd α)) (s : Scope)
    (g : Blocks α), s.block < g.size → ∀ e ∈ emitsCmds fn parent sts s g,
      g.size ≤ e.1 ∧ e.1 < (calcCmds fn parent sts s g).2.size ∧
        e.1 ≠ (calcCmds fn parent sts s g).1.block
  | [], _, _, _, _, he => absurd he List.not_mem_nil
  | st :: sts, s, g, h, e, he => by
    have hone := Cmd.calc_step fn parent st s g h
    have hrest := calcCmds_step fn parent sts _ _ hone.lt
    have hsize := hone.grown.size
    have hmore : _ ≤ (calcCmds fn parent (st :: sts) s g).2.size := hrest.grown.size
    have hblock : (calcCmds fn parent (st :: sts) s g).1.block = (st.calc fn parent s g).1.block ∨
      (st.calc fn parent s g).2.size ≤ (calcCmds fn parent (st :: sts) s g).1.block := hrest.block
    rw [emitsCmds, List.mem_append] at he
    rcases he with he | he
    · have hin := Cmd.emits_range fn parent st s g h e he
      refine ⟨hin.1, Nat.lt_of_lt_of_le hin.2.1 hmore, ?_⟩
      rcases hblock with hblock | hblock
      · rw [hblock]
        exact hin.2.2
      · exact Nat.ne_of_lt (Nat.lt_of_lt_of_le hin.2.1 hblock)
    · have hin := emitsCmds_range fn parent sts (st.calc fn parent s g).1 (st.calc fn parent s g).2
        hone.lt e he
      exact ⟨Nat.le_trans hsize hin.1, hin.2⟩

end

theorem blockEmits_range (fn : FnEnv α) (parent : Option Nat) (sts : List (Cmd α)) (s : Scope)
    (g : Blocks α) (h : s.block < g.size) : InRange fn parent sts s g :=
  inRange_of h (emitsCmds_range fn parent sts s g h)

/-- What a block emits is there behind it, apart from what is emitted inside its statements. -/
theorem blockEmits_iff (sts : List (Cmd α)) (h : s.block < g.size) :
    (∀ e ∈ emitsCmds fn parent sts s g ++ ownCmds fn parent sts s g,
      (calcCmds fn parent sts s g).2.term e.1 = some e.2) ↔
    ∀ e ∈ emitsCmds fn parent sts s g, (calcCmds fn parent sts s g).2.term e.1 = some e.2 := by
  rw [List.forall_mem_append]
  exact and_iff_left fun e he => (ownCmds_holds sts h e he).2.2

/-- In the block a list of statements starts in, it is there in any case. -/
theorem term_ne_none (sts : List (Cmd α)) (h : s.block < g.size) {e : Nat × Exit α}
    (he : e ∈ emitsCmds fn parent sts s g ++ ownCmds fn parent sts s g) :
    e.1 ≠ s.block ∨ (calcCmds fn parent sts s g).2.term e.1 ≠ none := by
  rcases List.mem_append.mp he with he | he
  · have hin := emitsCmds_range fn parent sts s g h e he
    exact .inl (by omega)
  · rw [(ownCmds_holds sts h e he).2.2]
    exact .inr (Option.some_ne_none _)

end Emitted

/-! ## What the constructs do to them -/

section Closing

variable {g : Blocks α} {b c : Nat}

theorem Blocks.closeTo_term (h : c ≠ b ∨ g.term c ≠ none) (e : Nat) :
    (g.closeTo b e).term c = g.term c := by
  unfold closeTo
  split
  · next hnone =>
    refine setTerm_ne g _ ?_
    intro hcb
    rw [hcb] at h
    exact h.elim (fun hne => hne rfl) fun hsome => hsome (Option.isNone_iff_eq_none.mp hnone)
  · rfl

theorem Blocks.toParent_term (h : c ≠ b) (parent : Option Nat) :
    (g.toParent b parent).term c = g.term c := by
  cases parent with
  | none => rfl
  | some p => exact setTerm_ne g _ h

theorem Blocks.branch_term (h : c ≠ b) (e : Option (AExp α)) (yes no : Nat) :
    (g.branch b e yes no).term c = g.term c := by
  cases e with
  | none => exact setTerm_ne g _ h
  | some e => exact setTerm_ne g _ h

end Closing

section Constructs

variable {fn : FnEnv α} {parent : Option Nat} {s : Scope} {g : Blocks α} {e : Nat × Exit α}

/-- An `if` leaves alone what its body emits. -/
theorem ifN_term {c : AExp α} {statements : List (Cmd α)} (h : s.block < g.size)
    (he : e ∈ (Cmd.ifN c statements).emits fn parent s g) :
    ((Cmd.ifN c statements).calc fn parent s g).2.term e.1 =
      (ifBody fn s g statements).2.term e.1 := by
  have hstart : (s.addChildScope g.size).block < g.newBlock.size := Nat.lt_succ_self _
  have hin := blockEmits_range fn (some s.block) statements _ g.newBlock hstart e he
  have hlt : e.1 < (ifBody fn s g statements).2.size := hin.2
  have hblock : e.1 = g.size ∨ g.size + 1 ≤ e.1 := hin.1
  have hsome : e.1 ≠ g.size ∨ (ifBody fn s g statements).2.term e.1 ≠ none :=
    term_ne_none statements hstart he
  have hbody := (calcCmds_step fn (some s.block) statements _ g.newBlock hstart).grown.size
  have hle : g.size + 1 ≤ (ifBody fn s g statements).2.size := hbody
  have hcond : Step s _ (ifCond fn parent s g c statements) :=
    c.calc_step (Nat.lt_of_lt_of_le h (Nat.le_trans (Nat.le_succ_of_le (Nat.le_succ _))
      (Nat.succ_le_succ hle)))
  -- the condition is compiled in the block in front of the `if`
  have hwithin : (ifCond fn parent s g c statements).1.block = s.block ∨
      (ifBody fn s g statements).2.size ≤ (ifCond fn parent s g c statements).1.block :=
    hcond.block.imp_right (Nat.le_trans (Nat.le_succ _))
  have hgrown := ((Grown.refl (ifBody fn s g statements).2.size s.block
    (Nat.le_refl _)).newBlock.trans (.inl rfl) hcond.grown).setTerm hwithin
      (.condBr c.val g.size (ifBody fn s g statements).2.size)
  have hterm := hgrown.term e.1 hlt (by omega)
  rw [calc_ifN]
  rw [Blocks.toParent_term (by omega), Blocks.closeTo_term (by rw [hterm]; exact hsome), hterm]

/-- The blocks of an `if`/`else` are closed towards its end block, where they are not. -/
def closeElse (parent : Option Nat) (n : Nat) (g : Blocks α) : Blocks α :=
  ((g.closeTo n (n + 2)).closeTo (n + 1) (n + 2)).toParent (n + 2) parent

theorem closeElse_term {n c : Nat} (h₀ : c ≠ n ∨ g.term c ≠ none) (h₁ : c ≠ n + 1 ∨ g.term c ≠ none)
    (h₂ : c ≠ n + 2) : (closeElse parent n g).term c = g.term c := by
  have hfirst := Blocks.closeTo_term h₀ (n + 2)
  unfold closeElse
  rw [Blocks.toParent_term h₂, Blocks.closeTo_term (by rw [hfirst]; exact h₁), hfirst]

/-- An `if`/`else` leaves alone what its first branch emits. -/
theorem then_term {c : AExp α} {statements elSt : List (Cmd α)} (h : s.block < g.size)
    (he : e ∈ emitsCmds fn (some (g.size + 2)) statements
        ((elseHead parent s g c).1.addChildScope g.size) (elseHead parent s g c).2 ++
      ownCmds fn (some (g.size + 2)) statements
        ((elseHead parent s g c).1.addChildScope g.size) (elseHead parent s g c).2) :
    ((Cmd.ifElse c statements elSt).calc fn parent s g).2.term e.1 =
      (thenBranch fn parent s g c statements).2.term e.1 := by
  have hlt : g.size + 2 < (elseHead parent s g c).2.size := (elseHead_step c h).lt
  have hstart : ((elseHead parent s g c).1.addChildScope g.size).block <
      (elseHead parent s g c).2.size := by
    show g.size < _
    omega
  have hin := blockEmits_range fn _ statements _ _ hstart e he
  have hblock : e.1 = g.size ∨ (elseHead parent s g c).2.size ≤ e.1 := hin.1
  have hthen : e.1 < (thenBranch fn parent s g c statements).2.size := hin.2
  have hsome : e.1 ≠ g.size ∨ (thenBranch fn parent s g c statements).2.term e.1 ≠ none :=
    term_ne_none statements hstart he
  have hsize : _ ≤ (thenBranch fn parent s g c statements).2.size :=
    (calcCmds_step fn _ statements _ _ hstart).grown.size
  have helse : Step ((elseHead parent s g c).1.addChildScope (g.size + 1)) _
      (elseBranch fn parent s g c statements elSt) :=
    calcCmds_step fn _ elSt _ _ (by show g.size + 1 < _; omega)
  have hterm := helse.grown.term e.1 hthen (by show e.1 ≠ g.size + 1; omega)
  rw [calc_ifElse]
  show (closeElse parent g.size (elseBranch fn parent s g c statements elSt).2).term e.1 = _
  rw [closeElse_term (by rw [hterm]; exact hsome) (.inl (by omega)) (by omega), hterm]

/-- And what its second branch emits. -/
theorem else_term {c : AExp α} {statements elSt : List (Cmd α)} (h : s.block < g.size)
    (he : e ∈ emitsCmds fn (some (g.size + 2)) elSt
        ((elseHead parent s g c).1.addChildScope (g.size + 1))
        (thenBranch fn parent s g c statements).2 ++
      ownCmds fn (some (g.size + 2)) elSt ((elseHead parent s g c).1.addChildScope (g.size + 1))
        (thenBranch fn parent s g c statements).2) :
    ((Cmd.ifElse c statements elSt).calc fn parent s g).2.term e.1 =
      (elseBranch fn parent s g c statements elSt).2.term e.1 := by
  have hlt : g.size + 2 < (elseHead parent s g c).2.size := (elseHead_step c h).lt
  have hthen : Step ((elseHead parent s g c).1.addChildScope g.size) _
      (thenBranch fn parent s g c statements) :=
    calcCmds_step fn _ statements _ _ (by show g.size < _; omega)
  have hsize := hthen.grown.size
  have hstart : ((elseHead parent s g c).1.addChildScope (g.size + 1)).block <
      (thenBranch fn parent s g c statements).2.size := by
    show g.size + 1 < _
    omega
  have hin := blockEmits_range fn _ elSt _ _ hstart e he
  have hblock : e.1 = g.size + 1 ∨ (thenBranch fn parent s g c statements).2.size ≤ e.1 := hin.1
  have hsome : e.1 ≠ g.size + 1 ∨ (elseBranch fn parent s g c statements elSt).2.term e.1 ≠ none :=
    term_ne_none elSt hstart he
  rw [calc_ifElse]
  show (closeElse parent g.size (elseBranch fn parent s g c statements elSt).2).term e.1 = _
  rw [closeElse_term (.inl (by omega)) hsome (by omega)]

/-- A loop gives the last block of its body the branch to its condition, and leaves alone what its
body emits otherwise. -/
theorem forN_term {defineAssign bool assign : Option (AExp α)} {statements : List (Cmd α)}
    (h : s.block < g.size)
    (he : e ∈ (Cmd.forN defineAssign bool assign statements).emits fn parent s g) :
    ((Cmd.forN defineAssign bool assign statements).calc fn parent s g).2.term e.1 =
      if e.1 = (forBody fn parent s g defineAssign bool statements).1.block then some (.br g.size)
      else (forBody fn parent s g defineAssign bool statements).2.term e.1 := by
  have hbig : g.size + 2 < (forHead parent s g defineAssign bool).2.size :=
    (forHead_step defineAssign bool h).lt
  have hstart : (forChild g).block < (forHead parent s g defineAssign bool).2.size := by
    show g.size + 1 < _
    omega
  have hin := blockEmits_range fn _ statements (forChild g) _ hstart e he
  have hblock : e.1 = g.size + 1 ∨ (forHead parent s g defineAssign bool).2.size ≤ e.1 := hin.1
  have hlt : e.1 < (forBody fn parent s g defineAssign bool statements).2.size := hin.2
  have hcond := forCond_step fn parent s g defineAssign bool assign statements (by omega)
  have hne : e.1 ≠ g.size := by omega
  rw [calc_forN]
  split
  · next heq =>
    rw [heq]
    exact Blocks.setTerm_self _ _ _
  · next heq =>
    show (Blocks.setTerm _ _ _).term e.1 = _
    rw [Blocks.setTerm_ne _ _ heq, Blocks.branch_term hne, hcond.grown.term e.1 hlt hne]

end Constructs

/-! ## The last statement of a block that is closed once more -/

section Last

variable {fn : FnEnv α} {parent : Option Nat} {s : Scope} {g : Blocks α}

/-- What a statement leaves in the fields of the scope for the jumps behind it. -/
theorem Cmd.calc_loop (fn : FnEnv α) (parent : Option Nat) (st : Cmd α) (s : Scope) (g : Blocks α) :
    (st.calc fn parent s g).1.continueBlock = (if st.isFor then some g.size else s.continueBlock) ∧
      (st.calc fn parent s g).1.breakBlock =
        if st.isFor then some (g.size + 2) else s.breakBlock := by
  cases st with
  | exp e => exact awaitAll_loop e.awaits s g
  | yieldN e => exact calcOpt_loop parent e s g
  | ifN c statements => exact awaitAll_loop c.awaits s _
  | ifElse c statements elSt => exact awaitAll_loop c.awaits s _
  | forN defineAssign bool assign statements =>
    have hdef := calcOpt_loop parent defineAssign ⟨s.block, some g.size, some (g.size + 2)⟩ g.three
    have hbool := calcOpt_loop parent bool
      (calcOpt parent defineAssign ⟨s.block, some g.size, some (g.size + 2)⟩ g.three).1
      (calcOpt parent defineAssign ⟨s.block, some g.size, some (g.size + 2)⟩ g.three).2
    exact ⟨hbool.1.trans hdef.1, hbool.2.trans hdef.2⟩
  | breakN =>
    unfold Cmd.calc
    split <;> exact ⟨rfl, rfl⟩
  | continueN =>
    unfold Cmd.calc
    split <;> exact ⟨rfl, rfl⟩
  | retN e =>
    rw [calc_retN]
    unfold ret
    split <;> exact calcOpt_loop parent e s g

/-- What is emitted in the block that the scope is in behind the block. -/
def LastIs (fn : FnEnv α) (parent : Option Nat) (sts : List (Cmd α)) (s : Scope) (g : Blocks α)
    (t : Exit α) : Prop :=
  ∀ e ∈ ownCmds fn parent sts s g, e.1 = (calcCmds fn parent sts s g).1.block → e.2 = t

theorem lastIs_nil {t : Exit α} : LastIs fn parent [] s g t := by
  intro e he
  cases he

theorem lastIs_break {l : Nat} (h : s.breakBlock = some l) (t : Exit α) :
    LastIs fn parent [.breakN] s g t ↔ .br l = t := by
  simp [LastIs, ownCmds, Cmd.own, calcCmds, Cmd.calc, h]

theorem lastIs_continue {k : Nat} (h : s.continueBlock = some k) (t : Exit α) :
    LastIs fn parent [.continueN] s g t ↔ .br k = t := by
  simp [LastIs, ownCmds, Cmd.own, calcCmds, Cmd.calc, h]

theorem lastIs_ret (h : s.block < g.size) (x : Option (AExp α)) (t : Exit α) :
    LastIs fn parent [.retN x] s g t ↔
      .ret (if fn.kind = .async then some fn.no else x.map AExp.val) = t := by
  have hlt : (calcOpt parent x s g).1.block < (calcOpt parent x s g).2.size :=
    (calcOpt_step x h).lt
  cases hkind : fn.kind with
  | func | generator => simp [LastIs, ownCmds, Cmd.own, calcCmds, Cmd.calc, ret, hkind]
  | async =>
    have hne : (calcOpt parent x s g).1.block ≠ (calcOpt parent x s g).2.size := by omega
    simp [LastIs, ownCmds, Cmd.own, calcCmds, Cmd.calc, ret, hkind, hne]

theorem lastIs_of_own_nil {st : Cmd α} (h : st.own fn parent s g = []) (t : Exit α) :
    LastIs fn parent [st] s g t := by
  intro e he
  rw [ownCmds, h] at he
  cases he

theorem leavesLoop_cons (behind : Bool) (st st' : Cmd α) (sts : List (Cmd α)) :
    leavesLoop behind (st :: st' :: sts) = leavesLoop (behind || st.isFor) (st' :: sts) := by
  cases st <;> rfl

theorem endsFalse_cons (behind : Bool) (st st' : Cmd α) (sts : List (Cmd α)) :
    endsFalse fn behind (st :: st' :: sts) = endsFalse fn (behind || st.isFor) (st' :: sts) := by
  cases st <;> rfl

/-- The branch to the condition `n` of the loop around is emitted already if the last statement
does not leave the loop. -/
theorem leavesLoop_iff {n k l : Nat} (behind : Bool) (sts : List (Cmd α)) (hn : n < g.size)
    (h : s.block < g.size) (hcont : s.continueBlock = some k)
    (hk : if behind then n < k else k = n) (hbreak : s.breakBlock = some l) (hl : l ≠ n) :
    LastIs fn parent sts s g (.br n) ↔ leavesLoop behind sts = false := by
  induction sts generalizing s g behind k l with
  | nil => exact iff_of_true lastIs_nil rfl
  | cons st sts ih =>
    cases sts with
    | nil =>
      cases st with
      | breakN =>
        rw [lastIs_break hbreak]
        simp [leavesLoop, hl]
      | continueN =>
        rw [lastIs_continue hcont]
        cases behind with
        | false => simpa [leavesLoop] using hk
        | true =>
          have hlt : n < k := hk
          simp [leavesLoop, Nat.ne_of_gt hlt]
      | retN x =>
        rw [lastIs_ret h]
        simp [leavesLoop]
      | exp _ | yieldN _ | ifN _ _ | ifElse _ _ _ | forN _ _ _ _ =>
        exact iff_of_true (lastIs_of_own_nil rfl _) rfl
    | cons st' sts =>
      have hone := Cmd.calc_step fn parent st s g h
      have hsize := hone.grown.size
      obtain ⟨hcont', hbreak'⟩ := Cmd.calc_loop fn parent st s g
      rw [leavesLoop_cons]
      cases hfor : st.isFor with
      | true =>
        -- behind an inner loop `break` and `continue` are those of that loop
        rw [hfor] at hcont' hbreak'
        exact ih (behind || true) (Nat.lt_of_lt_of_le hn hsize) hone.lt hcont'
          (by rw [Bool.or_true]; exact hn) hbreak' (by omega)
      | false =>
        rw [hfor] at hcont' hbreak'
        exact ih (behind || false) (Nat.lt_of_lt_of_le hn hsize) hone.lt (hcont'.trans hcont)
          (by rw [Bool.or_false]; exact hk) (hbreak'.trans hbreak) hl

/-- The same for the end of `StepNext`. -/
theorem endsFalse_iff (behind : Bool) (sts : List (Cmd α)) (hkind : fn.kind ≠ .func)
    (h : s.block < g.size) (hcont : s.continueBlock.isSome = behind)
    (hbreak : s.breakBlock.isSome = behind) :
    LastIs fn parent sts s g (.ret (some fn.no)) ↔ endsFalse fn behind sts := by
  induction sts generalizing s g behind with
  | nil => exact iff_of_true lastIs_nil trivial
  | cons st sts ih =>
    cases sts with
    | nil =>
      cases st with
      | breakN =>
        cases hb : s.breakBlock with
        | none =>
          rw [hb] at hbreak
          exact iff_of_true (lastIs_of_own_nil (by simp [Cmd.own, hb]) _) hbreak.symm
        | some l =>
          rw [hb] at hbreak
          rw [lastIs_break hb]
          simp [endsFalse, ← hbreak]
      | continueN =>
        cases hc : s.continueBlock with
        | none =>
          rw [hc] at hcont
          exact iff_of_true (lastIs_of_own_nil (by simp [Cmd.own, hc]) _) hcont.symm
        | some k =>
          rw [hc] at hcont
          rw [lastIs_continue hc]
          simp [endsFalse, ← hcont]
      | retN x =>
        rw [lastIs_ret h]
        cases hk : fn.kind with
        | func => exact absurd hk hkind
        | generator => simp [endsFalse, hk]
        | async => simp [endsFalse, hk]
      | exp _ | yieldN _ | ifN _ _ | ifElse _ _ _ | forN _ _ _ _ =>
        exact iff_of_true (lastIs_of_own_nil rfl _) trivial
    | cons st' sts =>
      have hone := Cmd.calc_step fn parent st s g h
      obtain ⟨hcont', hbreak'⟩ := Cmd.calc_loop fn parent st s g
      rw [endsFalse_cons]
      refine ih (behind || st.isFor) hone.lt ?_ ?_
      · rw [hcont', ← hcont]
        cases st.isFor <;> simp
      · rw [hbreak', ← hbreak]
        cases st.isFor <;> simp

/-- A block whose last block gets the terminator `t`: what is emitted inside its statements is
elsewhere, and what its last statement emits stays if it is `t` or in another block. -/
theorem closed_iff {g' : Blocks α} {t : Exit α} (sts : List (Cmd α)) (h : s.block < g.size)
    (hterm : ∀ e ∈ emitsCmds fn parent sts s g ++ ownCmds fn parent sts s g,
      g'.term e.1 = if e.1 = (calcCmds fn parent sts s g).1.block then some t
        else (calcCmds fn parent sts s g).2.term e.1) :
    (∀ e ∈ emitsCmds fn parent sts s g ++ ownCmds fn parent sts s g, g'.term e.1 = some e.2) ↔
      (∀ e ∈ emitsCmds fn parent sts s g, (calcCmds fn parent sts s g).2.term e.1 = some e.2) ∧
      LastIs fn parent sts s g t := by
  rw [List.forall_mem_append] at hterm ⊢
  refine and_congr (forall₂_congr fun e he => ?_) (forall₂_congr fun e he => ?_)
  · rw [hterm.1 e he, if_neg (emitsCmds_range fn parent sts s g h e he).2.2]
  · rw [hterm.2 e he]
    by_cases heq : e.1 = (calcCmds fn parent sts s g).1.block
    · rw [if_pos heq]
      exact ⟨fun hsome _ => (Option.some.inj hsome).symm, fun himp => congrArg some (himp heq).symm⟩
    · rw [if_neg heq]
      exact ⟨fun _ heq' => absurd heq' heq, fun _ => (ownCmds_holds sts h e he).2.2⟩

end Last

/-! ## What stays -/

section Exact

variable {fn : FnEnv α} {parent : Option Nat} {s : Scope} {g : Blocks α}

mutual

/-- All that the blocks in a statement emit stays if no loop in it has a body that leaves it. -/
theorem Cmd.emits_iff (fn : FnEnv α) (parent : Option Nat) : ∀ (st : Cmd α) (s : Scope)
    (g : Blocks α), s.block < g.size →
    ((∀ e ∈ st.emits fn parent s g, (st.calc fn parent s g).2.term e.1 = some e.2) ↔
      st.kept = true)
  | .exp _, _, _, _ | .yieldN _, _, _, _ | .breakN, _, _, _ | .continueN, _, _, _
  | .retN _, _, _, _ => iff_of_true (fun _ he => absurd he List.not_mem_nil) rfl
  | .ifN c statements, s, g, h => by
    have hstart : (s.addChildScope g.size).block < g.newBlock.size := Nat.lt_succ_self _
    have hbody := emitsCmds_iff fn (some s.block) statements _ _ hstart
    rw [← blockEmits_iff statements hstart] at hbody
    rw [← show _ ↔ Cmd.kept (.ifN c statements) = true from hbody]
    refine forall₂_congr fun e he => ?_
    rw [ifN_term h he]
    rfl
  | .ifElse c statements elSt, s, g, h => by
    have hlt : g.size + 2 < (elseHead parent s g c).2.size := (elseHead_step c h).lt
    have hstart : ((elseHead parent s g c).1.addChildScope g.size).block <
        (elseHead parent s g c).2.size := by
      show g.size < _
      omega
    have hsize := (calcCmds_step fn (some (g.size + 2)) statements _ _ hstart).grown.size
    have hstart' : ((elseHead parent s g c).1.addChildScope (g.size + 1)).block <
        (thenBranch fn parent s g c statements).2.size := by
      show g.size + 1 < (calcCmds _ _ _ _ _).2.size
      omega
    have hthen := emitsCmds_iff fn (some (g.size + 2)) statements _ _ hstart
    have helse := emitsCmds_iff fn (some (g.size + 2)) elSt _ _ hstart'
    rw [← blockEmits_iff statements hstart] at hthen
    rw [← blockEmits_iff elSt hstart'] at helse
    rw [Cmd.kept, Bool.and_eq_true, ← hthen, ← helse]
    show (∀ e ∈ (emitsCmds _ _ _ _ _ ++ ownCmds _ _ _ _ _) ++ (emitsCmds _ _ _ _ _ ++
      ownCmds _ _ _ _ _), _) ↔ _
    rw [List.forall_mem_append]
    refine and_congr (forall₂_congr fun e he => ?_) (forall₂_congr fun e he => ?_)
    · rw [then_term h he]
      rfl
    · rw [else_term h he]
      rfl
  | .forN defineAssign bool assign statements, s, g, h => by
    have hbig : g.size + 2 < (forHead parent s g defineAssign bool).2.size :=
      (forHead_step defineAssign bool h).lt
    have hstart : (forChild g).block < (forHead parent s g defineAssign bool).2.size := by
      show g.size + 1 < _
      omega
    have hbody := emitsCmds_iff fn (some (g.size + 2)) statements (forChild g) _ hstart
    -- the last block of the body is closed once more, to the condition
    have hlast : LastIs fn (some (g.size + 2)) statements (forChild g)
        (forHead parent s g defineAssign bool).2 (.br g.size) ↔ _ :=
      leavesLoop_iff false statements (by omega) hstart rfl rfl rfl (by omega)
    rw [Cmd.kept, Bool.and_eq_true, Bool.not_eq_true', ← hlast, ← hbody, and_comm]
    exact closed_iff statements hstart fun e he => forN_term h he

theorem emitsCmds_iff (fn : FnEnv α) (parent : Option Nat) : ∀ (sts : List (Cmd α)) (s : Scope)
    (g : Blocks α), s.block < g.size →
    ((∀ e ∈ emitsCmds fn parent sts s g, (calcCmds fn parent sts s g).2.term e.1 = some e.2) ↔
      keptCmds sts = true)
  | [], _, _, _ => iff_of_true (fun _ he => absurd he List.not_mem_nil) rfl
  | st :: sts, s, g, h => by
    have hone := Cmd.calc_step fn parent st s g h
    have hrest := calcCmds_step fn parent sts _ _ hone.lt
    rw [keptCmds, Bool.and_eq_true, ← Cmd.emits_iff fn parent st s g h,
      ← emitsCmds_iff fn parent sts _ _ hone.lt]
    show (∀ e ∈ _ ++ _, _) ↔ _
    rw [List.forall_mem_append]
    refine and_congr_left fun _ => forall₂_congr fun e he => ?_
    have hin := Cmd.emits_range fn parent st s g h e he
    -- the rest of the block is compiled elsewhere
    rw [← hrest.grown.term e.1 hin.2.1 hin.2.2]
    rfl

end

theorem calcFunc_func {body : List (Cmd α)} (h : fn.kind = .func) :
    calcFunc fn parent body = (calcCmds fn parent body fn.scope .start).2 := by
  unfold calcFunc
  rw [h]

/-- The end of `StepNext`. -/
theorem calcFunc_of_ne {body : List (Cmd α)} (h : fn.kind ≠ .func) :
    calcFunc fn parent body = (calcCmds fn parent body fn.scope .start).2.setTerm
      (calcCmds fn parent body fn.scope .start).1.block (.ret (some fn.no)) := by
  unfold calcFunc
  cases hkind : fn.kind with
  | func => exact absurd hkind h
  | generator => rfl
  | async => rfl

/-- **Nothing is overwritten if and only if no body of a loop leaves it at its end, and the end of a
generator's or async function's body agrees with its `ret false`.** -/
theorem kept_iff (fn : FnEnv α) (parent : Option Nat) (body : List (Cmd α)) :
    Kept fn parent body ↔ Undisturbed fn body := by
  have hstart : fn.scope.block < (Blocks.start : Blocks α).size := Nat.one_pos
  have hall := emitsCmds_iff fn parent body fn.scope .start hstart
  unfold Kept Undisturbed
  rw [← hall]
  by_cases hkind : fn.kind = .func
  · rw [calcFunc_func hkind, and_iff_left fun hne => absurd hkind hne]
    exact blockEmits_iff body hstart
  · have hlast : LastIs fn parent body fn.scope .start (.ret (some fn.no)) ↔
        endsFalse fn fn.loop.isSome body :=
      endsFalse_iff fn.loop.isSome body hkind hstart (Option.isSome_map ..) (Option.isSome_map ..)
    rw [calcFunc_of_ne hkind, forall_prop_of_true hkind, ← hlast]
    refine closed_iff body hstart fun e _ => ?_
    split
    · next heq =>
      rw [heq]
      exact Blocks.setTerm_self _ _ _
    · next heq => exact Blocks.setTerm_ne _ _ heq

end Exact

/-- `for { return }`: the loop goes on. -/
theorem return_in_loop_lost :
    ¬ Kept (⟨.func, 0, 1, none⟩ : FnEnv Nat) none [.forN none none none [.retN none]] := by
  intro hkept
  have hret := hkept (2, .ret none) (by decide)
  exact absurd hret (by decide)

end CalcLang.Ast
