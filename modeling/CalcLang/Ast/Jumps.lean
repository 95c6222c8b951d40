import CalcLang.Ast.ControlLayout

/-!
# Where `break` and `continue` go

`BreakNode.calc` and `ContinueNode.calc` branch to the block that the scope's field
names, or raise an error where it names none. `ForNode.calc` sets the two fields on the
scope it is compiled in, for its body's scope to copy; it never sets them back. So a loop
is also what a later `break` of the same block sees, and of the `if`s behind it.

`targetsSL` reads off the code generator what every `break` and `continue` of a list of
statements does, in the order they are compiled. `Stmt.jumps` says the same from the
statements alone: what a jump sees depends on what a loop leaves behind for the statements
after it, which is a parameter there. A loop of the source leaves itself behind; under the
rule of the language it leaves behind what was there before. Blocks are known by the
order of their creation, so the two can be compared: `jumps_lexical_iff`.
-/

namespace CalcLang.Ast

variable {α : Type}

/-! ## What the code generator does -/

mutual

/-- The blocks that the jumps of a statement branch to; `none` is the error. -/
def Stmt.targets : Stmt α → Scope → Func α → List (Option Nat)
  | .atom _, _, _ | .retN, _, _ => []
  | .ifN _ statements, s, f =>
    let tt := f.size
    let f := f.newBlock
    targetsSL (some s.block) statements (s.addChildScope tt) f
  | .ifElse c statements elSt, s, f =>
    let tt := f.size
    let tf := tt + 1
    let «end» := tt + 2
    let f := f.newBlock.newBlock.newBlock
    let f := f.setTerm s.block (.condBr c tt tf)
    let s := { s with block := «end» }
    targetsSL (some s.block) statements (s.addChildScope tt) f ++
      targetsSL (some s.block) elSt (s.addChildScope tf)
        (calcSL (some s.block) statements (s.addChildScope tt) f).2
  | .forN defineAssign bool _ statements, s, f =>
    let cond := f.size
    let body := cond + 1
    let «end» := cond + 2
    let f := f.newBlock.newBlock.newBlock
    let s := { s with continueBlock := some cond, breakBlock := some «end» }
    let child := s.addChildScope body
    let f := f.appendOpt s.block defineAssign
    let f := f.branch s.block bool body «end»
    let s := { s with block := «end» }
    targetsSL (some s.block) statements child f
  | .breakN, s, _ => [s.breakBlock]
  | .continueN, s, _ => [s.continueBlock]

/-- Those of a list of statements, each compiled in what `calc` made of the scope and
the function before. -/
def targetsSL (parent : Option Nat) : List (Stmt α) → Scope → Func α → List (Option Nat)
  | [], _, _ => []
  | st :: sts, s, f =>
    st.targets s f ++
      targetsSL parent sts (st.calc parent s f).1 (st.calc parent s f).2

end

/-- The jumps of a function body. -/
def targetsBody (parent : Option Nat) (body : List (Stmt α)) : List (Option Nat) :=
  targetsSL parent body ⟨0, none, none⟩ ⟨1, fun _ => ⟨[], none⟩, 0⟩

/-! ## What the jumps see -/

/-- A loop, known by its condition block and its end block. -/
abbrev Loop := Nat × Nat

mutual

/-- The number of blocks a statement makes. -/
def Stmt.blocks : Stmt α → Nat
  | .atom _ | .breakN | .continueN | .retN => 0
  | .ifN _ statements => blocksSL statements + 2
  | .ifElse _ statements elSt => blocksSL statements + blocksSL elSt + 3
  | .forN _ _ _ statements => blocksSL statements + 3

def blocksSL : List (Stmt α) → Nat
  | [] => 0
  | st :: sts => st.blocks + blocksSL sts

end

/-- The loop that the statements behind `st` see, where a loop made at block `n` leaves
`leave loop n` behind. -/
def Stmt.after (leave : Option Loop → Nat → Option Loop) (loop : Option Loop) (n : Nat) :
    Stmt α → Option Loop
  | .forN _ _ _ _ => leave loop n
  | _ => loop

mutual

/-- The blocks that the jumps of a statement branch to, where they see `loop` and the
statement's blocks are made from number `n` on. The condition block of a loop is its
first, and its end block its third. -/
def Stmt.jumps (leave : Option Loop → Nat → Option Loop) (loop : Option Loop) :
    Stmt α → Nat → List (Option Nat)
  | .atom _, _ | .retN, _ => []
  | .ifN _ statements, n => jumpsSL leave loop statements (n + 1)
  | .ifElse _ statements elSt, n =>
    jumpsSL leave loop statements (n + 3) ++
      jumpsSL leave loop elSt (n + 3 + blocksSL statements)
  | .forN _ _ _ statements, n => jumpsSL leave (some (n, n + 2)) statements (n + 3)
  | .breakN, _ => [loop.map Prod.snd]
  | .continueN, _ => [loop.map Prod.fst]

def jumpsSL (leave : Option Loop → Nat → Option Loop) (loop : Option Loop) :
    List (Stmt α) → Nat → List (Option Nat)
  | [], _ => []
  | st :: sts, n =>
    st.jumps leave loop n ++ jumpsSL leave (st.after leave loop n) sts (n + st.blocks)

end

/-- A loop is over at its end: what is behind it sees the loop around it. -/
def lexical (loop : Option Loop) (_ : Nat) : Option Loop := loop

/-- A loop stays in the scope it was compiled in. -/
def leaking (_ : Option Loop) (n : Nat) : Option Loop := some (n, n + 2)

/-- **The rule of the language**: the innermost loop that encloses a jump, or the error
where there is none. -/
def lexicalTargets (body : List (Stmt α)) : List (Option Nat) := jumpsSL lexical none body 1

/-! ## The code generator leaks -/

section Generator

variable {s : Scope} {f : Func α} {loop : Option Loop}

mutual

theorem Stmt.calc_size (parent : Option Nat) : ∀ (st : Stmt α) (s : Scope) (f : Func α),
    (st.calc parent s f).2.size = f.size + st.blocks
  | .atom a, s, f => rfl
  | .retN, s, f => rfl
  | .breakN, s, f => by
    unfold Stmt.calc
    split
    · rfl
    · rfl
  | .continueN, s, f => by
    unfold Stmt.calc
    split
    · rfl
    · rfl
  | .ifN c statements, s, f => by
    simp only [Stmt.calc, Stmt.blocks, Func.toParent_size, Func.closeTo_size, Func.setTerm_size,
      Func.newBlock_size, calcSL_size]
    omega
  | .ifElse c statements elSt, s, f => by
    simp only [Stmt.calc, Stmt.blocks, Func.toParent_size, Func.closeTo_size, Func.setTerm_size,
      Func.newBlock_size, calcSL_size]
    omega
  | .forN defineAssign bool assign statements, s, f => by
    simp only [Stmt.calc, Stmt.blocks, Func.branch_size, Func.appendOpt_size, Func.setTerm_size,
      Func.newBlock_size, calcSL_size]
    omega

theorem calcSL_size (parent : Option Nat) : ∀ (sts : List (Stmt α)) (s : Scope) (f : Func α),
    (calcSL parent sts s f).2.size = f.size + blocksSL sts
  | [], s, f => rfl
  | st :: sts, s, f => by
    simp only [calcSL, blocksSL, calcSL_size parent sts, Stmt.calc_size parent st]
    omega

end

/-- The scope's fields name the loop. -/
structure Scope.Sees (s : Scope) (loop : Option Loop) : Prop where
  continueBlock : s.continueBlock = loop.map Prod.fst
  breakBlock : s.breakBlock = loop.map Prod.snd

/-- What a statement leaves in the scope's fields. -/
theorem Scope.Sees.calc (h : s.Sees loop) (parent : Option Nat) (st : Stmt α) (f : Func α) :
    (st.calc parent s f).1.Sees (st.after leaking loop f.size) := by
  cases st with
  | forN defineAssign bool assign statements => exact ⟨rfl, rfl⟩
  | breakN =>
    unfold Stmt.calc
    split
    · exact h
    · exact h
  | continueN =>
    unfold Stmt.calc
    split
    · exact h
    · exact h
  | atom _ | retN | ifN _ _ | ifElse _ _ _ => exact ⟨h.continueBlock, h.breakBlock⟩

mutual

/-- The jumps see what loops leave behind. -/
theorem Stmt.targets_eq : ∀ (st : Stmt α) (s : Scope) (f : Func α)
    (loop : Option Loop), s.Sees loop → st.targets s f = st.jumps leaking loop f.size
  | .atom _, _, _, _, _ => rfl
  | .retN, _, _, _, _ => rfl
  | .breakN, s, f, loop, h => congrArg (fun b => [b]) h.breakBlock
  | .continueN, s, f, loop, h => congrArg (fun b => [b]) h.continueBlock
  | .ifN c statements, s, f, loop, h =>
    targetsSL_eq _ statements _ _ loop ⟨h.continueBlock, h.breakBlock⟩
  | .ifElse c statements elSt, s, f, loop, h => by
    have hchild : ∀ b b' : Nat, (Scope.addChildScope { s with block := b } b').Sees loop :=
      fun _ _ => ⟨h.continueBlock, h.breakBlock⟩
    simp only [Stmt.targets, Stmt.jumps]
    rw [targetsSL_eq _ statements _ _ loop (hchild _ _),
      targetsSL_eq _ elSt _ _ loop (hchild _ _), calcSL_size]
    rfl
  | .forN defineAssign bool assign statements, s, f, loop, h => by
    simp only [Stmt.targets, Stmt.jumps]
    rw [targetsSL_eq _ statements _ _ (some (f.size, f.size + 2)) ⟨rfl, rfl⟩,
      Func.branch_size, Func.appendOpt_size]
    rfl

theorem targetsSL_eq (parent : Option Nat) : ∀ (sts : List (Stmt α)) (s : Scope) (f : Func α)
    (loop : Option Loop), s.Sees loop → targetsSL parent sts s f = jumpsSL leaking loop sts f.size
  | [], _, _, _, _ => rfl
  | st :: sts, s, f, loop, h => by
    simp only [targetsSL, jumpsSL]
    rw [Stmt.targets_eq st s f loop h,
      targetsSL_eq parent sts _ _ _ (h.calc parent st f), Stmt.calc_size]

end

end Generator

/-! ## Where the two differ -/

mutual

/-- A `break` or `continue` of the statement that no loop in it encloses. -/
def Stmt.exposed : Stmt α → Bool
  | .breakN | .continueN => true
  | .ifN _ statements => exposedSL statements
  | .ifElse _ statements elSt => exposedSL statements || exposedSL elSt
  | .atom _ | .retN | .forN _ _ _ _ => false

def exposedSL : List (Stmt α) → Bool
  | [] => false
  | st :: sts => st.exposed || exposedSL sts

end

def Stmt.isFor : Stmt α → Bool
  | .forN _ _ _ _ => true
  | _ => false

mutual

/-- In no block of the statement does a jump that sees past its own loops stand behind a
loop. -/
def Stmt.Clear : Stmt α → Prop
  | .atom _ | .retN | .breakN | .continueN => True
  | .ifN _ statements => ClearSL statements
  | .ifElse _ statements elSt => ClearSL statements ∧ ClearSL elSt
  | .forN _ _ _ statements => ClearSL statements

def ClearSL : List (Stmt α) → Prop
  | [] => True
  | st :: sts => st.Clear ∧ (st.isFor = true → exposedSL sts = false) ∧ ClearSL sts

end

section Exact

variable {leave leave' : Option Loop → Nat → Option Loop} {loop loop' : Option Loop}

theorem Stmt.after_of_not_for {st : Stmt α} (h : st.isFor = false) (n : Nat) :
    st.after leave loop n = loop := by
  cases st with
  | forN _ _ _ _ => cases h
  | atom _ | retN | breakN | continueN | ifN _ _ | ifElse _ _ _ => rfl

theorem Stmt.after_lexical (st : Stmt α) (n : Nat) : st.after lexical loop n = loop := by
  cases st with
  | forN _ _ _ _ | atom _ | retN | breakN | continueN | ifN _ _ | ifElse _ _ _ => rfl

theorem Stmt.after_for {st : Stmt α} (h : st.isFor = true) (n : Nat) :
    st.after leave loop n = leave loop n := by
  cases st with
  | forN _ _ _ _ => rfl
  | atom _ | retN | breakN | continueN | ifN _ _ | ifElse _ _ _ => cases h

mutual

/-- There are as many jumps under either rule. -/
theorem Stmt.length_jumps : ∀ (st : Stmt α) (loop loop' : Option Loop) (n : Nat),
    (st.jumps leave loop n).length = (st.jumps leave' loop' n).length
  | .atom _, _, _, _ | .retN, _, _, _ | .breakN, _, _, _ | .continueN, _, _, _ => rfl
  | .ifN _ statements, loop, loop', n => length_jumpsSL statements loop loop' (n + 1)
  | .ifElse _ statements elSt, loop, loop', n => by
    simp only [Stmt.jumps, List.length_append]
    rw [length_jumpsSL statements loop loop' (n + 3), length_jumpsSL elSt loop loop']
  | .forN _ _ _ statements, _, _, n => length_jumpsSL statements _ _ (n + 3)

theorem length_jumpsSL : ∀ (sts : List (Stmt α)) (loop loop' : Option Loop) (n : Nat),
    (jumpsSL leave loop sts n).length = (jumpsSL leave' loop' sts n).length
  | [], _, _, _ => rfl
  | st :: sts, loop, loop', n => by
    simp only [jumpsSL, List.length_append]
    rw [Stmt.length_jumps st loop loop' n, length_jumpsSL sts _ (st.after leave' loop' n)]

end

mutual

/-- Behind a loop, the code generator knows no error, and branches to no block that is older
than the loop. -/
theorem Stmt.jumps_leaking {k : Nat} : ∀ (st : Stmt α) (l : Loop) (n : Nat),
    k ≤ n → k ≤ l.1 → k ≤ l.2 → ∀ x ∈ st.jumps leaking (some l) n, ∃ b, x = some b ∧ k ≤ b
  | .atom _, _, _, _, _, _, x, hx | .retN, _, _, _, _, _, x, hx => absurd hx List.not_mem_nil
  | .breakN, l, _, _, _, h2, x, hx => ⟨l.2, List.mem_singleton.mp hx, h2⟩
  | .continueN, l, _, _, h1, _, x, hx => ⟨l.1, List.mem_singleton.mp hx, h1⟩
  | .ifN _ statements, l, n, hn, h1, h2, x, hx =>
    jumpsSL_leaking statements l (n + 1) (by omega) h1 h2 x hx
  | .ifElse _ statements elSt, l, n, hn, h1, h2, x, hx => by
    rcases List.mem_append.mp hx with hx | hx
    · exact jumpsSL_leaking statements l (n + 3) (by omega) h1 h2 x hx
    · exact jumpsSL_leaking elSt l _ (by omega) h1 h2 x hx
  | .forN _ _ _ statements, _, n, hn, _, _, x, hx =>
    jumpsSL_leaking statements (n, n + 2) (n + 3) (by omega) hn (by show k ≤ n + 2; omega) x hx

theorem jumpsSL_leaking {k : Nat} : ∀ (sts : List (Stmt α)) (l : Loop) (n : Nat),
    k ≤ n → k ≤ l.1 → k ≤ l.2 → ∀ x ∈ jumpsSL leaking (some l) sts n, ∃ b, x = some b ∧ k ≤ b
  | [], _, _, _, _, _, x, hx => absurd hx List.not_mem_nil
  | st :: sts, l, n, hn, h1, h2, x, hx => by
    simp only [jumpsSL] at hx
    rcases List.mem_append.mp hx with hx | hx
    · exact Stmt.jumps_leaking st l n hn h1 h2 x hx
    · have hn' : k ≤ n + st.blocks := by omega
      cases hfor : st.isFor with
      | true =>
        rw [Stmt.after_for hfor] at hx
        exact jumpsSL_leaking sts (n, n + 2) _ hn' hn (by show k ≤ n + 2; omega) x hx
      | false =>
        rw [Stmt.after_of_not_for hfor] at hx
        exact jumpsSL_leaking sts l _ hn' h1 h2 x hx

end

mutual

/-- An exposed jump goes to the loop around the statement. -/
theorem Stmt.jumps_exposed : ∀ (st : Stmt α) (n : Nat), st.exposed = true →
    loop.map Prod.fst ∈ st.jumps lexical loop n ∨ loop.map Prod.snd ∈ st.jumps lexical loop n
  | .breakN, _, _ => .inr (List.mem_singleton.mpr rfl)
  | .continueN, _, _ => .inl (List.mem_singleton.mpr rfl)
  | .ifN _ statements, n, h => jumpsSL_exposed statements (n + 1) h
  | .ifElse _ statements elSt, n, h => by
    rcases Bool.or_eq_true _ _ |>.mp h with h | h
    · exact (jumpsSL_exposed statements (n + 3) h).imp (List.mem_append_left _)
        (List.mem_append_left _)
    · exact (jumpsSL_exposed elSt _ h).imp (List.mem_append_right _) (List.mem_append_right _)
  | .atom _, _, h | .retN, _, h | .forN _ _ _ _, _, h => absurd h Bool.false_ne_true

theorem jumpsSL_exposed : ∀ (sts : List (Stmt α)) (n : Nat), exposedSL sts = true →
    loop.map Prod.fst ∈ jumpsSL lexical loop sts n ∨
      loop.map Prod.snd ∈ jumpsSL lexical loop sts n
  | [], _, h => absurd h Bool.false_ne_true
  | st :: sts, n, h => by
    simp only [jumpsSL, Stmt.after_lexical]
    rcases Bool.or_eq_true _ _ |>.mp h with h | h
    · exact (Stmt.jumps_exposed st n h).imp (List.mem_append_left _) (List.mem_append_left _)
    · exact (jumpsSL_exposed sts _ h).imp (List.mem_append_right _) (List.mem_append_right _)

end

mutual

/-- Without an exposed jump it does not matter which loop is around. -/
theorem Stmt.jumps_not_exposed : ∀ (st : Stmt α) (n : Nat), st.exposed = false →
    st.jumps lexical loop n = st.jumps lexical loop' n
  | .atom _, _, _ | .retN, _, _ | .forN _ _ _ _, _, _ => rfl
  | .breakN, _, h | .continueN, _, h => absurd h.symm Bool.false_ne_true
  | .ifN _ statements, n, h => jumpsSL_not_exposed statements (n + 1) h
  | .ifElse _ statements elSt, n, h => by
    obtain ⟨h1, h2⟩ := Bool.or_eq_false_iff.mp h
    simp only [Stmt.jumps]
    rw [jumpsSL_not_exposed statements (n + 3) h1, jumpsSL_not_exposed elSt _ h2]

theorem jumpsSL_not_exposed : ∀ (sts : List (Stmt α)) (n : Nat), exposedSL sts = false →
    jumpsSL lexical loop sts n = jumpsSL lexical loop' sts n
  | [], _, _ => rfl
  | st :: sts, n, h => by
    obtain ⟨h1, h2⟩ := Bool.or_eq_false_iff.mp h
    simp only [jumpsSL, Stmt.after_lexical]
    rw [Stmt.jumps_not_exposed st n h1, jumpsSL_not_exposed sts _ h2]

end

/-- An exposed jump behind a loop goes wrong: it sees that loop, and the one around
it is older, or is not there. -/
theorem jumpsSL_wrong {sts : List (Stmt α)} {k n : Nat} (hloop : ∀ l ∈ loop, l.1 < k ∧ l.2 < k)
    (hn : k + 3 ≤ n) (h : exposedSL sts = true) :
    jumpsSL leaking (some (k, k + 2)) sts n ≠ jumpsSL lexical loop sts n := by
  intro heq
  have hge := jumpsSL_leaking (k := k) sts (k, k + 2) n (by omega) (Nat.le_refl k)
    (by show k ≤ k + 2; omega)
  rw [heq] at hge
  have hold : ∀ x ∈ jumpsSL lexical loop sts n, x ≠ loop.map Prod.fst ∧ x ≠ loop.map Prod.snd := by
    intro x hx
    obtain ⟨b, rfl, hb⟩ := hge x hx
    cases loop with
    | none => exact ⟨Option.some_ne_none b, Option.some_ne_none b⟩
    | some l =>
      obtain ⟨h1, h2⟩ := hloop l rfl
      simp only [Option.map_some, ne_eq, Option.some.injEq]
      omega
  have hwrong : loop.map Prod.fst ∈ jumpsSL lexical loop sts n ∨
      loop.map Prod.snd ∈ jumpsSL lexical loop sts n := jumpsSL_exposed sts n h
  rcases hwrong with hx | hx
  · exact (hold _ hx).1 rfl
  · exact (hold _ hx).2 rfl

mutual

theorem Stmt.jumps_iff : ∀ (st : Stmt α) (loop : Option Loop) (n : Nat),
    (∀ l ∈ loop, l.1 < n ∧ l.2 < n) →
    (st.jumps leaking loop n = st.jumps lexical loop n ↔ st.Clear)
  | .atom _, _, _, _ | .retN, _, _, _ | .breakN, _, _, _ | .continueN, _, _, _ =>
    ⟨fun _ => trivial, fun _ => rfl⟩
  | .ifN _ statements, loop, n, h =>
    jumpsSL_iff statements loop (n + 1) fun l hl => by have := h l hl; omega
  | .ifElse _ statements elSt, loop, n, h => by
    have h1 := jumpsSL_iff statements loop (n + 3) fun l hl => by have := h l hl; omega
    have h2 := jumpsSL_iff elSt loop (n + 3 + blocksSL statements)
      fun l hl => by have := h l hl; omega
    simp only [Stmt.jumps, Stmt.Clear]
    rw [← h1, ← h2]
    exact ⟨fun heq => List.append_inj heq (length_jumpsSL ..), fun ⟨e1, e2⟩ => by rw [e1, e2]⟩
  | .forN _ _ _ statements, loop, n, h =>
    jumpsSL_iff statements (some (n, n + 2)) (n + 3) fun l hl => by
      obtain rfl := Option.some.inj hl
      dsimp only
      omega

theorem jumpsSL_iff : ∀ (sts : List (Stmt α)) (loop : Option Loop) (n : Nat),
    (∀ l ∈ loop, l.1 < n ∧ l.2 < n) →
    (jumpsSL leaking loop sts n = jumpsSL lexical loop sts n ↔ ClearSL sts)
  | [], _, _, _ => ⟨fun _ => trivial, fun _ => rfl⟩
  | st :: sts, loop, n, h => by
    have hst := Stmt.jumps_iff st loop n h
    have hrest := jumpsSL_iff sts loop (n + st.blocks) fun l hl => by have := h l hl; omega
    simp only [jumpsSL, ClearSL, Stmt.after_lexical]
    cases hfor : st.isFor with
    | false =>
      rw [Stmt.after_of_not_for hfor, ← hst, ← hrest]
      simp only [Bool.false_eq_true, false_imp_iff, true_and]
      exact ⟨fun heq => List.append_inj heq (Stmt.length_jumps ..),
        fun ⟨e1, e2⟩ => by rw [e1, e2]⟩
    | true =>
      have hblocks : n + 3 ≤ n + st.blocks := by
        cases st with
        | forN _ _ _ _ => simp only [Stmt.blocks]; omega
        | atom _ | retN | breakN | continueN | ifN _ _ | ifElse _ _ _ => cases hfor
      -- behind the loop its labels are still those of the scope
      have hown := jumpsSL_iff sts (some (n, n + 2)) (n + st.blocks) fun l hl => by
        obtain rfl := Option.some.inj hl
        dsimp only
        omega
      rw [Stmt.after_for hfor, ← hst]
      show _ ++ jumpsSL leaking (some (n, n + 2)) sts _ = _ ↔ _
      constructor
      · intro heq
        obtain ⟨e1, e2⟩ := List.append_inj heq (Stmt.length_jumps ..)
        have hnot : exposedSL sts = false := by
          rw [← Bool.not_eq_true]
          intro hexp
          exact jumpsSL_wrong h hblocks hexp e2
        refine ⟨e1, fun _ => hnot, hown.mp ?_⟩
        rw [e2]
        exact jumpsSL_not_exposed sts _ hnot
      · intro ⟨e1, hnot, hclear⟩
        rw [e1, hown.mpr hclear, jumpsSL_not_exposed sts _ (hnot rfl)]

end

end Exact

end CalcLang.Ast
