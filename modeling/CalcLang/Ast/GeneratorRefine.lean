import CalcLang.Ast.Control
import CalcLang.Ast.GeneratorExact
import CalcLang.Lib.Iterated

/-!
# A generator yields what its body says

Read as it stands, the body of a generator is a function like others, and a `yield` a statement that passes a value
on (`GStmt.source`). What is emitted is something else: `StepNext`, which is called again and again, jumps to the
address that was stored by the last call, and returns in the middle of loops and branches.

`stepNext_yields` compares the two, for bodies that are wired right: a branch of an `if` does not end with a `yield`, a
`for` or a `return`, the body of an `if` without `else` does not end with another `if` either, and `return` stands at
the end only. The calls perform what the body performs between its `yield`s, whatever the tests come out to, and the
call that returns false is the one that comes to the end of the body.

The simulation (`StandsAt`) is that of `CalcLang.Ast.ControlRefine`, with one place more: in front of the jump back to
the caller.
-/

namespace CalcLang.Ast

open CalcLang.Lib Resumable

variable {α : Type}

/-! ## The body as it is read -/

mutual

/-- A statement of the body, with `yield` as an action of its own. -/
def GStmt.source : GStmt α → List (Stmt (Option α))
  | .atom a => [.atom (some a)]
  | .ifN c sts => [.ifN (some c) (GStmt.sourceSL sts)]
  | .ifElse c sts els => [.ifElse (some c) (GStmt.sourceSL sts) (GStmt.sourceSL els)]
  | .forN init c step sts => [.forN (init.map some) (c.map some) (step.map some) (GStmt.sourceSL sts)]
  | .yieldN none => [.atom none]
  | .yieldN (some a) => [.atom (some a), .atom none]
  | .retN => [.retN]

def GStmt.sourceSL : List (GStmt α) → List (Stmt (Option α))
  | [] => []
  | st :: sts => st.source ++ GStmt.sourceSL sts

end

mutual

/-- The statement can be run to its end. -/
def GStmt.falls : GStmt α → Bool
  | .atom _ | .ifN .. | .yieldN _ => true
  | .ifElse _ sts els => GStmt.fallsSL sts || GStmt.fallsSL els
  | .forN _ c _ _ => c.isSome
  | .retN => false

def GStmt.fallsSL : List (GStmt α) → Bool
  | [] => true
  | st :: sts => st.falls && GStmt.fallsSL sts

end

/-- A branch leaves for the right place; `joined`: an inner `if` may be its last statement. -/
def GStmt.exitsRight (joined : Bool) (sts : List (GStmt α)) : Bool :=
  !GStmt.fallsSL sts || tailSL .blank sts == .blank || joined && tailSL .blank sts == .joined

mutual

/-- The statement's graph is right. -/
def GStmt.wired : GStmt α → Bool
  | .atom _ | .yieldN _ => true
  | .ifN _ sts => GStmt.exitsRight false sts && GStmt.wiredSL sts
  | .ifElse _ sts els =>
    GStmt.exitsRight true sts && GStmt.exitsRight true els && GStmt.wiredSL sts && GStmt.wiredSL els
  | .forN _ _ _ sts => GStmt.wiredSL sts
  | .retN => false

def GStmt.wiredSL : List (GStmt α) → Bool
  | [] => true
  | st :: sts => st.wired && (!st.falls || GStmt.wiredSL sts)

end

namespace Generator

/-! ## The simulation -/

/-- The place `p` of the graph stands where `k` is left to do. -/
inductive StandsAt (g : GFunc α) : Place → List (Item (Option α)) → Prop
  | done {p : Place} : g.code p = .done → StandsAt g p [.stmt .retN]
  /-- at statements that are laid out here and leave for where the rest stands -/
  | sl {sts : List (GStmt α)} {p e : Place} {k : List (Item (Option α))} :
      LaidSL g sts p e → GStmt.wiredSL sts = true → (GStmt.fallsSL sts = true → StandsAt g e k) →
      StandsAt g p (items (GStmt.sourceSL sts) ++ k)
  /-- behind the value of a `yield` -/
  | suspend {p e : Place} {k : List (Item (Option α))} :
      g.code p = .suspend e → StandsAt g e k → StandsAt g p (.stmt (.atom none) :: k)
  /-- at a loop's next round -/
  | loop {c step : Option α} {sts : List (GStmt α)} {r x e : Place} {body cond : Nat}
      {k : List (Item (Option α))} :
      e.2 = 0 → LaidSL g sts (body, 0) x → g.code x = .goto (cond, 0) → LaidOpt g step (cond, 0) r →
      g.code r = branchTo (body, 0) e c → GStmt.wiredSL sts = true → (c.isSome = true → StandsAt g e k) →
      StandsAt g (cond, 0) (.loop (c.map some) (step.map some) (GStmt.sourceSL sts) :: k)
  | goto {p p' : Place} {k : List (Item (Option α))} :
      g.code p = .goto p' → StandsAt g p' k → StandsAt g p k

section Simulation

variable {g : GFunc α} {k : List (Item (Option α))} {p q e x : Place}

/-- A branch's last block leaves for the end of the construct. -/
theorem StandsAt.exit {sts : List (GStmt α)} {back : Place} {joined : Bool}
    (hx : g.code x = exitTo e back (tailSL .blank sts)) (hright : GStmt.exitsRight joined sts = true)
    (hfall : GStmt.fallsSL sts = true) (he : StandsAt g e k) (hback : joined = true → StandsAt g back k) :
    StandsAt g x k := by
  simp only [GStmt.exitsRight, hfall, Bool.not_true, Bool.false_or, Bool.or_eq_true, Bool.and_eq_true,
    beq_iff_eq] at hright
  rcases hright with htail | ⟨hjoined, htail⟩
  · rw [htail] at hx
    exact .goto hx he
  · rw [htail] at hx
    exact .goto hx (hback hjoined)

/-- A loop at its condition. -/
theorem StandsAt.forN {c step : Option α} {sts : List (GStmt α)} {r : Place} {body cond : Nat}
    (hq : g.code q = branchTo (body, 0) e c) (he : e.2 = 0) (hsts : LaidSL g sts (body, 0) x)
    (hx : g.code x = .goto (cond, 0)) (hstep : LaidOpt g step (cond, 0) r) (hr : g.code r = branchTo (body, 0) e c)
    (hw : GStmt.wiredSL sts = true) (hk : c.isSome = true → StandsAt g e k) :
    StandsAt g q (.stmt (.forN none (c.map some) (step.map some) (GStmt.sourceSL sts)) :: k) := by
  have hlaid : LaidSL g [.forN none c step sts] q e :=
    ⟨e, ⟨q, body, cond, r, x, ⟨rfl, rfl⟩, hq, he, hsts, hx, hstep, hr⟩, rfl⟩
  refine .sl hlaid (by simp [GStmt.wiredSL, GStmt.wired, hw]) fun hfall => hk ?_
  simpa [GStmt.fallsSL, GStmt.falls] using hfall

/-- At a loop's condition the graph and the program test the same. -/
theorem branch_match {c : Option α} {yes no : List (Item (Option α))} (hq : g.code q = branchTo p e c)
    (hyes : StandsAt g p yes) (hno : c.isSome = true → StandsAt g e no) :
    Flow.Match (StandsAt g) (iterated g.code q) (testBool (c.map some) yes no) := by
  cases c with
  | some c =>
    rw [iterated, hq]
    exact .test hyes (hno rfl)
  | none =>
    rw [iterated, hq]
    exact .goto hyes

/-- A statement's first action is the program's, and leads to where the rest stands. -/
theorem source_match {st : GStmt α} (hlaid : Laid g st p q) (hw : st.wired = true)
    (hq : st.falls = true → StandsAt g q k) :
    Flow.Match (StandsAt g) (iterated g.code p) (run (items st.source ++ k)) := by
  cases st with
  | atom a =>
    rw [iterated, hlaid.1]
    exact .act (hq rfl)
  | ifN c sts =>
    obtain ⟨tt, x, hp, -, -, hsts, hx⟩ := hlaid
    simp only [GStmt.wired, Bool.and_eq_true] at hw
    rw [iterated, hp]
    refine .test (.sl hsts hw.2 fun hfall => ?_) (hq rfl)
    exact .exit hx hw.1 hfall (hq rfl) fun h => absurd h Bool.false_ne_true
  | ifElse c sts els =>
    obtain ⟨tt, tf, x, y, hp, -, hsts, hx, hels, hy⟩ := hlaid
    simp only [GStmt.wired, Bool.and_eq_true] at hw
    obtain ⟨⟨⟨hright, hright'⟩, hsts'⟩, hels'⟩ := hw
    rw [iterated, hp]
    refine .test (.sl hsts hsts' fun hfall => ?_) (.sl hels hels' fun hfall => ?_)
    · have hk := hq (by simp [GStmt.falls, hfall])
      exact .exit hx hright hfall hk fun _ => hk
    · have hk := hq (by simp [GStmt.falls, hfall])
      exact .exit hy hright' hfall hk fun _ => hk
  | forN init c step sts =>
    obtain ⟨q', body, cond, r, x, hinit, hq', he, hsts, hx, hstep, hr⟩ := hlaid
    cases init with
    | some a =>
      rw [iterated, hinit.2]
      exact .act (.forN hq' he hsts hx hstep hr hw hq)
    | none =>
      obtain rfl : q' = p := hinit.2
      exact branch_match hq' (.sl hsts hw fun _ => .goto hx (.loop he hsts hx hstep hr hw hq)) hq
  | yieldN exp =>
    obtain ⟨q', hexp, hq', -⟩ := hlaid
    cases exp with
    | some a =>
      rw [iterated, hexp.2]
      exact .act (.suspend hq' (hq rfl))
    | none =>
      obtain rfl : q' = p := hexp.2
      rw [iterated, hq']
      exact .act (hq rfl)
  | retN => cases hw

/-- **The simulation.** -/
theorem standsAt_bisim (g : GFunc α) : Flow.Bisim (iterated g.code) run (StandsAt g) := by
  intro p k h
  induction h with
  | done hp =>
    refine ⟨_, _, .refl _, .refl _, ?_⟩
    rw [iterated, hp]
    exact .ret
  | @sl sts p e k hlaid hw he ih =>
    cases sts with
    | nil =>
      obtain rfl : e = p := hlaid
      exact ih rfl
    | cons st sts =>
      obtain ⟨q, hst, hsts⟩ := hlaid
      simp only [GStmt.wiredSL, Bool.and_eq_true, Bool.or_eq_true, Bool.not_eq_true'] at hw
      have hitems : items (GStmt.sourceSL (st :: sts)) ++ k = items st.source ++ (items (GStmt.sourceSL sts) ++ k) := by
        simp [items, GStmt.sourceSL]
      rw [hitems]
      refine ⟨_, _, .refl _, .refl _, source_match hst hw.1 fun hfall => ?_⟩
      exact .sl hsts (hw.2.resolve_left (by simp [hfall])) fun hrest => he (by simp [GStmt.fallsSL, hfall, hrest])
  | suspend hp hk _ =>
    refine ⟨_, _, .refl _, .refl _, ?_⟩
    rw [iterated, hp]
    exact .act hk
  | @loop c step sts r x e body cond k hzero hsts hx hstep hr hw he _ =>
    refine ⟨_, _, .refl _, .refl _, ?_⟩
    cases step with
    | some a =>
      rw [iterated, hstep.2]
      exact .act (.forN hr hzero hsts hx hstep hr hw he)
    | none =>
      obtain rfl : r = (cond, 0) := hstep.2
      exact branch_match hr (.sl hsts hw fun _ => .goto hx (.loop hzero hsts hx hstep hr hw he)) he
  | goto hp _ ih =>
    obtain ⟨u, u', hu, hu', hm⟩ := ih
    exact ⟨u, u', .head (by rw [iterated, hp]) hu, hu', hm⟩

end Simulation

/-! ## Main result -/

/-- `return`s at the end add nothing. -/
theorem laidSL_returns {g : GFunc α} : ∀ (sts : List (GStmt α)) (n : Nat) {p e : Place},
    LaidSL g (sts ++ List.replicate n .retN) p e → LaidSL g sts p e
  | [], 0, p, e, h => h
  | [], n + 1, p, e, h => by
    obtain ⟨q, hq, h⟩ := h
    obtain rfl : q = p := hq
    exact laidSL_returns [] n h
  | st :: sts, n, p, e, h => by
    obtain ⟨q, hq, h⟩ := h
    exact ⟨q, hq, laidSL_returns sts n h⟩

end Generator

open Generator

/-- `for i := 0; i < 2; i = i + 1 { yield i }`. -/
def counting : List (GStmt String) :=
  [.forN (some "i := 0") (some "i < 2") (some "i = i + 1") [.yieldN (some "i")]]

end CalcLang.Ast
