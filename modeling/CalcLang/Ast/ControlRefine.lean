import CalcLang.Ast.ControlLayout

/-!
# Control flow: when the graph performs what the program says

`wired` is the exact condition on a function body under which the emitted graph
is well formed and performs what the structured program performs. It follows the
three ways in which a branch's last block leaves (`exitTo`):

* a `for` as the last construct of a branch leaves the block unterminated, so
  the branch must never run to its end;
* an `if` or `if`/`else` as the last construct of an `if`'s body branches back to
  the block in front of the outer `if`. That is never right when it is the entry
  block. Elsewhere it is harmless only if the body never runs to its end, or if
  that is where the program goes anyway: the outer `if` ends the body of a loop
  without condition and step, and nothing before it ended a block.

Nothing is asked of statements behind a loop that never exits.

`wired_refines` is the simulation, `refines_wired` the converse: following the
two programs along the same events, a wrong exit would have to begin with an
event of the block in front of the `if`, which no continuation does.
-/

namespace CalcLang.Ast

open CalcLang.Lib Flow

variable {α : Type}

/-! ## The condition -/

mutual

/-- The statement can be run to its end. -/
def Stmt.falls : Stmt α → Bool
  | .atom _ | .ifN .. => true
  | .ifElse _ sts els => fallsSL sts || fallsSL els
  | .forN _ c _ _ => c.isSome
  | .breakN | .continueN | .retN => false

/-- The statements can be run to their end. -/
def fallsSL : List (Stmt α) → Bool
  | [] => true
  | st :: sts => st.falls && fallsSL sts

end

/-- What encloses a list of statements. -/
inductive Around where
  | function
  | bareLoop
  | other
deriving DecidableEq, Repr

/-- What a loop is to its body: bare if it has neither condition nor step. -/
def loopAround (c step : Option α) : Around :=
  if c.isNone && step.isNone then .bareLoop else .other

/-- A branch of an `if`/`else` leaves for the right place. -/
def exitsRight (sts : List (Stmt α)) : Bool :=
  lastConstruct sts != some .loop || !fallsSL sts

/-- The body of an `if` leaves for the right place; `fresh`: no construct in
front of the `if`, `final`: nothing behind it. -/
def ifExitsRight (w : Around) (fresh final : Bool) (sts : List (Stmt α)) : Bool :=
  exitsRight sts &&
    (lastConstruct sts != some .cond ||
      (!(w == .function && fresh) && (!fallsSL sts || w == .bareLoop && fresh && final)))

mutual

/-- The statement's graph is right, in a list enclosed by `w`. -/
def Stmt.wired (w : Around) (fresh final : Bool) : Stmt α → Bool
  | .ifN _ sts => ifExitsRight w fresh final sts && wiredSL .other true sts
  | .ifElse _ sts els =>
    exitsRight sts && exitsRight els && wiredSL .other true sts && wiredSL .other true els
  | .forN _ c step sts => wiredSL (loopAround c step) true sts
  | _ => true

/-- The statements' graph is right. -/
def wiredSL (w : Around) (fresh : Bool) : List (Stmt α) → Bool
  | [] => true
  | st :: sts => st.wired w fresh sts.isEmpty &&
      (!st.falls || wiredSL w (fresh && st.construct.isNone) sts)

end

/-! ## The simulation -/

/-- Point `p` of the graph stands where `k` is left to do. -/
inductive Stands (g : Func α) : Point → List (Item α) → Prop
  | ret {p : Point} : g.flow p = .ret → Stands g p [.stmt .retN]
  /-- at statements that are laid out here and leave for where the rest stands;
  at the start of a bare loop's body, that start is also where the rest stands -/
  | sl {w : Around} {fresh : Bool} {sts : List (Stmt α)} {p e : Point} {k : List (Item α)} :
      LaidSL g sts p e → wiredSL w fresh sts = true → (fallsSL sts = true → Stands g e k) →
        (w = .bareLoop → fresh = true → Stands g (p.1, 0) k) → Stands g p (items sts ++ k)
  /-- at a loop's next round; a bare loop's is its body's start -/
  | loop {c step : Option α} {sts : List (Stmt α)} {p r x e : Point} {body cond : Nat}
      {k : List (Item α)} :
      LaidSL g sts (body, 0) x → g.flow x = .goto (cond, 0) → LaidOpt g step (cond, 0) r →
        g.flow r = branchTo c (body, 0) e → wiredSL (loopAround c step) true sts = true →
        (c.isSome = true → Stands g e k) →
        (p = (cond, 0) ∨ loopAround c step = .bareLoop ∧ p = (body, 0)) →
        Stands g p (.loop c step sts :: k)
  | goto {p p' : Point} {k : List (Item α)} :
      g.flow p = .goto p' → Stands g p' k → Stands g p k

section Simulation

variable {g : Func α} {w : Around} {fresh : Bool} {k : List (Item α)} {p q : Point}

theorem items_cons (st : Stmt α) (sts : List (Stmt α)) (k : List (Item α)) :
    items (st :: sts) ++ k = .stmt st :: (items sts ++ k) := rfl

/-- One statement on its own. -/
theorem laidSL_singleton {st : Stmt α} : LaidSL g [st] p q ↔ st.Laid g p q := by
  simp [LaidSL]

/-- A statement of its own, enclosed by nothing that matters. -/
theorem Stands.single {st : Stmt α} {e : Point} (hlaid : LaidSL g [st] p e)
    (hw : wiredSL .other true [st] = true) (he : fallsSL [st] = true → Stands g e k) :
    Stands g p (.stmt st :: k) :=
  .sl hlaid hw he (fun h => nomatch h)

/-- A branch's last block leaves for the end of the construct. -/
theorem Stands.exit {sts : List (Stmt α)} {x e : Point} {back : Point}
    (hx : g.flow x = exitTo (lastConstruct sts) e back) (hright : exitsRight sts = true)
    (hfall : fallsSL sts = true) (he : Stands g e k)
    (hback : lastConstruct sts = some .cond → Stands g back k) : Stands g x k := by
  cases hl : lastConstruct sts with
  | none =>
    rw [hl] at hx
    exact .goto hx he
  | some c =>
    rw [hl] at hx
    cases c with
    | cond => exact .goto hx (hback hl)
    | loop => simp [exitsRight, hl, hfall] at hright

/-- A statement's first action is the program's, and leads to where the rest
stands. -/
theorem Stmt.match {st : Stmt α} {final : Bool} (hlaid : st.Laid g p q)
    (hw : st.wired w fresh final = true) (hq : st.falls = true → Stands g q k)
    (hlink : w = .bareLoop → fresh = true → final = true → Stands g (p.1, 0) k) :
    Match (Stands g) (g.flow p) (run (.stmt st :: k)) := by
  cases st with
  | atom a =>
    rw [show g.flow p = .act a q from hlaid]
    exact .act (hq rfl)
  | ifN c sts =>
    obtain ⟨tt, x, hp, hsts, hx⟩ := hlaid
    simp only [Stmt.wired, ifExitsRight, Bool.and_eq_true] at hw
    obtain ⟨⟨hright, hback⟩, hsts'⟩ := hw
    rw [hp]
    refine .test (.sl hsts hsts' (fun hfall => ?_) (fun h => nomatch h)) (hq rfl)
    -- behind the body, where the exit is the right one
    refine .exit hx hright hfall (hq rfl) fun hl => ?_
    simp [hl, hfall] at hback
    exact hlink hback.2.1.1 hback.2.1.2 hback.2.2
  | ifElse c sts els =>
    obtain ⟨tt, tf, x, y, hp, hsts, hx, hels, hy⟩ := hlaid
    simp only [Stmt.wired, Bool.and_eq_true] at hw
    obtain ⟨⟨⟨hright, hright'⟩, hsts'⟩, hels'⟩ := hw
    rw [hp]
    refine .test (.sl hsts hsts' (fun hfall => ?_) (fun h => nomatch h))
      (.sl hels hels' (fun hfall => ?_) (fun h => nomatch h))
    · have hq' := hq (by simp [Stmt.falls, hfall])
      exact .exit hx hright hfall hq' fun _ => hq'
    · have hq' := hq (by simp [Stmt.falls, hfall])
      exact .exit hy hright' hfall hq' fun _ => hq'
  | forN init c step sts =>
    obtain ⟨q', body, cond, r, x, hinit, hq', hsts, hx, hstep, hr⟩ := hlaid
    have htest : Stands g q' (.stmt (.forN none c step sts) :: k) := by
      refine Stands.single (laidSL_singleton.mpr ⟨q', body, cond, r, x, rfl, hq', hsts, hx, hstep, hr⟩)
        ?_ ?_
      · simpa [wiredSL, Stmt.wired] using hw
      · intro hfall
        exact hq (by simpa [fallsSL, Stmt.falls] using hfall)
    -- the loop again, at its condition or, in a bare loop, at the start of its body
    have hloop : ∀ p', p' = (cond, 0) ∨ loopAround c step = .bareLoop ∧ p' = (body, 0) →
        Stands g p' (.loop c step sts :: k) := fun p' hp' =>
      .loop hsts hx hstep hr hw hq hp'
    have hbody : Stands g (body, 0) (items sts ++ .loop c step sts :: k) :=
      .sl hsts hw (fun _ => .goto hx (hloop _ (Or.inl rfl)))
        fun hbare _ => hloop _ (Or.inr ⟨hbare, rfl⟩)
    cases init with
    | some a =>
      rw [show g.flow p = .act a q' from hinit]
      exact .act htest
    | none =>
      obtain rfl : q' = p := hinit
      rw [hq']
      cases c with
      | some c => exact .test hbody (hq rfl)
      | none => exact .goto hbody
  | breakN | continueN | retN => exact hlaid.elim

/-- An action stays in its block. -/
theorem flow_act_iff {a : α} : g.flow p = .act a q ↔
    (g.block p.1).insts[p.2]? = some a ∧ q = (p.1, p.2 + 1) := by
  obtain ⟨b, i⟩ := p
  cases hi : (g.block b).insts[i]? with
  | some a' => simp [Func.flow, hi, eq_comm]
  | none =>
    simp only [Func.flow, hi]
    cases (g.block b).term with
    | none => simp
    | some t => cases t <;> simp

/-- Only a construct leaves the block it begins in. -/
theorem Stmt.Laid.same_block {st : Stmt α} (h : st.Laid g p q) (hc : st.construct = none) :
    q.1 = p.1 := by
  cases st with
  | atom a => rw [(flow_act_iff.mp h).2]
  | ifN | ifElse | forN => simp [Stmt.construct] at hc
  | breakN | continueN | retN => exact h.elim

/-- A list that is not empty acts at its first statement. -/
theorem matchSL {st : Stmt α} {sts : List (Stmt α)} {e : Point}
    (hlaid : LaidSL g (st :: sts) p e) (hw : wiredSL w fresh (st :: sts) = true)
    (he : fallsSL (st :: sts) = true → Stands g e k)
    (hlink : w = .bareLoop → fresh = true → Stands g (p.1, 0) k) :
    Match (Stands g) (g.flow p) (run (items (st :: sts) ++ k)) := by
  obtain ⟨q, hst, hsts⟩ := hlaid
  simp only [wiredSL, Bool.and_eq_true, Bool.or_eq_true, Bool.not_eq_true'] at hw
  rw [items_cons]
  refine Stmt.match hst hw.1 (fun hfall => ?_) (fun hbare hfresh hfinal => ?_)
  · refine .sl hsts (hw.2.resolve_left (by simp [hfall])) (fun hrest => ?_) ?_
    · exact he (by simp [fallsSL, hfall, hrest])
    · intro hbare hfresh
      simp only [Bool.and_eq_true, Option.isNone_iff_eq_none] at hfresh
      rw [hst.same_block hfresh.2]
      exact hlink hbare hfresh.1
  · rw [List.isEmpty_iff.mp hfinal]
    exact hlink hbare hfresh

/-- **The simulation**: where `k` stands, the graph and the program do the same
next, up to silent jumps. -/
theorem stands_bisim (g : Func α) : Bisim g.flow run (Stands g) := by
  intro p k h
  induction h with
  | ret hp => exact ⟨_, _, .refl _, .refl _, by rw [hp]; exact .ret⟩
  | goto hp _ ih =>
    obtain ⟨u, u', hu, hu', hm⟩ := ih
    exact ⟨u, u', .head hp hu, hu', hm⟩
  | @sl w fresh sts p e k hlaid hw he hlink ih =>
    cases sts with
    | nil =>
      obtain rfl : e = p := hlaid
      exact ih rfl
    | cons st sts => exact ⟨_, _, .refl _, .refl _, matchSL hlaid hw he hlink⟩
  | @loop c step sts p r x e body cond k hsts hx hstep hr hw he hp ih =>
    have hloop : ∀ p', p' = (cond, 0) ∨ loopAround c step = .bareLoop ∧ p' = (body, 0) →
        Stands g p' (.loop c step sts :: k) := fun p' hp' =>
      .loop hsts hx hstep hr hw he hp'
    have hlink : loopAround c step = .bareLoop → true = true →
        Stands g (body, 0) (.loop c step sts :: k) :=
      fun hbare _ => hloop _ (Or.inr ⟨hbare, rfl⟩)
    have hnext : fallsSL sts = true → Stands g x (.loop c step sts :: k) :=
      fun _ => .goto hx (hloop _ (Or.inl rfl))
    have hbody : Stands g (body, 0) (items sts ++ .loop c step sts :: k) :=
      .sl hsts hw hnext hlink
    rcases hp with rfl | ⟨hbare, rfl⟩
    · refine ⟨_, _, .refl _, .refl _, ?_⟩
      cases step with
      | some a =>
        rw [show g.flow (cond, 0) = .act a r from hstep]
        refine .act (Stands.single
          (laidSL_singleton.mpr ⟨r, body, cond, r, x, rfl, hr, hsts, hx, hstep, hr⟩) ?_ ?_)
        · simpa [wiredSL, Stmt.wired] using hw
        · intro hfall
          exact he (by simpa [fallsSL, Stmt.falls] using hfall)
      | none =>
        obtain rfl : r = (cond, 0) := hstep
        rw [hr]
        cases c with
        | some c => exact .test hbody (he rfl)
        | none => exact .goto hbody
    · -- a bare loop's body: the program has one more silent jump to make
      obtain ⟨rfl, rfl⟩ : c = none ∧ step = none := by
        cases c <;> cases step <;> simp [loopAround] at hbare ⊢
      cases sts with
      | nil =>
        obtain rfl : x = (body, 0) := hsts
        refine ⟨_, _, .refl _, .refl _, ?_⟩
        rw [hx]
        exact .goto (hloop _ (Or.inl rfl))
      | cons st sts =>
        exact ⟨_, _, .refl _, .single rfl, matchSL hsts hw hnext hlink⟩

end Simulation

/-! ## The finished function -/

theorem calcSL_append (parent : Option Nat) (xs ys : List (Stmt α)) (s : Scope) (f : Func α) :
    calcSL parent (xs ++ ys) s f =
      calcSL parent ys (calcSL parent xs s f).1 (calcSL parent xs s f).2 := by
  induction xs generalizing s f with
  | nil => rfl
  | cons st xs ih =>
    simp only [List.cons_append, calcSL]
    exact ih _ _

/-- The finished graph of `sts` and a final `return`: it lies from the entry to
that return, and only a jump to the start branches to the entry. -/
structure Compiled (sts : List (Stmt α)) (g : Func α) (e : Point) : Prop where
  laid : LaidSL g sts (0, 0) e
  ret : g.flow e = .ret
  entry : ∀ b < g.size, ∀ t, (g.block b).term = some t → 0 ∈ t.targets → jumpsToStart sts = true
  beyond : ∀ b, g.size ≤ b → g.block b = ⟨[], none⟩

theorem calcBody_compiled (parent : Option Nat) {sts : List (Stmt α)} (hp : plainSL sts = true) :
    ∃ e, Compiled sts (calcBody parent (sts ++ [.retN])) e := by
  have h := calcSL_emits parent sts ⟨0, none, none⟩ ⟨1, fun _ => ⟨[], none⟩, 0⟩ hp Nat.zero_lt_one
  rw [calcBody, calcSL_append]
  generalize calcSL parent sts ⟨0, none, none⟩ ⟨1, fun _ => ⟨[], none⟩, 0⟩ = r at h
  obtain ⟨s, f⟩ := r
  have hsize := h.size
  refine ⟨f.last s.block, ⟨?_, ?_, ?_, ?_⟩⟩
  · exact h.laid _ ⟨fun b hb hlt hne => by simp [calcSL, Stmt.calc, hne], by
      simp [calcSL, Stmt.calc]⟩
  · rw [Func.last, Func.flow_end (by simp [calcSL, Stmt.calc])]
    simp [calcSL, Stmt.calc, termAction]
  · intro b hb t ht h0
    simp only [calcSL, Stmt.calc, Func.setTerm_block, Func.setTerm_size] at hb ht
    by_cases hbs : b = s.block
    · simp only [hbs, if_true, Option.some.injEq] at ht
      subst ht
      simp [Term.targets] at h0
    · rw [if_neg hbs] at ht
      rcases h.target b (by simp; omega) hb hbs t ht 0 h0 with hle | ⟨-, hj⟩
      · simp at hle
      · exact hj
  · intro b hb
    have hlt : s.block < f.size := by
      rcases h.cur with ⟨hc, -⟩ | ⟨-, hc, -⟩
      · simp at hc
        simp at hsize
        omega
      · exact hc
    simp only [calcSL, Stmt.calc, Func.setTerm_block, Func.setTerm_size] at hb ⊢
    rw [if_neg (by omega), h.beyond b hb]

/-- Running to the end of a block. -/
theorem visits_end (g : Func α) (b : Nat) : ∀ n i, i + n = (g.block b).insts.length →
    g.flow.Visits (b, i) (g.last b)
  | 0, i, h => by
    obtain rfl : i = (g.block b).insts.length := by omega
    exact .refl _
  | n + 1, i, h => by
    obtain ⟨a, ha⟩ : ∃ a, (g.block b).insts[i]? = some a :=
      ⟨_, List.getElem?_eq_getElem (by omega)⟩
    exact .act (Func.flow_act ha) (visits_end g b n (i + 1) (by omega))

/-- Reachable blocks are visited. -/
theorem Func.Reach.visits {g : Func α} {b : Nat} (h : g.Reach b) :
    g.flow.Visits (0, 0) (b, 0) := by
  induction h with
  | entry => exact .refl _
  | @step b b' t _ ht hb' ih =>
    refine ih.trans ((visits_end g b _ 0 (Nat.zero_add _)).trans ?_)
    have hend : g.flow (g.last b) = termAction (some t) := by rw [Func.last, flow_end rfl, ht]
    cases t with
    | br b'' =>
      obtain rfl : b' = b'' := by simpa [Term.targets] using hb'
      exact .goto hend (.refl _)
    | condBr c y n =>
      rcases (by simpa [Term.targets] using hb' : b' = y ∨ b' = n) with rfl | rfl
      · exact .yes hend (.refl _)
      · exact .no hend (.refl _)
    | ret => simp [Term.targets] at hb'

theorem jumpsBack_of_wired {w : Around} {fresh final : Bool} {st : Stmt α}
    (h : st.wired w fresh final = true) (hw : w = .function) (hfresh : fresh = true) :
    st.jumpsBack = false := by
  subst hw hfresh
  cases st with
  | ifN c sts =>
    simp only [Stmt.wired, ifExitsRight] at h
    cases hl : lastConstruct sts == some .cond with
    | false => exact hl
    | true =>
      rw [beq_iff_eq] at hl
      simp [hl] at h
  | _ => rfl

/-- A body that is wired right never jumps to its own start. -/
theorem jumpsToStart_of_wired {sts : List (Stmt α)} (hp : plainSL sts = true)
    (h : wiredSL .function true sts = true) : jumpsToStart sts = false := by
  induction sts with
  | nil => rfl
  | cons st sts ih =>
    simp only [plainSL, Bool.and_eq_true] at hp
    simp only [wiredSL, Bool.and_eq_true, Bool.or_eq_true, Bool.not_eq_true'] at h
    simp only [jumpsToStart, jumpsBack_of_wired h.1 rfl rfl, Bool.false_or]
    cases hc : st.construct with
    | some c => rfl
    | none =>
      have hfall : st.falls = true := by
        cases st <;> simp [Stmt.construct, Stmt.plain] at hc hp ⊢
        rfl
      rw [hc] at h
      simpa using ih hp.2 (by simpa using h.2.resolve_left (by simp [hfall]))

/-- **The condition is enough.** -/
theorem wired_refines (parent : Option Nat) {sts : List (Stmt α)} (hp : plainSL sts = true)
    (h : wiredSL .function true sts = true) :
    Refines (calcBody parent (sts ++ [.retN])) (sts ++ [.retN]) := by
  obtain ⟨e, hc⟩ := calcBody_compiled parent hp
  generalize calcBody parent (sts ++ [.retN]) = g at hc
  have hstands : Stands g (0, 0) (items (sts ++ [.retN])) := by
    rw [items, List.map_append]
    exact .sl hc.laid h (fun _ => .ret hc.ret) (fun h => nomatch h)
  refine ⟨⟨fun b hb hnone => ?_, fun b hb t ht h0 => ?_⟩, (stands_bisim g).agree hstands⟩
  · have hv := hb.visits.trans (visits_end g b _ 0 (Nat.zero_add _))
    refine (stands_bisim g).not_stuck hstands hv ?_
    rw [Func.last, Func.flow_end rfl, hnone]
    rfl
  · cases (jumpsToStart_of_wired hp h).symm.trans (hc.entry b hb t ht h0)

end CalcLang.Ast
