import CalcLang.Ast.GeneratorLayout

/-!
# When the exhaustion of a generator is stable

A generator ends its last block with `ret false` and stores no address there, so a
further call goes on from the address of the last `yield`, or from the body's start: what
stands between there and the end is performed once more. `stepNext_stable_iff` says which
bodies have nothing there, or never reach the end.

A `return` stores no address either, and it is not the end: in the block that the body
ends in it is replaced by `ret false`, in a loop's body by the jump back, in front of
another construct by that construct's branch, and only at the end of a branch of an `if`
it stays, as `ret void`.
-/

namespace CalcLang.Ast.Generator

open CalcLang.Lib Resumable

variable {α : Type} {g : GFunc α} {p q e a : Place} {t : List (Event α)} {n : Nat}
  {d : Config α Place}

/-! ## From a list's start to its end -/

/-- From `p` on, in the call that started at `a` and performed `t`, `e` can be reached,
with something performed if `busy`. -/
def Gets (g : GFunc α) (a p : Place) (t : List (Event α)) (e : Place) (busy : Prop) : Prop :=
  ∃ a' t', Reaches g.code ⟨a, p, t⟩ ⟨a', e, t'⟩ ∧ (busy → t' ≠ [])

/-- An optional instruction can be passed, and takes back nothing. -/
theorem laidOpt_gets {x : Option α} (h : LaidOpt g x p e) (a : Place) (t : List (Event α)) :
    ∃ t', Reaches g.code ⟨a, p, t⟩ ⟨a, e, t'⟩ := by
  cases x with
  | none =>
    obtain ⟨-, rfl⟩ := h
    exact ⟨t, .refl _⟩
  | some x => exact ⟨_, .single (.act h.2)⟩

/-- A branch that falls through has performed something since the test in front. -/
theorem quietSL_of_falls {sts : List (GStmt α)}
    (h : tailSL .blank sts = .blank ∨ tailSL .blank sts = .joined) :
    quietSL false sts = false := by
  induction sts using List.reverseRecOn with
  | nil => rfl
  | append_singleton sts st _ =>
    simp only [tailSL, List.foldl_append, List.foldl_cons, List.foldl_nil] at h
    simp only [quietSL, List.foldl_append, List.foldl_cons, List.foldl_nil]
    cases st with
    | atom | ifN | ifElse | forN => rfl
    | yieldN => simp [GStmt.tail] at h
    | retN => simp [GStmt.tail] at h

/-- Both branches of an `if`/`else` that fall through go to its end. -/
theorem exit_falls {k : Tail} (h : k = .blank ∨ k = .joined) (hx : g.code p = exitTo e e k) :
    g.code p = .goto e := by
  rcases h with rfl | rfl
  · exact hx
  · exact hx

mutual

theorem gets_of_passes : ∀ (st : GStmt α) {p e : Place} (a : Place) (t : List (Event α))
    (b : Bool), Laid g st p e → st.passes = true → (b = false → t ≠ []) →
      Gets g a p t e (st.quiet b = false)
  | .atom x, p, e, a, t, b, hl, _, _ => ⟨a, _, .single (.act hl.1), fun _ => by simp⟩
  | .ifN c sts, p, e, a, t, b, hl, _, _ => by
    -- past the body
    obtain ⟨tt, x, hp, -⟩ := hl
    exact ⟨a, _, .single (.test false hp), fun _ => by simp⟩
  | .ifElse c sts els, p, e, a, t, b, hl, hpass, _ => by
    obtain ⟨tt, tf, x, y, hp, -, hsts, hx, hels, hy⟩ := hl
    simp only [GStmt.passes, Bool.or_eq_true, Bool.and_eq_true, beq_iff_eq] at hpass
    -- by a branch that is fallen through
    rcases hpass with ⟨hpass, hfalls⟩ | ⟨hpass, hfalls⟩
    · obtain ⟨a', t', hr, hbusy⟩ := getsSL_of_passes sts a (t ++ [.test c true]) false hsts hpass
        (fun _ => by simp)
      refine ⟨a', t', ?_, fun _ => hbusy (quietSL_of_falls hfalls)⟩
      exact (Reaches.single (.test true hp)).trans
        (hr.trans (.single (.goto (exit_falls hfalls hx))))
    · obtain ⟨a', t', hr, hbusy⟩ := getsSL_of_passes els a (t ++ [.test c false]) false hels hpass
        (fun _ => by simp)
      refine ⟨a', t', ?_, fun _ => hbusy (quietSL_of_falls hfalls)⟩
      exact (Reaches.single (.test false hp)).trans
        (hr.trans (.single (.goto (exit_falls hfalls hy))))
  | .forN init bool step sts, p, e, a, t, b, hl, hpass, _ => by
    obtain ⟨q, body, cond, r, x, hinit, hq, -⟩ := hl
    -- only a condition leaves the loop
    obtain ⟨c, rfl⟩ := Option.isSome_iff_exists.mp hpass
    obtain ⟨t', hr⟩ := laidOpt_gets hinit a t
    exact ⟨a, _, hr.trans (.single (.test false hq)), fun _ => by simp⟩
  | .yieldN x, p, e, a, t, b, hl, _, _ => by
    obtain ⟨q, hx, hq, -⟩ := hl
    obtain ⟨t', hr⟩ := laidOpt_gets hx a t
    exact ⟨e, [], hr.trans (.single (.suspend hq)), fun h => by cases h⟩
  | .retN, p, e, a, t, b, hl, _, ht => by
    obtain rfl : e = p := hl
    exact ⟨a, t, .refl _, ht⟩

theorem getsSL_of_passes : ∀ (sts : List (GStmt α)) {p e : Place} (a : Place)
    (t : List (Event α)) (b : Bool), LaidSL g sts p e → passesSL sts = true →
      (b = false → t ≠ []) → Gets g a p t e (quietSL b sts = false)
  | [], p, e, a, t, b, hl, _, ht => by
    obtain rfl : e = p := hl
    exact ⟨a, t, .refl _, ht⟩
  | st :: sts, p, e, a, t, b, hl, hpass, ht => by
    obtain ⟨q, hst, hsts⟩ := hl
    rw [passesSL, Bool.and_eq_true] at hpass
    obtain ⟨a₁, t₁, hr₁, hbusy₁⟩ := gets_of_passes st a t b hst hpass.1 ht
    obtain ⟨a₂, t₂, hr₂, hbusy₂⟩ := getsSL_of_passes sts a₁ t₁ (st.quiet b) hsts hpass.2 hbusy₁
    exact ⟨a₂, t₂, hr₁.trans hr₂, hbusy₂⟩

end

/-! ## From the end of a call back to a list's end -/

/-- A run to the end of a call that is at `p`, in the call that started at `a` and
performed `t`, comes by `e`, with nothing performed if `silent`. -/
def Passes (g : GFunc α) (n : Nat) (d : Config α Place) (e : Place) (silent : Prop) : Prop :=
  ∃ m ≤ n, ∃ a t, Ends g.code m ⟨a, e, t⟩ d ∧ (silent → t = [])

theorem Passes.mono {m : Nat} {s s' : Prop} (h : Passes g m d e s) (hmn : m ≤ n) (hs : s' → s) :
    Passes g n d e s' := by
  obtain ⟨k, hk, a, t, hends, ht⟩ := h
  exact ⟨k, hk.trans hmn, a, t, hends, fun h => ht (hs h)⟩

theorem laidOpt_passes {x : Option α} (hl : LaidOpt g x p e) (h : Ends g.code n ⟨a, p, t⟩ d) :
    ∃ m ≤ n, ∃ t', Ends g.code m ⟨a, e, t'⟩ d := by
  cases x with
  | none =>
    obtain ⟨-, rfl⟩ := hl
    exact ⟨n, le_refl n, t, h⟩
  | some x =>
    obtain ⟨m, hm, h⟩ := h.act hl.2
    exact ⟨m, hm.le, _, h⟩

/-- A block that is entered is performed up to its end. -/
theorem block_passes {b k : Nat} (hk : k ≤ (g.block b).insts.length)
    (h : Ends g.code n ⟨a, (b, (g.block b).insts.length - k), t⟩ d) :
    ∃ m ≤ n, ∃ t', Ends g.code m ⟨a, (b, (g.block b).insts.length), t'⟩ d := by
  induction k generalizing n t with
  | zero => exact ⟨n, le_refl n, t, h⟩
  | succ k ih =>
    have hlt : (g.block b).insts.length - (k + 1) < (g.block b).insts.length := by omega
    obtain ⟨m, hm, h⟩ := h.act (code_act (List.getElem?_eq_getElem hlt))
    have hnext : (g.block b).insts.length - (k + 1) + 1 = (g.block b).insts.length - k := by omega
    rw [hnext] at h
    obtain ⟨m', hm', t', h⟩ := ih (by omega) h
    exact ⟨m', by omega, t', h⟩

/-- What the statements of a branch or body are known to do. -/
def ListPasses (g : GFunc α) (sts : List (GStmt α)) (p e : Place) : Prop :=
  ∀ n a t d b, Ends g.code n ⟨a, p, t⟩ d → (b = true → t = []) →
    passesSL sts = true ∧ Passes g n d e (quietSL b sts = true)

/-- An `if` is left through its condition, possibly after its body went back to the block
in front. -/
theorem ifN_passes {c : α} {sts : List (GStmt α)}
    (hsts : ∀ p e, LaidSL g sts p e → ListPasses g sts p e) (hl : Laid g (.ifN c sts) p e)
    (h : Ends g.code n ⟨a, p, t⟩ d) : Passes g n d e False := by
  obtain ⟨tt, x, hp, hlen, -, hbody, hx⟩ := hl
  induction n using Nat.strong_induction_on generalizing a t with
  | _ n ih =>
    obtain ⟨m, hm, b, h⟩ := h.test hp
    cases b with
    | false => exact ⟨m, hm.le, a, _, h, False.elim⟩
    | true =>
      obtain ⟨-, k, hk, a', t', h, -⟩ := hsts _ _ hbody m a _ d false h (fun h => by cases h)
      cases htail : tailSL .blank sts with
      | blank =>
        rw [htail] at hx
        obtain ⟨j, hj, h⟩ := h.goto hx
        exact ⟨j, by omega, a', t', h, False.elim⟩
      | joined =>
        rw [htail] at hx
        obtain ⟨j, hj, h⟩ := h.goto hx
        have h₀ : Ends g.code j
            ⟨a', (p.1, (g.block p.1).insts.length - (g.block p.1).insts.length), t'⟩ d := by
          rwa [Nat.sub_self]
        obtain ⟨i, hi, t'', h⟩ := block_passes (le_refl _) h₀
        rw [← hlen] at h
        exact (ih i (by omega) h).mono (by omega) id
      | cut | void =>
        rw [htail] at hx
        exact (h.not_crash hx).elim

/-- A branch of an `if`/`else` that is left at all falls through to the end. -/
theorem branch_passes {sts : List (GStmt α)} {x : Place} (hsts : ListPasses g sts p x)
    (hx : g.code x = exitTo e e (tailSL .blank sts)) (h : Ends g.code n ⟨a, p, t⟩ d) :
    (passesSL sts && (tailSL .blank sts == .blank || tailSL .blank sts == .joined)) = true ∧
      Passes g n d e False := by
  obtain ⟨hpass, k, hk, a', t', h, -⟩ := hsts n a t d false h (fun h => by cases h)
  cases htail : tailSL .blank sts with
  | blank | joined =>
    rw [htail] at hx
    obtain ⟨j, hj, h⟩ := h.goto hx
    exact ⟨by rw [hpass]; rfl, j, by omega, a', t', h, False.elim⟩
  | cut | void =>
    rw [htail] at hx
    exact (h.not_crash hx).elim

/-- A loop is left through its condition, if it has one. -/
theorem body_passes {c step : Option α} {sts : List (GStmt α)} {body cond : Nat} {r x : Place}
    (hsts : ListPasses g sts (body, 0) x) (hx : g.code x = .goto (cond, 0))
    (hstep : LaidOpt g step (cond, 0) r) (hr : g.code r = branchTo (body, 0) e c)
    (h : Ends g.code n ⟨a, (body, 0), t⟩ d) : c.isSome = true ∧ Passes g n d e False := by
  induction n using Nat.strong_induction_on generalizing a t with
  | _ n ih =>
    obtain ⟨-, k, hk, a', t', h, -⟩ := hsts n a t d false h (fun h => by cases h)
    obtain ⟨j, hj, h⟩ := h.goto hx
    obtain ⟨i, hi, t'', h⟩ := laidOpt_passes hstep h
    cases c with
    | none =>
      obtain ⟨m, hm, h⟩ := h.goto hr
      exact ⟨(ih m (by omega) h).1, (ih m (by omega) h).2.mono (by omega) id⟩
    | some c =>
      obtain ⟨m, hm, b, h⟩ := h.test hr
      cases b with
      | false => exact ⟨rfl, m, by omega, a', _, h, False.elim⟩
      | true => exact ⟨rfl, (ih m (by omega) h).2.mono (by omega) id⟩

mutual

theorem passes_of_ends : ∀ (st : GStmt α) {p e : Place}, Laid g st p e → ∀ n a t d b,
    Ends g.code n ⟨a, p, t⟩ d → (b = true → t = []) →
      st.passes = true ∧ Passes g n d e (st.quiet b = true)
  | .atom x, p, e, hl, n, a, t, d, b, h, _ => by
    obtain ⟨m, hm, h⟩ := h.act hl.1
    exact ⟨rfl, m, hm.le, a, _, h, fun h => by cases h⟩
  | .ifN c sts, p, e, hl, n, a, t, d, b, h, _ =>
    ⟨rfl, (ifN_passes (fun _ _ hsts => passesSL_of_ends sts hsts) hl h).mono (le_refl n)
      fun h => by cases h⟩
  | .ifElse c sts els, p, e, hl, n, a, t, d, b, h, _ => by
    obtain ⟨tt, tf, x, y, hp, -, hsts, hx, hels, hy⟩ := hl
    obtain ⟨m, hm, b, h⟩ := h.test hp
    cases b with
    | true =>
      obtain ⟨hpass, hlast⟩ := branch_passes (passesSL_of_ends sts hsts) hx h
      exact ⟨by rw [GStmt.passes, hpass, Bool.true_or], hlast.mono hm.le fun h => by cases h⟩
    | false =>
      obtain ⟨hpass, hlast⟩ := branch_passes (passesSL_of_ends els hels) hy h
      exact ⟨by rw [GStmt.passes, hpass, Bool.or_true], hlast.mono hm.le fun h => by cases h⟩
  | .forN init c step sts, p, e, hl, n, a, t, d, b, h, _ => by
    obtain ⟨q, body, cond, r, x, hinit, hq, -, hsts, hx, hstep, hr⟩ := hl
    obtain ⟨m, hm, t', h⟩ := laidOpt_passes hinit h
    have hbody := fun m a t => body_passes (n := m) (a := a) (t := t) (d := d)
      (passesSL_of_ends sts hsts) hx hstep hr
    cases c with
    | none =>
      obtain ⟨k, hk, h⟩ := h.goto hq
      -- without a condition the loop is never left
      cases (hbody k a t' h).1
    | some c =>
      obtain ⟨k, hk, b, h⟩ := h.test hq
      cases b with
      | false => exact ⟨rfl, k, by omega, a, _, h, fun h => by cases h⟩
      | true => exact ⟨rfl, (hbody k a _ h).2.mono (by omega) fun h => by cases h⟩
  | .yieldN x, p, e, hl, n, a, t, d, b, h, _ => by
    obtain ⟨q, hx, hq, -⟩ := hl
    obtain ⟨m, hm, t', h⟩ := laidOpt_passes hx h
    obtain ⟨k, hk, h⟩ := h.suspend hq
    exact ⟨rfl, k, by omega, e, [], h, fun _ => rfl⟩
  | .retN, p, e, hl, n, a, t, d, b, h, ht => by
    obtain rfl : e = p := hl
    exact ⟨rfl, n, le_refl n, a, t, h, ht⟩

theorem passesSL_of_ends : ∀ (sts : List (GStmt α)) {p e : Place}, LaidSL g sts p e →
    ListPasses g sts p e
  | [], p, e, hl, n, a, t, d, b, h, ht => by
    obtain rfl : e = p := hl
    exact ⟨rfl, n, le_refl n, a, t, h, ht⟩
  | st :: sts, p, e, hl, n, a, t, d, b, h, ht => by
    obtain ⟨q, hst, hsts⟩ := hl
    obtain ⟨hpass₁, m, hm, a₁, t₁, h₁, ht₁⟩ := passes_of_ends st hst n a t d b h ht
    obtain ⟨hpass₂, hlast⟩ := passesSL_of_ends sts hsts m a₁ t₁ d (st.quiet b) h₁ ht₁
    exact ⟨by rw [passesSL, hpass₁, hpass₂]; rfl, hlast.mono hm id⟩

end

/-! ## The generator -/

/-- The code generator's last block, which `ret false` is put behind. -/
theorem stepNext_emits (parent : Option Nat) (body : List (GStmt α)) :
    ∃ s f, Emits parent body 0 ⟨1, fun _ => ⟨[], none⟩⟩ s f ∧
      stepNext parent body = f.setTerm s .retFalse :=
  ⟨_, _, calcSL_emits parent body 0 _ Nat.one_pos, rfl⟩

/-- The body of `StepNext` lies between its first block and a place where it is done. -/
theorem stepNext_laid (parent : Option Nat) (body : List (GStmt α)) :
    ∃ e, LaidSL (stepNext parent body) body (0, 0) e ∧ (stepNext parent body).code e = .done := by
  obtain ⟨s, f, h, hg⟩ := stepNext_emits parent body
  rw [hg]
  refine ⟨last f s, h.laid _ ⟨fun b _ _ hne => by simp [hne], by simp⟩, ?_⟩
  rw [last, code_end (by simp), setTerm_block, if_pos rfl]
  rfl

/-- `StepNext` has a `ret void` exactly if its body is not tidy. -/
theorem stepNext_typed (parent : Option Nat) (body : List (GStmt α)) :
    (∀ b < (stepNext parent body).size, ((stepNext parent body).block b).term ≠ some .retVoid) ↔
      tidySL body = true := by
  obtain ⟨s, f, h, hg⟩ := stepNext_emits parent body
  rw [hg, ← h.void]
  simp only [setTerm_size, setTerm_block]
  constructor
  · intro hall b _ hlt hne
    have := hall b hlt
    rwa [if_neg hne] at this
  · intro hall b hlt
    by_cases hne : b = s
    · rw [if_pos hne]
      simp
    · rw [if_neg hne]
      exact hall b (by omega) hlt hne

/-- Behind a call that is done every call is done at once, exactly if the body cannot be
passed, or performs nothing between its last `yield` and its end. -/
theorem stepNext_exhausts (parent : Option Nat) (body : List (GStmt α)) :
    Exhausts (stepNext parent body).code (0, 0) ↔
      passesSL body = false ∨ quietSL true body = true := by
  obtain ⟨e, hl, he⟩ := stepNext_laid parent body
  rw [exhausts_iff]
  constructor
  · intro hall
    by_contra hcon
    obtain ⟨hpass, hquiet⟩ := not_or.mp hcon
    obtain ⟨a, t, hr, ht⟩ := getsSL_of_passes body (0, 0) [] true hl (by simpa using hpass)
      (fun h => by cases h)
    exact ht (by simpa using hquiet) (hall _ hr he)
  · rintro hcond c ⟨n, hn⟩ hc
    obtain ⟨hpass, m, -, a, t, h, ht⟩ := passesSL_of_ends body hl n (0, 0) [] c true ⟨hn, hc⟩
      (fun _ => rfl)
    rw [h.eq_of_done he]
    rcases hcond with hcond | hcond
    · rw [hpass] at hcond
      cases hcond
    · exact ht hcond

end CalcLang.Ast.Generator

namespace CalcLang.Ast

open CalcLang.Lib Resumable

variable {α : Type}

/-- **When the exhaustion of a generator is stable.** No branch of an `if` ends with a bare
`return`, and the body either never reaches its end or has nothing but bare `return`s
behind its last `yield`. -/
theorem stepNext_stable_iff (parent : Option Nat) (body : List (GStmt α)) :
    (stepNext parent body).Stable ↔
      tidySL body = true ∧ (passesSL body = false ∨ quietSL true body = true) := by
  rw [← Generator.stepNext_typed parent body, ← Generator.stepNext_exhausts parent body]
  exact ⟨fun h => ⟨h.typed, h.exhausts⟩, fun h => ⟨h.1, h.2⟩⟩

/-- A generator that counts to one and then assigns: its last statement is performed again
by every further call. -/
theorem count_not_stable :
    ¬ (stepNext none [.yieldN (some "1"), .atom "done = true"]).Stable := by
  intro h
  have hcond := (Generator.stepNext_exhausts _ _).mp h.exhausts
  revert hcond
  decide

end CalcLang.Ast
