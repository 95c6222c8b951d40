import CalcLang.Parser.Headers

/-!
# Statements

`statement` tries its alternatives in turn; what is printed is taken by the one for it.
Behind an `if`, a loop, an assignment and a `return` with a value the newline is left, and is
an `EmptyNode` of its own.

`statementList` reads a list of statements as it should, up to `EmptyNode`s, exactly if no
header in it is ambiguous (`statements_round_trip`). In front of an ambiguous header no
alternative is taken, and the statement is an `ErrSTNode`.
-/

namespace CalcLang.Parser

open CalcLang.Lex CalcLang.Lib

variable {p : Parser} {f : Rec} {w s r t u : Text} {c : TokenType} {k n q : Nat} {e : Exp}
  {body : List Stmt}

/-! ## Alternatives -/

section Alternatives

/-- The alternatives from `assign` on. -/
def fromAssign (p : Parser) (f : Rec) (ch1 : Lexer) : P Node :=
  runWithCatch (p.assign f) <|> runWithCatch (p.define f) <|> runWithCatch (p.returnST f) <|>
    p.otherStatement f ch1

/-- The alternatives from `defineAndAssign` on. -/
def fromDefine (p : Parser) (f : Rec) (ch1 : Lexer) : P Node :=
  runWithCatch (p.defineAndAssign f) <|> runWithCatch (p.ifstatement f) <|> fromAssign p f ch1

theorem first_refuses {α : Type} {code : TokenType} {f : Text → P α} (h : Next s c t r)
    (hlg : code ≠ .lg) (hc : c ≠ code) : (scanType code >>= f).Refuses ⟨s, q⟩ :=
  (scanType_refuses h hlg hc).bind

theorem continueST_refuses (h : Next s c t r) (hc : c ≠ .resCo) : continueST.Refuses ⟨s, q⟩ :=
  first_refuses h (by decide) hc

theorem breakST_refuses (h : Next s c t r) (hc : c ≠ .resBr) : breakST.Refuses ⟨s, q⟩ :=
  first_refuses h (by decide) hc

theorem yield_refuses (h : Next s c t r) (hc : c ≠ .resYield) : (p.yield f).Refuses ⟨s, q⟩ :=
  first_refuses h (by decide) hc

theorem forloop_refuses (h : Next s c t r) (hc : c ≠ .resFor) : (p.forloop f).Refuses ⟨s, q⟩ :=
  first_refuses h (by decide) hc

theorem ifstatement_refuses (h : Next s c t r) (hc : c ≠ .resIf) :
    (p.ifstatement f).Refuses ⟨s, q⟩ :=
  first_refuses h (by decide) hc

theorem returnST_refuses (h : Next s c t r) (hc : c ≠ .resRet) : (p.returnST f).Refuses ⟨s, q⟩ :=
  first_refuses h (by decide) hc

theorem define_refuses (h : Next s c t r) (hc : c ≠ .resVar) : (p.define f).Refuses ⟨s, q⟩ :=
  (first_refuses h (by decide) hc).rewinding.bind

/-- A statement that begins with none of the keywords of the first alternatives. -/
theorem statement_fromDefine (h : Next s c t r)
    (hc : c ∉ [.resAwait, .resCo, .resBr, .resYield, .resFor]) :
    (p.statement f).run ⟨s, q⟩ =
      ((fromDefine p f ⟨s, q⟩).recovering (p.errST f)).run ⟨s, q⟩ := by
  simp only [List.mem_cons, List.not_mem_nil, or_false, not_or] at hc
  obtain ⟨hawait, hco, hbr, hyield, hfor⟩ := hc
  unfold Parser.statement
  rw [Back.recovering_run, Back.recovering_run, Back.bind_run, Back.here_run, Run.andThen_ok,
    Back.bind_run, sees_false h (by decide) hawait, Run.andThen_ok, if_neg Bool.false_ne_true,
    runWithCatch_orElse (continueST_refuses h hco), runWithCatch_orElse (breakST_refuses h hbr),
    runWithCatch_orElse (yield_refuses h hyield), runWithCatch_orElse (forloop_refuses h hfor)]
  rfl

theorem recovering_ok {α : Type} {x y : P α} {a : α} {l l' : Lexer} (h : x.run l = .ok a l') :
    (x.recovering y).run l = .ok a l' := by
  rw [Back.recovering_run, h, Run.andThen_ok]

theorem define_statement {a : Node} {l : Lexer} (h : Next s .resVar t r)
    (hdef : (p.defineAndAssign f).Refuses ⟨s, q⟩) (hf : 0 < f.fuel)
    (ha : (p.define f).run ⟨s, q⟩ = .ok a l) : (p.statement f).run ⟨s, q⟩ = .ok a l := by
  obtain ⟨e, he⟩ := assign_refuses (p := p) (q := q) h (by decide) hf
  rw [statement_fromDefine h (by decide)]
  unfold fromDefine fromAssign
  refine recovering_ok ?_
  rw [runWithCatch_orElse hdef, runWithCatch_orElse (ifstatement_refuses h (by decide)),
    runWithCatch_orElse (Back.refuses_of_err he), orElse_ok (runWithCatch_ok ha)]

theorem deas_statement {a : Node} {l : Lexer} (h : Next s .var t r)
    (ha : (p.defineAndAssign f).run ⟨s, q⟩ = .ok a l) :
    (p.statement f).run ⟨s, q⟩ = .ok a l := by
  rw [statement_fromDefine h (by decide)]
  exact recovering_ok (orElse_ok (runWithCatch_ok ha))

theorem assign_statement {a : Node} {l : Lexer} (h : Next s c t r) (hc : c = .mul ∨ c = .var)
    (hdef : (p.defineAndAssign f).Refuses ⟨s, q⟩) (ha : (p.assign f).run ⟨s, q⟩ = .ok a l) :
    (p.statement f).run ⟨s, q⟩ = .ok a l := by
  have hcode : c ∉ [.resAwait, .resCo, .resBr, .resYield, .resFor] ∧ c ≠ .resIf := by
    rcases hc with rfl | rfl <;> decide
  rw [statement_fromDefine h hcode.1]
  unfold fromDefine fromAssign
  refine recovering_ok ?_
  rw [runWithCatch_orElse hdef, runWithCatch_orElse (ifstatement_refuses h hcode.2),
    orElse_ok (runWithCatch_ok ha)]

theorem call_statement {a : Node} (h : Next s .var t r)
    (hdef : (p.defineAndAssign f).Refuses ⟨s, q⟩) (hassign : (p.assign f).Refuses ⟨s, q⟩)
    (hcall : (p.callFunc f).run ⟨s, q⟩ = .ok a ⟨'\n' :: u, q⟩) :
    (p.statement f).run ⟨s, q⟩ = .ok a ⟨u, q⟩ := by
  rw [statement_fromDefine h (by decide)]
  unfold fromDefine fromAssign
  refine recovering_ok ?_
  rw [runWithCatch_orElse hdef, runWithCatch_orElse (ifstatement_refuses h (by decide)),
    runWithCatch_orElse hassign, runWithCatch_orElse (define_refuses h (by decide)),
    runWithCatch_orElse (returnST_refuses h (by decide))]
  unfold otherStatement
  simp [scan_run h, hcall, empty_run (next_newline u)]

/-- A statement that begins with neither a name nor one of the keywords. -/
theorem statement_other (h : Next s c t r) (hf : 0 < f.fuel)
    (hc : c ∉ [.resAwait, .resCo, .resBr, .resYield, .resFor, .resVar, .var, .resIf, .mul, .resRet]) :
    (p.statement f).run ⟨s, q⟩ =
      ((p.otherStatement f ⟨s, q⟩).recovering (p.errST f)).run ⟨s, q⟩ := by
  simp only [List.mem_cons, List.not_mem_nil, or_false, not_or] at hc
  obtain ⟨hawait, hco, hbr, hyield, hfor, hresVar, hvar, hif, hmul, hret⟩ := hc
  obtain ⟨e, he⟩ := assign_refuses (p := p) (q := q) h (by simp [hmul, hvar]) hf
  rw [statement_fromDefine h (by simp [hawait, hco, hbr, hyield, hfor])]
  unfold fromDefine fromAssign
  rw [Back.recovering_run, Back.recovering_run,
    runWithCatch_orElse (defineAndAssign_refuses h (by simp [hresVar, hvar])),
    runWithCatch_orElse (ifstatement_refuses h hif), runWithCatch_orElse (Back.refuses_of_err he),
    runWithCatch_orElse (define_refuses h hresVar), runWithCatch_orElse (returnST_refuses h hret)]

/-- A blank line. -/
theorem blank_statement (hf : 0 < f.fuel) :
    (p.statement f).run ⟨'\n' :: u, q⟩ = .ok .empty ⟨u, q⟩ := by
  have h := next_newline u
  rw [statement_other h hf (by decide)]
  refine recovering_ok ?_
  unfold otherStatement
  simp [scan_run h, empty_run h]

theorem return_statement {a : Node} {l : Lexer} (h : Next s .resRet t r) (hf : 0 < f.fuel)
    (ha : (p.returnST f).run ⟨s, q⟩ = .ok a l) : (p.statement f).run ⟨s, q⟩ = .ok a l := by
  obtain ⟨e, he⟩ := assign_refuses (p := p) (q := q) h (by decide) hf
  rw [statement_fromDefine h (by decide)]
  unfold fromDefine fromAssign
  refine recovering_ok ?_
  rw [runWithCatch_orElse (defineAndAssign_refuses h (by decide)),
    runWithCatch_orElse (ifstatement_refuses h (by decide)),
    runWithCatch_orElse (Back.refuses_of_err he),
    runWithCatch_orElse (define_refuses h (by decide)), orElse_ok (runWithCatch_ok ha)]

theorem if_statement {a : Node} {l : Lexer} (h : Next s .resIf t r)
    (ha : (p.ifstatement f).run ⟨s, q⟩ = .ok a l) : (p.statement f).run ⟨s, q⟩ = .ok a l := by
  rw [statement_fromDefine h (by decide)]
  unfold fromDefine
  refine recovering_ok ?_
  rw [runWithCatch_orElse (defineAndAssign_refuses h (by decide)), orElse_ok (runWithCatch_ok ha)]

/-- The alternatives from the first one on. -/
def fromContinue (p : Parser) (f : Rec) (ch1 : Lexer) : P Node :=
  runWithCatch continueST <|> runWithCatch breakST <|> runWithCatch (p.yield f) <|>
    runWithCatch (p.forloop f) <|> fromDefine p f ch1

theorem statement_fromContinue (h : Next s c t r) (hc : c ≠ .resAwait) : (p.statement f).run ⟨s, q⟩ =
    ((fromContinue p f ⟨s, q⟩).recovering (p.errST f)).run ⟨s, q⟩ := by
  unfold Parser.statement
  rw [Back.recovering_run, Back.recovering_run, Back.bind_run, Back.here_run, Run.andThen_ok,
    Back.bind_run, sees_false h (by decide) hc, Run.andThen_ok, if_neg Bool.false_ne_true]
  rfl

theorem continue_statement (h : Next s .resCo t ('\n' :: u)) :
    (p.statement f).run ⟨s, q⟩ = .ok .continueST ⟨u, q⟩ := by
  have hrun : continueST.run ⟨s, q⟩ = .ok .continueST ⟨u, q⟩ := by
    unfold continueST
    simp [scanType_run h, empty_run (next_newline u)]
  rw [statement_fromContinue h (by decide)]
  exact recovering_ok (orElse_ok (runWithCatch_ok hrun))

theorem break_statement (h : Next s .resBr t ('\n' :: u)) :
    (p.statement f).run ⟨s, q⟩ = .ok .breakST ⟨u, q⟩ := by
  have hrun : breakST.run ⟨s, q⟩ = .ok .breakST ⟨u, q⟩ := by
    unfold breakST
    simp [scanType_run h, empty_run (next_newline u)]
  rw [statement_fromContinue h (by decide)]
  unfold fromContinue
  refine recovering_ok ?_
  rw [runWithCatch_orElse (continueST_refuses h (by decide)), orElse_ok (runWithCatch_ok hrun)]

theorem for_statement {a : Node} {l : Lexer} (h : Next s .resFor t r)
    (ha : (p.forloop f).run ⟨s, q⟩ = .ok a l) : (p.statement f).run ⟨s, q⟩ = .ok a l := by
  rw [statement_fromContinue h (by decide)]
  unfold fromContinue
  refine recovering_ok ?_
  rw [runWithCatch_orElse (continueST_refuses h (by decide)),
    runWithCatch_orElse (breakST_refuses h (by decide)),
    runWithCatch_orElse (yield_refuses h (by decide)), orElse_ok (runWithCatch_ok ha)]

end Alternatives

/-! ## Statements that cannot be parsed -/

section Errors

variable {Q : Node → Prop}

theorem errST_returns (hQ : ∀ ln src, Q (.errST ln src)) (l : Lexer) :
    (p.errST f).Returns l Q := by
  unfold Parser.errST
  refine Back.returns_bind fun a s' => ?_
  exact Back.returns_pure (hQ a.2 a.1)

/-- A keyword is left to the last alternative. -/
theorem other_returns (h : Next s c t r) (hc : c ∉ [.var, .nl]) (hQ : ∀ ln src, Q (.errST ln src))
    (ch1 : Lexer) : (p.otherStatement f ch1).Returns ⟨s, q⟩ Q := by
  simp only [List.mem_cons, List.not_mem_nil, or_false, not_or] at hc
  unfold otherStatement
  refine Back.Returns.after Back.here_run (Back.Returns.after (scan_run h) ?_)
  show Back.Returns (if c = .var then _ else if c = .nl then _ else _) _ _
  rw [if_neg hc.1, if_neg hc.2]
  exact Back.Returns.after Back.goback_run (errST_returns hQ ch1)

/-- Behind `ifstatement` no alternative takes an `if`. -/
theorem if_returns (h : Next s .resIf t r) (hf : 0 < f.fuel) (hQ : ∀ ln src, Q (.errST ln src))
    (hif : (p.ifstatement f).Returns ⟨s, q⟩ Q) : (p.statement f).Returns ⟨s, q⟩ Q := by
  obtain ⟨e, he⟩ := assign_refuses (p := p) (q := q) h (by decide) hf
  have hlast : (fromAssign p f ⟨s, q⟩).Returns ⟨s, q⟩ Q := by
    unfold Back.Returns fromAssign
    rw [runWithCatch_orElse (Back.refuses_of_err he),
      runWithCatch_orElse (define_refuses h (by decide)),
      runWithCatch_orElse (returnST_refuses h (by decide))]
    exact other_returns h (by decide) hQ _
  unfold Back.Returns
  rw [statement_fromDefine h (by decide)]
  refine Back.Returns.recovering ?_ (errST_returns hQ _)
  unfold Back.Returns fromDefine
  rw [runWithCatch_orElse (defineAndAssign_refuses h (by decide))]
  exact hif.catching hlast

/-- Nor a loop. -/
theorem for_returns (h : Next s .resFor t r) (hf : 0 < f.fuel) (hQ : ∀ ln src, Q (.errST ln src))
    (hfor : (p.forloop f).Returns ⟨s, q⟩ Q) : (p.statement f).Returns ⟨s, q⟩ Q := by
  obtain ⟨e, he⟩ := assign_refuses (p := p) (q := q) h (by decide) hf
  have hlast : (fromDefine p f ⟨s, q⟩).Returns ⟨s, q⟩ Q := by
    unfold Back.Returns fromDefine fromAssign
    rw [runWithCatch_orElse (defineAndAssign_refuses h (by decide)),
      runWithCatch_orElse (ifstatement_refuses h (by decide)),
      runWithCatch_orElse (Back.refuses_of_err he),
      runWithCatch_orElse (define_refuses h (by decide)),
      runWithCatch_orElse (returnST_refuses h (by decide))]
    exact other_returns h (by decide) hQ _
  unfold Back.Returns
  rw [statement_fromContinue h (by decide)]
  refine Back.Returns.recovering ?_ (errST_returns hQ _)
  unfold Back.Returns fromContinue
  rw [runWithCatch_orElse (continueST_refuses h (by decide)),
    runWithCatch_orElse (breakST_refuses h (by decide)),
    runWithCatch_orElse (yield_refuses h (by decide))]
  exact hfor.catching hlast

end Errors

/-! ## Lines -/

section Lines

variable {d : Stmt} {ds : List Stmt} {acc : List Node}

/-- The statement is read in its line, and the newline with it or not. -/
def LineOk (p : Parser) (d : Stmt) : Prop :=
  ∀ u n q, (d.text ++ '\n' :: u).length ≤ n → ∃ a s',
    (p.statement (p.depth n)).run ⟨d.text ++ '\n' :: u, q⟩ = .ok a ⟨s', q⟩ ∧
      (s' = u ∨ d.text ≠ [] ∧ s' = '\n' :: u) ∧ eraseNodes [a] = eraseNodes [d.tree p]

/-- Whatever the statement is read as, it is not what it should be. -/
def LineFails (p : Parser) (d : Stmt) : Prop :=
  ∀ u n q, (d.text ++ '\n' :: u).length ≤ n →
    (p.statement (p.depth n)).Returns ⟨d.text ++ '\n' :: u, q⟩
      fun a => a ≠ .empty ∧ a.erase ≠ (d.tree p).erase

theorem lineOk_blank : LineOk p .blank := by
  intro u n q _
  exact ⟨.empty, u, blank_statement (depth_pos p n), .inl rfl, rfl⟩

theorem statementListTurn_run {a : Node} {l : Lexer} (ha : (p.statement f).run l = .ok a ⟨s, q⟩)
    (h : Next s c t r) (acc : List Node) : (p.statementListTurn f acc).run l =
      if c = .rb then .ok (.inr (acc ++ [a])) ⟨s, q⟩ else .ok (.inl (acc ++ [a])) ⟨s, q⟩ := by
  unfold statementListTurn
  by_cases hc : c = .rb
  · simp [ha, scan_run h, hc]
  · simp [ha, scan_run h, hc]

/-- One line is read in one turn of the loop, or in two. -/
theorem line_step (hd : LineOk p d) (h : Next u c t r) {m : Nat}
    (hn : (d.text ++ '\n' :: u).length ≤ n) (hm : d.text.length + 1 ≤ m) (acc : List Node) :
    ∃ as m', m ≤ m' + (d.text.length + 1) ∧ eraseNodes as = eraseNodes [d.tree p] ∧
      (Back.iterate (p.statementListTurn (p.depth n)) m acc).run ⟨d.text ++ '\n' :: u, q⟩ =
        if c = .rb then .ok (acc ++ as) ⟨u, q⟩
        else (Back.iterate (p.statementListTurn (p.depth n)) m' (acc ++ as)).run ⟨u, q⟩ := by
  obtain ⟨m, rfl⟩ : ∃ k, m = k + 1 := ⟨m - 1, by omega⟩
  obtain ⟨a, s', ha, hs', htree⟩ := hd u n q hn
  rcases hs' with rfl | ⟨hne, rfl⟩
  · refine ⟨[a], m, by omega, htree, ?_⟩
    have hturn := statementListTurn_run ha h acc
    split
    next hc =>
      rw [if_pos hc] at hturn
      exact Back.iterate_last hturn m
    next hc =>
      rw [if_neg hc] at hturn
      exact Back.iterate_next hturn m
  · -- the newline that is left is a statement of its own
    have hlen := List.length_pos_of_ne_nil hne
    obtain ⟨m, rfl⟩ : ∃ k, m = k + 1 := ⟨m - 1, by omega⟩
    have hfirst := statementListTurn_run ha (next_newline u) acc
    rw [if_neg (by decide)] at hfirst
    have hsecond := statementListTurn_run (blank_statement (p := p) (q := q) (u := u) (depth_pos p n))
      h (acc ++ [a])
    refine ⟨[a] ++ [.empty], m, by omega, ?_, ?_⟩
    · rw [eraseNodes_append, eraseNodes_empty, htree]
      exact List.append_nil _
    · rw [Back.iterate_next hfirst, ← List.append_assoc]
      split
      next hc =>
        rw [if_pos hc] at hsecond
        exact Back.iterate_last hsecond m
      next hc =>
        rw [if_neg hc] at hsecond
        exact Back.iterate_next hsecond m

/-- A list does not end in front of a line. -/
theorem lines_next (d : Stmt) (ds : List Stmt) (s : Text) :
    ∃ c t r, Next (linesText (d :: ds) ++ s) c t r ∧ c ≠ .rb := by
  have htext : linesText (d :: ds) ++ s = d.text ++ '\n' :: (linesText ds ++ s) := by
    simp [linesText]
  rw [htext]
  cases hd : d.isBlank with
  | true =>
    obtain rfl := d.eq_blank hd
    exact ⟨.nl, _, _, next_newline _, by decide⟩
  | false =>
    obtain ⟨c, t, r, hnext, hc, -⟩ := d.first hd (linesText ds ++ s)
    refine ⟨c, t, r, hnext, ?_⟩
    rintro rfl
    exact absurd hc (by decide)

theorem stmtTrees_cons (d : Stmt) (ds : List Stmt) :
    eraseNodes (stmtTrees p (d :: ds)) = eraseNodes [d.tree p] ++ eraseNodes (stmtTrees p ds) := by
  rw [stmtTrees, ← eraseNodes_append]
  rfl

/-- A list of statements. -/
theorem lines_run (hds : ∀ d ∈ ds, LineOk p d) (hne : ds ≠ []) (acc : List Node) {m : Nat}
    (hn : (linesText ds ++ '\x7d' :: s).length ≤ n) (hm : (linesText ds).length ≤ m) :
    ∃ as, (Back.iterate (p.statementListTurn (p.depth n)) m acc).run
        ⟨linesText ds ++ '\x7d' :: s, q⟩ = .ok (acc ++ as) ⟨'\x7d' :: s, q⟩ ∧
      eraseNodes as = eraseNodes (stmtTrees p ds) := by
  induction ds generalizing acc m with
  | nil => exact absurd rfl hne
  | cons d ds ih =>
    have htext : linesText (d :: ds) ++ '\x7d' :: s =
        d.text ++ '\n' :: (linesText ds ++ '\x7d' :: s) := by
      simp [linesText]
    have hd := hds d List.mem_cons_self
    rw [htext] at hn ⊢
    simp only [linesText, List.length_append, List.length_cons] at hm
    rw [stmtTrees_cons]
    cases ds with
    | nil =>
      obtain ⟨as, m', -, htree, hrun⟩ := line_step (q := q) (m := m) hd (next_rb s) hn (by omega) acc
      refine ⟨as, ?_, ?_⟩
      · rw [if_pos rfl] at hrun
        exact hrun
      · rw [htree]
        exact (List.append_nil _).symm
    | cons d' ds =>
      obtain ⟨c, t, r, hnext, hc⟩ := lines_next d' ds ('\x7d' :: s)
      obtain ⟨as, m', hm', htree, hrun⟩ := line_step (q := q) (m := m) hd hnext hn (by omega) acc
      obtain ⟨bs, hrest, htrees⟩ := ih (fun d hd => hds d (List.mem_cons_of_mem _ hd))
        (List.cons_ne_nil _ _) (acc ++ as) (m := m')
        (by simp only [List.length_append, List.length_cons] at hn ⊢; omega) (by omega)
      refine ⟨as ++ bs, ?_, ?_⟩
      · rw [hrun, if_neg hc, hrest, List.append_assoc]
      · rw [eraseNodes_append, htree, htrees]

/-- What one turn adds. -/
theorem statementListTurn_returns {Q : Node → Prop} {l : Lexer}
    (h : (p.statement f).Returns l Q) (acc : List Node) :
    (p.statementListTurn f acc).Returns l
      fun x => ∃ a, Q a ∧ (x = .inl (acc ++ [a]) ∨ x = .inr (acc ++ [a])) := by
  unfold statementListTurn
  refine h.bind fun a s' ha => Back.returns_bind fun ch s'' => Back.returns_bind fun x s₃ =>
    Back.returns_bind fun _ s₄ => ?_
  show Back.Returns (if x.1 = .rb then _ else _) _ _
  split
  · exact Back.returns_pure ⟨a, ha, .inr rfl⟩
  · exact Back.returns_pure ⟨a, ha, .inl rfl⟩

/-- The loop keeps what it has. -/
theorem statementList_keeps (m : Nat) (acc : List Node) (l : Lexer) :
    (Back.iterate (p.statementListTurn f) m acc).Returns l fun as => acc <+: as := by
  induction m generalizing acc l with
  | zero =>
    intro as s' h
    cases h
  | succ m ih =>
    have hturn := statementListTurn_returns (p := p) (f := f) (Q := fun _ => True) (l := l)
      (fun _ _ _ => trivial) acc
    rw [Back.iterate]
    refine hturn.bind fun x s' hx => ?_
    obtain ⟨a, -, rfl | rfl⟩ := hx
    · exact (ih (acc ++ [a]) s').mono fun as has => (List.prefix_append acc [a]).trans has
    · exact Back.returns_pure (List.prefix_append acc [a])

theorem Stmt.tree_ne_empty (p : Parser) (d : Stmt) (h : d.ambiguous = true) : d.tree p ≠ .empty := by
  intro heq
  cases d with
  | ifST i =>
    obtain ⟨cond, body, els⟩ := i
    cases els <;> simp [Stmt.tree, If.tree] at heq
  | forST header body => cases header <;> simp [Stmt.tree] at heq
  | _ => cases h

/-- A line that fails spoils the list. -/
theorem lines_fail (hok : ∀ d ∈ ds, d.ambiguous = false → LineOk p d)
    (hfails : ∀ d ∈ ds, d.ambiguous = true → LineFails p d) (hany : anyAmbiguous ds = true)
    (acc : List Node) {m : Nat} (hn : (linesText ds ++ '\x7d' :: s).length ≤ n)
    (hm : (linesText ds).length ≤ m) :
    (Back.iterate (p.statementListTurn (p.depth n)) m acc).Returns
      ⟨linesText ds ++ '\x7d' :: s, q⟩
      fun as => eraseNodes as ≠ eraseNodes acc ++ eraseNodes (stmtTrees p ds) := by
  induction ds generalizing acc m with
  | nil => cases hany
  | cons d ds ih =>
    have htext : linesText (d :: ds) ++ '\x7d' :: s =
        d.text ++ '\n' :: (linesText ds ++ '\x7d' :: s) := by
      simp [linesText]
    rw [htext] at hn ⊢
    simp only [linesText, List.length_append, List.length_cons] at hm
    rw [stmtTrees_cons]
    cases hd : d.ambiguous with
    | true =>
      obtain ⟨m, rfl⟩ : ∃ k, m = k + 1 := ⟨m - 1, by omega⟩
      -- this line reads otherwise, and what is read stays
      have hturn := statementListTurn_returns (hfails d List.mem_cons_self hd _ n q hn) acc
      have htree := d.tree_ne_empty p hd
      have hne : ∀ a as, a ≠ .empty → a.erase ≠ (d.tree p).erase → acc ++ [a] <+: as →
          eraseNodes as ≠ eraseNodes acc ++ (eraseNodes [d.tree p] ++ eraseNodes (stmtTrees p ds)) := by
        rintro a as hempty hne ⟨bs, rfl⟩ heq
        rw [eraseNodes_append, eraseNodes_append, List.append_assoc, List.append_cancel_left_eq,
          eraseNodes_cons hempty, eraseNodes_cons htree] at heq
        exact hne (List.cons.inj heq).1
      rw [Back.iterate]
      refine hturn.bind fun x s' hx => ?_
      obtain ⟨a, ⟨hempty, ha⟩, rfl | rfl⟩ := hx
      · exact (statementList_keeps m (acc ++ [a]) s').mono fun as has => hne a as hempty ha has
      · exact Back.returns_pure (hne a _ hempty ha List.prefix_rfl)
    | false =>
      -- this one reads back, so a later one does not
      have hds : anyAmbiguous ds = true := by
        rw [anyAmbiguous, hd, Bool.false_or] at hany
        exact hany
      cases ds with
      | nil => cases hds
      | cons d' ds =>
        obtain ⟨c, t, r, hnext, hc⟩ := lines_next d' ds ('\x7d' :: s)
        obtain ⟨as, m', hm', htree, hrun⟩ :=
          line_step (q := q) (m := m) (hok d List.mem_cons_self hd) hnext hn (by omega) acc
        have hrest := ih (fun d hd => hok d (List.mem_cons_of_mem _ hd))
          (fun d hd => hfails d (List.mem_cons_of_mem _ hd)) hds (acc ++ as) (m := m')
          (by simp only [List.length_append, List.length_cons] at hn ⊢; omega) (by omega)
        rw [if_neg hc] at hrun
        unfold Back.Returns
        rw [hrun]
        refine hrest.mono fun bs hbs heq => hbs ?_
        rw [heq, eraseNodes_append, htree, List.append_assoc]

end Lines

/-! ## Blocks -/

section Blocks

theorem depth_succ_statementList (p : Parser) (n : Nat) :
    (p.depth (n + 1)).statementList = p.statementList (p.depth n) := rfl

/-- The lines of a block, with the newline behind its brace as a blank line. -/
theorem block_lines (body : List Stmt) (s : Text) : blockText (linesText body) ++ s =
    ' ' :: '\x7b' :: (linesText (.blank :: body) ++ '\x7d' :: s) := by
  rw [blockText_append, linesText, Stmt.text, List.nil_append, List.cons_append]

/-- A block is what its lines are. -/
theorem block_run (hbody : ∀ d ∈ body, LineOk p d)
    (hn : (blockText (linesText body) ++ s).length ≤ n) : ∃ as,
    (statementBlock (p.depth n)).run ⟨blockText (linesText body) ++ s, q⟩ = .ok (.sl as) ⟨s, q⟩ ∧
      eraseNodes as = eraseNodes (stmtTrees p body) := by
  rw [block_lines] at hn ⊢
  rw [List.length_cons, List.length_cons] at hn
  obtain ⟨n, rfl⟩ : ∃ k, n = k + 1 := ⟨n - 1, by omega⟩
  have hblank : ∀ d ∈ Stmt.blank :: body, LineOk p d := by
    intro d hd
    rcases List.mem_cons.1 hd with rfl | hd
    · exact lineOk_blank
    · exact hbody d hd
  have hlen : (linesText (.blank :: body)).length ≤ (p.depth n).fuel := by
    rw [depth_fuel]
    rw [List.length_append] at hn
    omega
  obtain ⟨as, hrun, htree⟩ := lines_run (q := q) (s := s) (n := n) hblank (List.cons_ne_nil _ _) []
    (by omega) hlen
  refine ⟨as, ?_, ?_⟩
  · have hlist : (p.depth (n + 1)).statementList.run
        ⟨linesText (.blank :: body) ++ '\x7d' :: s, q⟩ = .ok (.sl as) ⟨'\x7d' :: s, q⟩ := by
      rw [depth_succ_statementList]
      unfold Parser.statementList
      rw [Back.bind_run, hrun, Run.andThen_ok]
      rfl
    unfold statementBlock
    simp [scanType_run (next_lb _), hlist, scanType_run (next_rb s)]
  · rw [htree, stmtTrees_cons]
    rfl

/-- A line that fails spoils the block. -/
theorem block_fails (hok : ∀ d ∈ body, d.ambiguous = false → LineOk p d)
    (hfails : ∀ d ∈ body, d.ambiguous = true → LineFails p d) (hany : anyAmbiguous body = true)
    (hn : (blockText (linesText body) ++ s).length ≤ n) :
    (statementBlock (p.depth n)).Returns ⟨blockText (linesText body) ++ s, q⟩
      fun a => a.erase ≠ (Node.sl (stmtTrees p body)).erase := by
  rw [block_lines] at hn ⊢
  rw [List.length_cons, List.length_cons] at hn
  obtain ⟨n, rfl⟩ : ∃ k, n = k + 1 := ⟨n - 1, by omega⟩
  have hblank : ∀ d ∈ Stmt.blank :: body, d.ambiguous = false → LineOk p d := by
    intro d hd hamb
    rcases List.mem_cons.1 hd with rfl | hd
    · exact lineOk_blank
    · exact hok d hd hamb
  have hblank' : ∀ d ∈ Stmt.blank :: body, d.ambiguous = true → LineFails p d := by
    intro d hd hamb
    rcases List.mem_cons.1 hd with rfl | hd
    · cases hamb
    · exact hfails d hd hamb
  have hlen : (linesText (.blank :: body)).length ≤ (p.depth n).fuel := by
    rw [depth_fuel]
    rw [List.length_append] at hn
    omega
  have hlist := lines_fail (q := q) (s := s) (n := n) hblank hblank' hany [] (by omega) hlen
  have hlb : (scanType .lb).run ⟨' ' :: '\x7b' :: (linesText (.blank :: body) ++ '\x7d' :: s), q⟩ =
      .ok ['\x7b'] ⟨linesText (.blank :: body) ++ '\x7d' :: s, q⟩ := by
    simp [scanType_run (next_lb _)]
  unfold statementBlock
  refine Back.Returns.after hlb ?_
  rw [depth_succ_statementList]
  unfold Parser.statementList
  refine (hlist.bind (Q := _) (R := fun a => a.erase ≠ (Node.sl (stmtTrees p body)).erase)
    fun as s' has => Back.returns_pure ?_).bind fun a s' ha => Back.returns_bind fun _ _ =>
      Back.returns_pure ha
  intro heq
  refine has ?_
  rw [stmtTrees_cons]
  exact Node.sl.inj heq

end Blocks

/-! ## Branches -/

section Branches

/-- What `ifstatement` does behind the condition. -/
def ifRest (f : Rec) (be : Node) : P Node := do
  let statements ← statementBlock f
  if ← sees .resEl then do
    let elstatements ← f.ifstatement <|> statementBlock f
    pure (.ifElse be statements elstatements)
  else pure (.ifST be statements)

theorem depth_succ_ifstatement (p : Parser) (n : Nat) :
    (p.depth (n + 1)).ifstatement = p.ifstatement (p.depth n) := rfl

/-- The condition, where no literal of a struct goes on behind it. -/
theorem ifstatement_cond (cond : Cond) (hw : Blanks w)
    (hlike : cond.last.likeType = true → blankLines body = false)
    (hn : (cond.text ++ (blockText (linesText body) ++ s)).length ≤ n) :
    (p.ifstatement (p.depth n)).run
      ⟨w ++ (word .resIf ++ ' ' :: (cond.text ++ (blockText (linesText body) ++ s))), q⟩ =
      (ifRest (p.depth n) (cond.tree p)).run ⟨blockText (linesText body) ++ s, q⟩ := by
  have hif : Next (w ++ (word .resIf ++ ' ' :: (cond.text ++ (blockText (linesText body) ++ s)))) .resIf
      (word .resIf) (' ' :: (cond.text ++ (blockText (linesText body) ++ s))) :=
    (next_keyword (by decide) (endsWord_space _) (List.cons_ne_nil _ _)).blanks hw
  have hcond := boolexp_cond (p := p) (q := q) cond blanks_space (after_block _ s)
    (next_block _ s) (by decide) (fun h => noBody_block (hlike h) s) hn
  rw [List.singleton_append] at hcond
  unfold Parser.ifstatement
  simp [scanType_run hif, hcond, ifRest]

/-- The condition has taken the block with it. -/
theorem ifstatement_swallows (cond : Cond) (hlike : cond.last.likeType = true)
    (hbody : blankLines body = true) (hw : Blanks w) (hnext : Next s c t r) (hc : c ∉ .lb :: allOps)
    (hn : (cond.text ++ (blockText (linesText body) ++ s)).length ≤ n) :
    (p.ifstatement (p.depth n)).Refuses
      ⟨w ++ (word .resIf ++ ' ' :: (cond.text ++ (blockText (linesText body) ++ s))), q⟩ := by
  rw [List.mem_cons, not_or] at hc
  have hif : Next (w ++ (word .resIf ++ ' ' :: (cond.text ++ (blockText (linesText body) ++ s)))) .resIf
      (word .resIf) (' ' :: (cond.text ++ (blockText (linesText body) ++ s))) :=
    (next_keyword (by decide) (endsWord_space _) (List.cons_ne_nil _ _)).blanks hw
  have hscan : (scanType .resIf).run
      ⟨w ++ (word .resIf ++ ' ' :: (cond.text ++ (blockText (linesText body) ++ s))), q⟩ =
      .ok (word .resIf) ⟨' ' :: (cond.text ++ (blockText (linesText body) ++ s)), q⟩ := by
    simp [scanType_run hif]
  obtain ⟨b, hb⟩ := boolexp_swallows (p := p) (q := q) cond hlike blanks_space hbody hnext hc.2 hn
  unfold Parser.ifstatement
  refine Back.Refuses.after hscan (Back.Refuses.after hb (Back.Refuses.bind ?_))
  unfold statementBlock
  exact first_refuses hnext (by decide) hc.1

/-- `else` behind a block, or the end of the line. -/
theorem Else.next (els : Else) (u : Text) : ∃ c t r, Next (els.text ++ '\n' :: u) c t r ∧
    c ∉ .lb :: allOps := by
  have helse : ∀ v, EndsWord v → v ≠ [] → Next (' ' :: (word .resEl ++ v)) .resEl (word .resEl) v :=
    fun v hv hne => (next_keyword (c := .resEl) (by decide) hv hne).blanks blanks_space
  cases els with
  | none => exact ⟨_, _, _, next_newline u, by decide⟩
  | block body =>
    have htext : (Else.block body).text ++ '\n' :: u =
        ' ' :: (word .resEl ++ (blockText (linesText body) ++ '\n' :: u)) := by
      simp only [Else.text, List.cons_append, List.append_assoc]
    rw [htext]
    exact ⟨_, _, _, helse _ (endsWord_space _) (List.cons_ne_nil _ _), by decide⟩
  | elseIf i =>
    have htext : (Else.elseIf i).text ++ '\n' :: u =
        ' ' :: (word .resEl ++ ' ' :: (i.text ++ '\n' :: u)) := by
      simp only [Else.text, List.cons_append, List.append_assoc]
    rw [htext]
    exact ⟨_, _, _, helse _ (endsWord_space _) (List.cons_ne_nil _ _), by decide⟩

section Rest

variable {be st el : Node} {l l' : Lexer} {v : Text}

theorem ifRest_none (hst : (statementBlock f).run l = .ok st ⟨'\n' :: u, q⟩) :
    (ifRest f be).run l = .ok (.ifST be st) ⟨'\n' :: u, q⟩ := by
  unfold ifRest
  rw [Back.bind_run, hst, Run.andThen_ok, Back.bind_run,
    sees_false (next_newline u) (by decide) (by decide), Run.andThen_ok]
  rfl

theorem sees_else (hv : EndsWord v) (hne : v ≠ []) :
    (sees .resEl).run ⟨' ' :: (word .resEl ++ v), q⟩ = .ok true ⟨v, q⟩ := by
  have helse : Next (' ' :: (word .resEl ++ v)) .resEl (word .resEl) v :=
    (next_keyword (c := .resEl) (by decide) hv hne).blanks blanks_space
  rw [sees_run helse (by decide), if_pos rfl]

theorem ifRest_else (hv : EndsWord v) (hne : v ≠ [])
    (hst : (statementBlock f).run l = .ok st ⟨' ' :: (word .resEl ++ v), q⟩)
    (hel : (f.ifstatement <|> statementBlock f).run ⟨v, q⟩ = .ok el l') :
    (ifRest f be).run l = .ok (.ifElse be st el) l' := by
  unfold ifRest
  rw [Back.bind_run, hst, Run.andThen_ok, Back.bind_run, sees_else hv hne, Run.andThen_ok,
    if_pos rfl, Back.bind_run, hel]
  rfl

/-- A block that fails spoils the statement, whatever is read behind it. -/
theorem ifRest_block_returns {Q R : Node → Prop} (hst : (statementBlock f).Returns l Q)
    (hR : ∀ st, Q st → R (.ifST be st) ∧ ∀ el, R (.ifElse be st el)) :
    (ifRest f be).Returns l R := by
  unfold ifRest
  refine hst.bind fun st s' hq => Back.returns_bind fun b s'' => ?_
  split
  · exact Back.returns_bind fun el s₃ => Back.returns_pure ((hR st hq).2 el)
  · exact Back.returns_pure (hR st hq).1

theorem ifRest_else_returns {Q R : Node → Prop} (hv : EndsWord v) (hne : v ≠ [])
    (hst : (statementBlock f).run l = .ok st ⟨' ' :: (word .resEl ++ v), q⟩)
    (hel : (f.ifstatement <|> statementBlock f).Returns ⟨v, q⟩ Q)
    (hR : ∀ el, Q el → R (.ifElse be st el)) : (ifRest f be).Returns l R := by
  unfold ifRest
  refine Back.Returns.after hst (Back.Returns.after (sees_else hv hne) ?_)
  rw [if_pos rfl]
  exact hel.bind fun el s' hq => Back.returns_pure (hR el hq)

end Rest

/-- The statement is read in its line, unless a header in it is ambiguous. -/
structure LineSpec (p : Parser) (d : Stmt) : Prop where
  ok : d.ambiguous = false → LineOk p d
  fails : d.ambiguous = true → LineFails p d

/-- `ifstatement` reads the statement, unless a header in it is ambiguous. -/
structure IfSpec (p : Parser) (i : If) : Prop where
  ok : i.ambiguous = false → ∀ w u n q, Blanks w → (i.text ++ '\n' :: u).length ≤ n →
    ∃ a, (p.ifstatement (p.depth n)).run ⟨w ++ (i.text ++ '\n' :: u), q⟩ = .ok a ⟨'\n' :: u, q⟩ ∧
      a ≠ .empty ∧ a.erase = (i.tree p).erase
  fails : i.ambiguous = true → ∀ w u n q, Blanks w → (i.text ++ '\n' :: u).length ≤ n →
    (p.ifstatement (p.depth n)).Returns ⟨w ++ (i.text ++ '\n' :: u), q⟩
      fun a => a ≠ .empty ∧ a.erase ≠ (i.tree p).erase

/-- The same for what is behind `else`. -/
def ElseSpec (p : Parser) : Else → Prop
  | .none => True
  | .block body => ∀ d ∈ body, LineSpec p d
  | .elseIf i => IfSpec p i

theorem lines_ok (hbody : ∀ d ∈ body, LineSpec p d) (hany : anyAmbiguous body = false) :
    ∀ d ∈ body, LineOk p d := by
  induction body with
  | nil => simp
  | cons d ds ih =>
    rw [anyAmbiguous, Bool.or_eq_false_iff] at hany
    intro d' hd'
    rcases List.mem_cons.1 hd' with rfl | hd'
    · exact (hbody _ List.mem_cons_self).ok hany.1
    · exact ih (fun d hd => hbody d (List.mem_cons_of_mem _ hd)) hany.2 d' hd'

theorem block_ok (hbody : ∀ d ∈ body, LineSpec p d) (hany : anyAmbiguous body = false)
    (hn : (blockText (linesText body) ++ s).length ≤ n) : ∃ as,
    (statementBlock (p.depth n)).run ⟨blockText (linesText body) ++ s, q⟩ = .ok (.sl as) ⟨s, q⟩ ∧
      (Node.sl as).erase = (Node.sl (stmtTrees p body)).erase := by
  obtain ⟨as, hrun, htree⟩ := block_run (p := p) (q := q) (lines_ok hbody hany) hn
  exact ⟨as, hrun, congrArg Node.sl htree⟩

theorem block_bad (hbody : ∀ d ∈ body, LineSpec p d) (hany : anyAmbiguous body = true)
    (hn : (blockText (linesText body) ++ s).length ≤ n) :
    (statementBlock (p.depth n)).Returns ⟨blockText (linesText body) ++ s, q⟩
      fun a => a.erase ≠ (Node.sl (stmtTrees p body)).erase :=
  block_fails (fun d hd => (hbody d hd).ok) (fun d hd => (hbody d hd).fails) hany hn

/-- A block is no `if`. -/
theorem ifstatement_block (hn : 0 < n) : (p.depth n).ifstatement.run
    ⟨blockText (linesText body) ++ s, q⟩ = .err .type ⟨blockText (linesText body) ++ s, q⟩ := by
  obtain ⟨n, rfl⟩ : ∃ k, n = k + 1 := ⟨n - 1, by omega⟩
  rw [depth_succ_ifstatement]
  unfold Parser.ifstatement
  simp [scanType_run (next_block (linesText body) s)]

theorem If.text_append (cond : Cond) (body : List Stmt) (els : Else) (u : Text) :
    (If.mk cond body els).text ++ '\n' :: u =
      word .resIf ++ ' ' :: (cond.text ++ (blockText (linesText body) ++ (els.text ++ '\n' :: u))) := by
  simp only [If.text, List.append_assoc, List.cons_append]

theorem Else.block_text (body : List Stmt) (u : Text) : (Else.block body).text ++ '\n' :: u =
    ' ' :: (word .resEl ++ (blockText (linesText body) ++ '\n' :: u)) := by
  simp only [Else.text, List.cons_append, List.append_assoc]

theorem Else.elseIf_text (i : If) (u : Text) : (Else.elseIf i).text ++ '\n' :: u =
    ' ' :: (word .resEl ++ ' ' :: (i.text ++ '\n' :: u)) := by
  simp only [Else.text, List.cons_append, List.append_assoc]

theorem If.ok_of_spec (cond : Cond) {els : Else} (hbody : ∀ d ∈ body, LineSpec p d)
    (hels : ElseSpec p els) (hamb : (If.mk cond body els).ambiguous = false) (hw : Blanks w)
    (hn : ((If.mk cond body els).text ++ '\n' :: u).length ≤ n) : ∃ a,
    (p.ifstatement (p.depth n)).run ⟨w ++ ((If.mk cond body els).text ++ '\n' :: u), q⟩ =
      .ok a ⟨'\n' :: u, q⟩ ∧ a ≠ .empty ∧ a.erase = ((If.mk cond body els).tree p).erase := by
  rw [If.ambiguous, Bool.or_eq_false_iff, Bool.or_eq_false_iff] at hamb
  obtain ⟨⟨hown, hany⟩, helse⟩ := hamb
  have hlike : cond.last.likeType = true → blankLines body = false := by
    intro h
    rw [h, Bool.true_and] at hown
    exact hown
  rw [If.text_append] at hn ⊢
  simp only [List.length_append, List.length_cons] at hn
  rw [ifstatement_cond cond hw hlike (by simp only [List.length_append, List.length_cons]; omega)]
  obtain ⟨as, hst, htree⟩ := block_ok (q := q) (s := els.text ++ '\n' :: u) (n := n) hbody hany
    (by simp only [List.length_append, List.length_cons]; omega)
  cases els with
  | none =>
    refine ⟨_, ifRest_none hst, by rintro ⟨⟩, ?_⟩
    rw [Node.erase, htree]
    rfl
  | block els =>
    have htext := congrArg List.length (Else.block_text els u)
    rw [Else.block_text] at hst
    simp only [List.length_append, List.length_cons] at htext
    have hpos : 0 < n := by omega
    obtain ⟨bs, hel, htrees⟩ := block_ok (q := q) (s := '\n' :: u) (n := n) hels helse
      (by simp only [List.length_append, List.length_cons]; omega)
    have hel' : ((p.depth n).ifstatement <|> statementBlock (p.depth n)).run
        ⟨blockText (linesText els) ++ '\n' :: u, q⟩ = .ok (.sl bs) ⟨'\n' :: u, q⟩ := by
      rw [Back.orElse_run, ifstatement_block hpos, Run.andThen_err, hel]
    rw [Else.block_text]
    refine ⟨_, ifRest_else (endsWord_space _) (List.cons_ne_nil _ _) hst hel', by rintro ⟨⟩, ?_⟩
    rw [Node.erase, htree, htrees]
    rfl
  | elseIf i =>
    have htext := congrArg List.length (Else.elseIf_text i u)
    rw [Else.elseIf_text] at hst
    simp only [List.length_append, List.length_cons] at htext
    obtain ⟨n, rfl⟩ : ∃ k, n = k + 1 := ⟨n - 1, by omega⟩
    obtain ⟨el, hel, -, htrees⟩ := hels.ok helse [' '] u n q blanks_space
      (by simp only [List.length_append, List.length_cons]; omega)
    rw [← depth_succ_ifstatement] at hel
    rw [Else.elseIf_text]
    refine ⟨_, ifRest_else (endsWord_space _) (List.cons_ne_nil _ _) hst (orElse_ok hel),
      by rintro ⟨⟩, ?_⟩
    rw [Node.erase, htree, htrees]
    rfl

theorem If.erase_ifST {cond : Cond} {els : Else} {be st : Node}
    (heq : (Node.ifST be st).erase = ((If.mk cond body els).tree p).erase) :
    st.erase = (Node.sl (stmtTrees p body)).erase := by
  cases els with
  | none =>
    rw [If.tree, Node.erase, Node.erase] at heq
    exact (Node.ifST.inj heq).2
  | block els =>
    rw [If.tree, Node.erase, Node.erase] at heq
    cases heq
  | elseIf i =>
    rw [If.tree, Node.erase, Node.erase] at heq
    cases heq

theorem If.erase_ifElse {cond : Cond} {els : Else} {be st el : Node}
    (heq : (Node.ifElse be st el).erase = ((If.mk cond body els).tree p).erase) :
    st.erase = (Node.sl (stmtTrees p body)).erase ∧ match els with
      | .none => False
      | .block els => el.erase = (Node.sl (stmtTrees p els)).erase
      | .elseIf i => el.erase = (i.tree p).erase := by
  cases els with
  | none =>
    rw [If.tree, Node.erase, Node.erase] at heq
    cases heq
  | block els =>
    rw [If.tree, Node.erase, Node.erase] at heq
    exact (Node.ifElse.inj heq).2
  | elseIf i =>
    rw [If.tree, Node.erase, Node.erase] at heq
    exact (Node.ifElse.inj heq).2

/-- A block is a list, and no `if`. -/
theorem block_returns (i : If) (l : Lexer) :
    (statementBlock (p.depth n)).Returns l fun a => a.erase ≠ (i.tree p).erase := by
  have hsl : ∀ as, (Node.sl as).erase ≠ (i.tree p).erase := by
    intro as heq
    obtain ⟨cond, body, els⟩ := i
    cases els <;> rw [If.tree, Node.erase, Node.erase] at heq <;> cases heq
  unfold statementBlock
  refine Back.returns_bind fun _ s' => Back.Returns.bind (Q := fun a => a.erase ≠ (i.tree p).erase) ?_
    fun a s'' ha => Back.returns_bind fun _ _ => Back.returns_pure ha
  cases n with
  | zero =>
    intro a s'' h
    cases h
  | succ n =>
    rw [depth_succ_statementList]
    exact Back.returns_bind fun as _ => Back.returns_pure (hsl as)

theorem If.fails_of_spec (cond : Cond) {els : Else} (hbody : ∀ d ∈ body, LineSpec p d)
    (hels : ElseSpec p els) (hamb : (If.mk cond body els).ambiguous = true) (hw : Blanks w)
    (hn : ((If.mk cond body els).text ++ '\n' :: u).length ≤ n) :
    (p.ifstatement (p.depth n)).Returns ⟨w ++ ((If.mk cond body els).text ++ '\n' :: u), q⟩
      fun a => a ≠ .empty ∧ a.erase ≠ ((If.mk cond body els).tree p).erase := by
  rw [If.text_append] at hn ⊢
  obtain ⟨c, t, r, hnext, hc⟩ := els.next u
  -- an empty body is taken into the condition, or something inside reads otherwise
  by_cases hown : cond.last.likeType = true ∧ blankLines body = true
  · simp only [List.length_append, List.length_cons] at hn
    exact (ifstatement_swallows cond hown.1 hown.2 hw hnext hc
      (by simp only [List.length_append, List.length_cons]; omega)).returns
  have hlike : cond.last.likeType = true → blankLines body = false := by
    intro h
    rw [← Bool.not_eq_true]
    exact fun hb => hown ⟨h, hb⟩
  rw [If.ambiguous, Bool.or_eq_true, Bool.or_eq_true, Bool.and_eq_true] at hamb
  simp only [List.length_append, List.length_cons] at hn
  unfold Back.Returns
  rw [ifstatement_cond cond hw hlike (by simp only [List.length_append, List.length_cons]; omega)]
  have hlen : (blockText (linesText body) ++ (els.text ++ '\n' :: u)).length ≤ n := by
    simp only [List.length_append, List.length_cons]
    omega
  cases hany : anyAmbiguous body with
  | true =>
    refine ifRest_block_returns (block_bad (q := q) hbody hany hlen) fun st hst => ⟨⟨?_, ?_⟩, ?_⟩
    · rintro ⟨⟩
    · exact fun heq => hst (If.erase_ifST heq)
    · intro el
      exact ⟨by rintro ⟨⟩, fun heq => hst (If.erase_ifElse heq).1⟩
  | false =>
    -- the body reads back, so it is the `else` that does not
    obtain ⟨as, hst, htree⟩ := block_ok (q := q) hbody hany hlen
    have helse : els.ambiguous = true := by
      rcases hamb with (hamb | hamb) | hamb
      · exact absurd hamb hown
      · rw [hany] at hamb
        cases hamb
      · exact hamb
    cases els with
    | none => cases helse
    | block els =>
      have htext := congrArg List.length (Else.block_text els u)
      rw [Else.block_text] at hst ⊢
      simp only [List.length_append, List.length_cons] at htext
      have hpos : 0 < n := by omega
      have hel : ((p.depth n).ifstatement <|> statementBlock (p.depth n)).Returns
          ⟨blockText (linesText els) ++ '\n' :: u, q⟩
          fun el => el.erase ≠ (Node.sl (stmtTrees p els)).erase := by
        unfold Back.Returns
        rw [Back.orElse_run, ifstatement_block hpos, Run.andThen_err]
        exact block_bad hels helse (by simp only [List.length_append, List.length_cons]; omega)
      refine ifRest_else_returns (endsWord_space _) (List.cons_ne_nil _ _) hst hel fun el hne => ⟨?_, ?_⟩
      · rintro ⟨⟩
      · exact fun heq => hne (If.erase_ifElse heq).2
    | elseIf i =>
      have htext := congrArg List.length (Else.elseIf_text i u)
      rw [Else.elseIf_text] at hst ⊢
      simp only [List.length_append, List.length_cons] at htext
      obtain ⟨n, rfl⟩ : ∃ k, n = k + 1 := ⟨n - 1, by omega⟩
      have hel := hels.fails helse [' '] u n q blanks_space
        (by simp only [List.length_append, List.length_cons]; omega)
      rw [← depth_succ_ifstatement] at hel
      refine ifRest_else_returns (Q := fun el => el.erase ≠ (i.tree p).erase) (endsWord_space _)
        (List.cons_ne_nil _ _) hst ?_ fun el hne => ⟨?_, ?_⟩
      · exact (hel.mono fun el hne => hne.2).orElse fun l => block_returns i l
      · rintro ⟨⟩
      · exact fun heq => hne (If.erase_ifElse heq).2

theorem ifSpec (cond : Cond) {els : Else} (hbody : ∀ d ∈ body, LineSpec p d)
    (hels : ElseSpec p els) : IfSpec p (.mk cond body els) where
  ok hamb _ _ _ _ hw hn := If.ok_of_spec cond hbody hels hamb hw hn
  fails hamb _ _ _ _ hw hn := If.fails_of_spec cond hbody hels hamb hw hn

end Branches

/-! ## Loops -/

section Loops

theorem Stmt.for_text (h : Header) (body : List Stmt) (u : Text) : (Stmt.forST h body).text ++ '\n' :: u =
    word .resFor ++ (h.text ++ (blockText (linesText body) ++ '\n' :: u)) := by
  simp only [Stmt.text, List.append_assoc]

theorem Stmt.for_next (h : Header) (body : List Stmt) (u : Text) :
    Next (word .resFor ++ (h.text ++ (blockText (linesText body) ++ '\n' :: u))) .resFor (word .resFor)
      (h.text ++ (blockText (linesText body) ++ '\n' :: u)) := by
  refine next_keyword (by decide) ?_ (by simp)
  rw [blockText_append]
  exact h.endsWord _

theorem Stmt.for_tree (h : Header) (body : List Stmt) : (Stmt.forST h body).tree p =
    .forST (h.trees p).1 (h.trees p).2.1 (h.trees p).2.2 (.sl (stmtTrees p body)) := by
  cases h <;> rfl

/-- A statement read as `a`, which is no blank line. -/
theorem eraseNodes_single {a b : Node} (ha : a ≠ .empty) (hb : b ≠ .empty) (h : a.erase = b.erase) :
    eraseNodes [a] = eraseNodes [b] := by
  rw [eraseNodes_cons ha, eraseNodes_cons hb, h]

theorem forSpec (h : Header) (hbody : ∀ d ∈ body, LineSpec p d) : LineSpec p (.forST h body) where
  ok := by
    intro hamb u n q hn
    rw [Stmt.ambiguous, Bool.or_eq_false_iff] at hamb
    have hlike : h.endsLikeType = true → blankLines body = false := by
      intro hl
      rw [hl, Bool.true_and] at hamb
      exact hamb.1
    rw [Stmt.for_text] at hn ⊢
    have hfor := Stmt.for_next h body u
    simp only [List.length_append, List.length_cons] at hn
    obtain ⟨as, hst, htree⟩ := block_ok (q := q) (s := '\n' :: u) (n := n) hbody hamb.2
      (by simp only [List.length_append, List.length_cons]; omega)
    have hrun := forloop_header (p := p) (n := n) (q := q) h (after_block (linesText body) ('\n' :: u))
      (next_block (linesText body) ('\n' :: u)) (fun hl => noBody_block (hlike hl) _)
      (by simp only [List.length_append, List.length_cons]; omega)
    have hloop : (p.forloop (p.depth n)).run
        ⟨word .resFor ++ (h.text ++ (blockText (linesText body) ++ '\n' :: u)), q⟩ =
        .ok (.forST (h.trees p).1 (h.trees p).2.1 (h.trees p).2.2 (.sl as)) ⟨'\n' :: u, q⟩ := by
      rw [hrun]
      unfold forRest
      rw [Back.bind_run, hst]
      rfl
    refine ⟨_, _, for_statement hfor hloop, .inr ⟨?_, rfl⟩, ?_⟩
    · simp [Stmt.text, blockText]
    · rw [Stmt.for_tree]
      refine eraseNodes_single (by rintro ⟨⟩) (by rintro ⟨⟩) ?_
      exact congrArg (Node.forST (h.trees p).1 (h.trees p).2.1 (h.trees p).2.2) htree
  fails := by
    intro hamb u n q hn
    rw [Stmt.for_text] at hn ⊢
    have hfor := Stmt.for_next h body u
    simp only [List.length_append, List.length_cons] at hn
    rw [Stmt.for_tree]
    refine for_returns hfor (depth_pos p n) (fun ln src => ⟨by rintro ⟨⟩, ?_⟩) ?_
    · rw [Node.erase, Node.erase]
      · rintro ⟨⟩
    by_cases hown : h.endsLikeType = true ∧ blankLines body = true
    · exact (forloop_swallows h hown.1 hown.2 (next_newline u) (by decide)
        (by simp only [List.length_append, List.length_cons]; omega)).returns
    have hlike : h.endsLikeType = true → blankLines body = false := by
      intro hl
      rw [← Bool.not_eq_true]
      exact fun hb => hown ⟨hl, hb⟩
    rw [Stmt.ambiguous, Bool.or_eq_true, Bool.and_eq_true] at hamb
    have hany : anyAmbiguous body = true := hamb.resolve_left hown
    unfold Back.Returns
    rw [forloop_header (p := p) (n := n) (q := q) h (after_block (linesText body) ('\n' :: u))
      (next_block (linesText body) ('\n' :: u)) (fun hl => noBody_block (hlike hl) _)
      (by simp only [List.length_append, List.length_cons]; omega)]
    unfold forRest
    refine (block_bad (q := q) (s := '\n' :: u) (n := n) hbody hany
      (by simp only [List.length_append, List.length_cons]; omega)).bind fun st s' hst =>
        Back.returns_pure ⟨by rintro ⟨⟩, fun heq => hst ?_⟩
    rw [Node.erase, Node.erase] at heq
    exact (Node.forST.inj heq).2.2.2

end Loops

/-! ## One line -/

section OneLine

theorem lineSpec_of_ok {d : Stmt} (hamb : d.ambiguous = false) (h : LineOk p d) : LineSpec p d where
  ok _ := h
  fails hd := by
    rw [hamb] at hd
    cases hd

/-- The newline ends an operand. -/
theorem after_newline (u : Text) : After p allOps ('\n' :: u) ∧ NoBody p ('\n' :: u) :=
  after_single (m := ⟨.nl, ['\n']⟩) (by decide) (by decide) u

theorem lineOk_define (x : Name) (tp : Ty) : LineOk p (.define x tp) := by
  intro u n q hn
  have htext : (Stmt.define x tp).text ++ '\n' :: u =
      word .resVar ++ ' ' :: (x.text ++ ' ' :: (tp.text ++ '\n' :: u)) := by
    simp only [Stmt.text, List.append_assoc, List.cons_append]
  have hne : (Stmt.define x tp).text ≠ [] := by
    simp [Stmt.text]
  rw [htext] at hn ⊢
  simp only [List.length_append, List.length_cons] at hn
  have hvar := next_keyword (c := .resVar) (by decide)
    (endsWord_space (x.text ++ ' ' :: (tp.text ++ '\n' :: u))) (List.cons_ne_nil _ _)
  have hname : Next (' ' :: (x.text ++ ' ' :: (tp.text ++ '\n' :: u))) .var x.text
      (' ' :: (tp.text ++ '\n' :: u)) :=
    (next_name x (endsWord_space _) (List.cons_ne_nil _ _)).blanks blanks_space
  have hends : EndsType ('\n' :: u) :=
    endsType_single (m := ⟨.nl, ['\n']⟩) (by decide) (by decide) u
  have htp := allTypes_text p tp (n := n) (q := q) blanks_space hends
    (by simp only [List.length_append, List.length_cons]; omega)
  rw [List.singleton_append] at htp
  have hscan : (sees .resVar).run
      ⟨word .resVar ++ ' ' :: (x.text ++ ' ' :: (tp.text ++ '\n' :: u)), q⟩ =
      .ok true ⟨' ' :: (x.text ++ ' ' :: (tp.text ++ '\n' :: u)), q⟩ := by
    rw [sees_run hvar (by decide), if_pos rfl]
  have hscan' : (scanType .var).run ⟨' ' :: (x.text ++ ' ' :: (tp.text ++ '\n' :: u)), q⟩ =
      .ok x.text ⟨' ' :: (tp.text ++ '\n' :: u), q⟩ := by
    simp [scanType_run hname]
  obtain ⟨c, t, r, htype, hc⟩ := tp.first hends
  -- the type is no `=`
  have hdef : (p.defineAndAssign (p.depth n)).Refuses
      ⟨word .resVar ++ ' ' :: (x.text ++ ' ' :: (tp.text ++ '\n' :: u)), q⟩ := by
    unfold Parser.defineAndAssign
    refine Back.Refuses.rewinding (Back.Refuses.bind (Back.Refuses.after hscan ?_))
    rw [if_pos rfl]
    exact Back.Refuses.after hscan' (first_refuses (htype.blanks blanks_space) (by decide) hc)
  have hdefine : (p.define (p.depth n)).run
      ⟨word .resVar ++ ' ' :: (x.text ++ ' ' :: (tp.text ++ '\n' :: u)), q⟩ =
      .ok (.define x.text (tp.tree p)) ⟨u, q⟩ := by
    unfold Parser.define
    simp [scanType_run hvar, scanType_run hname, htp, empty_run (next_newline u)]
  exact ⟨_, u, define_statement hvar hdef (depth_pos p n) hdefine, .inl rfl, rfl⟩

theorem Setting.text_ne (d : Setting) : d.text ≠ [] := by
  cases d with
  | deas x e => simp [Setting.text]
  | assign a => simp [Setting.text, Assign.text]

theorem lineOk_setting (d : Setting) : LineOk p (.setting d) := by
  intro u n q hn
  obtain ⟨hafter, hbody⟩ := after_newline (p := p) u
  have hne : (Stmt.setting d).text ≠ [] := d.text_ne
  cases d with
  | deas x e =>
    have hrun := defineAndAssign_run (p := p) (q := q) (w := []) (x := x) (e := e) blanks_nil hafter
      (fun _ => hbody) hn
    have hname : ∃ t r, Next ((Setting.deas x e).text ++ '\n' :: u) .var t r := by
      have htext : (Setting.deas x e).text ++ '\n' :: u =
          x.text ++ ' ' :: ':' :: '=' :: ' ' :: (e.body ++ '\n' :: u) := by
        simp [Setting.text]
      rw [htext]
      exact ⟨_, _, next_name x (endsWord_space _) (List.cons_ne_nil _ _)⟩
    obtain ⟨t, r, hname⟩ := hname
    exact ⟨_, _, deas_statement hname hrun, .inr ⟨hne, rfl⟩, rfl⟩
  | assign a =>
    have hrun := assign_run (p := p) (q := q) (w := []) a blanks_nil hafter (fun _ => hbody) hn
    have hdef := defineAndAssign_assign (p := p) (f := p.depth n) (q := q) (u := '\n' :: u) (w := []) a
      blanks_nil
    obtain ⟨c, t, r, hnext, hc⟩ := a.first ('\n' :: u)
    have hcode : c = .mul ∨ c = .var := hc.imp id And.left
    exact ⟨_, _, assign_statement hnext hcode hdef hrun, .inr ⟨hne, rfl⟩, rfl⟩

theorem lineOk_call (d : CallFunc) : LineOk p (.call d) := by
  intro u n q hn
  obtain ⟨hafter, -⟩ := after_newline (p := p) u
  obtain ⟨v, c, t, r, hname, hsecond, hc⟩ := d.first ('\n' :: u)
  have hrun := callFunc_call (p := p) (n := n) (q := q) (w := []) blanks_nil (d.ref.readsInside p)
    (hafter.mono (List.nil_subset _)) hn
  have hdef : (p.defineAndAssign (p.depth n)).Refuses ⟨d.ref.text ++ '\n' :: u, q⟩ := by
    refine defineAndAssign_refuses_var hname hsecond ?_
    rintro rfl
    exact absurd hc (by decide)
  have hassign : (p.assign (p.depth n)).Refuses ⟨d.ref.text ++ '\n' :: u, q⟩ := by
    obtain ⟨hword, c', t', r', hargs, hdot, hlsb⟩ :=
      next_callArgs d.generics (paramsText d.params ++ (tailText d.tail ++ '\n' :: u))
    have hlen := hn
    rw [Stmt.text, d.ref_text] at hlen
    rw [d.ref_text]
    have hcode : c' ≠ .assign := by
      cases hgs : d.generics with
      | nil =>
        rw [hgs] at hargs
        have hlp : Next ('(' :: (paramsText d.params ++ (tailText d.tail ++ '\n' :: u))) .lp ['('] _ :=
          next_single (m := ⟨.lp, ['(']⟩) (by decide) _
        exact fun h => absurd ((hargs.code_eq hlp).symm.trans h) (by decide)
      | cons g gs =>
        rw [hgs] at hargs
        have hsm := next_sm g (moreText gs ++ '(' ::
          (paramsText d.params ++ (tailText d.tail ++ '\n' :: u)))
        rw [← List.append_assoc] at hsm
        exact fun h => absurd ((hargs.code_eq hsm).symm.trans h) (by decide)
    exact assign_refuses_chain d.chain hword (by simp) hargs (by simp [hdot, hlsb, hcode]) hlen
  exact ⟨_, u, call_statement hname hdef hassign hrun, .inl rfl, rfl⟩

theorem lineOk_break : LineOk p .breakST := by
  intro u n q _
  have hbreak := next_keyword (c := .resBr) (by decide) (endsWord_newline u) (List.cons_ne_nil _ _)
  exact ⟨_, u, break_statement hbreak, .inl rfl, rfl⟩

theorem lineOk_continue : LineOk p .continueST := by
  intro u n q _
  have hcontinue := next_keyword (c := .resCo) (by decide) (endsWord_newline u) (List.cons_ne_nil _ _)
  exact ⟨_, u, continue_statement hcontinue, .inl rfl, rfl⟩

theorem lineOk_ret (value : Option Exp) : LineOk p (.ret value) := by
  intro u n q hn
  cases value with
  | none =>
    have hret := next_keyword (c := .resRet) (by decide) (endsWord_newline u) (List.cons_ne_nil _ _)
    have hrun : (p.returnST (p.depth n)).run ⟨word .resRet ++ '\n' :: u, q⟩ =
        .ok (.ret none) ⟨u, q⟩ := by
      unfold Parser.returnST
      simp [scanType_run hret, runWithCatch_ok (empty_run (next_newline u))]
    exact ⟨_, u, return_statement hret (depth_pos p n) hrun, .inl rfl, rfl⟩
  | some e =>
    have htext : (Stmt.ret (some e)).text ++ '\n' :: u = word .resRet ++ ' ' :: (e.body ++ '\n' :: u) := by
      simp only [Stmt.text, List.append_assoc, List.cons_append]
    have hne : (Stmt.ret (some e)).text ≠ [] := by
      simp [Stmt.text]
    rw [htext] at hn ⊢
    simp only [List.length_append, List.length_cons] at hn
    obtain ⟨hafter, hbody⟩ := after_newline (p := p) u
    have hret := next_keyword (c := .resRet) (by decide) (endsWord_space (e.body ++ '\n' :: u))
      (List.cons_ne_nil _ _)
    obtain ⟨c, t, r, hfirst, hc⟩ := e.next hafter.stops
    have hnl : c ≠ .nl := by
      rintro rfl
      exact absurd hc (by decide)
    have hval := reads p e [' '] ('\n' :: u) n q blanks_space hafter (fun _ => hbody)
      (by simp only [List.length_append, List.length_cons]; omega)
    rw [List.singleton_append] at hval
    have hempty : empty.Refuses ⟨' ' :: (e.body ++ '\n' :: u), q⟩ :=
      Back.refuses_of_panic (empty_panics (hfirst.blanks blanks_space) hnl)
    obtain ⟨e', he'⟩ := hempty.catching (e := Err.other)
    have hrun : (p.returnST (p.depth n)).run ⟨word .resRet ++ ' ' :: (e.body ++ '\n' :: u), q⟩ =
        .ok (.ret (some (e.tree p))) ⟨'\n' :: u, q⟩ := by
      unfold Parser.returnST runWithCatch
      rw [Back.bind_run, scanType_run hret (by decide), if_pos rfl, Run.andThen_ok, Back.bind_run,
        Back.attempt_run, he', Run.andThen_err, Run.andThen_ok]
      simp [hval]
    exact ⟨_, _, return_statement hret (depth_pos p n) hrun, .inr ⟨hne, rfl⟩, rfl⟩

end OneLine

/-! ## All statements -/

theorem If.next (i : If) (u : Text) : ∃ t r, Next (i.text ++ '\n' :: u) .resIf t r := by
  obtain ⟨cond, body, els⟩ := i
  rw [If.text_append]
  exact ⟨_, _, next_keyword (by decide) (endsWord_space _) (List.cons_ne_nil _ _)⟩

theorem If.tree_ne_empty (p : Parser) (i : If) : i.tree p ≠ .empty := by
  obtain ⟨cond, body, els⟩ := i
  cases els <;> rintro ⟨⟩

theorem If.tree_ne_errST (p : Parser) (i : If) (ln : Nat) (src : Text) :
    (Node.errST ln src).erase ≠ (i.tree p).erase := by
  obtain ⟨cond, body, els⟩ := i
  cases els <;> rintro ⟨⟩

theorem lineSpec_if {i : If} (h : IfSpec p i) : LineSpec p (.ifST i) where
  ok := by
    intro hamb u n q hn
    obtain ⟨a, ha, hne, htree⟩ := h.ok hamb [] u n q blanks_nil hn
    obtain ⟨t, r, hif⟩ := i.next u
    have htext : (Stmt.ifST i).text ≠ [] := by
      obtain ⟨cond, body, els⟩ := i
      simp [Stmt.text, If.text]
    refine ⟨a, _, if_statement hif ha, .inr ⟨htext, rfl⟩, ?_⟩
    exact eraseNodes_single hne (i.tree_ne_empty p) htree
  fails := by
    intro hamb u n q hn
    obtain ⟨t, r, hif⟩ := i.next u
    exact if_returns hif (depth_pos p n) (fun ln src => ⟨by rintro ⟨⟩, i.tree_ne_errST p ln src⟩)
      (h.fails hamb [] u n q blanks_nil hn)

mutual

theorem Stmt.lineSpec (p : Parser) : ∀ d : Stmt, LineSpec p d
  | .blank => lineSpec_of_ok rfl lineOk_blank
  | .define x tp => lineSpec_of_ok rfl (lineOk_define x tp)
  | .setting d => lineSpec_of_ok rfl (lineOk_setting d)
  | .call d => lineSpec_of_ok rfl (lineOk_call d)
  | .ifST i => lineSpec_if (i.ifSpec p)
  | .forST h body => forSpec h (lineSpecs p body)
  | .breakST => lineSpec_of_ok rfl lineOk_break
  | .continueST => lineSpec_of_ok rfl lineOk_continue
  | .ret value => lineSpec_of_ok rfl (lineOk_ret value)

theorem If.ifSpec (p : Parser) : ∀ i : If, IfSpec p i
  | .mk cond body els => Parser.ifSpec cond (lineSpecs p body) (els.elseSpec p)

theorem Else.elseSpec (p : Parser) : ∀ els : Else, ElseSpec p els
  | .none => trivial
  | .block body => lineSpecs p body
  | .elseIf i => i.ifSpec p

theorem lineSpecs (p : Parser) : ∀ ds : List Stmt, ∀ d ∈ ds, LineSpec p d
  | [] => by simp
  | d :: ds => by
    have hd := d.lineSpec p
    have hds := lineSpecs p ds
    intro d' hd'
    rcases List.mem_cons.1 hd' with rfl | hd'
    · exact hd
    · exact hds d' hd'

end

/-! ## Lists -/

/-- `statementList` reads the lines, up to `EmptyNode`s, as what they are printed from. -/
def RoundTrips (p : Parser) (ds : List Stmt) (s : Text) (q : Nat) : Prop :=
  ∃ N, ∀ n, N ≤ n → ∃ t l, ((p.statementList (p.depth n)).run
    ⟨linesText ds ++ '\x7d' :: s, q⟩).result = .ok t l ∧
      t.erase = (Node.sl (stmtTrees p ds)).erase

theorem roundTrips (p : Parser) (d : Stmt) (ds : List Stmt) (s : Text) (q : Nat)
    (hany : anyAmbiguous (d :: ds) = false) : RoundTrips p (d :: ds) s q := by
  refine ⟨(linesText (d :: ds) ++ '\x7d' :: s).length, fun n hn => ?_⟩
  have hm : (linesText (d :: ds)).length ≤ (p.depth n).fuel := by
    rw [depth_fuel]
    rw [List.length_append] at hn
    omega
  obtain ⟨as, hrun, htree⟩ := lines_run (q := q) (lines_ok (lineSpecs p _) hany)
    (List.cons_ne_nil d ds) [] hn hm
  refine ⟨.sl as, ⟨'\x7d' :: s, q⟩, ?_, congrArg Node.sl htree⟩
  unfold Parser.statementList
  rw [Back.bind_run, hrun, Run.andThen_ok]
  rfl

theorem not_roundTrips (p : Parser) (ds : List Stmt) (s : Text) (q : Nat)
    (hany : anyAmbiguous ds = true) : ¬ RoundTrips p ds s q := by
  rintro ⟨N, hN⟩
  have hn : (linesText ds ++ '\x7d' :: s).length ≤ max N (linesText ds ++ '\x7d' :: s).length :=
    Nat.le_max_right _ _
  obtain ⟨t, l, hrun, htree⟩ := hN _ (Nat.le_max_left N (linesText ds ++ '\x7d' :: s).length)
  have hm : (linesText ds).length ≤
      (p.depth (max N (linesText ds ++ '\x7d' :: s).length)).fuel := by
    rw [depth_fuel]
    rw [List.length_append] at hn ⊢
    omega
  have hlist := lines_fail (q := q) (fun d hd => (lineSpecs p ds d hd).ok)
    (fun d hd => (lineSpecs p ds d hd).fails) hany [] hn hm
  have hreturns : (p.statementList (p.depth (max N (linesText ds ++ '\x7d' :: s).length))).Returns
      ⟨linesText ds ++ '\x7d' :: s, q⟩ fun t => t.erase ≠ (Node.sl (stmtTrees p ds)).erase := by
    unfold Parser.statementList
    refine hlist.bind fun as l' has => Back.returns_pure fun heq => has ?_
    exact Node.sl.inj heq
  exact hreturns t l hrun htree

/-- `if a {`, a blank line, and `}`. -/
def emptyIf : Stmt := .ifST (.mk (.chain ⟨⟨⟨'a', [], rfl, by simp⟩, rfl⟩, [], []⟩) [.blank] .none)

end CalcLang.Parser
