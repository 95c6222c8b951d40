import CalcLang.Parser.Statements

/-!
# Headers and blocks

What a header is read as depends on the block behind it. Behind a chain like a type,
`structInit` goes on into the block; it fails there on the first statement (`noBody_block`),
and if there is none the block is gone (`structInit_swallows`).
-/

namespace CalcLang.Parser

open CalcLang.Lex CalcLang.Lib

variable {p : Parser} {f : Rec} {w s r t u : Text} {c : TokenType} {k n q : Nat} {e : Exp}
  {body : List Stmt}

/-! ## First tokens -/

theorem endsWord_space (s : Text) : EndsWord (' ' :: s) := endsWord_cons (by decide) s

theorem endsWord_newline (s : Text) : EndsWord ('\n' :: s) := endsWord_cons (by decide) s

theorem Chain.ref_text (c : Chain) (u : Text) :
    c.ref.text ++ u = c.x.text ++ (idxsText c.idxs ++ (nextText c.next ++ u)) := by
  simp [Chain.ref, Ref.text]

theorem CallFunc.ref_text (c : CallFunc) (u : Text) :
    c.ref.text ++ u = c.chain.ref.text ++
      (argsText c.generics ++ '(' :: (paramsText c.params ++ (tailText c.tail ++ u))) := by
  simp [CallFunc.ref, Chain.ref, Ref.text]

/-- The first token of a chain and the one behind it, which is one of a chain or of what follows. -/
theorem Chain.first (d : Chain) (hu : EndsWord u) (hne : u ≠ []) (hnext : Next u c t r) :
    ∃ v c' t' r', Next (d.ref.text ++ u) .var d.x.text v ∧ Next v c' t' r' ∧
      (c' = .lsb ∨ c' = .dot ∨ c' = c) := by
  rw [d.ref_text]
  obtain ⟨c', t', r', hsecond, hc'⟩ : ∃ c' t' r',
      Next (idxsText d.idxs ++ (nextText d.next ++ u)) c' t' r' ∧
        (c' = .lsb ∨ c' = .dot ∨ c' = c) := by
    cases d.idxs with
    | cons e es =>
      exact ⟨.lsb, ['['], _, next_single (m := ⟨.lsb, ['[']⟩) (by decide) _, .inl rfl⟩
    | nil =>
      cases d.next with
      | nil => exact ⟨c, t, r, hnext, .inr (.inr rfl)⟩
      | cons b bs =>
        obtain ⟨y, ys⟩ := b
        exact ⟨.dot, ['.'], _, next_single (m := ⟨.dot, ['.']⟩) (by decide) _, .inr (.inl rfl)⟩
  exact ⟨_, c', t', r', next_name d.x (endsWord_idxs d.idxs (endsWord_next d.next hu))
    (by simp [hne]), hsecond, hc'⟩

theorem next_assign (s : Text) : Next (' ' :: '=' :: ' ' :: s) .assign ['='] (' ' :: s) := by
  intro q
  rfl

theorem next_deas (s : Text) : Next (' ' :: ':' :: '=' :: ' ' :: s) .deas [':', '='] (' ' :: s) := by
  intro q
  rfl

/-- The first token of a call and the one behind it. -/
theorem CallFunc.first (d : CallFunc) (u : Text) : ∃ v c t r,
    Next (d.ref.text ++ u) .var d.chain.x.text v ∧ Next v c t r ∧ c ∈ [.lsb, .dot, .lp, .sm] := by
  rw [d.ref_text]
  have hargs : ∃ c t r, Next (argsText d.generics ++
      '(' :: (paramsText d.params ++ (tailText d.tail ++ u))) c t r ∧ (c = .lp ∨ c = .sm) := by
    cases d.generics with
    | nil =>
      exact ⟨.lp, ['('], _, next_single (m := ⟨.lp, ['(']⟩) (by decide) _, .inl rfl⟩
    | cons g gs =>
      have hsm := next_sm g (moreText gs ++ '(' :: (paramsText d.params ++ (tailText d.tail ++ u)))
      rw [← List.append_assoc] at hsm
      exact ⟨.sm, ['<'], _, hsm, .inr rfl⟩
  obtain ⟨c, t, r, hnext, hc⟩ := hargs
  obtain ⟨v, c', t', r', hname, hsecond, hc'⟩ :=
    d.chain.first (next_callArgs d.generics _).1 (by simp) hnext
  refine ⟨v, c', t', r', hname, hsecond, ?_⟩
  rcases hc' with rfl | rfl | rfl
  · decide
  · decide
  · rcases hc with rfl | rfl <;> decide

theorem Assign.text_append (a : Assign) (u : Text) : a.text ++ u = List.replicate a.level '*' ++
    (a.target.ref.text ++ ' ' :: '=' :: ' ' :: (a.value.body ++ u)) := by
  simp [Assign.text]

theorem Assign.first (a : Assign) (u : Text) : ∃ c t r, Next (a.text ++ u) c t r ∧
    (c = .mul ∨ c = .var ∧ ∃ c' t' r', Next r c' t' r' ∧ c' ∈ [.lsb, .dot, .assign]) := by
  rw [a.text_append]
  cases a.level with
  | zero =>
    obtain ⟨v, c', t', r', hname, hsecond, hc'⟩ := a.target.first
      (endsWord_space _) (List.cons_ne_nil _ _) (next_assign (a.value.body ++ u))
    refine ⟨_, _, v, hname, .inr ⟨rfl, c', t', r', hsecond, ?_⟩⟩
    rcases hc' with rfl | rfl | rfl <;> decide
  | succ k => exact ⟨.mul, ['*'], _, next_single (m := ⟨.mul, ['*']⟩) (by decide) _, .inl rfl⟩

/-- The keywords of statements. -/
def keywords : List TokenType := [.resVar, .resIf, .resEl, .resFor, .resBr, .resCo, .resRet]

theorem next_keyword (hc : c ∈ keywords) (hr : EndsWord r) (hne : r ≠ []) :
    Next (word c ++ r) c (word c) r := by
  have hall : ∀ c ∈ keywords, (word c, c) ∈ reserved := by decide
  exact next_word (hall c hc) hr hne

theorem Header.endsWord (h : Header) (s : Text) : EndsWord (h.text ++ ' ' :: s) := by
  cases h with
  | bare => exact endsWord_space s
  | parts init cond step =>
    cases init with
    | none => exact endsWord_cons (by decide) _
    | some i => exact endsWord_space _

/-- The first token of a line. -/
theorem Stmt.first (d : Stmt) (h : d.isBlank = false) (u : Text) :
    ∃ c t r, Next (d.text ++ '\n' :: u) c t r ∧ c ∉ [.rb, .nl] ∧
      (c = .var → ∃ c' t' r', Next r c' t' r' ∧ c' ≠ .colon) := by
  -- all statements but a setting and a call begin with a keyword
  have hword : ∀ c ∈ keywords, ∀ r, EndsWord r → r ≠ [] → ∃ c' t r', Next (word c ++ r) c' t r' ∧
      c' ∉ [.rb, .nl] ∧ (c' = .var → ∃ c'' t' r'', Next r' c'' t' r'' ∧ c'' ≠ .colon) := by
    have hall : ∀ c ∈ keywords, c ∉ [.rb, .nl] ∧ c ≠ .var := by decide
    intro c hc r hr hne
    exact ⟨c, word c, r, next_keyword hc hr hne, (hall c hc).1, fun h => absurd h (hall c hc).2⟩
  cases d with
  | blank => cases h
  | define x tp =>
    have htext : (Stmt.define x tp).text ++ '\n' :: u =
        word .resVar ++ ' ' :: (x.text ++ ' ' :: (tp.text ++ '\n' :: u)) := by
      simp only [Stmt.text, List.append_assoc, List.cons_append]
    rw [htext]
    exact hword .resVar (by decide) _ (endsWord_space _) (List.cons_ne_nil _ _)
  | setting d =>
    cases d with
    | deas x value =>
      have htext : (Stmt.setting (.deas x value)).text ++ '\n' :: u =
          x.text ++ ' ' :: ':' :: '=' :: ' ' :: (value.body ++ '\n' :: u) := by
        simp [Stmt.text, Setting.text]
      rw [htext]
      exact ⟨_, _, _, next_name x (endsWord_space _) (List.cons_ne_nil _ _), by decide,
        fun _ => ⟨_, _, _, next_deas _, by decide⟩⟩
    | assign a =>
      obtain ⟨c, t, r, hnext, hc⟩ := a.first ('\n' :: u)
      refine ⟨c, t, r, hnext, ?_⟩
      rcases hc with rfl | ⟨rfl, c', t', r', hsecond, hc'⟩
      · exact ⟨by decide, fun h => absurd h (by decide)⟩
      · refine ⟨by decide, fun _ => ⟨c', t', r', hsecond, ?_⟩⟩
        rintro rfl
        exact absurd hc' (by decide)
  | call d =>
    obtain ⟨v, c, t, r, hname, hsecond, hc⟩ := d.first ('\n' :: u)
    refine ⟨_, _, v, hname, by decide, fun _ => ⟨c, t, r, hsecond, ?_⟩⟩
    rintro rfl
    exact absurd hc (by decide)
  | ifST i =>
    obtain ⟨cond, body, els⟩ := i
    have htext : (Stmt.ifST (.mk cond body els)).text ++ '\n' :: u = word .resIf ++
        ' ' :: (cond.text ++ (blockText (linesText body) ++ (els.text ++ '\n' :: u))) := by
      simp only [Stmt.text, If.text, List.append_assoc, List.cons_append]
    rw [htext]
    exact hword .resIf (by decide) _ (endsWord_space _) (List.cons_ne_nil _ _)
  | forST d body =>
    have htext : (Stmt.forST d body).text ++ '\n' :: u =
        word .resFor ++ (d.text ++ (blockText (linesText body) ++ '\n' :: u)) := by
      simp only [Stmt.text, List.append_assoc]
    rw [htext]
    exact hword .resFor (by decide) _ (d.endsWord _) (by simp [blockText])
  | breakST =>
    exact hword .resBr (by decide) _ (endsWord_newline u) (List.cons_ne_nil _ _)
  | continueST =>
    exact hword .resCo (by decide) _ (endsWord_newline u) (List.cons_ne_nil _ _)
  | ret value =>
    cases value with
    | none =>
      exact hword .resRet (by decide) _ (endsWord_newline u) (List.cons_ne_nil _ _)
    | some e =>
      have htext : (Stmt.ret (some e)).text ++ '\n' :: u =
          word .resRet ++ ' ' :: (e.body ++ '\n' :: u) := by
        simp only [Stmt.text, List.append_assoc, List.cons_append]
      rw [htext]
      exact hword .resRet (by decide) _ (endsWord_space _) (List.cons_ne_nil _ _)

/-! ## Blocks as literals of a struct -/

theorem blockText_append (lines s : Text) :
    blockText lines ++ s = ' ' :: '\x7b' :: '\n' :: (lines ++ '\x7d' :: s) := by
  simp [blockText]

theorem next_newline (s : Text) : Next ('\n' :: s) .nl ['\n'] s :=
  next_single (m := ⟨.nl, ['\n']⟩) (by decide) s

theorem next_rb (s : Text) : Next ('\x7d' :: s) .rb ['\x7d'] s :=
  next_single (m := ⟨.rb, ['\x7d']⟩) (by decide) s

theorem next_lb (s : Text) : Next (' ' :: '\x7b' :: s) .lb ['\x7b'] s :=
  Next.blanks (next_single (m := ⟨.lb, ['\x7b']⟩) (by decide) s) blanks_space

theorem next_block (lines s : Text) :
    Next (blockText lines ++ s) .lb ['\x7b'] ('\n' :: (lines ++ '\x7d' :: s)) := by
  rw [blockText_append]
  exact next_lb _

section AsStruct

variable {fields : List (Text × Node)}

theorem structInitTurn_newline : (structInitTurn f fields).run ⟨'\n' :: s, q⟩ =
    .ok (.inl fields) ⟨s, q⟩ := by
  unfold structInitTurn
  simp [sees_run (next_newline s), scanType_run (next_newline s), empty_run (next_newline s)]

theorem structInitTurn_rb : (structInitTurn f fields).run ⟨'\x7d' :: s, q⟩ =
    .ok (.inr fields) ⟨s, q⟩ := by
  unfold structInitTurn
  simp [sees_run (next_rb s)]

/-- A field is a name with a colon behind it. -/
theorem structInitTurn_refuses (h : Next s c t r) (hc : c ∉ [.rb, .nl])
    (hcolon : c = .var → ∃ c' t' r', Next r c' t' r' ∧ c' ≠ .colon) :
    (structInitTurn f fields).Refuses ⟨s, q⟩ := by
  simp only [List.mem_cons, List.not_mem_nil, or_false, not_or] at hc
  have hrb : (sees .rb).run ⟨s, q⟩ = .ok false ⟨s, q⟩ := by
    rw [sees_run h (by decide), if_neg hc.1]
  unfold structInitTurn
  refine Back.Refuses.after hrb ?_
  rw [if_neg Bool.false_ne_true]
  by_cases hvar : c = .var
  · obtain ⟨c', t', r', hnext, hne⟩ := hcolon hvar
    have hname : ((scanType .var).attempt).run ⟨s, q⟩ = .ok (.ok t) ⟨r, q⟩ := by
      simp [scanType_run h, hvar]
    refine Back.Refuses.after hname ?_
    show Back.Refuses (if t.contains '.' then Back.panic else _) _
    split
    · exact Back.refuses_of_panic rfl
    · exact (scanType_refuses hnext (by decide) hne).bind
  · have hname : ((scanType .var).attempt).run ⟨s, q⟩ = .ok (.error .type) ⟨s, q⟩ := by
      simp [scanType_run h, hvar]
    refine Back.Refuses.after hname ?_
    exact (Back.refuses_of_panic (empty_panics h hc.2)).bind

theorem Stmt.eq_blank (d : Stmt) (h : d.isBlank = true) : d = .blank := by
  cases d with
  | blank => rfl
  | _ => cases h

/-- Blank lines are no fields. -/
theorem structInit_blanks (hbody : blankLines body = true) {m : Nat} (hm : body.length < m) :
    (Back.iterate (structInitTurn f) m fields).run ⟨linesText body ++ '\x7d' :: s, q⟩ =
      .ok fields ⟨s, q⟩ := by
  induction body generalizing m with
  | nil =>
    obtain ⟨m, rfl⟩ : ∃ k, m = k + 1 := ⟨m - 1, by simp at hm; omega⟩
    exact Back.iterate_last structInitTurn_rb m
  | cons d body ih =>
    obtain ⟨m, rfl⟩ : ∃ k, m = k + 1 := ⟨m - 1, by simp at hm; omega⟩
    unfold blankLines at hbody
    rw [List.all_cons, Bool.and_eq_true] at hbody
    obtain rfl := d.eq_blank hbody.1
    rw [linesText, Stmt.text, List.nil_append, List.cons_append,
      Back.iterate_next structInitTurn_newline]
    exact ih hbody.2 (by simpa using hm)

/-- A line that is not blank is no field. -/
theorem structInit_lines (hbody : blankLines body = false) {m : Nat} (hm : body.length < m) :
    (Back.iterate (structInitTurn f) m fields).Refuses ⟨linesText body ++ s, q⟩ := by
  induction body generalizing m with
  | nil => cases hbody
  | cons d body ih =>
    obtain ⟨m, rfl⟩ : ∃ k, m = k + 1 := ⟨m - 1, by simp at hm; omega⟩
    have htext : linesText (d :: body) ++ s = d.text ++ '\n' :: (linesText body ++ s) := by
      simp [linesText]
    rw [htext]
    cases hd : d.isBlank with
    | false =>
      obtain ⟨c, t, r, hnext, hc, hcolon⟩ := d.first hd (linesText body ++ s)
      exact (structInitTurn_refuses hnext hc hcolon).iterate m
    | true =>
      unfold blankLines at hbody ih
      rw [List.all_cons, hd, Bool.true_and] at hbody
      obtain rfl := d.eq_blank hd
      unfold Back.Refuses at ih ⊢
      rw [Stmt.text, List.nil_append, Back.iterate_next structInitTurn_newline]
      exact ih hbody (by simpa using hm)

theorem length_le_linesText (body : List Stmt) : body.length ≤ (linesText body).length := by
  induction body with
  | nil => exact Nat.zero_le _
  | cons d body ih =>
    simp only [linesText, List.length_cons, List.length_append]
    omega

end AsStruct

/-- A block with a statement is no literal of a struct. -/
theorem noBody_block (hbody : blankLines body = false) (s : Text) :
    NoBody p (blockText (linesText body) ++ s) := by
  intro n q tp hn
  have hlen := length_le_linesText body
  rw [blockText_append] at hn ⊢
  simp only [List.length_cons, List.length_append] at hn
  have hlb : (scanType .lb).run ⟨' ' :: '\x7b' :: '\n' :: (linesText body ++ '\x7d' :: s), q⟩ =
      .ok ['\x7b'] ⟨'\n' :: (linesText body ++ '\x7d' :: s), q⟩ := by
    simp [scanType_run (next_lb _)]
  unfold structInitBody
  refine Back.Refuses.after hlb (Back.Refuses.bind ?_)
  unfold Back.Refuses
  rw [depth_fuel, Back.iterate_next structInitTurn_newline]
  exact structInit_lines hbody (by omega)

/-- A block of blank lines is one without fields. -/
theorem structInitBody_block (hbody : blankLines body = true) (tp : TypeNode)
    (hn : (blockText (linesText body) ++ s).length ≤ n) :
    (structInitBody (p.depth n) tp).run ⟨blockText (linesText body) ++ s, q⟩ =
      .ok (.structInit tp []) ⟨s, q⟩ := by
  have hlen := length_le_linesText body
  rw [blockText_append] at hn ⊢
  simp only [List.length_cons, List.length_append] at hn
  have hloop : (Back.iterate (structInitTurn (p.depth n)) (p.depth n).fuel []).run
      ⟨'\n' :: (linesText body ++ '\x7d' :: s), q⟩ = .ok [] ⟨s, q⟩ := by
    rw [depth_fuel, Back.iterate_next structInitTurn_newline]
    exact structInit_blanks hbody (by omega)
  unfold structInitBody
  simp [scanType_run (next_lb _), hloop]

/-! ## A chain in front of a block of blank lines -/

/-- A chain like a type, with a block of blank lines behind it, is a literal of a struct. -/
theorem structInit_swallows {d : Chain} (hlike : d.likeType = true) (hbody : blankLines body = true)
    (hw : Blanks w) (hn : (blockText (linesText body) ++ s).length ≤ n) : ∃ tp,
    (p.structInit (p.depth n)).run ⟨w ++ (d.ref.text ++ (blockText (linesText body) ++ s)), q⟩ =
      .ok (.structInit tp []) ⟨s, q⟩ := by
  have hlb := next_block (linesText body) s
  have hg : (opt (genericCallParams (p.depth n))).run ⟨blockText (linesText body) ++ s, q⟩ =
      .ok none ⟨blockText (linesText body) ++ s, q⟩ :=
    opt_of_err (genericCallParams_none hlb (by decide))
  have hu : EndsWord (blockText (linesText body) ++ s) := endsWord_space _
  have hne : blockText (linesText body) ++ s ≠ [] := List.cons_ne_nil _ _
  obtain ⟨pkg, x, htext⟩ : ∃ (pkg : Option Name) (x : Name), ∀ u,
      d.ref.text ++ u = qualifier pkg ++ (x.text ++ u) := by
    obtain ⟨x, idxs, next⟩ := d
    have hlike' : likeType idxs next = true := hlike
    unfold likeType at hlike'
    split at hlike'
    next =>
      refine ⟨none, x, fun u => ?_⟩
      rw [List.isEmpty_iff.1 hlike']
      simp [Chain.ref, Ref.text, idxsText, nextText, qualifier]
    next y ys =>
      rw [Bool.and_eq_true, List.isEmpty_iff, List.isEmpty_iff] at hlike'
      obtain ⟨rfl, rfl⟩ := hlike'
      refine ⟨some x, y, fun u => ?_⟩
      simp [Chain.ref, Ref.text, idxsText, nextText, qualifier]
    next => cases hlike'
  obtain ⟨tp, htp⟩ := allTypes_named (p := p) (n := n) (q := q) pkg x hw hu hne
    (fun _ => ⟨_, _, _, hlb, by decide⟩) hg
  refine ⟨tp, ?_⟩
  unfold Parser.structInit
  rw [htext, Back.bind_run, htp, Run.andThen_ok, structInitBody_block hbody tp hn]

/-- At the level `k` the last operand takes the block with it. -/
def Swallows (p : Parser) (k : Nat) (e : Exp) : Prop :=
  ∀ w body s c t r n q, Blanks w → blankLines body = true → Next s c t r → c ∉ allOps →
    (e.text k ++ (blockText (linesText body) ++ s)).length ≤ n →
    ∃ a, (levelParser p (p.depth n) k).run
      ⟨w ++ (e.text k ++ (blockText (linesText body) ++ s)), q⟩ = .ok a ⟨s, q⟩

section Swallows

/-- A block is behind an operand. -/
theorem after_block (lines s : Text) : After p allOps (blockText lines ++ s) := by
  have hlb := next_block lines s
  rw [blockText_append] at hlb ⊢
  exact after_next (by decide) hlb (by decide) (by decide)

theorem swallows_chain {d : Chain} (hlike : d.likeType = true) : Swallows p 4 (.ref d.ref) := by
  intro w body s c t r n q hw hbody _ _ hn
  have htext : (Exp.ref d.ref).text 4 = d.ref.text := by
    simp [Exp.text, Exp.body, Exp.level, wrap]
  rw [htext] at hn ⊢
  have hstops := (after_block (p := p) (linesText body) s).stops
  obtain ⟨t', r', hfirst⟩ := d.ref.next hstops
  have hfirst' := hfirst.blanks hw
  obtain ⟨tp, hstruct⟩ := structInit_swallows (p := p) (n := n) (q := q) (s := s) hlike hbody hw (by
    rw [List.length_append] at hn
    omega)
  have hlevel := stars_none (q := q) (f := p.depth n) hfirst' (by decide) (depth_pos p n)
  have harray : (arrayInit (p.depth n)).Refuses
      ⟨w ++ (d.ref.text ++ (blockText (linesText body) ++ s)), q⟩ := by
    unfold arrayInit
    exact (Back.refuses_of_err (arrayTypes_none hfirst' (by decide))).bind
  have hval : (p.takeValExp (p.depth n)).run
      ⟨w ++ (d.ref.text ++ (blockText (linesText body) ++ s)), q⟩ =
      .ok (.structInit tp []) ⟨s, q⟩ := by
    unfold Parser.takeValExp
    rw [Back.bind_run, hlevel, Run.andThen_ok, Back.bind_run, runWithCatch_orElse harray,
      orElse_ok (runWithCatch_ok hstruct)]
    rfl
  refine ⟨.structInit tp [], ?_⟩
  show (p.number (p.depth n)).run _ = _
  unfold number
  rw [runWithCatch_orElse (strExp_refuses hfirst' (by decide)), orElse_ok (runWithCatch_ok hval)]

/-- From a level to the one outside it. -/
theorem Swallows.pred (hk : k < 4) (hne : e.level ≠ k) (h : Swallows p (k + 1) e) :
    Swallows p k e := by
  intro w body s c t r n q hw hbody hnext hc hn
  rw [← Exp.text_succ hne] at hn ⊢
  obtain ⟨a, ha⟩ := h w body s c t r n q hw hbody hnext hc hn
  refine ⟨a, ?_⟩
  rcases Nat.lt_or_ge k 3 with hlt | hge
  · have hops : c ∉ levelOps k := fun hc' => hc (opsFrom_subset k (levelOps_subset k hc'))
    rw [levelParser_loop p _ hlt, Back.bind_run, ha, Run.andThen_ok, depth_fuel,
      levelLoop_last hnext hops]
  · obtain rfl : k = 3 := by omega
    have hstops := (after_block (p := p) (linesText body) s).stops
    obtain ⟨c', t', r', hfirst, hplus, hsub⟩ := Exp.next_number hstops hne
    have ha' : (p.number (p.depth n)).run
        ⟨w ++ (e.text 4 ++ (blockText (linesText body) ++ s)), q⟩ = .ok a ⟨s, q⟩ := ha
    show (p.symbol (p.depth n)).run ⟨w ++ (e.text 4 ++ (blockText (linesText body) ++ s)), q⟩ = _
    unfold symbol
    simp [scan_run (hfirst.blanks hw), hplus, hsub, ha']

theorem swallows_unary {op : Sign} (h : Swallows p 4 e) : Swallows p 3 (.unary op e) := by
  intro w body s c t r n q hw hbody hnext hc hn
  have htext : (Exp.unary op e).text 3 ++ (blockText (linesText body) ++ s) =
      op.char :: (e.text 4 ++ (blockText (linesText body) ++ s)) := by
    simp [Exp.text, Exp.body, Exp.level, wrap]
  rw [htext] at hn ⊢
  obtain ⟨hsign, hcode⟩ := op.next
  obtain ⟨a, ha⟩ := h [] body s c t r n q blanks_nil hbody hnext hc (by
    rw [List.length_cons] at hn
    omega)
  have ha' : (p.number (p.depth n)).run ⟨e.text 4 ++ (blockText (linesText body) ++ s), q⟩ =
      .ok a ⟨s, q⟩ := ha
  refine ⟨.unary op.code a, ?_⟩
  show (p.symbol (p.depth n)).run
    ⟨w ++ op.char :: (e.text 4 ++ (blockText (linesText body) ++ s)), q⟩ = _
  unfold symbol
  simp [scan_run ((hsign _).blanks hw), hcode, ha']

theorem swallows_bin {op : Op} {left right : Exp} (h : Swallows p (op.level + 1) right) :
    Swallows p op.level (.bin op left right) := by
  intro w body s c t r n q hw hbody hnext hc hn
  have htext : (Exp.bin op left right).text op.level ++ (blockText (linesText body) ++ s) =
      left.text op.level ++ (' ' :: (op.text ++ ' ' :: (right.text (op.level + 1) ++
        (blockText (linesText body) ++ s)))) := by
    simp [Exp.text, Exp.body, Exp.level, wrap]
  rw [htext] at hn ⊢
  obtain ⟨hafter, hnobody⟩ := after_op (p := p) op (right.text (op.level + 1) ++
    (blockText (linesText body) ++ s))
  obtain ⟨m, hm, hleft⟩ := (left.readsLevels p).reaches op.level op.level_lt w _ n q hw hafter
    (fun _ => hnobody) hn
  simp only [List.length_append, List.length_cons] at hm hn
  obtain ⟨m, rfl⟩ : ∃ k, m = k + 1 := ⟨m - 1, by omega⟩
  obtain ⟨a, ha⟩ := h [' '] body s c t r n q blanks_space hbody hnext hc (by
    simp only [List.length_append]
    omega)
  rw [List.singleton_append] at ha
  have hops : c ∉ levelOps op.level := fun hc' => hc (opsFrom_subset _ (levelOps_subset _ hc'))
  have hop : Next (' ' :: (op.text ++ ' ' :: (right.text (op.level + 1) ++
      (blockText (linesText body) ++ s)))) op.code op.text
      (' ' :: (right.text (op.level + 1) ++ (blockText (linesText body) ++ s))) :=
    (next_op op _).blanks blanks_space
  refine ⟨.bin op.code (left.tree p) a, ?_⟩
  rw [hleft]
  have hturn : (leftAssocTurn (levelOps op.level) (levelParser p (p.depth n) (op.level + 1))
      (left.tree p)).run ⟨' ' :: (op.text ++ ' ' :: (right.text (op.level + 1) ++
        (blockText (linesText body) ++ s))), q⟩ =
      .ok (.inl (.bin op.code (left.tree p) a)) ⟨s, q⟩ := by
    unfold leftAssocTurn
    simp [scan_run hop, op.code_mem, ha]
  unfold levelLoop
  rw [Back.iterate_next hturn]
  exact levelLoop_last hnext hops _ _

/-- From a level outwards, as far as the expression is printed the same. -/
theorem Swallows.out {d : Nat} (h : Swallows p (k + d) e) (hle : k + d ≤ e.level) (h4 : k + d ≤ 4) :
    Swallows p k e := by
  induction d with
  | zero => exact h
  | succ d ih => exact ih (Swallows.pred (by omega) (by omega) h) (by omega) (by omega)

theorem swallows : ∀ (e : Exp) (k : Nat), k ≤ 4 → e.endsLikeType k = true → Swallows p k e
  | .num d, k, hk, h => by cases h
  | .ref (.chain x idxs next), k, hk, h => by
    have h4 : Swallows p 4 (.ref (.chain x idxs next)) := swallows_chain (d := ⟨x, idxs, next⟩) h
    obtain ⟨d, hd⟩ := Nat.exists_eq_add_of_le hk
    rw [hd] at h4
    exact h4.out (Nat.le_of_eq hd.symm) (Nat.le_of_eq hd.symm)
  | .ref (.call ..), k, hk, h => by cases h
  | .unary op child, k, hk, h => by
    unfold Exp.endsLikeType at h
    rw [Bool.and_eq_true, decide_eq_true_iff] at h
    have h3 : Swallows p 3 (.unary op child) :=
      swallows_unary (swallows child 4 (Nat.le_refl 4) h.2)
    obtain ⟨d, hd⟩ := Nat.exists_eq_add_of_le h.1
    rw [hd] at h3
    exact h3.out (Nat.le_of_eq hd.symm) (by omega)
  | .bin op left right, k, hk, h => by
    unfold Exp.endsLikeType at h
    rw [Bool.and_eq_true, decide_eq_true_iff] at h
    have hlt := op.level_lt
    have hown : Swallows p op.level (.bin op left right) :=
      swallows_bin (swallows right (op.level + 1) (by omega) h.2)
    obtain ⟨d, hd⟩ := Nat.exists_eq_add_of_le h.1
    rw [hd] at hown
    exact hown.out (Nat.le_of_eq hd.symm) (by omega)

end Swallows

/-- The value of an assignment takes the block with it. -/
theorem allexp_swallows (hlike : e.endsLikeType 0 = true) (hw : Blanks w)
    (hbody : blankLines body = true) (hnext : Next s c t r) (hc : c ∉ allOps)
    (hn : (e.body ++ (blockText (linesText body) ++ s)).length ≤ n) : ∃ a,
    (p.allexp (p.depth n)).run ⟨w ++ (e.body ++ (blockText (linesText body) ++ s)), q⟩ =
      .ok a ⟨s, q⟩ := by
  obtain ⟨c', t', r', hfirst, hstart⟩ := e.next (after_block (p := p) (linesText body) s).stops
  rw [← e.text_zero] at hn
  obtain ⟨a, ha⟩ := swallows (p := p) e 0 (Nat.zero_le 4) hlike w body s c t r n q hw hbody hnext hc hn
  rw [e.text_zero] at ha
  exact ⟨a, allexp_exp (hfirst.blanks hw) hstart ha hnext hc (depth_pos p n)⟩

end CalcLang.Parser
