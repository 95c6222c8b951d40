import CalcLang.Parser.Blocks

/-!
# Conditions and assignments

What `boolexp`, `assign` and `defineAndAssign` read in a header or a line: the whole of it, if
no literal of a struct goes on behind (`NoBody`), and otherwise the block with it.
-/

namespace CalcLang.Parser

open CalcLang.Lex CalcLang.Lib

variable {p : Parser} {f : Rec} {w s r t u : Text} {c : TokenType} {k n q : Nat} {e : Exp}
  {body : List Stmt}

/-! ## Conditions -/

section Conditions

theorem next_compare (op : CompareOp) (s : Text) :
    Next (' ' :: (op.text ++ ' ' :: s)) op.code op.text (' ' :: s) := by
  intro q
  cases op <;> rfl

/-- Where a chain stops being a type. -/
theorem Chain.typePart (d : Chain) (hu : EndsWord u) (hne : u ≠ []) (hnext : Next u c t r) :
    ∃ (pkg : Option Name) (x : Name) (v : Text), d.ref.text ++ u = qualifier pkg ++ (x.text ++ v) ∧
      EndsWord v ∧ v ≠ [] ∧ ∃ c' t' r', Next v c' t' r' ∧
        (c' = .lsb ∨ c' = .dot ∧ pkg ≠ none ∨ c' = c ∧ v = u) := by
  obtain ⟨x, idxs, next⟩ := d
  rw [Chain.ref_text]
  have hlsb : ∀ e es v, Next (idxsText (e :: es) ++ v) .lsb ['['] (e.body ++ ']' :: idxsText es ++ v) :=
    fun e es v => next_single (m := ⟨.lsb, ['[']⟩) (by decide) _
  cases idxs with
  | cons e es =>
    exact ⟨none, x, _, rfl, endsWord_cons (by decide) _, List.cons_ne_nil _ _, _, _, _,
      hlsb e es (nextText next ++ u), .inl rfl⟩
  | nil =>
    cases next with
    | nil => exact ⟨none, x, u, rfl, hu, hne, c, t, r, hnext, .inr (.inr ⟨rfl, rfl⟩)⟩
    | cons b bs =>
      obtain ⟨y, ys⟩ := b
      refine ⟨some x, y, idxsText ys ++ (nextText bs ++ u), ?_,
        endsWord_idxs ys (endsWord_next bs hu), by simp [hne], ?_⟩
      · simp [idxsText, nextText, qualifier]
      · cases ys with
        | cons e es => exact ⟨_, _, _, hlsb e es _, .inl rfl⟩
        | nil =>
          cases bs with
          | nil => exact ⟨c, t, r, hnext, .inr (.inr ⟨rfl, rfl⟩)⟩
          | cons b bs =>
            obtain ⟨z, zs⟩ := b
            refine ⟨.dot, ['.'], _, next_single (m := ⟨.dot, ['.']⟩) (by decide) _, ?_⟩
            exact .inr (.inl ⟨rfl, Option.some_ne_none x⟩)

/-- No arguments begin with what stands at `s`: no type does, or they would not end behind it. -/
def NoArgs (p : Parser) (s : Text) : Prop :=
  ∀ w n q, Blanks w → s.length ≤ n →
    (∃ e l, (p.allTypes (p.depth n)).run ⟨w ++ s, q⟩ = .err e l) ∨
      ∃ tp v, (p.allTypes (p.depth n)).run ⟨w ++ s, q⟩ = .ok tp ⟨v, q⟩ ∧
        ∃ c t r, Next v c t r ∧ c ∉ [.lg, .leq, .shr, .comma]

/-- Then a `<` in front of it is one of a comparison. -/
theorem NoArgs.generics (h : NoArgs p s) (hn : (' ' :: '<' :: ' ' :: s).length ≤ n) :
    ∃ e, (genericCallParams (p.depth n)).run ⟨' ' :: '<' :: ' ' :: s, q⟩ =
      .err e ⟨' ' :: '<' :: ' ' :: s, q⟩ := by
  obtain ⟨n, rfl⟩ : ∃ k, n = k + 1 := ⟨n - 1, by rw [List.length_cons] at hn; omega⟩
  simp only [List.length_cons] at hn
  have hsm : Next (' ' :: '<' :: ' ' :: s) .sm ['<'] (' ' :: s) := next_compare .sm s
  rcases h [' '] n q blanks_space (by omega) with ⟨e, l, htp⟩ | ⟨tp, v, htp, c, t, r, hstop, hc⟩
  · have htp' : (p.depth (n + 1)).allTypes.run ⟨' ' :: s, q⟩ = .err e l := htp
    refine ⟨e, ?_⟩
    unfold genericCallParams
    simp [scanType_run hsm, htp']
  · simp only [List.mem_cons, List.not_mem_nil, or_false, not_or] at hc
    obtain ⟨hlg, hleq, hshr, hcomma⟩ := hc
    have htp' : (p.depth (n + 1)).allTypes.run ⟨' ' :: s, q⟩ = .ok tp ⟨v, q⟩ := htp
    have hturn : (genericCallParamsTurn (p.depth (n + 1)) [tp]).run ⟨v, q⟩ = .err .type ⟨v, q⟩ := by
      unfold genericCallParamsTurn
      simp [sees_lg hstop hlg hleq hshr, scanType_run hstop, hcomma]
    have hloop : (Back.iterate (genericCallParamsTurn (p.depth (n + 1))) (p.depth (n + 1)).fuel
        [tp]).run ⟨v, q⟩ = .err .type ⟨v, q⟩ := by
      rw [depth_fuel, Back.iterate, Back.bind_run, hturn, Run.andThen_err]
    refine ⟨.type, ?_⟩
    unfold genericCallParams
    simp [scanType_run hsm, htp', hloop]

/-- A chain as a type, with the arguments behind it or none. -/
theorem noArgs_chain (d : Chain) (hu : EndsWord u) (hne : u ≠ []) (hnext : Next u c t r)
    (hc : c ∉ [.dot, .lg, .leq, .shr, .comma])
    (hgenerics : ∀ n q, u.length ≤ n → ∃ g v, (opt (genericCallParams (p.depth n))).run ⟨u, q⟩ =
      .ok g ⟨v, q⟩ ∧ ∃ c t r, Next v c t r ∧ c ∉ [.lg, .leq, .shr, .comma]) :
    NoArgs p (d.ref.text ++ u) := by
  intro w n q hw hn
  obtain ⟨pkg, x, v, htext, hv, hvne, c', t', r', hstop, hc'⟩ := d.typePart hu hne hnext
  simp only [List.mem_cons, List.not_mem_nil, or_false, not_or] at hc
  have hdot : pkg = none → c' ≠ .dot := by
    intro hpkg
    rcases hc' with rfl | ⟨-, hne⟩ | ⟨rfl, -⟩
    · decide
    · exact absurd hpkg hne
    · exact hc.1
  have hargs : ∃ g v', (opt (genericCallParams (p.depth n))).run ⟨v, q⟩ = .ok g ⟨v', q⟩ ∧
      ∃ c t r, Next v' c t r ∧ c ∉ [.lg, .leq, .shr, .comma] := by
    rcases hc' with rfl | ⟨rfl, -⟩ | ⟨-, rfl⟩
    · exact ⟨none, v, opt_of_err (genericCallParams_none hstop (by decide)), _, _, _, hstop, by decide⟩
    · exact ⟨none, v, opt_of_err (genericCallParams_none hstop (by decide)), _, _, _, hstop, by decide⟩
    · rw [List.length_append] at hn
      exact hgenerics n q (by omega)
  obtain ⟨g, v', hg, hend⟩ := hargs
  obtain ⟨tp, htp⟩ := allTypes_named (p := p) (n := n) (q := q) pkg x hw hv hvne
    (fun h => ⟨c', t', r', hstop, hdot h⟩) hg
  rw [htext]
  exact .inr ⟨tp, v', htp, hend⟩

/-- A comparison goes on behind its left operand. -/
theorem NoArgs.after_compare (op : CompareOp) (h : NoArgs p s) :
    After p (opsFrom 0) (' ' :: (op.text ++ ' ' :: s)) ∧ NoBody p (' ' :: (op.text ++ ' ' :: s)) := by
  have hop := next_compare op s
  have hcode : op.code ∉ [.dot, .lsb, .lp] ∧ op.code ∉ opsFrom 0 ∧ op.code ≠ .lb := by
    cases op <;> decide
  refine ⟨⟨⟨' ', _, rfl, by decide⟩, ⟨_, _, _, hop, hcode.1, hcode.2.1⟩, ?_⟩,
    noBody_next hop hcode.2.2⟩
  intro n q hn
  by_cases hsm : op = .sm
  · subst hsm
    exact h.generics hn
  · have hne : op.code ≠ .sm := by
      cases op
      case sm => exact absurd rfl hsm
      all_goals decide
    exact ⟨.type, genericCallParams_none hop hne⟩

theorem after_compare (op : CompareOp) (d : Chain) (hu : EndsWord u) (hne : u ≠ [])
    (hnext : Next u c t r) (hc : c ∉ [.sm, .dot, .lg, .leq, .shr, .comma]) :
    After p (opsFrom 0) (' ' :: (op.text ++ ' ' :: (d.ref.text ++ u))) ∧
      NoBody p (' ' :: (op.text ++ ' ' :: (d.ref.text ++ u))) := by
  simp only [List.mem_cons, List.not_mem_nil, or_false, not_or] at hc
  refine (noArgs_chain d hu hne hnext (by simp [hc]) ?_).after_compare op
  intro n q _
  exact ⟨none, u, opt_of_err (genericCallParams_none hnext hc.1), c, t, r, hnext, by simp [hc]⟩

/-- A chain is a `boolean`. -/
theorem boolean_chain (d : Chain) (hw : Blanks w) (hs : After p (opsFrom 0) u)
    (hlike : d.likeType = true → NoBody p u) (hn : (d.ref.text ++ u).length ≤ n) :
    (p.boolean (p.depth n)).run ⟨w ++ (d.ref.text ++ u), q⟩ = .ok (d.ref.tree p) ⟨u, q⟩ := by
  have htext : (Exp.ref d.ref).text 0 = d.ref.text := (Exp.ref d.ref).text_zero
  obtain ⟨t, r, hfirst⟩ := d.ref.next hs.stops
  have hexp := ((Exp.ref d.ref).readsLevels p).atLevel 0 (by decide) w u n q hw hs hlike
    (by rw [htext]; exact hn)
  rw [htext] at hexp
  exact boolean_run (hfirst.blanks hw) (by decide) hexp

theorem boolean_swallows (d : Chain) (hlike : d.likeType = true) (hw : Blanks w)
    (hbody : blankLines body = true) (hnext : Next s c t r) (hc : c ∉ allOps)
    (hn : (d.ref.text ++ (blockText (linesText body) ++ s)).length ≤ n) : ∃ a,
    (p.boolean (p.depth n)).run ⟨w ++ (d.ref.text ++ (blockText (linesText body) ++ s)), q⟩ =
      .ok a ⟨s, q⟩ := by
  have htext : (Exp.ref d.ref).text 0 = d.ref.text := (Exp.ref d.ref).text_zero
  obtain ⟨t', r', hfirst⟩ := d.ref.next (after_block (p := p) (linesText body) s).stops
  obtain ⟨a, ha⟩ := swallows (p := p) (.ref d.ref) 0 (by decide) hlike w body s c t r n q hw hbody
    hnext hc (by rw [htext]; exact hn)
  rw [htext] at ha
  exact ⟨a, boolean_run (hfirst.blanks hw) (by decide) ha⟩

/-- One comparison. -/
theorem compare_two {l : Lexer} {a b : Node} {op : CompareOp} {v : Text}
    (ha : (p.boolean f).run l = .ok a ⟨' ' :: (op.text ++ ' ' :: v), q⟩)
    (hb : (p.boolean f).run ⟨' ' :: v, q⟩ = .ok b ⟨s, q⟩) (h : Next s c t r) (hc : c ∉ compareOps)
    (hf : 1 < f.fuel) : (p.compare f).run l = .ok (.compare op.code a b) ⟨s, q⟩ := by
  obtain ⟨m, hm⟩ : ∃ m, f.fuel = m + 1 + 1 := ⟨f.fuel - 2, by omega⟩
  have hop : op.code ∈ compareOps := by
    cases op <;> decide
  have hturn : (p.compareTurn f a).run ⟨' ' :: (op.text ++ ' ' :: v), q⟩ =
      .ok (.inl (.compare op.code a b)) ⟨s, q⟩ := by
    unfold compareTurn
    simp [scan_run (next_compare op v), hop, runWithCatch_ok hb]
  unfold Parser.compare
  rw [Back.rewinding_run, Back.bind_run, runWithCatch_ok ha, Run.andThen_ok, hm,
    Back.iterate_next hturn, Back.iterate_last (compareTurn_last h hc _) m, Run.andThen_ok]

theorem Cond.compare_text (op : CompareOp) (left right : Chain) (u : Text) :
    (Cond.compare op left right).text ++ u =
      left.ref.text ++ (' ' :: (op.text ++ ' ' :: (right.ref.text ++ u))) := by
  simp [Cond.text]

/-- A condition ends where its last operand does, and is read as it should be if that is
(`whole`). -/
theorem cond_run {whole : Prop} (d : Cond) (hw : Blanks w) (hu : Stops u) (hnext : Next u c t r)
    (hc : c ∉ [.sm, .dot, .lg, .leq, .shr, .comma]) {c' : TokenType} {t' r' : Text}
    (hlast : ∀ w, Blanks w → ∃ a, (p.boolean (p.depth n)).run ⟨w ++ (d.last.ref.text ++ u), q⟩ =
      .ok a ⟨s, q⟩ ∧ (whole → a = d.last.ref.tree p))
    (hs : Next s c' t' r') (hc' : c' ∉ allOps) (hn : (d.text ++ u).length ≤ n) :
    ∃ b, (p.boolexp (p.depth n)).run ⟨w ++ (d.text ++ u), q⟩ = .ok b ⟨s, q⟩ ∧
      (whole → b = d.tree p) := by
  have hops : ∀ cs : List TokenType, cs ⊆ allOps → c' ∉ cs := fun cs hcs h => hc' (hcs h)
  cases d with
  | chain d =>
    obtain ⟨a, ha, htree⟩ := hlast w hw
    exact ⟨a, boolexp_run (compare_one ha hs (hops _ (by decide)) (depth_pos p n)) hs
      (hops _ (by decide)) (depth_pos p n), htree⟩
  | compare op left right =>
    rw [Cond.compare_text] at hn ⊢
    obtain ⟨hafter, hbody⟩ := after_compare (p := p) op right hu.word hu.ne hnext hc
    have hleft := boolean_chain (q := q) left hw hafter (fun _ => hbody) hn
    obtain ⟨a, hright, htree⟩ := hlast [' '] blanks_space
    rw [List.singleton_append] at hright
    refine ⟨.compare op.code (left.ref.tree p) a, ?_, ?_⟩
    · refine boolexp_run (compare_two hleft hright hs (hops _ (by decide)) ?_) hs
        (hops _ (by decide)) (depth_pos p n)
      rw [depth_fuel]
      simp only [List.length_append, List.length_cons] at hn
      omega
    · intro h
      rw [htree h]
      rfl

/-- A condition in front of something else. -/
theorem boolexp_cond (d : Cond) (hw : Blanks w) (hs : After p allOps u)
    (hnext : Next u c t r) (hc : c ∉ [.sm, .dot, .lg, .leq, .shr, .comma])
    (hlike : d.last.likeType = true → NoBody p u) (hn : (d.text ++ u).length ≤ n) :
    (p.boolexp (p.depth n)).run ⟨w ++ (d.text ++ u), q⟩ = .ok (d.tree p) ⟨u, q⟩ := by
  have hlen : (d.last.ref.text ++ u).length ≤ n := by
    cases d with
    | chain d => exact hn
    | compare op left right =>
      simp only [Cond.text, Cond.last, List.length_append, List.length_cons] at hn ⊢
      omega
  obtain ⟨c', t', r', hnext', -, hc'⟩ := hs.next
  obtain ⟨b, hb, htree⟩ := cond_run (q := q) d hw hs.stops hnext hc
    (fun w hw => ⟨_, boolean_chain d.last hw (hs.mono (opsFrom_subset 0)) hlike hlen, fun _ => rfl⟩)
    hnext' hc' hn
  rw [hb, htree trivial]

/-- A condition takes the block with it. -/
theorem boolexp_swallows (d : Cond) (hlike : d.last.likeType = true) (hw : Blanks w)
    (hbody : blankLines body = true) (hnext : Next s c t r) (hc : c ∉ allOps)
    (hn : (d.text ++ (blockText (linesText body) ++ s)).length ≤ n) : ∃ a,
    (p.boolexp (p.depth n)).run ⟨w ++ (d.text ++ (blockText (linesText body) ++ s)), q⟩ =
      .ok a ⟨s, q⟩ := by
  have hlen : (d.last.ref.text ++ (blockText (linesText body) ++ s)).length ≤ n := by
    cases d with
    | chain d => exact hn
    | compare op left right =>
      simp only [Cond.text, Cond.last, List.length_append, List.length_cons] at hn ⊢
      omega
  obtain ⟨b, hb, -⟩ := cond_run (q := q) d hw
    (after_block (p := p) (linesText body) s).stops (next_block (linesText body) s) (by decide)
    (fun w hw => by
      obtain ⟨a, ha⟩ := boolean_swallows (p := p) (q := q) d.last hlike hw hbody hnext hc hlen
      exact ⟨a, ha, False.elim⟩) hnext hc hn
  exact ⟨b, hb⟩

end Conditions

/-! ## Assignments -/

section Assignments

/-- An assignment ends where its value does. -/
theorem assign_value {b : Node} {l : Lexer} (a : Assign) (hw : Blanks w)
    (hval : (p.allexp (p.depth n)).run ⟨' ' :: (a.value.body ++ u), q⟩ = .ok b l)
    (hn : (a.text ++ u).length ≤ n) :
    (p.assign (p.depth n)).run ⟨w ++ (a.text ++ u), q⟩ =
      .ok (.bin .assign (.takeVal a.level (a.target.ref.tree p)) b) l := by
  have htarget : ∃ t r, Next (a.target.ref.text ++ ' ' :: '=' :: ' ' :: (a.value.body ++ u)) .var t r :=
    a.target.ref.next ⟨' ', _, rfl, by decide⟩
  obtain ⟨t, r, hfirst⟩ := htarget
  rw [a.text_append] at hn ⊢
  obtain ⟨w', hw', hstars⟩ := stars_blanks (f := p.depth n) (k := a.level) (q := q) hw hfirst (by decide)
    (by
      rw [depth_fuel]
      simp only [List.length_append, List.length_replicate] at hn
      omega)
  have hassign := next_assign (a.value.body ++ u)
  have hblocks : ReadsBlocks p a.target.idxs a.target.next := a.target.ref.readsInside p
  have hchain := varChain_run (p := p) (n := n) (q := q) (x := a.target.x) hw' hblocks hassign (by decide)
    (by decide) (endsWord_space _) (List.cons_ne_nil _ _) (by
      rw [a.target.ref_text] at hn
      simp only [List.length_append] at hn ⊢
      omega)
  rw [← a.target.ref_text] at hchain
  have hchain' : (p.varChain (p.depth n)).run
      ⟨w' ++ (a.target.ref.text ++ ' ' :: '=' :: ' ' :: (a.value.body ++ u)), q⟩ =
      .ok (a.target.ref.tree p) ⟨' ' :: '=' :: ' ' :: (a.value.body ++ u), q⟩ := hchain
  unfold Parser.assign
  simp [hstars, runWithCatch_ok hchain', scanType_run hassign, hval]

theorem assign_run (a : Assign) (hw : Blanks w) (hs : After p allOps u)
    (hlike : a.value.endsLikeType 0 = true → NoBody p u) (hn : (a.text ++ u).length ≤ n) :
    (p.assign (p.depth n)).run ⟨w ++ (a.text ++ u), q⟩ = .ok (a.tree p) ⟨u, q⟩ := by
  have hval := reads p a.value [' '] u n q blanks_space hs hlike (by
    rw [a.text_append] at hn
    simp only [List.length_append, List.length_cons] at hn ⊢
    omega)
  exact assign_value a hw hval hn

/-- The value takes the block with it. -/
theorem assign_swallows (a : Assign) (hlike : a.value.endsLikeType 0 = true) (hw : Blanks w)
    (hbody : blankLines body = true) (hnext : Next s c t r) (hc : c ∉ allOps)
    (hn : (a.text ++ (blockText (linesText body) ++ s)).length ≤ n) : ∃ b,
    (p.assign (p.depth n)).run ⟨w ++ (a.text ++ (blockText (linesText body) ++ s)), q⟩ =
      .ok b ⟨s, q⟩ := by
  obtain ⟨b, hval⟩ := allexp_swallows (p := p) (n := n) (q := q) hlike blanks_space hbody hnext hc (by
    rw [a.text_append] at hn
    simp only [List.length_append, List.length_cons] at hn ⊢
    omega)
  exact ⟨_, assign_value a hw hval hn⟩

/-- What begins with neither a star nor a name is no assignment. -/
theorem assign_refuses (h : Next s c t r) (hc : c ∉ [.mul, .var]) (hf : 0 < f.fuel) :
    ∃ e, (p.assign f).run ⟨s, q⟩ = .err e ⟨s, q⟩ := by
  simp only [List.mem_cons, List.not_mem_nil, or_false, not_or] at hc
  obtain ⟨e, he⟩ := (varChain_refuses (p := p) (f := f) (q := q) h hc.2).catching (e := Err.other)
  refine ⟨e, ?_⟩
  unfold Parser.assign runWithCatch
  rw [Back.rewinding_run, Back.bind_run, stars_none h hc.1 hf, Run.andThen_ok, Back.bind_run, he]
  rfl

/-- A chain with something else than `=` behind it is no assignment. -/
theorem assign_refuses_chain (d : Chain) (hu : EndsWord u) (hne : u ≠ []) (hnext : Next u c t r)
    (hc : c ∉ [.dot, .lsb, .assign]) (hn : (d.ref.text ++ u).length ≤ n) :
    (p.assign (p.depth n)).Refuses ⟨d.ref.text ++ u, q⟩ := by
  simp only [List.mem_cons, List.not_mem_nil, or_false, not_or] at hc
  obtain ⟨v, c', t', r', hfirst, -, -⟩ := d.first hu hne hnext
  have hblocks : ReadsBlocks p d.idxs d.next := d.ref.readsInside p
  have hchain := varChain_run (p := p) (n := n) (q := q) (x := d.x) blanks_nil hblocks hnext hc.1 hc.2.1
    hu hne (by rw [← d.ref_text]; exact hn)
  rw [← d.ref_text, List.nil_append] at hchain
  unfold Parser.assign
  exact (Back.Refuses.after (stars_none hfirst (by decide) (depth_pos p n))
    (Back.Refuses.after (runWithCatch_ok hchain)
      (scanType_refuses hnext (by decide) hc.2.2).bind)).rewinding

/-- A definition with `:=`. -/
theorem defineAndAssign_run {x : Name} (hw : Blanks w) (hs : After p allOps u)
    (hlike : e.endsLikeType 0 = true → NoBody p u)
    (hn : ((Setting.deas x e).text ++ u).length ≤ n) :
    (p.defineAndAssign (p.depth n)).run ⟨w ++ ((Setting.deas x e).text ++ u), q⟩ =
      .ok ((Setting.deas x e).tree p) ⟨u, q⟩ := by
  have htext : (Setting.deas x e).text ++ u = x.text ++ ' ' :: ':' :: '=' :: ' ' :: (e.body ++ u) := by
    simp [Setting.text]
  rw [htext] at hn ⊢
  have hname : Next (w ++ (x.text ++ ' ' :: ':' :: '=' :: ' ' :: (e.body ++ u))) .var x.text
      (' ' :: ':' :: '=' :: ' ' :: (e.body ++ u)) :=
    (next_name x (endsWord_space _) (List.cons_ne_nil _ _)).blanks hw
  have hval := reads p e [' '] u n q blanks_space hs hlike (by
    simp only [List.length_append, List.length_cons] at hn ⊢
    omega)
  rw [List.singleton_append] at hval
  unfold Parser.defineAndAssign
  simp [sees_run hname, scanType_run hname, scanType_run (next_deas _), hval, Setting.tree]

/-- A definition begins with `var` or with a name. -/
theorem defineAndAssign_refuses (h : Next s c t r) (hc : c ∉ [.resVar, .var]) :
    (p.defineAndAssign f).Refuses ⟨s, q⟩ := by
  simp only [List.mem_cons, List.not_mem_nil, or_false, not_or] at hc
  unfold Parser.defineAndAssign
  refine Back.Refuses.rewinding (Back.Refuses.bind (Back.Refuses.after
    (sees_false h (by decide) hc.1) ?_))
  rw [if_neg Bool.false_ne_true]
  exact (scanType_refuses h (by decide) hc.2).bind

theorem defineAndAssign_refuses_var (h : Next s .var t r) (hnext : Next r c w u) (hc : c ≠ .deas) :
    (p.defineAndAssign f).Refuses ⟨s, q⟩ := by
  have hname : (scanType .var).run ⟨s, q⟩ = .ok t ⟨r, q⟩ := by
    simp [scanType_run h]
  unfold Parser.defineAndAssign
  refine Back.Refuses.rewinding (Back.Refuses.bind (Back.Refuses.after
    (sees_false h (by decide) (by decide)) ?_))
  rw [if_neg Bool.false_ne_true]
  exact Back.Refuses.after hname (scanType_refuses hnext (by decide) hc).bind

/-- An assignment is no definition. -/
theorem defineAndAssign_assign (a : Assign) (hw : Blanks w) :
    (p.defineAndAssign f).Refuses ⟨w ++ (a.text ++ u), q⟩ := by
  obtain ⟨c, t, r, hnext, hc⟩ := a.first u
  rcases hc with rfl | ⟨rfl, c', t', r', hsecond, hc'⟩
  · exact defineAndAssign_refuses (hnext.blanks hw) (by decide)
  · refine defineAndAssign_refuses_var (hnext.blanks hw) hsecond ?_
    rintro rfl
    exact absurd hc' (by decide)

/-- The first of the two alternatives that takes a setting. -/
theorem setting_run (d : Setting) (hw : Blanks w) (hs : After p allOps u)
    (hbody : NoBody p u) (hn : (d.text ++ u).length ≤ n) :
    (runWithCatch (p.defineAndAssign (p.depth n)) <|> runWithCatch (p.assign (p.depth n))).run
      ⟨w ++ (d.text ++ u), q⟩ = .ok (d.tree p) ⟨u, q⟩ := by
  cases d with
  | deas x e => exact orElse_ok (runWithCatch_ok (defineAndAssign_run hw hs (fun _ => hbody) hn))
  | assign a =>
    have hassign := assign_run (q := q) a hw hs (fun _ => hbody) hn
    have hdef : (p.defineAndAssign (p.depth n)).Refuses ⟨w ++ ((Setting.assign a).text ++ u), q⟩ :=
      defineAndAssign_assign a hw
    rw [runWithCatch_orElse hdef]
    exact runWithCatch_ok hassign

end Assignments

/-! ## Headers -/

section Headers

/-- No expression begins with a semicolon. -/
theorem exp_refuses (h : Next s c t r) (hres : IsResType t = none)
    (hc : c ∉ .plus :: .sub :: .int :: .float :: .lp :: .str :: typeStarts) (hf : 0 < f.fuel) :
    (p.exp f).Refuses ⟨s, q⟩ := by
  simp only [List.mem_cons, not_or] at hc
  obtain ⟨hplus, hsub, hint, hfloat, hlp, hstr, htype⟩ := hc
  have hnumber : (p.number f).Refuses ⟨s, q⟩ := by
    unfold Back.Refuses
    rw [number_literal h hres (by simp only [List.mem_cons, not_or]; exact ⟨hstr, htype⟩) hf]
    refine .inl ?_
    unfold literal
    simp [scan_run h, hfloat, hint, scanType_run h, hlp]
  have hsymbol : (p.symbol f).Refuses ⟨s, q⟩ := by
    unfold Back.Refuses symbol
    rw [Back.bind_run, Back.here_run, Run.andThen_ok, Back.bind_run, scan_run h, Run.andThen_ok]
    simp only [Bool.false_eq_true, if_false, hplus, hsub, or_self, Back.bind_run, Back.goback_run,
      Run.andThen_ok]
    exact hnumber
  unfold Parser.exp addedFactor factor leftAssoc
  exact hsymbol.bind.bind.bind

/-- Nor does a condition. -/
theorem boolexp_none (h : Next s .semi t r) (hres : IsResType t = none) (hf : 0 < f.fuel) :
    ∃ e, (p.boolexp f).run ⟨s, q⟩ = .err e ⟨s, q⟩ := by
  have hexp : (p.exp f).Refuses ⟨s, q⟩ := exp_refuses h hres (by decide) hf
  have hnil : nilExp.run ⟨s, q⟩ = .err .type ⟨s, q⟩ := by
    unfold nilExp
    simp [scanType_run h]
  have hboolean : (p.boolean f).run ⟨s, q⟩ = .err .other ⟨s, q⟩ := by
    unfold Parser.boolean
    rw [Back.rewinding_run, Back.bind_run, sees_false h (by decide) (by decide), Run.andThen_ok,
      if_neg Bool.false_ne_true, Back.bind_run, sees_false h (by decide) (by decide), Run.andThen_ok,
      if_neg Bool.false_ne_true, runWithCatch_orElse hexp, Back.orElse_run, hnil, Run.andThen_err]
    simp [scan_run h]
  refine ⟨.other, ?_⟩
  unfold Parser.boolexp bitOp Parser.compare runWithCatch
  simp [hboolean]

theorem boolexp_opt (cond : Option Cond) (hn : (leadText (cond.map Cond.text) ++ ';' :: u).length ≤ n) :
    (opt (p.boolexp (p.depth n))).run ⟨leadText (cond.map Cond.text) ++ ';' :: u, q⟩ =
      .ok (cond.map (Cond.tree p)) ⟨';' :: u, q⟩ := by
  have hsemi : Next (';' :: u) .semi [';'] u := next_single (m := ⟨.semi, [';']⟩) (by decide) u
  cases cond with
  | none =>
    obtain ⟨e, he⟩ := boolexp_none (p := p) (f := p.depth n) (q := q) hsemi (by decide) (depth_pos p n)
    exact opt_of_err he
  | some d =>
    obtain ⟨hafter, hbody⟩ := after_single (p := p) (m := ⟨.semi, [';']⟩) (by decide) (by decide) u
    rw [Option.map_some, leadText, List.cons_append] at hn ⊢
    rw [List.length_cons] at hn
    have hcond := boolexp_cond (n := n) (q := q) d blanks_space hafter hsemi (by decide)
      (fun _ => hbody) (Nat.le_of_succ_le hn)
    exact opt_of_ok hcond

/-- Neither alternative for a setting is taken. -/
theorem setting_none (h : Next s c t r) (hc : c ∉ [.resVar, .mul, .var]) (hf : 0 < f.fuel) :
    (opt (runWithCatch (p.defineAndAssign f) <|> runWithCatch (p.assign f))).run ⟨s, q⟩ =
      .ok none ⟨s, q⟩ := by
  simp only [List.mem_cons, List.not_mem_nil, or_false, not_or] at hc
  have hdef : (p.defineAndAssign f).Refuses ⟨s, q⟩ :=
    defineAndAssign_refuses h (by simp [hc.1, hc.2.2])
  obtain ⟨e, he⟩ := assign_refuses (p := p) (q := q) h (by simp [hc.2.1, hc.2.2]) hf
  obtain ⟨e', he'⟩ := (Back.refuses_of_err he).catching (e := Err.other)
  refine opt_of_err (e := e') ?_
  rw [runWithCatch_orElse hdef]
  exact he'

theorem setting_opt {init : Option Setting} (hn : (leadText (init.map Setting.text) ++ ';' :: u).length ≤ n) :
    (opt (runWithCatch (p.defineAndAssign (p.depth n)) <|> runWithCatch (p.assign (p.depth n)))).run
      ⟨leadText (init.map Setting.text) ++ ';' :: u, q⟩ =
      .ok (init.map (Setting.tree p)) ⟨';' :: u, q⟩ := by
  cases init with
  | none =>
    exact setting_none (next_single (m := ⟨.semi, [';']⟩) (by decide) u) (by decide) (depth_pos p n)
  | some d =>
    obtain ⟨hafter, hbody⟩ := after_single (p := p) (m := ⟨.semi, [';']⟩) (by decide) (by decide) u
    rw [Option.map_some, leadText, List.cons_append] at hn ⊢
    rw [List.length_cons] at hn
    have hsetting := setting_run (n := n) (q := q) d blanks_space hafter hbody (Nat.le_of_succ_le hn)
    exact opt_of_ok hsetting

/-- What `forloop` does behind its header. -/
def forRest (f : Rec) (defineAssign bool assign : Option Node) : P Node := do
  let st ← statementBlock f
  pure (.forST defineAssign bool assign st)

/-- The parts of a header. -/
def Header.trees (p : Parser) : Header → Option Node × Option Node × Option Node
  | bare => (none, none, none)
  | parts init cond step => (init.map (Setting.tree p), cond.map (Cond.tree p), step.map (Assign.tree p))

theorem Header.text_append (init : Option Setting) (cond : Option Cond) (step : Option Assign) (u : Text) :
    (Header.parts init cond step).text ++ u = leadText (init.map Setting.text) ++
      ';' :: (leadText (cond.map Cond.text) ++ ';' :: (leadText (step.map Assign.text) ++ u)) := by
  simp [Header.text]

/-- The header of a loop up to its third part. -/
theorem forloop_parts (init : Option Setting) (cond : Option Cond)
    (hn : (leadText (init.map Setting.text) ++
      ';' :: (leadText (cond.map Cond.text) ++ ';' :: u)).length ≤ n) :
    (p.forloop (p.depth n)).run ⟨word .resFor ++ (leadText (init.map Setting.text) ++
        ';' :: (leadText (cond.map Cond.text) ++ ';' :: u)), q⟩ =
      (do
        let assign ← opt (p.assign (p.depth n))
        forRest (p.depth n) (init.map (Setting.tree p)) (cond.map (Cond.tree p)) assign).run
        ⟨u, q⟩ := by
  have hend : EndsWord (leadText (init.map Setting.text) ++
      ';' :: (leadText (cond.map Cond.text) ++ ';' :: u)) := by
    cases init with
    | none => exact endsWord_cons (by decide) _
    | some d => exact endsWord_space _
  have hfor := next_keyword (c := .resFor) (by decide) hend (by simp)
  have hinit := setting_opt (p := p) (q := q) hn
  simp only [List.length_append, List.length_cons] at hn
  have hcond := boolexp_opt (p := p) (q := q) cond (u := u) (n := n) (by
    simp only [List.length_append, List.length_cons]
    omega)
  have hsemi : ∀ v, Next (';' :: v) .semi [';'] v :=
    fun v => next_single (m := ⟨.semi, [';']⟩) (by decide) v
  unfold Parser.forloop
  simp [scanType_run hfor, hinit, sees_run (hsemi _), hcond, scanType_run (hsemi _), forRest]

/-- A header, with something behind it that its last part does not take. -/
theorem forloop_header (h : Header) (hs : After p allOps u) (hnext : Next u .lb t r)
    (hlike : h.endsLikeType = true → NoBody p u) (hn : (h.text ++ u).length ≤ n) :
    (p.forloop (p.depth n)).run ⟨word .resFor ++ (h.text ++ u), q⟩ =
      (forRest (p.depth n) (h.trees p).1 (h.trees p).2.1 (h.trees p).2.2).run ⟨u, q⟩ := by
  cases h with
  | bare =>
    have hfor := next_keyword (c := .resFor) (by decide) hs.stops.word hs.stops.ne
    show (p.forloop (p.depth n)).run ⟨word .resFor ++ u, q⟩ = _
    unfold Parser.forloop
    simp [scanType_run hfor, setting_none hnext (by decide) (depth_pos p n), sees_run hnext, forRest,
      Header.trees]
  | parts init cond step =>
    rw [Header.text_append] at hn ⊢
    rw [forloop_parts init cond hn]
    have hstep : (opt (p.assign (p.depth n))).run ⟨leadText (step.map Assign.text) ++ u, q⟩ =
        .ok (step.map (Assign.tree p)) ⟨u, q⟩ := by
      cases step with
      | none =>
        obtain ⟨e, he⟩ := assign_refuses (p := p) (f := p.depth n) (q := q) hnext (by decide)
          (depth_pos p n)
        exact opt_of_err he
      | some a =>
        refine opt_of_ok (assign_run a blanks_space hs hlike ?_)
        simp only [Option.map_some, leadText, List.length_append, List.length_cons] at hn ⊢
        omega
    rw [Back.bind_run, hstep, Run.andThen_ok]
    rfl

/-- The step takes the block with it. -/
theorem forloop_swallows (h : Header) (hlike : h.endsLikeType = true)
    (hbody : blankLines body = true) (hnext : Next s c t r) (hc : c ∉ .lb :: allOps)
    (hn : (h.text ++ (blockText (linesText body) ++ s)).length ≤ n) :
    (p.forloop (p.depth n)).Refuses
      ⟨word .resFor ++ (h.text ++ (blockText (linesText body) ++ s)), q⟩ := by
  rw [List.mem_cons, not_or] at hc
  obtain ⟨init, cond, a, rfl, ha⟩ : ∃ init cond a, h = .parts init cond (some a) ∧
      a.value.endsLikeType 0 = true := by
    cases h with
    | bare => cases hlike
    | parts init cond step =>
      cases step with
      | none => cases hlike
      | some a => exact ⟨init, cond, a, rfl, hlike⟩
  rw [Header.text_append] at hn ⊢
  unfold Back.Refuses
  rw [forloop_parts init cond hn]
  obtain ⟨b, hb⟩ := assign_swallows (p := p) (n := n) (q := q) a ha blanks_space hbody hnext hc.2 (by
    simp only [Option.map_some, leadText, List.length_append, List.length_cons] at hn ⊢
    omega)
  refine Back.Refuses.after (opt_of_ok hb) ?_
  unfold forRest statementBlock
  exact (scanType_refuses hnext (by decide) hc.1).bind.bind

end Headers

end CalcLang.Parser
