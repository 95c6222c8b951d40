import CalcLang.Lex.Lines
import CalcLang.Parser.Termination

/-!
# A line that no statement begins with

`statement` reads such a line with `errST`, which goes back to where the line begins and calls `SkipLn`.
That reads the tokens up to a newline token, and takes the text in front of it. So the line is
recovered from just if the lexer comes to its end between two tokens, right behind one (`Tidy`): a comment
takes the newline with it, a string that is left open as well, at an unknown escape or character the
lexer gives up, and blanks at the end do not count to the text.

That nothing else goes wrong on a tidy line is what `lineField` is for: the alternatives keep to the line, so
they return an error or panic, and none of them ends the program or runs out of fuel.
-/

namespace CalcLang.Parser

open CalcLang.Lex CalcLang.Lib CalcLang.Lib.Ground Back

variable {p : Parser} {r : Rec} {k n : Nat} {l l' : Lexer} {c : TokenType} {t u v q bad src : Text} {past : Nat}

/-! ## Skipping the line -/

/-- In front of a newline and what stands behind it, the lexer is between two tokens, right behind one. -/
structure Tidy (bad q : Text) : Prop where
  between : At .between bad ('\n' :: q)
  ends : EndsInk bad

section Skip

variable {prev : Lexer}

/-- The loop reads the tokens of the line. -/
theorem skip_gets (prev : Lexer) (h : Gets u ('\n' :: q) v) (hnl : '\n' ∉ v) (past : Nat) (hn : v.length < n) :
    ∃ f b m, v = f ++ b ++ u ∧ (∀ c ∈ b, isBlank c) ∧ EndsInk f ∧ (b ++ u).length < m ∧
      n ≤ m + f.length ∧
      (Back.iterate (skipTurn prev) n ()).run ⟨v ++ '\n' :: q, past⟩ =
        (Back.iterate (skipTurn prev) m ()).run ⟨b ++ u ++ '\n' :: q, past⟩ := by
  induction hlen : v.length using Nat.strong_induction_on generalizing v n with
  | _ len ih =>
    subst hlen
    rcases h.next hnl with ⟨b, hb, rfl⟩ | ⟨b, t, w, code, text, rfl, hw, hne, hink, hcode, -, -, hscan⟩
    · exact ⟨[], b, n, rfl, hb, endsInk_nil, hn, Nat.le_refl _, rfl⟩
    · obtain ⟨n, rfl⟩ : ∃ m, n = m + 1 := ⟨n - 1, by omega⟩
      have hpos : 0 < t.length := List.length_pos_iff.mpr hne
      have hlt : w.length < n := by
        simp only [List.length_append] at hn
        omega
      have hnl' : '\n' ∉ w := fun hmem => hnl (List.mem_append_right _ hmem)
      obtain ⟨f, b', m, rfl, hb', hf, hm, hle, hrun⟩ :=
        ih w.length (by simp only [List.length_append]; omega) hw hnl' hlt rfl
      refine ⟨b ++ t ++ f, b', m, by simp, hb', (hink.behind hne b).append hf, hm,
        by simp only [List.length_append]; omega, ?_⟩
      have hturn := skipTurn_token prev (hscan past)
      rw [if_neg hcode] at hturn
      rw [Back.iterate_next hturn, hrun]

/-- The text is what has been passed when the newline comes. -/
theorem skip_src : ∀ {n : Nat} {l : Lexer}, (Back.iterate (skipTurn prev) n ()).Accepts l src l' →
    ∃ k ≤ l.rest.length, src = prev.rest.take (prev.rest.length - k)
  | 0, _, h => by cases h
  | n + 1, l, h => by
    obtain ⟨a, l₁, hturn, h⟩ := bind_accepts h
    obtain ⟨l₀, l₂, hhere, hturn⟩ := bind_accepts hturn
    obtain ⟨rfl, rfl⟩ := Result.ok.inj hhere
    obtain ⟨⟨c, t, e⟩, l₃, hscan, hturn⟩ := bind_accepts hturn
    have hle : l₃.rest.length ≤ l.rest.length := by
      have hscan := scan_accepts hscan
      cases e with
      | true => rw [scan_eos hscan]; exact Nat.zero_le _
      | false => exact Nat.le_of_lt (scan_progress hscan)
    dsimp only at hturn
    split at hturn
    next =>
      obtain ⟨rfl, rfl⟩ := Result.ok.inj hturn
      obtain ⟨rfl, rfl⟩ := Result.ok.inj h
      exact ⟨_, Nat.le_refl _, rfl⟩
    next =>
      obtain ⟨rfl, rfl⟩ := Result.ok.inj hturn
      obtain ⟨k, hk, hsrc⟩ := skip_src h
      exact ⟨k, Nat.le_trans hk hle, hsrc⟩

theorem scan_blanks {b : Text} (hb : ∀ c ∈ b, isBlank c) (s : Text) (past : Nat) :
    Lexer.Scan ⟨b ++ s, past⟩ = Lexer.Scan ⟨s, past⟩ := by
  induction b with
  | nil => rfl
  | cons c b ih =>
    rw [List.cons_append, scan_blank past (hb c List.mem_cons_self)]
    exact ih fun c hc => hb c (List.mem_cons_of_mem _ hc)

/-- What has been passed when the loop comes to a place of the line. -/
theorem take_passed {f b : Text} (hbad : bad = f ++ b ++ u) (hprev : prev.rest = bad ++ '\n' :: q) :
    prev.rest.take (prev.rest.length - (b ++ u ++ '\n' :: q).length) = f := by
  rw [hprev, hbad, List.append_assoc, List.append_assoc, ← List.append_assoc b,
    List.length_append, Nat.add_sub_cancel, List.take_left]

/-- If the line ends between two tokens, only blanks behind the last one do not count. -/
theorem skip_between (h : Gets [] ('\n' :: q) bad) (hnl : '\n' ∉ bad) (hn : bad.length < n)
    (hprev : prev.rest = bad ++ '\n' :: q) (past : Nat) : ∃ f b, bad = f ++ b ∧ (∀ c ∈ b, isBlank c) ∧
      EndsInk f ∧ (Back.iterate (skipTurn prev) n ()).run ⟨bad ++ '\n' :: q, past⟩ = .ok f ⟨q, past⟩ := by
  obtain ⟨f, b, m, hbad, hb, hf, hm, -, hrun⟩ := skip_gets prev h hnl past hn
  obtain ⟨m, rfl⟩ : ∃ m', m = m' + 1 := ⟨m - 1, by omega⟩
  have htake := take_passed hbad hprev
  rw [List.append_nil] at hbad htake hrun
  have hscan : Lexer.Scan ⟨b ++ '\n' :: q, past⟩ = .token .nl ['\n'] false ⟨q, past⟩ :=
    (scan_blanks hb _ past).trans rfl
  have hturn := skipTurn_token prev hscan
  rw [if_pos rfl, htake] at hturn
  exact ⟨f, b, hbad, hb, hf, hrun.trans (Back.iterate_last hturn m)⟩

/-- The text is the whole line just if the line is tidy. -/
theorem skip_line_iff (hnl : '\n' ∉ bad) (hn : bad.length < n) (hprev : prev.rest = bad ++ '\n' :: q) (past : Nat) :
    (Back.iterate (skipTurn prev) n ()).Accepts ⟨bad ++ '\n' :: q, past⟩ bad l' ↔
      Tidy bad q ∧ l' = ⟨q, past⟩ := by
  refine ⟨?_, ?_⟩
  · intro h
    obtain ⟨w, u, hu, hgets⟩ := place_cases bad q
    -- the line ends between two tokens, or inside one
    by_cases hw : w = .between
    · subst hw
      obtain rfl : u = [] := hu
      obtain ⟨f, b, hbad, hb, hf, hrun⟩ := skip_between hgets hnl hn hprev past
      unfold Accepts at h
      rw [hrun] at h
      obtain ⟨rfl, rfl⟩ := Result.ok.inj h
      exact ⟨⟨⟨[], rfl, hgets⟩, hf⟩, rfl⟩
    · exfalso
      obtain ⟨f, b, m, hbad, hb, hf, hm, -, hrun⟩ := skip_gets prev hgets hnl past hn
      obtain ⟨m, rfl⟩ : ∃ m', m = m' + 1 := ⟨m - 1, by omega⟩
      have htake := take_passed hbad hprev
      have hlen : prev.rest.length = bad.length + (q.length + 1) := by
        rw [hprev, List.length_append, List.length_cons]
      unfold Accepts at h
      rw [hrun] at h
      cases hscan : Lexer.Scan ⟨b ++ u ++ '\n' :: q, past⟩ with
      | panic =>
        rw [skip_panic hscan] at h
        cases h
      | fatal =>
        rw [skip_fatal hscan] at h
        cases h
      | token c t e l₂ =>
        have hturn := skipTurn_token prev hscan
        rw [htake] at hturn
        rw [List.append_assoc, scan_blanks hb] at hscan
        obtain ⟨hne, hcode⟩ := hu.scan hw hscan
        by_cases hc : c = .nl
        · -- the newline comes too early
          rw [if_pos hc] at hturn
          rw [Back.iterate_last hturn] at h
          obtain ⟨rfl, -⟩ := Result.ok.inj h
          have hpos : 0 < u.length := List.length_pos_iff.mpr hne
          have hlen' := congrArg List.length hbad
          simp only [List.length_append] at hlen'
          omega
        · -- it has been passed
          rw [if_neg hc] at hturn
          rw [Back.iterate_next hturn] at h
          obtain ⟨k, hk, hsrc⟩ := skip_src h
          have hq := hcode.resolve_left hc
          have hlen' := congrArg List.length hsrc
          rw [List.length_take] at hlen'
          omega
  · rintro ⟨⟨⟨u, hu, hgets⟩, hends⟩, rfl⟩
    obtain rfl : u = [] := hu
    obtain ⟨f, b, hbad, hb, hf, hrun⟩ := skip_between hgets hnl hn hprev past
    obtain rfl : b = [] := by
      by_contra hne
      have hlast : bad.getLast? = some (b.getLast hne) := by
        rw [hbad, List.getLast?_append, List.getLast?_eq_some_getLast hne]
        rfl
      have hblank := hb _ (List.getLast_mem hne)
      rw [hends _ hlast] at hblank
      cases hblank
    rw [List.append_nil] at hbad
    rw [hbad] at hrun ⊢
    exact accepts_of_run hrun

end Skip

/-! ## The alternatives on a tidy line -/

section Line

/-- The number of the line that the lexer is in. -/
def lineNumber (p : Parser) (l : Lexer) : Nat := 1 + (p.runes.take (p.pos l)).count '\n'

theorem errST_accepts {node : Node} : (p.errST r).Accepts l node l' ↔ p.pos l ≤ p.cap ∧
    ∃ src, (Back.iterate (skipTurn l) r.fuel ()).Accepts l src l' ∧ node = .errST (p.lineNumber l) src := by
  refine ⟨?_, ?_⟩
  · intro h
    obtain ⟨⟨src, ln⟩, l₁, hskip, h⟩ := bind_accepts h
    obtain ⟨rfl, rfl⟩ := Result.ok.inj h
    obtain ⟨l₀, l₂, hhere, hskip⟩ := bind_accepts hskip
    obtain ⟨rfl, rfl⟩ := Result.ok.inj hhere
    obtain ⟨_, l₃, hnote, hskip⟩ := bind_accepts hskip
    obtain ⟨-, rfl⟩ := Result.ok.inj hnote
    split at hskip
    next => cases hskip
    next hpos =>
      obtain ⟨src', l₄, hloop, hskip⟩ := bind_accepts hskip
      obtain ⟨heq, rfl⟩ := Result.ok.inj hskip
      obtain ⟨rfl, rfl⟩ := Prod.mk.inj heq
      exact ⟨Nat.not_lt.mp hpos, src', hloop, rfl⟩
  · rintro ⟨hpos, src, hloop, rfl⟩
    have hskip : (p.skipLn r).Accepts l (src, p.lineNumber l) l' := by
      have hhere : (Back.here : P Lexer).Accepts l l l := rfl
      have hnote : (Back.note (.skipLn l) : P Unit).Accepts l () l := rfl
      refine hhere.bind (hnote.bind ?_)
      rw [if_neg (Nat.not_lt.mpr hpos)]
      exact Accepts.bind hloop rfl
    exact Accepts.bind hskip rfl

/-- The rest of a line that ends between two tokens. It has no braces. -/
def lineGround (q : Text) : Ground Lexer Call where
  On k l := ∃ v, l.rest = v ++ '\n' :: q ∧ v.length ≤ k ∧ Gets [] ('\n' :: q) v ∧
    ∀ c ∈ ['\n', '\x7b', '\x7d'], c ∉ v
  mono h hle := by
    obtain ⟨v, hv, hlen, h⟩ := h
    exact ⟨v, hv, Nat.le_trans hlen hle, h⟩
  Off l := l.rest = q
  bad _ := False
  Fatal := False

/-- In such a line there is a token, or the newline comes. -/
theorem lineGround_scan (h : (lineGround q).On k l) :
    l.Scan = .token .nl ['\n'] false ⟨q, l.past⟩ ∨ ∃ code text l', l.Scan = .token code text false l' ∧
      code ≠ .nl ∧ code ≠ .lb ∧ code ≠ .rb ∧ ∃ j < k, (lineGround q).On j l' := by
  obtain ⟨v, hv, hlen, hgets, hclean⟩ := h
  obtain ⟨rest, past⟩ := l
  obtain rfl : rest = v ++ '\n' :: q := hv
  have hnl : '\n' ∉ v := hclean '\n' (by simp)
  rcases hgets.next hnl with ⟨b, hb, rfl⟩ | ⟨b, t, w, code, text, rfl, hw, hne, -, hcode, hlb, hrb, hscan⟩
  · rw [List.append_nil]
    exact .inl ((scan_blanks hb _ past).trans rfl)
  · refine .inr ⟨code, text, ⟨w ++ '\n' :: q, past⟩, hscan past, hcode, ?_, ?_, w.length, ?_, w, rfl,
      Nat.le_refl _, hw, fun c hc hmem => hclean c hc (List.mem_append_right _ hmem)⟩
    · exact fun h => hclean '\x7b' (by simp) (List.mem_append_left _ (List.mem_append_right _ (hlb h)))
    · exact fun h => hclean '\x7d' (by simp) (List.mem_append_left _ (List.mem_append_right _ (hrb h)))
    · have hpos : 0 < t.length := List.length_pos_iff.mpr hne
      simp only [List.length_append] at hlen
      omega

/-- Blanks are skipped within the line. -/
theorem dropWhile_line (v q : Text) : (v ++ '\n' :: q).dropWhile isBlank = v.dropWhile isBlank ++ '\n' :: q := by
  rw [List.dropWhile_append]
  split
  next hempty =>
    rw [List.isEmpty_iff.mp hempty]
    rfl
  next => rfl

/-- Every function of the parser keeps to the line. -/
def lineField (p : Parser) (q : Text) : Field p where
  toGround := lineGround q
  eos h hscan := by
    rcases lineGround_scan h with hnl | ⟨code, text, l', htok, -⟩
    · rw [hnl] at hscan
      cases hscan
    · rw [htok] at hscan
      cases hscan
  token h hscan := by
    rcases lineGround_scan h with hnl | ⟨code, text, l', htok, -, -, -, hl'⟩
    · rw [hnl] at hscan
      cases hscan
      exact .inl ⟨rfl, rfl⟩
    · rw [htok] at hscan
      cases hscan
      exact .inr hl'
  brace h hscan := by
    rcases lineGround_scan h with hnl | ⟨code, text, l', htok, -, hlb, -⟩
    · rw [hnl] at hscan
      cases hscan
    · rw [htok] at hscan
      cases hscan
      exact absurd rfl hlb
  fatal h hscan := by
    rcases lineGround_scan h with hnl | ⟨code, text, l', htok, -⟩
    · rw [hnl] at hscan
      cases hscan
    · rw [htok] at hscan
      cases hscan
  gt {k s past s'} h hdrop := by
    obtain ⟨v, hv, hlen, hgets, hclean⟩ := h
    obtain rfl : s = v ++ '\n' :: q := hv
    rw [dropWhile_line] at hdrop
    cases hw : v.dropWhile isBlank with
    | nil =>
      rw [hw] at hdrop
      cases (List.cons.inj hdrop).1
    | cons d w =>
      rw [hw] at hdrop
      obtain ⟨rfl, rfl⟩ := List.cons.inj hdrop
      have hsub : ('>' :: w).Sublist v := hw ▸ List.dropWhile_sublist isBlank
      have hle := hsub.length_le
      rw [List.length_cons] at hle
      exact ⟨w.length, by omega, w, rfl, Nat.le_refl _, hgets.behind_gt hw,
        fun c hc hmem => hclean c hc (hsub.subset (List.mem_cons_of_mem _ hmem))⟩
  noGt {k s past} h hdrop := by
    obtain ⟨v, hv, -⟩ := h
    obtain rfl : s = v ++ '\n' :: q := hv
    rw [dropWhile_line] at hdrop
    exact absurd hdrop (by simp)
  errST hopen := absurd rfl (hopen ⟨q, 0⟩)

/-- An awaited expression, and a call in a line of its own. -/
def awaitST (p : Parser) (r : Rec) : P Node := do
  let _ ← scanType .resAwait
  let e ← p.allexp r
  pure (.await e)

def callST (p : Parser) (r : Rec) : P Node := do
  let cf ← p.callFunc r
  let _ ← empty
  pure cf

/-- What `statement` reads as a statement. -/
def statementForms (p : Parser) (r : Rec) : List (P Node) :=
  [p.awaitST r, continueST, breakST, p.yield r, p.forloop r, p.defineAndAssign r, p.ifstatement r, p.assign r,
    p.define r, p.returnST r, p.callST r, empty]

theorem statementForms_holds (h : Calls (lineField p q) r k) : ∀ x ∈ p.statementForms r,
    (lineGround q).Holds .value (fun _ => true) k x := by
  intro x hx
  simp only [statementForms, List.mem_cons, List.not_mem_nil, or_false] at hx
  rcases hx with rfl | rfl | rfl | rfl | rfl | rfl | rfl | rfl | rfl | rfl | rfl | rfl
  · exact Holds.eat (scanType_eats (G := lineField p q) (by decide) (by decide)) fun _ j hj =>
      Holds.stay (allexp_eats (h.mono (Nat.le_of_lt hj))).stays fun _ => .pure rfl
  · exact continueST_holds (G := lineField p q)
  · exact breakST_holds (G := lineField p q)
  · exact yield_holds h
  · exact (forloop_eats h).weaken fun _ _ => rfl
  · exact (defineAndAssign_eats h).weaken fun _ _ => rfl
  · exact (ifstatement_eats h).weaken fun _ _ => rfl
  · exact (assign_eats h).weaken fun _ _ => rfl
  · exact define_holds h
  · exact returnST_holds h
  · exact Holds.eat (callFunc_eats h) fun _ _ _ => Holds.map (empty_holds (G := lineField p q)) (by rintro _ ⟨⟩)
  · exact empty_holds (G := lineField p q)

/-- The line `bad`, and not more than its newline, is not read as a statement. -/
def NoStatement (p : Parser) (r : Rec) (bad q : Text) : Prop :=
  ∀ x ∈ p.statementForms r, ∀ a l', x.Accepts ⟨bad ++ '\n' :: q, 0⟩ a l' → l'.rest.length < q.length

theorem NoStatement.fails (hno : NoStatement p r bad q) (h : Calls (lineField p q) r k)
    (hbad : (lineGround q).On k ⟨bad ++ '\n' :: q, 0⟩) :
    ∀ x ∈ p.statementForms r, x.Fails ⟨bad ++ '\n' :: q, 0⟩ := by
  intro x hx
  have hkeeps := statementForms_holds h x hx _ hbad
  cases hres : (x.run ⟨bad ++ '\n' :: q, 0⟩).result with
  | ok a l' =>
    exfalso
    have hlt := hno x hx a l' hres
    rcases hkeeps.ok a l' hres with ⟨-, hoff⟩ | ⟨j, -, v, hv, -⟩
    · have hoff : l'.rest = q := hoff
      rw [hoff] at hlt
      omega
    · rw [hv, List.length_append, List.length_cons] at hlt
      omega
  | err e l' => exact .inr ⟨l', e, hres⟩
  | panic => exact .inl hres
  | fatal => exact absurd (hkeeps.fatal hres) id
  | out =>
    obtain ⟨_, -, hbad⟩ := hkeeps.out.mp hres
    exact absurd hbad id

theorem lineGround_token (h : (lineGround q).On k l) : ∃ c t l', l.Scan = .token c t false l' := by
  rcases lineGround_scan h with hnl | ⟨c, t, l', htok, -⟩
  · exact ⟨_, _, _, hnl⟩
  · exact ⟨_, _, _, htok⟩

variable (hno : NoStatement p (p.depth n) bad q) (hbad : (lineGround q).On n ⟨bad ++ '\n' :: q, 0⟩)
include hno hbad

theorem noStatement_fails {x : P Node} (hx : x ∈ p.statementForms (p.depth n)) :
    x.Fails ⟨bad ++ '\n' :: q, 0⟩ :=
  hno.fails (depth_calls (lineField p q) n) hbad x hx

/-- Behind `await` there is no expression. -/
theorem await_panics (hscan : Lexer.Scan ⟨bad ++ '\n' :: q, 0⟩ = .token .resAwait t false l') :
    ((p.allexp (p.depth n) >>= fun e => (pure (.await e) : P Node)).run l').result = .panic := by
  have hfails : (p.awaitST (p.depth n)).Fails ⟨bad ++ '\n' :: q, 0⟩ := noStatement_fails hno hbad (by
    simp [statementForms])
  have hrun : (p.awaitST (p.depth n)).run ⟨bad ++ '\n' :: q, 0⟩ =
      (p.allexp (p.depth n) >>= fun e => (pure (.await e) : P Node)).run l' := by
    unfold awaitST
    rw [Back.bind_run, scanType_of (by decide) hscan, if_pos rfl, Run.andThen_ok]
  rw [← hrun]
  refine hfails.panics fun l₂ h => ?_
  obtain ⟨e, he⟩ := h
  rw [hrun] at he
  have hnever : (p.allexp (p.depth n) >>= fun e => (pure (.await e) : P Node)).NeverErrs :=
    NeverErrs.bind (allexp_neverErrs (depth_allexp_neverErrs p n)) fun _ => NeverErrs.pure _
  exact hnever l' l₂ ⟨e, he⟩

/-- The last alternative goes back to where the line begins, and skips it. -/
theorem otherStatement_line :
    ((p.otherStatement (p.depth n) ⟨bad ++ '\n' :: q, 0⟩).run ⟨bad ++ '\n' :: q, 0⟩).result = .panic ∨
    (p.otherStatement (p.depth n) ⟨bad ++ '\n' :: q, 0⟩).run ⟨bad ++ '\n' :: q, 0⟩ =
      (p.errST (p.depth n)).run ⟨bad ++ '\n' :: q, 0⟩ := by
  obtain ⟨c, t, l₁, hscan⟩ := lineGround_token hbad
  unfold otherStatement
  rw [Back.bind_run, Back.here_run, Run.andThen_ok, Back.bind_run, scan_of hscan, Run.andThen_ok]
  dsimp only
  by_cases hvar : c = .var
  · rw [if_pos hvar, Back.bind_run, Back.goback_run, Run.andThen_ok]
    refine .inl (Fails.panics (noStatement_fails (x := p.callST (p.depth n)) hno hbad ?_) fun l' => ?_)
    · simp [statementForms]
    · exact NeverErrs.bind (callFunc_neverErrs (depth_allexp_neverErrs p n)) (fun _ =>
        NeverErrs.bind empty_neverErrs fun _ => NeverErrs.pure _) _ l'
  · rw [if_neg hvar]
    by_cases hnl : c = .nl
    · rw [if_pos hnl, Back.bind_run, Back.goback_run, Run.andThen_ok]
      refine .inl (Fails.panics (noStatement_fails (x := empty) hno hbad ?_) (empty_neverErrs _))
      simp [statementForms]
    · rw [if_neg hnl, Back.bind_run, Back.goback_run, Run.andThen_ok]
      exact .inr rfl

theorem statement_line : ((p.statement (p.depth n)).run ⟨bad ++ '\n' :: q, 0⟩).result =
    ((p.errST (p.depth n)).run ⟨bad ++ '\n' :: q, 0⟩).result := by
  obtain ⟨c, t, l₁, hscan⟩ := lineGround_token hbad
  refine recovering_result ?_
  rw [Back.bind_run, Back.here_run, Run.andThen_ok, Back.bind_run]
  have htype : (scanType .resAwait).run ⟨bad ++ '\n' :: q, 0⟩ = _ := scanType_of (by decide) hscan
  by_cases hawait : c = .resAwait
  · subst hawait
    have hsees : (sees .resAwait).run ⟨bad ++ '\n' :: q, 0⟩ = .ok true l₁ := by
      simp [sees, htype]
    rw [hsees, Run.andThen_ok, if_pos rfl]
    exact .inl (await_panics hno hbad hscan)
  · have hsees : (sees .resAwait).run ⟨bad ++ '\n' :: q, 0⟩ = .ok false ⟨bad ++ '\n' :: q, 0⟩ := by
      simp [sees, htype, hawait]
    rw [hsees, Run.andThen_ok, if_neg Bool.false_ne_true]
    have hfails : ∀ x ∈ p.statementForms (p.depth n), x.Fails ⟨bad ++ '\n' :: q, 0⟩ :=
      fun x hx => noStatement_fails hno hbad hx
    -- none of the alternatives in front of the last one is taken
    unfold runWithCatch
    rw [Fails.next (hfails _ (by simp [statementForms])), Fails.next (hfails _ (by simp [statementForms])),
      Fails.next (hfails _ (by simp [statementForms])), Fails.next (hfails _ (by simp [statementForms])),
      Fails.next (hfails _ (by simp [statementForms])), Fails.next (hfails _ (by simp [statementForms])),
      Fails.next (hfails _ (by simp [statementForms])), Fails.next (hfails _ (by simp [statementForms])),
      Fails.next (hfails _ (by simp [statementForms]))]
    exact (otherStatement_line hno hbad).imp id fun h => congrArg Run.result h

end Line

/-! ## Where the node comes from -/

section Source

/-- What is no `ErrSTNode`. -/
def Node.Valid (node : Node) : Prop := ∀ ln src, node ≠ .errST ln src

theorem Returns.rewinding {x : P Node} {Q : Node → Prop} (h : x.Returns l Q) : x.rewinding.Returns l Q :=
  fun a l' ha => h a l' (rewinding_accepts.mp ha)

/-- None of the forms makes one. -/
theorem statementForms_valid : ∀ x ∈ p.statementForms r, ∀ l, x.Returns l Node.Valid := by
  intro x hx l
  simp only [statementForms, List.mem_cons, List.not_mem_nil, or_false] at hx
  rcases hx with rfl | rfl | rfl | rfl | rfl | rfl | rfl | rfl | rfl | rfl | rfl | rfl
  · exact returns_bind fun _ _ => returns_bind fun _ _ => returns_pure (by rintro _ _ ⟨⟩)
  · exact returns_bind fun _ _ => returns_bind fun _ _ => returns_pure (by rintro _ _ ⟨⟩)
  · exact returns_bind fun _ _ => returns_bind fun _ _ => returns_pure (by rintro _ _ ⟨⟩)
  · refine returns_bind fun _ _ => returns_bind fun _ _ => returns_bind fun _ _ => ?_
    exact returns_pure (by rintro _ _ ⟨⟩)
  · -- `forloop`, with or without semicolons
    refine returns_bind fun _ _ => returns_bind fun _ _ => returns_bind fun b _ => ?_
    cases b with
    | true =>
      refine returns_bind fun _ _ => returns_bind fun _ _ => returns_bind fun _ _ => returns_bind fun _ _ => ?_
      exact returns_pure (by rintro _ _ ⟨⟩)
    | false => exact returns_bind fun _ _ => returns_pure (by rintro _ _ ⟨⟩)
  · exact Returns.rewinding (returns_bind fun _ _ => returns_bind fun _ _ => returns_pure (by rintro _ _ ⟨⟩))
  · refine returns_bind fun _ _ => returns_bind fun _ _ => returns_bind fun _ _ => returns_bind fun b _ => ?_
    cases b with
    | true => exact returns_bind fun _ _ => returns_pure (by rintro _ _ ⟨⟩)
    | false => exact returns_pure (by rintro _ _ ⟨⟩)
  · refine Returns.rewinding (returns_bind fun _ _ => returns_bind fun _ _ => returns_bind fun _ _ => ?_)
    exact returns_bind fun _ _ => returns_pure (by rintro _ _ ⟨⟩)
  · -- `define` returns the node from in front of the newline
    refine Returns.bind (Returns.rewinding (returns_bind fun _ _ => returns_bind fun _ _ => returns_bind fun _ _ =>
      returns_pure (Q := Node.Valid) (by rintro _ _ ⟨⟩))) fun _ _ hn => ?_
    exact returns_bind fun _ _ => returns_pure hn
  · refine returns_bind fun _ _ => returns_bind fun a _ => ?_
    cases a with
    | ok => exact returns_pure (by rintro _ _ ⟨⟩)
    | error => exact returns_bind fun _ _ => returns_pure (by rintro _ _ ⟨⟩)
  · have hcall : (p.callFunc r).Returns l Node.Valid :=
      returns_bind fun _ _ => returns_bind fun _ _ => returns_bind fun _ _ => returns_bind fun _ _ =>
        returns_bind fun _ _ => returns_pure (by rintro _ _ ⟨⟩)
    exact Returns.bind hcall fun _ _ hn => returns_bind fun _ _ => returns_pure hn
  · exact returns_bind fun _ _ => returns_pure (by rintro _ _ ⟨⟩)

/-- An `ErrSTNode` comes from a line that has been skipped. -/
theorem statement_errST {ln : Nat} (h : (p.statement r).Accepts l (.errST ln src) l') :
    (p.errST r).Accepts l (.errST ln src) l' := by
  have hno : ∀ x ∈ p.statementForms r, ∀ l₁, ¬ x.Accepts l₁ (.errST ln src) l' :=
    fun x hx l₁ hacc => statementForms_valid x hx l₁ _ l' hacc ln src rfl
  rcases recovering_accepts h with h | h
  rotate_left
  · exact h
  obtain ⟨ch1, l₁, hhere, h⟩ := bind_accepts h
  obtain ⟨rfl, rfl⟩ := Result.ok.inj hhere
  obtain ⟨b, l₂, -, h⟩ := bind_accepts h
  cases b with
  | true =>
    obtain ⟨e, l₃, -, h⟩ := bind_accepts h
    cases (Result.ok.inj h).1
  | false =>
    have h := (caught_accepts h).resolve_left (hno _ (by simp [statementForms]) l₂)
    have h := (caught_accepts h).resolve_left (hno _ (by simp [statementForms]) l₂)
    have h := (caught_accepts h).resolve_left (hno _ (by simp [statementForms]) l₂)
    have h := (caught_accepts h).resolve_left (hno _ (by simp [statementForms]) l₂)
    have h := (caught_accepts h).resolve_left (hno _ (by simp [statementForms]) l₂)
    have h := (caught_accepts h).resolve_left (hno _ (by simp [statementForms]) l₂)
    have h := (caught_accepts h).resolve_left (hno _ (by simp [statementForms]) l₂)
    have h := (caught_accepts h).resolve_left (hno _ (by simp [statementForms]) l₂)
    have h := (caught_accepts h).resolve_left (hno _ (by simp [statementForms]) l₂)
    obtain ⟨ch, l₃, -, h⟩ := bind_accepts h
    obtain ⟨⟨c, t, e⟩, l₄, -, h⟩ := bind_accepts h
    dsimp only at h
    split at h
    · obtain ⟨u, l₅, -, h⟩ := bind_accepts h
      exact absurd h (hno (p.callST r) (by simp [statementForms]) l₅)
    · split at h
      · obtain ⟨u, l₅, -, h⟩ := bind_accepts h
        exact absurd h (hno empty (by simp [statementForms]) l₅)
      · obtain ⟨u, l₅, hgoback, h⟩ := bind_accepts h
        obtain ⟨-, rfl⟩ := Result.ok.inj hgoback
        exact h

end Source

/-! ## Lists of statements -/

section Loop

variable {ns cs acc : List Node} {node : Node} {s s' : Text} {m : Nat}

/-- The nodes of valid statements, from a place of the text to another one. -/
inductive Listed (p : Parser) (n : Nat) : Text → List Node → Text → Prop
  | done {s : Text} : Listed p n s [] s
  | more {s s₁ s' : Text} {node : Node} {ns : List Node} : Lacks ⟨s, 0⟩ [.rb] →
      (p.statement (p.depth n)).Accepts ⟨s, 0⟩ node ⟨s₁, 0⟩ → node.Valid →
      Listed p n s₁ ns s' → Listed p n s (node :: ns) s'

/-- In front of a statement there is no brace. -/
theorem Listed.lacks (h : Listed p n s ns s') (hs' : Lacks ⟨s', 0⟩ [.rb]) : Lacks ⟨s, 0⟩ [.rb] := by
  cases h with
  | done => exact hs'
  | more hs => exact hs

/-- There is no statement, or there is one where no brace stands. -/
theorem Listed.first (h : Listed p n s ns s') : ns = [] ∧ s = s' ∨ ns ≠ [] ∧ Lacks ⟨s, 0⟩ [.rb] := by
  cases h with
  | done => exact .inl ⟨rfl, rfl⟩
  | more hs => exact .inr ⟨List.cons_ne_nil _ _, hs⟩

theorem Lacks.scan (h : Lacks l [.rb]) : ∃ c t e l', l.Scan = .token c t e l' ∧ c ≠ .rb := by
  obtain ⟨c, t, e, l', hscan, hc⟩ := h
  exact ⟨c, t, e, l', hscan, by simpa using hc⟩

/-- A turn adds a statement, and looks for the brace behind it. -/
theorem turn_accepts {v : List Node ⊕ List Node} : (p.statementListTurn r acc).Accepts l v l' ↔
    ∃ node c t e l₁, (p.statement r).Accepts l node l' ∧ l'.Scan = .token c t e l₁ ∧
      v = if c = .rb then .inr (acc ++ [node]) else .inl (acc ++ [node]) := by
  refine ⟨?_, ?_⟩
  · intro h
    obtain ⟨node, l₂, hst, h⟩ := bind_accepts h
    obtain ⟨ch, l₃, hhere, h⟩ := bind_accepts h
    obtain ⟨⟨c, t, e⟩, l₄, hscan, h⟩ := bind_accepts h
    obtain ⟨u, l₅, hgoback, h⟩ := bind_accepts h
    obtain ⟨rfl, rfl⟩ := Result.ok.inj hhere
    obtain ⟨-, rfl⟩ := Result.ok.inj hgoback
    split at h
    next hc =>
      obtain ⟨rfl, rfl⟩ := Result.ok.inj h
      exact ⟨node, c, t, e, l₄, hst, scan_accepts hscan, by rw [if_pos hc]⟩
    next hc =>
      obtain ⟨rfl, rfl⟩ := Result.ok.inj h
      exact ⟨node, c, t, e, l₄, hst, scan_accepts hscan, by rw [if_neg hc]⟩
  · rintro ⟨node, c, t, e, l₁, hst, hscan, rfl⟩
    have hhere : (Back.here : P Lexer).Accepts l' l' l' := rfl
    have htok : scan.Accepts l' (c, t, e) l₁ := accepts_of_run (scan_of hscan)
    have hgoback : (Back.goback l' : P Unit).Accepts l₁ () l' := rfl
    refine hst.bind (hhere.bind (htok.bind (hgoback.bind ?_)))
    split <;> rfl

/-- The loop only adds to the list. -/
theorem loop_extends : ∀ {m : Nat} {acc : List Node} {l : Lexer},
    (Back.iterate (p.statementListTurn r) m acc).Accepts l cs l' → ∃ more, cs = acc ++ more
  | 0, _, _, h => by cases h
  | m + 1, acc, l, h => by
    rcases iterate_succ_accepts.mp h with ⟨acc', l₁, hturn, h⟩ | hturn
    · obtain ⟨node, c, t, e, l₂, -, -, hv⟩ := turn_accepts.mp hturn
      obtain ⟨more, rfl⟩ := loop_extends h
      split at hv <;> cases hv
      exact ⟨node :: more, by simp⟩
    · obtain ⟨node, c, t, e, l₂, -, -, hv⟩ := turn_accepts.mp hturn
      split at hv <;> cases hv
      exact ⟨[node], rfl⟩

theorem Listed.append {ms : List Node} {s'' : Text} (h : Listed p n s ns s') (h' : Listed p n s' ms s'') :
    Listed p n s (ns ++ ms) s'' := by
  induction h with
  | done => exact h'
  | more hs hst hnode hrest ih => exact .more hs hst hnode (ih h')

/-- Behind valid statements the loop goes on, if no brace follows. -/
theorem Listed.onward (acc : List Node) (h : Listed p n s ns s') (hs' : Lacks ⟨s', 0⟩ [.rb])
    (hloop : (Back.iterate (p.statementListTurn (p.depth n)) m (acc ++ ns)).Accepts ⟨s', 0⟩ cs l') :
    (Back.iterate (p.statementListTurn (p.depth n)) (ns.length + m) acc).Accepts ⟨s, 0⟩ cs l' := by
  induction h generalizing acc with
  | done =>
    rw [List.append_nil] at hloop
    rwa [List.length_nil, Nat.zero_add]
  | @more s s₁ s' node ns hs hst hnode hrest ih =>
    obtain ⟨c, t, e, l₁, hscan, hc⟩ := (hrest.lacks hs').scan
    rw [List.length_cons, Nat.add_right_comm]
    refine iterate_succ_accepts.mpr (.inl ⟨acc ++ [node], ⟨s₁, 0⟩, ?_, ih _ hs' (by simpa using hloop)⟩)
    exact turn_accepts.mpr ⟨node, c, t, e, l₁, hst, hscan, by rw [if_neg hc]⟩

/-- And if one follows, it ends. -/
theorem Listed.last (acc : List Node) (h : Listed p n s ns s') (hne : ns ≠ []) (hs' : Stands ⟨s', 0⟩ .rb l) :
    (Back.iterate (p.statementListTurn (p.depth n)) (ns.length + m) acc).Accepts ⟨s, 0⟩ (acc ++ ns)
      ⟨s', 0⟩ := by
  induction h generalizing acc with
  | done => exact absurd rfl hne
  | @more s s₁ s' node ns hs hst hnode hrest ih =>
    rw [List.length_cons, Nat.add_right_comm]
    refine iterate_succ_accepts.mpr ?_
    cases hrest with
    | done =>
      obtain ⟨t, hscan⟩ := hs'
      exact .inr (turn_accepts.mpr ⟨node, .rb, t, false, l, hst, hscan, by rw [if_pos rfl]⟩)
    | more hs₁ hst₁ hnode₁ hrest₁ =>
      obtain ⟨c, t, e, l₁, hscan, hc⟩ := hs₁.scan
      refine .inl ⟨acc ++ [node], ⟨s₁, 0⟩, ?_, ?_⟩
      · exact turn_accepts.mpr ⟨node, c, t, e, l₁, hst, hscan, by rw [if_neg hc]⟩
      · have h := ih (acc ++ [node]) (List.cons_ne_nil _ _) hs'
        rwa [List.append_assoc, List.singleton_append] at h

/-- Whatever follows, the loop has read the statements; if that is not all, it has gone on. -/
theorem Listed.loop (h : Listed p n s ns s')
    (hloop : (Back.iterate (p.statementListTurn (p.depth n)) (ns.length + m) acc).Accepts ⟨s, 0⟩ cs l') :
    cs = acc ++ ns ∨
      (Back.iterate (p.statementListTurn (p.depth n)) m (acc ++ ns)).Accepts ⟨s', 0⟩ cs l' := by
  induction h generalizing acc with
  | done =>
    rw [List.length_nil, Nat.zero_add] at hloop
    rw [List.append_nil]
    exact .inr hloop
  | @more s s₁ s' node ns hs hst hnode hrest ih =>
    rw [List.length_cons, Nat.add_right_comm] at hloop
    rcases iterate_succ_accepts.mp hloop with ⟨acc', l₁, hturn, hloop⟩ | hturn
    · obtain ⟨node', c, t, e, l₂, hst', hscan, hv⟩ := turn_accepts.mp hturn
      obtain ⟨rfl, rfl⟩ := hst.unique hst'
      split at hv <;> cases hv
      simpa using ih hloop
    · obtain ⟨node', c, t, e, l₂, hst', hscan, hv⟩ := turn_accepts.mp hturn
      obtain ⟨rfl, rfl⟩ := hst.unique hst'
      split at hv <;> cases hv
      next hc =>
        cases hrest with
        | done => exact .inl rfl
        | more hs₁ =>
          obtain ⟨c', t', e', l₃, hscan', hc'⟩ := hs₁.scan
          exact absurd ((Scanned.token.inj (hscan'.symm.trans hscan)).1.trans hc) hc'

theorem statement_progress (hn : l.rest.length ≤ n) (h : (p.statement (p.depth n)).Accepts l node l') :
    l'.rest.length < l.rest.length := by
  have heats := statement_eats ((depth_calls (whole p) n).mono hn) whole_open
  obtain ⟨j, hj, hle⟩ := ((heats l (Nat.le_refl _)).ok node l' h).on
  exact Nat.lt_of_le_of_lt hle hj

/-- Every statement has a character. -/
theorem Listed.length_le (h : Listed p n s ns s') (hn : s.length ≤ n) : ns.length + s'.length ≤ s.length := by
  induction h with
  | done => simp
  | @more s s₁ s' node ns hs hst hnode hrest ih =>
    have hlt : s₁.length < s.length := statement_progress hn hst
    have hrest := ih (by omega)
    rw [List.length_cons]
    omega

end Loop

/-! ## Main result -/

/-- Lines that are read as statements, in whatever file they stand and whatever comes behind. -/
def ValidLines (p : Parser) (n : Nat) (lines : Text) (ns : List Node) : Prop :=
  ∀ runes cap s, Listed { p with runes := runes, cap := cap } n (lines ++ s) ns s

/-- The statements of a block, up to its brace. No statement begins one of the lines, and all others are
valid; the calls may be nested as deep as the text is long. -/
structure Block (p : Parser) (n : Nat) where
  front : Text
  pre : Text
  bad : Text
  post : Text
  rest : Text
  before : List Node
  after : List Node
  runes_eq : p.runes = front ++ (pre ++ (bad ++ '\n' :: (post ++ '\x7d' :: rest)))
  cap_le : p.runes.length ≤ p.cap
  line : ∀ c ∈ ['\n', '\x7b', '\x7d'], c ∉ bad
  noStatement : NoStatement p (p.depth n) bad (post ++ '\x7d' :: rest)
  reads_pre : ValidLines p n pre before
  reads_post : ValidLines p n post after
  deep : (pre ++ (bad ++ '\n' :: (post ++ '\x7d' :: rest))).length ≤ n

namespace Block

variable {p : Parser} {n : Nat} (b : Block p n)

def close : Text := '\x7d' :: b.rest

def text : Text := b.pre ++ (b.bad ++ '\n' :: (b.post ++ b.close))

/-- The number of the bad line. -/
def number : Nat := 1 + (b.front ++ b.pre).count '\n'

/-- The block without the line, and the parser of its file. -/
def others : Text := b.pre ++ (b.post ++ b.close)

def without : Parser := { p with runes := b.front ++ b.others }

/-- The bad line is an `ErrSTNode` with its number and text, and the nodes of all other lines are as they are
without it. -/
def Recovers : Prop :=
  (p.statementList (p.depth n)).Accepts ⟨b.text, 0⟩
      (.sl (b.before ++ .errST b.number b.bad :: b.after)) ⟨b.close, 0⟩ ∧
    (b.before ++ b.after ≠ [] →
      (b.without.statementList (b.without.depth n)).Accepts ⟨b.others, 0⟩ (.sl (b.before ++ b.after))
        ⟨b.close, 0⟩)

/-- Where the bad line begins, and what it is read as if it is skipped. -/
def here : Lexer := ⟨b.bad ++ '\n' :: (b.post ++ b.close), 0⟩

theorem stands_close : ∃ l, Stands ⟨b.close, 0⟩ .rb l := ⟨⟨b.rest, 0⟩, ['\x7d'], rfl⟩

theorem length_here : b.here.rest.length ≤ n ∧ b.bad.length < n := by
  have hdeep := b.deep
  simp only [List.length_append, List.length_cons] at hdeep
  unfold here close
  simp only [List.length_append, List.length_cons]
  omega

theorem pos_here : p.pos b.here = (b.front ++ b.pre).length := by
  unfold pos here close
  rw [b.runes_eq]
  simp only [List.length_append, List.length_cons]
  omega

theorem lineNumber_here : p.lineNumber b.here = b.number := by
  unfold lineNumber number
  rw [b.pos_here, b.runes_eq, ← List.append_assoc, List.take_left]

/-- The line is skipped as it should be just if it is tidy. -/
theorem errST_line_iff {l' : Lexer} : (p.errST (p.depth n)).Accepts b.here (.errST b.number b.bad) l' ↔
    Tidy b.bad (b.post ++ b.close) ∧ l' = ⟨b.post ++ b.close, 0⟩ := by
  have hfuel : b.bad.length < (p.depth n).fuel := by
    rw [depth_fuel]
    exact Nat.lt_succ_of_lt b.length_here.2
  have hskip : (Back.iterate (skipTurn b.here) (p.depth n).fuel ()).Accepts b.here b.bad l' ↔ _ :=
    skip_line_iff (b.line '\n' (by simp)) hfuel rfl 0
  rw [errST_accepts, ← hskip]
  refine ⟨?_, ?_⟩
  · rintro ⟨-, src, hloop, hnode⟩
    obtain ⟨-, rfl⟩ := Node.errST.inj hnode
    exact hloop
  · intro hloop
    refine ⟨?_, b.bad, hloop, by rw [b.lineNumber_here]⟩
    have hcap := b.cap_le
    rw [b.pos_here]
    rw [b.runes_eq] at hcap
    simp only [List.length_append] at hcap ⊢
    omega

theorem on_line (h : Tidy b.bad (b.post ++ b.close)) : (lineGround (b.post ++ b.close)).On n b.here := by
  obtain ⟨u, hu, hgets⟩ := h.between
  obtain rfl : u = [] := hu
  exact ⟨b.bad, rfl, Nat.le_of_lt b.length_here.2, hgets, b.line⟩

/-- No brace stands where a tidy line begins. -/
theorem lacks_here (h : Tidy b.bad (b.post ++ b.close)) : Lacks b.here [.rb] := by
  rcases lineGround_scan (b.on_line h) with hnl | ⟨c, t, l', hscan, -, -, hrb, -⟩
  · exact ⟨_, _, _, _, hnl, by decide⟩
  · exact ⟨c, t, false, l', hscan, by simpa using hrb⟩

/-- How many statements there are. -/
theorem length_nodes : b.before.length + b.after.length < n := by
  have hdeep := b.deep
  have hpre := (b.reads_pre p.runes p.cap b.here.rest).length_le b.deep
  have hhere := b.length_here.1
  have hpost := (b.reads_post p.runes p.cap b.close).length_le (n := n) (by
    unfold here at hhere
    simp only [List.length_append, List.length_cons] at hhere ⊢
    omega)
  unfold here close at hpre
  unfold close at hpost
  simp only [List.length_append, List.length_cons] at hdeep hpre hpost
  omega

/-- Where the lists of statements are read up to the brace. -/
theorem list_accepts {q : Parser} {s : Text} {ns : List Node}
    (h : (Back.iterate (q.statementListTurn (q.depth n)) (n + 1) []).Accepts ⟨s, 0⟩ ns ⟨b.close, 0⟩) :
    (q.statementList (q.depth n)).Accepts ⟨s, 0⟩ (.sl ns) ⟨b.close, 0⟩ := by
  unfold statementList
  rw [depth_fuel]
  exact Accepts.bind h rfl

/-- Without the line, the other lines are the block. -/
theorem others_accepted (hne : b.before ++ b.after ≠ []) :
    (b.without.statementList (b.without.depth n)).Accepts ⟨b.others, 0⟩ (.sl (b.before ++ b.after))
      ⟨b.close, 0⟩ := by
  have hreads : Listed b.without n b.others (b.before ++ b.after) b.close :=
    (b.reads_pre _ _ _).append (b.reads_post _ _ _)
  obtain ⟨l, hclose⟩ := b.stands_close
  have hnodes := b.length_nodes
  obtain ⟨m, hm⟩ : ∃ m, n + 1 = (b.before ++ b.after).length + m :=
    ⟨n + 1 - (b.before ++ b.after).length, by rw [List.length_append]; omega⟩
  have hloop := hreads.last (m := m) [] hne hclose
  rw [← hm, List.nil_append] at hloop
  exact b.list_accepts hloop

/-- With a node for the line, the loop goes on behind it. -/
theorem loop_behind {m : Nat} {acc : List Node} {node : Node}
    (hst : (p.statement (p.depth n)).Accepts b.here node ⟨b.post ++ b.close, 0⟩) :
    (Back.iterate (p.statementListTurn (p.depth n)) (b.after.length + m + 1) acc).Accepts b.here
      (acc ++ node :: b.after) ⟨b.close, 0⟩ := by
  obtain ⟨l, hclose⟩ := b.stands_close
  have hreads : Listed p n (b.post ++ b.close) b.after b.close := b.reads_post p.runes p.cap _
  refine iterate_succ_accepts.mpr ?_
  rcases hreads.first with ⟨hafter, hpost⟩ | ⟨hne, hlacks⟩
  · -- the line is the last one
    obtain ⟨t, hscan⟩ := hclose
    rw [hpost] at hst
    rw [hafter]
    exact .inr (turn_accepts.mpr ⟨node, .rb, t, false, l, hst, hscan, by rw [if_pos rfl]⟩)
  · obtain ⟨c, t, e, l₁, hscan, hc⟩ := hlacks.scan
    have hloop := hreads.last (m := m) (acc ++ [node]) hne hclose
    rw [List.append_assoc, List.singleton_append] at hloop
    refine .inl ⟨acc ++ [node], ⟨b.post ++ b.close, 0⟩, ?_, hloop⟩
    exact turn_accepts.mpr ⟨node, c, t, e, l₁, hst, hscan, by rw [if_neg hc]⟩

/-- The line is recovered from just if the lexer comes to its end between two tokens, right behind one. -/
theorem recovers_iff : b.Recovers ↔ Tidy b.bad (b.post ++ b.close) := by
  have hpre : Listed p n b.text b.before b.here.rest := b.reads_pre p.runes p.cap _
  have hnodes := b.length_nodes
  obtain ⟨m, hm⟩ : ∃ m, n + 1 = b.before.length + (b.after.length + m + 1) :=
    ⟨n - b.before.length - b.after.length, by omega⟩
  refine ⟨?_, ?_⟩
  · rintro ⟨hlist, -⟩
    obtain ⟨cs, l, hloop, hsl⟩ := bind_accepts hlist
    obtain ⟨hcs, rfl⟩ := Result.ok.inj hsl
    obtain rfl := Node.sl.inj hcs
    rw [depth_fuel, hm] at hloop
    rcases hpre.loop hloop with hcs | hloop
    · have hlen := congrArg List.length hcs
      simp at hlen
    rw [List.nil_append] at hloop
    -- the first node behind those in front is the bad line's
    have hnode : ∃ l', (p.statement (p.depth n)).Accepts b.here (.errST b.number b.bad) l' := by
      rcases iterate_succ_accepts.mp hloop with ⟨acc, l₁, hturn, hloop⟩ | hturn
      · obtain ⟨node, c, t, e, l₂, hst, -, hv⟩ := turn_accepts.mp hturn
        obtain ⟨more, hmore⟩ := loop_extends hloop
        split at hv <;> cases hv
        rw [List.append_assoc] at hmore
        obtain ⟨rfl, -⟩ := List.cons.inj (List.append_cancel_left hmore)
        exact ⟨l₁, hst⟩
      · obtain ⟨node, c, t, e, l₂, hst, -, hv⟩ := turn_accepts.mp hturn
        split at hv
        next =>
          obtain ⟨rfl, -⟩ := List.cons.inj (List.append_cancel_left (Sum.inr.inj hv))
          exact ⟨_, hst⟩
        next => cases hv
    obtain ⟨l', hst⟩ := hnode
    exact (b.errST_line_iff.mp (statement_errST hst)).1
  · intro htidy
    refine ⟨?_, b.others_accepted⟩
    have herr := b.errST_line_iff.mpr ⟨htidy, rfl⟩
    have hst : (p.statement (p.depth n)).Accepts b.here (.errST b.number b.bad) ⟨b.post ++ b.close, 0⟩ :=
      (statement_line b.noStatement (b.on_line htidy)).trans herr
    have hloop := hpre.onward [] (b.lacks_here htidy) (b.loop_behind (m := m) hst)
    rw [← hm, List.nil_append] at hloop
    exact b.list_accepts hloop

end Block

/-! ## A comment in the line -/

section Commented

variable {runes : Text} {cap : Nat}

theorem NoStatement.of_refuses (h : ∀ x ∈ p.statementForms r, x.Refuses ⟨bad ++ '\n' :: q, 0⟩) :
    NoStatement p r bad q := by
  intro x hx a l' hacc
  unfold Accepts at hacc
  rcases h x hx with hrun | ⟨e, l₁, hrun⟩
  · rw [hrun] at hacc
    cases hacc
  · rw [hrun] at hacc
    cases hacc

theorem validLines_break (n : Nat) : ValidLines p n "break\n".toList [.breakST] := by
  intro runes cap s
  have hst : (Parser.statement { p with runes := runes, cap := cap } (Parser.depth { p with runes := runes, cap := cap } n)).Accepts
      ⟨"break\n".toList ++ s, 0⟩ .breakST ⟨s, 0⟩ := by rfl
  exact .more ⟨.resBr, "break".toList, false, ⟨'\n' :: s, 0⟩, rfl, by decide⟩ hst (by rintro _ _ ⟨⟩) .done

def commentedText : Text := "\x7b\nbreak\n".toList ++ (") // c\n".toList ++ "break\n\x7d\n".toList)

def commentedFile : Parser := { plain with runes := commentedText, cap := 32 }

/-- Nothing begins with a closing parenthesis. -/
theorem commented_noStatement :
    NoStatement commentedFile (commentedFile.depth 32) ") // c".toList "break\n\x7d\n".toList := by
  refine .of_refuses fun x hx => ?_
  simp only [statementForms, List.mem_cons, List.not_mem_nil, or_false] at hx
  rcases hx with rfl | rfl | rfl | rfl | rfl | rfl | rfl | rfl | rfl | rfl | rfl | rfl
  · exact refuses_of_err rfl
  · exact refuses_of_err rfl
  · exact refuses_of_err rfl
  · exact refuses_of_err rfl
  · exact refuses_of_err rfl
  · exact refuses_of_err rfl
  · exact refuses_of_err rfl
  · exact refuses_of_err rfl
  · exact refuses_of_err rfl
  · exact refuses_of_err rfl
  · exact .inl rfl
  · exact .inl rfl

/-- The line is `) // c`. -/
def commented : Block commentedFile 32 where
  front := "\x7b\n".toList
  pre := "break\n".toList
  bad := ") // c".toList
  post := "break\n".toList
  rest := ['\n']
  before := [.breakST]
  after := [.breakST]
  runes_eq := rfl
  cap_le := by decide
  line := by simp
  noStatement := commented_noStatement
  reads_pre := validLines_break 32
  reads_post := validLines_break 32
  deep := by decide

/-- The comment takes the newline, and the line behind is skipped as well. -/
theorem commented_not_recovered : ¬ commented.Recovers := by
  intro h
  have hread : (commentedFile.statementList (commentedFile.depth 32)).Accepts ⟨commented.text, 0⟩
      (.sl [.breakST, .errST 3 ") // c\nbreak".toList]) ⟨"\x7d\n".toList, 0⟩ := by rfl
  cases (h.1.unique hread).1

end Commented

end CalcLang.Parser
