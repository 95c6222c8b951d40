import CalcLang.Parser.Discipline
import CalcLang.Parser.Next

/-!
# Where the parser does not come to an end

`SkipLn` is the only loop of the parser that may not end: it calls `Scan` until there is a newline, and
at the end of the text there is none. `Endless` says where that happens, of a text alone, and `badCall` of
which calls; a call of `ParseModule` is bad if it does not return.

All other loops read a token in each turn, and calls in a circle read one in between. So all of a text is
a `Field` for the parser (`whole`), and with as much fuel as the text is long only a bad call can run out
of it: `parseAST_terminates_iff`.
-/

namespace CalcLang.Parser

open CalcLang.Lex CalcLang.Lib CalcLang.Lib.Ground

variable {p : Parser} {r : Rec} {k n : Nat} {l l' : Lexer} {c : TokenType} {t : Text}

/-! ## Skipping a line -/

/-- The tokens from here on go to the end of the text, and none of them is a newline. -/
def Endless (l : Lexer) : Prop :=
  (tokens l.rest).2 = .eos ∧ ∀ w ∈ (tokens l.rest).1, w.code ≠ .nl

section Skip

/-- How far the lexer is behind the end makes no difference to what is read. -/
theorem scan_shift (l : Lexer) : l.Scan = (Lexer.Scan ⟨l.rest, 0⟩).shift l.past :=
  scanFrom_shift l.past false l.rest

theorem endless_token (h : l.Scan = .token c t false l') : Endless l ↔ c ≠ .nl ∧ Endless l' := by
  have hscan := scan_shift l
  cases h₀ : Lexer.Scan ⟨l.rest, 0⟩ with
  | panic | fatal =>
    rw [h₀, h] at hscan
    cases hscan
  | token c₀ t₀ e₀ l₀ =>
    rw [h₀, h] at hscan
    obtain ⟨rfl, rfl, rfl, rfl⟩ := Scanned.token.inj hscan
    have htokens : tokens l.rest = prepend [⟨c, t⟩] (tokens l₀.rest) := tokens_token h₀
    unfold Endless
    rw [htokens]
    show (tokens l₀.rest).2 = .eos ∧ (∀ w ∈ [⟨c, t⟩] ++ (tokens l₀.rest).1, w.code ≠ .nl) ↔ _
    rw [List.forall_mem_append, List.forall_mem_singleton]
    exact and_left_comm

theorem endless_eos (h : l.Scan = .token c t true l') : Endless l := by
  have hscan := scan_shift l
  have htokens := tokens_eq (s := l.rest)
  cases h₀ : Lexer.Scan ⟨l.rest, 0⟩ with
  | panic | fatal =>
    rw [h₀, h] at hscan
    cases hscan
  | token c₀ t₀ e₀ l₀ =>
    rw [h₀, h] at hscan
    obtain ⟨rfl, rfl, rfl, rfl⟩ := Scanned.token.inj hscan
    rw [h₀] at htokens
    unfold Endless
    rw [htokens]
    exact ⟨rfl, by rintro w ⟨⟩⟩

/-- Where the lexer fails, the loop ends. -/
theorem not_endless (h : l.Scan = .panic ∨ l.Scan = .fatal) : ¬ Endless l := by
  have hscan := scan_shift l
  have htokens := tokens_eq (s := l.rest)
  rintro ⟨hend, -⟩
  cases h₀ : Lexer.Scan ⟨l.rest, 0⟩ with
  | panic | fatal =>
    rw [h₀] at htokens
    rw [htokens] at hend
    cases hend
  | token c₀ t₀ e₀ l₀ =>
    rw [h₀] at hscan
    rcases h with h | h <;> rw [h] at hscan <;> cases hscan

variable {prev : Lexer}

theorem skipTurn_token (prev : Lexer) {e : Bool} (h : l.Scan = .token c t e l') : (skipTurn prev ()).run l =
    if c = .nl then .ok (.inr (prev.rest.take (prev.rest.length - l.rest.length))) l'
    else .ok (.inl ()) l' := by
  unfold skipTurn
  rw [Back.bind_run, Back.here_run, Run.andThen_ok, Back.bind_run, scan_of h, Run.andThen_ok]
  by_cases hc : c = .nl
  · simp [hc]
  · simp [hc]

theorem skip_panic (h : l.Scan = .panic) (n : Nat) :
    (Back.iterate (skipTurn prev) (n + 1) ()).run l = .panic := by
  simp [Back.iterate, skipTurn, scan, h]

theorem skip_fatal (h : l.Scan = .fatal) (n : Nat) :
    (Back.iterate (skipTurn prev) (n + 1) ()).run l = .fatal := by
  simp [Back.iterate, skipTurn, scan, h]

/-- At the end of the text it goes on and on. -/
theorem skip_end (prev : Lexer) (q : Nat) :
    ∀ n, (Back.iterate (skipTurn prev) n ()).run ⟨[], q⟩ = .out
  | 0 => rfl
  | n + 1 => by
    have hturn : (skipTurn prev ()).run ⟨[], q⟩ = .ok (.inl ()) ⟨[], q + 1⟩ := rfl
    rw [Back.iterate_next hturn]
    exact skip_end prev (q + 1) n

/-- What the loop comes to, with enough fuel. -/
inductive Skips (l : Lexer) : Run Err Lexer Call Text → Prop
  | out : Endless l → Skips l .out
  | ok (src : Text) (l' : Lexer) : ¬ Endless l → l'.rest.length < l.rest.length → Skips l (.ok src l')
  | panic : ¬ Endless l → Skips l .panic
  | fatal : ¬ Endless l → Skips l .fatal

theorem skip_loop (prev : Lexer) (hn : l.rest.length < n) : Skips l ((Back.iterate (skipTurn prev) n ()).run l) := by
  induction n generalizing l with
  | zero => cases hn
  | succ n ih =>
    cases hscan : l.Scan with
    | panic =>
      rw [skip_panic hscan]
      exact .panic (not_endless (.inl hscan))
    | fatal =>
      rw [skip_fatal hscan]
      exact .fatal (not_endless (.inr hscan))
    | token c t e l' =>
      have hturn := skipTurn_token prev hscan
      cases e with
      | true =>
        have hnl : c ≠ .nl := by rcases scan_eos_code hscan with rfl | rfl <;> decide
        rw [if_neg hnl] at hturn
        obtain ⟨rest, q⟩ := l'
        obtain rfl : rest = [] := scan_eos hscan
        rw [Back.iterate_next hturn, skip_end]
        exact .out (endless_eos hscan)
      | false =>
        have hlt := scan_progress hscan
        have hend := endless_token hscan
        by_cases hnl : c = .nl
        · rw [if_pos hnl] at hturn
          rw [Back.iterate_last hturn]
          exact .ok _ l' (fun h => (hend.mp h).1 hnl) hlt
        · rw [if_neg hnl] at hturn
          rw [Back.iterate_next hturn]
          have hiff : Endless l ↔ Endless l' := hend.trans (and_iff_right hnl)
          have hrest := ih (l := l') (by omega)
          generalize (Back.iterate (skipTurn prev) n ()).run l' = run at hrest ⊢
          cases hrest with
          | out h => exact .out (hiff.mpr h)
          | ok src l'' h hlt' => exact .ok src l'' (fun h' => h (hiff.mp h')) (by omega)
          | panic h => exact .panic fun h' => h (hiff.mp h')
          | fatal h => exact .fatal fun h' => h (hiff.mp h')

end Skip

/-! ## All of a text -/

/-- The calls that do not return. -/
def badCall (p : Parser) : Call → Prop
  | .skipLn l => p.pos l ≤ p.cap ∧ Endless l
  | .parseModule mod => p.parseModule mod = .never

/-- All places, by how much of the text is left. Nothing is off them. -/
def wholeGround (p : Parser) : Ground Lexer Call where
  On k l := l.rest.length ≤ k
  mono h hle := Nat.le_trans h hle
  bad := badCall p
  Off _ := False
  Fatal := True

section Calls

variable {α : Type} {G : Ground Lexer Call} {edge : Edge} {eats : α → Bool} {x : P α} {call : Call}

/-- A call that returns. -/
theorem keeps_note (hgood : ¬ G.bad call) (h : G.Keeps edge eats k (x.run l)) :
    G.Keeps edge eats k ((Back.note call >>= fun _ => x).run l) where
  ok := h.ok
  err := h.err
  fatal := h.fatal
  out := by
    refine h.out.trans ⟨fun ⟨c, hc, hbad⟩ => ⟨c, List.mem_cons_of_mem _ hc, hbad⟩, ?_⟩
    rintro ⟨c, hc, hbad⟩
    rcases List.mem_cons.mp hc with rfl | hc
    · exact absurd hbad hgood
    · exact ⟨c, hc, hbad⟩

/-- A call that does not. -/
theorem keeps_bad (hbad : G.bad call) (h : x.run l = .out) :
    G.Keeps edge eats k ((Back.note call >>= fun _ => x).run l) := by
  have hrun : (Back.note call >>= fun _ => x).run l = ⟨.out, [call]⟩ := by
    show (⟨(x.run l).result, [call] ++ (x.run l).calls⟩ : Run Err Lexer Call α) = _
    rw [h]
    rfl
  rw [hrun]
  exact ⟨by rintro _ _ ⟨⟩, by rintro _ _ ⟨⟩, by rintro ⟨⟩,
    iff_of_true rfl ⟨call, List.mem_cons_self, hbad⟩⟩

end Calls

theorem whole_open : (wholeGround p).Open := fun _ h => h

theorem skipLn_eats (hk : k < r.fuel) : (wholeGround p).Eats k (p.skipLn r) := by
  intro l hl
  unfold skipLn
  rw [Back.bind_run, Back.here_run, Run.andThen_ok]
  by_cases hpos : p.cap < p.pos l
  · rw [if_pos hpos]
    exact keeps_note (fun hbad => absurd hpos (Nat.not_lt.mpr hbad.1)) .ofPanic
  · rw [if_neg hpos]
    have hloop := skip_loop l (Nat.lt_of_le_of_lt hl hk)
    generalize hrun : (Back.iterate (skipTurn l) r.fuel ()).run l = run at hloop
    have hgood : ¬ Endless l → ¬ (wholeGround p).bad (.skipLn l) := fun hend hbad => hend hbad.2
    cases hloop with
    | out hend => exact keeps_bad ⟨Nat.not_lt.mp hpos, hend⟩ (by rw [Back.bind_run, hrun, Run.andThen_out])
    | ok src l' hend hlt =>
      refine keeps_note (hgood hend) ?_
      rw [Back.bind_run, hrun, Run.andThen_ok]
      exact .ofOk (.inr ⟨l'.rest.length, Nat.lt_of_lt_of_le hlt hl, Nat.le_refl _⟩)
    | panic hend =>
      refine keeps_note (hgood hend) ?_
      rw [Back.bind_run, hrun, Run.andThen_panic]
      exact .ofPanic
    | fatal hend =>
      refine keeps_note (hgood hend) ?_
      rw [Back.bind_run, hrun, Run.andThen_fatal]
      exact .ofFatal trivial

theorem errST_eats (hk : k < r.fuel) : (wholeGround p).Eats k (p.errST r) :=
  Holds.eat (skipLn_eats hk) fun _ _ _ => .pure rfl

theorem length_dropWhile (s : Text) : (s.dropWhile isBlank).length ≤ s.length :=
  List.Sublist.length_le (List.dropWhile_sublist isBlank)

def whole (p : Parser) : Field p where
  toGround := wholeGround p
  eos hl h := by
    show List.length _ ≤ _
    rw [scan_eos h]
    exact Nat.zero_le _
  token hl h := .inr ⟨_, Nat.lt_of_lt_of_le (scan_progress h) hl, Nat.le_refl _⟩
  brace _ _ := whole_open
  fatal _ _ := trivial
  gt {k s q s'} hl h := by
    have hle : s.length ≤ k := hl
    have hdrop := length_dropWhile s
    rw [h, List.length_cons] at hdrop
    exact ⟨s'.length, by omega, Nat.le_refl _⟩
  noGt _ _ := Nat.zero_le _
  errST _ {_ _} hk := errST_eats hk

/-! ## Files -/

section Files

variable (h : Calls (whole p) r k)
include h

theorem genericParams_eats : (whole p).Eats k (genericParams r) := by
  have hfuel := h.fuel
  refine Holds.rewinding (Holds.eat (scanType_eats (by decide) (by decide)) fun _ j hj => ?_)
  refine Holds.eat (scanType_eats (by decide) (by decide)) fun t i hi => ?_
  refine Holds.stays (Holds.iterate (fun n m hm => ?_) (by omega) _)
  refine if_sees (scanType_eats (by decide) (by decide)) (fun _ _ => .pure rfl) ?_
  refine Holds.eat (scanType_eats (by decide) (by decide)) fun _ _ _ => ?_
  exact Holds.eat (scanType_eats (by decide) (by decide)) fun _ _ _ => .pure rfl

theorem typeDef_eats : (whole p).Eats k (p.typeDef r) := by
  refine Holds.eat (scanType_eats (by decide) (by decide)) fun _ j hj => ?_
  refine Holds.eat (scanType_eats (by decide) (by decide)) fun _ i hi => ?_
  have h := h.mono (Nat.le_of_lt (Nat.lt_trans hi hj))
  refine Holds.stay (opt_stays (genericParams_eats h).stays) fun _ => ?_
  exact Holds.stay (allTypes_eats h).stays fun _ => .pure rfl

theorem function_eats : (whole p).Eats k (p.function r) := by
  refine Holds.eat (scanType_eats (by decide) (by decide)).must fun _ j hj => ?_
  refine Holds.eat (scanType_eats (by decide) (by decide)).must fun _ i hi => ?_
  have h := h.mono (Nat.le_of_lt (Nat.lt_trans hi hj))
  refine Holds.stay (opt_stays (genericParams_eats h).stays) fun _ => ?_
  refine Holds.stay (funcParams_eats h).stays fun params => ?_
  refine Holds.stay ?_ fun _ => ?_
  · split
    · split
      · exact .pure rfl
      · exact .panic
    · exact .pure rfl
  · refine Holds.stay (allTypes_eats h).must.stays fun _ => ?_
    refine Holds.stay ((sees_holds (scanType_eats (by decide) (by decide))).stays) fun _ => ?_
    refine Holds.stay (opt_stays (statementBlock_stays h)) fun _ => ?_
    dsimp only
    split
    · exact .pure rfl
    · exact .panic

omit h in
theorem pkgDeclare_stays : (whole p).Stays k pkgDeclare := by
  refine Holds.eat (scanType_eats (by decide) (by decide)) fun _ _ _ => ?_
  refine Holds.eat (scanType_eats (by decide) (by decide)) fun _ _ _ => ?_
  exact Holds.stay (Holds.opened empty_holds whole_open).stays.catching fun _ => .pure rfl

omit h in
theorem importStatementTurn_holds (imports : List (Text × Text)) :
    (whole p).Holds .none Sum.isLeft k (importStatementTurn imports) := by
  refine if_sees (scanType_eats (by decide) (by decide)) (fun _ _ => .pure rfl) ?_
  refine if_sees (Holds.opened scanType_nl whole_open) (fun _ _ => .pure rfl) ?_
  refine Holds.eat (scanType_eats (by decide) (by decide)) fun _ _ _ => ?_
  exact attempt_eats (scanType_eats (by decide) (by decide)) (fun _ _ _ => .pure rfl) fun _ => .pure rfl

theorem importStatement_eats : (whole p).Eats k (importStatement r) := by
  have hfuel := h.fuel
  refine Holds.eat (scanType_eats (by decide) (by decide)) fun _ j hj => ?_
  refine attempt_eats (scanType_eats (by decide) (by decide)) (fun _ _ _ => .pure rfl) fun _ => ?_
  refine Holds.eat (scanType_eats (by decide) (by decide)) fun _ i hi => ?_
  exact Holds.iterate (fun imports m hm => importStatementTurn_holds imports) (by omega) _

omit h in
theorem loadImports_stays : ∀ imports, (wholeGround p).Stays k (p.loadImports imports)
  | [] => .pure rfl
  | (_, v) :: imports => by
    unfold loadImports
    split
    · exact .panic
    · intro l hl
      have hrest := loadImports_stays imports l hl
      cases hmod : p.parseModule v with
      | done =>
        refine keeps_note ?_ hrest
        intro hbad
        cases hmod.symm.trans hbad
      | panics =>
        refine keeps_note ?_ .ofPanic
        intro hbad
        cases hmod.symm.trans hbad
      | never => exact keeps_bad hmod rfl

theorem declarationsTurn_holds (children : List Node) :
    (whole p).Holds .none Sum.isLeft k (p.declarationsTurn r children) := by
  refine ahead (fun l l' c t hl hl' hc => ?_) fun l l' c t hl hl' => ?_
  · have hnl : c ≠ .nl := by rcases hc with rfl | rfl <;> decide
    dsimp only
    rw [if_neg hnl, if_pos rfl]
    exact keeps_goback hl (.pure rfl)
  · dsimp only
    split
    · exact keeps_behind (hl'.resolve_left fun hoff => hoff.2) fun _ _ => .pure rfl
    · refine keeps_goback hl ?_
      rw [if_neg Bool.false_ne_true]
      refine Holds.eat ?_ fun _ _ _ => .pure rfl
      refine Holds.orElse (typeDef_eats h).catching (by decide) ?_
      refine Holds.orElse ((define_holds h).opened whole_open).catching (by decide) ?_
      exact Holds.orElse (defineAndAssign_eats h).catching (by decide) (function_eats h)

end Files

theorem program_stays (hk : k ≤ n) : (wholeGround p).Stays k (p.program n) := by
  have h : Calls (whole p) (p.depth n) k := (depth_calls (whole p) n).mono hk
  refine Holds.stay (pkgDeclare_stays (p := p)).must fun pkg => ?_
  split
  · exact .panic
  · refine Holds.stay (G := (whole p).toGround) (Holds.iterate (fun _ j hj => ?_) h.fuel _) fun _ => ?_
    · exact if_sees (Holds.opened scanType_nl whole_open) (fun _ _ => .pure rfl) (.pure rfl)
    · refine Holds.stay (opt_stays (importStatement_eats h).stays) fun imports => ?_
      refine Holds.stay (G := wholeGround p) (loadImports_stays _) fun _ => ?_
      -- the names of the imports have no part in what is kept to
      have hdecl : ∀ q : Parser, wholeGround q = wholeGround p → (wholeGround p).Stays k (do
          let children ← Back.iterate (q.declarationsTurn (q.depth n)) (q.depth n).fuel []
          pure (⟨pkg, imports, children⟩ : ProgramNode)) := by
        intro q hq
        rw [← hq]
        refine Holds.stay (Holds.iterate (fun children j hj => ?_) ?_ _) fun _ => .pure rfl
        · exact declarationsTurn_holds ((depth_calls (whole q) n).mono (Nat.le_trans hj hk)) children
        · rw [depth_fuel]
          exact Nat.lt_succ_of_le hk
      exact hdecl _ rfl

/-- With calls nested as deep as the text is long, only a bad call does not return. -/
theorem parseAST_out_iff (p : Parser) (spare : Nat) (s : Text) (hn : s.length ≤ n) :
    (p.ParseAST n spare s).result = .out ↔
      ∃ c ∈ (p.ParseAST n spare s).calls, badCall { p with runes := s, cap := s.length + spare } c :=
  (program_stays (p := { p with imp := fun _ => none, runes := s, cap := s.length + spare }) hn
    ⟨s, 0⟩ (Nat.le_refl _)).out

/-! ## Main result -/

/-- `ParseAST` returns a program or an error, or panics, or ends the program. -/
def Terminates (p : Parser) (spare : Nat) (s : Text) : Prop :=
  ∃ N, ∀ n ≥ N, (p.ParseAST n spare s).result ≠ .out

/-- It does just if no call of `SkipLn` is made where there is no newline up to the end of the text (and
no call of `ParseModule` that does not return). -/
theorem parseAST_terminates_iff (p : Parser) (spare : Nat) (s : Text) :
    Terminates p spare s ↔ ∃ N, ∀ n ≥ N, ∀ c ∈ (p.ParseAST n spare s).calls,
      ¬ badCall { p with runes := s, cap := s.length + spare } c := by
  have hiff : ∀ n ≥ s.length, (p.ParseAST n spare s).result ≠ .out ↔
      ∀ c ∈ (p.ParseAST n spare s).calls, ¬ badCall { p with runes := s, cap := s.length + spare } c := by
    intro n hn
    rw [Ne, parseAST_out_iff p spare s hn]
    push Not
    rfl
  refine ⟨?_, ?_⟩
  · rintro ⟨N, hN⟩
    exact ⟨max N s.length, fun n hn => (hiff n (by omega)).mp (hN n (by omega))⟩
  · rintro ⟨N, hN⟩
    exact ⟨max N s.length, fun n hn => (hiff n (by omega)).mpr (hN n (by omega))⟩

/-! ## A text that is not ended -/

section Unended

variable {q : Nat}

theorem errST_end (hq : p.pos ⟨[], q⟩ ≤ p.cap) : ((p.errST r).run ⟨[], q⟩).result = .out := by
  have hskip : (Back.iterate (skipTurn ⟨[], q⟩) r.fuel ()).run ⟨[], q⟩ = .out := skip_end _ q _
  unfold errST skipLn
  rw [Back.bind_run, Back.bind_run, Back.here_run, Run.andThen_ok, if_neg (Nat.not_lt.mpr hq)]
  simp [Back.note, hskip, Run.andThen, Run.out]

/-- No statement begins at the end of the text, so the rest of the line is to be skipped. -/
theorem statement_end (n : Nat) (hq : p.pos ⟨[], q⟩ ≤ p.cap) :
    ((p.statement (p.depth n)).run ⟨[], q⟩).result = .out := by
  have hstars : (stars (p.depth n)).run ⟨[], q + 1⟩ = .ok 0 ⟨[], q + 2⟩ := by cases n <;> rfl
  have hassign : (p.assign (p.depth n)).Refuses ⟨[], q + 1⟩ :=
    Back.Refuses.rewinding (Back.Refuses.after hstars (Back.refuses_of_err rfl))
  have hsees : (sees .resAwait).run ⟨[], q⟩ = .ok false ⟨[], q + 1⟩ := rfl
  have hother : ((p.otherStatement (p.depth n) ⟨[], q⟩).run ⟨[], q + 1⟩).result = .out := errST_end hq
  unfold statement
  rw [Back.recovering_run, Back.bind_run, Back.here_run, Run.andThen_ok, Back.bind_run, hsees,
    Run.andThen_ok, if_neg Bool.false_ne_true]
  unfold runWithCatch
  -- `continueST`, `breakST`, `yield`, `forloop`, `defineAndAssign`, `ifstatement`
  rw [Back.Refuses.orElse (Back.refuses_of_err rfl), Back.Refuses.orElse (Back.refuses_of_err rfl),
    Back.Refuses.orElse (Back.refuses_of_err rfl), Back.Refuses.orElse (Back.refuses_of_err rfl),
    Back.Refuses.orElse (Back.refuses_of_err rfl), Back.Refuses.orElse (Back.refuses_of_err rfl)]
  -- `assign`, `define`, `returnST`
  rw [Back.Refuses.orElse hassign, Back.Refuses.orElse (Back.refuses_of_err rfl),
    Back.Refuses.orElse (Back.refuses_of_err rfl)]
  unfold Run.andThen
  rw [hother]

theorem statementList_end (n : Nat) (hq : p.pos ⟨[], q⟩ ≤ p.cap) :
    ((p.statementList (p.depth n)).run ⟨[], q⟩).result = .out := by
  unfold statementList
  rw [depth_fuel, Back.iterate]
  exact Back.bind_out (Back.bind_out (Back.bind_out (statement_end n hq)))

/-- A function whose body is not ended, and a file with it. -/
def unendedFunc : Text := "func f() int \x7b".toList

def unended : Text := "package main\n".toList ++ unendedFunc

theorem function_unended (n : Nat) (hq : p.pos ⟨[], 0⟩ ≤ p.cap) :
    ((p.function (p.depth (n + 2))).run ⟨unendedFunc, 0⟩).result = .out := by
  -- the body goes up to the end of the text
  have hbody : ((statementBlock (p.depth (n + 2))).run ⟨" \x7b".toList, 0⟩).result = .out :=
    Back.out_after (m := ⟨[], 0⟩) (by rfl) (Back.bind_out (statementList_end (n + 1) hq))
  unfold function
  refine Back.out_after (a := "func".toList) (m := ⟨" f() int \x7b".toList, 0⟩) (by rfl) ?_
  refine Back.out_after (a := "f".toList) (m := ⟨"() int \x7b".toList, 0⟩) (by rfl) ?_
  refine Back.out_after (a := none) (m := ⟨"() int \x7b".toList, 0⟩) (by rfl) ?_
  refine Back.out_after (a := ⟨[], false⟩) (m := ⟨" int \x7b".toList, 0⟩) (by rfl) ?_
  refine Back.out_after (a := "f".toList) (m := ⟨" int \x7b".toList, 0⟩) (by rfl) ?_
  refine Back.out_after (a := .basic .resInt 0) (m := ⟨" \x7b".toList, 0⟩) (by rfl) ?_
  refine Back.out_after (a := false) (m := ⟨" \x7b".toList, 0⟩) (by rfl) ?_
  refine Back.bind_out (Back.bind_out ?_)
  rw [Back.attempt_run]
  unfold Run.andThen
  rw [hbody]

theorem declarationsTurn_unended (n : Nat) (hq : p.pos ⟨[], 0⟩ ≤ p.cap) :
    ((p.declarationsTurn (p.depth (n + 2)) []).run ⟨unendedFunc, 0⟩).result = .out := by
  unfold declarationsTurn
  refine Back.out_after (a := ⟨unendedFunc, 0⟩) (m := ⟨unendedFunc, 0⟩) (by rfl) ?_
  refine Back.out_after (a := (.resFunc, "func".toList, false)) (m := ⟨" f() int \x7b".toList, 0⟩)
    (by rfl) ?_
  refine Back.out_after (a := ()) (m := ⟨unendedFunc, 0⟩) (by rfl) ?_
  refine Back.bind_out ?_
  unfold runWithCatch
  rw [Back.Refuses.orElse (Back.refuses_of_err rfl), Back.Refuses.orElse (Back.refuses_of_err rfl),
    Back.Refuses.orElse (Back.refuses_of_err rfl)]
  exact function_unended n hq

theorem unended_not_terminates : ¬ Terminates plain 0 unended := by
  rintro ⟨N, hN⟩
  refine hN (N + 2) (by omega) ?_
  unfold ParseAST program
  refine Back.out_after (a := "main".toList) (m := ⟨unendedFunc, 0⟩) (by rfl) ?_
  rw [if_neg (by decide)]
  refine Back.out_after (a := ()) (m := ⟨unendedFunc, 0⟩) (by rfl) ?_
  refine Back.out_after (a := none) (m := ⟨unendedFunc, 0⟩) (by rfl) ?_
  refine Back.out_after (a := ()) (m := ⟨unendedFunc, 0⟩) (by rfl) ?_
  exact Back.bind_out (Back.bind_out (declarationsTurn_unended N (by decide)))

end Unended

end CalcLang.Parser
