import CalcLang.Lex.Lines
import CalcLang.Lib.Ground
import CalcLang.Parser.Choices

/-!
# What every function of the parser keeps to

A `Field` is a set of places in texts that tokens do not lead out of, but a newline may; then there is no
opening brace in it. Every function of the parser keeps to every field, and
all but a few read a token at least. There is one lemma for each of them, and `depth_calls` ties the knot:
with calls nested `n` deep at most, the functions keep to all places that are less than `n` from the
end.
-/

namespace CalcLang.Parser

open CalcLang.Lex CalcLang.Lib CalcLang.Lib.Ground

/-- A ground of the lexer. -/
structure Field (p : Parser) extends Ground Lexer Call where
  eos : ∀ {k l c t l'}, On k l → l.Scan = .token c t true l' → On k l'
  token : ∀ {k l c t l'}, On k l → l.Scan = .token c t false l' → c = .nl ∧ Off l' ∨ ∃ j < k, On j l'
  brace : ∀ {k l t l'}, On k l → l.Scan = .token .lb t false l' → toGround.Open
  fatal : ∀ {k l}, On k l → l.Scan = .fatal → Fatal
  /-- Where a `>` is looked for, past blanks. -/
  gt : ∀ {k s q s'}, On k ⟨s, q⟩ → s.dropWhile isBlank = '>' :: s' → ∃ j < k, On j ⟨s', q⟩
  noGt : ∀ {k s q}, On k ⟨s, q⟩ → s.dropWhile isBlank = [] → On k ⟨[], q + 1⟩
  errST : toGround.Open → ∀ {r : Rec} {k}, k < r.fuel → toGround.Eats k (p.errST r)

variable {p : Parser} {r : Rec} {G : Field p} {k : Nat} {edge : Edge} {α β : Type}

/-- What is supposed of the functions that are called in circles. -/
structure Calls (G : Field p) (r : Rec) (k : Nat) : Prop where
  fuel : k < r.fuel
  allTypes : ∀ j < k, G.Eats j r.allTypes
  exp : ∀ j < k, G.Eats j r.exp
  boolexp : ∀ j < k, G.Eats j r.boolexp
  boolean : ∀ j < k, G.Eats j r.boolean
  allexp : ∀ j < k, G.Eats j r.allexp
  callFunc : ∀ j < k, G.Eats j r.callFunc
  ifstatement : G.Open → ∀ j < k, G.Eats j r.ifstatement
  statementList : G.Open → ∀ j < k, G.Eats j r.statementList

theorem Calls.mono {j : Nat} (h : Calls G r k) (hj : j ≤ k) : Calls G r j where
  fuel := Nat.lt_of_le_of_lt hj h.fuel
  allTypes i hi := h.allTypes i (Nat.lt_of_lt_of_le hi hj)
  exp i hi := h.exp i (Nat.lt_of_lt_of_le hi hj)
  boolexp i hi := h.boolexp i (Nat.lt_of_lt_of_le hi hj)
  boolean i hi := h.boolean i (Nat.lt_of_lt_of_le hi hj)
  allexp i hi := h.allexp i (Nat.lt_of_lt_of_le hi hj)
  callFunc i hi := h.callFunc i (Nat.lt_of_lt_of_le hi hj)
  ifstatement ho i hi := h.ifstatement ho i (Nat.lt_of_lt_of_le hi hj)
  statementList ho i hi := h.statementList ho i (Nat.lt_of_lt_of_le hi hj)

/-! ## Tokens -/

section Tokens

variable {eats : α → Bool} {code : TokenType}

theorem keeps_scan {l : Lexer} {f : TokenType × Text × Bool → P α} (hl : G.On k l)
    (heos : ∀ l' c t, G.On k l' → c = .int ∨ c = .minusOne → G.Keeps edge eats k ((f (c, t, true)).run l'))
    (htok : ∀ l' c t, l.Scan = .token c t false l' → (c = .nl ∧ G.Off l' ∨ ∃ j < k, G.On j l') →
      G.Keeps edge eats k ((f (c, t, false)).run l')) :
    G.Keeps edge eats k ((scan >>= f).run l) := by
  rw [Back.bind_run]
  cases hscan : l.Scan with
  | panic =>
    have hrun : scan.run l = .panic := by simp [scan, hscan]
    rw [hrun]
    exact .ofPanic
  | fatal =>
    have hrun : scan.run l = .fatal := by simp [scan, hscan]
    rw [hrun]
    exact .ofFatal (G.fatal hl hscan)
  | token c t e l' =>
    rw [scan_of hscan, Run.andThen_ok]
    cases e with
    | true => exact heos l' c t (G.eos hl hscan) (scan_eos_code hscan)
    | false => exact htok l' c t hscan (G.token hl hscan)

/-- One token ahead, with the lexer in front of it and behind it. -/
theorem ahead {f : Lexer → TokenType × Text × Bool → P α}
    (heos : ∀ l l' c t, G.On k l → G.On k l' → c = .int ∨ c = .minusOne →
      G.Keeps edge eats k ((f l (c, t, true)).run l'))
    (htok : ∀ l l' c t, G.On k l → (c = .nl ∧ G.Off l' ∨ ∃ j < k, G.On j l') →
      G.Keeps edge eats k ((f l (c, t, false)).run l')) :
    G.Holds edge eats k (Back.here >>= fun l => scan >>= f l) := by
  intro l hl
  rw [Back.bind_run, Back.here_run, Run.andThen_ok]
  exact keeps_scan hl (fun l' c t => heos l l' c t hl) fun l' c t _ => htok l l' c t hl

/-- Only a newline leads out. -/
theorem inside {c : TokenType} {l' : Lexer} (h : c = .nl ∧ G.Off l' ∨ ∃ j < k, G.On j l') (hc : c ≠ .nl) :
    ∃ j < k, G.On j l' :=
  h.resolve_left fun hoff => hc hoff.1

/-- Going back to where the token began. -/
theorem keeps_goback {l l' : Lexer} {f : Unit → P α} (hl : G.On k l) (h : G.Holds edge eats k (f ())) :
    G.Keeps edge eats k ((Back.goback l >>= f).run l') :=
  h l hl

/-- Behind a token. -/
theorem keeps_behind {l' : Lexer} {x : P α} (hl' : ∃ j < k, G.On j l')
    (h : ∀ j < k, G.Holds edge (fun _ => false) j x) : G.Keeps edge eats k (x.run l') := by
  obtain ⟨j, hj, hl'⟩ := hl'
  exact (h j hj l' hl').mono (fun _ _ hok => hok.behind hj)
    fun _ herr => herr.behind (Nat.le_of_lt hj)

theorem scanCode_holds (hint : code ∉ [.int, .minusOne]) (hnl : code ≠ .nl ∨ edge = .value) :
    G.Holds edge (fun _ => true) k (scanCode code) := by
  refine ahead (fun l l' c t hl hl' hc => ?_) fun l l' c t hl hl' => ?_
  · have hne : c ≠ code := by
      rintro rfl
      rcases hc with rfl | rfl <;> exact hint (by decide)
    dsimp only
    rw [if_neg hne, if_pos rfl]
    exact .ofErr (beside_of_on hl')
  · dsimp only
    split
    next hc =>
      rcases hnl with hnl | hnl
      · exact .ofOk (.inr (inside hl' (hc ▸ hnl)))
      · exact .ofOk (hl'.imp_left fun hoff => ⟨hnl, hoff.2⟩)
    next => exact keeps_goback hl .throw

/-- Looking for a token. -/
theorem scanType_eats (hint : code ∉ [.int, .minusOne]) (hnl : code ≠ .nl) :
    G.Eats k (scanType code) := by
  unfold scanType
  split
  next hlg =>
    rintro ⟨s, q⟩ hl
    rw [Back.bind_run, Back.here_run, Run.andThen_ok, Back.bind_run]
    unfold getChSkipEmpty
    cases hs : s.dropWhile isBlank with
    | nil =>
      simp only [hs]
      exact .ofErr (beside_of_on (G.noGt hl hs))
    | cons d s' =>
      simp only [hs, Run.andThen_ok]
      split
      next hd => exact .ofOk (.inr (G.gt hl (hd ▸ hs)))
      next => exact keeps_goback hl (scanCode_holds hint (.inl hnl))
  next => exact scanCode_holds hint (.inl hnl)

/-- A newline leads out of the field. -/
theorem scanType_nl : G.Holds .value (fun _ => true) k (scanType .nl) :=
  scanCode_holds (by decide) (.inr rfl)

/-- An integer; at the end of the text nothing is read for it. -/
theorem scanType_int : G.Stays k (scanType .int) := by
  refine ahead (fun l l' c t hl hl' hc => ?_) fun l l' c t hl hl' => ?_
  · dsimp only
    split
    · exact .ofOk (.inr hl')
    · exact .ofErr (beside_of_on hl')
  · dsimp only
    split
    next hc =>
      obtain ⟨j, hj, hl'⟩ := inside hl' ((by rw [hc]; decide))
      exact .ofOk (.inr (G.mono hl' (Nat.le_of_lt hj)))
    next => exact keeps_goback hl .throw

/-- Where there are no braces, nothing stands behind one. -/
theorem brace_never {f : Text → P α} (hopen : ¬ G.Open) {l : Lexer} (hl : G.On k l) (a : α) (l' : Lexer) :
    ((scanType .lb >>= f).run l).result ≠ .ok a l' := by
  intro hok
  obtain ⟨t, l₁, ht, -⟩ := Back.bind_accepts hok
  obtain ⟨_, hbrace⟩ := stands_of_accepts (by decide) (by decide) ht
  exact hopen (G.brace hl hbrace)

/-- What stands behind a brace. -/
theorem scanType_lb {f : Text → P α} (h : G.Open → ∀ t, ∀ j < k, G.Holds edge (fun _ => false) j (f t)) :
    G.Holds edge eats k (scanType .lb >>= f) := by
  by_cases hopen : G.Open
  · exact Holds.eat (scanType_eats (by decide) (by decide)) (h hopen)
  · have hbrace : G.Eats k (scanType .lb) := scanType_eats (by decide) (by decide)
    refine Holds.never hbrace fun l hl t l' hok => ?_
    exact brace_never (f := pure) hopen hl t l' (Back.Accepts.bind hok rfl)

/-- A call whose error the caller looks at. -/
theorem attempt_eats {x : P α} {f : Except Err α → P β} {eats : β → Bool} (h : G.Eats k x)
    (hok : ∀ a, ∀ j < k, G.Holds edge (fun _ => false) j (f (.ok a)))
    (herr : ∀ e, G.Holds edge eats k (f (.error e))) : G.Holds edge eats k (x.attempt >>= f) := by
  refine Holds.bind (h.attempt (by decide)) ?_ ?_
  · rintro (e | a) ha j hj
    · cases ha
    · exact hok a j hj
  · rintro (e | a) ha
    · exact herr e
    · cases ha

theorem sees_holds (h : G.Eats k (scanType code)) : G.Holds .none id k (sees code) :=
  attempt_eats h (fun _ _ _ => .pure rfl) fun _ => .pure rfl

/-- What is read if the token is there, and if it is not. -/
theorem if_sees {x y : P α} (h : G.Eats k (scanType code))
    (hx : ∀ j < k, G.Holds edge (fun _ => false) j x) (hy : G.Holds edge eats k y) :
    G.Holds edge eats k (sees code >>= fun b => if b then x else y) := by
  refine Holds.bind (sees_holds h) ?_ ?_
  · rintro (_ | _) hb j hj
    · cases hb
    · exact hx j hj
  · rintro (_ | _) hb
    · exact hy
    · cases hb

theorem opt_stays {x : P α} (h : G.Stays k x) : G.Stays k (opt x) := by
  refine Holds.stay (h.attempt (by decide) |>.weaken ?_) ?_
  · rintro _ ⟨⟩
  · rintro (e | a)
    · exact .pure rfl
    · exact .pure rfl

end Tokens

/-! ## Types -/

/-- The text of a newline. -/
theorem scan_nl_text {l l' : Lexer} {t : Text} (h : l.Scan = .token .nl t false l') : t = ['\n'] := by
  obtain ⟨d, s, h⟩ := scan_token h
  exact (scanToken_nl h).1

section Types

variable (h : Calls G r k)
include h

theorem stars_stays : G.Stays k (stars r) :=
  Holds.iterate (fun _ _ _ => if_sees (scanType_eats (by decide) (by decide)) (fun _ _ => .pure rfl)
    (.pure rfl)) h.fuel _

theorem genericCallParams_eats : G.Eats k (genericCallParams r) := by
  refine Holds.rewinding (Holds.eat (scanType_eats (by decide) (by decide)) fun _ j hj => ?_)
  refine Holds.eat (h.allTypes j hj) fun t i hi => ?_
  refine Holds.stays (Holds.iterate (fun n m hm => ?_) (by have := h.fuel; omega) _)
  refine if_sees (scanType_eats (by decide) (by decide)) (fun _ _ => .pure rfl) ?_
  refine Holds.eat (scanType_eats (by decide) (by decide)) fun _ m' hm' => ?_
  exact Holds.eat (h.allTypes m' (by omega)) fun _ _ _ => .pure rfl

theorem basicTypes_eats : G.Eats k (basicTypes p r) := by
  refine Holds.rewinding fun l hl => keeps_scan hl (fun l' c t hl' _ => ?_) fun l' c t hscan hl' => ?_
  · exact .ofErr fun hedge => absurd rfl hedge
  · by_cases hnl : c = .nl
    · -- an error, behind the newline
      subst hnl
      obtain rfl := scan_nl_text hscan
      exact .ofErr fun hedge => absurd rfl hedge
    · dsimp only
      rw [if_neg Bool.false_ne_true]
      cases IsResType t with
      | some co => exact keeps_behind (inside hl' hnl) fun _ _ => .pure rfl
      | none =>
        dsimp only
        split
        · refine keeps_behind (inside hl' hnl) fun j hj => ?_
          refine Holds.stay (if_sees (scanType_eats (by decide) (by decide)) (fun i hi => ?_)
            (.pure rfl)) fun _ => ?_
          · exact Holds.eat (scanType_eats (by decide) (by decide)) fun _ _ _ => .pure rfl
          · exact Holds.stay (opt_stays (genericCallParams_eats (h.mono (Nat.le_of_lt hj))).stays)
              fun _ => .pure rfl
        · exact .ofErr fun hedge => absurd rfl hedge

theorem arrayTypes_eats : G.Eats k (arrayTypes r) := by
  refine Holds.rewinding (Holds.eat (scanType_eats (by decide) (by decide)) fun _ j hj => ?_)
  refine Holds.stay ?_ fun _ => ?_
  · refine Holds.stay (scanType_int.attempt (by decide) |>.weaken (by rintro _ ⟨⟩)) ?_
    rintro (e | t)
    · exact .pure rfl
    · exact .pure rfl
  · refine Holds.eat (scanType_eats (by decide) (by decide)) fun _ i hi => ?_
    exact Holds.eat (h.allTypes i (by omega)) fun _ _ _ => .pure rfl

theorem funcParam_eats : G.Eats k (funcParam r) := by
  refine Holds.eat (scanType_eats (by decide) (by decide)).must fun _ j hj => ?_
  exact Holds.eat (h.allTypes j hj).must fun _ _ _ => .pure rfl

theorem extFuncParam_eats : G.Eats k (extFuncParam r) :=
  Holds.eat (scanType_eats (by decide) (by decide)) fun _ _ hj =>
    (funcParam_eats (h.mono (Nat.le_of_lt hj))).stays

theorem untilRp_stays {x : P α} (hx : ∀ j < k, G.Eats j x) (as : List α) : G.Stays k (untilRp r x as) := by
  refine Holds.iterate (fun as j hj => ?_) h.fuel as
  refine attempt_eats (scanType_eats (by decide) (by decide)) (fun _ _ _ => .pure rfl) ?_
  rintro (_ | _ | _)
  · exact .panic
  all_goals
    refine Holds.eat (scanType_eats (by decide) (by decide)).must fun _ i hi => ?_
    exact Holds.eat (hx i (by omega)) fun _ _ _ => .pure rfl

theorem funcParams_eats : G.Eats k (funcParams r) := by
  refine Holds.eat (scanType_eats (by decide) (by decide)).must fun _ j hj => ?_
  have h := h.mono (Nat.le_of_lt hj)
  have hparams : ∀ i ≤ j, ∀ as, G.Stays i (untilRp r (funcParam r) as) := fun i hi as =>
    untilRp_stays (h.mono hi) (fun m hm => funcParam_eats (h.mono (by omega))) as
  refine attempt_eats (scanType_eats (by decide) (by decide)) (fun _ _ _ => .pure rfl) ?_
  rintro (_ | _ | _)
  · exact .panic
  all_goals
    refine attempt_eats (extFuncParam_eats h) (fun n i hi => ?_) fun _ => ?_
    · exact Holds.stay (hparams i (Nat.le_of_lt hi) _) fun _ => .pure rfl
    · refine Holds.eat (funcParam_eats h) fun n i hi => ?_
      exact Holds.stay (hparams i (Nat.le_of_lt hi) _) fun _ => .pure rfl

theorem funcTypes_eats : G.Eats k (funcTypes r) := by
  refine Holds.eat (scanType_eats (by decide) (by decide)) fun _ j hj => ?_
  refine Holds.eat (funcParams_eats (h.mono (Nat.le_of_lt hj))) fun _ i hi => ?_
  exact Holds.stay (opt_stays (h.allTypes i (by omega)).stays) fun _ => .pure rfl

omit h in
theorem empty_holds : G.Holds .value (fun _ => true) k empty :=
  scanType_nl.must.map fun _ _ => rfl

/-- What stands between braces, line by line. -/
theorem structTypeTurn_holds (hopen : G.Open) (ofs : List (Text × TypeNode)) :
    G.Holds .none Sum.isLeft k (structTypeTurn r ofs) := by
  refine if_sees (scanType_eats (by decide) (by decide)) (fun _ _ => .pure rfl) ?_
  refine attempt_eats (scanType_eats (by decide) (by decide)) (fun _ j hj => ?_) fun _ => ?_
  · exact Holds.eat (h.allTypes j hj).must fun _ _ _ => .pure rfl
  · exact Holds.eat (Holds.opened empty_holds hopen) fun _ _ _ => .pure rfl

theorem structType_eats : G.Eats k (structType r) := by
  refine Holds.eat (scanType_eats (by decide) (by decide)) fun _ j hj => ?_
  refine scanType_lb fun hopen _ i hi => Holds.stay ?_ fun _ => .pure rfl
  have hfuel := h.fuel
  exact Holds.iterate (fun ofs m hm => structTypeTurn_holds (h.mono (by omega)) hopen ofs) (by omega) _

theorem interfaceTypeTurn_holds (hopen : G.Open) (funcs : Funcs) :
    G.Holds .none Sum.isLeft k (interfaceTypeTurn r funcs) := by
  refine if_sees (scanType_eats (by decide) (by decide)) (fun _ _ => .pure rfl) ?_
  refine attempt_eats (scanType_eats (by decide) (by decide)) (fun _ j hj => ?_) fun _ => ?_
  · refine Holds.eat (funcParams_eats (h.mono (Nat.le_of_lt hj))) fun _ i hi => ?_
    refine Holds.eat (h.allTypes i (by omega)).must fun _ m hm => ?_
    exact Holds.eat (Holds.opened empty_holds hopen) fun _ _ _ => .pure rfl
  · exact Holds.eat (Holds.opened empty_holds hopen) fun _ _ _ => .pure rfl

theorem interfaceType_eats : G.Eats k (interfaceType r) := by
  refine Holds.eat (scanType_eats (by decide) (by decide)) fun _ j hj => ?_
  refine scanType_lb fun hopen _ i hi => Holds.stay ?_ fun _ => .pure rfl
  have hfuel := h.fuel
  exact Holds.iterate (fun funcs m hm => interfaceTypeTurn_holds (h.mono (by omega)) hopen funcs)
    (by omega) _

theorem allTypes_eats : G.Eats k (p.allTypes r) := by
  refine Holds.stay (stars_stays h) fun _ => ?_
  refine Holds.eat ?_ fun _ _ _ => .pure rfl
  refine Holds.orElse (structType_eats h) (by decide) ?_
  refine Holds.orElse (interfaceType_eats h) (by decide) ?_
  refine Holds.orElse (basicTypes_eats h) (by decide) ?_
  exact Holds.orElse (arrayTypes_eats h) (by decide) (funcTypes_eats h)

end Types

/-! ## Expressions -/

section Expressions

variable (h : Calls G r k)
include h

theorem varBlock_eats : G.Eats k (varBlock r) := by
  refine Holds.eat (scanType_eats (by decide) (by decide)) fun _ j hj => ?_
  refine Holds.stay (Holds.iterate (fun idxs i hi => ?_) (by have := h.fuel; omega) _) fun _ => .pure rfl
  refine if_sees (scanType_eats (by decide) (by decide)) (fun m hm => ?_) (.pure rfl)
  refine Holds.eat (h.allexp m (by omega)) fun _ _ _ => ?_
  exact Holds.eat (scanType_eats (by decide) (by decide)) fun _ _ _ => .pure rfl

theorem varChain_eats : G.Eats k (p.varChain r) := by
  refine Holds.eat (varBlock_eats h) fun _ j hj => ?_
  refine Holds.stay (Holds.iterate (fun next i hi => ?_) (by have := h.fuel; omega) _) fun _ => .pure rfl
  refine if_sees (scanType_eats (by decide) (by decide)) (fun m hm => ?_) (.pure rfl)
  exact Holds.eat (varBlock_eats (h.mono (by omega))) fun _ _ _ => .pure rfl

omit h in
theorem nilExp_eats : G.Eats k nilExp :=
  Holds.eat (scanType_eats (by decide) (by decide)) fun _ _ _ => .pure rfl

omit h in
theorem strExp_eats : G.Eats k strExp :=
  Holds.eat (scanType_eats (by decide) (by decide)) fun _ _ _ => .pure rfl

theorem structInitTurn_holds (hopen : G.Open) (fields : List (Text × Node)) :
    G.Holds .none Sum.isLeft k (structInitTurn r fields) := by
  refine if_sees (scanType_eats (by decide) (by decide)) (fun _ _ => .pure rfl) ?_
  refine attempt_eats (scanType_eats (by decide) (by decide)) (fun t j hj => ?_) fun _ => ?_
  · dsimp only
    split
    · exact .panic
    · refine Holds.eat (scanType_eats (by decide) (by decide)) fun _ i hi => ?_
      refine Holds.eat (h.allexp i (by omega)) fun _ m hm => ?_
      refine if_sees (scanType_eats (by decide) (by decide)) (fun _ _ => .pure rfl) ?_
      exact Holds.eat (scanType_eats (by decide) (by decide)) fun _ _ _ => .pure rfl
  · exact Holds.eat (Holds.opened empty_holds hopen) fun _ _ _ => .pure rfl

theorem structInitBody_stays (tp : TypeNode) : G.Stays k (structInitBody r tp) := by
  refine scanType_lb fun hopen _ j hj => Holds.stay ?_ fun _ => .pure rfl
  have hfuel := h.fuel
  exact Holds.iterate (fun fields i hi => structInitTurn_holds (h.mono (by omega)) hopen fields)
    (by omega) _

theorem structInit_eats : G.Eats k (p.structInit r) :=
  Holds.eat (allTypes_eats h) fun tp _ hj => structInitBody_stays (h.mono (Nat.le_of_lt hj)) tp

omit h in
theorem arrayInitTurn_holds (hopen : G.Open) (hexp : G.Eats k r.allexp) (vals : List Node) :
    G.Holds .none Sum.isLeft k (arrayInitTurn r vals) := by
  refine if_sees (scanType_eats (by decide) (by decide)) (fun _ _ => .pure rfl) ?_
  refine if_sees (Holds.opened scanType_nl hopen) (fun _ _ => .pure rfl) ?_
  refine Holds.eat hexp fun _ j hj => ?_
  refine if_sees (scanType_eats (by decide) (by decide)) (fun _ _ => .pure rfl) ?_
  exact Holds.eat (scanType_eats (by decide) (by decide)) fun _ _ _ => .pure rfl

theorem arrayInit_eats : G.Eats k (arrayInit r) := by
  refine Holds.eat (arrayTypes_eats h) fun _ j hj => ?_
  refine scanType_lb fun hopen _ i hi => Holds.stay ?_ fun _ => .pure rfl
  have hfuel := h.fuel
  exact Holds.iterate (fun vals m hm => arrayInitTurn_holds hopen (h.allexp m (by omega)) vals)
    (by omega) _

theorem callParams_stays (hexp : ∀ j ≤ k, G.Eats j r.allexp) : G.Stays k (callParams r) := by
  refine attempt_eats (scanType_eats (by decide) (by decide)) (fun _ _ _ => .pure rfl) ?_
  rintro (_ | _ | _)
  · exact .panic
  all_goals
    exact Holds.eat (hexp k (Nat.le_refl k)) fun e j hj =>
      untilRp_stays (h.mono (Nat.le_of_lt hj)) (fun i hi => h.allexp i (by omega)) _

theorem callNextTurn_holds (next : Option Node) : G.Holds .none Sum.isLeft k (p.callNextTurn r next) := by
  refine if_sees (scanType_eats (by decide) (by decide)) (fun j hj => ?_) (.pure rfl)
  refine Holds.eat ?_ fun _ _ _ => .pure rfl
  exact Holds.orElse (h.callFunc j hj).catching (by decide) (varChain_eats (h.mono (Nat.le_of_lt hj))).must

theorem callFunc_eats : G.Eats k (p.callFunc r) := by
  refine Holds.eat (varChain_eats h).catching.must fun _ j hj => ?_
  have h' := h.mono (Nat.le_of_lt hj)
  refine Holds.stay (opt_stays (genericCallParams_eats h').stays) fun _ => ?_
  refine Holds.eat (scanType_eats (by decide) (by decide)).must fun _ i hi => ?_
  refine Holds.stay (callParams_stays (h'.mono (Nat.le_of_lt hi)) fun m hm => h.allexp m (by omega))
    fun _ => ?_
  have hfuel := h.fuel
  exact Holds.stay (Holds.iterate (fun next m hm => callNextTurn_holds (h.mono (by omega)) next)
    (by omega) _) fun _ => .pure rfl

theorem takeValExp_eats : G.Eats k (p.takeValExp r) := by
  refine Holds.stay (stars_stays h) fun _ => ?_
  refine Holds.eat ?_ fun _ _ _ => .pure rfl
  refine Holds.orElse (arrayInit_eats h).catching (by decide) ?_
  refine Holds.orElse (structInit_eats h).catching (by decide) ?_
  exact Holds.orElse (callFunc_eats h).catching (by decide) (varChain_eats h).catching

theorem takePtrExp_eats : G.Eats k (p.takePtrExp r) := by
  refine Holds.eat (scanType_eats (by decide) (by decide)) fun _ j hj => ?_
  have h := h.mono (Nat.le_of_lt hj)
  refine Holds.stay ?_ fun _ => .pure rfl
  refine Holds.orElse (arrayInit_eats h).stays.catching (by decide) ?_
  exact Holds.orElse (structInit_eats h).stays.catching (by decide) (varChain_eats h).stays.catching

theorem literal_eats : G.Eats k (literal r) := by
  refine ahead (fun _ _ _ _ _ _ _ => .ofPanic) fun l l' c t hl hl' => ?_
  dsimp only
  rw [if_neg Bool.false_ne_true]
  split
  next hc =>
    refine keeps_behind (inside hl' ((by rw [hc]; decide))) fun j hj => ?_
    cases parseFloat t with
    | some double => exact .pure rfl
    | none => exact .panic
  next =>
    split
    next hc =>
      refine keeps_behind (inside hl' ((by rw [hc]; decide))) fun j hj => ?_
      cases ParseInt t with
      | some i => exact .pure rfl
      | none => exact .panic
    next =>
      refine keeps_goback hl ?_
      refine Holds.eat (scanType_eats (by decide) (by decide)).must fun _ j hj => ?_
      refine Holds.eat (h.exp j hj) fun _ i hi => ?_
      exact Holds.eat (scanType_eats (by decide) (by decide)).must fun _ _ _ => .pure rfl

theorem number_eats : G.Eats k (p.number r) := by
  refine Holds.orElse (Holds.catching strExp_eats) (by decide) ?_
  exact Holds.orElse (takeValExp_eats h).catching (by decide) (literal_eats h)

theorem symbol_eats : G.Eats k (p.symbol r) := by
  refine ahead (fun _ _ _ _ _ _ _ => .ofPanic) fun l l' c t hl hl' => ?_
  dsimp only
  rw [if_neg Bool.false_ne_true]
  split
  next hc =>
    refine keeps_behind (inside hl' ((by rcases hc with rfl | rfl <;> decide))) fun j hj => ?_
    exact Holds.eat (number_eats (h.mono (Nat.le_of_lt hj))) fun _ _ _ => .pure rfl
  next => exact keeps_goback hl (number_eats h)

omit h in
theorem leftAssocTurn_holds {ops : List TokenType} {operand : P Node}
    (hops : ∀ c ∈ ops, c ∉ [.int, .minusOne, .nl]) (hoperand : ∀ j < k, G.Eats j operand) (a : Node) :
    G.Holds .none Sum.isLeft k (leftAssocTurn ops operand a) := by
  refine ahead (fun l l' c t hl hl' hc => ?_) fun l l' c t hl hl' => ?_
  · have hne : ¬ ops.contains c := by
      rw [List.contains_iff_mem]
      intro hmem
      have hno := hops c hmem
      rcases hc with rfl | rfl <;> exact hno (by decide)
    dsimp only
    rw [if_neg hne, if_pos rfl]
    exact .ofOk (.inr hl')
  · dsimp only
    split
    next hc =>
      have hno := hops c (List.contains_iff_mem.mp hc)
      refine keeps_behind (inside hl' (?_)) fun j hj => ?_
      · rintro rfl
        exact hno (by decide)
      · exact Holds.eat (hoperand j hj) fun _ _ _ => .pure rfl
    next => exact keeps_goback hl (.pure rfl)

theorem leftAssoc_eats {ops : List TokenType} {operand : P Node}
    (hops : ∀ c ∈ ops, c ∉ [.int, .minusOne, .nl]) (hoperand : ∀ j ≤ k, G.Eats j operand) :
    G.Eats k (leftAssoc r ops operand) := by
  have hfuel := h.fuel
  refine Holds.eat (hoperand k (Nat.le_refl k)) fun a j hj => ?_
  exact Holds.iterate (fun a i hi => leftAssocTurn_holds hops (fun m hm => hoperand m (by omega)) a)
    (by omega) a

theorem factor_eats : G.Eats k (p.factor r) :=
  leftAssoc_eats h (by decide) fun _ hj => symbol_eats (h.mono hj)

theorem addedFactor_eats : G.Eats k (p.addedFactor r) :=
  leftAssoc_eats h (by decide) fun _ hj => factor_eats (h.mono hj)

theorem exp_eats : G.Eats k (p.exp r) :=
  leftAssoc_eats h (by decide) fun _ hj => addedFactor_eats (h.mono hj)

theorem boolean_eats : G.Eats k (p.boolean r) := by
  refine Holds.rewinding ?_
  refine if_sees (scanType_eats (by decide) (by decide)) (fun _ _ => .pure rfl) ?_
  refine if_sees (scanType_eats (by decide) (by decide)) (fun _ _ => .pure rfl) ?_
  refine Holds.orElse_last (exp_eats h).catching ?_
  refine Holds.orElse_last nilExp_eats ?_
  intro l hl
  refine keeps_scan hl (fun l' c t hl' _ => .ofErr fun hedge => absurd rfl hedge) fun l' c t _ hl' => ?_
  dsimp only
  rw [if_neg Bool.false_ne_true]
  split
  next hc =>
    refine keeps_behind (inside hl' ((by rw [hc]; decide))) fun j hj => ?_
    exact Holds.eat (h.boolean j hj) fun _ _ _ => .pure rfl
  next =>
    split
    next hc =>
      refine keeps_behind (inside hl' ((by rw [hc]; decide))) fun j hj => ?_
      refine Holds.eat (h.boolexp j hj) fun _ i hi => ?_
      exact Holds.eat (scanType_eats (by decide) (by decide)) fun _ _ _ => .pure rfl
    next => exact .ofErr fun hedge => absurd rfl hedge

theorem compareTurn_holds (node : Node) : G.Holds .none Sum.isLeft k (p.compareTurn r node) := by
  refine ahead (fun l l' c t hl hl' hc => .ofErr fun _ => hl') fun l l' c t hl hl' => ?_
  dsimp only
  rw [if_neg Bool.false_ne_true]
  split
  next hc =>
    have hno : ∀ c ∈ compareOps, c ≠ .nl := by decide
    refine keeps_behind (inside hl' ((hno c (List.contains_iff_mem.mp hc)))) fun j hj => ?_
    exact Holds.eat (boolean_eats (h.mono (Nat.le_of_lt hj))).catching fun _ _ _ => .pure rfl
  next => exact keeps_goback hl (.pure rfl)

theorem compare_eats : G.Eats k (p.compare r) := by
  have hfuel := h.fuel
  refine Holds.rewinding (Holds.eat (boolean_eats h).catching fun node j hj => ?_)
  exact (Holds.iterate (fun node i hi => compareTurn_holds (h.mono (by omega)) node) (by omega) _).stays

theorem bitOpTurn_holds (node : Node) : G.Holds .none Sum.isLeft k (p.bitOpTurn r node) := by
  refine ahead (fun l l' c t hl hl' hc => .ofOk (.inr hl')) fun l l' c t hl hl' => ?_
  dsimp only
  rw [if_neg Bool.false_ne_true]
  split
  next hc =>
    have hno : ∀ c ∈ [TokenType.bitOr, .esp, .bitXor], c ≠ .nl := by decide
    refine keeps_behind (inside hl' ((hno c (List.contains_iff_mem.mp hc)))) fun j hj => ?_
    exact Holds.eat (compare_eats (h.mono (Nat.le_of_lt hj))) fun _ _ _ => .pure rfl
  next => exact keeps_goback hl (.pure rfl)

theorem bitOp_eats : G.Eats k (p.bitOp r) := by
  have hfuel := h.fuel
  refine Holds.rewinding (Holds.eat (compare_eats h) fun node j hj => ?_)
  exact (Holds.iterate (fun node i hi => bitOpTurn_holds (h.mono (by omega)) node) (by omega) _).stays

theorem boolexp_eats : G.Eats k (p.boolexp r) := by
  refine Holds.rewinding (Holds.eat (bitOp_eats h) fun node j hj => ?_)
  refine ahead (fun l l' c t hl hl' hc => .ofErr fun _ => hl') fun l l' c t hl hl' => ?_
  dsimp only
  rw [if_neg Bool.false_ne_true]
  split
  next hc =>
    refine keeps_behind (inside hl' ((by rcases hc with rfl | rfl <;> decide))) fun i hi => ?_
    exact Holds.eat (compare_eats (h.mono (by omega))) fun _ _ _ => .pure rfl
  next => exact keeps_goback hl (.pure rfl)

theorem statementBlock_stays : G.Stays k (statementBlock r) := by
  refine scanType_lb fun hopen _ j hj => Holds.eat (h.statementList hopen j hj) fun _ _ _ => ?_
  exact Holds.eat (scanType_eats (by decide) (by decide)) fun _ _ _ => .pure rfl

theorem inlineFunc_eats : G.Eats k (inlineFunc r) := by
  refine Holds.eat (funcTypes_eats h) fun _ j hj => ?_
  refine Holds.stay ((sees_holds (scanType_eats (by decide) (by decide))).stays) fun _ => ?_
  exact Holds.stay (statementBlock_stays (h.mono (Nat.le_of_lt hj))).catching fun _ => .pure rfl

theorem allexp_eats : G.Eats k (p.allexp r) := by
  refine if_sees (scanType_eats (by decide) (by decide)) (fun j hj => ?_) ?_
  · exact Holds.eat (h.allexp j hj) fun _ _ _ => .pure rfl
  · refine Holds.orElse (takePtrExp_eats h).catching (by decide) ?_
    exact Holds.orElse (inlineFunc_eats h).catching (by decide) (boolexp_eats h).must

end Expressions

/-! ## Statements -/

section Statements

variable (h : Calls G r k)
include h

theorem assign_eats : G.Eats k (p.assign r) := by
  refine Holds.rewinding (Holds.stay (stars_stays h) fun _ => ?_)
  refine Holds.eat (varChain_eats h).catching fun _ j hj => ?_
  refine Holds.eat (scanType_eats (by decide) (by decide)) fun _ i hi => ?_
  exact Holds.eat (allexp_eats (h.mono (by omega))) fun _ _ _ => .pure rfl

theorem define_holds : G.Holds .value (fun _ => true) k (p.define r) := by
  refine Holds.eat (Holds.rewinding ?_) fun n j hj => ?_
  · refine Holds.eat (scanType_eats (by decide) (by decide)) fun _ j hj => ?_
    refine Holds.eat (scanType_eats (by decide) (by decide)) fun _ i hi => ?_
    exact Holds.eat (allTypes_eats (h.mono (by omega))).must fun _ _ _ => .pure rfl
  · exact Holds.map empty_holds (by rintro _ ⟨⟩)

theorem defineAndAssign_eats : G.Eats k (p.defineAndAssign r) := by
  refine Holds.rewinding (Holds.eat ?_ fun _ j hj => ?_)
  · refine if_sees (scanType_eats (by decide) (by decide)) (fun j hj => ?_) ?_
    · refine Holds.eat (scanType_eats (by decide) (by decide)) fun _ _ _ => ?_
      exact Holds.eat (scanType_eats (by decide) (by decide)) fun _ _ _ => .pure rfl
    · refine Holds.eat (scanType_eats (by decide) (by decide)) fun _ _ _ => ?_
      exact Holds.eat (scanType_eats (by decide) (by decide)) fun _ _ _ => .pure rfl
  · exact Holds.eat (allexp_eats (h.mono (Nat.le_of_lt hj))) fun _ _ _ => .pure rfl

omit h in
theorem breakST_holds : G.Holds .value (fun _ => true) k breakST :=
  Holds.eat (scanType_eats (by decide) (by decide)) fun _ _ _ => Holds.map empty_holds (by rintro _ ⟨⟩)

omit h in
theorem continueST_holds : G.Holds .value (fun _ => true) k continueST :=
  Holds.eat (scanType_eats (by decide) (by decide)) fun _ _ _ => Holds.map empty_holds (by rintro _ ⟨⟩)

theorem statementBlock_then {f : Node → P α} {eats : α → Bool}
    (hf : G.Open → ∀ n, ∀ j < k, G.Holds edge (fun _ => false) j (f n)) :
    G.Holds edge eats k (statementBlock r >>= f) := by
  by_cases hopen : G.Open
  · refine Holds.eat ?_ (hf hopen)
    refine Holds.eat (scanType_eats (by decide) (by decide)) fun _ j hj => ?_
    refine Holds.eat (h.statementList hopen j hj) fun _ _ _ => ?_
    exact Holds.eat (scanType_eats (by decide) (by decide)) fun _ _ _ => .pure rfl
  · exact Holds.never (statementBlock_stays h) fun l hl => brace_never hopen hl

theorem ifstatement_eats : G.Eats k (p.ifstatement r) := by
  refine Holds.eat (scanType_eats (by decide) (by decide)) fun _ j hj => ?_
  refine Holds.eat (boolexp_eats (h.mono (Nat.le_of_lt hj))) fun _ i hi => ?_
  refine statementBlock_then (h.mono (by omega)) fun hopen _ m hm => ?_
  refine if_sees (scanType_eats (by decide) (by decide)) (fun m' hm' => ?_) (.pure rfl)
  refine Holds.stay ?_ fun _ => .pure rfl
  exact Holds.orElse (h.ifstatement hopen m' (by omega)).stays (by decide)
    (statementBlock_stays (h.mono (by omega)))

theorem forloop_eats : G.Eats k (p.forloop r) := by
  refine Holds.eat (scanType_eats (by decide) (by decide)) fun _ j hj => ?_
  have h := h.mono (Nat.le_of_lt hj)
  refine Holds.stay (opt_stays ?_) fun _ => ?_
  · exact Holds.orElse (defineAndAssign_eats h).stays.catching (by decide) (assign_eats h).stays.catching
  · refine if_sees (scanType_eats (by decide) (by decide)) (fun i hi => ?_) ?_
    · have h := h.mono (Nat.le_of_lt hi)
      refine Holds.stay (opt_stays (boolexp_eats h).stays) fun _ => ?_
      refine Holds.eat (scanType_eats (by decide) (by decide)) fun _ m hm => ?_
      have h := h.mono (Nat.le_of_lt hm)
      refine Holds.stay (opt_stays (assign_eats h).stays) fun _ => ?_
      exact Holds.stay (statementBlock_stays h) fun _ => .pure rfl
    · exact Holds.stay (statementBlock_stays h) fun _ => .pure rfl

theorem returnST_holds : G.Holds .value (fun _ => true) k (p.returnST r) := by
  refine Holds.eat (scanType_eats (by decide) (by decide)) fun _ j hj => ?_
  refine Holds.attempt_else (Holds.catching empty_holds) (by decide) (fun _ => ⟨_, rfl, fun _ => rfl⟩) fun _ => ?_
  exact Holds.stay (allexp_eats (h.mono (Nat.le_of_lt hj))).stays fun _ => .pure rfl

theorem yield_holds : G.Holds .value (fun _ => true) k (p.yield r) := by
  refine Holds.eat (scanType_eats (by decide) (by decide)) fun _ j hj => ?_
  refine Holds.stay (opt_stays (allexp_eats (h.mono (Nat.le_of_lt hj))).stays.catching) fun _ => ?_
  exact Holds.map empty_holds (by rintro _ ⟨⟩)

theorem otherStatement_eats (hopen : G.Open) {ch1 : Lexer} (hch1 : G.On k ch1) :
    G.Eats k (p.otherStatement r ch1) := by
  have herr : G.Eats k (p.errST r) := G.errST hopen h.fuel
  refine ahead (fun l l' c t hl hl' hc => ?_) fun l l' c t hl hl' => ?_
  · have hvar : c ≠ .var := by rcases hc with rfl | rfl <;> decide
    have hnl : c ≠ .nl := by rcases hc with rfl | rfl <;> decide
    dsimp only
    rw [if_neg hvar, if_neg hnl]
    exact keeps_goback hch1 herr
  · dsimp only
    split
    · refine keeps_goback hl (Holds.eat (callFunc_eats h) fun _ j hj => ?_)
      exact Holds.eat (Holds.opened empty_holds hopen) fun _ _ _ => .pure rfl
    · split
      · exact keeps_goback hl (Holds.opened empty_holds hopen)
      · exact keeps_goback hch1 herr

theorem statement_eats (hopen : G.Open) : G.Eats k (p.statement r) := by
  refine Holds.recovering (fun ch1 hch1 => ?_) (G.errST hopen h.fuel)
  rw [Back.bind_run, Back.here_run, Run.andThen_ok]
  refine if_sees (scanType_eats (by decide) (by decide)) (fun j hj => ?_) ?_ ch1 hch1
  · exact Holds.eat (allexp_eats (h.mono (Nat.le_of_lt hj))) fun _ _ _ => .pure rfl
  · -- the alternatives in turn
    refine Holds.orElse (Holds.opened continueST_holds hopen).catching (by decide) ?_
    refine Holds.orElse (Holds.opened breakST_holds hopen).catching (by decide) ?_
    refine Holds.orElse ((yield_holds h).opened hopen).catching (by decide) ?_
    refine Holds.orElse (forloop_eats h).catching (by decide) ?_
    refine Holds.orElse (defineAndAssign_eats h).catching (by decide) ?_
    refine Holds.orElse (ifstatement_eats h).catching (by decide) ?_
    refine Holds.orElse (assign_eats h).catching (by decide) ?_
    refine Holds.orElse ((define_holds h).opened hopen).catching (by decide) ?_
    refine Holds.orElse ((returnST_holds h).opened hopen).catching (by decide) ?_
    exact otherStatement_eats h hopen hch1

theorem statementListTurn_holds (hopen : G.Open) (children : List Node) :
    G.Eats k (p.statementListTurn r children) := by
  refine Holds.eat (statement_eats h hopen) fun n j hj => ?_
  refine ahead (fun l l' c t hl _ _ => keeps_goback hl ?_) fun l l' c t hl _ => keeps_goback hl ?_
  · split <;> exact .pure rfl
  · split <;> exact .pure rfl

theorem statementList_eats (hopen : G.Open) : G.Eats k (p.statementList r) := by
  refine Holds.eat ?_ fun _ _ _ => .pure rfl
  exact Holds.iterate_eats (fun children j hj => statementListTurn_holds (h.mono hj) hopen children) h.fuel _

end Statements

/-- With calls nested `n` deep at most, the functions keep to all places less than `n` from the end. -/
theorem depth_calls (G : Field p) : ∀ n, Calls G (p.depth n) n
  | 0 => by
    constructor
    · exact Nat.zero_lt_one
    all_goals
      intros
      omega
  | n + 1 => by
    have h := depth_calls G n
    have hj : ∀ j < n + 1, Calls G (p.depth n) j := fun j hj => h.mono (Nat.le_of_lt_succ hj)
    exact ⟨Nat.lt_succ_self _, fun j hlt => allTypes_eats (hj j hlt), fun j hlt => exp_eats (hj j hlt),
      fun j hlt => boolexp_eats (hj j hlt), fun j hlt => boolean_eats (hj j hlt),
      fun j hlt => allexp_eats (hj j hlt), fun j hlt => callFunc_eats (hj j hlt),
      fun _ j hlt => ifstatement_eats (hj j hlt),
      fun hopen j hlt => statementList_eats (hj j hlt) hopen⟩

end CalcLang.Parser
