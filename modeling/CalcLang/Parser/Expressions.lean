import CalcLang.Parser.Calls

/-!
# Expressions

`exp`, `addedFactor`, `factor`, `symbol` and `number` are the levels of an expression, each
of which reads its operands with the next one. What they read is proved level by level
(`AtLevel`), upwards from an operator's own level to `exp` and through the parentheses to
`number`, and from there down to the levels between. Because the operators are read in a
loop, an operand to the left of one needs more than that it is read: the loop goes on behind
it (`Reaches`).

`expressions_round_trip` is what comes of it for `exp`, and `reads` for the expressions of
statements, which `allexp` reads.
-/

namespace CalcLang.Parser

open CalcLang.Lex CalcLang.Lib

variable {p : Parser} {f : Rec} {w s r t : Text} {c : TokenType} {k n q : Nat} {e : Exp}

/-! ## Levels -/

/-- The function that reads the level `k`. -/
def levelParser (p : Parser) (f : Rec) : Nat → P Node
  | 0 => p.exp f
  | 1 => p.addedFactor f
  | 2 => p.factor f
  | 3 => p.symbol f
  | _ => p.number f

/-- The operators of a level. -/
def levelOps : Nat → List TokenType
  | 0 => [.shl, .shr]
  | 1 => [.plus, .sub]
  | 2 => [.div, .mul, .ps]
  | _ => []

/-- The operators that the level `k` or one inside it goes on with. -/
def opsFrom (k : Nat) : List TokenType := levelOps k ++ levelOps (k + 1) ++ levelOps (k + 2)

/-- An expression is read where the level `k` is asked for. -/
def AtLevel (p : Parser) (k : Nat) (e : Exp) : Prop :=
  ∀ w s n q, Blanks w → After p (opsFrom k) s → (e.endsLikeType k = true → NoBody p s) →
    (e.text k ++ s).length ≤ n →
    (levelParser p (p.depth n) k).run ⟨w ++ (e.text k ++ s), q⟩ = .ok (e.tree p) ⟨s, q⟩

/-- The loop over the operators of level `k`. -/
def levelLoop (p : Parser) (f : Rec) (k m : Nat) (a : Node) : P Node :=
  Back.iterate (leftAssocTurn (levelOps k) (levelParser p f (k + 1))) m a

/-- Behind an expression the loop over the operators of level `k` goes on, with fuel enough for
what is left. -/
def Reaches (p : Parser) (k : Nat) (e : Exp) : Prop :=
  ∀ w s n q, Blanks w → After p (opsFrom (k + 1)) s → (e.endsLikeType k = true → NoBody p s) →
    (e.text k ++ s).length ≤ n →
    ∃ m, s.length ≤ m ∧ (levelParser p (p.depth n) k).run ⟨w ++ (e.text k ++ s), q⟩ =
      (levelLoop p (p.depth n) k (m + 1) (e.tree p)).run ⟨s, q⟩

theorem levelParser_loop (p : Parser) (f : Rec) (hk : k < 3) : levelParser p f k = (do
    let a ← levelParser p f (k + 1)
    levelLoop p f k f.fuel a) := by
  obtain rfl | rfl | rfl : k = 0 ∨ k = 1 ∨ k = 2 := by omega
  all_goals rfl

theorem opsFrom_succ (k : Nat) : opsFrom (k + 1) ⊆ opsFrom k := by
  intro c hc
  unfold opsFrom at hc ⊢
  have hlast : levelOps (k + 1 + 2) = [] := rfl
  rw [hlast, List.append_nil] at hc
  rw [List.append_assoc]
  exact List.mem_append_right _ hc

theorem levelOps_subset (k : Nat) : levelOps k ⊆ opsFrom k := by
  intro c hc
  unfold opsFrom
  rw [List.append_assoc]
  exact List.mem_append_left _ hc

theorem opsFrom_subset (k : Nat) : opsFrom k ⊆ allOps := by
  induction k with
  | zero =>
    intro c hc
    exact List.mem_append_left _ (List.mem_append_left _ hc)
  | succ k ih => exact List.Subset.trans (opsFrom_succ k) ih

/-! ## From level to level -/

/-- Off its own level, an expression is printed as one level further in. -/
theorem Exp.text_succ (h : e.level ≠ k) : e.text (k + 1) = e.text k := by
  have hiff : (e.level < k + 1) ↔ e.level < k := by omega
  unfold Exp.text
  rw [decide_eq_decide.2 hiff]

theorem Exp.endsLikeType_succ (hk : k < 4) (h : e.level ≠ k) :
    e.endsLikeType (k + 1) = e.endsLikeType k := by
  cases e with
  | num _ => rfl
  | ref r => cases r <;> rfl
  | unary op child =>
    have hne : 3 ≠ k := h
    have hiff : (k + 1 ≤ 3) ↔ k ≤ 3 := by omega
    unfold Exp.endsLikeType
    rw [decide_eq_decide.2 hiff]
  | bin op left right =>
    have hne : op.level ≠ k := h
    have hiff : (k + 1 ≤ op.level) ↔ k ≤ op.level := by omega
    unfold Exp.endsLikeType
    rw [decide_eq_decide.2 hiff]

/-- An operand of the level further in is where the loop begins. -/
theorem AtLevel.reaches (hk : k < 3) (hne : e.level ≠ k) (h : AtLevel p (k + 1) e) :
    Reaches p k e := by
  intro w s n q hw hs hlike hn
  rw [← Exp.text_succ hne] at hn ⊢
  have he := h w s n q hw hs (by
    rw [Exp.endsLikeType_succ (by omega) hne]
    exact hlike) hn
  refine ⟨n, ?_, ?_⟩
  · rw [List.length_append] at hn
    omega
  · rw [levelParser_loop p _ hk, Back.bind_run, he, Run.andThen_ok, depth_fuel]

/-- The loop ends where no operator of its level is. -/
theorem levelLoop_last (h : Next s c t r) (hc : c ∉ levelOps k) (a : Node) (m : Nat) :
    (levelLoop p f k (m + 1) a).run ⟨s, q⟩ = .ok a ⟨s, q⟩ := by
  refine Back.iterate_last ?_ m
  unfold leftAssocTurn
  simp [scan_run h, hc]

theorem Reaches.atLevel (h : Reaches p k e) : AtLevel p k e := by
  intro w s n q hw hs hlike hn
  obtain ⟨m, -, he⟩ := h w s n q hw (hs.mono (opsFrom_succ k)) hlike hn
  obtain ⟨c, t, r, hnext, -, hc⟩ := hs.next
  rw [he, levelLoop_last hnext fun hc' => hc (levelOps_subset k hc')]

/-! ## Operators -/

section Operators

theorem next_op (op : Op) (s : Text) : Next (op.text ++ ' ' :: s) op.code op.text (' ' :: s) := by
  intro q
  cases op <;> rfl

theorem Op.code_mem (op : Op) : op.code ∈ levelOps op.level := by
  cases op <;> decide

theorem Op.level_lt (op : Op) : op.level < 3 := by
  cases op <;> decide

/-- An operator is behind its left operand. -/
theorem after_op (op : Op) (s : Text) :
    After p (opsFrom (op.level + 1)) (' ' :: (op.text ++ ' ' :: s)) ∧
      NoBody p (' ' :: (op.text ++ ' ' :: s)) := by
  have hnext : Next (' ' :: (op.text ++ ' ' :: s)) op.code op.text (' ' :: s) :=
    (next_op op s).blanks blanks_space
  have hcode : op.code ∉ [.dot, .lsb, .lp, .sm] ∧ op.code ∉ opsFrom (op.level + 1) ∧
      op.code ≠ .lb := by
    cases op <;> decide
  exact ⟨after_next (by decide) hnext hcode.1 hcode.2.1, noBody_next hnext hcode.2.2⟩

/-- One turn of the loop takes an operator with its right operand. -/
theorem levelLoop_next {op : Op} {right : Exp} (hr : AtLevel p (op.level + 1) right)
    (hs : After p (opsFrom (op.level + 1)) s)
    (hlike : right.endsLikeType (op.level + 1) = true → NoBody p s)
    (hn : (right.text (op.level + 1) ++ s).length ≤ n) (a : Node) (m : Nat) :
    (levelLoop p (p.depth n) op.level (m + 1) a).run
        ⟨' ' :: (op.text ++ ' ' :: (right.text (op.level + 1) ++ s)), q⟩ =
      (levelLoop p (p.depth n) op.level m (.bin op.code a (right.tree p))).run ⟨s, q⟩ := by
  have hnext : Next (' ' :: (op.text ++ ' ' :: (right.text (op.level + 1) ++ s))) op.code op.text
      (' ' :: (right.text (op.level + 1) ++ s)) := (next_op op _).blanks blanks_space
  have hright := hr [' '] s n q blanks_space hs hlike hn
  rw [List.singleton_append] at hright
  refine Back.iterate_next ?_ m
  unfold leftAssocTurn
  simp [scan_run hnext, op.code_mem, hright]

theorem reaches_bin {op : Op} {left right : Exp} (hl : Reaches p op.level left)
    (hr : AtLevel p (op.level + 1) right) : Reaches p op.level (.bin op left right) := by
  intro w s n q hw hs hlike hn
  have htext : (Exp.bin op left right).text op.level ++ s = left.text op.level ++
      (' ' :: (op.text ++ ' ' :: (right.text (op.level + 1) ++ s))) := by
    simp [Exp.text, Exp.body, Exp.level, wrap]
  have hlike' : right.endsLikeType (op.level + 1) = true → NoBody p s := by
    intro hright
    refine hlike ?_
    unfold Exp.endsLikeType
    simp [hright]
  rw [htext] at hn ⊢
  obtain ⟨hafter, hbody⟩ := after_op (p := p) op (right.text (op.level + 1) ++ s)
  obtain ⟨m, hm, hleft⟩ := hl w _ n q hw hafter (fun _ => hbody) hn
  simp only [List.length_append, List.length_cons] at hm hn
  obtain ⟨m, rfl⟩ : ∃ k, m = k + 1 := ⟨m - 1, by omega⟩
  refine ⟨m, by omega, ?_⟩
  rw [hleft, levelLoop_next hr hs hlike' (by simp only [List.length_append]; omega)]
  rfl

end Operators

/-! ## Numbers -/

section Numbers

theorem strExp_refuses (h : Next s c t r) (hc : c ≠ .str) : (strExp).Refuses ⟨s, q⟩ := by
  unfold strExp
  exact (scanType_refuses h (by decide) hc).bind

/-- What is neither a text nor a value. -/
theorem number_literal (h : Next s c t r) (hres : IsResType t = none) (hc : c ∉ .str :: typeStarts)
    (hf : 0 < f.fuel) : (p.number f).run ⟨s, q⟩ = (literal f).run ⟨s, q⟩ := by
  rw [List.mem_cons, not_or] at hc
  unfold number
  rw [runWithCatch_orElse (strExp_refuses h hc.1),
    runWithCatch_orElse (takeValExp_refuses h hres hc.2 hf)]

theorem depth_pos (p : Parser) (n : Nat) : 0 < (p.depth n).fuel := by
  rw [depth_fuel]
  exact Nat.succ_pos n

theorem Size.head (d : Size) : ∀ c ∈ d.text.head?, isLetter c = false := by
  have hall : ∀ d : Fin 10, isLetter (digitChar d) = false := by decide
  intro c hc
  have htext : d.text = digitChar (d.digits.head d.nonempty) :: d.digits.tail.map digitChar :=
    (numeral_text d.toDecimal).symm
  rw [htext] at hc
  obtain rfl : _ = c := Option.some.inj hc
  exact hall _

theorem atLevel_num (d : Size) : AtLevel p 4 (.num d) := by
  intro w s n q hw hs _ _
  have hnext : Next (w ++ (d.text ++ s)) .int d.text s :=
    (next_decimal d.toDecimal hs.stops.num hs.stops.ne).blanks hw
  show (p.number (p.depth n)).run ⟨w ++ (d.text ++ s), q⟩ = _
  rw [number_literal hnext (isResType_none d.head) (by decide) (depth_pos p n)]
  unfold literal
  simp [scan_run hnext, ParseInt_decimal d.toDecimal d.fits, Exp.tree]

theorem atLevel_ref {r : Ref} (hin : ReadsInside p r) : AtLevel p 4 (.ref r) := by
  intro w s n q hw hs hlike hn
  have htext : (Exp.ref r).text 4 = r.text := by
    simp [Exp.text, Exp.body, Exp.level, wrap]
  rw [htext] at hn ⊢
  obtain ⟨t, u, hfirst⟩ := r.next hs.stops
  have hlike' : (Exp.ref r).endsLikeType 0 = true → NoBody p s := by
    cases r <;> exact hlike
  have hval := takeValExp_run (q := q) (n := n) hw hin (hs.mono (List.nil_subset _)) hlike' hn
  show (p.number (p.depth n)).run ⟨w ++ (r.text ++ s), q⟩ = _
  unfold number
  rw [runWithCatch_orElse (strExp_refuses (hfirst.blanks hw) (by decide)),
    orElse_ok (runWithCatch_ok hval)]
  rfl

/-- Parentheses. The expression in them is read one call deeper. -/
theorem atLevel_parens (hlt : e.level < 4) (h : AtLevel p 0 e) : AtLevel p 4 e := by
  intro w s n q hw hs _ hn
  have htext : e.text 4 ++ s = '(' :: (e.text 0 ++ ')' :: s) := by
    simp [Exp.text, wrap, hlt]
  rw [htext] at hn ⊢
  obtain ⟨n, rfl⟩ : ∃ k, n = k + 1 := ⟨n - 1, by rw [List.length_cons] at hn; omega⟩
  have hopen : Next (w ++ '(' :: (e.text 0 ++ ')' :: s)) .lp ['('] (e.text 0 ++ ')' :: s) :=
    Next.blanks (next_single (m := ⟨.lp, ['(']⟩) (by decide) _) hw
  have hclose : Next (')' :: s) .rp [')'] s := next_single (m := ⟨.rp, [')']⟩) (by decide) s
  obtain ⟨hafter, hbody⟩ := after_single (p := p) (m := ⟨.rp, [')']⟩) (by decide) (by decide) s
  have he := h [] (')' :: s) n q blanks_nil (hafter.mono (opsFrom_subset 0)) (fun _ => hbody)
    (by rw [List.length_cons] at hn; omega)
  have he' : (p.depth (n + 1)).exp.run ⟨e.text 0 ++ ')' :: s, q⟩ = .ok (e.tree p) ⟨')' :: s, q⟩ := he
  show (p.number (p.depth (n + 1))).run ⟨w ++ '(' :: (e.text 0 ++ ')' :: s), q⟩ = _
  rw [number_literal hopen (by decide) (by decide) (depth_pos p _)]
  unfold literal
  simp [scan_run hopen, scanType_run hopen, he', scanType_run hclose]

end Numbers

/-! ## Signs -/

section Signs

theorem atLevel_unary {op : Sign} (h : AtLevel p 4 e) : AtLevel p 3 (.unary op e) := by
  intro w s n q hw hs hlike hn
  have htext : (Exp.unary op e).text 3 ++ s = op.char :: (e.text 4 ++ s) := by
    simp [Exp.text, Exp.body, Exp.level, wrap]
  rw [htext] at hn ⊢
  obtain ⟨hsign, hcode⟩ := op.next
  have he := h [] s n q blanks_nil hs (fun hchild => hlike (by simp [Exp.endsLikeType, hchild]))
    (by rw [List.length_cons] at hn; omega)
  have he' : (p.number (p.depth n)).run ⟨e.text 4 ++ s, q⟩ = .ok (e.tree p) ⟨s, q⟩ := he
  show (p.symbol (p.depth n)).run ⟨w ++ op.char :: (e.text 4 ++ s), q⟩ = _
  unfold symbol
  simp [scan_run ((hsign _).blanks hw), hcode, he', Exp.tree]

/-- The first token of a number is no sign. -/
theorem Exp.next_number (hs : Stops s) (hne : e.level ≠ 3) : ∃ c t r, Next (e.text 4 ++ s) c t r ∧
    c ≠ .plus ∧ c ≠ .sub := by
  have hparens : e.level < 4 → ∃ c t r, Next (e.text 4 ++ s) c t r ∧ c ≠ .plus ∧ c ≠ .sub := by
    intro hlt
    have htext : e.text 4 ++ s = '(' :: (e.body ++ ')' :: s) := by
      simp [Exp.text, wrap, hlt]
    rw [htext]
    exact ⟨.lp, _, _, next_single (m := ⟨.lp, ['(']⟩) (by decide) _, by decide, by decide⟩
  cases e with
  | num d => exact ⟨_, _, _, next_decimal d.toDecimal hs.num hs.ne, by decide, by decide⟩
  | ref r =>
    obtain ⟨t, u, hfirst⟩ := r.next hs
    exact ⟨_, t, u, hfirst, by decide, by decide⟩
  | unary op child => exact absurd rfl hne
  | bin op left right => exact hparens (Nat.lt_succ_of_lt op.level_lt)

theorem atLevel_symbol (hne : e.level ≠ 3) (h : AtLevel p 4 e) : AtLevel p 3 e := by
  intro w s n q hw hs hlike hn
  rw [← Exp.text_succ hne] at hn ⊢
  obtain ⟨c, t, r, hfirst, hplus, hsub⟩ := Exp.next_number hs.stops hne
  have he := h w s n q hw hs (by
    rw [Exp.endsLikeType_succ (by decide) hne]
    exact hlike) hn
  have he' : (p.number (p.depth n)).run ⟨w ++ (e.text 4 ++ s), q⟩ = .ok (e.tree p) ⟨s, q⟩ := he
  show (p.symbol (p.depth n)).run ⟨w ++ (e.text 4 ++ s), q⟩ = _
  unfold symbol
  simp [scan_run (hfirst.blanks hw), hplus, hsub, he']

end Signs

/-! ## All levels -/

/-- An expression is read at every level, and the loops go on behind it. -/
structure ReadsLevels (p : Parser) (e : Exp) : Prop where
  atLevel : ∀ k, k ≤ 4 → AtLevel p k e
  reaches : ∀ k, k < 3 → Reaches p k e

/-- From a level to the one outside it. -/
theorem AtLevel.pred (hk : k < 4) (hne : e.level ≠ k) (h : AtLevel p (k + 1) e) :
    AtLevel p k e := by
  rcases Nat.lt_or_ge k 3 with hlt | hge
  · exact (h.reaches hlt hne).atLevel
  · obtain rfl : k = 3 := by omega
    exact atLevel_symbol hne h

/-- It is enough to read an expression at its own level. -/
theorem readsLevels_own (hown : AtLevel p e.level e)
    (hreach : e.level < 3 → Reaches p e.level e) (hle : e.level ≤ 4) : ReadsLevels p e := by
  -- out to `exp`, in through the parentheses, and out again to the levels between
  have hout : ∀ d k, k + d = e.level → AtLevel p k e := by
    intro d
    induction d with
    | zero =>
      intro k hk
      obtain rfl : k = e.level := hk
      exact hown
    | succ d ih =>
      intro k hk
      exact (ih (k + 1) (by omega)).pred (by omega) (by omega)
  have hnumber : AtLevel p 4 e := by
    rcases Nat.lt_or_ge e.level 4 with hlt | hge
    · exact atLevel_parens hlt (hout e.level 0 (Nat.zero_add _))
    · obtain h4 : e.level = 4 := by omega
      exact h4 ▸ hown
  have hin : ∀ d k, k + d = 4 → e.level < k → AtLevel p k e := by
    intro d
    induction d with
    | zero =>
      intro k hk _
      obtain rfl : k = 4 := hk
      exact hnumber
    | succ d ih =>
      intro k hk hlt
      exact (ih (k + 1) (by omega) (by omega)).pred (by omega) (by omega)
  have hat : ∀ k, k ≤ 4 → AtLevel p k e := by
    intro k hk
    rcases Nat.lt_or_ge e.level k with hlt | hge
    · exact hin (4 - k) k (by omega) hlt
    · exact hout (e.level - k) k (by omega)
  refine ⟨hat, fun k hk => ?_⟩
  by_cases hne : e.level = k
  · subst hne
    exact hreach hk
  · exact (hat (k + 1) (by omega)).reaches hk hne

/-! ## Conditions -/

section Conditions

variable {a b : Node} {s' : Text}

theorem sees_false {code : TokenType} (h : Next s c t r) (hlg : code ≠ .lg) (hc : c ≠ code) :
    (sees code).run ⟨s, q⟩ = .ok false ⟨s, q⟩ := by
  rw [sees_run h hlg, if_neg hc]

theorem boolean_run (h : Next s c t r) (hc : c ∉ [.resTrue, .resFalse])
    (ha : (p.exp f).run ⟨s, q⟩ = .ok a ⟨s', q⟩) :
    (p.boolean f).run ⟨s, q⟩ = .ok a ⟨s', q⟩ := by
  simp only [List.mem_cons, List.not_mem_nil, or_false, not_or] at hc
  unfold Parser.boolean
  rw [Back.rewinding_run, Back.bind_run, sees_false h (by decide) hc.1, Run.andThen_ok,
    if_neg Bool.false_ne_true, Back.bind_run, sees_false h (by decide) hc.2, Run.andThen_ok,
    if_neg Bool.false_ne_true, orElse_ok (runWithCatch_ok ha), Run.andThen_ok]

/-- The loop of `compare` ends. -/
theorem compareTurn_last (h : Next s c t r) (hc : c ∉ compareOps) (a : Node) :
    (p.compareTurn f a).run ⟨s, q⟩ = .ok (.inr a) ⟨s, q⟩ := by
  unfold compareTurn
  simp [scan_run h, hc]

theorem bitOpTurn_last (h : Next s c t r) (hc : c ∉ [.bitOr, .esp, .bitXor]) (a : Node) :
    (p.bitOpTurn f a).run ⟨s, q⟩ = .ok (.inr a) ⟨s, q⟩ := by
  simp only [List.mem_cons, List.not_mem_nil, or_false, not_or] at hc
  unfold bitOpTurn
  simp [scan_run h, hc]

/-- Where nothing goes on, what `compare` reads is all that `boolexp` reads. -/
theorem boolexp_run {l : Lexer} (ha : (p.compare f).run l = .ok a ⟨s, q⟩) (h : Next s c t r)
    (hc : c ∉ [.bitOr, .esp, .bitXor, .and, .or]) (hf : 0 < f.fuel) :
    (p.boolexp f).run l = .ok a ⟨s, q⟩ := by
  simp only [List.mem_cons, List.not_mem_nil, or_false, not_or] at hc
  obtain ⟨hbitOr, hesp, hbitXor, hand, hor⟩ := hc
  obtain ⟨m, hm⟩ : ∃ m, f.fuel = m + 1 := ⟨f.fuel - 1, by omega⟩
  have hbit : (p.bitOp f).run l = .ok a ⟨s, q⟩ := by
    unfold bitOp
    rw [Back.rewinding_run, Back.bind_run, ha, Run.andThen_ok, hm,
      Back.iterate_last (bitOpTurn_last h (by simp [hbitOr, hesp, hbitXor]) a) m, Run.andThen_ok]
  unfold Parser.boolexp
  simp [hbit, scan_run h, hand, hor]

/-- An expression alone is a condition, too. -/
theorem compare_one {l : Lexer} (ha : (p.boolean f).run l = .ok a ⟨s, q⟩) (h : Next s c t r)
    (hc : c ∉ compareOps) (hf : 0 < f.fuel) : (p.compare f).run l = .ok a ⟨s, q⟩ := by
  obtain ⟨m, hm⟩ : ∃ m, f.fuel = m + 1 := ⟨f.fuel - 1, by omega⟩
  unfold Parser.compare
  rw [Back.rewinding_run, Back.bind_run, runWithCatch_ok ha, Run.andThen_ok, hm,
    Back.iterate_last (compareTurn_last h hc a) m, Run.andThen_ok]

/-- What begins with neither of three tokens is a condition. -/
theorem allexp_boolexp (h : Next s c t r) (hc : c ∉ [.resAwait, .esp, .resFunc])
    {l' : Lexer} (ha : (p.boolexp f).run ⟨s, q⟩ = .ok a l') :
    (p.allexp f).run ⟨s, q⟩ = .ok a l' := by
  simp only [List.mem_cons, List.not_mem_nil, or_false, not_or] at hc
  obtain ⟨hawait, hesp, hfunc⟩ := hc
  have hptr : (p.takePtrExp f).Refuses ⟨s, q⟩ := by
    unfold takePtrExp
    exact (scanType_refuses h (by decide) hesp).bind
  have hinline : (inlineFunc f).Refuses ⟨s, q⟩ := by
    unfold inlineFunc
    exact (Back.refuses_of_err (funcTypes_none h hfunc)).bind
  unfold Parser.allexp
  rw [Back.bind_run, sees_false h (by decide) hawait, Run.andThen_ok, if_neg Bool.false_ne_true,
    runWithCatch_orElse hptr, runWithCatch_orElse hinline, Back.must_run, ha, Run.andThen_ok]

theorem Exp.text_zero (e : Exp) : e.text 0 = e.body := by
  simp [Exp.text, wrap]

/-- Where no operator follows, `allexp` reads what `exp` reads. -/
theorem allexp_exp {c' : TokenType} {t' r' u : Text} (hfirst : Next u c' t' r')
    (hstart : c' ∈ expStarts) (ha : (p.exp f).run ⟨u, q⟩ = .ok a ⟨s, q⟩) (h : Next s c t r)
    (hc : c ∉ allOps) (hf : 0 < f.fuel) : (p.allexp f).run ⟨u, q⟩ = .ok a ⟨s, q⟩ := by
  have hne : ∀ cs : List TokenType, (∀ c ∈ expStarts, c ∉ cs) → c' ∉ cs :=
    fun cs hcs => hcs c' hstart
  have hops : ∀ cs : List TokenType, cs ⊆ allOps → c ∉ cs := fun cs hcs hc' => hc (hcs hc')
  exact allexp_boolexp hfirst (hne _ (by decide))
    (boolexp_run (compare_one (boolean_run hfirst (hne _ (by decide)) ha) h (hops _ (by decide)) hf)
      h (hops _ (by decide)) hf)

theorem reads_of_level (h : AtLevel p 0 e) : Reads p e := by
  intro w s n q hw hs hlike hn
  obtain ⟨c, t, r, hnext, -, hc⟩ := hs.next
  obtain ⟨c', t', r', hfirst, hstart⟩ := e.next hs.stops
  have hexp : (p.exp (p.depth n)).run ⟨w ++ (e.body ++ s), q⟩ = .ok (e.tree p) ⟨s, q⟩ := by
    rw [← e.text_zero] at hn ⊢
    exact h w s n q hw (hs.mono (opsFrom_subset 0)) hlike hn
  exact allexp_exp (hfirst.blanks hw) hstart hexp hnext hc (depth_pos p n)

end Conditions

/-! ## All expressions -/

mutual

theorem Exp.readsLevels (p : Parser) : ∀ e : Exp, ReadsLevels p e
  | .num d => readsLevels_own (atLevel_num d) (fun h => absurd h (of_decide_eq_false rfl)) (Nat.le_refl 4)
  | .ref r =>
    readsLevels_own (atLevel_ref (r.readsInside p)) (fun h => absurd h (of_decide_eq_false rfl))
      (Nat.le_refl 4)
  | .unary op child =>
    readsLevels_own (atLevel_unary ((child.readsLevels p).atLevel 4 (Nat.le_refl 4)))
      (fun h => absurd h (Nat.lt_irrefl 3)) (Nat.le_succ 3)
  | .bin op left right => by
    have hlevel := op.level_lt
    have hreach : Reaches p op.level (.bin op left right) :=
      reaches_bin ((left.readsLevels p).reaches op.level hlevel)
        ((right.readsLevels p).atLevel (op.level + 1) (by omega))
    exact readsLevels_own hreach.atLevel (fun _ => hreach) (Nat.le_succ_of_le (Nat.le_of_lt hlevel))

theorem Ref.readsInside (p : Parser) : ∀ r : Ref, ReadsInside p r
  | .chain _ idxs next => ⟨exps_read p idxs, blocks_read p next⟩
  | .call _ idxs next _ params tail =>
    ⟨⟨exps_read p idxs, blocks_read p next⟩, exps_read p params, tail_reads p tail⟩

theorem exps_read (p : Parser) : ∀ (es : List Exp), ∀ e ∈ es, Reads p e
  | [] => by simp
  | e :: es => by
    have he := reads_of_level ((e.readsLevels p).atLevel 0 (by decide))
    have hes := exps_read p es
    intro e' he'
    rcases List.mem_cons.1 he' with rfl | he'
    · exact he
    · exact hes e' he'

theorem blocks_read (p : Parser) :
    ∀ (bs : List (Name × List Exp)), ∀ b ∈ bs, ∀ e ∈ b.2, Reads p e
  | [] => by simp
  | (x, idxs) :: bs => by
    have hidxs := exps_read p idxs
    have hbs := blocks_read p bs
    intro b hb
    rcases List.mem_cons.1 hb with rfl | hb
    · exact hidxs
    · exact hbs b hb

theorem tail_reads (p : Parser) : ∀ (tail : Option Ref), ∀ r ∈ tail, ReadsTail p r
  | none => by simp
  | some r => by
    have hr := readsTail (r.readsInside p)
    intro r' hr'
    obtain rfl : r = r' := Option.some.inj hr'
    exact hr

end

/-- `allexp` reads every expression. -/
theorem reads (p : Parser) (e : Exp) : Reads p e :=
  reads_of_level ((e.readsLevels p).atLevel 0 (by decide))

/-! ## Arithmetic -/

/-- An arithmetic expression: decimal literals that fit, identifiers that are neither reserved nor
the name of an import, signs and binary operators. -/
inductive Arith (p : Parser)
  | num (n : Size)
  | var (x : Name) (free : p.imp x.text = none)
  | unary (op : Sign) (child : Arith p)
  | bin (op : Op) (left right : Arith p)

/-- The expression as it is printed. -/
def Arith.exp : Arith p → Exp
  | num n => .num n
  | var x _ => .ref (.chain x [] [])
  | unary op child => .unary op child.exp
  | bin op left right => .bin op left.exp right.exp

def Arith.text (e : Arith p) : Text := e.exp.body

/-- The tree of an arithmetic expression. -/
def Arith.tree : Arith p → Node
  | num n => .num n.value (leastWidth n.value)
  | var x _ => .varBlock x.text [] []
  | unary op child => .unary op.code child.tree
  | bin op left right => .bin op.code left.tree right.tree

theorem Arith.exp_tree (e : Arith p) : e.exp.tree p = e.tree := by
  induction e with
  | num n => rfl
  | var x free => simp [Arith.exp, Arith.tree, Exp.tree, Ref.tree, expTrees, nextTrees, free]
  | unary op child ih => rw [Arith.exp, Exp.tree, ih, Arith.tree]
  | bin op left right ihl ihr => rw [Arith.exp, Exp.tree, ihl, ihr, Arith.tree]

/-- **Arithmetic expressions round-trip**: in front of a newline, `exp` reads an expression as its
tree and leaves the lexer at the newline. -/
theorem expressions_round_trip (p : Parser) (e : Arith p) (s : Text) (q : Nat) :
    ∃ N, ∀ n, N ≤ n →
      (p.exp (p.depth n)).run ⟨e.text ++ '\n' :: s, q⟩ = .ok e.tree ⟨'\n' :: s, q⟩ := by
  refine ⟨(e.exp.text 0 ++ '\n' :: s).length, fun n hn => ?_⟩
  obtain ⟨hafter, hbody⟩ := after_single (p := p) (m := ⟨.nl, ['\n']⟩) (by decide) (by decide) s
  have he := (e.exp.readsLevels p).atLevel 0 (by decide) [] ('\n' :: s) n q blanks_nil
    (hafter.mono (opsFrom_subset 0)) (fun _ => hbody) hn
  rw [e.exp.text_zero, e.exp_tree] at he
  exact he

end CalcLang.Parser
