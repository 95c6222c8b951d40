import CalcLang.Lex.Spelling
import CalcLang.Parser.Grammar

/-!
# The next token

What the functions of the lexer come to where the next token is known: `Next` says which one
it is. All the texts here go on behind the token, so the end of the text is never met.
-/

namespace CalcLang.Parser

open CalcLang.Lex CalcLang.Lib

variable {s r t : Text} {c code : TokenType} {q : Nat}

/-- At `s` stands the token `t` with the code `c`, and `r` behind it. -/
def Next (s : Text) (c : TokenType) (t r : Text) : Prop :=
  ∀ q, Lexer.Scan ⟨s, q⟩ = .token c t false ⟨r, q⟩

/-! ## Tokens -/

/-- Spaces and tabs. -/
def Blanks (w : Text) : Prop := ∀ c ∈ w, isBlank c = true

theorem blanks_nil : Blanks [] := by
  intro c hc
  cases hc

theorem blanks_space : Blanks [' '] := by
  intro c hc
  obtain rfl := List.mem_singleton.1 hc
  rfl

/-- Blanks in front of a token make no difference. -/
theorem Next.blanks {w : Text} (h : Next s c t r) (hw : Blanks w) : Next (w ++ s) c t r := by
  induction w with
  | nil => exact h
  | cons d w ih =>
    intro q
    rw [List.cons_append, scan_blank q (hw d List.mem_cons_self)]
    exact ih (fun d hd => hw d (List.mem_cons_of_mem _ hd)) q

theorem Next.code_eq {c' : TokenType} {t' r' : Text} (h : Next s c t r) (h' : Next s c' t' r') :
    c = c' := by
  have heq := (h 0).symm.trans (h' 0)
  exact (Scanned.token.inj heq).1

theorem behind_of_ne (hr : r ≠ []) (q : Nat) : Lexer.behind q r = ⟨r, q⟩ := by
  unfold Lexer.behind
  rw [if_neg hr]

theorem next_name (x : Name) (hr : EndsWord r) (hne : r ≠ []) : Next (x.text ++ r) .var x.text r := by
  intro q
  rw [scan_name q x hr, behind_of_ne hne]

theorem next_word {w : Text × TokenType} (hw : w ∈ reserved) (hr : EndsWord r) (hne : r ≠ []) :
    Next (w.1 ++ r) w.2 w.1 r := by
  intro q
  obtain ⟨v, hv, hcode⟩ := reserved_word w hw
  have h := scan_word q v hr
  rw [hv, hcode, behind_of_ne hne] at h
  exact h

/-- A numeral of a decimal literal. -/
def numeral (d : Decimal) : Numeral where
  head := digitChar (d.digits.head d.nonempty)
  tail := d.digits.tail.map digitChar
  head_ok := by
    have hall : ∀ d : Fin 10, isNum (digitChar d) = true := by decide
    exact hall _
  tail_ok := by
    have hall : ∀ d : Fin 10, isNum (digitChar d) = true := by decide
    intro c hc
    obtain ⟨d, -, rfl⟩ := List.mem_map.1 hc
    exact hall d

theorem numeral_text (d : Decimal) : (numeral d).text = d.text := by
  show digitChar (d.digits.head d.nonempty) :: d.digits.tail.map digitChar = d.digits.map digitChar
  rw [← List.map_cons, List.cons_head_tail]

theorem next_decimal (d : Decimal) (hr : EndsNum r) (hne : r ≠ []) :
    Next (d.text ++ r) .int d.text r := by
  intro q
  have h := scan_numeral q (numeral d) hr
  rw [numeral_text, behind_of_ne hne] at h
  exact h

/-- The marks of one character that are read the same whatever comes behind them. -/
def singles : List Token :=
  [⟨.nl, ['\n']⟩, ⟨.plus, ['+']⟩, ⟨.sub, ['-']⟩, ⟨.mul, ['*']⟩, ⟨.lp, ['(']⟩, ⟨.rp, [')']⟩,
    ⟨.lb, ['\x7b']⟩, ⟨.rb, ['\x7d']⟩, ⟨.comma, [',']⟩, ⟨.semi, [';']⟩, ⟨.lsb, ['[']⟩,
    ⟨.rsb, [']']⟩, ⟨.dot, ['.']⟩, ⟨.ps, ['%']⟩]

theorem next_single {m : Token} (hm : m ∈ singles) (r : Text) :
    Next (m.text ++ r) m.code m.text r := by
  intro q
  fin_cases hm <;> rfl

/-- A `>` is part of a token that begins with one. -/
theorem scan_gt (r : Text) (q : Nat) : ∃ c t r', Lexer.Scan ⟨'>' :: r, q⟩ = .token c t false ⟨r', q⟩ ∧
    (c = .lg ∨ c = .leq ∨ c = .shr) := by
  have hscan : Lexer.Scan ⟨'>' :: r, q⟩ =
      if r.head? = some '=' then .token .leq ['>', '='] false ⟨r.tail, q⟩
      else scanMark q '>' '>' .shr .lg r := rfl
  rw [hscan]
  unfold scanMark
  split
  · exact ⟨_, _, _, rfl, .inr (.inl rfl)⟩
  · split
    · exact ⟨_, _, _, rfl, .inr (.inr rfl)⟩
    · exact ⟨_, _, _, rfl, .inl rfl⟩

theorem scan_dropWhile (s : Text) (q : Nat) :
    Lexer.Scan ⟨s.dropWhile isBlank, q⟩ = Lexer.Scan ⟨s, q⟩ := by
  induction s with
  | nil => rfl
  | cons c s ih =>
    by_cases hc : isBlank c
    · rw [List.dropWhile_cons_of_pos hc, scan_blank q hc]
      exact ih
    · rw [List.dropWhile_cons_of_neg hc]

/-! ## Looking for a token -/

theorem scan_run (h : Next s c t r) : scan.run ⟨s, q⟩ = .ok (c, t, false) ⟨r, q⟩ := by
  unfold scan
  dsimp only
  rw [h q]

theorem scanCode_run (h : Next s c t r) : (scanCode code).run ⟨s, q⟩ =
    if c = code then .ok t ⟨r, q⟩ else .err .type ⟨s, q⟩ := by
  unfold scanCode
  rw [Back.bind_run, Back.here_run, Run.andThen_ok, Back.bind_run, scan_run h, Run.andThen_ok]
  by_cases hc : c = code
  · simp [hc]
  · simp [hc]

theorem scanType_run (h : Next s c t r) (hlg : code ≠ .lg) : (scanType code).run ⟨s, q⟩ =
    if c = code then .ok t ⟨r, q⟩ else .err .type ⟨s, q⟩ := by
  unfold scanType
  rw [if_neg hlg]
  exact scanCode_run h

theorem scanType_refuses (h : Next s c t r) (hlg : code ≠ .lg) (hc : c ≠ code) :
    (scanType code).Refuses ⟨s, q⟩ := by
  have hscan := scanType_run (q := q) h hlg
  rw [if_neg hc] at hscan
  exact Back.refuses_of_err hscan

theorem sees_run (h : Next s c t r) (hlg : code ≠ .lg) : (sees code).run ⟨s, q⟩ =
    if c = code then .ok true ⟨r, q⟩ else .ok false ⟨s, q⟩ := by
  unfold sees
  rw [Back.bind_run, Back.attempt_run, scanType_run h hlg]
  by_cases hc : c = code
  · simp [hc]
  · simp [hc]

theorem sees_gt : (sees .lg).run ⟨'>' :: r, q⟩ = .ok true ⟨r, q⟩ := rfl

/-- The first character that is no blank. -/
theorem getChSkipEmpty_run {d : Char} {s' : Text} (h : s.dropWhile isBlank = d :: s') :
    getChSkipEmpty.run ⟨s, q⟩ = .ok (some d) ⟨s', q⟩ := by
  unfold getChSkipEmpty
  dsimp only
  rw [h]

theorem sees_lg (h : Next s c t r) (hc : c ≠ .lg) (hleq : c ≠ .leq) (hshr : c ≠ .shr) :
    (sees .lg).run ⟨s, q⟩ = .ok false ⟨s, q⟩ := by
  obtain ⟨d, s', hs, hne⟩ : ∃ d s', s.dropWhile isBlank = d :: s' ∧ d ≠ '>' := by
    have hscan := (scan_dropWhile s q).trans (h q)
    cases hs : s.dropWhile isBlank with
    | nil =>
      rw [hs] at hscan
      cases hscan
    | cons d s' =>
      refine ⟨d, s', rfl, fun hd => ?_⟩
      obtain ⟨c', t', r', hgt, hcode⟩ := scan_gt s' q
      rw [hs, hd, hgt] at hscan
      obtain ⟨rfl, -⟩ := Scanned.token.inj hscan
      rcases hcode with rfl | rfl | rfl
      · exact hc rfl
      · exact hleq rfl
      · exact hshr rfl
  unfold sees scanType
  simp [getChSkipEmpty_run hs, hne, scanCode_run h, hc]

theorem empty_run (h : Next s .nl t r) : empty.run ⟨s, q⟩ = .ok .empty ⟨r, q⟩ := by
  unfold empty
  simp [scanType_run h]

theorem empty_panics (h : Next s c t r) (hc : c ≠ .nl) : empty.run ⟨s, q⟩ = .panic := by
  unfold empty
  simp [scanType_run h, hc]

/-! ## Fuel -/

theorem depth_fuel (p : Parser) (n : Nat) : (p.depth n).fuel = n + 1 := by
  cases n <;> rfl

/-! ## Stars -/

theorem starsTurn_run (h : Next s .mul t r) (level : Nat) :
    (starsTurn level).run ⟨s, q⟩ = .ok (.inl (level + 1)) ⟨r, q⟩ := by
  unfold starsTurn
  simp [sees_run h]

theorem stars_run {f : Rec} {k : Nat} (h : Next s c t r) (hc : c ≠ .mul) (hk : k < f.fuel) :
    (stars f).run ⟨List.replicate k '*' ++ s, q⟩ = .ok k ⟨s, q⟩ := by
  have hloop : ∀ (k n level : Nat), k < n →
      (Back.iterate starsTurn n level).run ⟨List.replicate k '*' ++ s, q⟩ =
        .ok (level + k) ⟨s, q⟩ := by
    intro k
    induction k with
    | zero =>
      intro n level hn
      obtain ⟨n, rfl⟩ : ∃ m, n = m + 1 := ⟨n - 1, by omega⟩
      refine Back.iterate_last ?_ n
      show (starsTurn level).run ⟨s, q⟩ = _
      unfold starsTurn
      simp [sees_run h, hc]
    | succ k ih =>
      intro n level hn
      obtain ⟨n, rfl⟩ : ∃ m, n = m + 1 := ⟨n - 1, by omega⟩
      have hstar : Next (List.replicate (k + 1) '*' ++ s) .mul ['*'] (List.replicate k '*' ++ s) :=
        next_single (m := ⟨.mul, ['*']⟩) (by decide) _
      rw [Back.iterate_next (starsTurn_run hstar level), ih n (level + 1) (by omega),
        Nat.add_right_comm, Nat.add_assoc]
  have h0 := hloop k f.fuel 0 hk
  rw [Nat.zero_add] at h0
  exact h0

/-- Blanks in front of the stars go with the first one. -/
theorem stars_blanks {f : Rec} {k : Nat} {w : Text} (hw : Blanks w) (h : Next s c t r)
    (hc : c ≠ .mul) (hk : k < f.fuel) : ∃ w', Blanks w' ∧
      (stars f).run ⟨w ++ (List.replicate k '*' ++ s), q⟩ = .ok k ⟨w' ++ s, q⟩ := by
  cases k with
  | zero => exact ⟨w, hw, stars_run (k := 0) (h.blanks hw) hc hk⟩
  | succ k =>
    refine ⟨[], blanks_nil, ?_⟩
    have hstar : Next (w ++ (List.replicate (k + 1) '*' ++ s)) .mul ['*']
        (List.replicate k '*' ++ s) :=
      Next.blanks (next_single (m := ⟨.mul, ['*']⟩) (by decide) _) hw
    have hfirst : Next (List.replicate (k + 1) '*' ++ s) .mul ['*'] (List.replicate k '*' ++ s) :=
      next_single (m := ⟨.mul, ['*']⟩) (by decide) _
    have hall := stars_run (q := q) h hc hk
    unfold stars at hall ⊢
    obtain ⟨m, hm⟩ : ∃ m, f.fuel = m + 1 := ⟨f.fuel - 1, by omega⟩
    rw [hm, Back.iterate_next (starsTurn_run hfirst 0)] at hall
    rw [hm, Back.iterate_next (starsTurn_run hstar 0)]
    exact hall

/-- No star. -/
theorem stars_none {f : Rec} (h : Next s c t r) (hc : c ≠ .mul) (hk : 0 < f.fuel) :
    (stars f).run ⟨s, q⟩ = .ok 0 ⟨s, q⟩ :=
  stars_run (k := 0) h hc hk

end CalcLang.Parser
