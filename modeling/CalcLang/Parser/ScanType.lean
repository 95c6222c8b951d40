import CalcLang.Parser.ChoicesExact

/-!
# Looking for one token

The parser reads the text with `ScanType`, which looks for a token of one kind. If there is another one the
lexer is put back; that is what all its backtracking rests on. At the end of the text it is different. `Scan`
reports the end together with a code, the zero of Go's `int`, which is that of an integer, so an integer is found
there; and what is not found there leaves the lexer behind the end.

`scanType_exact_iff` says that this is the only exception.
-/

namespace CalcLang.Parser

open CalcLang.Lex CalcLang.Lib Back

variable {c code : TokenType} {t : Text} {e : Bool} {l l' : Lexer}

/-- The computation succeeds just if `Scan` returns a token of that code in front of the end, and it leaves the
lexer where `Scan` does; a failure leaves it where it was. -/
structure LooksFor (code : TokenType) (l : Lexer) (x : P Text) : Prop where
  succeeds : ∀ t l', x.Accepts l t l' ↔ l.Scan = .token code t false l'
  stays : ∀ l', x.Errs l l' → l' = l

/-- `ScanType` is exact: it looks for a token of that code, but a `>` is found in whatever token it begins, and
no more than that character is read. -/
def ScanTypeExact (code : TokenType) (l : Lexer) : Prop :=
  match code, l.rest.dropWhile isBlank with
  | .lg, '>' :: s => ∀ t l', (scanType .lg).Accepts l t l' ↔ t = ['>'] ∧ l' = ⟨s, l.past⟩
  | code, _ => LooksFor code l (scanType code)

/-! ## One token -/

/-- At the end an integer is found, and with anything else the lexer does not stay where it was. -/
theorem not_looksFor_of_atEnd (h : AtEnd l) : ¬ LooksFor code l (scanCode code) := by
  intro hlooks
  obtain ⟨c, t, l', h⟩ := h
  have hrun : (scanCode code).run l = if c = code then .ok t l' else .err .eos l' := scanCode_of h
  by_cases hc : c = code
  · -- found, in no token
    rw [if_pos hc] at hrun
    have hscan := (hlooks.succeeds t l').mp (accepts_of_run hrun)
    cases h.symm.trans hscan
  · rw [if_neg hc] at hrun
    have hstays := hlooks.stays l' ⟨.eos, congrArg Run.result hrun⟩
    have hpast := scan_eos_past h
    rw [hstays] at hpast
    omega

/-- What does not return neither succeeds nor fails. -/
theorem looksFor_of_stopped {x : P Text} (hx : x.run l = .panic ∨ x.run l = .fatal)
    (hscan : l.Scan = .panic ∨ l.Scan = .fatal) : LooksFor code l x where
  succeeds t l' := by
    unfold Accepts
    rcases hx with hx | hx <;> rcases hscan with hscan | hscan <;> rw [hx, hscan] <;> exact iff_of_false nofun nofun
  stays l' h := by
    obtain ⟨e, h⟩ := h
    rcases hx with hx | hx <;> rw [hx] at h <;> cases h

/-- In front of a token `ScanType` does what it should. -/
theorem looksFor_of_not_atEnd (h : ¬ AtEnd l) : LooksFor code l (scanCode code) := by
  cases hscan : l.Scan with
  | token c t e l₁ =>
    cases e with
    | true => exact absurd ⟨c, t, l₁, hscan⟩ h
    | false =>
      have hrun : (scanCode code).run l = if c = code then .ok t l₁ else .err .type l := scanCode_of hscan
      by_cases hc : c = code
      · rw [if_pos hc] at hrun
        refine ⟨fun t' l' => ?_, fun l' herr => ?_⟩
        · show ((scanCode code).run l).result = .ok t' l' ↔ _
          rw [hrun, hscan, hc, Scanned.token.injEq]
          show Result.ok t l₁ = _ ↔ _
          simp
        · obtain ⟨e, herr⟩ := herr
          rw [hrun] at herr
          cases herr
      · rw [if_neg hc] at hrun
        refine ⟨fun t' l' => ?_, fun l' herr => ?_⟩
        · show ((scanCode code).run l).result = .ok t' l' ↔ _
          rw [hrun, hscan, Scanned.token.injEq]
          exact iff_of_false nofun fun heq => hc heq.1
        · obtain ⟨e, herr⟩ := herr
          rw [hrun] at herr
          exact (Result.err.inj herr).2.symm
  | panic => exact looksFor_of_stopped (.inl (scanCode_panics hscan)) (.inl hscan)
  | fatal => exact looksFor_of_stopped (.inr (scanCode_fatal hscan)) (.inr hscan)

theorem looksFor_iff : LooksFor code l (scanCode code) ↔ ¬ AtEnd l :=
  ⟨fun h hend => not_looksFor_of_atEnd hend h, looksFor_of_not_atEnd⟩

theorem LooksFor.congr {x y : P Text} (h : x.run l = y.run l) : LooksFor code l x ↔ LooksFor code l y := by
  constructor
  · rintro ⟨hsucc, hstays⟩
    refine ⟨fun t l' => ?_, fun l' hl' => hstays l' ?_⟩
    · rw [← hsucc, Accepts, Accepts, h]
    · rwa [Errs, h]
  · rintro ⟨hsucc, hstays⟩
    refine ⟨fun t l' => ?_, fun l' hl' => hstays l' ?_⟩
    · rw [← hsucc, Accepts, Accepts, h]
    · rwa [Errs, ← h]

/-! ## A `>` -/

/-- The blanks in front of a token make no difference to it. -/
theorem scan_dropBlanks : l.Scan = Lexer.Scan ⟨l.rest.dropWhile isBlank, l.past⟩ := by
  obtain ⟨s, q⟩ := l
  show scanFrom q false s = scanFrom q false (s.dropWhile isBlank)
  induction s with
  | nil => rfl
  | cons c s ih =>
    cases hc : isBlank c with
    | true =>
      rw [List.dropWhile_cons_of_pos hc, ← ih]
      exact if_pos hc
    | false => rw [List.dropWhile_cons_of_neg (by simp [hc])]

theorem scanType_lg_run : (scanType .lg).run l =
    match l.rest.dropWhile isBlank with
    | [] => .err .eos ⟨[], l.past + 1⟩
    | c :: s => if c = '>' then .ok [c] ⟨s, l.past⟩ else (scanCode .lg).run l := by
  unfold scanType
  rw [if_pos rfl, bind_run, here_run, Run.andThen_ok, bind_run]
  unfold getChSkipEmpty
  dsimp only
  cases l.rest.dropWhile isBlank with
  | nil => rfl
  | cons c s =>
    show (if c = '>' then (pure [c] : P Text) else do goback l; scanCode .lg).run _ =
      if c = '>' then .ok [c] ⟨s, l.past⟩ else (scanCode .lg).run l
    by_cases hc : c = '>'
    · rw [if_pos hc, if_pos hc]
      rfl
    · rw [if_neg hc, if_neg hc]
      rfl

/-- In front of a `>` there is a token. -/
theorem not_atEnd_gt {s : Text} (h : l.rest.dropWhile isBlank = '>' :: s) : ¬ AtEnd l := by
  rintro ⟨c, t, l', hscan⟩
  rw [scan_dropBlanks, h, scan_cons l.past rfl (by rintro ⟨⟩)] at hscan
  have hwithin : (scanToken l.past '>' s).Within s.length := scanToken_within '>'
  rw [hscan] at hwithin
  cases hwithin.1

/-! ## The theorem -/

/-- **`ScanType` is exact in front of a token, and only there.** -/
theorem scanType_exact_iff (code : TokenType) (l : Lexer) : ScanTypeExact code l ↔ ¬ AtEnd l := by
  unfold ScanTypeExact
  split
  next s h =>
    refine iff_of_true (fun t l' => ?_) (not_atEnd_gt h)
    show ((scanType .lg).run l).result = .ok t l' ↔ _
    rw [scanType_lg_run, h]
    show (.ok ['>'] ⟨s, l.past⟩ : Result Err Lexer Text) = .ok t l' ↔ _
    simp [eq_comm]
  next code' _ _ hgt =>
    by_cases hlg : code' = .lg
    · -- what stands there is no `>`, so the character that is read first is put back
      subst hlg
      have hrun := scanType_lg_run (l := l)
      cases hrest : l.rest.dropWhile isBlank with
      | nil =>
        rw [hrest] at hrun
        have hscan : l.Scan = .token .int [] true ⟨[], l.past + 1⟩ := by
          rw [scan_dropBlanks, hrest]
          rfl
        have hend : AtEnd l := ⟨_, _, _, hscan⟩
        refine iff_of_false (fun hlooks => ?_) (not_not.mpr hend)
        have hstays := congrArg Lexer.past (hlooks.stays _ ⟨.eos, congrArg Run.result hrun⟩)
        exact absurd hstays (Nat.succ_ne_self _)
      | cons c s =>
        have hc : c ≠ '>' := fun hc => hgt s rfl (by rw [hrest, hc])
        rw [hrest] at hrun
        rw [LooksFor.congr (hrun.trans (if_neg hc)), looksFor_iff]
    · rw [scanType_eq hlg, looksFor_iff]

/-- At the end of the text an integer is found. -/
theorem scanType_int_at_end : ¬ ∀ code l, ScanTypeExact code l := by
  intro h
  have hscan := ((h .int ⟨[], 0⟩).succeeds [] ⟨[], 1⟩).mp rfl
  cases hscan

end CalcLang.Parser
