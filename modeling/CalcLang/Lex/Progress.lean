import CalcLang.Lex.Spelling

/-!
# Progress of the lexer

How far the lexer is behind the end makes no difference to what it reads
(`scanFrom_shift`), and every token that is read takes a character at least
(`scan_progress`). So the tokens of a text can be written down call by call
(`tokens_token`), with no calls to be counted.
-/

namespace CalcLang.Lex

/-! ## The position behind the end -/

/-- The same with the position `past` further on. -/
def Lexer.shift (past : Nat) (l : Lexer) : Lexer := ⟨l.rest, past + l.past⟩

def Scanned.shift (past : Nat) : Scanned → Scanned
  | .token code text eos l => .token code text eos (l.shift past)
  | .panic => .panic
  | .fatal => .fatal

section Shift

variable (past : Nat)

private theorem scanWord_shift (s : Text) :
    scanWord past s = ((scanWord 0 s).1, (scanWord 0 s).2.shift past) := by
  induction s with
  | nil => simp [scanWord, Lexer.shift]
  | cons c s ih =>
    rw [scanWord, scanWord, ih]
    split <;> rfl

private theorem scanNum_shift (s : Text) :
    scanNum past s = ((scanNum 0 s).1, (scanNum 0 s).2.shift past) := by
  induction s with
  | nil => simp [scanNum, Lexer.shift]
  | cons c s ih =>
    rw [scanNum, scanNum, ih]
    split <;> rfl

private theorem scanStr_shift (s : Text) :
    scanStr past s = (scanStr 0 s).map fun i => (i.1, i.2.shift past) := by
  fun_induction scanStr past s with
  | case1 => simp [scanStr, Lexer.shift]
  | case2 => simp [scanStr, Lexer.shift]
  | case3 c s ih =>
    rw [scanStr, ih]
    cases escape c with
    | none => rfl
    | some e => cases scanStr 0 s <;> rfl
  | case4 s h₁ h₂ =>
    rw [scanStr, if_pos rfl]
    · rfl
    · exact h₁
    · exact h₂
  | case5 c s h₁ h₂ hc ih =>
    rw [scanStr, if_neg hc, ih]
    · cases scanStr 0 s <;> rfl
    · exact h₁
    · exact h₂

private theorem scanMark_shift (c next : Char) (two one : TokenType) (s : Text) :
    scanMark past c next two one s = (scanMark 0 c next two one s).shift past := by
  unfold scanMark
  split <;> rfl

private theorem scanSwitch_shift (ch : Char) (s : Text) :
    scanSwitch past ch s = (scanSwitch 0 ch s).shift past := by
  unfold scanSwitch
  split
  all_goals first
    | rfl
    | exact scanMark_shift past _ _ _ _ s
    | (split
       · rfl
       · first
         | rfl
         | exact scanMark_shift past _ _ _ _ s)

private theorem scanToken_shift (ch : Char) (s : Text) :
    scanToken past ch s = (scanToken 0 ch s).shift past := by
  unfold scanToken
  split
  · rw [scanStr_shift]
    cases scanStr 0 s <;> rfl
  · split
    · rw [scanWord_shift]
      rfl
    · split
      · unfold scanNumber
        simp only
        rw [scanNum_shift]
        rfl
      · exact scanSwitch_shift past ch s

theorem scanFrom_shift (comment : Bool) (s : Text) :
    scanFrom past comment s = (scanFrom 0 comment s).shift past := by
  induction s generalizing comment with
  | nil => rfl
  | cons c s ih =>
    rw [scanFrom, scanFrom]
    split
    · exact ih _
    · split
      · exact ih _
      · split
        · exact ih _
        · exact scanToken_shift past c s

end Shift

/-! ## Every token takes a character -/

section Progress

variable {past : Nat} {s : Text}

theorem scanWord_length : (scanWord past s).2.rest.length ≤ s.length := by
  induction s with
  | nil => exact Nat.le_refl _
  | cons c s ih =>
    rw [scanWord]
    split
    · exact Nat.le_succ_of_le ih
    · exact Nat.le_refl _

theorem scanNum_length : (scanNum past s).2.rest.length ≤ s.length := by
  induction s with
  | nil => exact Nat.le_refl _
  | cons c s ih =>
    rw [scanNum]
    split
    · exact Nat.le_succ_of_le ih
    · exact Nat.le_refl _

theorem scanStr_length {i : Text × Lexer} (h : scanStr past s = some i) :
    i.2.rest.length ≤ s.length := by
  fun_induction scanStr past s generalizing i with
  | case1 | case2 =>
    obtain rfl := Option.some.inj h
    exact Nat.zero_le _
  | case3 c s ih =>
    rw [Option.bind_eq_bind, Option.bind_eq_some_iff] at h
    obtain ⟨e, -, h⟩ := h
    rw [Option.bind_eq_bind, Option.bind_eq_some_iff] at h
    obtain ⟨j, hj, h⟩ := h
    obtain rfl := Option.some.inj h
    exact Nat.le_succ_of_le (Nat.le_succ_of_le (ih (i := j) hj))
  | case4 s h₁ h₂ =>
    obtain rfl := Option.some.inj h
    exact Nat.le_succ _
  | case5 c s h₁ h₂ hc ih =>
    rw [Option.map_eq_some_iff] at h
    obtain ⟨j, hj, rfl⟩ := h
    exact Nat.le_succ_of_le (ih (i := j) hj)

private theorem tail_length (s : Text) : s.tail.length ≤ s.length := by
  rw [List.length_tail]
  exact Nat.sub_le _ _

/-- The token that a call of `Scan` reads, with the characters left then. -/
def Scanned.Within (n : Nat) : Scanned → Prop
  | .token _ _ eos l => eos = false ∧ l.rest.length ≤ n
  | .panic | .fatal => True

private theorem scanMark_within (c next : Char) (two one : TokenType) :
    (scanMark past c next two one s).Within s.length := by
  unfold scanMark
  split
  · exact ⟨rfl, tail_length s⟩
  · exact ⟨rfl, Nat.le_refl _⟩

private theorem scanSwitch_within (ch : Char) : (scanSwitch past ch s).Within s.length := by
  unfold scanSwitch
  split
  all_goals first
    | exact ⟨rfl, Nat.le_refl _⟩
    | exact scanMark_within _ _ _ _
    | trivial
    | (split
       · exact ⟨rfl, tail_length s⟩
       · first
         | trivial
         | exact scanMark_within _ _ _ _)

theorem scanToken_within (ch : Char) : (scanToken past ch s).Within s.length := by
  unfold scanToken
  split
  · split
    · next i hi => exact ⟨rfl, scanStr_length hi⟩
    · trivial
  · split
    · exact ⟨rfl, scanWord_length⟩
    · split
      · refine ⟨rfl, Nat.le_trans scanNum_length ?_⟩
        split
        · exact tail_length s
        · exact Nat.le_refl _
      · exact scanSwitch_within ch

/-- What a call of `Scan` leaves of a text. -/
theorem scanFrom_progress {comment : Bool} {code : TokenType} {text : Text} {eos : Bool} {l : Lexer}
    (h : scanFrom past comment s = .token code text eos l) :
    (eos = true → l.rest = []) ∧ (eos = false → l.rest.length < s.length) := by
  induction s generalizing comment with
  | nil =>
    obtain ⟨rfl, rfl, rfl, rfl⟩ := Scanned.token.inj h
    exact ⟨fun _ => rfl, (by rintro ⟨⟩)⟩
  | cons c s ih =>
    rw [scanFrom] at h
    split at h
    · exact (ih h).imp_right fun hlt he => Nat.lt_succ_of_lt (hlt he)
    · split at h
      · exact (ih h).imp_right fun hlt he => Nat.lt_succ_of_lt (hlt he)
      · split at h
        · exact (ih h).imp_right fun hlt he => Nat.lt_succ_of_lt (hlt he)
        · have hwithin : (scanToken past c s).Within s.length := scanToken_within c
          rw [h] at hwithin
          obtain ⟨rfl, hle⟩ := hwithin
          exact ⟨(by rintro ⟨⟩), fun _ => Nat.lt_succ_of_le hle⟩

theorem scan_progress {l l' : Lexer} {code : TokenType} {text : Text}
    (h : l.Scan = .token code text false l') : l'.rest.length < l.rest.length :=
  (scanFrom_progress h).2 rfl

theorem scan_eos {l l' : Lexer} {code : TokenType} {text : Text}
    (h : l.Scan = .token code text true l') : l'.rest = [] :=
  (scanFrom_progress h).1 rfl

end Progress

/-! ## The tokens of a text -/

section Tokens

/-- Neither the number of calls, if there are enough, nor the position behind the end
makes a difference. -/
theorem scans_enough {s : Text} {n m : Nat} (hn : s.length < n) (hm : s.length < m) (p q : Nat) :
    Lexer.scans n ⟨s, p⟩ = Lexer.scans m ⟨s, q⟩ := by
  induction n generalizing s m p q with
  | zero => cases hn
  | succ n ih =>
    obtain ⟨m, rfl⟩ : ∃ k, m = k + 1 := ⟨m - 1, by omega⟩
    have hp : Lexer.Scan ⟨s, p⟩ = (Lexer.Scan ⟨s, 0⟩).shift p := scanFrom_shift p false s
    have hq : Lexer.Scan ⟨s, q⟩ = (Lexer.Scan ⟨s, 0⟩).shift q := scanFrom_shift q false s
    rw [Lexer.scans, Lexer.scans, hp, hq]
    cases h : Lexer.Scan ⟨s, 0⟩ with
    | panic | fatal => rfl
    | token code text eos l =>
      cases eos with
      | true => rfl
      | false =>
        have hlt : l.rest.length < s.length := scan_progress h
        have hrest := ih (s := l.rest) (m := m) (by omega) (by omega) (p + l.past) (q + l.past)
        show (_ :: (Lexer.scans n ⟨l.rest, p + l.past⟩).1,
          (Lexer.scans n ⟨l.rest, p + l.past⟩).2) = _
        rw [hrest]
        rfl

/-- Put tokens in front. -/
def prepend (ts : List Token) (r : List Token × Ending) : List Token × Ending := (ts ++ r.1, r.2)

variable {s : Text}

theorem scans_eq_tokens {n : Nat} (hn : s.length < n) (p : Nat) :
    Lexer.scans n ⟨s, p⟩ = tokens s :=
  scans_enough hn (Nat.lt_succ_self _) p 0

/-- The tokens of a text are determined by the first call of `Scan`. -/
theorem tokens_eq {s : Text} : tokens s =
    match Lexer.Scan ⟨s, 0⟩ with
    | .token _ _ true _ => ([], .eos)
    | .token code text false l => prepend [⟨code, text⟩] (tokens l.rest)
    | .panic => ([], .panic)
    | .fatal => ([], .fatal) := by
  rw [tokens, Lexer.scans]
  cases h : Lexer.Scan ⟨s, 0⟩ with
  | panic | fatal => rfl
  | token code text eos l =>
    cases eos with
    | true => rfl
    | false =>
      have hlt : l.rest.length < s.length := scan_progress h
      show (_ :: (Lexer.scans s.length ⟨l.rest, l.past⟩).1, _) = _
      rw [show l = ⟨l.rest, l.past⟩ from rfl, scans_eq_tokens hlt]
      rfl

theorem tokens_token {code : TokenType} {text : Text} {l : Lexer}
    (h : Lexer.Scan ⟨s, 0⟩ = .token code text false l) :
    tokens s = prepend [⟨code, text⟩] (tokens l.rest) := by
  rw [tokens_eq, h]

/-- What is skipped leaves no token. -/
theorem tokens_congr {s' : Text} (h : Lexer.Scan ⟨s, 0⟩ = Lexer.Scan ⟨s', 0⟩) :
    tokens s = tokens s' := by
  rw [tokens_eq, h, ← tokens_eq]

end Tokens

end CalcLang.Lex
