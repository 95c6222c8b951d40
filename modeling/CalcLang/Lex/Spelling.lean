import CalcLang.Lex.Scan
import Mathlib.Tactic.FinCases

/-!
# Spelling tokens

A `Lexeme` is a token of one of the kinds in the token table, with its spelling.
`scan_spelling` is what `Scan` makes of one, whatever follows behind a blank or a
newline; `tokens_spell_iff` is the round trip for sequences of them.

The round trip has one gap. `|` is `TYPE_BIT_OR` in the table, but the branch of `Scan`
for it returns `TYPE_OR` for one as for two, so that no text is scanned to a
`TYPE_BIT_OR`, which `Parser.bitOp` waits for.
-/

namespace CalcLang.Lex

/-! ## What may follow -/

/-- The characters of a word behind its first. -/
def isWordChar (c : Char) : Bool := isLetterOrUnderscore c || isNum c

/-- Where the lexer is behind a token that it has read up to the first character that
is not of it: at the end of the text it has asked for one more. -/
def Lexer.behind (past : Nat) (r : Text) : Lexer := ⟨r, if r = [] then past + 1 else past⟩

/-- No word goes on here. -/
def EndsWord (r : Text) : Prop := ∀ c ∈ r.head?, isWordChar c = false

/-- No digit or point comes here. -/
def EndsDigits (r : Text) : Prop := ∀ c ∈ r.head?, (c = '.' || isNum c) = false

/-- No number goes on here, whatever it is. -/
def EndsNum (r : Text) : Prop := ∀ c ∈ r.head?, (c = '.' || isNum c) = false ∧ isLetter c = false

/-- Blanks and newlines, between which tokens stand. -/
def isSpace (c : Char) : Bool := isBlank c || c == '\n' || c == '\r'

/-- Every token ends here. -/
def Ends (r : Text) : Prop := ∀ c ∈ r.head?, isSpace c

section Characters

variable {c : Char}

private theorem isSpace_cases (h : isSpace c) : c = ' ' ∨ c = '\t' ∨ c = '\n' ∨ c = '\r' := by
  simpa [isSpace, isBlank, or_assoc] using h

theorem Ends.word {r : Text} (h : Ends r) : EndsWord r := by
  intro c hc
  rcases isSpace_cases (h c hc) with rfl | rfl | rfl | rfl <;> decide

theorem Ends.num {r : Text} (h : Ends r) : EndsNum r := by
  intro c hc
  rcases isSpace_cases (h c hc) with rfl | rfl | rfl | rfl <;> decide

/-- A mark is not made longer by what follows. -/
theorem Ends.mark {r : Text} (h : Ends r) {next : Char} (hnext : isSpace next = false) :
    r.head? ≠ some next := by
  intro hr
  rw [h next hr] at hnext
  cases hnext

theorem letter_not_blank (h : isLetterOrUnderscore c) : isBlank c = false := by
  rw [Bool.eq_false_iff]
  intro hb
  rcases (by simpa [isBlank] using hb : c = ' ' ∨ c = '\t') with rfl | rfl <;> cases h

theorem num_not_blank (h : isNum c) : isBlank c = false := by
  rw [Bool.eq_false_iff]
  intro hb
  rcases (by simpa [isBlank] using hb : c = ' ' ∨ c = '\t') with rfl | rfl <;> cases h

theorem num_not_letter (h : isNum c) : isLetterOrUnderscore c = false := by
  have h0 : ('0' : Char).toNat ≤ c.toNat ∧ c.toNat ≤ ('9' : Char).toNat := by
    simpa [isNum, Char.le_def, UInt32.le_iff_toNat_le] using h
  rw [Bool.eq_false_iff]
  intro hl
  have hcases : (('a' : Char).toNat ≤ c.toNat ∧ c.toNat ≤ ('z' : Char).toNat) ∨
      (('A' : Char).toNat ≤ c.toNat ∧ c.toNat ≤ ('Z' : Char).toNat) ∨ c = '_' := by
    simpa [isLetterOrUnderscore, isLetter, Char.le_def, UInt32.le_iff_toNat_le, or_assoc] using hl
  rcases hcases with hc | hc | rfl
  · have : ('a' : Char).toNat = 97 := rfl
    have : ('9' : Char).toNat = 57 := rfl
    omega
  · have : ('A' : Char).toNat = 65 := rfl
    have : ('9' : Char).toNat = 57 := rfl
    omega
  · cases h

end Characters

/-! ## The loops -/

section Loops

variable (past : Nat) {w r : Text}

theorem scanWord_append (hw : ∀ c ∈ w, isWordChar c) (hr : EndsWord r) :
    scanWord past (w ++ r) = (w, .behind past r) := by
  induction w with
  | nil =>
    cases r with
    | nil => rfl
    | cons c r =>
      have hc : (isLetterOrUnderscore c || isNum c) = false := hr c rfl
      show scanWord past (c :: r) = _
      rw [scanWord, hc]
      rfl
  | cons c w ih =>
    have hc : (isLetterOrUnderscore c || isNum c) = true := hw c List.mem_cons_self
    rw [List.cons_append, scanWord, ih fun c hc => hw c (List.mem_cons_of_mem _ hc), hc]
    rfl

theorem scanNum_append (hw : ∀ c ∈ w, c = '.' || isNum c) (hr : EndsDigits r) :
    scanNum past (w ++ r) = (w, .behind past r) := by
  induction w with
  | nil =>
    cases r with
    | nil => rfl
    | cons c r =>
      show scanNum past (c :: r) = _
      rw [scanNum, hr c rfl]
      rfl
  | cons c w ih =>
    rw [List.cons_append, scanNum, ih fun c hc => hw c (List.mem_cons_of_mem _ hc),
      hw c List.mem_cons_self]
    rfl

/-- The start of a token that no comment begins with. -/
theorem scan_cons {c : Char} {s : Text} (hb : isBlank c = false)
    (hc : c = '/' → s.head? ≠ some '/') : Lexer.Scan ⟨c :: s, past⟩ = scanToken past c s := by
  have hslash : (c = '/' && s.head? = some '/' : Bool) = false := by
    rw [Bool.eq_false_iff]
    intro h
    rw [Bool.and_eq_true, decide_eq_true_iff, decide_eq_true_iff] at h
    exact hc h.1 h.2
  show scanFrom past false (c :: s) = _
  rw [scanFrom, hb, hslash]
  rfl

/-- Blanks are skipped. -/
@[simp] theorem scan_blank {c : Char} {s : Text} (hb : isBlank c) :
    Lexer.Scan ⟨c :: s, past⟩ = Lexer.Scan ⟨s, past⟩ := by
  show scanFrom past false (c :: s) = scanFrom past false s
  rw [scanFrom, hb]
  rfl

theorem scanWord_all (hw : ∀ c ∈ w, isWordChar c) : scanWord past w = (w, ⟨[], past + 1⟩) := by
  have happend := scanWord_append past hw (r := []) (by rintro c ⟨⟩)
  rwa [List.append_nil] at happend

theorem scanNum_all (hw : ∀ c ∈ w, c = '.' || isNum c) : scanNum past w = (w, ⟨[], past + 1⟩) := by
  have happend := scanNum_append past hw (r := []) (by rintro c ⟨⟩)
  rwa [List.append_nil] at happend

theorem scanStr_closing (s : Text) : scanStr past ('"' :: s) = some ([], ⟨s, past⟩) := by
  rw [scanStr, if_pos rfl]
  · rintro ⟨⟩
  · rintro d s' ⟨⟩

/-- An ordinary character goes to the text. -/
theorem scanStr_plain {c : Char} (hc : c ≠ '"' ∧ c ≠ '\\') (s : Text) :
    scanStr past (c :: s) = (scanStr past s).map fun i => (c :: i.1, i.2) := by
  rw [scanStr, if_neg hc.1]
  · intro hslash
    exact absurd hslash hc.2
  · intro d s' hslash
    exact absurd hslash hc.2

theorem scanStr_escaped (c : Char) (s : Text) : scanStr past ('\\' :: c :: s) =
    (escape c).bind fun e => (scanStr past s).bind fun i => some (e :: i.1, i.2) := rfl

/-- In the last case of the loop no escape begins. -/
theorem ne_backslash {c : Char} {s : Text} (hend : c = '\\' → s = [] → False)
    (hescaped : ∀ d r, c = '\\' → s = d :: r → False) : c ≠ '\\' := by
  intro hc
  cases s with
  | nil => exact hend hc rfl
  | cons d r => exact hescaped d r hc rfl

end Loops

/-! ## Words -/

/-- A text that is scanned as a word. -/
structure Word where
  head : Char
  tail : Text
  head_ok : isLetterOrUnderscore head
  tail_ok : ∀ c ∈ tail, isWordChar c

def Word.text (w : Word) : Text := w.head :: w.tail

theorem scan_word (past : Nat) (w : Word) {r : Text} (hr : EndsWord r) :
    Lexer.Scan ⟨w.text ++ r, past⟩ =
      .token ((reserved.lookup w.text).getD .var) w.text false (.behind past r) := by
  have hslash : w.head = '/' → (w.tail ++ r).head? ≠ some '/' := by
    intro h
    have := w.head_ok
    rw [h] at this
    cases this
  have hquote : w.head ≠ '"' := by
    intro h
    have := w.head_ok
    rw [h] at this
    cases this
  show Lexer.Scan ⟨w.head :: (w.tail ++ r), past⟩ = _
  rw [scan_cons past (letter_not_blank w.head_ok) hslash, scanToken, if_neg hquote,
    if_pos w.head_ok, scanWord_append past w.tail_ok hr]
  rfl

/-- An identifier: a word that is not reserved. -/
structure Name extends Word where
  free : reserved.lookup toWord.text = none

theorem scan_name (past : Nat) (x : Name) {r : Text} (hr : EndsWord r) :
    Lexer.Scan ⟨x.text ++ r, past⟩ = .token .var x.text false (.behind past r) := by
  rw [scan_word past x.toWord hr, x.free]
  rfl

/-- The reserved words are words, and each has one code. -/
theorem reserved_word : ∀ w ∈ reserved, ∃ v : Word, v.text = w.1 ∧
    reserved.lookup w.1 = some w.2 := by
  have hall : reserved.all fun w => w.1.head?.any isLetterOrUnderscore && w.1.tail.all isWordChar
      && (reserved.lookup w.1 == some w.2) := by decide
  intro w hw
  have h := List.all_eq_true.mp hall w hw
  rw [Bool.and_eq_true, Bool.and_eq_true, beq_iff_eq, List.all_eq_true] at h
  obtain ⟨⟨hhead, htail⟩, hcode⟩ := h
  rw [Option.any_eq_true] at hhead
  obtain ⟨c, hc, hletter⟩ := hhead
  obtain ⟨_ | ⟨d, t⟩, code⟩ := w
  · cases hc
  · obtain rfl : d = c := Option.some.inj hc
    exact ⟨⟨d, t, hletter, htail⟩, rfl, hcode⟩

/-! ## Numbers -/

/-- A text of digits. -/
structure Numeral where
  head : Char
  tail : Text
  head_ok : isNum head
  tail_ok : ∀ c ∈ tail, isNum c

def Numeral.text (n : Numeral) : Text := n.head :: n.tail

/-- A number with the characters `w` behind its first digit. -/
theorem scan_digits (past : Nat) {c : Char} {w r : Text} (hc : isNum c)
    (hw : ∀ d ∈ w, d = '.' || isNum d) (hr : EndsNum r) :
    Lexer.Scan ⟨c :: w ++ r, past⟩ =
      .token (if w.contains '.' then .float else .int) (c :: w) false (.behind past r) := by
  have hslash : c = '/' → (w ++ r).head? ≠ some '/' := by
    rintro rfl
    cases hc
  have hquote : c ≠ '"' := by
    rintro rfl
    cases hc
  -- a digit, a point or what ends a number is none of the letters of a base
  have hbase : ((w ++ r).head?.any fun d => d = 'b' || d = 'o' || d = 'x') = false := by
    rw [Option.any_eq_false]
    intro d hd
    rw [Bool.eq_false_iff]
    intro hbase
    have hletter : isLetter d := by
      rcases (by simpa [or_assoc] using hbase : d = 'b' ∨ d = 'o' ∨ d = 'x') with rfl | rfl | rfl <;>
        rfl
    cases w with
    | nil =>
      rw [(hr d hd).2] at hletter
      cases hletter
    | cons e w =>
      obtain rfl : e = d := Option.some.inj hd
      rcases (by simpa using hw e List.mem_cons_self : e = '.' ∨ isNum e) with rfl | hnum
      · cases hletter
      · have hne := num_not_letter hnum
        rw [isLetterOrUnderscore, hletter] at hne
        cases hne
  rw [List.cons_append, scan_cons past (num_not_blank hc) hslash, scanToken, if_neg hquote,
    num_not_letter hc, if_neg Bool.false_ne_true, if_pos hc, scanNumber, hbase, Bool.and_false]
  simp only [Bool.false_eq_true, if_false]
  rw [scanNum_append past hw fun d hd => (hr d hd).1]
  rfl

theorem scan_numeral (past : Nat) (n : Numeral) {r : Text} (hr : EndsNum r) :
    Lexer.Scan ⟨n.text ++ r, past⟩ = .token .int n.text false (.behind past r) := by
  have hpoint : n.tail.contains '.' = false := by
    rw [Bool.eq_false_iff, ne_eq, List.contains_iff_mem]
    intro h
    cases n.tail_ok '.' h
  have hw : ∀ d ∈ n.tail, d = '.' || isNum d := fun d hd => by simp [n.tail_ok d hd]
  have h := scan_digits past n.head_ok hw hr
  rw [hpoint] at h
  exact h

/-- A decimal fraction. -/
theorem scan_fraction (past : Nat) (n m : Numeral) {r : Text} (hr : EndsNum r) :
    Lexer.Scan ⟨n.text ++ '.' :: m.text ++ r, past⟩ =
      .token .float (n.text ++ '.' :: m.text) false (.behind past r) := by
  have hpoint : (n.tail ++ '.' :: m.text).contains '.' = true := by
    rw [List.contains_iff_mem]
    exact List.mem_append_right _ List.mem_cons_self
  have hw : ∀ d ∈ n.tail ++ '.' :: m.text, d = '.' || isNum d := by
    intro d hd
    rcases List.mem_append.mp hd with hd | hd
    · simp [n.tail_ok d hd]
    · rcases List.mem_cons.mp hd with rfl | hd
      · rfl
      · rcases List.mem_cons.mp hd with rfl | hd
        · simp [m.head_ok]
        · simp [m.tail_ok d hd]
  have h := scan_digits past n.head_ok hw hr
  rw [hpoint] at h
  exact h

/-! ## Strings -/

/-- A character of a string as it is written: itself, or `e` behind a backslash. -/
inductive StrChar
  | plain (c : Char) (ok : c ≠ '"' ∧ c ≠ '\\')
  | escaped (e c : Char) (ok : escape e = some c)

def StrChar.char : StrChar → Char
  | plain c _ | escaped _ c _ => c

def StrChar.spelling : StrChar → Text
  | plain c _ => [c]
  | escaped e _ _ => ['\\', e]

theorem scanStr_spelling (past : Nat) (l : List StrChar) (r : Text) :
    scanStr past (l.flatMap StrChar.spelling ++ '"' :: r) = some (l.map StrChar.char, ⟨r, past⟩) := by
  induction l with
  | nil =>
    exact scanStr_closing past r
  | cons x l ih =>
    cases x with
    | plain c ok =>
      show scanStr past (c :: (l.flatMap StrChar.spelling ++ '"' :: r)) = _
      rw [scanStr_plain past ok, ih]
      rfl
    | escaped e c ok =>
      show scanStr past ('\\' :: e :: (l.flatMap StrChar.spelling ++ '"' :: r)) = _
      rw [scanStr_escaped, ok, ih]
      rfl

theorem scan_str (past : Nat) (l : List StrChar) (r : Text) :
    Lexer.Scan ⟨'"' :: l.flatMap StrChar.spelling ++ '"' :: r, past⟩ =
      .token .str (l.map StrChar.char) false ⟨r, past⟩ := by
  have hslash : '"' = '/' → (l.flatMap StrChar.spelling ++ '"' :: r).head? ≠ some '/' := (by rintro ⟨⟩)
  rw [List.cons_append, scan_cons past rfl hslash, scanToken, if_pos rfl, scanStr_spelling]

/-! ## Marks -/

/-- The newline, the operators and the punctuation marks of the token table. -/
def marks : List Token :=
  [⟨.nl, ['\n']⟩, ⟨.plus, ['+']⟩, ⟨.sub, ['-']⟩, ⟨.mul, ['*']⟩, ⟨.div, ['/']⟩, ⟨.lp, ['(']⟩,
    ⟨.rp, [')']⟩, ⟨.assign, ['=']⟩, ⟨.lb, ['\x7b']⟩, ⟨.rb, ['\x7d']⟩, ⟨.comma, [',']⟩,
    ⟨.and, ['&', '&']⟩, ⟨.or, ['|', '|']⟩, ⟨.eq, ['=', '=']⟩, ⟨.lg, ['>']⟩, ⟨.sm, ['<']⟩,
    ⟨.leq, ['>', '=']⟩, ⟨.seq, ['<', '=']⟩, ⟨.not, ['!']⟩, ⟨.neq, ['!', '=']⟩, ⟨.deas, [':', '=']⟩,
    ⟨.semi, [';']⟩, ⟨.colon, [':']⟩, ⟨.lsb, ['[']⟩, ⟨.rsb, [']']⟩, ⟨.esp, ['&']⟩, ⟨.dot, ['.']⟩,
    ⟨.ps, ['%']⟩, ⟨.shl, ['<', '<']⟩, ⟨.shr, ['>', '>']⟩, ⟨.bitOr, ['|']⟩, ⟨.bitXor, ['^']⟩]

/-- The code that `Scan` returns for a mark. -/
def scannedCode (code : TokenType) : TokenType := if code = .bitOr then .or else code

theorem scan_mark (past : Nat) {m : Token} (hm : m ∈ marks) {r : Text} (hr : Ends r) :
    Lexer.Scan ⟨m.text ++ r, past⟩ = .token (scannedCode m.code) m.text false ⟨r, past⟩ := by
  have heq : r.head? ≠ some '=' := hr.mark rfl
  have hand : r.head? ≠ some '&' := hr.mark rfl
  have hor : r.head? ≠ some '|' := hr.mark rfl
  have hlg : r.head? ≠ some '>' := hr.mark rfl
  have hsm : r.head? ≠ some '<' := hr.mark rfl
  have hdiv : r.head? ≠ some '/' := hr.mark rfl
  fin_cases hm <;>
    simp [Lexer.Scan, scanFrom, scanToken, scanSwitch, scanMark, scannedCode, isBlank,
      isLetterOrUnderscore, isLetter, isNum, heq, hand, hor, hlg, hsm, hdiv]

/-! ## Sequences -/

/-- A token of one of the kinds in the table. -/
inductive Lexeme
  | name (x : Name)
  | word (w : Text × TokenType) (h : w ∈ reserved)
  | int (n : Numeral)
  | float (n m : Numeral)
  | str (l : List StrChar)
  | mark (m : Token) (h : m ∈ marks)

/-- The code and the text of a token. -/
def Lexeme.token : Lexeme → Token
  | name x => ⟨.var, x.text⟩
  | word w _ => ⟨w.2, w.1⟩
  | int n => ⟨.int, n.text⟩
  | float n m => ⟨.float, n.text ++ '.' :: m.text⟩
  | str l => ⟨.str, l.map StrChar.char⟩
  | mark m _ => m

def Lexeme.spelling : Lexeme → Text
  | name x => x.text
  | word w _ => w.1
  | int n => n.text
  | float n m => n.text ++ '.' :: m.text
  | str l => '"' :: l.flatMap StrChar.spelling ++ ['"']
  | mark m _ => m.text

/-- A sequence of tokens, with single spaces in between. -/
def spell : List Lexeme → Text
  | [] => []
  | [w] => w.spelling
  | w :: ws => w.spelling ++ ' ' :: spell ws

/-- The token that `Scan` makes of a spelled one. -/
def Lexeme.scanned (w : Lexeme) : Token := ⟨scannedCode w.token.code, w.token.text⟩

/-- **One token**: `Scan` reads it and stops right behind it. -/
theorem scan_spelling (past : Nat) (w : Lexeme) {r : Text} (hr : Ends r) :
    ∃ p, (r ≠ [] → p = past) ∧ Lexer.Scan ⟨w.spelling ++ r, past⟩ =
      .token w.scanned.code w.scanned.text false ⟨r, p⟩ := by
  have hbehind : r ≠ [] → (if r = [] then past + 1 else past) = past := fun h => if_neg h
  cases w with
  | name x => exact ⟨_, hbehind, scan_name past x hr.word⟩
  | word w h =>
    obtain ⟨v, hv, hcode⟩ := reserved_word w h
    have hscan := scan_word past v hr.word
    rw [hv, hcode] at hscan
    have hnot : ∀ w ∈ reserved, scannedCode w.2 = w.2 := by decide
    refine ⟨_, hbehind, ?_⟩
    show Lexer.Scan ⟨w.1 ++ r, past⟩ = .token (scannedCode w.2) w.1 false _
    rw [hnot w h]
    exact hscan
  | int n => exact ⟨_, hbehind, scan_numeral past n hr.num⟩
  | float n m => exact ⟨_, hbehind, scan_fraction past n m hr.num⟩
  | str l =>
    refine ⟨past, fun _ => rfl, ?_⟩
    show Lexer.Scan ⟨'"' :: l.flatMap StrChar.spelling ++ ['"'] ++ r, past⟩ = _
    rw [List.append_assoc]
    exact scan_str past l r
  | mark m h => exact ⟨past, fun _ => rfl, scan_mark past h hr⟩

theorem Lexeme.spelling_length_pos (w : Lexeme) : 0 < w.spelling.length := by
  cases w with
  | word w h =>
    obtain ⟨v, hv, -⟩ := reserved_word w h
    show 0 < w.1.length
    rw [← hv]
    exact Nat.succ_pos _
  | mark m h =>
    have hall : ∀ m ∈ marks, 0 < m.text.length := by decide
    exact hall m h
  | _ => exact Nat.succ_pos _

theorem length_le_spell (ws : List Lexeme) : ws.length ≤ (spell ws).length := by
  induction ws with
  | nil => exact Nat.zero_le _
  | cons w ws ih =>
    have hw := w.spelling_length_pos
    cases ws with
    | nil => exact hw
    | cons v ws =>
      have hspell : spell (w :: v :: ws) = w.spelling ++ ' ' :: spell (v :: ws) := rfl
      have hlen : (' ' :: spell (v :: ws)).length = (spell (v :: ws)).length + 1 := rfl
      rw [hspell, List.length_append, hlen, List.length_cons]
      omega

/-- Scanning the spelling of a sequence, with enough calls. -/
theorem scans_spell (ws : List Lexeme) (past : Nat) {n : Nat} (hn : ws.length < n) :
    Lexer.scans n ⟨spell ws, past⟩ = (ws.map Lexeme.scanned, .eos) := by
  induction ws generalizing past n with
  | nil =>
    obtain ⟨n, rfl⟩ : ∃ m, n = m + 1 := ⟨n - 1, (Nat.sub_add_cancel hn).symm⟩
    rfl
  | cons w ws ih =>
    obtain ⟨n, rfl⟩ : ∃ m, n = m + 1 := ⟨n - 1, by rw [List.length_cons] at hn; omega⟩
    have hlt : ws.length < n := Nat.lt_of_succ_lt_succ hn
    cases ws with
    | nil =>
      obtain ⟨p, -, hscan⟩ := scan_spelling past w (r := []) (by intro c hc; cases hc)
      rw [List.append_nil] at hscan
      rw [spell, Lexer.scans, hscan]
      show ((_ :: (Lexer.scans n ⟨spell [], p⟩).1), (Lexer.scans n ⟨spell [], p⟩).2) = _
      rw [ih p hlt]
      rfl
    | cons v ws =>
      have hends : Ends (' ' :: spell (v :: ws)) := by
        intro c hc
        obtain rfl : ' ' = c := Option.some.inj hc
        rfl
      obtain ⟨p, -, hscan⟩ := scan_spelling past w hends
      obtain ⟨n, rfl⟩ : ∃ m, n = m + 1 := ⟨n - 1, by omega⟩
      have hspell : spell (w :: v :: ws) = w.spelling ++ ' ' :: spell (v :: ws) := rfl
      rw [hspell, Lexer.scans, hscan]
      -- the blank in front of the next token is skipped by its own call
      have hblank : Lexer.scans (n + 1) ⟨' ' :: spell (v :: ws), p⟩ =
          Lexer.scans (n + 1) ⟨spell (v :: ws), p⟩ := by
        rw [Lexer.scans, Lexer.scans, scan_blank p rfl]
      show ((_ :: (Lexer.scans (n + 1) ⟨' ' :: spell (v :: ws), p⟩).1),
        (Lexer.scans (n + 1) ⟨' ' :: spell (v :: ws), p⟩).2) = _
      rw [hblank, ih p hlt]
      rfl

/-- **Token sequences round-trip exactly if none of the tokens is a `TYPE_BIT_OR`.** -/
theorem tokens_spell_iff (ws : List Lexeme) :
    tokens (spell ws) = (ws.map Lexeme.token, .eos) ↔ ∀ w ∈ ws, w.token.code ≠ .bitOr := by
  have hscans : tokens (spell ws) = (ws.map Lexeme.scanned, .eos) :=
    scans_spell ws 0 (Nat.lt_succ_of_le (length_le_spell ws))
  have hone : ∀ w : Lexeme, w.scanned = w.token ↔ w.token.code ≠ .bitOr := by
    intro w
    rw [Lexeme.scanned, scannedCode]
    split
    · next h =>
      refine ⟨fun heq => ?_, fun hne => absurd h hne⟩
      rw [← heq]
      rintro ⟨⟩
    · next h => exact ⟨fun _ => h, fun _ => rfl⟩
  rw [hscans, Prod.mk.injEq, and_iff_left rfl, List.map_inj_left]
  exact forall₂_congr fun w _ => hone w

/-- A single `|` is not scanned to its own code. -/
theorem bit_or_scanned_as_or :
    tokens (spell [.mark ⟨.bitOr, ['|']⟩ (by decide)]) ≠
      ([.mark ⟨.bitOr, ['|']⟩ (by decide)].map Lexeme.token, .eos) := by
  decide

end CalcLang.Lex
