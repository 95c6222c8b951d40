import CalcLang.Lex.Spelling

/-!
# String literals

What `Scan` makes of a text behind an opening quote. A text that is written between
quotes with the escapes of the language (`Encodes`) is read back as it was meant, and
the lexer stops behind the closing quote. The other half of what a reader of literals
should do is to refuse a literal that is not closed: `Scan` has the flag `end` for it,
but the `end` that `getCh` sets inside the loop is another variable, so that the flag
it returns is still the one of the opening quote.

`stringExact_iff` says which texts this concerns: the literal is not closed, and no
escape in it makes `Scan` panic before the text is over.
-/

namespace CalcLang.Lex

/-- The escapes: what stands behind the backslash, and the character that is meant. -/
def escapes : List (Char × Char) :=
  [('"', '"'), ('\'', '\''), ('\\', '\\'), ('t', '\t'), ('n', '\n'), ('r', '\r'), ('0', '\x00')]

/-- The text `s` is written as `q` between quotes. A newline may stand for itself. -/
inductive Encodes : Text → Text → Prop
  | nil : Encodes [] []
  | itself {c : Char} {s q : Text} (hc : c ≠ '"' ∧ c ≠ '\\') (h : Encodes s q) :
    Encodes (c :: s) (c :: q)
  | escaped {e c : Char} {s q : Text} (he : (e, c) ∈ escapes) (h : Encodes s q) :
    Encodes (c :: s) ('\\' :: e :: q)

/-- Behind an opening quote: there is a quote that no backslash escapes. -/
inductive Closed : Text → Prop
  | quote (s : Text) : Closed ('"' :: s)
  | plain {c : Char} {s : Text} (hc : c ≠ '\\') (h : Closed s) : Closed (c :: s)
  | escaped {c : Char} {s : Text} (h : Closed s) : Closed ('\\' :: c :: s)

/-- Behind an opening quote: there is an escape that is not in the table, and the literal
is not closed in front of it. -/
inductive Unsupported : Text → Prop
  | here {c : Char} {s : Text} (hc : c ∉ escapes.map Prod.fst) : Unsupported ('\\' :: c :: s)
  | plain {c : Char} {s : Text} (hc : c ≠ '"' ∧ c ≠ '\\') (h : Unsupported s) :
    Unsupported (c :: s)
  | escaped {c : Char} {s : Text} (h : Unsupported s) : Unsupported ('\\' :: c :: s)

/-- What `Scan` owes to the text `t` behind an opening quote: it decodes a literal and
stops right behind it, and it returns no string where none is closed. -/
structure StringExact (t : Text) : Prop where
  decodes : ∀ (s q r : Text) (past : Nat), Encodes s q → t = q ++ '"' :: r →
    Lexer.Scan ⟨'"' :: t, past⟩ = .token .str s false ⟨r, past⟩
  closed : ¬ Closed t → ∀ (past : Nat) (text : Text) (eos : Bool) (l : Lexer),
    Lexer.Scan ⟨'"' :: t, past⟩ ≠ .token .str text eos l

/-! ## The escapes of the loop -/

theorem escape_of_mem {e c : Char} (h : (e, c) ∈ escapes) : escape e = some c := by
  have hall : ∀ x ∈ escapes, escape x.1 = some x.2 := by decide
  exact hall (e, c) h

theorem escape_of_not_mem {e : Char} (h : e ∉ escapes.map Prod.fst) : escape e = none := by
  unfold escape
  split
  -- the characters of the `switch` are the ones of the table
  all_goals first
    | rfl
    | exact absurd (by decide) h

theorem escape_isSome {e : Char} (h : e ∈ escapes.map Prod.fst) : ∃ c, escape e = some c := by
  obtain ⟨x, hx, hfst⟩ := List.mem_map.mp h
  exact ⟨x.2, hfst ▸ escape_of_mem hx⟩

/-- A text between quotes, character by character. -/
theorem Encodes.spelling {s q : Text} (h : Encodes s q) :
    ∃ l : List StrChar, l.flatMap StrChar.spelling = q ∧ l.map StrChar.char = s := by
  induction h with
  | nil => exact ⟨[], rfl, rfl⟩
  | itself hc _ ih =>
    obtain ⟨l, hq, hs⟩ := ih
    exact ⟨.plain _ hc :: l, by rw [List.flatMap_cons, hq]; rfl, by rw [List.map_cons, hs]; rfl⟩
  | escaped he _ ih =>
    obtain ⟨l, hq, hs⟩ := ih
    exact ⟨.escaped _ _ (escape_of_mem he) :: l, by rw [List.flatMap_cons, hq]; rfl,
      by rw [List.map_cons, hs]; rfl⟩

/-! ## The loop -/

section Loop

variable (past : Nat) {t : Text}

theorem scan_quote (t : Text) : Lexer.Scan ⟨'"' :: t, past⟩ =
    (scanStr past t).elim .panic fun i => .token .str i.1 false i.2 := by
  have hslash : '"' = '/' → t.head? ≠ some '/' := by
    intro h
    cases h
  rw [scan_cons past rfl hslash, scanToken, if_pos rfl]
  cases scanStr past t <;> rfl

/-- The loop panics at an unsupported escape. -/
theorem Unsupported.panics (h : Unsupported t) : scanStr past t = none := by
  induction h with
  | here hc => rw [scanStr_escaped, escape_of_not_mem hc, Option.bind_none]
  | plain hc _ ih => rw [scanStr_plain past hc, ih, Option.map_none]
  | escaped _ ih =>
    rw [scanStr_escaped, ih]
    exact Option.bind_fun_none _

/-- Nothing else stops it: it comes to the end of the text and returns what it has. -/
theorem scanStr_unclosed (hopen : ¬ Closed t) (hknown : ¬ Unsupported t) :
    ∃ i, scanStr past t = some i := by
  fun_induction scanStr past t with
  | case1 | case2 => exact ⟨_, rfl⟩
  | case3 c s ih =>
    have hc : c ∈ escapes.map Prod.fst := by
      by_contra hc
      exact hknown (.here hc)
    obtain ⟨e, he⟩ := escape_isSome hc
    obtain ⟨i, hi⟩ := ih (fun h => hopen (.escaped h)) fun h => hknown (.escaped h)
    exact ⟨_, by rw [he, hi]; rfl⟩
  | case4 s => exact absurd (.quote s) hopen
  | case5 c s h₁ h₂ hc ih =>
    have hslash : c ≠ '\\' := by
      intro hslash
      cases s with
      | nil => exact h₁ hslash rfl
      | cons d s => exact h₂ d s hslash rfl
    obtain ⟨i, hi⟩ := ih (fun h => hopen (.plain hslash h)) fun h => hknown (.plain ⟨hc, hslash⟩ h)
    exact ⟨_, by rw [hi]; rfl⟩

end Loop

/-- **String literals are read exactly if they are closed, or stopped at an unsupported
escape.** -/
theorem stringExact_iff (t : Text) : StringExact t ↔ Closed t ∨ Unsupported t := by
  constructor
  · intro hexact
    by_contra hnot
    rw [not_or] at hnot
    obtain ⟨i, hi⟩ := scanStr_unclosed 0 hnot.1 hnot.2
    refine hexact.closed hnot.1 0 i.1 false i.2 ?_
    rw [scan_quote, hi]
    rfl
  · intro hmeets
    refine ⟨?_, ?_⟩
    · intro s q r past hq ht
      obtain ⟨l, hspell, hchars⟩ := hq.spelling
      rw [ht, ← hspell, ← hchars]
      exact scan_str past l r
    · intro hopen past text eos l
      have hpanic := (hmeets.resolve_left hopen).panics past
      rw [scan_quote, hpanic]
      show Scanned.panic ≠ .token .str text eos l
      intro h
      cases h

/-- A literal that is not closed is scanned as a string. -/
theorem unclosed_scanned_as_string : ¬ StringExact "abc".toList := by
  intro hexact
  have hopen : ¬ Closed "abc".toList := by
    intro h
    cases h with
    | plain _ h => cases h with
      | plain _ h => cases h with
        | plain _ h => cases h
  exact hexact.closed hopen 0 "abc".toList false ⟨[], 1⟩ (by decide)

end CalcLang.Lex
