import CalcLang.Lex.Progress

/-!
# Layout

What blanks, carriage returns and comments do to the tokens of a text.

`Gets pre u post` follows the lexer through the text `pre ++ post` up to the call of
`Scan` (or the skipping inside of it) that is under way when it comes to `post`; `u`
is what it has begun to read. So a position is between tokens if `u` is empty, in a
comment if `u` is the beginning of one, and so on (`Between`, `InComment`, `InString`,
`AfterCR`, `Stopped`; in front of a newline there is nothing else: `place_cases`).

`layout_insignificant_iff` says when an edit of the layout leaves the tokens as they
were. Blanks between tokens always do. A comment in front of a newline does not: the
branch of `Scan` that skips comments goes on behind the newline, so the newline, which
statements end with, is lost.
-/

namespace CalcLang.Lex

/-! ## A token does not depend on what follows

Only on whether its first character goes on with it, which a blank or a newline never
does. -/

/-- To a token in front of them, the two texts are the same. -/
def Alike (r r' : Text) : Prop := r'.head? = r.head? ∨ ∃ c, r'.head? = some c ∧ isSpace c

section Local

variable {past p : Nat} {c d : Char} {s t r r' i : Text} {code two one : TokenType}

theorem Alike.refl (r : Text) : Alike r r := .inl rfl

theorem Alike.append (t : Text) (h : Alike r r') : Alike (t ++ r) (t ++ r') := by
  cases t with
  | nil => exact h
  | cons c t => exact .inl rfl

theorem Alike.not_head (h : Alike r r') (hd : isSpace d = false) (hr : r.head? ≠ some d) :
    r'.head? ≠ some d := by
  rcases h with h | ⟨c, hc, hspace⟩
  · rwa [h]
  · rw [hc]
    intro hcd
    obtain rfl := Option.some.inj hcd
    rw [hspace] at hd
    cases hd

theorem Alike.endsWord (h : Alike r r') (hr : EndsWord r) : EndsWord r' := by
  intro c hc
  rcases h with h | ⟨d, hd, hspace⟩
  · exact hr c (h ▸ hc)
  · obtain rfl : d = c := Option.some.inj (hd ▸ hc)
    exact (show Ends [d] from fun e he => Option.some.inj he ▸ hspace).word d rfl

theorem scanWord_spec (s : Text) : ∃ w r, s = w ++ r ∧ (∀ c ∈ w, isWordChar c) ∧ EndsWord r := by
  induction s with
  | nil => exact ⟨[], [], rfl, by simp, by intro c hc; cases hc⟩
  | cons c s ih =>
    by_cases hc : isWordChar c
    · obtain ⟨w, r, rfl, hw, hr⟩ := ih
      exact ⟨c :: w, r, rfl, List.forall_mem_cons.mpr ⟨hc, hw⟩, hr⟩
    · refine ⟨[], c :: s, rfl, by simp, fun d hd => ?_⟩
      obtain rfl : c = d := Option.some.inj hd
      exact Bool.eq_false_iff.mpr hc

theorem scanNum_spec (s : Text) :
    ∃ w r, s = w ++ r ∧ (∀ c ∈ w, c = '.' || isNum c) ∧ EndsDigits r := by
  induction s with
  | nil => exact ⟨[], [], rfl, by simp, by intro c hc; cases hc⟩
  | cons c s ih =>
    by_cases hc : (c = '.' || isNum c) = true
    · obtain ⟨w, r, rfl, hw, hr⟩ := ih
      exact ⟨c :: w, r, rfl, List.forall_mem_cons.mpr ⟨hc, hw⟩, hr⟩
    · refine ⟨[], c :: s, rfl, by simp, fun d hd => ?_⟩
      obtain rfl : c = d := Option.some.inj hd
      exact Bool.eq_false_iff.mpr hc

private theorem Alike.endsDigits (h : Alike r r') (hr : EndsDigits r) : EndsDigits r' := by
  intro c hc
  rcases h with h | ⟨d, hd, hspace⟩
  · exact hr c (h ▸ hc)
  · obtain rfl : d = c := Option.some.inj (hd ▸ hc)
    exact ((show Ends [d] from fun e he => Option.some.inj he ▸ hspace).num d rfl).1

private theorem scanWord_local {l : Lexer} (h : scanWord past (t ++ r) = (i, l)) (hl : l.rest = r)
    (hr : Alike r r') : i = t ∧ scanWord past (t ++ r') = (t, .behind past r') := by
  obtain ⟨w, q, heq, hw, hq⟩ := scanWord_spec (t ++ r)
  rw [heq, scanWord_append past hw hq] at h
  obtain ⟨rfl, rfl⟩ := Prod.mk.inj h
  obtain rfl : q = r := hl
  obtain rfl := List.append_cancel_right heq
  exact ⟨rfl, scanWord_append past hw (hr.endsWord hq)⟩

private theorem scanNum_local {l : Lexer} (h : scanNum past (t ++ r) = (i, l)) (hl : l.rest = r)
    (hr : Alike r r') : i = t ∧ scanNum past (t ++ r') = (t, .behind past r') := by
  obtain ⟨w, q, heq, hw, hq⟩ := scanNum_spec (t ++ r)
  rw [heq, scanNum_append past hw hq] at h
  obtain ⟨rfl, rfl⟩ := Prod.mk.inj h
  obtain rfl : q = r := hl
  obtain rfl := List.append_cancel_right heq
  exact ⟨rfl, scanNum_append past hw (hr.endsDigits hq)⟩

/-- The closed strings: the rest does not matter at all. -/
theorem scanStr_closed (h : scanStr past s = some (i, ⟨r, past⟩)) :
    ∃ t, s = t ++ r ∧ ∀ r', scanStr past (t ++ r') = some (i, ⟨r', past⟩) := by
  fun_induction scanStr past s generalizing i with
  | case1 | case2 =>
    have hpast : past + 1 = past := congrArg (fun j => j.2.past) (Option.some.inj h)
    omega
  | case3 c s ih =>
    rw [Option.bind_eq_bind, Option.bind_eq_some_iff] at h
    obtain ⟨e, he, h⟩ := h
    rw [Option.bind_eq_bind, Option.bind_eq_some_iff] at h
    obtain ⟨⟨j, l⟩, hj, h⟩ := h
    obtain ⟨rfl, rfl⟩ := Prod.mk.inj (Option.some.inj h)
    obtain ⟨t, rfl, ht⟩ := ih hj
    refine ⟨'\\' :: c :: t, rfl, fun r' => ?_⟩
    show scanStr past ('\\' :: c :: (t ++ r')) = _
    rw [scanStr_escaped, he, ht]
    rfl
  | case4 s h₁ h₂ =>
    obtain ⟨rfl, hl⟩ := Prod.mk.inj (Option.some.inj h)
    obtain ⟨rfl, -⟩ := Lexer.mk.inj hl
    exact ⟨['"'], rfl, scanStr_closing past⟩
  | case5 c s h₁ h₂ hc ih =>
    rw [Option.map_eq_some_iff] at h
    obtain ⟨⟨j, l⟩, hj, h⟩ := h
    obtain ⟨rfl, rfl⟩ := Prod.mk.inj h
    obtain ⟨t, rfl, ht⟩ := ih hj
    have hesc := ne_backslash h₁ h₂
    refine ⟨c :: t, rfl, fun r' => ?_⟩
    show scanStr past (c :: (t ++ r')) = _
    rw [scanStr_plain past ⟨hc, hesc⟩, ht]
    rfl

/-- What is left behind one character more is that character. -/
private theorem eq_singleton (hd : (t ++ r).head? = some d) (ht : (t ++ r).tail = r) : t = [d] := by
  cases t with
  | nil =>
    rw [List.nil_append] at hd ht
    have hlen := congrArg List.length ht
    rw [List.length_tail] at hlen
    cases r with
    | nil => cases hd
    | cons c r =>
      rw [List.length_cons] at hlen
      omega
  | cons c t =>
    obtain rfl : c = d := Option.some.inj hd
    rw [List.cons_append, List.tail_cons] at ht
    rw [List.append_left_eq_self.mp ht]

private theorem scanMark_local {text : Text} (hd : isSpace d = false) (hr : Alike r r')
    (h : scanMark past c d two one (t ++ r) = .token code text false ⟨r, p⟩) :
    scanMark past c d two one (t ++ r') = .token code text false ⟨r', p⟩ := by
  unfold scanMark at h
  split at h
  · next hhead =>
    obtain ⟨rfl, rfl, -, hl⟩ := Scanned.token.inj h
    obtain ⟨htail, rfl⟩ := Lexer.mk.inj hl
    obtain rfl := eq_singleton hhead htail
    exact if_pos rfl
  · next hhead =>
    obtain ⟨rfl, rfl, -, hl⟩ := Scanned.token.inj h
    obtain ⟨htail, rfl⟩ := Lexer.mk.inj hl
    obtain rfl := List.append_left_eq_self.mp htail
    exact if_neg (hr.not_head hd hhead)

private theorem scanSwitch_local {text : Text} (hr : Alike r r')
    (h : scanSwitch past c (t ++ r) = .token code text false ⟨r, p⟩) :
    scanSwitch past c (t ++ r') = .token code text false ⟨r', p⟩ := by
  -- a mark of one character
  have hone : ∀ {k : TokenType} {x : Text},
      Scanned.token k x false ⟨t ++ r, past⟩ = .token code text false ⟨r, p⟩ →
        Scanned.token k x false ⟨t ++ r', past⟩ = .token code text false ⟨r', p⟩ := by
    intro k x h
    obtain ⟨rfl, rfl, -, hl⟩ := Scanned.token.inj h
    obtain ⟨htail, rfl⟩ := Lexer.mk.inj hl
    obtain rfl := List.append_left_eq_self.mp htail
    rfl
  -- a mark that is made longer by `d`, and where it is not
  have htwo : ∀ {k : TokenType} {x : Text} {d : Char}, (t ++ r).head? = some d →
      Scanned.token k x false ⟨(t ++ r).tail, past⟩ = .token code text false ⟨r, p⟩ →
        (t ++ r').head? = some d ∧
          Scanned.token k x false ⟨(t ++ r').tail, past⟩ = .token code text false ⟨r', p⟩ := by
    intro k x d hd h
    obtain ⟨rfl, rfl, -, hl⟩ := Scanned.token.inj h
    obtain ⟨htail, rfl⟩ := Lexer.mk.inj hl
    obtain rfl := eq_singleton hd htail
    exact ⟨rfl, rfl⟩
  have hnot : ∀ {d : Char}, isSpace d = false → (t ++ r).head? ≠ some d → (t ++ r').head? ≠ some d :=
    fun hd hne => (hr.append t).not_head hd hne
  unfold scanSwitch at h ⊢
  split at h
  case h_9 =>
    split at h
    · next hd =>
      obtain ⟨hd', h'⟩ := htwo hd h
      exact (if_pos hd').trans h'
    · cases h
  case h_15 | h_16 =>
    split at h
    · next hd =>
      obtain ⟨hd', h'⟩ := htwo hd h
      exact (if_pos hd').trans h'
    · next hd => exact (if_neg (hnot rfl hd)).trans (scanMark_local rfl hr h)
  case h_25 => cases h
  all_goals first
    | exact hone h
    | exact scanMark_local rfl hr h

private theorem scanNumber_local {text : Text} (hr : Alike r r')
    (h : scanNumber past c (t ++ r) = .token code text false ⟨r, p⟩) :
    ∃ p', scanNumber past c (t ++ r') = .token code text false ⟨r', p'⟩ := by
  let base : Char → Bool := fun d => d = 'b' || d = 'o' || d = 'x'
  have hbase : ∀ d, isSpace d → base d = false := by
    intro d hd
    rw [Bool.eq_false_iff]
    intro hb
    rcases (by simpa [base, or_assoc] using hb : d = 'b' ∨ d = 'o' ∨ d = 'x') with rfl | rfl | rfl <;>
      cases hd
  unfold scanNumber at h ⊢
  obtain ⟨b, hb⟩ : ∃ b, (c = '0' && (t ++ r).head?.any base) = b := ⟨_, rfl⟩
  have hb' := hb
  rw [hb] at h
  cases b with
  | true =>
    -- a letter for the base, and digits behind it
    rw [Bool.and_eq_true, Option.any_eq_true] at hb
    obtain ⟨hzero, d, hd, hd'⟩ := hb
    obtain ⟨s, hs⟩ : ∃ s, t ++ r = d :: s := by
      cases hs : t ++ r with
      | nil =>
        rw [hs] at hd
        cases hd
      | cons e s =>
        rw [hs] at hd
        exact ⟨s, by rw [Option.some.inj hd]⟩
    rw [hs] at h
    obtain ⟨hcode, htext, -, hl⟩ := Scanned.token.inj h
    obtain ⟨w, q, rfl, hw, hq⟩ := scanNum_spec s
    have hscan := scanNum_append past hw hq
    obtain rfl : q = r := by
      have := congrArg Lexer.rest hl
      rwa [if_pos rfl, List.tail_cons, hscan] at this
    obtain rfl : t = d :: w := List.append_cancel_right (by rw [hs]; rfl)
    have hprefixed : (c = '0' && ((d :: w) ++ r').head?.any base) = true := by
      rw [Bool.and_eq_true]
      exact ⟨hzero, hd'⟩
    rw [hprefixed]
    simp only [if_true, List.cons_append, List.tail_cons, List.take_succ_cons, List.take_zero,
      scanNum_append past hw (hr.endsDigits hq)] at *
    rw [hscan] at hcode htext
    exact ⟨_, by rw [← hcode, ← htext]; rfl⟩
  | false =>
    have hfalse : (c = '0' && (t ++ r').head?.any base) = false := by
      rcases hr.append t with heq | ⟨d, hd, hspace⟩
      · rw [heq, hb']
      · rw [hd, Option.any_some, hbase d hspace, Bool.and_false]
    rw [hfalse]
    simp only [Bool.false_eq_true, if_false] at h ⊢
    obtain ⟨hcode, htext, -, hl⟩ := Scanned.token.inj h
    obtain ⟨hw, hw'⟩ := scanNum_local (i := (scanNum past (t ++ r)).1) rfl
      (congrArg Lexer.rest hl) hr
    rw [hw] at hcode htext
    rw [hw']
    exact ⟨_, by rw [hcode, htext]; rfl⟩

/-- **A token does not depend on what follows.** `p = past` says of a string that it is
closed. -/
theorem scanToken_local {text : Text} (hquote : c = '"' → p = past) (hr : Alike r r')
    (h : scanToken past c (t ++ r) = .token code text false ⟨r, p⟩) :
    ∃ p', (c = '"' → p' = past) ∧ scanToken past c (t ++ r') = .token code text false ⟨r', p'⟩ := by
  unfold scanToken at h ⊢
  split at h
  · next hc =>
    -- a string, by which `past` does not change
    obtain rfl := hquote hc
    split at h
    · next i hi =>
      obtain ⟨rfl, rfl, -, hl⟩ := Scanned.token.inj h
      obtain ⟨x, l⟩ := i
      obtain rfl : l = ⟨r, p⟩ := hl
      obtain ⟨t', heq, ht'⟩ := scanStr_closed hi
      obtain rfl := List.append_cancel_right heq
      refine ⟨p, fun _ => rfl, ?_⟩
      rw [if_pos hc, ht']
    · cases h
  · next hc =>
    rw [if_neg hc]
    split at h
    · next hletter =>
      rw [if_pos hletter]
      obtain ⟨rfl, rfl, -, hl⟩ := Scanned.token.inj h
      obtain ⟨hw, hw'⟩ := scanWord_local (i := (scanWord past (t ++ r)).1) rfl
        (congrArg Lexer.rest hl) hr
      rw [hw, hw']
      exact ⟨_, fun h => absurd h hc, rfl⟩
    · next hletter =>
      rw [if_neg hletter]
      split at h
      · next hnum =>
        rw [if_pos hnum]
        -- a number, which may look past its end
        obtain ⟨p', hp'⟩ := scanNumber_local hr h
        exact ⟨p', fun h => absurd h hc, hp'⟩
      · next hnum =>
        rw [if_neg hnum]
        exact ⟨p, fun h => absurd h hc, scanSwitch_local hr h⟩

end Local

/-! ## Following the lexer -/

/-- `Gets u post pre`: reading `pre ++ post`, the lexer comes to begin with `u`, of which
`post` is the continuation. A token in `pre` is one that is read to its end. -/
inductive Gets (u post : Text) : Text → Prop
  | here : Gets u post u
  | blank {c : Char} {pre : Text} (hc : isBlank c) (h : Gets u post pre) : Gets u post (c :: pre)
  | comment {t pre : Text} (ht : '\n' ∉ t) (h : Gets u post pre) :
    Gets u post ('/' :: '/' :: t ++ '\n' :: pre)
  | token {c : Char} {t pre text : Text} {code : TokenType} {p : Nat} (hb : isBlank c = false)
    (hslash : c = '/' → (t ++ (pre ++ post)).head? ≠ some '/') (hquote : c = '"' → p = 0)
    (htoken : scanToken 0 c (t ++ (pre ++ post)) = .token code text false ⟨pre ++ post, p⟩)
    (h : Gets u post pre) : Gets u post (c :: t ++ pre)

/-- The text of a string, with its closing quote still to come. -/
def openStr : Text → Bool
  | [] => true
  | ['\\'] => true
  | '\\' :: c :: s => (escape c).isSome && openStr s
  | c :: s => c ≠ '"' && openStr s

/-- Where the lexer is: between tokens, in a comment, in a string, behind a carriage
return, or nowhere any more, as it has given up before. -/
inductive Place
  | between | comment | string | cr | stopped

/-- What the lexer has begun to read at a place. -/
def Place.Begins : Place → Text → Prop
  | between, u => u = []
  | comment, u => ∃ t, '\n' ∉ t ∧ u = '/' :: '/' :: t
  | string, u => ∃ t, openStr t ∧ u = '"' :: t
  | cr, u => u = ['\r']
  | stopped, u => ∃ c t res, u = c :: t ∧ isBlank c = false ∧ (res = .panic ∨ res = .fatal) ∧
      ∀ post, scanToken 0 c (t ++ post) = res

/-- The lexer, reading `pre ++ post`, is at such a place when it comes to `post`. -/
def At (w : Place) (pre post : Text) : Prop := ∃ u, w.Begins u ∧ Gets u post pre

section Tokens

variable {u post post' pre : Text}

theorem tokens_blank {c : Char} {s : Text} (hc : isBlank c) : tokens (c :: s) = tokens s :=
  tokens_congr (scan_blank 0 hc)

theorem tokens_blanks {w s : Text} (hw : ∀ c ∈ w, isBlank c) : tokens (w ++ s) = tokens s := by
  induction w with
  | nil => rfl
  | cons c w ih =>
    rw [List.cons_append, tokens_blank (hw c List.mem_cons_self)]
    exact ih fun d hd => hw d (List.mem_cons_of_mem _ hd)

private theorem scanFrom_comment {t s : Text} (ht : '\n' ∉ t) :
    scanFrom 0 true (t ++ '\n' :: s) = scanFrom 0 false s := by
  induction t with
  | nil => rfl
  | cons c t ih =>
    obtain ⟨hc, ht⟩ := not_or.mp (mt List.mem_cons.mpr ht)
    have hne : (decide (c ≠ '\n') : Bool) = true := decide_eq_true (Ne.symm hc)
    rw [List.cons_append, scanFrom, if_pos rfl, hne]
    exact ih ht

/-- A comment is skipped, with the newline that ends it. -/
theorem tokens_comment {t s : Text} (ht : '\n' ∉ t) :
    tokens ('/' :: '/' :: t ++ '\n' :: s) = tokens s :=
  have hslash : '\n' ∉ '/' :: t := fun h => (List.mem_cons.mp h).elim (by rintro ⟨⟩) ht
  tokens_congr (scanFrom_comment hslash)

theorem Gets.suffix (h : Gets u post pre) : u <:+ pre := by
  induction h with
  | here => exact List.suffix_refl u
  | blank _ _ ih => exact ih.trans (List.suffix_cons _ _)
  | comment _ _ ih => exact (ih.trans (List.suffix_cons _ _)).trans (List.suffix_append _ _)
  | token _ _ _ _ _ ih => exact ih.trans (List.suffix_append _ _)

/-- The tokens up to `u` do not depend on `post`. -/
theorem Gets.tokens (h : Gets u post pre) :
    ∃ ts, ∀ post', Alike post post' → tokens (pre ++ post') = prepend ts (tokens (u ++ post')) := by
  induction h with
  | here => exact ⟨[], fun _ _ => rfl⟩
  | blank hc h ih =>
    obtain ⟨ts, ih⟩ := ih
    exact ⟨ts, fun post' hpost => (tokens_blank hc).trans (ih post' hpost)⟩
  | comment ht h ih =>
    obtain ⟨ts, ih⟩ := ih
    refine ⟨ts, fun post' hpost => ?_⟩
    rw [List.append_assoc]
    exact (tokens_comment ht).trans (ih post' hpost)
  | @token c t pre text code p hb hslash hquote htoken h ih =>
    obtain ⟨ts, ih⟩ := ih
    refine ⟨⟨code, text⟩ :: ts, fun post' hpost => ?_⟩
    have halike : Alike (pre ++ post) (pre ++ post') := hpost.append pre
    obtain ⟨p', -, hlocal⟩ := scanToken_local hquote halike htoken
    have hslash' : c = '/' → (t ++ (pre ++ post')).head? ≠ some '/' :=
      fun hc => (halike.append t).not_head rfl (hslash hc)
    have hscan : Lexer.Scan ⟨c :: t ++ pre ++ post', 0⟩ = .token code text false ⟨pre ++ post', p'⟩ := by
      rw [List.append_assoc, List.cons_append, scan_cons 0 hb hslash', hlocal]
    rw [tokens_token hscan, ih post' hpost]
    rfl

end Tokens

/-! ## In front of a newline -/

section Cases

variable {q : Text}

/-- A string is open, or closed, or has an unknown escape. -/
private theorem str_cases (s : Text) :
    openStr s ∨ (∃ t r i, s = t ++ r ∧ ∀ r', scanStr 0 (t ++ r') = some (i, ⟨r', 0⟩)) ∨
      ∀ r', scanStr 0 (s ++ r') = none := by
  fun_induction openStr s with
  | case1 | case2 => exact .inl rfl
  | case3 c s ih =>
    have hcons := fun r' => scanStr_escaped 0 c (s ++ r')
    cases he : escape c with
    | none => exact .inr (.inr fun r' => (hcons r').trans (by rw [he]; rfl))
    | some e =>
      rcases ih with ho | ⟨t, r, i, rfl, ht⟩ | hnone
      · exact .inl ho
      · refine .inr (.inl ⟨'\\' :: c :: t, r, e :: i, rfl, fun r' => ?_⟩)
        show scanStr 0 ('\\' :: c :: (t ++ r')) = _
        rw [scanStr_escaped, he, ht]
        rfl
      · exact .inr (.inr fun r' => (hcons r').trans (by rw [he, hnone]; rfl))
  | case4 c s h₁ h₂ ih =>
    have hesc := ne_backslash h₁ h₂
    by_cases hc : c = '"'
    · subst hc
      exact .inr (.inl ⟨['"'], s, [], rfl, scanStr_closing 0⟩)
    · have hstep := scanStr_plain 0 ⟨hc, hesc⟩
      rcases ih with ho | ⟨t, r, i, rfl, ht⟩ | hnone
      · refine .inl ?_
        rw [ho, Bool.and_true]
        exact decide_eq_true hc
      · refine .inr (.inl ⟨c :: t, r, c :: i, rfl, fun r' => ?_⟩)
        rw [List.cons_append, hstep, ht]
        rfl
      · exact .inr (.inr fun r' => by rw [List.cons_append, hstep, hnone]; rfl)

/-- Whether a token begins with a character depends on what follows for a carriage return
only. -/
private theorem scanSwitch_fatal {c : Char} {s : Text} (hc : c ≠ '\r')
    (h : scanSwitch 0 c s = .fatal) (s' : Text) : scanSwitch 0 c s' = .fatal := by
  have hmark : ∀ {c d : Char} {two one : TokenType}, scanMark 0 c d two one s ≠ .fatal := by
    intro c d two one
    unfold scanMark
    split <;> rintro ⟨⟩
  unfold scanSwitch at h ⊢
  split at h
  case h_25 => rfl
  case h_9 => exact absurd rfl hc
  case h_15 | h_16 =>
    split at h
    · cases h
    · exact absurd h hmark
  all_goals first
    | exact absurd h hmark
    | cases h

/-- A mark in front of a newline: it is read, it is a carriage return, or no token. -/
private theorem switch_cases (c : Char) (s : Text) :
    (∃ t r code text, s = t ++ r ∧
      scanSwitch 0 c (s ++ '\n' :: q) = .token code text false ⟨r ++ '\n' :: q, 0⟩) ∨
    (c = '\r' ∧ s = []) ∨ ∀ post, scanSwitch 0 c (s ++ post) = .fatal := by
  have hone : ∀ {k : TokenType} {x : Text}, ∃ t r code text, s = t ++ r ∧
      Scanned.token k x false ⟨s ++ '\n' :: q, 0⟩ = .token code text false ⟨r ++ '\n' :: q, 0⟩ :=
    fun {k x} => ⟨[], s, k, x, rfl, rfl⟩
  have htwo : ∀ {k : TokenType} {x : Text} {d : Char}, d ≠ '\n' →
      (s ++ '\n' :: q).head? = some d → ∃ t r code text, s = t ++ r ∧
        Scanned.token k x false ⟨(s ++ '\n' :: q).tail, 0⟩ =
          .token code text false ⟨r ++ '\n' :: q, 0⟩ := by
    intro k x d hd hhead
    cases s with
    | nil => exact absurd (Option.some.inj hhead).symm hd
    | cons e s => exact ⟨[e], s, k, x, rfl, rfl⟩
  have hmark : ∀ {two one : TokenType} {c d : Char}, d ≠ '\n' → ∃ t r code text, s = t ++ r ∧
      scanMark 0 c d two one (s ++ '\n' :: q) = .token code text false ⟨r ++ '\n' :: q, 0⟩ := by
    intro two one c d hd
    unfold scanMark
    split
    · next hhead => exact htwo hd hhead
    · exact hone
  by_cases hc : c = '\r'
  · subst hc
    cases s with
    | nil => exact .inr (.inl ⟨rfl, rfl⟩)
    | cons d s =>
      by_cases hd : some d = some '\n'
      · exact .inl ⟨[d], s, .nl, ['\n'], rfl, if_pos hd⟩
      · exact .inr (.inr fun _ => if_neg hd)
  by_cases hfatal : scanSwitch 0 c (s ++ '\n' :: q) = .fatal
  · exact .inr (.inr fun post => scanSwitch_fatal hc hfatal _)
  · refine .inl ?_
    obtain ⟨res, hres⟩ : ∃ res, scanSwitch 0 c (s ++ '\n' :: q) = res := ⟨_, rfl⟩
    rw [hres] at hfatal ⊢
    unfold scanSwitch at hres
    split at hres
    case h_9 => exact absurd rfl hc
    case h_15 | h_16 =>
      split at hres
      · next hd => exact hres ▸ htwo (by decide) hd
      · exact hres ▸ hmark (by decide)
    case h_25 => exact absurd hres.symm hfatal
    all_goals first
      | exact hres ▸ hone
      | exact hres ▸ hmark (by decide)

/-- A number in front of a newline. -/
private theorem number_cases (c : Char) (s : Text) : ∃ t r code text p, s = t ++ r ∧
    scanNumber 0 c (s ++ '\n' :: q) = .token code text false ⟨r ++ '\n' :: q, p⟩ := by
  have hdigits : ∀ s : Text, ∃ w r, s = w ++ r ∧
      scanNum 0 (s ++ '\n' :: q) = (w, ⟨r ++ '\n' :: q, 0⟩) := by
    intro s
    obtain ⟨w, r, rfl, hw, hr⟩ := scanNum_spec s
    have hends : EndsDigits (r ++ '\n' :: q) := by
      cases r with
      | nil => exact fun d hd => Option.some.inj hd ▸ rfl
      | cons d r => exact hr
    refine ⟨w, r, rfl, ?_⟩
    rw [List.append_assoc, scanNum_append 0 hw hends]
    cases r <;> rfl
  unfold scanNumber
  obtain ⟨b, hb⟩ : ∃ b, (c = '0' && (s ++ '\n' :: q).head?.any
      fun d => d = 'b' || d = 'o' || d = 'x') = b := ⟨_, rfl⟩
  rw [hb]
  cases b with
  | true =>
    cases s with
    | nil =>
      rw [Bool.and_eq_true] at hb
      cases hb.2
    | cons d s =>
      obtain ⟨w, r, rfl, hscan⟩ := hdigits s
      refine ⟨d :: w, r, if w.contains '.' then .float else .int, [c, d] ++ w, 0, rfl, ?_⟩
      simp only [if_true, List.cons_append, List.tail_cons, hscan, List.take_succ_cons,
        List.take_zero]
  | false =>
    obtain ⟨w, r, rfl, hscan⟩ := hdigits s
    refine ⟨w, r, if w.contains '.' then .float else .int, [c] ++ w, 0, rfl, ?_⟩
    simp only [Bool.false_eq_true, if_false, hscan]

/-- A token in front of a newline: it is read, or it is none. -/
private theorem token_cases (c : Char) (s : Text) :
    (∃ t r code text p, s = t ++ r ∧ (c = '"' → p = 0) ∧
      scanToken 0 c (s ++ '\n' :: q) = .token code text false ⟨r ++ '\n' :: q, p⟩) ∨
    (c = '"' ∧ openStr s) ∨ (c = '\r' ∧ s = []) ∨
      ∃ res, (res = .panic ∨ res = .fatal) ∧ ∀ post, scanToken 0 c (s ++ post) = res := by
  by_cases hc : c = '"'
  · rcases str_cases s with ho | ⟨t, r, i, rfl, ht⟩ | hnone
    · exact .inr (.inl ⟨hc, ho⟩)
    · refine .inl ⟨t, r, .str, i, 0, rfl, fun _ => rfl, ?_⟩
      rw [scanToken, if_pos hc, List.append_assoc, ht]
    · refine .inr (.inr (.inr ⟨.panic, .inl rfl, fun post => ?_⟩))
      rw [scanToken, if_pos hc, hnone]
  · by_cases hletter : isLetterOrUnderscore c
    · obtain ⟨w, r, rfl, hw, hr⟩ := scanWord_spec s
      have hends : EndsWord (r ++ '\n' :: q) := by
        cases r with
        | nil => exact fun d hd => Option.some.inj hd ▸ rfl
        | cons d r => exact hr
      have hscan := scanWord_append 0 hw hends
      refine .inl ⟨w, r, (reserved.lookup (c :: w)).getD .var, c :: w, 0, rfl,
        fun h => absurd h hc, ?_⟩
      rw [scanToken, if_neg hc, if_pos hletter, List.append_assoc, hscan]
      cases r <;> rfl
    · by_cases hnum : isNum c
      · obtain ⟨t, r, code, text, p, hs, hscan⟩ := number_cases (q := q) c s
        refine .inl ⟨t, r, code, text, p, hs, fun h => absurd h hc, ?_⟩
        rw [scanToken, if_neg hc, if_neg hletter, if_pos hnum, hscan]
      · have hswitch : ∀ r, scanToken 0 c r = scanSwitch 0 c r := by
          intro r
          rw [scanToken, if_neg hc, if_neg hletter, if_neg hnum]
        rcases switch_cases (q := q) c s with ⟨t, r, code, text, hs, hscan⟩ | hcr | hfatal
        · exact .inl ⟨t, r, code, text, 0, hs, fun _ => rfl, (hswitch _).trans hscan⟩
        · exact .inr (.inr (.inl hcr))
        · exact .inr (.inr (.inr ⟨.fatal, .inr rfl, fun post => (hswitch _).trans (hfatal post)⟩))

/-- **In front of a newline**, the lexer is at one of the places. -/
theorem place_cases (pre q : Text) : ∃ w, At w pre ('\n' :: q) := by
  -- a blank, a comment or a token in front leaves the place as it is
  induction hn : pre.length using Nat.strong_induction_on generalizing pre with
  | _ n ih =>
    subst hn
    cases pre with
    | nil => exact ⟨.between, [], rfl, .here⟩
    | cons c s =>
      by_cases hb : isBlank c
      · obtain ⟨w, u, hu, h⟩ := ih s.length (Nat.lt_succ_self _) s rfl
        exact ⟨w, u, hu, .blank hb h⟩
      rw [Bool.not_eq_true] at hb
      by_cases hslash : c = '/' ∧ (s ++ '\n' :: q).head? = some '/'
      · obtain ⟨rfl, hs⟩ := hslash
        obtain ⟨t, rfl⟩ : ∃ t, s = '/' :: t := by
          cases s with
          | nil => cases hs
          | cons d t => exact ⟨t, by rw [Option.some.inj hs]⟩
        by_cases hnl : '\n' ∈ t
        · obtain ⟨t, r, rfl, ht⟩ := List.eq_append_cons_of_mem hnl
          obtain ⟨w, u, hu, h⟩ := ih r.length (by simp only [List.length_cons, List.length_append]; omega) r rfl
          exact ⟨w, u, hu, .comment ht h⟩
        · exact ⟨.comment, _, ⟨t, hnl, rfl⟩, .here⟩
      have hslash' : c = '/' → (s ++ '\n' :: q).head? ≠ some '/' := fun hc hs => hslash ⟨hc, hs⟩
      rcases token_cases (q := q) c s with ⟨t, r, code, text, p, rfl, hp, hscan⟩ | ⟨rfl, ho⟩ |
        ⟨rfl, rfl⟩ | ⟨res, hres, hstop⟩
      · obtain ⟨w, u, hu, h⟩ := ih r.length (by simp only [List.length_cons, List.length_append]; omega) r rfl
        rw [List.append_assoc] at hscan hslash'
        exact ⟨w, u, hu, .token hb hslash' hp hscan h⟩
      · exact ⟨.string, _, ⟨s, ho, rfl⟩, .here⟩
      · exact ⟨.cr, _, rfl, .here⟩
      · exact ⟨.stopped, _, ⟨c, s, res, rfl, hb, hres, hstop⟩, .here⟩

end Cases

/-! ## Edits of the layout -/

/-- An edit at a position: blanks are inserted, the newline there is made a carriage
return and a newline, a blank `b` and a comment are inserted in front of it. -/
inductive Edit
  | blanks (w : Text)
  | crlf
  | comment (b : Char) (t : Text)

/-- The text with the edit. -/
def Edit.apply (pre post : Text) : Edit → Text
  | blanks w => pre ++ (w ++ post)
  | crlf => pre ++ '\r' :: post
  | comment b t => pre ++ b :: '/' :: '/' :: (t ++ post)

/-- Where it can be made. Blanks are inserted between tokens, the others are made in front
of a newline that is not in a string. -/
def Edit.Applies (pre post : Text) : Edit → Prop
  | blanks w => (∀ c ∈ w, isBlank c) ∧ At .between pre post
  | crlf => post.head? = some '\n' ∧ ¬ At .string pre post
  | comment b t => isBlank b ∧ '\n' ∉ t ∧ post.head? = some '\n' ∧ ¬ At .string pre post

/-- Where it leaves the tokens as they are. A second carriage return is no token, and a
comment in front of a newline takes it away - unless the newline ends a comment
anyway, or the lexer does not come there. -/
def Edit.Harmless (pre post : Text) : Edit → Prop
  | blanks _ => True
  | crlf => ¬ At .cr pre post
  | comment _ _ => At .comment pre post ∨ At .stopped pre post

section Edits

variable {w : Place} {pre post q s : Text}

/-- The tokens behind a place, before and after an edit there. -/
private theorem At.tokens_iff {post' : Text} (h : At w pre post) (halike : Alike post post') :
    ∃ u, w.Begins u ∧ (tokens (pre ++ post') = tokens (pre ++ post) ↔
      tokens (u ++ post') = tokens (u ++ post)) := by
  obtain ⟨u, hu, hgets⟩ := h
  obtain ⟨ts, hts⟩ := hgets.tokens
  refine ⟨u, hu, ?_⟩
  rw [hts post' halike, hts post (.refl post), prepend, prepend, Prod.mk.injEq, Prod.ext_iff,
    List.append_cancel_left_eq]

private theorem tokens_nl : tokens ('\n' :: q) = prepend [⟨.nl, ['\n']⟩] (tokens q) :=
  tokens_token (l := ⟨q, 0⟩) rfl

private theorem tokens_crlf : tokens ('\r' :: '\n' :: q) = prepend [⟨.nl, ['\n']⟩] (tokens q) :=
  tokens_token (l := ⟨q, 0⟩) rfl

/-- One token more is a difference. -/
private theorem prepend_ne {t : Token} {r : List Token × Ending} : r ≠ prepend [t] r := by
  intro h
  have hlen := congrArg (fun r => r.1.length) h
  rw [prepend, List.length_append, List.length_singleton] at hlen
  omega

/-- A carriage return without a newline. -/
private theorem tokens_cr {c : Char} (hc : c ≠ '\n') : tokens ('\r' :: c :: s) = ([], .fatal) := by
  have hscan : Lexer.Scan ⟨'\r' :: c :: s, 0⟩ = .fatal := by
    rw [scan_cons 0 rfl fun h => absurd h (by decide)]
    exact if_neg fun h => hc (Option.some.inj h)
  rw [tokens_eq, hscan]

private theorem tokens_stopped {c : Char} {t : Text} {res : Scanned} (hb : isBlank c = false)
    (hres : res = .panic ∨ res = .fatal) (hstop : ∀ post, scanToken 0 c (t ++ post) = res)
    (post post' : Text) : tokens (c :: t ++ post) = tokens (c :: t ++ post') := by
  have hslash : c ≠ '/' := by
    rintro rfl
    have htoken : scanToken 0 '/' (t ++ []) = .token .div ['/'] false ⟨t ++ [], 0⟩ := rfl
    rw [hstop] at htoken
    rcases hres with rfl | rfl <;> cases htoken
  have hscan : ∀ post, Lexer.Scan ⟨c :: t ++ post, 0⟩ = res := by
    intro post
    rw [List.cons_append, scan_cons 0 hb fun h => absurd h hslash, hstop]
  exact tokens_congr ((hscan post).trans (hscan post').symm)

private theorem crlf_harmless (h : At w pre ('\n' :: q)) (hw : w ≠ .string) :
    tokens (pre ++ '\r' :: '\n' :: q) = tokens (pre ++ '\n' :: q) ↔ w ≠ .cr := by
  have halike : Alike ('\n' :: q) ('\r' :: '\n' :: q) := .inr ⟨'\r', rfl, rfl⟩
  obtain ⟨u, hu, hiff⟩ := h.tokens_iff halike
  rw [hiff]
  cases w with
  | between =>
    obtain rfl : u = [] := hu
    exact iff_of_true (tokens_crlf.trans tokens_nl.symm) (by rintro ⟨⟩)
  | comment =>
    obtain ⟨t, ht, rfl⟩ := hu
    have htr : '\n' ∉ t ++ ['\r'] := by simpa using ht
    have hcr := tokens_comment (s := q) htr
    rw [List.cons_append, List.cons_append, List.append_assoc] at hcr
    exact iff_of_true (hcr.trans (tokens_comment ht).symm) (by rintro ⟨⟩)
  | string => exact absurd rfl hw
  | cr =>
    obtain rfl : u = ['\r'] := hu
    refine iff_of_false (fun heq => ?_) fun hne => hne rfl
    have hlen := congrArg (fun r => r.1.length)
      ((tokens_cr (by decide)).symm.trans (heq.trans tokens_crlf))
    cases hlen
  | stopped =>
    obtain ⟨c, t, res, rfl, hb, hres, hstop⟩ := hu
    exact iff_of_true (tokens_stopped hb hres hstop _ _) (by rintro ⟨⟩)

private theorem comment_harmless {b : Char} {t : Text} (hb : isBlank b) (ht : '\n' ∉ t)
    (h : At w pre ('\n' :: q)) (hw : w ≠ .string) :
    tokens (pre ++ b :: '/' :: '/' :: (t ++ '\n' :: q)) = tokens (pre ++ '\n' :: q) ↔
      w = .comment ∨ w = .stopped := by
  have hspace : isSpace b := by rw [isSpace, hb]; rfl
  have halike : Alike ('\n' :: q) (b :: '/' :: '/' :: (t ++ '\n' :: q)) := .inr ⟨b, rfl, hspace⟩
  obtain ⟨u, hu, hiff⟩ := h.tokens_iff halike
  rw [hiff]
  have hcomment : tokens (b :: '/' :: '/' :: (t ++ '\n' :: q)) = tokens q :=
    (tokens_blank hb).trans (tokens_comment ht)
  cases w with
  | between =>
    obtain rfl : u = [] := hu
    refine iff_of_false (fun heq => ?_) (by rintro (⟨⟨⟩⟩ | ⟨⟨⟩⟩))
    exact prepend_ne (hcomment.symm.trans (heq.trans tokens_nl))
  | comment =>
    obtain ⟨t', ht', rfl⟩ := hu
    have hlong : '\n' ∉ t' ++ b :: '/' :: '/' :: t := by
      rw [List.mem_append, not_or]
      refine ⟨ht', fun hmem => ?_⟩
      rcases List.mem_cons.mp hmem with rfl | hmem
      · cases hb
      · exact ht (by simpa using hmem)
    have hall := tokens_comment (s := q) hlong
    rw [List.cons_append, List.cons_append, List.append_assoc] at hall
    exact iff_of_true (hall.trans (tokens_comment ht').symm) (.inl rfl)
  | string => exact absurd rfl hw
  | cr =>
    obtain rfl : u = ['\r'] := hu
    refine iff_of_false (fun heq => ?_) (by rintro (⟨⟨⟩⟩ | ⟨⟨⟩⟩))
    have hne : b ≠ '\n' := by
      rintro rfl
      cases hb
    have hlen := congrArg (fun r => r.1.length)
      ((tokens_cr hne).symm.trans (heq.trans tokens_crlf))
    cases hlen
  | stopped =>
    obtain ⟨c, t', res, rfl, hb', hres, hstop⟩ := hu
    exact iff_of_true (tokens_stopped hb' hres hstop _ _) (.inr rfl)

/-- **Layout is insignificant exactly where an edit is harmless.** -/
theorem layout_insignificant_iff (pre post : Text) (e : Edit) (happ : e.Applies pre post) :
    tokens (e.apply pre post) = tokens (pre ++ post) ↔ e.Harmless pre post := by
  cases e with
  | blanks w =>
    obtain ⟨hw, hat⟩ := happ
    have halike : Alike post (w ++ post) := by
      cases w with
      | nil => exact .refl post
      | cons c w =>
        have hspace : isSpace c := by rw [isSpace, hw c List.mem_cons_self]; rfl
        exact .inr ⟨c, rfl, hspace⟩
    obtain ⟨u, rfl, hiff⟩ := hat.tokens_iff halike
    exact iff_of_true (hiff.mpr (tokens_blanks hw)) trivial
  | crlf =>
    obtain ⟨hhead, hstr⟩ := happ
    obtain ⟨q, rfl⟩ : ∃ q, post = '\n' :: q := List.head?_eq_some_iff.mp hhead
    obtain ⟨w, hat⟩ := place_cases pre q
    have hw : w ≠ .string := fun h => hstr (h ▸ hat)
    refine ⟨fun heq hcr => ?_, fun hcr => ?_⟩
    · exact (crlf_harmless hcr (by rintro ⟨⟩)).mp heq rfl
    · exact (crlf_harmless hat hw).mpr fun h => hcr (h ▸ hat)
  | comment b t =>
    obtain ⟨hb, ht, hhead, hstr⟩ := happ
    obtain ⟨q, rfl⟩ : ∃ q, post = '\n' :: q := List.head?_eq_some_iff.mp hhead
    obtain ⟨w, hat⟩ := place_cases pre q
    have hw : w ≠ .string := fun h => hstr (h ▸ hat)
    refine ⟨fun heq => ?_, fun h => ?_⟩
    · rcases (comment_harmless hb ht hat hw).mp heq with rfl | rfl
      · exact .inl hat
      · exact .inr hat
    · rcases h with h | h
      · exact (comment_harmless hb ht h (by rintro ⟨⟩)).mpr (.inl rfl)
      · exact (comment_harmless hb ht h (by rintro ⟨⟩)).mpr (.inr rfl)

/-- A comment at the end of the line `a`. -/
theorem layout_insignificant_iff_comment :
    tokens (Edit.apply ['a'] ['\n'] (.comment ' ' ['c'])) = tokens (['a'] ++ ['\n']) ↔
      (Edit.comment ' ' ['c']).Harmless ['a'] ['\n'] := by
  refine layout_insignificant_iff ['a'] ['\n'] (.comment ' ' ['c']) ⟨rfl, by decide, rfl, ?_⟩
  rintro ⟨u, ⟨t, -, rfl⟩, hgets⟩
  have hmem : '"' ∈ ['a'] := hgets.suffix.subset List.mem_cons_self
  revert hmem
  decide

/-- It takes the newline away. -/
theorem comment_takes_newline :
    tokens (Edit.apply ['a'] ['\n'] (.comment ' ' ['c'])) ≠ tokens (['a'] ++ ['\n']) := by
  decide

end Edits

end CalcLang.Lex
