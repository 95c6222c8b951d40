import CalcLang.Lex.Layout

/-!
# The lexer on a line

What `Scan` does in a line of which `Gets` says that it is read token by token up to `u`: it skips blanks up
to `u`, or it reads a token of the line (`Gets.next`). The codes of newlines and braces come from these
characters only, and no token ends in a blank.
-/

namespace CalcLang.Lex

variable {past p : Nat} {c d : Char} {s t r i u v w q : Text} {code : TokenType} {text : Text} {e : Bool} {l l' : Lexer}

/-! ## The position behind a token -/

section Past

theorem behind_past (hne : (Lexer.behind past r).rest ≠ []) : (Lexer.behind past r).past = past := by
  unfold Lexer.behind at hne ⊢
  exact if_neg hne

theorem scanWord_past (hne : (scanWord past s).2.rest ≠ []) : (scanWord past s).2.past = past := by
  obtain ⟨w, r, rfl, hw, hr⟩ := scanWord_spec s
  rw [scanWord_append past hw hr] at hne ⊢
  exact behind_past hne

theorem scanNum_past (hne : (scanNum past s).2.rest ≠ []) : (scanNum past s).2.past = past := by
  obtain ⟨w, r, rfl, hw, hr⟩ := scanNum_spec s
  rw [scanNum_append past hw hr] at hne ⊢
  exact behind_past hne

theorem scanStr_past {j : Text × Lexer} (h : scanStr past s = some j) (hne : j.2.rest ≠ []) :
    j.2.past = past := by
  fun_induction scanStr past s generalizing j with
  | case1 | case2 =>
    obtain rfl := Option.some.inj h
    exact absurd rfl hne
  | case3 c s ih =>
    rw [Option.bind_eq_bind, Option.bind_eq_some_iff] at h
    obtain ⟨e, -, h⟩ := h
    rw [Option.bind_eq_bind, Option.bind_eq_some_iff] at h
    obtain ⟨k, hk, h⟩ := h
    obtain rfl := Option.some.inj h
    exact ih (j := k) hk hne
  | case4 s h₁ h₂ =>
    obtain rfl := Option.some.inj h
    rfl
  | case5 c s h₁ h₂ hc ih =>
    rw [Option.map_eq_some_iff] at h
    obtain ⟨k, hk, rfl⟩ := h
    exact ih (j := k) hk hne

theorem scanMark_past {next : Char} {two one : TokenType}
    (h : scanMark past c next two one s = .token code text e l') : l'.past = past := by
  unfold scanMark at h
  split at h <;> (cases h; rfl)

theorem scanSwitch_past (h : scanSwitch past c s = .token code text e l') : l'.past = past := by
  unfold scanSwitch at h
  split at h
  all_goals first
    | exact scanMark_past h
    | (cases h; rfl)
    | cases h
    | (split at h
       · cases h
         rfl
       · first
         | exact scanMark_past h
         | cases h)

theorem scanToken_past (h : scanToken past c s = .token code text e l') (hne : l'.rest ≠ []) :
    l'.past = past := by
  unfold scanToken at h
  split at h
  · split at h
    · next j hj =>
      obtain ⟨-, -, -, rfl⟩ := Scanned.token.inj h
      exact scanStr_past hj hne
    · cases h
  · split at h
    · obtain ⟨-, -, -, rfl⟩ := Scanned.token.inj h
      exact scanWord_past hne
    · split at h
      · unfold scanNumber at h
        obtain ⟨-, -, -, rfl⟩ := Scanned.token.inj h
        exact scanNum_past hne
      · exact scanSwitch_past h

end Past

/-! ## The characters of a token -/

section Characters

/-- The last character is no blank. -/
def EndsInk (w : Text) : Prop := ∀ d ∈ w.getLast?, isBlank d = false

theorem endsInk_of_all {w : Text} (h : ∀ d ∈ w, isBlank d = false) : EndsInk w :=
  fun d hd => h d (List.mem_of_getLast? hd)

theorem EndsInk.append {f w : Text} (hw : EndsInk w) (hf : EndsInk f) : EndsInk (w ++ f) := by
  intro d hd
  rw [List.getLast?_append] at hd
  cases hlast : f.getLast? with
  | none =>
    rw [hlast] at hd
    exact hw d hd
  | some d' =>
    rw [hlast] at hd
    exact hf d (hlast.trans hd)

/-- Whatever stands in front of it. -/
theorem EndsInk.behind {w : Text} (hw : EndsInk w) (hne : w ≠ []) (b : Text) : EndsInk (b ++ w) := by
  intro d hd
  rw [List.getLast?_append, List.getLast?_eq_getLast_of_ne_nil hne] at hd
  exact hw d ((List.getLast?_eq_getLast_of_ne_nil hne).trans hd)

theorem endsInk_nil : EndsInk [] := by
  rintro d ⟨⟩

theorem wordChar_not_blank (h : isWordChar c) : isBlank c = false := by
  rcases Bool.or_eq_true_iff.mp h with h | h
  · exact letter_not_blank h
  · exact num_not_blank h

theorem digit_not_blank (h : (c = '.' || isNum c) = true) : isBlank c = false := by
  rcases Bool.or_eq_true_iff.mp h with h | h
  · rw [decide_eq_true_iff] at h
    rw [h]
    rfl
  · exact num_not_blank h

/-- A closed string ends in its quote. -/
theorem scanStr_quote (h : scanStr past s = some (i, ⟨r, past⟩)) : ∃ t, s = t ++ '"' :: r := by
  fun_induction scanStr past s generalizing i with
  | case1 | case2 =>
    have hpast : past + 1 = past := congrArg (fun j => j.2.past) (Option.some.inj h)
    omega
  | case3 c s ih =>
    rw [Option.bind_eq_bind, Option.bind_eq_some_iff] at h
    obtain ⟨e, -, h⟩ := h
    rw [Option.bind_eq_bind, Option.bind_eq_some_iff] at h
    obtain ⟨⟨j, l⟩, hj, h⟩ := h
    obtain ⟨rfl, rfl⟩ := Prod.mk.inj (Option.some.inj h)
    obtain ⟨t, rfl⟩ := ih hj
    exact ⟨'\\' :: c :: t, rfl⟩
  | case4 s h₁ h₂ =>
    obtain ⟨-, hl⟩ := Prod.mk.inj (Option.some.inj h)
    obtain ⟨rfl, -⟩ := Lexer.mk.inj hl
    exact ⟨[], rfl⟩
  | case5 c s h₁ h₂ hc ih =>
    rw [Option.map_eq_some_iff] at h
    obtain ⟨⟨j, l⟩, hj, h⟩ := h
    obtain ⟨rfl, rfl⟩ := Prod.mk.inj h
    obtain ⟨t, rfl⟩ := ih hj
    exact ⟨c :: t, rfl⟩

theorem scanMark_rest {next : Char} {two one : TokenType} (hnext : isBlank next = false)
    (h : scanMark past c next two one s = .token code text e l') :
    l'.rest = s ∨ ∃ d, s = d :: l'.rest ∧ isBlank d = false := by
  unfold scanMark at h
  split at h
  next hhead =>
    obtain ⟨-, -, -, rfl⟩ := Scanned.token.inj h
    cases s with
    | nil => cases hhead
    | cons d s => exact .inr ⟨d, rfl, Option.some.inj hhead ▸ hnext⟩
  next =>
    obtain ⟨-, -, -, rfl⟩ := Scanned.token.inj h
    exact .inl rfl

/-- A mark has one character more at most. -/
theorem scanSwitch_rest (h : scanSwitch past c s = .token code text e l') :
    l'.rest = s ∨ ∃ d, s = d :: l'.rest ∧ isBlank d = false := by
  have htail : ∀ {d : Char} {k : TokenType} {x : Text}, isBlank d = false → s.head? = some d →
      Scanned.token k x false ⟨s.tail, past⟩ = .token code text e l' →
      l'.rest = s ∨ ∃ d, s = d :: l'.rest ∧ isBlank d = false := by
    intro d k x hd hhead h
    obtain ⟨-, -, -, rfl⟩ := Scanned.token.inj h
    cases s with
    | nil => cases hhead
    | cons d' s => exact .inr ⟨d', rfl, Option.some.inj hhead ▸ hd⟩
  unfold scanSwitch at h
  split at h
  all_goals first
    | exact scanMark_rest rfl h
    | (obtain ⟨-, -, -, rfl⟩ := Scanned.token.inj h
       exact .inl rfl)
    | cases h
    | (split at h
       next hhead => exact htail rfl hhead h
       next =>
         first
         | exact scanMark_rest rfl h
         | cases h)

theorem scanNum_rest {w : Text} (h : (scanNum past (w ++ r)).2.rest = r) : ∀ d ∈ w, isBlank d = false := by
  obtain ⟨w', r', hs, hw, hr'⟩ := scanNum_spec (w ++ r)
  rw [hs, scanNum_append past hw hr'] at h
  obtain rfl : r' = r := h
  obtain rfl := List.append_cancel_right hs
  exact fun d hd => digit_not_blank (hw d hd)

theorem scanNumber_rest (h : scanNumber past c (t ++ r) = .token code text e l') (hl : l'.rest = r) :
    ∀ d ∈ t, isBlank d = false := by
  unfold scanNumber at h
  obtain ⟨b, hb⟩ : ∃ b, (c = '0' && (t ++ r).head?.any
      fun next => next = 'b' || next = 'o' || next = 'x') = b := ⟨_, rfl⟩
  rw [hb] at h
  obtain ⟨-, -, -, rfl⟩ := Scanned.token.inj h
  cases b with
  | false => exact scanNum_rest hl
  | true =>
    cases t with
    | nil => simp
    | cons d t =>
      have hd : isBlank d = false := by
        rw [Bool.and_eq_true] at hb
        rcases (by simpa [or_assoc] using hb.2 : d = 'b' ∨ d = 'o' ∨ d = 'x') with rfl | rfl | rfl <;> rfl
      exact List.forall_mem_cons.mpr ⟨hd, scanNum_rest hl⟩

/-- No token ends in a blank. -/
theorem scanToken_endsInk (hb : isBlank c = false)
    (h : scanToken past c (t ++ r) = .token code text false ⟨r, p⟩) (hr : r ≠ []) : EndsInk (c :: t) := by
  have hpast : p = past := scanToken_past h hr
  subst hpast
  unfold scanToken at h
  split at h
  · split at h
    · next j hj =>
      obtain ⟨-, -, -, hl⟩ := Scanned.token.inj h
      obtain ⟨x, l⟩ := j
      obtain rfl : l = ⟨r, p⟩ := hl
      obtain ⟨t', ht'⟩ := scanStr_quote hj
      rw [List.append_cons] at ht'
      obtain rfl := List.append_cancel_right ht'
      intro d hd
      rw [← List.cons_append, List.getLast?_concat] at hd
      obtain rfl := Option.some.inj hd
      rfl
    · cases h
  · split at h
    · obtain ⟨-, -, -, hl⟩ := Scanned.token.inj h
      obtain ⟨w, r', hs, hw, hr'⟩ := scanWord_spec (t ++ r)
      rw [hs, scanWord_append p hw hr'] at hl
      obtain rfl : r' = r := congrArg Lexer.rest hl
      obtain rfl := List.append_cancel_right hs
      exact endsInk_of_all (List.forall_mem_cons.mpr ⟨hb, fun d hd => wordChar_not_blank (hw d hd)⟩)
    · split at h
      · exact endsInk_of_all (List.forall_mem_cons.mpr ⟨hb, scanNumber_rest h rfl⟩)
      · rcases scanSwitch_rest h with hs | ⟨d, hs, hd⟩
        · obtain rfl : t = [] := List.append_left_eq_self.mp hs.symm
          exact endsInk_of_all (List.forall_mem_singleton.mpr hb)
        · obtain rfl : t = [d] := List.append_cancel_right hs
          exact endsInk_of_all (List.forall_mem_cons.mpr ⟨hb, List.forall_mem_singleton.mpr hd⟩)

end Characters

/-! ## Newlines and braces -/

section Codes

/-- Newlines and braces are marks. -/
theorem scanToken_switch (h : scanToken past c s = .token code text e l') (hcode : code ∈ [.nl, .lb, .rb]) :
    scanSwitch past c s = .token code text e l' := by
  unfold scanToken at h
  split at h
  · split at h
    · obtain ⟨rfl, -⟩ := Scanned.token.inj h
      exact absurd hcode (by decide)
    · cases h
  · split at h
    · have hall : ∀ w ∈ reserved, w.2 ∉ [.nl, .lb, .rb] := by decide
      have heq := (Scanned.token.inj h).1
      cases hw : reserved.lookup (c :: (scanWord past s).1) with
      | none =>
        rw [hw] at heq
        obtain rfl : TokenType.var = code := heq
        exact absurd hcode (by decide)
      | some k =>
        rw [hw] at heq
        obtain rfl : k = code := heq
        obtain ⟨l₁, l₂, hreserved, -⟩ := List.lookup_eq_some_iff.mp hw
        refine absurd hcode (hall (c :: (scanWord past s).1, k) ?_)
        rw [hreserved]
        exact List.mem_append_right _ List.mem_cons_self
    · split at h
      · unfold scanNumber at h
        have hnum : ∀ b : Bool, (if b then TokenType.float else .int) ∉ [.nl, .lb, .rb] := by decide
        obtain ⟨rfl, -⟩ := Scanned.token.inj h
        exact absurd hcode (hnum _)
      · exact h

theorem scanMark_code {next : Char} {two one : TokenType}
    (h : scanMark past c next two one s = .token code text e l') : code = two ∨ code = one := by
  unfold scanMark at h
  split at h
  · exact .inl (Scanned.token.inj h).1.symm
  · exact .inr (Scanned.token.inj h).1.symm

theorem scanToken_lb (h : scanToken past c s = .token .lb text e l') : c = '\x7b' := by
  have h := scanToken_switch h (by decide)
  unfold scanSwitch at h
  split at h
  all_goals first
    | rfl
    | cases h
    | exact absurd (scanMark_code h) (by decide)
    | (split at h
       · cases h
       · first
         | cases h
         | exact absurd (scanMark_code h) (by decide))

theorem scanToken_rb (h : scanToken past c s = .token .rb text e l') : c = '\x7d' := by
  have h := scanToken_switch h (by decide)
  unfold scanSwitch at h
  split at h
  all_goals first
    | rfl
    | cases h
    | exact absurd (scanMark_code h) (by decide)
    | (split at h
       · cases h
       · first
         | cases h
         | exact absurd (scanMark_code h) (by decide))

/-- A newline, or a carriage return with one. -/
theorem scanToken_nl (h : scanToken past c s = .token .nl text e l') : text = ['\n'] ∧
    (c = '\n' ∧ l' = ⟨s, past⟩ ∨ c = '\r' ∧ s = '\n' :: l'.rest) := by
  have h := scanToken_switch h (by decide)
  unfold scanSwitch at h
  split at h
  case h_8 =>
    cases h
    exact ⟨rfl, .inl ⟨rfl, rfl⟩⟩
  case h_9 =>
    split at h
    next hhead =>
      cases h
      refine ⟨rfl, .inr ⟨rfl, ?_⟩⟩
      cases s with
      | nil => cases hhead
      | cons d s => rw [Option.some.inj hhead]; rfl
    next => cases h
  all_goals first
    | cases h
    | exact absurd (scanMark_code h) (by decide)
    | (split at h
       · cases h
       · exact absurd (scanMark_code h) (by decide))

end Codes

/-! ## In a line -/

section Gets

/-- The rest of a line, from a place where a token may begin. -/
theorem Gets.next (h : Gets u ('\n' :: q) v) (hnl : '\n' ∉ v) : (∃ b, (∀ c ∈ b, isBlank c) ∧ v = b ++ u) ∨
    ∃ b t w code text, v = b ++ t ++ w ∧ Gets u ('\n' :: q) w ∧ t ≠ [] ∧ EndsInk t ∧ code ≠ .nl ∧
      (code = .lb → '\x7b' ∈ t) ∧ (code = .rb → '\x7d' ∈ t) ∧
      ∀ past, Lexer.Scan ⟨v ++ '\n' :: q, past⟩ = .token code text false ⟨w ++ '\n' :: q, past⟩ := by
  induction h with
  | here => exact .inl ⟨[], by simp, rfl⟩
  | @blank c v hc h ih =>
    rcases ih (fun hmem => hnl (List.mem_cons_of_mem _ hmem)) with ⟨b, hb, rfl⟩ |
      ⟨b, t, w, code, text, rfl, hw, hne, hink, hcode, hlb, hrb, hscan⟩
    · exact .inl ⟨c :: b, List.forall_mem_cons.mpr ⟨hc, hb⟩, rfl⟩
    · refine .inr ⟨c :: b, t, w, code, text, rfl, hw, hne, hink, hcode, hlb, hrb, fun past => ?_⟩
      exact (scan_blank past hc).trans (hscan past)
  | comment ht h ih => exact absurd (List.mem_append_right _ List.mem_cons_self) hnl
  | @token c t w text code p hb hslash hquote htoken h ih =>
    have hne : w ++ '\n' :: q ≠ [] := by simp
    refine .inr ⟨[], c :: t, w, code, text, rfl, h, List.cons_ne_nil _ _, scanToken_endsInk hb htoken hne, ?_, ?_, ?_, ?_⟩
    · rintro rfl
      rcases (scanToken_nl htoken).2 with ⟨rfl, -⟩ | ⟨-, hs⟩
      · exact hnl List.mem_cons_self
      · obtain rfl : t = ['\n'] := List.append_cancel_right hs
        exact hnl (List.mem_cons_of_mem _ List.mem_cons_self)
    · rintro rfl
      rw [scanToken_lb htoken]
      exact List.mem_cons_self
    · rintro rfl
      rw [scanToken_rb htoken]
      exact List.mem_cons_self
    · intro past
      obtain rfl : p = 0 := scanToken_past htoken hne
      have hscan : Lexer.Scan ⟨c :: t ++ w ++ '\n' :: q, 0⟩ = .token code text false ⟨w ++ '\n' :: q, 0⟩ := by
        rw [List.append_assoc, List.cons_append, scan_cons 0 hb hslash, htoken]
      have hshift : Lexer.Scan ⟨c :: t ++ w ++ '\n' :: q, past⟩ =
          (Lexer.Scan ⟨c :: t ++ w ++ '\n' :: q, 0⟩).shift past := scanFrom_shift past false _
      rw [hshift, hscan]
      rfl

/-- What the marks that begin with `=` and `>` have behind that. -/
theorem scanToken_second (hc : c = '=' ∨ c = '>')
    (h : scanToken 0 c (t ++ r) = .token code text false ⟨r, p⟩) : t = [] ∨ t = ['='] ∨ t = ['>'] := by
  have hswitch : scanSwitch 0 c (t ++ r) = .token code text false ⟨r, p⟩ := by
    rcases hc with rfl | rfl <;> exact h
  rcases scanSwitch_rest hswitch with hs | ⟨d, hs, -⟩
  · exact .inl (List.append_left_eq_self.mp hs.symm)
  · obtain rfl : t = [d] := List.append_cancel_right hs
    refine .inr ?_
    by_cases heq : d = '='
    · exact .inl (by rw [heq])
    by_cases hgt : d = '>'
    · exact .inr (by rw [hgt])
    -- any other character is left
    exfalso
    have hne : ∀ {x : Char}, d ≠ x → ¬ ([d] ++ r).head? = some x := fun hx h => hx (Option.some.inj h)
    have hrest : ([d] ++ r) = r := by
      rcases hc with rfl | rfl
      · have hmark : scanSwitch 0 '=' ([d] ++ r) = .token .assign ['='] false ⟨[d] ++ r, 0⟩ := if_neg (hne heq)
        exact (Lexer.mk.inj (Scanned.token.inj (hmark.symm.trans hswitch)).2.2.2).1
      · have hmark : scanSwitch 0 '>' ([d] ++ r) = .token .lg ['>'] false ⟨[d] ++ r, 0⟩ :=
          (if_neg (hne heq)).trans (if_neg (hne hgt))
        exact (Lexer.mk.inj (Scanned.token.inj (hmark.symm.trans hswitch)).2.2.2).1
    have hlen := congrArg List.length hrest
    simp at hlen

/-- A `>` may be taken off from a mark that begins with it, and then a `=` or another `>` is left. -/
theorem Gets.mark (h : Gets [] ('\n' :: q) v) :
    Gets [] ('\n' :: q) ('=' :: v) ∧ Gets [] ('\n' :: q) ('>' :: v) := by
  induction hn : v.length using Nat.strong_induction_on generalizing v with
  | _ n ih =>
    subst hn
    -- the first character may also be taken off again
    have hdrop : ∀ {d : Char} {w : Text}, d = '=' ∨ d = '>' → v = d :: w → Gets [] ('\n' :: q) w := by
      intro d w hd hv
      generalize hx : '\n' :: q = post at h ih ⊢
      cases h with
      | here => cases hv
      | blank hc _ =>
        obtain ⟨rfl, -⟩ := List.cons.inj hv
        rcases hd with rfl | rfl <;> cases hc
      | comment _ _ =>
        obtain ⟨rfl, -⟩ := List.cons.inj hv
        rcases hd with hd | hd <;> cases hd
      | @token c t pre text code p hb hslash hquote htoken h =>
        obtain ⟨rfl, rfl⟩ := List.cons.inj hv
        subst hx
        have hrest := ih pre.length (by simp only [List.length_cons, List.length_append]; omega) h rfl
        rcases scanToken_second hd htoken with rfl | rfl | rfl
        · exact h
        · exact hrest.1
        · exact hrest.2
    have hone : ∀ {c : Char}, c = '=' ∨ c = '>' → (v ++ '\n' :: q).head? ≠ some '=' →
        (v ++ '\n' :: q).head? ≠ some '>' → Gets [] ('\n' :: q) (c :: v) := by
      intro c hc heq hgt
      rcases hc with rfl | rfl
      · exact .token (t := []) rfl (by rintro ⟨⟩) (by rintro ⟨⟩) (if_neg heq) h
      · exact .token (t := []) rfl (by rintro ⟨⟩) (by rintro ⟨⟩) ((if_neg heq).trans (if_neg hgt)) h
    cases v with
    | nil => exact ⟨hone (.inl rfl) (by simp) (by simp), hone (.inr rfl) (by simp) (by simp)⟩
    | cons d w =>
      have hne : ∀ {x : Char}, d ≠ x → (d :: w ++ '\n' :: q).head? ≠ some x := fun hx h => hx (Option.some.inj h)
      by_cases heq : d = '='
      · have hw := hdrop (.inl heq) rfl
        subst heq
        exact ⟨.token (t := ['=']) rfl (by rintro ⟨⟩) (by rintro ⟨⟩) rfl hw,
          .token (t := ['=']) rfl (by rintro ⟨⟩) (by rintro ⟨⟩) rfl hw⟩
      by_cases hgt : d = '>'
      · have hw := hdrop (.inr hgt) rfl
        subst hgt
        refine ⟨.token (t := []) rfl (by rintro ⟨⟩) (by rintro ⟨⟩) rfl h,
          .token (t := ['>']) rfl (by rintro ⟨⟩) (by rintro ⟨⟩) rfl hw⟩
      · exact ⟨hone (.inl rfl) (hne heq) (hne hgt), hone (.inr rfl) (hne heq) (hne hgt)⟩

theorem Gets.behind_gt (h : Gets [] ('\n' :: q) v) (hv : v.dropWhile isBlank = '>' :: w) :
    Gets [] ('\n' :: q) w := by
  induction h with
  | here => cases hv
  | blank hc h ih => exact ih (by rwa [List.dropWhile_cons_of_pos hc] at hv)
  | comment ht h _ => cases (List.cons.inj hv).1
  | @token c t v code text p hb hslash hquote htoken h _ =>
    rw [List.cons_append, List.dropWhile_cons_of_neg (by rw [hb]; decide)] at hv
    obtain ⟨rfl, rfl⟩ := List.cons.inj hv
    rcases scanToken_second (.inr rfl) htoken with rfl | rfl | rfl
    · exact h
    · exact h.mark.1
    · exact h.mark.2

end Gets

/-! ## Where the line does not end between tokens -/

section Places

theorem openStr_length {j : Text × Lexer} (ho : openStr t) (h : scanStr past (t ++ '\n' :: q) = some j) :
    j.2.rest.length ≤ q.length := by
  fun_induction openStr t generalizing j with
  | case1 =>
    have hstep : scanStr past ([] ++ '\n' :: q) = (scanStr past q).map fun i => ('\n' :: i.1, i.2) := rfl
    rw [hstep, Option.map_eq_some_iff] at h
    obtain ⟨i, hi, rfl⟩ := h
    exact scanStr_length (i := i) hi
  | case2 => cases h
  | case3 c s ih =>
    rw [Bool.and_eq_true] at ho
    rw [List.cons_append, List.cons_append, scanStr_escaped, Option.bind_eq_some_iff] at h
    obtain ⟨e, -, h⟩ := h
    rw [Option.bind_eq_some_iff] at h
    obtain ⟨i, hi, h⟩ := h
    obtain rfl := Option.some.inj h
    exact ih (j := i) ho.2 hi
  | case4 c s h₁ h₂ ih =>
    rw [Bool.and_eq_true, decide_eq_true_iff] at ho
    have hesc := ne_backslash h₁ h₂
    rw [List.cons_append, scanStr_plain past ⟨ho.1, hesc⟩, Option.map_eq_some_iff] at h
    obtain ⟨i, hi, rfl⟩ := h
    exact ih (j := i) ho.2 hi

theorem scanFrom_comment_length (ht : '\n' ∉ t)
    (h : scanFrom past true (t ++ '\n' :: q) = .token code text e l') : l'.rest.length ≤ q.length := by
  induction t with
  | nil =>
    have hq : scanFrom past false q = .token code text e l' := h
    cases e with
    | true => rw [(scanFrom_progress hq).1 rfl]; exact Nat.zero_le _
    | false => exact Nat.le_of_lt ((scanFrom_progress hq).2 rfl)
  | cons c t ih =>
    obtain ⟨hc, ht⟩ := not_or.mp (mt List.mem_cons.mpr ht)
    have hne : (decide (c ≠ '\n') : Bool) = true := decide_eq_true (Ne.symm hc)
    rw [List.cons_append, scanFrom, if_pos rfl, hne] at h
    exact ih ht h

/-- What has begun there is a newline, or it takes the newline of the line with it. -/
theorem Place.Begins.scan {w : Place} (hu : w.Begins u) (hw : w ≠ .between)
    (h : Lexer.Scan ⟨u ++ '\n' :: q, past⟩ = .token code text e l') :
    u ≠ [] ∧ (code = .nl ∨ l'.rest.length ≤ q.length) := by
  cases w with
  | between => exact absurd rfl hw
  | comment =>
    obtain ⟨t, ht, rfl⟩ := hu
    have hslash : '\n' ∉ '/' :: t := fun h => (List.mem_cons.mp h).elim (by rintro ⟨⟩) ht
    exact ⟨List.cons_ne_nil _ _, .inr (scanFrom_comment_length hslash h)⟩
  | string =>
    obtain ⟨t, ht, rfl⟩ := hu
    refine ⟨List.cons_ne_nil _ _, .inr ?_⟩
    rw [List.cons_append, scan_cons past rfl (by rintro ⟨⟩)] at h
    unfold scanToken at h
    rw [if_pos rfl] at h
    split at h
    · next i hi =>
      obtain ⟨-, -, -, rfl⟩ := Scanned.token.inj h
      exact openStr_length ht hi
    · cases h
  | cr =>
    obtain rfl := hu
    have hscan : Lexer.Scan ⟨['\r'] ++ '\n' :: q, past⟩ = .token .nl ['\n'] false ⟨q, past⟩ := rfl
    rw [hscan] at h
    exact ⟨List.cons_ne_nil _ _, .inl (Scanned.token.inj h).1.symm⟩
  | stopped =>
    obtain ⟨c, t, res, rfl, hb, hres, hstop⟩ := hu
    have hslash : c = '/' → (t ++ '\n' :: q).head? ≠ some '/' := by
      rintro rfl
      have hdiv := hstop []
      rcases hres with rfl | rfl <;> cases hdiv
    have hscan : Lexer.Scan ⟨c :: t ++ '\n' :: q, 0⟩ = res := by
      rw [List.cons_append, scan_cons 0 hb hslash, hstop]
    have hshift : Lexer.Scan ⟨c :: t ++ '\n' :: q, past⟩ =
        (Lexer.Scan ⟨c :: t ++ '\n' :: q, 0⟩).shift past := scanFrom_shift past false _
    rw [hshift, hscan] at h
    rcases hres with rfl | rfl <;> cases h

end Places

end CalcLang.Lex
