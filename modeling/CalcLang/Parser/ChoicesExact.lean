import CalcLang.Parser.Termination

/-!
# What the ordered choices accept

An alternative that returns an error has left a trace if the lexer is not where the choice began. At the
end of the text that is always so, because `ScanType` does not rewind there. Elsewhere a trace is left
just by a `struct` or an `interface` without a brace (`TypeWhole`), by an `if` behind an `else` without a
condition or a block (`BrokenIf`), and by an import section that is broken off (`BrokenImports`).

Where no trace is left, a choice accepts what one of its alternatives accepts.
-/

namespace CalcLang.Parser

open CalcLang.Lex CalcLang.Lib Back

variable {p : Parser} {r : Rec} {c code : TokenType} {t : Text} {e : Bool} {l l' l₁ l₂ : Lexer} {n : Nat}

/-! ## The end of the text -/

theorem scan_eos_past (h : l.Scan = .token c t true l') : l'.past = l.past + 1 := by
  have hfrom : ∀ (s : Text) (comment : Bool), scanFrom l.past comment s = .token c t true l' →
      l'.past = l.past + 1 := by
    intro s
    induction s with
    | nil =>
      intro comment h
      obtain ⟨-, -, -, rfl⟩ := Scanned.token.inj h
      rfl
    | cons d s ih =>
      intro comment h
      rw [scanFrom] at h
      split at h
      · exact ih _ h
      · split at h
        · exact ih _ h
        · split at h
          · exact ih _ h
          · have hwithin : (scanToken l.past d s).Within s.length := scanToken_within d
            rw [h] at hwithin
            cases hwithin.1
  exact hfrom l.rest false h

/-- At the end of the text a token that is looked for leaves a trace. -/
theorem atEnd_errs (h : AtEnd l) (hlg : code ≠ .lg) (hint : code ∉ [.int, .minusOne]) :
    ∃ l', (scanType code).Errs l l' ∧ l' ≠ l := by
  obtain ⟨c, t, l', h⟩ := h
  have hc : c ≠ code := by
    rintro rfl
    rcases scan_eos_code h with rfl | rfl <;> exact hint (by decide)
  refine ⟨l', (scanType_errs hlg).mpr ⟨c, t, true, l', h, hc, rfl⟩, ?_⟩
  rintro rfl
  have hpast := scan_eos_past h
  omega

theorem Stays.eq_of_not_atEnd (h : Stays l l') (hend : ¬ AtEnd l) : l = l' := by
  rcases h with rfl | ⟨-, hscan⟩
  · rfl
  · exact absurd hscan hend

/-- No trace is left just if the text is not at its end and no token is passed. -/
theorem untraced_iff {α : Type} {y : P α} {ys : List (P α)} {whole : Prop}
    (hend : AtEnd l → ∃ l', y.Errs l l' ∧ l' ≠ l) (hwhole : (∀ x ∈ y :: ys, Untraced Stays x l) ↔ whole) :
    (∀ x ∈ y :: ys, Untraced Eq x l) ↔ ¬ AtEnd l ∧ whole := by
  refine ⟨?_, ?_⟩
  · intro h
    refine ⟨fun hatEnd => ?_, hwhole.mp fun x hx l' herrs => .inl (h x hx l' herrs).symm⟩
    obtain ⟨l', herrs, hne⟩ := hend hatEnd
    exact hne (h y List.mem_cons_self l' herrs).symm
  · rintro ⟨hatEnd, h⟩ x hx l' herrs
    exact (hwhole.mpr h x hx l' herrs).eq_of_not_atEnd hatEnd

/-! ## Another `if`, or a block -/

section Else

theorem statementList_neverErrs (hr : r.allexp.NeverErrs) : (p.statementList r).NeverErrs := by
  refine NeverErrs.bind (NeverErrs.iterate (fun children => ?_) _ _) fun _ => NeverErrs.pure _
  refine NeverErrs.bind (statement_neverErrs hr) fun n => NeverErrs.bind NeverErrs.here fun ch => ?_
  refine NeverErrs.bind scan_neverErrs fun tok => NeverErrs.bind (NeverErrs.goback _) fun _ => ?_
  split <;> exact NeverErrs.pure _

theorem depth_statementList_neverErrs (p : Parser) : ∀ n, (p.depth n).statementList.NeverErrs
  | 0 => NeverErrs.out
  | n + 1 => statementList_neverErrs (depth_allexp_neverErrs p n)

/-- A block ends in front of a brace. -/
theorem statementList_accepts {st : Node} (h : (p.statementList r).Accepts l st l') :
    ∃ l₁, Stands l' .rb l₁ := by
  obtain ⟨children, l₁, hloop, h⟩ := bind_accepts h
  obtain ⟨-, rfl⟩ := Result.ok.inj h
  obtain ⟨before, l₀, hturn⟩ := iterate_accepts hloop
  obtain ⟨n, l₂, -, hturn⟩ := bind_accepts hturn
  obtain ⟨ch, l₃, hhere, hturn⟩ := bind_accepts hturn
  obtain ⟨⟨c, t, e⟩, l₄, hscan, hturn⟩ := bind_accepts hturn
  obtain ⟨u, l₅, hgoback, hturn⟩ := bind_accepts hturn
  obtain ⟨rfl, rfl⟩ := Result.ok.inj hhere
  obtain ⟨-, rfl⟩ := Result.ok.inj hgoback
  split at hturn
  next hc =>
    obtain ⟨-, rfl⟩ := Result.ok.inj hturn
    have hscan := scan_accepts hscan
    subst hc
    cases e with
    | false => exact ⟨l₄, t, hscan⟩
    | true => rcases scan_eos_code hscan with h | h <;> cases h
  next => cases (Result.ok.inj hturn).1

theorem depth_statementList_accepts {st : Node} (h : (p.depth n).statementList.Accepts l st l') :
    ∃ l₁, Stands l' .rb l₁ := by
  cases n with
  | zero => cases h
  | succ n => exact statementList_accepts h

theorem statementBlock_errs :
    (statementBlock (p.depth n)).Errs l l' ↔ (scanType .lb).Errs l l' := by
  refine ⟨?_, Errs.bind⟩
  intro h
  rcases bind_errs h with h | ⟨t, l₁, -, h⟩
  · exact h
  rcases bind_errs h with h | ⟨st, l₂, hlist, h⟩
  · exact absurd h (depth_statementList_neverErrs p n l₁ l')
  rcases bind_errs h with h | ⟨t', l₃, -, h⟩
  · obtain ⟨l₃, t', hrb⟩ := depth_statementList_accepts hlist
    obtain ⟨c, t'', e, l₄, hscan, hc, -⟩ := (scanType_errs (by decide)).mp h
    exact absurd (Scanned.token.inj (hrb.symm.trans hscan)).1.symm hc
  · obtain ⟨e, he⟩ := h
    cases he

/-- An `if` that is broken off, and where the lexer is left: without a condition, without a block, or
with an `else` behind which there is neither another `if` as it should be nor a block. -/
inductive BrokenIf (p : Parser) : Nat → Lexer → Lexer → Prop
  | cond {n : Nat} {l l₁ l' : Lexer} : Stands l .resIf l₁ → (p.boolexp (p.depth n)).Errs l₁ l' →
      BrokenIf p n l l'
  | block {n : Nat} {l l₁ l₂ l' : Lexer} {be : Node} : Stands l .resIf l₁ →
      (p.boolexp (p.depth n)).Accepts l₁ be l₂ → (scanType .lb).Errs l₂ l' → BrokenIf p n l l'
  | els {n : Nat} {l l₁ l₂ l₃ l₄ l₅ l' : Lexer} {be st : Node} : Stands l .resIf l₁ →
      (p.boolexp (p.depth (n + 1))).Accepts l₁ be l₂ →
      (statementBlock (p.depth (n + 1))).Accepts l₂ st l₃ → Stands l₃ .resEl l₄ →
      (scanType .resIf).Errs l₄ l₅ → (scanType .lb).Errs l₅ l' → BrokenIf p (n + 1) l l'
  | elsIf {n : Nat} {l l₁ l₂ l₃ l₄ l₅ l' : Lexer} {be st : Node} : Stands l .resIf l₁ →
      (p.boolexp (p.depth (n + 1))).Accepts l₁ be l₂ →
      (statementBlock (p.depth (n + 1))).Accepts l₂ st l₃ → Stands l₃ .resEl l₄ →
      BrokenIf p n l₄ l₅ → (scanType .lb).Errs l₅ l' → BrokenIf p (n + 1) l l'

theorem sees_accepts {b : Bool} (hlg : code ≠ .lg) (hint : code ∉ [.int, .minusOne])
    (h : (sees code).Accepts l b l') : if b then Stands l code l' else (scanType code).Errs l l' := by
  obtain ⟨a, l₁, ha, h⟩ := bind_accepts h
  rcases attempt_accepts.mp ha with ⟨t, rfl, ht⟩ | ⟨e, rfl, he⟩
  · obtain ⟨rfl, rfl⟩ := Result.ok.inj h
    exact stands_of_accepts hlg hint ht
  · obtain ⟨rfl, rfl⟩ := Result.ok.inj h
    exact ⟨e, he⟩

theorem Stands.accepts (h : Stands l code l') (hlg : code ≠ .lg) : ∃ t, (scanType code).Accepts l t l' :=
  h.imp fun _ ht => (scanType_accepts hlg).mpr ⟨false, ht⟩

theorem Stands.found (h : Stands l code l') (hlg : code ≠ .lg) : (sees code).Accepts l true l' := by
  obtain ⟨t, ht⟩ := h.accepts hlg
  exact Accepts.bind (attempt_accepts.mpr (.inl ⟨t, rfl, ht⟩)) rfl

/-- Where an error of an `if` comes from. -/
theorem ifstatement_errs_iff : (p.ifstatement r).Errs l l' ↔ (scanType .resIf).Errs l l' ∨
    ∃ l₁, Stands l .resIf l₁ ∧ ((p.boolexp r).Errs l₁ l' ∨
      ∃ be l₂, (p.boolexp r).Accepts l₁ be l₂ ∧ ((statementBlock r).Errs l₂ l' ∨
        ∃ st l₃ l₄, (statementBlock r).Accepts l₂ st l₃ ∧ Stands l₃ .resEl l₄ ∧
          (r.ifstatement <|> statementBlock r).Errs l₄ l')) := by
  refine ⟨?_, ?_⟩
  · intro h
    rcases bind_errs h with h | ⟨t, l₁, hif, h⟩
    · exact .inl h
    refine .inr ⟨l₁, stands_of_accepts (by decide) (by decide) hif, ?_⟩
    rcases bind_errs h with h | ⟨be, l₂, hbe, h⟩
    · exact .inl h
    refine .inr ⟨be, l₂, hbe, ?_⟩
    rcases bind_errs h with h | ⟨st, l₃, hst, h⟩
    · exact .inl h
    rcases bind_errs h with h | ⟨b, l₄, hb, h⟩
    · exact absurd h (sees_neverErrs _ l₃ l')
    have hel := sees_accepts (by decide) (by decide) hb
    cases b with
    | false =>
      obtain ⟨e, he⟩ := h
      cases he
    | true =>
      refine .inr ⟨st, l₃, l₄, hst, hel, ?_⟩
      rcases bind_errs h with h | ⟨_, _, -, e, he⟩
      · exact h
      · cases he
  · rintro (h | ⟨l₁, hif, h⟩)
    · exact h.bind
    obtain ⟨t, hif⟩ := hif.accepts (by decide)
    refine Errs.after hif ?_
    rcases h with h | ⟨be, l₂, hbe, h⟩
    · exact h.bind
    refine Errs.after hbe ?_
    rcases h with h | ⟨st, l₃, l₄, hst, hel, h⟩
    · exact h.bind
    · exact Errs.after hst (Errs.after (hel.found (by decide)) h.bind)

theorem ifstatement_errs : (p.ifstatement (p.depth n)).Errs l l' ↔
    (scanType .resIf).Errs l l' ∨ BrokenIf p n l l' := by
  induction n generalizing l l' with
  | zero =>
    rw [ifstatement_errs_iff]
    refine or_congr_right ⟨?_, ?_⟩
    · rintro ⟨l₁, hif, h | ⟨be, l₂, hbe, h | ⟨st, l₃, l₄, -, -, h⟩⟩⟩
      · exact .cond hif h
      · exact .block hif hbe (statementBlock_errs.mp h)
      · obtain ⟨l₅, ⟨e, he⟩, -⟩ := orElse_errs.mp h
        cases he
    · intro h
      cases h with
      | cond hif hbe => exact ⟨_, hif, .inl hbe⟩
      | block hif hbe h => exact ⟨_, hif, .inr ⟨_, _, hbe, .inl (statementBlock_errs.mpr h)⟩⟩
  | succ n ih =>
    rw [ifstatement_errs_iff]
    refine or_congr_right ⟨?_, ?_⟩
    · rintro ⟨l₁, hif, h | ⟨be, l₂, hbe, h | ⟨st, l₃, l₄, hst, hel, h⟩⟩⟩
      · exact .cond hif h
      · exact .block hif hbe (statementBlock_errs.mp h)
      · obtain ⟨l₅, h, hlb⟩ := orElse_errs.mp h
        rcases ih.mp h with h | h
        · exact .els hif hbe hst hel h (statementBlock_errs.mp hlb)
        · exact .elsIf hif hbe hst hel h (statementBlock_errs.mp hlb)
    · intro h
      cases h with
      | cond hif hbe => exact ⟨_, hif, .inl hbe⟩
      | block hif hbe h => exact ⟨_, hif, .inr ⟨_, _, hbe, .inl (statementBlock_errs.mpr h)⟩⟩
      | els hif hbe hst hel h hlb =>
        refine ⟨_, hif, .inr ⟨_, _, hbe, .inr ⟨_, _, _, hst, hel, ?_⟩⟩⟩
        exact orElse_errs.mpr ⟨_, ih.mpr (.inl h), statementBlock_errs.mpr hlb⟩
      | elsIf hif hbe hst hel h hlb =>
        refine ⟨_, hif, .inr ⟨_, _, hbe, .inr ⟨_, _, _, hst, hel, ?_⟩⟩⟩
        exact orElse_errs.mpr ⟨_, ih.mpr (.inr h), statementBlock_errs.mpr hlb⟩

/-- A computation that keeps to the text does not go back in it. -/
theorem accepts_le {α : Type} {x : P α} {a : α} (hx : (whole p).Stays l.rest.length x)
    (h : x.Accepts l a l') : l'.rest.length ≤ l.rest.length :=
  ((hx l (Nat.le_refl _)).ok a l' h).on

theorem boolexp_accepts_le {be : Node} (hn : l.rest.length ≤ n)
    (h : (p.boolexp (p.depth n)).Accepts l be l') : l'.rest.length ≤ l.rest.length :=
  accepts_le (boolexp_eats ((depth_calls (whole p) n).mono hn)).stays h

theorem statementBlock_accepts_le {st : Node} (hn : l.rest.length ≤ n)
    (h : (statementBlock (p.depth n)).Accepts l st l') : l'.rest.length ≤ l.rest.length :=
  accepts_le (statementBlock_stays ((depth_calls (whole p) n).mono hn)) h

theorem Stands.lt (h : Stands l c l') : l'.rest.length < l.rest.length := h.elim fun _ ht => scan_progress ht

/-- Then the lexer is left behind the `if`. -/
theorem BrokenIf.behind (h : BrokenIf p n l l') (hn : l.rest.length ≤ n) :
    ∃ l₁, Stands l .resIf l₁ ∧ l'.rest.length ≤ l₁.rest.length := by
  induction h with
  | cond hif hbe =>
    refine ⟨_, hif, ?_⟩
    rw [(rewinding_errs.mp hbe).2]
  | block hif hbe hlb =>
    have hlt := hif.lt
    have hle := boolexp_accepts_le (by omega) hbe
    exact ⟨_, hif, Nat.le_trans (scanType_errs_le (by decide) hlb) hle⟩
  | els hif hbe hst hel hno hlb =>
    have hlt := hif.lt
    have hle := boolexp_accepts_le (by omega) hbe
    have hle' := statementBlock_accepts_le (by omega) hst
    have hlt' := hel.lt
    have hno := scanType_errs_le (by decide) hno
    have hlb := scanType_errs_le (by decide) hlb
    exact ⟨_, hif, by omega⟩
  | elsIf hif hbe hst hel hbroken hlb ih =>
    have hlt := hif.lt
    have hle := boolexp_accepts_le (by omega) hbe
    have hle' := statementBlock_accepts_le (by omega) hst
    have hlt' := hel.lt
    obtain ⟨l₆, hif', hle''⟩ := ih (by omega)
    have hlt'' := hif'.lt
    have hlb := scanType_errs_le (by decide) hlb
    exact ⟨_, hif, by omega⟩

/-- The two alternatives behind an `else`. -/
def elseForms (p : Parser) (n : Nat) : List (P Node) :=
  [(p.depth (n + 1)).ifstatement, statementBlock (p.depth (n + 1))]

theorem ifstatement_choice : p.ifstatement (p.depth (n + 1)) = (do
    let _ ← scanType .resIf
    let be ← p.boolexp (p.depth (n + 1))
    let statements ← statementBlock (p.depth (n + 1))
    if ← sees .resEl then do
      let elstatements ← choose (p.depth (n + 1)).ifstatement [statementBlock (p.depth (n + 1))]
      pure (.ifElse be statements elstatements)
    else pure (.ifST be statements)) := rfl

theorem elseForms_untraced (hn : l.rest.length ≤ n) :
    (∀ y ∈ elseForms p n, Untraced Stays y l) ↔ ∀ l', ¬ BrokenIf p n l l' := by
  refine ⟨?_, ?_⟩
  · intro h l' hbroken
    obtain ⟨l₁, hif, hle⟩ := hbroken.behind hn
    exact hif.not_stays hle (h _ List.mem_cons_self l' (ifstatement_errs.mpr (.inr hbroken)))
  · intro h y hy l' herrs
    rcases List.mem_pair.mp hy with rfl | rfl
    · rcases ifstatement_errs.mp herrs with herrs | hbroken
      · exact scanType_stays (by decide) herrs
      · exact absurd hbroken (h l')
    · exact scanType_stays (by decide) (statementBlock_errs.mp herrs)

/-- A block that is accepted begins with a brace, where an `if` returns an error. -/
theorem elseForms_pairwise :
    (elseForms p n).Pairwise (fun y z => (∃ a l', z.Accepts l a l') → ∃ l', y.Errs l l') := by
  refine List.pairwise_pair.mpr ?_
  rintro ⟨a, l', h⟩
  obtain ⟨l₁, hlb⟩ := stands_of_bind (by decide) (by decide) h
  exact ⟨l, errs_of_bind (by decide) hlb (by decide)⟩

end Else

/-! ## The import section -/

section Imports

/-- Behind the parenthesis of an import section, lines and imports are followed by something else. -/
inductive BrokenEntries : Lexer → Prop
  | entry {l : Lexer} : Lacks l [.rp, .nl, .str] → BrokenEntries l
  | line {l l₁ : Lexer} : Stands l .nl l₁ → BrokenEntries l₁ → BrokenEntries l
  | named {l l₁ l₂ : Lexer} : Stands l .str l₁ → Stands l₁ .var l₂ → BrokenEntries l₂ → BrokenEntries l
  | plain {l l₁ : Lexer} : Stands l .str l₁ → Lacks l₁ [.var] → BrokenEntries l₁ → BrokenEntries l

/-- An `import` with neither a string nor a parenthesis behind it, or with a parenthesis that is not
closed behind imports. -/
def BrokenImports (l : Lexer) : Prop :=
  ∃ l₁, Stands l .resImport l₁ ∧ (Lacks l₁ [.str, .lp] ∨ ∃ l₂, Stands l₁ .lp l₂ ∧ BrokenEntries l₂)

variable {imports : List (Text × Text)}

/-- The codes that tokens are looked for with. -/
def Sought (cs : List TokenType) : Prop := ∀ c ∈ cs, c ∉ [TokenType.int, .minusOne]

instance (cs : List TokenType) : Decidable (Sought cs) :=
  inferInstanceAs (Decidable (∀ c ∈ cs, c ∉ [TokenType.int, .minusOne]))

theorem AtEnd.lacks {cs : List TokenType} (h : AtEnd l) (hcs : Sought cs) : Lacks l cs := by
  obtain ⟨c, t, l', h⟩ := h
  refine ⟨c, t, true, l', h, fun hc => hcs c hc ?_⟩
  rcases scan_eos_code h with rfl | rfl
  · decide
  · decide

theorem Stays.cases (h : Stays l l') : l' = l ∨ AtEnd l ∧ AtEnd l' := by
  rcases h with h | ⟨hend, hl⟩
  · exact .inl h
  · exact .inr ⟨hl, Stays.atEnd (.inr ⟨hend, hl⟩) hl⟩

theorem Stays.stands (h : Stays l l') (h' : Stands l' c l₁) : Stands l c l₁ := by
  rcases h.cases with rfl | ⟨-, hend⟩
  · exact h'
  · exact absurd hend h'.not_atEnd

theorem Lacks.stays {cs : List TokenType} (h : Lacks l cs) (hcs : Sought cs) (hl : Stays l l') :
    Lacks l' cs := by
  rcases hl.cases with rfl | ⟨-, hend⟩
  · exact h
  · exact hend.lacks hcs

theorem Lacks.cons {cs : List TokenType} (h : Lacks l [code]) (hl : Stays l l') (hcs : Sought (code :: cs))
    (h' : Lacks l' cs) : Lacks l (code :: cs) := by
  rcases hl.cases with rfl | ⟨hend, -⟩
  · obtain ⟨c, t, e, l₁, hscan, hc⟩ := h
    obtain ⟨c', t', e', l₂, hscan', hc'⟩ := h'
    obtain ⟨rfl, -⟩ := Scanned.token.inj (hscan.symm.trans hscan')
    refine ⟨c, t, e, l₁, hscan, ?_⟩
    rw [List.mem_cons, not_or]
    exact ⟨fun h => hc (List.mem_singleton.mpr h), hc'⟩
  · exact hend.lacks hcs

theorem Lacks.mono {cs ds : List TokenType} (h : Lacks l cs) (hsub : ds ⊆ cs) : Lacks l ds := by
  obtain ⟨c, t, e, l', hscan, hc⟩ := h
  exact ⟨c, t, e, l', hscan, fun hd => hc (hsub hd)⟩

/-- A token that is not there. -/
theorem Lacks.sees {cs : List TokenType} (h : Lacks l cs) (code : TokenType) (hmem : code ∈ cs) (hlg : code ≠ .lg) :
    ∃ l', (Parser.sees code).Accepts l false l' ∧ Stays l l' := by
  have hno : Lacks l [code] := h.mono (List.cons_subset.mpr ⟨hmem, List.nil_subset _⟩)
  obtain ⟨l', e, he⟩ := (lacks_iff hlg).mp hno
  refine ⟨l', Accepts.bind (attempt_accepts.mpr (.inr ⟨e, rfl, he⟩)) rfl, scanType_stays hlg ⟨e, he⟩⟩

theorem Stands.lacks (h : Stands l c l') (hc : c ≠ code) : Lacks l [code] := by
  obtain ⟨t, h⟩ := h
  exact ⟨c, t, false, l', h, fun hmem => hc (List.mem_singleton.mp hmem)⟩

theorem Stands.passed (h : Stands l c l₁) (hc : c ≠ code) (hlg : code ≠ .lg) :
    (Parser.sees code).Accepts l false l := by
  obtain ⟨l', hl', hstays⟩ := (h.lacks hc).sees code List.mem_cons_self hlg
  rcases hstays.cases with rfl | ⟨hend, -⟩
  · exact hl'
  · exact absurd hend h.not_atEnd

/-- What was not found is not there. -/
theorem sees_false_errs (hlg : code ≠ .lg) (hint : code ∉ [.int, .minusOne]) (h : (sees code).Accepts l false l') :
    Lacks l [code] ∧ Stays l l' := by
  have herrs : (scanType code).Errs l l' := sees_accepts hlg hint h
  exact ⟨(lacks_iff hlg).mpr ⟨l', herrs⟩, scanType_stays hlg herrs⟩

/-- What a turn of the loop over the imports reads. -/
theorem importTurn_accepts {v : List (Text × Text) ⊕ List (Text × Text)}
    (h : (importStatementTurn imports).Accepts l v l') : v.isRight ∨ Stands l .nl l' ∨
      ∃ l₁, Stands l .str l₁ ∧ (Stands l₁ .var l' ∨ Lacks l₁ [.var] ∧ Stays l₁ l') := by
  obtain ⟨b, l₁, hrp, h⟩ := bind_accepts h
  cases b with
  | true =>
    obtain ⟨rfl, -⟩ := Result.ok.inj h
    exact .inl rfl
  | false =>
    obtain ⟨-, hl₁⟩ := sees_false_errs (by decide) (by decide) hrp
    obtain ⟨b, l₂, hnl, h⟩ := bind_accepts h
    cases b with
    | true =>
      have hnl : Stands l₁ .nl l₂ := sees_accepts (by decide) (by decide) hnl
      obtain ⟨-, rfl⟩ := Result.ok.inj h
      exact .inr (.inl (hl₁.stands hnl))
    | false =>
      obtain ⟨-, hl₂⟩ := sees_false_errs (by decide) (by decide) hnl
      obtain ⟨str, l₃, hstr, h⟩ := bind_accepts h
      have hstr := hl₁.stands (hl₂.stands (stands_of_accepts (by decide) (by decide) hstr))
      obtain ⟨a, l₄, ha, h⟩ := bind_accepts h
      refine .inr (.inr ⟨l₃, hstr, ?_⟩)
      rcases attempt_accepts.mp ha with ⟨w, rfl, hvar⟩ | ⟨e, rfl, he⟩
      · obtain ⟨-, rfl⟩ := Result.ok.inj h
        exact .inl (stands_of_accepts (by decide) (by decide) hvar)
      · obtain ⟨-, rfl⟩ := Result.ok.inj h
        have herrs : (scanType .var).Errs l₃ l₄ := ⟨e, he⟩
        exact .inr ⟨(lacks_iff (by decide)).mpr ⟨l₄, herrs⟩, scanType_stays (by decide) herrs⟩

/-- Lines and imports are passed. -/
theorem importTurn_line (imports : List (Text × Text)) (h : Stands l .nl l') :
    ∃ v, v.isLeft ∧ (importStatementTurn imports).Accepts l v l' :=
  ⟨.inl imports, rfl, Accepts.bind (h.passed (by decide) (by decide)) (Accepts.bind (h.found (by decide)) rfl)⟩

theorem importTurn_named (imports : List (Text × Text)) (h : Stands l .str l₁) (hvar : Stands l₁ .var l') :
    ∃ v, v.isLeft ∧ (importStatementTurn imports).Accepts l v l' := by
  obtain ⟨str, hstr⟩ := h.accepts (by decide)
  obtain ⟨v, hv⟩ := hvar.accepts (by decide)
  refine ⟨.inl (setImport v str imports), rfl, ?_⟩
  refine Accepts.bind (h.passed (by decide) (by decide)) (Accepts.bind (h.passed (by decide) (by decide)) ?_)
  exact Accepts.bind hstr (Accepts.bind (attempt_accepts.mpr (.inl ⟨v, rfl, hv⟩)) rfl)

theorem importTurn_plain (imports : List (Text × Text)) (h : Stands l .str l₁) (hvar : Lacks l₁ [.var]) :
    ∃ v l', v.isLeft ∧ (importStatementTurn imports).Accepts l v l' ∧ Stays l₁ l' := by
  obtain ⟨str, hstr⟩ := h.accepts (by decide)
  obtain ⟨l', e, he⟩ := (lacks_iff (by decide)).mp hvar
  refine ⟨.inl (setImport (pathFile str) str imports), l', rfl, ?_, scanType_stays (by decide) ⟨e, he⟩⟩
  refine Accepts.bind (h.passed (by decide) (by decide)) (Accepts.bind (h.passed (by decide) (by decide)) ?_)
  exact Accepts.bind hstr (Accepts.bind (attempt_accepts.mpr (.inr ⟨e, rfl, he⟩)) rfl)

theorem importTurn_errs :
    (∃ l', (importStatementTurn imports).Errs l l') ↔ Lacks l [.rp, .nl, .str] := by
  refine ⟨?_, ?_⟩
  · rintro ⟨l', h⟩
    rcases bind_errs h with h | ⟨b, l₁, hrp, h⟩
    · exact absurd h (sees_neverErrs _ l l')
    cases b with
    | true =>
      obtain ⟨e, he⟩ := h
      cases he
    | false =>
      obtain ⟨hrp, hl₁⟩ := sees_false_errs (by decide) (by decide) hrp
      rcases bind_errs h with h | ⟨b, l₂, hnl, h⟩
      · exact absurd h (sees_neverErrs _ l₁ l')
      cases b with
      | true =>
        obtain ⟨e, he⟩ := h
        cases he
      | false =>
        obtain ⟨hnl, hl₂⟩ := sees_false_errs (by decide) (by decide) hnl
        refine hrp.cons hl₁ (by decide) (hnl.cons hl₂ (by decide) ?_)
        rcases bind_errs h with h | ⟨str, l₃, -, h⟩
        · exact (lacks_iff (by decide)).mpr ⟨l', h⟩
        · exfalso
          rcases bind_errs h with h | ⟨a, l₄, -, e, he⟩
          · exact NeverErrs.attempt _ l₃ l' h
          · cases a <;> cases he
  · intro h
    obtain ⟨l₁, hrp, hl₁⟩ := h.sees .rp (by decide) (by decide)
    have h₁ := h.stays (by decide) hl₁
    obtain ⟨l₂, hnl, hl₂⟩ := h₁.sees .nl (by decide) (by decide)
    have hnone : Lacks l₂ [.str] := (h₁.stays (by decide) hl₂).mono (by decide)
    obtain ⟨l', hstr⟩ := (lacks_iff (by decide)).mp hnone
    exact ⟨l', Errs.after hrp (Errs.after hnl hstr.bind)⟩

theorem BrokenEntries.atEnd (h : AtEnd l) : BrokenEntries l := .entry (h.lacks (by decide))

theorem BrokenEntries.stays (h : BrokenEntries l') (hl : Stays l l') : BrokenEntries l := by
  rcases hl.cases with rfl | ⟨hend, -⟩
  · exact h
  · exact .atEnd hend

theorem broken_of_errs : ∀ {n : Nat} {imports : List (Text × Text)} {l : Lexer},
    (Back.iterate importStatementTurn n imports).Errs l l' → BrokenEntries l
  | 0, _, _, h => by
    obtain ⟨e, he⟩ := h
    cases he
  | n + 1, imports, l, h => by
    rcases bind_errs h with h | ⟨v, l₁, hv, h⟩
    · exact .entry (importTurn_errs.mp ⟨l', h⟩)
    · cases v with
      | inr imports' =>
        obtain ⟨e, he⟩ := h
        cases he
      | inl imports' =>
        have hrest := broken_of_errs h
        rcases importTurn_accepts hv with hv | hnl | ⟨l₂, hstr, hvar | ⟨hvar, hl₂⟩⟩
        · cases hv
        · exact .line hnl hrest
        · exact .named hstr hvar hrest
        · exact .plain hstr hvar (hrest.stays hl₂)

theorem iterate_errs_inl {v : List (Text × Text) ⊕ List (Text × Text)} (hleft : v.isLeft)
    (hv : (importStatementTurn imports).Accepts l v l₁)
    (h : ∀ imports, ∃ l', (Back.iterate importStatementTurn n imports).Errs l₁ l') :
    ∃ l', (Back.iterate importStatementTurn (n + 1) imports).Errs l l' := by
  cases v with
  | inr imports' => cases hleft
  | inl imports' => exact (h imports').imp fun l' h => Errs.after hv h

theorem BrokenEntries.errs (h : BrokenEntries l) (hn : l.rest.length < n) (imports : List (Text × Text)) :
    ∃ l', (Back.iterate importStatementTurn n imports).Errs l l' := by
  induction h generalizing n imports with
  | entry h =>
    obtain ⟨m, rfl⟩ : ∃ m, n = m + 1 := ⟨n - 1, by omega⟩
    exact (importTurn_errs.mpr h).imp fun l' h => h.bind
  | line hnl _ ih =>
    obtain ⟨m, rfl⟩ : ∃ m, n = m + 1 := ⟨n - 1, by omega⟩
    have hlt := hnl.lt
    obtain ⟨v, hleft, hv⟩ := importTurn_line imports hnl
    exact iterate_errs_inl hleft hv fun imports => ih (by omega) imports
  | named hstr hvar _ ih =>
    obtain ⟨m, rfl⟩ : ∃ m, n = m + 1 := ⟨n - 1, by omega⟩
    have hlt := hstr.lt
    have hlt' := hvar.lt
    obtain ⟨v, hleft, hv⟩ := importTurn_named imports hstr hvar
    exact iterate_errs_inl hleft hv fun imports => ih (by omega) imports
  | @plain l l₁ hstr hvar _ ih =>
    obtain ⟨m, rfl⟩ : ∃ m, n = m + 1 := ⟨n - 1, by omega⟩
    have hlt := hstr.lt
    obtain ⟨v, l', hleft, hv, hl'⟩ := importTurn_plain imports hstr hvar
    refine iterate_errs_inl hleft hv fun imports => ?_
    rcases hl'.cases with rfl | ⟨-, hend⟩
    · exact ih (by omega) imports
    · obtain ⟨m', rfl⟩ : ∃ m', m = m' + 1 := ⟨m - 1, by omega⟩
      exact (importTurn_errs.mpr (hend.lacks (by decide))).imp fun l' h => h.bind

/-- A section that is broken off leaves the lexer behind the `import`. -/
theorem BrokenImports.errs (h : BrokenImports l) (hn : l.rest.length ≤ n) :
    ∃ l₁ l', Stands l .resImport l₁ ∧ (importStatement (p.depth n)).Errs l l' ∧
      l'.rest.length ≤ l₁.rest.length := by
  obtain ⟨l₁, himport, h⟩ := h
  obtain ⟨t, ht⟩ := himport.accepts (by decide)
  have hlt := himport.lt
  have hstr : Lacks l₁ [.str] := by
    rcases h with h | ⟨l₂, hlp, -⟩
    · exact h.mono (by decide)
    · exact hlp.lacks (by decide)
  obtain ⟨l₂, e, he⟩ := (lacks_iff (by decide)).mp hstr
  have hl₂ : Stays l₁ l₂ := scanType_stays (by decide) ⟨e, he⟩
  have hle : l₂.rest.length ≤ l₁.rest.length := scanType_errs_le (by decide) ⟨e, he⟩
  have hno := attempt_accepts.mpr (.inr ⟨e, rfl, he⟩)
  rcases h with h | ⟨l₃, hlp, h⟩
  · have hnone : Lacks l₂ [.lp] := (h.stays (by decide) hl₂).mono (by decide)
    obtain ⟨l', hlp⟩ := (lacks_iff (by decide)).mp hnone
    exact ⟨l₁, l', himport, Errs.after ht (Errs.after hno hlp.bind),
      Nat.le_trans (scanType_errs_le (by decide) hlp) hle⟩
  · obtain rfl : l₂ = l₁ := hl₂.cases.resolve_right fun hend => hlp.not_atEnd hend.1
    have hlt' := hlp.lt
    obtain ⟨t', hlp⟩ := hlp.accepts (by decide)
    have hfuel := depth_fuel p n
    obtain ⟨l', hl'⟩ := h.errs (n := (p.depth n).fuel) (by omega) []
    refine ⟨l₂, l', himport, Errs.after ht (Errs.after hno (Errs.after hlp hl')), ?_⟩
    have hloop : (whole p).Stays l₃.rest.length (Back.iterate importStatementTurn (p.depth n).fuel []) :=
      Ground.Holds.iterate (fun imports _ _ => importStatementTurn_holds imports) (by omega) []
    obtain ⟨e, he⟩ := hl'
    have hle' : l'.rest.length ≤ l₃.rest.length :=
      (hloop l₃ (Nat.le_refl _)).err e l' he (by rintro ⟨⟩)
    omega

theorem importStatement_untraced (hn : l.rest.length ≤ n) :
    Untraced Stays (importStatement (p.depth n)) l ↔ ¬ BrokenImports l := by
  refine ⟨?_, ?_⟩
  · intro h hbroken
    obtain ⟨l₁, l', himport, herrs, hle⟩ := hbroken.errs hn
    exact himport.not_stays hle (h l' herrs)
  · intro h l' herrs
    rcases bind_errs herrs with herrs | ⟨t, l₁, ht, herrs⟩
    · exact scanType_stays (by decide) herrs
    have himport := stands_of_accepts (by decide) (by decide) ht
    refine absurd ⟨l₁, himport, ?_⟩ h
    rcases bind_errs herrs with herrs | ⟨a, l₂, ha, herrs⟩
    · exact absurd herrs (NeverErrs.attempt _ l₁ l')
    rcases attempt_accepts.mp ha with ⟨str, rfl, hstr⟩ | ⟨e, rfl, he⟩
    · obtain ⟨e, he⟩ := herrs
      cases he
    · have hstr : (scanType .str).Errs l₁ l₂ := ⟨e, he⟩
      have hl₂ := scanType_stays (by decide) hstr
      have hstr := (lacks_iff (by decide)).mpr ⟨l₂, hstr⟩
      rcases bind_errs herrs with herrs | ⟨t', l₃, hlp, herrs⟩
      · exact .inl (hstr.cons hl₂ (by decide) ((lacks_iff (by decide)).mpr ⟨l', herrs⟩))
      · exact .inr ⟨l₃, hl₂.stands (stands_of_accepts (by decide) (by decide) hlp), broken_of_errs herrs⟩

end Imports

/-! ## Main result -/

/-- The places where the parser tries one thing after the other. -/
inductive Choice
  | types | els | imports

namespace Choice

/-- What an alternative returns. -/
abbrev Value : Choice → Type
  | types => TypeNode
  | els => Node
  | imports => List (Text × Text)

/-- The alternatives, with calls nested `n + 1` deep at most. -/
def forms (p : Parser) (n : Nat) : (c : Choice) → List (P c.Value)
  | types => structType (p.depth (n + 1)) :: typeForms p (p.depth (n + 1))
  | els => elseForms p n
  | imports => [importStatement (p.depth (n + 1))]

/-- What the parser does with them. An import section may also be missing. -/
def run (p : Parser) (n : Nat) : (c : Choice) → P (Option c.Value)
  | types => do
    let tp ← choose (structType (p.depth (n + 1))) (typeForms p (p.depth (n + 1)))
    pure (some tp)
  | els => do
    let elstatements ← choose (p.depth (n + 1)).ifstatement [statementBlock (p.depth (n + 1))]
    pure (some elstatements)
  | imports => opt (importStatement (p.depth (n + 1)))

def isOptional : Choice → Bool
  | imports => true
  | _ => false

/-- An alternative that returns an error leaves the lexer where it was. What is accepted is what one of the
alternatives accepts or, if there may be none and all of them return an error, nothing at all. -/
structure NoTrace (p : Parser) (n : Nat) (c : Choice) (l : Lexer) : Prop where
  untraced : ∀ y ∈ c.forms p n, Untraced Eq y l
  accepts : ∀ v l', (c.run p n).Accepts l v l' ↔ (∃ y ∈ c.forms p n, ∃ a, v = some a ∧ y.Accepts l a l') ∨
    c.isOptional ∧ v = none ∧ l' = l ∧ ∀ y ∈ c.forms p n, ∃ l₁, y.Errs l l₁

/-- No alternative is broken off behind its first tokens. -/
def Whole (p : Parser) (n : Nat) : Choice → Lexer → Prop
  | types, l => TypeWhole l
  | els, l => ∀ l', ¬ BrokenIf p n l l'
  | imports, l => ¬ BrokenImports l

theorem untraced_iff_whole (c : Choice) (hn : l.rest.length ≤ n) :
    (∀ y ∈ c.forms p n, Untraced Eq y l) ↔ ¬ AtEnd l ∧ c.Whole p n l := by
  have herrs : ∀ {α : Type} {f : Text → P α} {kw : TokenType}, kw ≠ .lg → kw ∉ [.int, .minusOne] →
      AtEnd l → ∃ l', (scanType kw >>= f).Errs l l' ∧ l' ≠ l := by
    intro α f kw hlg hint hend
    obtain ⟨l', h, hne⟩ := atEnd_errs hend hlg hint
    exact ⟨l', h.bind, hne⟩
  cases c with
  | types => exact untraced_iff (herrs (by decide) (by decide)) typeForms_untraced
  | els => exact untraced_iff (herrs (by decide) (by decide)) (elseForms_untraced hn)
  | imports =>
    refine untraced_iff (herrs (by decide) (by decide)) ?_
    rw [List.forall_mem_singleton]
    exact importStatement_untraced (Nat.le_succ_of_le hn)

theorem some_accepts {α : Type} {x : P α} {v : Option α} :
    (x >>= fun a => pure (some a)).Accepts l v l' ↔ ∃ a, v = some a ∧ x.Accepts l a l' := by
  refine ⟨?_, ?_⟩
  · intro h
    obtain ⟨a, l₁, ha, h⟩ := bind_accepts h
    obtain ⟨rfl, rfl⟩ := Result.ok.inj h
    exact ⟨a, rfl, ha⟩
  · rintro ⟨a, rfl, ha⟩
    exact Accepts.bind ha rfl

theorem opt_accepts {α : Type} {x : P α} {v : Option α} :
    (opt x).Accepts l v l' ↔ (∃ a, v = some a ∧ x.Accepts l a l') ∨ v = none ∧ x.Errs l l' := by
  refine ⟨?_, ?_⟩
  · intro h
    obtain ⟨a, l₁, ha, h⟩ := bind_accepts h
    rcases attempt_accepts.mp ha with ⟨w, rfl, hw⟩ | ⟨e, rfl, he⟩
    · obtain ⟨rfl, rfl⟩ := Result.ok.inj h
      exact .inl ⟨w, rfl, hw⟩
    · obtain ⟨rfl, rfl⟩ := Result.ok.inj h
      exact .inr ⟨rfl, e, he⟩
  · rintro (⟨a, rfl, ha⟩ | ⟨rfl, e, he⟩)
    · exact Accepts.bind (attempt_accepts.mpr (.inl ⟨a, rfl, ha⟩)) rfl
    · exact Accepts.bind (attempt_accepts.mpr (.inr ⟨e, rfl, he⟩)) rfl

/-- A choice between alternatives that leave no trace. -/
theorem choose_accepts {α : Type} {y : P α} {ys : List (P α)} {v : Option α}
    (huntraced : ∀ z ∈ y :: ys, Untraced Eq z l)
    (hpair : (y :: ys).Pairwise fun y z => (∃ a l', z.Accepts l a l') → ∃ l', y.Errs l l') :
    (choose y ys >>= fun a => pure (some a)).Accepts l v l' ↔
      ∃ z ∈ y :: ys, ∃ a, v = some a ∧ z.Accepts l a l' := by
  rw [some_accepts]
  refine ⟨?_, ?_⟩
  · rintro ⟨a, rfl, ha⟩
    obtain ⟨z, hz, ha⟩ := (choose_ok_iff huntraced hpair).mp ha
    exact ⟨z, hz, a, rfl, ha⟩
  · rintro ⟨z, hz, a, rfl, ha⟩
    exact ⟨a, rfl, (choose_ok_iff huntraced hpair).mpr ⟨z, hz, ha⟩⟩

theorem accepts_iff (c : Choice) (huntraced : ∀ y ∈ c.forms p n, Untraced Eq y l) (v : Option c.Value)
    (l' : Lexer) : (c.run p n).Accepts l v l' ↔
      (∃ y ∈ c.forms p n, ∃ a, v = some a ∧ y.Accepts l a l') ∨
        c.isOptional ∧ v = none ∧ l' = l ∧ ∀ y ∈ c.forms p n, ∃ l₁, y.Errs l l₁ := by
  cases c with
  | types =>
    refine (choose_accepts huntraced typeForms_pairwise).trans (or_iff_left ?_).symm
    rintro ⟨⟨⟩, -⟩
  | els =>
    refine (choose_accepts huntraced elseForms_pairwise).trans (or_iff_left ?_).symm
    rintro ⟨⟨⟩, -⟩
  | imports =>
    have hsection : Untraced Eq (importStatement (p.depth (n + 1))) l := huntraced _ List.mem_cons_self
    refine opt_accepts.trans (or_congr ⟨?_, ?_⟩ ⟨?_, ?_⟩)
    · rintro ⟨a, rfl, ha⟩
      exact ⟨_, List.mem_cons_self, a, rfl, ha⟩
    · rintro ⟨y, hy, a, rfl, ha⟩
      obtain rfl := List.mem_singleton.mp hy
      exact ⟨a, rfl, ha⟩
    · rintro ⟨rfl, herrs⟩
      refine ⟨rfl, rfl, (hsection l' herrs).symm, fun y hy => ?_⟩
      obtain rfl := List.mem_singleton.mp hy
      exact ⟨l', herrs⟩
    · rintro ⟨-, rfl, rfl, h⟩
      obtain ⟨l₁, herrs⟩ := h _ List.mem_cons_self
      obtain rfl := hsection l₁ herrs
      exact ⟨rfl, herrs⟩

/-- No choice leaves a trace just where the text is not at its end and no alternative is broken off. -/
theorem noTrace_iff (p : Parser) (k : Nat) (c : Choice) (l : Lexer) :
    c.NoTrace p (l.rest.length + k) l ↔ ¬ AtEnd l ∧ c.Whole p (l.rest.length + k) l := by
  have hiff := untraced_iff_whole (p := p) c (Nat.le_add_right l.rest.length k)
  exact ⟨fun h => hiff.mp h.untraced, fun h => ⟨hiff.mpr h, accepts_iff c (hiff.mpr h)⟩⟩

/-- A `struct` without a brace is passed over, and the next form is tried behind it. -/
theorem struct_passed : (types.run plain 11).Accepts ⟨"struct int\n".toList, 0⟩ (some (.basic .resInt 0))
    ⟨['\n'], 0⟩ ∧ ∀ y ∈ types.forms plain 11, ∀ a l', ¬ y.Accepts ⟨"struct int\n".toList, 0⟩ a l' := by
  refine ⟨rfl, ?_⟩
  intro y hy a l' h
  simp only [forms, typeForms, List.mem_cons, List.not_mem_nil, or_false] at hy
  rcases hy with rfl | rfl | rfl | rfl | rfl
  · cases h
  · cases h
  · cases h
  · cases h
  · cases h

end Choice

end CalcLang.Parser
