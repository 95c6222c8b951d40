import CalcLang.Lex.Progress
import CalcLang.Lib.Choice
import CalcLang.Parser.Grammar

/-!
# The ordered choices

Three places of the parser go on to something else after an error: `allTypes` with the next form of
a type, `ifstatement` from another `if` to a block, and `program` without an import section. Only
`basicTypes` and `arrayTypes` rewind the lexer. The other alternatives leave it behind what they have
read by then, and the next one starts there.
-/

namespace CalcLang.Parser

open CalcLang.Lex CalcLang.Lib Back

variable {p : Parser} {r : Rec} {c code : TokenType} {t : Text} {e : Bool} {l l' l₁ l₂ : Lexer} {n : Nat}

/-! ## Tokens -/

section Tokens

theorem scan_of (h : l.Scan = .token c t e l') : scan.run l = .ok (c, t, e) l' := by
  unfold scan
  dsimp only
  rw [h]

theorem scanCode_of (h : l.Scan = .token c t e l') : (scanCode code).run l =
    if c = code then .ok t l' else if e then .err .eos l' else .err .type l := by
  unfold scanCode
  rw [bind_run, here_run, Run.andThen_ok, bind_run, scan_of h, Run.andThen_ok]
  by_cases hc : c = code
  · simp [hc]
  · cases e <;> simp [hc]

theorem scanCode_panics (h : l.Scan = .panic) : (scanCode code).run l = .panic := by
  unfold scanCode scan
  simp [h]

theorem scanCode_fatal (h : l.Scan = .fatal) : (scanCode code).run l = .fatal := by
  unfold scanCode scan
  simp [h]

/-- Only a `>` is looked for in another way. -/
theorem scanType_eq (hlg : code ≠ .lg) : scanType code = scanCode code := if_neg hlg

theorem scanType_of (hlg : code ≠ .lg) (h : l.Scan = .token c t e l') : (scanType code).run l =
    if c = code then .ok t l' else if e then .err .eos l' else .err .type l := by
  rw [scanType_eq hlg, scanCode_of h]

theorem scan_accepts (h : scan.Accepts l (c, t, e) l') : l.Scan = .token c t e l' := by
  unfold Accepts scan at h
  dsimp only at h
  cases hscan : l.Scan with
  | token c' t' e' l₁ =>
    rw [hscan] at h
    cases h
    rfl
  | panic =>
    rw [hscan] at h
    cases h
  | fatal =>
    rw [hscan] at h
    cases h

theorem scanType_panics (hlg : code ≠ .lg) (h : l.Scan = .panic) : (scanType code).run l = .panic := by
  rw [scanType_eq hlg, scanCode_panics h]

theorem scanType_fatal (hlg : code ≠ .lg) (h : l.Scan = .fatal) : (scanType code).run l = .fatal := by
  rw [scanType_eq hlg, scanCode_fatal h]

theorem scanType_accepts (hlg : code ≠ .lg) :
    (scanType code).Accepts l t l' ↔ ∃ e, l.Scan = .token code t e l' := by
  refine ⟨?_, ?_⟩
  · intro h
    unfold Accepts at h
    cases hscan : l.Scan with
    | panic =>
      rw [scanType_panics hlg hscan] at h
      cases h
    | fatal =>
      rw [scanType_fatal hlg hscan] at h
      cases h
    | token c t' e l₁ =>
      rw [scanType_of hlg hscan] at h
      by_cases hc : c = code
      · rw [if_pos hc] at h
        obtain ⟨rfl, rfl⟩ := Result.ok.inj h
        exact ⟨e, by rw [hc]⟩
      · rw [if_neg hc] at h
        cases e <;> cases h
  · rintro ⟨e, h⟩
    refine accepts_of_run ?_
    rw [scanType_of hlg h, if_pos rfl]

theorem scanType_errs (hlg : code ≠ .lg) : (scanType code).Errs l l' ↔
    ∃ c t e l₁, l.Scan = .token c t e l₁ ∧ c ≠ code ∧ l' = if e then l₁ else l := by
  refine ⟨?_, ?_⟩
  · rintro ⟨err, h⟩
    cases hscan : l.Scan with
    | panic =>
      rw [scanType_panics hlg hscan] at h
      cases h
    | fatal =>
      rw [scanType_fatal hlg hscan] at h
      cases h
    | token c t e l₁ =>
      rw [scanType_of hlg hscan] at h
      by_cases hc : c = code
      · rw [if_pos hc] at h
        cases h
      · refine ⟨c, t, e, l₁, rfl, hc, ?_⟩
        rw [if_neg hc] at h
        cases e
        · exact (Result.err.inj h).2.symm
        · exact (Result.err.inj h).2.symm
  · rintro ⟨c, t, e, l₁, h, hc, rfl⟩
    have hrun := scanType_of hlg h
    rw [if_neg hc] at hrun
    cases e
    · exact errs_of_run hrun
    · exact errs_of_run hrun

end Tokens

/-! ## Places -/

/-- No token has been passed: the lexer is where it was, or at the end where there was none. -/
def Stays (l l' : Lexer) : Prop := l' = l ∨ l'.rest = [] ∧ ∃ c t l₁, l.Scan = .token c t true l₁

/-- At `l` stands a token with the code `c`, and `l'` is behind it. -/
def Stands (l : Lexer) (c : TokenType) (l' : Lexer) : Prop := ∃ t, l.Scan = .token c t false l'

/-- A token is found at `l`, or the end, but none of `cs`. -/
def Lacks (l : Lexer) (cs : List TokenType) : Prop := ∃ c t e l', l.Scan = .token c t e l' ∧ c ∉ cs

section Places

theorem scanType_stays (hlg : code ≠ .lg) (h : (scanType code).Errs l l') : Stays l l' := by
  obtain ⟨c, t, e, l₁, hscan, -, rfl⟩ := (scanType_errs hlg).mp h
  cases e with
  | false => exact .inl rfl
  | true => exact .inr ⟨scan_eos hscan, c, t, l₁, hscan⟩

/-- Behind a token the lexer is at another place. -/
theorem Stands.not_stays (h : Stands l c l₁) (hle : l'.rest.length ≤ l₁.rest.length) : ¬ Stays l l' := by
  obtain ⟨t, h⟩ := h
  have hlt := scan_progress h
  rintro (rfl | ⟨-, c', t', l₂, h'⟩)
  · omega
  · obtain ⟨-, -, he, -⟩ := Scanned.token.inj (h.symm.trans h')
    cases he

/-- The end of the text comes with no token. -/
theorem scan_eos_code (h : l.Scan = .token c t true l') : c = .int ∨ c = .minusOne := by
  have hfrom : ∀ (s : Text) (comment : Bool), scanFrom l.past comment s = .token c t true l' →
      c = .int ∨ c = .minusOne := by
    intro s
    induction s with
    | nil =>
      intro comment h
      obtain ⟨rfl, -⟩ := Scanned.token.inj h
      cases comment
      · exact .inl rfl
      · exact .inr rfl
    | cons d s ih =>
      intro comment h
      rw [scanFrom] at h
      split at h
      · exact ih _ h
      · split at h
        · exact ih _ h
        · split at h
          · exact ih _ h
          · have hwithin : (scanToken l.past d s).Within s.length := scanToken_within d
            rw [h] at hwithin
            cases hwithin.1
  exact hfrom l.rest false h

theorem stands_of_accepts (hlg : code ≠ .lg) (hint : code ∉ [.int, .minusOne])
    (h : (scanType code).Accepts l t l') : Stands l code l' := by
  obtain ⟨e, hscan⟩ := (scanType_accepts hlg).mp h
  cases e with
  | false => exact ⟨t, hscan⟩
  | true =>
    rcases scan_eos_code hscan with rfl | rfl
    · exact absurd (by decide) hint
    · exact absurd (by decide) hint

end Places

/-! ## Functions that return no error -/

section NeverErrs

variable {α : Type} {x : P α}

theorem sees_neverErrs (code : TokenType) : (sees code).NeverErrs := by
  refine NeverErrs.bind (NeverErrs.attempt _) fun a => ?_
  cases a <;> exact NeverErrs.pure _

theorem opt_neverErrs (x : P α) : (opt x).NeverErrs := by
  refine NeverErrs.bind (NeverErrs.attempt _) fun a => ?_
  cases a <;> exact NeverErrs.pure _

theorem empty_neverErrs : empty.NeverErrs := NeverErrs.bind (NeverErrs.must _) fun _ => NeverErrs.pure _

theorem scan_neverErrs : scan.NeverErrs := by
  rintro l l' ⟨e, he⟩
  unfold scan at he
  dsimp only at he
  split at he <;> cases he

theorem untilRp_neverErrs (hx : x.NeverErrs) (as : List α) : (untilRp r x as).NeverErrs := by
  refine NeverErrs.iterate (fun as => ?_) _ as
  refine NeverErrs.bind (NeverErrs.attempt _) fun a => ?_
  have hmore : (do
      let _ ← (scanType .comma).must
      let a ← x
      pure (.inl (as ++ [a])) : P (List α ⊕ List α)).NeverErrs :=
    NeverErrs.bind (NeverErrs.must _) fun _ => NeverErrs.bind hx fun _ => NeverErrs.pure _
  cases a with
  | ok t => exact NeverErrs.pure _
  | error err =>
    cases err with
    | eos => exact NeverErrs.panic
    | type => exact hmore
    | other => exact hmore

theorem funcParam_neverErrs : (funcParam r).NeverErrs :=
  NeverErrs.bind (NeverErrs.must _) fun _ => NeverErrs.bind (NeverErrs.must _) fun _ => NeverErrs.pure _

theorem funcParams_neverErrs : (funcParams r).NeverErrs := by
  refine NeverErrs.bind (NeverErrs.must _) fun _ => NeverErrs.bind (NeverErrs.attempt _) fun a => ?_
  rcases a with (_ | _ | _) | t
  · exact NeverErrs.panic
  rotate_right
  · exact NeverErrs.pure _
  -- with or without a `this` in front
  all_goals
    refine NeverErrs.bind (NeverErrs.attempt _) fun a => ?_
    cases a with
    | ok n => exact NeverErrs.bind (untilRp_neverErrs funcParam_neverErrs _) fun _ => NeverErrs.pure _
    | error e =>
      exact NeverErrs.bind funcParam_neverErrs fun _ =>
        NeverErrs.bind (untilRp_neverErrs funcParam_neverErrs _) fun _ => NeverErrs.pure _

theorem structTypeTurn_neverErrs (ofs : List (Text × TypeNode)) : (structTypeTurn r ofs).NeverErrs := by
  refine NeverErrs.bind (sees_neverErrs _) fun b => ?_
  cases b with
  | true => exact NeverErrs.pure _
  | false =>
    refine NeverErrs.bind (NeverErrs.attempt _) fun a => ?_
    cases a with
    | ok t => exact NeverErrs.bind (NeverErrs.must _) fun _ => NeverErrs.pure _
    | error e => exact NeverErrs.bind empty_neverErrs fun _ => NeverErrs.pure _

theorem interfaceTypeTurn_neverErrs (funcs : Funcs) : (interfaceTypeTurn r funcs).NeverErrs := by
  refine NeverErrs.bind (sees_neverErrs _) fun b => ?_
  cases b with
  | true => exact NeverErrs.pure _
  | false =>
    refine NeverErrs.bind (NeverErrs.attempt _) fun a => ?_
    cases a with
    | ok t =>
      exact NeverErrs.bind funcParams_neverErrs fun _ => NeverErrs.bind (NeverErrs.must _) fun _ =>
        NeverErrs.bind empty_neverErrs fun _ => NeverErrs.pure _
    | error e => exact NeverErrs.bind empty_neverErrs fun _ => NeverErrs.pure _

theorem errST_neverErrs : (p.errST r).NeverErrs := by
  refine NeverErrs.bind (NeverErrs.bind NeverErrs.here fun l => ?_) fun _ => NeverErrs.pure _
  refine NeverErrs.bind (NeverErrs.note _) fun _ => ?_
  split
  · exact NeverErrs.panic
  · refine NeverErrs.bind (NeverErrs.iterate (fun _ => ?_) _ _) fun _ => NeverErrs.pure _
    refine NeverErrs.bind NeverErrs.here fun _ => NeverErrs.bind scan_neverErrs fun tok => ?_
    obtain ⟨c, t, e⟩ := tok
    dsimp only
    split <;> exact NeverErrs.pure _

theorem allexp_neverErrs (hr : r.allexp.NeverErrs) : (p.allexp r).NeverErrs := by
  refine NeverErrs.bind (sees_neverErrs _) fun b => ?_
  cases b with
  | true => exact NeverErrs.bind hr fun _ => NeverErrs.pure _
  | false => exact NeverErrs.orElse (NeverErrs.orElse (NeverErrs.must _))

theorem callFunc_neverErrs (hr : r.allexp.NeverErrs) : (p.callFunc r).NeverErrs := by
  have hparams : (callParams r).NeverErrs := by
    refine NeverErrs.bind (NeverErrs.attempt _) fun a => ?_
    cases a with
    | ok t => exact NeverErrs.pure _
    | error err =>
      cases err with
      | eos => exact NeverErrs.panic
      | type => exact NeverErrs.bind hr fun _ => untilRp_neverErrs hr _
      | other => exact NeverErrs.bind hr fun _ => untilRp_neverErrs hr _
  have hturn : ∀ next, (p.callNextTurn r next).NeverErrs := by
    intro next
    refine NeverErrs.bind (sees_neverErrs _) fun b => ?_
    cases b with
    | true => exact NeverErrs.bind (NeverErrs.orElse (NeverErrs.must _)) fun _ => NeverErrs.pure _
    | false => exact NeverErrs.pure _
  exact NeverErrs.bind (NeverErrs.must _) fun _ => NeverErrs.bind (opt_neverErrs _) fun _ =>
    NeverErrs.bind (NeverErrs.must _) fun _ => NeverErrs.bind hparams fun _ =>
      NeverErrs.bind (NeverErrs.iterate hturn _ _) fun _ => NeverErrs.pure _

theorem otherStatement_neverErrs (hr : r.allexp.NeverErrs) (ch1 : Lexer) :
    (p.otherStatement r ch1).NeverErrs := by
  refine NeverErrs.bind NeverErrs.here fun ch => NeverErrs.bind scan_neverErrs fun tok => ?_
  obtain ⟨c, t, e⟩ := tok
  dsimp only
  split
  · exact NeverErrs.bind (NeverErrs.goback _) fun _ => NeverErrs.bind (callFunc_neverErrs hr) fun _ =>
      NeverErrs.bind empty_neverErrs fun _ => NeverErrs.pure _
  · split
    · exact NeverErrs.bind (NeverErrs.goback _) fun _ => empty_neverErrs
    · exact NeverErrs.bind (NeverErrs.goback _) fun _ => errST_neverErrs

theorem statement_neverErrs (hr : r.allexp.NeverErrs) : (p.statement r).NeverErrs := by
  refine NeverErrs.recovering (NeverErrs.bind NeverErrs.here fun ch1 => ?_) errST_neverErrs
  refine NeverErrs.bind (sees_neverErrs _) fun b => ?_
  cases b with
  | true => exact NeverErrs.bind (allexp_neverErrs hr) fun _ => NeverErrs.pure _
  | false =>
    -- the alternatives are tried in turn, and the last one returns no error
    exact NeverErrs.orElse (NeverErrs.orElse (NeverErrs.orElse (NeverErrs.orElse (NeverErrs.orElse
      (NeverErrs.orElse (NeverErrs.orElse (NeverErrs.orElse (NeverErrs.orElse
        (otherStatement_neverErrs hr ch1)))))))))

theorem depth_allexp_neverErrs (p : Parser) : ∀ n, (p.depth n).allexp.NeverErrs
  | 0 => NeverErrs.out
  | n + 1 => allexp_neverErrs (p := p) (depth_allexp_neverErrs p n)

end NeverErrs

/-! ## Types -/

section Types

/-- A keyword, a brace, and something that returns no error. -/
theorem braced_errs {α : Type} {x : P α} (hx : x.NeverErrs) (kw : TokenType) :
    (scanType kw >>= fun _ => scanType .lb >>= fun _ => x).Errs l l' ↔
      (scanType kw).Errs l l' ∨ ∃ t l₁, (scanType kw).Accepts l t l₁ ∧ (scanType .lb).Errs l₁ l' := by
  refine ⟨?_, ?_⟩
  · intro h
    rcases bind_errs h with h | ⟨t, l₁, ht, h⟩
    · exact .inl h
    · rcases bind_errs h with h | ⟨t', l₂, -, h⟩
      · exact .inr ⟨t, l₁, ht, h⟩
      · exact absurd h (hx l₂ l')
  · rintro (h | ⟨t, l₁, ht, h⟩)
    · exact h.bind
    · exact Errs.after ht h.bind

theorem lacks_iff (hlg : code ≠ .lg) : Lacks l [code] ↔ ∃ l', (scanType code).Errs l l' := by
  refine ⟨?_, ?_⟩
  · rintro ⟨c, t, e, l', h, hc⟩
    exact ⟨_, (scanType_errs hlg).mpr ⟨c, t, e, l', h, by simpa using hc, rfl⟩⟩
  · rintro ⟨l', h⟩
    obtain ⟨c, t, e, l₁, h, hc, -⟩ := (scanType_errs hlg).mp h
    exact ⟨c, t, e, l₁, h, by simpa using hc⟩

theorem scanType_errs_le (hlg : code ≠ .lg) (h : (scanType code).Errs l l') :
    l'.rest.length ≤ l.rest.length := by
  rcases scanType_stays hlg h with rfl | ⟨hend, -⟩
  · exact Nat.le_refl _
  · rw [hend]
    exact Nat.zero_le _

/-- It leaves a trace just if the keyword is there without the brace. -/
theorem braced_untraced {α : Type} {x : P α} (hx : x.NeverErrs) {kw : TokenType} (hlg : kw ≠ .lg)
    (hint : kw ∉ [.int, .minusOne]) :
    Untraced Stays (scanType kw >>= fun _ => scanType .lb >>= fun _ => x) l ↔
      ∀ l₁, Stands l kw l₁ → ¬ Lacks l₁ [.lb] := by
  refine ⟨?_, ?_⟩
  · rintro h l₁ ⟨t, hscan⟩ hlacks
    obtain ⟨l', hl'⟩ := (lacks_iff (by decide)).mp hlacks
    have herrs := (braced_errs hx kw).mpr
      (.inr ⟨t, l₁, (scanType_accepts hlg).mpr ⟨false, hscan⟩, hl'⟩)
    exact Stands.not_stays ⟨t, hscan⟩ (scanType_errs_le (by decide) hl') (h l' herrs)
  · intro h l' herrs
    rcases (braced_errs hx kw).mp herrs with herrs | ⟨t, l₁, ht, herrs⟩
    · exact scanType_stays hlg herrs
    · exact absurd ((lacks_iff (by decide)).mpr ⟨l', herrs⟩)
        (h l₁ (stands_of_accepts hlg hint ht))

/-- The forms of a type behind the first. -/
def typeForms (p : Parser) (r : Rec) : List (P TypeNode) :=
  [interfaceType r, basicTypes p r, arrayTypes r, funcTypes r]

theorem allTypes_choice : p.allTypes r = (do
    let ptrLevel ← stars r
    let n ← choose (structType r) (typeForms p r)
    pure (n.setPtrLevel ptrLevel)) := rfl

/-- A `struct` or an `interface` has a brace behind it. -/
def TypeWhole (l : Lexer) : Prop :=
  ∀ l₁, Stands l .resStruct l₁ ∨ Stands l .resInterface l₁ → ¬ Lacks l₁ [.lb]

theorem structType_untraced :
    Untraced Stays (structType r) l ↔ ∀ l₁, Stands l .resStruct l₁ → ¬ Lacks l₁ [.lb] :=
  braced_untraced (NeverErrs.bind (NeverErrs.iterate structTypeTurn_neverErrs _ _)
    fun _ => NeverErrs.pure _) (by decide) (by decide)

theorem interfaceType_untraced :
    Untraced Stays (interfaceType r) l ↔ ∀ l₁, Stands l .resInterface l₁ → ¬ Lacks l₁ [.lb] :=
  braced_untraced (NeverErrs.bind (NeverErrs.iterate interfaceTypeTurn_neverErrs _ _)
    fun _ => NeverErrs.pure _) (by decide) (by decide)

theorem rewinding_untraced {α : Type} (x : P α) : Untraced Stays x.rewinding l :=
  fun _ h => .inl (rewinding_errs.mp h).2

theorem funcTypes_errs (h : (funcTypes r).Errs l l') : (scanType .resFunc).Errs l l' := by
  rcases bind_errs h with h | ⟨t, l₁, -, h⟩
  · exact h
  · rcases bind_errs h with h | ⟨args, l₂, -, h⟩
    · exact absurd h (funcParams_neverErrs l₁ l')
    · rcases bind_errs h with h | ⟨ret, l₃, -, ⟨e, he⟩⟩
      · exact absurd h (opt_neverErrs _ l₂ l')
      · cases he

theorem typeForms_untraced :
    (∀ y ∈ structType r :: typeForms p r, Untraced Stays y l) ↔ TypeWhole l := by
  have hfunc : Untraced Stays (funcTypes r) l := fun l' h => scanType_stays (by decide) (funcTypes_errs h)
  have hbasic : Untraced Stays (basicTypes p r) l := rewinding_untraced _
  have harray : Untraced Stays (arrayTypes r) l := rewinding_untraced _
  refine ⟨?_, ?_⟩
  · rintro h l₁ (hl₁ | hl₁)
    · exact structType_untraced.mp (h _ List.mem_cons_self) l₁ hl₁
    · exact interfaceType_untraced.mp (h _ (List.mem_cons_of_mem _ List.mem_cons_self)) l₁ hl₁
  · intro h y hy
    simp only [typeForms, List.mem_cons, List.not_mem_nil, or_false] at hy
    rcases hy with rfl | rfl | rfl | rfl | rfl
    · exact structType_untraced.mpr fun l₁ hl₁ => h l₁ (.inl hl₁)
    · exact interfaceType_untraced.mpr fun l₁ hl₁ => h l₁ (.inr hl₁)
    · exact hbasic
    · exact harray
    · exact hfunc

/-- A token of the text is one that `scanToken` makes. -/
theorem scan_token (h : l.Scan = .token c t false l') :
    ∃ d s, scanToken l.past d s = .token c t false l' := by
  have hfrom : ∀ (s : Text) (comment : Bool), scanFrom l.past comment s = .token c t false l' →
      ∃ d s, scanToken l.past d s = .token c t false l' := by
    intro s
    induction s with
    | nil => exact fun _ h => by cases h
    | cons d s ih =>
      intro comment h
      rw [scanFrom] at h
      split at h
      · exact ih _ h
      · split at h
        · exact ih _ h
        · split at h
          · exact ih _ h
          · exact ⟨d, s, h⟩
  exact hfrom l.rest false h

/-- The text of a mark is no reserved type. -/
theorem isResType_mark {d : Char} {s : Text} {past : Nat} (h : scanSwitch past d s = .token c t e l') :
    IsResType t = none := by
  have hmark : ∀ {d next : Char} {two one : TokenType}, scanMark past d next two one s = .token c t e l' →
      t = [d, next] ∨ t = [d] := by
    intro d next two one h
    unfold scanMark at h
    split at h
    · exact .inl (Scanned.token.inj h).2.1.symm
    · exact .inr (Scanned.token.inj h).2.1.symm
  unfold scanSwitch at h
  split at h
  -- one character, two by `scanMark`, or those with one more case in front
  all_goals first
    | (cases h; rfl)
    | cases h
    | (rcases hmark h with rfl | rfl <;> rfl)
    | (split at h
       · cases h
         rfl
       · first
         | cases h
         | (rcases hmark h with rfl | rfl <;> rfl))

/-- Tokens with these codes are no reserved types. -/
theorem isResType_starts (h : l.Scan = .token c t false l')
    (hc : c ∈ [.resStruct, .resInterface, .lsb, .resFunc]) : IsResType t = none := by
  obtain ⟨d, s, h⟩ := scan_token h
  unfold scanToken at h
  split at h
  · split at h
    · obtain ⟨rfl, -⟩ := Scanned.token.inj h
      exact absurd hc (by decide)
    · cases h
  · split at h
    · obtain ⟨hcode, htext, -⟩ := Scanned.token.inj h
      have hall : ∀ w ∈ reservedTypes, (reserved.lookup w.1).getD .var ∉
          [.resStruct, .resInterface, .lsb, .resFunc] := by decide
      unfold IsResType
      rw [List.lookup_eq_none_iff]
      intro w hw
      rw [bne_iff_ne]
      rintro rfl
      rw [← hcode, htext] at hc
      exact hall w hw hc
    · split at h
      · obtain ⟨hcode, -⟩ := Scanned.token.inj h
        have hnum : ∀ b : Bool, (if b then TokenType.float else .int) ∉
            [.resStruct, .resInterface, .lsb, .resFunc] := by decide
        rw [← hcode] at hc
        exact absurd hc (hnum _)
      · exact isResType_mark h

/-- Where the text has no token, no form of a type is found, and the lexer goes to the end. -/
def AtEnd (l : Lexer) : Prop := ∃ c t l', l.Scan = .token c t true l'

theorem Stands.not_atEnd (h : Stands l c l₁) : ¬ AtEnd l := by
  obtain ⟨t, h⟩ := h
  rintro ⟨c', t', l', h'⟩
  obtain ⟨-, -, he, -⟩ := Scanned.token.inj (h.symm.trans h')
  cases he

theorem Stays.atEnd (h : Stays l l') (hend : AtEnd l) : AtEnd l' := by
  rcases h with rfl | ⟨hnil, -⟩
  · exact hend
  · obtain ⟨rest, past⟩ := l'
    obtain rfl : rest = [] := hnil
    exact ⟨_, _, _, rfl⟩

/-- What `basicTypes` accepts begins with the name of a type. -/
theorem basicTypes_accepts {a : TypeNode} (h : (basicTypes p r).Accepts l a l') :
    ∃ c t l₁, l.Scan = .token c t false l₁ ∧ (IsResType t = none → c = .var) := by
  obtain ⟨⟨c, t, e⟩, l₁, htok, h⟩ := bind_accepts (rewinding_accepts.mp h)
  have hscan := scan_accepts htok
  dsimp only at h
  cases e with
  | true => cases h
  | false =>
    refine ⟨c, t, l₁, hscan, ?_⟩
    intro hres
    rw [if_neg Bool.false_ne_true, hres] at h
    by_contra hc
    rw [if_neg hc] at h
    cases h

/-- What begins with a token that is looked for. -/
theorem stands_of_bind {α : Type} {f : Text → P α} {a : α} {kw : TokenType} (hlg : kw ≠ .lg)
    (hint : kw ∉ [.int, .minusOne]) (h : (scanType kw >>= f).Accepts l a l') : ∃ l₁, Stands l kw l₁ := by
  obtain ⟨t, l₁, ht, -⟩ := bind_accepts h
  exact ⟨l₁, stands_of_accepts hlg hint ht⟩

/-- Another token is there. -/
theorem errs_of_bind {α : Type} {f : Text → P α} {kw : TokenType} (hlg : kw ≠ .lg)
    (h : Stands l c l₁) (hc : c ≠ kw) : (scanType kw >>= f).Errs l l := by
  obtain ⟨t, hscan⟩ := h
  exact Errs.bind ((scanType_errs hlg).mpr ⟨c, t, false, l₁, hscan, hc, rfl⟩)

theorem basicTypes_errs (h : Stands l c l₁) (hc : c ∈ [.resStruct, .resInterface, .lsb, .resFunc]) :
    (basicTypes p r).Errs l l := by
  obtain ⟨t, hscan⟩ := h
  refine rewinding_errs.mpr ⟨⟨l₁, .other, ?_⟩, rfl⟩
  have hvar : c ≠ .var := by
    rintro rfl
    exact absurd hc (by decide)
  rw [bind_run, scan_of hscan, Run.andThen_ok]
  simp only [Bool.false_eq_true, if_false, isResType_starts hscan hc, hvar]
  rfl

theorem arrayTypes_errs (h : Stands l c l₁) (hc : c ≠ .lsb) : (arrayTypes r).Errs l l :=
  rewinding_errs.mpr ⟨⟨l, errs_of_bind (by decide) h hc⟩, rfl⟩

/-- A form that is found begins with its own token, and there the forms in front return an error. -/
theorem typeForms_pairwise : (structType r :: typeForms p r).Pairwise
    (fun y z => (∃ a l', z.Accepts l a l') → ∃ l', y.Errs l l') := by
  have hinterface : (∃ a l', (interfaceType r).Accepts l a l') → ∃ l₁, Stands l .resInterface l₁ := by
    rintro ⟨a, l', h⟩
    exact stands_of_bind (by decide) (by decide) h
  have harray : (∃ a l', (arrayTypes r).Accepts l a l') → ∃ l₁, Stands l .lsb l₁ := by
    rintro ⟨a, l', h⟩
    exact stands_of_bind (by decide) (by decide) (rewinding_accepts.mp h)
  have hfunc : (∃ a l', (funcTypes r).Accepts l a l') → ∃ l₁, Stands l .resFunc l₁ := by
    rintro ⟨a, l', h⟩
    exact stands_of_bind (by decide) (by decide) h
  have hbasic : (∃ a l', (basicTypes p r).Accepts l a l') →
      ∃ c l₁, Stands l c l₁ ∧ c ∉ [.resStruct, .resInterface, .lsb, .resFunc] := by
    rintro ⟨a, l', h⟩
    obtain ⟨c, t, l₁, hscan, hvar⟩ := basicTypes_accepts h
    refine ⟨c, l₁, ⟨t, hscan⟩, ?_⟩
    intro hc
    rw [hvar (isResType_starts hscan hc)] at hc
    exact absurd hc (by decide)
  have hstructErrs : ∀ {c l₁}, Stands l c l₁ → c ≠ .resStruct → ∃ l', (structType r).Errs l l' :=
    fun hl₁ hc => ⟨l, errs_of_bind (by decide) hl₁ hc⟩
  have hinterfaceErrs : ∀ {c l₁}, Stands l c l₁ → c ≠ .resInterface →
      ∃ l', (interfaceType r).Errs l l' :=
    fun hl₁ hc => ⟨l, errs_of_bind (by decide) hl₁ hc⟩
  simp only [typeForms, List.pairwise_cons, List.forall_mem_cons, List.not_mem_nil, false_imp_iff,
    implies_true, and_true, List.Pairwise.nil]
  refine ⟨⟨?_, ?_, ?_, ?_⟩, ⟨?_, ?_, ?_⟩, ⟨?_, ?_⟩, ?_⟩
  · exact fun h => (hinterface h).elim fun _ hl₁ => hstructErrs hl₁ (by decide)
  · intro h
    obtain ⟨c, l₁, hl₁, hc⟩ := hbasic h
    refine hstructErrs hl₁ ?_
    rintro rfl
    exact hc (by decide)
  · exact fun h => (harray h).elim fun _ hl₁ => hstructErrs hl₁ (by decide)
  · exact fun h => (hfunc h).elim fun _ hl₁ => hstructErrs hl₁ (by decide)
  · intro h
    obtain ⟨c, l₁, hl₁, hc⟩ := hbasic h
    refine hinterfaceErrs hl₁ ?_
    rintro rfl
    exact hc (by decide)
  · exact fun h => (harray h).elim fun _ hl₁ => hinterfaceErrs hl₁ (by decide)
  · exact fun h => (hfunc h).elim fun _ hl₁ => hinterfaceErrs hl₁ (by decide)
  · exact fun h => (harray h).elim fun _ hl₁ => ⟨l, basicTypes_errs hl₁ (by decide)⟩
  · exact fun h => (hfunc h).elim fun _ hl₁ => ⟨l, basicTypes_errs hl₁ (by decide)⟩
  · exact fun h => (hfunc h).elim fun _ hl₁ => ⟨l, arrayTypes_errs hl₁ (by decide)⟩

theorem typeForms_atEnd {a : TypeNode} (h : AtEnd l) :
    (∀ y ∈ structType r :: typeForms p r, ¬ y.Accepts l a l') ∧
      ∀ y ∈ structType r :: typeForms p r, ∀ l', y.Errs l l' → AtEnd l' := by
  refine ⟨?_, ?_⟩
  · intro y hy hacc
    have hnone : ∀ {c l₁}, ¬ Stands l c l₁ := fun hl₁ => hl₁.not_atEnd h
    simp only [typeForms, List.mem_cons, List.not_mem_nil, or_false] at hy
    rcases hy with rfl | rfl | rfl | rfl | rfl
    · exact (stands_of_bind (by decide) (by decide) hacc).elim fun _ => hnone
    · exact (stands_of_bind (by decide) (by decide) hacc).elim fun _ => hnone
    · obtain ⟨c, t, l₁, hscan, -⟩ := basicTypes_accepts hacc
      exact hnone ⟨t, hscan⟩
    · exact (stands_of_bind (by decide) (by decide) (rewinding_accepts.mp hacc)).elim fun _ => hnone
    · exact (stands_of_bind (by decide) (by decide) hacc).elim fun _ => hnone
  · intro y hy l' herrs
    have hwhole : TypeWhole l := by
      rintro l₁ (hl₁ | hl₁)
      · exact absurd h hl₁.not_atEnd
      · exact absurd h hl₁.not_atEnd
    exact (typeForms_untraced.mpr hwhole y hy l' herrs).atEnd h

/-- Then what the choice accepts is what one of the forms does. -/
theorem typeForms_accept (h : TypeWhole l) {a : TypeNode} :
    (choose (structType r) (typeForms p r)).Accepts l a l' ↔
      ∃ y ∈ structType r :: typeForms p r, y.Accepts l a l' := by
  by_cases hend : AtEnd l
  · refine iff_of_false ?_ ?_
    · have hkeep : ∀ y ∈ structType r :: typeForms p r, ∀ s, AtEnd s → ¬ y.Accepts s a l' :=
        fun y hy s hs => (typeForms_atEnd hs).1 y hy
      refine choose_rejects hkeep (fun y hy s s' hs => ?_) l hend
      exact And.right (a := ∀ y ∈ structType r :: typeForms p r, ¬ y.Accepts s a l') (typeForms_atEnd hs) y hy s'
    · rintro ⟨y, hy, hacc⟩
      exact (typeForms_atEnd hend).1 y hy hacc
  · refine choose_ok_iff ?_ typeForms_pairwise
    intro y hy l' herrs
    rcases typeForms_untraced.mpr h y hy l' herrs with rfl | ⟨-, hscan⟩
    · rfl
    · exact absurd hscan hend

end Types

end CalcLang.Parser
