import CalcLang.Lex.Lines
import CalcLang.Lex.Strings
import CalcLang.Lib.Transition
import CalcLang.Parser.ScanType

/-!
# Where the lexer can be

Every `getCh` moves the lexer on by one, at the end of the text as well. A token that is ended by the character
behind it is left by a step back, but there is none if the text ends first: behind a word, a number or a string
at the end of the text, and where there is no token any more, the position is out of the text.

The lexer's own functions index its array by positions. `SkipLn` and `PrintCurrent` take slices up to the
position they are at; `Currpos` goes on from a recorded position to the next character that is no space,
and does not ask for the end.

`inRange_iff` says of runs of these functions which steps keep all that inside the text: those that do not read
over the end (`Overruns`), and that do not record a position with only spaces behind it.
-/

namespace CalcLang.Parser.Positions

open CalcLang.Lex CalcLang.Lib Back

variable {c code : TokenType} {t s : Text} {e : Bool} {l l' : Lexer} {q : Nat}

/-! ## The lexer's functions -/

/-- What `SetInput` makes: the runes, with `cap` places in their array, of a string of so many bytes. -/
structure Input where
  runes : Text
  cap : Nat
  bytes : Nat
  le_cap : runes.length ≤ cap
  le_bytes : runes.length ≤ bytes

namespace Input

variable (inp : Input)

/-- `GetPos`. -/
def pos (l : Lexer) : Nat := inp.runes.length - l.rest.length + l.past

/-- The index of the last newline, or 0. -/
def lastLine (s : Text) : Nat :=
  match s.reverse.idxOf? '\n' with
  | some i => s.length - 1 - i
  | none => 0

/-- `Currpos`; `none` where it panics. -/
def Currpos (pos : Nat) : Option (Nat × Int) :=
  if inp.cap < pos then none
  else
    let before := inp.runes.take pos
    let line := 1 + before.count '\n'
    ((inp.runes.drop pos).findIdx? (· ≠ ' ')).map fun i : Nat => (line, ((pos + i : Nat) : Int) - lastLine before)

/-- The line that `SkipLn` begins with; `none` where it panics. -/
def skipLine (pos : Nat) : Option Nat :=
  if inp.cap < pos then none else some (1 + (inp.runes.take pos).count '\n')

/-- The text that `SkipLn` returns; `none` where it panics. -/
def skipped (prevpos pos : Nat) : Option Text :=
  if prevpos ≤ pos ∧ pos ≤ inp.cap then some ((inp.runes.take pos).drop prevpos) else none

/-- The slice that `PrintCurrent` takes of the string; `none` where it panics. -/
def PrintCurrent (pos : Nat) : Option (Nat × Nat) :=
  let start := pos - 10
  let stop := min (pos + 10) inp.runes.length
  if start ≤ stop ∧ stop ≤ inp.bytes then some (start, stop) else none

end Input

/-- What is left where `Scan` comes to a token, from the start of one or (`comment`) inside a comment. -/
def front (comment : Bool) : Text → Text
  | [] => []
  | c :: s =>
    if comment then front (c ≠ '\n') s
    else if isBlank c then front false s
    else if c = '/' && s.head? = some '/' then front true s
    else c :: s

/-- What is left behind an unknown escape in a string. -/
def strRest : Text → Text
  | [] => []
  | ['\\'] => []
  | '\\' :: c :: s => if (escape c).isSome then strRest s else s
  | c :: s => if c = '"' then s else strRest s

/-- Where the lexer is when `Scan` panics. -/
def stopped (l : Lexer) : Lexer :=
  ⟨match front false l.rest with
    | [] => []
    | _ :: s => strRest s, l.past⟩

/-! ## Runs -/

/-- The lexer, the positions recorded, and where the `SkipLn` began that is going on. -/
structure State where
  l : Lexer
  recorded : List Lexer
  skipping : Option Lexer

/-- A call; `turn` is a turn of `SkipLn`'s loop. A position is recorded by `SetCheckpoint`, or by `GetPos`. -/
inductive Op
  | Scan
  | ScanType (code : TokenType)
  | PeekToken
  | SetCheckpoint
  | GobackTo (i : Nat)
  | SkipLn
  | turn
  deriving DecidableEq

variable (inp : Input)

/-- What a call does. A panic leaves the lexer where it is; where the program ends there is no next state. -/
def State.step (s : State) : Op → Option State
  | .turn => do
    let prev ← s.skipping
    match s.l.Scan with
    | .token code _ _ l =>
      if code ≠ .nl then some { s with l }
      else if (inp.skipped (inp.pos prev) (inp.pos s.l)).isSome then some { s with l, skipping := none }
      else some { s with skipping := none }
    -- `PeekToken` goes back when it panics
    | .panic => some { s with skipping := none }
    | .fatal => none
  | op =>
    if s.skipping.isSome then none
    else
      match op with
      | .Scan =>
        match s.l.Scan with
        | .token _ _ _ l => some { s with l }
        | .panic => some { s with l := stopped s.l }
        | .fatal => none
      | .ScanType code =>
        match ((scanType code).run s.l).result with
        | .ok _ l => some { s with l }
        | .err _ l => some { s with l }
        | .panic => some { s with l := stopped s.l }
        | .fatal | .out => none
      | .PeekToken =>
        match s.l.Scan with
        | .fatal => none
        | _ => some s
      | .SetCheckpoint => some { s with recorded := s.recorded ++ [s.l] }
      | .GobackTo i => do
        let l ← s.recorded[i]?
        some { s with l }
      | .SkipLn => if (inp.skipLine (inp.pos s.l)).isSome then some { s with skipping := some s.l } else some s
      | .turn => none

/-- A lexer with that input. -/
def lexing : Machine State Op where
  start := ⟨⟨inp.runes, 0⟩, [], none⟩
  step := State.step inp

/-- The position is in range, and so is all that the functions would index or slice. -/
structure State.InRange (s : State) : Prop where
  pos_le : inp.pos s.l ≤ inp.runes.length
  SkipLn : (inp.skipLine (inp.pos s.l)).isSome
  skipped : ∀ prev ∈ s.skipping, (inp.skipped (inp.pos prev) (inp.pos s.l)).isSome
  PrintCurrent : (inp.PrintCurrent (inp.pos s.l)).isSome
  Currpos : ∀ l ∈ s.recorded, (inp.Currpos (inp.pos l)).isSome

/-! ## The steps that read over the end -/

/-- The token that begins with `c` takes all that follows, and asks for more. -/
def takesAll (c : Char) (s : Text) : Bool :=
  if c = '"' then openStr s
  else if isLetterOrUnderscore c then s.all isWordChar
  else if isNum c then
    let prefixed := c = '0' && s.head?.any fun next => next = 'b' || next = 'o' || next = 'x'
    (if prefixed then s.tail else s).all fun d => d = '.' || isNum d
  else false

/-- The code of that token. -/
def kind (c : Char) (s : Text) : TokenType :=
  if c = '"' then .str
  else if isLetterOrUnderscore c then (reserved.lookup (c :: s)).getD .var
  else if s.contains '.' then .float else .int

/-- What is left is no token, or a token that takes it all: of that code, if one is given. -/
def Overruns (code : Option TokenType) (s : Text) : Prop :=
  match front false s with
  | [] => True
  | c :: s => takesAll c s ∧ ∀ k ∈ code, k = kind c s

/-- A step that stays inside: it does not read over the end, and does not record a position with only
spaces behind it. -/
def State.Inside (s : State) : Op → Prop
  | .Scan | .turn => ¬ Overruns none s.l.rest
  | .ScanType code => ¬ Overruns (some code) s.l.rest
  | .SetCheckpoint => ∃ c ∈ s.l.rest, c ≠ ' '
  | .PeekToken | .GobackTo _ | .SkipLn => True

/-! ## What `Scan` reads -/

section Scanning

variable {d : Char}

theorem scanFrom_front (q : Nat) (comment : Bool) (s : Text) :
    (front comment s = [] ∧ ∃ code, scanFrom q comment s = .token code [] true ⟨[], q + 1⟩) ∨
      ∃ d r, front comment s = d :: r ∧ d :: r <:+ s ∧ scanFrom q comment s = scanToken q d r := by
  induction s generalizing comment with
  | nil => exact .inl ⟨rfl, _, rfl⟩
  | cons c s ih =>
    have hskip : ∀ comment, (front comment s = [] ∧ ∃ code, scanFrom q comment s = .token code [] true ⟨[], q + 1⟩) ∨
        ∃ d r, front comment s = d :: r ∧ d :: r <:+ c :: s ∧ scanFrom q comment s = scanToken q d r :=
      fun comment => by
        refine (ih comment).imp_right ?_
        rintro ⟨d, r, hd, hr, hscan⟩
        exact ⟨d, r, hd, hr.trans (List.suffix_cons c s), hscan⟩
    rw [front, scanFrom]
    by_cases hcomment : comment = true
    · rw [if_pos hcomment, if_pos hcomment]
      exact hskip _
    · rw [if_neg hcomment, if_neg hcomment]
      by_cases hb : isBlank c = true
      · rw [if_pos hb, if_pos hb]
        exact hskip _
      · rw [if_neg hb, if_neg hb]
        by_cases hslash : (c = '/' && s.head? = some '/') = true
        · rw [if_pos hslash, if_pos hslash]
          exact hskip _
        · rw [if_neg hslash, if_neg hslash]
          exact .inr ⟨c, s, rfl, List.suffix_refl _, rfl⟩

/-- How far a token goes: over the end if it takes all that follows. -/
structure Reaches (q : Nat) (s : Text) (all : Bool) (l : Lexer) : Prop where
  suffix : l.rest <:+ s
  past : l.past = if all then q + 1 else q
  rest : all = true → l.rest = []

theorem scanWord_reaches : Reaches q s (s.all isWordChar) (scanWord q s).2 := by
  induction s with
  | nil => exact ⟨List.suffix_refl _, rfl, fun _ => rfl⟩
  | cons c s ih =>
    rw [scanWord]
    cases hc : isWordChar c with
    | true =>
      have hc' : (isLetterOrUnderscore c || isNum c) = true := hc
      rw [if_pos hc', List.all_cons, hc, Bool.true_and]
      exact ⟨ih.suffix.trans (List.suffix_cons c s), ih.past, ih.rest⟩
    | false =>
      have hc' : ¬ (isLetterOrUnderscore c || isNum c) = true := by
        rw [Bool.not_eq_true]
        exact hc
      rw [if_neg hc', List.all_cons, hc, Bool.false_and]
      exact ⟨List.suffix_refl _, rfl, fun h => absurd h Bool.false_ne_true⟩

theorem scanNum_reaches : Reaches q s (s.all fun d => d = '.' || isNum d) (scanNum q s).2 := by
  induction s with
  | nil => exact ⟨List.suffix_refl _, rfl, fun _ => rfl⟩
  | cons c s ih =>
    rw [scanNum, List.all_cons]
    by_cases hc : (c = '.' || isNum c) = true
    · rw [if_pos hc, hc, Bool.true_and]
      exact ⟨ih.suffix.trans (List.suffix_cons c s), ih.past, ih.rest⟩
    · rw [if_neg hc, Bool.eq_false_iff.mpr hc, Bool.false_and]
      exact ⟨List.suffix_refl _, rfl, fun h => absurd h Bool.false_ne_true⟩

theorem scanStr_reaches {i : Text × Lexer} (h : scanStr q s = some i) : Reaches q s (openStr s) i.2 := by
  fun_induction openStr s generalizing i with
  | case1 => 
    obtain rfl := Option.some.inj h
    exact ⟨List.suffix_refl _, rfl, fun _ => rfl⟩
  | case2 => 
    obtain rfl := Option.some.inj h
    exact ⟨List.nil_suffix, rfl, fun _ => rfl⟩
  | case3 c s ih =>
    rw [scanStr_escaped] at h
    obtain ⟨e, he, h⟩ := Option.bind_eq_some_iff.mp h
    obtain ⟨k, hk, h⟩ := Option.bind_eq_some_iff.mp h
    obtain rfl := Option.some.inj h
    have hreach := ih hk
    rw [he, Option.isSome_some, Bool.true_and]
    exact ⟨hreach.suffix.trans ((List.suffix_cons c s).trans (List.suffix_cons _ _)), hreach.past, hreach.rest⟩
  -- a character that stands for itself, or the closing quote
  | case4 c s h₁ h₂ ih =>
    have hslash := ne_backslash h₁ h₂
    by_cases hc : c = '"'
    · subst hc
      obtain rfl := Option.some.inj ((scanStr_closing q s).symm.trans h)
      exact ⟨List.suffix_cons _ s, rfl, fun h => absurd h Bool.false_ne_true⟩
    · rw [scanStr_plain q ⟨hc, hslash⟩, Option.map_eq_some_iff] at h
      obtain ⟨k, hk, rfl⟩ := h
      have hreach := ih hk
      rw [decide_eq_true hc, Bool.true_and]
      exact ⟨hreach.suffix.trans (List.suffix_cons c s), hreach.past, hreach.rest⟩

theorem scanMark_suffix {next : Char} {two one : TokenType}
    (h : scanMark q d next two one s = .token code t e l') : l'.rest <:+ s := by
  unfold scanMark at h
  split at h
  · cases h
    exact List.tail_suffix s
  · cases h
    exact List.suffix_refl s

theorem scanSwitch_suffix (h : scanSwitch q d s = .token code t e l') : l'.rest <:+ s := by
  unfold scanSwitch at h
  split at h
  all_goals first
    | exact scanMark_suffix h
    | (cases h; exact List.suffix_refl s)
    | cases h
    | (split at h
       · cases h
         exact List.tail_suffix s
       · first
         | exact scanMark_suffix h
         | cases h)

/-- The letter of a base is no point. -/
private theorem contains_prefixed (hpre : (d = '0' && s.head?.any fun next => next = 'b' || next = 'o' || next = 'x') = true) :
    s.tail.contains '.' = s.contains '.' := by
  rw [Bool.and_eq_true] at hpre
  cases s with
  | nil => rfl
  | cons c s =>
    have hc : c = 'b' ∨ c = 'o' ∨ c = 'x' := by simpa [or_assoc] using hpre.2
    rcases hc with rfl | rfl | rfl <;> rfl

theorem scanNumber_reaches (hd : isNum d = true) (h : scanNumber q d s = .token code t e l') :
    Reaches q s (takesAll d s) l' ∧ (takesAll d s = true → code = kind d s) := by
  have hstr : d ≠ '"' := by
    rintro rfl
    cases hd
  have hword : ¬ isLetterOrUnderscore d = true := by
    rw [num_not_letter hd]
    exact Bool.false_ne_true
  unfold takesAll kind
  rw [if_neg hstr, if_neg hword, if_pos hd, if_neg hstr, if_neg hword]
  unfold scanNumber at h
  obtain ⟨rfl, -, -, rfl⟩ := Scanned.token.inj h
  dsimp only
  by_cases hpre : (d = '0' && s.head?.any fun next => next = 'b' || next = 'o' || next = 'x') = true
  · rw [if_pos hpre]
    have hreach := scanNum_reaches (q := q) (s := s.tail)
    refine ⟨⟨hreach.suffix.trans (List.tail_suffix s), hreach.past, hreach.rest⟩, fun hall => ?_⟩
    rw [scanNum_all q (List.all_eq_true.mp hall), contains_prefixed hpre]
  · rw [if_neg hpre]
    refine ⟨scanNum_reaches, fun hall => ?_⟩
    rw [scanNum_all q (List.all_eq_true.mp hall)]

/-- What a token that begins with `d` takes. -/
theorem scanToken_reaches (h : scanToken q d s = .token code t e l') :
    Reaches q s (takesAll d s) l' ∧ (takesAll d s = true → code = kind d s) := by
  unfold scanToken at h
  by_cases hstr : d = '"'
  · unfold takesAll kind
    rw [if_pos hstr] at h ⊢
    cases hi : scanStr q s with
    | none =>
      rw [hi] at h
      cases h
    | some i =>
      rw [hi] at h
      obtain ⟨rfl, -, -, rfl⟩ := Scanned.token.inj h
      exact ⟨scanStr_reaches hi, fun _ => (if_pos hstr).symm⟩
  · rw [if_neg hstr] at h
    by_cases hword : isLetterOrUnderscore d = true
    · unfold takesAll kind
      rw [if_pos hword] at h
      rw [if_neg hstr, if_pos hword, if_neg hstr, if_pos hword]
      obtain ⟨rfl, -, -, rfl⟩ := Scanned.token.inj h
      refine ⟨scanWord_reaches, fun hall => ?_⟩
      rw [scanWord_all q (List.all_eq_true.mp hall)]
    · rw [if_neg hword] at h
      by_cases hnum : isNum d = true
      · rw [if_pos hnum] at h
        exact scanNumber_reaches hnum h
      · rw [if_neg hnum] at h
        have hnone : takesAll d s = false := by
          unfold takesAll
          rw [if_neg hstr, if_neg hword, if_neg hnum]
        rw [hnone]
        exact ⟨⟨scanSwitch_suffix h, scanSwitch_past h, fun h => absurd h Bool.false_ne_true⟩,
          fun h => absurd h Bool.false_ne_true⟩

theorem strRest_suffix (s : Text) : strRest s <:+ s := by
  fun_induction strRest s with
  | case1 => exact List.suffix_refl _
  | case2 => exact List.nil_suffix
  | case3 c s _ ih => exact ih.trans ((List.suffix_cons c s).trans (List.suffix_cons _ _))
  | case4 c s _ => exact (List.suffix_cons c s).trans (List.suffix_cons _ _)
  | case5 c s => exact List.suffix_cons _ _
  | case6 c s _ _ _ ih => exact ih.trans (List.suffix_cons _ _)

/-- Where a panic leaves the lexer. -/
theorem stopped_suffix : (stopped l).rest <:+ l.rest := by
  rcases scanFrom_front l.past false l.rest with ⟨hnil, -⟩ | ⟨d, r, hd, hr, -⟩
  · unfold stopped
    rw [hnil]
    exact List.nil_suffix
  · unfold stopped
    rw [hd]
    exact (strRest_suffix r).trans ((List.suffix_cons d r).trans hr)

/-- What `Scan` takes. -/
theorem scan_reaches (h : l.Scan = .token code t e l') : l'.rest <:+ l.rest ∧
    (Overruns none l.rest → l' = ⟨[], l.past + 1⟩) ∧ (¬ Overruns none l.rest → l'.past = l.past) ∧
    (Overruns (some code) l.rest ↔ Overruns none l.rest) := by
  unfold Overruns
  rcases scanFrom_front l.past false l.rest with ⟨hnil, c, hscan⟩ | ⟨d, r, hd, hr, hscan⟩
  · rw [hnil]
    obtain ⟨-, -, -, rfl⟩ := Scanned.token.inj (hscan.symm.trans h)
    exact ⟨List.nil_suffix, fun _ => rfl, fun hno => absurd trivial hno, Iff.rfl⟩
  · rw [hd]
    obtain ⟨hreach, hkind⟩ := scanToken_reaches (hscan.symm.trans h)
    refine ⟨hreach.suffix.trans ((List.suffix_cons d r).trans hr), fun hall => ?_, fun hno => ?_, ?_⟩
    · have hpast := hreach.past
      rw [hall.1] at hpast
      exact Lexer.ext (hreach.rest hall.1) hpast
    · have hpast := hreach.past
      rwa [if_neg fun hall => hno ⟨hall, by rintro k ⟨⟩⟩] at hpast
    · refine and_congr_right fun hall => ?_
      simp [hkind hall]

/-- Where a string is not closed, no unknown escape stops it. -/
theorem scanStr_open (h : openStr s = true) : ∃ i, scanStr q s = some i := by
  fun_induction openStr s with
  | case1 => exact ⟨_, rfl⟩
  | case2 => exact ⟨_, rfl⟩
  | case3 c s ih =>
    rw [Bool.and_eq_true] at h
    obtain ⟨e, he⟩ := Option.isSome_iff_exists.mp h.1
    obtain ⟨i, hi⟩ := ih h.2
    exact ⟨(e :: i.1, i.2), by rw [scanStr_escaped, he, hi]; rfl⟩
  | case4 c s h₁ h₂ ih =>
    rw [Bool.and_eq_true, decide_eq_true_iff] at h
    have hslash := ne_backslash h₁ h₂
    obtain ⟨i, hi⟩ := ih h.2
    exact ⟨(c :: i.1, i.2), by rw [scanStr_plain q ⟨h.1, hslash⟩, hi]; rfl⟩

/-- Where `Scan` stops in the middle, it has not come to the end. -/
theorem not_overruns_of_stopped (h : l.Scan = .panic ∨ l.Scan = .fatal) : ¬ Overruns none l.rest := by
  unfold Overruns
  rcases scanFrom_front l.past false l.rest with ⟨-, code, hscan⟩ | ⟨d, r, hd, -, hscan⟩
  · have hl : l.Scan = .token code [] true ⟨[], l.past + 1⟩ := hscan
    rcases h with h | h <;> cases h.symm.trans hl
  · rw [hd]
    rintro ⟨hall, -⟩
    have hl : l.Scan = scanToken l.past d r := hscan
    unfold takesAll at hall
    unfold scanToken at hl
    by_cases hstr : d = '"'
    · rw [if_pos hstr] at hall hl
      obtain ⟨i, hi⟩ := scanStr_open (q := l.past) hall
      rw [hi] at hl
      rcases h with h | h <;> cases h.symm.trans hl
    · rw [if_neg hstr] at hall hl
      by_cases hword : isLetterOrUnderscore d = true
      · rw [if_pos hword] at hl
        rcases h with h | h <;> cases h.symm.trans hl
      · rw [if_neg hword] at hall hl
        by_cases hnum : isNum d = true
        · rw [if_pos hnum] at hl
          rcases h with h | h <;> cases h.symm.trans hl
        · rw [if_neg hnum] at hall
          cases hall

theorem Overruns.of_some (h : Overruns (some code) s) : Overruns none s := by
  unfold Overruns at h ⊢
  split
  · trivial
  · next d r hd =>
    rw [hd] at h
    exact ⟨h.1, by rintro k ⟨⟩⟩

/-- The end is reported where there is no token. -/
theorem scan_front_iff (h : l.Scan = .token code t e l') : front false l.rest = [] ↔ e = true := by
  rcases scanFrom_front l.past false l.rest with ⟨hnil, c, hscan⟩ | ⟨d, r, hd, -, hscan⟩
  · obtain ⟨-, -, rfl, -⟩ := Scanned.token.inj (hscan.symm.trans h)
    exact iff_of_true hnil rfl
  · have hwithin : (scanToken l.past d r).Within r.length := scanToken_within d
    rw [← hscan] at hwithin
    have hscan' : l.Scan = scanFrom l.past false l.rest := rfl
    rw [← hscan', h] at hwithin
    rw [hd, hwithin.1]
    exact iff_of_false (List.cons_ne_nil d r) Bool.false_ne_true

/-- What a function takes that looks for one token: nothing, if there is another one. -/
structure Takes (code : TokenType) (l l' : Lexer) : Prop where
  overrun : Overruns (some code) l.rest → l' = ⟨[], l.past + 1⟩
  inside : ¬ Overruns (some code) l.rest → l'.rest <:+ l.rest ∧ l'.past = l.past

theorem ends_of_ok {x : P Text} {l₂ : Lexer} {t₂ : Text} (h : x.Accepts l t l' ∨ x.Errs l l')
    (hx : x.run l = .ok t₂ l₂) : l' = l₂ := by
  rcases h with h | ⟨e, h⟩
  · exact (Result.ok.inj (h.symm.trans (congrArg Run.result hx))).2
  · cases h.symm.trans (congrArg Run.result hx)

theorem ends_of_err {x : P Text} {l₂ : Lexer} {e : Err} (h : x.Accepts l t l' ∨ x.Errs l l')
    (hx : x.run l = .err e l₂) : l' = l₂ := by
  rcases h with h | ⟨e, h⟩
  · cases h.symm.trans (congrArg Run.result hx)
  · exact (Result.err.inj (h.symm.trans (congrArg Run.result hx))).2

theorem scanCode_takes (h : (scanCode code).Accepts l t l' ∨ (scanCode code).Errs l l') : Takes code l l' := by
  have hstopped : ∀ {x : Run Err Lexer Call Text}, (scanCode code).run l = x → x.result ≠ .panic ∧ x.result ≠ .fatal := by
    rintro x rfl
    rcases h with h | ⟨e, h⟩ <;> rw [h] <;> simp
  cases hscan : l.Scan with
  | panic => exact absurd rfl (hstopped (scanCode_panics hscan)).1
  | fatal => exact absurd rfl (hstopped (scanCode_fatal hscan)).2
  | token c t₁ e l₁ =>
    have hrun : (scanCode code).run l = if c = code then .ok t₁ l₁ else if e then .err .eos l₁ else .err .type l :=
      scanCode_of hscan
    obtain ⟨hsuffix, hover, hstays, hsome⟩ := scan_reaches hscan
    have hfront := scan_front_iff hscan
    by_cases hc : c = code
    · -- it is taken, as `Scan` does
      subst hc
      rw [if_pos rfl] at hrun
      obtain rfl := ends_of_ok h hrun
      exact ⟨fun ho => hover (hsome.mp ho), fun ho => ⟨hsuffix, hstays fun hno => ho (hsome.mpr hno)⟩⟩
    · rw [if_neg hc] at hrun
      cases e with
      | true =>
        -- at the end the lexer is not put back
        obtain rfl := ends_of_err h hrun
        have hall : ∀ k, Overruns k l.rest := fun k => by
          unfold Overruns
          rw [hfront.mpr rfl]
          trivial
        exact ⟨fun _ => hover (hall none), fun ho => absurd (hall _) ho⟩
      | false =>
        obtain rfl := ends_of_err h hrun
        refine ⟨fun ho => ?_, fun _ => ⟨List.suffix_refl _, rfl⟩⟩
        -- a token that takes all has one code only, and that is `c`
        have ho' := hsome.mpr ho.of_some
        unfold Overruns at ho ho'
        cases hd : front false l'.rest with
        | nil => exact absurd (hfront.mp hd) Bool.false_ne_true
        | cons d r =>
          rw [hd] at ho ho'
          exact absurd ((ho'.2 c rfl).trans (ho.2 code rfl).symm) hc

theorem front_dropBlanks (s : Text) : front false (s.dropWhile isBlank) = front false s := by
  induction s with
  | nil => rfl
  | cons c s ih =>
    cases hc : isBlank c with
    | true =>
      rw [List.dropWhile_cons_of_pos hc, ih, front, if_neg Bool.false_ne_true, if_pos hc]
    | false => rw [List.dropWhile_cons_of_neg (by simp [hc])]

/-- The same of `ScanType`. -/
theorem scanType_takes (h : (scanType code).Accepts l t l' ∨ (scanType code).Errs l l') : Takes code l l' := by
  by_cases hlg : code = .lg
  · subst hlg
    have hrun := scanType_lg_run (l := l)
    cases hrest : l.rest.dropWhile isBlank with
    | nil =>
      rw [hrest] at hrun
      have hfront : front false l.rest = [] := by rw [← front_dropBlanks, hrest]; rfl
      have hl : l' = ⟨[], l.past + 1⟩ := ends_of_err h hrun
      refine ⟨fun _ => hl, fun ho => absurd ?_ ho⟩
      unfold Overruns
      rw [hfront]
      trivial
    | cons c s =>
      rw [hrest] at hrun
      by_cases hc : c = '>'
      · -- one character is read, whatever token it begins
        subst hc
        have hfront : front false l.rest = '>' :: s := by
          rw [← front_dropBlanks, hrest, front, if_neg Bool.false_ne_true, if_neg (by decide), if_neg (by simp)]
        have hl : l' = ⟨s, l.past⟩ := ends_of_ok h hrun
        have hsuffix : s <:+ l.rest :=
          (List.suffix_cons '>' s).trans (hrest ▸ List.dropWhile_suffix _)
        refine ⟨fun ho => ?_, fun _ => hl ▸ ⟨hsuffix, rfl⟩⟩
        unfold Overruns at ho
        rw [hfront] at ho
        exact absurd ho.1 (by simp [takesAll, isLetterOrUnderscore, isLetter, isNum])
      · have hsame : (scanType .lg).run l = (scanCode .lg).run l := hrun.trans (if_neg hc)
        refine scanCode_takes (t := t) ?_
        rcases h with h | ⟨e, h⟩
        · left
          rwa [Accepts, ← hsame]
        · right
          exact ⟨e, by rwa [← hsame]⟩
  · rw [scanType_eq hlg] at h
    exact scanCode_takes h

theorem scanCode_stopped (h : ((scanCode code).run l).result = .panic) : l.Scan = .panic := by
  cases hscan : l.Scan with
  | token c t e l₁ =>
    rw [scanCode_of hscan] at h
    by_cases hc : c = code
    · rw [if_pos hc] at h
      cases h
    · rw [if_neg hc] at h
      cases e <;> cases h
  | panic => rfl
  | fatal =>
    rw [scanCode_fatal hscan] at h
    cases h

theorem scanType_stopped (h : ((scanType code).run l).result = .panic) : l.Scan = .panic := by
  by_cases hlg : code = .lg
  · subst hlg
    have hrun := scanType_lg_run (l := l)
    cases hrest : l.rest.dropWhile isBlank with
    | nil =>
      rw [hrest] at hrun
      cases h.symm.trans (congrArg Run.result hrun)
    | cons c s =>
      rw [hrest] at hrun
      by_cases hc : c = '>'
      · cases h.symm.trans (congrArg Run.result (hrun.trans (if_pos hc)))
      · exact scanCode_stopped ((congrArg Run.result (hrun.trans (if_neg hc))).symm.trans h)
  · rw [scanType_eq hlg] at h
    exact scanCode_stopped h

end Scanning

/-! ## Steps -/

section Steps

variable {inp : Input} {st st' : State}

/-- A position in the text. -/
structure Placed (inp : Input) (l : Lexer) : Prop where
  suffix : l.rest <:+ inp.runes
  past : l.past = 0

theorem Placed.pos_eq (h : Placed inp l) : inp.pos l = inp.runes.length - l.rest.length := by
  unfold Input.pos
  rw [h.past, Nat.add_zero]

theorem Placed.pos_le (h : Placed inp l) : inp.pos l ≤ inp.runes.length := by
  rw [h.pos_eq]
  exact Nat.sub_le _ _

theorem Placed.drop (h : Placed inp l) : inp.runes.drop (inp.pos l) = l.rest := by
  rw [h.pos_eq]
  exact (List.suffix_iff_eq_drop.mp h.suffix).symm

theorem currpos_isSome (h : Placed inp l) : (inp.Currpos (inp.pos l)).isSome ↔ ∃ c ∈ l.rest, c ≠ ' ' := by
  unfold Input.Currpos
  rw [if_neg (Nat.not_lt.mpr (h.pos_le.trans inp.le_cap)), Option.isSome_map, h.drop, List.findIdx?_isSome]
  simp

/-- In a run whose steps stay inside. -/
structure State.Inv (inp : Input) (st : State) : Prop where
  placed : Placed inp st.l
  recorded : ∀ l ∈ st.recorded, Placed inp l ∧ ∃ c ∈ l.rest, c ≠ ' '
  skipping : ∀ prev ∈ st.skipping, Placed inp prev ∧ st.l.rest <:+ prev.rest

theorem State.Inv.inRange (h : st.Inv inp) : st.InRange inp where
  pos_le := h.placed.pos_le
  SkipLn := by
    unfold Input.skipLine
    rw [if_neg (Nat.not_lt.mpr (h.placed.pos_le.trans inp.le_cap))]
    rfl
  skipped prev hprev := by
    obtain ⟨hplaced, hsuffix⟩ := h.skipping prev hprev
    have hlen := hsuffix.length_le
    have hle := h.placed.pos_le.trans inp.le_cap
    have hlt : inp.pos prev ≤ inp.pos st.l := by
      rw [hplaced.pos_eq, h.placed.pos_eq]
      omega
    unfold Input.skipped
    rw [if_pos ⟨hlt, hle⟩]
    rfl
  PrintCurrent := by
    have hle := h.placed.pos_le
    have hbytes := inp.le_bytes
    unfold Input.PrintCurrent
    dsimp only
    rw [if_pos (by omega)]
    rfl
  Currpos l hl := (currpos_isSome (h.recorded l hl).1).mpr (h.recorded l hl).2

/-- Going on in the text. -/
theorem State.Inv.move (h : st.Inv inp) (hsuffix : l.rest <:+ st.l.rest) (hpast : l.past = st.l.past) :
    State.Inv inp { st with l } where
  placed := ⟨hsuffix.trans h.placed.suffix, hpast.trans h.placed.past⟩
  recorded := h.recorded
  skipping prev hprev := ⟨(h.skipping prev hprev).1, hsuffix.trans (h.skipping prev hprev).2⟩

theorem State.Inv.leave (h : st.Inv inp) : State.Inv inp { st with skipping := none } :=
  ⟨h.placed, h.recorded, by rintro _ ⟨⟩⟩

/-- Behind the end. -/
theorem not_inRange (h : st.l = ⟨[], q + 1⟩) : ¬ st.InRange inp := by
  intro hin
  have hle := hin.pos_le
  rw [h] at hle
  have hle' : inp.runes.length - 0 + (q + 1) ≤ inp.runes.length := hle
  omega

/-- A call of `Scan` goes on in the text, or over the end. -/
theorem State.Inv.scan (h : st.Inv inp) (hscan : st.l.Scan = .token code t e l) :
    (¬ Overruns none st.l.rest → State.Inv inp { st with l }) ∧
      (Overruns none st.l.rest → ∀ st' : State, st'.l = l → ¬ st'.InRange inp) := by
  obtain ⟨hsuffix, hover, hstays, -⟩ := scan_reaches hscan
  exact ⟨fun ho => h.move hsuffix (hstays ho), fun ho st' hst => not_inRange (hst.trans (hover ho))⟩

/-- What a step does to the invariant, and what it does where it does not stay inside. -/
theorem State.Inv.step (h : st.Inv inp) {op : Op} (hs : st.step inp op = some st') :
    (st.Inside op → st'.Inv inp) ∧ (¬ st.Inside op → ¬ st'.InRange inp) := by
  cases op with
  | turn =>
    obtain ⟨prev, hprev, hs⟩ := Option.bind_eq_some_iff.mp hs
    cases hscan : st.l.Scan with
    | token code t e l =>
      obtain ⟨hin, hout⟩ := h.scan hscan
      rw [hscan] at hs
      dsimp only at hs
      split at hs
      · obtain rfl := Option.some.inj hs
        exact ⟨hin, fun ho => hout (not_not.mp ho) _ rfl⟩
      · split at hs
        · obtain rfl := Option.some.inj hs
          exact ⟨fun ho => (hin ho).leave, fun ho => hout (not_not.mp ho) _ rfl⟩
        -- the text that is skipped lies behind where `SkipLn` began
        · next hslice => exact absurd (h.inRange.skipped prev hprev) hslice
    | panic =>
      rw [hscan] at hs
      obtain rfl := Option.some.inj hs
      exact ⟨fun _ => h.leave, fun ho => absurd (not_not.mp ho) (not_overruns_of_stopped (.inl hscan))⟩
    | fatal =>
      rw [hscan] at hs
      cases hs
  | Scan =>
    obtain ⟨-, hs⟩ := Option.ite_none_left_eq_some.mp hs
    cases hscan : st.l.Scan with
    | token code t e l =>
      obtain ⟨hin, hout⟩ := h.scan hscan
      rw [hscan] at hs
      obtain rfl := Option.some.inj hs
      exact ⟨hin, fun ho => hout (not_not.mp ho) _ rfl⟩
    | panic =>
      rw [hscan] at hs
      obtain rfl := Option.some.inj hs
      exact ⟨fun _ => h.move stopped_suffix rfl,
        fun ho => absurd (not_not.mp ho) (not_overruns_of_stopped (.inl hscan))⟩
    | fatal =>
      rw [hscan] at hs
      cases hs
  | ScanType code =>
    obtain ⟨-, hs⟩ := Option.ite_none_left_eq_some.mp hs
    have htakes : ∀ {l}, Takes code st.l l → some { st with l } = some st' →
        (st.Inside (.ScanType code) → st'.Inv inp) ∧ (¬ st.Inside (.ScanType code) → ¬ st'.InRange inp) := by
      rintro l htakes hs
      obtain rfl := Option.some.inj hs
      refine ⟨fun ho => ?_, fun ho => not_inRange (htakes.overrun (not_not.mp ho))⟩
      obtain ⟨hsuffix, hpast⟩ := htakes.inside ho
      exact h.move hsuffix hpast
    cases hres : ((scanType code).run st.l).result with
    | ok t l =>
      rw [hres] at hs
      exact htakes (scanType_takes (.inl hres)) hs
    | err e l =>
      rw [hres] at hs
      exact htakes (scanType_takes (t := []) (.inr ⟨e, hres⟩)) hs
    | panic =>
      rw [hres] at hs
      obtain rfl := Option.some.inj hs
      have hno := not_overruns_of_stopped (.inl (scanType_stopped hres))
      exact ⟨fun _ => h.move stopped_suffix rfl, fun ho => absurd (not_not.mp ho).of_some hno⟩
    | fatal | out =>
      rw [hres] at hs
      cases hs
  | PeekToken =>
    obtain ⟨-, hs⟩ := Option.ite_none_left_eq_some.mp hs
    split at hs
    · cases hs
    · obtain rfl := Option.some.inj hs
      exact ⟨fun _ => h, fun ho => absurd trivial ho⟩
  | SetCheckpoint =>
    obtain ⟨-, hs⟩ := Option.ite_none_left_eq_some.mp hs
    obtain rfl := Option.some.inj hs
    refine ⟨fun hc => ⟨h.placed, fun l hl => ?_, h.skipping⟩, fun hc hin => hc ?_⟩
    · rcases List.mem_append.mp hl with hl | hl
      · exact h.recorded l hl
      · obtain rfl := List.mem_singleton.mp hl
        exact ⟨h.placed, hc⟩
    -- the position is one of those that are recorded now
    · exact (currpos_isSome h.placed).mp
        (hin.Currpos st.l (List.mem_append_right _ (List.mem_singleton_self st.l)))
  | GobackTo i =>
    obtain ⟨hidle, hs⟩ := Option.ite_none_left_eq_some.mp hs
    obtain ⟨l, hl, hs⟩ := Option.bind_eq_some_iff.mp hs
    obtain rfl := Option.some.inj hs
    refine ⟨fun _ => ⟨(h.recorded l (List.mem_of_getElem? hl)).1, h.recorded, fun prev hprev => ?_⟩,
      fun ho => absurd trivial ho⟩
    -- while lines are skipped there is no way back
    exact absurd (Option.isSome_of_mem hprev) hidle
  | SkipLn =>
    obtain ⟨-, hs⟩ := Option.ite_none_left_eq_some.mp hs
    rw [if_pos h.inRange.SkipLn] at hs
    obtain rfl := Option.some.inj hs
    refine ⟨fun _ => ⟨h.placed, h.recorded, fun prev hprev => ?_⟩, fun ho => absurd trivial ho⟩
    obtain rfl := Option.some.inj hprev
    exact ⟨h.placed, List.suffix_refl _⟩

end Steps

/-! ## Runs stay in range -/

/-- **As long as every step stays inside, the positions are in range; and the first step that does not
puts one out of it.** -/
theorem inRange_iff (inp : Input) (st : State) (h : (lexing inp).Reach State.Inside st) :
    st.InRange inp ∧ ∀ op st', (lexing inp).step st op = some st' → (st'.InRange inp ↔ st.Inside op) := by
  have hinv : st.Inv inp := by
    refine h.invariant (P := State.Inv inp) ?_ fun s op s' hi hok hs => (hi.step hs).1 hok
    exact ⟨⟨List.suffix_refl _, rfl⟩, by rintro _ ⟨⟩, by rintro _ ⟨⟩⟩
  refine ⟨hinv.inRange, fun op st' hs => ?_⟩
  obtain ⟨hin, hout⟩ := hinv.step hs
  exact ⟨fun h => not_not.mp fun ho => hout ho h, fun ho => (hin ho).inRange⟩

/-- The input `+ a`. -/
def plusA : Input := ⟨['+', ' ', 'a'], 3, 3, by decide, by decide⟩

/-- Behind the `+`. -/
theorem inRange_plus :
    (⟨⟨[' ', 'a'], 0⟩, [], none⟩ : State).InRange plusA ∧
      ∀ op st', (lexing plusA).step ⟨⟨[' ', 'a'], 0⟩, [], none⟩ op = some st' →
        (st'.InRange plusA ↔ State.Inside ⟨⟨[' ', 'a'], 0⟩, [], none⟩ op) :=
  inRange_iff plusA _ (.step (i := .Scan) .start (by rintro ⟨h, -⟩; cases h) rfl)

/-- Behind the name the position is out of the text. -/
theorem out_of_range : ¬ ∀ inp st, (lexing inp).Reach (fun _ _ => True) st → st.InRange inp := by
  intro h
  have hreach : (lexing plusA).Reach (fun _ _ => True) ⟨⟨[], 1⟩, [], none⟩ :=
    .step (i := .Scan) (.step (i := .Scan) .start trivial rfl) trivial rfl
  exact absurd (h _ _ hreach).pos_le (by decide)

end CalcLang.Parser.Positions
