import CalcLang.Lex.Layout
import CalcLang.Parser.ParseInt

/-!
# Integer numerals

The lexer and `ParseInt` have to agree on what a numeral is. A `Numeral` has a base and
digits of that base, and `Numeral.Read` says that the two of them read it: `Scan` returns
all of it as one token, and `ParseInt` gives a constant that has its value as a signed
number of its width.

They disagree twice. The lexer's loop takes the digits `0` to `9` in every base, so that
a hexadecimal numeral ends for it at the first letter. And `ParseInt` reads a text with a
prefix by `strconv.ParseUint`, so that a value in the upper half of a width gets this
width, in which it is negative; a decimal text it reads by `strconv.ParseInt`, which goes
on to the next width (`read_iff`).
-/

namespace CalcLang.Parser

open CalcLang.Lex

/-- How a numeral is written. -/
inductive Radix
  | dec | bin | oct | hex
  deriving DecidableEq, Repr

def Radix.base : Radix → Nat
  | dec => 10
  | bin => 2
  | oct => 8
  | hex => 16

/-- What stands in front of the digits. -/
def Radix.mark : Radix → Text
  | dec => []
  | bin => ['0', 'b']
  | oct => ['0', 'o']
  | hex => ['0', 'x']

/-- A digit of a base: `0` to `9`, and letters for the digits from ten on. -/
def isDigit (base : Nat) (c : Char) : Bool := (digitVal c).any (· < base)

/-- The value of digits. -/
def valueOf (base : Nat) (ds : Text) : Nat :=
  ds.foldl (fun n c => n * base + (digitVal c).getD 0) 0

/-- A numeral for a number below `2 ^ 63`. -/
structure RadixNumeral where
  radix : Radix
  ds : Text
  nonempty : ds ≠ []
  digits : ∀ c ∈ ds, isDigit radix.base c
  small : valueOf radix.base ds < 2 ^ 63

namespace RadixNumeral

/-- What is written. -/
def text (n : RadixNumeral) : Text := n.radix.mark ++ n.ds

/-- What is meant. -/
def value (n : RadixNumeral) : Nat := valueOf n.radix.base n.ds

/-- `Scan` reads the numeral as one token, whatever comes behind it that no number goes
on with, and `ParseInt` makes of that token a constant with its value. -/
structure Read (n : RadixNumeral) : Prop where
  scanned : ∀ (past : Nat) (r : Text), EndsNum r →
    Lexer.Scan ⟨n.text ++ r, past⟩ = .token .int n.text false (.behind past r)
  parsed : ∃ (i : Int) (bw : Nat), ParseInt n.text = some (i, bw) ∧
    (BitVec.ofInt bw i).toInt = n.value

/-- The value is in the lower half of the first of the widths that it fits in as a number
without a sign. -/
def LowerHalf (v : Nat) : Prop :=
  v < 2 ^ 7 ∨ (2 ^ 8 ≤ v ∧ v < 2 ^ 15) ∨ (2 ^ 16 ≤ v ∧ v < 2 ^ 31) ∨ 2 ^ 32 ≤ v

instance (v : Nat) : Decidable (LowerHalf v) := by
  unfold LowerHalf
  infer_instance

end RadixNumeral

/-! ## Digits -/

theorem isDigit_digitVal {base : Nat} {c : Char} (h : isDigit base c) :
    ∃ d, digitVal c = some d ∧ d < base := by
  rw [isDigit, Option.any_eq_true] at h
  obtain ⟨d, hd, hlt⟩ := h
  exact ⟨d, hd, of_decide_eq_true hlt⟩

theorem digits_valueOf {base : Nat} {ds : Text} (h : ∀ c ∈ ds, isDigit base c) :
    Parser.digits base 0 ds = some (valueOf base ds) := by
  have hfold : ∀ n, Parser.digits base n ds =
      some (ds.foldl (fun n c => n * base + (digitVal c).getD 0) n) := by
    induction ds with
    | nil => exact fun n => rfl
    | cons c ds ih =>
      intro n
      obtain ⟨d, hd, hlt⟩ := isDigit_digitVal (h c List.mem_cons_self)
      rw [Parser.digits, List.foldl_cons, hd]
      show (if d < base then Parser.digits base (n * base + d) ds else none) = _
      rw [if_pos hlt, ih fun e he => h e (List.mem_cons_of_mem _ he)]
      rfl
  exact hfold 0

/-- The digits of base ten are the ones of the lexer. -/
theorem isDigit_ten {c : Char} : isDigit 10 c ↔ isNum c := by
  have hle : ∀ a b : Char, a ≤ b ↔ a.toNat ≤ b.toNat := fun a b => by
    rw [Char.le_def, UInt32.le_iff_toNat_le]
    rfl
  have h0 : ('0' : Char).toNat = 48 := rfl
  have h9 : ('9' : Char).toNat = 57 := rfl
  simp only [isDigit, digitVal, isNum, hle, h0, h9, Bool.and_eq_true, decide_eq_true_eq]
  split
  · next h => simpa [h] using by omega
  · next h =>
    refine iff_of_false ?_ h
    split
    · simp
    · split
      · simp
      · simp

theorem exists_digitChar {c : Char} (h : isDigit 10 c) : ∃ d : Fin 10, digitChar d = c := by
  have hnum := isDigit_ten.mp h
  rw [isNum, Bool.and_eq_true, decide_eq_true_eq, decide_eq_true_eq, Char.le_def, Char.le_def,
    UInt32.le_iff_toNat_le, UInt32.le_iff_toNat_le] at hnum
  have hlow : 48 ≤ c.toNat := hnum.1
  have hhigh : c.toNat ≤ 57 := hnum.2
  have htoNat : ∀ d : Fin 10, (digitChar d).toNat = 48 + d.val := by decide
  refine ⟨⟨c.toNat - 48, by omega⟩, Char.toNat_inj.mp ?_⟩
  rw [htoNat]
  show 48 + (c.toNat - 48) = c.toNat
  omega

/-! ## The lexer -/

/-- A number behind a letter for its base, with the characters `w` of the loop. -/
theorem scan_prefixed (past : Nat) {c : Char} {w r : Text} (hc : c = 'b' ∨ c = 'o' ∨ c = 'x')
    (hw : ∀ d ∈ w, d = '.' || isNum d) (hr : EndsDigits r) :
    Lexer.Scan ⟨'0' :: c :: w ++ r, past⟩ =
      .token (if w.contains '.' then .float else .int) ('0' :: c :: w) false (.behind past r) := by
  have hslash : '0' = '/' → (c :: (w ++ r)).head? ≠ some '/' := by
    intro h
    cases h
  have hquote : '0' ≠ '"' := by decide
  have hnum : isNum '0' = true := rfl
  have hbase : ((c :: (w ++ r)).head?.any fun d => d = 'b' || d = 'o' || d = 'x') = true := by
    rw [List.head?_cons, Option.any_some]
    rcases hc with hc | hc | hc <;> simp [hc]
  show Lexer.Scan ⟨'0' :: (c :: (w ++ r)), past⟩ = _
  rw [scan_cons past rfl hslash, scanToken, if_neg hquote, num_not_letter hnum,
    if_neg Bool.false_ne_true, if_pos hnum, scanNumber, hbase, Bool.and_true, decide_eq_true rfl]
  simp only [if_true, List.tail_cons]
  rw [scanNum_append past hw hr]
  rfl

theorem isNum_of_read {n : RadixNumeral} (h : n.Read) : ∀ c ∈ n.ds, isNum c := by
  have hends : EndsNum [] := by
    intro c hc
    cases hc
  have hscan := h.scanned 0 [] hends
  rw [List.append_nil] at hscan
  -- what the loop of the lexer takes is all of the digits
  have hall : ∀ c, (c = 'b' ∨ c = 'o' ∨ c = 'x') → n.text = '0' :: c :: n.ds →
      ∀ d ∈ n.ds, d = '.' || isNum d := by
    intro c hc htext
    obtain ⟨w, r, hds, hw, hr⟩ := scanNum_spec n.ds
    have hprefixed := scan_prefixed 0 hc hw hr
    rw [htext, hds] at hscan
    rw [List.cons_append, List.cons_append] at hprefixed
    rw [hprefixed] at hscan
    obtain ⟨-, htoken, -, -⟩ := Scanned.token.inj hscan
    have hdigits : w = w ++ r := (List.cons.inj (List.cons.inj htoken).2).2
    rw [hds, ← hdigits]
    exact hw
  have hpoint : ∀ d ∈ n.ds, d ≠ '.' := by
    intro d hd hpoint
    obtain ⟨v, hv, -⟩ := isDigit_digitVal (n.digits d hd)
    rw [hpoint] at hv
    cases hv
  have hnum : (∀ d ∈ n.ds, d = '.' || isNum d) → ∀ d ∈ n.ds, isNum d := by
    intro hloop d hd
    have hor := hloop d hd
    rw [Bool.or_eq_true, decide_eq_true_eq] at hor
    exact hor.resolve_left (hpoint d hd)
  cases hradix : n.radix with
  | dec =>
    intro d hd
    have hten := n.digits d hd
    rw [hradix] at hten
    exact isDigit_ten.mp hten
  | bin => exact hnum (hall 'b' (.inl rfl) (by rw [RadixNumeral.text, hradix]; rfl))
  | oct => exact hnum (hall 'o' (.inr (.inl rfl)) (by rw [RadixNumeral.text, hradix]; rfl))
  | hex => exact hnum (hall 'x' (.inr (.inr rfl)) (by rw [RadixNumeral.text, hradix]; rfl))

/-- The lexer takes a numeral of the digits `0` to `9` as a whole. -/
theorem scan_radixNumeral {n : RadixNumeral} (hnum : ∀ c ∈ n.ds, isNum c) (past : Nat) {r : Text}
    (hr : EndsNum r) :
    Lexer.Scan ⟨n.text ++ r, past⟩ = .token .int n.text false (.behind past r) := by
  have hloop : ∀ d ∈ n.ds, d = '.' || isNum d := by
    intro d hd
    rw [hnum d hd, Bool.or_true]
  have hpoint : n.ds.contains '.' = false := by
    rw [Bool.eq_false_iff, ne_eq, List.contains_iff_mem]
    intro h
    cases hnum '.' h
  have hprefixed : ∀ c, (c = 'b' ∨ c = 'o' ∨ c = 'x') → n.text = '0' :: c :: n.ds →
      Lexer.Scan ⟨n.text ++ r, past⟩ = .token .int n.text false (.behind past r) := by
    intro c hc htext
    have hscan := scan_prefixed past hc hloop fun d hd => (hr d hd).1
    rw [hpoint] at hscan
    rw [htext]
    exact hscan
  cases hradix : n.radix with
  | dec =>
    have htext : n.text = n.ds := by rw [RadixNumeral.text, hradix]; rfl
    obtain ⟨c, ds, hds⟩ := List.exists_cons_of_ne_nil n.nonempty
    rw [hds] at hnum
    have hscan := scan_numeral past ⟨c, ds, hnum c List.mem_cons_self,
      fun d hd => hnum d (List.mem_cons_of_mem _ hd)⟩ hr
    rw [htext, hds]
    exact hscan
  | bin => exact hprefixed 'b' (.inl rfl) (by rw [RadixNumeral.text, hradix]; rfl)
  | oct => exact hprefixed 'o' (.inr (.inl rfl)) (by rw [RadixNumeral.text, hradix]; rfl)
  | hex => exact hprefixed 'x' (.inr (.inr rfl)) (by rw [RadixNumeral.text, hradix]; rfl)

/-! ## `ParseInt` -/

/-- The smallest of the four widths that holds `n` as a number without a sign. -/
def leastUnsigned (n : Nat) : Nat :=
  if n < 2 ^ 8 then 8 else if n < 2 ^ 16 then 16 else if n < 2 ^ 32 then 32 else 64

theorem parseUint_digits {base : Nat} {ds : Text} (hne : ds ≠ [])
    (h : ∀ c ∈ ds, isDigit base c) (bw : Nat) :
    parseUint ds base bw =
      if valueOf base ds < 2 ^ bw then some (valueOf base ds) else none := by
  simp only [parseUint, hne, if_false, digits_valueOf h]
  rfl

/-- A decimal text. -/
theorem exists_decimal {ds : Text} (hne : ds ≠ []) (h : ∀ c ∈ ds, isDigit 10 c) :
    ∃ d : Decimal, d.text = ds ∧ d.value = valueOf 10 ds := by
  have hall : ∀ l : Text, (∀ c ∈ l, isDigit 10 c) → ∃ ns : List (Fin 10), ns.map digitChar = l := by
    intro l hl
    induction l with
    | nil => exact ⟨[], rfl⟩
    | cons c l ih =>
      obtain ⟨ns, hns⟩ := ih fun d hd => hl d (List.mem_cons_of_mem _ hd)
      obtain ⟨d, hd⟩ := exists_digitChar (hl c List.mem_cons_self)
      exact ⟨d :: ns, by rw [List.map_cons, hd, hns]⟩
  obtain ⟨ns, hns⟩ := hall ds h
  have hnonempty : ns ≠ [] := by
    intro hnil
    rw [hnil] at hns
    exact hne hns.symm
  refine ⟨⟨ns, hnonempty⟩, hns, ?_⟩
  have hvalue := (Decimal.digits_eq ⟨ns, hnonempty⟩).symm
  rw [show Decimal.text ⟨ns, hnonempty⟩ = ds from hns, digits_valueOf h] at hvalue
  exact Option.some.inj hvalue

/-- What `ParseInt` makes of a numeral: the value, in the width of its kind of parsing. -/
theorem ParseInt_numeral (n : RadixNumeral) : ParseInt n.text =
    some ((n.value : Int), if n.radix = .dec then leastWidth n.value else leastUnsigned n.value) := by
  have hdigits := n.digits
  have hprefixed : ∀ base, n.radix.base = base → base ≠ 10 → radix n.text = (base, n.ds) →
      ParseInt n.text = some ((n.value : Int), leastUnsigned n.value) := by
    intro base hbase hten hradix
    have hread : ∀ bw, readWidth base n.ds bw =
        if n.value < 2 ^ bw then some (n.value : Int) else none := by
      intro bw
      rw [hbase] at hdigits
      have hint : (BitVec.ofNat 64 n.value).toInt = n.value := by
        have hsmall : n.value < 2 ^ 63 := n.small
        rw [BitVec.toInt_ofNat']
        exact Int.bmod_eq_of_le (by omega) (by omega)
      have hvalue : valueOf base n.ds = n.value := by rw [RadixNumeral.value, hbase]
      rw [readWidth, if_pos hten, parseUint_digits n.nonempty hdigits, hvalue]
      split
      · rw [Option.map_some, hint]
      · rfl
    have hsmall : n.value < 2 ^ 64 := Nat.lt_trans n.small (by decide)
    simp only [ParseInt, hradix, List.findSome?, hread, leastUnsigned]
    grind
  obtain ⟨c, ds, hds⟩ := List.exists_cons_of_ne_nil n.nonempty
  cases hradix : n.radix with
  | dec =>
    have htext : n.text = n.ds := by rw [RadixNumeral.text, hradix]; rfl
    rw [hradix] at hdigits
    obtain ⟨d, hd, hvalue⟩ := exists_decimal n.nonempty hdigits
    have heq : d.value = n.value := by rw [hvalue, RadixNumeral.value, hradix]; rfl
    rw [htext, ← hd, ParseInt_decimal d (heq ▸ n.small), heq, if_pos rfl]
  | bin =>
    rw [if_neg (by decide)]
    exact hprefixed 2 (by rw [hradix]; rfl) (by decide)
      (by rw [RadixNumeral.text, hradix, hds]; rfl)
  | oct =>
    rw [if_neg (by decide)]
    exact hprefixed 8 (by rw [hradix]; rfl) (by decide)
      (by rw [RadixNumeral.text, hradix, hds]; rfl)
  | hex =>
    rw [if_neg (by decide)]
    exact hprefixed 16 (by rw [hradix]; rfl) (by decide)
      (by rw [RadixNumeral.text, hradix, hds]; rfl)

/-- A number keeps its value in a width that holds it with a sign, and only there. -/
theorem toInt_ofInt_iff {bw v : Nat} (hbw : 0 < bw) :
    (BitVec.ofInt bw v).toInt = v ↔ v < 2 ^ (bw - 1) := by
  constructor
  · intro heq
    have hlt := (BitVec.ofInt bw v).toInt_lt
    rw [heq] at hlt
    exact_mod_cast hlt
  · intro hlt
    refine BitVec.toInt_ofInt_eq_self hbw ?_ (by exact_mod_cast hlt)
    have hpow : (0 : Int) ≤ 2 ^ (bw - 1) := Int.le_of_lt (Int.pow_pos (by decide))
    omega

theorem parsed_iff (n : RadixNumeral) :
    (∃ (i : Int) (bw : Nat), ParseInt n.text = some (i, bw) ∧
      (BitVec.ofInt bw i).toInt = n.value) ↔
      n.radix = .dec ∨ RadixNumeral.LowerHalf n.value := by
  have hsmall : n.value < 2 ^ 63 := n.small
  -- there is one constant, and it is right if its width holds the value
  have hwidth : ∀ bw, 0 < bw → ParseInt n.text = some ((n.value : Int), bw) →
      ((∃ (i : Int) (bw : Nat), ParseInt n.text = some (i, bw) ∧
        (BitVec.ofInt bw i).toInt = n.value) ↔ n.value < 2 ^ (bw - 1)) := by
    intro bw hbw hparse
    rw [← toInt_ofInt_iff hbw]
    constructor
    · intro hread
      obtain ⟨i, bw', hparse', hint⟩ := hread
      rw [hparse] at hparse'
      obtain ⟨hi, hw⟩ := Prod.mk.inj (Option.some.inj hparse')
      rw [hw, hi]
      exact hi ▸ hint
    · intro hint
      exact ⟨_, _, hparse, hint⟩
  have hparse := ParseInt_numeral n
  by_cases hdec : n.radix = .dec
  · rw [if_pos hdec] at hparse
    refine iff_of_true ((hwidth _ ?_ hparse).mpr ?_) (.inl hdec)
    · unfold leastWidth
      grind
    · unfold leastWidth
      grind
  · rw [if_neg hdec] at hparse
    rw [hwidth _ (by unfold leastUnsigned; grind) hparse, or_iff_right hdec,
      RadixNumeral.LowerHalf, leastUnsigned]
    grind

/-- **A numeral is read exactly if all its digits are `0` to `9`, and it is decimal or its
value is in the lower half of a width.** -/
theorem RadixNumeral.read_iff (n : RadixNumeral) :
    n.Read ↔ (∀ c ∈ n.ds, isNum c) ∧ (n.radix = .dec ∨ LowerHalf n.value) := by
  constructor
  · intro hread
    exact ⟨isNum_of_read hread, (parsed_iff n).mp hread.parsed⟩
  · intro hmeets
    exact ⟨fun past _ hr => scan_radixNumeral hmeets.1 past hr, (parsed_iff n).mpr hmeets.2⟩

/-- `0xff`: the lexer takes the letters for a word. -/
theorem RadixNumeral.letters_not_read :
    ¬ (⟨.hex, ['f', 'f'], by decide, List.all_eq_true.mp (by decide), by decide⟩ : RadixNumeral).Read := by
  intro hread
  have hends : EndsNum [] := by
    intro c hc
    cases hc
  exact absurd (hread.scanned 0 [] hends) (by decide)

end CalcLang.Parser
