import Mathlib.Algebra.Ring.Int.Defs
import Mathlib.Algebra.Ring.Nat
import Mathlib.Data.List.Basic
import Mathlib.Tactic.Basic

/-!
# Integer literals

`ParseInt` of `compiler/parser/parser.go`, over `strconv.ParseInt` and
`strconv.ParseUint` of Go: a literal gets the smallest of the widths 8, 16, 32
and 64 in which its text can be read, in two's complement for decimals.

A `Decimal` is the text of a decimal literal together with the fact that it is
one; `ParseInt_decimal` says what becomes of it.
-/

namespace CalcLang.Parser

/-- A digit's value, in any base. -/
def digitVal (c : Char) : Option Nat :=
  if '0' ≤ c ∧ c ≤ '9' then some (c.toNat - '0'.toNat)
  else if 'a' ≤ c ∧ c ≤ 'z' then some (c.toNat - 'a'.toNat + 10)
  else if 'A' ≤ c ∧ c ≤ 'Z' then some (c.toNat - 'A'.toNat + 10)
  else none

/-- The number with the given digits in front of it. -/
def digits (base : Nat) : Nat → List Char → Option Nat
  | n, [] => some n
  | n, c :: s => do
    let d ← digitVal c
    if d < base then digits base (n * base + d) s else none

/-- `strconv.ParseUint`, for a base that is not 0. -/
def parseUint (s : List Char) (base bitSize : Nat) : Option Nat := do
  if s = [] then none
  let n ← digits base 0 s
  if n < 2 ^ bitSize then some n else none

/-- A number's sign (is it negative?), and what follows it. -/
def sign : List Char → Bool × List Char
  | '+' :: s => (false, s)
  | '-' :: s => (true, s)
  | s => (false, s)

/-- `strconv.ParseInt`, for a base that is not 0. -/
def parseInt (s : List Char) (base bitSize : Nat) : Option Int := do
  let n ← parseUint (sign s).2 base bitSize
  if (sign s).1 then
    if n ≤ 2 ^ (bitSize - 1) then some (-(n : Int)) else none
  else
    if n < 2 ^ (bitSize - 1) then some (n : Int) else none

/-- The base a literal is written in, and its digits. -/
def radix : List Char → Nat × List Char
  | '0' :: 'x' :: c :: s => (16, c :: s)
  | '0' :: 'b' :: c :: s => (2, c :: s)
  | '0' :: 'o' :: c :: s => (8, c :: s)
  | s => (10, s)

/-- One round of `ParseInt`'s loop: the text read in width `bw`. -/
def readWidth (base : Nat) (s : List Char) (bw : Nat) : Option Int :=
  if base ≠ 10 then (parseUint s base bw).map fun n => (BitVec.ofNat 64 n).toInt
  else parseInt s base bw

/-- `ParseInt`: the value and the width of its type. -/
def ParseInt (s : List Char) : Option (Int × Nat) :=
  let (base, s) := radix s
  [8, 16, 32, 64].findSome? fun bw => (readWidth base s bw).map fun re => (re, bw)

/-! ## Decimal literals -/

/-- A digit's character. -/
def digitChar (d : Fin 10) : Char := Nat.digitChar d

/-- A decimal literal. -/
structure Decimal where
  digits : List (Fin 10)
  nonempty : digits ≠ []
deriving DecidableEq, Repr

/-- What is written. -/
def Decimal.text (d : Decimal) : List Char := d.digits.map digitChar

/-- What is meant. -/
def Decimal.value (d : Decimal) : Nat := d.digits.foldl (fun n d => n * 10 + d.val) 0

/-- The smallest of the four widths that holds `n` as a signed number. -/
def leastWidth (n : Nat) : Nat :=
  if n < 2 ^ 7 then 8 else if n < 2 ^ 15 then 16 else if n < 2 ^ 31 then 32 else 64

private theorem digitVal_digitChar : ∀ d : Fin 10, digitVal (digitChar d) = some d.val := by decide

private theorem digitChar_ne : ∀ d : Fin 10,
    digitChar d ≠ 'x' ∧ digitChar d ≠ 'b' ∧ digitChar d ≠ 'o' ∧
      digitChar d ≠ '+' ∧ digitChar d ≠ '-' := by decide

private theorem digits_text (ds : List (Fin 10)) (n : Nat) :
    digits 10 n (ds.map digitChar) = some (ds.foldl (fun n d => n * 10 + d.val) n) := by
  induction ds generalizing n with
  | nil => rfl
  | cons d ds ih => simp [digits, digitVal_digitChar, ih]

/-- The digits of a literal are those of its value. -/
theorem Decimal.digits_eq (d : Decimal) : Parser.digits 10 0 d.text = some d.value :=
  digits_text d.digits 0

theorem Decimal.radix_text (d : Decimal) : radix d.text = (10, d.text) := by
  unfold radix
  split
  all_goals
    first
    | rfl
    | next hs =>
      exfalso
      rcases hd : d.digits with _ | ⟨d₀, _ | ⟨d₁, ds⟩⟩ <;> simp [Decimal.text, hd] at hs
      have := digitChar_ne d₁
      grind

theorem Decimal.sign_text (d : Decimal) : sign d.text = (false, d.text) := by
  unfold sign
  split
  all_goals
    first
    | rfl
    | next hs =>
      exfalso
      rcases hd : d.digits with _ | ⟨d₀, ds⟩ <;> simp [Decimal.text, hd] at hs
      have := digitChar_ne d₀
      grind

theorem Decimal.parseUint_text (d : Decimal) (bw : Nat) :
    parseUint d.text 10 bw = if d.value < 2 ^ bw then some d.value else none := by
  simp only [parseUint, Decimal.text, List.map_eq_nil_iff, d.nonempty, if_false, digits_text,
    Decimal.value]
  rfl

theorem Decimal.parseInt_text (d : Decimal) (bw : Nat) :
    parseInt d.text 10 bw = if d.value < 2 ^ (bw - 1) then some (d.value : Int) else none := by
  have hle : 2 ^ (bw - 1) ≤ 2 ^ bw := Nat.pow_le_pow_right (by decide) (Nat.sub_le _ _)
  simp only [parseInt, d.sign_text, d.parseUint_text, Bool.false_eq_true, if_false]
  by_cases hlt : d.value < 2 ^ bw
  · simp [hlt]
  · simp [hlt, show ¬ d.value < 2 ^ (bw - 1) by omega]

/-- **A decimal literal below `2^63`** is read as its value, in the smallest
width that holds it. -/
theorem ParseInt_decimal (d : Decimal) (h : d.value < 2 ^ 63) :
    ParseInt d.text = some ((d.value : Int), leastWidth d.value) := by
  have hread : ∀ bw, readWidth 10 d.text bw =
      if d.value < 2 ^ (bw - 1) then some (d.value : Int) else none := by
    intro bw
    simp [readWidth, d.parseInt_text bw]
  simp only [ParseInt, d.radix_text, List.findSome?, hread, leastWidth]
  grind

end CalcLang.Parser
