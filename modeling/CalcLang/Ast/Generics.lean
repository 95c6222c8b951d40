import CalcLang.Ast.Scope
import CalcLang.Lex.Scan
import CalcLang.Lib.Strings

/-!
# The names of generic types

An instance of a generic type is called after its type arguments: `NewTypeDef` puts `<` behind the
type's name, what llir prints for each argument and a comma, and `>`. llir quotes a name that has
such characters in it, and writes a quote inside as `\22`, which `getFullName` makes a
quote again.

`implicitCast` takes the arguments from the printed name of an instance once more. It leaves out everything that
looks like a quote, cuts at the commas that are in no brackets, and counts as pointers what follows the
first star. A cut begins with the comma in front of it, so only the first argument has its name; and
a name that has quotes or stars in it itself, from its own arguments, comes out without the one
or with too many pointers. `decode_iff` says that nothing else goes wrong.
-/

namespace CalcLang.Ast.Generics

open CalcLang.Lex CalcLang.Lib.Strings

/-! ## Types and their texts -/

/-- What names are made of: an identifier, and the path of its module in front of it. -/
def nameChar (c : Char) : Bool := isLetterOrUnderscore c || isNum c || ['-', '.', '/', '~', '+'].contains c

/-- The name of a type or of a module. -/
structure Name where
  text : Text
  plain : ∀ c ∈ text, nameChar c

/-- A named struct type, an instance of a generic one that is declared as `id` in a module, or a
pointer. -/
inductive Tp where
  | struct (name : Name)
  | inst (pkg id : Name) (args : List Tp)
  | pointer (elemType : Tp)

/-- What stands for a quote in a name that is quoted. -/
def escaped : Text := ['\\', '2', '2']

/-- Whether a name is printed as it is. -/
def bare (name : Text) : Bool :=
  name.all fun c => isLetterOrUnderscore c || isNum c || ['-', '$', '.'].contains c

/-- How llir prints the name of a type. -/
structure Printer where
  escapeIdent : Text → Text
  bare_eq : ∀ name, bare name → escapeIdent name = name
  quoted_eq : ∀ name, bare name = false → (∀ c ∈ name, ' ' ≤ c ∧ c ≤ '~' ∧ c ≠ '\\') →
    escapeIdent name = '"' :: escape '"' escaped name ++ ['"']

variable (P : Printer)

/-- The name that `NewTypeDef` gives an instance: `sig`, with the text of the type arguments in it, and the
package in front. -/
def instName (pkg id : Name) (args : Text) : Text :=
  getFullName pkg.text (ReplaceAll escaped ['"'] (id.text ++ '<' :: args ++ ['>']))

mutual
/-- `String` of a type. A pointer has a star behind it. -/
def Tp.str : Tp → Text
  | .struct name => '%' :: P.escapeIdent name.text
  | .inst pkg id args => '%' :: P.escapeIdent (instName pkg id (argsStr args))
  | .pointer t => t.str ++ ['*']

/-- What `NewTypeDef` writes for the type arguments. -/
def argsStr : List Tp → Text
  | [] => []
  | t :: ts => t.str ++ ',' :: argsStr ts
end

/-- `TypeName`, of what a type points to. -/
def Tp.typeName : Tp → Text
  | .struct name => name.text
  | .inst pkg id args => instName pkg id (argsStr P args)
  | .pointer t => t.typeName

/-- How many pointers there are. -/
def Tp.level : Tp → Nat
  | .struct _ | .inst _ _ _ => 0
  | .pointer t => t.level + 1

/-! ## The way back -/

/-- The characters of `"%*\""`. -/
def cutset (c : Char) : Bool := c = '%' || c = '*' || c = '"'

/-- The characters of `"*%"`. -/
def argCutset (c : Char) : Bool := c = '*' || c = '%'

/-- A type argument, from what is cut out: its `TypeName`, and its pointers. -/
def generic (seg : Text) : Text × Nat :=
  (Trim argCutset seg, if seg.contains '*' then seg.length - seg.idxOf '*' else 0)

/-- The loop over the arguments, at the level `lev` of brackets. `seg` is the text from `start` on. What is cut
off starts with the comma. -/
def loop : Text → Text → Int → List (Text × Nat)
  | [], _, _ => []
  | v :: ss, seg, lev =>
    let lev := if v = '<' then lev + 1 else lev
    let lev := if v = '>' then lev - 1 else lev
    if v = ',' && lev = 0 then generic seg :: loop ss [v] lev else loop ss (seg ++ [v]) lev

/-- What is between the first `<` and the last character, without what stands for a quote. -/
def argsText (src : Text) : Text := ReplaceAll escaped [] (src.drop (src.idxOf '<' + 1)).dropLast

/-- The type arguments that `implicitCast` reads from the name of a pointer's element. -/
def implicitCastGenerics (t : Tp) : List (Text × Nat) :=
  if (Trim cutset (t.str P)).contains '<' then loop (argsText (Trim cutset (t.str P))) [] 0 else []

/-! ## The text of an instance -/

/-- What a name may have in it once type arguments are in it as well. -/
def textChar (c : Char) : Bool := nameChar c || ['<', '>', ',', '%', '*', '"'].contains c

theorem textChar_of_nameChar {c : Char} (h : nameChar c) : textChar c := by
  simp [textChar, h]

theorem printable_of_textChar {c : Char} (h : textChar c) : ' ' ≤ c ∧ c ≤ '~' ∧ c ≠ '\\' := by
  have hc : ('a' ≤ c ∧ c ≤ 'z' ∨ 'A' ≤ c ∧ c ≤ 'Z') ∨ ('0' ≤ c ∧ c ≤ '9') ∨
      c ∈ ['_', '-', '.', '/', '~', '+', '<', '>', ',', '%', '*', '"'] := by
    simp only [textChar, nameChar, isLetterOrUnderscore, isLetter, isNum, Bool.or_eq_true, Bool.and_eq_true,
      decide_eq_true_eq, beq_iff_eq, List.contains_iff_mem] at h
    obtain (((hletter | hunderscore) | hdigit) | hname) | htext := h
    · exact .inl hletter
    · exact .inr (.inr (by simp [hunderscore]))
    · exact .inr (.inl hdigit)
    · have hsub : ['-', '.', '/', '~', '+'] ⊆ ['_', '-', '.', '/', '~', '+', '<', '>', ',', '%', '*', '"'] := by simp
      exact .inr (.inr (hsub hname))
    · have hsub : ['<', '>', ',', '%', '*', '"'] ⊆ ['_', '-', '.', '/', '~', '+', '<', '>', ',', '%', '*', '"'] := by simp
      exact .inr (.inr (hsub htext))
  have hrange : ∀ {l u : Char}, ' ' ≤ l → u ≤ '~' → ('\\' < l ∨ u < '\\') → l ≤ c → c ≤ u →
      ' ' ≤ c ∧ c ≤ '~' ∧ c ≠ '\\' := by
    intro l u hl hu hb hlc hcu
    refine ⟨Char.le_trans hl hlc, Char.le_trans hcu hu, ?_⟩
    intro he
    subst he
    exact hb.elim (Char.not_lt.mpr hlc) (Char.not_lt.mpr hcu)
  obtain ⟨hl, hu⟩ | ⟨hl, hu⟩ | ⟨hl, hu⟩ | hmem := or_assoc.mp hc
  · exact hrange (by decide) (by decide) (.inl (by decide)) hl hu
  · exact hrange (by decide) (by decide) (.inr (by decide)) hl hu
  · exact hrange (by decide) (by decide) (.inr (by decide)) hl hu
  · have hall : ∀ d ∈ ['_', '-', '.', '/', '~', '+', '<', '>', ',', '%', '*', '"'],
        ' ' ≤ d ∧ d ≤ '~' ∧ d ≠ '\\' := by simp
    exact hall c hmem

/-- The characters of a name are none of those that the encoding uses. -/
theorem nameChar_ne {c d : Char} (h : nameChar c) (hd : d ∈ ['<', '>', ',', '%', '*', '"', '\\']) : c ≠ d := by
  intro he
  subst he
  have hall : ∀ d ∈ ['<', '>', ',', '%', '*', '"', '\\'], nameChar d = false := by
    simp [nameChar, isLetterOrUnderscore, isLetter, isNum]
  rw [hall c hd] at h
  cases h

/-- What stands for a name when it is printed: `bare`, or in quotes, with the quotes in it written as `q`. -/
def quoted (q name : Text) : Text := if bare name then name else '"' :: escape '"' q name ++ ['"']

theorem escapeIdent_eq {name : Text} (h : ∀ c ∈ name, ' ' ≤ c ∧ c ≤ '~' ∧ c ≠ '\\') :
    P.escapeIdent name = quoted escaped name := by
  unfold quoted
  split
  · rename_i hb
    exact P.bare_eq name hb
  · rename_i hb
    exact P.quoted_eq name (by simpa using hb) h

/-- `getFullName` and `implicitCast` go over a printed name. -/
theorem ReplaceAll_quoted {name : Text} (hb : '\\' ∉ name) (new s : Text) :
    ReplaceAll escaped new (quoted escaped name ++ s) = quoted new name ++ ReplaceAll escaped new s := by
  unfold quoted
  split
  · exact ReplaceAll_append hb s
  · have hq : '"' :: escape '"' escaped name ++ ['"'] ++ s =
        '"' :: (escape '"' ('\\' :: ['2', '2']) name ++ (['"'] ++ s)) := by simp [escaped]
    rw [hq, escaped, ReplaceAll_cons (by decide)]
    have he : ReplaceAll ('\\' :: ['2', '2']) new (escape '"' ('\\' :: ['2', '2']) name ++ (['"'] ++ s)) =
        escape '"' new name ++ ReplaceAll ('\\' :: ['2', '2']) new (['"'] ++ s) := ReplaceAll_escape hb _
    rw [he, ReplaceAll_append (by decide)]
    simp

/-- A type argument as it stands in the name of an instance. -/
def Tp.raw (t : Tp) : Text := '%' :: quoted ['"'] (t.typeName P) ++ List.replicate t.level '*'

/-- The type arguments as they stand in the name of an instance. -/
def argsRaw (args : List Tp) : Text := args.flatMap fun t => t.raw P ++ [',']

theorem Tp.str_eq : ∀ t : Tp, t.str P = '%' :: P.escapeIdent (t.typeName P) ++ List.replicate t.level '*'
  | .struct _ => (List.append_nil _).symm
  | .inst _ _ _ => (List.append_nil _).symm
  | .pointer t => by
    show t.str P ++ ['*'] = '%' :: P.escapeIdent (t.typeName P) ++ List.replicate (t.level + 1) '*'
    rw [t.str_eq, List.replicate_succ', List.append_assoc]

/-- `getFullName` and the signature of an instance. -/
theorem ReplaceAll_sig (id : Name) {args raw : Text}
    (h : ∀ s, ReplaceAll escaped ['"'] (args ++ s) = raw ++ ReplaceAll escaped ['"'] s) :
    ReplaceAll escaped ['"'] (id.text ++ '<' :: args ++ ['>']) = id.text ++ '<' :: raw ++ ['>'] := by
  have hid : '\\' ∉ id.text := fun hmem => nameChar_ne (id.plain _ hmem) (by simp) rfl
  rw [List.append_assoc]
  show ReplaceAll ('\\' :: ['2', '2']) ['"'] (id.text ++ '<' :: (args ++ ['>'])) = _
  rw [ReplaceAll_append hid, ReplaceAll_cons (by decide)]
  have ha : ReplaceAll ('\\' :: ['2', '2']) ['"'] (args ++ ['>']) = raw ++ ['>'] := h ['>']
  rw [ha]
  simp

/-- The name of an instance: something in front of the type arguments, and these in brackets. -/
theorem instName_eq (pkg id : Name) {args raw : Text}
    (h : ∀ s, ReplaceAll escaped ['"'] (args ++ s) = raw ++ ReplaceAll escaped ['"'] s) :
    ∃ pre, (∀ c ∈ pre, nameChar c) ∧ instName pkg id args = pre ++ '<' :: raw ++ ['>'] := by
  unfold instName getFullName
  rw [ReplaceAll_sig id h]
  split
  · exact ⟨id.text, id.plain, rfl⟩
  split
  · exact ⟨id.text, id.plain, rfl⟩
  split
  · exact ⟨id.text, id.plain, rfl⟩
  · refine ⟨pkg.text ++ '.' :: id.text, fun c hc => ?_, by simp⟩
    obtain hc | hc := List.mem_append.mp hc
    · exact pkg.plain c hc
    · obtain rfl | hc := List.mem_cons.mp hc
      · decide
      · exact id.plain c hc

theorem quoted_self (name : Text) : quoted ['"'] name = if bare name then name else '"' :: name ++ ['"'] := by
  rw [quoted, escape_self]

theorem raw_chars {t : Tp} (h : ∀ c ∈ t.typeName P, textChar c) : ∀ c ∈ t.raw P, textChar c := by
  intro c hc
  unfold Tp.raw at hc
  rw [quoted_self] at hc
  split at hc
  · simp only [List.cons_append, List.mem_cons, List.mem_append, List.mem_replicate] at hc
    obtain rfl | hc | ⟨-, rfl⟩ := hc
    · rfl
    · exact h c hc
    · rfl
  · simp only [List.cons_append, List.mem_cons, List.mem_append, List.mem_replicate, List.not_mem_nil,
      or_false] at hc
    obtain rfl | rfl | (hc | rfl) | ⟨-, rfl⟩ := hc
    · rfl
    · rfl
    · exact h c hc
    · rfl
    · rfl

theorem argsRaw_cons (t : Tp) (ts : List Tp) : argsRaw P (t :: ts) = t.raw P ++ ',' :: argsRaw P ts := by
  simp [argsRaw]

mutual
/-- The characters of a type's name. -/
theorem typeName_chars : ∀ (t : Tp), ∀ c ∈ t.typeName P, textChar c
  | .struct name, c, hc => textChar_of_nameChar (name.plain c hc)
  | .inst pkg id args, c, hc => by
    obtain ⟨pre, hpre, heq⟩ := instName_eq pkg id fun s => (argsStr_replace args s).1
    have hc : c ∈ pre ++ '<' :: argsRaw P args ++ ['>'] := heq ▸ hc
    simp only [List.append_assoc, List.cons_append, List.mem_append, List.mem_cons, List.not_mem_nil,
      or_false] at hc
    obtain hc | rfl | hc | rfl := hc
    · exact textChar_of_nameChar (hpre c hc)
    · rfl
    · exact (argsStr_replace args []).2 c hc
    · rfl
  | .pointer t, c, hc => typeName_chars t c hc

/-- The type arguments in the name of an instance. -/
theorem argsStr_replace : ∀ (args : List Tp) (s : Text),
    ReplaceAll escaped ['"'] (argsStr P args ++ s) = argsRaw P args ++ ReplaceAll escaped ['"'] s ∧
      ∀ c ∈ argsRaw P args, textChar c
  | [], s => ⟨rfl, fun c hc => by cases hc⟩
  | t :: ts, s => by
    have hname := typeName_chars t
    have hprint : ∀ c ∈ t.typeName P, ' ' ≤ c ∧ c ≤ '~' ∧ c ≠ '\\' := fun c hc => printable_of_textChar (hname c hc)
    have ih := argsStr_replace ts s
    constructor
    · have hstar : '\\' ∉ List.replicate t.level '*' ++ [','] := by
        intro hmem
        simp at hmem
      have hsplit : argsStr P (t :: ts) ++ s = '%' :: (quoted escaped (t.typeName P) ++
          ((List.replicate t.level '*' ++ [',']) ++ (argsStr P ts ++ s))) := by
        show t.str P ++ ',' :: argsStr P ts ++ s = _
        rw [t.str_eq, escapeIdent_eq P hprint]
        simp
      have hrest : ReplaceAll escaped ['"'] ((List.replicate t.level '*' ++ [',']) ++ (argsStr P ts ++ s)) =
          (List.replicate t.level '*' ++ [',']) ++ (argsRaw P ts ++ ReplaceAll escaped ['"'] s) := by
        rw [← ih.1]
        exact ReplaceAll_append hstar _
      have hpercent : ∀ x, ReplaceAll escaped ['"'] ('%' :: x) = '%' :: ReplaceAll escaped ['"'] x :=
        fun x => ReplaceAll_cons (by decide) x
      rw [hsplit, hpercent, ReplaceAll_quoted fun hmem => (hprint _ hmem).2.2 rfl, hrest, argsRaw_cons]
      simp [Tp.raw]
    · intro c hc
      rw [argsRaw_cons] at hc
      obtain hc | hc := List.mem_append.mp hc
      · exact raw_chars P hname c hc
      · obtain rfl | hc := List.mem_cons.mp hc
        · rfl
        · exact ih.2 c hc
end

/-- The name of an instance. -/
theorem typeName_inst (pkg id : Name) (args : List Tp) :
    ∃ pre, (∀ c ∈ pre, nameChar c) ∧
      (Tp.inst pkg id args).typeName P = pre ++ '<' :: argsRaw P args ++ ['>'] :=
  instName_eq pkg id fun s => (argsStr_replace P args s).1

/-! ## What is read -/

/-- What the loop gets to see of a type argument. -/
def Tp.cut (t : Tp) : Text := '%' :: (t.typeName P).filter (· ≠ '"') ++ List.replicate t.level '*'

theorem quoted_filter (name : Text) : (quoted ['"'] name).filter (· ≠ '"') = name.filter (· ≠ '"') := by
  rw [quoted_self]
  split
  · rfl
  · simp

theorem argsRaw_filter (args : List Tp) :
    (argsRaw P args).filter (· ≠ '"') = args.flatMap fun t => t.cut P ++ [','] := by
  have hraw : ∀ t : Tp, (t.raw P).filter (· ≠ '"') = t.cut P := by
    intro t
    have hstars : (List.replicate t.level '*').filter (· ≠ '"') = List.replicate t.level '*' := by simp
    rw [Tp.raw, List.cons_append, List.filter_cons_of_pos (by decide), List.filter_append, quoted_filter, hstars]
    rfl
  induction args with
  | nil => rfl
  | cons t ts ih =>
    rw [argsRaw_cons, List.filter_append, List.filter_cons_of_pos (by decide), hraw, ih]
    simp

/-- The text that the loop runs over. -/
theorem implicitCastGenerics_eq (pkg id : Name) (args : List Tp) :
    implicitCastGenerics P (.pointer (.inst pkg id args)) =
      loop (args.flatMap fun t => t.cut P ++ [',']) [] 0 := by
  obtain ⟨pre, hpre, hname⟩ := typeName_inst P pkg id args
  have hchars := typeName_chars P (.inst pkg id args)
  have hnotbare : bare ((Tp.inst pkg id args).typeName P) = false := by
    rw [bare, List.all_eq_false, hname]
    exact ⟨'<', by simp, by decide⟩
  have hstr : (Tp.pointer (.inst pkg id args)).str P =
      ['%', '"'] ++ escape '"' escaped ((Tp.inst pkg id args).typeName P) ++ ['"', '*'] := by
    rw [Tp.str_eq]
    show '%' :: P.escapeIdent ((Tp.inst pkg id args).typeName P) ++ ['*'] = _
    rw [escapeIdent_eq P fun c hc => printable_of_textChar (hchars c hc), quoted, hnotbare]
    simp
  -- the quoting changes nothing in front of the `<`
  have hesc : escape '"' escaped ((Tp.inst pkg id args).typeName P) =
      pre ++ '<' :: (escape '"' escaped (argsRaw P args) ++ ['>']) := by
    have hq : '"' ∉ pre := fun hmem => nameChar_ne (hpre _ hmem) (by simp) rfl
    rw [hname, List.append_assoc, escape_append, escape_of_notMem hq]
    show pre ++ escape '"' escaped ('<' :: (argsRaw P args ++ ['>'])) = _
    rw [escape_cons (by decide), escape_append]
    rfl
  have hsrc : Trim cutset ((Tp.pointer (.inst pkg id args)).str P) =
      pre ++ '<' :: (escape '"' escaped (argsRaw P args) ++ ['>']) := by
    rw [hstr, ← hesc]
    refine Trim_wrap (by simp [cutset]) (by simp [cutset]) ?_ ?_
    · rw [hesc]
      cases pre with
      | nil => simp [cutset]
      | cons c pre =>
        have hc : nameChar c := hpre c List.mem_cons_self
        simp [cutset, nameChar_ne hc]
    · have hconcat : pre ++ '<' :: (escape '"' escaped (argsRaw P args) ++ ['>']) =
          (pre ++ '<' :: escape '"' escaped (argsRaw P args)) ++ ['>'] := by simp
      rw [hesc, hconcat, List.getLast?_concat]
      simp [cutset]
  have hlt : '<' ∉ pre := fun hmem => nameChar_ne (hpre _ hmem) (by simp) rfl
  have hin : ((pre ++ '<' :: (escape '"' escaped (argsRaw P args) ++ ['>'])).drop (pre.length + 1)).dropLast =
      escape '"' escaped (argsRaw P args) := by
    simp
  have hb : '\\' ∉ argsRaw P args := by
    intro hmem
    exact (printable_of_textChar ((argsStr_replace P args []).2 _ hmem)).2.2 rfl
  -- the quotes of the arguments are escaped in the name, and what is escaped is taken out
  have hss : ReplaceAll escaped [] (escape '"' escaped (argsRaw P args)) =
      args.flatMap fun t => t.cut P ++ [','] := by
    have hre : ReplaceAll escaped [] (escape '"' escaped (argsRaw P args) ++ []) =
        escape '"' [] (argsRaw P args) ++ ReplaceAll escaped [] [] := ReplaceAll_escape hb []
    rw [List.append_nil, escape_nil, argsRaw_filter] at hre
    exact hre.trans (List.append_nil _)
  have hidx : (pre ++ '<' :: (escape '"' escaped (argsRaw P args) ++ ['>'])).idxOf '<' = pre.length := by
    rw [List.idxOf_append_of_notMem hlt, List.idxOf_cons_self, Nat.add_zero]
  unfold implicitCastGenerics argsText
  rw [hsrc, hidx, hin, hss]
  exact if_pos (by simp)

/-! ## The loop -/

/-- The loop goes over a text without cutting, and is at the level of brackets that it was at. -/
def Passes (b : Text) : Prop :=
  ∀ (ss seg : Text) (lev : Int), 0 ≤ lev → loop (b ++ ss) seg lev = loop ss (seg ++ b) lev

/-- The same, if the text is in brackets. -/
def PassesInside (b : Text) : Prop :=
  ∀ (ss seg : Text) (lev : Int), 0 < lev → loop (b ++ ss) seg lev = loop ss (seg ++ b) lev

theorem Passes.inside {b : Text} (h : Passes b) : PassesInside b := fun ss seg lev hl => h ss seg lev (Int.le_of_lt hl)

theorem Passes.nil : Passes [] := fun ss seg lev _ => by rw [List.append_nil]; rfl

theorem Passes.append {b b' : Text} (h : Passes b) (h' : Passes b') : Passes (b ++ b') := by
  intro ss seg lev hl
  rw [List.append_assoc, h _ _ _ hl, h' _ _ _ hl, List.append_assoc]

theorem PassesInside.append {b b' : Text} (h : PassesInside b) (h' : PassesInside b') : PassesInside (b ++ b') := by
  intro ss seg lev hl
  rw [List.append_assoc, h _ _ _ hl, h' _ _ _ hl, List.append_assoc]

theorem Passes.single {c : Char} (h : c ∉ ['<', '>', ',']) : Passes [c] := by
  intro ss seg lev _
  obtain ⟨hlt, hgt, hcomma⟩ : c ≠ '<' ∧ c ≠ '>' ∧ c ≠ ',' := by simpa using h
  simp [loop, hlt, hgt, hcomma]

theorem PassesInside.comma : PassesInside [','] := by
  intro ss seg lev hl
  have hne : lev ≠ 0 := by omega
  simp [loop, hne]

theorem Passes.of_forall {b : Text} (h : ∀ c ∈ b, c ∉ ['<', '>', ',']) : Passes b := by
  induction b with
  | nil => exact .nil
  | cons c b ih =>
    exact Passes.append (.single (h c List.mem_cons_self)) (ih fun d hd => h d (List.mem_cons_of_mem _ hd))

theorem PassesInside.brackets {b : Text} (h : PassesInside b) : Passes ('<' :: b ++ ['>']) := by
  intro ss seg lev hl
  have hopen : loop ('<' :: b ++ ['>'] ++ ss) seg lev = loop (b ++ ('>' :: ss)) (seg ++ ['<']) (lev + 1) := by
    simp [loop]
  have hclose : loop ('>' :: ss) (seg ++ ['<'] ++ b) (lev + 1) = loop ss (seg ++ ['<'] ++ b ++ ['>']) lev := by
    simp [loop]
  rw [hopen, h _ _ _ (by omega), hclose]
  simp

/-- The comma behind something that passes. -/
theorem Passes.cuts {b : Text} (h : Passes b) (ss seg : Text) :
    loop (b ++ ',' :: ss) seg 0 = generic (seg ++ b) :: loop ss [','] 0 := by
  rw [h _ _ _ (Int.le_refl 0)]
  simp [loop]

theorem Passes.cut {t : Tp} (h : Passes ((t.typeName P).filter (· ≠ '"'))) : Passes (t.cut P) := by
  have hstars : Passes (List.replicate t.level '*') :=
    Passes.of_forall fun c hc => by simp [(List.mem_replicate.mp hc).2]
  exact ((Passes.single (by decide)).append h).append hstars

mutual
theorem name_passes : ∀ t : Tp, Passes ((t.typeName P).filter (· ≠ '"'))
  | .struct name => Passes.of_forall fun c hc => by
    have hn := name.plain c (List.mem_filter.mp hc).1
    simp [nameChar_ne hn]
  | .inst pkg id args => by
    obtain ⟨pre, hpre, hname⟩ := typeName_inst P pkg id args
    have hfilter : pre.filter (· ≠ '"') = pre := by
      refine List.filter_eq_self.mpr fun c hc => ?_
      simp [nameChar_ne (hpre c hc)]
    have hsplit : ((Tp.inst pkg id args).typeName P).filter (· ≠ '"') =
        pre ++ ('<' :: (args.flatMap fun t => t.cut P ++ [',']) ++ ['>']) := by
      rw [hname, List.filter_append, List.filter_append, hfilter, List.filter_cons_of_pos (by decide),
        argsRaw_filter, List.append_assoc]
      rfl
    rw [hsplit]
    refine Passes.append (Passes.of_forall fun c hc => ?_) (args_pass args).brackets
    simp [nameChar_ne (hpre c hc)]
  | .pointer t => name_passes t

theorem args_pass : ∀ args : List Tp, PassesInside (args.flatMap fun t => t.cut P ++ [','])
  | [] => Passes.nil.inside
  | t :: ts => by
    have hcut := (name_passes t).cut
    rw [List.flatMap_cons]
    exact (hcut.inside.append .comma).append (args_pass ts)
end

/-! ## One type argument -/

/-- A named struct type that is printed without quotes. -/
def Tp.Bare : Tp → Prop
  | .struct name => bare name.text
  | _ => False

/-- A named struct type, an instance for struct types that are printed without quotes, or a pointer to one
of these. -/
def Tp.Simple : Tp → Prop
  | .struct _ => True
  | .inst _ _ args => ∀ a ∈ args, a.Bare
  | .pointer t => t.Simple

theorem bare_iff_raw (t : Tp) : t.Bare ↔ '"' ∉ t.raw P ∧ '*' ∉ t.raw P := by
  cases t with
  | struct name =>
    have hq : '"' ∉ name.text := fun hmem => nameChar_ne (name.plain _ hmem) (by simp) rfl
    have hs : '*' ∉ name.text := fun hmem => nameChar_ne (name.plain _ hmem) (by simp) rfl
    show bare name.text = true ↔ _
    rw [Tp.raw, quoted_self]
    cases hb : bare name.text with
    | true => simp [Tp.typeName, Tp.level, hb, hq, hs]
    | false => simp [Tp.typeName, hb]
  | inst pkg id args =>
    obtain ⟨pre, -, hname⟩ := typeName_inst P pkg id args
    have hnotbare : bare ((Tp.inst pkg id args).typeName P) = false := by
      rw [bare, List.all_eq_false, hname]
      exact ⟨'<', by simp, by decide⟩
    simp [Tp.Bare, Tp.raw, quoted_self, hnotbare]
  | pointer t => simp [Tp.Bare, Tp.raw, Tp.level]

/-- A simple type has no quotes and no stars in its name. -/
theorem simple_iff : ∀ t : Tp, t.Simple ↔ '"' ∉ t.typeName P ∧ '*' ∉ t.typeName P
  | .struct name => by
    have hq : '"' ∉ name.text := fun hmem => nameChar_ne (name.plain _ hmem) (by simp) rfl
    have hs : '*' ∉ name.text := fun hmem => nameChar_ne (name.plain _ hmem) (by simp) rfl
    exact ⟨fun _ => ⟨hq, hs⟩, fun _ => trivial⟩
  | .inst pkg id args => by
    obtain ⟨pre, hpre, hname⟩ := typeName_inst P pkg id args
    have hq : '"' ∉ pre := fun hmem => nameChar_ne (hpre _ hmem) (by simp) rfl
    have hs : '*' ∉ pre := fun hmem => nameChar_ne (hpre _ hmem) (by simp) rfl
    show (∀ a ∈ args, a.Bare) ↔ _
    rw [hname]
    simp only [bare_iff_raw P, argsRaw, List.append_assoc, List.cons_append, List.mem_append, List.mem_cons,
      List.mem_flatMap, List.not_mem_nil, or_false, hq, hs, false_or]
    constructor
    · intro h
      refine ⟨?_, ?_⟩
      · rintro (he | ⟨a, ha, hr | he⟩ | he)
        · cases he
        · exact (h a ha).1 hr
        · cases he
        · cases he
      · rintro (he | ⟨a, ha, hr | he⟩ | he)
        · cases he
        · exact (h a ha).2 hr
        · cases he
        · cases he
    · intro h a ha
      exact ⟨fun hr => h.1 (.inr (.inl ⟨a, ha, .inl hr⟩)), fun hr => h.2 (.inr (.inl ⟨a, ha, .inl hr⟩))⟩
  | .pointer t => simple_iff t

/-- The ends of a name are not trimmed away. -/
theorem typeName_ends : ∀ t : Tp,
    (∀ c ∈ (t.typeName P).head?, argCutset c = false ∧ c ≠ ',') ∧
      ∀ c ∈ (t.typeName P).getLast?, argCutset c = false
  | .struct name => by
    have hends : ∀ c ∈ name.text, argCutset c = false ∧ c ≠ ',' := fun c hc => by
      simp [argCutset, nameChar_ne (name.plain c hc)]
    exact ⟨fun c hc => hends c (List.mem_of_mem_head? hc), fun c hc => (hends c (List.mem_of_getLast? hc)).1⟩
  | .inst pkg id args => by
    obtain ⟨pre, hpre, hname⟩ := typeName_inst P pkg id args
    rw [hname, List.getLast?_concat, List.append_assoc]
    refine ⟨?_, by simp [argCutset]⟩
    cases pre with
    | nil => simp [argCutset]
    | cons c pre =>
      have hc : nameChar c := hpre c List.mem_cons_self
      simp [argCutset, nameChar_ne hc]
  | .pointer t => typeName_ends t

theorem cut_of_notMem {t : Tp} (h : '"' ∉ t.typeName P) :
    t.cut P = ['%'] ++ t.typeName P ++ List.replicate t.level '*' := by
  have hfilter : (t.typeName P).filter (· ≠ '"') = t.typeName P := by
    refine List.filter_eq_self.mpr fun c hc => decide_eq_true fun he => ?_
    exact h (he ▸ hc)
  rw [Tp.cut, hfilter]
  rfl

/-- What is read of the first type argument. -/
theorem generic_cut_iff (t : Tp) : generic (t.cut P) = (t.typeName P, t.level) ↔ t.Simple := by
  rw [simple_iff P]
  constructor
  · intro h
    have hname : Trim argCutset (t.cut P) = t.typeName P := congrArg Prod.fst h
    have hlevel : (if (t.cut P).contains '*' then (t.cut P).length - (t.cut P).idxOf '*' else 0) = t.level :=
      congrArg Prod.snd h
    have hq : '"' ∉ t.typeName P := by
      intro hmem
      have hcut : '"' ∈ t.cut P := Trim_subset _ _ (hname ▸ hmem)
      simp [Tp.cut] at hcut
    refine ⟨hq, fun hs => ?_⟩
    -- The first star is one of the name's own.
    have hcut : t.cut P = '%' :: (t.typeName P ++ List.replicate t.level '*') := cut_of_notMem P hq
    have hcontains : (t.cut P).contains '*' = true := by
      rw [List.contains_iff_mem, hcut]
      simp [hs]
    have hidx : (t.cut P).idxOf '*' = (t.typeName P).idxOf '*' + 1 := by
      rw [hcut, List.idxOf_cons_ne _ (by decide), List.idxOf_append_of_mem hs]
    have hlen : (t.cut P).length = (t.typeName P).length + t.level + 1 := by
      rw [hcut]
      simp
    have hlt := List.idxOf_lt_length_of_mem hs
    rw [if_pos hcontains, hidx, hlen] at hlevel
    omega
  · intro h
    obtain ⟨hq, hs⟩ := h
    have hcut := cut_of_notMem P hq
    have hends := typeName_ends P t
    have hname : Trim argCutset (t.cut P) = t.typeName P := by
      rw [hcut]
      refine Trim_wrap (by simp [argCutset]) (fun c hc => ?_) (fun c hc => (hends.1 c hc).1) hends.2
      rw [(List.mem_replicate.mp hc).2]
      rfl
    have hlevel : (if (t.cut P).contains '*' then (t.cut P).length - (t.cut P).idxOf '*' else 0) = t.level := by
      have hs' : '*' ∉ ['%'] ++ t.typeName P := by simpa using hs
      rw [hcut]
      cases hl : t.level with
      | zero => simp [hs]
      | succ n =>
        have hidx : (['%'] ++ t.typeName P ++ List.replicate (n + 1) '*').idxOf '*' =
            (['%'] ++ t.typeName P).length := by
          rw [List.idxOf_append_of_notMem hs', List.replicate_succ, List.idxOf_cons_self, Nat.add_zero]
        rw [if_pos (by simp), hidx, List.length_append, List.length_replicate]
        omega
    exact Prod.ext hname hlevel

/-! ## All of them -/

/-- What is cut off behind a comma begins with the comma. -/
theorem generic_comma (seg : Text) : (generic (',' :: seg)).1.head? = some ',' := by
  have hne : (',' :: seg).rdropWhile argCutset ≠ [] := by
    intro hall
    have := List.rdropWhile_eq_nil_iff.mp hall ',' List.mem_cons_self
    exact absurd this (by decide)
  obtain ⟨c, s, hs⟩ := List.exists_cons_of_ne_nil hne
  have hpre : c :: s <+: ',' :: seg := hs ▸ List.rdropWhile_prefix _ _
  show (((',' :: seg).dropWhile argCutset).rdropWhile argCutset).head? = some ','
  rw [List.dropWhile_cons_of_neg (by decide), hs, (List.cons_prefix_cons.mp hpre).1]
  rfl

/-- The type arguments are read from the name of an instance as they are, just if there is at most one and that
is simple. -/
theorem decode_iff (pkg id : Name) (args : List Tp) :
    implicitCastGenerics P (.pointer (.inst pkg id args)) = args.map (fun t => (t.typeName P, t.level)) ↔
      args.length ≤ 1 ∧ ∀ t ∈ args, t.Simple := by
  rw [implicitCastGenerics_eq]
  cases args with
  | nil => simp [loop]
  | cons t ts =>
    have hfirst : ∀ ss, loop (t.cut P ++ [','] ++ ss) [] 0 = generic (t.cut P) :: loop ss [','] 0 := by
      intro ss
      rw [List.append_assoc]
      exact (name_passes P t).cut.cuts ss []
    cases ts with
    | nil =>
      show loop (t.cut P ++ [','] ++ []) [] 0 = [(t.typeName P, t.level)] ↔ _
      rw [hfirst]
      show [generic (t.cut P)] = _ ↔ _
      rw [List.singleton_inj, generic_cut_iff]
      simp
    | cons u ts =>
      -- from the second on an argument comes with the comma in front of it
      have hsecond : loop ((u :: ts).flatMap fun t => t.cut P ++ [',']) [','] 0 =
          generic (',' :: u.cut P) :: loop (ts.flatMap fun t => t.cut P ++ [',']) [','] 0 := by
        rw [List.flatMap_cons, List.append_assoc]
        exact (name_passes P u).cut.cuts _ [',']
      rw [List.flatMap_cons, hfirst, hsecond]
      constructor
      · intro h
        have hu : generic (',' :: u.cut P) = (u.typeName P, u.level) :=
          (List.cons.inj (List.cons.inj h).2).1
        have hhead : ',' ∈ (u.typeName P).head? := by
          have hname : (generic (',' :: u.cut P)).1 = u.typeName P := congrArg Prod.fst hu
          rw [← hname]
          exact generic_comma _
        exact absurd rfl ((typeName_ends P u).1 ',' hhead).2
      · intro h
        have := h.1
        simp at this

/-! ## Two type arguments -/

/-- Names printed as llir prints them. -/
def llirNames : Printer where
  escapeIdent := quoted escaped
  bare_eq _ h := if_pos h
  quoted_eq name h _ := if_neg (by simp [h])

def mainPkg : Name := ⟨"main".toList, List.all_eq_true.mp rfl⟩

def genericG : Name := ⟨['G'], List.all_eq_true.mp rfl⟩

def mainA : Name := ⟨"main.A".toList, List.all_eq_true.mp rfl⟩

def mainB : Name := ⟨"main.B".toList, List.all_eq_true.mp rfl⟩

/-- `G<A, B>` is read as an instance for `main.A` and `,%main.B`. -/
theorem two_arguments :
    ¬ implicitCastGenerics llirNames (.pointer (.inst mainPkg genericG [.struct mainA, .struct mainB])) =
      [Tp.struct mainA, .struct mainB].map fun t => (t.typeName llirNames, t.level) := by
  decide +kernel

end CalcLang.Ast.Generics
