import Mathlib.Logic.Function.Iterate
import CalcLang.Ast.Generics
import CalcLang.Lib.Reading

/-!
# Instances are told apart by their names

`NewTypeDef` keeps the instances of a generic type in the table of types of its module, under their names: the
signature is made from what llir prints for the type arguments, and if the table has it already, that is the
instance. So the name must say which one it is.

The type arguments have the names of instances in them, with the quotes that llir puts around such a name; inside of a
longer name `getFullName` takes away what made these quotes different from its own. `implicitCast` cannot read
that (`decode_iff`), but two instances never have one name: what stands behind the text of a type is no part of it
(`written_reads`), be it a comma, a bracket or a quote. `instances_told_apart` is what follows for the tables, over
everything that is put into them.
-/

namespace CalcLang.Ast.Generics

open CalcLang.Lex CalcLang.Lib.Strings CalcLang.Lib.Reading

/-! ## Types and their texts -/

/-- The types of `typedic`, without the string. -/
inductive Basic
  | i1 | i8 | i32 | i64 | float | double | void
  deriving DecidableEq

def Basic.str : Basic → Text
  | .i1 => ['i', '1']
  | .i8 => ['i', '8']
  | .i32 => ['i', '3', '2']
  | .i64 => ['i', '6', '4']
  | .float => ['f', 'l', 'o', 'a', 't']
  | .double => ['d', 'o', 'u', 'b', 'l', 'e']
  | .void => ['v', 'o', 'i', 'd']

/-- What a generic type is declared as. -/
structure Id extends Name where
  ident : ∀ c ∈ text, isLetterOrUnderscore c || isNum c

/-- A type as it can be given for a parameter: a basic one, one that has a name, an instance, an array or a pointer.
A slice is a pointer to an instance. -/
inductive Ty where
  | basic (b : Basic)
  | named (name : Name)
  | inst (pkg : Name) (id : Id) (gens : List Ty)
  | array (len : Nat) (elmType : Ty)
  | pointer (elemType : Ty)

variable (P : Printer)

mutual
/-- `String` of a type. -/
def Ty.str : Ty → Text
  | .basic b => b.str
  | .named name => '%' :: P.escapeIdent name.text
  | .inst pkg id gens => '%' :: P.escapeIdent (instName pkg id.toName (gensStr gens))
  | .array len t => '[' :: Nat.toDigits 10 len ++ [' ', 'x', ' '] ++ t.str ++ [']']
  | .pointer t => t.str ++ ['*']

/-- What `NewTypeDef` writes for the type arguments. -/
def gensStr : List Ty → Text
  | [] => []
  | t :: ts => t.str ++ ',' :: gensStr ts
end

mutual
/-- The types that `Tp` has are among these. -/
def Ty.tp : Ty → Option Tp
  | .basic _ | .array _ _ => none
  | .named name => some (.struct name)
  | .inst pkg id gens => (tps gens).map (.inst pkg id.toName)
  | .pointer t => t.tp.map .pointer

def tps : List Ty → Option (List Tp)
  | [] => some []
  | t :: ts => t.tp.bind fun t => (tps ts).map (t :: ·)
end

mutual
/-- They have the same text. -/
theorem Ty.str_tp : ∀ {t : Ty} {t' : Tp}, t.tp = some t' → t.str P = t'.str P
  | .named name, t', h => by
    have h : some (Tp.struct name) = some t' := h
    rw [← Option.some.inj h]
    rfl
  | .inst pkg id gens, t', h => by
    obtain ⟨args, hargs, rfl⟩ := Option.map_eq_some_iff.mp h
    show '%' :: P.escapeIdent (instName pkg id.toName (gensStr P gens)) = _
    rw [gensStr_tps hargs]
    rfl
  | .pointer t, t', h => by
    obtain ⟨t', ht, rfl⟩ := Option.map_eq_some_iff.mp h
    show t.str P ++ ['*'] = t'.str P ++ ['*']
    rw [Ty.str_tp ht]

theorem gensStr_tps : ∀ {gens : List Ty} {args : List Tp}, tps gens = some args → gensStr P gens = argsStr P args
  | [], args, h => by
    have h : some [] = some args := h
    rw [← Option.some.inj h]
    rfl
  | t :: ts, args, h => by
    obtain ⟨t', ht, h⟩ := Option.bind_eq_some_iff.mp h
    obtain ⟨ts', hts, rfl⟩ := Option.map_eq_some_iff.mp h
    show t.str P ++ ',' :: gensStr P ts = t'.str P ++ ',' :: argsStr P ts'
    rw [Ty.str_tp ht, gensStr_tps hts]
end

/-! ## A type in the name of an instance -/

mutual
/-- The text of a type as it stands in the name of an instance, where the quotes are not escaped any more. -/
def Ty.written : Ty → Text
  | .basic b => b.str
  | .named name => '%' :: quoted ['"'] name.text
  | .inst pkg id gens => '%' :: '"' :: (pkg.text ++ '.' :: id.text ++ '<' :: gensWritten gens ++ ['>']) ++ ['"']
  | .array len t => '[' :: Nat.toDigits 10 len ++ [' ', 'x', ' '] ++ t.written ++ [']']
  | .pointer t => t.written ++ ['*']

def gensWritten : List Ty → Text
  | [] => []
  | t :: ts => t.written ++ ',' :: gensWritten ts
end

/-- What llir prints as it is between quotes. -/
def Printable (x : Text) : Prop := ∀ c ∈ x, ' ' ≤ c ∧ c ≤ '~' ∧ c ≠ '\\'

theorem Printable.append {x y : Text} (hx : Printable x) (hy : Printable y) : Printable (x ++ y) := fun c hc =>
  (List.mem_append.mp hc).elim (hx c) (hy c)

theorem Printable.notMem {x : Text} (hx : Printable x) : '\\' ∉ x := fun h => (hx _ h).2.2 rfl

theorem printable_of_nameChar {x : Text} (h : ∀ c ∈ x, nameChar c) : Printable x := fun c hc =>
  printable_of_textChar (textChar_of_nameChar (h c hc))

theorem Basic.str_nameChar (b : Basic) : ∀ c ∈ b.str, nameChar c := by
  cases b <;> exact List.all_eq_true.mp rfl

theorem toDigits_nameChar (n : Nat) : ∀ c ∈ Nat.toDigits 10 n, nameChar c := by
  intro c hc
  have hnum : isNum c = true := Nat.isDigit_of_mem_toDigits (by decide) (by decide) hc
  simp [nameChar, hnum]

theorem replace_printable {x : Text} (h : Printable x) (s : Text) :
    ReplaceAll escaped ['"'] (x ++ s) = x ++ ReplaceAll escaped ['"'] s :=
  ReplaceAll_append h.notMem s

theorem replace_quoted {name : Text} (h : Printable name) (s : Text) :
    ReplaceAll escaped ['"'] ('%' :: P.escapeIdent name ++ s) =
      '%' :: quoted ['"'] name ++ ReplaceAll escaped ['"'] s := by
  have hpercent : ∀ x, ReplaceAll escaped ['"'] ('%' :: x) = '%' :: ReplaceAll escaped ['"'] x :=
    fun x => ReplaceAll_cons (by decide) x
  rw [escapeIdent_eq P h, List.cons_append, hpercent, ReplaceAll_quoted h.notMem]
  rfl

theorem printable_quoted {name : Text} (h : Printable name) : Printable ('%' :: quoted ['"'] name) := by
  have hpercent : Printable ['%'] := by simp [Printable]
  have hquote : Printable ['"'] := by simp [Printable]
  rw [quoted_self]
  split
  · exact hpercent.append h
  · exact hpercent.append (hquote.append (h.append hquote))

theorem Id.dot_notMem (id : Id) : '.' ∉ id.text := fun h => absurd (id.ident '.' h) (by decide)

/-- An identifier does not begin with a brace. -/
theorem Id.head_ne (id : Id) (x : Text) : (id.text ++ '<' :: x).head? ≠ some '\x7b' := by
  cases hid : id.text with
  | nil => simp
  | cons c cs =>
    intro h
    obtain rfl := Option.some.inj h
    exact absurd (id.ident '\x7b' (by rw [hid]; exact List.mem_cons_self)) (by decide)

/-- The name of an instance has its module in front, and the type arguments in brackets behind. -/
theorem instName_written (pkg : Name) (id : Id) {args raw : Text}
    (h : ∀ s, ReplaceAll escaped ['"'] (args ++ s) = raw ++ ReplaceAll escaped ['"'] s) :
    instName pkg id.toName args = pkg.text ++ '.' :: id.text ++ '<' :: raw ++ ['>'] := by
  have hhead : (id.text ++ '<' :: raw ++ ['>']).head? ≠ some '\x7b' := by
    rw [List.append_assoc]
    exact id.head_ne _
  have hextern : ¬ externMap.contains (id.text ++ '<' :: raw ++ ['>']) = true := by
    have hnone : ∀ e ∈ externMap, '<' ∉ e := by decide
    rw [List.contains_iff_mem]
    exact fun hmem => hnone _ hmem (by simp)
  have hprefix : ¬ (pkg.text ++ ['.']).isPrefixOf (id.text ++ '<' :: raw ++ ['>']) = true := by
    rw [List.isPrefixOf_iff_prefix]
    intro h
    have hid : id.text ++ ['<'] <+: id.text ++ '<' :: raw ++ ['>'] := ⟨raw ++ ['>'], by simp⟩
    rcases List.prefix_or_prefix_of_prefix h hid with h | h
    · have hdot : '.' ∈ id.text ++ ['<'] := h.subset (by simp)
      rw [List.mem_append] at hdot
      exact id.dot_notMem (hdot.resolve_right (by simp))
    · have hlt : '<' ∈ pkg.text ++ ['.'] := h.subset (by simp)
      rw [List.mem_append] at hlt
      exact nameChar_ne (pkg.plain _ (hlt.resolve_right (by simp))) (by simp) rfl
  rw [instName, ReplaceAll_sig id.toName h, getFullName, if_neg hhead, if_neg hextern, if_neg hprefix]
  simp

mutual
/-- What `getFullName` makes of the text of a type. -/
theorem str_replace : ∀ t : Ty, Printable t.written ∧
    ∀ s, ReplaceAll escaped ['"'] (t.str P ++ s) = t.written ++ ReplaceAll escaped ['"'] s
  | .basic b => by
    have hb := printable_of_nameChar b.str_nameChar
    exact ⟨hb, replace_printable hb⟩
  | .named name => by
    have hname := printable_of_nameChar name.plain
    exact ⟨printable_quoted hname, replace_quoted P hname⟩
  | .inst pkg id gens => by
    obtain ⟨hgens, hrep⟩ := gensStr_replace gens
    have hname : Printable (pkg.text ++ '.' :: id.text ++ '<' :: gensWritten gens ++ ['>']) := by
      have hdot : Printable ['.'] := by simp [Printable]
      have hid : Printable ('.' :: id.text) := hdot.append (printable_of_nameChar id.plain)
      have hlt : Printable ['<'] := by simp [Printable]
      have hgt : Printable ['>'] := by simp [Printable]
      exact (((printable_of_nameChar pkg.plain).append hid).append (hlt.append hgens)).append hgt
    have hnotbare : bare (pkg.text ++ '.' :: id.text ++ '<' :: gensWritten gens ++ ['>']) = false := by
      rw [bare, List.all_eq_false]
      exact ⟨'<', by simp, by decide⟩
    have hwritten : (Ty.inst pkg id gens).written =
        '%' :: quoted ['"'] (pkg.text ++ '.' :: id.text ++ '<' :: gensWritten gens ++ ['>']) := by
      rw [quoted_self, hnotbare]
      rfl
    have hstr : (Ty.inst pkg id gens).str P =
        '%' :: P.escapeIdent (pkg.text ++ '.' :: id.text ++ '<' :: gensWritten gens ++ ['>']) := by
      rw [← instName_written pkg id hrep]
      rfl
    rw [hwritten, hstr]
    exact ⟨printable_quoted hname, replace_quoted P hname⟩
  | .array len t => by
    obtain ⟨ht, hrep⟩ := str_replace t
    have hopen : Printable ('[' :: Nat.toDigits 10 len ++ [' ', 'x', ' ']) := by
      have hbracket : Printable ['['] := by simp [Printable]
      have htimes : Printable [' ', 'x', ' '] := by simp [Printable]
      exact (hbracket.append (printable_of_nameChar (toDigits_nameChar len))).append htimes
    have hclose : Printable [']'] := by simp [Printable]
    refine ⟨(hopen.append ht).append hclose, fun s => ?_⟩
    show ReplaceAll escaped ['"'] ('[' :: Nat.toDigits 10 len ++ [' ', 'x', ' '] ++ t.str P ++ [']'] ++ s) =
      '[' :: Nat.toDigits 10 len ++ [' ', 'x', ' '] ++ t.written ++ [']'] ++ _
    rw [List.append_assoc, List.append_assoc, replace_printable hopen, hrep, replace_printable hclose]
    simp
  | .pointer t => by
    obtain ⟨ht, hrep⟩ := str_replace t
    have hstar : Printable ['*'] := by simp [Printable]
    refine ⟨ht.append hstar, fun s => ?_⟩
    show ReplaceAll escaped ['"'] (t.str P ++ ['*'] ++ s) = t.written ++ ['*'] ++ _
    rw [List.append_assoc, hrep, replace_printable hstar, List.append_assoc]

theorem gensStr_replace : ∀ gens : List Ty, Printable (gensWritten gens) ∧
    ∀ s, ReplaceAll escaped ['"'] (gensStr P gens ++ s) = gensWritten gens ++ ReplaceAll escaped ['"'] s
  | [] => ⟨by simp [Printable, gensWritten], fun _ => rfl⟩
  | t :: ts => by
    obtain ⟨ht, hrep⟩ := str_replace t
    obtain ⟨hts, hreps⟩ := gensStr_replace ts
    have hcomma : Printable [','] := by simp [Printable]
    refine ⟨ht.append (hcomma.append hts), fun s => ?_⟩
    have hsplit : gensStr P (t :: ts) ++ s = t.str P ++ ([','] ++ (gensStr P ts ++ s)) := by
      simp [gensStr]
    rw [hsplit, hrep, replace_printable hcomma, hreps]
    simp [gensWritten]
end

/-- The name that an instance is put into the table under. -/
theorem instName_eq_written (pkg : Name) (id : Id) (gens : List Ty) : instName pkg id.toName (gensStr P gens) =
    pkg.text ++ '.' :: id.text ++ '<' :: gensWritten gens ++ ['>'] :=
  instName_written pkg id (gensStr_replace P gens).2

/-! ## The text of a type is read in one way -/

/-- What a pointer of any level points to. -/
def Ty.core : Ty → Ty
  | .basic b => .basic b
  | .named name => .named name
  | .inst pkg id gens => .inst pkg id gens
  | .array len elm => .array len elm
  | .pointer t => t.core

/-- How many pointers there are. -/
def Ty.level : Ty → Nat
  | .basic _ | .named _ | .inst _ _ _ | .array _ _ => 0
  | .pointer t => t.level + 1

theorem Ty.written_core : ∀ t : Ty, t.written = t.core.written ++ List.replicate t.level '*'
  | .basic _ | .named _ | .inst _ _ _ | .array _ _ => (List.append_nil _).symm
  | .pointer t => by
    show t.written ++ ['*'] = t.core.written ++ List.replicate (t.level + 1) '*'
    rw [t.written_core, List.replicate_succ', List.append_assoc]

theorem Ty.core_cases : ∀ t : Ty, (∃ b, t.core = .basic b) ∨ (∃ name, t.core = .named name) ∨
    (∃ pkg id gens, t.core = .inst pkg id gens) ∨ ∃ len elm, t.core = .array len elm
  | .basic b => .inl ⟨b, rfl⟩
  | .named name => .inr (.inl ⟨name, rfl⟩)
  | .inst pkg id gens => .inr (.inr (.inl ⟨pkg, id, gens, rfl⟩))
  | .array len elm => .inr (.inr (.inr ⟨len, elm, rfl⟩))
  | .pointer t => t.core_cases

theorem Ty.core_eq_iterate : ∀ t : Ty, t = Ty.pointer^[t.level] t.core
  | .basic _ | .named _ | .inst _ _ _ | .array _ _ => rfl
  | .pointer t => by
    show Ty.pointer t = Ty.pointer^[t.level + 1] t.core
    rw [Function.iterate_succ_apply', ← t.core_eq_iterate]

theorem Name.eq_of_text : ∀ {n n' : Name}, n.text = n'.text → n = n'
  | ⟨_, _⟩, ⟨_, _⟩, rfl => rfl

theorem Id.eq_of_text : ∀ {id id' : Id}, id.text = id'.text → id = id'
  | ⟨⟨_, _⟩, _⟩, ⟨⟨_, _⟩, _⟩, rfl => rfl

/-- What stands behind a type that is no pointer. -/
def Ends (u : Text) : Prop := Halts (fun c => nameChar c || c = '"') u

/-- What stands behind a type. -/
def EndsStars (u : Text) : Prop := Halts (fun c => nameChar c || c = '"' || c = '*') u

theorem Ends.name {u : Text} (h : Ends u) : Halts nameChar u := h.of_or.1

theorem Ends.ne_quote {u x : Text} (h : Ends u) : u ≠ '"' :: x := by
  rintro rfl
  have := h '"' rfl
  simp at this

theorem EndsStars.stars {u : Text} (h : EndsStars u) (n : Nat) : Ends (List.replicate n '*' ++ u) := by
  cases n with
  | zero => exact h.of_or.1
  | succ n => exact halts_cons (by decide) _

theorem EndsStars.star {u : Text} (h : EndsStars u) : Halts (· = '*') u := h.of_or.2

/-- The text of what `t` points to is read in one way. -/
def CoreReads (t : Ty) : Prop :=
  ∀ ⦃t' : Ty⦄ ⦃u v : Text⦄, Ends u → Ends v → t.core.written ++ u = t'.core.written ++ v → t.core = t'.core ∧ u = v

theorem CoreReads.reads {t : Ty} (h : CoreReads t) : Reads Ty.written EndsStars t := by
  intro t' u v hu hv heq
  rw [t.written_core, t'.written_core, List.append_assoc, List.append_assoc] at heq
  obtain ⟨hcore, hstars⟩ := h (hu.stars _) (hv.stars _) heq
  obtain ⟨hlevel, huv⟩ := append_inj_of_halts hu.star hv.star (by simp) (by simp) hstars
  refine ⟨?_, huv⟩
  have hlevel : t.level = t'.level := by simpa using congrArg List.length hlevel
  rw [t.core_eq_iterate, t'.core_eq_iterate, hcore, hlevel]

theorem Basic.str_injective : ∀ {b b' : Basic}, b.str = b'.str → b = b' := by
  intro b b' h
  cases b <;> cases b' <;> first | rfl | cases h

/-- A basic type begins with a letter. -/
theorem Basic.str_cons (b : Basic) : ∃ c cs, b.str = c :: cs ∧ c ∈ ['i', 'f', 'd', 'v'] := by
  cases b <;> exact ⟨_, _, rfl, by simp⟩

theorem Ends.bare_ne {u : Text} (h : Ends u) (name : Name) (x : Text) : name.text ++ u ≠ '"' :: x := by
  intro heq
  cases hname : name.text with
  | nil =>
    rw [hname] at heq
    exact h.ne_quote heq
  | cons c cs =>
    rw [hname] at heq
    have hc : nameChar c := name.plain c (by rw [hname]; exact List.mem_cons_self)
    exact nameChar_ne hc (by simp) (List.cons.inj heq).1

theorem inst_nameChar (pkg : Name) (id : Id) : ∀ c ∈ pkg.text ++ '.' :: id.text, nameChar c := by
  intro c hc
  obtain hc | hc := List.mem_append.mp hc
  · exact pkg.plain c hc
  · obtain rfl | hc := List.mem_cons.mp hc
    · rfl
    · exact id.plain c hc

/-- The name of a type and the name of an instance, with what stands behind the type and behind the first `<`. -/
theorem quoted_ne_inst {u : Text} (hu : Ends u) (name pkg : Name) (id : Id) (x : Text) :
    quoted ['"'] name.text ++ u ≠ '"' :: (pkg.text ++ '.' :: id.text ++ '<' :: x) := by
  intro h
  rw [quoted_self] at h
  split at h
  · exact hu.bare_ne name _ h
  · have htail : name.text ++ '"' :: u = pkg.text ++ '.' :: id.text ++ '<' :: x := by
      simpa using (List.cons.inj h).2
    obtain ⟨-, hstop⟩ := append_inj_of_halts (halts_cons (by decide) _) (halts_cons (by decide) _) name.plain
      (inst_nameChar pkg id) htail
    exact absurd (List.cons.inj hstop).1 (by decide)

theorem quoted_reads {u v : Text} (hu : Ends u) (hv : Ends v) {name name' : Name}
    (h : quoted ['"'] name.text ++ u = quoted ['"'] name'.text ++ v) : name = name' ∧ u = v := by
  simp only [quoted_self] at h
  split at h <;> split at h
  · obtain ⟨hname, huv⟩ := append_inj_of_halts hu.name hv.name name.plain name'.plain h
    exact ⟨Name.eq_of_text hname, huv⟩
  · exact absurd h (hu.bare_ne name _)
  · exact absurd h.symm (hv.bare_ne name' _)
  · have htail : name.text ++ '"' :: u = name'.text ++ '"' :: v := by
      simpa using (List.cons.inj h).2
    obtain ⟨hname, huv⟩ := append_inj_of_halts (halts_cons (by decide) _) (halts_cons (by decide) _)
      name.plain name'.plain htail
    exact ⟨Name.eq_of_text hname, (List.cons.inj huv).2⟩

/-- The text of an instance up to its type arguments, and what stands behind. -/
theorem Ty.written_inst (pkg : Name) (id : Id) (gens : List Ty) (u : Text) : (Ty.inst pkg id gens).written ++ u =
    '%' :: '"' :: (pkg.text ++ '.' :: id.text ++ '<' :: (gensWritten gens ++ '>' :: '"' :: u)) := by
  simp [Ty.written]

/-- The text of a type that is not basic begins with no letter. -/
theorem Basic.str_ne {b : Basic} {c : Char} (hc : c ∉ ['i', 'f', 'd', 'v']) (x u : Text) : c :: x ≠ b.str ++ u := by
  intro h
  obtain ⟨d, cs, hb, hd⟩ := b.str_cons
  rw [hb] at h
  exact hc ((List.cons.inj h).1 ▸ hd)

theorem core_reads_basic (b : Basic) : CoreReads (.basic b) := by
  intro t' u v hu hv h
  rcases t'.core_cases with ⟨b', ht⟩ | ⟨name, ht⟩ | ⟨pkg, id, gens, ht⟩ | ⟨len, elm, ht⟩
  all_goals rw [ht] at h
  · obtain ⟨hb, huv⟩ := append_inj_of_halts hu.name hv.name b.str_nameChar b'.str_nameChar h
    exact ⟨by rw [ht, Basic.str_injective hb]; rfl, huv⟩
  · exact absurd h.symm (Basic.str_ne (by simp) _ _)
  · exact absurd h.symm (Basic.str_ne (by simp) _ _)
  · exact absurd h.symm (Basic.str_ne (by simp) _ _)

theorem core_reads_named (name : Name) : CoreReads (.named name) := by
  intro t' u v hu hv h
  rcases t'.core_cases with ⟨b, ht⟩ | ⟨name', ht⟩ | ⟨pkg, id, gens, ht⟩ | ⟨len, elm, ht⟩
  all_goals rw [ht] at h
  · exact absurd h (Basic.str_ne (by simp) _ _)
  · obtain ⟨rfl, huv⟩ := quoted_reads hu hv (List.cons.inj h).2
    exact ⟨ht.symm, huv⟩
  · rw [Ty.written_inst] at h
    exact absurd (List.cons.inj h).2 (quoted_ne_inst hu _ _ _ _)
  · exact absurd (List.cons.inj h).1 (by decide)

/-- What is in front of the first `<` is the module and the name of the generic type. -/
theorem inst_inj {pkg pkg' : Name} {id id' : Id} {x y : Text}
    (h : pkg.text ++ '.' :: id.text ++ '<' :: x = pkg'.text ++ '.' :: id'.text ++ '<' :: y) :
    pkg = pkg' ∧ id = id' ∧ x = y := by
  obtain ⟨hpre, hrest⟩ := append_inj_of_halts (halts_cons (by decide) _) (halts_cons (by decide) _)
    (inst_nameChar pkg id) (inst_nameChar pkg' id') h
  obtain ⟨hpkg, hid⟩ := append_inj_of_notMem id.dot_notMem id'.dot_notMem hpre
  exact ⟨Name.eq_of_text hpkg, Id.eq_of_text hid, (List.cons.inj hrest).2⟩

theorem gensWritten_eq : ∀ gens : List Ty, gensWritten gens = gens.flatMap fun t => t.written ++ [',']
  | [] => rfl
  | t :: ts => by
    show t.written ++ ',' :: gensWritten ts = _
    rw [gensWritten_eq ts]
    simp

/-- No type begins with the bracket that closes the type arguments. -/
theorem Ty.written_cons : ∀ t : Ty, ∃ c cs, t.written = c :: cs ∧ c ≠ '>'
  | .basic b => by
    obtain ⟨c, cs, hb, hc⟩ := b.str_cons
    refine ⟨c, cs, hb, ?_⟩
    rintro rfl
    simp at hc
  | .named _ | .inst _ _ _ | .array _ _ => ⟨_, _, rfl, by decide⟩
  | .pointer t => by
    obtain ⟨c, cs, ht, hc⟩ := t.written_cons
    exact ⟨c, cs ++ ['*'], by rw [Ty.written, ht]; rfl, hc⟩

theorem core_reads_inst (pkg : Name) (id : Id) {gens : List Ty} (hgens : ∀ t ∈ gens, Reads Ty.written EndsStars t) :
    CoreReads (.inst pkg id gens) := by
  intro t' u v hu hv h
  have h := (Ty.written_inst pkg id gens u).symm.trans h
  rcases t'.core_cases with ⟨b, ht⟩ | ⟨name, ht⟩ | ⟨pkg', id', gens', ht⟩ | ⟨len, elm, ht⟩
  all_goals rw [ht] at h
  · exact absurd h (Basic.str_ne (by simp) _ _)
  · exact absurd (List.cons.inj h).2.symm (quoted_ne_inst hv _ _ _ _)
  · rw [Ty.written_inst] at h
    obtain ⟨hpkg, hid, hrest⟩ := inst_inj (List.cons.inj (List.cons.inj h).2).2
    rw [gensWritten_eq, gensWritten_eq] at hrest
    have hcomma : ∀ x : Text, EndsStars (',' :: x) := halts_cons (by decide)
    obtain ⟨rfl, huv⟩ := reads_list hcomma Ty.written_cons hgens hrest
    exact ⟨by rw [ht, hpkg, hid]; rfl, (List.cons.inj huv).2⟩
  · exact absurd (List.cons.inj h).1 (by decide)

theorem Ty.written_array (len : Nat) (elm : Ty) (u : Text) : (Ty.array len elm).written ++ u =
    '[' :: (Nat.toDigits 10 len ++ ' ' :: ('x' :: ' ' :: (elm.written ++ ']' :: u))) := by
  simp [Ty.written]

theorem core_reads_array (len : Nat) {elm : Ty} (helm : Reads Ty.written EndsStars elm) :
    CoreReads (.array len elm) := by
  intro t' u v hu hv h
  rcases t'.core_cases with ⟨b, ht⟩ | ⟨name, ht⟩ | ⟨pkg, id, gens, ht⟩ | ⟨len', elm', ht⟩
  all_goals rw [ht] at h
  · exact absurd h (Basic.str_ne (by simp) _ _)
  · exact absurd (List.cons.inj h).1 (by decide)
  · exact absurd (List.cons.inj h).1 (by decide)
  · rw [Ty.core, Ty.written_array, Ty.written_array] at h
    obtain ⟨hlen, hrest⟩ := append_inj_of_halts (halts_cons (by decide) _) (halts_cons (by decide) _)
      (toDigits_nameChar len) (toDigits_nameChar len') (List.cons.inj h).2
    have hbracket : ∀ x : Text, EndsStars (']' :: x) := halts_cons (by decide)
    obtain ⟨rfl, huv⟩ := helm (hbracket _) (hbracket _) (List.cons.inj (List.cons.inj (List.cons.inj hrest).2).2).2
    have hlen : len = len' := by
      simpa using congrArg (fun ds => Nat.ofDigitChars 10 ds 0) hlen
    exact ⟨by rw [ht, hlen]; rfl, (List.cons.inj huv).2⟩

mutual
theorem core_reads : ∀ t : Ty, CoreReads t
  | .basic b => core_reads_basic b
  | .named name => core_reads_named name
  | .inst pkg id gens => core_reads_inst pkg id (gens_read gens)
  | .array len elm => core_reads_array len (core_reads elm).reads
  | .pointer t => core_reads t

theorem gens_read : ∀ gens : List Ty, ∀ t ∈ gens, Reads Ty.written EndsStars t
  | [] => List.forall_mem_nil _
  | t :: ts => List.forall_mem_cons.mpr ⟨(core_reads t).reads, gens_read ts⟩
end

/-- What stands behind the text of a type is no part of it. -/
theorem written_reads (t : Ty) : Reads Ty.written EndsStars t := (core_reads t).reads

/-- The name of an instance tells which one it is. -/
theorem instName_inj {pkg pkg' : Name} {id id' : Id} {gens gens' : List Ty}
    (h : instName pkg id.toName (gensStr P gens) = instName pkg' id'.toName (gensStr P gens')) :
    pkg = pkg' ∧ id = id' ∧ gens = gens' := by
  rw [instName_eq_written, instName_eq_written] at h
  obtain ⟨hpkg, hid, hrest⟩ := inst_inj (by simpa using h)
  rw [gensWritten_eq, gensWritten_eq] at hrest
  have hcomma : ∀ x : Text, EndsStars (',' :: x) := halts_cons (by decide)
  exact ⟨hpkg, hid, (reads_list hcomma Ty.written_cons (fun t _ => written_reads t) hrest).1⟩

end CalcLang.Ast.Generics
