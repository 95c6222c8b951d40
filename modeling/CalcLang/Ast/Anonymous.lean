import CalcLang.Ast.Scope
import CalcLang.Lex.Scan
import CalcLang.Lib.Chain
import CalcLang.Lib.Strings

/-!
# The fields of anonymous structs

`StructDefNode.calc` computes a struct type and puts it, with the indices of its fields, into the
`types` of the scope it is computed in. Its name there is the text that llir prints for
it, without stars and quotes. A field is looked up again under the text of the type at hand: by
`StructInitNode.calc` when a struct is made, and by `VarBlockNode.calc` when a field is selected.

The text has the types of the fields and not their names. So what is found is the latest struct type
with these field types, whatever its fields are called; it is found with the pointers of the type
that was computed, through which llir does not index; and where the text has a dot, in the name of
a type of some module, it is taken for a name of a module, which is not there. `uses_iff` says
when every field is found at its own index nonetheless.

Named types have names that do not begin with a brace, so what is stored under them is never met here. The
struct type of a `type` declaration or of an instance of a generic type is computed like the
others.
-/

namespace CalcLang.Ast.Anonymous

open CalcLang.Lex CalcLang.Lib.Chain CalcLang.Lib.Strings

variable {κ : Type}

/-! ## Types and their texts -/

/-- A type of llir: a struct, a pointer, or something else that is made of parts. -/
inductive LlType (κ : Type) where
  | comp (c : κ) (parts : List (LlType κ))
  | struct (fields : List (LlType κ))
  | pointer (elemType : LlType κ)

def pointers : Nat → LlType κ → LlType κ
  | 0, t => t
  | n + 1, t => pointers n (.pointer t)

/-- `String` of llir's types. -/
structure Printer (κ : Type) where
  str : LlType κ → Text
  struct_head : ∀ ts, (str (.struct ts)).head? = some '\x7b'
  pointer_eq : ∀ t, str (.pointer t) = str t ++ ['*']

/-- The characters of `"%*\""`. -/
def cutset (c : Char) : Bool := c = '%' || c = '*' || c = '"'

/-- `helper.SplitLast(str, ".")`: the last dot in front of the first `<`. -/
def SplitLast (str : Text) : Option (Text × Text) :=
  match (str.takeWhile (· ≠ '<')).reverse.dropWhile (· ≠ '.') with
  | [] => none
  | _ :: first => some (first.reverse, str.drop (first.length + 1))

/-! ## The tables -/

/-- A `field`. -/
structure Field (κ : Type) where
  idx : Nat
  ftype : LlType κ

/-- A `typedef`. -/
structure Typedef (κ : Type) where
  structType : LlType κ
  fieldsIdx : List (Ident × Field κ)

/-- The `types` of a scope and of the scopes around it. -/
abbrev Types (κ : Type) := List (List (Text × Typedef κ))

/-- The loop over `Orderedfields`, from the `i`th on. -/
def fieldsFrom (i : Nat) (m : List (Ident × Field κ)) :
    List (Ident × LlType κ) → List (Ident × Field κ)
  | [] => m
  | (k, tp) :: fs => fieldsFrom (i + 1) ((k, ⟨i, tp⟩) :: m) fs

/-- The map of the fields. A name that comes twice is overwritten. -/
def fieldsIdx (fields : List (Ident × LlType κ)) : List (Ident × Field κ) := fieldsFrom 0 [] fields

/-- A type expression: an anonymous struct, or something else that is made of parts. What is computed on
the way is a part as well, such as the struct of a generic type that is instantiated. -/
inductive TypeNode (κ : Type) where
  | comp (c : κ) (parts : List (TypeNode κ)) (ptrlevel : Nat)
  | structDef (ptrlevel : Nat) (Orderedfields : List (Ident × TypeNode κ))

mutual
/-- `calc` of a type, in the scope that is `level` scopes further out. -/
def TypeNode.calc (P : Printer κ) (level : Nat) : TypeNode κ → Types κ → LlType κ × Types κ
  | .comp c parts ptrlevel, s =>
    let r := calcs P level parts s
    (pointers ptrlevel (.comp c r.1), r.2)
  | .structDef ptrlevel fields, s =>
    let r := calcFields P level fields s
    let tp := pointers ptrlevel (.struct (r.1.map Prod.snd))
    (tp, addAt level (Trim cutset (P.str tp), ⟨tp, fieldsIdx r.1⟩) r.2)

def calcs (P : Printer κ) (level : Nat) : List (TypeNode κ) → Types κ → List (LlType κ) × Types κ
  | [], s => ([], s)
  | t :: ts, s =>
    let r := t.calc P level s
    let rs := calcs P level ts r.2
    (r.1 :: rs.1, rs.2)

def calcFields (P : Printer κ) (level : Nat) :
    List (Ident × TypeNode κ) → Types κ → List (Ident × LlType κ) × Types κ
  | [], s => ([], s)
  | (k, t) :: fs, s =>
    let r := t.calc P level s
    let rs := calcFields P level fs r.2
    ((k, r.1) :: rs.1, rs.2)
end

/-- A struct type under its trimmed text: `ScopeMap` has no module with a name that begins with a
brace. -/
def findStruct (pkg : Ident) (s : Types κ) (ss : Text) : Option (Typedef κ) :=
  match SplitLast ss with
  | some _ => none
  | none => search (getFullName pkg ss) s

/-- The index of a `getelementptr` into a type. llir panics at a pointer. -/
def gepIndex : LlType κ → Nat → Option Nat
  | .struct fields, i => if i < fields.length then some i else none
  | _, _ => none

/-- The field that is addressed, if the compiler gets that far. -/
def address (tp : Option (Typedef κ)) (f : Ident) : Option Nat :=
  tp.bind fun tp => (tp.fieldsIdx.lookup f).bind fun fi => gepIndex tp.structType fi.idx

/-! ## Programs -/

/-- The names of a list of fields. -/
def names {τ : Type} (fields : List (Ident × τ)) : List Ident := fields.map Prod.fst

/-- Where a field is declared. -/
def declaredAt : List Ident → Ident → Option Nat
  | [], _ => none
  | k :: ks, f => ((declaredAt ks f).map (· + 1)).or (if k = f then some 0 else none)

/-- What the compilation of a module does to the types, one thing after the other: a type is computed, a
struct is made with some of its fields, a field of a value is selected, a block is compiled.
The values of the fields are computed after the lookup, in any order, and a struct that goes to the heap
has its type computed once more then. -/
inductive Step (κ : Type) where
  | tp (level : Nat) (t : TypeNode κ)
  | init (ptrlevel : Nat) (fields : List (Ident × TypeNode κ))
      (vals : List { f : Ident // f ∈ names fields })
  | select (fields : List (Ident × LlType κ)) (f : { f : Ident // f ∈ names fields })
  | block (body : List (Step κ))

/-- A field that is initialised or selected: where its own type declares it, and the index that is
addressed. -/
structure FieldUse where
  declared : Option Nat
  addressed : Option Nat

mutual
/-- What is addressed, and the types afterwards. -/
def Step.run (P : Printer κ) (pkg : Ident) : Step κ → Types κ → List FieldUse × Types κ
  | .tp level t, s => ([], (t.calc P level s).2)
  | .init ptrlevel fields vals, s =>
    let r := (TypeNode.structDef ptrlevel fields).calc P 0 s
    let tp := findStruct pkg r.2 (Trim cutset (P.str r.1))
    (vals.map fun f => ⟨declaredAt (names fields) f.1, address tp f.1⟩, r.2)
  | .select fields f, s =>
    let tp := findStruct pkg s (Trim cutset (P.str (.pointer (.struct (fields.map Prod.snd)))))
    ([⟨declaredAt (names fields) f.1, address tp f.1⟩], s)
  | .block body, s =>
    let r := runs P pkg body ([] :: s)
    (r.1, r.2.tail)

def runs (P : Printer κ) (pkg : Ident) : List (Step κ) → Types κ → List FieldUse × Types κ
  | [], s => ([], s)
  | st :: sts, s =>
    let r := st.run P pkg s
    let rs := runs P pkg sts r.2
    (r.1 ++ rs.1, rs.2)
end

/-! ## Struct types, as they are written -/

/-- A struct type: its pointers, and the fields in their order. -/
structure StructType (κ : Type) where
  ptrlevel : Nat
  fields : List (Ident × LlType κ)

def StructType.tp (d : StructType κ) : LlType κ :=
  pointers d.ptrlevel (.struct (d.fields.map Prod.snd))

/-- The text of a struct with fields of these types. -/
def Printer.shape (P : Printer κ) (fields : List (Ident × LlType κ)) : Text :=
  P.str (.struct (fields.map Prod.snd))

/-- What is stored for it. -/
def StructType.entry (P : Printer κ) (d : StructType κ) : Text × Typedef κ :=
  (P.shape d.fields |> Trim cutset, ⟨d.tp, fieldsIdx d.fields⟩)

mutual
def TypeNode.type : TypeNode κ → LlType κ
  | .comp c parts ptrlevel => pointers ptrlevel (.comp c (partTypes parts))
  | .structDef ptrlevel fields => pointers ptrlevel (.struct ((fieldTypes fields).map Prod.snd))

def partTypes : List (TypeNode κ) → List (LlType κ)
  | [] => []
  | t :: ts => t.type :: partTypes ts

def fieldTypes : List (Ident × TypeNode κ) → List (Ident × LlType κ)
  | [] => []
  | (k, t) :: fs => (k, t.type) :: fieldTypes fs
end

mutual
/-- The struct types in a type, a struct behind what is in it. -/
def TypeNode.structs : TypeNode κ → List (StructType κ)
  | .comp _ parts _ => partStructs parts
  | .structDef ptrlevel fields => fieldStructs fields ++ [⟨ptrlevel, fieldTypes fields⟩]

def partStructs : List (TypeNode κ) → List (StructType κ)
  | [] => []
  | t :: ts => t.structs ++ partStructs ts

def fieldStructs : List (Ident × TypeNode κ) → List (StructType κ)
  | [] => []
  | (_, t) :: fs => t.structs ++ fieldStructs fs
end

/-- The struct types of the scopes, the latest first. -/
abbrev History (κ : Type) := List (List (StructType κ))

mutual
/-- What has been computed when a step is done. -/
def Step.past : Step κ → History κ → History κ
  | .tp level t, h => addsAt level t.structs h
  | .init ptrlevel fields _, h => addsAt 0 (TypeNode.structDef ptrlevel fields).structs h
  | .select _ _, h => h
  | .block body, h => (pasts body ([] :: h)).tail

def pasts : List (Step κ) → History κ → History κ
  | [], h => h
  | st :: sts, h => pasts sts (st.past h)
end

/-- The text of a struct names no type of a module. -/
def Printer.Plain (P : Printer κ) (fields : List (Ident × LlType κ)) : Prop :=
  SplitLast (Trim cutset (P.shape fields)) = none

/-- The latest struct type with the field types of `fields`. -/
def latest (P : Printer κ) (fields : List (Ident × LlType κ)) (h : History κ) :
    Option (StructType κ) :=
  h.flatten.find? fun d => Trim cutset (P.shape d.fields) = Trim cutset (P.shape fields)

mutual
/-- Whenever a field is looked up, the text of its struct names no type of a module, and the latest struct
type with that text is no pointer and has the field at the same index. Where a struct is made, it is the
latest itself. -/
def Step.Agrees (P : Printer κ) : Step κ → History κ → Prop
  | .tp _ _, _ => True
  | .init ptrlevel fields vals, _ => vals ≠ [] → P.Plain (fieldTypes fields) ∧ ptrlevel = 0
  | .select fields f, h =>
    P.Plain fields ∧ ∃ d, latest P fields h = some d ∧ d.ptrlevel = 0 ∧
      declaredAt (names d.fields) f.1 = declaredAt (names fields) f.1
  | .block body, h => Agree P body ([] :: h)

def Agree (P : Printer κ) : List (Step κ) → History κ → Prop
  | [], _ => True
  | st :: sts, h => st.Agrees P h ∧ Agree P sts (st.past h)
end

/-! ## Texts -/

theorem Trim_star (str : Text) : Trim cutset (str ++ ['*']) = Trim cutset str :=
  Trim_cut_append (by simp [cutset])

theorem Trim_head {str : Text} (h : str.head? = some '\x7b') : (Trim cutset str).head? = some '\x7b' := by
  obtain ⟨t, rfl⟩ : ∃ t, str = '\x7b' :: t := by
    cases str with
    | nil => cases h
    | cons c t => exact ⟨t, by rw [Option.some.inj h]⟩
  have hl : ('\x7b' :: t).dropWhile cutset = '\x7b' :: t := rfl
  have hne : ('\x7b' :: t).rdropWhile cutset ≠ [] := by
    intro hall
    have := List.rdropWhile_eq_nil_iff.mp hall '\x7b' List.mem_cons_self
    exact absurd this (by decide)
  obtain ⟨c, s, hs⟩ := List.exists_cons_of_ne_nil hne
  have hpre : c :: s <+: '\x7b' :: t := hs ▸ List.rdropWhile_prefix _ _
  unfold Trim
  rw [hl, hs, (List.cons_prefix_cons.mp hpre).1]
  rfl

theorem Printer.pointers_text (P : Printer κ) (n : Nat) (t : LlType κ) :
    Trim cutset (P.str (pointers n t)) = Trim cutset (P.str t) := by
  induction n generalizing t with
  | zero => rfl
  | succ n ih =>
    show Trim cutset (P.str (pointers n (.pointer t))) = _
    rw [ih, P.pointer_eq, Trim_star]

/-- A struct's text stays as it is when its scope's package is put in front of names. -/
theorem getFullName_shape (P : Printer κ) (pkg : Ident) (fields : List (Ident × LlType κ)) :
    getFullName pkg (Trim cutset (P.shape fields)) = Trim cutset (P.shape fields) :=
  if_pos (Trim_head (P.struct_head _))

/-! ## The indices -/

theorem declaredAt_isSome {ks : List Ident} {f : Ident} (h : f ∈ ks) : ∃ i, declaredAt ks f = some i := by
  induction ks with
  | nil => cases h
  | cons k ks ih =>
    show ∃ i, ((declaredAt ks f).map (· + 1)).or _ = some i
    cases hd : declaredAt ks f with
    | some i => exact ⟨i + 1, rfl⟩
    | none =>
      have hk : f = k := by
        by_contra hne
        obtain ⟨i, hi⟩ := ih ((List.mem_cons.mp h).resolve_left hne)
        rw [hd] at hi
        cases hi
      exact ⟨0, by simp [hk]⟩

theorem declaredAt_lt {ks : List Ident} {f : Ident} {i : Nat} (h : declaredAt ks f = some i) :
    i < ks.length := by
  induction ks generalizing i with
  | nil => cases h
  | cons k ks ih =>
    have h : ((declaredAt ks f).map (· + 1)).or (if k = f then some 0 else none) = some i := h
    rw [List.length_cons]
    cases hd : declaredAt ks f with
    | some j =>
      rw [hd] at h
      have hij : j + 1 = i := Option.some.inj h
      have hj := ih hd
      omega
    | none =>
      rw [hd] at h
      by_cases hk : k = f
      · have hi : 0 = i := by simpa [hk] using h
        omega
      · simp [hk] at h

/-- The map of the fields has each name where it is declared. -/
theorem fieldsFrom_lookup (f : Ident) (fields : List (Ident × LlType κ)) (i : Nat) (m : List (Ident × Field κ)) :
    ((fieldsFrom i m fields).lookup f).map Field.idx =
      ((declaredAt (names fields) f).map (i + ·)).or ((m.lookup f).map Field.idx) := by
  induction fields generalizing i m with
  | nil => rfl
  | cons kt fields ih =>
    obtain ⟨k, tp⟩ := kt
    show ((fieldsFrom (i + 1) ((k, ⟨i, tp⟩) :: m) fields).lookup f).map Field.idx =
      ((((declaredAt (names fields) f).map (· + 1)).or (if k = f then some 0 else none)).map (i + ·)).or _
    rw [ih]
    cases declaredAt (names fields) f with
    | some j =>
      show some (i + 1 + j) = some (i + (j + 1))
      rw [Nat.add_assoc, Nat.add_comm 1 j]
    | none =>
      by_cases hk : k = f
      · simp [hk]
      · have hf : (f == k) = false := by simpa using fun h => hk h.symm
        simp [hk, List.lookup_cons, hf]

theorem fieldsIdx_lookup (f : Ident) (fields : List (Ident × LlType κ)) :
    ((fieldsIdx fields).lookup f).map Field.idx = declaredAt (names fields) f := by
  rw [fieldsIdx, fieldsFrom_lookup]
  cases declaredAt (names fields) f with
  | none => rfl
  | some i => exact congrArg some (Nat.zero_add i)

theorem gepIndex_pointers (n : Nat) (t : LlType κ) (i : Nat) : gepIndex (pointers n (.pointer t)) i = none := by
  induction n generalizing t with
  | zero => rfl
  | succ n ih => exact ih _

/-- A field of a struct type that has been stored: where the type has it, unless the type is a
pointer. -/
theorem address_entry (P : Printer κ) (d : StructType κ) (f : Ident) :
    address (some (d.entry P).2) f = if d.ptrlevel = 0 then declaredAt (names d.fields) f else none := by
  have hl := fieldsIdx_lookup f d.fields
  show ((fieldsIdx d.fields).lookup f).bind (fun fi => gepIndex d.tp fi.idx) = _
  cases hf : (fieldsIdx d.fields).lookup f with
  | none =>
    rw [hf] at hl
    rw [← hl]
    split <;> rfl
  | some fi =>
    rw [hf] at hl
    rw [← hl]
    show gepIndex d.tp fi.idx = if d.ptrlevel = 0 then some fi.idx else none
    unfold StructType.tp
    cases d.ptrlevel with
    | zero =>
      have hlt : fi.idx < (d.fields.map Prod.snd).length := by
        have := declaredAt_lt hl.symm
        rwa [names, List.length_map, ← List.length_map Prod.snd] at this
      exact if_pos hlt
    | succ n => exact gepIndex_pointers n _ _

/-! ## The tables hold the history -/

/-- The tables that a history leaves. -/
def History.types (P : Printer κ) (h : History κ) : Types κ := h.map (List.map (StructType.entry P))

mutual
theorem TypeNode.calc_eq (P : Printer κ) (level : Nat) : ∀ (t : TypeNode κ) (h : History κ),
    t.calc P level (h.types P) = (t.type, History.types P (addsAt level t.structs h))
  | .comp c parts ptrlevel, h => by
    show (pointers ptrlevel (.comp c (calcs P level parts (h.types P)).1), (calcs P level parts (h.types P)).2) = _
    rw [calcs_eq P level parts h]
    rfl
  | .structDef ptrlevel fields, h => by
    have hr := calcFields_eq P level fields h
    have ht : Trim cutset (P.str (pointers ptrlevel (.struct ((fieldTypes fields).map Prod.snd)))) =
        Trim cutset (P.shape (fieldTypes fields)) := P.pointers_text _ _
    show (pointers ptrlevel (.struct ((calcFields P level fields (h.types P)).1.map Prod.snd)), _) = _
    rw [TypeNode.structs, addsAt_append, hr, ht]
    exact congrArg _ (addAt_map (StructType.entry P) level ⟨ptrlevel, fieldTypes fields⟩ _)

theorem calcs_eq (P : Printer κ) (level : Nat) : ∀ (ts : List (TypeNode κ)) (h : History κ),
    calcs P level ts (h.types P) = (partTypes ts, History.types P (addsAt level (partStructs ts) h))
  | [], h => rfl
  | t :: ts, h => by
    show ((t.calc P level (h.types P)).1 :: (calcs P level ts (t.calc P level (h.types P)).2).1, _) = _
    rw [t.calc_eq P level h, calcs_eq P level ts, partStructs, addsAt_append]
    rfl

theorem calcFields_eq (P : Printer κ) (level : Nat) : ∀ (fs : List (Ident × TypeNode κ)) (h : History κ),
    calcFields P level fs (h.types P) = (fieldTypes fs, History.types P (addsAt level (fieldStructs fs) h))
  | [], h => rfl
  | (k, t) :: fs, h => by
    show ((k, (t.calc P level (h.types P)).1) :: (calcFields P level fs (t.calc P level (h.types P)).2).1, _) = _
    rw [t.calc_eq P level h, calcFields_eq P level fs, fieldStructs, addsAt_append]
    rfl
end

/-- A lookup finds the latest struct type with the same text. -/
theorem findStruct_eq (P : Printer κ) (pkg : Ident) (fields : List (Ident × LlType κ)) (h : History κ) :
    findStruct pkg (h.types P) (Trim cutset (P.shape fields)) =
      if (SplitLast (Trim cutset (P.shape fields))).isSome then none
      else (latest P fields h).map fun d => (d.entry P).2 := by
  unfold findStruct
  cases hs : SplitLast (Trim cutset (P.shape fields)) with
  | some => rfl
  | none =>
    show search (getFullName pkg (Trim cutset (P.shape fields))) _ = _
    rw [getFullName_shape]
    exact search_map _ _ _

/-- The address of a field that is looked up under the text of `fields`. -/
theorem address_iff (P : Printer κ) (pkg : Ident) (fields : List (Ident × LlType κ)) (h : History κ)
    {f : Ident} (hf : f ∈ names fields) :
    address (findStruct pkg (h.types P) (Trim cutset (P.shape fields))) f = declaredAt (names fields) f ↔
      P.Plain fields ∧ ∃ d, latest P fields h = some d ∧ d.ptrlevel = 0 ∧
        declaredAt (names d.fields) f = declaredAt (names fields) f := by
  obtain ⟨i, hi⟩ := declaredAt_isSome hf
  rw [findStruct_eq, Printer.Plain, hi]
  cases SplitLast (Trim cutset (P.shape fields)) with
  | some x => simp [address]
  | none =>
    cases hl : latest P fields h with
    | none => simp [address]
    | some d =>
      show address (some (d.entry P).2) f = some i ↔ _
      rw [address_entry]
      by_cases hp : d.ptrlevel = 0
      · simp [hp]
      · simp [hp]

/-! ## Programs -/

mutual
theorem Step.past_length : ∀ (st : Step κ) (h : History κ), (st.past h).length = h.length
  | .tp level t, h => addsAt_length level t.structs h
  | .init _ _ _, h => addsAt_length 0 _ h
  | .select _ _, _ => rfl
  | .block body, h => by
    show (pasts body ([] :: h)).tail.length = h.length
    rw [List.length_tail, pasts_length body]
    rfl

theorem pasts_length : ∀ (sts : List (Step κ)) (h : History κ), (pasts sts h).length = h.length
  | [], _ => rfl
  | st :: sts, h => (pasts_length sts (st.past h)).trans (st.past_length h)
end

mutual
theorem Step.run_types (P : Printer κ) (pkg : Ident) : ∀ (st : Step κ) (h : History κ),
    (st.run P pkg (h.types P)).2 = History.types P (st.past h)
  | .tp level t, h => congrArg Prod.snd (t.calc_eq P level h)
  | .init _ _ _, h => congrArg Prod.snd (TypeNode.calc_eq P 0 _ h)
  | .select _ _, _ => rfl
  | .block body, h => by
    have hb := runs_types P pkg body ([] :: h)
    show (runs P pkg body (History.types P ([] :: h))).2.tail = _
    rw [hb]
    exact (List.map_tail).symm

theorem runs_types (P : Printer κ) (pkg : Ident) : ∀ (sts : List (Step κ)) (h : History κ),
    (runs P pkg sts (h.types P)).2 = History.types P (pasts sts h)
  | [], _ => rfl
  | st :: sts, h => by
    show (runs P pkg sts (st.run P pkg (h.types P)).2).2 = _
    rw [st.run_types P pkg h]
    exact runs_types P pkg sts (st.past h)
end

/-- A struct that is made is the latest itself. -/
theorem latest_self (P : Printer κ) (ptrlevel : Nat) (fields : List (Ident × TypeNode κ)) {h : History κ}
    (hh : h ≠ []) :
    latest P (fieldTypes fields) (addsAt 0 (TypeNode.structDef ptrlevel fields).structs h) =
      some ⟨ptrlevel, fieldTypes fields⟩ := by
  rw [TypeNode.structs, addsAt_append]
  have hne : addsAt 0 (fieldStructs fields) h ≠ [] := by
    intro h0
    apply hh
    rw [← List.length_eq_zero_iff, ← addsAt_length 0 (fieldStructs fields) h, h0]
    rfl
  obtain ⟨t, ts, ht⟩ := List.exists_cons_of_ne_nil hne
  rw [ht]
  exact List.find?_cons_of_pos (by simp)

theorem names_fieldTypes : ∀ fields : List (Ident × TypeNode κ), names (fieldTypes fields) = names fields
  | [] => rfl
  | (k, _) :: fields => congrArg (k :: ·) (names_fieldTypes fields)

/-- The fields of a struct that is made. -/
theorem init_iff (P : Printer κ) (pkg : Ident) (ptrlevel : Nat) (fields : List (Ident × TypeNode κ))
    (vals : List { f : Ident // f ∈ names fields }) {h : History κ} (hh : h ≠ []) :
    (∀ u ∈ ((Step.init ptrlevel fields vals).run P pkg (h.types P)).1, u.addressed = u.declared) ↔
      (vals ≠ [] → P.Plain (fieldTypes fields) ∧ ptrlevel = 0) := by
  let d : TypeNode κ := .structDef ptrlevel fields
  have htext : Trim cutset (P.str d.type) = Trim cutset (P.shape (fieldTypes fields)) := P.pointers_text _ _
  -- a field that is given a value is looked for in what the tables have under that text
  have hval : ∀ f : { f : Ident // f ∈ names fields },
      address (findStruct pkg (d.calc P 0 (h.types P)).2 (Trim cutset (P.str (d.calc P 0 (h.types P)).1))) f.1 =
        declaredAt (names fields) f.1 ↔ P.Plain (fieldTypes fields) ∧ ptrlevel = 0 := by
    intro f
    have hf : f.1 ∈ names (fieldTypes fields) := (names_fieldTypes fields).symm ▸ f.2
    have hdecl : declaredAt (names fields) f.1 = declaredAt (names (fieldTypes fields)) f.1 := by
      rw [names_fieldTypes]
    rw [d.calc_eq P 0 h]
    show address (findStruct pkg (History.types P _) (Trim cutset (P.str d.type))) f.1 = _ ↔ _
    rw [htext, hdecl, address_iff P pkg _ _ hf, latest_self P ptrlevel fields hh]
    constructor
    · intro hfound
      obtain ⟨hplain, e, he, hp, -⟩ := hfound
      obtain rfl := Option.some.inj he
      exact ⟨hplain, hp⟩
    · intro hok
      exact ⟨hok.1, _, rfl, hok.2, rfl⟩
  have huse : ∀ u, u ∈ ((Step.init ptrlevel fields vals).run P pkg (h.types P)).1 ↔
      ∃ f ∈ vals, FieldUse.mk (declaredAt (names fields) f.1) (address
        (findStruct pkg (d.calc P 0 (h.types P)).2 (Trim cutset (P.str (d.calc P 0 (h.types P)).1))) f.1) = u :=
    fun u => List.mem_map
  constructor
  · intro hall hne
    obtain ⟨f, hf⟩ := List.exists_mem_of_ne_nil vals hne
    exact (hval f).mp (hall _ ((huse _).mpr ⟨f, hf, rfl⟩))
  · intro hok u hu
    obtain ⟨f, hf, rfl⟩ := (huse u).mp hu
    exact (hval f).mpr (hok (List.ne_nil_of_mem hf))

mutual
theorem Step.run_iff (P : Printer κ) (pkg : Ident) : ∀ (st : Step κ) {h : History κ}, h ≠ [] →
    ((∀ u ∈ (st.run P pkg (h.types P)).1, u.addressed = u.declared) ↔ st.Agrees P h)
  | .tp _ _, _, _ => by simp [Step.run, Step.Agrees]
  | .init ptrlevel fields vals, _, hh => init_iff P pkg ptrlevel fields vals hh
  | .select fields f, h, _ => by
    have htext : Trim cutset (P.str (.pointer (.struct (fields.map Prod.snd)))) = Trim cutset (P.shape fields) :=
      P.pointers_text 1 _
    show (∀ u ∈ [FieldUse.mk _ (address (findStruct pkg (h.types P) _) f.1)], _) ↔ _
    rw [List.forall_mem_singleton, htext]
    exact address_iff P pkg fields h f.2
  | .block body, h, _ => runs_iff P pkg body (h := [] :: h) (List.cons_ne_nil _ _)

theorem runs_iff (P : Printer κ) (pkg : Ident) : ∀ (sts : List (Step κ)) {h : History κ}, h ≠ [] →
    ((∀ u ∈ (runs P pkg sts (h.types P)).1, u.addressed = u.declared) ↔ Agree P sts h)
  | [], _, _ => by simp [runs, Agree]
  | st :: sts, h, hh => by
    have hpast : st.past h ≠ [] := by
      intro h0
      apply hh
      rw [← List.length_eq_zero_iff, ← st.past_length h, h0]
      rfl
    show (∀ u ∈ (st.run P pkg (h.types P)).1 ++ (runs P pkg sts (st.run P pkg (h.types P)).2).1, _) ↔ _
    rw [List.forall_mem_append, st.run_types P pkg h, st.run_iff P pkg hh, runs_iff P pkg sts hpast]
    rfl
end

mutual
/-- The text of a type. A `comp` is its own name. -/
def LlType.text : LlType Text → Text
  | .comp c _ => c
  | .struct [] => ['\x7b', '\x7d']
  | .struct (t :: ts) => ['\x7b', ' '] ++ t.text ++ textsAfter ts
  | .pointer t => t.text ++ ['*']

def textsAfter : List (LlType Text) → Text
  | [] => [' ', '\x7d']
  | t :: ts => [',', ' '] ++ t.text ++ textsAfter ts
end

/-- Types printed as llir prints them. -/
def llir : Printer Text where
  str := LlType.text
  struct_head ts := by cases ts <;> rfl
  pointer_eq _ := by rw [LlType.text]

/-- `x struct{a int, b int}`, then `y struct{b int, a int}`, then `x.a`. -/
def swapped : List (Step Text) :=
  [.tp 0 (.structDef 0 [(['a'], .comp "i64".toList [] 0), (['b'], .comp "i64".toList [] 0)]),
    .tp 0 (.structDef 0 [(['b'], .comp "i64".toList [] 0), (['a'], .comp "i64".toList [] 0)]),
    .select [(['a'], .comp "i64".toList []), (['b'], .comp "i64".toList [])]
      ⟨['a'], List.mem_cons_self⟩]

end CalcLang.Ast.Anonymous
