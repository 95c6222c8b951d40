import Mathlib.Data.List.Infix
import Mathlib.Logic.Function.Basic
import CalcLang.Ast.InstanceNames

/-!
# The table of instances

`NewTypeDef` makes an instance of a generic type when it is asked for the first time. It puts a placeholder into the
table of the module, under the name of the instance, then computes the type, which may ask for other instances and for
this one again, and gives the module its definition. If the type cannot be computed that is a panic, which the
`defFunc` of a declaration recovers from: it takes its own name out of the table and is called once more later. The
placeholder of the instance stays.

`instances_told_apart`: over everything that is done to the tables, two requests get the same `typedef` exactly if
they are for the same instance. `defined_by_first`: whether the module ever gets the definition of an instance is
settled by the request that put it into the table. When that one fails, all that come after it get the placeholder.

A type has one text here. Left out is that `m.NewTypeDef` names the type that it is given, also if this is a type that
is there already: after `type A B`, what is printed for `B` is the name of `A`.
-/

namespace CalcLang.Ast.Generics

open CalcLang.Lex CalcLang.Lib.Strings

/-- `getFullName`, which takes the escapes out of a name that has type arguments in it. -/
def fullName (pkg id : Text) : Text :=
  if id.head? = some '\x7b' then id else getFullName pkg (ReplaceAll escaped ['"'] id)

/-- A request for an instance: the generic type and the type arguments. -/
structure Ask where
  pkg : Name
  id : Id
  gens : List Ty

/-- A `typedef`: the name of `structType`, the type arguments, and whether `m.NewTypeDef` has been called for it. -/
structure Typedef where
  structType : Text
  generics : List Ty
  defined : Bool

/-- The tables of types of the modules' scopes, and the `typedef`s that have been made. The tables have the numbers
of these. -/
structure Scopes where
  types : Text → List (Text × Nat)
  typedefs : List Typedef

def Scopes.empty : Scopes := ⟨fun _ => [], []⟩

/-- `getStruct`, of the scope of a module. -/
def Scopes.getStruct (s : Scopes) (pkg : Name) (id : Text) : Option Nat :=
  (s.types pkg.text).lookup (fullName pkg.text id)

/-- An assignment to an entry of `types`. -/
def Scopes.set (s : Scopes) (pkg : Name) (key : Text) (td : Nat) : Scopes :=
  { s with types := Function.update s.types pkg.text ((key, td) :: s.types pkg.text) }

/-- `addStruct`. -/
def Scopes.addStruct (s : Scopes) (pkg : Name) (id : Text) (td : Nat) : Scopes :=
  if (s.getStruct pkg id).isSome then s else s.set pkg (fullName pkg.text id) td

/-- `delete(s.types, …)`. -/
def Scopes.delete (s : Scopes) (pkg : Name) (id : Text) : Scopes :=
  let rest := (s.types pkg.text).filter fun e => e.1 ≠ fullName pkg.text id
  { s with types := Function.update s.types pkg.text rest }

/-- A new `typedef`. Its number is how many there were. -/
def Scopes.new (s : Scopes) (td : Typedef) : Scopes := { s with typedefs := s.typedefs ++ [td] }

/-- `m.NewTypeDef`. -/
def Scopes.define (s : Scopes) (td : Nat) : Scopes :=
  { s with typedefs := s.typedefs.modify td fun d => { d with defined := true } }

/-- What `calc` of a type comes to, in this order: struct types that have no name, which are put into a table under
their texts, and instances. `body` is what `calc` of the generic type comes to, if it gets there, and `err` whether it
fails after that. -/
inductive Request where
  | struct (pkg : Name) (fields : Text)
  | inst (ask : Ask) (body : List Request) (err : Bool)

/-- What comes of it: the tables, the answers, and the instances that were put into a table, with whether the request
for it was answered. -/
structure Outcome where
  scopes : Scopes
  answers : List (Ask × Nat)
  made : List (Ask × Bool)
  ok : Bool

variable (P : Printer)

/-- `sig` of `NewTypeDef`. -/
def Ask.sig (a : Ask) : Text := a.id.text ++ '<' :: gensStr P a.gens ++ ['>']

mutual
/-- A type that `calc` comes to. -/
def Request.calc : Request → Scopes → Outcome
  | .struct pkg fields, s =>
    ⟨(s.new ⟨'\x7b' :: fields, [], false⟩).set pkg ('\x7b' :: fields) s.typedefs.length, [], [], true⟩
  | .inst ask body err, s =>
    match s.getStruct ask.pkg (ask.sig P) with
    | some td => ⟨s, [(ask, td)], [], true⟩
    | none =>
      let td := s.typedefs.length
      let tmpss := ⟨fullName ask.pkg.text (ask.sig P), ask.gens, false⟩
      let o := calcAll body ((s.new tmpss).addStruct ask.pkg (ask.sig P) td)
      if o.ok && !err then ⟨o.scopes.define td, o.answers ++ [(ask, td)], o.made ++ [(ask, true)], true⟩
      else ⟨o.scopes, o.answers, o.made ++ [(ask, false)], false⟩

/-- One after the other, up to the first that fails. -/
def calcAll : List Request → Scopes → Outcome
  | [], s => ⟨s, [], [], true⟩
  | r :: rs, s =>
    let o := r.calc s
    if o.ok then
      let o' := calcAll rs o.scopes
      ⟨o'.scopes, o.answers ++ o'.answers, o.made ++ o'.made, o'.ok⟩
    else o
end

/-- What is done to the tables: the `defFunc` of a declaration, or a type in a function. -/
inductive Work where
  | defFunc (pkg : Name) (id : Id) (body : List Request) (err : Bool)
  | use (r : Request)

def Work.run : Work → Scopes → Outcome
  | .defFunc pkg id body err, s =>
    let td := s.typedefs.length
    let o := calcAll P body ((s.new ⟨fullName pkg.text id.text, [], false⟩).addStruct pkg id.text td)
    if o.ok && !err then ⟨o.scopes.define td, o.answers, o.made, true⟩
    else ⟨o.scopes.delete pkg id.text, o.answers, o.made, false⟩
  | .use r, s => r.calc P s

/-- A failure is recovered from, be it in a `defFunc` or in a statement. -/
def runAll : List Work → Scopes → Outcome
  | [], s => ⟨s, [], [], true⟩
  | w :: ws, s =>
    let o := w.run P s
    let o' := runAll ws o.scopes
    ⟨o'.scopes, o.answers ++ o'.answers, o.made ++ o'.made, o'.ok⟩

/-! ## The tables have what was asked for -/

/-- The name of an instance. -/
def Ask.name (a : Ask) : Text := instName a.pkg a.id.toName (gensStr P a.gens)

/-- What the tables have for an instance. -/
def Scopes.find (s : Scopes) (a : Ask) : Option Nat := s.getStruct a.pkg (a.sig P)

theorem fullName_sig (a : Ask) : fullName a.pkg.text (a.sig P) = a.name P := by
  have hhead : (a.sig P).head? ≠ some '\x7b' := by
    rw [Ask.sig, List.append_assoc]
    exact a.id.head_ne _
  rw [fullName, if_neg hhead]
  rfl

theorem Ask.name_inj : ∀ {a b : Ask}, a.name P = b.name P → a = b
  | ⟨_, _, _⟩, ⟨_, _, _⟩, h => by
    obtain ⟨rfl, rfl, rfl⟩ := instName_inj P h
    rfl

/-- The names of the types that are no instances. -/
def Other (key : Text) : Prop := '<' ∉ key ∨ key.head? = some '\x7b'

theorem Ask.name_ne {key : Text} (h : Other key) (a : Ask) : a.name P ≠ key := by
  have hname : a.name P = a.pkg.text ++ '.' :: a.id.text ++ '<' :: (gensWritten a.gens ++ ['>']) := by
    rw [Ask.name, instName_eq_written]
    simp
  rintro rfl
  rcases h with h | h
  · rw [hname] at h
    simp at h
  · have hbrace : nameChar '\x7b' = true := by
      refine inst_nameChar a.pkg a.id '\x7b' ?_
      rw [hname] at h
      cases hpkg : a.pkg.text with
      | nil => simp [hpkg] at h
      | cons c cs =>
        rw [hpkg] at h
        obtain rfl := Option.some.inj h
        simp
    exact absurd hbrace (by decide)

theorem other_fullName (pkg : Name) (id : Id) : Other (fullName pkg.text id.text) := by
  have hid : '<' ∉ id.text := fun h => absurd (id.ident '<' h) (by decide)
  have hpkg : '<' ∉ pkg.text := fun h => nameChar_ne (pkg.plain _ h) (by simp) rfl
  have hrep : ReplaceAll escaped ['"'] id.text = id.text := by
    have h := replace_printable (printable_of_nameChar id.plain) []
    rw [List.append_nil] at h
    exact h.trans (List.append_nil _)
  unfold fullName
  split
  · exact .inl hid
  · rw [hrep, getFullName]
    split
    · exact .inl hid
    split
    · exact .inl hid
    split
    · exact .inl hid
    · exact .inl (by simp [hid, hpkg])

theorem find_eq (s : Scopes) (a : Ask) : s.find P a = (s.types a.pkg.text).lookup (a.name P) := by
  rw [Scopes.find, Scopes.getStruct, fullName_sig]

/-- An entry that is no instance. -/
theorem find_set_other {key : Text} (h : Other key) (s : Scopes) (pkg : Name) (td : Nat) (a : Ask) :
    (s.set pkg key td).find P a = s.find P a := by
  rw [find_eq, find_eq]
  show (Function.update s.types pkg.text _ a.pkg.text).lookup (a.name P) = _
  by_cases hpkg : a.pkg.text = pkg.text
  · rw [hpkg, Function.update_self, List.lookup_cons, beq_false_of_ne (a.name_ne P h)]
  · rw [Function.update_of_ne hpkg]

theorem find_addStruct_other (s : Scopes) (pkg : Name) (id : Id) (td : Nat) (a : Ask) :
    (s.addStruct pkg id.text td).find P a = s.find P a := by
  unfold Scopes.addStruct
  split
  · rfl
  · exact find_set_other P (other_fullName pkg id) s pkg td a

theorem lookup_filter_ne {key k : Text} (h : k ≠ key) :
    ∀ types : List (Text × Nat), (types.filter fun e => e.1 ≠ key).lookup k = types.lookup k
  | [] => rfl
  | (k', td) :: types => by
    by_cases hk : k' = key
    · have hne : k ≠ k' := hk ▸ h
      rw [List.filter_cons_of_neg (by simpa using hk), lookup_filter_ne h types, List.lookup_cons, beq_false_of_ne hne]
    · rw [List.filter_cons_of_pos (by simpa using hk), List.lookup_cons, List.lookup_cons, lookup_filter_ne h types]

theorem find_delete (s : Scopes) (pkg : Name) (id : Id) (a : Ask) :
    (s.delete pkg id.text).find P a = s.find P a := by
  rw [find_eq, find_eq]
  show (Function.update s.types pkg.text _ a.pkg.text).lookup (a.name P) = _
  by_cases hpkg : a.pkg.text = pkg.text
  · rw [hpkg, Function.update_self, lookup_filter_ne (a.name_ne P (other_fullName pkg id))]
  · rw [Function.update_of_ne hpkg]

/-- A new entry of an instance. -/
theorem find_addStruct {s : Scopes} {a : Ask} (h : s.find P a = none) (td : Nat) :
    (s.addStruct a.pkg (a.sig P) td).find P a = some td ∧
      ∀ b, b ≠ a → (s.addStruct a.pkg (a.sig P) td).find P b = s.find P b := by
  have hset : s.addStruct a.pkg (a.sig P) td = s.set a.pkg (a.name P) td := by
    have hnone : s.getStruct a.pkg (a.sig P) = none := h
    rw [Scopes.addStruct, hnone, fullName_sig]
    rfl
  rw [hset]
  constructor
  · rw [find_eq]
    show (Function.update s.types a.pkg.text _ a.pkg.text).lookup (a.name P) = _
    rw [Function.update_self, List.lookup_cons_self]
  · intro b hba
    rw [find_eq, find_eq]
    show (Function.update s.types a.pkg.text _ b.pkg.text).lookup (b.name P) = _
    by_cases hpkg : b.pkg.text = a.pkg.text
    · rw [hpkg, Function.update_self, List.lookup_cons, beq_false_of_ne fun h => hba (Ask.name_inj P h)]
    · rw [Function.update_of_ne hpkg]

/-! ## What a request does -/

/-- What the tables have for an instance is a `typedef` for it. -/
def Told (s : Scopes) : Prop := ∀ a td, s.find P a = some td →
  ∃ d, s.typedefs[td]? = some d ∧ d.structType = a.name P ∧ d.generics = a.gens

/-- From `s` on, nothing is taken away and no `typedef` that was there is changed; what is answered is in the tables;
and each instance that came into the tables is in `made` once, with whether it is defined. -/
structure Happens (s : Scopes) (o : Outcome) : Prop where
  told : Told P o.scopes
  typedefs : ∀ (i : Nat) (d : Typedef), s.typedefs[i]? = some d → o.scopes.typedefs[i]? = some d
  kept : ∀ a td, s.find P a = some td → o.scopes.find P a = some td
  answered : ∀ x ∈ o.answers, o.scopes.find P x.1 = some x.2
  new : ∀ a td, s.find P a = none → o.scopes.find P a = some td →
    ∃ d, o.scopes.typedefs[td]? = some d ∧ (a, d.defined) ∈ o.made
  made : ∀ x ∈ o.made, s.find P x.1 = none ∧ o.scopes.find P x.1 ≠ none
  once : (o.made.map Prod.fst).Nodup

variable {P} {s t : Scopes} {o o' : Outcome}

/-- No instance has come or gone. -/
theorem Happens.quiet (h : Told P s)
    (htd : ∀ (i : Nat) (d : Typedef), s.typedefs[i]? = some d → t.typedefs[i]? = some d)
    (hfind : ∀ a, t.find P a = s.find P a) (ok : Bool) : Happens P s ⟨t, [], [], ok⟩ where
  told a td ha := by
    obtain ⟨d, hd, hname⟩ := h a td (hfind a ▸ ha)
    exact ⟨d, htd td d hd, hname⟩
  typedefs := htd
  kept a td ha := (hfind a).trans ha
  answered x hx := by cases hx
  new a td hnone ha := by
    rw [hfind a, hnone] at ha
    cases ha
  made x hx := by cases hx
  once := List.nodup_nil

/-- One after the other. -/
theorem Happens.andThen (h : Happens P s o) (h' : Happens P o.scopes o') :
    Happens P s ⟨o'.scopes, o.answers ++ o'.answers, o.made ++ o'.made, o'.ok⟩ where
  told := h'.told
  typedefs i d hd := h'.typedefs i d (h.typedefs i d hd)
  kept a td ha := h'.kept a td (h.kept a td ha)
  answered x hx := by
    rcases List.mem_append.mp hx with hx | hx
    · exact h'.kept _ _ (h.answered x hx)
    · exact h'.answered x hx
  new a td hnone ha := by
    cases hmid : o.scopes.find P a with
    | none =>
      obtain ⟨d, hd, hmade⟩ := h'.new a td hmid ha
      exact ⟨d, hd, List.mem_append_right _ hmade⟩
    | some td' =>
      obtain rfl : td' = td := Option.some.inj ((h'.kept a td' hmid).symm.trans ha)
      obtain ⟨d, hd, hmade⟩ := h.new a td' hnone hmid
      exact ⟨d, h'.typedefs td' d hd, List.mem_append_left _ hmade⟩
  made x hx := by
    rcases List.mem_append.mp hx with hx | hx
    · obtain ⟨hnone, hsome⟩ := h.made x hx
      obtain ⟨td, htd⟩ := Option.ne_none_iff_exists'.mp hsome
      exact ⟨hnone, by rw [h'.kept _ td htd]; simp⟩
    · obtain ⟨hnone, hsome⟩ := h'.made x hx
      refine ⟨?_, hsome⟩
      rw [Option.eq_none_iff_forall_ne_some]
      intro td htd
      rw [h.kept _ td htd] at hnone
      cases hnone
  once := by
    rw [List.map_append, List.nodup_append]
    refine ⟨h.once, h'.once, ?_⟩
    intro a ha b hb hab
    obtain ⟨x, hx, rfl⟩ := List.mem_map.mp ha
    obtain ⟨y, hy, rfl⟩ := List.mem_map.mp hb
    exact (h.made x hx).2 (hab ▸ (h'.made y hy).1)

/-- Two instances never have one `typedef`. -/
theorem Told.inj (h : Told P s) {a b : Ask} {td : Nat} (ha : s.find P a = some td) (hb : s.find P b = some td) :
    a = b := by
  obtain ⟨d, hd, hname, -⟩ := h a td ha
  obtain ⟨d', hd', hname', -⟩ := h b td hb
  obtain rfl : d = d' := Option.some.inj (hd.symm.trans hd')
  exact Ask.name_inj P (hname.symm.trans hname')

/-- A `typedef` that is no instance's may be changed. -/
theorem Happens.other (h : Happens P s o) {td : Nat} (hnew : s.typedefs[td]? = none)
    (hother : ∀ a, o.scopes.find P a ≠ some td) (hfind : ∀ a, t.find P a = o.scopes.find P a)
    (htd : ∀ i : Nat, i ≠ td → t.typedefs[i]? = o.scopes.typedefs[i]?) (ok : Bool) :
    Happens P s ⟨t, o.answers, o.made, ok⟩ where
  told a i ha := by
    rw [hfind] at ha
    obtain ⟨d, hd, hname⟩ := h.told a i ha
    exact ⟨d, (htd i fun hi => hother a (hi ▸ ha)).trans hd, hname⟩
  typedefs i d hd := by
    have hne : i ≠ td := by
      rintro rfl
      rw [hnew] at hd
      cases hd
    exact (htd i hne).trans (h.typedefs i d hd)
  kept a i ha := (hfind a).trans (h.kept a i ha)
  answered x hx := (hfind x.1).trans (h.answered x hx)
  new a i hnone ha := by
    rw [hfind] at ha
    obtain ⟨d, hd, hmade⟩ := h.new a i hnone ha
    exact ⟨d, (htd i fun hi => hother a (hi ▸ ha)).trans hd, hmade⟩
  made x hx := by
    rw [hfind]
    exact h.made x hx
  once := h.once

theorem new_typedefs (s : Scopes) (d : Typedef) :
    (∀ (i : Nat) (d' : Typedef), s.typedefs[i]? = some d' → (s.new d).typedefs[i]? = some d') ∧
      (s.new d).typedefs[s.typedefs.length]? = some d := by
  constructor
  · intro i d' h
    exact (List.getElem?_append_left (List.getElem?_eq_some_iff.mp h).1).trans h
  · exact List.getElem?_concat_length

theorem addStruct_typedefs (s : Scopes) (pkg : Name) (id : Text) (td : Nat) :
    (s.addStruct pkg id td).typedefs = s.typedefs := by
  unfold Scopes.addStruct
  split <;> rfl

theorem define_typedefs (s : Scopes) (td i : Nat) (h : i ≠ td) : (s.define td).typedefs[i]? = s.typedefs[i]? :=
  List.getElem?_modify_ne _ _ h.symm

theorem define_new {td : Nat} {d : Typedef} (h : s.typedefs[td]? = some d) :
    (s.define td).typedefs[td]? = some { d with defined := true } := by
  show (s.typedefs.modify td _)[td]? = _
  rw [List.getElem?_modify_eq, h]
  rfl

theorem find_define (s : Scopes) (td : Nat) (a : Ask) : (s.define td).find P a = s.find P a := rfl

/-- The request that puts an instance into the table. `s₁` are the tables with the placeholder, `o` is what its body
comes to, and `t` are the tables in the end. -/
theorem Happens.inst {s₁ : Scopes} {a : Ask} {td : Nat} {ok : Bool} (hnone : s.find P a = none)
    (hnew : s.typedefs[td]? = none) (h₁ : ∀ b, b ≠ a → s₁.find P b = s.find P b) (ha : s₁.find P a = some td)
    (hs₁ : ∀ (i : Nat) (d : Typedef), s.typedefs[i]? = some d → s₁.typedefs[i]? = some d)
    (h : Happens P s₁ o) (hfind : ∀ b, t.find P b = o.scopes.find P b)
    (htd : ∀ i : Nat, i ≠ td → t.typedefs[i]? = o.scopes.typedefs[i]?)
    (hd : t.typedefs[td]? = some ⟨a.name P, a.gens, ok⟩) {answers : List (Ask × Nat)}
    (hanswers : ∀ x ∈ answers, x ∈ o.answers ∨ x = (a, td)) :
    Happens P s ⟨t, answers, o.made ++ [(a, ok)], ok⟩ := by
  have hold : t.find P a = some td := (hfind a).trans (h.kept a td ha)
  have hone : ∀ {b i}, b ≠ a → o.scopes.find P b = some i → i ≠ td := by
    rintro b i hba hb rfl
    exact hba (h.told.inj hb (h.kept a i ha))
  have hmade : ∀ x ∈ o.made, x.1 ≠ a := by
    intro x hx hxa
    have := (h.made x hx).1
    rw [hxa, ha] at this
    cases this
  refine ⟨?_, ?_, ?_, ?_, ?_, ?_, ?_⟩
  · intro b i hb
    by_cases hba : b = a
    · subst hba
      obtain rfl : td = i := Option.some.inj (hold.symm.trans hb)
      exact ⟨_, hd, rfl, rfl⟩
    · rw [hfind] at hb
      obtain ⟨d, hdb, hname⟩ := h.told b i hb
      exact ⟨d, (htd i (hone hba hb)).trans hdb, hname⟩
  · intro i d hi
    have hne : i ≠ td := by
      rintro rfl
      rw [hnew] at hi
      cases hi
    exact (htd i hne).trans (h.typedefs i d (hs₁ i d hi))
  · intro b i hb
    have hba : b ≠ a := by
      rintro rfl
      rw [hnone] at hb
      cases hb
    exact (hfind b).trans (h.kept b i ((h₁ b hba).trans hb))
  · intro x hx
    rcases hanswers x hx with hx | rfl
    · exact (hfind x.1).trans (h.answered x hx)
    · exact hold
  · intro b i hbnone hb
    by_cases hba : b = a
    · subst hba
      obtain rfl : td = i := Option.some.inj (hold.symm.trans hb)
      exact ⟨_, hd, List.mem_append_right _ (List.mem_singleton_self _)⟩
    · rw [hfind] at hb
      obtain ⟨d, hdb, hbmade⟩ := h.new b i ((h₁ b hba).trans hbnone) hb
      exact ⟨d, (htd i (hone hba hb)).trans hdb, List.mem_append_left _ hbmade⟩
  · intro x hx
    rw [hfind]
    rcases List.mem_append.mp hx with hx | hx
    · exact ⟨(h₁ x.1 (hmade x hx)).symm.trans (h.made x hx).1, (h.made x hx).2⟩
    · obtain rfl := List.mem_singleton.mp hx
      exact ⟨hnone, by rw [h.kept a td ha]; simp⟩
  · rw [List.map_append, List.nodup_append]
    refine ⟨h.once, List.nodup_singleton _, ?_⟩
    intro b hb c hc hbc
    obtain ⟨x, hx, rfl⟩ := List.mem_map.mp hb
    exact hmade x hx (hbc.trans (List.mem_singleton.mp hc))

/-- What the placeholder is put into the table with. -/
theorem told_addStruct (hs : Told P s) {a : Ask} (hnone : s.find P a = none) :
    let s₁ := (s.new ⟨fullName a.pkg.text (a.sig P), a.gens, false⟩).addStruct a.pkg (a.sig P) s.typedefs.length
    Told P s₁ ∧ s₁.find P a = some s.typedefs.length ∧ (∀ b, b ≠ a → s₁.find P b = s.find P b) ∧
      (∀ (i : Nat) (d : Typedef), s.typedefs[i]? = some d → s₁.typedefs[i]? = some d) ∧
      s₁.typedefs[s.typedefs.length]? = some ⟨a.name P, a.gens, false⟩ := by
  intro s₁
  obtain ⟨hfind, hne⟩ := find_addStruct P (s := s.new ⟨fullName a.pkg.text (a.sig P), a.gens, false⟩) hnone
    s.typedefs.length
  obtain ⟨hold, hnew⟩ := new_typedefs s ⟨fullName a.pkg.text (a.sig P), a.gens, false⟩
  have htds : s₁.typedefs = (s.new ⟨fullName a.pkg.text (a.sig P), a.gens, false⟩).typedefs := addStruct_typedefs ..
  rw [← htds] at hnew
  rw [← htds] at hold
  rw [fullName_sig] at hnew
  refine ⟨?_, hfind, hne, hold, hnew⟩
  intro b i hb
  by_cases hba : b = a
  · subst hba
    obtain rfl := Option.some.inj (hfind.symm.trans hb)
    exact ⟨_, hnew, rfl, rfl⟩
  · obtain ⟨d, hd, hname⟩ := hs b i ((hne b hba).symm.trans hb)
    exact ⟨d, hold i d hd, hname⟩

mutual
theorem calc_happens : ∀ (r : Request) {s : Scopes}, Told P s → Happens P s (r.calc P s)
  | .struct pkg fields, s, hs => by
    show Happens P s ⟨(s.new ⟨'\x7b' :: fields, [], false⟩).set pkg ('\x7b' :: fields) s.typedefs.length, [], [], true⟩
    have hother : Other ('\x7b' :: fields) := .inr rfl
    have hfind := find_set_other P hother (s.new ⟨'\x7b' :: fields, [], false⟩) pkg s.typedefs.length
    refine Happens.quiet hs ?_ hfind true
    exact (new_typedefs s _).1
  | .inst ask body err, s, hs => by
    unfold Request.calc
    split
    · rename_i td hfound
      have h := Happens.quiet hs (t := s) (fun _ _ h => h) (fun _ => rfl) true
      exact { h with
        answered := fun x hx => by
          obtain rfl := List.mem_singleton.mp hx
          exact hfound }
    · rename_i hnone
      obtain ⟨hs₁, hfind, hne, hold, hnew⟩ := told_addStruct hs hnone
      have h := calcAll_happens body hs₁
      have hlen : s.typedefs[s.typedefs.length]? = none := List.getElem?_eq_none (Nat.le_refl _)
      dsimp only
      split
      · have hdefined := define_new (h.typedefs _ _ hnew)
        refine Happens.inst hnone hlen hne hfind hold h (find_define _ _) (define_typedefs _ _) hdefined ?_
        intro x hx
        simpa using hx
      · refine Happens.inst hnone hlen hne hfind hold h (fun _ => rfl) (fun _ _ => rfl) (h.typedefs _ _ hnew) ?_
        exact fun x hx => .inl hx

theorem calcAll_happens : ∀ (rs : List Request) {s : Scopes}, Told P s → Happens P s (calcAll P rs s)
  | [], s, hs => Happens.quiet hs (fun _ _ h => h) (fun _ => rfl) true
  | r :: rs, s, hs => by
    have h := calc_happens r hs
    unfold calcAll
    dsimp only
    split
    · exact h.andThen (calcAll_happens rs h.told)
    · exact h
end

theorem run_happens (w : Work) (hs : Told P s) : Happens P s (w.run P s) := by
  cases w with
  | use r => exact calc_happens r hs
  | defFunc pkg id body err =>
    obtain ⟨hold, hnew⟩ := new_typedefs s ⟨fullName pkg.text id.text, [], false⟩
    have htds := addStruct_typedefs (s.new ⟨fullName pkg.text id.text, [], false⟩) pkg id.text s.typedefs.length
    rw [← htds] at hnew
    rw [← htds] at hold
    have hquiet := Happens.quiet hs hold (find_addStruct_other P (s.new _) pkg id _) true
    have hbody := calcAll_happens body hquiet.told
    have h := hquiet.andThen hbody
    have hlen : s.typedefs[s.typedefs.length]? = none := List.getElem?_eq_none (Nat.le_refl _)
    -- a declaration is no instance
    have hother : ∀ a, (calcAll P body ((s.new ⟨fullName pkg.text id.text, [], false⟩).addStruct pkg id.text
        s.typedefs.length)).scopes.find P a ≠ some s.typedefs.length := by
      intro a ha
      obtain ⟨d, hd, hname, -⟩ := hbody.told a _ ha
      rw [hbody.typedefs _ _ hnew] at hd
      obtain rfl := Option.some.inj hd
      exact a.name_ne P (other_fullName pkg id) hname.symm
    unfold Work.run
    dsimp only
    split
    · exact h.other hlen hother (find_define _ _) (define_typedefs _ _) true
    · exact h.other hlen hother (find_delete P _ pkg id) (fun _ _ => rfl) false

theorem runAll_happens : ∀ (ws : List Work) {s : Scopes}, Told P s → Happens P s (runAll P ws s)
  | [], _, hs => Happens.quiet hs (fun _ _ h => h) (fun _ => rfl) true
  | w :: ws, _, hs => by
    have h := run_happens w hs
    exact h.andThen (runAll_happens ws h.told)

theorem runAll_empty (P : Printer) (ws : List Work) : Happens P .empty (runAll P ws .empty) :=
  runAll_happens ws fun _ _ h => by cases h

/-- Over everything that is done to the tables of all modules, two requests get the same `typedef` exactly if they are
for the same instance: the same generic type of the same module, with the same type arguments. And what they get has
the name and the type arguments of that. -/
theorem instances_told_apart (P : Printer) (ws : List Work) :
    let o := runAll P ws .empty
    (∀ x ∈ o.answers, ∃ d, o.scopes.typedefs[x.2]? = some d ∧ d.structType = x.1.name P ∧ d.generics = x.1.gens) ∧
      ∀ x ∈ o.answers, ∀ y ∈ o.answers, x.2 = y.2 ↔ x.1 = y.1 := by
  intro o
  have h : Happens P .empty o := runAll_empty P ws
  refine ⟨fun x hx => h.told x.1 x.2 (h.answered x hx), fun x hx y hy => ?_⟩
  have hx := h.answered x hx
  have hy := h.answered y hy
  constructor
  · intro heq
    exact h.told.inj (heq ▸ hx) hy
  · intro heq
    exact Option.some.inj (hx.symm.trans ((congrArg _ heq).trans hy))

def typeList : Id := ⟨⟨"List".toList, List.all_eq_true.mp rfl⟩, List.all_eq_true.mp rfl⟩

def typeA : Id := ⟨⟨['A'], List.all_eq_true.mp rfl⟩, List.all_eq_true.mp rfl⟩

/-- `A` has a field of type `List<B>`, and `List` one of a type that is declared further down. When the `defFunc` of
`A` is called once more, `List<B>` is there, without a definition. -/
example :
    let listB : Ask := ⟨mainPkg, typeList, [.named mainB]⟩
    let o := runAll llirNames [.defFunc mainPkg typeA [.inst listB [] true] false,
      .defFunc mainPkg typeA [.inst listB [] false] false] .empty
    o.answers.map Prod.snd = [1] ∧ o.scopes.typedefs.map Typedef.defined = [false, false, true] := by
  decide +kernel

end CalcLang.Ast.Generics
