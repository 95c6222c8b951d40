import CalcLang.Parser.RoundTrip

/-!
# Source files round-trip

A `File` is a source file as it is written: the package, the imports, and the declarations, one behind the other. What
`program` reads is compared with `Decl.tree`, up to the `EmptyNode`s in the bodies of functions (`Node.eraseBody`).

A function's receiver is part of its name, and what a type is called is not the parser's business (`typeString`), nor
is whether a function may be added to the scope (`addtoScope`). The imports are loaded on the way, in the order of a Go
map; `files_round_trip` also says which calls of `ParseModule` that makes.
-/

namespace CalcLang.Parser

open CalcLang.Lex CalcLang.Lib

/-! ## Files -/

/-- A parameter of a function, or a field of a struct. -/
structure Param where
  x : Name
  tp : Ty

def Param.text (a : Param) : Text := a.x.text ++ ' ' :: a.tp.text

def Param.tree (p : Parser) (a : Param) : Text × TypeNode := (a.x.text, a.tp.tree p)

/-- The parameters of a function, with its receiver. -/
structure Params where
  receiver : Option Param
  params : List Param

/-- The parameters behind the first one. -/
def moreParams : List Param → Text
  | [] => [')']
  | a :: as => ',' :: ' ' :: (a.text ++ moreParams as)

def Params.text : Params → Text
  | ⟨some a, as⟩ => '(' :: (word .resThis ++ ' ' :: (a.text ++ moreParams as))
  | ⟨none, []⟩ => ['(', ')']
  | ⟨none, a :: as⟩ => '(' :: (a.text ++ moreParams as)

def Params.tree (p : Parser) (ps : Params) : ParamsNode :=
  ⟨(ps.receiver.toList ++ ps.params).map (Param.tree p), ps.receiver.isSome⟩

/-- The names behind the first one, of a list of type parameters. -/
def moreNames : List Name → Text
  | [] => ['>']
  | x :: xs => ',' :: (x.text ++ moreNames xs)

/-- Type parameters. -/
def genericsText : List Name → Text
  | [] => []
  | x :: xs => '<' :: (x.text ++ moreNames xs)

/-- A method of an interface. -/
structure Method where
  x : Name
  params : Params
  ret : Ty

def Method.text (m : Method) : Text := m.x.text ++ (m.params.text ++ ' ' :: m.ret.text)

def Method.tree (p : Parser) (m : Method) : Text × (List (Text × TypeNode) × Bool) × TypeNode :=
  (m.x.text, ((m.params.tree p).params, (m.params.tree p).ext), m.ret.tree p)

/-- What a type is defined as. -/
inductive Def
  | type (tp : Ty)
  | struct (fields : List Param)
  | interface (methods : List Method)
  | func (params : Params) (ret : Ty)

/-- Lines between braces. -/
def bracesText (lines : List Text) : Text := ' ' :: '\x7b' :: '\n' :: (lines.flatMap (· ++ ['\n']) ++ ['\x7d'])

def Def.text : Def → Text
  | type tp => tp.text
  | struct fields => word .resStruct ++ bracesText (fields.map Param.text)
  | interface methods => word .resInterface ++ bracesText (methods.map Method.text)
  | func params ret => word .resFunc ++ ' ' :: (params.text ++ ' ' :: ret.text)

def Def.tree (p : Parser) : Def → TypeNode
  | type tp => tp.tree p
  | struct fields => .struct (fields.map (Param.tree p)) 0
  | interface methods => .interface (methods.map (Method.tree p)) 0
  | func params ret => .func (params.tree p).params (params.tree p).ext (some (ret.tree p)) 0

/-- A function. One without a body is code of another language. -/
structure FuncDecl where
  id : Name
  generics : List Name
  params : Params
  ret : Ty
  async : Bool
  body : Option (List Stmt)

def FuncDecl.text (d : FuncDecl) : Text :=
  word .resFunc ++ ' ' :: (d.id.text ++ (genericsText d.generics ++ (d.params.text ++ ' ' :: (d.ret.text ++
    ((if d.async then ' ' :: word .resAsync else []) ++
      ((d.body.map fun body => blockText (linesText body)).getD []))))))

/-- The name of a function: that of the receiver's type stands in front. -/
def FuncDecl.name (p : Parser) (d : FuncDecl) : Text :=
  match d.params.receiver with
  | none => d.id.text
  | some a => ((p.typeString (a.tp.tree p)).getD []).takeWhile (· ≠ '<') ++ '.' :: d.id.text

def FuncDecl.tree (p : Parser) (d : FuncDecl) : Node :=
  .func (d.name p) (d.generics.map (·.text)) (d.params.tree p) (d.ret.tree p) d.async
    (d.body.map fun body => .sl (stmtTrees p body))

/-- What a file declares. -/
inductive Decl
  | define (x : Name) (tp : Ty)
  | deas (x : Name) (value : Exp)
  | typeDef (id : Name) (generics : List Name) (d : Def)
  | func (d : FuncDecl)

def Decl.text : Decl → Text
  | define x tp => word .resVar ++ ' ' :: (x.text ++ ' ' :: tp.text)
  | deas x value => x.text ++ ' ' :: ':' :: '=' :: ' ' :: value.body
  | typeDef id generics d => word .resType ++ ' ' :: (id.text ++ (genericsText generics ++ ' ' :: d.text))
  | func d => d.text

def Decl.tree (p : Parser) : Decl → Node
  | define x tp => .define x.text (tp.tree p)
  | deas x value => .defAndAssign x.text (value.tree p)
  | typeDef id generics d => .typeDef id.text (d.tree p) (generics.map (·.text))
  | func d => d.tree p

/-- A header in the body of a function is ambiguous. -/
def Decl.ambiguous : Decl → Bool
  | func d => d.body.any anyAmbiguous
  | _ => false

/-- A path between quotes, with the name the module gets, if not the last part of the path. -/
structure Import where
  path : List StrChar
  rename : Option Name

def Import.value (i : Import) : Text := i.path.map StrChar.char

def Import.name (i : Import) : Text := (i.rename.map (·.text)).getD (pathFile i.value)

def pathText (path : List StrChar) : Text := '"' :: path.flatMap StrChar.spelling ++ ['"']

def Import.text (i : Import) : Text := pathText i.path ++ leadText (i.rename.map (·.text))

/-- The import section of a file. -/
inductive Imports
  | none
  | one (path : List StrChar)
  | many (imports : List Import)

def Imports.text : Imports → Text
  | none => []
  | one path => word .resImport ++ ' ' :: (pathText path ++ ['\n'])
  | many imports =>
    word .resImport ++ ' ' :: '(' :: '\n' :: (imports.flatMap (fun i => i.text ++ ['\n']) ++ [')', '\n'])

/-- The map of the imports. An import replaces an earlier one of its name. -/
def Imports.tree : Imports → Option (List (Text × Text))
  | none => Option.none
  | one path => some [(pathFile (path.map StrChar.char), path.map StrChar.char)]
  | many imports => some (imports.foldl (fun m i => setImport i.name i.value m) [])

/-- A source file. -/
structure File where
  pkg : Name
  imports : Imports
  decls : List Decl

/-- The declarations, each with its newline. -/
def declsText (decls : List Decl) : Text := decls.flatMap fun d => d.text ++ ['\n']

def File.text (f : File) : Text :=
  word .resPkg ++ ' ' :: (f.pkg.text ++ '\n' :: (f.imports.text ++ declsText f.decls))

/-- The parser behind the imports of the file, with `spare` places behind its text. -/
def File.parser (f : File) (p : Parser) (spare : Nat) : Parser :=
  { p with
    imp := fun name => (f.imports.tree.getD []).lookup name
    mod := if f.pkg.text = "main".toList then f.pkg.text else p.mod
    runes := f.text
    cap := f.text.length + spare }

/-- A declaration without the `EmptyNode`s in its body. -/
def Node.eraseBody : Node → Node
  | .func id generics params retType async statements =>
    .func id generics params retType async (statements.map Node.erase)
  | n => n

/-! ## Words -/

section Words

variable {p : Parser} {f : Rec} {s r t w : Text} {c : TokenType} {q n : Nat}

/-- The words of declarations. -/
def declWords : List TokenType :=
  [.resPkg, .resImport, .resType, .resStruct, .resInterface, .resFunc, .resThis, .resAsync, .resVar]

theorem next_declWord (hc : c ∈ declWords) (hr : EndsWord r) (hne : r ≠ []) : Next (word c ++ r) c (word c) r := by
  have hall : ∀ c ∈ declWords, (word c, c) ∈ reserved := by decide
  exact next_word (hall c hc) hr hne

theorem endsType_newline (s : Text) : EndsType ('\n' :: s) :=
  endsType_single (m := ⟨.nl, ['\n']⟩) (by decide) (by decide) s

/-! ## Type parameters -/

theorem genericParams_none (h : Next s c t r) (hc : c ≠ .sm) :
    (genericParams f).run ⟨s, q⟩ = .err .type ⟨s, q⟩ := by
  unfold genericParams
  simp [scanType_run h, hc]

/-- A name in front of a list of names. -/
theorem endsWord_moreNames (xs : List Name) (s : Text) : EndsWord (moreNames xs ++ s) := by
  cases xs <;> exact endsWord_cons (by decide) _

theorem moreNames_ne (xs : List Name) (s : Text) : moreNames xs ++ s ≠ [] := by
  cases xs <;> exact List.cons_ne_nil _ _

theorem length_le_moreNames (xs : List Name) : xs.length ≤ (moreNames xs).length := by
  induction xs with
  | nil => exact Nat.zero_le _
  | cons x xs ih =>
    simp only [moreNames, List.length_cons, List.length_append]
    omega

theorem moreNames_run : ∀ (xs : List Name) (a : List Text) {m : Nat}, xs.length < m →
    (Back.iterate genericParamsTurn m a).run ⟨moreNames xs ++ s, q⟩ = .ok (a ++ xs.map (·.text)) ⟨s, q⟩
  | [], a, m, hm => by
    obtain ⟨m, rfl⟩ : ∃ k, m = k + 1 := ⟨m - 1, by simp at hm; omega⟩
    refine Back.iterate_last ?_ m
    show (genericParamsTurn a).run ⟨'>' :: s, q⟩ = _
    unfold genericParamsTurn
    simp [sees_gt]
  | x :: xs, a, m, hm => by
    obtain ⟨m, rfl⟩ : ∃ k, m = k + 1 := ⟨m - 1, by simp at hm; omega⟩
    have hcomma : Next (moreNames (x :: xs) ++ s) .comma [','] (x.text ++ (moreNames xs ++ s)) := by
      rw [moreNames, List.cons_append, List.append_assoc]
      exact next_single (m := ⟨.comma, [',']⟩) (by decide) _
    have hname : Next (x.text ++ (moreNames xs ++ s)) .var x.text (moreNames xs ++ s) :=
      next_name x (endsWord_moreNames xs s) (moreNames_ne xs s)
    have hstep : (genericParamsTurn a).run ⟨moreNames (x :: xs) ++ s, q⟩ =
        .ok (.inl (a ++ [x.text])) ⟨moreNames xs ++ s, q⟩ := by
      unfold genericParamsTurn
      simp [sees_lg hcomma, scanType_run hcomma, scanType_run hname]
    rw [Back.iterate_next hstep, moreNames_run xs (a ++ [x.text]) (by simpa using hm), List.append_assoc]
    rfl

/-- A name in front of type parameters. -/
theorem endsWord_generics (xs : List Name) (hs : EndsWord s) (hne : s ≠ []) :
    EndsWord (genericsText xs ++ s) ∧ genericsText xs ++ s ≠ [] := by
  cases xs with
  | nil => exact ⟨hs, hne⟩
  | cons x xs => exact ⟨endsWord_cons (by decide) _, List.cons_ne_nil _ _⟩

/-- Type parameters, or none where what follows does not look like some. -/
theorem typeParams_run (xs : List Name) (h : Next s c t r) (hc : c ≠ .sm)
    (hn : (genericsText xs ++ s).length ≤ f.fuel) :
    ∃ g, (opt (genericParams f)).run ⟨genericsText xs ++ s, q⟩ = .ok g ⟨s, q⟩ ∧ g.getD [] = xs.map (·.text) := by
  cases xs with
  | nil => exact ⟨none, opt_of_err (genericParams_none h hc), rfl⟩
  | cons x xs =>
    have hsm : Next (genericsText (x :: xs) ++ s) .sm ['<'] (x.text ++ (moreNames xs ++ s)) := by
      have h := next_sm (.named 0 none x []) (moreNames xs ++ s)
      simpa [Ty.text, qualifier, argsText, genericsText] using h
    have hname : Next (x.text ++ (moreNames xs ++ s)) .var x.text (moreNames xs ++ s) :=
      next_name x (endsWord_moreNames xs s) (moreNames_ne xs s)
    have hlen : xs.length < f.fuel := by
      have := length_le_moreNames xs
      simp only [genericsText, List.length_append, List.length_cons] at hn
      omega
    refine ⟨some ((x :: xs).map (·.text)), opt_of_ok ?_, rfl⟩
    unfold genericParams
    simp [scanType_run hsm, scanType_run hname, moreNames_run xs [x.text] hlen]

/-! ## Parameters -/

/-- A type, where it is read one level deeper. -/
theorem allTypes_below (tp : Ty) (hw : Blanks w) (hs : EndsType s) (hn : (tp.text ++ s).length < n) :
    (p.depth n).allTypes.run ⟨w ++ (tp.text ++ s), q⟩ = .ok (tp.tree p) ⟨s, q⟩ := by
  obtain ⟨n, rfl⟩ : ∃ k, n = k + 1 := ⟨n - 1, by omega⟩
  rw [depth_succ_allTypes]
  exact allTypes_text p tp hw hs (by omega)

/-- A parameter. -/
theorem funcParam_run (a : Param) (hw : Blanks w) (hs : EndsType s) (hn : (a.text ++ s).length ≤ n) :
    (funcParam (p.depth n)).run ⟨w ++ (a.text ++ s), q⟩ = .ok (a.tree p) ⟨s, q⟩ := by
  have htext : a.text ++ s = a.x.text ++ ' ' :: (a.tp.text ++ s) := by simp [Param.text]
  rw [htext] at hn ⊢
  simp only [List.length_append, List.length_cons] at hn
  have hname : Next (w ++ (a.x.text ++ ' ' :: (a.tp.text ++ s))) .var a.x.text (' ' :: (a.tp.text ++ s)) :=
    (next_name a.x (endsWord_space _) (List.cons_ne_nil _ _)).blanks hw
  have htp := allTypes_below (p := p) (n := n) (q := q) a.tp blanks_space hs (by simp only [List.length_append]; omega)
  rw [List.singleton_append] at htp
  unfold funcParam
  simp [scanType_run hname, htp, Param.tree]

theorem endsType_moreParams (as : List Param) (s : Text) : EndsType (moreParams as ++ s) := by
  cases as with
  | nil => exact endsType_single (m := ⟨.rp, [')']⟩) (by decide) (by decide) s
  | cons a as => exact endsType_single (m := ⟨.comma, [',']⟩) (by decide) (by decide) _

theorem length_le_moreParams (as : List Param) : as.length ≤ (moreParams as).length := by
  induction as with
  | nil => exact Nat.zero_le _
  | cons a as ih =>
    simp only [moreParams, List.length_cons, List.length_append]
    omega

theorem funcParams_more : ∀ (as : List Param) (acc : List (Text × TypeNode)) {m : Nat},
    (moreParams as ++ s).length ≤ n → as.length < m →
    (Back.iterate (untilRpTurn (funcParam (p.depth n))) m acc).run ⟨moreParams as ++ s, q⟩ =
      .ok (acc ++ as.map (Param.tree p)) ⟨s, q⟩
  | [], acc, m, hn, hm => by
    obtain ⟨m, rfl⟩ : ∃ k, m = k + 1 := ⟨m - 1, by simp at hm; omega⟩
    have hrp : Next (moreParams [] ++ s) .rp [')'] s := next_single (m := ⟨.rp, [')']⟩) (by decide) s
    refine Back.iterate_last ?_ m
    unfold untilRpTurn
    simp [scanType_run hrp]
  | a :: as, acc, m, hn, hm => by
    obtain ⟨m, rfl⟩ : ∃ k, m = k + 1 := ⟨m - 1, by simp at hm; omega⟩
    have htext : moreParams (a :: as) ++ s = ',' :: ' ' :: (a.text ++ (moreParams as ++ s)) := by
      simp [moreParams]
    rw [htext] at hn ⊢
    simp only [List.length_cons, List.length_append] at hn
    have hcomma : Next (',' :: ' ' :: (a.text ++ (moreParams as ++ s))) .comma [',']
        (' ' :: (a.text ++ (moreParams as ++ s))) := next_single (m := ⟨.comma, [',']⟩) (by decide) _
    have ha := funcParam_run (p := p) (n := n) (q := q) a blanks_space (endsType_moreParams as s)
      (by simp only [List.length_append]; omega)
    rw [List.singleton_append] at ha
    have hstep : (untilRpTurn (funcParam (p.depth n)) acc).run ⟨',' :: ' ' :: (a.text ++ (moreParams as ++ s)), q⟩ =
        .ok (.inl (acc ++ [a.tree p])) ⟨moreParams as ++ s, q⟩ := by
      unfold untilRpTurn
      simp [scanType_run hcomma, ha]
    rw [Back.iterate_next hstep, funcParams_more as _ (by simp only [List.length_append]; omega) (by simpa using hm),
      List.append_assoc]
    rfl

/-- The parameters of a function. -/
theorem funcParams_run (ps : Params) (hw : Blanks w) (hn : (ps.text ++ s).length ≤ n) :
    (funcParams (p.depth n)).run ⟨w ++ (ps.text ++ s), q⟩ = .ok (ps.tree p) ⟨s, q⟩ := by
  have hlp : ∀ u, Next (w ++ '(' :: u) .lp ['('] u :=
    fun u => (next_single (m := ⟨.lp, ['(']⟩) (by decide) u).blanks hw
  obtain ⟨_ | a, as⟩ := ps
  · cases as with
    | nil =>
      have hrp : Next (')' :: s) .rp [')'] s := next_single (m := ⟨.rp, [')']⟩) (by decide) s
      show (funcParams (p.depth n)).run ⟨w ++ '(' :: ')' :: s, q⟩ = _
      unfold funcParams
      simp [scanType_run (hlp (')' :: s)), scanType_run hrp, Params.tree]
    | cons a as =>
      have htext : (Params.mk none (a :: as)).text ++ s = '(' :: (a.text ++ (moreParams as ++ s)) := by
        simp [Params.text]
      rw [htext] at hn ⊢
      simp only [List.length_cons, List.length_append] at hn
      have hname : Next (a.text ++ (moreParams as ++ s)) .var a.x.text
          (' ' :: (a.tp.text ++ (moreParams as ++ s))) := by
        have h := next_name a.x (endsWord_space (a.tp.text ++ (moreParams as ++ s))) (List.cons_ne_nil _ _)
        simpa [Param.text] using h
      have hthis : (extFuncParam (p.depth n)).run ⟨a.text ++ (moreParams as ++ s), q⟩ =
          .err .type ⟨a.text ++ (moreParams as ++ s), q⟩ := by
        unfold extFuncParam
        simp [scanType_run hname]
      have ha := funcParam_run (p := p) (n := n) (q := q) a blanks_nil (endsType_moreParams as s)
        (by simp only [List.length_append]; omega)
      rw [List.nil_append] at ha
      have hmore := funcParams_more (p := p) (n := n) (q := q) (s := s) as [a.tree p] (m := (p.depth n).fuel)
        (by simp only [List.length_append]; omega) (by
          have := length_le_moreParams as
          rw [depth_fuel]
          omega)
      unfold funcParams untilRp
      simp [scanType_run (hlp _), scanType_run hname, hthis, ha, hmore, Params.tree]
  · have htext : (Params.mk (some a) as).text ++ s =
        '(' :: (word .resThis ++ ' ' :: (a.text ++ (moreParams as ++ s))) := by simp [Params.text]
    rw [htext] at hn ⊢
    simp only [List.length_cons, List.length_append] at hn
    have hthis : Next (word .resThis ++ ' ' :: (a.text ++ (moreParams as ++ s))) .resThis (word .resThis)
        (' ' :: (a.text ++ (moreParams as ++ s))) :=
      next_declWord (by decide) (endsWord_space _) (List.cons_ne_nil _ _)
    have ha := funcParam_run (p := p) (n := n) (q := q) a blanks_space (endsType_moreParams as s)
      (by simp only [List.length_append]; omega)
    rw [List.singleton_append] at ha
    have hmore := funcParams_more (p := p) (n := n) (q := q) (s := s) as [a.tree p] (m := (p.depth n).fuel)
      (by simp only [List.length_append]; omega) (by
        have := length_le_moreParams as
        rw [depth_fuel]
        omega)
    unfold funcParams untilRp extFuncParam
    simp [scanType_run (hlp _), scanType_run hthis, ha, hmore, Params.tree]

/-! ## Definitions of types -/

/-- What a field or a method is read as goes to the list, and its newline is an `empty`. -/
theorem structType_fields : ∀ (fields : List Param) (acc : List (Text × TypeNode)) {m : Nat},
    ((fields.map Param.text).flatMap (· ++ ['\n']) ++ '\x7d' :: s).length ≤ n → 2 * fields.length < m →
    (Back.iterate (structTypeTurn (p.depth n)) m acc).run
      ⟨(fields.map Param.text).flatMap (· ++ ['\n']) ++ '\x7d' :: s, q⟩ =
      .ok (acc ++ fields.map (Param.tree p)) ⟨s, q⟩
  | [], acc, m, hn, hm => by
    obtain ⟨m, rfl⟩ : ∃ k, m = k + 1 := ⟨m - 1, by simp at hm; omega⟩
    refine Back.iterate_last ?_ m
    show (structTypeTurn (p.depth n) acc).run ⟨'\x7d' :: s, q⟩ = _
    unfold structTypeTurn
    simp [sees_run (next_rb s)]
  | a :: fields, acc, m, hn, hm => by
    obtain ⟨m, rfl⟩ : ∃ k, m = k + 2 := ⟨m - 2, by simp at hm; omega⟩
    have htext : ((a :: fields).map Param.text).flatMap (· ++ ['\n']) ++ '\x7d' :: s =
        a.x.text ++ ' ' :: (a.tp.text ++ '\n' :: ((fields.map Param.text).flatMap (· ++ ['\n']) ++ '\x7d' :: s)) := by
      simp [Param.text]
    rw [htext] at hn ⊢
    generalize hu : (fields.map Param.text).flatMap (· ++ ['\n']) ++ '\x7d' :: s = u at hn ⊢
    simp only [List.length_append, List.length_cons] at hn
    have hname : Next (a.x.text ++ ' ' :: (a.tp.text ++ '\n' :: u)) .var a.x.text (' ' :: (a.tp.text ++ '\n' :: u)) :=
      next_name a.x (endsWord_space _) (List.cons_ne_nil _ _)
    have htp := allTypes_below (p := p) (n := n) (q := q) a.tp blanks_space (endsType_newline u)
      (by simp only [List.length_append, List.length_cons]; omega)
    rw [List.singleton_append] at htp
    have hfield : (structTypeTurn (p.depth n) acc).run ⟨a.x.text ++ ' ' :: (a.tp.text ++ '\n' :: u), q⟩ =
        .ok (.inl (acc ++ [a.tree p])) ⟨'\n' :: u, q⟩ := by
      unfold structTypeTurn
      simp [sees_run hname, scanType_run hname, htp, Param.tree]
    have hnewline : (structTypeTurn (p.depth n) (acc ++ [a.tree p])).run ⟨'\n' :: u, q⟩ =
        .ok (.inl (acc ++ [a.tree p])) ⟨u, q⟩ := by
      unfold structTypeTurn
      simp [sees_run (next_newline u), scanType_run (next_newline u), empty_run (next_newline u)]
    rw [Back.iterate_next hfield, Back.iterate_next hnewline, ← hu,
      structType_fields fields _ (by rw [hu]; omega) (by simp only [List.length_cons] at hm; omega), List.append_assoc]
    rfl

theorem Params.text_lp (ps : Params) : ∃ u, ps.text = '(' :: u := by
  obtain ⟨_ | a, _ | ⟨b, bs⟩⟩ := ps <;> exact ⟨_, rfl⟩

theorem Params.endsWord (ps : Params) (s : Text) : EndsWord (ps.text ++ s) ∧ ps.text ++ s ≠ [] := by
  obtain ⟨u, hu⟩ := ps.text_lp
  rw [hu]
  exact ⟨endsWord_cons (by decide) _, List.cons_ne_nil _ _⟩

theorem Params.next (ps : Params) (hw : Blanks w) (s : Text) : ∃ r, Next (w ++ (ps.text ++ s)) .lp ['('] r := by
  obtain ⟨u, hu⟩ := ps.text_lp
  rw [hu]
  exact ⟨_, (next_single (m := ⟨.lp, ['(']⟩) (by decide) (u ++ s)).blanks hw⟩

/-- The methods of an interface, each with its newline. -/
theorem interfaceType_methods : ∀ (methods : List Method) (acc : Funcs) {m : Nat},
    ((methods.map Method.text).flatMap (· ++ ['\n']) ++ '\x7d' :: s).length ≤ n → methods.length < m →
    (Back.iterate (interfaceTypeTurn (p.depth n)) m acc).run
      ⟨(methods.map Method.text).flatMap (· ++ ['\n']) ++ '\x7d' :: s, q⟩ =
      .ok (acc ++ methods.map (Method.tree p)) ⟨s, q⟩
  | [], acc, m, hn, hm => by
    obtain ⟨m, rfl⟩ : ∃ k, m = k + 1 := ⟨m - 1, by simp at hm; omega⟩
    refine Back.iterate_last ?_ m
    show (interfaceTypeTurn (p.depth n) acc).run ⟨'\x7d' :: s, q⟩ = _
    unfold interfaceTypeTurn
    simp [sees_run (next_rb s)]
  | d :: methods, acc, m, hn, hm => by
    obtain ⟨m, rfl⟩ : ∃ k, m = k + 1 := ⟨m - 1, by simp at hm; omega⟩
    have htext : ((d :: methods).map Method.text).flatMap (· ++ ['\n']) ++ '\x7d' :: s =
        d.x.text ++ (d.params.text ++ ' ' :: (d.ret.text ++
          '\n' :: ((methods.map Method.text).flatMap (· ++ ['\n']) ++ '\x7d' :: s))) := by
      simp [Method.text]
    rw [htext] at hn ⊢
    generalize hu : (methods.map Method.text).flatMap (· ++ ['\n']) ++ '\x7d' :: s = u at hn ⊢
    simp only [List.length_append, List.length_cons] at hn
    obtain ⟨hends, hne⟩ := d.params.endsWord (' ' :: (d.ret.text ++ '\n' :: u))
    have hname := next_name d.x hends hne
    have hparams := funcParams_run (p := p) (q := q) (n := n) (s := ' ' :: (d.ret.text ++ '\n' :: u)) d.params
      blanks_nil (by simp only [List.length_append, List.length_cons]; omega)
    rw [List.nil_append] at hparams
    have hret := allTypes_below (p := p) (n := n) (q := q) d.ret blanks_space (endsType_newline u)
      (by simp only [List.length_append, List.length_cons]; omega)
    rw [List.singleton_append] at hret
    have hstep : (interfaceTypeTurn (p.depth n) acc).run
        ⟨d.x.text ++ (d.params.text ++ ' ' :: (d.ret.text ++ '\n' :: u)), q⟩ =
        .ok (.inl (acc ++ [d.tree p])) ⟨u, q⟩ := by
      unfold interfaceTypeTurn
      simp [sees_run hname, scanType_run hname, hparams, hret, empty_run (next_newline u), Method.tree]
    rw [Back.iterate_next hstep, ← hu, interfaceType_methods methods _ (by rw [hu]; omega) (by simpa using hm),
      List.append_assoc]
    rfl

/-- Every line has its newline. -/
theorem length_le_lines (lines : List Text) : lines.length ≤ (lines.flatMap (· ++ ['\n'])).length := by
  induction lines with
  | nil => exact Nat.zero_le _
  | cons t lines ih =>
    simp only [List.flatMap_cons, List.length_append, List.length_cons, List.length_nil]
    omega

/-- And a field a blank. -/
theorem length_le_fields (fields : List Param) :
    2 * fields.length ≤ ((fields.map Param.text).flatMap (· ++ ['\n'])).length := by
  induction fields with
  | nil => exact Nat.zero_le _
  | cons a fields ih =>
    simp only [List.map_cons, List.flatMap_cons, List.length_append, List.length_cons, List.length_nil, Param.text]
    omega

theorem bracesText_append (lines : List Text) (s : Text) : bracesText lines ++ s =
    ' ' :: '\x7b' :: '\n' :: (lines.flatMap (· ++ ['\n']) ++ '\x7d' :: s) := by
  simp [bracesText]

theorem structType_run (fields : List Param) (hw : Blanks w)
    (hn : ((Def.struct fields).text ++ s).length ≤ n) :
    (structType (p.depth n)).run ⟨w ++ ((Def.struct fields).text ++ s), q⟩ =
      .ok ((Def.struct fields).tree p) ⟨s, q⟩ := by
  rw [Def.text, List.append_assoc, bracesText_append] at hn ⊢
  simp only [List.length_append, List.length_cons] at hn
  have hstruct : Next (w ++ (word .resStruct ++ ' ' :: '\x7b' :: '\n' ::
      ((fields.map Param.text).flatMap (· ++ ['\n']) ++ '\x7d' :: s))) .resStruct (word .resStruct) _ :=
    (next_declWord (by decide) (endsWord_space _) (List.cons_ne_nil _ _)).blanks hw
  have hnewline : (structTypeTurn (p.depth n) []).run
      ⟨'\n' :: ((fields.map Param.text).flatMap (· ++ ['\n']) ++ '\x7d' :: s), q⟩ =
      .ok (.inl []) ⟨(fields.map Param.text).flatMap (· ++ ['\n']) ++ '\x7d' :: s, q⟩ := by
    unfold structTypeTurn
    simp [sees_run (next_newline _), scanType_run (next_newline _), empty_run (next_newline _)]
  have hfields := structType_fields (p := p) (n := n) (q := q) (s := s) fields [] (m := n)
    (by simp only [List.length_append, List.length_cons]; omega) (by
      have := length_le_fields fields
      omega)
  unfold structType
  simp [scanType_run hstruct, scanType_run (next_lb _), depth_fuel, Back.iterate_next hnewline, hfields, Def.tree]

theorem interfaceType_run (methods : List Method) (hw : Blanks w)
    (hn : ((Def.interface methods).text ++ s).length ≤ n) :
    (interfaceType (p.depth n)).run ⟨w ++ ((Def.interface methods).text ++ s), q⟩ =
      .ok ((Def.interface methods).tree p) ⟨s, q⟩ := by
  rw [Def.text, List.append_assoc, bracesText_append] at hn ⊢
  simp only [List.length_append, List.length_cons] at hn
  have hinterface : Next (w ++ (word .resInterface ++ ' ' :: '\x7b' :: '\n' ::
      ((methods.map Method.text).flatMap (· ++ ['\n']) ++ '\x7d' :: s))) .resInterface (word .resInterface) _ :=
    (next_declWord (by decide) (endsWord_space _) (List.cons_ne_nil _ _)).blanks hw
  have hnewline : (interfaceTypeTurn (p.depth n) []).run
      ⟨'\n' :: ((methods.map Method.text).flatMap (· ++ ['\n']) ++ '\x7d' :: s), q⟩ =
      .ok (.inl []) ⟨(methods.map Method.text).flatMap (· ++ ['\n']) ++ '\x7d' :: s, q⟩ := by
    unfold interfaceTypeTurn
    simp [sees_run (next_newline _), scanType_run (next_newline _), empty_run (next_newline _)]
  have hmethods := interfaceType_methods (p := p) (n := n) (q := q) (s := s) methods [] (m := n)
    (by simp only [List.length_append, List.length_cons]; omega) (by
      have := length_le_lines (methods.map Method.text)
      rw [List.length_map] at this
      omega)
  unfold interfaceType
  simp [scanType_run hinterface, scanType_run (next_lb _), depth_fuel, Back.iterate_next hnewline, hmethods, Def.tree]

/-- What a type is defined as is read in front of a newline. -/
theorem Def.allTypes_run (d : Def) (hn : (d.text ++ '\n' :: s).length < n) :
    (p.allTypes (p.depth n)).run ⟨' ' :: (d.text ++ '\n' :: s), q⟩ = .ok (d.tree p) ⟨'\n' :: s, q⟩ := by
  have hk : 0 < (p.depth n).fuel := by rw [depth_fuel]; omega
  cases d with
  | type tp =>
    have h := allTypes_text p tp (n := n) (q := q) blanks_space (endsType_newline s) (Nat.le_of_lt hn)
    rwa [List.singleton_append] at h
  | struct fields =>
    have hstruct : Next (word .resStruct ++ (bracesText (fields.map Param.text) ++ '\n' :: s)) .resStruct
        (word .resStruct) (bracesText (fields.map Param.text) ++ '\n' :: s) :=
      next_declWord (by decide) (endsWord_space _) (List.cons_ne_nil _ _)
    obtain ⟨w', hw', hstars⟩ := stars_blanks (k := 0) (q := q) blanks_space hstruct (by decide) hk
    have hrun := structType_run (p := p) (n := n) (q := q) (s := '\n' :: s) fields hw' (Nat.le_of_lt hn)
    rw [Def.text, List.append_assoc] at hrun ⊢
    unfold Parser.allTypes
    simp only [List.replicate_zero, List.nil_append, List.singleton_append] at hstars
    simp [hstars, hrun, Def.tree, TypeNode.setPtrLevel]
  | interface methods =>
    have hinterface : Next (word .resInterface ++ (bracesText (methods.map Method.text) ++ '\n' :: s)) .resInterface
        (word .resInterface) (bracesText (methods.map Method.text) ++ '\n' :: s) :=
      next_declWord (by decide) (endsWord_space _) (List.cons_ne_nil _ _)
    obtain ⟨w', hw', hstars⟩ := stars_blanks (k := 0) (q := q) blanks_space hinterface (by decide) hk
    have hrun := interfaceType_run (p := p) (n := n) (q := q) (s := '\n' :: s) methods hw' (Nat.le_of_lt hn)
    rw [Def.text, List.append_assoc] at hrun ⊢
    unfold Parser.allTypes
    simp only [List.replicate_zero, List.nil_append, List.singleton_append] at hstars
    simp [hstars, structType_none (hinterface.blanks hw'), hrun, Def.tree, TypeNode.setPtrLevel]
  | func params ret =>
    have htext : (Def.func params ret).text ++ '\n' :: s =
        word .resFunc ++ ' ' :: (params.text ++ ' ' :: (ret.text ++ '\n' :: s)) := by simp [Def.text]
    rw [htext] at hn ⊢
    simp only [List.length_append, List.length_cons] at hn
    have hfunc : Next (word .resFunc ++ ' ' :: (params.text ++ ' ' :: (ret.text ++ '\n' :: s))) .resFunc (word .resFunc)
        (' ' :: (params.text ++ ' ' :: (ret.text ++ '\n' :: s))) :=
      next_declWord (by decide) (endsWord_space _) (List.cons_ne_nil _ _)
    have hres : IsResType (word .resFunc) = none := by decide
    obtain ⟨w', hw', hstars⟩ := stars_blanks (k := 0) (q := q) blanks_space hfunc (by decide) hk
    have hparams := funcParams_run (p := p) (n := n) (q := q) (s := ' ' :: (ret.text ++ '\n' :: s)) params blanks_space
      (by simp only [List.length_append, List.length_cons]; omega)
    have hret := allTypes_below (p := p) (n := n) (q := q) ret blanks_space (endsType_newline s)
      (by simp only [List.length_append, List.length_cons]; omega)
    rw [List.singleton_append] at hparams hret
    have hfunc' := hfunc.blanks hw'
    have hrun : (funcTypes (p.depth n)).run
        ⟨w' ++ (word .resFunc ++ ' ' :: (params.text ++ ' ' :: (ret.text ++ '\n' :: s))), q⟩ =
        .ok ((Def.func params ret).tree p) ⟨'\n' :: s, q⟩ := by
      unfold funcTypes
      simp [scanType_run hfunc', hparams, opt_of_ok hret, Def.tree]
    unfold Parser.allTypes
    simp only [List.replicate_zero, List.nil_append, List.singleton_append] at hstars
    simp [hstars, structType_none hfunc', interfaceType_none hfunc', basicTypes_none hfunc' hres,
      arrayTypes_none hfunc', hrun, Def.tree, TypeNode.setPtrLevel]

/-- No type begins with a `<`. -/
theorem Ty.first_ne_sm (tp : Ty) (hs : EndsType s) : ∃ c t r, Next (tp.text ++ s) c t r ∧ c ≠ .sm := by
  have hstars : ∀ (k : Nat) (v : Text), (∃ c t r, Next v c t r ∧ c ≠ .sm) →
      ∃ c t r, Next (List.replicate k '*' ++ v) c t r ∧ c ≠ .sm := by
    intro k v hv
    cases k with
    | zero => exact hv
    | succ k => exact ⟨.mul, ['*'], _, next_single (m := ⟨.mul, ['*']⟩) (by decide) _, by decide⟩
  cases tp with
  | basic ptr v hv =>
    have hall : ∀ v ∈ reservedTypes, v ∈ reserved ∧ v.2 ≠ .sm := by decide
    rw [Ty.text, List.append_assoc]
    exact hstars ptr _ ⟨_, _, _, next_word (hall v hv).1 hs.word hs.ne, (hall v hv).2⟩
  | named ptr pkg name generics =>
    obtain ⟨hword, hne, -⟩ := next_args generics hs
    obtain ⟨t, r, hnext⟩ := next_qualified pkg name hword hne
    rw [Ty.text, List.append_assoc, List.append_assoc, List.append_assoc]
    exact hstars ptr _ ⟨_, _, _, hnext, by decide⟩
  | array ptr len elm =>
    rw [Ty.text, List.append_assoc]
    exact hstars ptr _ ⟨_, _, _, next_single (m := ⟨.lsb, ['[']⟩) (by decide) _, by decide⟩

theorem Def.first (d : Def) (s : Text) : ∃ c t r, Next (d.text ++ '\n' :: s) c t r ∧ c ≠ .sm := by
  cases d with
  | type tp => exact tp.first_ne_sm (endsType_newline s)
  | struct | interface | func =>
    rw [Def.text, List.append_assoc]
    exact ⟨_, _, _, next_declWord (by decide) (endsWord_space _) (List.cons_ne_nil _ _), by decide⟩

/-! ## Functions -/

/-- What stands behind the type of the result. -/
def FuncDecl.tail (d : FuncDecl) : Text :=
  (if d.async then ' ' :: word .resAsync else []) ++ (d.body.map fun body => blockText (linesText body)).getD []

theorem FuncDecl.text_append (d : FuncDecl) (s : Text) : d.text ++ s = word .resFunc ++ ' ' :: (d.id.text ++
    (genericsText d.generics ++ (d.params.text ++ ' ' :: (d.ret.text ++ (d.tail ++ s))))) := by
  simp [FuncDecl.text, FuncDecl.tail]

/-- The body of a function or the end of the line. -/
theorem body_next (body : Option (List Stmt)) (s : Text) :
    EndsWord ((body.map fun body => blockText (linesText body)).getD [] ++ '\n' :: s) ∧
      (body.map fun body => blockText (linesText body)).getD [] ++ '\n' :: s ≠ [] ∧
      ∃ c t r, Next ((body.map fun body => blockText (linesText body)).getD [] ++ '\n' :: s) c t r ∧
        c ≠ .resAsync ∧ c ≠ .dot ∧ c ≠ .sm := by
  cases body with
  | none => exact ⟨endsWord_newline s, List.cons_ne_nil _ _, _, _, _, next_newline s, by decide, by decide, by decide⟩
  | some body =>
    exact ⟨endsWord_space _, List.cons_ne_nil _ _, _, _, _, next_block _ _, by decide, by decide, by decide⟩

/-- What stands behind the type of the result does not go on with it, and `async` is seen if it is there. -/
theorem FuncDecl.tail_run (d : FuncDecl) (s : Text) : EndsType (d.tail ++ '\n' :: s) ∧
    (sees .resAsync).run ⟨d.tail ++ '\n' :: s, q⟩ =
      .ok d.async ⟨(d.body.map fun body => blockText (linesText body)).getD [] ++ '\n' :: s, q⟩ := by
  obtain ⟨hword, hne, c, t, r, hnext, hasync, hdot, hsm⟩ := body_next d.body s
  unfold FuncDecl.tail
  cases ha : d.async with
  | false =>
    simp only [Bool.false_eq_true, if_false, List.nil_append]
    refine ⟨⟨?_, hne, c, t, r, hnext, hdot, hsm⟩, ?_⟩
    · exact hword
    · rw [sees_run hnext (by decide), if_neg hasync]
  | true =>
    simp only [if_true, List.append_assoc, List.cons_append]
    have hnext' := (next_declWord (c := .resAsync) (by decide) hword hne).blanks blanks_space
    rw [List.singleton_append] at hnext'
    refine ⟨⟨endsWord_space _, List.cons_ne_nil _ _, _, _, _, hnext', by decide, by decide⟩, ?_⟩
    rw [sees_run hnext' (by decide), if_pos rfl]

/-- What `function` does behind the type of the result, and `async`. -/
def FuncDecl.finish (p : Parser) (f : Rec) (d : FuncDecl) : P Node := do
  let statements ← opt (statementBlock f)
  let fn := Node.func (d.name p) (d.generics.map (·.text)) (d.params.tree p) (d.ret.tree p) d.async statements
  if p.addtoScope fn then pure fn else Back.panic

theorem FuncDecl.function_head (d : FuncDecl)
    (hname : ∀ a ∈ d.params.receiver, (p.typeString (a.tp.tree p)).isSome = true)
    (hn : (d.text ++ '\n' :: s).length ≤ n) : (p.function (p.depth n)).run ⟨d.text ++ '\n' :: s, q⟩ =
      (d.finish p (p.depth n)).run ⟨(d.body.map fun body => blockText (linesText body)).getD [] ++ '\n' :: s, q⟩ := by
  rw [d.text_append] at hn ⊢
  simp only [List.length_append, List.length_cons] at hn
  obtain ⟨htail, hasync⟩ := d.tail_run (q := q) s
  obtain ⟨hends, hne⟩ := d.params.endsWord (' ' :: (d.ret.text ++ (d.tail ++ '\n' :: s)))
  obtain ⟨v, hlp⟩ := d.params.next blanks_nil (' ' :: (d.ret.text ++ (d.tail ++ '\n' :: s)))
  rw [List.nil_append] at hlp
  have hfunc : Next (word .resFunc ++ ' ' :: (d.id.text ++ (genericsText d.generics ++ (d.params.text ++
      ' ' :: (d.ret.text ++ (d.tail ++ '\n' :: s)))))) .resFunc (word .resFunc) _ :=
    next_declWord (by decide) (endsWord_space _) (List.cons_ne_nil _ _)
  obtain ⟨hends', hne'⟩ := endsWord_generics d.generics hends hne
  have hid := (next_name d.id hends' hne').blanks blanks_space
  rw [List.singleton_append] at hid
  obtain ⟨g, hg, hgenerics⟩ := typeParams_run (f := p.depth n) (q := q) d.generics hlp (by decide) (by
    rw [depth_fuel]
    simp only [List.length_append, List.length_cons]
    omega)
  have hparams := funcParams_run (p := p) (n := n) (q := q) (s := ' ' :: (d.ret.text ++ (d.tail ++ '\n' :: s))) d.params
    blanks_nil (by simp only [List.length_append, List.length_cons]; omega)
  rw [List.nil_append] at hparams
  have hret := allTypes_text p d.ret (n := n) (q := q) blanks_space htail
    (by simp only [List.length_append, List.length_cons]; omega)
  rw [List.singleton_append] at hret
  have hscan := scanType_run (q := q) hfunc (show TokenType.resFunc ≠ .lg by decide)
  have hscan' := scanType_run (q := q) hid (show TokenType.var ≠ .lg by decide)
  rw [if_pos rfl] at hscan hscan'
  unfold Parser.function FuncDecl.finish
  simp only [Back.bind_run, Back.must_run, hscan, hscan', Run.andThen_ok, hg, hgenerics, hparams]
  -- the type of a receiver goes in front of the name
  cases hrec : d.params.receiver with
  | none => simp [Params.tree, FuncDecl.name, hrec, hret, hasync]
  | some a =>
    obtain ⟨name, ha⟩ := Option.isSome_iff_exists.mp (hname a hrec)
    simp [Params.tree, Param.tree, FuncDecl.name, hrec, ha, hret, hasync]

/-- A function is read in front of a newline, its body up to `EmptyNode`s. -/
theorem FuncDecl.function_run (d : FuncDecl)
    (hadd : ∀ fn : Node, fn.eraseBody = (d.tree p).eraseBody → p.addtoScope fn = true)
    (hname : ∀ a ∈ d.params.receiver, (p.typeString (a.tp.tree p)).isSome = true)
    (hamb : d.body.any anyAmbiguous = false) (hn : (d.text ++ '\n' :: s).length ≤ n) :
    ∃ fn, (p.function (p.depth n)).run ⟨d.text ++ '\n' :: s, q⟩ = .ok fn ⟨'\n' :: s, q⟩ ∧
      fn.eraseBody = (d.tree p).eraseBody := by
  rw [d.function_head hname hn]
  obtain ⟨body, hbody, htree⟩ : ∃ body, (opt (statementBlock (p.depth n))).run
      ⟨(d.body.map fun body => blockText (linesText body)).getD [] ++ '\n' :: s, q⟩ = .ok body ⟨'\n' :: s, q⟩ ∧
      body.map Node.erase = (d.body.map fun body => Node.sl (stmtTrees p body)).map Node.erase := by
    rw [d.text_append] at hn
    simp only [List.length_append, List.length_cons] at hn
    cases hd : d.body with
    | none =>
      refine ⟨none, opt_of_err (e := .type) ?_, rfl⟩
      show (statementBlock (p.depth n)).run ⟨'\n' :: s, q⟩ = .err .type ⟨'\n' :: s, q⟩
      unfold statementBlock
      simp [scanType_run (next_newline s)]
    | some body =>
      rw [hd] at hamb
      obtain ⟨as, hrun, htree⟩ := block_ok (p := p) (n := n) (q := q) (s := '\n' :: s) (lineSpecs p body) hamb (by
        simp only [FuncDecl.tail, hd, Option.map_some, Option.getD_some, List.length_append] at hn
        simp only [List.length_append, List.length_cons]
        omega)
      exact ⟨some (.sl as), opt_of_ok hrun, by simp [htree]⟩
  have herase : (Node.func (d.name p) (d.generics.map (·.text)) (d.params.tree p) (d.ret.tree p) d.async
      body).eraseBody = (d.tree p).eraseBody := by simp [Node.eraseBody, FuncDecl.tree, htree]
  refine ⟨_, ?_, herase⟩
  unfold FuncDecl.finish
  simp [hbody, hadd _ herase]

/-- A call whose error is not looked at returns what the call does, or nothing. -/
theorem opt_returns {α : Type} {x : P α} {l : Lexer} {Q : α → Prop} (h : x.Returns l Q) :
    (opt x).Returns l fun o => ∀ a ∈ o, Q a := by
  intro o l' ho
  unfold opt at ho
  simp only [Back.bind_run, Back.attempt_run] at ho
  obtain ⟨v, l₁, hv, ho⟩ | ⟨e, l₁, -, ho⟩ | ⟨-, ho⟩ := Back.andThen_result_ok ho
  · obtain ⟨a, l₂, ha, hv⟩ | ⟨e, l₂, -, hv⟩ | ⟨-, hv⟩ := Back.andThen_result_ok hv
    · obtain ⟨rfl, -⟩ := Result.ok.inj hv
      obtain ⟨rfl, -⟩ := Result.ok.inj ho
      intro b hb
      obtain rfl := Option.some.inj hb
      exact h a l₂ ha
    · obtain ⟨rfl, -⟩ := Result.ok.inj hv
      obtain ⟨rfl, -⟩ := Result.ok.inj ho
      intro b hb
      cases hb
    · cases hv
  · cases ho
  · cases ho

/-- With an ambiguous header in its body, it is not. -/
theorem FuncDecl.function_fails (d : FuncDecl)
    (hname : ∀ a ∈ d.params.receiver, (p.typeString (a.tp.tree p)).isSome = true)
    (hamb : d.body.any anyAmbiguous = true) (hn : (d.text ++ '\n' :: s).length ≤ n) :
    (p.function (p.depth n)).Returns ⟨d.text ++ '\n' :: s, q⟩ fun fn => fn.eraseBody ≠ (d.tree p).eraseBody := by
  unfold Back.Returns
  rw [d.function_head hname hn]
  obtain ⟨body, hd⟩ : ∃ body, d.body = some body := by
    cases hbody : d.body with
    | none => simp [hbody] at hamb
    | some body => exact ⟨body, rfl⟩
  rw [hd] at hamb ⊢
  have hblock := block_bad (p := p) (n := n) (q := q) (s := '\n' :: s) (lineSpecs p body) hamb (by
    rw [d.text_append] at hn
    simp only [FuncDecl.tail, hd, Option.map_some, Option.getD_some, List.length_append, List.length_cons] at hn
    simp only [List.length_append, List.length_cons]
    omega)
  show (d.finish p (p.depth n)).Returns ⟨blockText (linesText body) ++ '\n' :: s, q⟩
    fun fn => fn.eraseBody ≠ (d.tree p).eraseBody
  unfold FuncDecl.finish
  refine (opt_returns hblock).bind fun st l hst => ?_
  show Back.Returns (if _ then _ else _) _ _
  split
  · refine Back.returns_pure fun h => ?_
    simp only [Node.eraseBody, FuncDecl.tree, hd, Option.map_some, Node.func.injEq, true_and] at h
    obtain ⟨a, rfl, ha⟩ := Option.map_eq_some_iff.mp h
    exact hst a rfl ha
  · exact fun _ _ h => by cases h

/-! ## Declarations -/

/-- What `program` tries for a declaration. -/
def declaration (p : Parser) (f : Rec) : P Node :=
  runWithCatch (p.typeDef f) <|> runWithCatch (p.define f) <|> runWithCatch (p.defineAndAssign f) <|> p.function f

theorem typeDef_refuses (h : Next s c t r) (hc : c ≠ .resType) : (p.typeDef f).Refuses ⟨s, q⟩ :=
  first_refuses h (by decide) hc

/-- A definition of a variable, with its newline. -/
theorem define_run (x : Name) (tp : Ty)
    (hn : (word .resVar ++ ' ' :: (x.text ++ ' ' :: (tp.text ++ '\n' :: s))).length ≤ n) :
    (p.define (p.depth n)).run ⟨word .resVar ++ ' ' :: (x.text ++ ' ' :: (tp.text ++ '\n' :: s)), q⟩ =
      .ok (.define x.text (tp.tree p)) ⟨s, q⟩ := by
  simp only [List.length_append, List.length_cons] at hn
  have hvar := next_declWord (c := .resVar) (by decide)
    (endsWord_space (x.text ++ ' ' :: (tp.text ++ '\n' :: s))) (List.cons_ne_nil _ _)
  have hname := (next_name x (endsWord_space (tp.text ++ '\n' :: s)) (List.cons_ne_nil _ _)).blanks blanks_space
  have htp := allTypes_text p tp (n := n) (q := q) blanks_space (endsType_newline s)
    (by simp only [List.length_append, List.length_cons]; omega)
  rw [List.singleton_append] at hname htp
  unfold Parser.define
  simp [scanType_run hvar, scanType_run hname, htp, empty_run (next_newline s)]

/-- The tokens a declaration begins with. -/
theorem Decl.first (d : Decl) (s : Text) : ∃ c t r, Next (d.text ++ '\n' :: s) c t r ∧
    c ∈ [TokenType.resVar, .var, .resType, .resFunc] := by
  cases d with
  | define x tp =>
    rw [Decl.text, List.append_assoc]
    exact ⟨_, _, _, next_declWord (by decide) (endsWord_space _) (List.cons_ne_nil _ _), by decide⟩
  | deas x value =>
    rw [Decl.text, List.append_assoc]
    exact ⟨_, _, _, next_name x (endsWord_space _) (List.cons_ne_nil _ _), by decide⟩
  | typeDef id generics d =>
    rw [Decl.text, List.append_assoc]
    exact ⟨_, _, _, next_declWord (by decide) (endsWord_space _) (List.cons_ne_nil _ _), by decide⟩
  | func d =>
    rw [Decl.text, d.text_append]
    exact ⟨_, _, _, next_declWord (by decide) (endsWord_space _) (List.cons_ne_nil _ _), by decide⟩

/-- What the declarations of a file need besides their texts: receivers whose types have names. -/
def Decl.Named (p : Parser) : Decl → Prop
  | func d => ∀ a ∈ d.params.receiver, (p.typeString (a.tp.tree p)).isSome = true
  | _ => True

theorem declaration_func (d : FuncDecl) : (declaration p f).run ⟨d.text ++ '\n' :: s, q⟩ =
    (p.function f).run ⟨d.text ++ '\n' :: s, q⟩ := by
  have hfunc : Next (d.text ++ '\n' :: s) .resFunc (word .resFunc) (' ' :: (d.id.text ++ (genericsText d.generics ++
      (d.params.text ++ ' ' :: (d.ret.text ++ (d.tail ++ '\n' :: s)))))) := by
    rw [d.text_append]
    exact next_declWord (by decide) (endsWord_space _) (List.cons_ne_nil _ _)
  unfold declaration
  rw [runWithCatch_orElse (typeDef_refuses hfunc (by decide)), runWithCatch_orElse (define_refuses hfunc (by decide)),
    runWithCatch_orElse (defineAndAssign_refuses hfunc (by decide))]

/-- A declaration is read in its line, and the newline with it or not. -/
theorem Decl.declaration_run (d : Decl)
    (hadd : ∀ fn : Node, fn.eraseBody = (d.tree p).eraseBody → p.addtoScope fn = true) (hname : d.Named p)
    (hamb : d.ambiguous = false) (hn : (d.text ++ '\n' :: s).length < n) : ∃ a s',
    (declaration p (p.depth n)).run ⟨d.text ++ '\n' :: s, q⟩ = .ok a ⟨s', q⟩ ∧ (s' = s ∨ s' = '\n' :: s) ∧
      a.eraseBody = (d.tree p).eraseBody := by
  cases d with
  | define x tp =>
    have htext : (Decl.define x tp).text ++ '\n' :: s =
        word .resVar ++ ' ' :: (x.text ++ ' ' :: (tp.text ++ '\n' :: s)) := by simp [Decl.text]
    rw [htext] at hn ⊢
    have hvar := next_declWord (c := .resVar) (by decide)
      (endsWord_space (x.text ++ ' ' :: (tp.text ++ '\n' :: s))) (List.cons_ne_nil _ _)
    have hrun := define_run (p := p) (q := q) x tp (Nat.le_of_lt hn)
    refine ⟨_, s, ?_, .inl rfl, rfl⟩
    unfold declaration
    rw [runWithCatch_orElse (typeDef_refuses hvar (by decide)), orElse_ok (runWithCatch_ok hrun)]
    rfl
  | deas x value =>
    have htext : (Decl.deas x value).text ++ '\n' :: s = (Setting.deas x value).text ++ '\n' :: s := by
      simp [Decl.text, Setting.text]
    obtain ⟨hafter, hbody⟩ := after_newline (p := p) s
    rw [htext] at hn ⊢
    have hrun := defineAndAssign_run (p := p) (q := q) (w := []) (x := x) (e := value) blanks_nil hafter
      (fun _ => hbody) (Nat.le_of_lt hn)
    rw [List.nil_append] at hrun
    have hfirst : Next ((Setting.deas x value).text ++ '\n' :: s) .var x.text
        (' ' :: ':' :: '=' :: ' ' :: (value.body ++ '\n' :: s)) := by
      rw [Setting.text, List.append_assoc]
      exact next_name x (endsWord_space _) (List.cons_ne_nil _ _)
    refine ⟨_, _, ?_, .inr rfl, rfl⟩
    unfold declaration
    rw [runWithCatch_orElse (typeDef_refuses hfirst (by decide)),
      runWithCatch_orElse (define_refuses hfirst (by decide)), orElse_ok (runWithCatch_ok hrun)]
    rfl
  | typeDef id generics d =>
    have htext : (Decl.typeDef id generics d).text ++ '\n' :: s =
        word .resType ++ ' ' :: (id.text ++ (genericsText generics ++ ' ' :: (d.text ++ '\n' :: s))) := by
      simp [Decl.text]
    rw [htext] at hn ⊢
    simp only [List.length_append, List.length_cons] at hn
    have htype := next_declWord (c := .resType) (by decide)
      (endsWord_space (id.text ++ (genericsText generics ++ ' ' :: (d.text ++ '\n' :: s)))) (List.cons_ne_nil _ _)
    obtain ⟨hends, hne⟩ := endsWord_generics generics (endsWord_space (d.text ++ '\n' :: s)) (List.cons_ne_nil _ _)
    have hid := (next_name id hends hne).blanks blanks_space
    rw [List.singleton_append] at hid
    obtain ⟨c, t, r, hfirst, hsm⟩ := d.first s
    have hfirst' := hfirst.blanks blanks_space
    rw [List.singleton_append] at hfirst'
    obtain ⟨g, hg, hgenerics⟩ := typeParams_run (f := p.depth n) (q := q) generics hfirst' hsm (by
      rw [depth_fuel]
      simp only [List.length_append, List.length_cons]
      omega)
    have hd := d.allTypes_run (p := p) (n := n) (q := q) (s := s) (by
      simp only [List.length_append, List.length_cons]
      omega)
    have hrun : (p.typeDef (p.depth n)).run
        ⟨word .resType ++ ' ' :: (id.text ++ (genericsText generics ++ ' ' :: (d.text ++ '\n' :: s))), q⟩ =
        .ok ((Decl.typeDef id generics d).tree p) ⟨'\n' :: s, q⟩ := by
      unfold Parser.typeDef
      simp [scanType_run htype, scanType_run hid, hg, hd, hgenerics, Decl.tree]
    exact ⟨_, _, orElse_ok (runWithCatch_ok hrun), .inr rfl, rfl⟩
  | func d =>
    obtain ⟨fn, hrun, htree⟩ := d.function_run (q := q) hadd hname hamb (Nat.le_of_lt hn)
    exact ⟨fn, _, (declaration_func d).trans hrun, .inr rfl, htree⟩

/-- One with an ambiguous header is read otherwise. -/
theorem Decl.declaration_fails (d : Decl) (hname : d.Named p) (hamb : d.ambiguous = true)
    (hn : (d.text ++ '\n' :: s).length < n) :
    (declaration p (p.depth n)).Returns ⟨d.text ++ '\n' :: s, q⟩ fun a => a.eraseBody ≠ (d.tree p).eraseBody := by
  cases d with
  | func d =>
    unfold Back.Returns
    rw [Decl.text, declaration_func]
    exact d.function_fails hname hamb (Nat.le_of_lt hn)
  | define | deas | typeDef => cases hamb

/-! ## The declarations of a file -/

theorem declsText_cons (d : Decl) (decls : List Decl) :
    declsText (d :: decls) = d.text ++ '\n' :: declsText decls := by simp [declsText]

theorem length_le_declsText (decls : List Decl) : 2 * decls.length ≤ (declsText decls).length := by
  induction decls with
  | nil => exact Nat.zero_le _
  | cons d decls ih =>
    obtain ⟨c, t, r, hfirst, hc⟩ := d.first (declsText decls)
    have hne : d.text ≠ [] := by
      intro h
      rw [h, List.nil_append] at hfirst
      rw [hfirst.code_eq (next_newline _)] at hc
      revert hc
      decide
    have := List.length_pos_iff.mpr hne
    rw [declsText_cons]
    simp only [List.length_cons, List.length_append]
    omega

theorem declarationsTurn_newline (acc : List Node) :
    (p.declarationsTurn f acc).run ⟨'\n' :: s, q⟩ = .ok (.inl acc) ⟨s, q⟩ := by
  unfold declarationsTurn
  simp [scan_run (next_newline s)]

/-- At the end of the text the lexer has gone past it, and goes back. -/
theorem declarationsTurn_end (acc : List Node) :
    (p.declarationsTurn f acc).run ⟨[], q⟩ = .ok (.inr acc) ⟨[], q⟩ := rfl

theorem declarationsTurn_next {a : Node} {l : Lexer} (h : Next s c t r) (hc : c ≠ .nl)
    (ha : (declaration p f).run ⟨s, q⟩ = .ok a l) (acc : List Node) :
    (p.declarationsTurn f acc).run ⟨s, q⟩ = .ok (.inl (acc ++ [a])) l := by
  unfold declarationsTurn
  unfold declaration at ha
  simp [scan_run h, hc, ha]

theorem declarationsTurn_returns {Q : Node → Prop} (h : Next s c t r) (hc : c ≠ .nl)
    (ha : (declaration p f).Returns ⟨s, q⟩ Q) (acc : List Node) :
    (p.declarationsTurn f acc).Returns ⟨s, q⟩ fun x => ∃ a, Q a ∧ x = .inl (acc ++ [a]) := by
  unfold declarationsTurn
  refine Back.Returns.after Back.here_run (Back.Returns.after (scan_run h) ?_)
  show Back.Returns (if c = .nl then _ else _) _ _
  rw [if_neg hc]
  refine Back.Returns.after Back.goback_run ?_
  exact ha.bind fun a l hQ => Back.returns_pure ⟨a, hQ, rfl⟩

/-- The loop keeps what it has. -/
theorem declarations_keep (m : Nat) (acc : List Node) (l : Lexer) :
    (Back.iterate (p.declarationsTurn f) m acc).Returns l fun children => acc <+: children := by
  induction m generalizing acc l with
  | zero =>
    intro children l' h
    cases h
  | succ m ih =>
    have hturn : (p.declarationsTurn f acc).Returns l
        fun x => x = .inr acc ∨ ∃ children, acc <+: children ∧ x = .inl children := by
      unfold declarationsTurn
      refine Back.returns_bind fun ch l₁ => Back.returns_bind fun x l₂ => ?_
      show Back.Returns (if x.1 = .nl then _ else _) _ _
      split
      · exact Back.returns_pure (.inr ⟨acc, List.prefix_rfl, rfl⟩)
      · refine Back.returns_bind fun _ l₃ => ?_
        show Back.Returns (if x.2.2 = true then _ else _) _ _
        split
        · exact Back.returns_pure (.inl rfl)
        · exact Back.returns_bind fun a l₄ => Back.returns_pure (.inr ⟨_, List.prefix_append acc [a], rfl⟩)
    rw [Back.iterate]
    refine hturn.bind fun x l' hx => ?_
    obtain rfl | ⟨children, hacc, rfl⟩ := hx
    · exact Back.returns_pure List.prefix_rfl
    · exact (ih children l').mono fun children' h => hacc.trans h

/-- What a declaration asks for, beside its text. -/
structure Decl.Fits (p : Parser) (d : Decl) : Prop where
  scope : ∀ fn : Node, fn.eraseBody = (d.tree p).eraseBody → p.addtoScope fn = true
  named : d.Named p

/-- The declarations are read one behind the other. A declaration leaves its newline or takes it along, so it costs one
turn or two. -/
theorem declaration_step (d : Decl) (decls : List Decl) (hd : d.Fits p) (hamb : d.ambiguous = false)
    (hn : (declsText (d :: decls)).length < n) (acc : List Node) (m : Nat) : ∃ a m', m ≤ m' ∧
      a.eraseBody = (d.tree p).eraseBody ∧
      (Back.iterate (p.declarationsTurn (p.depth n)) (m + 2) acc).run ⟨declsText (d :: decls), q⟩ =
        (Back.iterate (p.declarationsTurn (p.depth n)) m' (acc ++ [a])).run ⟨declsText decls, q⟩ := by
  rw [declsText_cons] at hn ⊢
  obtain ⟨c, t, r, hfirst, hc⟩ := d.first (declsText decls)
  have hnl : c ≠ .nl := by
    rintro rfl
    revert hc
    decide
  obtain ⟨a, s', hrun, hs', htree⟩ := d.declaration_run (q := q) hd.scope hd.named hamb hn
  have hturn := declarationsTurn_next hfirst hnl hrun acc
  rcases hs' with rfl | rfl
  · exact ⟨a, m + 1, Nat.le_succ m, htree, Back.iterate_next hturn _⟩
  · refine ⟨a, m, Nat.le_refl m, htree, ?_⟩
    rw [Back.iterate_next hturn, Back.iterate_next (declarationsTurn_newline _)]

theorem declarations_run : ∀ (decls : List Decl) (acc : List Node) {m : Nat}, (∀ d ∈ decls, d.Fits p) →
    decls.any Decl.ambiguous = false → (declsText decls).length < n → 2 * decls.length < m →
    ∃ children, (Back.iterate (p.declarationsTurn (p.depth n)) m acc).run ⟨declsText decls, q⟩ =
        .ok (acc ++ children) ⟨[], q⟩ ∧
      children.map Node.eraseBody = decls.map fun d => (d.tree p).eraseBody
  | [], acc, m, _, _, _, hm => by
    obtain ⟨m, rfl⟩ : ∃ k, m = k + 1 := ⟨m - 1, by simp at hm; omega⟩
    exact ⟨[], by rw [List.append_nil]; exact Back.iterate_last (declarationsTurn_end acc) m, rfl⟩
  | d :: decls, acc, m, hfits, hamb, hn, hm => by
    obtain ⟨m, rfl⟩ : ∃ k, m = k + 2 := ⟨m - 2, by simp at hm; omega⟩
    rw [List.any_cons, Bool.or_eq_false_iff] at hamb
    obtain ⟨a, m', hm', htree, hstep⟩ :=
      declaration_step (q := q) d decls (hfits d List.mem_cons_self) hamb.1 hn acc m
    rw [declsText_cons, List.length_append, List.length_cons] at hn
    simp only [List.length_cons] at hm
    obtain ⟨children, hloop, htrees⟩ := declarations_run decls (acc ++ [a]) (m := m')
      (fun d' hd' => hfits d' (List.mem_cons_of_mem d hd')) hamb.2 (by omega) (by omega)
    refine ⟨a :: children, ?_, by rw [List.map_cons, List.map_cons, htree, htrees]⟩
    rw [hstep, hloop, List.append_assoc]
    rfl

/-- A declaration that reads otherwise stays in the list. -/
theorem declarations_fail : ∀ (decls : List Decl) (acc : List Node) {m : Nat}, (∀ d ∈ decls, d.Fits p) →
    decls.any Decl.ambiguous = true → (declsText decls).length < n → 2 * decls.length < m →
    (Back.iterate (p.declarationsTurn (p.depth n)) m acc).Returns ⟨declsText decls, q⟩ fun children =>
      children.map Node.eraseBody ≠ acc.map Node.eraseBody ++ decls.map fun d => (d.tree p).eraseBody
  | d :: decls, acc, m, hfits, hamb, hn, hm => by
    obtain ⟨m, rfl⟩ : ∃ k, m = k + 2 := ⟨m - 2, by simp at hm; omega⟩
    have hd := hfits d List.mem_cons_self
    cases hda : d.ambiguous with
    | true =>
      obtain ⟨c, t, r, hfirst, hc⟩ := d.first (declsText decls)
      have hnl : c ≠ .nl := by
        rintro rfl
        revert hc
        decide
      rw [declsText_cons] at hn ⊢
      have hturn := declarationsTurn_returns hfirst hnl (d.declaration_fails (q := q) hd.named hda hn) acc
      rw [Back.iterate]
      refine hturn.bind fun x l' hx => ?_
      obtain ⟨a, ha, rfl⟩ := hx
      refine (declarations_keep (m + 1) (acc ++ [a]) l').mono fun children hchildren heq => ?_
      obtain ⟨more, rfl⟩ := hchildren
      simp only [List.map_append, List.append_assoc, List.append_cancel_left_eq, List.map_cons, List.map_nil,
        List.cons_append, List.cons.injEq] at heq
      exact ha heq.1
    | false =>
      rw [List.any_cons, hda, Bool.false_or] at hamb
      obtain ⟨a, m', hm', htree, hstep⟩ := declaration_step (q := q) d decls hd hda hn acc m
      rw [declsText_cons, List.length_append, List.length_cons] at hn
      simp only [List.length_cons] at hm
      have hrest := declarations_fail decls (acc ++ [a]) (m := m')
        (fun d' hd' => hfits d' (List.mem_cons_of_mem d hd')) hamb (by omega) (by omega)
      unfold Back.Returns
      rw [hstep]
      refine hrest.mono fun children hchildren heq => hchildren ?_
      rw [heq, List.map_append, List.map_cons, List.map_singleton, htree, List.append_assoc]
      rfl

/-! ## The head of a file -/

theorem pkgDeclare_run (pkg : Name) (s : Text) :
    pkgDeclare.run ⟨word .resPkg ++ ' ' :: (pkg.text ++ '\n' :: s), q⟩ = .ok pkg.text ⟨s, q⟩ := by
  have hpkg := next_declWord (c := .resPkg) (by decide) (endsWord_space (pkg.text ++ '\n' :: s)) (List.cons_ne_nil _ _)
  have hname := (next_name pkg (endsWord_newline s) (List.cons_ne_nil _ _)).blanks blanks_space
  rw [List.singleton_append] at hname
  unfold pkgDeclare
  simp [scanType_run hpkg, scanType_run hname, runWithCatch, empty_run (next_newline s)]

theorem next_path (path : List StrChar) (s : Text) :
    Next (pathText path ++ s) .str (path.map StrChar.char) s := by
  intro q
  have h := scan_str q path s
  simpa [pathText] using h

/-- An import, in front of its newline. -/
theorem importStatementTurn_import (i : Import) (imports : List (Text × Text)) :
    (importStatementTurn imports).run ⟨i.text ++ '\n' :: s, q⟩ =
      .ok (.inl (setImport i.name i.value imports)) ⟨'\n' :: s, q⟩ := by
  have hpath := next_path i.path (leadText (i.rename.map (·.text)) ++ '\n' :: s)
  rw [← List.append_assoc] at hpath
  unfold importStatementTurn
  cases hname : i.rename with
  | none =>
    simp only [Import.text, hname, Option.map_none, leadText, List.append_nil] at hpath ⊢
    simp [sees_run hpath, scanType_run hpath, scanType_run (next_newline s), Import.name, hname, Import.value]
  | some x =>
    have hx := (next_name x (endsWord_newline s) (List.cons_ne_nil _ _)).blanks blanks_space
    rw [List.singleton_append] at hx
    simp only [Import.text, hname, Option.map_some, leadText, List.append_assoc, List.cons_append] at hpath ⊢
    simp [sees_run hpath, scanType_run hpath, scanType_run hx, Import.name, hname, Import.value]

theorem importStatementTurn_newline (imports : List (Text × Text)) :
    (importStatementTurn imports).run ⟨'\n' :: s, q⟩ = .ok (.inl imports) ⟨s, q⟩ := by
  unfold importStatementTurn
  simp [sees_run (next_newline s)]

/-- The imports, each with its newline, up to the parenthesis. -/
theorem importStatement_imports : ∀ (imports : List Import) (m : List (Text × Text)) {k : Nat}, 2 * imports.length < k →
    (Back.iterate importStatementTurn k m).run ⟨imports.flatMap (fun i => i.text ++ ['\n']) ++ ')' :: s, q⟩ =
      .ok (imports.foldl (fun m i => setImport i.name i.value m) m) ⟨s, q⟩
  | [], m, k, hk => by
    obtain ⟨k, rfl⟩ : ∃ j, k = j + 1 := ⟨k - 1, by simp at hk; omega⟩
    have hrp : Next (')' :: s) .rp [')'] s := next_single (m := ⟨.rp, [')']⟩) (by decide) s
    refine Back.iterate_last ?_ k
    show (importStatementTurn m).run ⟨')' :: s, q⟩ = _
    unfold importStatementTurn
    simp [sees_run hrp]
  | i :: imports, m, k, hk => by
    obtain ⟨k, rfl⟩ : ∃ j, k = j + 2 := ⟨k - 2, by simp at hk; omega⟩
    have htext : (i :: imports).flatMap (fun i => i.text ++ ['\n']) ++ ')' :: s =
        i.text ++ '\n' :: (imports.flatMap (fun i => i.text ++ ['\n']) ++ ')' :: s) := by simp
    rw [htext, Back.iterate_next (importStatementTurn_import i m), Back.iterate_next (importStatementTurn_newline _),
      importStatement_imports imports _ (by simp only [List.length_cons] at hk; omega)]
    rfl

theorem length_le_imports (imports : List Import) :
    2 * imports.length ≤ (imports.flatMap fun i => i.text ++ ['\n']).length := by
  induction imports with
  | nil => exact Nat.zero_le _
  | cons i imports ih =>
    have hi : 1 ≤ i.text.length := by simp [Import.text, pathText]
    simp only [List.flatMap_cons, List.length_append, List.length_cons, List.length_nil]
    omega

/-- The blank lines and the import section, in front of the declarations. What is left may begin with a newline. -/
theorem imports_run (i : Imports) (decls : List Decl) {k : Nat} (hk : 0 < k)
    (hn : (i.text ++ declsText decls).length < f.fuel) : ∃ q₁ q₂ s,
    (Back.iterate blankLinesTurn k ()).run ⟨i.text ++ declsText decls, q⟩ = .ok () ⟨i.text ++ declsText decls, q₁⟩ ∧
      (opt (importStatement f)).run ⟨i.text ++ declsText decls, q₁⟩ = .ok i.tree ⟨s, q₂⟩ ∧
      (s = declsText decls ∨ s = '\n' :: declsText decls) := by
  obtain ⟨k, rfl⟩ : ∃ j, k = j + 1 := ⟨k - 1, by omega⟩
  have hturn : ∀ {s : Text} {c t r}, Next s c t r → c ≠ .nl →
      (Back.iterate blankLinesTurn (k + 1) ()).run ⟨s, q⟩ = .ok () ⟨s, q⟩ := by
    intro s c t r h hc
    refine Back.iterate_last ?_ k
    unfold blankLinesTurn
    simp [sees_run h, hc]
  cases i with
  | none =>
    cases decls with
    | nil => exact ⟨q + 1, q + 2, [], rfl, rfl, .inl rfl⟩
    | cons d decls =>
      obtain ⟨c, t, r, hfirst, hc⟩ := d.first (declsText decls)
      rw [← declsText_cons] at hfirst
      have hne : c ≠ .nl ∧ c ≠ .resImport := by
        constructor <;> (rintro rfl; revert hc; decide)
      refine ⟨q, q, _, hturn hfirst hne.1, opt_of_err (e := .type) ?_, .inl rfl⟩
      show (importStatement f).run ⟨declsText (d :: decls), q⟩ = .err .type ⟨declsText (d :: decls), q⟩
      unfold importStatement
      simp [scanType_run hfirst, hne.2]
  | one path =>
    have htext : (Imports.one path).text ++ declsText decls =
        word .resImport ++ ' ' :: (pathText path ++ '\n' :: declsText decls) := by simp [Imports.text]
    have himport := next_declWord (c := .resImport) (by decide)
      (endsWord_space (pathText path ++ '\n' :: declsText decls)) (List.cons_ne_nil _ _)
    have hpath := (next_path path ('\n' :: declsText decls)).blanks blanks_space
    rw [List.singleton_append] at hpath
    rw [htext]
    refine ⟨q, q, _, hturn himport (by decide), opt_of_ok ?_, .inr rfl⟩
    unfold importStatement
    simp [scanType_run himport, scanType_run hpath, pure]
  | many imports =>
    have htext : (Imports.many imports).text ++ declsText decls = word .resImport ++ ' ' :: '(' :: '\n' ::
        (imports.flatMap (fun i => i.text ++ ['\n']) ++ ')' :: '\n' :: declsText decls) := by simp [Imports.text]
    rw [htext] at hn ⊢
    simp only [List.length_append, List.length_cons] at hn
    have himport := next_declWord (c := .resImport) (by decide)
      (endsWord_space ('(' :: '\n' :: (imports.flatMap (fun i => i.text ++ ['\n']) ++ ')' :: '\n' :: declsText decls)))
      (List.cons_ne_nil _ _)
    have hlp : ∀ u, Next (' ' :: '(' :: u) .lp ['('] u :=
      fun u => (next_single (m := ⟨.lp, ['(']⟩) (by decide) u).blanks blanks_space
    obtain ⟨j, hj⟩ : ∃ j, f.fuel = j + 1 := ⟨f.fuel - 1, by omega⟩
    have hloop := importStatement_imports (s := '\n' :: declsText decls) (q := q) imports [] (k := j) (by
      have := length_le_imports imports
      omega)
    refine ⟨q, q, _, hturn himport (by decide), opt_of_ok ?_, .inr rfl⟩
    unfold importStatement
    simp [scanType_run himport, scanType_run (hlp _), hj, Back.iterate_next (importStatementTurn_newline _), hloop]

/-- The imports are loaded in the order in which they are given. -/
theorem loadImports_run (l : Lexer) : ∀ imports : List (Text × Text),
    (∀ i ∈ imports, p.fathers i.2 = false ∧ p.parseModule i.2 = .done) →
    (p.loadImports imports).run l = ⟨.ok () l, imports.map fun i => .parseModule i.2⟩
  | [], _ => rfl
  | i :: imports, h => by
    obtain ⟨hfathers, hdone⟩ := h i List.mem_cons_self
    have hrest := loadImports_run l imports fun j hj => h j (List.mem_cons_of_mem i hj)
    unfold loadImports
    simp [hfathers, hdone, hrest, Back.note, Run.andThen]

end Words

/-! ## Files -/

/-- The calls of `ParseModule`, in the order of the map. -/
def File.loads (f : File) (p : Parser) : List Call := (p.range (f.imports.tree.getD [])).map fun i => .parseModule i.2

/-- `ParseAST` reads the file, up to `EmptyNode`s in the bodies of its functions, as what it is printed from, and loads
what it imports. -/
def File.RoundTrips (f : File) (p : Parser) (spare : Nat) : Prop :=
  ∃ N, ∀ n, N ≤ n → ∃ prog l, p.ParseAST n spare f.text = ⟨.ok prog l, f.loads p⟩ ∧
    prog.pkg = f.pkg.text ∧ prog.imports = f.imports.tree ∧
    prog.children.map Node.eraseBody = f.decls.map fun d => (d.tree (f.parser p spare)).eraseBody

/-- What a file asks for, beside its text: it is of the package the module is called, or of `main`, what it imports can
be loaded, and its functions go to the scope. -/
structure File.Fits (f : File) (p : Parser) (spare : Nat) : Prop where
  pkg : f.pkg.text = pathFile p.mod ∨ f.pkg.text = "main".toList
  loads : ∀ i ∈ p.range (f.imports.tree.getD []), p.fathers i.2 = false ∧ p.parseModule i.2 = .done
  decls : ∀ d ∈ f.decls, d.Fits (f.parser p spare)

section Files

variable {p : Parser} {f : File} {n spare : Nat}

/-- What `program` does behind the imports, in `m` turns at most. -/
def File.rest (f : File) (p : Parser) (spare n m : Nat) : P ProgramNode := do
  let children ← Back.iterate ((f.parser p spare).declarationsTurn ((f.parser p spare).depth n)) m []
  pure ⟨f.pkg.text, f.imports.tree, children⟩

/-- A newline behind the imports costs one turn more. -/
theorem File.rest_newline (m : Nat) (s : Text) (q : Nat) :
    (f.rest p spare n (m + 1)).run ⟨'\n' :: s, q⟩ = (f.rest p spare n m).run ⟨s, q⟩ := by
  unfold File.rest
  rw [Back.bind_run, Back.iterate_next (declarationsTurn_newline []), ← Back.bind_run]

theorem parseAST_head (h : f.Fits p spare) (hn : f.text.length ≤ n) : ∃ q m, 2 * f.decls.length < m ∧
    p.ParseAST n spare f.text = ⟨((f.rest p spare n m).run ⟨declsText f.decls, q⟩).result,
      f.loads p ++ ((f.rest p spare n m).run ⟨declsText f.decls, q⟩).calls⟩ := by
  have hlen : (f.imports.text ++ declsText f.decls).length + 2 ≤ n := by
    simp only [File.text, List.length_append, List.length_cons] at hn ⊢
    omega
  have hdecls := length_le_declsText f.decls
  rw [List.length_append] at hlen
  let p₀ : Parser := { p with imp := fun _ => none, runes := f.text, cap := f.text.length + spare }
  have hfuel : (p₀.depth n).fuel = n + 1 := depth_fuel p₀ n
  obtain ⟨q₁, q, s, hblank, himports, hs⟩ := imports_run (f := p₀.depth n) (q := 0) f.imports f.decls (k := n + 1)
    (Nat.succ_pos n) (by rw [hfuel, List.length_append]; omega)
  have hpkg : ¬(f.pkg.text ≠ pathFile p₀.mod ∧ f.pkg.text ≠ "main".toList) := fun hne => h.pkg.elim hne.1 hne.2
  have hloads := loadImports_run (p := p₀) ⟨s, q⟩ (p.range (f.imports.tree.getD [])) h.loads
  have hrun : p.ParseAST n spare f.text = ⟨((f.rest p spare n (n + 1)).run ⟨s, q⟩).result,
      f.loads p ++ ((f.rest p spare n (n + 1)).run ⟨s, q⟩).calls⟩ := by
    rw [← depth_fuel (f.parser p spare) n]
    show (p₀.program n).run ⟨f.text, 0⟩ = _
    unfold program
    rw [Back.bind_run, Back.must_run, File.text, pkgDeclare_run, Run.andThen_ok, Run.andThen_ok, if_neg hpkg, hfuel,
      Back.bind_run, hblank, Run.andThen_ok, Back.bind_run, himports, Run.andThen_ok, Back.bind_run]
    show ((p₀.loadImports (p.range (f.imports.tree.getD []))).run ⟨s, q⟩).andThen _ _ _ = _
    rw [hloads]
    rfl
  rcases hs with rfl | rfl
  · exact ⟨q, n + 1, by omega, hrun⟩
  · exact ⟨q, n, by omega, by rw [hrun, File.rest_newline]⟩

theorem File.roundTrips (h : f.Fits p spare) (hamb : f.decls.any Decl.ambiguous = false) : f.RoundTrips p spare := by
  refine ⟨f.text.length, fun n hn => ?_⟩
  obtain ⟨q, m, hm, hrun⟩ := parseAST_head h hn
  have hlen : (declsText f.decls).length < n := by
    simp only [File.text, List.length_append, List.length_cons] at hn
    omega
  obtain ⟨children, hloop, htrees⟩ := declarations_run (q := q) f.decls [] h.decls hamb hlen hm
  refine ⟨⟨f.pkg.text, f.imports.tree, children⟩, ⟨[], q⟩, ?_, rfl, rfl, htrees⟩
  have hrest : (f.rest p spare n m).run ⟨declsText f.decls, q⟩ =
      .ok ⟨f.pkg.text, f.imports.tree, children⟩ ⟨[], q⟩ := by
    unfold File.rest
    rw [Back.bind_run, hloop, Run.andThen_ok, List.nil_append]
    rfl
  rw [hrun, hrest]
  exact congrArg (Run.mk _) (List.append_nil _)

theorem File.not_roundTrips (h : f.Fits p spare) (hamb : f.decls.any Decl.ambiguous = true) :
    ¬ f.RoundTrips p spare := by
  rintro ⟨N, hN⟩
  obtain ⟨prog, l, hprog, -, -, htrees⟩ := hN (max N f.text.length) (Nat.le_max_left ..)
  have hn : f.text.length ≤ max N f.text.length := Nat.le_max_right ..
  obtain ⟨q, m, hm, hrun⟩ := parseAST_head h hn
  have hlen : (declsText f.decls).length < max N f.text.length := by
    simp only [File.text, List.length_append, List.length_cons] at hn ⊢
    omega
  have hfail := declarations_fail (q := q) f.decls [] h.decls hamb hlen hm
  have hrest : (f.rest p spare (max N f.text.length) m).Returns ⟨declsText f.decls, q⟩
      fun prog => prog.children.map Node.eraseBody ≠ f.decls.map fun d => (d.tree (f.parser p spare)).eraseBody := by
    unfold File.rest
    exact hfail.bind fun children l hchildren => Back.returns_pure hchildren
  exact hrest prog l (congrArg Run.result (hrun.symm.trans hprog)) htrees

theorem nil_wordChars : ∀ c ∈ ([] : Text), isWordChar c := List.forall_mem_nil _

/-- A name of one letter. -/
def letterName (c : Char) (letter : isLetterOrUnderscore c) (free : reserved.lookup [c] = none) : Name :=
  ⟨⟨c, [], letter, nil_wordChars⟩, free⟩

/-- A file with an import, a struct, and a method of it with a loop. -/
def structFile : File where
  pkg := letterName 'm' rfl rfl
  imports := .many [⟨[.plain 'u' (by decide)], some (letterName 'v' rfl rfl)⟩]
  decls := [
    .typeDef (letterName 's' rfl rfl) [letterName 'T' rfl rfl]
      (.struct [⟨letterName 'x' rfl rfl, .basic 0 (word .resInt, .resInt) (by decide)⟩]),
    .func {
      id := letterName 'f' rfl rfl
      generics := []
      params := ⟨some ⟨letterName 'b' rfl rfl, .named 1 none (letterName 's' rfl rfl) []⟩, []⟩
      ret := .basic 0 (word .resInt, .resInt) (by decide)
      async := false
      body := some [.blank, .forST .bare [.breakST], .ret none] }]

example : structFile.text =
    "package m\nimport (\n\"u\" v\n)\ntype s<T> struct \x7b\nx int\n\x7d\n".toList ++
      "func f(this b *s) int \x7b\n\nfor \x7b\nbreak\n\x7d\nreturn\n\x7d\n".toList := by decide

end Files

end CalcLang.Parser
