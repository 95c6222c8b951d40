import CalcLang.Parser.Next

/-!
# Type expressions round-trip

A `Ty` is a type expression as it is written, with the stars in front of it; `Ty.text` prints it
without blanks, and `Ty.tree` is what it should be read as. `allTypes_text` reads one in front of
anything that does not go on like a type; arguments of arguments end in runs of `>`, where
each is taken by a `ScanType` of its own.
-/

namespace CalcLang.Parser

open CalcLang.Lex CalcLang.Lib

/-- A length that is an `int` of Go. -/
structure Size extends Decimal where
  fits : toDecimal.value < 2 ^ 63

/-- A type expression, with its stars: a reserved type, a named type, of a package or not, with its
arguments, or an array or a slice (`none`). -/
inductive Ty
  | basic (ptr : Nat) (w : Text × TokenType) (h : w ∈ reservedTypes)
  | named (ptr : Nat) (pkg : Option Name) (name : Name) (generics : List Ty)
  | array (ptr : Nat) (len : Option Size) (elm : Ty)

/-- What stands in front of a name. -/
def qualifier : Option Name → Text
  | none => []
  | some a => a.text ++ ['.']

/-- What stands between the brackets. -/
def lenText : Option Size → Text
  | none => []
  | some n => n.text

mutual

/-- The type as it is printed. -/
def Ty.text : Ty → Text
  | .basic ptr w _ => List.replicate ptr '*' ++ w.1
  | .named ptr pkg name generics =>
    List.replicate ptr '*' ++ (qualifier pkg ++ (name.text ++ argsText generics))
  | .array ptr len elm => List.replicate ptr '*' ++ '[' :: (lenText len ++ ']' :: elm.text)

/-- A list of arguments. -/
def argsText : List Ty → Text
  | [] => []
  | t :: ts => '<' :: (t.text ++ moreText ts)

/-- The arguments behind the first one. -/
def moreText : List Ty → Text
  | [] => ['>']
  | t :: ts => ',' :: (t.text ++ moreText ts)

end

/-- The names of a named type; that of an import is its path. -/
def customTp (p : Parser) (pkg : Option Name) (name : Name) : List Text :=
  match pkg with
  | none => [name.text]
  | some a => [(p.imp a.text).getD [], name.text]

mutual

/-- The type as it should be read. -/
def Ty.tree (p : Parser) : Ty → TypeNode
  | .basic ptr w _ => .basic w.2 ptr
  | .named ptr pkg name generics => .custom (customTp p pkg name) (trees p generics) p.mod ptr
  | .array ptr none elm => .array (-1) (elm.tree p) ptr
  | .array ptr (some n) elm => .array n.value (elm.tree p) ptr

def trees (p : Parser) : List Ty → List TypeNode
  | [] => []
  | t :: ts => t.tree p :: trees p ts

end

/-! ## No type -/

section Refusals

variable {p : Parser} {f : Rec} {s r t : Text} {c : TokenType} {q : Nat}

theorem opt_of_ok {α : Type} {x : P α} {a : α} {l l' : Lexer} (h : x.run l = .ok a l') :
    (opt x).run l = .ok (some a) l' := by
  unfold opt
  simp [h]

theorem opt_of_err {α : Type} {x : P α} {e : Err} {l l' : Lexer} (h : x.run l = .err e l') :
    (opt x).run l = .ok none l' := by
  unfold opt
  simp [h]

theorem genericCallParams_none (h : Next s c t r) (hc : c ≠ .sm) :
    (genericCallParams f).run ⟨s, q⟩ = .err .type ⟨s, q⟩ := by
  unfold genericCallParams
  simp [scanType_run h, hc]

theorem arrayTypes_none (h : Next s c t r) (hc : c ≠ .lsb) :
    (arrayTypes f).run ⟨s, q⟩ = .err .type ⟨s, q⟩ := by
  unfold arrayTypes
  simp [scanType_run h, hc]

theorem structType_none (h : Next s c t r) (hc : c ≠ .resStruct) :
    (structType f).run ⟨s, q⟩ = .err .type ⟨s, q⟩ := by
  unfold structType
  simp [scanType_run h, hc]

theorem interfaceType_none (h : Next s c t r) (hc : c ≠ .resInterface) :
    (interfaceType f).run ⟨s, q⟩ = .err .type ⟨s, q⟩ := by
  unfold interfaceType
  simp [scanType_run h, hc]

theorem funcTypes_none (h : Next s c t r) (hc : c ≠ .resFunc) :
    (funcTypes f).run ⟨s, q⟩ = .err .type ⟨s, q⟩ := by
  unfold funcTypes
  simp [scanType_run h, hc]

theorem basicTypes_none (h : Next s c t r) (hres : IsResType t = none) (hc : c ≠ .var) :
    (basicTypes p f).run ⟨s, q⟩ = .err .other ⟨s, q⟩ := by
  unfold basicTypes
  simp [scan_run h, hres, hc]

/-- The codes of tokens a type can begin with. -/
def typeStarts : List TokenType :=
  [.mul, .resStruct, .resInterface, .var, .lsb, .resFunc]

theorem allTypes_none (h : Next s c t r) (hres : IsResType t = none) (hc : c ∉ typeStarts)
    (hf : 0 < f.fuel) : (p.allTypes f).run ⟨s, q⟩ = .err .type ⟨s, q⟩ := by
  simp only [typeStarts, List.mem_cons, List.not_mem_nil, or_false, not_or] at hc
  obtain ⟨hmul, hstruct, hinterface, hvar, hlsb, hfunc⟩ := hc
  unfold Parser.allTypes
  simp [stars_none h hmul hf, structType_none h hstruct, interfaceType_none h hinterface,
    basicTypes_none h hres hvar, arrayTypes_none h hlsb, funcTypes_none h hfunc]

/-- A token that begins with no letter is no reserved type. -/
theorem isResType_none (h : ∀ d ∈ t.head?, isLetter d = false) : IsResType t = none := by
  have hall : ∀ w ∈ reservedTypes, w.1.head?.any isLetter := by decide
  unfold IsResType
  rw [List.lookup_eq_none_iff]
  intro w hw
  have hw' := hall w hw
  rw [bne_iff_ne]
  intro heq
  rw [← heq, Option.any_eq_true] at hw'
  obtain ⟨d, hd, hletter⟩ := hw'
  rw [h d hd] at hletter
  cases hletter

/-- An identifier is no reserved type. -/
theorem isResType_name (x : Name) : IsResType x.text = none := by
  have hall : ∀ w ∈ reservedTypes, reserved.lookup w.1 = some w.2 := by decide
  unfold IsResType
  rw [List.lookup_eq_none_iff]
  intro w hw
  rw [bne_iff_ne]
  intro heq
  have hfree := x.free
  rw [heq, hall w hw] at hfree
  cases hfree

end Refusals

/-! ## Where a type ends -/

/-- No type goes on at `s`. -/
structure EndsType (s : Text) : Prop where
  word : EndsWord s
  ne : s ≠ []
  next : ∃ c t r, Next s c t r ∧ c ≠ .dot ∧ c ≠ .sm

section Ends

variable {s : Text}

theorem endsType_gt (s : Text) : EndsType ('>' :: s) where
  word d hd := by
    obtain rfl : '>' = d := Option.some.inj hd
    rfl
  ne h := by cases h
  next := by
    by_cases heq : s.head? = some '='
    · refine ⟨.leq, ['>', '='], s.tail, fun q => ?_, by decide, by decide⟩
      exact if_pos heq
    · by_cases hgt : s.head? = some '>'
      · refine ⟨.shr, ['>', '>'], s.tail, fun q => ?_, by decide, by decide⟩
        exact (if_neg heq).trans (if_pos hgt)
      · refine ⟨.lg, ['>'], s, fun q => ?_, by decide, by decide⟩
        exact (if_neg heq).trans (if_neg hgt)

/-- A type may stand in front of a mark that it does not go on with. -/
theorem endsType_single {m : Token} (hm : m ∈ singles) (hdot : m.code ≠ .dot) (s : Text) :
    EndsType (m.text ++ s) where
  word := by
    have hall : ∀ m ∈ singles, m.text.head?.any fun d => !isWordChar d := by decide
    intro d hd
    have h := hall m hm
    rw [Option.any_eq_true] at h
    obtain ⟨d', hd', hword⟩ := h
    have heq : (m.text ++ s).head? = some d' := by
      rw [List.head?_append, hd']
      rfl
    rw [heq] at hd
    obtain rfl : d' = d := Option.some.inj hd
    simpa using hword
  ne h := by
    have hall : ∀ m ∈ singles, m.text ≠ [] := by decide
    exact hall m hm (List.append_eq_nil_iff.1 h).1
  next := by
    have hall : ∀ m ∈ singles, m.code ≠ .sm := by decide
    exact ⟨_, _, _, next_single hm s, hdot, hall m hm⟩

theorem endsType_more (ts : List Ty) (s : Text) : EndsType (moreText ts ++ s) := by
  cases ts with
  | nil => exact endsType_gt s
  | cons t ts =>
    show EndsType ([','] ++ (t.text ++ moreText ts ++ s))
    exact endsType_single (m := ⟨.comma, [',']⟩) (by decide) (by decide) _

end Ends

/-! ## Where a type begins -/

section Begins

variable {s : Text}

/-- The first character of a type is no part of a longer token with a `<` in front of it. -/
theorem Ty.text_head (t : Ty) (s : Text) : ∃ d u, t.text ++ s = d :: u ∧
    (d = '*' ∨ d = '[' ∨ isLetterOrUnderscore d) := by
  have hstars : ∀ (k : Nat) (w : Text), (∃ d u, w = d :: u ∧
      (d = '*' ∨ d = '[' ∨ isLetterOrUnderscore d)) →
      ∃ d u, List.replicate k '*' ++ w = d :: u ∧ (d = '*' ∨ d = '[' ∨ isLetterOrUnderscore d) := by
    intro k w hw
    cases k with
    | zero => exact hw
    | succ k => exact ⟨'*', List.replicate k '*' ++ w, rfl, .inl rfl⟩
  cases t with
  | basic ptr w hw =>
    rw [Ty.text, List.append_assoc]
    have hall : ∀ w ∈ reservedTypes, w ∈ reserved := by decide
    obtain ⟨v, hv, -⟩ := reserved_word w (hall w hw)
    rw [← hv]
    exact hstars ptr _ ⟨v.head, v.tail ++ s, rfl, .inr (.inr v.head_ok)⟩
  | named ptr pkg name generics =>
    rw [Ty.text, List.append_assoc]
    refine hstars ptr _ ?_
    cases pkg with
    | none => exact ⟨name.head, _, rfl, .inr (.inr name.head_ok)⟩
    | some a => exact ⟨a.head, _, rfl, .inr (.inr a.head_ok)⟩
  | array ptr len elm =>
    rw [Ty.text, List.append_assoc]
    exact hstars ptr _ ⟨'[', _, rfl, .inr (.inl rfl)⟩

/-- The `<` in front of an argument. -/
theorem next_sm (t : Ty) (s : Text) : Next ('<' :: (t.text ++ s)) .sm ['<'] (t.text ++ s) := by
  obtain ⟨d, u, hd, hcases⟩ := t.text_head s
  rw [hd]
  have hne : d ≠ '=' ∧ d ≠ '<' := by
    rcases hcases with rfl | rfl | hletter
    · decide
    · decide
    · constructor
      · rintro rfl
        cases hletter
      · rintro rfl
        cases hletter
  have heq : (d :: u).head? ≠ some '=' := fun h => hne.1 (Option.some.inj h)
  have hsm : (d :: u).head? ≠ some '<' := fun h => hne.2 (Option.some.inj h)
  exact fun q => (if_neg heq).trans (if_neg hsm)

/-- A named type begins with a name. -/
theorem next_qualified (pkg : Option Name) (x : Name) (hs : EndsWord s) (hne : s ≠ []) :
    ∃ t r, Next (qualifier pkg ++ (x.text ++ s)) .var t r := by
  cases pkg with
  | none => exact ⟨_, _, next_name x hs hne⟩
  | some a =>
    refine ⟨a.text, '.' :: (x.text ++ s), ?_⟩
    have htext : qualifier (some a) ++ (x.text ++ s) = a.text ++ '.' :: (x.text ++ s) := by
      simp [qualifier]
    rw [htext]
    refine next_name a (fun d hd => ?_) (List.cons_ne_nil _ _)
    obtain rfl : '.' = d := Option.some.inj hd
    rfl

/-- Where a list of arguments begins, or where a type without them ends. -/
theorem next_args (ts : List Ty) (hs : EndsType s) : EndsWord (argsText ts ++ s) ∧
    argsText ts ++ s ≠ [] ∧ ∃ c t r, Next (argsText ts ++ s) c t r ∧ c ≠ .dot := by
  cases ts with
  | nil =>
    obtain ⟨c, t, r, hnext, hdot, -⟩ := hs.next
    exact ⟨hs.word, hs.ne, c, t, r, hnext, hdot⟩
  | cons t ts =>
    refine ⟨fun d hd => ?_, List.cons_ne_nil _ _, .sm, ['<'], t.text ++ (moreText ts ++ s), ?_, ?_⟩
    · obtain rfl : '<' = d := Option.some.inj hd
      rfl
    · have hnext := next_sm t (moreText ts ++ s)
      rwa [← List.append_assoc] at hnext ⊢
    · decide

/-- The first token of a type. -/
theorem Ty.first (t : Ty) (hs : EndsType s) : ∃ c u r, Next (t.text ++ s) c u r ∧ c ≠ .assign := by
  have hstars : ∀ (k : Nat) (v : Text), (∃ c u r, Next v c u r ∧ c ≠ .assign) →
      ∃ c u r, Next (List.replicate k '*' ++ v) c u r ∧ c ≠ .assign := by
    intro k v hv
    cases k with
    | zero => exact hv
    | succ k => exact ⟨.mul, ['*'], _, next_single (m := ⟨.mul, ['*']⟩) (by decide) _, by decide⟩
  cases t with
  | basic ptr w hw =>
    have hall : ∀ w ∈ reservedTypes, w ∈ reserved ∧ w.2 ≠ .assign := by decide
    rw [Ty.text, List.append_assoc]
    exact hstars ptr _ ⟨_, _, _, next_word (hall w hw).1 hs.word hs.ne, (hall w hw).2⟩
  | named ptr pkg name generics =>
    obtain ⟨hword, hne, -⟩ := next_args generics hs
    obtain ⟨u, r, hnext⟩ := next_qualified pkg name hword hne
    rw [Ty.text, List.append_assoc, List.append_assoc, List.append_assoc]
    exact hstars ptr _ ⟨_, _, _, hnext, by decide⟩
  | array ptr len elm =>
    rw [Ty.text, List.append_assoc]
    exact hstars ptr _ ⟨_, _, _, next_single (m := ⟨.lsb, ['[']⟩) (by decide) _, by decide⟩

end Begins

/-! ## Reading -/

section Reading

variable {p : Parser} {s w : Text} {n q : Nat}

theorem depth_succ_allTypes (p : Parser) (n : Nat) :
    (p.depth (n + 1)).allTypes = p.allTypes (p.depth n) := rfl

/-- A reserved type. -/
theorem basicTypes_reserved {f : Rec} {v : Text × TokenType} (hw : Blanks w)
    (hv : v ∈ reservedTypes) (hs : EndsWord s) (hne : s ≠ []) :
    (basicTypes p f).run ⟨w ++ (v.1 ++ s), q⟩ = .ok (.basic v.2 0) ⟨s, q⟩ := by
  have hall : ∀ w ∈ reservedTypes, w ∈ reserved ∧ IsResType w.1 = some w.2 := by decide
  obtain ⟨hres, htype⟩ := hall v hv
  unfold basicTypes
  simp [scan_run ((next_word hres hs hne).blanks hw), htype]

/-- A named type, up to its arguments. -/
theorem basicTypes_named {f : Rec} {pkg : Option Name} {x : Name} {g : Option (List TypeNode)}
    {s' : Text} (hw : Blanks w) (hs : EndsWord s)
    (hdot : pkg = none → ∃ c t r, Next s c t r ∧ c ≠ .dot) (hne : s ≠ [])
    (hg : (opt (genericCallParams f)).run ⟨s, q⟩ = .ok g ⟨s', q⟩) :
    (basicTypes p f).run ⟨w ++ (qualifier pkg ++ (x.text ++ s)), q⟩ =
      .ok (.custom (customTp p pkg x) (g.getD []) p.mod 0) ⟨s', q⟩ := by
  have hname : Next (x.text ++ s) .var x.text s := next_name x hs hne
  unfold basicTypes
  cases pkg with
  | none =>
    obtain ⟨c, t, r, hnext, hc⟩ := hdot rfl
    simp [qualifier, customTp, scan_run (hname.blanks hw), isResType_name, sees_run hnext, hc, hg]
  | some a =>
    have hmark : Next ('.' :: (x.text ++ s)) .dot ['.'] (x.text ++ s) :=
      next_single (m := ⟨.dot, ['.']⟩) (by decide) _
    have hpkg : Next (a.text ++ '.' :: (x.text ++ s)) .var a.text ('.' :: (x.text ++ s)) := by
      refine next_name a (fun d hd => ?_) (List.cons_ne_nil _ _)
      obtain rfl : '.' = d := Option.some.inj hd
      rfl
    have htext : qualifier (some a) ++ (x.text ++ s) = a.text ++ '.' :: (x.text ++ s) := by
      simp [qualifier]
    rw [htext]
    simp [customTp, scan_run (hpkg.blanks hw), isResType_name, sees_run hmark, scanType_run hname, hg]

theorem length_le_moreText (ts : List Ty) : ts.length ≤ (moreText ts).length := by
  induction ts with
  | nil => exact Nat.zero_le _
  | cons t ts ih =>
    simp only [moreText, List.length_cons, List.length_append]
    omega

/-- A length between its brackets, up to the closing one. -/
theorem arrayTypes_run {m : Nat} (len : Option Size) {u : Text} {t : TypeNode} (hw : Blanks w)
    (h : (p.allTypes (p.depth m)).run ⟨u, q⟩ = .ok t ⟨s, q⟩) :
    (arrayTypes (p.depth (m + 1))).run ⟨w ++ '[' :: (lenText len ++ ']' :: u), q⟩ =
      .ok (.array (len.elim (-1) fun n => n.value) t 0) ⟨s, q⟩ := by
  have hopen : Next ('[' :: (lenText len ++ ']' :: u)) .lsb ['['] (lenText len ++ ']' :: u) :=
    next_single (m := ⟨.lsb, ['[']⟩) (by decide) _
  have hclose : Next (']' :: u) .rsb [']'] u := next_single (m := ⟨.rsb, [']']⟩) (by decide) _
  unfold arrayTypes
  cases len with
  | none =>
    simp only [lenText, List.nil_append] at hopen ⊢
    simp [scanType_run (hopen.blanks hw), scanType_run hclose, depth_succ_allTypes, h]
  | some len =>
    have hlen : Next (len.text ++ ']' :: u) .int len.text (']' :: u) := by
      refine next_decimal len.toDecimal (fun d hd => ?_) (List.cons_ne_nil _ _)
      obtain rfl : ']' = d := Option.some.inj hd
      decide
    have hatoi : atoi len.text = len.value := by
      have hne : len.text ≠ [] := by simpa [Decimal.text] using len.nonempty
      unfold atoi
      rw [if_neg hne, len.digits_eq]
      exact if_pos len.fits
    simp only [lenText] at hopen ⊢
    simp [scanType_run (hopen.blanks hw), scanType_run hlen, scanType_run hclose, depth_succ_allTypes, h, hatoi]

mutual

/-- A type is read in front of anything that ends it. -/
theorem allTypes_text (p : Parser) : ∀ (t : Ty) {w s : Text} {n q : Nat}, Blanks w → EndsType s →
    (t.text ++ s).length ≤ n →
    (p.allTypes (p.depth n)).run ⟨w ++ (t.text ++ s), q⟩ = .ok (t.tree p) ⟨s, q⟩
  | .basic ptr v hv, w, s, n, q, hw, hs, hn => by
    have hall : ∀ w ∈ reservedTypes, w ∈ reserved ∧ w.2 ≠ .mul ∧ w.2 ≠ .resStruct ∧
        w.2 ≠ .resInterface := by decide
    obtain ⟨hres, hmul, hstruct, hinterface⟩ := hall v hv
    have hnext : Next (v.1 ++ s) v.2 v.1 s := next_word hres hs.word hs.ne
    have hk : ptr < (p.depth n).fuel := by
      simp only [Ty.text, List.length_append, List.length_replicate] at hn
      rw [depth_fuel]
      omega
    obtain ⟨w', hw', hstars⟩ := stars_blanks (q := q) hw hnext hmul hk
    unfold Parser.allTypes
    rw [Ty.text, List.append_assoc]
    simp [hstars, structType_none (hnext.blanks hw') hstruct,
      interfaceType_none (hnext.blanks hw') hinterface, basicTypes_reserved hw' hv hs.word hs.ne,
      TypeNode.setPtrLevel, Ty.tree]
  | .named ptr pkg name generics, w, s, n, q, hw, hs, hn => by
    obtain ⟨hword, hne, hdot⟩ := next_args generics hs
    obtain ⟨t, r, hnext⟩ := next_qualified pkg name hword hne
    have hk : ptr < (p.depth n).fuel := by
      simp only [Ty.text, List.length_append, List.length_replicate] at hn
      rw [depth_fuel]
      omega
    have hlen : (argsText generics ++ s).length ≤ n := by
      simp only [Ty.text, List.length_append] at hn ⊢
      omega
    -- without arguments what follows must not look like some
    obtain ⟨g, hg, htrees⟩ : ∃ g, (opt (genericCallParams (p.depth n))).run
        ⟨argsText generics ++ s, q⟩ = .ok g ⟨s, q⟩ ∧ g.getD [] = trees p generics := by
      cases generics with
      | nil =>
        obtain ⟨c, t, r, hend, -, hsm⟩ := hs.next
        exact ⟨none, opt_of_err (genericCallParams_none hend hsm), rfl⟩
      | cons g gs =>
        exact ⟨_, opt_of_ok (callParams_text p (g :: gs) (List.cons_ne_nil g gs) hlen), rfl⟩
    obtain ⟨w', hw', hstars⟩ := stars_blanks (q := q) hw hnext (by decide) hk
    unfold Parser.allTypes
    rw [Ty.text, List.append_assoc, List.append_assoc, List.append_assoc]
    simp [hstars, structType_none (hnext.blanks hw'), interfaceType_none (hnext.blanks hw'),
      basicTypes_named hw' hword (fun _ => hdot) hne hg, TypeNode.setPtrLevel, Ty.tree, htrees]
  | .array ptr len elm, w, s, n, q, hw, hs, hn => by
    obtain ⟨n, rfl⟩ : ∃ k, n = k + 1 := ⟨n - 1, by simp [Ty.text] at hn; omega⟩
    have hlen : (elm.text ++ s).length ≤ n := by
      simp only [Ty.text, List.length_append, List.length_cons] at hn ⊢
      omega
    have hk : ptr < (p.depth (n + 1)).fuel := by
      simp only [Ty.text, List.length_append, List.length_replicate] at hn
      rw [depth_fuel]
      omega
    have helm := allTypes_text p elm (q := q) blanks_nil hs hlen
    have hopen : Next ('[' :: (lenText len ++ ']' :: (elm.text ++ s))) .lsb ['[']
        (lenText len ++ ']' :: (elm.text ++ s)) := next_single (m := ⟨.lsb, ['[']⟩) (by decide) _
    have hres : IsResType ['['] = none := by decide
    have htext : (Ty.array ptr len elm).text ++ s =
        List.replicate ptr '*' ++ '[' :: (lenText len ++ ']' :: (elm.text ++ s)) := by
      simp [Ty.text]
    obtain ⟨w', hw', hstars⟩ := stars_blanks (q := q) hw hopen (by decide) hk
    have hopen' := hopen.blanks hw'
    have harray := arrayTypes_run len hw' helm
    unfold Parser.allTypes
    rw [htext]
    rw [List.nil_append] at harray
    cases len <;>
      simp [hstars, structType_none hopen', interfaceType_none hopen',
        basicTypes_none hopen' hres, harray, TypeNode.setPtrLevel, Ty.tree]

/-- A list of arguments. -/
theorem callParams_text (p : Parser) : ∀ (ts : List Ty) {s : Text} {n q : Nat}, ts ≠ [] →
    (argsText ts ++ s).length ≤ n →
    (genericCallParams (p.depth n)).run ⟨argsText ts ++ s, q⟩ = .ok (trees p ts) ⟨s, q⟩
  | [], s, n, q, hne, hn => absurd rfl hne
  | t :: ts, s, n, q, hne, hn => by
    obtain ⟨n, rfl⟩ : ∃ k, n = k + 1 := ⟨n - 1, by simp [argsText] at hn; omega⟩
    have hsm : Next (argsText (t :: ts) ++ s) .sm ['<'] (t.text ++ (moreText ts ++ s)) := by
      rw [argsText, List.cons_append, List.append_assoc]
      exact next_sm t _
    have hlen : (t.text ++ (moreText ts ++ s)).length ≤ n := by
      simp only [argsText, List.cons_append, List.length_cons, List.length_append] at hn ⊢
      omega
    have ht := allTypes_text p t (q := q) blanks_nil (endsType_more ts s) hlen
    rw [List.nil_append] at ht
    have hmore := more_text p ts (q := q) (m := (p.depth (n + 1)).fuel) [t.tree p]
      (s := s) (n := n + 1) (by simp only [List.length_append] at hlen ⊢; omega) (by
        have := length_le_moreText ts
        simp only [List.length_append] at hlen
        rw [depth_fuel]
        omega)
    unfold genericCallParams
    simp [scanType_run hsm, depth_succ_allTypes, ht, hmore, trees]

/-- The arguments behind the first one. -/
theorem more_text (p : Parser) : ∀ (ts : List Ty) {s : Text} {n m q : Nat} (a : List TypeNode),
    (moreText ts ++ s).length ≤ n → ts.length < m →
    (Back.iterate (genericCallParamsTurn (p.depth n)) m a).run ⟨moreText ts ++ s, q⟩ =
      .ok (a ++ trees p ts) ⟨s, q⟩
  | [], s, n, m, q, a, hn, hm => by
    obtain ⟨m, rfl⟩ : ∃ k, m = k + 1 := ⟨m - 1, by simp at hm; omega⟩
    refine Back.iterate_last ?_ m
    show (genericCallParamsTurn (p.depth n) a).run ⟨'>' :: s, q⟩ = _
    unfold genericCallParamsTurn
    simp [sees_gt, trees]
  | t :: ts, s, n, m, q, a, hn, hm => by
    obtain ⟨m, rfl⟩ : ∃ k, m = k + 1 := ⟨m - 1, by simp at hm; omega⟩
    obtain ⟨n, rfl⟩ : ∃ k, n = k + 1 := ⟨n - 1, by simp [moreText] at hn; omega⟩
    have hcomma : Next (moreText (t :: ts) ++ s) .comma [','] (t.text ++ (moreText ts ++ s)) := by
      rw [moreText, List.cons_append, List.append_assoc]
      exact next_single (m := ⟨.comma, [',']⟩) (by decide) _
    have hlen : (t.text ++ (moreText ts ++ s)).length ≤ n := by
      simp only [moreText, List.cons_append, List.length_cons, List.length_append] at hn ⊢
      omega
    have ht := allTypes_text p t (q := q) blanks_nil (endsType_more ts s) hlen
    rw [List.nil_append] at ht
    have hstep : (genericCallParamsTurn (p.depth (n + 1)) a).run ⟨moreText (t :: ts) ++ s, q⟩ =
        .ok (.inl (a ++ [t.tree p])) ⟨moreText ts ++ s, q⟩ := by
      unfold genericCallParamsTurn
      simp [sees_lg hcomma, scanType_run hcomma, depth_succ_allTypes, ht]
    rw [Back.iterate_next hstep, more_text p ts _ ?_ ?_, trees, List.append_assoc]
    · rfl
    · simp only [List.length_append] at hlen ⊢
      omega
    · simpa using hm

end

end Reading

/-- **Type expressions round-trip**: in front of a newline, a type is read as its tree, and the
lexer is left at the newline. -/
theorem types_round_trip (p : Parser) (t : Ty) (s : Text) (q : Nat) :
    ∃ N, ∀ n, N ≤ n →
      (p.allTypes (p.depth n)).run ⟨t.text ++ '\n' :: s, q⟩ = .ok (t.tree p) ⟨'\n' :: s, q⟩ :=
  ⟨_, fun _ hn => allTypes_text p t blanks_nil
    (endsType_single (m := ⟨.nl, ['\n']⟩) (by decide) (by decide) s) hn⟩

end CalcLang.Parser
