import CalcLang.Parser.Printing

/-!
# Variable chains

Every operand that begins with a name is tried as a literal of a struct, then as a call and
then as a chain. Here is what the first and the last attempt come to, given that the
expressions inside are read as they should be (`Reads`).

A chain of one or two names without an index reads like a type, and then it depends on what
stands behind it (`NoBody`) whether the first attempt fails.
-/

namespace CalcLang.Parser

open CalcLang.Lex CalcLang.Lib

variable {p : Parser} {f : Rec} {w s r t : Text} {c : TokenType} {n q : Nat}

/-! ## Alternatives -/

theorem runWithCatch_ok {α : Type} {x : P α} {a : α} {l l' : Lexer} (h : x.run l = .ok a l') :
    (runWithCatch x).run l = .ok a l' := by
  unfold runWithCatch
  rw [Back.catching_run, h, Run.andThen_ok]

theorem orElse_ok {α : Type} {x y : P α} {a : α} {l l' : Lexer} (h : x.run l = .ok a l') :
    (x <|> y).run l = .ok a l' := by
  rw [Back.orElse_run, h, Run.andThen_ok]

/-- An alternative that fails is passed over. -/
theorem runWithCatch_orElse {α : Type} {x y : P α} {l : Lexer} (h : x.Refuses l) :
    (runWithCatch x <|> y).run l = y.run l :=
  h.orElse

/-- An alternative that is caught and fails, as the last one. -/
theorem runWithCatch_refuses {α : Type} {x : P α} {l : Lexer} (h : x.Refuses l) :
    (runWithCatch x).Refuses l := by
  obtain ⟨e, he⟩ := h.catching (e := Err.other)
  exact Back.refuses_of_err he

/-! ## What stands behind an operand -/

/-- An operand may end in front of `s`. -/
def Stops (s : Text) : Prop := ∃ d u, s = d :: u ∧ d ∈ [' ', '\n', ')', ']', ',', ';']

theorem Stops.word (h : Stops s) : EndsWord s := by
  obtain ⟨d, u, rfl, hd⟩ := h
  have hall : [' ', '\n', ')', ']', ',', ';'].all (fun d => !isWordChar d) = true := by decide
  intro d' hd'
  obtain rfl : d = d' := Option.some.inj hd'
  simpa using List.all_eq_true.mp hall d hd

theorem Stops.num (h : Stops s) : EndsNum s := by
  obtain ⟨d, u, rfl, hd⟩ := h
  have hall : [' ', '\n', ')', ']', ',', ';'].all
      (fun d => !(d = '.' || isNum d) && !isLetter d) = true := by decide
  intro d' hd'
  obtain rfl : d = d' := Option.some.inj hd'
  simpa using List.all_eq_true.mp hall d hd

theorem Stops.ne (h : Stops s) : s ≠ [] := by
  obtain ⟨d, u, rfl, -⟩ := h
  exact List.cons_ne_nil d u

/-- The text `s` ends an operand, and the token there is none of `ops`. -/
structure After (p : Parser) (ops : List TokenType) (s : Text) : Prop where
  stops : Stops s
  next : ∃ c t r, Next s c t r ∧ c ∉ [.dot, .lsb, .lp] ∧ c ∉ ops
  generics : ∀ n q, s.length ≤ n → ∃ e, (genericCallParams (p.depth n)).run ⟨s, q⟩ = .err e ⟨s, q⟩

section After

variable {ops ops' : List TokenType}

theorem After.mono (h : After p ops s) (hsub : ops' ⊆ ops) : After p ops' s := by
  obtain ⟨c, t, r, hnext, hc, hops⟩ := h.next
  exact ⟨h.stops, ⟨c, t, r, hnext, hc, fun hc' => hops (hsub hc')⟩, h.generics⟩

/-- A token that neither an operand nor a list of arguments goes on with. -/
theorem after_next {d : Char} {u : Text} (hd : d ∈ [' ', '\n', ')', ']', ',', ';'])
    (h : Next (d :: u) c t r) (hc : c ∉ [.dot, .lsb, .lp, .sm]) (hops : c ∉ ops) :
    After p ops (d :: u) where
  stops := ⟨d, u, rfl, hd⟩
  next := by
    refine ⟨c, t, r, h, fun hc' => hc ?_, hops⟩
    simp only [List.mem_cons, List.not_mem_nil, or_false] at hc' ⊢
    tauto
  generics n q _ := by
    have hsm : c ≠ .sm := fun heq => hc (by simp [heq])
    exact ⟨.type, genericCallParams_none h hsm⟩

end After

/-- No literal of a struct goes on at `s`. -/
def NoBody (p : Parser) (s : Text) : Prop :=
  ∀ n q tp, s.length ≤ n → (structInitBody (p.depth n) tp).Refuses ⟨s, q⟩

theorem structInitBody_refuses (h : Next s c t r) (hc : c ≠ .lb) (tp : TypeNode) :
    (structInitBody f tp).Refuses ⟨s, q⟩ := by
  unfold structInitBody
  exact (scanType_refuses h (by decide) hc).bind

theorem noBody_next (h : Next s c t r) (hc : c ≠ .lb) : NoBody p s :=
  fun _ _ tp _ => structInitBody_refuses h hc tp

/-! ## Expressions inside -/

/-- The tokens that an expression goes on with. -/
def allOps : List TokenType :=
  [.shl, .shr, .plus, .sub, .div, .mul, .ps] ++ compareOps ++ [.bitOr, .esp, .bitXor, .and, .or]

/-- `allexp` reads the expression. -/
def Reads (p : Parser) (e : Exp) : Prop :=
  ∀ w s n q, Blanks w → After p allOps s → (e.endsLikeType 0 = true → NoBody p s) →
    (e.body ++ s).length ≤ n →
    (p.allexp (p.depth n)).run ⟨w ++ (e.body ++ s), q⟩ = .ok (e.tree p) ⟨s, q⟩

theorem depth_succ_allexp (p : Parser) (n : Nat) :
    (p.depth (n + 1)).allexp = p.allexp (p.depth n) := rfl

section Inside

/-- A closing mark is behind an expression. -/
theorem after_single {m : Token} (hm : m ∈ singles)
    (hcode : m.code ∈ [.rsb, .rp, .comma, .nl, .semi]) (s : Text) :
    After p allOps (m.text ++ s) ∧ NoBody p (m.text ++ s) := by
  have hall : ∀ m ∈ singles, m.code ∈ [TokenType.rsb, .rp, .comma, .nl, .semi] →
      m.text ∈ [' ', '\n', ')', ']', ',', ';'].map (fun d => [d]) ∧
        m.code ∉ [.dot, .lsb, .lp, .sm] ∧ m.code ∉ allOps ∧ m.code ≠ .lb := by decide
  obtain ⟨hd, hc, hops, hlb⟩ := hall m hm hcode
  obtain ⟨d, hd, htext⟩ := List.mem_map.mp hd
  replace htext := htext.symm
  have hnext := next_single hm s
  rw [htext] at hnext ⊢
  exact ⟨after_next hd hnext hc hops, noBody_next hnext hlb⟩

theorem endsWord_cons {d : Char} (hd : isWordChar d = false) (u : Text) : EndsWord (d :: u) := by
  intro d' hd'
  obtain rfl : d = d' := Option.some.inj hd'
  exact hd

/-- Indices or nothing, and then something that ends a word. -/
theorem endsWord_idxs (idxs : List Exp) (hs : EndsWord s) : EndsWord (idxsText idxs ++ s) := by
  cases idxs with
  | nil => exact hs
  | cons e es => exact endsWord_cons (by decide) _

theorem endsWord_next (bs : List (Name × List Exp)) (hs : EndsWord s) :
    EndsWord (nextText bs ++ s) := by
  cases bs with
  | nil => exact hs
  | cons b bs => exact endsWord_cons (by decide) _

theorem length_le_idxsText (idxs : List Exp) : idxs.length ≤ (idxsText idxs).length := by
  induction idxs with
  | nil => exact Nat.zero_le _
  | cons e es ih =>
    simp only [idxsText, List.length_cons, List.length_append]
    omega

theorem length_le_nextText (bs : List (Name × List Exp)) : bs.length ≤ (nextText bs).length := by
  induction bs with
  | nil => exact Nat.zero_le _
  | cons b bs ih =>
    obtain ⟨x, idxs⟩ := b
    simp only [nextText, List.length_cons, List.length_append]
    omega

/-- The loop over the indices. -/
theorem idxs_run {idxs : List Exp} (hidxs : ∀ e ∈ idxs, Reads p e) (hnext : Next s c t r)
    (hc : c ≠ .lsb) (a : List Node) {m : Nat} (hn : (idxsText idxs ++ s).length ≤ n)
    (hm : idxs.length < m) :
    (Back.iterate (varBlockTurn (p.depth n)) m a).run ⟨idxsText idxs ++ s, q⟩ =
      .ok (a ++ expTrees p idxs) ⟨s, q⟩ := by
  induction idxs generalizing a m with
  | nil =>
    obtain ⟨m, rfl⟩ : ∃ k, m = k + 1 := ⟨m - 1, by simp at hm; omega⟩
    refine Back.iterate_last ?_ m
    show (varBlockTurn (p.depth n) a).run ⟨s, q⟩ = _
    unfold varBlockTurn
    simp [sees_run hnext, hc, expTrees]
  | cons e es ih =>
    obtain ⟨m, rfl⟩ : ∃ k, m = k + 1 := ⟨m - 1, by simp at hm; omega⟩
    obtain ⟨n, rfl⟩ : ∃ k, n = k + 1 := ⟨n - 1, by simp [idxsText] at hn; omega⟩
    have htext : idxsText (e :: es) ++ s = '[' :: (e.body ++ ']' :: (idxsText es ++ s)) := by
      simp [idxsText]
    have hopen : Next ('[' :: (e.body ++ ']' :: (idxsText es ++ s))) .lsb ['[']
        (e.body ++ ']' :: (idxsText es ++ s)) := next_single (m := ⟨.lsb, ['[']⟩) (by decide) _
    have hclose : Next (']' :: (idxsText es ++ s)) .rsb [']'] (idxsText es ++ s) :=
      next_single (m := ⟨.rsb, [']']⟩) (by decide) _
    obtain ⟨hafter, hbody⟩ :=
      after_single (p := p) (m := ⟨.rsb, [']']⟩) (by decide) (by decide) (idxsText es ++ s)
    rw [htext] at hn ⊢
    simp only [List.length_cons, List.length_append] at hn
    have he := hidxs e List.mem_cons_self [] _ n q blanks_nil hafter (fun _ => hbody) (by
      simp only [List.length_cons, List.length_append, List.length_nil]
      omega)
    have hstep : (varBlockTurn (p.depth (n + 1)) a).run
        ⟨'[' :: (e.body ++ ']' :: (idxsText es ++ s)), q⟩ =
        .ok (.inl (a ++ [e.tree p])) ⟨idxsText es ++ s, q⟩ := by
      unfold varBlockTurn
      have he' : (p.allexp (p.depth n)).run ⟨e.body ++ ']' :: (idxsText es ++ s), q⟩ =
          .ok (e.tree p) ⟨']' :: (idxsText es ++ s), q⟩ := he
      simp [sees_run hopen, depth_succ_allexp, he', scanType_run hclose]
    rw [Back.iterate_next hstep, ih (fun e he => hidxs e (List.mem_cons_of_mem _ he)), expTrees,
      List.append_assoc]
    · rfl
    · simp only [List.length_append]
      omega
    · simpa using hm

/-- A name with its indices. -/
theorem varBlock_run {x : Name} {idxs : List Exp} (hw : Blanks w) (hidxs : ∀ e ∈ idxs, Reads p e)
    (hnext : Next s c t r) (hc : c ≠ .lsb) (hs : EndsWord s) (hne : s ≠ [])
    (hn : (x.text ++ (idxsText idxs ++ s)).length ≤ n) :
    (varBlock (p.depth n)).run ⟨w ++ (x.text ++ (idxsText idxs ++ s)), q⟩ =
      .ok (x.text, expTrees p idxs) ⟨s, q⟩ := by
  have hname : Next (x.text ++ (idxsText idxs ++ s)) .var x.text (idxsText idxs ++ s) :=
    next_name x (endsWord_idxs idxs hs) (by simp [hne])
  have hlen := length_le_idxsText idxs
  simp only [List.length_append] at hn
  have hloop := idxs_run hidxs hnext hc (n := n) (q := q) [] (m := (p.depth n).fuel)
    (by simp only [List.length_append]; omega) (by rw [depth_fuel]; omega)
  unfold varBlock
  simp [scanType_run (hname.blanks hw), hloop]

/-- The loop over the blocks behind the first. -/
theorem next_run {bs : List (Name × List Exp)} (hbs : ∀ b ∈ bs, ∀ e ∈ b.2, Reads p e)
    (hnext : Next s c t r) (hdot : c ≠ .dot) (hlsb : c ≠ .lsb) (hs : EndsWord s) (hne : s ≠ [])
    (a : List (Text × List Node)) {m : Nat} (hn : (nextText bs ++ s).length ≤ n)
    (hm : bs.length < m) :
    (Back.iterate (varChainTurn (p.depth n)) m a).run ⟨nextText bs ++ s, q⟩ =
      .ok (a ++ nextTrees p bs) ⟨s, q⟩ := by
  induction bs generalizing a m with
  | nil =>
    obtain ⟨m, rfl⟩ : ∃ k, m = k + 1 := ⟨m - 1, by simp at hm; omega⟩
    refine Back.iterate_last ?_ m
    show (varChainTurn (p.depth n) a).run ⟨s, q⟩ = _
    unfold varChainTurn
    simp [sees_run hnext, hdot, nextTrees]
  | cons b bs ih =>
    obtain ⟨x, idxs⟩ := b
    obtain ⟨m, rfl⟩ : ∃ k, m = k + 1 := ⟨m - 1, by simp at hm; omega⟩
    have htext : nextText ((x, idxs) :: bs) ++ s =
        '.' :: (x.text ++ (idxsText idxs ++ (nextText bs ++ s))) := by
      simp [nextText]
    have hmark : Next ('.' :: (x.text ++ (idxsText idxs ++ (nextText bs ++ s)))) .dot ['.']
        (x.text ++ (idxsText idxs ++ (nextText bs ++ s))) :=
      next_single (m := ⟨.dot, ['.']⟩) (by decide) _
    obtain ⟨c', t', r', hnext', hc'⟩ : ∃ c t r, Next (nextText bs ++ s) c t r ∧ c ≠ .lsb := by
      cases bs with
      | nil => exact ⟨c, t, r, hnext, hlsb⟩
      | cons b bs =>
        obtain ⟨y, ys⟩ := b
        exact ⟨.dot, ['.'], _, next_single (m := ⟨.dot, ['.']⟩) (by decide) _, by decide⟩
    rw [htext] at hn ⊢
    have hidxs : ∀ e ∈ idxs, Reads p e := hbs (x, idxs) List.mem_cons_self
    have hblock := varBlock_run (q := q) (n := n) (x := x) blanks_nil hidxs hnext' hc'
      (endsWord_next bs hs) (by simp [hne]) (by simp only [List.length_cons] at hn; omega)
    have hstep : (varChainTurn (p.depth n) a).run
        ⟨'.' :: (x.text ++ (idxsText idxs ++ (nextText bs ++ s))), q⟩ =
        .ok (.inl (a ++ [(x.text, expTrees p idxs)])) ⟨nextText bs ++ s, q⟩ := by
      rw [List.nil_append] at hblock
      unfold varChainTurn
      simp [sees_run hmark, hblock]
    rw [Back.iterate_next hstep, ih (fun b hb => hbs b (List.mem_cons_of_mem _ hb)), nextTrees,
      List.append_assoc]
    · rfl
    · simp only [List.length_cons, List.length_append] at hn ⊢
      omega
    · simpa using hm

/-- The expressions inside a chain are read. -/
def ReadsBlocks (p : Parser) (idxs : List Exp) (next : List (Name × List Exp)) : Prop :=
  (∀ e ∈ idxs, Reads p e) ∧ ∀ b ∈ next, ∀ e ∈ b.2, Reads p e

/-- A variable chain. -/
theorem varChain_run {x : Name} {idxs : List Exp} {next : List (Name × List Exp)}
    (hw : Blanks w) (hblocks : ReadsBlocks p idxs next) (hnext : Next s c t r) (hdot : c ≠ .dot) (hlsb : c ≠ .lsb)
    (hs : EndsWord s) (hne : s ≠ [])
    (hn : (x.text ++ (idxsText idxs ++ (nextText next ++ s))).length ≤ n) :
    (p.varChain (p.depth n)).run ⟨w ++ (x.text ++ (idxsText idxs ++ (nextText next ++ s))), q⟩ =
      .ok ((Ref.chain x idxs next).tree p) ⟨s, q⟩ := by
  obtain ⟨c', t', r', hnext', hc'⟩ : ∃ c t r, Next (nextText next ++ s) c t r ∧ c ≠ .lsb := by
    cases next with
    | nil => exact ⟨c, t, r, hnext, hlsb⟩
    | cons b bs =>
      obtain ⟨y, ys⟩ := b
      exact ⟨.dot, ['.'], _, next_single (m := ⟨.dot, ['.']⟩) (by decide) _, by decide⟩
  have hblock := varBlock_run (q := q) (x := x) hw hblocks.1 hnext' hc' (endsWord_next next hs)
    (by simp [hne]) hn
  have hlen := length_le_nextText next
  simp only [List.length_append] at hn
  have hloop := next_run (q := q) (n := n) hblocks.2 hnext hdot hlsb hs hne [] (m := (p.depth n).fuel)
    (by simp only [List.length_append]; omega) (by rw [depth_fuel]; omega)
  unfold Parser.varChain
  simp [hblock, hloop, Ref.tree]

end Inside

/-! ## A chain as a type -/

section AsType

variable {u s' : Text} {g : Option (List TypeNode)}

/-- A name, of a package or not, is read as a type. -/
theorem allTypes_named (pkg : Option Name) (x : Name) (hw : Blanks w) (hu : EndsWord u) (hne : u ≠ [])
    (hdot : pkg = none → ∃ c t r, Next u c t r ∧ c ≠ .dot)
    (hg : (opt (genericCallParams (p.depth n))).run ⟨u, q⟩ = .ok g ⟨s', q⟩) :
    ∃ tp, (p.allTypes (p.depth n)).run ⟨w ++ (qualifier pkg ++ (x.text ++ u)), q⟩ = .ok tp ⟨s', q⟩ := by
  obtain ⟨t, r, hnext⟩ := next_qualified pkg x hu hne
  have hf : 0 < (p.depth n).fuel := by
    rw [depth_fuel]
    exact Nat.succ_pos n
  unfold Parser.allTypes
  have hnext' := hnext.blanks hw
  simp only [Back.bind_run, stars_none hnext' (by decide) hf, structType_none hnext' (by decide),
    interfaceType_none hnext' (by decide), basicTypes_named hw hu hdot hne hg, Back.orElse_run,
    Run.andThen_ok, Run.andThen_err]
  exact ⟨_, rfl⟩

/-- If no literal of a struct goes on behind the type, a chain is not one. -/
theorem structInit_named {pkg : Option Name} {x : Name} (hw : Blanks w) (hu : EndsWord u) (hne : u ≠ [])
    (hdot : pkg = none → ∃ c t r, Next u c t r ∧ c ≠ .dot)
    (hg : (opt (genericCallParams (p.depth n))).run ⟨u, q⟩ = .ok g ⟨s', q⟩)
    (hbody : ∀ tp, (structInitBody (p.depth n) tp).Refuses ⟨s', q⟩) :
    (p.structInit (p.depth n)).Refuses ⟨w ++ (qualifier pkg ++ (x.text ++ u)), q⟩ := by
  obtain ⟨tp, htp⟩ : ∃ tp, (p.allTypes (p.depth n)).run ⟨w ++ (qualifier pkg ++ (x.text ++ u)), q⟩ =
    .ok tp ⟨s', q⟩ := allTypes_named pkg x hw hu hne hdot hg
  unfold Parser.structInit
  exact Back.Refuses.after htp (hbody tp)

/-- Behind the type stands a token that neither arguments nor a literal begin with. -/
theorem structInit_stopped {pkg : Option Name} {x : Name} (hw : Blanks w) (hu : EndsWord u) (hne : u ≠ [])
    (hnext : Next u c t r) (hdot : pkg = none → c ≠ .dot) (hsm : c ≠ .sm) (hlb : c ≠ .lb) :
    (p.structInit (p.depth n)).Refuses ⟨w ++ (qualifier pkg ++ (x.text ++ u)), q⟩ :=
  structInit_named hw hu hne (fun h => ⟨c, t, r, hnext, hdot h⟩)
    (opt_of_err (genericCallParams_none hnext hsm)) fun tp => structInitBody_refuses hnext hlb tp

/-- A chain is no literal of a struct, if it is not like a type or nothing of a literal goes on
behind it. -/
theorem structInit_chain {x : Name} {idxs : List Exp} {next : List (Name × List Exp)}
    (hw : Blanks w) (hu : EndsWord u) (hne : u ≠ []) (hdot : ∃ c t r, Next u c t r ∧ c ≠ .dot)
    (hlike : likeType idxs next = true → ∃ g s',
      (opt (genericCallParams (p.depth n))).run ⟨u, q⟩ = .ok g ⟨s', q⟩ ∧
        ∀ tp, (structInitBody (p.depth n) tp).Refuses ⟨s', q⟩) :
    (p.structInit (p.depth n)).Refuses
      ⟨w ++ (x.text ++ (idxsText idxs ++ (nextText next ++ u))), q⟩ := by
  have hindexed : ∀ (pkg : Option Name) (y : Name) (e : Exp) (es : List Exp) (v : Text),
      (p.structInit (p.depth n)).Refuses
        ⟨w ++ (qualifier pkg ++ (y.text ++ (idxsText (e :: es) ++ v))), q⟩ := by
    intro pkg y e es v
    have hmark : Next (idxsText (e :: es) ++ v) .lsb ['['] (e.body ++ ']' :: idxsText es ++ v) := by
      rw [idxsText, List.cons_append]
      exact next_single (m := ⟨.lsb, ['[']⟩) (by decide) _
    exact structInit_stopped hw (endsWord_cons (by decide) _) (List.cons_ne_nil _ _) hmark
      (fun _ => by decide) (by decide) (by decide)
  cases idxs with
  | cons e es => exact hindexed none x e es _
  | nil =>
    cases next with
    | nil =>
      obtain ⟨g, s', hg, hbody⟩ := hlike rfl
      exact structInit_named hw (x := x) hu hne (fun _ : (none : Option Name) = none => hdot) hg hbody
    | cons b bs =>
      obtain ⟨y, ys⟩ := b
      have htext : x.text ++ (idxsText [] ++ (nextText ((y, ys) :: bs) ++ u)) =
          qualifier (some x) ++ (y.text ++ (idxsText ys ++ (nextText bs ++ u))) := by
        simp [idxsText, nextText, qualifier]
      rw [htext]
      cases ys with
      | cons e es => exact hindexed (some x) y e es _
      | nil =>
        cases bs with
        | nil =>
          obtain ⟨g, s', hg, hbody⟩ := hlike rfl
          exact structInit_named hw hu hne (by rintro ⟨⟩) hg hbody
        | cons b bs =>
          obtain ⟨z, zs⟩ := b
          have hmark : Next (nextText ((z, zs) :: bs) ++ u) .dot ['.']
              (z.text ++ (idxsText zs ++ nextText bs) ++ u) := by
            rw [nextText, List.cons_append]
            exact next_single (m := ⟨.dot, ['.']⟩) (by decide) _
          exact structInit_stopped hw (endsWord_cons (by decide) _) (List.cons_ne_nil _ _) hmark
            (by rintro ⟨⟩) (by decide) (by decide)

end AsType

end CalcLang.Parser
