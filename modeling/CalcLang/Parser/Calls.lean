import CalcLang.Parser.Chains

/-!
# Calls

A call is a chain with arguments behind it, and what is taken of its result is a call or a
chain again. `takeValExp` reads both, given that the expressions inside are read.
-/

namespace CalcLang.Parser

open CalcLang.Lex CalcLang.Lib

variable {p : Parser} {f : Rec} {w s r t : Text} {c : TokenType} {n q : Nat}

/-! ## Parameters -/

/-- Behind a parameter of a call. -/
theorem after_more (es : List Exp) (s : Text) :
    After p allOps (moreParamsText es ++ s) ∧ NoBody p (moreParamsText es ++ s) := by
  cases es with
  | nil => exact after_single (m := ⟨.rp, [')']⟩) (by decide) (by decide) s
  | cons e es =>
    exact after_single (m := ⟨.comma, [',']⟩) (by decide) (by decide)
      (' ' :: (e.body ++ moreParamsText es) ++ s)

/-- The loop over the parameters of a call. -/
theorem moreParams_run {es : List Exp} (hes : ∀ e ∈ es, Reads p e) (a : List Node) {m : Nat}
    (hn : (moreParamsText es ++ s).length ≤ n) (hm : es.length < m) :
    (Back.iterate (untilRpTurn (p.depth n).allexp) m a).run ⟨moreParamsText es ++ s, q⟩ =
      .ok (a ++ expTrees p es) ⟨s, q⟩ := by
  induction es generalizing a m with
  | nil =>
    obtain ⟨m, rfl⟩ : ∃ k, m = k + 1 := ⟨m - 1, by simp at hm; omega⟩
    have hmark : Next (')' :: s) .rp [')'] s := next_single (m := ⟨.rp, [')']⟩) (by decide) _
    refine Back.iterate_last ?_ m
    show (untilRpTurn _ a).run ⟨')' :: s, q⟩ = _
    unfold untilRpTurn
    simp [scanType_run hmark, expTrees]
  | cons e es ih =>
    obtain ⟨m, rfl⟩ : ∃ k, m = k + 1 := ⟨m - 1, by simp at hm; omega⟩
    obtain ⟨n, rfl⟩ : ∃ k, n = k + 1 := ⟨n - 1, by simp [moreParamsText] at hn; omega⟩
    have htext : moreParamsText (e :: es) ++ s = ',' :: ' ' :: (e.body ++ (moreParamsText es ++ s)) := by
      simp [moreParamsText]
    have hcomma : Next (',' :: ' ' :: (e.body ++ (moreParamsText es ++ s))) .comma [',']
        (' ' :: (e.body ++ (moreParamsText es ++ s))) :=
      next_single (m := ⟨.comma, [',']⟩) (by decide) _
    have he := hes e List.mem_cons_self [' '] (moreParamsText es ++ s) n q blanks_space
      (after_more es s).1 (fun _ => (after_more es s).2) (by
        rw [htext] at hn
        simp only [List.length_cons, List.length_append] at hn ⊢
        omega)
    have hstep : (untilRpTurn (p.depth (n + 1)).allexp a).run ⟨moreParamsText (e :: es) ++ s, q⟩ =
        .ok (.inl (a ++ [e.tree p])) ⟨moreParamsText es ++ s, q⟩ := by
      rw [htext]
      unfold untilRpTurn
      have he' : (p.allexp (p.depth n)).run ⟨' ' :: (e.body ++ (moreParamsText es ++ s)), q⟩ =
          .ok (e.tree p) ⟨moreParamsText es ++ s, q⟩ := he
      simp [scanType_run hcomma, depth_succ_allexp, he']
    rw [Back.iterate_next hstep, ih (fun e he => hes e (List.mem_cons_of_mem _ he)), expTrees,
      List.append_assoc]
    · rfl
    · rw [htext] at hn
      simp only [List.length_cons, List.length_append] at hn ⊢
      omega
    · simpa using hm

/-- The tokens an expression begins with. -/
def expStarts : List TokenType := [.int, .var, .plus, .sub, .lp]

/-- Where the arguments of a call begin. -/
theorem next_callArgs (gs : List Ty) (u : Text) : EndsWord (argsText gs ++ '(' :: u) ∧
    ∃ c t r, Next (argsText gs ++ '(' :: u) c t r ∧ c ≠ .dot ∧ c ≠ .lsb := by
  cases gs with
  | nil =>
    exact ⟨endsWord_cons (by decide) u, .lp, ['('], u,
      next_single (m := ⟨.lp, ['(']⟩) (by decide) u, by decide, by decide⟩
  | cons g gs =>
    have hsm := next_sm g (moreText gs ++ '(' :: u)
    rw [← List.append_assoc] at hsm
    exact ⟨endsWord_cons (by decide) _, .sm, ['<'], _, hsm, by decide, by decide⟩

theorem Ref.next (e : Ref) (hs : Stops s) : ∃ t r, Next (e.text ++ s) .var t r := by
  cases e with
  | chain x idxs next =>
    have htext : (Ref.chain x idxs next).text ++ s =
        x.text ++ (idxsText idxs ++ (nextText next ++ s)) := by
      simp [Ref.text]
    rw [htext]
    exact ⟨_, _, next_name x (endsWord_idxs idxs (endsWord_next next hs.word)) (by simp [hs.ne])⟩
  | call x idxs next gs params tail =>
    have htext : (Ref.call x idxs next gs params tail).text ++ s =
        x.text ++ (idxsText idxs ++ (nextText next ++
          (argsText gs ++ '(' :: (paramsText params ++ (tailText tail ++ s))))) := by
      simp [Ref.text]
    rw [htext]
    exact ⟨_, _, next_name x (endsWord_idxs idxs (endsWord_next next (next_callArgs gs _).1))
      (by simp)⟩

theorem Sign.next (op : Sign) : (∀ u, Next (op.char :: u) op.code [op.char] u) ∧
    (op.code = .plus ∨ op.code = .sub) := by
  cases op
  · exact ⟨fun u => next_single (m := ⟨.plus, ['+']⟩) (by decide) u, .inl rfl⟩
  · exact ⟨fun u => next_single (m := ⟨.sub, ['-']⟩) (by decide) u, .inr rfl⟩

/-- The first token of an expression. -/
theorem Exp.next : ∀ (e : Exp) {s : Text}, Stops s →
    ∃ c t r, Next (e.body ++ s) c t r ∧ c ∈ expStarts
  | .num n, s, hs => ⟨_, _, _, next_decimal n.toDecimal hs.num hs.ne, by decide⟩
  | .ref e, s, hs => by
    obtain ⟨t, r, hnext⟩ := e.next hs
    exact ⟨_, t, r, hnext, by decide⟩
  | .unary op child, s, hs => by
    exact ⟨_, _, _, op.next.1 _, by cases op <;> decide⟩
  | .bin op left right, s, hs => by
    have htext : (Exp.bin op left right).body ++ s = wrap (left.level < op.level) left.body ++
        (' ' :: (op.text ++ ' ' :: wrap (right.level < op.level + 1) right.body) ++ s) := by
      simp [Exp.body]
    rw [htext]
    cases decide (left.level < op.level) with
    | true => exact ⟨.lp, _, _, next_single (m := ⟨.lp, ['(']⟩) (by decide) _, by decide⟩
    | false => exact left.next ⟨' ', _, rfl, by decide⟩

/-- The parameters of a call. -/
theorem callParams_run {es : List Exp} (hes : ∀ e ∈ es, Reads p e)
    (hn : (paramsText es ++ s).length < n) :
    (callParams (p.depth n)).run ⟨paramsText es ++ s, q⟩ = .ok (expTrees p es) ⟨s, q⟩ := by
  unfold callParams
  cases es with
  | nil =>
    have hmark : Next (paramsText [] ++ s) .rp [')'] s :=
      next_single (m := ⟨.rp, [')']⟩) (by decide) s
    simp [scanType_run hmark, expTrees]
  | cons e es =>
    obtain ⟨n, rfl⟩ : ∃ k, n = k + 1 := ⟨n - 1, by omega⟩
    have htext : paramsText (e :: es) ++ s = e.body ++ (moreParamsText es ++ s) := by
      simp [paramsText]
    rw [htext] at hn ⊢
    obtain ⟨hafter, hbody⟩ := after_more (p := p) es s
    obtain ⟨c, t, r, hnext, hc⟩ := e.next hafter.stops
    have hrp : c ≠ .rp := by
      rintro rfl
      exact absurd hc (by decide)
    have he : (p.allexp (p.depth n)).run ⟨e.body ++ (moreParamsText es ++ s), q⟩ =
        .ok (e.tree p) ⟨moreParamsText es ++ s, q⟩ :=
      hes e List.mem_cons_self [] _ n q blanks_nil hafter (fun _ => hbody) (by omega)
    have hlen : es.length ≤ (moreParamsText es).length := by
      clear hn he hnext hafter hbody hes htext
      induction es with
      | nil => exact Nat.zero_le _
      | cons e es ih =>
        simp only [moreParamsText, List.length_cons, List.length_append]
        omega
    simp only [List.length_append] at hn
    have hmore := moreParams_run (q := q) (n := n + 1) (s := s)
      (fun e he => hes e (List.mem_cons_of_mem _ he)) [e.tree p] (m := (p.depth (n + 1)).fuel)
      (by simp only [List.length_append]; omega) (by rw [depth_fuel]; omega)
    unfold untilRp
    simp [scanType_run hnext, hrp, depth_succ_allexp, he, expTrees]
    exact hmore

/-- What is taken of a call's result is read, as a call or else as a chain. -/
def ReadsTail (p : Parser) (e : Ref) : Prop :=
  ∀ s n q, After p [] s → (e.text ++ s).length < n →
    (runWithCatch (p.depth n).callFunc <|> (p.varChain (p.depth n)).must).run ⟨e.text ++ s, q⟩ =
      .ok (e.tree p) ⟨s, q⟩

/-- The expressions inside a chain or a call are read. -/
def ReadsInside (p : Parser) : Ref → Prop
  | .chain _ idxs next => ReadsBlocks p idxs next
  | .call _ idxs next _ params tail =>
    ReadsBlocks p idxs next ∧ (∀ e ∈ params, Reads p e) ∧ ∀ e ∈ tail, ReadsTail p e

/-- A chain is no call. -/
theorem callFunc_chain {x : Name} {idxs : List Exp} {next : List (Name × List Exp)}
    (hw : Blanks w) (hblocks : ReadsBlocks p idxs next) (hs : After p [] s)
    (hn : (x.text ++ (idxsText idxs ++ (nextText next ++ s))).length ≤ n) :
    (p.callFunc (p.depth n)).Refuses
      ⟨w ++ (x.text ++ (idxsText idxs ++ (nextText next ++ s))), q⟩ := by
  obtain ⟨c, t, r, hnext, hc, -⟩ := hs.next
  simp only [List.mem_cons, List.not_mem_nil, or_false, not_or] at hc
  have hchain := varChain_run (q := q) (x := x) hw hblocks hnext hc.1 hc.2.1 hs.stops.word
    hs.stops.ne hn
  obtain ⟨e, hgenerics⟩ := hs.generics n q (by
    simp only [List.length_append] at hn
    omega)
  have hlp : ((scanType .lp).must).run ⟨s, q⟩ = .panic := by
    simp [scanType_run hnext, hc.2.2]
  have hmust : ((runWithCatch (p.varChain (p.depth n))).must).run
      ⟨w ++ (x.text ++ (idxsText idxs ++ (nextText next ++ s))), q⟩ =
      .ok ((Ref.chain x idxs next).tree p) ⟨s, q⟩ := by
    simp [runWithCatch_ok hchain]
  unfold Parser.callFunc
  exact Back.Refuses.after hmust
    (Back.Refuses.after (opt_of_err hgenerics) (Back.refuses_of_panic hlp).bind)

/-- The arguments of a call, also if there are none. -/
theorem generics_run (gs : List Ty) {u : Text} (hn : (argsText gs ++ '(' :: u).length ≤ n) :
    ∃ g, (opt (genericCallParams (p.depth n))).run ⟨argsText gs ++ '(' :: u, q⟩ =
      .ok g ⟨'(' :: u, q⟩ ∧ g.getD [] = trees p gs := by
  cases gs with
  | nil =>
    have hmark : Next ('(' :: u) .lp ['('] u := next_single (m := ⟨.lp, ['(']⟩) (by decide) u
    exact ⟨none, opt_of_err (genericCallParams_none hmark (by decide)), rfl⟩
  | cons g gs =>
    exact ⟨_, opt_of_ok (callParams_text p (g :: gs) (List.cons_ne_nil g gs) hn), rfl⟩

/-- What is taken of a call's result. -/
theorem callNext_run {tail : Option Ref} (htail : ∀ e ∈ tail, ReadsTail p e) (hs : After p [] s)
    (hn : (tailText tail ++ s).length < n) :
    (Back.iterate (p.callNextTurn (p.depth n)) (p.depth n).fuel none).run
      ⟨tailText tail ++ s, q⟩ = .ok (tailTree p tail) ⟨s, q⟩ := by
  obtain ⟨c, t, r, hnext, hc, -⟩ := hs.next
  simp only [List.mem_cons, List.not_mem_nil, or_false, not_or] at hc
  have hlast : ∀ a, (p.callNextTurn (p.depth n) a).run ⟨s, q⟩ = .ok (.inr a) ⟨s, q⟩ := by
    intro a
    unfold Parser.callNextTurn
    simp [sees_run hnext, hc.1]
  rw [depth_fuel]
  cases tail with
  | none => exact Back.iterate_last (hlast none) n
  | some e =>
    obtain ⟨n, rfl⟩ : ∃ k, n = k + 1 := ⟨n - 1, by omega⟩
    have hmark : Next ('.' :: (e.text ++ s)) .dot ['.'] (e.text ++ s) :=
      next_single (m := ⟨.dot, ['.']⟩) (by decide) _
    have htext : tailText (some e) ++ s = '.' :: (e.text ++ s) := by
      simp [tailText]
    rw [htext] at hn ⊢
    rw [List.length_cons] at hn
    have he := htail e rfl s (n + 1) q hs (by omega)
    have hturn : (p.callNextTurn (p.depth (n + 1)) none).run ⟨'.' :: (e.text ++ s), q⟩ =
        .ok (.inl (some (e.tree p))) ⟨s, q⟩ := by
      unfold Parser.callNextTurn
      rw [Back.bind_run, sees_run hmark (by decide), if_pos rfl, Run.andThen_ok, if_pos rfl,
        Back.bind_run, he]
      rfl
    rw [Back.iterate_next hturn]
    exact Back.iterate_last (hlast _) n

/-- A call. -/
theorem callFunc_call {x : Name} {idxs : List Exp} {next : List (Name × List Exp)} {gs : List Ty}
    {params : List Exp} {tail : Option Ref} (hw : Blanks w)
    (hin : ReadsInside p (.call x idxs next gs params tail)) (hs : After p [] s)
    (hn : ((Ref.call x idxs next gs params tail).text ++ s).length ≤ n) :
    (p.callFunc (p.depth n)).run ⟨w ++ ((Ref.call x idxs next gs params tail).text ++ s), q⟩ =
      .ok ((Ref.call x idxs next gs params tail).tree p) ⟨s, q⟩ := by
  obtain ⟨hblocks, hparams, htail⟩ := hin
  have htext : (Ref.call x idxs next gs params tail).text ++ s =
      x.text ++ (idxsText idxs ++ (nextText next ++
        (argsText gs ++ '(' :: (paramsText params ++ (tailText tail ++ s))))) := by
    simp [Ref.text]
  rw [htext] at hn ⊢
  obtain ⟨hword, c, t, r, hargs, hdot, hlsb⟩ := next_callArgs gs (paramsText params ++ (tailText tail ++ s))
  have hchain := varChain_run (q := q) (x := x) hw hblocks hargs hdot hlsb hword (by simp) hn
  simp only [List.length_append, List.length_cons] at hn
  obtain ⟨g, hgenerics, hg⟩ := generics_run (p := p) (n := n) (q := q) gs
    (u := paramsText params ++ (tailText tail ++ s)) (by
      simp only [List.length_append, List.length_cons]
      omega)
  have hmark : Next ('(' :: (paramsText params ++ (tailText tail ++ s))) .lp ['(']
      (paramsText params ++ (tailText tail ++ s)) := next_single (m := ⟨.lp, ['(']⟩) (by decide) _
  have hps := callParams_run (q := q) (n := n) (s := tailText tail ++ s) hparams (by
    simp only [List.length_append]
    omega)
  have hnext := callNext_run (q := q) (n := n) htail hs (by
    simp only [List.length_append]
    omega)
  unfold Parser.callFunc
  simp [runWithCatch_ok hchain, hgenerics, scanType_run hmark, hps, hnext, hg, Ref.tree]

theorem depth_succ_callFunc (p : Parser) (n : Nat) :
    (p.depth (n + 1)).callFunc = p.callFunc (p.depth n) := rfl

/-- What is taken of a call's result is read if its own expressions are. -/
theorem readsTail {e : Ref} (hin : ReadsInside p e) : ReadsTail p e := by
  intro s n q hs hn
  obtain ⟨n, rfl⟩ : ∃ k, n = k + 1 := ⟨n - 1, by omega⟩
  rw [depth_succ_callFunc]
  cases e with
  | chain x idxs next =>
    obtain ⟨c, t, r, hnext, hc, -⟩ := hs.next
    simp only [List.mem_cons, List.not_mem_nil, or_false, not_or] at hc
    have htext : (Ref.chain x idxs next).text ++ s =
        x.text ++ (idxsText idxs ++ (nextText next ++ s)) := by
      simp [Ref.text]
    rw [htext] at hn ⊢
    have hcall := callFunc_chain (q := q) (n := n) (x := x) blanks_nil hin hs (by omega)
    have hchain := varChain_run (q := q) (n := n + 1) (x := x) blanks_nil hin hnext hc.1 hc.2.1
      hs.stops.word hs.stops.ne (by omega)
    rw [List.nil_append] at hcall hchain
    rw [runWithCatch_orElse hcall, Back.must_run, hchain, Run.andThen_ok]
  | call x idxs next gs params tail =>
    have hcall := callFunc_call (q := q) (n := n) blanks_nil hin hs (by omega)
    rw [List.nil_append] at hcall
    exact orElse_ok (runWithCatch_ok hcall)

/-! ## Values -/

/-- A call is no literal of a struct. -/
theorem structInit_call {x : Name} {idxs : List Exp} {next : List (Name × List Exp)}
    {gs : List Ty} {u : Text} (hw : Blanks w)
    (hn : (argsText gs ++ '(' :: u).length ≤ n) :
    (p.structInit (p.depth n)).Refuses
      ⟨w ++ (x.text ++ (idxsText idxs ++ (nextText next ++ (argsText gs ++ '(' :: u)))), q⟩ := by
  obtain ⟨hword, c, t, r, hargs, hdot, -⟩ := next_callArgs gs u
  have hmark : Next ('(' :: u) .lp ['('] u := next_single (m := ⟨.lp, ['(']⟩) (by decide) u
  obtain ⟨g, hgenerics, -⟩ := generics_run (p := p) (q := q) gs hn
  exact structInit_chain hw hword (by simp) ⟨c, t, r, hargs, hdot⟩ fun _ =>
    ⟨g, _, hgenerics, structInitBody_refuses hmark (by decide)⟩

/-- A chain or a call is read as an operand. -/
theorem takeValExp_run {e : Ref} (hw : Blanks w) (hin : ReadsInside p e) (hs : After p [] s)
    (hlike : (Exp.ref e).endsLikeType 0 = true → NoBody p s) (hn : (e.text ++ s).length ≤ n) :
    (p.takeValExp (p.depth n)).run ⟨w ++ (e.text ++ s), q⟩ = .ok (e.tree p) ⟨s, q⟩ := by
  obtain ⟨t', r', hfirst⟩ := e.next hs.stops
  have hfirst' := hfirst.blanks hw
  have hlevel := stars_none (q := q) (f := p.depth n) hfirst' (by decide)
    (by rw [depth_fuel]; omega)
  have harray : (arrayInit (p.depth n)).Refuses ⟨w ++ (e.text ++ s), q⟩ := by
    unfold arrayInit
    exact (Back.refuses_of_err (arrayTypes_none hfirst' (by decide))).bind
  unfold Parser.takeValExp
  rw [Back.bind_run, hlevel, Run.andThen_ok, Back.bind_run, runWithCatch_orElse harray]
  -- the literal of a struct is tried first, then a call, then a chain
  cases e with
  | chain x idxs next =>
    obtain ⟨c, t, r, hnext, hc, -⟩ := hs.next
    simp only [List.mem_cons, List.not_mem_nil, or_false, not_or] at hc
    have htext : (Ref.chain x idxs next).text ++ s =
        x.text ++ (idxsText idxs ++ (nextText next ++ s)) := by
      simp [Ref.text]
    rw [htext] at hn ⊢
    obtain ⟨e, hgenerics⟩ := hs.generics n q (by
      simp only [List.length_append] at hn
      omega)
    have hstruct : (p.structInit (p.depth n)).Refuses
        ⟨w ++ (x.text ++ (idxsText idxs ++ (nextText next ++ s))), q⟩ :=
      structInit_chain hw hs.stops.word hs.stops.ne ⟨c, t, r, hnext, hc.1⟩ fun h =>
        ⟨none, s, opt_of_err hgenerics, fun tp => hlike h n q tp (by
          simp only [List.length_append] at hn
          omega)⟩
    have hchain := varChain_run (q := q) (x := x) hw hin hnext hc.1 hc.2.1 hs.stops.word
      hs.stops.ne hn
    rw [runWithCatch_orElse hstruct, runWithCatch_orElse (callFunc_chain hw hin hs hn),
      runWithCatch_ok hchain]
    rfl
  | call x idxs next gs params tail =>
    have hcall := callFunc_call (q := q) hw hin hs hn
    have htext : (Ref.call x idxs next gs params tail).text ++ s =
        x.text ++ (idxsText idxs ++ (nextText next ++
          (argsText gs ++ '(' :: (paramsText params ++ (tailText tail ++ s))))) := by
      simp [Ref.text]
    rw [htext] at hn hcall ⊢
    have hstruct : (p.structInit (p.depth n)).Refuses
        ⟨w ++ (x.text ++ (idxsText idxs ++ (nextText next ++
          (argsText gs ++ '(' :: (paramsText params ++ (tailText tail ++ s)))))), q⟩ :=
      structInit_call hw (by
        simp only [List.length_append, List.length_cons] at hn ⊢
        omega)
    rw [runWithCatch_orElse hstruct, orElse_ok (runWithCatch_ok hcall)]
    rfl

theorem varChain_refuses (h : Next s c t r) (hc : c ≠ .var) : (p.varChain f).Refuses ⟨s, q⟩ := by
  have hvar : (varBlock f).Refuses ⟨s, q⟩ := by
    unfold varBlock
    exact (scanType_refuses h (by decide) hc).bind
  unfold Parser.varChain
  exact hvar.bind

/-- What begins with none of the tokens of a type is no value. -/
theorem takeValExp_refuses (h : Next s c t r) (hres : IsResType t = none) (hc : c ∉ typeStarts)
    (hf : 0 < f.fuel) : (p.takeValExp f).Refuses ⟨s, q⟩ := by
  have htypes := allTypes_none (p := p) (q := q) h hres hc hf
  simp only [typeStarts, List.mem_cons, List.not_mem_nil, or_false, not_or] at hc
  obtain ⟨hmul, -, -, hvar, hlsb, -⟩ := hc
  have harray : (arrayInit f).Refuses ⟨s, q⟩ := by
    unfold arrayInit
    exact (Back.refuses_of_err (arrayTypes_none h hlsb)).bind
  have hstruct : (p.structInit f).Refuses ⟨s, q⟩ := by
    unfold Parser.structInit
    exact (Back.refuses_of_err htypes).bind
  have hchain : (p.varChain f).Refuses ⟨s, q⟩ := varChain_refuses h hvar
  have hcall : (p.callFunc f).Refuses ⟨s, q⟩ := by
    unfold Parser.callFunc
    exact (Back.refuses_of_panic (runWithCatch_refuses hchain).must).bind
  unfold Parser.takeValExp
  refine Back.Refuses.after (stars_none h hmul hf) (Back.Refuses.bind ?_)
  unfold Back.Refuses
  rw [runWithCatch_orElse harray, runWithCatch_orElse hstruct, runWithCatch_orElse hcall]
  exact runWithCatch_refuses hchain

end CalcLang.Parser
