import CalcLang.Parser.Headers

/-!
# Boolean chains

A `BoolChain` is a condition as it is written: comparisons, expressions, negations and conditions
in parentheses, with `&&` or `||` between them. `boolexp` does not go on behind the second operand,
as it calls `compare` for it and not itself.

Anything in parentheses is tried as an arithmetic expression first. The two agree on what is both
(`BoolChain.arith`), and otherwise the attempt fails, at the latest where it should find the closing
parenthesis.
-/

namespace CalcLang.Parser

open CalcLang.Lex CalcLang.Lib

variable {p : Parser} {f : Rec} {w s r t u : Text} {c : TokenType} {k n q : Nat}

/-! ## What is written -/

inductive BoolOp
  | and | or
  deriving DecidableEq

def BoolOp.code : BoolOp → TokenType
  | and => .and
  | or => .or

def BoolOp.text : BoolOp → Text
  | and => ['&', '&']
  | or => ['|', '|']

mutual

/-- What `boolean` reads. -/
inductive BoolPrim
  | exp (e : Exp)
  | const (b : Bool)
  | nil
  | not (b : BoolPrim)
  | paren (c : BoolChain)

/-- What `compare` reads. -/
inductive BoolOperand
  | prim (b : BoolPrim)
  | compare (op : CompareOp) (left right : BoolPrim)

/-- One operand or more. -/
inductive BoolChain
  | one (x : BoolOperand)
  | more (x : BoolOperand) (op : BoolOp) (c : BoolChain)

end

mutual

/-- A shift is put in parentheses. -/
def BoolPrim.text : BoolPrim → Text
  | .exp e => e.text 1
  | .const b => word (if b then .resTrue else .resFalse)
  | .nil => word .resNil
  | .not b => '!' :: b.text
  | .paren c => '(' :: (c.text ++ [')'])

def BoolOperand.text : BoolOperand → Text
  | .prim b => b.text
  | .compare op left right => left.text ++ ' ' :: (op.text ++ ' ' :: right.text)

def BoolChain.text : BoolChain → Text
  | .one x => x.text
  | .more x op c => x.text ++ ' ' :: (op.text ++ ' ' :: c.text)

end

/-- A chain goes on with another one. -/
def BoolChain.append : BoolChain → BoolOp → BoolChain → BoolChain
  | .one x, op, d => .more x op d
  | .more x op c, op', d => .more x op (c.append op' d)

mutual

/-- The tree of an operand. -/
inductive PrimTree (p : Parser) : BoolPrim → Node → Prop
  | exp (e : Exp) : PrimTree p (.exp e) (e.tree p)
  | const (b : Bool) : PrimTree p (.const b) (.bool b)
  | nil : PrimTree p .nil .nil
  | not {b : BoolPrim} {a : Node} : PrimTree p b a → PrimTree p (.not b) (.not a)
  | paren {c : BoolChain} {a : Node} : ChainTree p c a → PrimTree p (.paren c) a

inductive OperandTree (p : Parser) : BoolOperand → Node → Prop
  | prim {b : BoolPrim} {a : Node} : PrimTree p b a → OperandTree p (.prim b) a
  | compare {op : CompareOp} {left right : BoolPrim} {a b : Node} : PrimTree p left a →
      PrimTree p right b → OperandTree p (.compare op left right) (.compare op.code a b)

/-- A tree of all operands in their order, with the operators between them, whichever way they are
grouped. -/
inductive ChainTree (p : Parser) : BoolChain → Node → Prop
  | one {x : BoolOperand} {a : Node} : OperandTree p x a → ChainTree p (.one x) a
  | join {c d : BoolChain} {op : BoolOp} {a b : Node} : ChainTree p c a → ChainTree p d b →
      ChainTree p (c.append op d) (.boolExp op.code a b)

end

/-- In front of a newline `boolexp` reads all of the chain. -/
def BoolChain.Read (p : Parser) (c : BoolChain) : Prop :=
  ∀ s q n, (c.text ++ '\n' :: s).length ≤ n →
    ∃ a, (p.boolexp (p.depth n)).run ⟨c.text ++ '\n' :: s, q⟩ = .ok a ⟨'\n' :: s, q⟩ ∧
      ChainTree p c a

/-! ## Chains of two -/

def BoolChain.isOne : BoolChain → Bool
  | .one _ => true
  | .more _ _ _ => false

mutual

/-- No chain in parentheses has a third operand. -/
def BoolPrim.short : BoolPrim → Bool
  | .exp _ | .const _ | .nil => true
  | .not b => b.short
  | .paren c => c.short

def BoolOperand.short : BoolOperand → Bool
  | .prim b => b.short
  | .compare _ left right => left.short && right.short

/-- There are two operands at most, here and in parentheses. -/
def BoolChain.short : BoolChain → Bool
  | .one x => x.short
  | .more x _ c => x.short && c.isOne && c.short

end

mutual

/-- An arithmetic expression, in any number of parentheses. -/
def BoolPrim.arith : BoolPrim → Bool
  | .exp _ => true
  | .const _ | .nil | .not _ => false
  | .paren c => c.arith

def BoolChain.arith : BoolChain → Bool
  | .one (.prim b) => b.arith
  | .one (.compare _ _ _) | .more _ _ _ => false

end

/-! ## First tokens -/

section First

theorem next_boolOp (op : BoolOp) (s : Text) :
    Next (' ' :: (op.text ++ ' ' :: s)) op.code op.text (' ' :: s) := by
  intro q
  cases op <;> rfl

/-- No token but two begins with an equals sign. -/
theorem scan_equals (r : Text) (q : Nat) : ∃ c t r', Lexer.Scan ⟨'=' :: r, q⟩ = .token c t false ⟨r', q⟩ ∧
    c ∈ [.eq, .assign] := by
  have hscan : Lexer.Scan ⟨'=' :: r, q⟩ = scanMark q '=' '=' .eq .assign r := rfl
  rw [hscan]
  unfold scanMark
  split
  · exact ⟨_, _, _, rfl, by decide⟩
  · exact ⟨_, _, _, rfl, by decide⟩

theorem next_not (h : Next s c t r) (hc : c ∉ [.eq, .assign]) : Next ('!' :: s) .not ['!'] s := by
  have hne : s.head? ≠ some '=' := by
    intro heq
    obtain ⟨s', rfl⟩ : ∃ s', s = '=' :: s' := by
      cases s with
      | nil => cases heq
      | cons d s' => exact ⟨s', by rw [Option.some.inj heq]⟩
    obtain ⟨c', t', r', hscan, hc'⟩ := scan_equals s' 0
    obtain ⟨rfl, -⟩ := Scanned.token.inj ((h 0).symm.trans hscan)
    exact hc hc'
  intro q
  show scanMark q '!' '=' .neq .not s = _
  unfold scanMark
  rw [if_neg hne]

/-- The tokens that a condition begins with. -/
def boolStarts : List TokenType := [.resTrue, .resFalse, .resNil, .not] ++ expStarts

theorem Exp.next_text (e : Exp) (k : Nat) (hs : Stops u) :
    ∃ c t r, Next (e.text k ++ u) c t r ∧ c ∈ expStarts := by
  unfold Exp.text
  cases decide (e.level < k) with
  | true => exact ⟨.lp, _, _, next_single (m := ⟨.lp, ['(']⟩) (by decide) _, by decide⟩
  | false => exact e.next hs

theorem next_const (b : Bool) (hs : Stops u) :
    Next ((BoolPrim.const b).text ++ u) (if b then .resTrue else .resFalse) (BoolPrim.const b).text u := by
  cases b
  · exact next_word (w := (word .resFalse, .resFalse)) (by decide) hs.word hs.ne
  · exact next_word (w := (word .resTrue, .resTrue)) (by decide) hs.word hs.ne

theorem next_nil (hs : Stops u) : Next (BoolPrim.nil.text ++ u) .resNil BoolPrim.nil.text u :=
  next_word (w := (word .resNil, .resNil)) (by decide) hs.word hs.ne

theorem BoolPrim.next : ∀ (b : BoolPrim) {u : Text}, Stops u →
    ∃ c t r, Next (b.text ++ u) c t r ∧ c ∈ boolStarts
  | .exp e, u, hs => by
    obtain ⟨c, t, r, hnext, hc⟩ := e.next_text 1 hs
    exact ⟨c, t, r, hnext, List.mem_append_right _ hc⟩
  | .const b, u, hs => by
    refine ⟨_, _, _, next_const b hs, ?_⟩
    cases b <;> decide
  | .nil, u, hs => ⟨_, _, _, next_nil hs, by decide⟩
  | .not b, u, hs => by
    obtain ⟨c, t, r, hnext, hc⟩ := b.next hs
    refine ⟨.not, _, _, next_not hnext ?_, by decide⟩
    have hall : ∀ c ∈ boolStarts, c ∉ [TokenType.eq, .assign] := by decide
    exact hall c hc
  | .paren c, u, _ => ⟨_, _, _, next_single (m := ⟨.lp, ['(']⟩) (by decide) _, by decide⟩

end First

/-! ## Behind a comparison's operator -/

section NoArgs

theorem noArgs_next (h : Next s c t r) (hres : IsResType t = none) (hc : c ∉ typeStarts) :
    NoArgs p s := by
  intro w n q hw _
  exact .inl ⟨_, _, allTypes_none (h.blanks hw) hres hc (depth_pos p n)⟩

theorem noArgs_lp (s : Text) : NoArgs p ('(' :: s) :=
  noArgs_next (next_single (m := ⟨.lp, ['(']⟩) (by decide) s) (by decide) (by decide)

/-- The tokens that may end a type which is none, or go on with it. -/
def argEnds : List TokenType := [.sm, .dot, .lg, .leq, .shr, .comma]

theorem noArgs_ref (e : Ref) (hs : Stops u) (hnext : Next u c t r) (hc : c ∉ argEnds) :
    NoArgs p (e.text ++ u) := by
  simp only [argEnds, List.mem_cons, List.not_mem_nil, or_false, not_or] at hc
  cases e with
  | chain x idxs next =>
    refine noArgs_chain ⟨x, idxs, next⟩ hs.word hs.ne hnext (by simp [hc]) ?_
    intro n q _
    exact ⟨none, u, opt_of_err (genericCallParams_none hnext hc.1), c, t, r, hnext, by simp [hc]⟩
  | call x idxs next gs params tail =>
    have htext : (Ref.call x idxs next gs params tail).text ++ u =
        (Chain.mk x idxs next).ref.text ++
          (argsText gs ++ '(' :: (paramsText params ++ (tailText tail ++ u))) := by
      simp [Ref.text, Chain.ref]
    have hlp : ∀ v, Next ('(' :: v) .lp ['('] v := next_single (m := ⟨.lp, ['(']⟩) (by decide)
    obtain ⟨c', t', r', hargs, hc'⟩ : ∃ c t r,
        Next (argsText gs ++ '(' :: (paramsText params ++ (tailText tail ++ u))) c t r ∧
          c ∈ [.sm, .lp] := by
      cases gs with
      | nil => exact ⟨_, _, _, hlp _, by decide⟩
      | cons g gs =>
        have hsm := next_sm g (moreText gs ++ '(' :: (paramsText params ++ (tailText tail ++ u)))
        rw [← List.append_assoc] at hsm
        exact ⟨_, _, _, hsm, by decide⟩
    rw [htext]
    refine noArgs_chain _ (next_callArgs gs _).1 (by simp) hargs ?_ ?_
    · have hall : ∀ c ∈ [TokenType.sm, .lp], c ∉ [TokenType.dot, .lg, .leq, .shr, .comma] := by decide
      exact hall c' hc'
    · intro n q hn
      obtain ⟨g, hg, -⟩ := generics_run (p := p) (q := q) gs hn
      exact ⟨g, _, hg, _, _, _, hlp _, by decide⟩

/-- An expression that is not a shift. -/
theorem noArgs_exp : ∀ (e : Exp) {k : Nat} {u t r : Text} {c : TokenType}, 0 < k → Stops u →
    Next u c t r → c ∉ argEnds → NoArgs p (e.text k ++ u)
  | .num d, k, u, t, r, c, _, hs, hnext, hc => by
    unfold Exp.text
    cases decide ((Exp.num d).level < k) with
    | true => exact noArgs_lp _
    | false => exact noArgs_next (next_decimal d.toDecimal hs.num hs.ne) (isResType_none d.head) (by decide)
  | .ref e, k, u, t, r, c, _, hs, hnext, hc => by
    unfold Exp.text
    cases decide ((Exp.ref e).level < k) with
    | true => exact noArgs_lp _
    | false => exact noArgs_ref e hs hnext hc
  | .unary op child, k, u, t, r, c, _, hs, hnext, hc => by
    unfold Exp.text
    cases decide ((Exp.unary op child).level < k) with
    | true => exact noArgs_lp _
    | false =>
      refine noArgs_next (op.next.1 _) ?_ ?_
      · cases op <;> decide
      · cases op <;> decide
  | .bin op left right, k, u, t, r, c, hk, hs, hnext, hc => by
    by_cases hlt : op.level < k
    · have htext : (Exp.bin op left right).text k = '(' :: ((Exp.bin op left right).body ++ [')']) := by
        simp [Exp.text, Exp.level, hlt, wrap]
      rw [htext]
      exact noArgs_lp _
    · have htext : (Exp.bin op left right).text k ++ u = left.text op.level ++
          (' ' :: (op.text ++ ' ' :: (right.text (op.level + 1) ++ u))) := by
        simp [Exp.text, Exp.body, Exp.level, wrap, hlt]
      rw [htext]
      have hop := next_op op (right.text (op.level + 1) ++ u)
      refine noArgs_exp left (Nat.lt_of_lt_of_le hk (Nat.le_of_not_lt hlt)) ⟨' ', _, rfl, by decide⟩
        (hop.blanks blanks_space) ?_
      cases op
      case shl => exact absurd hk hlt
      case shr => exact absurd hk hlt
      all_goals decide

theorem noArgs_prim (b : BoolPrim) (hs : Stops u) (hnext : Next u c t r) (hc : c ∉ argEnds) :
    NoArgs p (b.text ++ u) := by
  cases b with
  | exp e => exact noArgs_exp e Nat.one_pos hs hnext hc
  | const b =>
    refine noArgs_next (next_const b hs) ?_ ?_
    · cases b <;> decide
    · cases b <;> decide
  | nil => exact noArgs_next (next_nil hs) (by decide) (by decide)
  | not b =>
    obtain ⟨c', t', r', hfirst, hc'⟩ := b.next hs
    have hall : ∀ c ∈ boolStarts, c ∉ [TokenType.eq, .assign] := by decide
    exact noArgs_next (next_not hfirst (hall c' hc')) (by decide) (by decide)
  | paren c => exact noArgs_lp _

end NoArgs

/-! ## As arithmetic expressions -/

section Arith

/-- The operand `x` reads ends where no operator of an expression is. -/
def PrimEnds (p : Parser) (u : Text) : Prop := After p (opsFrom 0) u ∧ NoBody p u

/-- An operand of a chain ends in front of `u`, where one of the tokens `cs` is. -/
def EndsAt (cs : List TokenType) (u : Text) : Prop := Stops u ∧ ∃ c t r, Next u c t r ∧ c ∈ cs

/-- What stands behind an operand. -/
def operandEnds : List TokenType := [.and, .or, .rp, .nl]

theorem EndsAt.mono {cs cs' : List TokenType} (h : EndsAt cs u) (hsub : cs ⊆ cs') : EndsAt cs' u := by
  obtain ⟨hs, c, t, r, hnext, hc⟩ := h
  exact ⟨hs, c, t, r, hnext, hsub hc⟩

theorem EndsAt.prim (h : EndsAt operandEnds u) : PrimEnds p u := by
  obtain ⟨⟨d, u, rfl, hd⟩, c, t, r, hnext, hc⟩ := h
  have hall : ∀ c ∈ operandEnds, c ∉ [TokenType.dot, .lsb, .lp, .sm] ∧ c ∉ opsFrom 0 ∧ c ≠ .lb := by
    decide
  obtain ⟨hgo, hops, hlb⟩ := hall c hc
  exact ⟨after_next hd hnext hgo hops, noBody_next hnext hlb⟩

theorem endsAt_boolOp (op : BoolOp) (s : Text) : EndsAt [.and, .or] (' ' :: (op.text ++ ' ' :: s)) := by
  refine ⟨⟨' ', _, rfl, by decide⟩, _, _, _, next_boolOp op s, ?_⟩
  cases op <;> decide

theorem endsAt_rp (s : Text) : EndsAt [.rp, .nl] (')' :: s) :=
  ⟨⟨')', s, rfl, by decide⟩, _, _, _, next_single (m := ⟨.rp, [')']⟩) (by decide) s, by decide⟩

theorem endsAt_nl (s : Text) : EndsAt [.rp, .nl] ('\n' :: s) :=
  ⟨⟨'\n', s, rfl, by decide⟩, _, _, _, next_single (m := ⟨.nl, ['\n']⟩) (by decide) s, by decide⟩

/-- The left side of a comparison ends in front of the operator. -/
theorem primEnds_compare (op : CompareOp) (b : BoolPrim) (h : EndsAt operandEnds u) :
    PrimEnds p (' ' :: (op.text ++ ' ' :: (b.text ++ u))) := by
  obtain ⟨hs, c, t, r, hnext, hc⟩ := h
  have hall : ∀ c ∈ operandEnds, c ∉ argEnds := by decide
  exact (noArgs_prim b hs hnext (hall c hc)).after_compare op

/-- Nothing is read at `s`, or what is behind it ends no chain. -/
def Unclosed (x : P Node) (s : Text) (q : Nat) : Prop :=
  x.Refuses ⟨s, q⟩ ∨ ∃ a v c t r, x.run ⟨s, q⟩ = .ok a ⟨v, q⟩ ∧ Next v c t r ∧ c ∉ [.rp, .nl]

/-- `exp` reads an expression that is not a shift, or a shift in parentheses. -/
theorem exp_run (e : Exp) (hw : Blanks w) (hu : PrimEnds p u) (hn : (e.text 1 ++ u).length ≤ n) :
    (p.exp (p.depth n)).run ⟨w ++ (e.text 1 ++ u), q⟩ = .ok (e.tree p) ⟨u, q⟩ := by
  obtain ⟨hafter, hbody⟩ := hu
  obtain ⟨c, t, r, hnext, -, hc⟩ := hafter.next
  have hadded : (levelParser p (p.depth n) 1).run ⟨w ++ (e.text 1 ++ u), q⟩ = .ok (e.tree p) ⟨u, q⟩ :=
    (e.readsLevels p).atLevel 1 (by decide) w u n q hw (hafter.mono (opsFrom_succ 0)) (fun _ => hbody) hn
  show (levelParser p (p.depth n) 0).run _ = _
  rw [levelParser_loop p _ (by decide), Back.bind_run, hadded, Run.andThen_ok, depth_fuel,
    levelLoop_last hnext fun hc' => hc (levelOps_subset 0 hc')]

/-- What `number` reads without a sign in front is what `exp` reads. -/
theorem exp_number {a : Node} (hfirst : Next s c t r) (hc : c ∉ [.plus, .sub])
    (ha : (p.number (p.depth n)).run ⟨s, q⟩ = .ok a ⟨u, q⟩) (hu : PrimEnds p u) :
    (p.exp (p.depth n)).run ⟨s, q⟩ = .ok a ⟨u, q⟩ := by
  simp only [List.mem_cons, List.not_mem_nil, or_false, not_or] at hc
  obtain ⟨c', t', r', hnext, -, hc'⟩ := hu.1.next
  have hsymbol : (levelParser p (p.depth n) 3).run ⟨s, q⟩ = .ok a ⟨u, q⟩ := by
    show (p.symbol (p.depth n)).run ⟨s, q⟩ = _
    unfold symbol
    simp [scan_run hfirst, hc.1, hc.2, ha]
  -- no operator of any level is behind it
  have hlevel : ∀ k, k < 3 → (levelParser p (p.depth n) (k + 1)).run ⟨s, q⟩ = .ok a ⟨u, q⟩ →
      (levelParser p (p.depth n) k).run ⟨s, q⟩ = .ok a ⟨u, q⟩ := by
    intro k hk h
    have hops : levelOps k ⊆ opsFrom 0 := by
      obtain rfl | rfl | rfl : k = 0 ∨ k = 1 ∨ k = 2 := by omega
      all_goals decide
    rw [levelParser_loop p _ hk, Back.bind_run, h, Run.andThen_ok, depth_fuel,
      levelLoop_last hnext fun hmem => hc' (hops hmem)]
  exact hlevel 0 (by decide) (hlevel 1 (by decide) (hlevel 2 (by decide) hsymbol))

theorem exp_number_refuses (hfirst : Next s c t r) (hc : c ∉ [.plus, .sub])
    (h : (p.number f).Refuses ⟨s, q⟩) : (p.exp f).Refuses ⟨s, q⟩ := by
  simp only [List.mem_cons, List.not_mem_nil, or_false, not_or] at hc
  have hsymbol : (p.symbol f).Refuses ⟨s, q⟩ := by
    unfold Back.Refuses symbol
    rw [Back.bind_run, Back.here_run, Run.andThen_ok, Back.bind_run, scan_run hfirst, Run.andThen_ok]
    simp only [Bool.false_eq_true, if_false, hc.1, hc.2, or_self, Back.bind_run, Back.goback_run,
      Run.andThen_ok]
    exact h
  unfold Parser.exp addedFactor factor leftAssoc
  exact hsymbol.bind.bind.bind

theorem next_lp (hw : Blanks w) (s : Text) : Next (w ++ '(' :: s) .lp ['('] s :=
  Next.blanks (next_single (m := ⟨.lp, ['(']⟩) (by decide) s) hw

/-- An expression in parentheses. -/
theorem exp_parens {a : Node} (hw : Blanks w)
    (ha : (p.exp (p.depth n)).run ⟨s, q⟩ = .ok a ⟨')' :: u, q⟩) (hu : PrimEnds p u) :
    (p.exp (p.depth (n + 1))).run ⟨w ++ '(' :: s, q⟩ = .ok a ⟨u, q⟩ := by
  have hopen := next_lp hw s
  have hclose : Next (')' :: u) .rp [')'] u := next_single (m := ⟨.rp, [')']⟩) (by decide) u
  have ha' : (p.depth (n + 1)).exp.run ⟨s, q⟩ = .ok a ⟨')' :: u, q⟩ := ha
  refine exp_number hopen (by decide) ?_ hu
  rw [number_literal hopen (by decide) (by decide) (depth_pos p _)]
  unfold literal
  simp [scan_run hopen, scanType_run hopen, ha', scanType_run hclose]

theorem exp_parens_refuses (hw : Blanks w) (h : Unclosed (p.exp (p.depth n)) s q) :
    (p.exp (p.depth (n + 1))).Refuses ⟨w ++ '(' :: s, q⟩ := by
  have hopen := next_lp hw s
  refine exp_number_refuses hopen (by decide) ?_
  unfold Back.Refuses
  rw [number_literal hopen (by decide) (by decide) (depth_pos p _)]
  have hrest : ((p.depth (n + 1)).exp >>= fun i => (scanType .rp).must >>= fun _ =>
      (pure i : P Node)).Refuses ⟨s, q⟩ := by
    rcases h with h | ⟨a, v, c, t, r, ha, hnext, hc⟩
    · exact Back.Refuses.bind h
    · refine Back.Refuses.after ha (Back.Refuses.bind (Back.refuses_of_panic ?_))
      exact (scanType_refuses hnext (by decide) (fun heq => hc (by simp [heq]))).must
  have hliteral : (literal (p.depth (n + 1))).run ⟨w ++ '(' :: s, q⟩ =
      ((p.depth (n + 1)).exp >>= fun i => (scanType .rp).must >>= fun _ =>
        (pure i : P Node)).run ⟨s, q⟩ := by
    unfold literal
    simp [scan_run hopen, scanType_run hopen]
  rw [hliteral]
  exact hrest

/-- What is no arithmetic expression in any way. -/
theorem exp_none (h : Next s c t r) (hres : IsResType t = none)
    (hc : c ∈ [.resTrue, .resFalse, .resNil, .not]) : (p.exp (p.depth n)).Refuses ⟨s, q⟩ := by
  have hall : ∀ c ∈ [TokenType.resTrue, .resFalse, .resNil, .not],
      c ∉ TokenType.plus :: .sub :: .int :: .float :: .lp :: .str :: typeStarts := by decide
  exact exp_refuses h hres (hall c hc) (depth_pos p n)

theorem BoolOperand.compare_text (op : CompareOp) (left right : BoolPrim) (u : Text) :
    (BoolOperand.compare op left right).text ++ u =
      left.text ++ (' ' :: (op.text ++ ' ' :: (right.text ++ u))) := by
  simp [BoolOperand.text]

theorem BoolChain.more_text (x : BoolOperand) (op : BoolOp) (c : BoolChain) (u : Text) :
    (BoolChain.more x op c).text ++ u = x.text ++ (' ' :: (op.text ++ ' ' :: (c.text ++ u))) := by
  simp [BoolChain.text]

theorem BoolPrim.paren_text (c : BoolChain) (u : Text) :
    (BoolPrim.paren c).text ++ u = '(' :: (c.text ++ ')' :: u) := by
  simp [BoolPrim.text]

/-- An operand, tried as an arithmetic expression. -/
def BoolPrim.Tried (p : Parser) (b : BoolPrim) : Prop :=
  ∀ w u n q, Blanks w → PrimEnds p u → (b.text ++ u).length ≤ n →
    (b.arith = true → ∃ a, (p.exp (p.depth n)).run ⟨w ++ (b.text ++ u), q⟩ = .ok a ⟨u, q⟩ ∧
      PrimTree p b a) ∧
    (b.arith = false → (p.exp (p.depth n)).Refuses ⟨w ++ (b.text ++ u), q⟩)

/-- A chain in parentheses, tried as one. -/
def BoolChain.Tried (p : Parser) (c : BoolChain) : Prop :=
  ∀ u n q, (c.text ++ ')' :: u).length ≤ n →
    (c.arith = true → ∃ a, (p.exp (p.depth n)).run ⟨c.text ++ ')' :: u, q⟩ = .ok a ⟨')' :: u, q⟩ ∧
      ChainTree p c a) ∧
    (c.arith = false → Unclosed (p.exp (p.depth n)) (c.text ++ ')' :: u) q)

/-- Something that no parenthesis closes is behind the operand. -/
theorem BoolPrim.Tried.unclosed {b : BoolPrim} (h : b.Tried p) (hu : PrimEnds p u)
    (hnext : Next u c t r) (hc : c ∉ [.rp, .nl]) (hn : (b.text ++ u).length ≤ n) :
    Unclosed (p.exp (p.depth n)) (b.text ++ u) q := by
  obtain ⟨harith, hno⟩ := h [] u n q blanks_nil hu hn
  cases hb : b.arith with
  | true =>
    obtain ⟨a, ha, -⟩ := harith hb
    exact .inr ⟨a, u, c, t, r, ha, hnext, hc⟩
  | false => exact .inl (hno hb)

theorem compare_unclosed {op : CompareOp} {left right : BoolPrim} (h : left.Tried p)
    (hu : EndsAt operandEnds u) (hn : ((BoolOperand.compare op left right).text ++ u).length ≤ n) :
    Unclosed (p.exp (p.depth n)) ((BoolOperand.compare op left right).text ++ u) q := by
  rw [BoolOperand.compare_text] at hn ⊢
  refine h.unclosed (primEnds_compare op right hu) (next_compare op _) ?_ hn
  cases op <;> decide

mutual

theorem BoolPrim.tried (p : Parser) : ∀ b : BoolPrim, b.Tried p
  | .exp e => by
    intro w u n q hw hu hn
    exact ⟨fun _ => ⟨_, exp_run e hw hu hn, .exp e⟩, fun h => Bool.noConfusion h⟩
  | .const b => by
    intro w u n q hw hu _
    refine ⟨fun h => Bool.noConfusion h, fun _ => exp_none ((next_const b hu.1.stops).blanks hw) ?_ ?_⟩
    · cases b <;> decide
    · cases b <;> decide
  | .nil => by
    intro w u n q hw hu _
    exact ⟨fun h => Bool.noConfusion h,
      fun _ => exp_none ((next_nil hu.1.stops).blanks hw) (by decide) (by decide)⟩
  | .not b => by
    intro w u n q hw hu _
    obtain ⟨c, t, r, hfirst, hc⟩ := b.next hu.1.stops
    have hall : ∀ c ∈ boolStarts, c ∉ [TokenType.eq, .assign] := by decide
    exact ⟨fun h => Bool.noConfusion h,
      fun _ => exp_none ((next_not hfirst (hall c hc)).blanks hw) (by decide) (by decide)⟩
  | .paren c => by
    intro w u n q hw hu hn
    rw [BoolPrim.paren_text, List.length_cons] at hn
    rw [BoolPrim.paren_text]
    obtain ⟨n, rfl⟩ : ∃ k, n = k + 1 := ⟨n - 1, by omega⟩
    obtain ⟨harith, hno⟩ := c.tried p u n q (Nat.le_of_succ_le_succ hn)
    refine ⟨?_, fun h => exp_parens_refuses hw (hno h)⟩
    intro h
    obtain ⟨a, ha, htree⟩ := harith h
    exact ⟨a, exp_parens hw ha hu, .paren htree⟩

theorem BoolChain.tried (p : Parser) : ∀ c : BoolChain, c.Tried p
  | .one (.prim b) => by
    intro u n q hn
    obtain ⟨harith, hno⟩ := b.tried p [] (')' :: u) n q blanks_nil
      ((endsAt_rp u).mono (by decide)).prim hn
    refine ⟨?_, fun h => .inl (hno h)⟩
    intro h
    obtain ⟨a, ha, htree⟩ := harith h
    exact ⟨a, ha, .one (.prim htree)⟩
  | .one (.compare op left right) => by
    intro u n q hn
    exact ⟨fun h => Bool.noConfusion h,
      fun _ => compare_unclosed (left.tried p) ((endsAt_rp u).mono (by decide)) hn⟩
  | .more (.prim b) op c => by
    intro u n q hn
    have hop := endsAt_boolOp op (c.text ++ ')' :: u)
    rw [BoolChain.more_text] at hn ⊢
    refine ⟨fun h => Bool.noConfusion h, fun _ => (b.tried p).unclosed (hop.mono (by decide)).prim
      (next_boolOp op _) ?_ hn⟩
    cases op <;> decide
  | .more (.compare cop left right) op c => by
    intro u n q hn
    have hop := endsAt_boolOp op (c.text ++ ')' :: u)
    rw [BoolChain.more_text] at hn ⊢
    exact ⟨fun h => Bool.noConfusion h,
      fun _ => compare_unclosed (left.tried p) (hop.mono (by decide)) hn⟩

end

end Arith

/-! ## As conditions -/

section Booleans

mutual

theorem BoolPrim.short_of_arith : ∀ b : BoolPrim, b.arith = true → b.short = true
  | .exp _, _ => rfl
  | .const _, _ => rfl
  | .nil, _ => rfl
  | .not _, h => Bool.noConfusion h
  | .paren c, h => c.short_of_arith h

theorem BoolChain.short_of_arith : ∀ c : BoolChain, c.arith = true → c.short = true
  | .one (.prim b), h => b.short_of_arith h
  | .one (.compare _ _ _), h => Bool.noConfusion h
  | .more _ _ _, h => Bool.noConfusion h

end

/-- `boolean` reads an operand, if no chain inside has a third one. -/
def BoolPrim.Reads (p : Parser) (b : BoolPrim) : Prop :=
  ∀ w u n q, Blanks w → PrimEnds p u → (b.text ++ u).length ≤ n →
    (b.short = true → ∃ a, (p.boolean (p.depth n)).run ⟨w ++ (b.text ++ u), q⟩ = .ok a ⟨u, q⟩ ∧
      PrimTree p b a) ∧
    (b.short = false → (p.boolean (p.depth n)).Refuses ⟨w ++ (b.text ++ u), q⟩)

/-- So does `compare`. -/
def BoolOperand.Reads (p : Parser) (x : BoolOperand) : Prop :=
  ∀ w u n q, Blanks w → EndsAt operandEnds u → (x.text ++ u).length ≤ n →
    (x.short = true → ∃ a, (p.compare (p.depth n)).run ⟨w ++ (x.text ++ u), q⟩ = .ok a ⟨u, q⟩ ∧
      OperandTree p x a) ∧
    (x.short = false → (p.compare (p.depth n)).Refuses ⟨w ++ (x.text ++ u), q⟩)

/-- And `boolexp`, which leaves a third operand. -/
def BoolChain.Reads (p : Parser) (c : BoolChain) : Prop :=
  ∀ u n q, EndsAt [.rp, .nl] u → (c.text ++ u).length ≤ n →
    (c.short = true → ∃ a, (p.boolexp (p.depth n)).run ⟨c.text ++ u, q⟩ = .ok a ⟨u, q⟩ ∧
      ChainTree p c a) ∧
    (c.short = false → Unclosed (p.boolexp (p.depth n)) (c.text ++ u) q)

theorem nilExp_none (h : Next s c t r) (hc : c ≠ .resNil) :
    nilExp.run ⟨s, q⟩ = .err .type ⟨s, q⟩ := by
  unfold nilExp
  simp [scanType_run h, hc]

/-- What `boolean` does with what is no arithmetic expression, up to the token. -/
theorem boolean_rest (h : Next s c t r) (hc : c ∉ [.resTrue, .resFalse, .resNil])
    (hexp : (p.exp f).Refuses ⟨s, q⟩) : (p.boolean f).run ⟨s, q⟩ =
      ((if c = .not then do
          let node ← f.boolean
          pure (.not node)
        else if c = .lp then do
          let node ← f.boolexp
          let _ ← scanType .rp
          pure node
        else Back.throw .other : P Node).run ⟨r, q⟩).andThen .ok (fun e _ => .err e ⟨s, q⟩) .panic := by
  simp only [List.mem_cons, List.not_mem_nil, or_false, not_or] at hc
  unfold Parser.boolean
  rw [Back.rewinding_run, Back.bind_run, sees_false h (by decide) hc.1, Run.andThen_ok,
    if_neg Bool.false_ne_true, Back.bind_run, sees_false h (by decide) hc.2.1, Run.andThen_ok,
    if_neg Bool.false_ne_true, runWithCatch_orElse hexp, Back.orElse_run, nilExp_none h hc.2.2,
    Run.andThen_err, Back.bind_run, scan_run h, Run.andThen_ok]
  rfl

theorem refuses_rewound {x y : P Node} {l l' : Lexer}
    (h : y.run l = (x.run l').andThen .ok (fun e _ => .err e l) .panic) (hx : x.Refuses l') :
    y.Refuses l := by
  rcases hx with hx | ⟨e, l'', hx⟩
  · exact .inl (by rw [h, hx, Run.andThen_panic])
  · exact .inr ⟨e, l, by rw [h, hx, Run.andThen_err]⟩

theorem boolean_const (b : Bool) (hw : Blanks w) (hs : Stops u) :
    (p.boolean f).run ⟨w ++ ((BoolPrim.const b).text ++ u), q⟩ = .ok (.bool b) ⟨u, q⟩ := by
  have hnext := (next_const b hs).blanks hw
  unfold Parser.boolean
  cases b
  · simp [sees_run hnext]
  · simp [sees_run hnext]

theorem boolean_nil (hw : Blanks w) (hs : Stops u) :
    (p.boolean (p.depth n)).run ⟨w ++ (BoolPrim.nil.text ++ u), q⟩ = .ok .nil ⟨u, q⟩ := by
  have hnext := (next_nil hs).blanks hw
  have hexp : (p.exp (p.depth n)).Refuses ⟨w ++ (BoolPrim.nil.text ++ u), q⟩ :=
    exp_none hnext (by decide) (by decide)
  have hnil : nilExp.run ⟨w ++ (BoolPrim.nil.text ++ u), q⟩ = .ok .nil ⟨u, q⟩ := by
    unfold nilExp
    simp [scanType_run hnext]
  unfold Parser.boolean
  rw [Back.rewinding_run, Back.bind_run, sees_false hnext (by decide) (by decide), Run.andThen_ok,
    if_neg Bool.false_ne_true, Back.bind_run, sees_false hnext (by decide) (by decide), Run.andThen_ok,
    if_neg Bool.false_ne_true, runWithCatch_orElse hexp, orElse_ok hnil, Run.andThen_ok]

/-- A negation. -/
theorem boolean_not (h : Next s .not ['!'] r) : (p.boolean (p.depth (n + 1))).run ⟨s, q⟩ =
    ((p.boolean (p.depth n) >>= fun a => pure (.not a) : P Node).run ⟨r, q⟩).andThen .ok
      (fun e _ => .err e ⟨s, q⟩) .panic :=
  boolean_rest h (by decide) (exp_none h (by decide) (by decide))

/-- Parentheses around what is no arithmetic expression. -/
theorem boolean_parens (hw : Blanks w) (hexp : Unclosed (p.exp (p.depth n)) s q) :
    (p.boolean (p.depth (n + 1))).run ⟨w ++ '(' :: s, q⟩ =
      ((p.boolexp (p.depth n) >>= fun a => scanType .rp >>= fun _ => pure a : P Node).run
        ⟨s, q⟩).andThen .ok (fun e _ => .err e ⟨w ++ '(' :: s, q⟩) .panic :=
  boolean_rest (next_lp hw s) (by decide) (exp_parens_refuses hw hexp)

theorem compare_refuses {l : Lexer} (h : (p.boolean f).Refuses l) : (p.compare f).Refuses l := by
  unfold Parser.compare
  exact (runWithCatch_refuses h).bind.rewinding

/-- The right side of a comparison. -/
theorem compare_refuses_right {l : Lexer} {a : Node} {op : CompareOp} {v : Text}
    (ha : (p.boolean f).run l = .ok a ⟨' ' :: (op.text ++ ' ' :: v), q⟩)
    (h : (p.boolean f).Refuses ⟨' ' :: v, q⟩) (hf : 0 < f.fuel) : (p.compare f).Refuses l := by
  obtain ⟨m, hm⟩ : ∃ m, f.fuel = m + 1 := ⟨f.fuel - 1, by omega⟩
  have hop : compareOps.contains op.code = true := by
    cases op <;> decide
  have hturn : (p.compareTurn f a).Refuses ⟨' ' :: (op.text ++ ' ' :: v), q⟩ := by
    unfold compareTurn
    refine Back.Refuses.after Back.here_run (Back.Refuses.after (scan_run (next_compare op v)) ?_)
    simp only [Bool.false_eq_true, if_false, if_pos hop]
    exact (runWithCatch_refuses h).bind
  unfold Parser.compare
  refine (Back.Refuses.after (runWithCatch_ok ha) ?_).rewinding
  rw [hm]
  exact hturn.iterate m

theorem bitOp_run {l : Lexer} {a : Node} (ha : (p.compare f).run l = .ok a ⟨s, q⟩) (h : Next s c t r)
    (hc : c ∉ [.bitOr, .esp, .bitXor]) (hf : 0 < f.fuel) : (p.bitOp f).run l = .ok a ⟨s, q⟩ := by
  obtain ⟨m, hm⟩ : ∃ m, f.fuel = m + 1 := ⟨f.fuel - 1, by omega⟩
  unfold bitOp
  rw [Back.rewinding_run, Back.bind_run, ha, Run.andThen_ok, hm,
    Back.iterate_last (bitOpTurn_last h hc a) m, Run.andThen_ok]

theorem boolexp_refuses {l : Lexer} (h : (p.compare f).Refuses l) : (p.boolexp f).Refuses l := by
  unfold Parser.boolexp bitOp
  exact h.bind.rewinding.bind.rewinding

/-- The operand behind `&&` or `||` is read by `compare`. -/
theorem boolexp_two {l : Lexer} {a : Node} {op : BoolOp} {v : Text}
    (ha : (p.compare f).run l = .ok a ⟨' ' :: (op.text ++ ' ' :: v), q⟩) (hf : 0 < f.fuel) :
    (p.boolexp f).run l = ((p.compare f >>= fun b => pure (.boolExp op.code a b) : P Node).run
      ⟨' ' :: v, q⟩).andThen .ok (fun e _ => .err e l) .panic := by
  have hnext := next_boolOp op v
  have hcode : op.code = .and ∨ op.code = .or := by
    cases op
    · exact .inl rfl
    · exact .inr rfl
  have hbit : (p.bitOp f).run l = .ok a ⟨' ' :: (op.text ++ ' ' :: v), q⟩ := by
    refine bitOp_run ha hnext ?_ hf
    cases op <;> decide
  unfold Parser.boolexp
  rw [Back.rewinding_run, Back.bind_run, hbit, Run.andThen_ok, Back.bind_run, Back.here_run,
    Run.andThen_ok, Back.bind_run, scan_run hnext, Run.andThen_ok]
  simp only [Bool.false_eq_true, if_false, if_pos hcode]

mutual

theorem BoolPrim.reads (p : Parser) : ∀ b : BoolPrim, b.Reads p
  | .exp e => by
    intro w u n q hw hu hn
    obtain ⟨c, t, r, hfirst, hc⟩ := e.next_text 1 hu.1.stops
    have hall : ∀ c ∈ expStarts, c ∉ [TokenType.resTrue, .resFalse] := by decide
    refine ⟨fun _ => ⟨_, ?_, .exp e⟩, fun h => Bool.noConfusion h⟩
    exact boolean_run (hfirst.blanks hw) (hall c hc) (exp_run e hw hu hn)
  | .const b => by
    intro w u n q hw hu _
    exact ⟨fun _ => ⟨_, boolean_const b hw hu.1.stops, .const b⟩, fun h => Bool.noConfusion h⟩
  | .nil => by
    intro w u n q hw hu _
    exact ⟨fun _ => ⟨_, boolean_nil hw hu.1.stops, .nil⟩, fun h => Bool.noConfusion h⟩
  | .not b => by
    intro w u n q hw hu hn
    obtain ⟨c, t, r, hfirst, hc⟩ := b.next hu.1.stops
    have hall : ∀ c ∈ boolStarts, c ∉ [TokenType.eq, .assign] := by decide
    have hnot : Next (w ++ ((BoolPrim.not b).text ++ u)) .not ['!'] (b.text ++ u) :=
      (next_not hfirst (hall c hc)).blanks hw
    have hlen : (BoolPrim.not b).text ++ u = '!' :: (b.text ++ u) := rfl
    rw [hlen, List.length_cons] at hn
    obtain ⟨n, rfl⟩ : ∃ k, n = k + 1 := ⟨n - 1, by omega⟩
    have hrun := boolean_not (p := p) (n := n) (q := q) hnot
    obtain ⟨hshort, hlong⟩ := b.reads p [] u n q blanks_nil hu (Nat.le_of_succ_le_succ hn)
    refine ⟨?_, fun h => refuses_rewound hrun (hlong h).bind⟩
    intro h
    obtain ⟨a, ha, htree⟩ := hshort h
    rw [List.nil_append] at ha
    exact ⟨_, by rw [hrun, Back.bind_run, ha]; rfl, .not htree⟩
  | .paren c => by
    intro w u n q hw hu hn
    rw [BoolPrim.paren_text, List.length_cons] at hn
    rw [BoolPrim.paren_text]
    obtain ⟨n, rfl⟩ : ∃ k, n = k + 1 := ⟨n - 1, by omega⟩
    replace hn := Nat.le_of_succ_le_succ hn
    obtain ⟨harith, hno⟩ := c.tried p u n q hn
    -- `exp` comes first and takes the parentheses of an arithmetic expression
    cases hc : c.arith with
    | true =>
      obtain ⟨a, ha, htree⟩ := harith hc
      have hshort : c.short = true := c.short_of_arith hc
      refine ⟨fun _ => ⟨a, ?_, .paren htree⟩, fun h => Bool.noConfusion (hshort.symm.trans h)⟩
      exact boolean_run (next_lp hw _) (by decide) (exp_parens hw ha hu)
    | false =>
      have hrun := boolean_parens hw (hno hc)
      have hclose : Next (')' :: u) .rp [')'] u := next_single (m := ⟨.rp, [')']⟩) (by decide) u
      obtain ⟨hshort, hlong⟩ := c.reads p (')' :: u) n q (endsAt_rp u) hn
      refine ⟨?_, ?_⟩
      · intro h
        obtain ⟨a, ha, htree⟩ := hshort h
        refine ⟨a, ?_, .paren htree⟩
        rw [hrun, Back.bind_run, ha, Run.andThen_ok, Back.bind_run, scanType_run hclose (by decide)]
        rfl
      · intro h
        refine refuses_rewound hrun ?_
        rcases hlong h with href | ⟨a, v, c', t, r, ha, hnext, hc'⟩
        · exact href.bind
        · refine Back.Refuses.after ha (scanType_refuses hnext (by decide) ?_).bind
          intro heq
          exact hc' (by simp [heq])

theorem BoolOperand.reads (p : Parser) : ∀ x : BoolOperand, x.Reads p
  | .prim b => by
    intro w u n q hw hu hn
    obtain ⟨hshort, hlong⟩ := b.reads p w u n q hw hu.prim hn
    obtain ⟨hs, c, t, r, hnext, hc⟩ := hu
    have hall : ∀ c ∈ operandEnds, c ∉ compareOps := by decide
    refine ⟨?_, fun h => compare_refuses (hlong h)⟩
    intro h
    obtain ⟨a, ha, htree⟩ := hshort h
    exact ⟨a, compare_one ha hnext (hall c hc) (depth_pos p n), .prim htree⟩
  | .compare op left right => by
    intro w u n q hw hu hn
    rw [BoolOperand.compare_text] at hn ⊢
    have hlen : 1 < n ∧ (right.text ++ u).length ≤ n := by
      simp only [List.length_append, List.length_cons] at hn ⊢
      omega
    obtain ⟨hlshort, hllong⟩ := left.reads p w _ n q hw (primEnds_compare op right hu) hn
    obtain ⟨hrshort, hrlong⟩ := right.reads p [' '] u n q blanks_space hu.prim hlen.2
    obtain ⟨hs, c, t, r, hnext, hc⟩ := hu
    have hall : ∀ c ∈ operandEnds, c ∉ compareOps := by decide
    refine ⟨?_, ?_⟩
    · intro h
      obtain ⟨hleft, hright⟩ := Bool.and_eq_true_iff.mp h
      obtain ⟨a, ha, hatree⟩ := hlshort hleft
      obtain ⟨b, hb, hbtree⟩ := hrshort hright
      refine ⟨_, compare_two ha hb hnext (hall c hc) ?_, .compare hatree hbtree⟩
      rw [depth_fuel]
      exact Nat.lt_succ_of_lt hlen.1
    · intro h
      cases hleft : left.short with
      | false => exact compare_refuses (hllong hleft)
      | true =>
        obtain ⟨a, ha, -⟩ := hlshort hleft
        have hright : right.short = false := by
          rw [BoolOperand.short, hleft] at h
          exact h
        exact compare_refuses_right ha (hrlong hright) (depth_pos p n)

theorem BoolChain.reads (p : Parser) : ∀ c : BoolChain, c.Reads p
  | .one x => by
    intro u n q hu hn
    obtain ⟨hshort, hlong⟩ := x.reads p [] u n q blanks_nil (hu.mono (by decide)) hn
    obtain ⟨hs, c, t, r, hnext, hc⟩ := hu
    have hall : ∀ c ∈ [TokenType.rp, .nl], c ∉ [TokenType.bitOr, .esp, .bitXor, .and, .or] := by decide
    refine ⟨?_, fun h => .inl (boolexp_refuses (hlong h))⟩
    intro h
    obtain ⟨a, ha, htree⟩ := hshort h
    exact ⟨a, boolexp_run ha hnext (hall c hc) (depth_pos p n), .one htree⟩
  | .more x op (.one y) => by
    intro u n q hu hn
    rw [BoolChain.more_text] at hn ⊢
    have hop := endsAt_boolOp op (y.text ++ u)
    have hlen : (y.text ++ u).length ≤ n := by
      simp only [BoolChain.text, List.length_append, List.length_cons] at hn ⊢
      omega
    obtain ⟨hxshort, hxlong⟩ := x.reads p [] _ n q blanks_nil (hop.mono (by decide)) hn
    obtain ⟨hyshort, hylong⟩ := y.reads p [' '] u n q blanks_space (hu.mono (by decide)) hlen
    rw [List.nil_append] at hxshort hxlong
    rw [List.singleton_append] at hyshort hylong
    refine ⟨?_, ?_⟩
    · intro h
      simp only [BoolChain.short, BoolChain.isOne, Bool.and_true, Bool.and_eq_true] at h
      obtain ⟨a, ha, hatree⟩ := hxshort h.1
      obtain ⟨b, hb, hbtree⟩ := hyshort h.2
      refine ⟨.boolExp op.code a b, ?_, .join (.one hatree) (.one hbtree)⟩
      rw [BoolChain.text, boolexp_two ha (depth_pos p n), Back.bind_run, hb]
      rfl
    · intro h
      cases hx : x.short with
      | false => exact .inl (boolexp_refuses (hxlong hx))
      | true =>
        obtain ⟨a, ha, -⟩ := hxshort hx
        have hy : y.short = false := by
          simpa [BoolChain.short, BoolChain.isOne, hx] using h
        exact .inl (refuses_rewound (boolexp_two ha (depth_pos p n)) (hylong hy).bind)
  | .more x op (.more y op' c) => by
    intro u n q hu hn
    rw [BoolChain.more_text] at hn ⊢
    have hop := endsAt_boolOp op ((BoolChain.more y op' c).text ++ u)
    have hop' := endsAt_boolOp op' (c.text ++ u)
    have hlen : (y.text ++ ' ' :: (op'.text ++ ' ' :: (c.text ++ u))).length ≤ n := by
      simp only [BoolChain.text, List.length_append, List.length_cons] at hn ⊢
      omega
    obtain ⟨hxshort, hxlong⟩ := x.reads p [] _ n q blanks_nil (hop.mono (by decide)) hn
    obtain ⟨hyshort, hylong⟩ := y.reads p [' '] _ n q blanks_space (hop'.mono (by decide)) hlen
    rw [List.nil_append] at hxshort hxlong
    rw [List.singleton_append, ← BoolChain.more_text] at hyshort hylong
    refine ⟨?_, fun _ => ?_⟩
    · intro h
      simp [BoolChain.short, BoolChain.isOne] at h
    · cases hx : x.short with
      | false => exact .inl (boolexp_refuses (hxlong hx))
      | true =>
        obtain ⟨a, ha, -⟩ := hxshort hx
        have htwo := boolexp_two ha (depth_pos p n)
        cases hy : y.short with
        | false => exact .inl (refuses_rewound htwo (hylong hy).bind)
        | true =>
          -- the third operand is left
          obtain ⟨b, hb, -⟩ := hyshort hy
          refine .inr ⟨.boolExp op.code a b, _, _, _, _, ?_, next_boolOp op' (c.text ++ u), ?_⟩
          · rw [htwo, Back.bind_run, hb]
            rfl
          · cases op' <;> decide

end

/-- A chain with a third operand is left somewhere in the middle. -/
theorem BoolChain.Read.short {c : BoolChain} (h : c.Read p) : c.short = true := by
  cases hshort : c.short with
  | true => rfl
  | false =>
    obtain ⟨a, ha, -⟩ := h [] 0 _ (Nat.le_refl _)
    rcases (c.reads p ['\n'] _ 0 (endsAt_nl []) (Nat.le_refl _)).2 hshort with
      (href | ⟨e, l, href⟩) | ⟨b, v, c', t, r, hb, hnext, hc⟩
    · rw [href] at ha
      cases ha
    · rw [href] at ha
      cases ha
    · rw [hb] at ha
      have hv : v = ['\n'] := congrArg Lexer.rest (Result.ok.inj (congrArg Run.result ha)).2
      subst hv
      have hnl : Next ['\n'] .nl ['\n'] [] := next_single (m := ⟨.nl, ['\n']⟩) (by decide) []
      rw [hnext.code_eq hnl] at hc
      exact absurd hc (by decide)

/-- **Boolean chains**: `boolexp` reads a chain and makes a tree of its operands and operators
exactly if there are two operands at most, in the chain and in every parenthesis. -/
theorem boolChain_read_iff (p : Parser) (c : BoolChain) : c.Read p ↔ c.short = true := by
  refine ⟨BoolChain.Read.short, ?_⟩
  intro h s q n hn
  exact (c.reads p ('\n' :: s) n q (endsAt_nl s) hn).1 h

/-- `true && true && true`. -/
def threeTrue : BoolChain :=
  .more (.prim (.const true)) .and (.more (.prim (.const true)) .and (.one (.prim (.const true))))

theorem threeTrue_not_read : ¬ threeTrue.Read plain := by
  intro h
  cases h.short

end Booleans

end CalcLang.Parser
