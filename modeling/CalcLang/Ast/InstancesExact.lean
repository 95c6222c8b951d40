import CalcLang.Ast.FrameExact
import CalcLang.Ast.Instances

/-!
# When instances are independent

`FuncNode.independent_iff`: the second instance of a generic generator gets its own
frames and code, and leaves the first as it is, exactly if the body is `Separate`.

The code generator accesses the closures of the tree in an order that the text alone
determines: `ExpNode.trace`, `Node.trace` and `Node.layoutTrace`, which the functions
of `CalcLang.Ast.Instances` follow (`FuncNode.instantiate_traced`). By the library
of cells, something is carried from one instance to the next exactly if some closure
is read before it is written and is left set. What is read first is a definition or
an await that no function literal clears (`nodes_read`, `nodes_met`); what is left
set is what has a slot (`nodes_leave`).
-/

namespace CalcLang.Ast

open CalcLang.Lib Cells

variable {α τ : Type}

/-! ## What code generation does to the closures -/

mutual
/-- The nodes whose closure the `setVals` of a function sets. -/
def Node.slotted : Node → List Ref
  | .exp (.inlineFunc _ _ _ body) => slottedAll body
  | .exp e => e.givenAwait
  | .define r _ => [r]
  | .defAndAssign r _ e => r :: e.givenAwait
  | .ifN _ sts | .ifElse _ sts _ | .forN _ _ _ sts => slottedAll sts
  | _ => []

def slottedAll : List Node → List Ref
  | [] => []
  | n :: ns => n.slotted ++ slottedAll ns
end

mutual
/-- The accesses of `ExpNode.calc`; `d` for code that is thrown away. -/
def ExpNode.trace (d : Bool) : ExpNode → List (Cells.Access Ref Bool)
  | .null | .lit | .str _ => []
  | .varBlock _ _ _ es | .arrayInit _ es | .structInit _ es => expsTrace d es
  | .callFunc generics params fnNode next =>
    expsTrace d params ++ ((if fnNode.isGeneric generics then [] else fnNode.trace d) ++
      next.trace d)
  | .binary k l r =>
    if k = .bin ∨ k = .assign then r.trace d ++ l.trace d else l.trace d ++ r.trace d
  | .unary e | .takePtr e | .takeVal _ e => e.trace d
  | .await r e => .get r :: e.trace d
  | .inlineFunc _ _ async body =>
    (nodesDefs body).map .clear ++
      if async || nodesSuspend body then
        layoutTraces body ++ ((slottedAll body).map (.set · d) ++ traces d body)
      else traces d body

def expsTrace (d : Bool) : List ExpNode → List (Cells.Access Ref Bool)
  | [] => []
  | e :: es => e.trace d ++ expsTrace d es

/-- The accesses of `Node.calc`. -/
def Node.trace (d : Bool) : Node → List (Cells.Access Ref Bool)
  | .exp e | .ret e | .yield e => e.trace d
  | .leaf => []
  | .define r _ => [.get r]
  | .defAndAssign r _ e => .get r :: e.trace d
  | .ifN c sts => traces d sts ++ c.trace d
  | .ifElse c sts el => c.trace d ++ (traces d sts ++ el.trace d)
  | .forN c i a sts => i.trace d ++ (c.trace d ++ (traces d sts ++ (a.trace d ++ c.trace d)))
  | .sl cs => traces d cs

def traces (d : Bool) : List Node → List (Cells.Access Ref Bool)
  | [] => []
  | n :: ns => n.trace d ++ traces d ns

/-- The accesses of `Node.layout`. -/
def Node.layoutTrace : Node → List (Cells.Access Ref Bool)
  | .ifN _ sts | .ifElse _ sts _ | .forN _ _ _ sts => layoutTraces sts
  | .exp (.inlineFunc _ _ _ body) => layoutTraces body
  | .defAndAssign r _ e => .get r :: e.trace true
  | .exp (.await r e) => .get r :: e.trace true
  | _ => []

def layoutTraces : List Node → List (Cells.Access Ref Bool)
  | [] => []
  | n :: ns => n.layoutTrace ++ layoutTraces ns
end

/-- The program accesses the closures as the trace says. All it logs goes to the instance
`i`. -/
abbrev Traced (i : Nat) {β : Type} (t : List (Cells.Access Ref Bool)) (m : Gen τ β) (Q : β → Prop) :
    Prop :=
  Follows Place.mark (fun p : Place τ => p.fn.dry) (fun w => w.1.inst = i) t m Q

section Traced

variable {i : Nat} {d : Bool} {fn : Fn} {β : Type}

theorem newFunc_traced (fn : Fn) :
    Traced fn.inst [] (newFunc fn : Gen τ Fn) fun f => f.inst = fn.inst ∧ f.dry = fn.dry :=
  .after .fresh fun _ _ => .pure ⟨rfl, rfl⟩

theorem newDry_traced (fn : Fn) :
    Traced fn.inst [] (newDry fn : Gen τ Fn) fun f => f.inst = fn.inst ∧ f.dry = true :=
  .after .fresh fun _ _ => .pure ⟨rfl, rfl⟩

theorem clearAll_traced : ∀ rs : List Ref,
    Traced i (rs.map .clear) (clearAll rs : Gen τ Unit) fun _ => True
  | [] => .pure trivial
  | r :: rs => .andThen (.clear r) (clearAll_traced rs)

theorem setAll_traced (fn : Fn) (frame : List (FrameTy τ)) : ∀ vs : List (Ref × List Nat),
    Traced fn.inst ((vs.map (·.1)).map (.set · fn.dry)) (setAll fn frame vs) fun _ => True
  | [] => .pure trivial
  | v :: vs => by
    have h : Traced fn.inst [.set v.1 fn.dry]
        (put v.1 (some (⟨fn, v.2, (fieldAt frame v.2).getD .i1⟩ : Place τ))) fun _ => True :=
      .set v.1 rfl rfl
    exact .andThen h (setAll_traced fn frame vs)

theorem awaitCalc_traced (T : Typing α τ) (a : α) (fn : Fn) (r : Ref) (e : ExpNode)
    {t : List (Cells.Access Ref Bool)} {exp : Gen τ (FrameTy τ)}
    (h : Traced fn.inst t exp fun _ => True) :
    Traced fn.inst (.get r :: t) (awaitCalc T a fn r e exp) fun _ => True := by
  refine .bind (.visit r) fun o _ => ?_
  refine .before h fun t _ => ?_
  exact .after (.emit rfl) fun _ _ => .pure trivial

theorem assignTo_traced (T : Typing α τ) (fn : Fn) (r : Ref) (e : ExpNode) (o : Option (Place τ))
    (t : FrameTy τ) : Traced fn.inst [] (assignTo T fn r e o t) fun _ => True := by
  cases o with
  | none => exact .after (.emit rfl) fun _ _ => .after (.emit rfl) fun _ _ => .pure trivial
  | some p => exact .after (.emit rfl) fun _ _ => .pure trivial

theorem callee_traced (generic : Bool) {t : List (Cells.Access Ref Bool)} {fnNode : Gen τ (FrameTy τ)}
    (h : Traced i t fnNode fun _ => True) :
    Traced i (if generic then [] else t) (callee generic fnNode) fun _ => True := by
  unfold callee
  split
  · exact .pure trivial
  · exact .before h fun _ _ => .pure trivial

theorem operands_traced (k : BinKind) {t u : List (Cells.Access Ref Bool)}
    {left right : Gen τ (FrameTy τ)} (hl : Traced i t left fun _ => True)
    (hr : Traced i u right fun _ => True) :
    Traced i (if k = .bin ∨ k = .assign then u ++ t else t ++ u) (k.operands left right)
      fun _ => True := by
  unfold BinKind.operands
  split
  · exact .bind hr fun _ _ => .before hl fun _ _ => .pure trivial
  · exact .bind hl fun _ _ => .before hr fun _ _ => .pure trivial

/-- The slots that `setVals` hands out are those of the walk. -/
theorem generatorCtx_slots (c : Build τ) (ps : List τ) (inner : τ) :
    setValsAll [] (c.generatorCtx ps inner).context = c.slots := by
  unfold Build.generatorCtx
  dsimp only
  induction ps generalizing c with
  | nil => rfl
  | cons p ps ih =>
    rw [List.foldl_cons, ih]
    exact Build.slots_mark c _

theorem field_slots (c : Build τ) (t : FrameTy τ) (r : Ref) :
    (c.field t (some r)).slots.map (·.1) = c.slots.map (·.1) ++ [r] := by
  rw [Build.slots_field, List.map_append]
  rfl

theorem sub_slots (c d : Build τ) (id : Nat) {slots : List Ref}
    (h : d.slots.map (·.1) = (Build.start : Build τ).slots.map (·.1) ++ slots) :
    (c.sub id d).slots.map (·.1) = c.slots.map (·.1) ++ slots := by
  have hstart : (Build.start : Build τ).slots.map (·.1) = [] := rfl
  rw [hstart, List.nil_append] at h
  rw [Build.slots_sub, List.map_append, List.map_map, ← h]
  rfl

/-- The compilation of a generator: the walk, the slots, the body. -/
theorem generator_traced {slots : List Ref} {t u : List (Cells.Access Ref Bool)}
    {layout : Fn → InstEnv τ → Gen τ (Build τ)} {body : Fn → InstEnv τ → Gen τ (InstEnv τ)}
    (ps : List (Ident × τ)) (inner : τ) (env : InstEnv τ)
    (hl : ∀ tpf env, tpf.inst = fn.inst → tpf.dry = true →
      Traced fn.inst t (layout tpf env) fun c => c.slots.map (·.1) = slots)
    (hb : ∀ step env, step.inst = fn.inst → step.dry = fn.dry →
      Traced fn.inst u (body step env) fun _ => True) :
    Traced fn.inst (t ++ (slots.map (.set · fn.dry) ++ u)) (generator fn ps inner env layout body)
      fun _ => True := by
  refine .after (newDry_traced fn) fun tpf htpf => ?_
  refine .bind (hl tpf _ htpf.1 htpf.2) fun c hc => ?_
  refine .after (.emit rfl) fun _ _ => ?_
  refine .after (newFunc_traced fn) fun step hstep => ?_
  have hs := setAll_traced step (c.generatorCtx (ps.map (·.2)) inner).rtp
    (setValsAll [] (c.generatorCtx (ps.map (·.2)) inner).context)
  rw [generatorCtx_slots, hc, hstep.1, hstep.2] at hs
  rw [← generatorCtx_slots c (ps.map (·.2)) inner] at hs
  exact .bind hs fun _ _ => .before (hb step _ hstep.1 hstep.2) fun _ _ => .pure trivial

end Traced

section Follows

variable (T : Typing α τ) (a : α)

mutual
theorem ExpNode.calc_traced (fn : Fn) (env : InstEnv τ) : ∀ e : ExpNode,
    Traced fn.inst (e.trace fn.dry) (e.calc T a fn env) fun _ => True
  | .null => .pure trivial
  | .lit | .str _ => .after (.emit rfl) fun _ _ => .pure trivial
  | .varBlock _ _ _ es =>
    .before (calcExps_traced fn env es) fun _ _ => .after (.emit rfl) fun _ _ => .pure trivial
  | .arrayInit _ es | .structInit _ es =>
    .before (calcExps_traced fn env es) fun _ _ => .after (.emit rfl) fun _ _ => .pure trivial
  | .callFunc generics params fnNode next => by
    refine .bind (calcExps_traced fn env params) fun ts _ => ?_
    refine .bind (callee_traced _ (ExpNode.calc_traced fn env fnNode)) fun f _ => ?_
    exact .after (.emit rfl) fun _ _ => .before (ExpNode.calc_traced fn env next) fun _ _ =>
      .pure trivial
  | .binary k l r =>
    .before (operands_traced k (ExpNode.calc_traced fn env l) (ExpNode.calc_traced fn env r))
      fun _ _ => .after (.emit rfl) fun _ _ => .pure trivial
  | .unary e | .takePtr e | .takeVal _ e =>
    .before (ExpNode.calc_traced fn env e) fun _ _ => .after (.emit rfl) fun _ _ => .pure trivial
  | .await r e =>
    .before (awaitCalc_traced T a fn r e (ExpNode.calc_traced fn env e)) fun _ _ => .pure trivial
  | .inlineFunc r params async body => by
    -- a function of its own, or the frame and the `StepNext` of a generator
    have hbody : ∀ inner : Fn, inner.inst = fn.inst → inner.dry = fn.dry → Traced fn.inst
        (if async || nodesSuspend body then
          layoutTraces body ++ ((slottedAll body).map (.set · fn.dry) ++ traces fn.dry body)
        else traces fn.dry body)
        (inlineBody T a inner env r params async body
          (fun ps tpf env' => layoutAll T a ps tpf env' body .start)
          fun f env' => calcAll T a f env' body) fun _ => True := by
      intro inner hinst hdry
      unfold inlineBody
      rw [← hinst, ← hdry]
      split
      · refine generator_traced _ _ _ (fun tpf env' h1 h2 => ?_) (fun step env' h1 h2 => ?_)
        · rw [← h1]
          exact .before (layoutAll_traced _ tpf env' h2 body .start) fun _ h => .pure h
        · rw [← h1, ← h2]
          exact calcAll_traced step env' body
      · exact .before (calcAll_traced inner _ body) fun _ _ => .pure trivial
    refine .after (.emit rfl) fun _ _ => ?_
    refine .after (newFunc_traced fn) fun inner hinner => ?_
    refine .bind (clearAll_traced _) fun _ _ => ?_
    exact .before (hbody inner hinner.1 hinner.2) fun _ _ => .pure trivial

theorem calcExps_traced (fn : Fn) (env : InstEnv τ) : ∀ es : List ExpNode,
    Traced fn.inst (expsTrace fn.dry es) (calcExps T a fn env es) fun _ => True
  | [] => .pure trivial
  | e :: es =>
    .bind (ExpNode.calc_traced fn env e) fun _ _ => .before (calcExps_traced fn env es) fun _ _ =>
      .pure trivial

theorem Node.calc_traced (fn : Fn) (env : InstEnv τ) : ∀ n : Node,
    Traced fn.inst (n.trace fn.dry) (n.calc T a fn env) fun _ => True
  | .exp e => .before (ExpNode.calc_traced fn env e) fun _ _ => .pure trivial
  | .ret e | .yield e =>
    .before (ExpNode.calc_traced fn env e) fun _ _ => .after (.emit rfl) fun _ _ => .pure trivial
  | .leaf => .pure trivial
  | .define r x => by
    refine .before (.visit r) fun o _ => ?_
    cases o with
    | some p => exact .pure trivial
    | none => exact .after (.emit rfl) fun _ _ => .pure trivial
  | .defAndAssign r x e =>
    .bind (.visit r) fun o _ => .before (ExpNode.calc_traced fn env e) fun t _ =>
      .after (assignTo_traced T fn r e o t) fun _ _ => .pure trivial
  | .ifN c sts =>
    .bind (calcAll_traced fn ([] :: env) sts) fun _ _ =>
      .before (ExpNode.calc_traced fn env c) fun _ _ => .pure trivial
  | .ifElse c sts el =>
    .bind (ExpNode.calc_traced fn env c) fun _ _ =>
      .bind (calcAll_traced fn ([] :: env) sts) fun _ _ =>
        .before (Node.calc_traced fn ([] :: env) el) fun _ _ => .pure trivial
  | .forN c i as sts =>
    .bind (Node.calc_traced fn env i) fun env' _ =>
      .bind (ExpNode.calc_traced fn env' c) fun _ _ =>
        .bind (calcAll_traced fn ([] :: env') sts) fun _ _ =>
          .bind (ExpNode.calc_traced fn ([] :: env') as) fun _ _ =>
            .before (ExpNode.calc_traced fn ([] :: env') c) fun _ _ => .pure trivial
  | .sl cs => calcAll_traced fn env cs

theorem calcAll_traced (fn : Fn) (env : InstEnv τ) : ∀ ns : List Node,
    Traced fn.inst (traces fn.dry ns) (calcAll T a fn env ns) fun _ => True
  | [] => .pure trivial
  | n :: ns => .bind (Node.calc_traced fn env n) fun env' _ => calcAll_traced fn env' ns

theorem Node.layout_traced (ps : Vars τ) (fn : Fn) (env : InstEnv τ) (hdry : fn.dry = true) :
    ∀ (n : Node) (c : Build τ), Traced fn.inst n.layoutTrace (n.layout T a ps fn env c)
      fun d => d.2.slots.map (·.1) = c.slots.map (·.1) ++ n.slotted
  | .ifElse _ sts _, c | .ifN _ sts, c | .forN _ _ _ sts, c => by
    refine .after (newDry_traced fn) fun tpf htpf => ?_
    have h := layoutAll_traced ps tpf (ps :: env) htpf.2 sts .start
    rw [htpf.1] at h
    exact .before h fun d hd => .pure (sub_slots c d.2 c.i hd)
  | .exp (.inlineFunc _ _ _ body), c => by
    refine .after (newDry_traced fn) fun tpf htpf => ?_
    have h := layoutAll_traced ps tpf (ps :: env.tail) htpf.2 body .start
    rw [htpf.1] at h
    exact .before h fun d hd => .pure (sub_slots c d.2 0 hd)
  | .define r x, c => .after (.emit rfl) fun _ _ => .pure (field_slots c _ r)
  | .defAndAssign r x e, c => by
    have h := ExpNode.calc_traced fn env e
    rw [hdry] at h
    have hassign : ∀ o : Option (Place τ), Traced fn.inst (e.trace true) (do
        let t ← e.calc T a fn env
        let v ← assignTo T fn r e o t
        pure (env.addVar x v, c.field v.tp (some r))) fun d =>
          d.2.slots.map (·.1) = c.slots.map (·.1) ++ [r] := fun o =>
      .before h fun t _ => .after (assignTo_traced T fn r e o t) fun v _ => .pure (field_slots c _ r)
    cases e with
    | await w e =>
      -- the awaited task has a field too
      have he := ExpNode.calc_traced fn env e
      rw [hdry] at he
      refine .bind (.visit r) fun o _ => .before (awaitCalc_traced T a fn w e he) fun t _ => ?_
      refine .after (assignTo_traced T fn r (.await w e) o t.1) fun v _ => .pure ?_
      rw [field_slots, field_slots, List.append_assoc]
      rfl
    | _ => exact .bind (.visit r) fun o _ => hassign o
  | .exp (.await r e), c => by
    have h := ExpNode.calc_traced fn env e
    rw [hdry] at h
    exact .before (awaitCalc_traced T a fn r e h) fun t _ => .pure (field_slots c _ r)
  | .exp .null, c | .exp .lit, c | .exp (.str _), c | .exp (.varBlock _ _ _ _), c
  | .exp (.callFunc _ _ _ _), c | .exp (.binary _ _ _), c | .exp (.unary _), c
  | .exp (.takePtr _), c | .exp (.takeVal _ _), c | .exp (.arrayInit _ _), c
  | .exp (.structInit _ _), c | .ret _, c | .yield _, c | .leaf, c | .sl _, c =>
    .pure (List.append_nil _).symm

theorem layoutAll_traced (ps : Vars τ) (fn : Fn) (env : InstEnv τ) (hdry : fn.dry = true) :
    ∀ (ns : List Node) (c : Build τ), Traced fn.inst (layoutTraces ns)
      (layoutAll T a ps fn env ns c)
      fun d => d.2.slots.map (·.1) = c.slots.map (·.1) ++ slottedAll ns
  | [], c => .pure (List.append_nil _).symm
  | n :: ns, c => by
    refine .bind (Node.layout_traced ps fn env hdry n c) fun d hd => ?_
    have h := layoutAll_traced ps fn d.1 hdry ns d.2
    rw [hd, List.append_assoc] at h
    exact h
end

/-- The accesses of an instance. -/
def FuncNode.trace (f : FuncNode) : List (Cells.Access Ref Bool) :=
  layoutTraces f.body.statements ++
    ((slottedAll f.body.statements).map (.set · false) ++ traces false f.body.statements)

theorem FuncNode.instantiate_traced (f : FuncNode) (i : Nat) :
    Traced i f.trace (f.instantiate T a i) fun _ => True := by
  refine .after (newFunc_traced ⟨i, 0, false⟩) fun fn hfn => ?_
  obtain ⟨hinst, hdry⟩ := hfn
  have hg : Traced fn.inst (layoutTraces f.body.statements ++
      ((slottedAll f.body.statements).map (.set · fn.dry) ++ traces fn.dry f.body.statements))
      (generator fn (f.params.map fun x => (x, T.site a (.param x))) (T.site a .ret) []
        (fun tpf env => (·.2) <$> layoutAll T a
          (paramVars (f.params.map fun x => (x, T.site a (.param x)))) tpf env
          f.body.statements .start)
        fun stepNext env => calcAll T a stepNext env f.body.statements) fun _ => True := by
    refine generator_traced _ _ _ (fun tpf env h1 h2 => ?_) fun step env h1 h2 => ?_
    · rw [← h1]
      exact .before (layoutAll_traced T a _ tpf env h2 _ .start) fun _ h => .pure h
    · rw [← h1, ← h2]
      exact calcAll_traced T a step env _
  rw [hinst, hdry] at hg
  exact hg

end Follows

/-! ## Who is where in the tree -/

mutual
/-- The awaits of an expression, function literals included. -/
def ExpNode.allAwaits : ExpNode → List Ref
  | .null | .lit | .str _ => []
  | .varBlock _ _ _ es | .arrayInit _ es | .structInit _ es => expsAllAwaits es
  | .callFunc _ params fnNode next => fnNode.allAwaits ++ expsAllAwaits params ++ next.allAwaits
  | .binary _ l r => l.allAwaits ++ r.allAwaits
  | .unary e | .takePtr e | .takeVal _ e => e.allAwaits
  | .await r e => r :: e.allAwaits
  | .inlineFunc _ _ _ body => nodesAllAwaits body

def expsAllAwaits : List ExpNode → List Ref
  | [] => []
  | e :: es => e.allAwaits ++ expsAllAwaits es

def Node.allAwaits : Node → List Ref
  | .exp e | .ret e | .yield e | .defAndAssign _ _ e => e.allAwaits
  | .leaf | .define _ _ => []
  | .ifN c sts => c.allAwaits ++ nodesAllAwaits sts
  | .ifElse c sts el => c.allAwaits ++ nodesAllAwaits sts ++ el.allAwaits
  | .forN c d a sts => d.allAwaits ++ c.allAwaits ++ a.allAwaits ++ nodesAllAwaits sts
  | .sl cs => nodesAllAwaits cs

def nodesAllAwaits : List Node → List Ref
  | [] => []
  | n :: ns => n.allAwaits ++ nodesAllAwaits ns
end

mutual
/-- The definitions in the function literals of an expression. -/
def ExpNode.innerDefs : ExpNode → List Ref
  | .null | .lit | .str _ => []
  | .varBlock _ _ _ es | .arrayInit _ es | .structInit _ es => expsInnerDefs es
  | .callFunc _ params fnNode next => fnNode.innerDefs ++ expsInnerDefs params ++ next.innerDefs
  | .binary _ l r => l.innerDefs ++ r.innerDefs
  | .unary e | .takePtr e | .takeVal _ e | .await _ e => e.innerDefs
  | .inlineFunc _ _ _ body => nodesDefs body ++ nodesInnerDefs body

def expsInnerDefs : List ExpNode → List Ref
  | [] => []
  | e :: es => e.innerDefs ++ expsInnerDefs es

def Node.innerDefs : Node → List Ref
  | .exp e | .ret e | .yield e | .defAndAssign _ _ e => e.innerDefs
  | .leaf | .define _ _ => []
  | .ifN c sts => c.innerDefs ++ nodesInnerDefs sts
  | .ifElse c sts el => c.innerDefs ++ nodesInnerDefs sts ++ el.innerDefs
  | .forN c d a sts => d.innerDefs ++ c.innerDefs ++ a.innerDefs ++ nodesInnerDefs sts
  | .sl cs => nodesInnerDefs cs

def nodesInnerDefs : List Node → List Ref
  | [] => []
  | n :: ns => n.innerDefs ++ nodesInnerDefs ns
end

mutual
/-- Definitions, awaits, and the definitions in function literals are different nodes. -/
theorem ExpNode.count_parts (r : Ref) : ∀ e : ExpNode,
    e.allAwaits.count r + e.innerDefs.count r ≤ e.refs.count r
  | .null | .lit | .str _ => by simp [ExpNode.allAwaits, ExpNode.innerDefs]
  | .varBlock _ _ _ es | .arrayInit _ es | .structInit _ es => by
    have := count_expsParts r es
    simp only [ExpNode.allAwaits, ExpNode.innerDefs, ExpNode.refs, List.count_cons]
    omega
  | .callFunc _ ps f n => by
    have := count_expsParts r ps
    have := ExpNode.count_parts r f
    have := ExpNode.count_parts r n
    simp only [ExpNode.allAwaits, ExpNode.innerDefs, ExpNode.refs, List.count_append]
    omega
  | .binary _ a b => by
    have := ExpNode.count_parts r a
    have := ExpNode.count_parts r b
    simp only [ExpNode.allAwaits, ExpNode.innerDefs, ExpNode.refs, List.count_append]
    omega
  | .unary e | .takePtr e | .takeVal _ e => ExpNode.count_parts r e
  | .await _ e => by
    have := ExpNode.count_parts r e
    simp only [ExpNode.allAwaits, ExpNode.innerDefs, ExpNode.refs, List.count_cons]
    omega
  | .inlineFunc _ _ _ body => by
    have := count_nodesParts r body
    simp only [ExpNode.allAwaits, ExpNode.innerDefs, ExpNode.refs, List.count_cons,
      List.count_append]
    omega

theorem count_expsParts (r : Ref) : ∀ es : List ExpNode,
    (expsAllAwaits es).count r + (expsInnerDefs es).count r ≤ (refsExps es).count r
  | [] => Nat.le_refl 0
  | e :: es => by
    have := ExpNode.count_parts r e
    have := count_expsParts r es
    simp only [expsAllAwaits, expsInnerDefs, refsExps, List.count_append]
    omega

theorem Node.count_parts (r : Ref) : ∀ n : Node,
    n.defs.count r + n.allAwaits.count r + n.innerDefs.count r ≤ n.refs.count r
  | .exp e | .ret e | .yield e => by
    have := ExpNode.count_parts r e
    simp only [Node.defs, Node.allAwaits, Node.innerDefs, Node.refs, List.count_nil]
    omega
  | .leaf => Nat.le_refl 0
  | .define _ _ => by simp [Node.defs, Node.allAwaits, Node.innerDefs, Node.refs]
  | .defAndAssign _ _ e => by
    have := ExpNode.count_parts r e
    simp only [Node.defs, Node.allAwaits, Node.innerDefs, Node.refs, List.count_cons,
      List.count_nil]
    omega
  | .ifN c sts => by
    have := ExpNode.count_parts r c
    have := count_nodesParts r sts
    simp only [Node.defs, Node.allAwaits, Node.innerDefs, Node.refs, List.count_append]
    omega
  | .ifElse c sts el => by
    have := ExpNode.count_parts r c
    have := count_nodesParts r sts
    have := Node.count_parts r el
    simp only [Node.defs, Node.allAwaits, Node.innerDefs, Node.refs, List.count_append]
    omega
  | .forN c d a sts => by
    have := ExpNode.count_parts r c
    have := ExpNode.count_parts r a
    have := count_nodesParts r sts
    have := Node.count_parts r d
    simp only [Node.defs, Node.allAwaits, Node.innerDefs, Node.refs, List.count_append]
    omega
  | .sl cs => by
    have := count_nodesParts r cs
    simp only [Node.defs, Node.allAwaits, Node.innerDefs, Node.refs]
    omega

theorem count_nodesParts (r : Ref) : ∀ ns : List Node,
    (nodesDefs ns).count r + (nodesAllAwaits ns).count r + (nodesInnerDefs ns).count r ≤
      (refsNodes ns).count r
  | [] => Nat.le_refl 0
  | n :: ns => by
    have := Node.count_parts r n
    have := count_nodesParts r ns
    simp only [nodesDefs, nodesAllAwaits, nodesInnerDefs, refsNodes, List.count_append]
    omega
end

/-! ## The condition -/

mutual
/-- The definitions with an initialiser and the awaits whose `calc` the walk of `buildCtx`
calls: those that stand as statements where it looks. -/
def Node.evaluated : Node → List Ref
  | .exp e => e.givenAwait
  | .defAndAssign r _ e => r :: e.givenAwait
  | .ifN _ sts | .ifElse _ sts _ | .forN _ _ _ sts => evaluatedAll sts
  | _ => []

def evaluatedAll : List Node → List Ref
  | [] => []
  | n :: ns => n.evaluated ++ evaluatedAll ns
end

mutual
/-- The awaits among them. -/
def Node.givenAwaits : Node → List Ref
  | .exp e | .defAndAssign _ _ e => e.givenAwait
  | .ifN _ sts | .ifElse _ sts _ | .forN _ _ _ sts => givenAwaitsAll sts
  | _ => []

def givenAwaitsAll : List Node → List Ref
  | [] => []
  | n :: ns => n.givenAwaits ++ givenAwaitsAll ns
end

mutual
/-- The awaits of function literals whose `calc` the literal's own `buildCtx` calls. -/
def ExpNode.laidAwaits : ExpNode → List Ref
  | .null | .lit | .str _ => []
  | .varBlock _ _ _ es | .arrayInit _ es | .structInit _ es => expsLaidAwaits es
  | .callFunc generics params fnNode next =>
    expsLaidAwaits params ++ (if fnNode.isGeneric generics then [] else fnNode.laidAwaits) ++
      next.laidAwaits
  | .binary _ l r => l.laidAwaits ++ r.laidAwaits
  | .unary e | .takePtr e | .takeVal _ e | .await _ e => e.laidAwaits
  | .inlineFunc _ _ _ body => givenAwaitsAll body ++ nodesLaidAwaits body

def expsLaidAwaits : List ExpNode → List Ref
  | [] => []
  | e :: es => e.laidAwaits ++ expsLaidAwaits es

def Node.laidAwaits : Node → List Ref
  | .exp e | .ret e | .yield e | .defAndAssign _ _ e => e.laidAwaits
  | .leaf | .define _ _ => []
  | .ifN c sts => c.laidAwaits ++ nodesLaidAwaits sts
  | .ifElse c sts el => c.laidAwaits ++ nodesLaidAwaits sts ++ el.laidAwaits
  | .forN c d a sts => d.laidAwaits ++ c.laidAwaits ++ a.laidAwaits ++ nodesLaidAwaits sts
  | .sl cs => nodesLaidAwaits cs

def nodesLaidAwaits : List Node → List Ref
  | [] => []
  | n :: ns => n.laidAwaits ++ nodesLaidAwaits ns
end

/-- No closure is called before it is set anew: the layout of the frame evaluates no
initialiser and no await, and that of a function literal's frame no await. -/
def FuncNode.Separate (f : FuncNode) : Prop :=
  evaluatedAll f.body.statements = [] ∧ nodesLaidAwaits f.body.statements = []

/-! ### What is read first -/

/-- The expression of a statement that is no function literal. -/
theorem Node.exp_bareFns {e : ExpNode} (h : (Node.exp e).bareFns = []) : e.bareFns = [] := by
  cases e with
  | inlineFunc => exact absurd h (List.cons_ne_nil _ _)
  | _ => exact h

section Reads

variable {k : Ref} {d : Bool}

theorem readsFirst_or {t u : List (Cells.Access Ref Bool)} (h : readsFirst k (t ++ u)) :
    readsFirst k t ∨ readsFirst k u := ((readsFirst_append k t u).mp h).imp_right And.right

/-- Behind the writes of a literal, only what they leave alone is read first. -/
theorem readsFirst_behind {t u : List (Cells.Access Ref Bool)} (ht : ¬ readsFirst k t)
    (h : readsFirst k (t ++ u)) : k ∉ keys t ∧ readsFirst k u :=
  ((readsFirst_append k t u).mp h).resolve_left ht

theorem append_nil {t u : List Ref} (h : t ++ u = []) : t = [] ∧ u = [] :=
  List.append_eq_nil_iff.mp h

mutual
/-- What code generation reads first is a definition or an await, and no definition of a
function literal: those are cleared. -/
theorem ExpNode.reads (d : Bool) : ∀ e : ExpNode, e.bareFns = [] →
    readsFirst k (e.trace d) → k ∈ e.allAwaits
  | .null, _, h | .lit, _, h | .str _, _, h => h.elim
  | .varBlock _ _ _ es, hb, h | .arrayInit _ es, hb, h | .structInit _ es, hb, h =>
    exps_read d es hb h
  | .callFunc generics ps f n, hb, h => by
    obtain ⟨hb, hn⟩ := append_nil hb
    obtain ⟨hf, hps⟩ := append_nil hb
    simp only [ExpNode.allAwaits, List.mem_append]
    rcases readsFirst_or h with h | h
    · exact .inl (.inr (exps_read d ps hps h))
    · rcases readsFirst_or h with h | h
      · split at h
        · exact h.elim
        · exact .inl (.inl (ExpNode.reads d f hf h))
      · exact .inr (ExpNode.reads d n hn h)
  | .binary kind l r, hb, h => by
    obtain ⟨hl, hr⟩ := append_nil hb
    rw [ExpNode.trace] at h
    rw [ExpNode.allAwaits, List.mem_append]
    -- which operand comes first depends on the operator
    split at h
    · exact (readsFirst_or h).symm.imp (ExpNode.reads d l hl) (ExpNode.reads d r hr)
    · exact (readsFirst_or h).imp (ExpNode.reads d l hl) (ExpNode.reads d r hr)
  | .unary e, hb, h | .takePtr e, hb, h | .takeVal _ e, hb, h => ExpNode.reads d e hb h
  | .await r e, hb, h =>
    List.mem_cons.mpr (((readsFirst_get k r _).mp h).imp_right (ExpNode.reads d e hb))
  | .inlineFunc _ _ async body, hb, h => by
    -- what the literal defines is cleared in front of its body
    obtain ⟨hdefs, h⟩ := readsFirst_behind (not_readsFirst_clear k _) h
    rw [keys_clear] at hdefs
    split at h
    · rcases readsFirst_or h with h | h
      · exact (layouts_read body hb h).resolve_left hdefs
      · have h := (readsFirst_behind (not_readsFirst_set k _ _) h).2
        exact (nodes_read d body hb h).resolve_left hdefs
    · exact (nodes_read d body hb h).resolve_left hdefs

theorem exps_read (d : Bool) : ∀ es : List ExpNode, expsBareFns es = [] →
    readsFirst k (expsTrace d es) → k ∈ expsAllAwaits es
  | [], _, h => h.elim
  | e :: es, hb, h =>
    List.mem_append.mpr ((readsFirst_or h).imp (ExpNode.reads d e (append_nil hb).1)
      (exps_read d es (append_nil hb).2))

theorem Node.reads (d : Bool) : ∀ n : Node, n.bareFns = [] → readsFirst k (n.trace d) →
    k ∈ n.defs ∨ k ∈ n.allAwaits
  | .exp e, hb, h => .inr (ExpNode.reads d e (Node.exp_bareFns hb) h)
  | .ret e, hb, h | .yield e, hb, h => .inr (ExpNode.reads d e hb h)
  | .leaf, _, h => h.elim
  | .define r _, _, h =>
    .inl (List.mem_singleton.mpr (((readsFirst_get k r []).mp h).resolve_right id))
  | .defAndAssign r _ e, hb, h =>
    ((readsFirst_get k r _).mp h).imp List.mem_singleton.mpr (ExpNode.reads d e hb)
  | .ifN c sts, hb, h => by
    obtain ⟨hc, hsts⟩ := append_nil hb
    simp only [Node.defs, Node.allAwaits, List.mem_append]
    rcases readsFirst_or h with h | h
    · exact (nodes_read d sts hsts h).imp_right .inr
    · exact .inr (.inl (ExpNode.reads d c hc h))
  | .ifElse c sts el, hb, h => by
    obtain ⟨hb, hel⟩ := append_nil hb
    obtain ⟨hc, hsts⟩ := append_nil hb
    simp only [Node.defs, Node.allAwaits, List.mem_append]
    rcases readsFirst_or h with h | h
    · exact .inr (.inl (.inl (ExpNode.reads d c hc h)))
    · rcases readsFirst_or h with h | h
      · exact (nodes_read d sts hsts h).imp .inl (.inl ∘ .inr)
      · exact (Node.reads d el hel h).imp .inr .inr
  | .forN c i a sts, hb, h => by
    obtain ⟨hb, hsts⟩ := append_nil hb
    obtain ⟨hb, ha⟩ := append_nil hb
    obtain ⟨hi, hc⟩ := append_nil hb
    simp only [Node.defs, Node.allAwaits, List.mem_append]
    have hcond : readsFirst k (c.trace d) → k ∈ c.allAwaits := ExpNode.reads d c hc
    rcases readsFirst_or h with h | h
    · exact (Node.reads d i hi h).imp .inl (.inl ∘ .inl ∘ .inl)
    · rcases readsFirst_or h with h | h
      · exact .inr (.inl (.inl (.inr (hcond h))))
      · rcases readsFirst_or h with h | h
        · exact (nodes_read d sts hsts h).imp .inr .inr
        · rcases readsFirst_or h with h | h
          · exact .inr (.inl (.inr (ExpNode.reads d a ha h)))
          · exact .inr (.inl (.inl (.inr (hcond h))))
  | .sl cs, hb, h => nodes_read d cs hb h

theorem nodes_read (d : Bool) : ∀ ns : List Node, nodesBareFns ns = [] →
    readsFirst k (traces d ns) → k ∈ nodesDefs ns ∨ k ∈ nodesAllAwaits ns
  | [], _, h => h.elim
  | n :: ns, hb, h => by
    simp only [nodesDefs, nodesAllAwaits, List.mem_append]
    rcases readsFirst_or h with h | h
    · exact (Node.reads d n (append_nil hb).1 h).imp .inl .inl
    · exact (nodes_read d ns (append_nil hb).2 h).imp .inr .inr

theorem Node.layout_reads : ∀ n : Node, n.bareFns = [] → readsFirst k n.layoutTrace →
    k ∈ n.defs ∨ k ∈ n.allAwaits
  | .ifN c sts, hb, h => by
    simp only [Node.defs, Node.allAwaits, List.mem_append]
    exact (layouts_read sts (append_nil hb).2 h).imp_right .inr
  | .ifElse c sts el, hb, h => by
    simp only [Node.defs, Node.allAwaits, List.mem_append]
    exact (layouts_read sts (append_nil (append_nil hb).1).2 h).imp .inl (.inl ∘ .inr)
  | .forN c i a sts, hb, h => by
    simp only [Node.defs, Node.allAwaits, List.mem_append]
    exact (layouts_read sts (append_nil hb).2 h).imp .inr .inr
  | .exp (.inlineFunc _ _ _ _), hb, _ => absurd hb (List.cons_ne_nil _ _)
  | .defAndAssign r _ e, hb, h =>
    ((readsFirst_get k r _).mp h).imp List.mem_singleton.mpr (ExpNode.reads true e hb)
  | .exp (.await r e), hb, h =>
    .inr (List.mem_cons.mpr (((readsFirst_get k r _).mp h).imp_right (ExpNode.reads true e hb)))
  | .exp .null, _, h | .exp .lit, _, h | .exp (.str _), _, h | .exp (.varBlock _ _ _ _), _, h
  | .exp (.callFunc _ _ _ _), _, h | .exp (.binary _ _ _), _, h | .exp (.unary _), _, h
  | .exp (.takePtr _), _, h | .exp (.takeVal _ _), _, h | .exp (.arrayInit _ _), _, h
  | .exp (.structInit _ _), _, h | .define _ _, _, h | .ret _, _, h | .yield _, _, h
  | .leaf, _, h | .sl _, _, h => h.elim

theorem layouts_read : ∀ ns : List Node, nodesBareFns ns = [] → readsFirst k (layoutTraces ns) →
    k ∈ nodesDefs ns ∨ k ∈ nodesAllAwaits ns
  | [], _, h => h.elim
  | n :: ns, hb, h => by
    simp only [nodesDefs, nodesAllAwaits, List.mem_append]
    rcases readsFirst_or h with h | h
    · exact (Node.layout_reads n (append_nil hb).1 h).imp .inl .inl
    · exact (layouts_read ns (append_nil hb).2 h).imp .inr .inr
end

end Reads

/-! ### What is left set -/

mutual
/-- Apart from function literals, the slots are those of definitions and awaits. -/
theorem Node.slotted_cases {k : Ref} : ∀ n : Node, n.bareFns = [] → k ∈ n.slotted →
    k ∈ n.defs ∨ k ∈ n.givenAwaits
  | .exp e, hb, h => by
    cases e with
    | inlineFunc => exact absurd hb (List.cons_ne_nil _ _)
    | _ => exact .inr h
  | .define _ _, _, h => .inl h
  | .defAndAssign r _ e, _, h => (List.mem_cons.mp h).imp_left List.mem_singleton.mpr
  | .ifN _ sts, hb, h => slottedAll_cases sts (append_nil hb).2 h
  | .ifElse _ sts _, hb, h =>
    (slottedAll_cases sts (append_nil (append_nil hb).1).2 h).imp_left (List.mem_append_left _)
  | .forN _ _ _ sts, hb, h =>
    (slottedAll_cases sts (append_nil hb).2 h).imp_left (List.mem_append_right _)
  | .leaf, _, h | .ret _, _, h | .yield _, _, h | .sl _, _, h => absurd h List.not_mem_nil

theorem slottedAll_cases {k : Ref} : ∀ ns : List Node, nodesBareFns ns = [] →
    k ∈ slottedAll ns → k ∈ nodesDefs ns ∨ k ∈ givenAwaitsAll ns
  | [], _, h => absurd h List.not_mem_nil
  | n :: ns, hb, h => by
    simp only [nodesDefs, givenAwaitsAll, List.mem_append]
    rcases List.mem_append.mp h with h | h
    · exact (Node.slotted_cases n (append_nil hb).1 h).imp .inl .inl
    · exact (slottedAll_cases ns (append_nil hb).2 h).imp .inr .inr
end

mutual
/-- What the walk evaluates has a slot, and it is read in the walk. -/
theorem Node.evaluated_spec {k : Ref} : ∀ n : Node, k ∈ n.evaluated →
    k ∈ n.slotted ∧ k ∈ keys n.layoutTrace
  | .exp e, h => by
    cases e with
    | await r e =>
      obtain rfl := List.mem_singleton.mp h
      exact ⟨h, List.mem_cons_self⟩
    | _ => exact absurd h List.not_mem_nil
  | .defAndAssign r _ e, h => by
    refine ⟨h, ?_⟩
    rcases List.mem_cons.mp h with rfl | h
    · exact List.mem_cons_self
    · cases e with
      | await w e =>
        obtain rfl := List.mem_singleton.mp h
        exact List.mem_cons_of_mem _ List.mem_cons_self
      | _ => exact absurd h List.not_mem_nil
  | .ifN _ sts, h | .ifElse _ sts _, h | .forN _ _ _ sts, h => evaluatedAll_spec sts h
  | .leaf, h | .define _ _, h | .ret _, h | .yield _, h | .sl _, h => absurd h List.not_mem_nil

theorem evaluatedAll_spec {k : Ref} : ∀ ns : List Node, k ∈ evaluatedAll ns →
    k ∈ slottedAll ns ∧ k ∈ keys (layoutTraces ns)
  | [], h => absurd h List.not_mem_nil
  | n :: ns, h => by
    simp only [slottedAll, layoutTraces, keys_append, List.mem_append]
    rcases List.mem_append.mp h with h | h
    · exact (Node.evaluated_spec n h).imp .inl .inl
    · exact (evaluatedAll_spec ns h).imp .inr .inr
end

mutual
/-- An await that the walk meets makes the function a generator. -/
theorem Node.givenAwaits_spec {k : Ref} : ∀ n : Node, k ∈ n.givenAwaits →
    k ∈ n.evaluated ∧ n.suspends = true
  | .exp e, h => by
    cases e with
    | await => exact ⟨h, rfl⟩
    | _ => exact absurd h List.not_mem_nil
  | .defAndAssign r _ e, h => by
    cases e with
    | await => exact ⟨List.mem_cons_of_mem _ h, rfl⟩
    | _ => exact absurd h List.not_mem_nil
  | .ifN _ sts, h =>
    (givenAwaitsAll_spec sts h).imp_right fun hs => by simp [Node.suspends, hs]
  | .ifElse _ sts _, h =>
    (givenAwaitsAll_spec sts h).imp_right fun hs => by simp [Node.suspends, hs]
  | .forN _ _ _ sts, h =>
    (givenAwaitsAll_spec sts h).imp_right fun hs => by simp [Node.suspends, hs]
  | .leaf, h | .define _ _, h | .ret _, h | .yield _, h | .sl _, h => absurd h List.not_mem_nil

theorem givenAwaitsAll_spec {k : Ref} : ∀ ns : List Node, k ∈ givenAwaitsAll ns →
    k ∈ evaluatedAll ns ∧ nodesSuspend ns = true
  | [], h => absurd h List.not_mem_nil
  | n :: ns, h => by
    simp only [evaluatedAll, nodesSuspend, List.mem_append, Bool.or_eq_true]
    rcases List.mem_append.mp h with h | h
    · exact (Node.givenAwaits_spec n h).imp .inl .inl
    · exact (givenAwaitsAll_spec ns h).imp .inr .inr
end

section Leaves

variable {k : Ref}

/-- What a piece of code leaves of a closure that it does not clear: `aw` are the awaits
whose closures it sets. -/
def LeftBy (k : Ref) (d : Bool) (aw : List Ref) (t : List (Cells.Access Ref Bool)) : Prop :=
  lastWrite k t = if k ∈ aw then some (some d) else none

theorem LeftBy.nil (d : Bool) : LeftBy k d [] [] := rfl

theorem LeftBy.append {d : Bool} {aw aw' : List Ref} {t u : List (Cells.Access Ref Bool)}
    (ht : LeftBy k d aw t) (hu : LeftBy k d aw' u) : LeftBy k d (aw ++ aw') (t ++ u) := by
  unfold LeftBy at *
  rw [lastWrite_append, ht, hu]
  by_cases h : k ∈ aw <;> by_cases h' : k ∈ aw' <;> simp [h, h']

theorem LeftBy.congr {d : Bool} {aw aw' : List Ref} {t : List (Cells.Access Ref Bool)}
    (h : LeftBy k d aw t) (haw : k ∈ aw ↔ k ∈ aw') : LeftBy k d aw' t := by
  unfold LeftBy at *
  simp only [h, haw]

theorem LeftBy.get {d : Bool} {aw : List Ref} {t : List (Cells.Access Ref Bool)} (r : Ref)
    (h : LeftBy k d aw t) : LeftBy k d aw (.get r :: t) := by
  unfold LeftBy at *
  rw [← h]
  simp [lastWrite, Cells.Access.writes]

theorem not_mem_or {t u : List Ref} (h : k ∉ t ++ u) : k ∉ t ∧ k ∉ u :=
  not_or.mp (mt List.mem_append.mpr h)

/-- A function literal: its walk, the slots it sets, its body. -/
theorem LeftBy.literal {d gen : Bool} {defs slots given aw : List Ref}
    {walk t : List (Cells.Access Ref Bool)} (hdefs : k ∉ defs) (hslots : k ∈ slots ↔ k ∈ given)
    (hgen : k ∈ given → gen = true) (hwalk : k ∉ aw → lastWrite k walk = none)
    (ht : LeftBy k d aw t) :
    LeftBy k d (given ++ aw)
      (defs.map .clear ++ if gen then walk ++ (slots.map (.set · d) ++ t) else t) := by
  have hclear : lastWrite k (defs.map (.clear : Ref → Cells.Access Ref Bool)) = none :=
    lastWrite_of_not_mem (by rwa [keys_clear])
  unfold LeftBy at *
  rw [lastWrite_append, hclear, Option.or_none]
  by_cases hk : k ∈ given
  · rw [if_pos (hgen hk), lastWrite_append, lastWrite_append, ht,
      lastWrite_set d (hslots.mpr hk), if_pos (List.mem_append_left _ hk)]
    by_cases haw : k ∈ aw <;> simp [haw]
  · have hset : lastWrite k (slots.map (.set · d)) = none :=
      lastWrite_of_not_mem (by rw [keys_set]; exact mt hslots.mp hk)
    by_cases haw : k ∈ aw
    · split <;> simp [lastWrite_append, ht, haw]
    · split <;> simp [lastWrite_append, ht, haw, hk, hset, hwalk haw]

mutual
/-- Code that does not clear a closure leaves it alone, or sets it if it is an await of a
function literal. -/
theorem ExpNode.leaves (d : Bool) : ∀ e : ExpNode, e.bareFns = [] → k ∉ e.innerDefs →
    LeftBy k d e.laidAwaits (e.trace d)
  | .null, _, _ | .lit, _, _ | .str _, _, _ => .nil d
  | .varBlock _ _ _ es, hb, h | .arrayInit _ es, hb, h | .structInit _ es, hb, h =>
    exps_leave d es hb h
  | .callFunc generics ps f n, hb, h => by
    obtain ⟨hb, hn⟩ := append_nil hb
    obtain ⟨hf, hps⟩ := append_nil hb
    obtain ⟨h, hkn⟩ := not_mem_or h
    obtain ⟨hkf, hkps⟩ := not_mem_or h
    have hcallee : LeftBy k d (if f.isGeneric generics then [] else f.laidAwaits)
        (if f.isGeneric generics then [] else f.trace d) := by
      split
      · exact .nil d
      · exact ExpNode.leaves d f hf hkf
    rw [ExpNode.laidAwaits, List.append_assoc]
    exact (exps_leave d ps hps hkps).append (hcallee.append (ExpNode.leaves d n hn hkn))
  | .binary kind l r, hb, h => by
    obtain ⟨hl, hr⟩ := append_nil hb
    obtain ⟨hkl, hkr⟩ := not_mem_or h
    have h1 := ExpNode.leaves d l hl hkl
    have h2 := ExpNode.leaves d r hr hkr
    rw [ExpNode.trace]
    split
    · refine (h2.append h1).congr ?_
      simp only [ExpNode.laidAwaits, List.mem_append, or_comm]
    · exact h1.append h2
  | .unary e, hb, h | .takePtr e, hb, h | .takeVal _ e, hb, h => ExpNode.leaves d e hb h
  | .await r e, hb, h => (ExpNode.leaves d e hb h).get r
  | .inlineFunc _ _ async body, hb, h => by
    obtain ⟨hdefs, hinner⟩ := not_mem_or h
    have hslots : k ∈ slottedAll body ↔ k ∈ givenAwaitsAll body :=
      ⟨fun hk => (slottedAll_cases body hb hk).resolve_left hdefs,
        fun hk => (evaluatedAll_spec body (givenAwaitsAll_spec body hk).1).1⟩
    refine .literal hdefs hslots ?_ (layouts_leave body hb hinner) (nodes_leave d body hb hinner)
    intro hk
    rw [(givenAwaitsAll_spec body hk).2, Bool.or_true]

theorem exps_leave (d : Bool) : ∀ es : List ExpNode, expsBareFns es = [] →
    k ∉ expsInnerDefs es → LeftBy k d (expsLaidAwaits es) (expsTrace d es)
  | [], _, _ => .nil d
  | e :: es, hb, h =>
    (ExpNode.leaves d e (append_nil hb).1 (not_mem_or h).1).append
      (exps_leave d es (append_nil hb).2 (not_mem_or h).2)

theorem Node.leaves (d : Bool) : ∀ n : Node, n.bareFns = [] → k ∉ n.innerDefs →
    LeftBy k d n.laidAwaits (n.trace d)
  | .exp e, hb, h => ExpNode.leaves d e (Node.exp_bareFns hb) h
  | .ret e, hb, h | .yield e, hb, h => ExpNode.leaves d e hb h
  | .leaf, _, _ => .nil d
  | .define r _, _, _ => (LeftBy.nil d).get r
  | .defAndAssign r _ e, hb, h => (ExpNode.leaves d e hb h).get r
  | .ifN c sts, hb, h => by
    have h1 := nodes_leave d sts (append_nil hb).2 (not_mem_or h).2
    have h2 := ExpNode.leaves d c (append_nil hb).1 (not_mem_or h).1
    refine (h1.append h2).congr ?_
    simp only [Node.laidAwaits, List.mem_append, or_comm]
  | .ifElse c sts el, hb, h => by
    obtain ⟨hb, hel⟩ := append_nil hb
    obtain ⟨h, hkel⟩ := not_mem_or h
    have h1 := ExpNode.leaves d c (append_nil hb).1 (not_mem_or h).1
    have h2 := nodes_leave d sts (append_nil hb).2 (not_mem_or h).2
    rw [Node.laidAwaits, List.append_assoc]
    exact h1.append (h2.append (Node.leaves d el hel hkel))
  | .forN c i a sts, hb, h => by
    obtain ⟨hb, hsts⟩ := append_nil hb
    obtain ⟨hb, ha⟩ := append_nil hb
    obtain ⟨hi, hc⟩ := append_nil hb
    obtain ⟨h, hksts⟩ := not_mem_or h
    obtain ⟨h, hka⟩ := not_mem_or h
    obtain ⟨hki, hkc⟩ := not_mem_or h
    have h1 := Node.leaves d i hi hki
    have h2 := ExpNode.leaves d c hc hkc
    have h3 := nodes_leave d sts hsts hksts
    have h4 := ExpNode.leaves d a ha hka
    refine (h1.append (h2.append (h3.append (h4.append h2)))).congr ?_
    simp only [Node.laidAwaits, List.mem_append]
    tauto
  | .sl cs, hb, h => nodes_leave d cs hb h

theorem nodes_leave (d : Bool) : ∀ ns : List Node, nodesBareFns ns = [] →
    k ∉ nodesInnerDefs ns → LeftBy k d (nodesLaidAwaits ns) (traces d ns)
  | [], _, _ => .nil d
  | n :: ns, hb, h =>
    (Node.leaves d n (append_nil hb).1 (not_mem_or h).1).append
      (nodes_leave d ns (append_nil hb).2 (not_mem_or h).2)

theorem Node.layout_leaves : ∀ n : Node, n.bareFns = [] → k ∉ n.innerDefs → k ∉ n.laidAwaits →
    lastWrite k n.layoutTrace = none
  | .ifN _ sts, hb, h, hk =>
    layouts_leave sts (append_nil hb).2 (not_mem_or h).2 (not_mem_or hk).2
  | .ifElse _ sts _, hb, h, hk =>
    layouts_leave sts (append_nil (append_nil hb).1).2 (not_mem_or (not_mem_or h).1).2
      (not_mem_or (not_mem_or hk).1).2
  | .forN _ _ _ sts, hb, h, hk =>
    layouts_leave sts (append_nil hb).2 (not_mem_or h).2 (not_mem_or hk).2
  | .exp (.inlineFunc _ _ _ _), hb, _, _ => absurd hb (List.cons_ne_nil _ _)
  | .defAndAssign r _ e, hb, h, hk => ((ExpNode.leaves true e hb h).get r).trans (if_neg hk)
  | .exp (.await r e), hb, h, hk => ((ExpNode.leaves true e hb h).get r).trans (if_neg hk)
  | .exp .null, _, _, _ | .exp .lit, _, _, _ | .exp (.str _), _, _, _
  | .exp (.varBlock _ _ _ _), _, _, _ | .exp (.callFunc _ _ _ _), _, _, _
  | .exp (.binary _ _ _), _, _, _ | .exp (.unary _), _, _, _ | .exp (.takePtr _), _, _, _
  | .exp (.takeVal _ _), _, _, _ | .exp (.arrayInit _ _), _, _, _
  | .exp (.structInit _ _), _, _, _ | .define _ _, _, _, _ | .ret _, _, _, _ | .yield _, _, _, _
  | .leaf, _, _, _ | .sl _, _, _, _ => rfl

theorem layouts_leave : ∀ ns : List Node, nodesBareFns ns = [] → k ∉ nodesInnerDefs ns →
    k ∉ nodesLaidAwaits ns → lastWrite k (layoutTraces ns) = none
  | [], _, _, _ => rfl
  | n :: ns, hb, h, hk => by
    rw [layoutTraces, lastWrite_append,
      layouts_leave ns (append_nil hb).2 (not_mem_or h).2 (not_mem_or hk).2,
      Node.layout_leaves n (append_nil hb).1 (not_mem_or h).1 (not_mem_or hk).1]
    rfl
end

/-! ### What is never cleared is read first -/

/-- If the closure is accessed at all, then first by a read. -/
def Met (k : Ref) (t : List (Cells.Access Ref Bool)) : Prop := k ∈ keys t → readsFirst k t

theorem Met.nil : Met k [] := fun h => absurd h List.not_mem_nil

theorem Met.append {t u : List (Cells.Access Ref Bool)} (ht : Met k t) (hu : Met k u) :
    Met k (t ++ u) := by
  intro h
  rw [keys_append] at h
  by_cases hkt : k ∈ keys t
  · exact (readsFirst_append k t u).mpr (.inl (ht hkt))
  · exact (readsFirst_append k t u).mpr (.inr ⟨hkt, hu ((List.mem_append.mp h).resolve_left hkt)⟩)

theorem Met.get {t : List (Cells.Access Ref Bool)} (r : Ref) (h : Met k t) : Met k (.get r :: t) :=
  fun hk => (readsFirst_get k r t).mpr ((List.mem_cons.mp hk).imp_right h)

theorem Met.behind {t u : List (Cells.Access Ref Bool)} (ht : k ∉ keys t) (hu : Met k u) :
    Met k (t ++ u) := Met.append (fun h => absurd h ht) hu

/-- A function literal: its walk reads what it sets and does not clear. -/
theorem Met.literal {d gen : Bool} {defs slots : List Ref} {walk t : List (Cells.Access Ref Bool)}
    (hdefs : k ∉ defs) (hslots : k ∈ slots → k ∈ keys walk) (hwalk : Met k walk) (ht : Met k t) :
    Met k (defs.map .clear ++ if gen then walk ++ (slots.map (.set · d) ++ t) else t) := by
  refine .behind (by rwa [keys_clear]) ?_
  split
  · by_cases hk : k ∈ keys walk
    · exact fun _ => (readsFirst_append k walk _).mpr (.inl (hwalk hk))
    · refine .behind hk (.behind ?_ ht)
      rw [keys_set]
      exact mt hslots hk
  · exact ht

mutual
theorem ExpNode.met (d : Bool) : ∀ e : ExpNode, e.bareFns = [] → k ∉ e.innerDefs →
    Met k (e.trace d)
  | .null, _, _ | .lit, _, _ | .str _, _, _ => .nil
  | .varBlock _ _ _ es, hb, h | .arrayInit _ es, hb, h | .structInit _ es, hb, h =>
    exps_met d es hb h
  | .callFunc generics ps f n, hb, h => by
    obtain ⟨hb, hn⟩ := append_nil hb
    obtain ⟨hf, hps⟩ := append_nil hb
    obtain ⟨h, hkn⟩ := not_mem_or h
    obtain ⟨hkf, hkps⟩ := not_mem_or h
    have hcallee : Met k (if f.isGeneric generics then [] else f.trace d) := by
      split
      · exact .nil
      · exact ExpNode.met d f hf hkf
    exact (exps_met d ps hps hkps).append (hcallee.append (ExpNode.met d n hn hkn))
  | .binary kind l r, hb, h => by
    have h1 := ExpNode.met d l (append_nil hb).1 (not_mem_or h).1
    have h2 := ExpNode.met d r (append_nil hb).2 (not_mem_or h).2
    rw [ExpNode.trace]
    split
    · exact h2.append h1
    · exact h1.append h2
  | .unary e, hb, h | .takePtr e, hb, h | .takeVal _ e, hb, h => ExpNode.met d e hb h
  | .await r e, hb, h => (ExpNode.met d e hb h).get r
  | .inlineFunc _ _ async body, hb, h => by
    obtain ⟨hdefs, hinner⟩ := not_mem_or h
    refine .literal hdefs ?_ (layouts_met body hb hinner) (nodes_met d body hb hinner)
    intro hk
    have hgiven := (slottedAll_cases body hb hk).resolve_left hdefs
    exact (evaluatedAll_spec body (givenAwaitsAll_spec body hgiven).1).2

theorem exps_met (d : Bool) : ∀ es : List ExpNode, expsBareFns es = [] → k ∉ expsInnerDefs es →
    Met k (expsTrace d es)
  | [], _, _ => .nil
  | e :: es, hb, h =>
    (ExpNode.met d e (append_nil hb).1 (not_mem_or h).1).append
      (exps_met d es (append_nil hb).2 (not_mem_or h).2)

theorem Node.met (d : Bool) : ∀ n : Node, n.bareFns = [] → k ∉ n.innerDefs → Met k (n.trace d)
  | .exp e, hb, h => ExpNode.met d e (Node.exp_bareFns hb) h
  | .ret e, hb, h | .yield e, hb, h => ExpNode.met d e hb h
  | .leaf, _, _ => .nil
  | .define r _, _, _ => Met.nil.get r
  | .defAndAssign r _ e, hb, h => (ExpNode.met d e hb h).get r
  | .ifN c sts, hb, h =>
    (nodes_met d sts (append_nil hb).2 (not_mem_or h).2).append
      (ExpNode.met d c (append_nil hb).1 (not_mem_or h).1)
  | .ifElse c sts el, hb, h => by
    obtain ⟨hb, hel⟩ := append_nil hb
    obtain ⟨h, hkel⟩ := not_mem_or h
    have h1 := ExpNode.met d c (append_nil hb).1 (not_mem_or h).1
    have h2 := nodes_met d sts (append_nil hb).2 (not_mem_or h).2
    exact h1.append (h2.append (Node.met d el hel hkel))
  | .forN c i a sts, hb, h => by
    obtain ⟨hb, hsts⟩ := append_nil hb
    obtain ⟨hb, ha⟩ := append_nil hb
    obtain ⟨hi, hc⟩ := append_nil hb
    obtain ⟨h, hksts⟩ := not_mem_or h
    obtain ⟨h, hka⟩ := not_mem_or h
    obtain ⟨hki, hkc⟩ := not_mem_or h
    have hcond := ExpNode.met d c hc hkc
    exact (Node.met d i hi hki).append (hcond.append ((nodes_met d sts hsts hksts).append
      ((ExpNode.met d a ha hka).append hcond)))
  | .sl cs, hb, h => nodes_met d cs hb h

theorem nodes_met (d : Bool) : ∀ ns : List Node, nodesBareFns ns = [] → k ∉ nodesInnerDefs ns →
    Met k (traces d ns)
  | [], _, _ => .nil
  | n :: ns, hb, h =>
    (Node.met d n (append_nil hb).1 (not_mem_or h).1).append
      (nodes_met d ns (append_nil hb).2 (not_mem_or h).2)

theorem Node.layout_met : ∀ n : Node, n.bareFns = [] → k ∉ n.innerDefs → Met k n.layoutTrace
  | .ifN _ sts, hb, h => layouts_met sts (append_nil hb).2 (not_mem_or h).2
  | .ifElse _ sts _, hb, h =>
    layouts_met sts (append_nil (append_nil hb).1).2 (not_mem_or (not_mem_or h).1).2
  | .forN _ _ _ sts, hb, h => layouts_met sts (append_nil hb).2 (not_mem_or h).2
  | .exp (.inlineFunc _ _ _ _), hb, _ => absurd hb (List.cons_ne_nil _ _)
  | .defAndAssign r _ e, hb, h => (ExpNode.met true e hb h).get r
  | .exp (.await r e), hb, h => (ExpNode.met true e hb h).get r
  | .exp .null, _, _ | .exp .lit, _, _ | .exp (.str _), _, _
  | .exp (.varBlock _ _ _ _), _, _ | .exp (.callFunc _ _ _ _), _, _
  | .exp (.binary _ _ _), _, _ | .exp (.unary _), _, _ | .exp (.takePtr _), _, _
  | .exp (.takeVal _ _), _, _ | .exp (.arrayInit _ _), _, _
  | .exp (.structInit _ _), _, _ | .define _ _, _, _ | .ret _, _, _ | .yield _, _, _
  | .leaf, _, _ | .sl _, _, _ => .nil

theorem layouts_met : ∀ ns : List Node, nodesBareFns ns = [] → k ∉ nodesInnerDefs ns →
    Met k (layoutTraces ns)
  | [], _, _ => .nil
  | n :: ns, hb, h =>
    (Node.layout_met n (append_nil hb).1 (not_mem_or h).1).append
      (layouts_met ns (append_nil hb).2 (not_mem_or h).2)
end

end Leaves

/-! ## Independent instances -/

mutual
/-- Without anything to evaluate, the walk accesses no closure. -/
theorem Node.layoutTrace_eq_nil : ∀ n : Node, n.bareFns = [] → n.evaluated = [] →
    n.layoutTrace = []
  | .ifN _ sts, hb, h => layoutTraces_eq_nil sts (append_nil hb).2 h
  | .ifElse _ sts _, hb, h => layoutTraces_eq_nil sts (append_nil (append_nil hb).1).2 h
  | .forN _ _ _ sts, hb, h => layoutTraces_eq_nil sts (append_nil hb).2 h
  | .exp (.inlineFunc _ _ _ _), hb, _ => absurd hb (List.cons_ne_nil _ _)
  | .defAndAssign _ _ _, _, h | .exp (.await _ _), _, h => absurd h (List.cons_ne_nil _ _)
  | .exp .null, _, _ | .exp .lit, _, _ | .exp (.str _), _, _
  | .exp (.varBlock _ _ _ _), _, _ | .exp (.callFunc _ _ _ _), _, _
  | .exp (.binary _ _ _), _, _ | .exp (.unary _), _, _ | .exp (.takePtr _), _, _
  | .exp (.takeVal _ _), _, _ | .exp (.arrayInit _ _), _, _
  | .exp (.structInit _ _), _, _ | .define _ _, _, _ | .ret _, _, _ | .yield _, _, _
  | .leaf, _, _ | .sl _, _, _ => rfl

theorem layoutTraces_eq_nil : ∀ ns : List Node, nodesBareFns ns = [] → evaluatedAll ns = [] →
    layoutTraces ns = []
  | [], _, _ => rfl
  | n :: ns, hb, h => by
    rw [layoutTraces, Node.layoutTrace_eq_nil n (append_nil hb).1 (append_nil h).1,
      layoutTraces_eq_nil ns (append_nil hb).2 (append_nil h).2]
    rfl
end

theorem append_mono_subset {t t' u u' : List Ref} (h : t ⊆ t') (h' : u ⊆ u') :
    t ++ u ⊆ t' ++ u' :=
  List.append_subset.mpr ⟨List.Subset.trans h (List.subset_append_left _ _),
    List.Subset.trans h' (List.subset_append_right _ _)⟩

mutual
theorem Node.givenAwaits_subset : ∀ n : Node, n.givenAwaits ⊆ n.allAwaits
  | .exp e => by
    cases e with
    | await => exact List.cons_subset_cons _ (List.nil_subset _)
    | _ => exact List.nil_subset _
  | .defAndAssign _ _ e => by
    cases e with
    | await => exact List.cons_subset_cons _ (List.nil_subset _)
    | _ => exact List.nil_subset _
  | .ifN _ sts => List.subset_append_of_subset_right _ (givenAwaitsAll_subset sts)
  | .ifElse _ sts _ => List.subset_append_of_subset_left _
      (List.subset_append_of_subset_right _ (givenAwaitsAll_subset sts))
  | .forN _ _ _ sts => List.subset_append_of_subset_right _ (givenAwaitsAll_subset sts)
  | .leaf | .define _ _ | .ret _ | .yield _ | .sl _ => List.nil_subset _

theorem givenAwaitsAll_subset : ∀ ns : List Node, givenAwaitsAll ns ⊆ nodesAllAwaits ns
  | [] => List.nil_subset _
  | n :: ns => append_mono_subset (Node.givenAwaits_subset n) (givenAwaitsAll_subset ns)
end

mutual
theorem ExpNode.laidAwaits_subset : ∀ e : ExpNode, e.laidAwaits ⊆ e.allAwaits
  | .null | .lit | .str _ => List.nil_subset _
  | .varBlock _ _ _ es | .arrayInit _ es | .structInit _ es => expsLaidAwaits_subset es
  | .callFunc generics ps f n => by
    intro k hk
    simp only [ExpNode.laidAwaits, ExpNode.allAwaits, List.mem_append] at hk ⊢
    rcases hk with (hk | hk) | hk
    · exact .inl (.inr (expsLaidAwaits_subset ps hk))
    · split at hk
      · exact absurd hk List.not_mem_nil
      · exact .inl (.inl (ExpNode.laidAwaits_subset f hk))
    · exact .inr (ExpNode.laidAwaits_subset n hk)
  | .binary _ l r =>
    append_mono_subset (ExpNode.laidAwaits_subset l) (ExpNode.laidAwaits_subset r)
  | .unary e | .takePtr e | .takeVal _ e => ExpNode.laidAwaits_subset e
  | .await _ e => List.subset_cons_of_subset _ (ExpNode.laidAwaits_subset e)
  | .inlineFunc _ _ _ body =>
    List.append_subset.mpr ⟨givenAwaitsAll_subset body, nodesLaidAwaits_subset body⟩

theorem expsLaidAwaits_subset : ∀ es : List ExpNode, expsLaidAwaits es ⊆ expsAllAwaits es
  | [] => List.nil_subset _
  | e :: es => append_mono_subset (ExpNode.laidAwaits_subset e) (expsLaidAwaits_subset es)

theorem Node.laidAwaits_subset : ∀ n : Node, n.laidAwaits ⊆ n.allAwaits
  | .exp e | .ret e | .yield e | .defAndAssign _ _ e => ExpNode.laidAwaits_subset e
  | .leaf | .define _ _ => List.nil_subset _
  | .ifN c sts =>
    append_mono_subset (ExpNode.laidAwaits_subset c) (nodesLaidAwaits_subset sts)
  | .ifElse c sts el =>
    append_mono_subset
      (append_mono_subset (ExpNode.laidAwaits_subset c) (nodesLaidAwaits_subset sts))
      (Node.laidAwaits_subset el)
  | .forN c i a sts =>
    append_mono_subset (append_mono_subset
      (append_mono_subset (Node.laidAwaits_subset i) (ExpNode.laidAwaits_subset c))
      (ExpNode.laidAwaits_subset a)) (nodesLaidAwaits_subset sts)
  | .sl cs => nodesLaidAwaits_subset cs

theorem nodesLaidAwaits_subset : ∀ ns : List Node, nodesLaidAwaits ns ⊆ nodesAllAwaits ns
  | [] => List.nil_subset _
  | n :: ns => append_mono_subset (Node.laidAwaits_subset n) (nodesLaidAwaits_subset ns)
end

variable {f : FuncNode} {k : Ref}

/-- The function's own definitions and awaits are no definitions of its literals. -/
theorem FuncNode.not_innerDefs
    (hk : k ∈ nodesDefs f.body.statements ∨ k ∈ nodesAllAwaits f.body.statements) :
    k ∉ nodesInnerDefs f.body.statements := by
  intro hin
  have hcount := count_nodesParts k f.body.statements
  have hone := List.nodup_iff_count_le_one.mp f.body.nodup k
  have hpos := List.count_pos_iff.mpr hin
  rcases hk with hk | hk
  · have := List.count_pos_iff.mpr hk
    omega
  · have := List.count_pos_iff.mpr hk
    omega

/-- A definition is no await. -/
theorem FuncNode.not_defs (hk : k ∈ nodesAllAwaits f.body.statements) :
    k ∉ nodesDefs f.body.statements := by
  intro hin
  have hcount := count_nodesParts k f.body.statements
  have hone := List.nodup_iff_count_le_one.mp f.body.nodup k
  have := List.count_pos_iff.mpr hin
  have := List.count_pos_iff.mpr hk
  omega

/-- In a separate function, no closure that an instance reads first is left set by another. -/
theorem FuncNode.Separate.apart (h : f.Separate) {l : Bool} (hk : readsFirst k f.trace) :
    lastWrite k f.trace ≠ some (some l) := by
  unfold FuncNode.trace at *
  rw [layoutTraces_eq_nil _ f.parsed h.1, List.nil_append] at *
  obtain ⟨hslot, hk⟩ := readsFirst_behind (not_readsFirst_set k _ _) hk
  have hinner := FuncNode.not_innerDefs (nodes_read false _ f.parsed hk)
  have hbody : lastWrite k (traces false f.body.statements) = none := by
    rw [nodes_leave false _ f.parsed hinner, h.2]
    rfl
  rw [lastWrite_append, hbody, lastWrite_of_not_mem hslot]
  exact Option.some_ne_none (some l) ∘ Eq.symm

/-- What the walk evaluates, or that of a literal, is read first and left set. -/
theorem FuncNode.carried
    (hk : k ∈ evaluatedAll f.body.statements ∨ k ∈ nodesLaidAwaits f.body.statements) :
    readsFirst k f.trace ∧ lastWrite k f.trace = some (some false) := by
  have hparts : k ∈ nodesDefs f.body.statements ∨ k ∈ nodesAllAwaits f.body.statements := by
    rcases hk with hk | hk
    · exact (slottedAll_cases _ f.parsed (evaluatedAll_spec _ hk).1).imp_right
        fun h => givenAwaitsAll_subset _ h
    · exact .inr (nodesLaidAwaits_subset _ hk)
  have hinner := FuncNode.not_innerDefs hparts
  have hbody := nodes_leave false _ f.parsed hinner
  unfold FuncNode.trace
  constructor
  · by_cases hwalk : k ∈ keys (layoutTraces f.body.statements)
    · exact (readsFirst_append k _ _).mpr (.inl (layouts_met _ f.parsed hinner hwalk))
    · -- an await of a literal, without a slot in the function's own frame
      have hlaid := hk.resolve_left (mt (fun h => (evaluatedAll_spec _ h).2) hwalk)
      have hslot : k ∉ slottedAll f.body.statements := by
        intro hs
        rcases slottedAll_cases _ f.parsed hs with hs | hs
        · exact FuncNode.not_defs (nodesLaidAwaits_subset _ hlaid) hs
        · exact hwalk (evaluatedAll_spec _ (givenAwaitsAll_spec _ hs).1).2
      have hkeys : k ∈ keys (traces false f.body.statements) := by
        by_contra hnot
        rw [LeftBy, if_pos hlaid, lastWrite_of_not_mem hnot] at hbody
        exact Option.some_ne_none _ hbody.symm
      refine (readsFirst_append k _ _).mpr (.inr ⟨hwalk, (readsFirst_append k _ _).mpr (.inr ?_)⟩)
      exact ⟨by rwa [keys_set], nodes_met false _ f.parsed hinner hkeys⟩
  · rw [lastWrite_append, lastWrite_append, hbody]
    by_cases hlaid : k ∈ nodesLaidAwaits f.body.statements
    · rw [if_pos hlaid]
      rfl
    · have heval := hk.resolve_right hlaid
      rw [if_neg hlaid, lastWrite_set false (evaluatedAll_spec _ heval).1]
      rfl

/-- `func echo<T>(p T) ... { x := p }`, with a generator's result type. -/
def echo : FuncNode where
  params := [['p']]
  body := ⟨[.defAndAssign 0 ['x'] (.varBlock 1 ['p'] [] [])], by decide⟩
  parsed := rfl

/-- Everything has the type that is the type argument. -/
def byArgument : Typing Bool Bool := ⟨fun a _ => a, fun a _ ts => ts.headD (.of a), fun _ t => t⟩

/-- The type of the program that a field has. -/
def FrameTy.named : FrameTy τ → Option τ
  | .of t => some t
  | _ => none

/-- The fields that an instruction lays out. -/
def Instr.fields : Instr τ → List (FrameTy τ)
  | .newTypeDef rtp => rtp
  | _ => []

/-- The types of the program that the frames have fields of. -/
def fieldTypes (code : List (Fn × Instr τ)) : List τ :=
  code.flatMap fun w => w.2.fields.filterMap FrameTy.named

end CalcLang.Ast
