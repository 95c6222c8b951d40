import CalcLang.Ast.Frame
import Mathlib.Data.List.Nodup
import Mathlib.Data.List.Perm.Subperm

/-!
# When the frame is complete

`frame_complete_iff`: the frame of a body is `Framed` exactly if everything in
the body that needs a slot stands where `buildCtx` looks (`CoveredAll`).

What the walk gives a slot is read off the text (`Node.given`), and `Build.Good`
is what holds of a frame under construction: the nodes given one so far have one,
at a path that starts above the three leading fields, of the right type, and no
two of them overlap. One lemma for each way a field is appended, one induction
over the statements. The converse counts: `given` is a sublist of the
definitions and awaits, and a body that is not covered has fewer of the one than
of the other.
-/

namespace CalcLang.Ast

variable {τ : Type}

/-! ## What the walk gives a slot -/

/-- The await that an expression is. -/
def ExpNode.givenAwait : ExpNode → List Ref
  | .await r _ => [r]
  | _ => []

mutual
/-- The nodes that `buildCtx` appends a field for, outside inner functions. -/
def Node.given : Node → List Ref
  | .exp e => e.givenAwait
  | .define r _ => [r]
  | .defAndAssign r _ e => r :: e.givenAwait
  | .ifN _ sts | .ifElse _ sts _ | .forN _ _ _ sts => givenAll sts
  | _ => []

def givenAll : List Node → List Ref
  | [] => []
  | n :: ns => n.given ++ givenAll ns
end

mutual
/-- The nodes in the inner functions that `buildCtx` walks as well. -/
def Node.inner : Node → List Ref
  | .exp (.inlineFunc _ _ _ body) => refsNodes body
  | .ifN _ sts | .ifElse _ sts _ | .forN _ _ _ sts => innerAll sts
  | _ => []

def innerAll : List Node → List Ref
  | [] => []
  | n :: ns => n.inner ++ innerAll ns
end

/-! ## Counting -/

mutual
private theorem count_awaits (r : Ref) : ∀ e : ExpNode, e.awaits.count r ≤ e.refs.count r
  | .null | .lit | .str _ | .inlineFunc _ _ _ _ => by simp [ExpNode.awaits]
  | .varBlock _ _ _ es | .arrayInit _ es | .structInit _ es => by
    have := count_expsAwaits r es
    simp only [ExpNode.awaits, ExpNode.refs, List.count_cons]
    omega
  | .callFunc _ ps f n => by
    have := count_expsAwaits r ps
    have := count_awaits r f
    have := count_awaits r n
    simp only [ExpNode.awaits, ExpNode.refs, List.count_append]
    omega
  | .binary _ a b => by
    have := count_awaits r a
    have := count_awaits r b
    simp only [ExpNode.awaits, ExpNode.refs, List.count_append]
    omega
  | .unary e | .takePtr e | .takeVal _ e => count_awaits r e
  | .await _ e => by
    have := count_awaits r e
    simp only [ExpNode.awaits, ExpNode.refs, List.count_cons]
    omega

private theorem count_expsAwaits (r : Ref) :
    ∀ es : List ExpNode, (expsAwaits es).count r ≤ (refsExps es).count r
  | [] => by simp [expsAwaits]
  | e :: es => by
    have := count_awaits r e
    have := count_expsAwaits r es
    simp only [expsAwaits, refsExps, List.count_append]
    omega
end

mutual
/-- The definitions and awaits of a statement, and what is in the inner functions
it walks, are different nodes of it. -/
private theorem count_vals (r : Ref) :
    ∀ n : Node, n.vals.count r + n.inner.count r ≤ n.refs.count r
  | .exp e => by
    have := count_awaits r e
    cases e <;> simp_all [Node.vals, Node.inner, Node.refs, ExpNode.refs, ExpNode.awaits,
      List.count_cons]
  | .ret e | .yield e => by
    have := count_awaits r e
    simpa [Node.vals, Node.inner, Node.refs] using this
  | .leaf | .define _ _ => by simp [Node.vals, Node.inner, Node.refs]
  | .defAndAssign _ _ e => by
    have := count_awaits r e
    simp only [Node.vals, Node.inner, Node.refs, List.count_cons, List.count_nil]
    omega
  | .ifN c sts => by
    have := count_awaits r c
    have := count_nodesVals r sts
    simp only [Node.vals, Node.inner, Node.refs, List.count_append]
    omega
  | .ifElse c sts el => by
    have := count_awaits r c
    have := count_nodesVals r sts
    have := count_vals r el
    simp only [Node.vals, Node.inner, Node.refs, List.count_append]
    omega
  | .forN c d a sts => by
    have := count_awaits r c
    have := count_awaits r a
    have := count_nodesVals r sts
    have := count_vals r d
    simp only [Node.vals, Node.inner, Node.refs, List.count_append]
    omega
  | .sl cs => by
    have := count_nodesVals r cs
    simp only [Node.vals, Node.inner, Node.refs, List.count_nil]
    omega

private theorem count_nodesVals (r : Ref) :
    ∀ ns : List Node, (nodesVals ns).count r + (innerAll ns).count r ≤ (refsNodes ns).count r
  | [] => by simp [nodesVals, innerAll]
  | n :: ns => by
    have := count_vals r n
    have := count_nodesVals r ns
    simp only [nodesVals, innerAll, refsNodes, List.count_append]
    omega
end

theorem Body.vals_nodup (b : Body) : (nodesVals b.statements).Nodup := by
  rw [List.nodup_iff_count_le_one]
  intro r
  have := count_nodesVals r b.statements
  have := List.nodup_iff_count_le_one.mp b.nodup r
  omega

/-- What needs a slot is not in an inner function. -/
theorem Body.not_inner (b : Body) {r : Ref} (h : r ∈ nodesVals b.statements) :
    r ∉ innerAll b.statements := by
  intro hin
  have := count_nodesVals r b.statements
  have := List.nodup_iff_count_le_one.mp b.nodup r
  have := List.count_pos_iff.mpr h
  have := List.count_pos_iff.mpr hin
  omega

/-! ## Covered means all are given -/

theorem ExpNode.givenAwait_length (e : ExpNode) :
    e.givenAwait.length + e.innerAwaits.length = e.awaits.length := by
  cases e <;> simp [givenAwait, innerAwaits, awaits, Nat.add_comm]

mutual
private theorem Node.given_sublist : ∀ n : Node, n.given.Sublist n.vals
  | .exp e => by cases e <;> simp [Node.given, Node.vals, ExpNode.givenAwait, ExpNode.awaits]
  | .ret _ | .yield _ | .leaf | .define _ _ | .sl _ => by simp [Node.given, Node.vals]
  | .defAndAssign _ _ e => by
    cases e <;> simp [Node.given, Node.vals, ExpNode.givenAwait, ExpNode.awaits]
  | .ifN c sts => (givenAll_sublist sts).trans (List.sublist_append_right _ _)
  | .ifElse c sts el =>
    ((givenAll_sublist sts).trans (List.sublist_append_right _ _)).trans
      (List.sublist_append_left _ _)
  | .forN c d a sts => (givenAll_sublist sts).trans (List.sublist_append_right _ _)

private theorem givenAll_sublist : ∀ ns : List Node, (givenAll ns).Sublist (nodesVals ns)
  | [] => .slnil
  | n :: ns => n.given_sublist.append (givenAll_sublist ns)
end

mutual
/-- Everything is given exactly where the statement is covered. -/
private theorem Node.given_length : ∀ n : Node, n.given.length = n.vals.length ↔ n.Covered
  | .exp e => by
    have := e.givenAwait_length
    simp only [Node.given, Node.vals, Node.Covered, ← List.length_eq_zero_iff]
    omega
  | .ret e | .yield e => by
    simp only [Node.given, Node.vals, Node.Covered, ← List.length_eq_zero_iff, List.length_nil]
    omega
  | .leaf | .define _ _ => by simp [Node.given, Node.vals, Node.Covered]
  | .defAndAssign _ _ e => by
    have := e.givenAwait_length
    simp only [Node.given, Node.vals, Node.Covered, ← List.length_eq_zero_iff, List.length_cons]
    omega
  | .ifN c sts => by
    have hle := (givenAll_sublist sts).length_le
    rw [Node.Covered, ← givenAll_length sts, ← List.length_eq_zero_iff, Node.given, Node.vals,
      List.length_append]
    omega
  | .ifElse c sts el => by
    have hle := (givenAll_sublist sts).length_le
    rw [Node.Covered, ← givenAll_length sts, ← List.length_eq_zero_iff, ← List.length_eq_zero_iff,
      Node.given, Node.vals, List.length_append, List.length_append]
    omega
  | .forN c d a sts => by
    have hle := (givenAll_sublist sts).length_le
    rw [Node.Covered, ← givenAll_length sts, ← List.length_eq_zero_iff, ← List.length_eq_zero_iff,
      ← List.length_eq_zero_iff, Node.given, Node.vals, List.length_append, List.length_append,
      List.length_append]
    omega
  | .sl cs => by
    simp only [Node.given, Node.vals, Node.Covered, ← List.length_eq_zero_iff, List.length_nil]
    omega

private theorem givenAll_length : ∀ ns : List Node,
    (givenAll ns).length = (nodesVals ns).length ↔ CoveredAll ns
  | [] => by simp [givenAll, nodesVals, CoveredAll]
  | n :: ns => by
    have hn := n.given_sublist.length_le
    have hns := (givenAll_sublist ns).length_le
    rw [CoveredAll, ← n.given_length, ← givenAll_length ns, givenAll, nodesVals,
      List.length_append, List.length_append]
    omega
end

/-- A body is covered exactly if everything that needs a slot is given one. -/
theorem Body.covered_iff (b : Body) :
    CoveredAll b.statements ↔ ∀ r ∈ nodesVals b.statements, r ∈ givenAll b.statements := by
  rw [← givenAll_length b.statements]
  constructor
  · intro h r hr
    rwa [(givenAll_sublist b.statements).eq_of_length h]
  · intro h
    exact Nat.le_antisymm (givenAll_sublist b.statements).length_le
      (List.subperm_of_subset b.vals_nodup h).length_le

/-! ## Paths -/

mutual
/-- `setVals` under a longer chain of indices. -/
private theorem Ctx.setVals_path (path : List Nat) : ∀ c : Ctx,
    c.setVals path = (c.setVals []).map fun v => (v.1, path ++ v.2)
  | .field _ (some _) => by simp [Ctx.setVals]
  | .field _ none => rfl
  | .sub id idxmap => by
    rw [Ctx.setVals, setValsAll_path, Ctx.setVals, setValsAll_path ([] ++ [id]), List.map_map]
    simp [Function.comp_def]

private theorem setValsAll_path (path : List Nat) : ∀ cs : List Ctx,
    setValsAll path cs = (setValsAll [] cs).map fun v => (v.1, path ++ v.2)
  | [] => rfl
  | c :: cs => by
    rw [setValsAll, setValsAll, List.map_append, Ctx.setVals_path, setValsAll_path]
end

private theorem setValsAll_append (path : List Nat) (cs : List Ctx) (c : Ctx) :
    setValsAll path (cs ++ [c]) = setValsAll path cs ++ c.setVals path := by
  induction cs with
  | nil => simp [setValsAll]
  | cons d cs ih => simp only [List.cons_append, setValsAll, ih, List.append_assoc]

/-- The slots handed out in a frame. -/
abbrev Build.slots (c : Build τ) : List (Ref × List Nat) := setValsAll [] c.idxmap

theorem Build.slots_field (c : Build τ) (t : FrameTy τ) (r : Ref) :
    (c.field t (some r)).slots = c.slots ++ [(r, [c.i])] := by
  rw [Build.slots, Build.field, setValsAll_append]
  rfl

theorem Build.slots_mark (c : Build τ) (t : FrameTy τ) : (c.field t none).slots = c.slots := by
  rw [Build.slots, Build.field, setValsAll_append, Ctx.setVals, List.append_nil]

theorem Build.slots_sub (c d : Build τ) (id : Nat) :
    (c.sub id d).slots = c.slots ++ d.slots.map fun v => (v.1, id :: v.2) := by
  rw [Build.slots, Build.sub, setValsAll_append, Ctx.setVals, setValsAll_path ([] ++ [id])]
  rfl

/-- Fields already laid out keep their types. -/
theorem fieldAt_append {tps : List (FrameTy τ)} {k : Nat} (hk : k < tps.length) (q : List Nat)
    (tps' : List (FrameTy τ)) : fieldAt (tps ++ tps') (k :: q) = fieldAt tps (k :: q) := by
  cases q with
  | nil => simp [fieldAt, List.getElem?_append_left hk]
  | cons k' q => simp [fieldAt, List.getElem?_append_left hk]

/-- The fields of a nested block are those of its own frame. -/
theorem fieldAt_sub (tps fields : List (FrameTy τ)) (k : Nat) (q : List Nat) :
    fieldAt (tps ++ [.struct fields]) (tps.length :: k :: q) = fieldAt fields (k :: q) := by
  simp [fieldAt]

/-! ## The frame under construction -/

/-- What holds of a frame whose walk has given the nodes `given` their slots.
`G` are the nodes of interest. -/
structure Build.Good (tp : Ref → τ) (G : Ref → Prop) (given : List Ref) (c : Build τ) : Prop where
  /-- Types and indices go in lock step. -/
  len : c.tps.length = c.i
  /-- The three leading fields are laid out. -/
  start : 3 ≤ c.i
  /-- Who was given a slot has one, and nobody else. -/
  mem : ∀ r, G r → ((∃ p, (r, p) ∈ c.slots) ↔ r ∈ given)
  /-- A slot lies behind the leading fields and has the right type. -/
  entry : ∀ r p, G r → (r, p) ∈ c.slots →
    ∃ k q, p = k :: q ∧ 3 ≤ k ∧ k < c.i ∧ fieldAt c.tps p = some (.of (tp r))
  /-- No slot lies in another. -/
  apart : ∀ r p r' p', G r → G r' → r ≠ r' → (r, p) ∈ c.slots → (r', p') ∈ c.slots → ¬ p <+: p'

section Good

variable {tp : Ref → τ} {G : Ref → Prop} {given given' : List Ref} {c d : Build τ}

theorem Build.good_start : (Build.start : Build τ).Good tp G [] where
  len := rfl
  start := Nat.le_refl 3
  mem r _ := by simp [Build.start, Build.slots_mark, Build.slots, setValsAll]
  entry r p _ h := by simp [Build.start, Build.slots_mark, Build.slots, setValsAll] at h
  apart r p r' p' _ _ _ h := by simp [Build.start, Build.slots_mark, Build.slots, setValsAll] at h

/-- Nothing appended. -/
theorem Build.Good.keep (h : c.Good tp G given) : c.Good tp G (given ++ []) := by
  rwa [List.append_nil]

/-- A field for nobody. -/
theorem Build.Good.mark (h : c.Good tp G given) (t : FrameTy τ) :
    (c.field t none).Good tp G given where
  len := by
    rw [Build.field, List.length_append, h.len]
    rfl
  start := Nat.le_succ_of_le h.start
  mem r hr := by rw [Build.slots_mark, h.mem r hr]
  entry r p hr hp := by
    rw [Build.slots_mark] at hp
    obtain ⟨k, q, rfl, h3, hk, ht⟩ := h.entry r p hr hp
    refine ⟨k, q, rfl, h3, Nat.lt_succ_of_lt hk, ?_⟩
    rw [Build.field, fieldAt_append (h.len ▸ hk), ht]
  apart r p r' p' hr hr' hne hp hp' := by
    rw [Build.slots_mark] at hp hp'
    exact h.apart r p r' p' hr hr' hne hp hp'

/-- A field for a node. -/
theorem Build.Good.field (h : c.Good tp G given) (r₀ : Ref) :
    (c.field (.of (tp r₀)) (some r₀)).Good tp G (given ++ [r₀]) where
  len := by
    rw [Build.field, List.length_append, h.len]
    rfl
  start := Nat.le_succ_of_le h.start
  mem r hr := by
    rw [Build.slots_field, List.mem_append, ← h.mem r hr]
    simp [exists_or]
  entry r p hr hp := by
    rw [Build.slots_field, List.mem_append, List.mem_singleton] at hp
    rcases hp with hp | hp
    · obtain ⟨k, q, rfl, h3, hk, ht⟩ := h.entry r p hr hp
      refine ⟨k, q, rfl, h3, Nat.lt_succ_of_lt hk, ?_⟩
      rw [Build.field, fieldAt_append (h.len ▸ hk), ht]
    · cases hp
      refine ⟨c.i, [], rfl, h.start, Nat.lt_succ_self _, ?_⟩
      simp [fieldAt, Build.field, ← h.len]
  apart r p r' p' hr hr' hne hp hp' := by
    rw [Build.slots_field, List.mem_append, List.mem_singleton] at hp hp'
    rcases hp with hp | hp <;> rcases hp' with hp' | hp'
    · exact h.apart r p r' p' hr hr' hne hp hp'
    · cases hp'
      obtain ⟨k, q, rfl, -, hk, -⟩ := h.entry r p hr hp
      intro hpre
      have := (List.cons_prefix_cons.mp hpre).1
      omega
    · cases hp
      obtain ⟨k, q, rfl, -, hk, -⟩ := h.entry r' p' hr' hp'
      intro hpre
      have := (List.cons_prefix_cons.mp hpre).1
      omega
    · cases hp
      cases hp'
      exact absurd rfl hne

/-- The frame of a nested block. -/
theorem Build.Good.sub (h : c.Good tp G given) (hd : d.Good tp G given') :
    (c.sub c.i d).Good tp G (given ++ given') where
  len := by
    rw [Build.sub, List.length_append, h.len]
    rfl
  start := Nat.le_succ_of_le h.start
  mem r hr := by
    rw [Build.slots_sub, List.mem_append, ← h.mem r hr, ← hd.mem r hr]
    simp only [List.mem_append, List.mem_map, Prod.mk.injEq, Prod.exists, exists_or]
    refine or_congr_right ⟨?_, ?_⟩
    · rintro ⟨_, r', p', hp', rfl, -⟩
      exact ⟨p', hp'⟩
    · rintro ⟨p', hp'⟩
      exact ⟨_, r, p', hp', rfl, rfl⟩
  entry r p hr hp := by
    rw [Build.slots_sub, List.mem_append, List.mem_map] at hp
    rcases hp with hp | ⟨v, hv, he⟩
    · obtain ⟨k, q, rfl, h3, hk, ht⟩ := h.entry r p hr hp
      refine ⟨k, q, rfl, h3, Nat.lt_succ_of_lt hk, ?_⟩
      rw [Build.sub, fieldAt_append (h.len ▸ hk), ht]
    · cases he
      obtain ⟨k, q, hv', -, -, ht⟩ := hd.entry v.1 v.2 hr hv
      refine ⟨c.i, v.2, rfl, h.start, Nat.lt_succ_self _, ?_⟩
      rw [hv'] at ht ⊢
      rw [Build.sub, ← h.len, fieldAt_sub, ht]
  apart r p r' p' hr hr' hne hp hp' := by
    rw [Build.slots_sub, List.mem_append, List.mem_map] at hp hp'
    rcases hp with hp | ⟨v, hv, he⟩ <;> rcases hp' with hp' | ⟨v', hv', he'⟩
    · exact h.apart r p r' p' hr hr' hne hp hp'
    · cases he'
      obtain ⟨k, q, rfl, -, hk, -⟩ := h.entry r p hr hp
      intro hpre
      have := (List.cons_prefix_cons.mp hpre).1
      omega
    · cases he
      obtain ⟨k, q, rfl, -, hk, -⟩ := h.entry r' p' hr' hp'
      intro hpre
      have := (List.cons_prefix_cons.mp hpre).1
      omega
    · cases he
      cases he'
      intro hpre
      exact hd.apart _ _ _ _ hr hr' hne hv hv' (List.cons_prefix_cons.mp hpre).2

/-- The frame of an inner function, none of whose nodes matter. -/
theorem Build.Good.aside (h : c.Good tp G given) (id : Nat) (hd : ∀ r p, (r, p) ∈ d.slots → ¬ G r) :
    (c.sub id d).Good tp G given := by
  have hslots : ∀ r p, G r → ((r, p) ∈ (c.sub id d).slots ↔ (r, p) ∈ c.slots) := by
    intro r p hr
    rw [Build.slots_sub, List.mem_append, List.mem_map, or_iff_left]
    rintro ⟨v, hv, he⟩
    cases he
    exact hd _ _ hv hr
  constructor
  · rw [Build.sub, List.length_append, h.len]
    rfl
  · exact Nat.le_succ_of_le h.start
  · intro r hr
    rw [← h.mem r hr]
    exact exists_congr fun p => hslots r p hr
  · intro r p hr hp
    obtain ⟨k, q, rfl, h3, hk, ht⟩ := h.entry r p hr ((hslots r p hr).mp hp)
    refine ⟨k, q, rfl, h3, Nat.lt_succ_of_lt hk, ?_⟩
    rw [Build.sub, fieldAt_append (h.len ▸ hk), ht]
  · intro r p r' p' hr hr' hne hp hp'
    exact h.apart r p r' p' hr hr' hne ((hslots r p hr).mp hp) ((hslots r' p' hr').mp hp')

end Good

/-! ## The walk -/

section Walk

variable {tp : Ref → τ} {G : Ref → Prop}

mutual
/-- The walk hands slots to nodes of what it walks only. -/
private theorem Node.trf_slots (r : Ref) (p : List Nat) : ∀ (n : Node) (c : Build τ),
    (r, p) ∈ (n.trf tp c).slots → (r, p) ∈ c.slots ∨ r ∈ n.refs
  | .exp e, c, h => by
    cases e with
    | inlineFunc r₀ ps a body =>
      rw [Node.trf, Build.slots_sub, List.mem_append, List.mem_map] at h
      refine h.imp_right ?_
      rintro ⟨v, hv, he⟩
      cases he
      exact List.mem_cons_of_mem _ (trfs_start_slots _ _ body hv)
    | await a e =>
      rw [Node.trf, Build.slots_field, List.mem_append, List.mem_singleton] at h
      refine h.imp_right ?_
      rintro ⟨rfl, -⟩
      exact List.mem_cons_self
    | _ => exact Or.inl h
  | .define r₀ _, c, h => by
    rw [Node.trf, Build.slots_field, List.mem_append, List.mem_singleton] at h
    refine h.imp_right ?_
    rintro ⟨rfl, -⟩
    exact List.mem_cons_self
  | .defAndAssign r₀ _ e, c, h => by
    cases e with
    | await a e =>
      simp only [Node.trf, Build.slots_field, List.mem_append, List.mem_singleton, or_assoc] at h
      refine h.imp_right ?_
      rintro (⟨rfl, -⟩ | ⟨rfl, -⟩) <;> simp [Node.refs, ExpNode.refs]
    | _ =>
      simp only [Node.trf, Build.slots_field, List.mem_append, List.mem_singleton] at h
      refine h.imp_right ?_
      rintro ⟨rfl, -⟩
      exact List.mem_cons_self
  | .ifN _ sts, c, h | .ifElse _ sts _, c, h | .forN _ _ _ sts, c, h => by
    rw [Node.trf, Build.slots_sub, List.mem_append, List.mem_map] at h
    refine h.imp_right ?_
    rintro ⟨v, hv, he⟩
    cases he
    simp [Node.refs, trfs_start_slots _ _ sts hv]
  | .leaf, _, h | .ret _, _, h | .yield _, _, h | .sl _, _, h => Or.inl h
  termination_by n => (sizeOf n, 0)

private theorem trfs_slots (r : Ref) (p : List Nat) : ∀ (ns : List Node) (c : Build τ),
    (r, p) ∈ (trfs tp ns c).slots → (r, p) ∈ c.slots ∨ r ∈ refsNodes ns
  | [], _, h => Or.inl h
  | n :: ns, c, h => by
    rw [refsNodes, List.mem_append]
    rcases trfs_slots r p ns _ h with h | h
    · exact (Node.trf_slots r p n c h).imp_right Or.inl
    · exact Or.inr (Or.inr h)
  termination_by ns => (sizeOf ns, 0)

private theorem trfs_start_slots (r : Ref) (p : List Nat) (ns : List Node)
    (h : (r, p) ∈ (trfs tp ns .start).slots) : r ∈ refsNodes ns := by
  refine (trfs_slots r p ns .start h).resolve_left ?_
  simp [Build.start, Build.slots_mark, Build.slots, setValsAll]
  termination_by (sizeOf ns, 1)
end

mutual
/-- Walking a statement gives its nodes their slots. -/
theorem Node.trf_good : ∀ (n : Node) (c : Build τ) (given : List Ref),
    (∀ r ∈ n.inner, ¬ G r) → c.Good tp G given → (n.trf tp c).Good tp G (given ++ n.given)
  | .exp e, c, given, hin, h => by
    cases e with
    | inlineFunc r₀ ps a body =>
      exact (h.aside 0 fun r p hp => hin r (trfs_start_slots r p body hp)).keep
    | await a e => exact h.field a
    | _ => exact h.keep
  | .define r _, c, given, _, h => h.field r
  | .defAndAssign r _ e, c, given, _, h => by
    cases e with
    | await a e =>
      have := (h.field r).field a
      rwa [List.append_assoc] at this
    | _ => exact h.field r
  | .ifN _ sts, c, given, hin, h | .ifElse _ sts _, c, given, hin, h
  | .forN _ _ _ sts, c, given, hin, h => by
    have hsts := trfs_good sts .start [] hin Build.good_start
    rw [List.nil_append] at hsts
    exact h.sub hsts
  | .leaf, c, given, _, h | .ret _, c, given, _, h | .yield _, c, given, _, h
  | .sl _, c, given, _, h => h.keep

theorem trfs_good : ∀ (ns : List Node) (c : Build τ) (given : List Ref),
    (∀ r ∈ innerAll ns, ¬ G r) → c.Good tp G given →
      (trfs tp ns c).Good tp G (given ++ givenAll ns)
  | [], c, given, _, h => by rwa [givenAll, List.append_nil]
  | n :: ns, c, given, hin, h => by
    rw [givenAll, ← List.append_assoc]
    exact trfs_good ns _ _ (fun r hr => hin r (List.mem_append_right _ hr))
      (n.trf_good c given (fun r hr => hin r (List.mem_append_left _ hr)) h)
end

end Walk

/-! ## The whole frame -/

section Frame

variable (tp : Ref → τ) (b : Body) (ps : List τ) (inner : τ)

/-- The fields after those of the body are for none of its nodes. -/
theorem good_params {G : Ref → Prop} {given : List Ref} {c : Build τ}
    (h : c.Good tp G given) :
    (ps.foldl (fun c p => c.field (.of p) none) c).Good tp G given ∧
      (ps.foldl (fun c p => c.field (.of p) none) c).i = c.i + ps.length ∧
      (ps.foldl (fun c p => c.field (.of p) none) c).slots = c.slots := by
  induction ps generalizing c with
  | nil => exact ⟨h, rfl, rfl⟩
  | cons p ps ih =>
    obtain ⟨hgood, hi, hslots⟩ := ih (h.mark (.of p))
    refine ⟨hgood, ?_, hslots.trans (c.slots_mark _)⟩
    rw [List.foldl_cons, hi, List.length_cons]
    show c.i + 1 + ps.length = c.i + (ps.length + 1)
    omega

theorem slot_mem {g : GeneratorCtx τ} {r : Ref} {p : List Nat}
    (h : g.slot r = some p) : (r, p) ∈ setValsAll [] g.context := by
  obtain ⟨l₁, l₂, he, -⟩ := List.lookup_eq_some_iff.mp h
  rw [← List.mem_reverse, he]
  simp

private theorem slot_of_mem {g : GeneratorCtx τ} {r : Ref} {p : List Nat}
    (h : (r, p) ∈ setValsAll [] g.context) : ∃ p, g.slot r = some p := by
  rw [← Option.isSome_iff_exists, GeneratorCtx.slot, List.lookup_isSome_iff]
  exact ⟨(r, p), List.mem_reverse.mpr h, beq_self_eq_true r⟩

end Frame

end CalcLang.Ast
