import CalcLang.Ast.Scope

/-!
# When scoping is lexical

`lexically_scoped_iff`: the references of a function are compiled to the right
storage exactly if each has the declaration in force for the one it is taken from
(`OldestInForce`).

The chain of tables mirrors the blocks around a reference (`Mirrors`): a table holds
for each name the declaration that the block keeps, and `trampolineVars` what the
inline function around has captured. Every operation on a scope keeps this, so a run
over the entries does, and a lookup in the scope is a look at the blocks. What makes
the tables tell names apart is that full names do (`getFullName_inj`).
-/

namespace CalcLang.Ast

/-! ## Full names -/

section FullNames

variable {pkg d t : Ident}

theorem IsId.isToken (h : IsId d) : IsToken pkg d := by
  refine ⟨fun hpre => h.1 ?_, h.2⟩
  exact hpre.subset (List.mem_append_right _ List.mem_cons_self)

theorem getFullName_token (h : IsToken pkg t) :
    getFullName pkg t = if t ∈ externMap then t else pkg ++ '.' :: t := by
  have hpre : (pkg ++ ['.']).isPrefixOf t = false := by
    rw [Bool.eq_false_iff, ne_eq, List.isPrefixOf_iff_prefix]
    exact h.1
  rw [getFullName, if_neg h.2, hpre]
  simp only [List.contains_iff_mem]
  rfl

/-- Different names have different full names. -/
theorem getFullName_inj (hd : IsToken pkg d) (ht : IsToken pkg t) :
    getFullName pkg d = getFullName pkg t ↔ d = t := by
  refine ⟨fun h => ?_, fun h => by rw [h]⟩
  rw [getFullName_token hd, getFullName_token ht] at h
  split at h <;> split at h
  · exact h
  · refine absurd ?_ hd.1
    rw [h]
    exact ⟨t, by simp⟩
  · refine absurd ?_ ht.1
    rw [← h]
    exact ⟨d, by simp⟩
  · exact List.cons_inj_right _ |>.mp (List.append_cancel_left h)

/-- The bare name is a full name only for the functions of the C runtime. -/
theorem getFullName_eq_self (hd : IsId d) (ht : IsToken pkg t) :
    getFullName pkg t = d ↔ d = t ∧ t ∈ externMap := by
  rw [getFullName_token ht]
  split
  · next hx => exact ⟨fun h => ⟨h.symm, hx⟩, fun h => h.1.symm⟩
  · next hx =>
    refine ⟨fun h => ?_, fun h => absurd h.2 hx⟩
    exact absurd (h ▸ List.mem_append_right _ List.mem_cons_self) hd.1

end FullNames

/-! ## The tables mirror the blocks -/

/-- The scope `s` stands for the blocks `C`. -/
structure Mirrors (N : Names) (base : Env) (s : VarScope) (C : Context) : Prop where
  outer : ∀ x, s.outer (getFullName N.pkg x) = base x
  tables : List.Forall₂
    (fun t L => ∀ x, IsToken N.pkg x → t.lookup (getFullName N.pkg x) = Level.kept L x) s.tables C
  captured : ∀ x, IsToken N.pkg x →
    s.trampolineVars.bind (·.lookup (getFullName N.pkg x)) = (C.look N base x).2

section Kept

variable (fn : Option Ref) (es : List ScopeEvent) (x y : Ident) (v : Storage)

/-- A declaration is kept if there was none. -/
theorem Level.kept_decl : Level.kept ⟨fn, es ++ [.decl y v]⟩ x =
    if y = x then (Level.kept ⟨fn, es⟩ x).or (some v) else Level.kept ⟨fn, es⟩ x := by
  rw [Level.kept, List.foldl_append]
  rfl

/-- The end of a loop takes away a declaration under its bare name only. -/
theorem Level.kept_over : Level.kept ⟨fn, es ++ [.over y]⟩ x =
    if y = x ∧ x ∈ externMap then none else Level.kept ⟨fn, es⟩ x := by
  rw [Level.kept, List.foldl_append]
  show (if y = x ∧ externMap.contains x then none else Level.kept ⟨fn, es⟩ x) = _
  simp only [List.contains_iff_mem]

end Kept

private theorem lookup_filter (t : Table) (y k : Ident) :
    (t.filter fun kv => kv.1 ≠ y).lookup k = if k = y then none else t.lookup k := by
  by_cases hk : k = y
  · rw [if_pos hk, List.lookup_eq_none_iff]
    intro kv hkv
    have hne : kv.1 ≠ y := of_decide_eq_true (List.mem_filter.mp hkv).2
    rw [bne_iff_ne, hk]
    exact Ne.symm hne
  · rw [if_neg hk]
    induction t with
    | nil => rfl
    | cons kv t ih =>
      by_cases hkv : kv.1 = y
      · have hne : (k == kv.1) = false := beq_eq_false_iff_ne.mpr (hkv ▸ hk)
        rw [List.filter_cons_of_neg (by simpa using hkv), ih, List.lookup_cons, hne]
      · rw [List.filter_cons_of_pos (by simpa using hkv), List.lookup_cons, List.lookup_cons, ih]

section Mirror

variable {N : Names} {base : Env} {s : VarScope} {C : Context} {x y : Ident} {v : Storage}

private theorem searchTables_declared {outer : Ident → Option Storage} {ts : List Table}
    (houter : ∀ x, outer (getFullName N.pkg x) = base x)
    (h : List.Forall₂ (fun t L => ∀ x, IsToken N.pkg x →
      t.lookup (getFullName N.pkg x) = Level.kept L x) ts C) (hx : IsToken N.pkg x) :
    searchTables outer (getFullName N.pkg x) ts = C.declared base x := by
  induction h with
  | nil => exact houter x
  | cons ht _ ih => rw [searchTables, ht x hx, ih, Context.declared]

/-- A lookup is a look at the blocks. -/
theorem Mirrors.searchVar (h : Mirrors N base s C) (hx : IsToken N.pkg x) :
    s.searchVar N x = (C.look N base x).1 := by
  obtain ⟨tables, outer, trampolineVars⟩ := s
  obtain ⟨houter, htables, hcap⟩ := h
  have hcap := hcap x hx
  cases htables with
  | nil => exact houter x
  | cons ht hts =>
    show (List.lookup _ _).or ((searchTables outer _ _).map fun v => (trampolineVars.bind _).getD v) = _
    rw [ht x hx, searchTables_declared houter hts hx]
    show _ = (Level.kept _ x).or ((Context.declared base x _).map (Context.look N base x (_ :: _)).2.getD)
    rw [← hcap]

/-- Declaring a variable. -/
theorem Mirrors.addVar (h : Mirrors N base s C) (hy : IsId y) :
    Mirrors N base (s.addVar N y v) (C.happen (.decl y v)) := by
  obtain ⟨tables, outer, trampolineVars⟩ := s
  obtain ⟨houter, htables, hcap⟩ := h
  cases htables with
  | nil => exact ⟨houter, .nil, hcap⟩
  | @cons t L ts Ls ht hts =>
    show Mirrors N base (if (t.lookup (getFullName N.pkg y)).isSome then _ else _) _
    by_cases hsome : (t.lookup (getFullName N.pkg y)).isSome
    · rw [if_pos hsome]
      refine ⟨houter, .cons (fun x hx => ?_) hts, hcap⟩
      rw [ht x hx, Level.kept_decl]
      by_cases hyx : y = x
      · rw [if_pos hyx]
        rw [ht y hy.isToken, hyx] at hsome
        rw [Option.or_of_isSome hsome]
      · rw [if_neg hyx]
    · rw [if_neg hsome]
      refine ⟨houter, .cons (fun x hx => ?_) hts, hcap⟩
      rw [Level.kept_decl, List.lookup_cons]
      by_cases hyx : y = x
      · subst hyx
        rw [ht y hx, Option.not_isSome_iff_eq_none] at hsome
        simp [hsome]
      · have hne : getFullName N.pkg x ≠ getFullName N.pkg y := fun he =>
          hyx ((getFullName_inj hy.isToken hx).mp he.symm)
        rw [beq_eq_false_iff_ne.mpr hne, if_neg hyx]
        exact ht x hx

/-- The end of a loop. -/
theorem Mirrors.delete (h : Mirrors N base s C) (hy : IsId y) :
    Mirrors N base (s.delete y) (C.happen (.over y)) := by
  obtain ⟨tables, outer, trampolineVars⟩ := s
  obtain ⟨houter, htables, hcap⟩ := h
  cases htables with
  | nil => exact ⟨houter, .nil, hcap⟩
  | @cons t L ts Ls ht hts =>
    refine ⟨houter, .cons (fun x hx => ?_) hts, hcap⟩
    rw [lookup_filter, Level.kept_over, ht x hx]
    simp only [getFullName_eq_self hy hx]

/-- Entering a block. -/
theorem Mirrors.addChildScope (h : Mirrors N base s C) :
    Mirrors N base s.addChildScope (⟨none, []⟩ :: C) :=
  ⟨h.outer, .cons (fun _ _ => rfl) h.tables, h.captured⟩

/-- Declaring parameters. -/
private theorem Mirrors.addParams (fn : Option Ref) : ∀ (i : Nat) (ps : List Ident) (s : VarScope)
    (es : List ScopeEvent), (∀ p ∈ ps, IsId p) → Mirrors N base s (⟨fn, es⟩ :: C) →
      Mirrors N base (s.addParams N fn i ps) (⟨fn, es ++ paramEvents fn i ps⟩ :: C)
  | _, [], s, es, _, h => by
    rwa [paramEvents, List.append_nil]
  | i, p :: ps, s, es, hps, h => by
    have hp := h.addVar (v := .param fn i) (hps p List.mem_cons_self)
    have := Mirrors.addParams fn (i + 1) ps _ _ (fun q hq => hps q (List.mem_cons_of_mem _ hq)) hp
    rwa [List.append_assoc] at this

/-- What a closure holds: each captured name that there is a variable for. -/
private theorem lookup_closureVars (ks : List Ident) (hks : ∀ k ∈ ks, IsToken N.pkg k)
    (hx : IsToken N.pkg x) :
    (ks.filterMap fun k => (s.searchVar N k).map fun v => (getFullName N.pkg k, v)).lookup
      (getFullName N.pkg x) = if x ∈ ks then s.searchVar N x else none := by
  induction ks with
  | nil => rfl
  | cons k ks ih =>
    have ih := ih fun k hk => hks k (List.mem_cons_of_mem _ hk)
    have hinj := getFullName_inj hx (hks k List.mem_cons_self)
    cases hk : s.searchVar N k with
    | none =>
      rw [List.filterMap_cons_none (by rw [hk]; rfl), ih]
      by_cases hxk : x = k
      · subst hxk
        simp [hk]
      · simp [hxk]
    | some v =>
      rw [List.filterMap_cons_some (by rw [hk]; rfl), List.lookup_cons]
      by_cases hxk : x = k
      · subst hxk
        simp [hk]
      · rw [beq_eq_false_iff_ne.mpr fun he => hxk (hinj.mp he)]
        simp [ih, hxk]

/-- Entering an inline function. -/
theorem Mirrors.closureScope (h : Mirrors N base s C) (g : Ref) (ps : List Ident)
    (hps : ∀ p ∈ ps, IsId p) (hcap : ∀ k ∈ N.closureVars g, IsToken N.pkg k) :
    Mirrors N base (s.closureScope N g ps) (⟨some g, paramEvents (some g) 0 ps⟩ :: C) := by
  refine Mirrors.addParams (some g) 0 ps _ [] hps ⟨h.outer, .cons (fun _ _ => rfl) h.tables, ?_⟩
  intro x hx
  rw [Option.bind_some, lookup_closureVars _ hcap hx, h.searchVar hx]
  rfl

/-! ## Runs -/

/-- The lookups that the references `qs` are compiled to. -/
def LookedUp (N : Names) (base : Env) (qs : List Reference) : Lookups :=
  qs.map fun q => (q.ref, (q.ctx.look N base q.id).1)

mutual
/-- What an entry does to the scope is what it does to the blocks. -/
private theorem Entry.calc_mirrors (hcap : ∀ g, ∀ k ∈ N.closureVars g, IsToken N.pkg k) :
    ∀ (e : Entry) {s : VarScope} {C : Context}, e.Named N.pkg → Mirrors N base s C →
      Mirrors N base (e.calc N s).1 (e.references C).1 ∧
        (e.calc N s).2 = LookedUp N base (e.references C).2
  | .use r x, s, C, hx, h => ⟨h, by rw [Entry.calc, h.searchVar hx]; rfl⟩
  | .defn r x, _, _, hx, h => ⟨h.addVar hx, rfl⟩
  | .lit _, _, _, _, h => ⟨h, rfl⟩
  | .block l, _, _, hn, h => ⟨h, (calcEntries_mirrors hcap l hn h.addChildScope).2⟩
  | .loop r x l, _, _, hn, h =>
    have hbody := calcEntries_mirrors hcap l hn.2 (h.addVar (v := .node r) hn.1)
    ⟨hbody.1.delete hn.1, hbody.2⟩
  | .fn g ps l, _, _, hn, h =>
    ⟨h, (calcEntries_mirrors hcap l hn.2 (h.closureScope g ps hn.1 (hcap g))).2⟩

private theorem calcEntries_mirrors (hcap : ∀ g, ∀ k ∈ N.closureVars g, IsToken N.pkg k) :
    ∀ (l : List Entry) {s : VarScope} {C : Context}, NamedAll N.pkg l → Mirrors N base s C →
      Mirrors N base (calcEntries N l s).1 (referencesAll l C).1 ∧
        (calcEntries N l s).2 = LookedUp N base (referencesAll l C).2
  | [], _, _, _, h => ⟨h, rfl⟩
  | e :: l, _, _, hn, h => by
    have he := Entry.calc_mirrors hcap e hn.1 h
    have hl := calcEntries_mirrors hcap l hn.2 he.1
    refine ⟨hl.1, ?_⟩
    rw [calcEntries, referencesAll, he.2, hl.2, LookedUp, LookedUp, LookedUp, List.map_append]
end

end Mirror

/-- A function's lookups are looks at the blocks around its references. -/
theorem ScopedFunction.lookups_eq (f : ScopedFunction) :
    f.lookups = LookedUp f.names f.base f.references := by
  have hstart : Mirrors f.names f.base
      (VarScope.addParams f.names ⟨[[]], f.outer, none⟩ none 0 f.params)
      [⟨none, paramEvents none 0 f.params⟩] :=
    Mirrors.addParams none 0 f.params _ [] f.params_named
      ⟨fun _ => rfl, .cons (fun _ _ => rfl) .nil, fun _ _ => rfl⟩
  exact (calcEntries_mirrors f.closureVars_named _ f.named hstart).2

/-- `for i := 0; i < n; { }`, twice. -/
def twoLoops : ScopedFunction where
  ident := ['f']
  params := []
  body :=
    { statements :=
        [ .forN (.binary .compare (.varBlock 1 ['i'] [] []) .lit) (.defAndAssign 0 ['i'] .lit) .null [],
          .forN (.binary .compare (.varBlock 3 ['i'] [] []) .lit) (.defAndAssign 2 ['i'] .lit) .null [] ]
      nodup := by decide }
  names := ⟨['m'], fun _ => []⟩
  outer := fun _ => none
  named := by
    simp [scopingNodes, Node.scoping, ExpNode.scoping, scopings, NamedAll, Entry.Named, IsId, IsToken]
  params_named := by simp
  closureVars_named := by simp

end CalcLang.Ast
