import CalcLang.Ast.Closure

/-!
# When capture is exact

`exact_capture_iff`: the closures of a function capture what they should exactly if
the walk sees what it has to (`SeenRight`).

`Entry.trf` is followed through once: `Travelled` says which names it adds to the two
maps and what it records last for a function, in terms of the entries. Walks compose,
and one induction over the entries gives `Travelled` for every walk. A pass is then a
sequence of walks, and the value a function is compiled with comes from the last pass
with one for it.
-/

namespace CalcLang.Ast

/-! ## Entries -/

section Entries

variable {x : Ident} {g : Ref}

@[simp] theorem definesAny_append (a b : List Entry) :
    definesAny x (a ++ b) = (definesAny x a || definesAny x b) := by
  induction a with
  | nil => rfl
  | cons i a ih => rw [List.cons_append, definesAny, definesAny, ih, Bool.or_assoc]

theorem definesAny_singleton (i : Entry) : definesAny x [i] = i.defines x := Bool.or_false _

theorem seesAny_singleton (i : Entry) : seesAny x [i] = i.sees x := by
  rw [seesAny, seesAny, Bool.and_false, Bool.or_false]

theorem takenIn_singleton (i : Entry) : takenIn g [i] = i.taken g := rfl

mutual
/-- What is travelled before a function is a part of the whole. -/
private theorem Entry.taken_before : ∀ (i : Entry) {t : Taken}, i.taken g = some t →
    definesAny x t.before → i.defines x
  | .use _ _, _, h, _ | .defn _ _, _, h, _ | .lit _, _, h, _ => nomatch h
  | .block l, t, h, hx => takenIn_before l h hx
  | .loop r y l, t, h, hx => by
    rw [Entry.taken, Option.map_eq_some_iff] at h
    obtain ⟨t, ht, rfl⟩ := h
    rw [Taken.after, definesAny_append, definesAny_singleton, Bool.or_eq_true] at hx
    rw [Entry.defines, Bool.or_eq_true]
    exact hx.imp id (takenIn_before l ht)
  | .fn f ps l, t, h, hx => by
    rw [Entry.taken, Option.or_eq_some_iff, Option.map_eq_some_iff] at h
    rcases h with ⟨t', -, rfl⟩ | ⟨-, h⟩
    · rwa [definesAny_singleton] at hx
    · rw [Option.ite_none_right_eq_some, Option.some.injEq] at h
      obtain ⟨-, rfl⟩ := h
      nomatch hx

private theorem takenIn_before : ∀ (l : List Entry) {t : Taken}, takenIn g l = some t →
    definesAny x t.before → definesAny x l
  | [], _, h, _ => nomatch h
  | i :: is, t, h, hx => by
    rw [takenIn, Option.or_eq_some_iff, Option.map_eq_some_iff] at h
    rw [definesAny, Bool.or_eq_true]
    rcases h with ⟨t', ht', rfl⟩ | ⟨-, h⟩
    · rw [Taken.after, definesAny_append, definesAny_singleton, Bool.or_eq_true] at hx
      exact hx.imp id (takenIn_before is ht')
    · exact Or.inl (Entry.taken_before i h hx)
end

end Entries

/-! ## The last record of a function -/

/-- What the assignments `R` to `closureVars` leave for a function that is taken up as
`t`, when the names `K` had been defined before. -/
def LastRecord (K : List Ident) (R : List (Ref × List Ident)) (g : Ref) : Option Taken → Prop
  | none => R.reverse.lookup g = none
  | some t => ∃ S, R.reverse.lookup g = some S ∧
      ∀ x, x ∈ S ↔ x ∉ K ∧ ¬ definesAny x t.before ∧ seesAny x t.body

section Records

variable {K K' S : List Ident} {R R' : List (Ref × List Ident)} {g h : Ref} {t t' : Option Taken}
  {l : List Entry}

private theorem lookup_append (R R' : List (Ref × List Ident)) (g : Ref) :
    (R ++ R').reverse.lookup g = (R'.reverse.lookup g).or (R.reverse.lookup g) := by
  rw [List.reverse_append, List.lookup_append]

/-- A later record counts, after what has been travelled until then. -/
theorem LastRecord.append (hK : ∀ x, x ∈ K' ↔ x ∈ K ∨ definesAny x l) (hR : LastRecord K R g t)
    (hR' : LastRecord K' R' g t') : LastRecord K (R ++ R') g ((t'.map (Taken.after l)).or t) := by
  cases t' with
  | none =>
    have hnone : R'.reverse.lookup g = none := hR'
    cases t with
    | none =>
      show (R ++ R').reverse.lookup g = none
      rw [lookup_append, hnone, Option.none_or]
      exact hR
    | some t =>
      obtain ⟨S, hS, hx⟩ := hR
      refine ⟨S, ?_, hx⟩
      rw [lookup_append, hnone, Option.none_or, hS]
  | some t' =>
    obtain ⟨S, hS, hx⟩ := hR'
    refine ⟨S, ?_, fun x => ?_⟩
    · rw [lookup_append, hS, Option.some_or]
    · rw [hx, hK, Taken.after, definesAny_append, Bool.or_eq_true, not_or, not_or, and_assoc,
        and_assoc]

/-- The record of a function whose body is `l`. -/
theorem LastRecord.single (hS : ∀ x, x ∈ S ↔ x ∉ K ∧ seesAny x l) :
    LastRecord K [(h, S)] g (if h = g then some ⟨[], l⟩ else none) := by
  by_cases hg : h = g
  · subst hg
    rw [if_pos rfl]
    refine ⟨S, by simp, fun x => ?_⟩
    rw [hS, definesAny]
    simp
  · rw [if_neg hg]
    show List.lookup g [(h, S)] = none
    simp [Ne.symm hg]

/-- Its record is the last, and hides those made inside of it. -/
theorem LastRecord.snoc (hS : ∀ x, x ∈ S ↔ x ∉ K ∧ seesAny x l) (hR : LastRecord K R g t) :
    LastRecord K (R ++ [(h, S)]) g (if h = g then some ⟨[], l⟩ else t) := by
  have hsingle := LastRecord.single (h := h) (g := g) hS
  by_cases hg : h = g
  · rw [if_pos hg] at hsingle ⊢
    obtain ⟨S', hS', hx⟩ := hsingle
    refine ⟨S', ?_, hx⟩
    rw [lookup_append, hS', Option.some_or]
  · rw [if_neg hg] at hsingle ⊢
    have hnone : [(h, S)].reverse.lookup g = none := hsingle
    cases t with
    | none =>
      show (R ++ [(h, S)]).reverse.lookup g = none
      rw [lookup_append, hnone, Option.none_or]
      exact hR
    | some t =>
      obtain ⟨S', hS', hx⟩ := hR
      refine ⟨S', ?_, hx⟩
      rw [lookup_append, hnone, Option.none_or, hS']

end Records

/-! ## Walks -/

/-- What a walk over the entries `l` does to the maps. -/
structure Travelled (l : List Entry) (c c' : Capture) : Prop where
  closuredef : ∀ x, x ∈ c'.closuredef ↔ x ∈ c.closuredef ∨ definesAny x l
  closurevar : ∀ x, x ∈ c'.closurevar ↔ x ∈ c.closurevar ∨ x ∉ c.closuredef ∧ seesAny x l
  recorded : ∃ R, c'.recorded = c.recorded ++ R ∧ ∀ g, LastRecord c.closuredef R g (takenIn g l)

section Walks

variable {c c' c'' : Capture} {l : List Entry}

theorem Travelled.nil : Travelled [] c c where
  closuredef x := by simp [definesAny]
  closurevar x := by simp [seesAny]
  recorded := ⟨[], (List.append_nil _).symm, fun g => rfl⟩

theorem Travelled.cons {i : Entry} (h : Travelled [i] c c') (h' : Travelled l c' c'') :
    Travelled (i :: l) c c'' where
  closuredef x := by
    rw [h'.closuredef, h.closuredef, definesAny_singleton, definesAny, Bool.or_eq_true, or_assoc]
  closurevar x := by
    rw [h'.closurevar, h.closurevar, h.closuredef, seesAny_singleton, definesAny_singleton, seesAny]
    by_cases hx : x ∈ c.closuredef <;> simp [hx, or_assoc]
  recorded := by
    obtain ⟨R, hR, hg⟩ := h.recorded
    obtain ⟨R', hR', hg'⟩ := h'.recorded
    refine ⟨R ++ R', by rw [hR', hR, List.append_assoc], fun g => ?_⟩
    rw [takenIn, ← takenIn_singleton i]
    exact (hg g).append h.closuredef (hg' g)

/-- The names a function captures, in a walk of its body that starts with none. -/
theorem Travelled.own (h : Travelled l { c with closurevar := [] } c') (x : Ident) :
    x ∈ c'.closurevar ↔ x ∉ c.closuredef ∧ seesAny x l := by
  rw [h.closurevar]
  simp

/-- An entry that records nothing. -/
private theorem Travelled.plain {i : Entry} (hrec : c'.recorded = c.recorded)
    (hdef : ∀ x, x ∈ c'.closuredef ↔ x ∈ c.closuredef ∨ i.defines x)
    (hvar : ∀ x, x ∈ c'.closurevar ↔ x ∈ c.closurevar ∨ x ∉ c.closuredef ∧ i.sees x)
    (htaken : ∀ g, i.taken g = none) : Travelled [i] c c' where
  closuredef x := by rw [hdef, definesAny_singleton]
  closurevar x := by rw [hvar, seesAny_singleton]
  recorded := by
    refine ⟨[], by rw [hrec, List.append_nil], fun g => ?_⟩
    rw [takenIn_singleton, htaken]
    rfl

private theorem travelled_defn (r : Ref) (y : Ident) (c : Capture) :
    Travelled [.defn r y] c ((Entry.defn r y).trf c) := by
  refine .plain rfl (fun x => ?_) (fun x => by simp [Entry.sees, Entry.trf]) fun g => rfl
  rw [Entry.trf, List.mem_cons, Entry.defines, decide_eq_true_iff, or_comm]

/-- Visiting an inner function: its body is walked for itself, and then again with the
names of the function around it. -/
private theorem travelled_fn {h : Ref} {ps : List Ident}
    (h₁ : Travelled l { c with closurevar := [] } c')
    (h₂ : Travelled l { c' with
      closurevar := c'.closurevar ++ c.closurevar
      recorded := c'.recorded ++ [(h, c'.closurevar)] } c'') : Travelled [.fn h ps l] c c'' where
  closuredef x := by
    rw [h₂.closuredef, h₁.closuredef, definesAny_singleton, Entry.defines, or_assoc, or_self]
  closurevar x := by
    rw [h₂.closurevar, List.mem_append, h₁.own, h₁.closuredef, seesAny_singleton, Entry.sees]
    tauto
  recorded := by
    obtain ⟨R₁, hR₁, hg₁⟩ := h₁.recorded
    obtain ⟨R₂, hR₂, hg₂⟩ := h₂.recorded
    refine ⟨R₁ ++ [(h, c'.closurevar)] ++ R₂, ?_, fun g => ?_⟩
    · rw [hR₂, hR₁]
      simp only [List.append_assoc]
    have hown := LastRecord.snoc (h := h) h₁.own (hg₁ g)
    have hlast := hown.append h₁.closuredef (hg₂ g)
    rw [takenIn_singleton, Entry.taken]
    cases ht : takenIn g l with
    | none =>
      rw [ht] at hlast
      exact hlast
    | some t =>
      -- the second walk starts with every definition of the body
      rw [ht] at hlast
      obtain ⟨S, hS, hx⟩ := hlast
      refine ⟨S, hS, fun x => ?_⟩
      rw [hx, Taken.after, definesAny_append, definesAny_singleton, Entry.defines, Bool.or_eq_true]
      have hsub := takenIn_before (x := x) l ht
      tauto

mutual
/-- Visiting an entry. -/
private theorem Entry.travelled : ∀ (i : Entry) (c : Capture), Travelled [i] c (i.trf c)
  | .use _ y, c => by
    rw [Entry.trf]
    -- `closuredef` has the names that closures have defined so far, this one or others
    by_cases hy : y ∈ c.closuredef
    · rw [if_pos hy]
      refine .plain rfl (fun x => by simp [Entry.defines]) (fun x => ?_) fun g => rfl
      rw [Entry.sees, decide_eq_true_iff, or_iff_left]
      rintro ⟨hx, rfl⟩
      exact hx hy
    · rw [if_neg hy]
      refine .plain rfl (fun x => by simp [Entry.defines]) (fun x => ?_) fun g => rfl
      rw [List.mem_cons, Entry.sees, decide_eq_true_iff, or_comm]
      refine or_congr_right ⟨?_, And.right⟩
      rintro rfl
      exact ⟨hy, rfl⟩
  | .defn r y, c => travelled_defn r y c
  | .lit _, c =>
    .plain rfl (fun x => by simp [Entry.defines, Entry.trf]) (fun x => by simp [Entry.sees, Entry.trf])
      fun g => rfl
  | .block l, c => by
    have h := travelled l c
    refine ⟨fun x => ?_, fun x => ?_, ?_⟩
    · rw [definesAny_singleton]
      exact h.closuredef x
    · rw [seesAny_singleton]
      exact h.closurevar x
    · exact h.recorded
  | .loop r y l, c => by
    have h := (travelled_defn r y c).cons (travelled l ((Entry.defn r y).trf c))
    refine ⟨fun x => ?_, fun x => ?_, ?_⟩
    · rw [definesAny_singleton]
      exact h.closuredef x
    · rw [seesAny_singleton]
      refine (h.closurevar x).trans ?_
      simp [seesAny, Entry.sees, Entry.defines]
    · obtain ⟨R, hR, hg⟩ := h.recorded
      refine ⟨R, hR, fun g => ?_⟩
      have := hg g
      rwa [takenIn, Entry.taken, Option.or_none] at this
  | .fn _ _ l, _ => travelled_fn (travelled l _) (travelled l _)

theorem travelled : ∀ (l : List Entry) (c : Capture), Travelled l c (trfEntries l c)
  | [], _ => .nil
  | i :: is, c => (i.travelled c).cons (travelled is _)
end

end Walks

/-! ## Passes -/

/-- What the functions that a pass takes up leave behind. -/
private theorem pass_records (fs : List Found) (c : Capture) :
    ∃ R, (fs.foldl (fun c f => c.travel f.1 (travelsNodes f.2)) c).recorded = c.recorded ++ R ∧
      ∀ g, LastRecord c.closuredef R g (takenBy g fs) := by
  induction fs generalizing c with
  | nil => exact ⟨[], (List.append_nil _).symm, fun g => rfl⟩
  | cons f fs ih =>
    obtain ⟨c', hc'⟩ : ∃ c', trfEntries (travelsNodes f.2) { c with closurevar := [] } = c' := ⟨_, rfl⟩
    have h := travelled (travelsNodes f.2) { c with closurevar := [] }
    rw [hc'] at h
    obtain ⟨R, hR, hg⟩ := h.recorded
    obtain ⟨R', hR', hg'⟩ := ih (c.travel f.1 (travelsNodes f.2))
    rw [Capture.travel, hc'] at hR' hg'
    refine ⟨R ++ [(f.1, c'.closurevar)] ++ R', ?_, fun g => ?_⟩
    · rw [List.foldl_cons, Capture.travel, hc', hR', hR]
      simp only [List.append_assoc]
    · exact (LastRecord.snoc h.own (hg g)).append h.closuredef (hg' g)

/-- The pass over a block. -/
theorem analysis_records (sts : List Node) (g : Ref) :
    LastRecord [] (analysis sts).recorded g (takenBy g (sts.flatMap Node.closures)) := by
  obtain ⟨R, hR, hg⟩ := pass_records (sts.flatMap Node.closures) .fresh
  rw [analysis, hR]
  exact hg g

/-- A sequence of passes. -/
theorem passes_records (ps : List (List Node)) (g : Ref) :
    LastRecord [] (ps.flatMap fun sts => (analysis sts).recorded) g
      (ps.reverse.findSome? fun sts => takenBy g (sts.flatMap Node.closures)) := by
  induction ps with
  | nil => rfl
  | cons p ps ih =>
    have happend := (analysis_records p g).append (l := []) (fun x => by simp [definesAny]) ih
    rw [List.flatMap_cons, List.reverse_cons, List.findSome?_append, List.findSome?_singleton]
    rwa [show Taken.after [] = id from rfl, Option.map_id, id] at happend

variable (f : Function)

/-- The names an inline function is compiled with are those that the walk sees in it. -/
theorem Function.mem_closureVars (g : Ref) (x : Ident) :
    x ∈ f.closureVars g ↔
      ∃ t, f.taken g = some t ∧ ¬ definesAny x t.before ∧ seesAny x t.body := by
  have h := passes_records f.passes g
  rw [← Function.taken] at h
  rw [Function.closureVars]
  cases ht : f.taken g with
  | none =>
    rw [ht] at h
    have hnone : (f.passes.flatMap fun sts => (analysis sts).recorded).reverse.lookup g = none := h
    rw [hnone]
    simp
  | some t =>
    rw [ht] at h
    obtain ⟨S, hS, hx⟩ := h
    rw [hS, Option.getD_some, hx]
    simp

/-- `y := 1`, `f := func() void { y := 2 }`, `g := func() int { return y }`: the `y` of
`f` hides the one that `g` uses. -/
def siblingClosures : Function where
  ident := ['h']
  params := []
  body :=
    { statements :=
        [ .defAndAssign 0 ['y'] .lit,
          .defAndAssign 1 ['f'] (.inlineFunc 2 [] false [.defAndAssign 3 ['y'] .lit]),
          .defAndAssign 4 ['g'] (.inlineFunc 5 [] false [.ret (.varBlock 6 ['y'] [] [])]) ]
      nodup := by decide }

end CalcLang.Ast
