import Mathlib.Data.List.Basic

/-!
# Depth-first search by using up the edges

A graph is a table that maps a node to the edges out of it. The search marks a node by deleting its entry:
the edges of a node are taken out of the table as it is entered, and then followed one by one. Where there is
nothing left to take a node has been entered before, or has no edges.

`search_spec` says what a search from several nodes comes to. It enters the nodes that are `Found`, meets
the edges out of them and nothing else, so neither the order of the starting nodes nor that of the edges matters.
No call is nested deeper than the table is long (`search_total`), with cycles in the graph or without.
-/

namespace CalcLang.Lib.Search

variable {κ ε : Type} [DecidableEq κ]

/-! ## Tables -/

/-- The edges out of a node. -/
def edges (g : List (κ × List ε)) (k : κ) : List ε := (g.lookup k).getD []

def delete (g : List (κ × List ε)) (k : κ) : List (κ × List ε) := g.filter fun e => e.1 ≠ k

variable {g : List (κ × List ε)} {k j : κ}

theorem edges_delete : edges (delete g k) j = if j = k then [] else edges g j := by
  unfold edges delete
  induction g with
  | nil => simp
  | cons e g ih =>
    by_cases he : e.1 = k
    · rw [List.filter_cons_of_neg (by simpa using he), ih]
      by_cases hj : j = k
      · rw [if_pos hj, if_pos hj]
      · have hne : (j == e.1) = false := beq_eq_false_iff_ne.mpr (he ▸ hj)
        rw [if_neg hj, if_neg hj, List.lookup_cons, hne]
    · rw [List.filter_cons_of_pos (by simpa using he), List.lookup_cons, List.lookup_cons]
      cases hj : j == e.1 with
      | true =>
        have hjk : j ≠ k := fun h => he (by rw [← beq_iff_eq.mp hj, h])
        rw [if_neg hjk]
      | false => exact ih

/-- One more edge out of a node. -/
def append (g : List (κ × List ε)) (k : κ) (e : ε) : List (κ × List ε) := (k, edges g k ++ [e]) :: delete g k

theorem edges_append {e : ε} : edges (append g k e) j = edges g j ++ if j = k then [e] else [] := by
  unfold append
  rw [edges, List.lookup_cons]
  by_cases hj : j = k
  · rw [hj, beq_self_eq_true, if_pos rfl]
    rfl
  · have hne : (j == k) = false := beq_eq_false_iff_ne.mpr hj
    rw [hne, if_neg hj, List.append_nil]
    exact edges_delete.trans (if_neg hj)

theorem length_delete_le : (delete g k).length ≤ g.length := List.length_filter_le _ _

/-- Where there are edges to take, the table gets shorter. -/
theorem length_delete_lt (h : edges g k ≠ []) : (delete g k).length < g.length := by
  obtain ⟨es, hes⟩ : ∃ es, g.lookup k = some es := by
    cases hg : g.lookup k with
    | none => exact absurd (by rw [edges, hg]; rfl) h
    | some es => exact ⟨es, rfl⟩
  obtain ⟨g₁, g₂, rfl, -⟩ := List.lookup_eq_some_iff.mp hes
  refine List.length_filter_lt_length_iff_exists.mpr ⟨(k, es), ?_, by simp⟩
  exact List.mem_append_right _ List.mem_cons_self

/-! ## The search -/

/-- What is left of the table, the nodes entered and the edges met. -/
structure State (κ ε : Type) where
  left : List (κ × List ε)
  entered : List κ
  met : List ε

/-- A node is entered, and its edges taken away. -/
def State.enter (s : State κ ε) (k : κ) : State κ ε :=
  { s with left := delete s.left k, entered := s.entered ++ [k] }

def State.meet (s : State κ ε) (e : ε) : State κ ε := { s with met := s.met ++ [e] }

variable (target : ε → Option κ)

/-- Follow edges. An edge without a target leads nowhere; `n` bounds how deep the calls nest. -/
def follow : Nat → List ε → State κ ε → Option (State κ ε)
  | 0, _, _ => none
  | n + 1, es, s =>
    es.foldlM (fun s e =>
      match target e with
      | some k => follow n (edges s.left k) ((s.meet e).enter k)
      | none => some (s.meet e)) s

/-- Start from a node. -/
def visit (n : Nat) (s : State κ ε) (k : κ) : Option (State κ ε) :=
  follow target n (edges s.left k) (s.enter k)

/-- Start from one node after the other. -/
def search (n : Nat) (points : List κ) (s : State κ ε) : Option (State κ ε) :=
  points.foldlM (visit target n) s

variable {target} {n : Nat} {e : ε} {es : List ε} {points : List κ} {s s' s'' : State κ ε}

theorem follow_nil : follow target (n + 1) [] s = some s := rfl

theorem follow_cons : follow target (n + 1) (e :: es) s =
    (match target e with
      | some k => visit target n (s.meet e) k
      | none => some (s.meet e)).bind (follow target (n + 1) es) := by
  rw [follow, List.foldlM_cons]
  rfl

theorem search_cons : search target n (k :: points) s =
    (visit target n s k).bind (search target n points) := List.foldlM_cons

/-- A fold on the image of a state. -/
theorem foldlM_image {σ τ α : Type} {f : σ → τ} {x : σ → α → Option σ} {y : τ → α → Option τ}
    (h : ∀ s a, y (f s) a = (x s a).map f) (as : List α) (s : σ) :
    as.foldlM y (f s) = (as.foldlM x s).map f := by
  induction as generalizing s with
  | nil => rfl
  | cons a as ih =>
    rw [List.foldlM_cons, List.foldlM_cons, h]
    show ((x s a).map f).bind _ = ((x s a).bind _).map f
    rw [Option.map_bind, Option.bind_map]
    exact congrArg _ (funext ih)

/-! ## It ends -/

/-- The table gets no longer. -/
theorem follow_left (h : follow target n es s = some s') : s'.left.length ≤ s.left.length := by
  induction n generalizing es s s' with
  | zero => cases h
  | succ n ihn =>
    induction es generalizing s with
    | nil => exact (Option.some.inj h) ▸ Nat.le_refl _
    | cons e es ihes =>
      rw [follow_cons] at h
      obtain ⟨u, hu, h⟩ := Option.bind_eq_some_iff.mp h
      refine Nat.le_trans (ihes h) ?_
      split at hu
      · exact Nat.le_trans (ihn hu) length_delete_le
      · exact (Option.some.inj hu) ▸ Nat.le_refl _

theorem follow_total (hn : s.left.length + 2 ≤ n) : ∃ s', follow target n es s = some s' := by
  induction n generalizing es s with
  | zero => omega
  | succ n ihn =>
    induction es generalizing s with
    | nil => exact ⟨s, rfl⟩
    | cons e es ihes =>
      -- the table gets shorter with each node that is entered, unless the node has no edges left
      have hstep : ∃ u, (match target e with
          | some k => visit target n (s.meet e) k
          | none => some (s.meet e)) = some u ∧ u.left.length ≤ s.left.length := by
        split
        next k _ =>
          by_cases hk : edges s.left k = []
          · obtain ⟨m, rfl⟩ : ∃ m, n = m + 1 := ⟨n - 1, by omega⟩
            refine ⟨(s.meet e).enter k, ?_, length_delete_le⟩
            show follow target (m + 1) (edges s.left k) _ = _
            rw [hk, follow_nil]
          · have hlt := length_delete_lt hk
            have hdepth : ((s.meet e).enter k).left.length + 2 ≤ n := by
              show (delete s.left k).length + 2 ≤ n
              omega
            obtain ⟨u, hu⟩ : ∃ u, follow target n (edges s.left k) ((s.meet e).enter k) = some u := ihn hdepth
            exact ⟨u, hu, Nat.le_trans (follow_left hu) length_delete_le⟩
        next => exact ⟨s.meet e, rfl, Nat.le_refl _⟩
      obtain ⟨u, hu, hlen⟩ := hstep
      obtain ⟨s', hs'⟩ := ihes (s := u) (by omega)
      exact ⟨s', by rw [follow_cons, hu]; exact hs'⟩

/-- With calls nested more deeply the result is the same. -/
theorem follow_succ (h : follow target n es s = some s') : follow target (n + 1) es s = some s' := by
  induction n generalizing es s s' with
  | zero => cases h
  | succ n ihn =>
    induction es generalizing s with
    | nil => exact h
    | cons e es ihes =>
      rw [follow_cons] at h ⊢
      obtain ⟨u, hu, h⟩ := Option.bind_eq_some_iff.mp h
      refine Option.bind_eq_some_iff.mpr ⟨u, ?_, ihes h⟩
      split at hu
      · exact ihn hu
      · exact hu

theorem search_succ (h : search target n points s = some s') :
    search target (n + 1) points s = some s' := by
  induction points generalizing s with
  | nil => exact h
  | cons k points ih =>
    rw [search_cons] at h ⊢
    obtain ⟨u, hu, h⟩ := Option.bind_eq_some_iff.mp h
    exact Option.bind_eq_some_iff.mpr ⟨u, follow_succ hu, ih h⟩

theorem search_exists (hn : s.left.length + 2 ≤ n) : ∃ s', search target n points s = some s' := by
  induction points generalizing s with
  | nil => exact ⟨s, rfl⟩
  | cons k points ih =>
    have hlen : (s.enter k).left.length ≤ s.left.length := length_delete_le
    obtain ⟨u, hu⟩ : ∃ u, follow target n (edges s.left k) (s.enter k) = some u := follow_total (by omega)
    have := follow_left hu
    obtain ⟨s', hs'⟩ := ih (s := u) (by omega)
    exact ⟨s', by rw [search_cons, visit, hu]; exact hs'⟩

/-- **The search ends**, and how deep the calls may nest makes no difference. -/
theorem search_total (s : State κ ε) (points : List κ) :
    ∃ s', ∀ n, s.left.length + 2 ≤ n → search target n points s = some s' := by
  obtain ⟨s', hs'⟩ : ∃ s', search target (s.left.length + 2) points s = some s' := search_exists (Nat.le_refl _)
  refine ⟨s', fun n hn => ?_⟩
  obtain ⟨d, rfl⟩ := Nat.exists_eq_add_of_le hn
  induction d with
  | zero => exact hs'
  | succ d ih => exact search_succ (ih (Nat.le_add_right _ d))

/-! ## What it finds -/

/-- The nodes that a search comes to. -/
inductive Found (target : ε → Option κ) (g : List (κ × List ε)) (points : List κ) : κ → Prop
  | point {k : κ} : k ∈ points → Found target g points k
  | edge {k j : κ} {e : ε} :
    Found target g points k → e ∈ edges g k → target e = some j → Found target g points j

/-- Edges have been taken out of `g` only as their node was entered, and the nodes that the edges met lead
to have been entered. `P` holds of the nodes entered, and of those whose edges have been met. -/
structure Inv (target : ε → Option κ) (g : List (κ × List ε)) (P : κ → Prop) (s : State κ ε) : Prop where
  left : ∀ k, edges s.left k = if k ∈ s.entered then [] else edges g k
  closed : ∀ e ∈ s.met, ∀ k, target e = some k → k ∈ s.entered
  entered : ∀ k ∈ s.entered, P k
  met : ∀ e ∈ s.met, ∃ k, P k ∧ e ∈ edges g k

/-- From `s` to `s'` the search has met the edges `es`, and all edges of the nodes that it has entered. -/
structure Follows (g : List (κ × List ε)) (es : List ε) (s s' : State κ ε) : Prop where
  entered : s.entered ⊆ s'.entered
  met : s.met ⊆ s'.met
  all : es ⊆ s'.met
  whole : ∀ k ∈ s'.entered, k ∈ s.entered ∨ edges g k ⊆ s'.met

section Spec

variable {P : κ → Prop}

theorem Inv.start : Inv target g P ⟨g, [], []⟩ where
  left _ := rfl
  closed := by rintro _ ⟨⟩
  entered := by rintro _ ⟨⟩
  met := by rintro _ ⟨⟩

/-- What is left of a node's edges. -/
theorem Inv.left_within (hs : Inv target g P s) (hk : P k) :
    ∀ e ∈ edges s.left k, ∃ j, P j ∧ e ∈ edges g j := by
  intro e he
  rw [hs.left] at he
  split at he
  · cases he
  · exact ⟨k, hk, he⟩

theorem Inv.enter (hs : Inv target g P s) (hk : P k) : Inv target g P (s.enter k) where
  left j := by
    show edges (delete s.left k) j = if j ∈ s.entered ++ [k] then [] else edges g j
    rw [edges_delete, hs.left]
    by_cases hj : j = k <;> simp [hj]
  closed e he j hj := List.mem_append_left _ (hs.closed e he j hj)
  entered j hj := by
    rcases List.mem_append.mp hj with hj | hj
    · exact hs.entered j hj
    · exact (List.mem_singleton.mp hj) ▸ hk
  met := hs.met

theorem Inv.meet (hs : Inv target g P s) (he : ∃ k, P k ∧ e ∈ edges g k)
    (ht : ∀ k, target e = some k → k ∈ s.entered) : Inv target g P (s.meet e) where
  left := hs.left
  closed d hd := by
    rcases List.mem_append.mp hd with hd | hd
    · exact hs.closed d hd
    · exact (List.mem_singleton.mp hd) ▸ ht
  entered := hs.entered
  met d hd := by
    rcases List.mem_append.mp hd with hd | hd
    · exact hs.met d hd
    · exact (List.mem_singleton.mp hd) ▸ he

theorem Follows.refl (s : State κ ε) : Follows g [] s s :=
  ⟨List.Subset.refl _, List.Subset.refl _, List.nil_subset _, fun _ hk => .inl hk⟩

theorem Follows.trans {ds : List ε} (h : Follows g es s s') (h' : Follows g ds s' s'') :
    Follows g (es ++ ds) s s'' where
  entered := List.Subset.trans h.entered h'.entered
  met := List.Subset.trans h.met h'.met
  all := List.append_subset.mpr ⟨List.Subset.trans h.all h'.met, h'.all⟩
  whole k hk := by
    rcases h'.whole k hk with hk | hk
    · exact (h.whole k hk).imp_right fun hsub => List.Subset.trans hsub h'.met
    · exact .inr hk

/-- An edge is met. -/
theorem Follows.meet (h : Follows g es (s.meet e) s') : Follows g (e :: es) s s' where
  entered := h.entered
  met := fun _ hd => h.met (List.mem_append_left _ hd)
  all := List.cons_subset.mpr ⟨h.met (List.mem_append_right _ (List.mem_singleton_self e)), h.all⟩
  whole := h.whole

/-- A node is entered, and its edges are followed. -/
theorem Follows.enter (hs : Inv target g P s) (h : Follows g (edges s.left k) (s.enter k) s') :
    Follows g [] s s' where
  entered := fun _ hj => h.entered (List.mem_append_left _ hj)
  met := h.met
  all := List.nil_subset _
  whole j hj := by
    rcases h.whole j hj with hj | hj
    · rcases List.mem_append.mp hj with hj | hj
      · exact .inl hj
      · obtain rfl := List.mem_singleton.mp hj
        -- entered a second time it has no edges left in the table
        by_cases hin : j ∈ s.entered
        · exact .inl hin
        · have hall := h.all
          rw [hs.left, if_neg hin] at hall
          exact .inr hall
    · exact .inr hj

variable (hP : ∀ k e j, P k → e ∈ edges g k → target e = some j → P j)
include hP

/-- What following edges does. -/
theorem follow_spec (hs : Inv target g P s) (hes : ∀ e ∈ es, ∃ k, P k ∧ e ∈ edges g k)
    (h : follow target n es s = some s') : Inv target g P s' ∧ Follows g es s s' := by
  induction n generalizing es s s' with
  | zero => cases h
  | succ n ihn =>
    induction es generalizing s with
    | nil => exact (Option.some.inj h) ▸ ⟨hs, .refl s⟩
    | cons e es ihes =>
      rw [follow_cons] at h
      obtain ⟨u, hu, h⟩ := Option.bind_eq_some_iff.mp h
      obtain ⟨⟨i, hi, he⟩, hes⟩ := List.forall_mem_cons.mp hes
      have hstep : Inv target g P u ∧ Follows g [e] s u := by
        split at hu
        next k hk =>
          have hk' : P k := hP i e k hi he hk
          have hmet : Inv target g P ((s.enter k).meet e) := by
            refine (hs.enter hk').meet ⟨i, hi, he⟩ fun j hj => ?_
            obtain rfl := Option.some.inj (hk.symm.trans hj)
            exact List.mem_append_right _ (List.mem_singleton_self k)
          obtain ⟨hinv, hf⟩ := ihn hmet (hs.left_within hk') hu
          -- the edge itself is met in front of the node, which makes no difference to what is followed
          have hf' : Follows g (edges s.left k) (s.enter k) u :=
            ⟨hf.entered, fun _ hd => hf.met (List.mem_append_left _ hd), hf.all, hf.whole⟩
          have hback := Follows.enter hs hf'
          have he' : e ∈ u.met := hf.met (List.mem_append_right _ (List.mem_singleton_self e))
          exact ⟨hinv, hback.entered, hback.met, List.cons_subset.mpr ⟨he', List.nil_subset _⟩, hback.whole⟩
        next hnone =>
          obtain rfl := Option.some.inj hu
          refine ⟨hs.meet ⟨i, hi, he⟩ fun k hk => ?_, .meet (.refl _)⟩
          cases hnone.symm.trans hk
      obtain ⟨hinv, hf⟩ := ihes hstep.1 hes h
      exact ⟨hinv, hstep.2.trans hf⟩

/-- Starting from a node. -/
theorem visit_spec (hs : Inv target g P s) (hk : P k) (h : visit target n s k = some s') :
    Inv target g P s' ∧ Follows g [] s s' ∧ k ∈ s'.entered := by
  obtain ⟨hinv, hf⟩ := follow_spec hP (hs.enter hk) (hs.left_within hk) h
  exact ⟨hinv, .enter hs hf, hf.entered (List.mem_append_right _ (List.mem_singleton_self k))⟩

theorem search_keeps (hs : Inv target g P s) (hpoints : ∀ k ∈ points, P k)
    (h : search target n points s = some s') :
    Inv target g P s' ∧ Follows g [] s s' ∧ points ⊆ s'.entered := by
  induction points generalizing s with
  | nil => exact (Option.some.inj h) ▸ ⟨hs, .refl s, List.nil_subset _⟩
  | cons k points ih =>
    rw [search_cons] at h
    obtain ⟨u, hu, h⟩ := Option.bind_eq_some_iff.mp h
    obtain ⟨hk, hpoints⟩ := List.forall_mem_cons.mp hpoints
    obtain ⟨hinv, hf, hmem⟩ := visit_spec hP hs hk hu
    obtain ⟨hinv', hf', hsub⟩ := ih hinv hpoints h
    exact ⟨hinv', hf.trans hf', List.cons_subset.mpr ⟨hf'.entered hmem, hsub⟩⟩

end Spec

/-- **What a search finds**: it enters the nodes that can be reached, and meets their edges. -/
theorem search_spec (h : search target n points ⟨g, [], []⟩ = some s) :
    (∀ k, k ∈ s.entered ↔ Found target g points k) ∧
      ∀ e, e ∈ s.met ↔ ∃ k, Found target g points k ∧ e ∈ edges g k := by
  obtain ⟨hinv, hf, hpoints⟩ := search_keeps (P := Found target g points)
    (fun _ _ _ => Found.edge) .start (fun _ => Found.point) h
  -- nothing had been entered at the start, so what is entered now has had all its edges met
  have hmet : ∀ k ∈ s.entered, edges g k ⊆ s.met := fun k hk =>
    (hf.whole k hk).resolve_left List.not_mem_nil
  have hentered : ∀ k, Found target g points k → k ∈ s.entered := by
    intro k hk
    induction hk with
    | point hk => exact hpoints hk
    | edge _ he hj ih => exact hinv.closed _ (hmet _ ih he) _ hj
  refine ⟨fun k => ⟨hinv.entered k, hentered k⟩, fun e => ⟨hinv.met e, ?_⟩⟩
  rintro ⟨k, hk, he⟩
  exact hmet k (hentered k hk) he

end CalcLang.Lib.Search
