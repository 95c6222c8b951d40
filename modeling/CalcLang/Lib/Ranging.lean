import Mathlib.Data.List.Induction
import Mathlib.Data.List.Nodup

/-!
# Programs that range over a map

A program has effects, parts one after the other (`seq`), and groups of parts with a key each
(`group`). The parts of a group are put into a map, where a later one takes the place of an earlier
one with the same key, and are run in the order in which the map is ranged over. That order is arbitrary.

An effect is known by where it stands in the program: a path of indices, the innermost one first. A
program does what is written, as it is written and in every order (`InOrder`), just if of any two parts of a
group one has no effects, and a part whose place another one takes has none (`inOrder_iff`).
-/

namespace CalcLang.Lib.Ranging

variable {κ : Type}

inductive Prog (κ : Type)
  | effect
  | seq (ps : List (Prog κ))
  | group (entries : List (κ × Prog κ))

abbrev Path := List Nat

abbrev Trace := List Path

/-! ## Maps -/

section Map

variable [DecidableEq κ] {β : Type}

/-- `m[k] = v`. -/
def put (m : List (κ × β)) (e : κ × β) : List (κ × β) := m.filter (·.1 ≠ e.1) ++ [e]

/-- The map of some keys, where every key is mapped to an index at which it stands. -/
def indexMap (ks : List κ) : List (κ × Nat) := ks.zipIdx.foldl put []

theorem indexMap_concat (ks : List κ) (k : κ) : indexMap (ks ++ [k]) = put (indexMap ks) (k, ks.length) := by
  unfold indexMap
  rw [List.zipIdx_append, List.foldl_append]
  simp

/-- A key is mapped to the last of its indices. -/
theorem mem_indexMap {ks : List κ} {k : κ} {i : Nat} :
    (k, i) ∈ indexMap ks ↔ ks[i]? = some k ∧ ∀ j, i < j → ks[j]? ≠ some k := by
  induction ks using List.reverseRecOn with
  | nil => simp [indexMap]
  | append_singleton ks k' ih =>
    rw [indexMap_concat, put, List.mem_append, List.mem_filter, ih]
    constructor
    · intro h
      obtain ⟨⟨hi, hlast⟩, hne⟩ | hnew := h
      · obtain ⟨hlt, -⟩ := List.getElem?_eq_some_iff.mp hi
        refine ⟨by rw [List.getElem?_append_left hlt, hi], fun j hj hk => ?_⟩
        obtain hj' | hj' := Nat.lt_or_ge j ks.length
        · rw [List.getElem?_append_left hj'] at hk
          exact hlast j hj hk
        · rw [List.getElem?_append_right hj'] at hk
          have hmem := List.mem_of_getElem? hk
          simp at hmem hne
          exact hne hmem
      · obtain ⟨rfl, rfl⟩ : k = k' ∧ i = ks.length := by simpa using hnew
        refine ⟨by simp, fun j hj => ?_⟩
        rw [List.getElem?_eq_none (by simp; omega)]
        simp
    · intro h
      obtain ⟨hi, hlast⟩ := h
      obtain hlt | hge := Nat.lt_or_ge i ks.length
      · left
        rw [List.getElem?_append_left hlt] at hi
        have hne : k ≠ k' := by
          intro he
          apply hlast ks.length hlt
          simp [he]
        refine ⟨⟨hi, fun j hj hk => ?_⟩, by simpa using hne⟩
        obtain ⟨hj', -⟩ := List.getElem?_eq_some_iff.mp hk
        apply hlast j hj
        rw [List.getElem?_append_left hj', hk]
      · right
        rw [List.getElem?_append_right hge] at hi
        obtain ⟨hlt, hk⟩ := List.getElem?_eq_some_iff.mp hi
        have hlen : i = ks.length := by
          simp at hlt
          omega
        have hk' : k' = k := by simpa using hk
        simp [hlen, hk']

theorem indexMap_sublist (ks : List κ) : (indexMap ks).Sublist ks.zipIdx := by
  induction ks using List.reverseRecOn with
  | nil => exact List.Sublist.refl _
  | append_singleton ks k ih =>
    rw [indexMap_concat, List.zipIdx_append]
    have hsub : (put (indexMap ks) (k, ks.length)).Sublist (ks.zipIdx ++ [(k, ks.length)]) :=
      (List.filter_sublist.trans ih).append_right _
    simpa using hsub

theorem indexMap_nodup (ks : List κ) : ((indexMap ks).map (·.2)).Nodup := by
  refine ((indexMap_sublist ks).map _).nodup ?_
  rw [List.zipIdx_map_snd]
  exact List.nodup_range'

end Map

/-! ## Runs -/

/-- The orders in which the maps of a program are ranged over. -/
structure Order (κ : Type) where
  range : Path → List (κ × Nat) → List (κ × Nat)
  perm : ∀ p m, (range p m).Perm m

mutual
/-- What is done, in the order of the text. -/
def Prog.written (p : Path) : Prog κ → Trace
  | .effect => [p]
  | .seq ps => (writtens p 0 ps).flatten
  | .group es => (writtenEntries p 0 es).flatten

def writtens (p : Path) (k : Nat) : List (Prog κ) → List Trace
  | [] => []
  | q :: qs => q.written (k :: p) :: writtens p (k + 1) qs

def writtenEntries (p : Path) (k : Nat) : List (κ × Prog κ) → List Trace
  | [] => []
  | (_, q) :: es => q.written (k :: p) :: writtenEntries p (k + 1) es
end

mutual
/-- What is done, when the maps are ranged over in the order `o`. -/
def Prog.run [DecidableEq κ] (o : Order κ) (p : Path) : Prog κ → Trace
  | .effect => [p]
  | .seq ps => (runs o p 0 ps).flatten
  | .group es =>
    (o.range p (indexMap (es.map (·.1)))).flatMap fun e => (runEntries o p 0 es).getD e.2 []

def runs [DecidableEq κ] (o : Order κ) (p : Path) (k : Nat) : List (Prog κ) → List Trace
  | [] => []
  | q :: qs => q.run o (k :: p) :: runs o p (k + 1) qs

def runEntries [DecidableEq κ] (o : Order κ) (p : Path) (k : Nat) : List (κ × Prog κ) → List Trace
  | [] => []
  | (_, q) :: es => q.run o (k :: p) :: runEntries o p (k + 1) es
end

mutual
/-- There are no effects. -/
def Prog.silent : Prog κ → Bool
  | .effect => false
  | .seq ps => silents ps
  | .group es => silentEntries es

def silents : List (Prog κ) → Bool
  | [] => true
  | q :: qs => q.silent && silents qs

def silentEntries : List (κ × Prog κ) → Bool
  | [] => true
  | (_, q) :: es => q.silent && silentEntries es
end

theorem Prog.ind {motive : Prog κ → Prop} (effect : motive .effect)
    (seq : ∀ ps, (∀ q ∈ ps, motive q) → motive (.seq ps))
    (group : ∀ es, (∀ e ∈ es, motive e.2) → motive (.group es)) (t : Prog κ) : motive t :=
  t.rec effect seq group (by simp) (fun _ _ hq hqs => List.forall_mem_cons.mpr ⟨hq, hqs⟩) (by simp)
    (fun _ _ he hes => List.forall_mem_cons.mpr ⟨he, hes⟩) fun _ _ hq => hq

/-! ## The parts -/

/-- What is done in the part with an index. -/
def part (w : Prog κ → Path → Trace) (p : Path) (ps : List (Prog κ)) (i : Nat) : Trace :=
  ((ps[i]?).map fun q => w q (i :: p)).getD []

abbrev writtenPart (p : Path) (ps : List (Prog κ)) : Nat → Trace := part (fun q p => q.written p) p ps

abbrev runPart [DecidableEq κ] (o : Order κ) (p : Path) (ps : List (Prog κ)) : Nat → Trace :=
  part (fun q p => q.run o p) p ps

theorem part_getElem (w : Prog κ → Path → Trace) (p : Path) {ps : List (Prog κ)} {i : Nat}
    (h : i < ps.length) :
    part w p ps i = w ps[i] (i :: p) := by
  simp [part, h]

/-- The parts one after the other. -/
theorem flatten_zipIdx (w : Prog κ → Path → Trace) (p : Path) (ps : List (Prog κ)) :
    (ps.zipIdx.map fun x => w x.1 (x.2 :: p)).flatten = (List.range ps.length).flatMap (part w p ps) := by
  have hparts : (ps.zipIdx.map fun x => w x.1 (x.2 :: p)) = (List.range ps.length).map (part w p ps) := by
    refine List.ext_getElem (by simp) fun i hi _ => ?_
    have hi' : i < ps.length := by simpa using hi
    simp [part_getElem w p hi']
  rw [hparts, List.flatMap_def]

theorem writtens_eq (p : Path) (k : Nat) (ps : List (Prog κ)) :
    writtens p k ps = (ps.zipIdx k).map fun x => x.1.written (x.2 :: p) := by
  induction ps generalizing k with
  | nil => rfl
  | cons q qs ih => exact congrArg _ (ih (k + 1))

theorem runs_eq [DecidableEq κ] (o : Order κ) (p : Path) (k : Nat) (ps : List (Prog κ)) :
    runs o p k ps = (ps.zipIdx k).map fun x => x.1.run o (x.2 :: p) := by
  induction ps generalizing k with
  | nil => rfl
  | cons q qs ih => exact congrArg _ (ih (k + 1))

theorem runs_getD [DecidableEq κ] (o : Order κ) (p : Path) (ps : List (Prog κ)) (i : Nat) :
    (runs o p 0 ps).getD i [] = runPart o p ps i := by
  rw [runs_eq, List.getD_eq_getElem?_getD, List.getElem?_map, List.getElem?_zipIdx, Option.map_map,
    Nat.zero_add]
  rfl

theorem written_seq (p : Path) (ps : List (Prog κ)) :
    (Prog.seq ps).written p = (List.range ps.length).flatMap (writtenPart p ps) := by
  show (writtens p 0 ps).flatten = _
  rw [writtens_eq]
  exact flatten_zipIdx (fun q p => q.written p) p ps

theorem run_seq [DecidableEq κ] (o : Order κ) (p : Path) (ps : List (Prog κ)) :
    (Prog.seq ps).run o p = (List.range ps.length).flatMap (runPart o p ps) := by
  show (runs o p 0 ps).flatten = _
  rw [runs_eq]
  exact flatten_zipIdx (fun q p => q.run o p) p ps

theorem writtenEntries_eq (p : Path) (k : Nat) (es : List (κ × Prog κ)) :
    writtenEntries p k es = writtens p k (es.map (·.2)) := by
  induction es generalizing k with
  | nil => rfl
  | cons e es ih => exact congrArg _ (ih (k + 1))

theorem runEntries_eq [DecidableEq κ] (o : Order κ) (p : Path) (k : Nat) (es : List (κ × Prog κ)) :
    runEntries o p k es = runs o p k (es.map (·.2)) := by
  induction es generalizing k with
  | nil => rfl
  | cons e es ih => exact congrArg _ (ih (k + 1))

theorem written_group (p : Path) (es : List (κ × Prog κ)) :
    (Prog.group es).written p = (List.range es.length).flatMap (writtenPart p (es.map (·.2))) := by
  have hseq := written_seq p (es.map (·.2))
  rw [List.length_map] at hseq
  rw [← hseq]
  exact congrArg List.flatten (writtenEntries_eq p 0 es)

theorem run_group [DecidableEq κ] (o : Order κ) (p : Path) (es : List (κ × Prog κ)) :
    (Prog.group es).run o p =
      ((o.range p (indexMap (es.map (·.1)))).map (·.2)).flatMap (runPart o p (es.map (·.2))) := by
  rw [List.flatMap_map]
  refine congrArg (List.flatMap · _) (funext fun e => ?_)
  rw [runEntries_eq, runs_getD]

/-! ## Effects below a path -/

/-- What stands below two parts is in both. -/
theorem index_unique {i j : Nat} {p x : Path} (hi : i :: p <:+ x) (hj : j :: p <:+ x) : i = j := by
  have hsuff := List.suffix_of_suffix_length_le hi hj (Nat.le_refl _)
  exact (List.cons.inj (hsuff.eq_of_length rfl)).1

/-- The traces of parts lie below these. -/
def Below (p : Path) (w : Nat → Trace) : Prop := ∀ i, ∀ x ∈ w i, i :: p <:+ x

theorem part_below {w : Prog κ → Path → Trace} {p : Path} {ps : List (Prog κ)}
    (h : ∀ q ∈ ps, ∀ p, ∀ x ∈ w q p, p <:+ x) : Below p (part w p ps) := by
  intro i x hx
  obtain hi | hi := Nat.lt_or_ge i ps.length
  · rw [part_getElem w p hi] at hx
    exact h _ (List.getElem_mem hi) _ x hx
  · simp [part, hi] at hx

theorem Below.flatMap {p : Path} {w : Nat → Trace} (h : Below p w) (is : List Nat) :
    ∀ x ∈ is.flatMap w, p <:+ x := by
  intro x hx
  obtain ⟨i, -, hi⟩ := List.mem_flatMap.mp hx
  exact (List.suffix_cons i p).trans (h i x hi)

theorem written_below (t : Prog κ) : ∀ p, ∀ x ∈ t.written p, p <:+ x := by
  induction t using Prog.ind with
  | effect =>
    intro p x hx
    obtain rfl := List.mem_singleton.mp hx
    exact List.suffix_refl x
  | seq ps ih =>
    intro p
    rw [written_seq]
    exact (part_below ih).flatMap _
  | group es ih =>
    intro p
    rw [written_group]
    exact (part_below (List.forall_mem_map.mpr ih)).flatMap _

theorem run_below [DecidableEq κ] (o : Order κ) (t : Prog κ) : ∀ p, ∀ x ∈ t.run o p, p <:+ x := by
  induction t using Prog.ind with
  | effect =>
    intro p x hx
    obtain rfl := List.mem_singleton.mp hx
    exact List.suffix_refl x
  | seq ps ih =>
    intro p
    rw [run_seq]
    exact (part_below ih).flatMap _
  | group es ih =>
    intro p
    rw [run_group]
    exact (part_below (List.forall_mem_map.mpr ih)).flatMap _

theorem writtenPart_below (p : Path) (ps : List (Prog κ)) : Below p (writtenPart p ps) :=
  part_below fun q _ => written_below q

theorem runPart_below [DecidableEq κ] (o : Order κ) (p : Path) (ps : List (Prog κ)) :
    Below p (runPart o p ps) :=
  part_below fun q _ => run_below o q

/-- A part is read from the whole. -/
theorem Below.filter {p : Path} {w : Nat → Trace} (h : Below p w) {is : List Nat} (hnodup : is.Nodup)
    (i : Nat) :
    ((is.flatMap w).filter fun x => i :: p <:+ x) = if i ∈ is then w i else [] := by
  induction is with
  | nil => rfl
  | cons j is ih =>
    obtain ⟨hj, hnodup⟩ := List.nodup_cons.mp hnodup
    rw [List.flatMap_cons, List.filter_append, ih hnodup]
    by_cases hij : i = j
    · subst hij
      have hall : ((w i).filter fun x => i :: p <:+ x) = w i :=
        List.filter_eq_self.mpr fun x hx => decide_eq_true (h i x hx)
      simp [hall, hj]
    · have hnone : ((w j).filter fun x => i :: p <:+ x) = [] := by
        refine List.filter_eq_nil_iff.mpr fun x hx hi => hij ?_
        exact index_unique (of_decide_eq_true hi) (h j x hx)
      simp [hnone, hij]

/-- Where two wholes are the same, the parts are. -/
theorem Below.eq_of_flatMap {p : Path} {v w : Nat → Trace} (hv : Below p v) (hw : Below p w)
    {is js : List Nat} (his : is.Nodup) (hjs : js.Nodup) (h : is.flatMap v = js.flatMap w) (i : Nat) :
    (if i ∈ is then v i else []) = if i ∈ js then w i else [] := by
  rw [← hv.filter his, ← hw.filter hjs, h]

/-! ## Silence -/

theorem silents_iff (ps : List (Prog κ)) : silents ps ↔ ∀ q ∈ ps, q.silent := by
  induction ps with
  | nil => simp [silents]
  | cons q qs ih => simp [silents, ih]

theorem silentEntries_iff (es : List (κ × Prog κ)) : silentEntries es ↔ ∀ e ∈ es, e.2.silent := by
  induction es with
  | nil => simp [silentEntries]
  | cons e es ih =>
    obtain ⟨k, q⟩ := e
    simp [silentEntries, ih]

theorem silent_parts_iff {p : Path} {ps : List (Prog κ)}
    (h : ∀ q ∈ ps, ∀ p, q.silent ↔ q.written p = []) :
    (∀ q ∈ ps, q.silent) ↔ (List.range ps.length).flatMap (writtenPart p ps) = [] := by
  rw [List.flatMap_eq_nil_iff, List.forall_mem_iff_forall_getElem]
  constructor
  · intro hs i hi
    have hlt := List.mem_range.mp hi
    rw [writtenPart, part_getElem _ p hlt]
    exact (h _ (List.getElem_mem hlt) _).mp (hs i hlt)
  · intro hnil i hlt
    have hi := hnil i (List.mem_range.mpr hlt)
    rw [writtenPart, part_getElem _ p hlt] at hi
    exact (h _ (List.getElem_mem hlt) _).mpr hi

/-- What is silent does nothing. -/
theorem silent_iff (t : Prog κ) : ∀ p, t.silent ↔ t.written p = [] := by
  induction t using Prog.ind with
  | effect =>
    intro p
    simp [Prog.silent, Prog.written]
  | seq ps ih =>
    intro p
    show silents ps ↔ _
    rw [silents_iff, silent_parts_iff ih, written_seq]
  | group es ih =>
    intro p
    have hps := silent_parts_iff (p := p) (List.forall_mem_map.mpr ih)
    rw [List.length_map] at hps
    show silentEntries es ↔ _
    rw [silentEntries_iff, written_group, ← hps, List.forall_mem_map]

/-! ## Programs that are run as they are written -/

/-- In every group, of two parts one is silent, and a part whose place another one takes is. -/
inductive Prog.Settled : Prog κ → Prop
  | effect : Settled .effect
  | seq {ps : List (Prog κ)} (parts : ∀ q ∈ ps, Settled q) : Settled (.seq ps)
  | group {es : List (κ × Prog κ)} (parts : ∀ e ∈ es, Settled e.2)
    (alone : es.Pairwise fun e f => (e.2.silent ∨ f.2.silent) ∧ (e.1 = f.1 → e.2.silent)) :
    Settled (.group es)

theorem settled_of_silent (t : Prog κ) (h : t.silent) : t.Settled := by
  induction t using Prog.ind with
  | effect => exact .effect
  | seq ps ih =>
    have hs := (silents_iff ps).mp h
    exact .seq fun q hq => ih q hq (hs q hq)
  | group es ih =>
    have hs := (silentEntries_iff es).mp h
    refine .group (fun e he => ih e he (hs e he)) ?_
    exact List.pairwise_of_forall_mem_list fun e he f _ => ⟨.inl (hs e he), fun _ => hs e he⟩

section Group

variable [DecidableEq κ]

/-- The order in which `f` comes first. -/
def Order.first (f : κ × Nat) : Order κ where
  range _ m := if f ∈ m then f :: m.erase f else m
  perm _ m := by
    split
    · rename_i hf
      exact (List.perm_cons_erase hf).symm
    · exact List.Perm.refl m

/-- The indices of a map, as they are ranged over. -/
def Order.indices (o : Order κ) (p : Path) (ks : List κ) : List Nat := (o.range p (indexMap ks)).map (·.2)

theorem Order.indices_nodup (o : Order κ) (p : Path) (ks : List κ) : (o.indices p ks).Nodup :=
  ((o.perm p _).map _).nodup_iff.mpr (indexMap_nodup ks)

/-- The indices are those that no later one takes the place of. -/
theorem Order.mem_indices {o : Order κ} {p : Path} {ks : List κ} {i : Nat} (hi : i < ks.length) :
    i ∈ o.indices p ks ↔ ∀ j, i < j → ks[j]? ≠ some ks[i] := by
  rw [indices, ((o.perm p _).map _).mem_iff, List.mem_map]
  constructor
  · rintro ⟨⟨k, i⟩, hmem, rfl⟩
    obtain ⟨hk, hlast⟩ := mem_indexMap.mp hmem
    obtain ⟨hlt, rfl⟩ := List.getElem?_eq_some_iff.mp hk
    exact hlast
  · intro hlast
    exact ⟨(ks[i], i), mem_indexMap.mpr ⟨List.getElem?_eq_getElem hi, hlast⟩, rfl⟩

theorem Order.lt_of_mem_indices {o : Order κ} {p : Path} {ks : List κ} {i : Nat} (h : i ∈ o.indices p ks) :
    i < ks.length := by
  obtain ⟨⟨k, i⟩, hmem, rfl⟩ := List.mem_map.mp h
  obtain ⟨hk, -⟩ := mem_indexMap.mp ((o.perm p _).mem_iff.mp hmem)
  exact (List.getElem?_eq_some_iff.mp hk).1

/-- Any of the indices can be the first. -/
theorem Order.first_indices {p : Path} {ks : List κ} {i : Nat} (hi : i < ks.length)
    (h : ∀ j, i < j → ks[j]? ≠ some ks[i]) :
    ∃ is, (Order.first (ks[i], i)).indices p ks = i :: is := by
  have hmem : (ks[i], i) ∈ indexMap ks := mem_indexMap.mpr ⟨List.getElem?_eq_getElem hi, h⟩
  refine ⟨((indexMap ks).erase (ks[i], i)).map (·.2), ?_⟩
  simp [indices, first, hmem]

/-- One part that is not silent stands for all. -/
theorem flatMap_eq_part {w : Nat → Trace} {is : List Nat} (hnodup : is.Nodup) {i : Nat} (hi : i ∈ is)
    (h : ∀ j ∈ is, j ≠ i → w j = []) : is.flatMap w = w i := by
  induction is with
  | nil => cases hi
  | cons j is ih =>
    obtain ⟨hj, hnodup⟩ := List.nodup_cons.mp hnodup
    have hrest : ∀ l ∈ is, l ≠ i → w l = [] := fun l hl => h l (List.mem_cons_of_mem _ hl)
    rw [List.flatMap_cons]
    obtain rfl | hmem := List.mem_cons.mp hi
    · have hnil : is.flatMap w = [] := by
        refine List.flatMap_eq_nil_iff.mpr fun l hl => hrest l hl ?_
        intro he
        exact hj (he ▸ hl)
      rw [hnil, List.append_nil]
    · have hji : j ≠ i := by
        intro he
        exact hj (he ▸ hmem)
      rw [h j List.mem_cons_self hji, ih hnodup hmem hrest, List.nil_append]

/-- The parts of a settled group come to the same in every order. -/
theorem flatMap_indices (o : Order κ) (p : Path) {es : List (κ × Prog κ)}
    (alone : es.Pairwise fun e f => (e.2.silent ∨ f.2.silent) ∧ (e.1 = f.1 → e.2.silent)) :
    (o.indices p (es.map (·.1))).flatMap (writtenPart p (es.map (·.2))) =
      (List.range es.length).flatMap (writtenPart p (es.map (·.2))) := by
  have hpart : ∀ {i} (hi : i < es.length), writtenPart p (es.map (·.2)) i = es[i].2.written (i :: p) := by
    intro i hi
    rw [writtenPart, part_getElem _ p (by simpa using hi), List.getElem_map]
  have hpairs := List.pairwise_iff_getElem.mp alone
  by_cases hex : ∃ i, ∃ hi : i < es.length, ¬ es[i].2.silent
  · obtain ⟨i, hi, hloud⟩ := hex
    -- The others are silent, and it stays in the map.
    have hothers : ∀ j, j < es.length → j ≠ i → writtenPart p (es.map (·.2)) j = [] := by
      intro j hj hne
      rw [hpart hj]
      refine (silent_iff _ _).mp ?_
      obtain hlt | hgt := Nat.lt_or_gt_of_ne hne
      · exact (hpairs j i hj hi hlt).1.resolve_right hloud
      · exact (hpairs i j hi hj hgt).1.resolve_left hloud
    have hmem : i ∈ o.indices p (es.map (·.1)) := by
      refine (Order.mem_indices (by simpa using hi)).mpr fun j hj hk => ?_
      obtain ⟨hjlt, hjk⟩ := List.getElem?_eq_some_iff.mp hk
      simp only [List.length_map, List.getElem_map] at hjlt hjk
      exact hloud ((hpairs i j hi hjlt hj).2 hjk.symm)
    have hin : ∀ j ∈ o.indices p (es.map (·.1)), j < es.length := by
      intro j hj
      simpa using Order.lt_of_mem_indices hj
    rw [flatMap_eq_part (o.indices_nodup p _) hmem fun j hj => hothers j (hin j hj),
      flatMap_eq_part List.nodup_range (List.mem_range.mpr hi) fun j hj => hothers j (List.mem_range.mp hj)]
  · have hnil : ∀ j, j < es.length → writtenPart p (es.map (·.2)) j = [] := by
      intro j hj
      rw [hpart hj]
      by_contra hne
      exact hex ⟨j, hj, fun hs => hne ((silent_iff _ _).mp hs)⟩
    have hleft : (o.indices p (es.map (·.1))).flatMap (writtenPart p (es.map (·.2))) = [] :=
      List.flatMap_eq_nil_iff.mpr fun j hj => hnil j (by simpa using Order.lt_of_mem_indices hj)
    have hright : (List.range es.length).flatMap (writtenPart p (es.map (·.2))) = [] :=
      List.flatMap_eq_nil_iff.mpr fun j hj => hnil j (List.mem_range.mp hj)
    rw [hleft, hright]

/-- Whatever the order, what is written is done, as it is written. -/
def Prog.InOrder (t : Prog κ) (p : Path) : Prop := ∀ o : Order κ, t.run o p = t.written p

theorem Prog.Settled.inOrder {t : Prog κ} (h : t.Settled) : ∀ p, t.InOrder p := by
  have hparts : ∀ {ps : List (Prog κ)}, (∀ q ∈ ps, ∀ p, q.InOrder p) →
      ∀ o p, runPart o p ps = writtenPart p ps := by
    intro ps h o p
    funext i
    obtain hi | hi := Nat.lt_or_ge i ps.length
    · rw [runPart, writtenPart, part_getElem _ p hi, part_getElem _ p hi]
      exact h _ (List.getElem_mem hi) _ o
    · simp [runPart, writtenPart, part, hi]
  induction h with
  | effect => exact fun p o => rfl
  | seq parts ih =>
    intro p o
    rw [run_seq, written_seq, hparts ih]
  | @group es parts alone ih =>
    intro p o
    rw [run_group, written_group, hparts (List.forall_mem_map.mpr ih)]
    exact flatMap_indices o p alone

/-- In a group that is run as it is written, the parts in the map are, and the others are silent. -/
theorem Prog.InOrder.part_eq {es : List (κ × Prog κ)} {p : Path} (h : (Prog.group es).InOrder p)
    (o : Order κ) {i : Nat} (hi : i < es.length) :
    (if i ∈ o.indices p (es.map (·.1)) then es[i].2.run o (i :: p) else []) = es[i].2.written (i :: p) := by
  have ho := h o
  rw [run_group, written_group] at ho
  have hpart := (runPart_below o p _).eq_of_flatMap (writtenPart_below p _) (o.indices_nodup p _)
    List.nodup_range ho i
  have hi' : i < (es.map (·.2)).length := by simpa using hi
  rw [if_pos (List.mem_range.mpr hi), runPart, writtenPart, part_getElem _ p hi', part_getElem _ p hi',
    List.getElem_map] at hpart
  exact hpart

/-- A part that some order runs first is the first that is written. -/
theorem Prog.InOrder.first {es : List (κ × Prog κ)} {p : Path} (h : (Prog.group es).InOrder p) {i : Nat}
    (hi : i < es.length) (hlast : ∀ j, i < j → (es.map (·.1))[j]? ≠ some es[i].1) :
    es[i].2.written (i :: p) <+: (Prog.group es).written p := by
  have hi' : i < (es.map (·.1)).length := by simpa using hi
  have hkey : (es.map (·.1))[i] = es[i].1 := List.getElem_map _
  obtain ⟨is, his⟩ := Order.first_indices (p := p) hi' (by rwa [hkey])
  rw [hkey] at his
  have ho := h (Order.first (es[i].1, i))
  have hpart := h.part_eq (Order.first (es[i].1, i)) hi
  rw [his, if_pos List.mem_cons_self] at hpart
  rw [run_group] at ho
  change (Order.indices _ p _).flatMap _ = _ at ho
  rw [his, List.flatMap_cons, runPart, part_getElem _ p (by simpa using hi), List.getElem_map, hpart] at ho
  exact ⟨_, ho⟩

theorem Prog.InOrder.settled (t : Prog κ) : ∀ p, t.InOrder p → t.Settled := by
  induction t using Prog.ind with
  | effect => exact fun _ _ => .effect
  | seq ps ih =>
    intro p h
    refine .seq fun q hq => ?_
    obtain ⟨i, hi, rfl⟩ := List.getElem_of_mem hq
    refine ih _ hq (i :: p) fun o => ?_
    have ho := h o
    rw [run_seq, written_seq] at ho
    have hpart := (runPart_below o p ps).eq_of_flatMap (writtenPart_below p ps) List.nodup_range
      List.nodup_range ho i
    rwa [if_pos (List.mem_range.mpr hi), if_pos (List.mem_range.mpr hi), runPart, writtenPart,
      part_getElem _ p hi, part_getElem _ p hi] at hpart
  | group es ih =>
    intro p h
    -- A part whose place another one takes is silent.
    have hgone : ∀ {i j} (hi : i < es.length) (hj : j < es.length), i < j → es[i].1 = es[j].1 →
        es[i].2.silent := by
      intro i j hi hj hij hk
      rw [silent_iff _ (i :: p), ← h.part_eq (Order.first (es[i].1, i)) hi]
      refine if_neg fun hmem => ?_
      refine (Order.mem_indices (by simpa using hi)).mp hmem j hij ?_
      simp [hj, hk]
    have hlast : ∀ {i} (hi : i < es.length), ¬ es[i].2.silent →
        ∀ j, i < j → (es.map (·.1))[j]? ≠ some es[i].1 := by
      intro i hi hloud j hij hk
      obtain ⟨hj, hjk⟩ := List.getElem?_eq_some_iff.mp hk
      simp only [List.length_map, List.getElem_map] at hj hjk
      exact hloud (hgone hi hj hij hjk.symm)
    refine .group (fun e he => ?_) ?_
    · obtain ⟨i, hi, rfl⟩ := List.getElem_of_mem he
      by_cases hs : es[i].2.silent
      · exact settled_of_silent _ hs
      · refine ih _ he (i :: p) fun o => ?_
        have hmem : i ∈ o.indices p (es.map (·.1)) :=
          (Order.mem_indices (by simpa using hi)).mpr (by simpa using hlast hi hs)
        have hpart := h.part_eq o hi
        rwa [if_pos hmem] at hpart
    · refine List.pairwise_iff_getElem.mpr fun i j hi hj hij => ⟨?_, hgone hi hj hij⟩
      by_contra hloud
      obtain ⟨hli, hlj⟩ := not_or.mp hloud
      -- Either of the two can come first.
      have hpi := h.first hi (hlast hi hli)
      have hpj := h.first hj (hlast hj hlj)
      rw [silent_iff _ (i :: p)] at hli
      rw [silent_iff _ (j :: p)] at hlj
      obtain ⟨x, t, hx⟩ := List.exists_cons_of_ne_nil hli
      obtain ⟨y, u, hy⟩ := List.exists_cons_of_ne_nil hlj
      obtain ⟨vi, hvi⟩ := hpi
      obtain ⟨vj, hvj⟩ := hpj
      rw [hx] at hvi
      rw [hy] at hvj
      have hxy : x = y := (List.cons.inj (hvi.trans hvj.symm)).1
      have hxi : i :: p <:+ x := written_below _ _ x (hx ▸ List.mem_cons_self)
      have hyj : j :: p <:+ y := written_below _ _ y (hy ▸ List.mem_cons_self)
      rw [hxy] at hxi
      exact Nat.ne_of_lt hij (index_unique hxi hyj)

theorem inOrder_iff (t : Prog κ) (p : Path) : t.InOrder p ↔ t.Settled :=
  ⟨Prog.InOrder.settled t p, fun h => h.inOrder p⟩

end Group

end CalcLang.Lib.Ranging
