import Mathlib.Data.List.Basic
import Mathlib.Logic.Function.Basic

/-!
# Programs over shared cells

A program that reads and writes a table of cells, numbers what it makes and
appends to a log. Reading a cell that holds a value leaves a mark of that value
in the log.

`Follows t m` says that `m` accesses the cells in the order of the trace `t`,
whatever the values are that it meets. What a run can learn from the cells and
what it leaves in them is then a matter of the trace alone: `readsFirst` are the
cells whose contents before the run matter, `lastWrite` is what the run leaves in
a cell. `Follows.apart` and `Follows.meets` compare a run after another program
with a run from the empty table: the two are the same if no cell that is read
first was left set, and otherwise the mark of the value left there is in the log.
-/

namespace CalcLang.Lib

/-- A table of cells, a log, and a counter for fresh numbers. -/
structure Cells (κ ν ω : Type) where
  cell : κ → Option ν
  log : List ω
  next : Nat

namespace Cells

variable {κ ν ω ℓ α β : Type}

/-- A program over cells. -/
abbrev Prog (κ ν ω : Type) := StateM (Cells κ ν ω)

/-- Nothing set and nothing logged. -/
def empty : Cells κ ν ω := ⟨fun _ => none, [], 0⟩

/-- Count from 0 again. -/
def renumbered (s : Cells κ ν ω) : Cells κ ν ω := { s with next := 0 }

/-- Read a cell, and log the mark of the value in it. -/
def visit (mark : ν → ω) (k : κ) : Prog κ ν ω (Option ν) :=
  fun s => (s.cell k, { s with log := s.log ++ ((s.cell k).map mark).toList })

/-- Write a cell. -/
def put [DecidableEq κ] (k : κ) (v : Option ν) : Prog κ ν ω Unit :=
  fun s => ((), { s with cell := Function.update s.cell k v })

/-- Append to the log. -/
def emit (w : ω) : Prog κ ν ω Unit := fun s => ((), { s with log := s.log ++ [w] })

/-- The next number. -/
def fresh : Prog κ ν ω Nat := fun s => (s.next, { s with next := s.next + 1 })

theorem bind_apply (m : Prog κ ν ω α) (f : α → Prog κ ν ω β) (s : Cells κ ν ω) :
    (m >>= f) s = f (m s).1 (m s).2 := rfl

/-! ## Traces -/

/-- An access to a cell; a value that is set has a label. -/
inductive Access (κ ℓ : Type)
  | get (k : κ)
  | clear (k : κ)
  | set (k : κ) (l : ℓ)

/-- The cell. -/
def Access.key : Access κ ℓ → κ
  | .get k | .clear k | .set k _ => k

/-- What a write writes. -/
def Access.writes : Access κ ℓ → Option (Option ℓ)
  | .get _ => none
  | .clear _ => some none
  | .set _ l => some (some l)

/-- The cells of a trace. -/
def keys (t : List (Access κ ℓ)) : List κ := t.map Access.key

section

variable [DecidableEq κ]

/-- The first access to the cell reads it. -/
def readsFirst (k : κ) : List (Access κ ℓ) → Prop
  | [] => False
  | a :: t => if a.key = k then a.writes = none else readsFirst k t

/-- The last write to the cell. -/
def lastWrite (k : κ) : List (Access κ ℓ) → Option (Option ℓ)
  | [] => none
  | a :: t => (lastWrite k t).or (if a.key = k then a.writes else none)

variable {t u : List (Access κ ℓ)} {k : κ}

omit [DecidableEq κ] in
theorem keys_append (t u : List (Access κ ℓ)) : keys (t ++ u) = keys t ++ keys u :=
  List.map_append

theorem readsFirst_append (k : κ) (t u : List (Access κ ℓ)) :
    readsFirst k (t ++ u) ↔ readsFirst k t ∨ k ∉ keys t ∧ readsFirst k u := by
  induction t with
  | nil => simp [readsFirst, keys]
  | cons a t ih =>
    by_cases ha : a.key = k
    · simp [readsFirst, keys, ha]
    · have ha' : k ≠ a.key := fun h => ha h.symm
      simp only [List.cons_append, readsFirst, if_neg ha, ih, keys, List.map_cons, List.mem_cons,
        ha', false_or]

theorem lastWrite_append (k : κ) (t u : List (Access κ ℓ)) :
    lastWrite k (t ++ u) = (lastWrite k u).or (lastWrite k t) := by
  induction t with
  | nil => simp [lastWrite]
  | cons a t ih => simp only [List.cons_append, lastWrite, ih, Option.or_assoc]

omit [DecidableEq κ] in
theorem keys_set (ks : List κ) (l : ℓ) : keys (ks.map (.set · l)) = ks := by
  simp [keys, Function.comp_def, Access.key]

omit [DecidableEq κ] in
theorem keys_clear (ks : List κ) : keys (ks.map (.clear : κ → Access κ ℓ)) = ks := by
  simp [keys, Function.comp_def, Access.key]

theorem not_readsFirst_clear (k : κ) (ks : List κ) :
    ¬ readsFirst k (ks.map (.clear : κ → Access κ ℓ)) := by
  induction ks with
  | nil => exact id
  | cons j ks ih =>
    rw [List.map_cons, readsFirst]
    split
    · exact Option.some_ne_none _
    · exact ih

theorem not_readsFirst_set (k : κ) (ks : List κ) (l : ℓ) :
    ¬ readsFirst k (ks.map (.set · l)) := by
  induction ks with
  | nil => exact id
  | cons j ks ih =>
    rw [List.map_cons, readsFirst]
    split
    · exact Option.some_ne_none _
    · exact ih

theorem readsFirst_get (k j : κ) (t : List (Access κ ℓ)) :
    readsFirst k (.get j :: t) ↔ k = j ∨ readsFirst k t := by
  rw [readsFirst]
  by_cases hj : j = k
  · simp [Access.key, Access.writes, hj]
  · simp [Access.key, hj, Ne.symm hj]

/-- A cell that is not accessed is not written. -/
theorem lastWrite_of_not_mem (h : k ∉ keys t) : lastWrite k t = none := by
  induction t with
  | nil => rfl
  | cons a t ih =>
    have ha : a.key ≠ k := fun he => h (List.mem_cons.mpr (.inl he.symm))
    have ht : k ∉ keys t := fun hm => h (List.mem_cons_of_mem _ hm)
    rw [lastWrite, ih ht, if_neg ha]
    rfl

/-- A cell among those set is set. -/
theorem lastWrite_set {k : κ} {ks : List κ} (l : ℓ) (h : k ∈ ks) :
    lastWrite k (ks.map (.set · l)) = some (some l) := by
  induction ks with
  | nil => exact absurd h List.not_mem_nil
  | cons j ks ih =>
    rw [List.map_cons, lastWrite]
    by_cases hk : k ∈ ks
    · rw [ih hk]
      rfl
    · obtain rfl : k = j := (List.mem_cons.mp h).resolve_right hk
      have hnot : k ∉ keys (ks.map (.set · l)) := by rwa [keys_set]
      simp [lastWrite_of_not_mem hnot, Access.key, Access.writes]

theorem readsFirst_mem (h : readsFirst k t) : k ∈ keys t := by
  induction t with
  | nil => exact h.elim
  | cons a t ih =>
    by_cases ha : a.key = k
    · exact List.mem_cons.mpr (.inl ha.symm)
    · rw [readsFirst, if_neg ha] at h
      exact List.mem_cons_of_mem _ (ih h)

/-- An accessed cell is read first or written. -/
theorem readsFirst_or_written (h : k ∈ keys t) : readsFirst k t ∨ lastWrite k t ≠ none := by
  induction t with
  | nil => exact absurd h List.not_mem_nil
  | cons a t ih =>
    by_cases ha : a.key = k
    · rw [readsFirst, if_pos ha, lastWrite, if_pos ha]
      cases hw : a.writes with
      | none => exact .inl rfl
      | some w =>
        right
        cases lastWrite k t <;> simp
    · rw [readsFirst, if_neg ha, lastWrite, if_neg ha, Option.or_none]
      refine ih ?_
      rcases List.mem_cons.mp h with h | h
      · exact absurd h.symm ha
      · exact h

end

/-! ## Programs that follow a trace -/

section

variable [DecidableEq κ]

/-- `m` accesses the cells as the trace says and its result meets `Q`. Everything
that it logs of its own, and the mark of everything that it sets, is `own`. -/
inductive Follows (mark : ν → ω) (lab : ν → ℓ) (own : ω → Prop) : {α : Type} →
    List (Access κ ℓ) → Prog κ ν ω α → (α → Prop) → Prop
  | pure {α : Type} {Q : α → Prop} {a : α} : Q a → Follows mark lab own [] (pure a) Q
  | bind {α β : Type} {t u : List (Access κ ℓ)} {m : Prog κ ν ω α} {f : α → Prog κ ν ω β}
      {P : α → Prop} {Q : β → Prop} : Follows mark lab own t m P →
      (∀ a, P a → Follows mark lab own u (f a) Q) → Follows mark lab own (t ++ u) (m >>= f) Q
  | visit (k : κ) : Follows mark lab own [.get k] (visit mark k) fun _ => True
  | clear (k : κ) : Follows mark lab own [.clear k] (put k none) fun _ => True
  | set (k : κ) {v : ν} {l : ℓ} : own (mark v) → lab v = l →
      Follows mark lab own [.set k l] (put k (some v)) fun _ => True
  | emit {w : ω} : own w → Follows mark lab own [] (emit w) fun _ => True
  | fresh : Follows mark lab own [] fresh fun _ => True

variable {mark : ν → ω} {lab : ν → ℓ} {own own' : ω → Prop} {t u : List (Access κ ℓ)}
  {m : Prog κ ν ω α} {Q : α → Prop} {k : κ}

theorem Follows.post (h : Follows mark lab own t m Q) (s : Cells κ ν ω) : Q (m s).1 := by
  induction h generalizing s with
  | pure h => exact h
  | bind _ _ ihm ihf => exact ihf _ (ihm s) _
  | visit | clear | set | emit | fresh => trivial

/-- A step whose result is not looked at. -/
theorem Follows.andThen {n : Prog κ ν ω β} {P : β → Prop} (hn : Follows mark lab own t n P)
    (hm : Follows mark lab own u m Q) : Follows mark lab own (t ++ u) (n >>= fun _ => m) Q :=
  .bind hn fun _ _ => hm

/-- A step in front that accesses nothing. -/
theorem Follows.after {n : Prog κ ν ω β} {P : β → Prop} {f : β → Prog κ ν ω α}
    (hn : Follows mark lab own [] n P) (hf : ∀ b, P b → Follows mark lab own t (f b) Q) :
    Follows mark lab own t (n >>= f) Q :=
  Follows.bind hn hf

/-- A step behind that accesses nothing. -/
theorem Follows.before {n : Prog κ ν ω β} {P : β → Prop} {f : β → Prog κ ν ω α}
    (hn : Follows mark lab own t n P) (hf : ∀ b, P b → Follows mark lab own [] (f b) Q) :
    Follows mark lab own t (n >>= f) Q := by
  have h := Follows.bind hn hf
  rwa [List.append_nil] at h

/-! ## What a run leaves -/

/-- What a trace whose last write is the first argument makes of a cell. -/
def Leaves (mark : ν → ω) (lab : ν → ℓ) (own : ω → Prop) :
    Option (Option ℓ) → Option ν → Option ν → Prop
  | none, c, c' => c' = c
  | some none, _, c' => c' = none
  | some (some l), _, c' => ∃ v, c' = some v ∧ lab v = l ∧ own (mark v)

/-- What is set was set before, or is left by the run. -/
theorem Leaves.trans {o o' : Option (Option ℓ)} {c c' c'' : Option ν}
    (h : Leaves mark lab own o c c') (h' : Leaves mark lab own o' c' c'') :
    Leaves mark lab own (o'.or o) c c'' := by
  cases o' with
  | none =>
    obtain rfl : c'' = c' := h'
    exact h
  | some w =>
    cases w with
    | none => exact h'
    | some l => exact h'

/-- **What a run leaves in a cell** is what its last write puts there. -/
theorem Follows.leaves (h : Follows mark lab own t m Q) (k : κ) (s : Cells κ ν ω) :
    Leaves mark lab own (lastWrite k t) (s.cell k) ((m s).2.cell k) := by
  induction h generalizing s with
  | pure | emit | fresh => rfl
  | visit j =>
    have hw : lastWrite k [(Access.get j : Access κ ℓ)] = none := by simp [lastWrite, Access.writes]
    rw [hw]
    rfl
  | bind hm _ ihm ihf =>
    rw [lastWrite_append]
    exact (ihm s).trans (ihf _ (hm.post s) _)
  | clear j =>
    show Leaves mark lab own (if j = k then some none else none) _
      (Function.update s.cell j none k)
    by_cases hj : j = k
    · rw [if_pos hj, hj, Function.update_self]
      rfl
    · rw [if_neg hj, Function.update_of_ne (Ne.symm hj)]
      rfl
  | @set j v l hv hl =>
    show Leaves mark lab own (if j = k then some (some l) else none) _
      (Function.update s.cell j (some v) k)
    by_cases hj : j = k
    · rw [if_pos hj, hj, Function.update_self]
      exact ⟨v, rfl, hl, hv⟩
    · rw [if_neg hj, Function.update_of_ne (Ne.symm hj)]
      rfl

/-- The log only grows. -/
theorem Follows.log_grows (h : Follows mark lab own t m Q) (s : Cells κ ν ω) :
    s.log <+: (m s).2.log := by
  induction h generalizing s with
  | pure | clear | set | fresh => exact List.prefix_rfl
  | bind _ _ ihm ihf => exact (ihm s).trans (ihf _ (Follows.post ‹_› s) _)
  | visit | emit => exact List.prefix_append _ _

/-- From a table of own values, the log gets own entries only. -/
theorem Follows.owns (h : Follows mark lab own t m Q) {s : Cells κ ν ω}
    (hlog : ∀ w ∈ s.log, own w) (hcell : ∀ k v, s.cell k = some v → own (mark v)) :
    (∀ w ∈ (m s).2.log, own w) ∧ ∀ k v, (m s).2.cell k = some v → own (mark v) := by
  induction h generalizing s with
  | pure | fresh => exact ⟨hlog, hcell⟩
  | bind hm _ ihm ihf =>
    obtain ⟨h1, h2⟩ := ihm hlog hcell
    exact ihf _ (hm.post s) h1 h2
  | visit k =>
    refine ⟨?_, hcell⟩
    intro w hw
    rcases List.mem_append.mp hw with hw | hw
    · exact hlog w hw
    · cases hv : s.cell k with
      | none => simp [hv] at hw
      | some v =>
        obtain rfl : w = mark v := by simpa [hv] using hw
        exact hcell k v hv
  | clear k =>
    refine ⟨hlog, ?_⟩
    intro j v hv
    by_cases hj : j = k
    · subst hj
      simp [put] at hv
    · exact hcell j v (by simpa [put, hj] using hv)
  | @set k x _ hx _ =>
    refine ⟨hlog, ?_⟩
    intro j v hv
    by_cases hj : j = k
    · subst hj
      obtain rfl : x = v := by simpa [put] using hv
      exact hx
    · exact hcell j v (by simpa [put, hj] using hv)
  | @emit w hw =>
    refine ⟨?_, hcell⟩
    intro w' hw'
    rcases List.mem_append.mp hw' with hw' | hw'
    · exact hlog w' hw'
    · obtain rfl := List.mem_singleton.mp hw'
      exact hw

/-! ## What a run sees -/

/-- The mark of a value that is read first is logged. -/
theorem Follows.marks (h : Follows mark lab own t m Q) (hk : readsFirst k t) {s : Cells κ ν ω}
    {v : ν} (hv : s.cell k = some v) : mark v ∈ (m s).2.log.drop s.log.length := by
  induction h generalizing s with
  | pure | emit | fresh => exact hk.elim
  | visit j =>
    by_cases hj : j = k
    · subst hj
      show mark v ∈ (s.log ++ ((s.cell j).map mark).toList).drop s.log.length
      rw [List.drop_left, hv]
      exact List.mem_singleton_self _
    · exact absurd (List.mem_singleton.mp (readsFirst_mem hk)) (Ne.symm hj)
  | clear j =>
    by_cases hj : j = k
    · simp [readsFirst, Access.key, hj, Access.writes] at hk
    · exact absurd (List.mem_singleton.mp (readsFirst_mem hk)) (Ne.symm hj)
  | set j =>
    by_cases hj : j = k
    · simp [readsFirst, Access.key, hj, Access.writes] at hk
    · exact absurd (List.mem_singleton.mp (readsFirst_mem hk)) (Ne.symm hj)
  | @bind _ _ t u m f _ _ hm hf ihm ihf =>
    obtain ⟨new, hnew⟩ := hm.log_grows s
    obtain ⟨new', hnew'⟩ := (hf _ (hm.post s)).log_grows (m s).2
    show mark v ∈ (f (m s).1 (m s).2).2.log.drop s.log.length
    rw [← hnew', ← hnew, List.append_assoc, List.drop_left]
    rcases (readsFirst_append k t u).mp hk with hk | ⟨hkt, hk⟩
    · have hin := ihm hk hv
      rw [← hnew, List.drop_left] at hin
      exact List.mem_append_left _ hin
    · -- the first part does not touch the cell
      have hv' : (m s).2.cell k = some v := by
        have hl := hm.leaves k s
        rw [lastWrite_of_not_mem hkt] at hl
        exact Eq.trans hl hv
      have hin := ihf _ (hm.post s) hk hv'
      rw [← hnew', List.drop_left] at hin
      exact List.mem_append_right _ hin

/-- Two tables agree on the cells in `S`; the log of the one has the other's behind
`p`. -/
structure Alike (p : List ω) (S : κ → Prop) (s s' : Cells κ ν ω) : Prop where
  log : s.log = p ++ s'.log
  next : s.next = s'.next
  cell : ∀ k, S k → s.cell k = s'.cell k

/-- **Two runs that agree on what is read first** do the same, and agree on what they
write. -/
theorem Follows.alike (h : Follows mark lab own t m Q) {p : List ω} {S : κ → Prop}
    {s s' : Cells κ ν ω} (hs : Alike p S s s') (hS : ∀ k, readsFirst k t → S k) :
    (m s).1 = (m s').1 ∧ Alike p (fun k => S k ∨ lastWrite k t ≠ none) (m s).2 (m s').2 := by
  induction h generalizing s s' S with
  | pure => exact ⟨rfl, hs.log, hs.next, fun k hk => hs.cell k (hk.resolve_right (by simp [lastWrite]))⟩
  | visit k =>
    have hk := hs.cell k (hS k (by simp [readsFirst, Access.key, Access.writes]))
    refine ⟨hk, ?_, hs.next, ?_⟩
    · show s.log ++ _ = p ++ (s'.log ++ _)
      rw [hk, hs.log, List.append_assoc]
    · intro j hj
      refine hs.cell j (hj.resolve_right ?_)
      simp [lastWrite, Access.writes]
  | clear k =>
    refine ⟨rfl, hs.log, hs.next, ?_⟩
    intro j hj
    show Function.update s.cell k none j = Function.update s'.cell k none j
    by_cases hjk : j = k
    · rw [hjk, Function.update_self, Function.update_self]
    · rw [Function.update_of_ne hjk, Function.update_of_ne hjk]
      refine hs.cell j (hj.resolve_right ?_)
      simp [lastWrite, Access.key, Ne.symm hjk]
  | @set k v _ _ _ =>
    refine ⟨rfl, hs.log, hs.next, ?_⟩
    intro j hj
    show Function.update s.cell k (some v) j = Function.update s'.cell k (some v) j
    by_cases hjk : j = k
    · rw [hjk, Function.update_self, Function.update_self]
    · rw [Function.update_of_ne hjk, Function.update_of_ne hjk]
      refine hs.cell j (hj.resolve_right ?_)
      simp [lastWrite, Access.key, Ne.symm hjk]
  | @emit w _ =>
    refine ⟨rfl, ?_, hs.next, fun k hk => hs.cell k (hk.resolve_right (by simp [lastWrite]))⟩
    show s.log ++ [w] = p ++ (s'.log ++ [w])
    rw [hs.log, List.append_assoc]
  | fresh =>
    refine ⟨hs.next, hs.log, congrArg (· + 1) hs.next, ?_⟩
    exact fun k hk => hs.cell k (hk.resolve_right (by simp [lastWrite]))
  | @bind _ _ t u m f _ _ hm hf ihm ihf =>
    obtain ⟨h1, h2⟩ := ihm hs fun k hk => hS k ((readsFirst_append k t u).mpr (.inl hk))
    -- what the second part reads first was agreed on, or the first part has written it
    have hS' : ∀ k, readsFirst k u → S k ∨ lastWrite k t ≠ none := by
      intro k hk
      by_cases hkt : k ∈ keys t
      · refine (readsFirst_or_written hkt).imp_left fun hr => ?_
        exact hS k ((readsFirst_append k t u).mpr (.inl hr))
      · exact .inl (hS k ((readsFirst_append k t u).mpr (.inr ⟨hkt, hk⟩)))
    obtain ⟨h3, h4⟩ := ihf _ (hm.post s) h2 hS'
    rw [bind_apply, bind_apply, ← h1]
    refine ⟨h3, h4.log, h4.next, ?_⟩
    intro k hk
    refine h4.cell k ?_
    rw [lastWrite_append] at hk
    rcases hk with hk | hk
    · exact .inl (.inl hk)
    · cases hu : lastWrite k u with
      | some w => exact .inr (Option.some_ne_none w)
      | none => exact .inl (.inr (by rwa [hu] at hk))

/-! ## One program after another -/

variable {t' : List (Access κ ℓ)} {m' : Prog κ ν ω β} {Q' : β → Prop}

/-- **Nothing is carried over** if no cell that the second program reads first is left
set by the first: it does what it would do alone. -/
theorem Follows.apart (h : Follows mark lab own t m Q) (h' : Follows mark lab own' t' m' Q')
    (hapart : ∀ k l, readsFirst k t' → lastWrite k t ≠ some (some l)) :
    (m' (m empty).2.renumbered).1 = (m' empty).1 ∧
      (m' (m empty).2.renumbered).2.log = (m empty).2.log ++ (m' empty).2.log := by
  have hstart : Alike (m empty).2.log (fun k => readsFirst k t') (m empty).2.renumbered empty := by
    refine ⟨(List.append_nil _).symm, rfl, ?_⟩
    intro k hk
    have hl := h.leaves k empty
    cases hw : lastWrite k t with
    | none =>
      rw [hw] at hl
      exact hl
    | some w =>
      cases w with
      | none =>
        rw [hw] at hl
        exact hl
      | some l => exact absurd hw (hapart k l hk)
  obtain ⟨h1, h2⟩ := h'.alike hstart fun _ hk => hk
  exact ⟨h1, h2.log⟩

/-- **Something is carried over** if the second program reads first what the first leaves
set: it logs a mark of the first. -/
theorem Follows.meets {l : ℓ} (h : Follows mark lab own t m Q)
    (h' : Follows mark lab own' t' m' Q') (hk : readsFirst k t')
    (hw : lastWrite k t = some (some l)) :
    ∃ v, lab v = l ∧ own (mark v) ∧
      mark v ∈ (m' (m empty).2.renumbered).2.log.drop (m empty).2.log.length := by
  have hl := h.leaves k empty
  rw [hw] at hl
  obtain ⟨v, hv, hlab, hown⟩ := hl
  exact ⟨v, hlab, hown, h'.marks hk (s := (m empty).2.renumbered) hv⟩

end

end Cells

end CalcLang.Lib
