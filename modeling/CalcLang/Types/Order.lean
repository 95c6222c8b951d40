import CalcLang.Lib.Resolve
import CalcLang.Types.Fixpoint

/-!
# The order of the type declarations

The rounds of `CalcGlobals` come to the same table for every order of the declarations, or
for none to any (`CalcGlobals_perm`): what a name is defined as depends on its declaration
alone, and whether the rounds come to an end on which declarations there are.
-/

namespace CalcLang.Types

open CalcLang.Lib

variable {env : Env} {types types' : Table} {D D' : Declarations}

/-! ## What a declaration is defined as -/

mutual

/-- The type that `calc` computes, if it finds everything. -/
def TypeNode.ty : TypeNode → Ty
  | .basic t p => pointers p (.res t)
  | .custom pkg name p => pointers p (.named (pkg ++ "." ++ name))
  | .array len elm p =>
    if len > 0 then pointers p (.array len.toNat elm.ty) else pointers (p + 1) (.slice elm.ty)
  | .func args none p => pointers (p + 1) (.func none (tyArgs args))
  | .func args (some ret) p => pointers (p + 1) (.func (some ret.ty) (tyArgs args))
  | .struct fields p => pointers p (.struct (tyFields fields))
  | .interface funcs p => pointers p (.interf (funcs.map Prod.fst))

def tyArgs : List TypeNode → List Ty
  | [] => []
  | n :: ns => n.ty :: tyArgs ns

def tyFields : List (String × TypeNode) → List Ty
  | [] => []
  | (_, n) :: ns => n.ty :: tyFields ns

end

theorem getTp_eq {pkg name : String} {t : Ty} (h : getTp env types pkg name = .ok t) :
    t = .named (pkg ++ "." ++ name) := by
  unfold getTp at h
  split at h
  · split at h
    · cases h
      rfl
    · split at h
      · cases h
        rfl
      · cases h
  · split at h
    · cases h
      rfl
    · cases h

private theorem bind_ok {α β : Type} {x : Except String α} {f : α → Except String β} {b : β}
    (h : (x >>= f) = .ok b) : ∃ a, x = .ok a ∧ f a = .ok b := by
  cases x with
  | error e => cases h
  | ok a => exact ⟨a, rfl, h⟩

mutual

theorem TypeNode.calc_eq : ∀ (n : TypeNode) {t : Ty}, n.calc env types = .ok t → t = n.ty
  | .basic _ _, t, h => by
    unfold TypeNode.calc at h
    cases h
    rfl
  | .custom pkg name p, t, h => by
    unfold TypeNode.calc at h
    obtain ⟨t', ht', h⟩ := bind_ok h
    cases h
    rw [getTp_eq ht', TypeNode.ty]
  | .array len elm p, t, h => by
    unfold TypeNode.calc at h
    obtain ⟨t', ht', h⟩ := bind_ok h
    rw [TypeNode.ty, ← elm.calc_eq ht']
    split at h
    · next hlen =>
      cases h
      rw [if_pos hlen]
    · next hlen =>
      rw [if_neg hlen]
      split at h
      · cases h
        rfl
      · cases h
  | .func args none p, t, h => by
    unfold TypeNode.calc at h
    obtain ⟨ts, hts, h⟩ := bind_ok h
    cases h
    rw [TypeNode.ty, calcArgs_eq args hts]
  | .func args (some ret) p, t, h => by
    unfold TypeNode.calc at h
    obtain ⟨t', ht', h⟩ := bind_ok h
    obtain ⟨ts, hts, h⟩ := bind_ok h
    cases h
    rw [TypeNode.ty, calcArgs_eq args hts, ret.calc_eq ht']
  | .struct fields p, t, h => by
    unfold TypeNode.calc at h
    obtain ⟨ts, hts, h⟩ := bind_ok h
    cases h
    rw [TypeNode.ty, calcFields_eq fields hts]
  | .interface _ _, t, h => by
    unfold TypeNode.calc at h
    cases h
    rfl

theorem calcArgs_eq : ∀ (ns : List TypeNode) {ts : List Ty},
    calcArgs env types ns = .ok ts → ts = tyArgs ns
  | [], ts, h => by
    unfold calcArgs at h
    cases h
    rfl
  | n :: ns, ts, h => by
    unfold calcArgs at h
    obtain ⟨t, ht, h⟩ := bind_ok h
    obtain ⟨ts', hts', h⟩ := bind_ok h
    cases h
    rw [tyArgs, n.calc_eq ht, calcArgs_eq ns hts']

theorem calcFields_eq : ∀ (ns : List (String × TypeNode)) {ts : List Ty},
    calcFields env types ns = .ok ts → ts = tyFields ns
  | [], ts, h => by
    unfold calcFields at h
    cases h
    rfl
  | (_, n) :: ns, ts, h => by
    unfold calcFields at h
    obtain ⟨t, ht, h⟩ := bind_ok h
    obtain ⟨ts', hts', h⟩ := bind_ok h
    cases h
    rw [tyFields, n.calc_eq ht, calcFields_eq ns hts']

end

/-! ## Which table the rounds come to -/

/-- Each name in the table is that of a declaration, whose type it has and whose references
are found. -/
structure Fits (env : Env) (D : Declarations) (types : Table) : Prop where
  names : ∀ a, types a ≠ none → a ∈ D.defFuncs.map TypeDef.id
  value : ∀ d ∈ D.defFuncs, types d.id ≠ none → types d.id = some (some d.tp.ty)
  ready : ∀ d ∈ D.defFuncs, types d.id ≠ none → d.Ready env types

theorem Fits.define {d : TypeDef} (h : Fits env D types) (hd : d ∈ D.defFuncs)
    (hnew : types d.id = none) (hready : d.Ready env types) :
    Fits env D (Function.update types d.id (some (some d.tp.ty))) := by
  have hle : ∀ a, types a ≠ none → Function.update types d.id (some (some d.tp.ty)) a ≠ none := by
    intro a ha
    rw [Function.update_of_ne (by rintro rfl; exact ha hnew)]
    exact ha
  refine ⟨fun a ha => ?_, fun d' hd' ha => ?_, fun d' hd' ha => ?_⟩
  · by_cases heq : a = d.id
    · exact heq ▸ List.mem_map.mpr ⟨d, hd, rfl⟩
    · rw [Function.update_of_ne heq] at ha
      exact h.names a ha
  · by_cases heq : d'.id = d.id
    · rw [List.inj_on_of_nodup_map D.distinct hd' hd heq, Function.update_self]
    · rw [Function.update_of_ne heq] at ha ⊢
      exact h.value d' hd' ha
  · by_cases heq : d'.id = d.id
    · rw [List.inj_on_of_nodup_map D.distinct hd' hd heq]
      exact hready.mono hle
    · rw [Function.update_of_ne heq] at ha
      exact (h.ready d' hd' ha).mono hle

/-- A round keeps that. -/
theorem Fits.pass {left : List TypeDef} (h : Fits env D types) (hsub : left ⊆ D.defFuncs)
    (hids : (left.map TypeDef.id).Nodup) (hnew : ∀ d ∈ left, types d.id = none) :
    Fits env D (pass env left types).2 := by
  induction left generalizing types with
  | nil => exact h
  | cons d ds ih =>
    obtain ⟨hd, hds⟩ := List.nodup_cons.mp hids
    have hdall := hsub List.mem_cons_self
    have hsub' : ds ⊆ D.defFuncs := fun x hx => hsub (List.mem_cons_of_mem _ hx)
    have hdnew := hnew d List.mem_cons_self
    unfold Types.pass
    rcases defFunc_cases env hdnew with ⟨hready, t, heq⟩ | ⟨-, err, heq⟩
    · have ht : t = d.tp.ty := by
        unfold TypeDef.defFunc at heq
        split at heq
        · cases heq
        · next t' ht' =>
          rw [hdnew] at heq
          simp only [Prod.mk.injEq, true_and] at heq
          have := congrFun heq d.id
          rw [Function.update_self, Function.update_self] at this
          cases this
          exact d.tp.calc_eq ht'
      rw [heq, ht]
      refine ih (h.define hdall hdnew hready) hsub' hds fun d' hd' => ?_
      rw [Function.update_of_ne fun hid => hd (List.mem_map.mpr ⟨d', hd', hid⟩)]
      exact hnew d' (List.mem_cons_of_mem _ hd')
    · rw [heq]
      exact ih h hsub' hds fun d' hd' => hnew d' (List.mem_cons_of_mem _ hd')

theorem Fits.defineTypes {n : ℕ} {left : List TypeDef} (h : Fits env D types)
    (hu : Underway env D left types)
    (hout : defineTypes env n left types = some (.defined types')) : Fits env D types' := by
  induction n generalizing left types with
  | zero => cases hout
  | succ n ih =>
    have hp := hu.pass
    have hf := h.pass hu.sublist.subset (D.distinct.sublist (hu.sublist.map _)) hu.absent
    unfold Types.defineTypes at hout
    split at hout
    next types₁ heq =>
      rw [heq] at hf
      cases hout
      exact hf
    next failed types₁ _ heq =>
      rw [heq] at hp hf
      exact ih hf hp hout

/-- The table that gives each declaration's name its type. -/
def tableOf (ds : List TypeDef) : Table := fun a =>
  (first TypeDef.id ds a).map fun d => some d.tp.ty

theorem tableOf_perm {ds ds' : List TypeDef} (hp : ds.Perm ds') (h : (ds.map TypeDef.id).Nodup) :
    tableOf ds = tableOf ds' := by
  funext a
  rw [tableOf, tableOf, first_perm hp h]

/-- If the rounds come to an end, it is with this table, everything is found and no two
declarations wait for each other. -/
theorem CalcGlobals_table {rounds : ℕ} {out : Outcome}
    (h : CalcGlobals env D.defFuncs rounds = some out) :
    out = .defined (tableOf D.defFuncs) ∧ AllFound env D ∧ Acyclic (Waits env D.defFuncs) := by
  obtain ⟨types', rfl, hdef, hac⟩ := (Underway.start env D).defineTypes h
  have hstart : Fits env D fun _ => none :=
    ⟨fun _ h => absurd rfl h, fun _ _ h => absurd rfl h, fun _ _ h => absurd rfl h⟩
  have hfits := hstart.defineTypes (Underway.start env D) h
  have hthere : ∀ d ∈ D.defFuncs, types' d.id ≠ none := by
    intro d hd
    obtain ⟨t, ht⟩ := hdef d hd
    rw [ht]
    simp
  refine ⟨congrArg _ ?_, fun d hd r hr => ?_, hac⟩
  · funext a
    by_cases ha : a ∈ D.defFuncs.map TypeDef.id
    · obtain ⟨d, hd, rfl⟩ := List.mem_map.mp ha
      rw [hfits.value d hd (hthere d hd), tableOf, (first_eq_some_iff D.distinct).mpr ⟨hd, rfl⟩]
      rfl
    · have hnone : types' a = none := by
        by_contra hne
        exact ha (hfits.names a hne)
      rw [hnone, tableOf, first_eq_none ha]
      rfl
  · have hres := hfits.ready d hd (hthere d hd) r hr
    cases r with
    | slice => exact hres
    | type pkg name =>
      simp only [Resolved, Found] at hres ⊢
      split at hres
      next hp =>
        rw [if_pos hp]
        refine hres.imp_left fun hn => ?_
        by_cases heq : name = d.id
        · exact heq ▸ List.mem_map.mpr ⟨d, hd, rfl⟩
        · rw [Function.update_of_ne heq] at hn
          exact hfits.names name hn
      next hp =>
        rw [if_neg hp]
        exact hres

/-- The rounds come to an end exactly if everything is found and no two declarations wait for
each other. -/
theorem CalcGlobals_iff {out : Outcome} :
    (∃ rounds, CalcGlobals env D.defFuncs rounds = some out) ↔
      AllFound env D ∧ Acyclic (Waits env D.defFuncs) ∧ out = .defined (tableOf D.defFuncs) := by
  constructor
  · intro h
    obtain ⟨rounds, h⟩ := h
    obtain ⟨hout, hfound, hac⟩ := CalcGlobals_table h
    exact ⟨hfound, hac, hout⟩
  · intro h
    obtain ⟨hfound, hac, rfl⟩ := h
    obtain ⟨out, hout⟩ := (Underway.start env D).ends hfound hac (Nat.lt_succ_self _)
    obtain ⟨rfl, -, -⟩ := CalcGlobals_table hout
    exact ⟨_, hout⟩

/-! ## Another order -/

theorem AllFound.perm (hp : D.defFuncs.Perm D'.defFuncs) (h : AllFound env D) :
    AllFound env D' := by
  intro d hd r hr
  have hf := h d (hp.mem_iff.mpr hd) r hr
  cases r with
  | slice => exact hf
  | type pkg name =>
    simp only [Found, (hp.map TypeDef.id).mem_iff] at hf ⊢
    exact hf

theorem acyclic_perm (hp : D.defFuncs.Perm D'.defFuncs) (h : Acyclic (Waits env D.defFuncs)) :
    Acyclic (Waits env D'.defFuncs) := by
  refine h.mono fun a b hw => ?_
  obtain ⟨d, hd, hw⟩ := hw
  exact ⟨d, hp.mem_iff.mpr hd, hw⟩

/-- **The order of the type declarations does not matter.** -/
theorem CalcGlobals_perm (hp : D.defFuncs.Perm D'.defFuncs) {out : Outcome} :
    (∃ rounds, CalcGlobals env D.defFuncs rounds = some out) ↔
      ∃ rounds, CalcGlobals env D'.defFuncs rounds = some out := by
  rw [CalcGlobals_iff, CalcGlobals_iff, tableOf_perm hp D.distinct]
  constructor
  · intro h
    exact ⟨h.1.perm hp, acyclic_perm hp h.2.1, h.2.2⟩
  · intro h
    exact ⟨h.1.perm hp.symm, acyclic_perm hp.symm h.2.1, h.2.2⟩

end CalcLang.Types
