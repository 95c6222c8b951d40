import Mathlib.Tactic.Basic
import CalcLang.Lib.Waiting
import CalcLang.Types.TypeDef

/-!
# When the types of a module get defined

A `defFunc` succeeds exactly if all that `calc` looks up is there, its own name counting as
there (`defFunc_cases`). So a round defines the declarations whose names have been defined
before, in this round or an earlier one, and nothing is ever taken back.

Declarations that need each other, also through pointers, wait for each other for ever:
the placeholder that makes a type refer to itself is taken away before the other is tried.
And an unknown name fails in every round; nobody reports it. So the loop does what it is
for exactly if every name is declared and no two declarations need each other
(`settles_iff`).
-/

namespace CalcLang.Types

open CalcLang.Lib Relation

variable {env : Env} {types : Table}

/-- What a type expression refers to. -/
inductive Ref
  | type (pkg name : String)
  | slice
  deriving DecidableEq

mutual

/-- The references of a type expression, those of methods too if they are asked for. -/
def TypeNode.refs (methods : Bool) : TypeNode → List Ref
  | .basic _ _ => []
  | .custom pkg name _ => [.type pkg name]
  | .array len elm _ => elm.refs methods ++ if len > 0 then [] else [.slice]
  | .func args none _ => refsArgs methods args
  | .func args (some ret) _ => ret.refs methods ++ refsArgs methods args
  | .struct fields _ => refsFields methods fields
  | .interface funcs _ => if methods then refsFields methods funcs else []

def refsArgs (methods : Bool) : List TypeNode → List Ref
  | [] => []
  | n :: ns => n.refs methods ++ refsArgs methods ns

def refsFields (methods : Bool) : List (String × TypeNode) → List Ref
  | [] => []
  | (_, n) :: ns => n.refs methods ++ refsFields methods ns

end

private theorem append_mono {as as' bs bs' : List Ref} (ha : as ⊆ as') (hb : bs ⊆ bs') :
    as ++ bs ⊆ as' ++ bs' :=
  List.append_subset.mpr ⟨List.subset_append_of_subset_left _ ha,
    List.subset_append_of_subset_right _ hb⟩

mutual

theorem TypeNode.refs_mono : ∀ n : TypeNode, n.refs false ⊆ n.refs true
  | .basic _ _ | .custom _ _ _ => fun _ h => h
  | .array _ elm _ => append_mono elm.refs_mono (List.Subset.refl _)
  | .func args none _ => refsArgs_mono args
  | .func args (some ret) _ => append_mono ret.refs_mono (refsArgs_mono args)
  | .struct fields _ => refsFields_mono fields
  | .interface _ _ => List.nil_subset _

theorem refsArgs_mono : ∀ ns : List TypeNode, refsArgs false ns ⊆ refsArgs true ns
  | [] => fun _ h => h
  | n :: ns => append_mono n.refs_mono (refsArgs_mono ns)

theorem refsFields_mono :
    ∀ ns : List (String × TypeNode), refsFields false ns ⊆ refsFields true ns
  | [] => fun _ h => h
  | (_, n) :: ns => append_mono n.refs_mono (refsFields_mono ns)

end

/-- A name of the module that `getTp` finds without the table. -/
def Env.builtin (env : Env) (name : String) : Prop := env.pkgname ++ "." ++ name = strName

/-- `calc` finds what it looks up. -/
def Resolved (env : Env) (types : Table) : Ref → Prop
  | .type pkg name =>
    if pkg = env.pkgname then types name ≠ none ∨ env.builtin name
    else env.scopeMap pkg ≠ none
  | .slice => env.slice

theorem getTp_ok_iff {pkg name : String} :
    (∃ t, getTp env types pkg name = .ok t) ↔ Resolved env types (.type pkg name) := by
  unfold getTp
  by_cases hp : pkg = env.pkgname
  · subst hp
    simp only [Resolved, Env.builtin, if_true]
    cases types name with
    | some td => simp
    | none => by_cases hb : env.pkgname ++ "." ++ name = strName <;> simp [hb]
  · simp only [Resolved, if_neg hp]
    cases env.scopeMap pkg <;> simp

private theorem bind_ok_iff {α β : Type} {x : Except String α} {f : α → Except String β} :
    (∃ b, (x >>= f) = .ok b) ↔ ∃ a, x = .ok a ∧ ∃ b, f a = .ok b := by
  cases x with
  | error e => exact iff_of_false (fun ⟨_, h⟩ => nomatch h) fun ⟨_, h, _⟩ => nomatch h
  | ok a => exact ⟨fun h => ⟨a, rfl, h⟩, fun ⟨_, h, hb⟩ => Except.ok.inj h ▸ hb⟩

private theorem map_ok_iff {α β : Type} {x : Except String α} {f : α → β} :
    (∃ b, (x >>= fun a => pure (f a)) = .ok b) ↔ ∃ a, x = .ok a := by
  rw [bind_ok_iff]
  exact exists_congr fun a => and_iff_left ⟨f a, rfl⟩

mutual

/-- A type is computed exactly if all its references are found. -/
theorem TypeNode.calc_ok_iff : ∀ n : TypeNode,
    (∃ t, n.calc env types = .ok t) ↔ ∀ r ∈ n.refs false, Resolved env types r
  | .basic _ _ => by simp [TypeNode.calc, TypeNode.refs]
  | .custom pkg name p => by
    unfold TypeNode.calc
    rw [map_ok_iff, getTp_ok_iff]
    simp [TypeNode.refs]
  | .array len elm p => by
    unfold TypeNode.calc
    rw [bind_ok_iff, TypeNode.refs, List.forall_mem_append, ← elm.calc_ok_iff]
    by_cases hlen : len > 0
    · simp [hlen, pure, Except.pure]
    · cases hs : env.slice <;> simp [hlen, hs, Resolved, pure, Except.pure]
  | .func args none p => by
    unfold TypeNode.calc
    rw [map_ok_iff, calcArgs_ok_iff args]
    rfl
  | .func args (some ret) p => by
    unfold TypeNode.calc
    rw [bind_ok_iff, TypeNode.refs, List.forall_mem_append, ← ret.calc_ok_iff, ← calcArgs_ok_iff args]
    simp only [map_ok_iff]
    exact exists_and_right
  | .struct fields p => by
    unfold TypeNode.calc
    rw [map_ok_iff, calcFields_ok_iff fields]
    rfl
  | .interface _ _ => by simp [TypeNode.calc, TypeNode.refs]

theorem calcArgs_ok_iff : ∀ ns : List TypeNode,
    (∃ ts, calcArgs env types ns = .ok ts) ↔ ∀ r ∈ refsArgs false ns, Resolved env types r
  | [] => by simp [calcArgs, refsArgs]
  | n :: ns => by
    unfold calcArgs
    rw [bind_ok_iff, refsArgs, List.forall_mem_append, ← n.calc_ok_iff, ← calcArgs_ok_iff ns]
    simp only [map_ok_iff]
    exact exists_and_right

theorem calcFields_ok_iff : ∀ ns : List (String × TypeNode),
    (∃ ts, calcFields env types ns = .ok ts) ↔ ∀ r ∈ refsFields false ns, Resolved env types r
  | [] => by simp [calcFields, refsFields]
  | (_, n) :: ns => by
    unfold calcFields
    rw [bind_ok_iff, refsFields, List.forall_mem_append, ← n.calc_ok_iff, ← calcFields_ok_iff ns]
    simp only [map_ok_iff]
    exact exists_and_right

end

/-! ## One definition -/

/-- The references a declaration looks up are found, with its own name in the table. -/
def TypeDef.Ready (env : Env) (types : Table) (d : TypeDef) : Prop :=
  ∀ r ∈ d.tp.refs false, Resolved env (Function.update types d.id (some none)) r

/-- What a `defFunc` does whose name is not in the table. -/
theorem defFunc_cases (env : Env) {d : TypeDef} (hd : types d.id = none) :
    (d.Ready env types ∧ ∃ t, d.defFunc env types =
      (none, Function.update types d.id (some (some t)))) ∨
    (¬ d.Ready env types ∧ ∃ err, d.defFunc env types = (some err, types)) := by
  have hadd : addStruct types d.id none = Function.update types d.id (some none) := by
    simp [addStruct, hd]
  have hok := @TypeNode.calc_ok_iff env (Function.update types d.id (some none)) d.tp
  unfold TypeDef.defFunc
  rw [hadd]
  cases hc : d.tp.calc env (Function.update types d.id (some none)) with
  | ok t => exact .inl ⟨hok.mp ⟨t, hc⟩, t, by simp only [hd]⟩
  | error err =>
    refine .inr ⟨fun hr => ?_, err, ?_⟩
    · obtain ⟨t, ht⟩ := hok.mpr hr
      rw [hc] at ht
      nomatch ht
    · rw [Function.update_idem, ← hd, Function.update_eq_self]

/-- A larger table leaves a declaration ready. -/
theorem TypeDef.Ready.mono {d : TypeDef} {types' : Table} (h : d.Ready env types)
    (hle : ∀ a, types a ≠ none → types' a ≠ none) : d.Ready env types' := by
  intro r hr
  have hres := h r hr
  cases r with
  | slice => exact hres
  | type pkg name =>
    simp only [Resolved] at hres ⊢
    split at hres
    next hp =>
      rw [if_pos hp]
      refine hres.imp_left fun hn => ?_
      by_cases heq : name = d.id
      · rw [heq, Function.update_self]
        nofun
      · rw [Function.update_of_ne heq] at hn ⊢
        exact hle name hn
    next hp =>
      rw [if_neg hp]
      exact hres

/-! ## A round -/

/-- `a` cannot be defined before `b`. -/
def Waits (env : Env) (ds : List TypeDef) (a b : String) : Prop :=
  ∃ d ∈ ds, d.id = a ∧ b ≠ a ∧ .type env.pkgname b ∈ d.tp.refs false ∧ ¬ env.builtin b

/-- The names in the table wait for names in the table only, and not in a circle. -/
structure Sound (env : Env) (ds : List TypeDef) (types : Table) : Prop where
  closed : ∀ a b, types a ≠ none → Waits env ds a b → types b ≠ none
  acyclic : Acyclic fun a b => types a ≠ none ∧ Waits env ds a b

/-- A definition that is ready keeps that. -/
theorem Sound.define {all : List TypeDef} (h : Sound env all types)
    (hids : (all.map TypeDef.id).Nodup) {d : TypeDef} (hd : d ∈ all) (hnew : types d.id = none)
    (hready : d.Ready env types) {td : Option Ty} :
    Sound env all (Function.update types d.id (some td)) := by
  have hneeds : ∀ b, Waits env all d.id b → types b ≠ none := by
    rintro b ⟨d', hd', hid, hne, hr, hb⟩
    obtain rfl := List.inj_on_of_nodup_map hids hd' hd hid
    have hres := hready _ hr
    simp only [Resolved, if_true, Function.update_of_ne hne] at hres
    exact hres.resolve_right hb
  refine ⟨fun a b ha hw => ?_, ?_⟩
  · have hb : types b ≠ none := by
      by_cases heq : a = d.id
      · exact hneeds b (heq ▸ hw)
      · rw [Function.update_of_ne heq] at ha
        exact h.closed a b ha hw
    rwa [Function.update_of_ne (by rintro rfl; exact hb hnew)]
  · refine h.acyclic.insert (u := d.id) fun x y ⟨hx, hw⟩ => ?_
    by_cases heq : x = d.id
    · refine .inr ⟨heq, fun hpath => ?_⟩
      -- what a name in the table waits for is in the table, and `d` is not
      have hin : ∀ z, ReflTransGen (fun a b => types a ≠ none ∧ Waits env all a b) y z →
          types z ≠ none := by
        intro z hz
        induction hz with
        | refl => exact hneeds y (heq ▸ hw)
        | tail _ hab ih => exact h.closed _ _ ih hab.2
      exact hin _ hpath hnew
    · rw [Function.update_of_ne heq] at hx
      exact .inl ⟨hx, hw⟩

/-- What a round does. -/
structure Round (env : Env) (ds : List TypeDef) (types : Table) (failed : List TypeDef)
    (types' : Table) : Prop where
  sublist : failed.Sublist ds
  kept : ∀ a, types a ≠ none → types' a = types a
  added : ∀ a, types' a ≠ none → types a ≠ none ∨ a ∈ ds.map TypeDef.id
  absent : ∀ d ∈ failed, types' d.id = none
  defined : ∀ d ∈ ds, d ∈ failed ∨ ∃ t, types' d.id = some (some t)
  ready : ∀ d ∈ ds, d.Ready env types → d ∉ failed
  sound : ∀ all, ds ⊆ all → (all.map TypeDef.id).Nodup → Sound env all types →
    Sound env all types'

theorem pass_round (env : Env) : ∀ {ds : List TypeDef} {types : Table},
    (ds.map TypeDef.id).Nodup → (∀ d ∈ ds, types d.id = none) →
    Round env ds types (pass env ds types).1 (pass env ds types).2 := by
  intro ds
  induction ds with
  | nil =>
    intro types _ _
    exact ⟨List.Sublist.refl _, fun _ _ => rfl, fun _ h => .inl h, nofun, nofun, nofun,
      fun _ _ _ h => h⟩
  | cons d ds ih =>
    intro types hids hnew
    obtain ⟨hd, hds⟩ := List.nodup_cons.mp hids
    have hdnew := hnew d List.mem_cons_self
    have hother : ∀ d' ∈ ds, d'.id ≠ d.id := fun d' hd' heq =>
      hd (List.mem_map.mpr ⟨d', hd', heq⟩)
    unfold pass
    rcases defFunc_cases env hdnew with ⟨hready, t, heq⟩ | ⟨hready, err, heq⟩
    · rw [heq]
      -- it is defined now, and nothing else that is in the table changes
      have hup : ∀ a, types a ≠ none → Function.update types d.id (some (some t)) a = types a :=
        fun a ha => Function.update_of_ne (by rintro rfl; exact ha hdnew) ..
      have hnew' : ∀ d' ∈ ds, Function.update types d.id (some (some t)) d'.id = none := by
        intro d' hd'
        rw [Function.update_of_ne (hother d' hd')]
        exact hnew d' (List.mem_cons_of_mem _ hd')
      have hr := ih hds hnew'
      have hdin : (pass env ds (Function.update types d.id (some (some t)))).2 d.id =
          some (some t) := by
        rw [hr.kept d.id (by rw [Function.update_self]; nofun), Function.update_self]
      refine ⟨hr.sublist.cons d, fun a ha => ?_, fun a ha => ?_, hr.absent, fun d' hd' => ?_,
        fun d' hd' hrd => ?_, fun all hall hn hs => ?_⟩
      · rw [hr.kept a (by rw [hup a ha]; exact ha), hup a ha]
      · by_cases hda : a = d.id
        · exact .inr (hda ▸ List.mem_cons_self)
        · have := hr.added a ha
          rw [Function.update_of_ne hda] at this
          exact this.imp_right (List.mem_cons_of_mem _)
      · rcases List.mem_cons.mp hd' with rfl | hd'
        · exact .inr ⟨t, hdin⟩
        · exact hr.defined d' hd'
      · rcases List.mem_cons.mp hd' with rfl | hd'
        · intro hf
          rw [hr.absent d' hf] at hdin
          nomatch hdin
        · exact hr.ready d' hd' (hrd.mono fun a ha => by rw [hup a ha]; exact ha)
      · exact hr.sound all (fun _ h => hall (List.mem_cons_of_mem _ h)) hn
          (hs.define hn (hall List.mem_cons_self) hdnew hready)
    · rw [heq]
      -- it has failed, and stays for the next round
      have hr := ih hds fun d' hd' => hnew d' (List.mem_cons_of_mem _ hd')
      refine ⟨hr.sublist.cons_cons d, hr.kept, fun a ha => ?_, fun d' hd' => ?_, fun d' hd' => ?_,
        fun d' hd' hrd => ?_, fun all hall => ?_⟩
      · exact (hr.added a ha).imp_right (List.mem_cons_of_mem _)
      · rcases List.mem_cons.mp hd' with rfl | hd'
        · by_contra hne
          exact (hr.added _ hne).elim (· hdnew) hd
        · exact hr.absent d' hd'
      · rcases List.mem_cons.mp hd' with rfl | hd'
        · exact .inl List.mem_cons_self
        · exact (hr.defined d' hd').imp_left (List.mem_cons_of_mem _)
      · rcases List.mem_cons.mp hd' with rfl | hd'
        · exact absurd hrd hready
        · rintro (_ | ⟨_, hf⟩)
          · exact hready hrd
          · exact hr.ready d' hd' hrd hf
      · exact hr.sound all (fun _ h => hall (List.mem_cons_of_mem _ h))

/-! ## The loop -/

/-- The type declarations of a module. -/
structure Declarations where
  defFuncs : List TypeDef
  distinct : (defFuncs.map TypeDef.id).Nodup

/-- A reference has a declaration. -/
def Declared (env : Env) (D : Declarations) : Ref → Prop
  | .type pkg name =>
    if pkg = env.pkgname then name ∈ D.defFuncs.map TypeDef.id ∨ env.builtin name
    else ∃ scope, env.scopeMap pkg = some scope ∧ scope name
  | .slice => env.slice

/-- Every reference of every declaration has a declaration. -/
def AllDeclared (env : Env) (D : Declarations) : Prop :=
  ∀ d ∈ D.defFuncs, ∀ r ∈ d.tp.refs true, Declared env D r

/-- What the loop is meant to do: end, with all types defined if every name they refer to is declared,
and with an error if one is not. -/
def Settles (env : Env) (D : Declarations) : Prop :=
  ∃ rounds out, CalcGlobals env D.defFuncs rounds = some out ∧
    (AllDeclared env D → ∃ types, out = .defined types ∧
      ∀ d ∈ D.defFuncs, ∃ t, types d.id = some (some t)) ∧
    (¬ AllDeclared env D → ∃ err, out = .reported err)

variable {D : Declarations}

/-- Where the loop stands: what is left has no entry, what is not left is defined. -/
structure Underway (env : Env) (D : Declarations) (left : List TypeDef) (types : Table) : Prop where
  sublist : left.Sublist D.defFuncs
  absent : ∀ d ∈ left, types d.id = none
  defined : ∀ d ∈ D.defFuncs, d ∈ left ∨ ∃ t, types d.id = some (some t)
  sound : Sound env D.defFuncs types

theorem Underway.start (env : Env) (D : Declarations) : Underway env D D.defFuncs fun _ => none where
  sublist := List.Sublist.refl _
  absent _ _ := rfl
  defined _ hd := .inl hd
  sound := ⟨fun _ _ h => absurd rfl h, fun _ hx => by
    obtain ⟨_, ⟨h, _⟩, _⟩ := TransGen.head'_iff.mp hx
    exact h rfl⟩

theorem Underway.round {left : List TypeDef} (h : Underway env D left types) :
    Round env left types (pass env left types).1 (pass env left types).2 :=
  pass_round env (D.distinct.sublist (h.sublist.map _)) h.absent

theorem Underway.pass {left : List TypeDef} (h : Underway env D left types) :
    Underway env D (pass env left types).1 (pass env left types).2 := by
  have hr := h.round
  refine ⟨hr.sublist.trans h.sublist, hr.absent, fun d hd => ?_,
    hr.sound _ h.sublist.subset D.distinct h.sound⟩
  rcases h.defined d hd with hl | ⟨t, ht⟩
  · exact hr.defined d hl
  · exact .inr ⟨t, by rw [hr.kept d.id (by rw [ht]; nofun), ht]⟩

/-- When the loop ends, all types are defined, and no two of them wait for each other. -/
theorem Underway.defineTypes {n : ℕ} {left : List TypeDef} {out : Outcome}
    (h : Underway env D left types) (hout : defineTypes env n left types = some out) :
    ∃ types', out = .defined types' ∧ (∀ d ∈ D.defFuncs, ∃ t, types' d.id = some (some t)) ∧
      Acyclic (Waits env D.defFuncs) := by
  induction n generalizing left types with
  | zero => nomatch hout
  | succ n ih =>
    have hp := h.pass
    unfold Types.defineTypes at hout
    split at hout
    next types' heq =>
      rw [heq] at hp
      have hdef : ∀ d ∈ D.defFuncs, ∃ t, types' d.id = some (some t) :=
        fun d hd => (hp.defined d hd).resolve_left nofun
      refine ⟨types', (Option.some.inj hout).symm, hdef, hp.sound.acyclic.mono fun a b hw => ⟨?_, hw⟩⟩
      obtain ⟨d, hd, rfl, -⟩ := hw
      obtain ⟨t, ht⟩ := hdef d hd
      show types' d.id ≠ none
      rw [ht]
      nofun
    next failed types' _ heq =>
      rw [heq] at hp
      exact ih hp hout

/-- What a declaration looks up is declared in the module, or can be found without that. -/
def Found (env : Env) (D : Declarations) : Ref → Prop
  | .type pkg name =>
    if pkg = env.pkgname then name ∈ D.defFuncs.map TypeDef.id ∨ env.builtin name
    else env.scopeMap pkg ≠ none
  | .slice => env.slice

/-- All that the declarations look up is found. -/
def AllFound (env : Env) (D : Declarations) : Prop :=
  ∀ d ∈ D.defFuncs, ∀ r ∈ d.tp.refs false, Found env D r

theorem AllDeclared.found (h : AllDeclared env D) : AllFound env D := by
  intro d hd r hr
  have hdec := h d hd r (d.tp.refs_mono hr)
  cases r with
  | slice => exact hdec
  | type pkg name =>
    simp only [Declared, Found] at hdec ⊢
    split at hdec
    next hp =>
      rw [if_pos hp]
      exact hdec
    next hp =>
      rw [if_neg hp]
      obtain ⟨scope, hs, -⟩ := hdec
      rw [hs]
      nofun

/-- If everything is found and no declarations wait for each other, something is ready. -/
theorem Underway.exists_ready {left : List TypeDef} (h : Underway env D left types)
    (hfound : AllFound env D) (hac : Acyclic (Waits env D.defFuncs)) (hne : left ≠ []) :
    ∃ d ∈ left, d.Ready env types := by
  obtain ⟨d₀, hd₀⟩ := List.exists_mem_of_ne_nil left hne
  have hac' : Acyclic fun a b => Waits env D.defFuncs a b ∧ b ∈ left.map TypeDef.id :=
    hac.mono fun _ _ hw => hw.1
  obtain ⟨a, ha, hlast⟩ := hac'.exists_last (S := (left.map TypeDef.id).toFinset)
    (fun _ _ _ hw => List.mem_toFinset.mpr hw.2)
    (List.mem_toFinset.mpr (List.mem_map.mpr ⟨d₀, hd₀, rfl⟩))
  obtain ⟨d, hd, rfl⟩ := List.mem_map.mp (List.mem_toFinset.mp ha)
  have hdall := h.sublist.subset hd
  refine ⟨d, hd, fun r hr => ?_⟩
  have hdec := hfound d hdall r hr
  cases r with
  | slice => exact hdec
  | type pkg name =>
    simp only [Resolved, Found] at hdec ⊢
    split at hdec
    next hp =>
      rw [if_pos hp]
      by_cases hid : name = d.id
      · rw [hid, Function.update_self]
        exact .inl nofun
      by_cases hb : env.builtin name
      · exact .inr hb
      left
      rw [Function.update_of_ne hid]
      obtain ⟨d', hd', rfl⟩ := List.mem_map.mp (hdec.resolve_right hb)
      rcases h.defined d' hd' with hl | ⟨t, ht⟩
      · refine absurd ⟨⟨d, hdall, rfl, hid, ?_, hb⟩, List.mem_map.mpr ⟨d', hl, rfl⟩⟩ (hlast d'.id)
        exact hp ▸ hr
      · rw [ht]
        nofun
    next hp =>
      rw [if_neg hp]
      exact hdec

theorem Underway.ends {n : ℕ} {left : List TypeDef} (h : Underway env D left types)
    (hfound : AllFound env D) (hac : Acyclic (Waits env D.defFuncs)) (hn : left.length < n) :
    ∃ out, Types.defineTypes env n left types = some out := by
  induction n generalizing left types with
  | zero => exact absurd hn (Nat.not_lt_zero _)
  | succ n ih =>
    have hp := h.pass
    unfold Types.defineTypes
    split
    · exact ⟨_, rfl⟩
    next failed types' hne heq =>
      rw [heq] at hp
      refine ih hp ?_
      have hr := h.round
      rw [heq] at hr
      -- a round shortens the list
      have hlen : failed.length ≠ left.length := by
        intro hlen
        obtain rfl := hr.sublist.eq_of_length hlen
        obtain ⟨d, hd, hready⟩ := h.exists_ready hfound hac (fun hnil => hne hnil)
        exact hr.ready d hd hready hd
      have hle : failed.length ≤ left.length := hr.sublist.length_le
      omega

/-- The loop does what it is meant to exactly if every name that a declaration refers to is
declared and there are no declarations that need each other, directly or through others. -/
theorem settles_iff (env : Env) (D : Declarations) :
    Settles env D ↔ AllDeclared env D ∧ Acyclic (Waits env D.defFuncs) := by
  constructor
  · rintro ⟨rounds, out, hout, -, hrep⟩
    obtain ⟨types, rfl, -, hac⟩ := (Underway.start env D).defineTypes hout
    refine ⟨?_, hac⟩
    by_contra hdecl
    obtain ⟨err, herr⟩ := hrep hdecl
    nomatch herr
  · rintro ⟨hdecl, hac⟩
    obtain ⟨out, hout⟩ := (Underway.start env D).ends hdecl.found hac (Nat.lt_succ_self _)
    obtain ⟨types, rfl, hdef, -⟩ := (Underway.start env D).defineTypes hout
    exact ⟨_, _, hout, fun _ => ⟨types, rfl, hdef⟩, fun hne => absurd hdecl hne⟩

/-- `type A struct { b *B }` and `type B struct { a *A }`. -/
def eachOther : Declarations where
  defFuncs := [⟨"A", .struct [("b", .custom "main" "B" 1)] 0⟩,
    ⟨"B", .struct [("a", .custom "main" "A" 1)] 0⟩]
  distinct := by decide

/-- `type A struct { b *B }` alone. -/
def dangling : Declarations where
  defFuncs := [⟨"A", .struct [("b", .custom "main" "B" 1)] 0⟩]
  distinct := by decide

/-- For neither the loop ends: not where all is declared, and not where it ought to report `B`. -/
theorem defines_for_ever :
    (AllDeclared ⟨"main", fun _ => none, true⟩ eachOther ∧
      ∀ rounds, CalcGlobals ⟨"main", fun _ => none, true⟩ eachOther.defFuncs rounds = none) ∧
    (¬ AllDeclared ⟨"main", fun _ => none, true⟩ dangling ∧
      ∀ rounds, CalcGlobals ⟨"main", fun _ => none, true⟩ dangling.defFuncs rounds = none) := by
  refine ⟨⟨?_, fun rounds => ?_⟩, ?_, fun rounds => ?_⟩
  · simp [AllDeclared, eachOther, TypeNode.refs, refsFields, Declared]
  · cases hc : CalcGlobals ⟨"main", fun _ => none, true⟩ eachOther.defFuncs rounds with
    | none => rfl
    | some out =>
      obtain ⟨-, -, -, hac⟩ := (Underway.start ⟨"main", fun _ => none, true⟩ eachOther).defineTypes hc
      have hab : Waits ⟨"main", fun _ => none, true⟩ eachOther.defFuncs "A" "B" :=
        ⟨_, List.mem_cons_self, rfl, by decide, List.mem_cons_self, by unfold Env.builtin; decide⟩
      have hba : Waits ⟨"main", fun _ => none, true⟩ eachOther.defFuncs "B" "A" :=
        ⟨_, List.mem_cons_of_mem _ List.mem_cons_self, rfl, by decide, List.mem_cons_self,
          by unfold Env.builtin; decide⟩
      exact absurd (.tail (.single hab) hba) (hac "A")
  · simp [AllDeclared, dangling, TypeNode.refs, refsFields, Declared, Env.builtin, strName]
  · induction rounds with
    | zero => rfl
    | succ n ih =>
      have hround : pass ⟨"main", fun _ => none, true⟩ dangling.defFuncs (fun _ => none) =
          (dangling.defFuncs, fun _ => none) := by
        rcases @defFunc_cases (fun _ => none) ⟨"main", fun _ => none, true⟩
            ⟨"A", .struct [("b", .custom "main" "B" 1)] 0⟩ rfl with ⟨hr, -⟩ | ⟨-, err, heq⟩
        · have hb := hr _ List.mem_cons_self
          simp [Resolved, Env.builtin, strName] at hb
        · simp only [dangling, pass, heq]
      unfold CalcGlobals defineTypes
      rw [hround]
      exact ih

end CalcLang.Types
