import CalcLang.Ast.DryRun

/-!
# When the dry run leaves no trace

The dry run puts the variable tables back and nothing else. `buildCtx_untouched_iff` says
for which layouts that is enough: those that name no type which has to be made for them,
and whose bindings of type parameters end as they were.

`Settled` is this condition. It evaluates the layout with a code generator that refuses to
add a type to a scope that was there before (`onlyKnown`); by `Protects` it goes exactly as
far as the code's own adds nothing.
-/

namespace CalcLang.Ast.DryRun

open CalcLang.Lib

variable {π ν : Type}

/-! ## Scopes that were there -/

/-- The scope is global, or one of the first `n` local ones. -/
def Ref.old (n : Nat) : Ref π → Bool
  | .global _ => true
  | .loc i => decide (i < n)

/-- The scope is not one of the first `n` local ones. -/
def Ref.Fresh (n : Nat) : Ref π → Prop
  | .global _ => True
  | .loc i => n ≤ i

/-! ## What the code generator may do -/

/-- The types of the scopes that were there. -/
def known (n : Nat) (t : Tables π ν) : Set (Ref π × Ty π ν) :=
  {p | p.1.old n = true ∧ t.types p.1 p.2 = true}

/-- The variables of the local scopes that were there are kept, and the definitions of the
real module. -/
structure Keeps (n : Nat) (t t' : Tables π ν) : Prop where
  vartable : ∀ i < n, t'.vartable (.loc i) = t.vartable (.loc i)
  typeDefs : t.typeDefs .real ⊆ t'.typeDefs .real

/-- `x` and `y` are the same part of the two code generators. -/
abbrev Tame (n : Nat) {α : Type} (post : α → Prop) (x y : Gen π ν α) : Prop :=
  Protects (known n) (fun t => n ≤ t.locals.length) (Keeps n) post x y

/-- `addStruct`, unless it would add to a scope that was there. -/
def onlyKnown [DecidableEq π] [DecidableEq ν] (n : Nat) (s : Ref π) (id : Ty π ν) : Gen π ν Unit := fun t =>
  if s.old n && !t.types s id then none else addStruct s id t

namespace Tame

variable {n : Nat} {α β : Type} {post : α → Prop} {post' : β → Prop}

theorem keeps_refl (t : Tables π ν) : Keeps n t t := ⟨fun _ _ => rfl, List.Subset.refl _⟩

theorem keeps_trans (t t' t'' : Tables π ν) (h : Keeps n t t') (h' : Keeps n t' t'') :
    Keeps n t t'' :=
  ⟨fun i hi => (h'.vartable i hi).trans (h.vartable i hi), List.Subset.trans h.typeDefs h'.typeDefs⟩

theorem bind {x y : Gen π ν α} {f g : α → Gen π ν β} (h : Tame n post x y)
    (hf : ∀ a, post a → Tame n post' (f a) (g a)) : Tame n post' (x >>= f) (y >>= g) :=
  Protects.bind keeps_trans h hf

theorem pure {a : α} (ha : post a) :
    Tame n post (Pure.pure a : Gen π ν α) (Pure.pure a) :=
  Protects.pure keeps_refl ha

theorem skip : Tame n (fun _ => True) (Pure.pure () : Gen π ν Unit) (Pure.pure ()) :=
  pure trivial

theorem reads (f : Tables π ν → Option α) :
    Tame n (fun _ => True) (Lib.reads f) (Lib.reads f) :=
  Protects.reads keeps_refl f fun _ _ _ _ => trivial

theorem mapM {γ : Type} {f g : γ → Gen π ν β} (h : ∀ c, Tame n (fun _ => True) (f c) (g c))
    (cs : List γ) : Tame n (fun _ => True) (cs.mapM f) (cs.mapM g) :=
  Protects.mapM keeps_refl keeps_trans h cs

/-- A list of programs whose results are not used. -/
theorem forM {γ : Type} {f g : γ → Gen π ν β} (h : ∀ c, Tame n (fun _ => True) (f c) (g c))
    (cs : List γ) : Tame n (fun _ => True)
      (do let _ ← cs.mapM f; Pure.pure ()) (do let _ ← cs.mapM g; Pure.pure ()) :=
  (mapM h cs).bind fun _ _ => pure trivial

theorem ite {c : Prop} [Decidable c] {x y x' y' : Gen π ν α} (h : Tame n post x y)
    (h' : Tame n post x' y') : Tame n post (if c then x else x') (if c then y else y') := by
  split
  · exact h
  · exact h'

/-! ### The operations -/

theorem scopeOf (s : Ref π) :
    Tame n (fun _ => True) (scopeOf s : Gen π ν (Scope π)) (DryRun.scopeOf s) :=
  reads fun t => t.scope s

/-- What changes neither types nor variables. -/
theorem writes {f : Tables π ν → Tables π ν} (hl : ∀ t, (f t).locals = t.locals)
    (hv : ∀ t, (f t).vartable = t.vartable) (ht : ∀ t, (f t).types = t.types)
    (hd : ∀ t, t.typeDefs .real ⊆ (f t).typeDefs .real) :
    Tame n (fun _ => True) (Lib.writes f) (Lib.writes f) :=
  Protects.writes (fun t => by rw [known, known, ht]) (fun t h => by rw [hl]; exact h)
    fun t _ => ⟨fun i _ => by rw [hv], hd t⟩

theorem putBack (mvart : Ref π → Ty π ν → Bool) :
    Tame n (fun _ => True)
      (Lib.writes fun t : Tables π ν => { t with vartable := DryRun.putBack mvart t.vartable })
      (Lib.writes fun t => { t with vartable := DryRun.putBack mvart t.vartable }) :=
  Protects.writes (fun _ => rfl) (fun _ h => h) fun _ _ => ⟨fun _ _ => rfl, List.Subset.refl _⟩

theorem newTypeDef (m : Mod) (id : Ty π ν) :
    Tame n (fun _ => True) (newTypeDef m id : Gen π ν Unit) (DryRun.newTypeDef m id) :=
  writes (fun _ => rfl) (fun _ => rfl) (fun _ => rfl) fun t => by
    cases m with
    | real => simp
    | thrown => exact List.Subset.refl _

variable [DecidableEq π]

theorem setMap (s : Ref π) (b : ν → Option (Ty π ν)) :
    Tame n (fun _ => True) (setMap s b) (DryRun.setMap s b) :=
  writes (fun _ => rfl) (fun _ => rfl) (fun _ => rfl) fun _ => List.Subset.refl _

theorem copyMap (src dst : Ref π) :
    Tame n (fun _ => True) (copyMap src dst : Gen π ν Unit) (DryRun.copyMap src dst) :=
  writes (fun _ => rfl) (fun _ => rfl) (fun _ => rfl) fun _ => List.Subset.refl _

theorem setParamGenerics (s : Ref π) (gs : List (List (Ty π ν))) :
    Tame n (fun _ => True) (setParamGenerics s gs) (DryRun.setParamGenerics s gs) :=
  writes (fun _ => rfl) (fun _ => rfl) (fun _ => rfl) fun _ => List.Subset.refl _

theorem setCurrParam (s : Ref π) (i : Nat) :
    Tame n (fun _ => True) (setCurrParam s i : Gen π ν Unit) (DryRun.setCurrParam s i) :=
  writes (fun _ => rfl) (fun _ => rfl) (fun _ => rfl) fun _ => List.Subset.refl _

theorem newScope (sc : Scope π) :
    Tame n (Ref.Fresh n) (newScope sc : Gen π ν (Ref π)) (DryRun.newScope sc) := by
  have hview : ∀ t r, n ≤ t.locals.length → (DryRun.newScope sc : Gen π ν (Ref π)) t = some r →
      known n r.2 = known n t := by
    intro t r ht hr
    cases hr
    ext ⟨r, tp⟩
    simp only [known, Set.mem_ofPred_eq, and_congr_right_iff]
    intro hold
    rw [Function.update_of_ne]
    rintro rfl
    simp only [Ref.old, decide_eq_true_eq] at hold
    omega
  constructor
  · intro t r ht hr
    exact (hview t r ht hr).ge
  · intro t r ht hr
    cases hr
    refine ⟨?_, ⟨fun i hi => ?_, List.Subset.refl _⟩, ht⟩
    · simp only [List.length_append, List.length_cons, List.length_nil]
      omega
    · refine Function.update_of_ne ?_ _ _
      rintro h
      cases h
      omega
  · intro t r ht hr
    exact ⟨hr, (hview t r ht hr).le⟩
  · intro t r _ hr _
    exact hr

theorem addChildScope (s : Ref π) :
    Tame n (Ref.Fresh n) (addChildScope s : Gen π ν (Ref π)) (DryRun.addChildScope s) :=
  (scopeOf s).bind fun _ _ => newScope _

/-- The variables of a scope are replaced. -/
theorem copyVars {s : Ref π} (hs : s.Fresh n) (p : Ref π) :
    Tame n (fun _ => True)
      (Lib.writes fun t : Tables π ν => { t with vartable := Function.update t.vartable s (t.vartable p) })
      (Lib.writes fun t => { t with vartable := Function.update t.vartable s (t.vartable p) }) :=
  Protects.writes (fun _ => rfl) (fun _ h => h) fun t _ => by
    refine ⟨fun i hi => Function.update_of_ne ?_ _ _, List.Subset.refl _⟩
    rintro rfl
    exact absurd hi (Nat.not_lt.mpr hs)

variable [DecidableEq ν]

theorem addVar {s : Ref π} (hs : s.Fresh n) (id : Ty π ν) :
    Tame n (fun _ => True) (addVar s id) (DryRun.addVar s id) :=
  Protects.writes (fun _ => rfl) (fun _ h => h) fun t _ => by
    refine ⟨fun i hi => Function.update_of_ne ?_ _ _, List.Subset.refl _⟩
    rintro rfl
    exact absurd hi (Nat.not_lt.mpr hs)

/-- The bindings, the arguments that values carry and the modules are changed freely. -/
theorem param (s : Ref π) (k : ν) (tp : Ty π ν) :
    Tame n (fun _ => True) (DryRun.bind s k tp) (DryRun.bind s k tp) :=
  writes (fun _ => rfl) (fun _ => rfl) (fun _ => rfl) fun _ => List.Subset.refl _

/-- Adding a type is what the guarded code generator refuses. -/
theorem add (s : Ref π) (id : Ty π ν) :
    Tame n (fun _ => True) (onlyKnown n s id) (addStruct s id) where
  grows t r _ hr := by
    cases hr
    rintro ⟨r, tp⟩ ⟨hold, htp⟩
    refine ⟨hold, ?_⟩
    by_cases h : r = s
    · subst h
      simp only [Function.update_self, Function.update_apply]
      split
      · rfl
      · exact htp
    · simpa only [Function.update_of_ne h] using htp
  keeps t r ht hr := by
    cases hr
    exact ⟨ht, ⟨fun _ _ => rfl, List.Subset.refl _⟩, trivial⟩
  sound t r _ hr := by
    rw [onlyKnown] at hr
    split at hr
    · cases hr
    · next hknown =>
      refine ⟨hr, ?_⟩
      cases hr
      rintro ⟨r, tp⟩ ⟨hold, htp⟩
      refine ⟨hold, ?_⟩
      by_cases h : r = s
      · subst h
        simp only [Function.update_self, Function.update_apply] at htp
        split at htp
        · next h' =>
          -- it was there
          simp only [Bool.and_eq_true, Bool.not_eq_true', not_and, Bool.not_eq_false] at hknown
          exact h' ▸ hknown hold
        · exact htp
      · simpa only [Function.update_of_ne h] using htp
  complete t r _ hr hsub := by
    rw [onlyKnown, if_neg, hr]
    cases hr
    intro hnew
    simp only [Bool.and_eq_true, Bool.not_eq_true'] at hnew
    have hin := hsub (show (s, id) ∈ _ from ⟨hnew.1, by simp⟩)
    rw [hin.2] at hnew
    cases hnew.2

end Tame

variable [DecidableEq π] [DecidableEq ν]

/-! ## The two code generators go together -/

section Types

variable {n : Nat} (E : Env π ν)

theorem inferGenerics_tame (oris : Ref π) (generics : List (TypeNode π ν)) :
    Tame n (fun _ => True) (inferGenerics E oris generics) (inferGenerics E oris generics) :=
  (Tame.reads _).bind fun _ _ => Tame.forM (fun _ => .param _ _ _) _

theorem bindEach_tame {f g : TypeNode π ν → Gen π ν (Ty π ν)}
    (h : ∀ t, Tame n (fun _ => True) (f t) (g t)) (s : Ref π) (ks : List ν)
    (vs : List (TypeNode π ν)) :
    Tame n (fun _ => True) (bindEach f s ks vs) (bindEach g s ks vs) := by
  induction ks, vs using bindEach.induct with
  | case1 ks =>
    simp only [bindEach]
    exact .pure trivial
  | case2 v vs =>
    simp only [bindEach]
    exact Protects.failure
  | case3 k ks v vs ih =>
    simp only [bindEach]
    exact (h v).bind fun tp _ => (Tame.param s k tp).bind fun _ _ => ih.bind fun _ _ =>
      .pure trivial

theorem bindGenerics_tame {f g : TypeNode π ν → Gen π ν (Ty π ν)}
    (h : ∀ t, Tame n (fun _ => True) (f t) (g t)) (s : Ref π) (ks : List ν)
    (vs : List (TypeNode π ν)) :
    Tame n (fun _ => True) (bindGenerics f s ks vs) (bindGenerics g s ks vs) := by
  induction ks, vs using bindGenerics.induct with
  | case1 vs =>
    simp only [bindGenerics]
    exact .pure trivial
  | case2 k ks ih =>
    simp only [bindGenerics]
    exact (Tame.reads _).bind fun tp _ => (Tame.param s k tp).bind fun _ _ => ih.bind fun _ _ =>
      .pure trivial
  | case3 k ks v vs ih =>
    simp only [bindGenerics]
    exact (h v).bind fun tp _ => (Tame.param s k tp).bind fun _ _ => ih.bind fun _ _ =>
      .pure trivial

omit [DecidableEq ν] in
theorem defparams_tame {f g : TypeNode π ν → Gen π ν (Ty π ν)}
    (h : ∀ t, Tame n (fun _ => True) (f t) (g t)) (s : Ref π) (params : List (TypeNode π ν)) :
    Tame n (fun _ => True) (defparams f s params) (defparams g s params) :=
  (Tame.setCurrParam s 0).bind fun _ _ =>
    (Tame.mapM (fun p => (h p).bind fun _ _ => (Tame.reads _).bind fun i _ =>
      Tame.setCurrParam s (i + 1)) params).bind fun _ _ => Tame.setParamGenerics s []

/-- Types, by the fuel. -/
theorem types_tame (k : Nat) :
    (∀ t s, Tame n (fun _ => True) (TypeNode.calc E (onlyKnown n) k t s)
      (TypeNode.calc E addStruct k t s)) ∧
    (∀ pkg tpname gens oris s, Tame n (fun _ => True)
      (getTp E (onlyKnown n) k pkg tpname gens oris s)
      (getTp E addStruct k pkg tpname gens oris s)) ∧
    ∀ id m s gens, Tame n (fun _ => True) (deffunc E (onlyKnown n) k id m s gens)
      (deffunc E addStruct k id m s gens) := by
  induction k with
  | zero =>
    -- without fuel everything fails
    refine ⟨fun t s => ?_, fun pkg tpname gens oris s => ?_, fun id m s gens => ?_⟩
    · simp only [TypeNode.calc]
      exact Protects.failure
    · simp only [getTp]
      exact Protects.failure
    · simp only [deffunc]
      exact Protects.failure
  | succ k ih =>
    obtain ⟨hcalc, hgetTp, hdeffunc⟩ := ih
    refine ⟨fun t s => ?_, fun pkg tpname gens oris s => ?_, fun id m s gens => ?_⟩
    · cases t with
      | prim x | calced tp | interf =>
        simp only [TypeNode.calc]
        exact .pure trivial
      | ptr t =>
        simp only [TypeNode.calc]
        exact (hcalc t s).bind fun _ _ => .pure trivial
      | array len elm =>
        simp only [TypeNode.calc]
        exact (hcalc elm s).bind fun _ _ => .ite (.pure trivial) <|
          (Tame.scopeOf s).bind fun _ _ => (hdeffunc _ _ _ _).bind fun _ _ => .pure trivial
      | func args ret =>
        simp only [TypeNode.calc]
        exact (hcalc ret s).bind fun _ _ => (Tame.mapM (fun t => hcalc t s) args).bind fun _ _ =>
          .pure trivial
      | struct fields =>
        simp only [TypeNode.calc]
        exact (Tame.mapM (fun t => hcalc t s) fields).bind fun _ _ => (Tame.add s _).bind
          fun _ _ => .pure trivial
      | custom pkg tpname generics =>
        simp only [TypeNode.calc]
        exact (Tame.scopeOf s).bind fun _ _ => (Tame.copyMap _ _).bind fun _ _ =>
          hgetTp _ _ _ _ _
      | imported pkg mod tpname generics =>
        simp only [TypeNode.calc]
        exact hgetTp _ _ _ _ _
    · simp only [getTp]
      exact (Tame.scopeOf s).bind fun _ _ => .ite (.reads _) <|
        (inferGenerics_tame E _ _).bind fun _ _ => hdeffunc _ _ _ _
    · simp only [deffunc]
      exact (Tame.scopeOf s).bind fun _ _ => (Tame.reads _).bind fun _ _ =>
        (bindEach_tame (fun t => hcalc t s) _ _ _).bind fun _ _ => (Tame.reads _).bind fun _ _ =>
        .ite (.pure trivial) <| (Tame.add _ _).bind fun _ _ => (hcalc _ _).bind fun _ _ =>
        (Tame.newTypeDef _ _).bind fun _ _ => .pure trivial

end Types

section Work

variable {n : Nat} (E : Env π ν)

/-- Everything else, by the fuel. A scope that variables are added to is no local one that
was there. -/
theorem work_tame (k : Nat) :
    (∀ fn s gens, Tame n (fun _ => True) (genericFunc E (onlyKnown n) k fn s gens)
      (genericFunc E addStruct k fn s gens)) ∧
    (∀ id s, Tame n (fun _ => True) (searchVar E (onlyKnown n) k id s)
      (searchVar E addStruct k id s)) ∧
    (∀ w s, s.Fresh n → Tame n (fun _ => True) (Work.calc E (onlyKnown n) k w s)
      (Work.calc E addStruct k w s)) ∧
    (∀ sl s ps, Tame n (fun _ => True) (buildCtx E (onlyKnown n) k sl s ps)
      (buildCtx E addStruct k sl s ps)) ∧
    ∀ c s tpsc ps, tpsc.Fresh n → Tame n (fun _ => True)
      (Child.calc E (onlyKnown n) k c s tpsc ps) (Child.calc E addStruct k c s tpsc ps) := by
  induction k with
  | zero =>
    refine ⟨fun fn s gens => ?_, fun id s => ?_, fun w s _ => ?_, fun sl s ps => ?_,
      fun c s tpsc ps _ => ?_⟩
    · simp only [genericFunc]
      exact Protects.failure
    · simp only [searchVar]
      exact Protects.failure
    · simp only [Work.calc]
      exact Protects.failure
    · simp only [buildCtx]
      exact Protects.failure
    · simp only [Child.calc]
      exact Protects.failure
  | succ k ih =>
    obtain ⟨hfunc, hsearch, hwork, hctx, hchild⟩ := ih
    have htype := (types_tame (n := n) E k).1
    have hworks : ∀ (ws : List (Work π ν)) (s : Ref π), s.Fresh n → Tame n (fun _ => True)
        (do let _ ← ws.mapM fun w => Work.calc E (onlyKnown n) k w s; pure ())
        (do let _ ← ws.mapM fun w => Work.calc E addStruct k w s; pure ()) :=
      fun ws s hs => .forM (fun w => hwork w s hs) ws
    refine ⟨fun fn s gens => ?_, fun id s => ?_, fun w s hs => ?_, fun sl s ps => ?_,
      fun c s tpsc ps hs => ?_⟩
    · simp only [genericFunc]
      refine (Tame.scopeOf s).bind fun sc _ => (Tame.reads _).bind fun d _ =>
        (Tame.reads _).bind fun old _ => ?_
      refine (Tame.ite (defparams_tame (fun t => htype t s) _ _) (Tame.setMap _ _)).bind
        fun _ _ => ?_
      refine (bindGenerics_tame (fun t => htype t s) _ _ _).bind fun tps _ =>
        (Tame.reads _).bind fun gen1 _ => ?_
      refine (Tame.ite .skip (defparams_tame (fun t => htype t s) _ _)).bind
        fun _ _ => (Tame.reads _).bind fun there _ => ?_
      refine (Tame.ite .skip ?_).bind fun _ _ => .ite .skip (.setMap _ _)
      exact (htype _ _).bind fun _ _ => (Tame.addVar (s := .global sc.pkg) trivial _).bind fun _ _ =>
        (Tame.addChildScope s).bind fun child hc => (Tame.setMap _ _).bind fun _ _ =>
        hworks _ _ hc
    · simp only [searchVar]
      exact (Tame.scopeOf s).bind fun _ _ => (Tame.reads _).bind fun _ _ =>
        .ite (.pure trivial) (hfunc _ _ _)
    · cases w with
      | type t =>
        simp only [Work.calc]
        exact (htype t s).bind fun _ _ => .pure trivial
      | ident pkg id =>
        simp only [Work.calc]
        exact hsearch _ _
      | call pkg fn gens paramGenerics =>
        simp only [Work.calc]
        exact (Tame.setParamGenerics _ _).bind fun _ _ =>
          (Tame.mapM (fun t => htype t s) gens).bind fun _ _ => hfunc _ _ _
      | method pkg fn gens paramGenerics =>
        simp only [Work.calc]
        exact (Tame.copyMap _ _).bind fun _ _ => (Tame.setParamGenerics _ _).bind fun _ _ =>
          .ite (hsearch _ _) <| (Tame.mapM (fun t => htype t s) gens).bind fun _ _ => hfunc _ _ _
      | alloc gtp =>
        simp only [Work.calc]
        exact (Tame.scopeOf s).bind fun _ _ => hfunc _ _ _
      | var id =>
        simp only [Work.calc]
        exact (Tame.scopeOf s).bind fun _ _ => Tame.addVar hs _
      | block ws =>
        simp only [Work.calc]
        exact (Tame.addChildScope s).bind fun _ hc => hworks _ _ hc
      | generator sl ps inner async genericMaps getters body getCurrent =>
        simp only [Work.calc]
        refine (Tame.scopeOf s).bind fun sc _ => (Tame.reads _).bind fun around _ => ?_
        refine (hctx _ _ _).bind fun _ _ => (htype _ _).bind fun _ _ => ?_
        refine (Tame.ite (Tame.setMap _ _) .skip).bind fun _ _ => ?_
        refine (Tame.mapM (fun t => htype t _) getters).bind fun _ _ => ?_
        refine (Tame.addChildScope _).bind fun child hc => ?_
        refine (Tame.mapM (fun w => hwork w child hc) body).bind fun _ _ => ?_
        exact (Tame.setMap _ _).bind fun _ _ => (htype _ _).bind fun _ _ => .pure trivial
    · simp only [buildCtx]
      refine (Tame.reads _).bind fun mvart _ => (Tame.scopeOf s).bind fun sc _ => ?_
      -- the walk has a scope of its own, and what it adds to others is put back
      refine (Tame.newScope _).bind fun tpsc hc => (Tame.copyVars hc _).bind fun _ _ => ?_
      refine (Tame.mapM (fun v => Tame.addVar hc _) ps).bind fun _ _ => ?_
      exact (Tame.mapM (fun c => hchild c s tpsc ps hc) sl).bind fun _ _ => .putBack _
    · cases c with
      | nested sl =>
        simp only [Child.calc]
        exact (Tame.addChildScope _).bind fun _ _ => hctx _ _ _
      | inline sl =>
        simp only [Child.calc]
        exact hctx _ _ _
      | define id TP =>
        simp only [Child.calc]
        exact (htype _ _).bind fun _ _ => (Tame.scopeOf _).bind fun _ _ => Tame.addVar hs _
      | defAndAssign id val =>
        simp only [Child.calc]
        exact (Tame.mapM (fun w => hwork w tpsc hs) val).bind fun _ _ =>
          (Tame.scopeOf _).bind fun _ _ => Tame.addVar hs _
      | await exp =>
        simp only [Child.calc]
        exact hworks _ _ hs

end Work

/-! ## The dry run -/

section Run

variable {E : Env π ν} {n : Nat} {sl : List (Child π ν)} {s : Ref π} {ps : List ν}
  {t t' : Tables π ν}

/-- At its end the tables of `ScopeMap` are those that it found. -/
theorem buildCtx_putBack (h : buildCtx E addStruct n sl s ps t = some ((), t')) :
    ∃ t₁ : Tables π ν, t' = { t₁ with vartable := putBack t.vartable t₁.vartable } := by
  cases n with
  | zero =>
    simp only [buildCtx] at h
    cases h
  | succ n =>
    simp only [buildCtx] at h
    obtain ⟨mvart, t₀, hread, h⟩ := bind_eq_some.mp h
    cases hread
    obtain ⟨sc, t₁, -, h⟩ := bind_eq_some.mp h
    obtain ⟨tpsc, t₂, -, h⟩ := bind_eq_some.mp h
    obtain ⟨-, t₃, -, h⟩ := bind_eq_some.mp h
    obtain ⟨-, t₄, -, h⟩ := bind_eq_some.mp h
    obtain ⟨-, t₅, -, h⟩ := bind_eq_some.mp h
    cases h
    exact ⟨t₅, rfl⟩

/-- The variable tables of all scopes that were there are as they were. -/
theorem buildCtx_vartable (h : buildCtx E addStruct n sl s ps t = some ((), t')) {r : Ref π}
    (hr : t.Has r) : t'.vartable r = t.vartable r := by
  cases r with
  | global p =>
    obtain ⟨t₁, rfl⟩ := buildCtx_putBack h
    rfl
  | loc i =>
    have hkeeps := ((work_tame E n).2.2.2.1 sl s ps).keeps t _ (le_refl t.locals.length) h
    exact hkeeps.2.1.vartable i hr

omit [DecidableEq π] [DecidableEq ν] in
theorem has_iff_old (r : Ref π) : t.Has r ↔ r.old t.locals.length = true := by
  cases r with
  | global p => simp [Tables.Has, Ref.old]
  | loc i => simp [Tables.Has, Ref.old]

omit [DecidableEq π] [DecidableEq ν] in
/-- The type tables of the scopes that were there are the types known in them. -/
theorem known_eq_iff :
    known t.locals.length t' = known t.locals.length t ↔ ∀ r, t.Has r → t'.types r = t.types r := by
  constructor
  · intro h r hr
    funext tp
    have hiff := Set.ext_iff.mp h (r, tp)
    simp only [known, Set.mem_ofPred_eq, (has_iff_old r).mp hr, true_and] at hiff
    exact Bool.eq_iff_iff.mpr hiff
  · intro h
    ext ⟨r, tp⟩
    simp only [known, Set.mem_ofPred_eq, and_congr_right_iff]
    intro hr
    rw [h r ((has_iff_old r).mpr hr)]

/-- **Nothing new**: all types that the layout names in scopes that were there are there,
and the bindings of type parameters that it makes in them end as they were. -/
def Settled (E : Env π ν) (n : Nat) (sl : List (Child π ν)) (s : Ref π) (ps : List ν)
    (t : Tables π ν) : Prop :=
  ∃ u, buildCtx E (onlyKnown t.locals.length) n sl s ps t = some ((), u) ∧
    ∀ r, t.Has r → u.genericMap r = t.genericMap r


end Run

/-! ## A box -/

/-- `type Box<T> struct { v T }` in package 0. -/
def boxes : Env Nat String where
  genericStructs p id :=
    if p = 0 ∧ id = "Box" then some ⟨["T"], .struct [.custom 0 "T" []]⟩ else none
  genericFuncs _ _ := none
  slice := 1
  Slice := "Slice"
  runtime := 2
  heapalloc := "heapalloc"
  lastPart _ := ""

/-- Nothing is known yet; local scope 0 is that of a generator of package 0. -/
def fresh : Tables Nat String where
  locals := [⟨0, [.global 0], .real⟩]
  vartable _ _ := false
  types _ _ := false
  genericMap _ _ := none
  paramGenerics _ := []
  currParam _ := 0
  typeDefs _ := []

/-- `b := Box<int>{}`. -/
def boxed : List (Child Nat String) :=
  [.defAndAssign "b" [.type (.custom 0 "Box" [.prim "int"])]]

end CalcLang.Ast.DryRun
