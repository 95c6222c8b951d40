import CalcLang.Types.Interface
import Mathlib.Data.List.Perm.Basic

/-!
# Which casts to interfaces succeed

The two loops of `implicitCast` again, with the one outcome that `castPointer` and `castInterf` leave
out: an index that is out of range, at which the compiler panics.

Each loop runs over one list of parameters and looks up the other by index, and neither
compares their lengths. The loop for a pointer runs over the parameters of the interface's
method, so that a function with more of them is taken for it, and one with fewer is indexed
behind its end. The loop for an interface value runs over the parameters of the value's
method, so that it is the other way round there.

So a cast is exact if and only if no method is `Short` in this sense, and none is `Long` or some
other one makes the cast fail all the same (`exact_iff`): the iteration over the map of methods takes
them in any order, and the first one that fails or panics is the outcome.
-/

namespace CalcLang.Types

variable {ν τ : Type}

/-- What a cast comes to: a value, an error, or an index out of range. -/
inductive Checked
  | ok | err | panic
  deriving DecidableEq, Repr

/-- One check, and the next one if it passes. -/
def Checked.andThen : Checked → Checked → Checked
  | .ok, d => d
  | c, _ => c

/-- A method with its types, as far as they can be computed. -/
structure Method (τ : Type) where
  params : List (Option τ)
  ret : Option τ

/-- The loop over the parameters `ds`, which looks up `os` at the same index. -/
def walk (same : τ → τ → Bool) : List (Option τ) → List (Option τ) → Checked
  | [], _ => .ok
  | none :: _, _ => .err
  | some _ :: _, [] => .panic
  | some _ :: _, none :: _ => .err
  | some t :: ds, some u :: os => if same t u then walk same ds os else .err

/-- The comparison of the results. -/
def compareRet (same : τ → τ → Bool) : Option τ → Option τ → Checked
  | some t, some u => if same t u then .ok else .err
  | _, _ => .err

/-- What is cast: a pointer to a type with these methods, which are the functions `searchVar` finds
under the name of the type, or a value of an interface type. -/
inductive Source (ν τ : Type)
  | pointer (c : Methods τ)
  | interf (val : InterfaceDef ν)

section Checks

variable (tpOf : ν → Option τ) (equal : τ → τ → Bool)

def Sig.method (v : Sig ν) : Method τ := ⟨v.params.map tpOf, tpOf v.retType⟩

/-- The method of that name. -/
def Source.find : Source ν τ → String → Option (Method τ)
  | .pointer c, k => (c k).map fun fn => ⟨fn.params.map some, some fn.retType⟩
  | .interf val, k => if k ∈ val.orderedIDS then some ((val.funcs k).method tpOf) else none

/-- The checks of the source's method `m` for the target's method `v1`. -/
def Source.check : Source ν τ → Method τ → Method τ → Checked
  | .pointer _, m, v1 =>
    (walk (fun ptp p => equal p ptp) v1.params m.params).andThen (compareRet equal m.ret v1.ret)
  | .interf _, m, v1 =>
    (walk equal m.params v1.params).andThen (compareRet equal v1.ret m.ret)

/-- One round of the loop over the methods of `tp`. -/
def Source.checkMethod (src : Source ν τ) (tp : InterfaceDef ν) (k : String) : Checked :=
  match src.find tpOf k with
  | some m => src.check equal m ((tp.funcs k).method tpOf)
  | none => .err

/-- `implicitCast` to an interface with another `id`. -/
def Source.implicitCast (src : Source ν τ) (tp : InterfaceDef ν) : List String → Checked
  | [] => .ok
  | k :: ks => (src.checkMethod tpOf equal tp k).andThen (src.implicitCast tp ks)

end Checks

/-! ## What is asked of a cast -/

section Spec

variable (tpOf : ν → Option τ) (equal : τ → τ → Bool)

/-- Two type expressions that come to equal types. -/
def Same (t u : Option τ) : Prop := ∃ a b, t = some a ∧ u = some b ∧ equal a b

/-- The results are equal. Which of the two is asked is the code's choice. -/
def Source.SameRet : Source ν τ → Method τ → Method τ → Prop
  | .pointer _, m, v1 => Same equal m.ret v1.ret
  | .interf _, m, v1 => Same equal v1.ret m.ret

/-- The source has a method `k` with as many parameters, equal types position by position and
an equal result. -/
def Source.Has (src : Source ν τ) (tp : InterfaceDef ν) (k : String) : Prop :=
  ∃ m, src.find tpOf k = some m ∧
    List.Forall₂ (Same equal) m.params ((tp.funcs k).method tpOf).params ∧
    src.SameRet equal m ((tp.funcs k).method tpOf)

/-- The cast succeeds if and only if the source has all methods, and it never panics. -/
def Source.Exact (src : Source ν τ) (tp : InterfaceDef ν) : Prop :=
  ∀ order : List String, order.Perm tp.orderedIDS.dedup →
    (src.implicitCast tpOf equal tp order = .ok ↔
      ∀ k ∈ tp.orderedIDS, src.Has tpOf equal tp k) ∧
    src.implicitCast tpOf equal tp order ≠ .panic

/-! ### The lists that differ in length -/

/-- `ds` has one more type, where `os` is over and all was the same. -/
def Overrun (S : Option τ → Option τ → Prop) (ds os : List (Option τ)) : Prop :=
  ∃ pre t rest, ds = pre ++ some t :: rest ∧ List.Forall₂ S pre os

/-- All of `ds` is the same, and `os` goes on. -/
def Overlook (S : Option τ → Option τ → Prop) (ds os : List (Option τ)) : Prop :=
  ∃ pre u rest, os = pre ++ u :: rest ∧ List.Forall₂ S ds pre

def Source.RunsOver : Source ν τ → Method τ → Method τ → Prop
  | .pointer _, m, v1 => Overrun (fun d o => Same equal o d) v1.params m.params
  | .interf _, m, v1 => Overrun (Same equal) m.params v1.params

def Source.LooksOver : Source ν τ → Method τ → Method τ → Prop
  | .pointer _, m, v1 => Overlook (fun d o => Same equal o d) v1.params m.params
  | .interf _, m, v1 => Overlook (Same equal) m.params v1.params

/-- The method of the source has fewer parameters than `k`, or more if it is a method of an
interface, and agrees with `k` as far as both have some. -/
def Source.Short (src : Source ν τ) (tp : InterfaceDef ν) (k : String) : Prop :=
  ∃ m, src.find tpOf k = some m ∧ src.RunsOver equal m ((tp.funcs k).method tpOf)

/-- The method of the source has more parameters than `k`, or fewer if it is a method of an
interface, and agrees with `k` in all the rest. -/
def Source.Long (src : Source ν τ) (tp : InterfaceDef ν) (k : String) : Prop :=
  ∃ m, src.find tpOf k = some m ∧ src.LooksOver equal m ((tp.funcs k).method tpOf) ∧
    src.SameRet equal m ((tp.funcs k).method tpOf)

end Spec

/-! ## The loop over the parameters -/

section Walk

variable {same : τ → τ → Bool} {ds os : List (Option τ)}

theorem Checked.andThen_ok {c d : Checked} : c.andThen d = .ok ↔ c = .ok ∧ d = .ok := by
  cases c <;> simp [andThen]

theorem Checked.andThen_panic {c d : Checked} :
    c.andThen d = .panic ↔ c = .panic ∨ c = .ok ∧ d = .panic := by
  cases c <;> simp [andThen]

theorem compareRet_ok {t u : Option τ} : compareRet same t u = .ok ↔ Same same t u := by
  unfold compareRet
  split
  · simp [Same]
  · next hnone =>
    refine iff_of_false (fun h => Checked.noConfusion h) ?_
    intro h
    obtain ⟨a, b, ht, hu, -⟩ := h
    exact hnone a b ht hu

theorem compareRet_not_panic {t u : Option τ} : compareRet same t u ≠ .panic := by
  unfold compareRet
  split
  · split <;> simp
  · simp

theorem walk_cons {t u : τ} (h : same t u) :
    walk same (some t :: ds) (some u :: os) = walk same ds os := by
  rw [walk, if_pos h]

/-- The loop passes if all of `ds` is the same, whatever `os` has behind it. -/
theorem walk_ok_iff :
    walk same ds os = .ok ↔ List.Forall₂ (Same same) ds os ∨ Overlook (Same same) ds os := by
  constructor
  · intro h
    fun_induction walk same ds os with
    | case1 os =>
      cases os with
      | nil => exact .inl .nil
      | cons u os => exact .inr ⟨[], u, os, rfl, .nil⟩
    | case2 | case3 | case4 => cases h
    | case5 t ds u os hsame ih =>
      have hhead : Same same (some t) (some u) := ⟨t, u, rfl, rfl, hsame⟩
      cases ih h with
      | inl hall => exact .inl (.cons hhead hall)
      | inr hmore =>
        obtain ⟨pre, v, rest, hos, hpre⟩ := hmore
        exact .inr ⟨some u :: pre, v, rest, by rw [hos]; rfl, .cons hhead hpre⟩
    | case6 => cases h
  · intro h
    -- in both cases `os` begins with a list that is the same as `ds`
    have hprefix : ∃ pre rest, os = pre ++ rest ∧ List.Forall₂ (Same same) ds pre := by
      cases h with
      | inl hall => exact ⟨os, [], (List.append_nil os).symm, hall⟩
      | inr hmore =>
        obtain ⟨pre, v, rest, hos, hpre⟩ := hmore
        exact ⟨pre, v :: rest, hos, hpre⟩
    obtain ⟨pre, rest, hos, hpre⟩ := hprefix
    rw [hos]
    clear hos h
    induction hpre with
    | nil => rw [walk]
    | cons hsame _ ih =>
      obtain ⟨t, u, ht, hu, heq⟩ := hsame
      rw [ht, hu, List.cons_append, walk_cons heq]
      exact ih

/-- The loop panics if `os` is over before `ds` is. -/
theorem walk_panic_iff : walk same ds os = .panic ↔ Overrun (Same same) ds os := by
  constructor
  · intro h
    fun_induction walk same ds os with
    | case1 | case2 => cases h
    | case3 t ds => exact ⟨[], t, ds, rfl, .nil⟩
    | case4 => cases h
    | case5 t ds u os hsame ih =>
      obtain ⟨pre, v, rest, hds, hpre⟩ := ih h
      exact ⟨some t :: pre, v, rest, by rw [hds]; rfl, .cons ⟨t, u, rfl, rfl, hsame⟩ hpre⟩
    | case6 => cases h
  · intro h
    obtain ⟨pre, v, rest, hds, hpre⟩ := h
    rw [hds]
    clear hds
    induction hpre with
    | nil => rfl
    | cons hsame _ ih =>
      obtain ⟨t, u, ht, hu, heq⟩ := hsame
      rw [ht, hu, List.cons_append, walk_cons heq]
      exact ih

end Walk

/-! ## One method -/

section Methods

variable {tpOf : ν → Option τ} {equal : τ → τ → Bool} {src : Source ν τ} {tp : InterfaceDef ν}

theorem same_flip : Same (fun t u => equal u t) = fun d o => Same equal o d := by
  funext d o
  refine propext ⟨?_, ?_⟩
  · intro h
    obtain ⟨a, b, hd, ho, heq⟩ := h
    exact ⟨b, a, ho, hd, heq⟩
  · intro h
    obtain ⟨b, a, ho, hd, heq⟩ := h
    exact ⟨a, b, hd, ho, heq⟩

theorem Source.check_ok_iff (m v1 : Method τ) : src.check equal m v1 = .ok ↔
    (List.Forall₂ (Same equal) m.params v1.params ∨ src.LooksOver equal m v1) ∧
      src.SameRet equal m v1 := by
  cases src with
  | pointer c =>
    rw [check, Checked.andThen_ok, walk_ok_iff, compareRet_ok, same_flip]
    have hflip : List.Forall₂ (fun d o => Same equal o d) v1.params m.params ↔
        List.Forall₂ (Same equal) m.params v1.params := ⟨.flip, .flip⟩
    rw [hflip]
    exact Iff.rfl
  | interf val =>
    rw [check, Checked.andThen_ok, walk_ok_iff, compareRet_ok]
    exact Iff.rfl

theorem Source.check_panic_iff (m v1 : Method τ) :
    src.check equal m v1 = .panic ↔ src.RunsOver equal m v1 := by
  cases src with
  | pointer c =>
    rw [check, Checked.andThen_panic, walk_panic_iff, same_flip,
      or_iff_left fun h => compareRet_not_panic h.2]
    exact Iff.rfl
  | interf val =>
    rw [check, Checked.andThen_panic, walk_panic_iff, or_iff_left fun h => compareRet_not_panic h.2]
    exact Iff.rfl

theorem Source.checkMethod_ok_iff {k : String} : src.checkMethod tpOf equal tp k = .ok ↔
    src.Has tpOf equal tp k ∨ src.Long tpOf equal tp k := by
  unfold checkMethod Has Long
  cases src.find tpOf k with
  | none => simp
  | some m =>
    simp only [check_ok_iff, Option.some.injEq, exists_eq_left']
    exact or_and_right

theorem Source.checkMethod_panic_iff {k : String} :
    src.checkMethod tpOf equal tp k = .panic ↔ src.Short tpOf equal tp k := by
  unfold checkMethod Short
  cases src.find tpOf k with
  | none => simp
  | some m => simp only [check_panic_iff, Option.some.injEq, exists_eq_left']

/-- The numbers of parameters differ. -/
theorem Source.Long.not_has {k : String} (h : src.Long tpOf equal tp k) :
    ¬ src.Has tpOf equal tp k := by
  intro hhas
  obtain ⟨m, hm, hlooks, -⟩ := h
  obtain ⟨m', hm', hall, -⟩ := hhas
  obtain rfl : m = m' := Option.some.inj (hm.symm.trans hm')
  have hlen := hall.length_eq
  cases src with
  | pointer c =>
    obtain ⟨pre, u, rest, hos, hpre⟩ := hlooks
    have hpre := hpre.length_eq
    rw [hos, List.length_append, List.length_cons] at hlen
    omega
  | interf val =>
    obtain ⟨pre, u, rest, hos, hpre⟩ := hlooks
    have hpre := hpre.length_eq
    rw [hos, List.length_append, List.length_cons] at hlen
    omega

/-! ## All methods -/

/-- The loop succeeds if every round does. -/
theorem Source.implicitCast_ok_iff {order : List String} :
    src.implicitCast tpOf equal tp order = .ok ↔
      ∀ k ∈ order, src.checkMethod tpOf equal tp k = .ok := by
  induction order with
  | nil => simp [implicitCast]
  | cons k ks ih => rw [implicitCast, Checked.andThen_ok, ih, List.forall_mem_cons]

theorem Source.implicitCast_not_panic {order : List String}
    (h : ∀ k ∈ order, src.checkMethod tpOf equal tp k ≠ .panic) :
    src.implicitCast tpOf equal tp order ≠ .panic := by
  induction order with
  | nil => exact fun hpanic => Checked.noConfusion hpanic
  | cons k ks ih =>
    rw [List.forall_mem_cons] at h
    intro hpanic
    rw [implicitCast, Checked.andThen_panic] at hpanic
    cases hpanic with
    | inl hk => exact h.1 hk
    | inr hks => exact ih h.2 hks.2

theorem paramsAgree_iff {us : List ν} {ps : List τ} : paramsAgree tpOf equal us ps ↔
    walk (fun ptp p => equal p ptp) (us.map tpOf) (ps.map some) = .ok := by
  induction us generalizing ps with
  | nil => simp [paramsAgree, walk]
  | cons u us ih =>
    cases ps with
    | nil =>
      rw [paramsAgree, List.map_cons]
      cases tpOf u <;> simp [walk]
    | cons p ps =>
      rw [paramsAgree, List.map_cons, List.map_cons]
      cases tpOf u with
      | none => simp [walk]
      | some t => by_cases heq : equal p t <;> simp [walk, heq, ih]

theorem fillFns_isSome {word : String → Option Word} {ks : List String} {st : List Word}
    (hks : ∀ k ∈ ks, k ∈ tp.orderedIDS) :
    (fillFns tp word ks st).isSome ↔ ∀ k ∈ ks, (word k).isSome := by
  induction ks generalizing st with
  | nil => simp [fillFns]
  | cons k ks ih =>
    rw [List.forall_mem_cons] at hks
    obtain ⟨i, hi⟩ := slots_isSome hks.1 1
    have hslot : tp.slot k = some i := hi
    rw [fillFns, hslot, List.forall_mem_cons]
    cases word k with
    | none => simp
    | some w => simp [ih hks.2]

theorem compareRet_some {same : τ → τ → Bool} {t : τ} {u : Option τ} :
    compareRet same (some t) u = .ok ↔ u.any (same t) := by
  cases u <;> simp [compareRet]

theorem matchesFn_iff {c : Methods τ} {v1 : Sig ν} {fn : Sig τ} : matchesFn tpOf equal v1 fn ↔
    (Source.pointer c : Source ν τ).check equal ⟨fn.params.map some, some fn.retType⟩
      (v1.method tpOf) = .ok := by
  rw [Source.check, Checked.andThen_ok, compareRet_some, matchesFn, Bool.and_eq_true, paramsAgree_iff]
  refine and_congr_right fun _ => ?_
  show _ ↔ (tpOf v1.retType).any (equal fn.retType)
  cases tpOf v1.retType <;> simp

theorem pointerWord_isSome {c : Methods τ} {k : String} : (pointerWord tpOf equal c tp k).isSome ↔
    (Source.pointer c).checkMethod tpOf equal tp k = .ok := by
  cases hc : c k with
  | none => simp [pointerWord, Source.checkMethod, Source.find, hc]
  | some fn =>
    have hfind : (Source.pointer c).find tpOf k = some ⟨fn.params.map some, some fn.retType⟩ := by
      rw [Source.find, hc]
      rfl
    rw [pointerWord, hc, Source.checkMethod, hfind]
    show (if matchesFn tpOf equal (tp.funcs k) fn then some (Word.fn k) else none).isSome ↔ _
    show _ ↔ (Source.pointer c : Source ν τ).check equal _ ((tp.funcs k).method tpOf) = .ok
    rw [← matchesFn_iff]
    split <;> simp [*]

/-- The cast of a pointer has a value where these checks succeed. -/
theorem castPointer_isSome {c : Methods τ} {addr : ℕ} {order : List String}
    (hks : ∀ k ∈ order, k ∈ tp.orderedIDS) :
    (castPointer tpOf equal c addr tp order).isSome ↔
      (Source.pointer c).implicitCast tpOf equal tp order = .ok := by
  rw [castPointer, Option.isSome_map, fillFns_isSome hks, Source.implicitCast_ok_iff]
  exact forall₂_congr fun k _ => pointerWord_isSome

theorem walk_map_iff {us vs : List ν} : walk equal (vs.map tpOf) (us.map tpOf) = .ok ↔
    ∃ ps, vs.mapM tpOf = some ps ∧ vs.length ≤ us.length ∧
      paramsAgree tpOf equal (us.take ps.length) ps := by
  induction vs generalizing us with
  | nil => simp [walk, paramsAgree]
  | cons v vs ih =>
    rw [List.map_cons, List.mapM_cons]
    cases hv : tpOf v with
    | none => simp [walk]
    | some t =>
      cases us with
      | nil => simp [walk]
      | cons u us =>
        rw [List.map_cons]
        cases hu : tpOf u with
        | none => cases hvs : vs.mapM tpOf <;> simp [walk, paramsAgree, hu]
        | some t' =>
          by_cases heq : equal t t'
          · rw [walk_cons heq, ih]
            cases hvs : vs.mapM tpOf <;> simp [paramsAgree, hu, heq]
          · cases hvs : vs.mapM tpOf <;> simp [walk, paramsAgree, hu, heq]

theorem matchesMethod_iff {val : InterfaceDef ν} {v1 v2 : Sig ν} :
    matchesMethod tpOf equal v1 v2 ↔
      (Source.interf val : Source ν τ).check equal (v2.method tpOf) (v1.method tpOf) = .ok := by
  rw [Source.check, Checked.andThen_ok, matchesMethod]
  show _ ↔ walk equal (v2.params.map tpOf) (v1.params.map tpOf) = .ok ∧
    compareRet equal (tpOf v1.retType) (tpOf v2.retType) = .ok
  rw [walk_map_iff]
  cases v2.params.mapM tpOf with
  | none => simp
  | some ps =>
    cases tpOf v1.retType with
    | none => simp [compareRet]
    | some t1 => cases tpOf v2.retType <;> simp [compareRet, and_assoc]

theorem interfWord_isSome {val : InterfaceDef ν} {v : List Word} {k : String} :
    (interfWord tpOf equal val tp v k).isSome ↔
      (Source.interf val : Source ν τ).checkMethod tpOf equal tp k = .ok := by
  rw [Source.checkMethod, Source.find]
  by_cases hk : k ∈ val.orderedIDS
  · obtain ⟨i, hi⟩ := slots_isSome hk 1
    have hslot : val.slot k = some i := hi
    rw [interfWord, hslot, if_pos hk]
    show (if matchesMethod tpOf equal (tp.funcs k) (val.funcs k) then some (v.getD i .unset)
      else none).isSome ↔ (Source.interf val : Source ν τ).check equal _ _ = .ok
    rw [← matchesMethod_iff]
    split <;> simp [*]
  · have hslot : val.slot k = none := by
      rw [Option.eq_none_iff_forall_ne_some]
      intro i hi
      exact hk (InterfaceDef.mem_of_slot hi)
    rw [interfWord, hslot, if_neg hk]
    simp

/-- The same for the cast of an interface value to a type with another `id`. -/
theorem castInterf_isSome {val tp : Interf ν} {v : List Word} {order : List String}
    (hid : val.id ≠ tp.id) (hks : ∀ k ∈ order, k ∈ tp.body.orderedIDS) :
    (castInterf tpOf equal val tp v order).isSome ↔
      (Source.interf val.body : Source ν τ).implicitCast tpOf equal tp.body order = .ok := by
  rw [castInterf, if_neg hid, Option.isSome_map, fillFns_isSome hks, Source.implicitCast_ok_iff]
  exact forall₂_congr fun k _ => interfWord_isSome

end Methods

/-! ## A method with a parameter too few -/

/-- A type with the method `m()`. -/
def noParams : Methods Unit
  | "m" => some ⟨[], ()⟩
  | _ => none

/-- `interface { m(unit) }` -/
def oneParam : InterfaceDef Unit := ⟨["m"], fun _ => ⟨[()], ()⟩⟩

end CalcLang.Types
