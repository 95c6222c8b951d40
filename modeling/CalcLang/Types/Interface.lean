import Mathlib.Data.List.Dedup
import Mathlib.Tactic.Basic

/-!
# Casts to interfaces: `implicitCast`

An interface value is a row of words: the object's address in slot 0, and in the slot that
`InterfaceDefNode.calc` gives a method, the function to call. A cast of a pointer looks
the functions up among the methods of its type, and a cast of an interface value copies
them from the slots of the one interface to those of the other. A cast between `Equal`
types does nothing.

Two interface types are `Equal` if they have the same `id`, which is the full name of a declared
interface, and of an instance of a generic one the name with its arguments. An anonymous one has
no name, so that any two of them are `Equal`: the cast leaves the functions where the first
has them.

So a value keeps its methods through a chain of casts as long as no run of anonymous types
in it moves a method from the slot it had in the first type of the run, and that is the exact
condition (`dispatch_iff`).

`ν` are type expressions and `τ` types; `tpOf` and `equal` say what the one comes to and
when two of the others are the same. An iteration over the map of an interface's methods takes
them in any order, given as a list.
-/

namespace CalcLang.Types

variable {ν τ : Type}

/-- The type of a method, or of a function without its receiver. -/
structure Sig (τ : Type) where
  params : List τ
  retType : τ

/-- The methods of an interface type in the order of their declaration. -/
structure InterfaceDef (ν : Type) where
  orderedIDS : List String
  funcs : String → Sig ν

/-- An interface type: a declared one, by its full name, or an anonymous one. -/
inductive InterfaceType (ν : Type)
  | declared (id : String) (hid : id ≠ "")
  | anonymous (d : InterfaceDef ν)

/-- `interf`. -/
structure Interf (ν : Type) where
  id : String
  body : InterfaceDef ν

/-- What `InterfaceDefNode.calc` and `NewTypeDef` make of an interface type; `defs` holds the
declarations. -/
def InterfaceType.interf (defs : String → InterfaceDef ν) : InterfaceType ν → Interf ν
  | .declared id _ => ⟨id, defs id⟩
  | .anonymous d => ⟨"", d⟩

/-- The numbers `InterfaceDefNode.calc` gives, from `i` on. The last one counts. -/
def slots : List String → ℕ → String → Option ℕ
  | [], _, _ => none
  | id :: ids, i, k =>
    match slots ids (i + 1) k with
    | some j => some j
    | none => if k = id then some i else none

/-- `interfaceFuncs[k].i`. -/
def InterfaceDef.slot (d : InterfaceDef ν) (k : String) : Option ℕ := slots d.orderedIDS 1 k

/-- A word of an interface value: what `stackAlloc` finds, the address of an object, or the method
of that name of the object's type. -/
inductive Word
  | unset
  | obj (addr : ℕ)
  | fn (k : String)
  deriving DecidableEq

/-- A struct type: its methods, by name. -/
abbrev Methods (τ : Type) := String → Option (Sig τ)

section Casts

variable (tpOf : ν → Option τ) (equal : τ → τ → Bool)

/-- The parameters `us` agree with the first of `ps`. -/
def paramsAgree : List ν → List τ → Bool
  | [], _ => true
  | _ :: _, [] => false
  | u :: us, p :: ps =>
    match tpOf u with
    | some t => equal p t && paramsAgree us ps
    | none => false

/-- The checks of a function `fn` for a method. -/
def matchesFn (v1 : Sig ν) (fn : Sig τ) : Bool :=
  paramsAgree tpOf equal v1.params fn.params &&
    match tpOf v1.retType with
    | some t => equal fn.retType t
    | none => false

/-- The checks of a method `v2` of the one interface for a method `v1` of the other. -/
def matchesMethod (v1 v2 : Sig ν) : Bool :=
  match v2.params.mapM tpOf, tpOf v1.retType, tpOf v2.retType with
  | some ps, some t1, some t2 =>
    v2.params.length ≤ v1.params.length &&
      paramsAgree tpOf equal (v1.params.take ps.length) ps && equal t1 t2
  | _, _, _ => false

/-- The word of a method in a cast of a pointer. -/
def pointerWord (c : Methods τ) (tp : InterfaceDef ν) (k : String) : Option Word :=
  match c k with
  | some fn => if matchesFn tpOf equal (tp.funcs k) fn then some (.fn k) else none
  | none => none

/-- The word of a method in a cast of an interface value. -/
def interfWord (val tp : InterfaceDef ν) (v : List Word) (k : String) : Option Word :=
  match val.slot k with
  | some i =>
    if matchesMethod tpOf equal (tp.funcs k) (val.funcs k) then some (v.getD i .unset) else none
  | none => none

/-- The loop of both casts over the methods of `tp`. -/
def fillFns (tp : InterfaceDef ν) (word : String → Option Word) :
    List String → List Word → Option (List Word)
  | [], st => some st
  | k :: ks, st =>
    match tp.slot k, word k with
    | some i, some w => fillFns tp word ks (st.set i w)
    | _, _ => none

/-- `stackAlloc` of an interface. -/
def InterfaceDef.alloc (tp : InterfaceDef ν) : List Word :=
  List.replicate (tp.orderedIDS.length + 1) .unset

/-- `implicitCast` of a pointer to a struct. -/
def castPointer (c : Methods τ) (addr : ℕ) (tp : InterfaceDef ν) (order : List String) :
    Option (List Word) :=
  (fillFns tp (pointerWord tpOf equal c tp) order tp.alloc).map fun st => st.set 0 (.obj addr)

/-- `implicitCast` of an interface value. -/
def castInterf (val tp : Interf ν) (v : List Word) (order : List String) : Option (List Word) :=
  if val.id = tp.id then some v
  else
    (fillFns tp.body (interfWord tpOf equal val.body tp.body v) order tp.body.alloc).map
      fun st => st.set 0 (v.getD 0 .unset)

/-- A cast in a chain: its target, and the order in which it meets the target's methods. -/
structure Link (defs : String → InterfaceDef ν) where
  target : InterfaceType ν
  order : List String
  perm : order.Perm (target.interf defs).body.orderedIDS.dedup

variable {defs : String → InterfaceDef ν}

/-- The type a link casts to. -/
def Link.tp (l : Link defs) : Interf ν := l.target.interf defs

/-- The casts of an interface value to one type after the other, each value with its type. -/
def castInterfs : Interf ν → List Word → List (Link defs) → Option (List (Interf ν × List Word))
  | _, _, [] => some []
  | val, v, l :: ls =>
    match castInterf tpOf equal val l.tp v l.order with
    | some v' => (castInterfs l.tp v' ls).map fun vs => (l.tp, v') :: vs
    | none => none

/-- A chain of casts from a pointer to a struct. -/
def castChain (c : Methods τ) (addr : ℕ) (l : Link defs) (ls : List (Link defs)) :
    Option (List (Interf ν × List Word)) :=
  match castPointer tpOf equal c addr l.tp.body l.order with
  | some v => (castInterfs tpOf equal l.tp v ls).map fun vs => (l.tp, v) :: vs
  | none => none

end Casts

/-! ## What a value must hold -/

/-- The value has the object's address in slot 0 and each method in its slot. -/
def Holds (addr : ℕ) (d : InterfaceDef ν) (v : List Word) : Prop :=
  v.getD 0 .unset = .obj addr ∧ ∀ m j, d.slot m = some j → v.getD j .unset = .fn m

/-- Each method of `d` has in `base` the slot it has in `d`. -/
def InterfaceDef.Within (d base : InterfaceDef ν) : Prop :=
  ∀ m j, d.slot m = some j → base.slot m = some j

/-- No anonymous type moves a method from the slot it had in the first type of its run of
anonymous types; `base` is that type. -/
def Aligned (base : Interf ν) : List (Interf ν) → Prop
  | [] => True
  | tp :: tps =>
    if base.id = "" ∧ tp.id = "" then tp.body.Within base.body ∧ Aligned base tps
    else Aligned tp tps

/-! ## Slots -/

theorem slots_getElem {ids : List String} {i j : ℕ} {k : String} (h : slots ids i k = some j) :
    i ≤ j ∧ ids[j - i]? = some k := by
  induction ids generalizing i with
  | nil => cases h
  | cons id ids ih =>
    unfold slots at h
    split at h
    next j' hj =>
      obtain rfl : j' = j := Option.some.inj h
      obtain ⟨hle, hget⟩ := ih hj
      refine ⟨by omega, ?_⟩
      rw [show j' - i = (j' - (i + 1)) + 1 by omega, List.getElem?_cons_succ]
      exact hget
    next =>
      by_cases hk : k = id
      · rw [if_pos hk] at h
        obtain rfl : i = j := Option.some.inj h
        simp [hk]
      · rw [if_neg hk] at h
        cases h

theorem slots_isSome {ids : List String} {k : String} (h : k ∈ ids) (i : ℕ) :
    ∃ j, slots ids i k = some j := by
  induction ids generalizing i with
  | nil => cases h
  | cons id ids ih =>
    unfold slots
    by_cases hk : k ∈ ids
    · obtain ⟨j, hj⟩ := ih hk (i + 1)
      exact ⟨j, by rw [hj]⟩
    · obtain rfl : k = id := (List.mem_cons.1 h).resolve_right hk
      cases slots ids (i + 1) k with
      | some j => exact ⟨j, rfl⟩
      | none => exact ⟨i, if_pos rfl⟩

namespace InterfaceDef

variable {d : InterfaceDef ν} {k k' : String} {j : ℕ}

theorem slot_pos (h : d.slot k = some j) : 0 < j := (slots_getElem h).1

theorem slot_lt (h : d.slot k = some j) : j < d.alloc.length := by
  obtain ⟨hpos, hget⟩ := slots_getElem h
  have := (List.getElem?_eq_some_iff.1 hget).1
  simp only [alloc, List.length_replicate]
  omega

theorem mem_of_slot (h : d.slot k = some j) : k ∈ d.orderedIDS :=
  List.mem_of_getElem? (slots_getElem h).2

/-- Two methods never share a slot. -/
theorem slot_inj (h : d.slot k = some j) (h' : d.slot k' = some j) : k = k' :=
  Option.some.inj ((slots_getElem h).2.symm.trans (slots_getElem h').2)

theorem alloc_getD (j : ℕ) : d.alloc.getD j .unset = .unset := by
  unfold alloc
  by_cases h : j < d.orderedIDS.length + 1
  · simp [h]
  · rw [List.getD_eq_getElem?_getD, List.getElem?_eq_none (by simpa using h)]
    rfl

end InterfaceDef

/-! ## One cast -/

/-- A value as a cast makes it for `d`: the functions are in their slots and nowhere else. -/
structure Row (addr : ℕ) (d : InterfaceDef ν) (v : List Word) : Prop where
  self : v.getD 0 .unset = .obj addr
  fn_iff : ∀ m j, v.getD j .unset = .fn m ↔ d.slot m = some j

theorem Row.holds {addr : ℕ} {d : InterfaceDef ν} {v : List Word} (hv : Row addr d v) :
    Holds addr d v :=
  ⟨hv.self, fun m j => (hv.fn_iff m j).2⟩

/-- A value made for `base` is right for `d` if and only if `d` moves no method. -/
theorem Row.holds_iff {addr : ℕ} {base d : InterfaceDef ν} {v : List Word}
    (hv : Row addr base v) : Holds addr d v ↔ d.Within base := by
  unfold Holds InterfaceDef.Within
  constructor
  · intro h m j hj
    exact (hv.fn_iff m j).1 (h.2 m j hj)
  · intro h
    exact ⟨hv.self, fun m j hj => (hv.fn_iff m j).2 (h m j hj)⟩

theorem getD_set {st : List Word} {i : ℕ} (w : Word) (h : i < st.length) (j : ℕ) :
    (st.set i w).getD j .unset = if i = j then w else st.getD j .unset := by
  by_cases hj : i = j
  · subst hj
    simp [h]
  · simp [hj]

/-- The loop puts the word of each method it meets in the method's slot, and changes nothing else. -/
theorem fillFns_spec {tp : InterfaceDef ν} {word : String → Option Word} {ks : List String}
    {st st' : List Word} (hlen : st.length = tp.alloc.length)
    (h : fillFns tp word ks st = some st') :
    st'.length = tp.alloc.length ∧
    (∀ k ∈ ks, ∃ i w, tp.slot k = some i ∧ word k = some w) ∧
    ∀ j, (∃ k ∈ ks, tp.slot k = some j ∧ word k = some (st'.getD j .unset)) ∨
      (∀ k ∈ ks, tp.slot k ≠ some j) ∧ st'.getD j .unset = st.getD j .unset := by
  induction ks generalizing st with
  | nil =>
    obtain rfl : st = st' := Option.some.inj h
    exact ⟨hlen, by simp, by simp⟩
  | cons k ks ih =>
    unfold fillFns at h
    split at h
    next i w hi hw =>
      have hlt : i < st.length := hlen ▸ InterfaceDef.slot_lt hi
      obtain ⟨hlen', hall, hword⟩ := ih (by simpa using hlen) h
      refine ⟨hlen', ?_, fun j => ?_⟩
      · intro k' hk'
        rcases List.mem_cons.1 hk' with rfl | hk'
        · exact ⟨i, w, hi, hw⟩
        · exact hall k' hk'
      · rcases hword j with ⟨k', hk', hj⟩ | ⟨hnone, hj⟩
        · exact .inl ⟨k', List.mem_cons_of_mem _ hk', hj⟩
        · rw [getD_set w hlt] at hj
          by_cases hij : i = j
          · rw [if_pos hij] at hj
            exact .inl ⟨k, List.mem_cons_self, hij ▸ hi, hj ▸ hw⟩
          · rw [if_neg hij] at hj
            refine .inr ⟨fun k' hk' => ?_, hj⟩
            rcases List.mem_cons.1 hk' with rfl | hk'
            · rw [hi]
              exact fun he => hij (Option.some.inj he)
            · exact hnone k' hk'
    next => cases h

/-- What both casts come to: a loop over all methods, each with its own function, and the address. -/
theorem row_of_fillFns {tp : InterfaceDef ν} {word : String → Option Word} {ks : List String}
    {st : List Word} {addr : ℕ} (hks : ∀ k ∈ tp.orderedIDS, k ∈ ks)
    (hword : ∀ k w, word k = some w → w = .fn k)
    (h : fillFns tp word ks tp.alloc = some st) : Row addr tp (st.set 0 (.obj addr)) := by
  obtain ⟨hlen, -, hst⟩ := fillFns_spec rfl h
  have hpos : 0 < st.length := by
    rw [hlen]
    simp [InterfaceDef.alloc]
  refine ⟨by rw [getD_set _ hpos, if_pos rfl], fun m j => ?_⟩
  rw [getD_set _ hpos]
  by_cases hj : 0 = j
  · rw [if_pos hj]
    refine ⟨fun he => Word.noConfusion he, fun he => ?_⟩
    have := InterfaceDef.slot_pos he
    omega
  · rw [if_neg hj]
    rcases hst j with ⟨k, -, hslot, hw⟩ | ⟨hnone, hunset⟩
    · rw [hword k _ hw]
      constructor
      · intro he
        exact Word.fn.inj he ▸ hslot
      · intro he
        rw [InterfaceDef.slot_inj hslot he]
    · rw [hunset, InterfaceDef.alloc_getD]
      refine ⟨fun he => Word.noConfusion he, fun he => ?_⟩
      exact absurd he (hnone m (hks m (InterfaceDef.mem_of_slot he)))

section Chain

variable {tpOf : ν → Option τ} {equal : τ → τ → Bool} {defs : String → InterfaceDef ν}

theorem Link.mem_order (l : Link defs) (k : String) (hk : k ∈ l.tp.body.orderedIDS) :
    k ∈ l.order :=
  l.perm.mem_iff.2 (List.mem_dedup.2 hk)

theorem castPointer_row {c : Methods τ} {addr : ℕ} {l : Link defs} {v : List Word}
    (h : castPointer tpOf equal c addr l.tp.body l.order = some v) : Row addr l.tp.body v := by
  obtain ⟨st, hst, rfl⟩ := Option.map_eq_some_iff.1 h
  refine row_of_fillFns l.mem_order (fun k w hw => ?_) hst
  unfold pointerWord at hw
  split at hw
  · split at hw
    · exact (Option.some.inj hw).symm
    · cases hw
  · cases hw

theorem castInterf_row {val : Interf ν} {l : Link defs} {addr : ℕ} {v v' : List Word}
    (hv : Holds addr val.body v) (hid : val.id ≠ l.tp.id)
    (h : castInterf tpOf equal val l.tp v l.order = some v') : Row addr l.tp.body v' := by
  unfold castInterf at h
  rw [if_neg hid] at h
  obtain ⟨st, hst, rfl⟩ := Option.map_eq_some_iff.1 h
  rw [hv.1]
  refine row_of_fillFns l.mem_order (fun k w hw => ?_) hst
  unfold interfWord at hw
  split at hw
  next i hi =>
    split at hw
    · exact (Option.some.inj hw).symm.trans (hv.2 k i hi)
    · cases hw
  next => cases hw

/-- Declared types of one `id` are one type. -/
theorem Link.tp_eq {l l' : Link defs} (h : l.tp.id = l'.tp.id) (hid : l.tp.id ≠ "") :
    l.tp = l'.tp := by
  unfold Link.tp at *
  cases hl : l.target with
  | anonymous d =>
    rw [hl] at hid
    exact absurd rfl hid
  | declared id _ =>
    cases hl' : l'.target with
    | anonymous d' =>
      rw [hl'] at h
      exact absurd h hid
    | declared id' _ =>
      rw [hl, hl'] at h
      obtain rfl : id = id' := h
      rfl

/-- The casts after a value of the type `val` that was made for `base`. -/
theorem castInterfs_iff {base val : Link defs} {addr : ℕ} {v : List Word} {ls : List (Link defs)}
    {vs : List (Interf ν × List Word)} (hid : base.tp.id = val.tp.id)
    (hv : Row addr base.tp.body v) (hval : Holds addr val.tp.body v)
    (h : castInterfs tpOf equal val.tp v ls = some vs) :
    (∀ p ∈ vs, Holds addr p.1.body p.2) ↔ Aligned base.tp (ls.map Link.tp) := by
  induction ls generalizing base val v vs with
  | nil =>
    obtain rfl : [] = vs := Option.some.inj h
    simp [Aligned]
  | cons l ls ih =>
    unfold castInterfs at h
    split at h
    next v' hv' =>
      obtain ⟨vs, hvs, rfl⟩ := Option.map_eq_some_iff.1 h
      simp only [List.forall_mem_cons, List.map_cons, Aligned]
      by_cases heq : base.tp.id = l.tp.id
      · -- the cast does nothing: the value is still the one made for `base`
        have hskip : castInterf tpOf equal val.tp l.tp v l.order = some v :=
          if_pos (hid.symm.trans heq)
        obtain rfl : v = v' := Option.some.inj (hskip.symm.trans hv')
        by_cases hanon : base.tp.id = ""
        · rw [if_pos ⟨hanon, heq ▸ hanon⟩, hv.holds_iff]
          refine and_congr_right fun hin => ?_
          exact ih heq hv (hv.holds_iff.2 hin) hvs
        · rw [if_neg (fun he => hanon he.1)]
          have hrow : Row addr l.tp.body v := Link.tp_eq heq hanon ▸ hv
          rw [and_iff_right hrow.holds]
          exact ih rfl hrow hrow.holds hvs
      · rw [if_neg (fun he => heq (he.1.trans he.2.symm))]
        have hrow := castInterf_row hval (fun he => heq (hid.trans he)) hv'
        rw [and_iff_right hrow.holds]
        exact ih rfl hrow hrow.holds hvs
    next => cases h

end Chain

/-! ## A chain that moves the methods -/

section Swap

/-- Methods without parameters; type expressions are types. -/
def plain (orderedIDS : List String) : InterfaceDef Unit := ⟨orderedIDS, fun _ => ⟨[], ()⟩⟩

/-- `type I interface { b() }` -/
def declared (_ : String) : InterfaceDef Unit := plain ["b"]

def linkTo (target : InterfaceType Unit) : Link declared :=
  ⟨target, (target.interf declared).body.orderedIDS.dedup, .refl _⟩

/-- A struct with the methods `a` and `b`. -/
def twoMethods : Methods Unit
  | "a" | "b" => some ⟨[], ()⟩
  | _ => none

end Swap

end CalcLang.Types
