import CalcLang.Lib.Resolve
import Mathlib.Data.Fin.Tuple.Basic

/-!
# Calls of async functions through values

`CallFuncNode.calc` queues what a call returns if the function is `async`. An inline function has no
name to ask for: `InlineFuncNode.calc` puts the type of an async one, a pointer that it makes with
`types.NewPointer`, into `asyncInlineFunc`, and the call looks the type of the function that it has loaded
up there. Both are keys of a Go map with an interface type, so what counts is which pointer it is, and
not what it looks like.

A place on the stack, or in a generator's frame, has for its elements the very type that it was allocated
with. `gcmalloc` calls an instance of `heapalloc`, and there is one instance for each text of a type: every
place on the heap has the type of the first one with that signature. So what is called through such a
place is queued if whatever was first put on the heap was `async` (`calls_iff`).

A program is what its compilation does with values of function types, in the order in which it does so,
and without the rest. Which inline function a call reaches when it is run is not looked at: a call stands
with any.
-/

namespace CalcLang.Ast.AsyncCalls

open CalcLang.Lib

variable {σ : Type} {n : Nat}

/-! ## Types and the table of async functions -/

/-- A pointer to a function type: the text of its signature, and which of the pointers made it is. -/
structure FnPtr (σ : Type) where
  sig : σ
  id : Nat

/-- What the compiler keeps. `heapalloc` are the instances of that function, by the text of the type
argument, with the elements of their result. -/
structure Compiler (σ : Type) where
  made : Nat
  asyncInlineFunc : List Nat
  heapalloc : σ → Option (FnPtr σ)

def Compiler.start : Compiler σ := ⟨0, [], fun _ => none⟩

/-- `types.NewPointer`, of a function type. It is what `FuncTypeNode.calc` returns. -/
def Compiler.newPointer (c : Compiler σ) (sig : σ) : FnPtr σ × Compiler σ :=
  (⟨sig, c.made⟩, { c with made := c.made + 1 })

/-- `InlineFuncNode.calc`: of the type of `Fntype` it takes the function type, and makes a pointer
of its own. -/
def Compiler.inlineFunc (c : Compiler σ) (sig : σ) (async : Bool) : FnPtr σ × Compiler σ :=
  let r := (c.newPointer sig).2.newPointer sig
  (r.1, if async then { r.2 with asyncInlineFunc := r.1.id :: r.2.asyncInlineFunc } else r.2)

/-- `gcmalloc`: the type of the elements of the place. -/
def Compiler.gcmalloc [DecidableEq σ] (c : Compiler σ) (gtp : FnPtr σ) : FnPtr σ × Compiler σ :=
  match c.heapalloc gtp.sig with
  | some elem => (elem, c)
  | none => (gtp, { c with heapalloc := addOnce c.heapalloc gtp.sig gtp })

/-- Whether `CallFuncNode.calc` queues the result of a function of this type. -/
def Compiler.queues (c : Compiler σ) (fn : FnPtr σ) : Bool := c.asyncInlineFunc.contains fn.id

/-! ## Programs -/

/-- What has a function type, where `n` places have been made: the value of an inline function, what a type
expression stands for (of a parameter, a result, a variable without a value), and what is loaded
from a place. -/
inductive Source (σ : Type) (n : Nat) where
  | inlineFunc (sig : σ) (async : Bool)
  | funcType (sig : σ)
  | place (p : Fin n)

/-- What is compiled where `n` places have been made. A source has no place of its own (it is assigned,
passed, returned), or a new place is allocated for it: a variable, a parameter, the result of a call. A
captured variable is the place itself. `async` is how the inline function that a call reaches is written. -/
inductive Prog (σ : Type) : Nat → Type where
  | done {n : Nat} : Prog σ n
  | value {n : Nat} (src : Source σ n) (rest : Prog σ n) : Prog σ n
  | alloc {n : Nat} (onHeap : Bool) (src : Source σ n) (rest : Prog σ (n + 1)) : Prog σ n
  | call {n : Nat} (fn : Fin n) (async : Bool) (rest : Prog σ n) : Prog σ n

/-- The type at hand, and what the compiler keeps afterwards. `places` are the types of the elements. -/
def Source.calc (c : Compiler σ) (places : Fin n → FnPtr σ) : Source σ n → FnPtr σ × Compiler σ
  | .inlineFunc sig async => c.inlineFunc sig async
  | .funcType sig => c.newPointer sig
  | .place p => (places p, c)

/-- A call: how the function is written, and whether its result is queued. -/
structure Call where
  async : Bool
  queued : Bool

/-- The calls as they are compiled. The newest place is the first. -/
def Prog.compile [DecidableEq σ] {n : Nat} :
    Prog σ n → Compiler σ → (Fin n → FnPtr σ) → List Call
  | .done, _, _ => []
  | .value src rest, c, places => rest.compile (src.calc c places).2 places
  | .alloc onHeap src rest, c, places =>
    let r := src.calc c places
    let a := if onHeap then r.2.gcmalloc r.1 else r
    rest.compile a.2 (Fin.cons a.1 places)
  | .call fn async rest, c, places => ⟨async, c.queues (places fn)⟩ :: rest.compile c places

/-! ## What a place was made for -/

/-- A function type as it stands in the program: its signature, and whether it is that of an async inline
function. -/
structure Written (σ : Type) where
  sig : σ
  async : Bool

def Source.written (places : Fin n → Written σ) : Source σ n → Written σ
  | .inlineFunc sig async => ⟨sig, async⟩
  | .funcType sig => ⟨sig, false⟩
  | .place p => places p

variable [DecidableEq σ]

/-- The first with the signature of `w` that went to the heap, and `w` if there was none. -/
def firstOnHeap (heap : List (Written σ)) (w : Written σ) : Written σ :=
  (first Written.sig heap w.sig).getD w

/-- At every call, the place that the function is called through was made for an async inline function just if
the function called is one. On the heap, all places of a signature count as made for what was the first of
them. `heap` is what has gone to the heap so far. -/
def Prog.Agrees {n : Nat} : Prog σ n → List (Written σ) → (Fin n → Written σ) → Prop
  | .done, _, _ => True
  | .value _ rest, heap, places => rest.Agrees heap places
  | .alloc true src rest, heap, places =>
    let w := src.written places
    rest.Agrees (heap ++ [w]) (Fin.cons (firstOnHeap heap w) places)
  | .alloc false src rest, heap, places => rest.Agrees heap (Fin.cons (src.written places) places)
  | .call fn async rest, heap, places => (places fn).async = async ∧ rest.Agrees heap places

/-! ## The pointers stand for what was written -/

/-- A pointer that has been made stands for a function type as it is written. -/
structure Compiler.Means (c : Compiler σ) (o : FnPtr σ) (w : Written σ) : Prop where
  sig : o.sig = w.sig
  made : o.id < c.made
  queues : c.queues o = w.async

/-- The places and the instances of `heapalloc` stand for what is written, and only pointers that have been made
are async. -/
structure Inv (c : Compiler σ) (places : Fin n → FnPtr σ) (heap : List (Written σ))
    (written : Fin n → Written σ) : Prop where
  async : ∀ i ∈ c.asyncInlineFunc, i < c.made
  places : ∀ p, c.Means (places p) (written p)
  heap : ∀ sig, Option.Rel c.Means (c.heapalloc sig) (first Written.sig heap sig)

/-- A step of the compiler that leaves the pointers as they are that have been made before. -/
structure Compiler.Extends (c c' : Compiler σ) : Prop where
  made : c.made ≤ c'.made
  queues : ∀ o : FnPtr σ, o.id < c.made → c'.queues o = c.queues o
  async : ∀ i ∈ c'.asyncInlineFunc, i ∈ c.asyncInlineFunc ∨ i < c'.made

omit [DecidableEq σ] in
theorem Compiler.Means.extends {c c' : Compiler σ} (h : c.Extends c') {o : FnPtr σ} {w : Written σ}
    (ho : c.Means o w) : c'.Means o w where
  sig := ho.sig
  made := Nat.lt_of_lt_of_le ho.made h.made
  queues := (h.queues o ho.made).trans ho.queues

theorem rel_mono {α β : Type} {r r' : α → β → Prop} (h : ∀ a b, r a b → r' a b) {x : Option α} {y : Option β}
    (hr : Option.Rel r x y) : Option.Rel r' x y := by
  cases hr with
  | some hab => exact .some (h _ _ hab)
  | none => exact .none

theorem Inv.extends {c c' : Compiler σ} (h : c.Extends c') (hh : c'.heapalloc = c.heapalloc) {places : Fin n → FnPtr σ}
    {heap : List (Written σ)} {written : Fin n → Written σ} (hi : Inv c places heap written) :
    Inv c' places heap written where
  async i hmem := (h.async i hmem).elim (fun hold => Nat.lt_of_lt_of_le (hi.async i hold) h.made) id
  places p := (hi.places p).extends h
  heap sig := by
    rw [hh]
    exact rel_mono (fun _ _ ho => ho.extends h) (hi.heap sig)

omit [DecidableEq σ] in
theorem newPointer_extends (c : Compiler σ) (sig : σ) : c.Extends (c.newPointer sig).2 where
  made := Nat.le_succ _
  queues _ _ := rfl
  async _ hmem := .inl hmem

omit [DecidableEq σ] in
theorem inlineFunc_extends (c : Compiler σ) (sig : σ) (async : Bool) :
    c.Extends (c.inlineFunc sig async).2 := by
  cases async with
  | false => exact ⟨Nat.le_add_right _ 2, fun _ _ => rfl, fun _ hmem => .inl hmem⟩
  | true =>
    refine ⟨Nat.le_add_right _ 2, fun o ho => ?_, fun i hmem => ?_⟩
    · have hne : (o.id == c.made + 1) = false := by
        rw [beq_eq_false_iff_ne]
        omega
      show (o.id == c.made + 1 || c.asyncInlineFunc.contains o.id) = c.queues o
      rw [hne]
      rfl
    · obtain rfl | hold := List.mem_cons.mp hmem
      · exact .inr (Nat.lt_succ_self _)
      · exact .inl hold

variable {c : Compiler σ} {places : Fin n → FnPtr σ} {heap : List (Written σ)} {written : Fin n → Written σ}

/-- A pointer that has not been made yet is not async. -/
theorem Inv.not_async (hi : Inv c places heap written) {i : Nat} (h : c.made ≤ i) :
    c.asyncInlineFunc.contains i = false := by
  rw [List.contains_eq_mem, decide_eq_false_iff_not]
  intro hmem
  have := hi.async i hmem
  omega

/-- The type at hand stands for what is written there, and the rest stays as it was. -/
theorem Inv.calc (hi : Inv c places heap written) (src : Source σ n) :
    (src.calc c places).2.Means (src.calc c places).1 (src.written written) ∧
      Inv (src.calc c places).2 places heap written := by
  cases src with
  | inlineFunc sig async =>
    have hh : (c.inlineFunc sig async).2.heapalloc = c.heapalloc := by cases async <;> rfl
    refine ⟨⟨rfl, ?_, ?_⟩, hi.extends (inlineFunc_extends c sig async) hh⟩
    · show c.made + 1 < (c.inlineFunc sig async).2.made
      cases async <;> exact Nat.lt_succ_self _
    · show (c.inlineFunc sig async).2.asyncInlineFunc.contains (c.made + 1) = async
      cases async with
      | false => exact hi.not_async (Nat.le_succ _)
      | true => exact List.contains_iff_mem.mpr List.mem_cons_self
  | funcType sig =>
    exact ⟨⟨rfl, Nat.lt_succ_self _, hi.not_async (Nat.le_refl _)⟩, hi.extends (newPointer_extends c sig) rfl⟩
  | place p => exact ⟨hi.places p, hi⟩

/-- One more place. -/
theorem Inv.cons (hi : Inv c places heap written) {o : FnPtr σ} {w : Written σ} (ho : c.Means o w) :
    Inv c (Fin.cons o places) heap (Fin.cons w written) where
  async := hi.async
  places p := by
    refine Fin.cases ?_ (fun p => ?_) p
    · exact ho
    · exact hi.places p
  heap := hi.heap

/-- What is put on the heap has the type of the first there. -/
theorem Inv.gcmalloc (hi : Inv c places heap written) {o : FnPtr σ} {w : Written σ} (ho : c.Means o w) :
    (c.gcmalloc o).2.Means (c.gcmalloc o).1 (firstOnHeap heap w) ∧
      Inv (c.gcmalloc o).2 places (heap ++ [w]) written := by
  have hfirst : ∀ sig, first Written.sig (heap ++ [w]) sig =
      (first Written.sig heap sig).or (if w.sig = sig then some w else none) := by
    intro sig
    rw [← addOnce_first, addOnce]
  have hrel := hi.heap o.sig
  cases hc : c.heapalloc o.sig with
  | some elem =>
    -- one of that signature has been there, and stands for this one too
    have hg : c.gcmalloc o = (elem, c) := by rw [Compiler.gcmalloc, hc]
    rw [hg]
    rw [hc, ho.sig] at hrel
    obtain ⟨v, hv, hm⟩ : ∃ v, first Written.sig heap w.sig = some v ∧ c.Means elem v := by
      generalize first Written.sig heap w.sig = x at hrel
      cases hrel with
      | some hm => exact ⟨_, rfl, hm⟩
    refine ⟨?_, ⟨hi.async, hi.places, fun sig => ?_⟩⟩
    · show c.Means elem ((first Written.sig heap w.sig).getD w)
      rw [hv]
      exact hm
    · rw [hfirst]
      by_cases hs : w.sig = sig
      · subst hs
        have := hi.heap w.sig
        rwa [hv] at this ⊢
      · rw [if_neg hs, Option.or_none]
        exact hi.heap sig
  | none =>
    -- it is the first of its signature
    have hg : c.gcmalloc o = (o, { c with heapalloc := addOnce c.heapalloc o.sig o }) := by
      rw [Compiler.gcmalloc, hc]
    rw [hg]
    rw [hc, ho.sig] at hrel
    have hnone : first Written.sig heap w.sig = none := by
      generalize first Written.sig heap w.sig = x at hrel
      cases hrel
      rfl
    have hext : c.Extends { c with heapalloc := addOnce c.heapalloc o.sig o } :=
      ⟨Nat.le_refl _, fun _ _ => rfl, fun _ hmem => .inl hmem⟩
    refine ⟨?_, ⟨hi.async, fun p => (hi.places p).extends hext, fun sig => ?_⟩⟩
    · show Compiler.Means _ o ((first Written.sig heap w.sig).getD w)
      rw [hnone]
      exact ho.extends hext
    · show Option.Rel _ ((c.heapalloc sig).or (if o.sig = sig then some o else none)) _
      rw [hfirst]
      by_cases hs : o.sig = sig
      · subst hs
        have hw : first Written.sig heap o.sig = none := by rw [ho.sig, hnone]
        rw [hc, hw, if_pos rfl, if_pos ho.sig.symm]
        exact .some (ho.extends hext)
      · have hs' : w.sig ≠ sig := ho.sig ▸ hs
        rw [if_neg hs, if_neg hs', Option.or_none, Option.or_none]
        exact rel_mono (fun _ _ hm => hm.extends hext) (hi.heap sig)

/-! ## Whole programs -/

theorem compile_iff {n : Nat} (prog : Prog σ n) : ∀ {c : Compiler σ} {places : Fin n → FnPtr σ}
    {heap : List (Written σ)} {written : Fin n → Written σ}, Inv c places heap written →
    ((∀ k ∈ prog.compile c places, k.queued = k.async) ↔ prog.Agrees heap written) := by
  induction prog with
  | done => exact fun _ => by simp [Prog.compile, Prog.Agrees]
  | value src rest ih => exact fun hi => ih (hi.calc src).2
  | alloc onHeap src rest ih =>
    intro c places heap written hi
    have hsrc := hi.calc src
    cases onHeap with
    | false => exact ih (hsrc.2.cons hsrc.1)
    | true =>
      have hheap := hsrc.2.gcmalloc hsrc.1
      exact ih (hheap.2.cons hheap.1)
  | call fn async rest ih =>
    intro c places heap written hi
    show (∀ k ∈ Call.mk async (c.queues (places fn)) :: rest.compile c places, _) ↔
      (written fn).async = async ∧ rest.Agrees heap written
    rw [List.forall_mem_cons, ih hi, (hi.places fn).queues]

theorem start_inv (places : Fin 0 → FnPtr σ) (written : Fin 0 → Written σ) : Inv .start places [] written where
  async _ hmem := nomatch hmem
  places p := p.elim0
  heap _ := .none

/-- A function with a parameter of a function type, which it calls, is given an async inline function. -/
def calledParameter : Prog Unit 0 :=
  .alloc true (.funcType ()) <| .value (.inlineFunc () true) <| .call 0 true .done

end CalcLang.Ast.AsyncCalls
