import Mathlib.Logic.Function.Basic
import Mathlib.Data.List.Nodup

/-!
# Chains of links

A linked structure seen through one of its link fields at a time: `link n` is
where node `n` points, `none` is nil. `Linked link p ns` says that following the
field from `p` visits exactly `ns`, in this order, and ends.

Everything about one field comes from one rule, `Linked.redirect`: pointing a
node of the chain somewhere else keeps the chain up to that node and goes on
there. A doubly linked list is two chains over the same nodes, one the reverse
of the other (`TwoWay`); it is symmetric in its two fields, so each of its
rules is proved at one end and turned round for the other.
-/

namespace CalcLang.Lib

variable {ν : Type*} {link next prev : ν → Option ν} {p q first tail : Option ν}
  {as bs ns ms : List ν} {a n : ν}

/-- Following `link` from `p` visits `ns` in this order, and then ends. -/
def Linked (link : ν → Option ν) : Option ν → List ν → Prop
  | p, [] => p = none
  | p, n :: ns => p = some n ∧ Linked link (link n) ns

/-- Follow `link` from `p` for `k` nodes; `none` where it has ended before. -/
def follow (link : ν → Option ν) : Nat → Option ν → Option ν
  | 0, p => p
  | k + 1, p => p.bind fun n => follow link k (link n)

@[simp] theorem linked_nil : Linked link p ([] : List ν) ↔ p = none := Iff.rfl

@[simp] theorem linked_cons :
    Linked link p (n :: ns) ↔ p = some n ∧ Linked link (link n) ns := Iff.rfl

namespace Linked

/-- A chain starts at nil exactly when it visits nothing. -/
theorem start_eq_none (h : Linked link p ns) : p = none ↔ ns = [] := by
  cases ns with
  | nil => exact ⟨fun _ => rfl, fun _ => h⟩
  | cons n ns =>
    rw [h.1]
    exact ⟨fun hn => absurd hn (Option.some_ne_none n), fun hn => absurd hn (List.cons_ne_nil n ns)⟩

/-- What a chain visits is determined by where it starts. -/
theorem unique (h : Linked link p ns) (h' : Linked link p ms) : ns = ms := by
  induction ns generalizing p ms with
  | nil =>
    rw [linked_nil] at h
    exact ((h'.start_eq_none).mp h).symm
  | cons n ns ih =>
    cases ms with
    | nil => exact absurd (h.1.symm.trans h') (Option.some_ne_none n)
    | cons m ms =>
      obtain rfl : n = m := Option.some.inj (h.1.symm.trans h'.1)
      rw [ih h.2 h'.2]

/-- Only the links of the nodes visited matter. -/
theorem congr {link' : ν → Option ν} (h : Linked link p ns)
    (hl : ∀ n ∈ ns, link' n = link n) : Linked link' p ns := by
  induction ns generalizing p with
  | nil => exact h
  | cons n ns ih =>
    refine ⟨h.1, ?_⟩
    rw [hl n (List.mem_cons_self)]
    exact ih h.2 fun m hm => hl m (List.mem_cons_of_mem n hm)

/-- The part of a chain behind one of its nodes. -/
theorem behind (h : Linked link p (as ++ n :: bs)) : Linked link (link n) bs := by
  induction as generalizing p with
  | nil => exact h.2
  | cons a as ih => exact ih h.2

/-- A chain never comes back to a node: it would go on for ever. -/
theorem nodup (h : Linked link p ns) : ns.Nodup := by
  induction ns generalizing p with
  | nil => exact List.nodup_nil
  | cons n ns ih =>
    refine List.nodup_cons.mpr ⟨?_, ih h.2⟩
    intro hn
    obtain ⟨as, bs, rfl⟩ := List.append_of_mem hn
    -- the chain behind `n` is the same at both places, but longer at the first
    have hlen := congrArg List.length (h.2.unique (h.2.behind))
    simp only [List.length_append, List.length_cons] at hlen
    omega

/-- **Pointing one node elsewhere** keeps the chain up to that node, and goes on
from the new place. -/
theorem redirect [DecidableEq ν] (h : Linked link p (as ++ a :: bs)) (hq : Linked link q ns)
    (ha : a ∉ ns) : Linked (Function.update link a q) p (as ++ a :: ns) := by
  have hnodup := h.nodup
  induction as generalizing p with
  | nil =>
    refine ⟨h.1, ?_⟩
    rw [Function.update_self]
    refine hq.congr fun m hm => ?_
    apply Function.update_of_ne
    intro hma
    exact ha (hma ▸ hm)
  | cons b as ih =>
    refine ⟨h.1, ?_⟩
    rw [List.cons_append, List.nodup_cons] at hnodup
    have hba : b ≠ a := by
      intro hba
      exact hnodup.1 (hba ▸ List.mem_append_right as List.mem_cons_self)
    rw [Function.update_of_ne hba]
    exact ih h.2 hnodup.2

/-- Following a chain for `k` nodes arrives at its node `k`. -/
theorem follow_eq (h : Linked link p ns) (k : Nat) : follow link k p = ns[k]? := by
  induction k generalizing p ns with
  | zero =>
    cases ns with
    | nil => exact h
    | cons n ns => exact h.1
  | succ k ih =>
    cases ns with
    | nil =>
      rw [linked_nil] at h
      rw [h]
      rfl
    | cons n ns =>
      rw [h.1, List.getElem?_cons_succ]
      exact ih h.2

end Linked

/-- A doubly linked list: `next` from `first` visits `ns`, and `prev` from
`tail` visits them backwards. -/
structure TwoWay (next prev : ν → Option ν) (first tail : Option ν) (ns : List ν) : Prop where
  forward : Linked next first ns
  backward : Linked prev tail ns.reverse

namespace TwoWay

theorem empty : TwoWay next prev none none [] := ⟨rfl, rfl⟩

theorem nodup (h : TwoWay next prev first tail ns) : ns.Nodup := h.forward.nodup

/-- Read from its other end, a list is the reverse. -/
theorem turn (h : TwoWay next prev first tail ns) : TwoWay prev next tail first ns.reverse :=
  ⟨h.backward, by rw [List.reverse_reverse]; exact h.forward⟩

theorem turn_iff : TwoWay prev next tail first ns.reverse ↔ TwoWay next prev first tail ns := by
  refine ⟨fun h => ?_, turn⟩
  have h' := h.turn
  rwa [List.reverse_reverse] at h'

theorem first_eq_none (h : TwoWay next prev first tail ns) : first = none ↔ ns = [] :=
  h.forward.start_eq_none

theorem tail_eq_none (h : TwoWay next prev first tail ns) : tail = none ↔ ns = [] := by
  rw [h.backward.start_eq_none, List.reverse_eq_nil_iff]

theorem first_mem (h : TwoWay next prev (some a) tail ns) : a ∈ ns := by
  have hf := h.forward
  cases ns with
  | nil => exact absurd hf (Option.some_ne_none a)
  | cons n ns =>
    rw [Option.some.inj hf.1]
    exact List.mem_cons_self

theorem tail_mem (h : TwoWay next prev first (some a) ns) : a ∈ ns :=
  List.mem_reverse.mp h.turn.first_mem

/-- The list of one node that points nowhere. -/
theorem single (hn : next n = none) (hp : prev n = none) :
    TwoWay next prev (some n) (some n) [n] :=
  ⟨⟨rfl, hn⟩, ⟨rfl, hp⟩⟩

/-- The node after a node of the list. -/
theorem next_eq (h : TwoWay next prev first tail (as ++ n :: bs)) : next n = bs.head? := by
  have hb := h.forward.behind
  cases bs with
  | nil => exact hb
  | cons b bs => exact hb.1

/-- The node before a node of the list. -/
theorem prev_eq (h : TwoWay next prev first tail (as ++ n :: bs)) : prev n = as.getLast? := by
  have ht : TwoWay prev next tail first (bs.reverse ++ n :: as.reverse) := by
    have h' := h.turn
    rwa [List.reverse_append, List.reverse_cons, List.append_assoc] at h'
  rw [ht.next_eq, List.head?_reverse]

section Change

variable [DecidableEq ν]

/-- A node that points nowhere joins the list behind its last node. -/
theorem snoc (h : TwoWay next prev first (some a) ns) (hmem : n ∉ ns) (hn : next n = none) :
    TwoWay (Function.update next a (some n)) (Function.update prev n (some a)) first (some n)
      (ns ++ [n]) := by
  obtain ⟨as, rfl⟩ : ∃ as, ns = as ++ [a] := by
    have hb := h.backward
    cases hr : ns.reverse with
    | nil =>
      rw [hr] at hb
      exact absurd hb (Option.some_ne_none a)
    | cons b bs =>
      rw [hr] at hb
      obtain rfl : a = b := Option.some.inj hb.1
      exact ⟨bs.reverse, by rw [← List.reverse_reverse ns, hr, List.reverse_cons]⟩
  have hna : a ≠ n := by
    intro hna
    exact hmem (hna ▸ List.mem_append_right as List.mem_cons_self)
  constructor
  · rw [List.append_assoc]
    exact h.forward.redirect ⟨rfl, hn⟩ (by simpa using hna)
  · rw [List.reverse_append, List.reverse_singleton, List.singleton_append, linked_cons,
      Function.update_self]
    refine ⟨rfl, h.backward.congr fun m hm => ?_⟩
    apply Function.update_of_ne
    intro hmn
    exact hmem (hmn ▸ List.mem_reverse.mp hm)

/-- A node that points nowhere joins the list in front of its first node. -/
theorem cons (h : TwoWay next prev (some a) tail ns) (hmem : n ∉ ns) (hp : prev n = none) :
    TwoWay (Function.update next n (some a)) (Function.update prev a (some n)) (some n) tail
      (n :: ns) := by
  have hs := h.turn.snoc (by rwa [List.mem_reverse]) hp
  rw [← List.reverse_cons] at hs
  exact turn_iff.mp hs

/-- The first node leaves a list that has a second one. -/
theorem dropFirst (h : TwoWay next prev first tail (n :: a :: ns)) :
    TwoWay next (Function.update prev a none) (next n) tail (a :: ns) := by
  refine ⟨h.forward.2, ?_⟩
  have hb := h.backward
  rw [List.reverse_cons, List.reverse_cons, List.append_assoc] at hb
  rw [List.reverse_cons]
  have hnil : Linked prev none ([] : List ν) := rfl
  exact hb.redirect hnil List.not_mem_nil

/-- The last node leaves a list that has another one before it. -/
theorem dropLast (h : TwoWay next prev first tail (as ++ [a, n])) :
    TwoWay (Function.update next a none) prev first (prev n) (as ++ [a]) := by
  have ht := h.turn
  rw [List.reverse_append] at ht
  have hd := ht.dropFirst (n := n) (a := a)
  rw [← turn_iff, List.reverse_append]
  exact hd

/-- A node with neighbours on both sides leaves the list: its neighbours point
at one another. -/
theorem unlink {b : ν} (h : TwoWay next prev first tail (as ++ a :: n :: b :: bs)) :
    TwoWay (Function.update next a (some b)) (Function.update prev b (some a)) first tail
      (as ++ a :: b :: bs) := by
  have hnodup := h.nodup
  rw [List.nodup_append] at hnodup
  obtain ⟨-, hin, hout⟩ := hnodup
  simp only [List.nodup_cons, List.mem_cons, not_or] at hin
  obtain ⟨⟨-, hab, habs⟩, -, -, -⟩ := hin
  have hba : ¬ b = a := fun hba => hab hba.symm
  have hbas : b ∉ as := fun hb => hout b hb b (by simp) rfl
  constructor
  · have hb : Linked next (next b) bs := by
      have hf : Linked next first ((as ++ [a, n]) ++ b :: bs) := by simpa using h.forward
      exact hf.behind
    exact h.forward.redirect (q := some b) ⟨rfl, hb⟩ (by simp [hab, habs])
  · have ha : Linked prev (prev a) as.reverse := by
      have hr : Linked prev tail ((bs.reverse ++ [b, n]) ++ a :: as.reverse) := by
        simpa using h.backward
      exact hr.behind
    have hr : Linked prev tail (bs.reverse ++ b :: n :: a :: as.reverse) := by
      simpa using h.backward
    have haa : Linked prev (some a) (a :: as.reverse) := ⟨rfl, ha⟩
    have hu := hr.redirect haa (by simpa [hba] using hbas)
    simpa using hu

end Change

end TwoWay

end CalcLang.Lib
