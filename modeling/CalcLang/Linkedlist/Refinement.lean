import CalcLang.Linkedlist.List

/-!
# The linked list refines a double-ended queue

`Holds s d` relates a list to the sequence it stands for: `next` from `first`
and `prev` from `tail` visit the handles forwards and backwards, every node has
its value, and `len` is the length. Each operation has one lemma that says what
it does to the relation; the links come from the rules of `TwoWay`.
-/

namespace CalcLang.Linkedlist

open CalcLang.Lib

variable {τ : Type} {s : Store τ} {d : Deque τ} {n : Addr} {p q : Option Addr} {t : τ}
  {xs ys : List (Nat × τ)}

/-! ## A store, field by field -/

namespace Store

/-- The `next` field of a node. -/
def next (s : Store τ) (n : Addr) : Option Addr := s.nodes[n]?.bind Node.next

/-- The `prev` field of a node. -/
def prev (s : Store τ) (n : Addr) : Option Addr := s.nodes[n]?.bind Node.prev

/-- The value of a node; `none` where no node is. -/
def val (s : Store τ) (n : Addr) : Option τ := s.nodes[n]?.map Node.val

/-- The store after `n.next = q`. -/
def withNext (s : Store τ) (n : Addr) (q : Option Addr) : Store τ :=
  s.modify n fun nd => { nd with next := q }

/-- The store after `n.prev = q`. -/
def withPrev (s : Store τ) (n : Addr) (q : Option Addr) : Store τ :=
  s.modify n fun nd => { nd with prev := q }

/-- The store after `&Node<T>{val:t}`. -/
def withNode (s : Store τ) (t : τ) : Store τ := (s.alloc t).2

@[simp] theorem withNext_li : (s.withNext n q).li = s.li := rfl
@[simp] theorem withPrev_li : (s.withPrev n q).li = s.li := rfl
@[simp] theorem withNode_li : (s.withNode t).li = s.li := rfl

@[simp] theorem withNext_length : (s.withNext n q).nodes.length = s.nodes.length :=
  List.length_modify ..

@[simp] theorem withPrev_length : (s.withPrev n q).nodes.length = s.nodes.length :=
  List.length_modify ..

@[simp] theorem withNode_length : (s.withNode t).nodes.length = s.nodes.length + 1 := by
  simp [withNode, alloc]

theorem lt_of_val (h : s.val n = some t) : n < s.nodes.length := by
  obtain ⟨nd, hnd, -⟩ := Option.map_eq_some_iff.mp h
  exact (List.getElem?_eq_some_iff.mp hnd).1

theorem deref_of_val (h : s.val n = some t) :
    s.deref (some n) = some ⟨t, s.next n, s.prev n⟩ := by
  obtain ⟨nd, hnd, rfl⟩ := Option.map_eq_some_iff.mp h
  simp [deref, next, prev, hnd]

theorem next_withNext (hn : n < s.nodes.length) :
    (s.withNext n q).next = Function.update s.next n q := by
  funext m
  by_cases hm : m = n
  · subst hm
    simp [next, withNext, modify, hn]
  · rw [Function.update_of_ne hm]
    simp [next, withNext, modify, List.getElem?_modify_ne _ _ (Ne.symm hm)]

@[simp] theorem prev_withNext : (s.withNext n q).prev = s.prev := by
  funext m
  simp only [prev, withNext, modify, List.getElem?_modify]
  cases s.nodes[m]? <;> simp
  split <;> rfl

@[simp] theorem val_withNext : (s.withNext n q).val = s.val := by
  funext m
  simp only [val, withNext, modify, List.getElem?_modify]
  cases s.nodes[m]? <;> simp
  split <;> rfl

theorem prev_withPrev (hn : n < s.nodes.length) :
    (s.withPrev n q).prev = Function.update s.prev n q := by
  funext m
  by_cases hm : m = n
  · subst hm
    simp [prev, withPrev, modify, hn]
  · rw [Function.update_of_ne hm]
    simp [prev, withPrev, modify, List.getElem?_modify_ne _ _ (Ne.symm hm)]

@[simp] theorem next_withPrev : (s.withPrev n q).next = s.next := by
  funext m
  simp only [next, withPrev, modify, List.getElem?_modify]
  cases s.nodes[m]? <;> simp
  split <;> rfl

@[simp] theorem val_withPrev : (s.withPrev n q).val = s.val := by
  funext m
  simp only [val, withPrev, modify, List.getElem?_modify]
  cases s.nodes[m]? <;> simp
  split <;> rfl

@[simp] theorem next_withNode : (s.withNode t).next = s.next := by
  funext m
  simp only [next, withNode, alloc, List.getElem?_append]
  split
  · rfl
  · rename_i hm
    rw [List.getElem?_eq_none (Nat.le_of_not_lt hm)]
    cases m - s.nodes.length <;> rfl

@[simp] theorem prev_withNode : (s.withNode t).prev = s.prev := by
  funext m
  simp only [prev, withNode, alloc, List.getElem?_append]
  split
  · rfl
  · rename_i hm
    rw [List.getElem?_eq_none (Nat.le_of_not_lt hm)]
    cases m - s.nodes.length <;> rfl

theorem val_withNode_self : (s.withNode t).val s.nodes.length = some t := by
  simp [val, withNode, alloc]

theorem val_withNode (hn : n < s.nodes.length) : (s.withNode t).val n = s.val n := by
  simp [val, withNode, alloc, List.getElem?_append_left hn]

/-- A new node points nowhere. -/
theorem next_new : s.next s.nodes.length = none := by simp [next]

theorem prev_new : s.prev s.nodes.length = none := by simp [prev]

/-! ## What the branches of the operations compute -/

theorem Push_empty (hfirst : s.li.first = none) : s.Push t =
    some { s.withNode t with
      li := ⟨some s.nodes.length, some s.nodes.length, s.li.len + 1⟩ } :=
  if_pos hfirst

theorem Push_eq {a : Addr} (hfirst : s.li.first ≠ none) (htail : s.li.tail = some a)
    (ha : a < s.nodes.length) : s.Push t =
    some { ((s.withNode t).withNext a (some s.nodes.length)).withPrev s.nodes.length (some a) with
      li := ⟨s.li.first, some s.nodes.length, s.li.len + 1⟩ } := by
  have ha' : a < s.nodes.length + 1 ∧ a ≤ s.nodes.length :=
    ⟨Nat.lt_succ_of_lt ha, Nat.le_of_lt ha⟩
  simp [Store.Push, alloc, hfirst, htail, setNext, setPrev, ha', withNode, withNext, withPrev,
    Store.modify]

theorem UnShift_empty (hfirst : s.li.first = none) : s.UnShift t =
    some { s.withNode t with
      li := ⟨some s.nodes.length, some s.nodes.length, s.li.len + 1⟩ } :=
  if_pos hfirst

theorem UnShift_eq {a : Addr} (hfirst : s.li.first = some a) (ha : a < s.nodes.length) :
    s.UnShift t =
    some { ((s.withNode t).withNext s.nodes.length (some a)).withPrev a (some s.nodes.length) with
      li := ⟨some s.nodes.length, s.li.tail, s.li.len + 1⟩ } := by
  have ha' : a < s.nodes.length + 1 ∧ a ≤ s.nodes.length :=
    ⟨Nat.lt_succ_of_lt ha, Nat.le_of_lt ha⟩
  simp [Store.UnShift, alloc, hfirst, setNext, setPrev, ha', withNode, withNext, withPrev,
    Store.modify]

/-- The node removed is the only one. -/
theorem remove_only (hn : s.val n = some t) (hprev : s.prev n = none) (hnext : s.next n = none) :
    s.remove (some n) = some { s with li := ⟨none, none, s.li.len - 1⟩ } := by
  have hd := deref_of_val hn
  rw [hprev, hnext] at hd
  simp only [deref] at hd
  simp [Store.remove, deref, hd]

/-- The node removed is the first one. -/
theorem remove_first {b : Addr} (hn : s.val n = some t) (hprev : s.prev n = none)
    (hnext : s.next n = some b) (hb : b < s.nodes.length) :
    s.remove (some n) =
      some { s.withPrev b none with li := ⟨some b, s.li.tail, s.li.len - 1⟩ } := by
  have hd := deref_of_val hn
  rw [hprev, hnext] at hd
  simp only [deref] at hd
  simp [Store.remove, deref, hd, setPrev, hb, withPrev, Store.modify]

/-- The node removed is the last one. -/
theorem remove_last {a : Addr} (hn : s.val n = some t) (hprev : s.prev n = some a)
    (hnext : s.next n = none) (ha : a < s.nodes.length) :
    s.remove (some n) =
      some { s.withNext a none with li := ⟨s.li.first, some a, s.li.len - 1⟩ } := by
  have hd := deref_of_val hn
  rw [hprev, hnext] at hd
  simp only [deref] at hd
  simp [Store.remove, deref, hd, setNext, ha, withNext, Store.modify]

/-- The node removed has neighbours on both sides. -/
theorem remove_inner {a b : Addr} (hn : s.val n = some t) (hprev : s.prev n = some a)
    (hnext : s.next n = some b) (ha : a < s.nodes.length) (hb : b < s.nodes.length)
    (hna : n ≠ a) :
    s.remove (some n) =
      some { (s.withNext a (some b)).withPrev b (some a) with
        li := ⟨s.li.first, s.li.tail, s.li.len - 1⟩ } := by
  have hd := deref_of_val hn
  rw [hprev, hnext] at hd
  have hd' : (s.withNext a (some b)).deref (some n) = some ⟨t, some b, some a⟩ := by
    rw [deref_of_val (t := t) (by rwa [val_withNext]), next_withNext ha, prev_withNext, hprev,
      Function.update_of_ne hna, hnext]
  simp only [deref, Option.bind_some, withNext, Store.modify] at hd hd'
  simp [Store.remove, deref, hd, hd', setNext, setPrev, ha, hb, withNext, withPrev, Store.modify]

end Store

/-! ## A list holds a sequence -/

/-- The list stands for the sequence. -/
structure Holds (s : Store τ) (d : Deque τ) : Prop where
  links : TwoWay s.next s.prev s.li.first s.li.tail d.handles
  vals : ∀ x ∈ d.items, s.val x.1 = some x.2
  len : s.li.len = d.items.length
  fresh : s.nodes.length = d.fresh

namespace Holds

theorem new (nodes : List (Node τ)) : Holds (Store.New nodes) ⟨nodes.length, []⟩ where
  links := TwoWay.empty
  vals := fun _ hx => absurd hx List.not_mem_nil
  len := rfl
  fresh := rfl

/-- Every handle is the address of a node. -/
theorem lt (h : Holds s d) (hn : n ∈ d.handles) : n < s.nodes.length := by
  obtain ⟨x, hx, rfl⟩ := List.mem_map.mp hn
  exact Store.lt_of_val (h.vals x hx)

theorem not_fresh (h : Holds s d) : s.nodes.length ∉ d.handles := by
  intro hmem
  exact Nat.lt_irrefl _ (h.lt hmem)

theorem handles_eq_nil (d : Deque τ) : d.handles = [] ↔ d.items = [] := List.map_eq_nil_iff

/-- A new node changes no value of the sequence. -/
theorem vals_withNode (h : Holds s d) (t : τ) :
    ∀ x ∈ d.items, (s.withNode t).val x.1 = some x.2 := by
  intro x hx
  rw [Store.val_withNode (h.lt (List.mem_map_of_mem hx))]
  exact h.vals x hx

theorem items_eq_nil (h : Holds s d) (hfirst : s.li.first = none) : d.items = [] :=
  (handles_eq_nil d).mp (h.links.first_eq_none.mp hfirst)

/-- `Push` adds the value at the end. -/
theorem push (h : Holds s d) (t : τ) :
    ∃ s', s.Push t = some s' ∧ Holds s' ⟨d.fresh + 1, d.items ++ [(d.fresh, t)]⟩ := by
  have hvals : ∀ x ∈ d.items ++ [(d.fresh, t)], (s.withNode t).val x.1 = some x.2 := by
    intro x hx
    rcases List.mem_append.mp hx with hx | hx
    · exact h.vals_withNode t x hx
    · rw [List.mem_singleton.mp hx, ← h.fresh]
      exact Store.val_withNode_self
  have hlen : s.li.len + 1 = ((d.items ++ [(d.fresh, t)]).length : Int) := by
    rw [h.len, List.length_append]
    rfl
  have hfresh : (s.withNode t).nodes.length = d.fresh + 1 := by
    rw [Store.withNode_length, h.fresh]
  -- the list is empty, or there is a tail to link the node to
  by_cases hfirst : s.li.first = none
  · refine ⟨_, Store.Push_empty hfirst, ?_, hvals, hlen, hfresh⟩
    show TwoWay (s.withNode t).next (s.withNode t).prev _ _ (List.map Prod.fst _)
    rw [Store.next_withNode, Store.prev_withNode, h.items_eq_nil hfirst, ← h.fresh]
    exact TwoWay.single Store.next_new Store.prev_new
  · have hne : s.li.tail ≠ none := by
      rw [Ne, h.links.tail_eq_none, ← h.links.first_eq_none]
      exact hfirst
    obtain ⟨a, htail⟩ := Option.ne_none_iff_exists'.mp hne
    have hl := h.links
    rw [htail] at hl
    have ha : a < s.nodes.length := h.lt hl.tail_mem
    have ha' : a < (s.withNode t).nodes.length := by
      rw [Store.withNode_length]
      exact Nat.lt_succ_of_lt ha
    refine ⟨_, Store.Push_eq hfirst htail ha, ?_, ?_, hlen, ?_⟩
    · show TwoWay (Store.withPrev _ _ _).next (Store.withPrev _ _ _).prev _ _
        (List.map Prod.fst (d.items ++ [(d.fresh, t)]))
      rw [Store.next_withPrev, Store.next_withNext ha', Store.prev_withPrev (by simp),
        Store.prev_withNext, Store.next_withNode, Store.prev_withNode, List.map_append, ← h.fresh]
      exact hl.snoc h.not_fresh Store.next_new
    · intro x hx
      show (Store.withPrev _ _ _).val x.1 = _
      rw [Store.val_withPrev, Store.val_withNext]
      exact hvals x hx
    · show (Store.withPrev _ _ _).nodes.length = _
      rw [Store.withPrev_length, Store.withNext_length, hfresh]

/-- `UnShift` adds the value in front. -/
theorem unShift (h : Holds s d) (t : τ) :
    ∃ s', s.UnShift t = some s' ∧ Holds s' ⟨d.fresh + 1, (d.fresh, t) :: d.items⟩ := by
  have hvals : ∀ x ∈ (d.fresh, t) :: d.items, (s.withNode t).val x.1 = some x.2 := by
    intro x hx
    rcases List.mem_cons.mp hx with rfl | hx
    · rw [← h.fresh]
      exact Store.val_withNode_self
    · exact h.vals_withNode t x hx
  have hlen : s.li.len + 1 = (((d.fresh, t) :: d.items).length : Int) := by
    rw [h.len, List.length_cons]
    rfl
  have hfresh : (s.withNode t).nodes.length = d.fresh + 1 := by
    rw [Store.withNode_length, h.fresh]
  cases hfirst : s.li.first with
  | none =>
    refine ⟨_, Store.UnShift_empty hfirst, ?_, hvals, hlen, hfresh⟩
    show TwoWay (s.withNode t).next (s.withNode t).prev _ _ (List.map Prod.fst _)
    rw [Store.next_withNode, Store.prev_withNode, h.items_eq_nil hfirst, ← h.fresh]
    exact TwoWay.single Store.next_new Store.prev_new
  | some a =>
    have hl := h.links
    rw [hfirst] at hl
    have ha : a < s.nodes.length := h.lt hl.first_mem
    have ha' : a < ((s.withNode t).withNext s.nodes.length (some a)).nodes.length := by
      rw [Store.withNext_length, Store.withNode_length]
      exact Nat.lt_succ_of_lt ha
    refine ⟨_, Store.UnShift_eq hfirst ha, ?_, ?_, hlen, ?_⟩
    · show TwoWay (Store.withPrev _ _ _).next (Store.withPrev _ _ _).prev _ _
        (List.map Prod.fst ((d.fresh, t) :: d.items))
      rw [Store.next_withPrev, Store.next_withNext (by simp), Store.prev_withPrev ha',
        Store.prev_withNext, Store.next_withNode, Store.prev_withNode, List.map_cons, ← h.fresh]
      exact hl.cons h.not_fresh Store.prev_new
    · intro x hx
      show (Store.withPrev _ _ _).val x.1 = _
      rw [Store.val_withPrev, Store.val_withNext]
      exact hvals x hx
    · show (Store.withPrev _ _ _).nodes.length = _
      rw [Store.withPrev_length, Store.withNext_length, hfresh]

/-- `remove` takes out the entry of the node, and no value changes. -/
theorem remove_at (h : Holds s d) (hd : d.items = xs ++ (n, t) :: ys) :
    ∃ s', s.remove (some n) = some s' ∧ s'.val = s.val ∧ Holds s' { d with items := xs ++ ys } := by
  have hlinks : TwoWay s.next s.prev s.li.first s.li.tail
      (xs.map Prod.fst ++ n :: ys.map Prod.fst) := by
    have hl := h.links
    rwa [Deque.handles, hd, List.map_append, List.map_cons] at hl
  have hlt : ∀ m ∈ xs.map Prod.fst ++ n :: ys.map Prod.fst, m < s.nodes.length := by
    intro m hm
    apply h.lt
    rwa [Deque.handles, hd, List.map_append, List.map_cons]
  have hn : s.val n = some t := h.vals (n, t) (hd ▸ List.mem_append_right xs List.mem_cons_self)
  have hvals : ∀ x ∈ xs ++ ys, s.val x.1 = some x.2 := by
    intro x hx
    apply h.vals
    rw [hd]
    rcases List.mem_append.mp hx with hx | hx
    · exact List.mem_append_left _ hx
    · exact List.mem_append_right _ (List.mem_cons_of_mem _ hx)
  have hlen : s.li.len - 1 = ((xs ++ ys).length : Int) := by
    rw [h.len, hd]
    simp only [List.length_append, List.length_cons]
    omega
  have hprev := hlinks.prev_eq
  have hnext := hlinks.next_eq
  -- the four cases of the source: which neighbours the node has
  rcases List.eq_nil_or_concat' xs with rfl | ⟨xs', x, rfl⟩
  · cases ys with
    | nil =>
      exact ⟨_, Store.remove_only hn hprev hnext, rfl, TwoWay.empty, hvals, hlen, h.fresh⟩
    | cons y ys =>
      have hb : y.1 < s.nodes.length := hlt y.1 (by simp)
      refine ⟨_, Store.remove_first hn hprev hnext hb, Store.val_withPrev, ?_, ?_, hlen, ?_⟩
      · show TwoWay (s.withPrev _ _).next (s.withPrev _ _).prev _ _ (List.map Prod.fst (y :: ys))
        rw [Store.next_withPrev, Store.prev_withPrev hb]
        have hdrop := hlinks.dropFirst
        rwa [hnext] at hdrop
      · intro z hz
        show (s.withPrev _ _).val z.1 = _
        rw [Store.val_withPrev]
        exact hvals z hz
      · exact Store.withPrev_length.trans h.fresh
  · rw [List.map_append, List.map_singleton, List.getLast?_concat] at hprev
    have ha : x.1 < s.nodes.length := hlt x.1 (by simp)
    cases ys with
    | nil =>
      refine ⟨_, Store.remove_last hn hprev hnext ha, Store.val_withNext, ?_, ?_, hlen, ?_⟩
      · show TwoWay (s.withNext _ _).next (s.withNext _ _).prev _ _
          (List.map Prod.fst (xs' ++ [x] ++ []))
        rw [Store.next_withNext ha, Store.prev_withNext, List.append_nil, List.map_append]
        have hdrop : TwoWay s.next s.prev s.li.first s.li.tail (xs'.map Prod.fst ++ [x.1, n]) := by
          simpa using hlinks
        have hdrop := hdrop.dropLast
        rwa [hprev] at hdrop
      · intro z hz
        show (s.withNext _ _).val z.1 = _
        rw [Store.val_withNext]
        exact hvals z hz
      · exact Store.withNext_length.trans h.fresh
    | cons y ys =>
      have hb : y.1 < s.nodes.length := hlt y.1 (by simp)
      have hunlink : TwoWay s.next s.prev s.li.first s.li.tail
          (xs'.map Prod.fst ++ x.1 :: n :: y.1 :: ys.map Prod.fst) := by
        simpa using hlinks
      have hna : n ≠ x.1 := by
        intro hnx
        have hnodup := hunlink.nodup.sublist (List.sublist_append_right ..)
        rw [hnx, List.nodup_cons] at hnodup
        exact hnodup.1 List.mem_cons_self
      refine ⟨_, Store.remove_inner hn hprev hnext ha hb hna,
        Store.val_withPrev.trans Store.val_withNext, ?_, ?_, hlen, ?_⟩
      · show TwoWay (Store.withPrev _ _ _).next (Store.withPrev _ _ _).prev _ _
          (List.map Prod.fst (xs' ++ [x] ++ y :: ys))
        rw [Store.next_withPrev, Store.next_withNext ha, Store.prev_withPrev (by simpa using hb),
          Store.prev_withNext]
        simpa using hunlink.unlink
      · intro z hz
        show (Store.withPrev _ _ _).val z.1 = _
        rw [Store.val_withPrev, Store.val_withNext]
        exact hvals z hz
      · show (Store.withPrev _ _ _).nodes.length = _
        rw [Store.withPrev_length, Store.withNext_length, h.fresh]

/-- `Shift` takes the first value. -/
theorem shift (h : Holds s d) {x : Nat × τ} (hd : d.items = x :: ys) :
    ∃ s', s.Shift = some (x.2, s') ∧ Holds s' { d with items := ys } := by
  have hd' : d.items = [] ++ (x.1, x.2) :: ys := hd
  obtain ⟨s', hs', -, h'⟩ := h.remove_at hd'
  have hfirst : s.li.first = some x.1 := by
    have hf := h.links.forward
    rw [Deque.handles, hd] at hf
    exact hf.1
  have hval := h.vals x (hd ▸ List.mem_cons_self)
  refine ⟨s', ?_, h'⟩
  simp [Store.Shift, hfirst, Store.deref_of_val hval, hs']

/-- `Pop` takes the last value: the node it reads after the removal still has it. -/
theorem pop (h : Holds s d) {x : Nat × τ} (hd : d.items = xs ++ [x]) :
    ∃ s', s.Pop = some (x.2, s') ∧ Holds s' { d with items := xs } := by
  obtain ⟨s', hs', hval', h'⟩ := h.remove_at hd
  have htail : s.li.tail = some x.1 := by
    have hb := h.links.backward
    rw [Deque.handles, hd, List.map_append, List.reverse_append] at hb
    exact hb.1
  have hval := h.vals x (hd ▸ List.mem_append_right xs List.mem_cons_self)
  rw [← hval'] at hval
  refine ⟨s', ?_, by rwa [List.append_nil] at h'⟩
  simp [Store.Pop, htail, hs', Store.deref_of_val hval]

/-- The loop of `IndexOp` follows `next`. -/
theorem walk_eq (h : Holds s d) {ns : List Addr} (hns : ∀ n ∈ ns, n ∈ d.handles) (k : Nat)
    (hl : Linked s.next p ns) (hk : k ≤ ns.length) : s.walk k p = some (follow s.next k p) := by
  induction k generalizing p ns with
  | zero => rfl
  | succ k ih =>
    cases ns with
    | nil => exact absurd hk (Nat.not_succ_le_zero k)
    | cons n ns =>
      obtain ⟨x, hx, rfl⟩ := List.mem_map.mp (hns n List.mem_cons_self)
      have hrest := ih (fun m hm => hns m (List.mem_cons_of_mem _ hm)) hl.2
        (Nat.le_of_succ_le_succ hk)
      simp [Store.walk, hl.1, Store.deref_of_val (h.vals x hx), hrest, follow]

/-- `IndexOp` reads the value at its index. -/
theorem indexOp (h : Holds s d) {index : Int} {x : Nat × τ} (hi : 0 ≤ index)
    (hx : d.items[index.toNat]? = some x) : s.IndexOp index = some x.2 := by
  have hlt := (List.getElem?_eq_some_iff.mp hx).1
  have hwalk : s.walk index.toNat s.li.first = some (some x.1) := by
    rw [h.walk_eq (fun _ hn => hn) _ h.links.forward (by simp [Deque.handles]; omega),
      h.links.forward.follow_eq, Deque.handles, List.getElem?_map, hx]
    rfl
  have hval := h.vals x (List.mem_of_getElem? hx)
  simp [Store.IndexOp, hi, hwalk, Store.deref_of_val hval]

end Holds

/-! ## Every sequence of operations -/

/-- One operation of the list does what the abstract one does. -/
theorem list_refines_deque : (list τ).Refines (deque τ) Holds := by
  intro s d op ret d' h hcall
  cases op with
  | Push t =>
    simp only [deque, Option.some.injEq, Prod.mk.injEq] at hcall
    obtain ⟨rfl, rfl⟩ := hcall
    obtain ⟨s', hs', h'⟩ := h.push t
    exact ⟨s', by simp [list, hs'], h'⟩
  | UnShift t =>
    simp only [deque, Option.some.injEq, Prod.mk.injEq] at hcall
    obtain ⟨rfl, rfl⟩ := hcall
    obtain ⟨s', hs', h'⟩ := h.unShift t
    exact ⟨s', by simp [list, hs'], h'⟩
  | Shift =>
    simp only [deque, Option.map_eq_some_iff, Prod.mk.injEq] at hcall
    obtain ⟨x, hx, rfl, rfl⟩ := hcall
    obtain ⟨ys, hd⟩ := List.head?_eq_some_iff.mp hx
    obtain ⟨s', hs', h'⟩ := h.shift hd
    exact ⟨s', by simp [list, hs'], by rwa [hd]⟩
  | Pop =>
    simp only [deque, Option.map_eq_some_iff, Prod.mk.injEq] at hcall
    obtain ⟨x, hx, rfl, rfl⟩ := hcall
    obtain ⟨xs, hd⟩ := List.getLast?_eq_some_iff.mp hx
    obtain ⟨s', hs', h'⟩ := h.pop hd
    exact ⟨s', by simp [list, hs'], by rwa [hd, List.dropLast_concat]⟩
  | remove n =>
    simp only [deque, Option.ite_none_right_eq_some, Option.some.injEq, Prod.mk.injEq] at hcall
    obtain ⟨hn, rfl, rfl⟩ := hcall
    obtain ⟨x, hx, rfl⟩ := List.mem_map.mp hn
    obtain ⟨xs, ys, hd⟩ := List.append_of_mem hx
    obtain ⟨s', hs', -, h'⟩ := h.remove_at hd
    refine ⟨s', by simp [list, hs'], ?_⟩
    have hxs : ∀ y ∈ xs, ¬ (decide (y.1 = x.1) = true) := by
      intro y hy hyx
      have hnodup := h.links.nodup
      rw [Deque.handles, hd, List.map_append, List.nodup_append] at hnodup
      exact hnodup.2.2 y.1 (List.mem_map_of_mem hy) x.1 (by simp) (of_decide_eq_true hyx)
    rwa [hd, List.eraseP_append_right _ hxs, List.eraseP_cons_of_pos (by simp)]
  | Len =>
    simp only [deque, Option.some.injEq, Prod.mk.injEq] at hcall
    obtain ⟨rfl, rfl⟩ := hcall
    exact ⟨s, by simp [list, Store.Len, h.len], h⟩
  | IndexOp index =>
    simp only [deque, Option.ite_none_right_eq_some, Option.map_eq_some_iff,
      Prod.mk.injEq] at hcall
    obtain ⟨hi, x, hx, rfl, rfl⟩ := hcall
    exact ⟨s, by simp [list, h.indexOp hi hx], h⟩

/-- **The linked list refines a double-ended queue.** Whatever sequence of
operations the abstract sequence performs, a list made by `New` performs too,
with the same results; and then `next` from `first` and `prev` from `tail` visit
the sequence forwards and backwards, `first` and `tail` are nil exactly when it is
empty, and `len` is its length. -/
theorem linkedlist_refines_deque (nodes : List (Node τ)) (ops : List (Op τ))
    {rets : List (Ret τ)} {d : Deque τ}
    (h : (deque τ).run ⟨nodes.length, []⟩ ops = some (rets, d)) :
    ∃ s, (list τ).run (Store.New nodes) ops = some (rets, s) ∧
      Linked s.next s.li.first d.handles ∧ Linked s.prev s.li.tail d.handles.reverse ∧
      (∀ x ∈ d.items, s.val x.1 = some x.2) ∧
      (s.li.first = none ↔ d.items = []) ∧ (s.li.tail = none ↔ d.items = []) ∧
      s.li.len = d.items.length := by
  obtain ⟨s, hs, h'⟩ := list_refines_deque.run (Holds.new nodes) h
  refine ⟨s, hs, h'.links.forward, h'.links.backward, h'.vals, ?_, ?_, h'.len⟩
  · rw [h'.links.first_eq_none, Holds.handles_eq_nil]
  · rw [h'.links.tail_eq_none, Holds.handles_eq_nil]

/-- The repository's test of the list: three values in, one read, three out. -/
theorem linkedlist_refines_deque_shift :
    ∃ s, (list Nat).run (Store.New [])
        [.Push 1, .Len, .Push 2, .Push 3, .IndexOp 2, .Len, .Shift, .Shift, .Shift, .Len] =
          some ([.void, .len 1, .void, .void, .val 3, .len 3, .val 1, .val 2, .val 3, .len 0], s) ∧
      s.li.first = none := by
  have hrun : (deque Nat).run ⟨0, []⟩
      [.Push 1, .Len, .Push 2, .Push 3, .IndexOp 2, .Len, .Shift, .Shift, .Shift, .Len] =
        some ([.void, .len 1, .void, .void, .val 3, .len 3, .val 1, .val 2, .val 3, .len 0],
          ⟨3, []⟩) := rfl
  obtain ⟨s, hs, -, -, -, hfirst, -⟩ := linkedlist_refines_deque [] _ hrun
  exact ⟨s, hs, hfirst.mpr rfl⟩

end CalcLang.Linkedlist
