import CalcLang.Slices.Slice

/-!
# Slices stay inside their allocations

Every slice that a program can make by operations with arguments in range has
`0 ≤ len ≤ cap`, and `cap` elements from its head on lie in one allocation: `Inv`. One
lemma for `Push` says everything it does (`Pushed`): in place if there is room, else in
a new allocation.

Two slices that look at different allocations never come to look at the same one again,
because a slice only ever moves to a new allocation: `Apart` is kept by every operation.
That is why the result of `Append` has a life of its own.
-/

namespace CalcLang.Slices

open CalcLang.Lib

variable {τ : Type} {z t : τ} {n : Nat} {m m' : Mem τ} {arr arr' arr2 : Slice} {s s' u : State τ}
  {a b : Nat}

/-! ## One slice -/

namespace Slice

/-- A slice is inside its allocation. -/
structure WF (arr : Slice) (m : Mem τ) : Prop where
  len_nonneg : 0 ≤ arr.len
  len_le : arr.len ≤ arr.cap
  cap_lt : arr.cap < 2 ^ 31
  inBounds : m.InBounds arr.thead arr.cap.toNat

theorem WF.grow (h : arr.WF m) (hm : m.sizes <+: m'.sizes) : arr.WF m' :=
  ⟨h.len_nonneg, h.len_le, h.cap_lt, h.inBounds.grow hm⟩

theorem WF.block_lt (h : arr.WF m) : arr.thead.block < m.sizes.length := h.inBounds.block_lt

/-- A slice without an allocation has no room. -/
theorem WF.cap_eq_zero (h : arr.WF m) (hnil : m.sizes[0]? = some 0)
    (hblock : arr.thead.block = 0) : arr.cap = 0 := by
  obtain ⟨sz, hsz, hle⟩ := h.inBounds
  rw [hblock, hnil] at hsz
  obtain rfl := Option.some.inj hsz
  have hnonneg := h.len_nonneg
  have hlen := h.len_le
  omega

/-- What `Push` does: the slice has one more element, it is where it was or in a new
allocation, and what is in other allocations has not changed. -/
structure Pushed (m : Mem τ) (arr : Slice) (t : τ) (arr' : Slice) (m' : Mem τ) : Prop where
  wf : arr'.WF m'
  read : m'.read arr'.thead arr'.len.toNat = m.read arr.thead arr.len.toNat ++ [t]
  grows : m.sizes <+: m'.sizes
  block : arr.cap ≠ 0 ∧ arr'.thead.block = arr.thead.block ∨
    arr'.thead.block = m.sizes.length
  frame : ∀ q k, q.block < m.sizes.length → (q.block = arr.thead.block → arr.cap = 0) →
    m'.read q k = m.read q k

/-- `Push` with room. -/
theorem push_room (h : arr.WF m) (hroom : arr.len < arr.cap) (hlen : arr.len + 1 < 2 ^ 30) :
    ∃ arr' m', Push z (n + 1) arr m t = some (arr', m') ∧ Pushed m arr t arr' m' ∧
      arr'.thead = arr.thead := by
  have hnonneg := h.len_nonneg
  have hcap := h.cap_lt
  have hgep : gep arr.thead arr.len = arr.thead.add arr.len.toNat := gep_of_nonneg hnonneg
  have hint : int32 (arr.len + 1) = arr.len + 1 := int32_of_lt (by omega) (by omega)
  refine ⟨_, _, if_pos hroom, ⟨⟨?_, ?_, hcap, ?_⟩, ?_, ?_, ?_, ?_⟩, rfl⟩
  · show 0 ≤ int32 (arr.len + 1)
    omega
  · show int32 (arr.len + 1) ≤ arr.cap
    omega
  · exact h.inBounds.grow (List.prefix_refl _)
  · show (m.write (gep arr.thead arr.len) [t]).read arr.thead (int32 (arr.len + 1)).toNat = _
    rw [hgep, hint, Int.toNat_add hnonneg (by decide)]
    show (m.write _ [t]).read arr.thead (arr.len.toNat + 1) = _
    rw [Mem.read_write_snoc, Mem.read_write_of_apart]
    exact .inr (.inr (Nat.le_refl _))
  · exact List.prefix_refl _
  · exact .inl ⟨by omega, rfl⟩
  · intro q k hq hne
    rw [hgep, Mem.read_write_of_apart]
    refine .inl fun hblock => ?_
    have := hne hblock.symm
    omega

/-- Both functions that make an allocation copy elements into it, but not from nil. -/
def copyTo (m : Mem τ) (dst : Ptr) (arr : Slice) : Mem τ :=
  if arr.thead ≠ .nil then m.copy dst arr.thead arr.len.toNat else m

@[simp] theorem copyTo_sizes {dst : Ptr} : (copyTo m dst arr).sizes = m.sizes := by
  unfold copyTo
  split
  · rfl
  · rfl

theorem copyTo_grows {dst : Ptr} : m.sizes <+: (copyTo m dst arr).sizes := by
  unfold copyTo
  split
  · exact List.prefix_refl _
  · exact List.prefix_refl _

/-- The elements are there afterwards: nil has none. -/
theorem copyTo_read {dst : Ptr} (h : arr.WF m) (hnil : m.sizes[0]? = some 0) :
    (copyTo m dst arr).read dst arr.len.toNat = m.read arr.thead arr.len.toNat := by
  unfold copyTo
  split
  next => exact Mem.read_copy_self m dst arr.thead _
  next hhead =>
    have hcap := h.cap_eq_zero hnil (by rw [not_not.mp hhead]; rfl)
    have hlen : arr.len.toNat = 0 := by
      have := h.len_le
      omega
    rw [hlen, Mem.read_zero, Mem.read_zero]

/-- Nothing else changes. -/
theorem copyTo_frame {dst q : Ptr} {k : Nat} (h : Mem.Apart dst arr.len.toNat q k) :
    (copyTo m dst arr).read q k = m.read q k := by
  unfold copyTo
  split
  · exact Mem.read_copy_of_apart m h
  · rfl

/-- The capacity that `Push` doubles. -/
def base (arr : Slice) : Int := if arr.cap = 0 then 2 else arr.cap

theorem grow_eq (z : τ) (m : Mem τ) (arr : Slice) : grow z m arr =
    (⟨⟨m.sizes.length, 0⟩, arr.len, int32 (2 * arr.base)⟩,
      copyTo (m.alloc z (2 * arr.base).toNat).2 ⟨m.sizes.length, 0⟩ arr) := by
  unfold grow base
  split
  · rfl
  · rfl

theorem grow_sizes : (grow z m arr).2.sizes = m.sizes ++ [(2 * arr.base).toNat] := by
  rw [grow_eq, copyTo_sizes]
  rfl

/-- Making room changes nothing that was there. -/
theorem grow_frame {q : Ptr} {k : Nat} (hq : q.block < m.sizes.length) :
    (grow z m arr).2.read q k = m.read q k := by
  rw [grow_eq, copyTo_frame (.inl ?_), Mem.read_alloc _ _ _ hq]
  exact Nat.ne_of_gt hq

/-- A new allocation changes nothing about a slice. -/
theorem WF.alloc (h : arr.WF m) (z : τ) (k : Nat) : arr.WF (m.alloc z k).2 :=
  h.grow (List.prefix_append _ _)

theorem nil_alloc (hnil : m.sizes[0]? = some 0) (k : Nat) :
    (m.alloc z k).2.sizes[0]? = some 0 := by
  rw [Mem.alloc_sizes, List.getElem?_append_left (List.getElem?_eq_some_iff.mp hnil).1]
  exact hnil

/-- The elements move to the new allocation. -/
theorem grow_read (h : arr.WF m) (hnil : m.sizes[0]? = some 0) :
    (grow z m arr).2.read ⟨m.sizes.length, 0⟩ arr.len.toNat =
      m.read arr.thead arr.len.toNat := by
  rw [grow_eq, copyTo_read (h.alloc z _) (nil_alloc hnil _), Mem.read_alloc _ _ _ h.block_lt]

/-- After `grow` there is room. -/
theorem grow_room (h : arr.WF m) (hfull : arr.cap ≤ arr.len) (hlen : arr.len + 1 < 2 ^ 30) :
    (grow z m arr).1.WF (grow z m arr).2 ∧ arr.len < (grow z m arr).1.cap := by
  have hnonneg := h.len_nonneg
  have hbase : arr.len ≤ arr.base ∧ 2 ≤ 2 * arr.base ∧ 2 * arr.base < 2 ^ 31 := by
    have hle := h.len_le
    unfold base
    split
    · omega
    · omega
  have hint : int32 (2 * arr.base) = 2 * arr.base := int32_of_lt (by omega) (by omega)
  have hin : (grow z m arr).2.InBounds ⟨m.sizes.length, 0⟩ (2 * arr.base).toNat := by
    refine ⟨(2 * arr.base).toNat, ?_, by simp⟩
    rw [grow_sizes, List.getElem?_append_right (Nat.le_refl _), Nat.sub_self]
    rfl
  rw [← hint] at hin
  have hfst := congrArg Prod.fst (grow_eq z m arr)
  refine ⟨⟨?_, ?_, ?_, ?_⟩, ?_⟩
  · rw [hfst]
    exact hnonneg
  · rw [hfst]
    show arr.len ≤ int32 (2 * arr.base)
    omega
  · rw [hfst]
    show int32 (2 * arr.base) < 2 ^ 31
    omega
  · rw [hfst]
    exact hin
  · rw [hfst]
    show arr.len < int32 (2 * arr.base)
    omega

/-- **`Push`** adds one element. -/
theorem push_spec (h : arr.WF m) (hnil : m.sizes[0]? = some 0) (hlen : arr.len + 1 < 2 ^ 30)
    (hn : 2 ≤ n) : ∃ arr' m', Push z n arr m t = some (arr', m') ∧ Pushed m arr t arr' m' := by
  obtain ⟨k, rfl⟩ := Nat.exists_eq_add_of_le' hn
  by_cases hroom : arr.len < arr.cap
  · obtain ⟨arr', m', hpush, hpushed, -⟩ := push_room h hroom hlen
    exact ⟨arr', m', hpush, hpushed⟩
  · obtain ⟨hwf, hcap⟩ := grow_room (z := z) h (Int.not_lt.mp hroom) hlen
    have hfst := congrArg Prod.fst (grow_eq z m arr)
    have hl : (grow z m arr).1.len = arr.len := by rw [hfst]
    have hhead : (grow z m arr).1.thead = ⟨m.sizes.length, 0⟩ := by rw [hfst]
    have hgrows : m.sizes <+: (grow z m arr).2.sizes := by
      rw [grow_sizes]
      exact List.prefix_append _ _
    obtain ⟨arr', m', hpush, hpushed, hthead⟩ :=
      push_room (z := z) (t := t) (n := k) hwf (by rw [hl]; exact hcap) (by rw [hl]; exact hlen)
    refine ⟨arr', m', (if_neg hroom).trans hpush, hpushed.wf, ?_, hgrows.trans hpushed.grows,
      .inr (by rw [hthead, hhead]), ?_⟩
    · rw [hpushed.read, hl, hhead, grow_read h hnil]
    · intro q k hq _
      rw [hpushed.frame q k (Nat.lt_of_lt_of_le hq hgrows.length_le), grow_frame hq]
      intro hqb
      rw [hhead] at hqb
      exact absurd hq (by rw [hqb]; exact Nat.lt_irrefl _)

/-- What `Append` does: the concatenation, in a new allocation or as the empty slice. -/
structure Appended (m : Mem τ) (arr arr2 arr' : Slice) (m' : Mem τ) : Prop where
  wf : arr'.WF m'
  read : m'.read arr'.thead arr'.len.toNat =
    m.read arr.thead arr.len.toNat ++ m.read arr2.thead arr2.len.toNat
  grows : m.sizes <+: m'.sizes
  block : arr'.thead.block = m.sizes.length ∨ arr'.thead.block = 0
  frame : ∀ q k, q.block < m.sizes.length → m'.read q k = m.read q k

theorem newSlice_wf (hnil : m.sizes[0]? = some 0) : NewSlice.WF m :=
  ⟨Int.le_refl _, Int.le_refl _, by decide, 0, hnil, Nat.le_refl _⟩

theorem append_eq (h : arr.WF m) (hnil : m.sizes[0]? = some 0)
    (hne : int32 (arr.len + arr2.len) ≠ 0) : Append z m arr arr2 =
    (⟨⟨m.sizes.length, 0⟩, int32 (arr.len + arr2.len), int32 (arr.len + arr2.len)⟩,
      copyTo (copyTo (m.alloc z (int32 (arr.len + arr2.len)).toNat).2 ⟨m.sizes.length, 0⟩ arr)
        ⟨m.sizes.length, arr.len.toNat⟩ arr2) := by
  have hnonneg := h.len_nonneg
  unfold Append copyTo
  rw [if_neg hne]
  by_cases hhead : arr.thead ≠ .nil
  · have hgep : gep (⟨m.sizes.length, 0⟩ : Ptr) arr.len = ⟨m.sizes.length, arr.len.toNat⟩ := by
      rw [gep_of_nonneg hnonneg]
      simp [Ptr.add]
    simp only [GC_malloc, Mem.alloc_ptr, if_pos hhead, hgep]
  · have hcap := h.cap_eq_zero hnil (by rw [not_not.mp hhead]; rfl)
    have hlen : arr.len.toNat = 0 := by
      have := h.len_le
      omega
    simp only [GC_malloc, Mem.alloc_ptr, if_neg hhead, hlen]

/-- **`Append`** concatenates. -/
theorem append_spec (h : arr.WF m) (h2 : arr2.WF m) (hnil : m.sizes[0]? = some 0)
    (hlen : arr.len + arr2.len < 2 ^ 30) :
    Appended m arr arr2 (Append z m arr arr2).1 (Append z m arr arr2).2 := by
  have hnonneg := h.len_nonneg
  have hnonneg2 := h2.len_nonneg
  have hint : int32 (arr.len + arr2.len) = arr.len + arr2.len :=
    int32_of_lt (by omega) (by omega)
  -- of two empty slices comes the empty one, without an allocation
  by_cases hzero : int32 (arr.len + arr2.len) = 0
  · have heq : Append z m arr arr2 = (NewSlice, m) := if_pos hzero
    have hl : arr.len.toNat = 0 := by omega
    have hl2 : arr2.len.toNat = 0 := by omega
    rw [heq]
    refine ⟨newSlice_wf hnil, ?_, List.prefix_refl _, .inr rfl, fun _ _ _ => rfl⟩
    rw [hl, hl2]
    rfl
  · rw [append_eq h hnil hzero]
    have hsum : (int32 (arr.len + arr2.len)).toNat = arr.len.toNat + arr2.len.toNat := by
      rw [hint, Int.toNat_add hnonneg hnonneg2]
    have hb := h.block_lt
    have hb2 := h2.block_lt
    refine ⟨⟨?_, Int.le_refl _, ?_, ?_⟩, ?_, ?_, .inl rfl, ?_⟩
    · show 0 ≤ int32 (arr.len + arr2.len)
      omega
    · show int32 (arr.len + arr2.len) < 2 ^ 31
      omega
    · refine ⟨_, ?_, Nat.le_of_eq (Nat.zero_add _)⟩
      show (copyTo _ _ _).sizes[m.sizes.length]? = _
      rw [copyTo_sizes, copyTo_sizes, Mem.alloc_sizes,
        List.getElem?_append_right (Nat.le_refl _), Nat.sub_self]
      rfl
    · dsimp only
      rw [hsum, Mem.read_add]
      congr 1
      · -- the second copy goes behind the first
        rw [copyTo_frame (.inr (.inr (by simp))), copyTo_read (h.alloc z _) (nil_alloc hnil _),
          Mem.read_alloc _ _ _ hb]
      · have hwf : arr2.WF (copyTo (m.alloc z (arr.len.toNat + arr2.len.toNat)).2
            ⟨m.sizes.length, 0⟩ arr) :=
          (h2.alloc z (arr.len.toNat + arr2.len.toNat)).grow copyTo_grows
        have hdst : (⟨m.sizes.length, 0⟩ : Ptr).add arr.len.toNat =
            ⟨m.sizes.length, arr.len.toNat⟩ := by simp [Ptr.add]
        rw [hdst, copyTo_read hwf (by rw [copyTo_sizes]; exact nil_alloc hnil _),
          copyTo_frame (.inl ?_), Mem.read_alloc _ _ _ hb2]
        exact Nat.ne_of_gt hb2
    · show m.sizes <+: (copyTo _ _ _).sizes
      rw [copyTo_sizes, copyTo_sizes]
      exact List.prefix_append _ _
    · intro q k hq
      show (copyTo _ _ _).read q k = _
      rw [copyTo_frame (.inl (Nat.ne_of_gt hq)), copyTo_frame (.inl (Nat.ne_of_gt hq)),
        Mem.read_alloc _ _ _ hq]

end Slice

/-! ## All slices -/

structure Inv (s : State τ) : Prop where
  nil : s.mem.sizes[0]? = some 0
  wf : ∀ (a : Nat) (arr : Slice), s.slices[a]? = some arr → arr.WF s.mem

/-- The slices do not look at one allocation. -/
def Apart (s : State τ) (a b : Nat) : Prop :=
  ∀ arr brr, s.slices[a]? = some arr → s.slices[b]? = some brr →
    arr.thead.block = brr.thead.block → arr.thead.block = 0

/-- No `Push` and no `IndexSetOp` on `a` changes what is in `b`. -/
def Independent (z : τ) (n : Nat) (s : State τ) (a b : Nat) : Prop :=
  ∀ op, op.Writes a → op.InRange s → ∀ s', s.step z n op = some s' → s'.contents b = s.contents b

theorem contents_eq (h : s.slices[a]? = some arr) :
    s.contents a = s.mem.read arr.thead arr.len.toNat := by
  rw [State.contents, h]

theorem Apart.symm (h : Apart s a b) : Apart s b a := by
  intro brr arr hb ha hblock
  rw [hblock]
  exact h arr brr ha hb hblock.symm

/-- The records that were there stay, and so does what they look at. -/
structure Extends (s s' : State τ) : Prop where
  slices : s.slices <+: s'.slices
  grows : s.mem.sizes <+: s'.mem.sizes
  read : ∀ q k, q.block < s.mem.sizes.length → s'.mem.read q k = s.mem.read q k

namespace Extends

theorem getElem? (h : Extends s s') (ha : a < s.slices.length) :
    s'.slices[a]? = s.slices[a]? := by
  obtain ⟨ext, hext⟩ := h.slices
  rw [← hext, List.getElem?_append_left ha]

theorem contents (h : Extends s s') (hI : Inv s) (ha : a < s.slices.length) :
    s'.contents a = s.contents a := by
  obtain ⟨arr, harr⟩ : ∃ arr, s.slices[a]? = some arr := ⟨_, List.getElem?_eq_getElem ha⟩
  rw [contents_eq ((h.getElem? ha).trans harr), contents_eq harr,
    h.read _ _ (hI.wf a arr harr).block_lt]

theorem apart (h : Extends s s') (ha : a < s.slices.length) (hb : b < s.slices.length)
    (hab : Apart s a b) : Apart s' a b := by
  intro arr brr harr hbrr
  rw [h.getElem? ha] at harr
  rw [h.getElem? hb] at hbrr
  exact hab arr brr harr hbrr

/-- One more slice. -/
theorem inv (h : Extends s s') (hI : Inv s) (hslices : s'.slices = s.slices ++ [arr])
    (harr : arr.WF s'.mem) : Inv s' := by
  constructor
  · obtain ⟨ext, hext⟩ := h.grows
    rw [← hext, List.getElem?_append_left (List.getElem?_eq_some_iff.mp hI.nil).1]
    exact hI.nil
  · intro a brr hbrr
    rw [hslices] at hbrr
    rcases Nat.lt_or_ge a s.slices.length with ha | ha
    · rw [List.getElem?_append_left ha] at hbrr
      exact (hI.wf a brr hbrr).grow h.grows
    · rw [List.getElem?_append_right ha, List.getElem?_singleton] at hbrr
      split at hbrr
      · rw [← Option.some.inj hbrr]
        exact harr
      · cases hbrr

end Extends

/-! ## One operation -/

/-- Nothing that was there has other contents. -/
def Keeps (s s' : State τ) : Prop := ∀ a, a < s.slices.length → s'.contents a = s.contents a

/-- What an operation does. A new slice is the one behind those that were there. -/
def Effect (s s' : State τ) : Op τ → Prop
  | .array xs => s'.mem.read ⟨s.mem.sizes.length, 0⟩ xs.length = xs ∧ Keeps s s'
  | .NewSlice => s'.contents s.slices.length = [] ∧ Keeps s s'
  | .FromArr head len =>
    s'.contents s.slices.length = s.mem.read head len.toNat ∧ Keeps s s'
  | .Push a t => s'.contents a = s.contents a ++ [t]
  | .IndexOp a index =>
    index.toNat < (s.contents a).length ∧ s.index a index = (s.contents a)[index.toNat]? ∧ s' = s
  | .IndexSetOp a index t => s'.contents a = (s.contents a).set index.toNat t
  | .Slice a start stop =>
    s'.contents s.slices.length = ((s.contents a).take stop.toNat).drop start.toNat ∧ Keeps s s'
  | .Append a b => s'.contents s.slices.length = s.contents a ++ s.contents b ∧ Keeps s s'

/-- The operation does that, and keeps slices inside their allocations and apart. -/
structure Step (s s' : State τ) (op : Op τ) : Prop where
  inv : Inv s'
  effect : Effect s s' op
  length : s.slices.length ≤ s'.slices.length
  apart : ∀ a b, a ≠ b → a < s.slices.length → b < s.slices.length → Apart s a b → Apart s' a b

theorem lt_of_getElem? (h : s.slices[a]? = some arr) : a < s.slices.length :=
  (List.getElem?_eq_some_iff.mp h).1

namespace Inv

/-- An operation that makes a slice. -/
theorem made {op : Op τ} (hI : Inv s) (he : Extends s s') (hslices : s'.slices = s.slices ++ [arr])
    (harr : arr.WF s'.mem)
    (heffect : s'.contents s.slices.length = s'.mem.read arr.thead arr.len.toNat →
      Keeps s s' → Effect s s' op) : Step s s' op where
  inv := he.inv hI hslices harr
  effect := by
    apply heffect
    · apply contents_eq
      rw [hslices]
      exact List.getElem?_concat_length
    · intro a ha
      exact he.contents hI ha
  length := he.slices.length_le
  apart := fun _ _ _ ha hb hab => he.apart ha hb hab

theorem add_extends (s : State τ) (arr : Slice) : Extends s (s.add arr) :=
  ⟨List.prefix_append _ _, List.prefix_refl _, fun _ _ _ => rfl⟩

theorem array (hI : Inv s) (xs : List τ) :
    ∃ s', s.step z n (.array xs) = some s' ∧ Step s s' (.array xs) := by
  have he : Extends s ⟨(s.mem.alloc z xs.length).2.write ⟨s.mem.sizes.length, 0⟩ xs, s.slices⟩ := by
    refine ⟨List.prefix_refl _, List.prefix_append _ _, fun q k hq => ?_⟩
    rw [Mem.read_write_of_apart _ (.inl (Nat.ne_of_gt hq)), Mem.read_alloc _ _ _ hq]
  refine ⟨_, rfl, ⟨?_, fun a arr harr => ?_⟩, ⟨Mem.read_write_self _ _ xs, ?_⟩, Nat.le_refl _, ?_⟩
  · exact Slice.nil_alloc (z := z) hI.nil _
  · exact (hI.wf a arr harr).grow he.grows
  · intro a ha
    exact he.contents hI ha
  · intro a b _ ha hb hab
    exact he.apart ha hb hab

/-- A part of a slice. -/
theorem slice_spec (h : arr.WF m) {start stop : Int} (h0 : 0 ≤ start) (hle : start ≤ stop)
    (hstop : stop ≤ arr.len) : (arr.slice start stop).WF m ∧
      m.read (arr.slice start stop).thead (arr.slice start stop).len.toNat =
        ((m.read arr.thead arr.len.toNat).take stop.toNat).drop start.toNat := by
  have hcap := h.cap_lt
  have hlen := h.len_le
  have hint : int32 (stop - start) = stop - start := int32_of_lt (by omega) (by omega)
  have hint' : int32 (arr.cap - start) = arr.cap - start := int32_of_lt (by omega) (by omega)
  refine ⟨⟨?_, ?_, ?_, ?_⟩, ?_⟩
  · show 0 ≤ int32 (stop - start)
    omega
  · show int32 (stop - start) ≤ int32 (arr.cap - start)
    omega
  · show int32 (arr.cap - start) < 2 ^ 31
    omega
  · show m.InBounds (gep arr.thead start) (int32 (arr.cap - start)).toNat
    rw [gep_of_nonneg h0, hint', Int.toNat_sub'' (by omega) h0]
    exact h.inBounds.drop (by omega)
  · show m.read (gep arr.thead start) (int32 (stop - start)).toNat = _
    rw [gep_of_nonneg h0, hint, Int.toNat_sub'' (by omega) h0]
    exact Mem.read_sub m arr.thead (by omega) (by omega)

theorem push (hI : Inv s) (hn : 2 ≤ n) (harr : s.slices[a]? = some arr)
    (hlen : arr.len + 1 < 2 ^ 30) :
    ∃ s', s.step z n (.Push a t) = some s' ∧ Step s s' (.Push a t) := by
  have hwf := hI.wf a arr harr
  obtain ⟨arr', m', hpush, hpushed⟩ := Slice.push_spec (z := z) (t := t) hwf hI.nil hlen hn
  have hself : (s.slices.set a arr')[a]? = some arr' :=
    List.getElem?_set_self (lt_of_getElem? harr)
  have hfresh : m'.sizes[0]? = some 0 := by
    obtain ⟨ext, hext⟩ := hpushed.grows
    rw [← hext, List.getElem?_append_left (List.getElem?_eq_some_iff.mp hI.nil).1]
    exact hI.nil
  refine ⟨⟨m', s.slices.set a arr'⟩, by simp [State.step, harr, hpush], ⟨hfresh, ?_⟩, ?_, ?_, ?_⟩
  · intro b brr hbrr
    by_cases hba : b = a
    · rw [hba] at hbrr
      obtain rfl := Option.some.inj (hself.symm.trans hbrr)
      exact hpushed.wf
    · rw [List.getElem?_set_ne (Ne.symm hba)] at hbrr
      exact (hI.wf b brr hbrr).grow hpushed.grows
  · show State.contents _ a = _
    rw [contents_eq hself, contents_eq harr]
    exact hpushed.read
  · exact Nat.le_of_eq List.length_set.symm
  · -- a slice only moves to an allocation that no other slice looks at
    have hmoved : ∀ b brr, b ≠ a → s.slices[b]? = some brr → Apart s a b →
        arr'.thead.block = brr.thead.block → arr'.thead.block = 0 := by
      intro b brr hba hbrr hab hblock
      have hlt := (hI.wf b brr hbrr).block_lt
      rcases hpushed.block with ⟨-, hstay⟩ | hnew
      · rw [hstay] at hblock ⊢
        exact hab arr brr harr hbrr hblock
      · omega
    intro b c hbc hb hc hapart brr crr hbrr hcrr hblock
    by_cases hba : b = a
    · subst hba
      obtain rfl := Option.some.inj (hself.symm.trans hbrr)
      rw [List.getElem?_set_ne hbc] at hcrr
      exact hmoved c crr (Ne.symm hbc) hcrr hapart hblock
    · rw [List.getElem?_set_ne (Ne.symm hba)] at hbrr
      by_cases hca : c = a
      · subst hca
        obtain rfl := Option.some.inj (hself.symm.trans hcrr)
        rw [hblock]
        exact hmoved b brr hba hbrr hapart.symm hblock.symm
      · rw [List.getElem?_set_ne (Ne.symm hca)] at hcrr
        exact hapart brr crr hbrr hcrr hblock

theorem indexSetOp (hI : Inv s) {index : Int} (harr : s.slices[a]? = some arr)
    (h0 : 0 ≤ index) (t : τ) :
    ∃ s', s.step z n (.IndexSetOp a index t) = some s' ∧ Step s s' (.IndexSetOp a index t) := by
  refine ⟨{ s with mem := arr.IndexSetOp s.mem index t }, by simp [State.step, harr],
    ⟨hI.nil, fun b brr hbrr => (hI.wf b brr hbrr).grow (List.prefix_refl _)⟩, ?_, Nat.le_refl _,
    fun _ _ _ _ _ hab => hab⟩
  show State.contents _ a = _
  have harr' : ({ s with mem := arr.IndexSetOp s.mem index t } : State τ).slices[a]? = some arr :=
    harr
  rw [contents_eq harr', contents_eq harr]
  show (s.mem.write (gep arr.thead index) [t]).read _ _ = _
  rw [gep_of_nonneg h0]
  exact Mem.read_write_set s.mem arr.thead _ _ t

theorem append (hI : Inv s) (harr : s.slices[a]? = some arr) (harr2 : s.slices[b]? = some arr2)
    (hlen : arr.len + arr2.len < 2 ^ 30) :
    ∃ s', s.step z n (.Append a b) = some s' ∧ Step s s' (.Append a b) ∧
      s'.slices.length = s.slices.length + 1 ∧ ∀ c, c < s.slices.length → Apart s' s.slices.length c := by
  have happ := Slice.append_spec (z := z) (hI.wf a arr harr) (hI.wf b arr2 harr2) hI.nil hlen
  have he : Extends s ⟨(Slice.Append z s.mem arr arr2).2,
      s.slices ++ [(Slice.Append z s.mem arr arr2).1]⟩ :=
    ⟨List.prefix_append _ _, happ.grows, happ.frame⟩
  refine ⟨_, by simp [State.step, harr, harr2], hI.made he rfl happ.wf ?_, ?_, ?_⟩
  · intro hcontents hkeeps
    refine ⟨?_, hkeeps⟩
    rw [hcontents, contents_eq harr, contents_eq harr2]
    exact happ.read
  · exact List.length_append
  · intro c hc newarr crr hnew hcrr hblock
    have hcrr' := (he.getElem? hc).symm.trans hcrr
    have hlt := (hI.wf c crr hcrr').block_lt
    obtain rfl := Option.some.inj (List.getElem?_concat_length.symm.trans hnew)
    rcases happ.block with hb | hb
    · omega
    · exact hb

/-- **Every operation in range** does what it should and keeps the invariant. -/
theorem step (hI : Inv s) (hn : 2 ≤ n) {op : Op τ} (hop : op.InRange s) :
    ∃ s', s.step z n op = some s' ∧ Step s s' op := by
  cases op with
  | array xs => exact hI.array xs
  | NewSlice =>
    exact ⟨_, rfl, hI.made (add_extends s NewSlice) rfl (Slice.newSlice_wf hI.nil)
      fun hcontents hkeeps => ⟨hcontents, hkeeps⟩⟩
  | FromArr head len =>
    obtain ⟨h0, hlen, hin⟩ := hop
    exact ⟨_, rfl, hI.made (add_extends s (FromArr head len)) rfl
      ⟨h0, Int.le_refl _, by show len < 2 ^ 31; omega, hin⟩
      fun hcontents hkeeps => ⟨hcontents, hkeeps⟩⟩
  | Push a t =>
    obtain ⟨arr, harr, hlen⟩ := hop
    exact hI.push hn harr hlen
  | IndexOp a index =>
    obtain ⟨arr, harr, h0, hlt⟩ := hop
    have hlt' : index.toNat < arr.len.toNat := by omega
    refine ⟨s, by simp [State.step, harr], hI, ⟨?_, ?_, rfl⟩, Nat.le_refl _,
      fun _ _ _ _ _ hab => hab⟩
    · rw [contents_eq harr, Mem.length_read]
      exact hlt'
    · rw [contents_eq harr, Mem.getElem?_read _ _ hlt', State.index, harr, Option.map_some,
        Slice.IndexOp, gep_of_nonneg h0]
      rfl
  | IndexSetOp a index t =>
    obtain ⟨arr, harr, h0, hlt⟩ := hop
    exact hI.indexSetOp harr h0 t
  | Slice a start stop =>
    obtain ⟨arr, harr, h0, hle, hstop⟩ := hop
    obtain ⟨hwf, hread⟩ := slice_spec (hI.wf a arr harr) h0 hle hstop
    refine ⟨_, by simp [State.step, harr], hI.made (add_extends s (arr.slice start stop)) rfl hwf
      fun hcontents hkeeps => ⟨?_, hkeeps⟩⟩
    rw [hcontents, contents_eq harr]
    exact hread
  | Append a b =>
    obtain ⟨arr, arr2, harr, harr2, hlen⟩ := hop
    obtain ⟨s', hs', hstep, -, -⟩ := hI.append harr harr2 hlen
    exact ⟨s', hs', hstep⟩

/-- Slices that look at different allocations do not see one another's writes. -/
theorem independent (hI : Inv s) (hn : 2 ≤ n) (hab : a ≠ b) (hapart : Apart s a b) :
    Independent z n s a b := by
  intro op hw hop s' hs'
  cases op with
  | Push a' t =>
    obtain rfl : a' = a := hw
    obtain ⟨arr, harr, hlen⟩ := hop
    have hwf := hI.wf a' arr harr
    obtain ⟨arr', m', hpush, hpushed⟩ := Slice.push_spec (z := z) (t := t) hwf hI.nil hlen hn
    simp only [State.step, harr, hpush, Option.bind_some, Option.some.injEq, bind] at hs'
    subst hs'
    rw [State.contents, State.contents, List.getElem?_set_ne hab]
    cases hb : s.slices[b]? with
    | none => rfl
    | some brr =>
      refine hpushed.frame _ _ (hI.wf b brr hb).block_lt fun hblock => ?_
      exact hwf.cap_eq_zero hI.nil (hapart arr brr harr hb hblock.symm)
  | IndexSetOp a' index t =>
    obtain rfl : a' = a := hw
    obtain ⟨arr, harr, h0, hlt⟩ := hop
    have hwf := hI.wf a' arr harr
    simp only [State.step, harr, Option.bind_some, Option.some.injEq, bind] at hs'
    subst hs'
    rw [State.contents, State.contents]
    cases hb : s.slices[b]? with
    | none => rfl
    | some brr =>
      show (s.mem.write (gep arr.thead index) [t]).read _ _ = _
      rw [gep_of_nonneg h0, Mem.read_write_of_apart]
      refine .inl fun hblock => ?_
      have hcap := hwf.cap_eq_zero hI.nil (hapart arr brr harr hb hblock)
      have hle := hwf.len_le
      omega
  | array _ | NewSlice | FromArr _ _ | IndexOp _ _ | Slice _ _ _ | Append _ _ =>
    exact absurd hw id

end Inv

/-! ## Every program -/

theorem reach_inv (hn : 2 ≤ n) (h : (machine z n).Reach (fun s op => op.InRange s) s) :
    Inv s := by
  apply h.invariant (P := Inv)
  · constructor
    · rfl
    · intro a arr harr
      cases harr
  · intro s op s' hI hop hs
    obtain ⟨s'', hs'', hstep⟩ := hI.step (z := z) hn hop
    obtain rfl := Option.some.inj (hs.symm.trans hs'')
    exact hstep.inv

/-- Slices apart stay apart, whatever the program does. -/
theorem leads_apart (hn : 2 ≤ n) (hI : Inv s) (hab : a ≠ b) (ha : a < s.slices.length)
    (hb : b < s.slices.length) (hapart : Apart s a b)
    (h : (machine z n).Leads (fun s op => op.InRange s) s u) : Inv u ∧ Apart u a b := by
  have hall : Inv u ∧ a < u.slices.length ∧ b < u.slices.length ∧ Apart u a b := by
    apply h.invariant
      (P := fun u => Inv u ∧ a < u.slices.length ∧ b < u.slices.length ∧ Apart u a b)
      ⟨hI, ha, hb, hapart⟩
    intro s op s' hs hop hstep
    obtain ⟨hI, ha, hb, hapart⟩ := hs
    obtain ⟨s'', hs'', h'⟩ := hI.step (z := z) hn hop
    obtain rfl := Option.some.inj (hstep.symm.trans hs'')
    exact ⟨h'.inv, Nat.lt_of_lt_of_le ha h'.length, Nat.lt_of_lt_of_le hb h'.length,
      h'.apart a b hab ha hb hapart⟩
  exact ⟨hall.1, hall.2.2.2⟩

/-- **Slices are safe.** In every state that operations in range reach, every slice has
`0 ≤ len ≤ cap` and `cap` elements from its head on in one allocation, which is there if
there are any; every operation in range does what it should; and whatever the program does
afterwards, no `Push` and no `IndexSetOp` on the result of `Append` changes an argument, nor
the reverse. -/
theorem slices_safe (z : τ) (hn : 2 ≤ n)
    (h : (machine z n).Reach (fun s op => op.InRange s) s) :
    (∀ arr ∈ s.slices, 0 ≤ arr.len ∧ arr.len ≤ arr.cap ∧
      s.mem.InBounds arr.thead arr.cap.toNat ∧ (0 < arr.cap → arr.thead.block ≠ 0)) ∧
    (∀ op, op.InRange s → ∃ s', (machine z n).step s op = some s' ∧ Effect s s' op) ∧
    ∀ a b s', Op.InRange s (.Append a b : Op τ) →
      (machine z n).step s (.Append a b) = some s' →
      ∀ u, (machine z n).Leads (fun s op => op.InRange s) s' u → ∀ c, c = a ∨ c = b →
        Independent z n u s.slices.length c ∧ Independent z n u c s.slices.length := by
  have hI := reach_inv hn h
  refine ⟨fun arr harr => ?_, fun op hop => ?_, fun a b s' hop hs' u hu c hc => ?_⟩
  · obtain ⟨a, ha⟩ := List.mem_iff_getElem?.mp harr
    have hwf := hI.wf a arr ha
    refine ⟨hwf.len_nonneg, hwf.len_le, hwf.inBounds, fun hpos hblock => ?_⟩
    have := hwf.cap_eq_zero hI.nil hblock
    omega
  · obtain ⟨s', hs', hstep⟩ := hI.step (z := z) hn hop
    exact ⟨s', hs', hstep.effect⟩
  · obtain ⟨arr, arr2, harr, harr2, hlen⟩ := hop
    obtain ⟨s'', hs'', hstep, hnew, hapart⟩ := hI.append (z := z) (n := n) harr harr2 hlen
    obtain rfl := Option.some.inj (hs'.symm.trans hs'')
    have hlt : c < s.slices.length := by
      rcases hc with rfl | rfl
      · exact lt_of_getElem? harr
      · exact lt_of_getElem? harr2
    obtain ⟨hIu, hau⟩ := leads_apart hn hstep.inv (Nat.ne_of_gt hlt) (by omega) (by omega)
      (hapart c hlt) hu
    exact ⟨hIu.independent hn (Nat.ne_of_gt hlt) hau,
      hIu.independent hn (Nat.ne_of_lt hlt) hau.symm⟩

/-- The first `Push` on a new slice makes room. -/
theorem slices_safe_push : ∃ s' : State Nat,
    (machine 0 2).step ⟨.empty 0, [NewSlice]⟩ (.Push 0 5) = some s' ∧
      s'.contents 0 = State.contents (⟨.empty 0, [NewSlice]⟩ : State Nat) 0 ++ [5] := by
  have hreach : (machine 0 2).Reach (fun s op => op.InRange s)
      (⟨.empty 0, [NewSlice]⟩ : State Nat) := .step .start (i := .NewSlice) trivial rfl
  exact (slices_safe 0 (Nat.le_refl 2) hreach).2.1 (.Push 0 5) ⟨NewSlice, rfl, by decide⟩

end CalcLang.Slices
