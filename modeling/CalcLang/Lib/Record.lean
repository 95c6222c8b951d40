import CalcLang.Lib.Memory

/-!
# Records in memory

The fields of a record lie one behind the other, each at the next address that its alignment allows. `offset fs k` is
where the field `k` begins, from the start of the record.

A range from the begin of one field to that of another is filled by `memset` without regard to what is in it. The fields
between the two have the filling then (`read_memset_inside`), and all others are as before
(`read_memset_outside`); what else is in the range is padding.
-/

namespace CalcLang.Lib.Record

open Mem

/-- What the layout needs of a type. -/
structure Shape where
  size : Nat
  align : Nat

/-- The next multiple. -/
def alignTo (off align : Nat) : Nat := off + (align - off % align) % align

theorem le_alignTo (off align : Nat) : off ≤ alignTo off align := Nat.le_add_right _ _

/-- Where the field `k` begins, if the first one may begin at `off`. Behind the last field it is where that one ends. -/
def offsetFrom (off : Nat) : List Shape → Nat → Nat
  | [], _ => off
  | f :: _, 0 => alignTo off f.align
  | f :: fs, k + 1 => offsetFrom (alignTo off f.align + f.size) fs k

abbrev offset (fs : List Shape) (k : Nat) : Nat := offsetFrom 0 fs k

/-- A record as a field of another. -/
def shape (fs : List Shape) : Shape :=
  let align := fs.foldl (fun a f => max a f.align) 1
  ⟨alignTo (offset fs fs.length) align, align⟩

variable {fs : List Shape} {f g : Shape} {i j k off : Nat}

@[simp] theorem offsetFrom_nil (off k : Nat) : offsetFrom off [] k = off := by cases k <;> rfl

@[simp] theorem offsetFrom_zero (off : Nat) (f : Shape) (fs : List Shape) :
    offsetFrom off (f :: fs) 0 = alignTo off f.align := rfl

@[simp] theorem offsetFrom_succ (off : Nat) (f : Shape) (fs : List Shape) (k : Nat) :
    offsetFrom off (f :: fs) (k + 1) = offsetFrom (alignTo off f.align + f.size) fs k := rfl

theorem le_offsetFrom (off : Nat) (fs : List Shape) (k : Nat) : off ≤ offsetFrom off fs k := by
  induction fs generalizing off k with
  | nil => simp
  | cons f fs ih =>
    have halign := le_alignTo off f.align
    cases k with
    | zero => exact halign
    | succ k =>
      have hrest := ih (alignTo off f.align + f.size) k
      rw [offsetFrom_succ]
      omega

/-- A field ends in front of every later one. -/
theorem offsetFrom_add_size_le (hf : fs[j]? = some f) (hjk : j < k) :
    offsetFrom off fs j + f.size ≤ offsetFrom off fs k := by
  induction fs generalizing off j k with
  | nil => simp at hf
  | cons g fs ih =>
    obtain ⟨k, rfl⟩ := Nat.exists_eq_add_one_of_ne_zero (Nat.ne_zero_of_lt hjk)
    cases j with
    | zero =>
      obtain rfl : g = f := Option.some.inj hf
      -- the fields behind it are laid out from its end on
      exact le_offsetFrom _ fs k
    | succ j => exact ih hf (Nat.lt_of_succ_lt_succ hjk)

theorem offsetFrom_mono (hjk : j ≤ k) : offsetFrom off fs j ≤ offsetFrom off fs k := by
  induction fs generalizing off j k with
  | nil => simp
  | cons g fs ih =>
    cases j with
    | zero =>
      cases k with
      | zero => exact Nat.le_refl _
      | succ k =>
        have hrest := le_offsetFrom (alignTo off g.align + g.size) fs k
        rw [offsetFrom_zero, offsetFrom_succ]
        omega
    | succ j =>
      obtain ⟨k, rfl⟩ := Nat.exists_eq_add_one_of_ne_zero (Nat.ne_zero_of_lt hjk)
      exact ih (Nat.le_of_succ_le_succ hjk)

theorem offset_add_size_le (hf : fs[j]? = some f) (hjk : j < k) : offset fs j + f.size ≤ offset fs k :=
  offsetFrom_add_size_le hf hjk

theorem offset_mono (fs : List Shape) (hjk : j ≤ k) : offset fs j ≤ offset fs k := offsetFrom_mono hjk

/-- A place between the begins of two fields is behind the begin of one of them, and in front of the next. -/
theorem exists_offset_le {o : Nat} (hi : offset fs i ≤ o) (hj : o < offset fs j) :
    ∃ k, i ≤ k ∧ k < j ∧ offset fs k ≤ o ∧ o < offset fs (k + 1) := by
  induction j with
  | zero =>
    have := offset_mono fs (Nat.zero_le i)
    omega
  | succ j ih =>
    by_cases hlt : o < offset fs j
    · obtain ⟨k, hik, hkj, hk⟩ := ih hlt
      exact ⟨k, hik, Nat.lt_succ_of_lt hkj, hk⟩
    · have hij : i ≤ j := by
        by_contra hji
        have : offset fs (j + 1) ≤ offset fs i := offset_mono fs (Nat.lt_of_not_le hji)
        omega
      exact ⟨j, hij, Nat.lt_succ_self j, Nat.le_of_not_lt hlt, hj⟩

/-! ## In a block -/

variable {β : Type} {m : Mem β} {p q : Ptr} {v : β}

/-- `getelementptr`. -/
def field (fs : List Shape) (p : Ptr) (k : Nat) : Ptr := p.add (offset fs k)

@[simp] theorem field_block (fs : List Shape) (p : Ptr) (k : Nat) : (field fs p k).block = p.block := rfl

@[simp] theorem field_off (fs : List Shape) (p : Ptr) (k : Nat) :
    (field fs p k).off = p.off + offset fs k := rfl

/-- `memset`. -/
def memset (m : Mem β) (p : Ptr) (v : β) (n : Nat) : Mem β := m.write p (List.replicate n v)

theorem cell_memset (m : Mem β) (p : Ptr) (v : β) (n b o : Nat) :
    (memset m p v n).cell b o = if b = p.block ∧ p.off ≤ o ∧ o < p.off + n then v else m.cell b o := by
  simp only [memset, Mem.write, List.getD_eq_getElem?_getD, List.getElem?_replicate]
  by_cases hfrom : b = p.block ∧ p.off ≤ o
  · rw [if_pos hfrom]
    by_cases hto : o - p.off < n
    · rw [if_pos hto, if_pos ⟨hfrom.1, hfrom.2, by omega⟩]
      rfl
    · rw [if_neg hto, if_neg fun h => hto (by omega)]
      rfl
  · rw [if_neg hfrom, if_neg fun h => hfrom ⟨h.1, h.2.1⟩]

/-- What lies in the range reads as the filling. -/
theorem read_memset_within {n l : Nat} (hblock : q.block = p.block) (hlo : p.off ≤ q.off)
    (hhi : q.off + l ≤ p.off + n) : (memset m p v n).read q l = List.replicate l v := by
  refine List.ext_getElem? fun i => ?_
  by_cases hi : i < l
  · have hin : p.off ≤ q.off + i ∧ q.off + i < p.off + n := by omega
    rw [getElem?_read _ _ hi, cell_memset, if_pos ⟨hblock, hin⟩, List.getElem?_replicate, if_pos hi]
  · rw [List.getElem?_eq_none (by simpa using hi), List.getElem?_eq_none (by simpa using hi)]

/-- Different fields have no cell in common. -/
theorem apart_field (hf : fs[j]? = some f) (hg : fs[k]? = some g) (hne : j ≠ k) (p : Ptr) :
    Apart (field fs p j) f.size (field fs p k) g.size := by
  refine .inr ?_
  rcases Nat.lt_or_gt_of_ne hne with hlt | hgt
  · have := offset_add_size_le hf hlt
    simp only [field_off]
    omega
  · have := offset_add_size_le hg hgt
    simp only [field_off]
    omega

/-- A range of fields filled: those outside. -/
theorem read_memset_outside (hf : fs[k]? = some f) (h : k < i ∨ j ≤ k) (hij : i ≤ j) :
    (memset m (field fs p i) v (offset fs j - offset fs i)).read (field fs p k) f.size = m.read (field fs p k) f.size := by
  refine read_write_of_apart m (.inr ?_)
  have hmono := offset_mono fs hij
  simp only [field_off, List.length_replicate]
  rcases h with hlt | hge
  · have := offset_add_size_le hf hlt
    omega
  · have := offset_mono fs hge
    omega

/-- What lies in one of those inside. -/
theorem read_memset_inside {l : Nat} (hf : fs[k]? = some f) (hik : i ≤ k) (hkj : k < j)
    (hblock : q.block = p.block) (hlo : (field fs p k).off ≤ q.off)
    (hhi : q.off + l ≤ (field fs p k).off + f.size) :
    (memset m (field fs p i) v (offset fs j - offset fs i)).read q l = List.replicate l v := by
  have hi := offset_mono fs hik
  have hj := offset_add_size_le hf hkj
  simp only [field_off] at hlo hhi
  refine read_memset_within hblock ?_ ?_
  · simp only [field_off]
    omega
  · simp only [field_off]
    omega

/-- A field ends where the record does, or before. -/
theorem offset_add_size_le_shape (hf : fs[k]? = some f) : offset fs k + f.size ≤ (shape fs).size := by
  have hk := (List.getElem?_eq_some_iff.mp hf).1
  exact Nat.le_trans (offset_add_size_le hf hk) (le_alignTo _ _)

end CalcLang.Lib.Record
