import CalcLang.Lib.Retry
import Mathlib.Tactic.Ring

/-!
# The capacity of a slice

`Push` of `runtime/slice/slice.calc` on a slice without room allocates twice the capacity, doubles it, and calls
itself. The length and the capacity are `int32`, the size of an element and of an allocation are 64 bits wide, and
the capacity is widened without its sign.

From 2³⁰ on the doubled capacity is negative, which to the next call is no room, so it doubles again: the capacity
goes on as `2 ^ k * cap` modulo 2³². It may come back into range above the length. If it comes back below, the
block that is allocated next is too small for the elements which are copied into it. `Push_iff` says for which
slices and element sizes it goes well.
-/

namespace CalcLang.Slices.Capacity

open CalcLang.Lib.Retry

/-- A slice, as far as its capacity goes. `bytes` is the size of the block that `thead` points to. -/
structure Slice where
  len : BitVec 32
  cap : BitVec 32
  bytes : Nat
  deriving DecidableEq, Repr

variable (size : BitVec 64)

namespace Slice

/-- `arr.cap > arr.len`. -/
def room (arr : Slice) : Bool := arr.len.slt arr.cap

/-- The branch without room. There is nothing more where `memcpy` writes behind the new block. A head that is
nil has nothing to copy. -/
def grow (arr : Slice) : Option Slice :=
  let cap := if arr.cap = 0 then 2 else arr.cap
  let mem := (size * 2 * cap.zeroExtend 64).toNat
  if (size * arr.len.zeroExtend 64).toNat ≤ mem then some ⟨arr.len, 2 * cap, mem⟩ else none

/-- `Push`, with at most `n` calls. -/
def Push : Nat → Slice → Option Slice
  | 0, _ => none
  | n + 1, arr =>
    if arr.room then some { arr with len := arr.len + 1 }
    else (arr.grow size).bind (Push n)

/-- A slice with elements of that size: they are in its block. -/
structure Proper (arr : Slice) : Prop where
  len_nonneg : 0 ≤ arr.len.toInt
  len_le : arr.len.toInt ≤ arr.cap.toInt
  len_lt : arr.len.toInt < 2 ^ 31 - 1
  holds : size.toNat * arr.cap.toNat ≤ arr.bytes
  addressed : arr.bytes < 2 ^ 64

/-- What `Push` should come to. -/
structure Pushed (arr arr' : Slice) : Prop where
  len_eq : arr'.len.toInt = arr.len.toInt + 1
  len_nonneg : 0 ≤ arr'.len.toInt
  len_le : arr'.len.toInt ≤ arr'.cap.toInt
  cap_nonneg : 0 ≤ arr'.cap.toInt
  holds : size.toNat * arr'.cap.toNat ≤ arr'.bytes

end Slice

/-! ## The numbers -/

/-- A capacity of 0 is taken for 2. -/
def atLeast2 (cap : Nat) : Nat := if cap = 0 then 2 else cap

/-- The capacity doubled `k` times, read without a sign. -/
def doubled (cap k : Nat) : Nat := 2 ^ k * atLeast2 cap % 2 ^ 32

/-- The size of the block that is allocated for twice so many elements. -/
def block (size cap : Nat) : Nat := 2 * size * cap % 2 ^ 64

/-- Read with its sign it is more than `len`. -/
def Above (len cap : Nat) : Prop := len < cap ∧ cap < 2 ^ 31

/-- The capacity comes to lie above the length after `k + 1` times and not before, the elements fit into each block
on the way, and as many as the capacity says into the last. -/
structure Grows (size len cap k : Nat) : Prop where
  above : Above len (doubled cap (k + 1))
  not_before : ∀ j < k, ¬ Above len (doubled cap (j + 1))
  fits : ∀ j ≤ k, size * len ≤ block size (doubled cap j)
  holds : size * doubled cap (k + 1) ≤ block size (doubled cap k)

/-! ### Along the calls -/

/-- What the `k`-th call without room doubles. -/
def source (cap : Nat) : Nat → Nat
  | 0 => atLeast2 cap
  | k + 1 => atLeast2 (2 * source cap k % 2 ^ 32)

variable {size} {arr t : Slice} {n k len cap : Nat}

theorem room_iff (hlen : arr.len.toNat < 2 ^ 31) : arr.room ↔ Above arr.len.toNat arr.cap.toNat := by
  unfold Slice.room Above
  rw [BitVec.slt_iff_toInt_lt]
  have hcap := arr.cap.isLt
  simp only [BitVec.toInt_eq_toNat_cond]
  omega

theorem toNat_wide (x y : BitVec 64) (c : BitVec 32) : (x * y * c.zeroExtend 64).toNat = x.toNat * y.toNat * c.toNat % 2 ^ 64 := by
  rw [BitVec.toNat_mul, BitVec.toNat_mul, BitVec.toNat_setWidth, Nat.mod_eq_of_lt (by omega : c.toNat < 2 ^ 64),
    Nat.mod_mul_mod]

/-- The arithmetic of the branch without room, in numbers. -/
theorem grow_eq : arr.grow size =
    if size.toNat * arr.len.toNat % 2 ^ 64 ≤ block size.toNat (atLeast2 arr.cap.toNat) then
      some ⟨arr.len, BitVec.ofNat 32 (2 * atLeast2 arr.cap.toNat), block size.toNat (atLeast2 arr.cap.toNat)⟩
    else none := by
  have hcap : (if arr.cap = 0 then 2 else arr.cap) = BitVec.ofNat 32 (atLeast2 arr.cap.toNat) := by
    unfold atLeast2
    by_cases h : arr.cap = 0
    · simp [h]
    · rw [if_neg h, if_neg (by simpa [← BitVec.toNat_inj] using h), BitVec.ofNat_toNat, BitVec.setWidth_eq]
  have hlt : atLeast2 arr.cap.toNat < 2 ^ 32 := by
    unfold atLeast2
    split <;> omega
  have hlen : (size * arr.len.zeroExtend 64).toNat = size.toNat * arr.len.toNat % 2 ^ 64 := by
    rw [BitVec.toNat_mul, BitVec.toNat_setWidth, Nat.mul_mod_mod]
  have hmem : (size * 2 * (BitVec.ofNat 32 (atLeast2 arr.cap.toNat)).zeroExtend 64).toNat =
      block size.toNat (atLeast2 arr.cap.toNat) := by
    rw [toNat_wide, BitVec.toNat_ofNat, Nat.mod_eq_of_lt hlt, block, Nat.mul_comm 2]
    rfl
  have htwice : 2 * BitVec.ofNat 32 (atLeast2 arr.cap.toNat) = BitVec.ofNat 32 (2 * atLeast2 arr.cap.toNat) := by
    rw [BitVec.ofNat_mul]
    rfl
  simp only [Slice.grow, hcap, hlen, hmem, htwice]

/-- The slice in front of the call number `k + 1`, from 0 on, if there is room for it nowhere before. -/
def grown (size : BitVec 64) (arr : Slice) (k : Nat) : Slice :=
  ⟨arr.len, BitVec.ofNat 32 (2 * source arr.cap.toNat k), block size.toNat (source arr.cap.toNat k)⟩

theorem after_eq : after (Slice.grow size) (k + 1) arr =
    if ∀ j ≤ k, size.toNat * arr.len.toNat % 2 ^ 64 ≤ block size.toNat (source arr.cap.toNat j) then
      some (grown size arr k)
    else none := by
  induction k with
  | zero =>
    rw [after_succ, after, Option.bind_some, grow_eq]
    simp [source, grown]
  | succ k ih =>
    rw [after_succ, ih]
    simp only [Nat.le_succ_iff, or_imp, forall_and, forall_eq]
    split
    · rename_i hfits
      rw [Option.bind_some, grow_eq, grown, BitVec.toNat_ofNat, if_congr (and_iff_right hfits) rfl rfl]
      rfl
    · rename_i hfits
      rw [if_neg fun h => hfits h.1]
      rfl

theorem room_grown_iff (hlen : arr.len.toNat < 2 ^ 31) :
    (grown size arr k).room ↔ Above arr.len.toNat (2 * source arr.cap.toNat k % 2 ^ 32) := by
  rw [room_iff (show (grown size arr k).len.toNat < 2 ^ 31 from hlen), grown, BitVec.toNat_ofNat]

theorem doubled_succ (cap k : Nat) : doubled cap (k + 1) = 2 * doubled cap k % 2 ^ 32 := by
  unfold doubled
  rw [Nat.mul_mod_mod, Nat.pow_succ', Nat.mul_assoc]

/-! ### The capacity in closed form -/

theorem source_eq_doubled (h : ∀ j < k, doubled cap (j + 1) ≠ 0) (hcap : cap < 2 ^ 32) :
    source cap k = doubled cap k := by
  induction k with
  | zero =>
    rw [source, doubled, Nat.pow_zero, Nat.one_mul, Nat.mod_eq_of_lt]
    unfold atLeast2
    split <;> omega
  | succ k ih =>
    rw [source, ih fun j hj => h j (Nat.lt_succ_of_lt hj), ← doubled_succ, atLeast2, if_neg (h k (Nat.lt_succ_self k))]

/-- Once it is 0 it stays 0. -/
theorem doubled_eq_zero {j : Nat} (h : doubled cap j = 0) (hjk : j ≤ k) : doubled cap k = 0 := by
  induction hjk with
  | refl => exact h
  | step _ ih => rw [Nat.succ_eq_add_one, doubled_succ, ih, Nat.mul_zero, Nat.zero_mod]

/-- A capacity that has been 0 is a power of two, as long as it is not 0 again. -/
def PowerOrZero (cap : Nat) : Prop := cap = 0 ∨ ∃ e < 32, cap = 2 ^ e

theorem PowerOrZero.twice (h : PowerOrZero cap) : PowerOrZero (2 * atLeast2 cap % 2 ^ 32) := by
  rcases h with rfl | ⟨e, he, rfl⟩
  · exact .inr ⟨2, by decide, rfl⟩
  · have hpos : 2 ^ e ≠ 0 := Nat.pos_iff_ne_zero.mp (Nat.two_pow_pos e)
    rw [atLeast2, if_neg hpos, ← Nat.pow_succ']
    rcases Nat.lt_or_ge (e + 1) 32 with hlt | hge
    · exact .inr ⟨e + 1, hlt, Nat.mod_eq_of_lt (Nat.pow_lt_pow_right (by decide) hlt)⟩
    · have : e + 1 = 32 := by omega
      exact .inl (by rw [Nat.succ_eq_add_one, this, Nat.mod_self])

theorem PowerOrZero.not_above (h : PowerOrZero cap) (hlen : 2 ^ 30 ≤ len) : ¬ Above len cap := by
  rintro ⟨hlt, hcap⟩
  rcases h with rfl | ⟨e, he, rfl⟩
  · exact absurd hlt (Nat.not_lt_zero len)
  · have he31 : e < 31 := (Nat.pow_lt_pow_iff_right (by decide)).mp hcap
    have hle : 2 ^ e ≤ 2 ^ 30 := Nat.pow_le_pow_right (by decide) (Nat.le_of_lt_succ he31)
    omega

/-- Where the first doubling does not help, the length is 2³⁰ at least. -/
theorem le_len_of_not_above (hlen : len = cap) (h : ¬ Above len (doubled cap 1)) : 2 ^ 30 ≤ len := by
  by_contra hlt
  apply h
  unfold Above doubled atLeast2
  split <;> omega

theorem powerOrZero_source {j : Nat} (h : PowerOrZero (2 * source cap j % 2 ^ 32)) (hjk : j ≤ k) :
    PowerOrZero (2 * source cap k % 2 ^ 32) := by
  induction hjk with
  | refl => exact h
  | step _ ih => exact ih.twice

/-- As long as it comes to lie above the length at last, the capacity is never 0 on the way. -/
theorem source_of_above (hlen : len = cap) (hcap : cap < 2 ^ 32) (habove : Above len (2 * source cap k % 2 ^ 32))
    (hbefore : ∀ j < k, ¬ Above len (2 * source cap j % 2 ^ 32)) : ∀ j ≤ k, source cap j = doubled cap j := by
  intro j hj
  induction j with
  | zero => exact source_eq_doubled (fun i hi => absurd hi (Nat.not_lt_zero i)) hcap
  | succ j ih =>
    have hsource := ih (Nat.le_of_succ_le hj)
    -- a 0 would make the capacity a power of two from there on, and none lies above such a length
    have hlarge : 2 ^ 30 ≤ len := by
      refine le_len_of_not_above hlen ?_
      have hfirst := hbefore 0 (Nat.lt_of_lt_of_le (Nat.succ_pos j) hj)
      rwa [source_eq_doubled (fun i hi => absurd hi (Nat.not_lt_zero i)) hcap, ← doubled_succ] at hfirst
    have hpos : doubled cap (j + 1) ≠ 0 := by
      intro hzero
      have hpower : PowerOrZero (2 * source cap j % 2 ^ 32) := .inl (by rw [hsource, ← doubled_succ, hzero])
      exact (powerOrZero_source hpower (Nat.le_of_succ_le hj)).not_above hlarge habove
    rw [source, hsource, ← doubled_succ, atLeast2, if_neg hpos]

/-- The capacity is what it is in the closed form, in a run that goes well. -/
theorem grows_iff (hlen : len = cap) (hcap : cap < 2 ^ 32) (size k : Nat) :
    Grows size len cap k ↔
      Above len (2 * source cap k % 2 ^ 32) ∧ (∀ j < k, ¬ Above len (2 * source cap j % 2 ^ 32)) ∧
        (∀ j ≤ k, size * len ≤ block size (source cap j)) ∧
        size * (2 * source cap k % 2 ^ 32) ≤ block size (source cap k) := by
  constructor
  · intro h
    -- without the 2 that stands in for a 0, a capacity of 0 is one for good
    have hpos : ∀ j < k, doubled cap (j + 1) ≠ 0 := by
      intro j hj hzero
      have hlast : doubled cap (k + 1) = 0 := doubled_eq_zero hzero (Nat.succ_le_succ (Nat.le_of_lt hj))
      exact absurd h.above.1 (by omega)
    have hsource : ∀ j ≤ k, source cap j = doubled cap j := fun j hj =>
      source_eq_doubled (fun i hi => hpos i (Nat.lt_of_lt_of_le hi hj)) hcap
    rw [hsource k (Nat.le_refl k), ← doubled_succ]
    refine ⟨h.above, fun j hj => ?_, fun j hj => ?_, h.holds⟩
    · rw [hsource j (Nat.le_of_lt hj), ← doubled_succ]
      exact h.not_before j hj
    · rw [hsource j hj]
      exact h.fits j hj
  · intro ⟨habove, hbefore, hfits, hholds⟩
    have hsource := source_of_above hlen hcap habove hbefore
    rw [hsource k (Nat.le_refl k), ← doubled_succ] at habove hholds
    refine ⟨habove, fun j hj => ?_, fun j hj => ?_, hholds⟩
    · rw [doubled_succ, ← hsource j (Nat.le_of_lt hj)]
      exact hbefore j hj
    · rw [← hsource j hj]
      exact hfits j hj

/-! ## `Push` -/

theorem Push_eq (n : Nat) (arr : Slice) :
    arr.Push size n = (retry Slice.room (Slice.grow size) n arr).map fun t => { t with len := t.len + 1 } := by
  induction n generalizing arr with
  | zero => rfl
  | succ n ih =>
    rw [Slice.Push, retry]
    split
    · rfl
    · rw [Option.map_bind]
      congr 1
      funext u
      exact ih u

namespace Slice.Proper

theorem len_lt_toNat (h : arr.Proper size) : arr.len.toNat < 2 ^ 31 - 1 := by
  have := h.len_nonneg
  have := h.len_lt
  simp only [BitVec.toInt_eq_toNat_cond] at *
  omega

theorem len_le_toNat (h : arr.Proper size) : arr.len.toNat ≤ arr.cap.toNat := by
  have := h.len_nonneg
  have := h.len_le
  have := h.len_lt
  simp only [BitVec.toInt_eq_toNat_cond] at *
  omega

/-- A slice without room is full. -/
theorem len_eq_cap (h : arr.Proper size) (hroom : arr.room = false) : arr.len.toNat = arr.cap.toNat := by
  have h0 := h.len_nonneg
  have h1 := h.len_le
  simp only [Slice.room, Bool.eq_false_iff, ne_eq, BitVec.slt_iff_toInt_lt] at hroom
  simp only [BitVec.toInt_eq_toNat_cond] at *
  omega

/-- The elements do not take more bytes than can be addressed. -/
theorem copied_eq (h : arr.Proper size) : size.toNat * arr.len.toNat % 2 ^ 64 = size.toNat * arr.len.toNat := by
  refine Nat.mod_eq_of_lt ?_
  have hle := Nat.mul_le_mul_left size.toNat h.len_le_toNat
  have := h.holds
  have := h.addressed
  omega

/-- Where there is room in the end, all that can go wrong is the size of the block. -/
theorem pushed_iff (h : arr.Proper size) (hlen : t.len = arr.len) (habove : Above arr.len.toNat t.cap.toNat) :
    Pushed size arr { t with len := t.len + 1 } ↔ size.toNat * t.cap.toNat ≤ t.bytes := by
  have hlt := h.len_lt_toNat
  have h0 := h.len_nonneg
  constructor
  · exact fun hp => hp.holds
  · intro hholds
    have hadd : (arr.len + 1).toNat = arr.len.toNat + 1 := by
      rw [BitVec.toNat_add]
      exact Nat.mod_eq_of_lt (show arr.len.toNat + 1 < 2 ^ 32 by omega)
    obtain ⟨hcap, hcap31⟩ := habove
    refine ⟨?_, ?_, ?_, ?_, hholds⟩ <;> simp only [hlen, BitVec.toInt_eq_toNat_cond, hadd] <;> omega

end Slice.Proper

/-- The first call with room is the one behind `k + 1` calls without. -/
theorem first_succ_iff (h : arr.Proper size) (hroom : arr.room = false) :
    (∃ t, First Slice.room (Slice.grow size) arr t (k + 1) ∧ Slice.Pushed size arr { t with len := t.len + 1 }) ↔
      Grows size.toNat arr.len.toNat arr.cap.toNat k := by
  have hlt : arr.len.toNat < 2 ^ 31 := Nat.lt_of_lt_of_le h.len_lt_toNat (by decide)
  -- the slice behind `k + 1` calls, and when the last of them goes well, for every `k`
  have hafter := fun k => @after_eq size arr k
  have hpushed := fun k => h.pushed_iff (t := grown size arr k) rfl
  have hcap : ∀ k, (grown size arr k).cap.toNat = 2 * source arr.cap.toNat k % 2 ^ 32 := fun k => BitVec.toNat_ofNat ..
  simp only [h.copied_eq] at hafter
  simp only [hcap] at hpushed
  rw [grows_iff (h.len_eq_cap hroom) arr.cap.isLt]
  constructor
  · intro ⟨t, hfirst, hp⟩
    have hk := hfirst.after_eq
    rw [hafter] at hk
    split at hk
    · rename_i hfits
      obtain rfl := Option.some.inj hk
      have habove := (room_grown_iff hlt).mp hfirst.can_last
      refine ⟨habove, fun j hj hab => ?_, hfits, (hpushed k habove).mp hp⟩
      have hj' := hfirst.not_before (j + 1) (Nat.succ_lt_succ hj) _
        ((hafter j).trans (if_pos fun i hi => hfits i (Nat.le_trans hi (Nat.le_of_lt hj))))
      exact Bool.false_ne_true (hj'.symm.trans ((room_grown_iff hlt).mpr hab))
    · exact absurd hk (by simp)
  · intro ⟨habove, hbefore, hfits, hholds⟩
    refine ⟨grown size arr k, ⟨(hafter k).trans (if_pos hfits), (room_grown_iff hlt).mpr habove, ?_⟩,
      (hpushed k habove).mpr hholds⟩
    intro j hj u hu
    cases j with
    | zero => exact Option.some.inj hu ▸ hroom
    | succ j =>
      rw [hafter] at hu
      split at hu
      · obtain rfl := Option.some.inj hu
        exact Bool.eq_false_iff.mpr fun hr => hbefore j (Nat.lt_of_succ_lt_succ hj) ((room_grown_iff hlt).mp hr)
      · exact absurd hu (by simp)

/-- `Push` goes well just if there is room, or the doubled capacity comes to lie above the length, modulo 2³² and read
with its sign, and all blocks on the way are large enough. -/
theorem Push_iff {size : BitVec 64} {arr : Slice} (h : arr.Proper size) :
    (∃ n arr', arr.Push size n = some arr' ∧ Slice.Pushed size arr arr') ↔
      arr.len.toInt < arr.cap.toInt ∨ ∃ k, Grows size.toNat arr.len.toNat arr.cap.toNat k := by
  have hrun : (∃ n arr', arr.Push size n = some arr' ∧ Slice.Pushed size arr arr') ↔
      ∃ k t, First Slice.room (Slice.grow size) arr t k ∧ Slice.Pushed size arr { t with len := t.len + 1 } := by
    simp only [Push_eq, Option.map_eq_some_iff]
    constructor
    · rintro ⟨n, _, ⟨t, ht, rfl⟩, hp⟩
      obtain ⟨k, hk⟩ := retry_iff.mp ⟨n, ht⟩
      exact ⟨k, t, hk, hp⟩
    · rintro ⟨k, t, hk, hp⟩
      obtain ⟨n, hn⟩ := retry_iff.mpr ⟨k, hk⟩
      exact ⟨n, _, ⟨t, hn, rfl⟩, hp⟩
  rw [hrun, ← BitVec.slt_iff_toInt_lt]
  by_cases hroom : arr.room
  · refine iff_of_true ⟨0, arr, ⟨rfl, hroom, fun j hj => absurd hj (Nat.not_lt_zero j)⟩, ?_⟩ (.inl hroom)
    exact (h.pushed_iff rfl ((room_iff (Nat.lt_of_lt_of_le h.len_lt_toNat (by decide))).mp hroom)).mpr h.holds
  · have hfull : arr.room = false := Bool.eq_false_iff.mpr hroom
    rw [or_iff_right (show ¬ arr.len.slt arr.cap from hroom)]
    -- the first call has no room
    constructor
    · rintro ⟨k, t, hk, hp⟩
      cases k with
      | zero => exact absurd (Option.some.inj hk.after_eq ▸ hk.can_last) hroom
      | succ k => exact ⟨k, (first_succ_iff h hfull).mp ⟨t, hk, hp⟩⟩
    · rintro ⟨k, hk⟩
      obtain ⟨t, ht, hp⟩ := (first_succ_iff h hfull).mpr hk
      exact ⟨k + 1, t, ht, hp⟩

/-- A full slice of two four-byte elements grows. -/
theorem Push_two : ∃ n arr', (⟨2, 2, 8⟩ : Slice).Push 4 n = some arr' ∧ Slice.Pushed 4 ⟨2, 2, 8⟩ arr' := by
  have hproper : (⟨2, 2, 8⟩ : Slice).Proper 4 := ⟨by decide, by decide, by decide, by decide, by decide⟩
  refine (Push_iff hproper).mpr (.inr ⟨0, ?_⟩)
  refine ⟨⟨by decide, by decide⟩, fun j hj => absurd hj (Nat.not_lt_zero j), fun j hj => ?_, by decide⟩
  rw [Nat.le_zero.mp hj]
  decide

/-- The capacity of a full slice of 2³⁰ bytes comes to 0, and what is allocated then are four bytes. -/
theorem Push_full :
    ¬ ∀ (size : BitVec 64) (arr : Slice), arr.Proper size →
      ∃ n arr', arr.Push size n = some arr' ∧ Slice.Pushed size arr arr' := by
  intro h
  have hproper : Slice.Proper 1 ⟨2 ^ 30, 2 ^ 30, 2 ^ 30⟩ := ⟨by decide, by decide, by decide, by decide, by decide⟩
  have hnone : ∀ n, Slice.Push 1 n ⟨2 ^ 30, 2 ^ 30, 2 ^ 30⟩ = none
    | 0 | 1 | 2 => rfl
    | _ + 3 => rfl
  obtain ⟨n, arr', hpush, -⟩ := h _ _ hproper
  exact absurd ((hnone n).symm.trans hpush) (by simp)

/-- With fewer than 2³⁰ elements all that can go wrong is the size of the block. -/
theorem grows_iff_of_lt (hlen : len = cap) (hcap : cap < 2 ^ 30) (size : Nat) :
    (∃ k, Grows size len cap k) ↔ 2 * size * atLeast2 cap < 2 ^ 64 := by
  have hlt : 2 * atLeast2 cap < 2 ^ 31 := by
    unfold atLeast2
    split <;> omega
  have hzero : doubled cap 0 = atLeast2 cap := by
    rw [doubled, Nat.pow_zero, Nat.one_mul, Nat.mod_eq_of_lt (by omega)]
  have hone : doubled cap 1 = 2 * atLeast2 cap := by
    rw [doubled, Nat.pow_one, Nat.mod_eq_of_lt (by omega)]
  have habove : Above len (doubled cap 1) := by
    rw [hone]
    refine ⟨?_, hlt⟩
    unfold atLeast2
    split <;> omega
  have hassoc : size * (2 * atLeast2 cap) = 2 * size * atLeast2 cap := by ring
  constructor
  · intro ⟨k, h⟩
    cases k with
    | zero =>
      have hholds := h.holds
      rw [block, hzero, hone, hassoc] at hholds
      exact Nat.lt_of_le_of_lt hholds (Nat.mod_lt _ (by decide))
    -- the first doubling suffices
    | succ k => exact absurd habove (h.not_before 0 (Nat.succ_pos k))
  · intro h
    refine ⟨0, habove, fun j hj => absurd hj (Nat.not_lt_zero j), fun j hj => ?_, ?_⟩
    · rw [Nat.le_zero.mp hj, block, hzero, Nat.mod_eq_of_lt h, ← hassoc, ← hone]
      exact Nat.mul_le_mul_left size (Nat.le_of_lt habove.1)
    · rw [block, hzero, hone, hassoc, Nat.mod_eq_of_lt h]

end CalcLang.Slices.Capacity
