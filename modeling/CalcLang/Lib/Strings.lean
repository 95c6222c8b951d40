import Mathlib.Data.List.DropRight

/-!
# Trimming and replacing

`Trim cut s` is `s` without the elements at its ends that `cut` holds of, `ReplaceAll old new s`
is `s` with `new` for every occurrence of `old`, from the left. What is escaped
(`escape`: every `q` is written as `old`) is taken back by a replacement when the text had no escapes in it
before (`ReplaceAll_escape`).
-/

namespace CalcLang.Lib.Strings

variable {α : Type}

/-! ## Trimming -/

def Trim (cut : α → Bool) (s : List α) : List α := (s.dropWhile cut).rdropWhile cut

variable {cut : α → Bool}

theorem rdropWhile_append_cut {ys zs : List α} (hz : ∀ c ∈ zs, cut c) :
    (ys ++ zs).rdropWhile cut = ys.rdropWhile cut := by
  induction zs using List.reverseRecOn with
  | nil => rw [List.append_nil]
  | append_singleton zs c ih =>
    rw [← List.append_assoc, List.rdropWhile_concat_pos _ _ _ (hz c (by simp))]
    exact ih fun d hd => hz d (by simp [hd])

/-- What stays when the ends are trimmed away. -/
theorem Trim_wrap {xs ys zs : List α} (hx : ∀ c ∈ xs, cut c) (hz : ∀ c ∈ zs, cut c)
    (hhead : ∀ c ∈ ys.head?, cut c = false) (hlast : ∀ c ∈ ys.getLast?, cut c = false) :
    Trim cut (xs ++ ys ++ zs) = ys := by
  unfold Trim
  rw [List.append_assoc, List.dropWhile_append_of_pos hx]
  cases ys with
  | nil =>
    have hall : (List.dropWhile cut ([] ++ zs)) = [] := List.dropWhile_eq_nil_iff.mpr (by simpa using hz)
    rw [hall, List.rdropWhile_nil]
  | cons c ys =>
    have hc : ¬ cut c = true := by simpa using hhead c rfl
    rw [List.cons_append, List.dropWhile_cons_of_neg hc, ← List.cons_append, rdropWhile_append_cut hz]
    refine List.rdropWhile_eq_self_iff.mpr fun hne => ?_
    have := hlast _ (List.getLast?_eq_some_getLast hne)
    simp [this]

/-- Trimming takes nothing away from the middle. -/
theorem Trim_cut_append {ys zs : List α} (hz : ∀ c ∈ zs, cut c) : Trim cut (ys ++ zs) = Trim cut ys := by
  unfold Trim
  rw [List.dropWhile_append]
  split
  · rename_i h
    rw [List.isEmpty_iff.mp h, List.dropWhile_eq_nil_iff.mpr (by simpa using hz)]
  · exact rdropWhile_append_cut hz

theorem Trim_subset (cut : α → Bool) (s : List α) : Trim cut s ⊆ s :=
  List.Subset.trans (List.rdropWhile_prefix _ _).subset (List.dropWhile_suffix _).subset

/-! ## Replacing -/

variable [DecidableEq α]

/-- The first number of elements have been replaced already. -/
def replaceFrom (old new : List α) : Nat → List α → List α
  | _, [] => []
  | k + 1, _ :: s => replaceFrom old new k s
  | 0, c :: s =>
    if old.isPrefixOf (c :: s) then new ++ replaceFrom old new (old.length - 1) s
    else c :: replaceFrom old new 0 s

def ReplaceAll (old new s : List α) : List α := replaceFrom old new 0 s

/-- Every `q` is written as `old`. -/
def escape (q : α) (old : List α) (t : List α) : List α := t.flatMap fun c => if c = q then old else [c]

variable {o q : α} {os new : List α}

theorem replaceFrom_drop (old new s t : List α) : replaceFrom old new s.length (s ++ t) = ReplaceAll old new t := by
  induction s with
  | nil => cases t <;> rfl
  | cons c s ih => exact ih

theorem ReplaceAll_cons {c : α} (h : c ≠ o) (s : List α) :
    ReplaceAll (o :: os) new (c :: s) = c :: ReplaceAll (o :: os) new s := by
  have hp : (o :: os).isPrefixOf (c :: s) = false := by simp [List.isPrefixOf, h.symm]
  show (if _ then _ else _) = _
  rw [hp]
  rfl

theorem ReplaceAll_old (s : List α) :
    ReplaceAll (o :: os) new ((o :: os) ++ s) = new ++ ReplaceAll (o :: os) new s := by
  have hp : (o :: os).isPrefixOf (o :: (os ++ s)) = true := by
    rw [List.isPrefixOf_iff_prefix]
    exact List.prefix_append (o :: os) s
  rw [List.cons_append]
  show (if _ then _ else _) = _
  rw [hp]
  exact congrArg (new ++ ·) (replaceFrom_drop (o :: os) new os s)

theorem ReplaceAll_append {x : List α} (h : o ∉ x) (s : List α) :
    ReplaceAll (o :: os) new (x ++ s) = x ++ ReplaceAll (o :: os) new s := by
  induction x with
  | nil => rfl
  | cons c x ih =>
    have hc : c ≠ o := fun hc => h (hc ▸ List.mem_cons_self)
    rw [List.cons_append, ReplaceAll_cons hc, ih fun hx => h (List.mem_cons_of_mem _ hx)]
    rfl

/-- An escaped text in front of another. -/
theorem ReplaceAll_escape {t : List α} (h : o ∉ t) (s : List α) :
    ReplaceAll (o :: os) new (escape q (o :: os) t ++ s) = escape q new t ++ ReplaceAll (o :: os) new s := by
  induction t with
  | nil => rfl
  | cons c t ih =>
    have hc : c ≠ o := fun hc => h (hc ▸ List.mem_cons_self)
    have ih := ih fun ht => h (List.mem_cons_of_mem _ ht)
    unfold escape at ih ⊢
    rw [List.flatMap_cons, List.flatMap_cons, List.append_assoc, List.append_assoc]
    by_cases hq : c = q
    · rw [if_pos hq, if_pos hq, ReplaceAll_old, ih]
    · rw [if_neg hq, if_neg hq, List.singleton_append, ReplaceAll_cons hc, ih]
      rfl

theorem escape_append (q : α) (old t u : List α) : escape q old (t ++ u) = escape q old t ++ escape q old u :=
  List.flatMap_append

theorem escape_cons {c : α} (h : c ≠ q) (old t : List α) : escape q old (c :: t) = c :: escape q old t := by
  rw [escape, List.flatMap_cons, if_neg h]
  rfl

theorem escape_of_notMem {t : List α} (h : q ∉ t) (old : List α) : escape q old t = t := by
  induction t with
  | nil => rfl
  | cons c t ih =>
    have hc : c ≠ q := fun hc => h (hc ▸ List.mem_cons_self)
    rw [escape_cons hc, ih fun ht => h (List.mem_cons_of_mem _ ht)]

theorem escape_self (q : α) (t : List α) : escape q [q] t = t := by
  have h : (fun c => if c = q then [q] else [c]) = fun c => [c] := by
    funext c
    split
    · rename_i hc
      rw [hc]
    · rfl
  rw [escape, h]
  simp

theorem escape_nil (q : α) (t : List α) : escape q [] t = t.filter (· ≠ q) := by
  induction t with
  | nil => rfl
  | cons c t ih =>
    have ih : t.flatMap (fun c => if c = q then [] else [c]) = _ := ih
    rw [escape, List.flatMap_cons, ih]
    by_cases hc : c = q <;> simp [hc]

end CalcLang.Lib.Strings
