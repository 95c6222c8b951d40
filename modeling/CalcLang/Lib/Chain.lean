import Mathlib.Data.List.Basic
import Mathlib.Logic.Function.Basic

/-!
# A chain of tables

A table is a list of keys and values, with what was set last in front, so that setting a
key again hides what it was before. A chain is the tables of nested scopes, the innermost
one first, and a key is searched for from there outwards.

Tables are often filled with something that is computed from what is declared. The chain is
then an image of the chain of declarations, adding to it is adding a declaration
(`addAt_map`), and a search finds what the latest declaration with that key is mapped
to (`search_map`).

Setting a key again where it was found is the case that takes a reason (`set_mapValues`): the chain is an
image under a function of what the keys stand for, and the function is changed at one place, so that no
other key may stand for that place.
-/

namespace CalcLang.Lib.Chain

variable {κ α β : Type}

/-- From the innermost table outwards. -/
def search [DecidableEq κ] (k : κ) : List (List (κ × β)) → Option β
  | [] => none
  | t :: ts => (t.lookup k).or (search k ts)

/-- Something is added to the table that is `level` scopes further out. -/
def addAt : Nat → α → List (List α) → List (List α)
  | _, _, [] => []
  | 0, a, t :: ts => (a :: t) :: ts
  | level + 1, a, t :: ts => t :: addAt level a ts

theorem addAt_map (f : α → β) (level : Nat) (a : α) (c : List (List α)) :
    addAt level (f a) (c.map (List.map f)) = (addAt level a c).map (List.map f) := by
  induction level generalizing c with
  | zero => cases c <;> rfl
  | succ n ih =>
    cases c with
    | nil => rfl
    | cons t ts => exact congrArg (t.map f :: ·) (ih ts)

theorem addAt_length (level : Nat) (a : α) (c : List (List α)) : (addAt level a c).length = c.length := by
  induction level generalizing c with
  | zero => cases c <;> rfl
  | succ n ih =>
    cases c with
    | nil => rfl
    | cons t ts => exact congrArg (· + 1) (ih ts)

/-- One after the other. -/
def addsAt (level : Nat) (as : List α) (c : List (List α)) : List (List α) :=
  as.foldl (fun c a => addAt level a c) c

theorem addsAt_append (level : Nat) (as bs : List α) (c : List (List α)) :
    addsAt level (as ++ bs) c = addsAt level bs (addsAt level as c) :=
  List.foldl_append

theorem addsAt_length (level : Nat) (as : List α) (c : List (List α)) :
    (addsAt level as c).length = c.length := by
  induction as generalizing c with
  | nil => rfl
  | cons a as ih =>
    show (addsAt level as (addAt level a c)).length = _
    rw [ih, addAt_length]

variable [DecidableEq κ]

theorem lookup_map (f : α → κ × β) (k : κ) (t : List α) :
    (t.map f).lookup k = (t.find? fun a => (f a).1 = k).map fun a => (f a).2 := by
  induction t with
  | nil => rfl
  | cons a t ih =>
    rw [List.map_cons, List.lookup_cons, List.find?_cons]
    by_cases hk : (f a).1 = k
    · simp [hk]
    · have hk' : (k == (f a).1) = false := by simpa using fun h => hk h.symm
      simpa [hk, hk'] using ih

theorem search_map (f : α → κ × β) (k : κ) (c : List (List α)) :
    search k (c.map (List.map f)) = (c.flatten.find? fun a => (f a).1 = k).map fun a => (f a).2 := by
  induction c with
  | nil => rfl
  | cons t ts ih =>
    show ((t.map f).lookup k).or (search k (ts.map (List.map f))) = _
    rw [lookup_map, ih, List.flatten_cons, List.find?_append]
    cases t.find? fun a => (f a).1 = k <;> rfl

/-! ## Setting a key again -/

/-- What the keys stand for. -/
def values (c : List (List (κ × β))) : List β := c.flatten.map Prod.snd

/-- The same keys, for something else. -/
def mapValues {γ : Type} (f : β → γ) (c : List (List (κ × β))) : List (List (κ × γ)) := c.map (List.map (Prod.map id f))

def setTable (k : κ) (v : β) : List (κ × β) → List (κ × β)
  | [] => []
  | (k', w) :: t => if k = k' then (k, v) :: t else (k', w) :: setTable k v t

/-- The innermost table that has the key gets another value for it. -/
def set (k : κ) (v : β) : List (List (κ × β)) → List (List (κ × β))
  | [] => []
  | t :: ts => if (t.lookup k).isSome then setTable k v t :: ts else t :: set k v ts

section Values

variable {γ : Type} {f g : β → γ} {k : κ} {t : List (κ × β)} {c : List (List (κ × β))} {r : β} {v : γ}

omit [DecidableEq κ] in
theorem values_cons : values (t :: c) = t.map Prod.snd ++ values c := by simp [values]

omit [DecidableEq κ] in
theorem values_add : values (addAt 0 (k, r) (t :: c)) = r :: values (t :: c) := by
  simp [addAt, values]

theorem lookup_mapValues : (t.map (Prod.map id f)).lookup k = (t.lookup k).map f := by
  induction t with
  | nil => rfl
  | cons p t ih =>
    obtain ⟨k', w⟩ := p
    simp only [List.map_cons, Prod.map_apply, id_eq, List.lookup_cons, ih]
    cases k == k' <;> rfl

theorem search_mapValues : search k (mapValues f c) = (search k c).map f := by
  induction c with
  | nil => rfl
  | cons t ts ih =>
    show ((t.map (Prod.map id f)).lookup k).or (search k (mapValues f ts)) = _
    rw [lookup_mapValues, ih, search]
    cases t.lookup k <;> rfl

omit [DecidableEq κ] in
theorem add_mapValues : mapValues f (addAt 0 (k, r) c) = addAt 0 (k, f r) (mapValues f c) :=
  (addAt_map (Prod.map id f) 0 (k, r) c).symm

omit [DecidableEq κ] in
theorem map_table_congr (h : ∀ r ∈ t.map Prod.snd, f r = g r) : t.map (Prod.map id f) = t.map (Prod.map id g) := by
  refine List.map_congr_left fun p hp => ?_
  rw [Prod.map, Prod.map, h p.2 (List.mem_map_of_mem hp)]

omit [DecidableEq κ] in
/-- Functions that agree on what the keys stand for. -/
theorem mapValues_congr (h : ∀ r ∈ values c, f r = g r) : mapValues f c = mapValues g c := by
  refine List.map_congr_left fun t ht => map_table_congr fun r hr => h r ?_
  obtain ⟨p, hp, rfl⟩ := List.mem_map.mp hr
  exact List.mem_map_of_mem (List.mem_flatten_of_mem ht hp)

theorem mem_of_lookup (h : t.lookup k = some r) : r ∈ t.map Prod.snd := by
  induction t with
  | nil => cases h
  | cons p t ih =>
    obtain ⟨k', w⟩ := p
    rw [List.lookup_cons] at h
    cases hk : k == k' with
    | true =>
      rw [hk] at h
      obtain rfl := Option.some.inj h
      exact List.mem_cons_self
    | false =>
      rw [hk] at h
      exact List.mem_cons_of_mem _ (ih h)

theorem mem_of_search (h : search k c = some r) : r ∈ values c := by
  induction c with
  | nil => cases h
  | cons t ts ih =>
    rw [values_cons, List.mem_append]
    rw [search, Option.or_eq_some_iff] at h
    exact h.imp mem_of_lookup fun h => ih h.2

variable [DecidableEq β]

omit [DecidableEq κ] in
/-- A place that no key stands for. -/
theorem mapValues_update (h : r ∉ values c) : mapValues (Function.update f r v) c = mapValues f c := by
  refine mapValues_congr fun r' hr' => Function.update_of_ne ?_ v f
  rintro rfl
  exact h hr'

theorem setTable_mapValues (h : t.lookup k = some r) (hn : (t.map Prod.snd).Nodup) :
    setTable k v (t.map (Prod.map id f)) = t.map (Prod.map id (Function.update f r v)) := by
  induction t with
  | nil => cases h
  | cons p t ih =>
    obtain ⟨k', w⟩ := p
    rw [List.map_cons, List.nodup_cons] at hn
    rw [List.lookup_cons] at h
    rw [List.map_cons, List.map_cons, Prod.map_apply, Prod.map_apply, id_eq, setTable]
    by_cases hk : k = k'
    · subst hk
      rw [beq_self_eq_true] at h
      obtain rfl := Option.some.inj h
      have hrest : t.map (Prod.map id (Function.update f w v)) = t.map (Prod.map id f) := by
        refine map_table_congr fun r' hr' => Function.update_of_ne ?_ v f
        rintro rfl
        exact hn.1 hr'
      rw [if_pos rfl, Function.update_self, hrest]
    · rw [beq_false_of_ne hk] at h
      have hne : w ≠ r := by
        rintro rfl
        exact hn.1 (mem_of_lookup h)
      rw [if_neg hk, ih h hn.2, Function.update_of_ne hne]

/-- Where every key stands for a place of its own, setting a key is changing its place. -/
theorem set_mapValues (h : search k c = some r) (hn : (values c).Nodup) :
    set k v (mapValues f c) = mapValues (Function.update f r v) c := by
  induction c with
  | nil => cases h
  | cons t ts ih =>
    rw [values_cons, List.nodup_append] at hn
    obtain ⟨ht, hts, hdisjoint⟩ := hn
    show set k v (t.map (Prod.map id f) :: mapValues f ts) = t.map (Prod.map id _) :: mapValues _ ts
    rw [set, lookup_mapValues, Option.isSome_map]
    rw [search] at h
    cases hlook : t.lookup k with
    | some r' =>
      rw [hlook, Option.some_or] at h
      obtain rfl := Option.some.inj h
      have hnot : r' ∉ values ts := fun hr => hdisjoint r' (mem_of_lookup hlook) r' hr rfl
      rw [Option.isSome_some, if_pos rfl, setTable_mapValues hlook ht, mapValues_update hnot]
    | none =>
      rw [hlook, Option.none_or] at h
      have hsame : t.map (Prod.map id (Function.update f r v)) = t.map (Prod.map id f) := by
        refine map_table_congr fun r' hr' => Function.update_of_ne ?_ v f
        exact fun heq => hdisjoint r' hr' r (mem_of_search h) heq
      rw [Option.isSome_none, if_neg Bool.false_ne_true, ih h hts, hsame]

end Values

end CalcLang.Lib.Chain
