import Mathlib.Data.List.Basic

/-!
# Walks down a tree

A tree is given by what hangs below each node: `kids n` lists the children of `n`, each under the name
of the place it hangs at. A node of the tree is found at a path (`At`), the names on the way down.

A walk comes to some of the nodes only (`Seen`). It may refuse to look at a node, and then what is below is lost
as well; and it may leave out the places of a certain name. `seen_all_iff` says when nothing is lost: it looks at
every node, and leaves out no place where something hangs. That needs no assumption on `kids`. A child is told from its
siblings by its path, which names the place it hangs at, so it cannot be found by another way.
-/

namespace CalcLang.Lib.Descent

variable {ν κ : Type}

/-- `At kids n p m`: below `n`, along `p`, is `m`. -/
inductive At (kids : ν → List (κ × ν)) : ν → List κ → ν → Prop
  | here {n : ν} : At kids n [] n
  | under {n c m : ν} {s : κ} {p : List κ} : (s, c) ∈ kids n → At kids c p m → At kids n (s :: p) m

/-- `Seen kids calls goes n p m`: a walk that looks at the nodes in `calls`, and goes to the places in `goes`,
comes from `n` along `p` to `m`. -/
inductive Seen (kids : ν → List (κ × ν)) (calls : ν → Prop) (goes : κ → Prop) : ν → List κ → ν → Prop
  | here {n : ν} : calls n → Seen kids calls goes n [] n
  | under {n c m : ν} {s : κ} {p : List κ} :
      calls n → (s, c) ∈ kids n → goes s → Seen kids calls goes c p m → Seen kids calls goes n (s :: p) m

variable {kids : ν → List (κ × ν)} {calls : ν → Prop} {goes : κ → Prop} {n c m : ν} {s : κ} {p : List κ}

theorem At.snoc (h : At kids n p m) (hc : (s, c) ∈ kids m) : At kids n (p ++ [s]) c := by
  induction h with
  | here => exact .under hc .here
  | under hk _ ih => exact .under hk (ih hc)

/-- The node a walk comes to is looked at. -/
theorem Seen.calls_last (h : Seen kids calls goes n p m) : calls m := by
  induction h with
  | here hn => exact hn
  | under _ _ _ _ ih => exact ih

theorem Seen.goes_all (h : Seen kids calls goes n p m) : ∀ s ∈ p, goes s := by
  induction h with
  | here => exact fun _ hs => absurd hs List.not_mem_nil
  | under _ _ hs _ ih => exact List.forall_mem_cons.mpr ⟨hs, ih⟩

/-- A walk comes to every node just if there is none that it does not look at, and none with something
at a place that it leaves out. -/
theorem seen_all_iff :
    (∀ p m, At kids n p m → Seen kids calls goes n p m) ↔
      ∀ p m, At kids n p m → calls m ∧ ∀ s c, (s, c) ∈ kids m → goes s := by
  constructor
  · intro h p m hm
    refine ⟨(h p m hm).calls_last, fun s c hc => ?_⟩
    exact (h _ _ (hm.snoc hc)).goes_all s (List.mem_append_right p List.mem_cons_self)
  · intro h p m hm
    induction hm with
    | here => exact .here (h _ _ .here).1
    | @under n c m s p hc _ ih =>
      obtain ⟨hcall, hgoes⟩ := h _ _ .here
      exact .under hcall hc (hgoes s c hc) (ih fun q k hk => h _ _ (.under hc hk))

end CalcLang.Lib.Descent
