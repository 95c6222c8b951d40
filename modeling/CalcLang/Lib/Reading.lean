import Mathlib.Data.List.Basic

/-!
# Texts that are read in one way

What is put together from the texts of its parts can be taken apart again if each part says itself where it ends. A
text of one kind of characters ends where another kind begins (`append_inj_of_halts`), the last separator divides what
is in front of it from what is behind (`append_inj_of_notMem`), and `Reads` is the general notion: whatever comes
behind the text of `a`, nothing else could be there with something behind it. A list of such things, each with a
separator behind it, is read in one way up to the bracket that closes it (`reads_list`).
-/

namespace CalcLang.Lib.Reading

variable {α β : Type}

/-- The text does not go on with what `p` holds of. -/
def Halts (p : β → Bool) (x : List β) : Prop := ∀ c ∈ x.head?, p c = false

theorem halts_cons {p : β → Bool} {c : β} (h : p c = false) (x : List β) : Halts p (c :: x) := by
  intro d hd
  obtain rfl := Option.some.inj hd
  exact h

theorem Halts.of_or {p q : β → Bool} {x : List β} (h : Halts (fun c => p c || q c) x) : Halts p x ∧ Halts q x :=
  ⟨fun c hc => (Bool.or_eq_false_iff.mp (h c hc)).1, fun c hc => (Bool.or_eq_false_iff.mp (h c hc)).2⟩

theorem append_inj_of_halts {p : β → Bool} {x y : List β} (hx : Halts p x) (hy : Halts p y) :
    ∀ {a b : List β}, (∀ c ∈ a, p c) → (∀ c ∈ b, p c) → a ++ x = b ++ y → a = b ∧ x = y
  | [], [], _, _, h => ⟨rfl, h⟩
  | [], c :: b, _, hb, h => by
    rw [List.nil_append] at h
    have hc := hx c (by rw [h]; rfl)
    rw [hb c List.mem_cons_self] at hc
    cases hc
  | c :: a, [], ha, _, h => by
    rw [List.nil_append] at h
    have hc := hy c (by rw [← h]; rfl)
    rw [ha c List.mem_cons_self] at hc
    cases hc
  | c :: a, d :: b, ha, hb, h => by
    obtain ⟨rfl, htail⟩ := List.cons.inj h
    obtain ⟨rfl, hxy⟩ := append_inj_of_halts hx hy (fun e he => ha e (List.mem_cons_of_mem _ he))
      (fun e he => hb e (List.mem_cons_of_mem _ he)) htail
    exact ⟨rfl, hxy⟩

/-- The last separator divides a text. -/
theorem append_inj_of_notMem [DecidableEq β] {s : β} {a b x y : List β} (hx : s ∉ x) (hy : s ∉ y)
    (h : a ++ s :: x = b ++ s :: y) : a = b ∧ x = y := by
  have hother : ∀ {z : List β}, s ∉ z → ∀ c ∈ z.reverse, (c != s) = true := by
    intro z hz c hc
    rw [bne_iff_ne]
    intro hcs
    exact hz (hcs ▸ List.mem_reverse.mp hc)
  have hhalts : ∀ z : List β, Halts (· != s) (s :: z) := halts_cons (by simp)
  have hrev : x.reverse ++ s :: a.reverse = y.reverse ++ s :: b.reverse := by
    simpa using congrArg List.reverse h
  obtain ⟨hxy, hab⟩ := append_inj_of_halts (hhalts _) (hhalts _) (hother hx) (hother hy) hrev
  exact ⟨List.reverse_injective (List.cons.inj hab).2, List.reverse_injective hxy⟩

/-- What is behind the text of `a` is no part of it, as long as it begins as `follow` says. -/
def Reads (text : α → List β) (follow : List β → Prop) (a : α) : Prop :=
  ∀ ⦃b : α⦄ ⦃u v : List β⦄, follow u → follow v → text a ++ u = text b ++ v → a = b ∧ u = v

variable {text : α → List β} {follow : List β → Prop} {sep close : β}

/-- A list ends at the bracket, which is not how the text of an element begins. -/
theorem reads_list (hsep : ∀ u, follow (sep :: u)) (hclose : ∀ a, ∃ c cs, text a = c :: cs ∧ c ≠ close) :
    ∀ {as bs : List α} {u v : List β}, (∀ a ∈ as, Reads text follow a) →
      as.flatMap (fun a => text a ++ [sep]) ++ close :: u = bs.flatMap (fun a => text a ++ [sep]) ++ close :: v →
      as = bs ∧ u = v
  | [], [], _, _, _, h => ⟨rfl, (List.cons.inj h).2⟩
  | [], b :: _, _, _, _, h => by
    obtain ⟨c, cs, hb, hne⟩ := hclose b
    rw [List.flatMap_cons, hb] at h
    exact absurd (List.cons.inj h).1.symm hne
  | a :: _, [], _, _, _, h => by
    obtain ⟨c, cs, ha, hne⟩ := hclose a
    rw [List.flatMap_cons, ha] at h
    exact absurd (List.cons.inj h).1 hne
  | a :: as, b :: bs, u, v, hreads, h => by
    simp only [List.flatMap_cons, List.append_assoc, List.singleton_append] at h
    obtain ⟨rfl, htail⟩ := hreads a List.mem_cons_self (hsep _) (hsep _) h
    have hrest : ∀ a ∈ as, Reads text follow a := fun a ha => hreads a (List.mem_cons_of_mem _ ha)
    obtain ⟨rfl, huv⟩ := reads_list hsep hclose hrest (List.cons.inj htail).2
    exact ⟨rfl, huv⟩

end CalcLang.Lib.Reading
