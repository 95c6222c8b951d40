import Mathlib.Data.Set.Basic

/-!
# Programs that only add

A program works on a state of which some part, the `view`, only grows. Its guarded form
refuses, by failing, to add anything to the view. `Protects` says that the two agree as far
as the guarded one goes and that nothing else stops it (`sound`, `complete`): the guarded
program succeeds exactly if the other adds nothing. It is closed under sequencing, so a
recursive program is treated by one induction.

Along the way it carries an invariant, a relation that every step keeps, and a
postcondition of the result.
-/

namespace CalcLang.Lib

variable {σ α β : Type} {κ : Type*}

/-- What a program does without changing the state. -/
def reads (f : σ → Option α) : StateT σ Option α := fun s => (f s).map fun a => (a, s)

/-- The state is replaced. -/
def writes (f : σ → σ) : StateT σ Option Unit := fun s => some ((), f s)

theorem bind_eq_some {x : StateT σ Option α} {f : α → StateT σ Option β} {s : σ} {r : β × σ} :
    (x >>= f) s = some r ↔ ∃ a s', x s = some (a, s') ∧ f a s' = some r := by
  refine Option.bind_eq_some_iff.trans ⟨?_, ?_⟩
  · rintro ⟨⟨a, s'⟩, hx, hf⟩
    exact ⟨a, s', hx, hf⟩
  · rintro ⟨a, s', hx, hf⟩
    exact ⟨(a, s'), hx, hf⟩

section Protects

variable (view : σ → Set κ) (inv : σ → Prop) (keep : σ → σ → Prop)

/-- `x` is the guarded form of `y`. -/
structure Protects (post : α → Prop) (x y : StateT σ Option α) : Prop where
  grows : ∀ s r, inv s → y s = some r → view s ⊆ view r.2
  keeps : ∀ s r, inv s → y s = some r → inv r.2 ∧ keep s r.2 ∧ post r.1
  sound : ∀ s r, inv s → x s = some r → y s = some r ∧ view r.2 ⊆ view s
  complete : ∀ s r, inv s → y s = some r → view r.2 ⊆ view s → x s = some r

end Protects

namespace Protects

variable {view : σ → Set κ} {inv : σ → Prop} {keep : σ → σ → Prop} {post : α → Prop}
  {post' : β → Prop} {x y : StateT σ Option α}

/-- What only reads is its own guarded form. -/
theorem reads (hrefl : ∀ s, keep s s) (f : σ → Option α)
    (hpost : ∀ s a, inv s → f s = some a → post a) :
    Protects view inv keep post (reads f) (reads f) where
  grows s r _ hr := by
    obtain ⟨a, -, rfl⟩ := Option.map_eq_some_iff.mp hr
    exact subset_rfl
  keeps s r hs hr := by
    obtain ⟨a, ha, rfl⟩ := Option.map_eq_some_iff.mp hr
    exact ⟨hs, hrefl s, hpost s a hs ha⟩
  sound s r _ hr := by
    obtain ⟨a, -, rfl⟩ := Option.map_eq_some_iff.mp hr
    exact ⟨hr, subset_rfl⟩
  complete _ _ _ hr _ := hr

/-- So is what writes elsewhere. -/
theorem writes {f : σ → σ} (hview : ∀ s, view (f s) = view s) (hinv : ∀ s, inv s → inv (f s))
    (hkeep : ∀ s, inv s → keep s (f s)) :
    Protects view inv keep (fun _ => True) (writes f) (writes f) where
  grows s r _ hr := by
    cases hr
    exact (hview s).ge
  keeps s r hs hr := by
    cases hr
    exact ⟨hinv s hs, hkeep s hs, trivial⟩
  sound s r _ hr := by
    cases hr
    exact ⟨rfl, (hview s).le⟩
  complete _ _ _ hr _ := hr

theorem pure (hrefl : ∀ s, keep s s) {a : α} (ha : post a) :
    Protects view inv keep post (Pure.pure a) (Pure.pure a) where
  grows s r _ hr := by
    cases hr
    exact subset_rfl
  keeps s r hs hr := by
    cases hr
    exact ⟨hs, hrefl s, ha⟩
  sound s r _ hr := by
    cases hr
    exact ⟨rfl, subset_rfl⟩
  complete _ _ _ hr _ := hr

theorem failure : Protects view inv keep post (fun _ => none) (fun _ => none) where
  grows _ _ _ hr := by cases hr
  keeps _ _ _ hr := by cases hr
  sound _ _ _ hr := by cases hr
  complete _ _ _ hr := by cases hr

/-- One after the other. -/
theorem bind (htrans : ∀ s s' s'', keep s s' → keep s' s'' → keep s s'')
    {f g : α → StateT σ Option β} (h : Protects view inv keep post x y)
    (hf : ∀ a, post a → Protects view inv keep post' (f a) (g a)) :
    Protects view inv keep post' (x >>= f) (y >>= g) where
  grows s r hs hr := by
    obtain ⟨a, s', hy, hg⟩ := bind_eq_some.mp hr
    obtain ⟨hs', -, ha⟩ := h.keeps s _ hs hy
    exact (h.grows s _ hs hy).trans ((hf a ha).grows s' r hs' hg)
  keeps s r hs hr := by
    obtain ⟨a, s', hy, hg⟩ := bind_eq_some.mp hr
    obtain ⟨hs', hk, ha⟩ := h.keeps s _ hs hy
    obtain ⟨hs'', hk', hp⟩ := (hf a ha).keeps s' r hs' hg
    exact ⟨hs'', htrans _ _ _ hk hk', hp⟩
  sound s r hs hr := by
    obtain ⟨a, s', hx, hf'⟩ := bind_eq_some.mp hr
    obtain ⟨hy, hsub⟩ := h.sound s _ hs hx
    obtain ⟨hs', -, ha⟩ := h.keeps s _ hs hy
    obtain ⟨hg, hsub'⟩ := (hf a ha).sound s' r hs' hf'
    exact ⟨bind_eq_some.mpr ⟨a, s', hy, hg⟩, hsub'.trans hsub⟩
  complete s r hs hr hsub := by
    obtain ⟨a, s', hy, hg⟩ := bind_eq_some.mp hr
    obtain ⟨hs', -, ha⟩ := h.keeps s _ hs hy
    -- neither half adds anything
    have hg₁ := h.grows s _ hs hy
    have hg₂ := (hf a ha).grows s' r hs' hg
    have hx := h.complete s _ hs hy (hg₂.trans hsub)
    exact bind_eq_some.mpr ⟨a, s', hx, (hf a ha).complete s' r hs' hg (hsub.trans hg₁)⟩

/-- A list of programs, one after the other. -/
theorem mapM (hrefl : ∀ s, keep s s) (htrans : ∀ s s' s'', keep s s' → keep s' s'' → keep s s'')
    {γ : Type} {f g : γ → StateT σ Option β}
    (h : ∀ c, Protects view inv keep (fun _ => True) (f c) (g c)) (cs : List γ) :
    Protects view inv keep (fun _ => True) (cs.mapM f) (cs.mapM g) := by
  induction cs with
  | nil => exact pure hrefl trivial
  | cons c cs ih =>
    rw [List.mapM_cons, List.mapM_cons]
    exact (h c).bind htrans fun b _ => ih.bind htrans fun bs _ => pure hrefl trivial

end Protects

end CalcLang.Lib
