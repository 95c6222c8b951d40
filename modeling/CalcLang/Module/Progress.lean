import Mathlib.Algebra.BigOperators.Group.Finset.Basic
import Mathlib.Algebra.Order.BigOperators.Group.Finset
import CalcLang.Lib.Waiting
import CalcLang.Module.Invariant

/-!
# Loading goes on and comes to an end

There is always a step to take, as long as no module waits for itself through others
(`Inv.progress`): among the modules at work one then waits for none, and either one of
its goroutines or the call that performs it can go on. And there are only so many steps:
each makes `State.rank` smaller (`Inv.rank_lt`), so that no run is longer than `rank`
of the first state (`runs_end`).
-/

namespace CalcLang.Module

open CalcLang.Lib Relation

variable {P : Project} {s s' : State} {l : Label}

/-! ## Going on -/

/-- A goroutine of `u` is in a call of `ParseModule` for `v`, which is not yet loaded. -/
def WaitsFor (s : State) (u v : String) : Prop :=
  (∃ i left, s.place (some (u, i)) = .waits v left ∨ s.place (some (u, i)) = .performs v left) ∧
    s.startMap v ≠ some .closed

/-- A goroutine goes on unless it waits for a module or for its node to be received. -/
theorem goes_on {g : Goroutine} (hu : s.place g ≠ .unstarted) (hp : s.place g ≠ .parsed)
    (hf : s.place g ≠ .finished)
    (hw : ∀ v left, s.place g = .waits v left ∨ s.place g = .performs v left →
      s.startMap v = some .closed) : ∃ l s', Step P s l s' := by
  cases hg : s.place g with
  | unstarted => exact absurd hg hu
  | parsed => exact absurd hg hp
  | finished => exact absurd hg hf
  | calls v left =>
    by_cases hv : s.startMap v = none
    · exact ⟨_, _, .perform hg hv⟩
    · exact ⟨_, _, .wait hg hv⟩
  | waits v left => exact ⟨_, _, .resume (.inl hg) (hw v left (.inl hg))⟩
  | performs v left => exact ⟨_, _, .resume (.inr hg) (hw v left (.inr hg))⟩
  | program left =>
    cases left with
    | nil =>
      cases g with
      | none => exact ⟨_, _, .leave hg⟩
      | some f => exact ⟨_, _, .parse hg⟩
    | cons v left =>
      have hv : mayCall g v (v :: left) := by
        unfold mayCall
        split <;> simp
      by_cases hloop : v ∈ s.newF g
      · exact ⟨_, _, .loop hg hv hloop⟩
      · exact ⟨_, _, .call hg hv hloop⟩

/-- A call that waits for no module goes on. -/
theorem Inv.call_goes_on (h : Inv P s) {m : String} {st : Stage} (hm : s.startMap m = some st)
    (hst : st ≠ .closed) (hw : ∀ v, ¬ WaitsFor s m v) : ∃ l s', Step P s l s' := by
  cases st with
  | closed => exact absurd rfl hst
  | emitted => exact ⟨_, _, .close hm⟩
  | emitting => exact ⟨_, _, .unlock hm⟩
  | starting n =>
    rcases Nat.lt_or_eq_of_le (h.starting m n hm) with hn | rfl
    · exact ⟨_, _, .go hm hn⟩
    by_cases hfin : ∀ i < (P.files m).length, s.place (some (m, i)) = .finished
    · cases hmu : s.emitMu with
      | none => exact ⟨_, _, .lock hm hmu hfin⟩
      | some x => exact ⟨_, _, .unlock ((h.holder x).mp hmu)⟩
    · push Not at hfin
      obtain ⟨i, hi, hf⟩ := hfin
      by_cases hp : s.place (some (m, i)) = .parsed
      · exact ⟨_, _, .receive hm hp⟩
      · refine goes_on (fun hu => ?_) hp hf fun v left hv => ?_
        · exact absurd ((h.unstarted m i).mp hu _ hm) (Nat.not_le.mpr hi)
        · by_contra hne
          exact hw v ⟨⟨i, left, hv⟩, hne⟩

/-- If no module waits for itself, through whatever others, something goes on. -/
theorem Inv.progress (h : Inv P s) (hl : s.loop = false) (hw : Acyclic (WaitsFor s))
    (hfin : s.place none ≠ .finished) : ∃ l s', step P s l = some s' := by
  suffices hstep : ∃ l s', Step P s l s' by
    obtain ⟨l, s', hs⟩ := hstep
    exact ⟨l, s', hs.eq hl⟩
  by_cases hroot : ∀ v left, s.place none = .waits v left ∨ s.place none = .performs v left →
      s.startMap v = some .closed
  · exact goes_on h.root.1 h.root.2 hfin hroot
  push Not at hroot
  obtain ⟨v, left, hv, hvc⟩ := hroot
  -- among the modules at work there is one that waits for none
  have hmem : ∀ m, s.startMap m ≠ none → s.startMap m ≠ some .closed →
      m ∈ P.modules.filter fun m => s.startMap m ≠ none ∧ s.startMap m ≠ some .closed :=
    fun m hm hmc => Finset.mem_filter.mpr ⟨h.known m hm, hm, hmc⟩
  obtain ⟨y, hy, hlast⟩ := hw.exists_last (fun x _ z hz => hmem z
      (hz.1.elim fun i hi => hi.elim fun left hz' => h.inside _ z left hz') hz.2)
    (hmem v (h.inside none v left hv) hvc)
  obtain ⟨-, hy, hyc⟩ := Finset.mem_filter.mp hy
  obtain ⟨st, hst⟩ := Option.ne_none_iff_exists'.mp hy
  exact h.call_goes_on hst (by rintro rfl; exact hyc hst) hlast

/-! ## Every run ends -/

/-- The steps a goroutine has before it, at most; `n` is the number of its imports. -/
def Place.rank (n : ℕ) : Place → ℕ
  | unstarted => 3 * n + 3
  | program left => 3 * left.length + 2
  | calls _ left => 3 * left.length + 4
  | waits _ left | performs _ left => 3 * left.length + 3
  | parsed => 1
  | finished => 0

def Stage.rank (files : ℕ) : Option Stage → ℕ
  | none => files + 4
  | some (starting n) => files - n + 3
  | some emitting => 2
  | some emitted => 1
  | some closed => 0

/-- The steps a run has before it, at most. -/
def State.rank (P : Project) (s : State) : ℕ :=
  (if s.loop then 0 else 1) + (s.place none).rank (P.imports none).length +
    ∑ m ∈ P.modules, (Stage.rank (P.files m).length (s.startMap m) +
      ∑ i ∈ Finset.range (P.files m).length,
        (s.place (some (m, i))).rank (P.imports (some (m, i))).length)

/-- A goroutine goes on, and perhaps the call of a module with it. -/
private theorem rank_lt_of_place {g : Goroutine}
    (hmem : ∀ m i, g = some (m, i) → m ∈ P.modules ∧ i < (P.files m).length)
    (hlt : (s'.place g).rank (P.imports g).length < (s.place g).rank (P.imports g).length)
    (hplace : ∀ g', g' ≠ g → s'.place g' = s.place g')
    (hstage : ∀ m, Stage.rank (P.files m).length (s'.startMap m) ≤
      Stage.rank (P.files m).length (s.startMap m))
    (hloop : s'.loop = s.loop) : s'.rank P < s.rank P := by
  have hle : ∀ g', (s'.place g').rank (P.imports g').length ≤
      (s.place g').rank (P.imports g').length := fun g' => by
    by_cases heq : g' = g
    · exact heq ▸ hlt.le
    · rw [hplace g' heq]
  have hsum : ∀ m, ∑ i ∈ Finset.range (P.files m).length,
        (s'.place (some (m, i))).rank (P.imports (some (m, i))).length ≤
      ∑ i ∈ Finset.range (P.files m).length,
        (s.place (some (m, i))).rank (P.imports (some (m, i))).length :=
    fun m => Finset.sum_le_sum fun i _ => hle _
  unfold State.rank
  rw [hloop]
  cases g with
  | none =>
    refine Nat.add_lt_add_of_lt_of_le (Nat.add_lt_add_left hlt _) ?_
    exact Finset.sum_le_sum fun m _ => Nat.add_le_add (hstage m) (hsum m)
  | some f =>
    obtain ⟨m, i⟩ := f
    obtain ⟨hm, hi⟩ := hmem m i rfl
    refine Nat.add_lt_add_of_le_of_lt (Nat.add_le_add_left (hle _) _) ?_
    refine Finset.sum_lt_sum (fun m' _ => Nat.add_le_add (hstage m') (hsum m')) ⟨m, hm, ?_⟩
    exact Nat.add_lt_add_of_le_of_lt (hstage m)
      (Finset.sum_lt_sum (fun i' _ => hle _) ⟨i, Finset.mem_range.mpr hi, hlt⟩)

/-- Only the call of a module goes on. -/
private theorem rank_lt_of_stage {m : String} (hm : m ∈ P.modules)
    (hlt : Stage.rank (P.files m).length (s'.startMap m) <
      Stage.rank (P.files m).length (s.startMap m))
    (hstage : ∀ m', m' ≠ m → s'.startMap m' = s.startMap m')
    (hplace : s'.place = s.place) (hloop : s'.loop = s.loop) : s'.rank P < s.rank P := by
  unfold State.rank
  rw [hloop, hplace]
  refine Nat.add_lt_add_left (Finset.sum_lt_sum (fun m' _ => ?_) ⟨m, hm, ?_⟩) _
  · by_cases heq : m' = m
    · exact Nat.add_le_add_right (heq ▸ hlt.le) _
    · rw [hstage m' heq]
  · exact Nat.add_lt_add_right hlt _

theorem Inv.bound (h : Inv P s) {m : String} {i : ℕ} (hg : s.place (some (m, i)) ≠ .unstarted) :
    m ∈ P.modules ∧ i < (P.files m).length := by
  have hst := mt (h.unstarted m i).mpr hg
  push Not at hst
  obtain ⟨st, hm, hi⟩ := hst
  refine ⟨h.known m (by rw [hm]; nofun), hi.trans_le ?_⟩
  cases st with
  | starting n => exact h.starting m n hm
  | _ => exact le_rfl

/-- Every step counts. -/
theorem Inv.rank_lt (h : Inv P s) (hl : s.loop = false) (hs : Step P s l s') :
    s'.rank P < s.rank P := by
  -- what a step that moves one goroutine `g` has to show
  have hmove : ∀ {g : Goroutine} {p : Place}, s.place g ≠ .unstarted →
      p.rank (P.imports g).length < (s.place g).rank (P.imports g).length →
      (s.move g p).rank P < s.rank P := by
    intro g p hg hlt
    refine rank_lt_of_place (fun m i heq => h.bound (heq ▸ hg)) ?_
      (fun g' hne => Function.update_of_ne hne ..) (fun _ => le_rfl) rfl
    rwa [State.move_place, Function.update_self]
  cases hs with
  | @go m n hm hn =>
    have hun := (h.unstarted m n).mpr fun st hst => by
      obtain rfl := Option.some.inj (hm.symm.trans hst)
      exact le_rfl
    have hmod := h.known m (by rw [hm]; nofun)
    refine rank_lt_of_place (g := some (m, n)) ?_ ?_ (fun g' hne => Function.update_of_ne hne ..)
      (fun m' => ?_) rfl
    · rintro m' i heq
      obtain ⟨rfl, rfl⟩ := Prod.mk.inj (Option.some.inj heq)
      exact ⟨hmod, hn⟩
    · rw [State.move_place, Function.update_self, hun]
      simp only [Place.rank]
      omega
    · rw [State.move_startMap, State.setStage_startMap]
      by_cases heq : m' = m
      · rw [heq, Function.update_self, hm]
        simp only [Stage.rank]
        omega
      · rw [Function.update_of_ne heq]
  | loop hg hv hf =>
    unfold State.rank
    rw [hl]
    exact Nat.add_lt_add_right (Nat.add_lt_add_right Nat.zero_lt_one _) _
  | @call g v left hg hv hf =>
    refine hmove (by rw [hg]; nofun) ?_
    have hlen := List.length_erase_of_mem (mem_left_of_mayCall hv)
    have hpos := List.length_pos_of_mem (mem_left_of_mayCall hv)
    rw [hg]
    simp only [Place.rank]
    omega
  | wait hg hv => exact hmove (by rw [hg]; nofun) (by rw [hg]; simp only [Place.rank]; omega)
  | @perform g v left hg hv =>
    refine rank_lt_of_place (g := g) (fun m i heq => h.bound (by rw [← heq, hg]; nofun)) ?_
      (fun g' hne => Function.update_of_ne hne ..) (fun m' => ?_) rfl
    · rw [State.move_place, Function.update_self, hg]
      simp only [Place.rank]
      omega
    · rw [State.move_startMap, State.setStage_startMap]
      by_cases heq : m' = v
      · rw [heq, Function.update_self, hv]
        simp only [Stage.rank]
        omega
      · rw [Function.update_of_ne heq]
  | resume hg hv =>
    rcases hg with hg | hg <;>
      exact hmove (by rw [hg]; nofun) (by rw [hg]; simp only [Place.rank]; omega)
  | leave hg => exact hmove (by rw [hg]; nofun) (by rw [hg]; simp only [Place.rank]; omega)
  | parse hg =>
    exact hmove (p := .parsed) (by rw [hg]; nofun) (by rw [hg]; simp only [Place.rank]; omega)
  | receive hm hg => exact hmove (by rw [hg]; nofun) (by rw [hg]; simp only [Place.rank]; omega)
  | @lock m hm hmu hfin =>
    refine rank_lt_of_stage (m := m) (h.known m (by rw [hm]; nofun)) ?_
      (fun m' hne => Function.update_of_ne hne ..) rfl rfl
    rw [State.note_startMap, State.setStage_startMap, Function.update_self, hm]
    simp only [Stage.rank]
    omega
  | @unlock m hm =>
    refine rank_lt_of_stage (m := m) (h.known m (by rw [hm]; nofun)) ?_
      (fun m' hne => Function.update_of_ne hne ..) rfl rfl
    rw [State.note_startMap, State.setStage_startMap, Function.update_self, hm]
    exact Nat.one_lt_two
  | @close m hm =>
    refine rank_lt_of_stage (m := m) (h.known m (by rw [hm]; nofun)) ?_
      (fun m' hne => Function.update_of_ne hne ..) rfl rfl
    rw [State.setStage_startMap, Function.update_self, hm]
    exact Nat.zero_lt_one

theorem Inv.run_le (h : Inv P s) {ls : List Label} (hs : (loading P).exec s ls = some s') :
    ls.length + s'.rank P ≤ s.rank P := by
  induction ls generalizing s with
  | nil =>
    obtain rfl := Option.some.inj hs
    exact (Nat.zero_add _).le
  | cons l ls ih =>
    obtain ⟨s₁, hs₁, hs⟩ := Option.bind_eq_some_iff.mp hs
    obtain ⟨hl, hstep⟩ := step_cases hs₁
    have hlt := h.rank_lt hl hstep
    have hle := ih (h.kept hstep) hs
    rw [List.length_cons]
    omega

/-- No run of `ParseDir` is longer than `rank` says. -/
theorem runs_end (P : Project) {ls : List Label} (hs : (loading P).exec .start ls = some s) :
    ls.length ≤ State.start.rank P :=
  (Nat.le_add_right _ _).trans (Inv.start.run_le hs)

end CalcLang.Module
