import CalcLang.Ast.ControlRefine
import Mathlib.Data.List.Nodup

/-!
# Control flow: the condition is exact

The converse of `wired_refines`: a graph that performs what the program performs
is wired right. The two programs are followed along the same events, with
`Flow.Agree` handed from each point to its successors. At the end of an `if`'s
body that branches back to the block in front of the `if`, agreement says that
what is left to do begins like that block; `firstSL` bounds what it can begin
with. The parts of the tree are told apart by their labels, which are distinct:
they stand for the syntax nodes.
-/

namespace CalcLang.Ast

open CalcLang.Lib Flow

variable {α : Type}

/-! ## Labels, and what a statement begins with -/

mutual

/-- The atomic statements and conditions of a statement. -/
def Stmt.labels : Stmt α → List α
  | .atom a => [a]
  | .ifN c sts => c :: labelsSL sts
  | .ifElse c sts els => c :: (labelsSL sts ++ labelsSL els)
  | .forN init c step sts => init.toList ++ c.toList ++ step.toList ++ labelsSL sts
  | .breakN | .continueN | .retN => []

/-- The atomic statements and conditions of a list of statements. -/
def labelsSL : List (Stmt α) → List α
  | [] => []
  | st :: sts => st.labels ++ labelsSL sts

end

mutual

/-- What a statement can begin with. -/
def Stmt.first : Stmt α → List α
  | .atom a => [a]
  | .ifN c _ | .ifElse c _ _ => [c]
  | .forN (some a) _ _ _ => [a]
  | .forN none (some c) _ _ => [c]
  | .forN none none step sts => if sts.isEmpty then step.toList else firstSL sts
  | .breakN | .continueN | .retN => []

/-- What a list of statements can begin with: its first statement never ends
without an event. -/
def firstSL : List (Stmt α) → List α
  | [] => []
  | st :: _ => st.first

end

mutual

theorem Stmt.first_subset : ∀ (st : Stmt α), st.first ⊆ st.labels
  | .atom _ => by simp [Stmt.first, Stmt.labels]
  | .ifN _ _ => by simp [Stmt.first, Stmt.labels]
  | .ifElse _ _ _ => by simp [Stmt.first, Stmt.labels]
  | .forN (some a) _ _ _ => by simp [Stmt.first, Stmt.labels]
  | .forN none (some c) _ _ => by simp [Stmt.first, Stmt.labels]
  | .forN none none step sts => by
    have h := firstSL_subset sts
    intro x hx
    simp only [Stmt.first] at hx
    split at hx
    · simp [Stmt.labels, hx]
    · simp [Stmt.labels, h hx]
  | .breakN | .continueN | .retN => by simp [Stmt.first]

theorem firstSL_subset : ∀ (sts : List (Stmt α)), firstSL sts ⊆ labelsSL sts
  | [] => by simp [firstSL]
  | st :: sts => fun _ hx => List.mem_append_left _ (Stmt.first_subset st hx)

end

theorem labelsSL_append (xs ys : List (Stmt α)) :
    labelsSL (xs ++ ys) = labelsSL xs ++ labelsSL ys := by
  induction xs with
  | nil => rfl
  | cons st xs ih => simp [labelsSL, ih]

/-- A loop without condition, step and body never does anything. -/
theorem performs_silent_loop {k : List (Item α)} {t : List (Event α)}
    (h : run.Performs (.loop none none [] :: k) t) : t = [] := by
  generalize hs : Item.loop none none [] :: k = s at h
  induction h with
  | start => rfl
  | goto hstep _ ih =>
    subst hs
    cases hstep
    exact ih rfl
  | act hstep _ | test _ hstep _ | ret hstep =>
    subst hs
    cases hstep

/-- What a loop's next round can begin with, given what its body can. -/
theorem opens_loop {c step : Option α} {sts : List (Stmt α)} {k : List (Item α)} {x : α}
    (hbody : ∀ k, sts ≠ [] → run.Opens (items sts ++ k) x → x ∈ firstSL sts)
    (h : run.Opens (.loop c step sts :: k) x) :
    x ∈ step.toList ∨ step = none ∧ (x ∈ c.toList ∨ c = none ∧ x ∈ firstSL sts) := by
  cases step with
  | some a =>
    rw [opens_act_iff (F := run) (a := a) rfl] at h
    simp [h]
  | none =>
    refine Or.inr ⟨rfl, ?_⟩
    cases c with
    | some c =>
      rw [opens_test_iff (F := run) (c := c) rfl] at h
      simp [h]
    | none =>
      refine Or.inr ⟨rfl, ?_⟩
      cases sts with
      | nil =>
        rcases h with h | ⟨b, h⟩ <;> cases performs_silent_loop h
      | cons st sts =>
        rw [opens_goto_iff (F := run) rfl] at h
        exact hbody _ (List.cons_ne_nil _ _) h

mutual

/-- A plain statement begins with one of its first labels. -/
theorem Stmt.opens : ∀ (st : Stmt α), st.plain = true → ∀ (k : List (Item α)) {x : α},
    run.Opens (.stmt st :: k) x → x ∈ st.first
  | .atom a, _, k, x, h => by
    rw [opens_act_iff (F := run) (a := a) rfl] at h
    simp [Stmt.first, h]
  | .ifN c _, _, k, x, h => by
    rw [opens_test_iff (F := run) (c := c) rfl] at h
    simp [Stmt.first, h]
  | .ifElse c _ _, _, k, x, h => by
    rw [opens_test_iff (F := run) (c := c) rfl] at h
    simp [Stmt.first, h]
  | .forN (some a) _ _ _, _, k, x, h => by
    rw [opens_act_iff (F := run) (a := a) rfl] at h
    simp [Stmt.first, h]
  | .forN none (some c) _ _, _, k, x, h => by
    rw [opens_test_iff (F := run) (c := c) rfl] at h
    simp [Stmt.first, h]
  | .forN none none step [], hp, k, x, h => by
    rw [opens_goto_iff (F := run) rfl] at h
    rcases opens_loop (fun _ hne => absurd rfl hne) h with h | ⟨-, h | ⟨-, h⟩⟩
    · simpa [Stmt.first] using h
    · simp at h
    · simp [firstSL] at h
  | .forN none none step (st :: sts), hp, k, x, h => by
    rw [opens_goto_iff (F := run) rfl] at h
    exact opensSL (st :: sts) hp _ (List.cons_ne_nil _ _) h

/-- A plain list of statements begins with one of its first labels. -/
theorem opensSL : ∀ (sts : List (Stmt α)), plainSL sts = true → ∀ (k : List (Item α)) {x : α},
    sts ≠ [] → run.Opens (items sts ++ k) x → x ∈ firstSL sts
  | [], _, _, _, hne, _ => absurd rfl hne
  | st :: sts, hp, k, x, _, h => by
    simp only [plainSL, Bool.and_eq_true] at hp
    exact Stmt.opens st hp.1 _ h

end

/-! ## Where the two programs are followed to -/

section Exact

variable {g : Func α} {w : Around} {fresh : Bool} {whole pre rest sts : List (Stmt α)}
  {blk : List α} {st : Stmt α} {k : List (Item α)} {p q e : Point} {x : α}

/-- `p` is a place in the list `whole`, in front of `sts`: behind `pre`, which
ends with the last construct passed, and the instructions `blk` of the current
block. -/
structure Position (g : Func α) (w : Around) (fresh : Bool) (whole pre : List (Stmt α))
    (blk : List α) (sts : List (Stmt α)) (p : Point) : Prop where
  split : whole = pre ++ (blk.map .atom ++ sts)
  isFresh : fresh = pre.isEmpty
  laid : LaidSL g (blk.map .atom) (p.1, 0) p
  entry : w = .function → fresh = true → p.1 = 0
  nodup : (labelsSL whole).Nodup

/-- What follows a list does not begin with anything in it, except that a bare
loop's body follows itself. -/
def Follows (w : Around) (whole : List (Stmt α)) (k : List (Item α)) : Prop :=
  ∀ x, run.Opens k x → x ∈ labelsSL whole → w = .bareLoop ∧ x ∈ firstSL whole

theorem labelsSL_atoms (blk : List α) : labelsSL (blk.map .atom) = blk := by
  induction blk with
  | nil => rfl
  | cons a blk ih => simp [labelsSL, Stmt.labels, ih]

/-- What is left of a list begins with its own labels, or is empty. -/
theorem opens_rest (hp : plainSL rest = true) (h : run.Opens (items rest ++ k) x) :
    x ∈ labelsSL rest ∨ rest = [] ∧ run.Opens k x := by
  cases rest with
  | nil => exact Or.inr ⟨rfl, h⟩
  | cons st rest => exact Or.inl (firstSL_subset _ (opensSL _ hp k (List.cons_ne_nil _ _) h))

theorem LaidSL.append {xs ys : List (Stmt α)} (h : LaidSL g xs p q) (h' : LaidSL g ys q e) :
    LaidSL g (xs ++ ys) p e := by
  induction xs generalizing p with
  | nil =>
    obtain rfl : q = p := h
    exact h'
  | cons st xs ih =>
    obtain ⟨q', hst, hxs⟩ := h
    exact ⟨q', hst, ih hxs⟩

/-- Branches enter a block at its start. -/
theorem flow_test_start {c : α} {y n : Point} (h : g.flow p = .test c y n) :
    y.2 = 0 ∧ n.2 = 0 := by
  obtain ⟨b, i⟩ := p
  simp only [Func.flow] at h
  split at h
  · cases h
  · split at h <;> cases h
    exact ⟨rfl, rfl⟩

/-- Branches enter a block at its start. -/
theorem flow_goto_start (h : g.flow p = .goto q) :
    q.2 = 0 ∧ (g.block p.1).term = some (.br q.1) := by
  obtain ⟨b, i⟩ := p
  simp only [Func.flow] at h
  split at h
  · cases h
  · split at h <;> cases h
    exact ⟨rfl, ‹_›⟩

namespace Position

/-- The labels in front of a statement, its own and those behind it are
distinct. -/
theorem labels_nodup (h : Position g w fresh whole pre blk (st :: rest) p) :
    (labelsSL pre ++ (blk ++ (st.labels ++ labelsSL rest))).Nodup := by
  have hn := h.nodup
  rwa [h.split, labelsSL_append, labelsSL_append, labelsSL_atoms] at hn

/-- The block begins with one of its instructions, or with the condition that
ends it. -/
theorem opens_block {c : α} {y n : Point} (h : Position g w fresh whole pre blk sts p)
    (hp : g.flow p = .test c y n) : ∃ x ∈ blk ++ [c], g.flow.Opens (p.1, 0) x := by
  have hlaid := h.laid
  cases blk with
  | nil =>
    rw [show p = (p.1, 0) from hlaid] at hp
    exact ⟨c, by simp, (opens_test_iff hp).mpr rfl⟩
  | cons a blk =>
    obtain ⟨q, ha, -⟩ := hlaid
    exact ⟨a, by simp, (opens_act_iff (show g.flow (p.1, 0) = .act a q from ha)).mpr rfl⟩

/-- What follows a statement begins with one of its labels only where the
statement begins with it too. -/
theorem follows_first (h : Position g w fresh whole pre blk (st :: rest) p)
    (hp : plainSL rest = true) (hk : Follows w whole k) (hx : run.Opens (items rest ++ k) x)
    (hst : x ∈ st.labels) : x ∈ st.first := by
  have hn := h.labels_nodup
  rcases opens_rest hp hx with hrest | ⟨-, hx⟩
  · simp only [List.nodup_append, List.mem_append] at hn
    grind
  · obtain ⟨-, hfirst⟩ := hk x hx (by
      rw [h.split]
      simp [labelsSL_append, labelsSL, hst])
    rw [h.split] at hfirst
    cases pre with
    | cons s₀ pre =>
      have := Stmt.first_subset s₀ hfirst
      simp only [labelsSL, List.nodup_append, List.mem_append] at hn
      grind
    | nil =>
      cases blk with
      | cons a blk =>
        have : x = a := by simpa [firstSL, Stmt.first] using hfirst
        simp only [List.nodup_append, List.mem_append] at hn
        grind
      | nil => exact hfirst

/-- **The key step.** What follows an `if` begins like the block in front of it
only at the end of a bare loop's body in which no construct came before. -/
theorem back_only (h : Position g w fresh whole pre blk (st :: rest) p)
    (hp : plainSL rest = true) (hk : Follows w whole k) {c : α} (hc : c ∈ st.labels)
    (hx : x ∈ blk ++ [c]) (hopens : run.Opens (items rest ++ k) x) :
    w = .bareLoop ∧ fresh = true ∧ rest = [] := by
  have hn := h.labels_nodup
  have hmem : x ∈ blk ++ st.labels := by
    simp only [List.mem_append, List.mem_singleton] at hx ⊢
    rcases hx with hx | rfl
    · exact Or.inl hx
    · exact Or.inr hc
  rcases opens_rest hp hopens with hrest | ⟨rfl, hopens⟩
  · simp only [List.nodup_append, List.mem_append] at hn hmem
    grind
  · obtain ⟨hw, hfirst⟩ := hk x hopens (by
      rw [h.split]
      simp only [labelsSL_append, labelsSL, labelsSL_atoms, List.append_nil, List.mem_append]
      simp only [List.mem_append] at hmem
      exact Or.inr hmem)
    refine ⟨hw, ?_, rfl⟩
    rw [h.isFresh]
    cases pre with
    | nil => rfl
    | cons s₀ pre =>
      rw [h.split] at hfirst
      have := Stmt.first_subset s₀ hfirst
      simp only [labelsSL, List.nodup_append, List.mem_append] at hn hmem
      grind

/-- Past a statement that stays in its block. -/
theorem append_atom {a : α} (h : Position g w fresh whole pre blk (.atom a :: rest) p)
    (hlaid : (Stmt.atom a).Laid g p q) :
    Position g w fresh whole pre (blk ++ [a]) rest q where
  split := by rw [h.split]; simp
  isFresh := h.isFresh
  laid := by
    rw [hlaid.same_block rfl, List.map_append]
    exact h.laid.append (laidSL_singleton.mpr hlaid)
  entry hw hf := by
    rw [hlaid.same_block rfl]
    exact h.entry hw hf
  nodup := h.nodup

/-- Past a construct. -/
theorem append_construct (h : Position g w fresh whole pre blk (st :: rest) p) (hq : q.2 = 0) :
    Position g w false whole (pre ++ (blk.map .atom ++ [st])) [] rest q where
  split := by rw [h.split]; simp
  isFresh := by simp
  laid := by
    obtain ⟨b, i⟩ := q
    obtain rfl : i = 0 := hq
    rfl
  entry _ hf := nomatch hf
  nodup := h.nodup

/-- Past a statement that falls through. -/
theorem next (h : Position g w fresh whole pre blk (st :: rest) p) (hp : st.plain = true)
    (hlaid : st.Laid g p q) (hq : st.construct ≠ none → q.2 = 0) :
    ∃ pre' blk', Position g w (fresh && st.construct.isNone) whole pre' blk' rest q := by
  cases hc : st.construct with
  | none =>
    cases st with
    | atom a =>
      rw [Option.isNone_none, Bool.and_true]
      exact ⟨pre, blk ++ [a], h.append_atom hlaid⟩
    | ifN | ifElse | forN => simp [Stmt.construct] at hc
    | breakN | continueN | retN => simp [Stmt.plain] at hp
  | some c =>
    rw [Option.isNone_some, Bool.and_false]
    exact ⟨_, _, h.append_construct (hq (by simp [hc]))⟩

/-- Into a construct's own list. -/
theorem inner (b : Nat) (hw : w ≠ .function) (hn : (labelsSL sts).Nodup) :
    Position g w true sts [] [] sts (b, 0) where
  split := rfl
  isFresh := rfl
  laid := rfl
  entry h := absurd h hw
  nodup := hn

end Position

/-- What is known of the finished graph: it never gets stuck, and nothing jumps
to its entry. -/
structure Healthy (g : Func α) : Prop where
  live : ∀ v, g.flow.Visits (0, 0) v → g.flow v ≠ .stuck
  entry : ∀ v, g.flow v ≠ .goto (0, 0)

/-- A visited branch whose statements can be run to their end leaves for the
construct's end, or back. -/
theorem exit_goto {last : Option Construct} {x e back : Point} (hg : Healthy g)
    (hx : g.flow x = exitTo last e back) (hv : g.flow.Visits (0, 0) x) :
    last ≠ some .loop ∧ (g.flow x = .goto e ∨ last = some .cond ∧ g.flow x = .goto back) := by
  have hlive := hg.live x hv
  cases last with
  | none => exact ⟨by simp, Or.inl hx⟩
  | some c =>
    cases c with
    | cond => exact ⟨by simp, Or.inr ⟨rfl, hx⟩⟩
    | loop => exact absurd hx hlive

/-- Agreement at a branch's test. -/
theorem agree_branch {c : Option α} {y n : Point} {k₁ k₂ : List (Item α)}
    (h : Agree g.flow p run k) (hp : g.flow p = branchTo c y n) (hk : run k = testBool c k₁ k₂) :
    Agree g.flow y run k₁ ∧ (c.isSome = true → Agree g.flow n run k₂) := by
  cases c with
  | some c =>
    obtain ⟨hy, hn⟩ := h.test hp hk
    exact ⟨hy, fun _ => hn⟩
  | none => exact ⟨(h.goto_left hp).goto_right hk, fun h => nomatch h⟩

theorem visits_branch {c : Option α} {y n : Point} (hp : g.flow p = branchTo c y n) :
    g.flow.Visits p y ∧ (c.isSome = true → g.flow.Visits p n ∧ n.2 = 0) := by
  cases c with
  | some c => exact ⟨.yes hp (.refl _), fun _ => ⟨.no hp (.refl _), (flow_test_start hp).2⟩⟩
  | none => exact ⟨.goto hp (.refl _), fun h => nomatch h⟩

theorem exitsRight_of (h : lastConstruct sts = some .loop → ¬fallsSL sts = true) :
    exitsRight sts = true := by
  by_cases hl : lastConstruct sts = some .loop
  · simp [exitsRight, h hl]
  · simp [exitsRight, hl]

theorem ifExitsRight_of {final : Bool}
    (h : lastConstruct sts = some .loop → ¬fallsSL sts = true)
    (hentry : lastConstruct sts = some .cond → ¬(w = .function ∧ fresh = true))
    (hback : lastConstruct sts = some .cond → fallsSL sts = true →
      w = .bareLoop ∧ fresh = true ∧ final = true) :
    ifExitsRight w fresh final sts = true := by
  simp only [ifExitsRight, exitsRight_of h, Bool.true_and, Bool.or_eq_true, bne_iff_ne, ne_eq,
    Bool.and_eq_true, Bool.not_eq_true', Bool.and_eq_false_imp, beq_iff_eq]
  by_cases hl : lastConstruct sts = some .cond
  · refine Or.inr ⟨fun hw => ?_, ?_⟩
    · simpa [hw] using hentry hl
    · cases hf : fallsSL sts with
      | false => exact Or.inl rfl
      | true =>
        obtain ⟨hw, hfresh, hfinal⟩ := hback hl hf
        exact Or.inr ⟨⟨hw, hfresh⟩, hfinal⟩
  · exact Or.inl hl

mutual

/-- Following one statement. -/
theorem Stmt.wired_of_agree (hg : Healthy g) : ∀ (st : Stmt α), st.plain = true →
    ∀ {w : Around} {fresh : Bool} {whole pre rest : List (Stmt α)} {blk : List α}
      {k : List (Item α)} {p q : Point}, plainSL rest = true →
      Position g w fresh whole pre blk (st :: rest) p → Follows w whole k → st.Laid g p q →
      Agree g.flow p run (.stmt st :: (items rest ++ k)) → g.flow.Visits (0, 0) p →
      st.wired w fresh rest.isEmpty = true ∧ (st.falls = true →
        Agree g.flow q run (items rest ++ k) ∧ g.flow.Visits (0, 0) q ∧
          (st.construct ≠ none → q.2 = 0))
  | .atom a, _, w, fresh, whole, pre, rest, blk, k, p, q, hrest, hpos, hk, hlaid, hagree, hv => by
    refine ⟨rfl, fun _ => ⟨hagree.act hlaid rfl, hv.trans (.act hlaid (.refl _)), ?_⟩⟩
    exact fun h => absurd rfl h
  | .ifN c sts, hp, w, fresh, whole, pre, rest, blk, k, p, q, hrest, hpos, hk, hlaid, hagree,
      hv => by
    obtain ⟨tt, x, htest, hsts, hx⟩ := hlaid
    obtain ⟨hyes, hno⟩ := hagree.test htest rfl
    have hn := hpos.labels_nodup
    simp only [Stmt.labels, List.nodup_append, List.nodup_cons] at hn
    have hinner : Position g .other true sts [] [] sts (tt, 0) :=
      .inner tt (by simp) (by grind)
    have hfollows : Follows .other sts (items rest ++ k) := by
      intro y hy hmem
      have hfirst := hpos.follows_first hrest hk hy (by simp [Stmt.labels, hmem])
      simp only [Stmt.first, List.mem_singleton] at hfirst
      grind
    obtain ⟨hwired, hfall⟩ := wiredSL_of_agree hg sts hp hinner hfollows hsts hyes
      (hv.trans (.yes htest (.refl _)))
    refine ⟨?_, fun _ => ⟨hno, hv.trans (.no htest (.refl _)), fun _ => (flow_test_start htest).2⟩⟩
    simp only [Stmt.wired, hwired, Bool.and_true]
    refine ifExitsRight_of ?_ (fun hl => ?_) (fun hl hf => ?_)
    · exact fun hl hf => (exit_goto hg hx (hfall hf).2).1 hl
    · rw [hl] at hx
      rintro ⟨rfl, rfl⟩
      exact hg.entry x (by rw [hx, hpos.entry rfl rfl]; rfl)
    · rw [hl] at hx
      -- a jump back to the block of the condition is right only at the end of a bare loop
      have hback := (hfall hf).1.goto_left hx
      obtain ⟨y, hy, hopens⟩ := hpos.opens_block htest
      have := hpos.back_only hrest hk (c := c) (by simp [Stmt.labels]) hy (hback.opens hopens)
      exact ⟨this.1, this.2.1, List.isEmpty_iff.mpr this.2.2⟩
  | .ifElse c sts els, hp, w, fresh, whole, pre, rest, blk, k, p, q, hrest, hpos, hk, hlaid,
      hagree, hv => by
    simp only [Stmt.plain, Bool.and_eq_true] at hp
    obtain ⟨tt, tf, x, y, htest, hsts, hx, hels, hy⟩ := hlaid
    obtain ⟨hyes, hno⟩ := hagree.test htest rfl
    have hn := hpos.labels_nodup
    simp only [Stmt.labels, List.nodup_append, List.nodup_cons, List.mem_append] at hn
    have hfollows : ∀ zs : List (Stmt α), labelsSL zs ⊆ labelsSL sts ++ labelsSL els →
        Follows .other zs (items rest ++ k) := by
      intro zs hzs z hz hmem
      have hmem' := hzs hmem
      have hfirst := hpos.follows_first hrest hk hz (List.mem_cons_of_mem _ hmem')
      simp only [Stmt.first, List.mem_singleton] at hfirst
      simp only [List.mem_append] at hmem'
      grind
    obtain ⟨hwired, hfall⟩ := wiredSL_of_agree hg sts hp.1 (.inner tt (by simp) (by grind))
      (hfollows sts (by simp)) hsts hyes (hv.trans (.yes htest (.refl _)))
    obtain ⟨hwired', hfall'⟩ := wiredSL_of_agree hg els hp.2 (.inner tf (by simp) (by grind))
      (hfollows els (by simp)) hels hno (hv.trans (.no htest (.refl _)))
    have hexit : ∀ {last : Option Construct} {z : Point}, g.flow z = exitTo last q q →
        Agree g.flow z run (items rest ++ k) → g.flow.Visits (0, 0) z →
          Agree g.flow q run (items rest ++ k) ∧ g.flow.Visits (0, 0) q ∧
            ((Stmt.ifElse c sts els).construct ≠ none → q.2 = 0) := by
      intro last z hz hagree hvz
      have hgoto : g.flow z = .goto q := by
        rcases (exit_goto hg hz hvz).2 with h | ⟨-, h⟩ <;> exact h
      exact ⟨hagree.goto_left hgoto, hvz.trans (.goto hgoto (.refl _)),
        fun _ => (flow_goto_start hgoto).1⟩
    refine ⟨?_, fun hf => ?_⟩
    · simp only [Stmt.wired, hwired, hwired', Bool.and_true, Bool.and_eq_true]
      exact ⟨exitsRight_of fun hl hf => (exit_goto hg hx (hfall hf).2).1 hl,
        exitsRight_of fun hl hf => (exit_goto hg hy (hfall' hf).2).1 hl⟩
    · rcases (by simpa [Stmt.falls] using hf : fallsSL sts = true ∨ fallsSL els = true) with hf | hf
      · exact hexit hx (hfall hf).1 (hfall hf).2
      · exact hexit hy (hfall' hf).1 (hfall' hf).2
  | .forN init c step sts, hp, w, fresh, whole, pre, rest, blk, k, p, q, hrest, hpos, hk, hlaid,
      hagree, hv => by
    obtain ⟨q', body, cond, r, x, hinit, hq', hsts, hx, hstep, hr⟩ := hlaid
    have htest : Agree g.flow q' run (.stmt (.forN none c step sts) :: (items rest ++ k)) ∧
        g.flow.Visits (0, 0) q' := by
      cases init with
      | some a => exact ⟨hagree.act hinit rfl, hv.trans (.act hinit (.refl _))⟩
      | none =>
        obtain rfl : q' = p := hinit
        exact ⟨hagree, hv⟩
    obtain ⟨hbody, hend⟩ := agree_branch htest.1 hq' rfl
    obtain ⟨hvbody, hvend⟩ := visits_branch hq'
    have hn := hpos.labels_nodup
    simp only [Stmt.labels, List.nodup_append, List.mem_append] at hn
    -- behind the body stands the loop again
    have hfollows : Follows (loopAround c step) sts (.loop c step sts :: (items rest ++ k)) := by
      intro y hy hmem
      rcases opens_loop (fun k hne => opensSL sts hp k hne) hy with hs | ⟨rfl, hs | ⟨rfl, hs⟩⟩
      · grind
      · grind
      · exact ⟨rfl, hs⟩
    have hwired := (wiredSL_of_agree hg sts hp (.inner body
      (by cases c <;> cases step <;> simp [loopAround]) (by grind)) hfollows hsts hbody
      (htest.2.trans hvbody)).1
    refine ⟨hwired, fun hf => ⟨hend hf, htest.2.trans (hvend hf).1, fun _ => (hvend hf).2⟩⟩
  termination_by structural st => st

/-- Following a list of statements. -/
theorem wiredSL_of_agree (hg : Healthy g) : ∀ (sts : List (Stmt α)), plainSL sts = true →
    ∀ {w : Around} {fresh : Bool} {whole pre : List (Stmt α)} {blk : List α}
      {k : List (Item α)} {p e : Point},
      Position g w fresh whole pre blk sts p → Follows w whole k → LaidSL g sts p e →
      Agree g.flow p run (items sts ++ k) → g.flow.Visits (0, 0) p →
      wiredSL w fresh sts = true ∧ (fallsSL sts = true →
        Agree g.flow e run k ∧ g.flow.Visits (0, 0) e)
  | [], _, w, fresh, whole, pre, blk, k, p, e, hpos, hk, hlaid, hagree, hv => by
    obtain rfl : e = p := hlaid
    exact ⟨rfl, fun _ => ⟨hagree, hv⟩⟩
  | st :: sts, hp, w, fresh, whole, pre, blk, k, p, e, hpos, hk, hlaid, hagree, hv => by
    simp only [plainSL, Bool.and_eq_true] at hp
    obtain ⟨q, hst, hsts⟩ := hlaid
    obtain ⟨hwired, hnext⟩ := Stmt.wired_of_agree hg st hp.1 hp.2 hpos hk hst hagree hv
    simp only [wiredSL, fallsSL, hwired, Bool.true_and, Bool.and_eq_true, Bool.or_eq_true,
      Bool.not_eq_true']
    cases hf : st.falls with
    | false => exact ⟨Or.inl rfl, fun h => nomatch h.1⟩
    | true =>
      obtain ⟨hagree', hv', hstart⟩ := hnext hf
      obtain ⟨pre', blk', hpos'⟩ := hpos.next hp.1 hst hstart
      have h := wiredSL_of_agree hg sts hp.2 hpos' hk hsts hagree' hv'
      exact ⟨Or.inr (by simpa using h.1), fun hrest => h.2 hrest.2⟩
  termination_by structural sts => sts

end

/-- A visited point lies in a reachable block, at most at its end. -/
theorem visits_reach {v : Point} (h : g.flow.Visits p v) (hr : g.Reach p.1)
    (hi : p.2 ≤ (g.block p.1).insts.length) :
    g.Reach v.1 ∧ v.2 ≤ (g.block v.1).insts.length := by
  have hterm : ∀ {s : Point} {t : Term α}, s.2 ≤ (g.block s.1).insts.length →
      g.flow s = termAction (some t) → (g.block s.1).term = some t := by
    rintro ⟨b, i⟩ t hi hs
    simp only [Func.flow] at hs
    split at hs
    · cases t <;> cases hs
    · cases t <;> split at hs <;> cases hs <;> assumption
  induction h with
  | refl s => exact ⟨hr, hi⟩
  | act hs _ ih =>
    obtain ⟨ha, rfl⟩ := flow_act_iff.mp hs
    exact ih hr (List.getElem?_eq_some_iff.mp ha).1
  | @yes s y n u c hs _ ih =>
    obtain ⟨hy, hn⟩ := flow_test_start hs
    refine ih (.step hr (t := .condBr c y.1 n.1) (hterm hi ?_) (by simp [Term.targets])) (by omega)
    rw [hs, termAction, show (y.1, 0) = y from Prod.ext rfl hy.symm,
      show (n.1, 0) = n from Prod.ext rfl hn.symm]
  | @no s y n u c hs _ ih =>
    obtain ⟨hy, hn⟩ := flow_test_start hs
    refine ih (.step hr (t := .condBr c y.1 n.1) (hterm hi ?_) (by simp [Term.targets])) (by omega)
    rw [hs, termAction, show (y.1, 0) = y from Prod.ext rfl hy.symm,
      show (n.1, 0) = n from Prod.ext rfl hn.symm]
  | @goto s s' u hs _ ih =>
    obtain ⟨hs', ht⟩ := flow_goto_start hs
    exact ih (.step hr ht (by simp [Term.targets])) (by omega)

/-- A well-formed graph is healthy. -/
theorem Func.WellFormed.healthy (h : g.WellFormed)
    (hbeyond : ∀ b, g.size ≤ b → g.block b = ⟨[], none⟩) : Healthy g where
  live v hv hstuck := by
    obtain ⟨hr, hi⟩ := visits_reach hv .entry (Nat.zero_le _)
    obtain ⟨b, i⟩ := v
    simp only [Func.flow] at hstuck
    split at hstuck
    · cases hstuck
    · split at hstuck <;> cases hstuck
      exact h.terminated b hr ‹_›
  entry v hv := by
    obtain ⟨-, ht⟩ := flow_goto_start hv
    refine h.entry v.1 ?_ _ ht (by simp [Term.targets])
    by_contra hlt
    rw [hbeyond v.1 (Nat.le_of_not_lt hlt)] at ht
    cases ht

end Exact

/-- **The condition is necessary.** -/
theorem refines_wired (parent : Option Nat) {sts : List (Stmt α)} (hp : plainSL sts = true)
    (hn : (labelsSL sts).Nodup)
    (h : Refines (calcBody parent (sts ++ [.retN])) (sts ++ [.retN])) :
    wiredSL .function true sts = true := by
  obtain ⟨e, hc⟩ := calcBody_compiled parent hp
  generalize calcBody parent (sts ++ [.retN]) = g at hc h
  have hagree := h.agree
  rw [items, List.map_append] at hagree
  have hpos : Position g .function true sts [] [] sts (0, 0) :=
    ⟨rfl, rfl, rfl, fun _ _ => rfl, hn⟩
  refine (wiredSL_of_agree (h.wellFormed.healthy hc.beyond) sts hp hpos ?_ hc.laid hagree
    (.refl _)).1
  intro x hx
  rcases hx with hx | ⟨b, hx⟩
  · cases hx with
    | act hs _ => cases hs
    | goto hs _ => cases hs
  · cases hx with
    | test b hs _ => cases hs
    | goto hs _ => cases hs

/-- **The emitted graph is right exactly under the condition**: for every body of
atomic statements, conditionals and loops closed by a `return`, compiled in a
scope with any enclosing block. -/
theorem calcBody_refines_iff (parent : Option Nat) (sts : List (Stmt α))
    (hp : plainSL sts = true) (hn : (labelsSL sts).Nodup) :
    Refines (calcBody parent (sts ++ [.retN])) (sts ++ [.retN]) ↔
      wiredSL .function true sts = true :=
  ⟨refines_wired parent hp hn, wired_refines parent hp⟩

/-- An `if` inside an `else`, and a loop around an `if`. -/
theorem calcBody_refines_iff_nested :
    let sts : List (Stmt Nat) := [.ifElse 0 [.atom 1] [.ifN 2 [.atom 3]],
      .forN (some 4) (some 5) (some 6) [.ifN 7 [.atom 8], .atom 9]]
    Refines (calcBody none (sts ++ [.retN])) (sts ++ [.retN]) :=
  (calcBody_refines_iff none _ (by decide) (by decide)).mpr (by decide)

/-- `if 0 { if 1 {} }`: the inner `end`, block 3, branches to the entry. -/
theorem nested_if_branches_to_entry :
    ¬ ∀ sts : List (Stmt Nat), plainSL sts = true → (labelsSL sts).Nodup →
      Refines (calcBody none (sts ++ [.retN])) (sts ++ [.retN]) := by
  intro h
  have hr := h [.ifN 0 [.ifN 1 []]] (by decide) (by decide)
  exact hr.wellFormed.entry 3 (by decide) (.br 0) (by decide) (by decide)

end CalcLang.Ast
