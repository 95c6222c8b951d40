import Mathlib.Data.Finset.Card
import Mathlib.Data.List.Nodup
import Mathlib.Data.List.Perm.Basic
import Mathlib.Order.Filter.AtTopBot.Basic

/-!
# Tables in which the first of a name stays, and names that lead to names

`first key ds` is the table that a list of declarations fills when a name that is taken is
never given away again. Tables of lists one after the other are put together with `or`
(`first_append`), and where no name is declared twice the order makes no difference
(`first_perm`).

`visit L` looks up a list of names, and whatever the entries it finds mention in their
turn, every name once. It fails at a name that is not there, and if all of them are there
and there are finitely many, it comes to an end (`visit_finds`, `visit_ends`).
-/

namespace CalcLang.Lib

variable {α β κ : Type*} [DecidableEq κ]

/-! ## Tables -/

/-- The table that `ds` fills, its first entry of a name staying. -/
def first (key : α → κ) (ds : List α) : κ → Option α := fun k => ds.find? fun d => key d == k

/-- An entry is added unless its name is taken. -/
def addOnce (t : κ → Option α) (k : κ) (a : α) : κ → Option α := fun k' =>
  (t k').or (if k = k' then some a else none)

theorem first_append (key : α → κ) (ds es : List α) (k : κ) :
    first key (ds ++ es) k = (first key ds k).or (first key es k) :=
  List.find?_append

theorem addOnce_first (key : α → κ) (ds : List α) (d : α) :
    addOnce (first key ds) (key d) d = first key (ds ++ [d]) := by
  funext k
  rw [first_append, addOnce]
  by_cases h : key d = k
  · simp [first, h]
  · simp [first, h]

theorem first_eq_none {key : α → κ} {ds : List α} {k : κ} (h : k ∉ ds.map key) :
    first key ds k = none := by
  refine List.find?_eq_none.mpr fun d hd hk => h ?_
  rw [← eq_of_beq hk]
  exact List.mem_map_of_mem hd

theorem first_eq_some_iff {key : α → κ} {ds : List α} (h : (ds.map key).Nodup) {k : κ} {d : α} :
    first key ds k = some d ↔ d ∈ ds ∧ key d = k := by
  constructor
  · intro hd
    exact ⟨List.mem_of_find?_eq_some hd, by simpa using List.find?_some hd⟩
  · rintro ⟨hd, rfl⟩
    obtain ⟨e, he⟩ : ∃ e, first key ds (key d) = some e :=
      Option.isSome_iff_exists.mp (List.find?_isSome.mpr ⟨d, hd, by simp⟩)
    have hkey : key e = key d := by simpa using List.find?_some he
    rw [he, List.inj_on_of_nodup_map h (List.mem_of_find?_eq_some he) hd hkey]

/-- Without two entries of one name the order makes no difference. -/
theorem first_perm {key : α → κ} {ds es : List α} (hp : ds.Perm es) (h : (ds.map key).Nodup) :
    first key ds = first key es := by
  have h' : (es.map key).Nodup := (hp.map key).nodup_iff.mp h
  funext k
  ext d
  rw [first_eq_some_iff h, first_eq_some_iff h', hp.mem_iff]

/-! ## Names that lead to names -/

/-- Look up the names of `ms`, and what they lead to, except those of `seen`; the names
that have been visited then. -/
def visit (L : κ → Option (List κ)) : Nat → List κ → List κ → Option (List κ)
  | _, [], seen => some seen
  | 0, _ :: _, _ => none
  | n + 1, m :: ms, seen =>
    if m ∈ seen then visit L n ms seen
    else (L m).bind fun body => visit L n (body ++ ms) (m :: seen)

/-- What the names of `ms` lead to. -/
inductive Leads (L : κ → Option (List κ)) (ms : List κ) : κ → Prop
  | mem {m : κ} : m ∈ ms → Leads L ms m
  | body {m m' : κ} {body : List κ} : Leads L ms m → L m = some body → m' ∈ body → Leads L ms m'

omit [DecidableEq κ] in
theorem leads_nil {L : κ → Option (List κ)} {m : κ} : ¬ Leads L [] m := by
  intro h
  induction h with
  | mem hm => cases hm
  | body _ _ _ ih => exact ih

variable {L L' : κ → Option (List κ)} {n : Nat} {ms seen s : List κ}

omit [DecidableEq κ] in
theorem Leads.mono {ms' : List κ} {m : κ} (h : Leads L ms m) (hms : ∀ m ∈ ms, Leads L ms' m) :
    Leads L ms' m := by
  induction h with
  | mem hm => exact hms _ hm
  | body _ hb hm ih => exact ih.body hb hm

/-- The visited names are there, with all that they mention, and all of them had to be
visited. -/
theorem visit_spec (h : visit L n ms seen = some s) :
    (∀ m, m ∈ ms ∨ m ∈ seen → m ∈ s) ∧
      ∀ m ∈ s, m ∈ seen ∨ Leads L ms m ∧ ∃ body, L m = some body ∧ ∀ m' ∈ body, m' ∈ s := by
  induction n generalizing ms seen with
  | zero =>
    cases ms with
    | nil =>
      rw [visit] at h
      cases h
      exact ⟨fun m hm => hm.resolve_left List.not_mem_nil, fun m hm => .inl hm⟩
    | cons m ms => cases h
  | succ n ih =>
    cases ms with
    | nil =>
      rw [visit] at h
      cases h
      exact ⟨fun m hm => hm.resolve_left List.not_mem_nil, fun m hm => .inl hm⟩
    | cons m ms =>
      rw [visit] at h
      split at h
      · next hseen =>
        -- a name that is there adds nothing
        obtain ⟨hin, hout⟩ := ih h
        constructor
        · intro m' hm'
          refine hin m' ?_
          rcases hm' with hm' | hm'
          · rcases List.mem_cons.mp hm' with rfl | hm'
            · exact .inr hseen
            · exact .inl hm'
          · exact .inr hm'
        · intro m' hm'
          refine (hout m' hm').imp_right fun hm' => ⟨hm'.1.mono fun x hx => ?_, hm'.2⟩
          exact .mem (List.mem_cons_of_mem _ hx)
      · next hseen =>
        -- a new one comes in, and the names of its body are next
        obtain ⟨body, hbody, h⟩ := Option.bind_eq_some_iff.mp h
        obtain ⟨hin, hout⟩ := ih h
        have hm : m ∈ s := hin m (.inr List.mem_cons_self)
        constructor
        · intro m' hm'
          rcases hm' with hm' | hm'
          · rcases List.mem_cons.mp hm' with rfl | hm'
            · exact hm
            · exact hin m' (.inl (List.mem_append_right _ hm'))
          · exact hin m' (.inr (List.mem_cons_of_mem _ hm'))
        · intro m' hm'
          rcases hout m' hm' with hm' | ⟨hlead, hlook⟩
          · rcases List.mem_cons.mp hm' with rfl | hm'
            · exact .inr ⟨.mem List.mem_cons_self, body, hbody,
                fun x hx => hin x (.inl (List.mem_append_left _ hx))⟩
            · exact .inl hm'
          · refine .inr ⟨hlead.mono fun x hx => ?_, hlook⟩
            rcases List.mem_append.mp hx with hx | hx
            · exact .body (.mem List.mem_cons_self) hbody hx
            · exact .mem (List.mem_cons_of_mem _ hx)

/-- Everything that the names of `ms` lead to is there. -/
def Finds (L : κ → Option (List κ)) (ms : List κ) : Prop := ∀ m, Leads L ms m → L m ≠ none

theorem visit_finds (h : visit L n ms [] = some s) : Finds L ms := by
  obtain ⟨hin, hout⟩ := visit_spec h
  have hthere : ∀ m ∈ s, ∃ body, L m = some body ∧ ∀ m' ∈ body, m' ∈ s :=
    fun m hm => ((hout m hm).resolve_left List.not_mem_nil).2
  have hlead : ∀ m, Leads L ms m → m ∈ s := by
    intro m hm
    induction hm with
    | mem hm => exact hin _ (.inl hm)
    | body _ hb hm ih =>
      obtain ⟨body, hbody, hall⟩ := hthere _ ih
      cases hb.symm.trans hbody
      exact hall _ hm
  intro m hm
  obtain ⟨body, hbody, -⟩ := hthere m (hlead m hm)
  rw [hbody]
  simp

/-- In a finite part of the table that is complete, every visit comes to an end: each name
is looked up once. -/
theorem visit_closed (seen : List κ) {S : Finset κ}
    (hS : ∀ m ∈ S, ∃ body, L m = some body ∧ ∀ m' ∈ body, m' ∈ S)
    (hms : ∀ m ∈ ms, m ∈ S) : ∃ N, ∀ n ≥ N, (visit L n ms seen).isSome := by
  induction hk : (S \ seen.toFinset).card using Nat.strong_induction_on generalizing ms seen with
  | _ k ih =>
    induction ms with
    | nil =>
      refine ⟨0, fun n _ => ?_⟩
      rw [visit]
      rfl
    | cons m ms ihms =>
      have hms' : ∀ m' ∈ ms, m' ∈ S := fun m' hm' => hms m' (List.mem_cons_of_mem _ hm')
      by_cases hseen : m ∈ seen
      · obtain ⟨N, hN⟩ := ihms hms'
        refine ⟨N + 1, fun n hn => ?_⟩
        obtain ⟨n, rfl⟩ := Nat.exists_eq_add_of_le' (Nat.one_le_of_lt hn)
        rw [visit, if_pos hseen]
        exact hN n (by omega)
      · have hm : m ∈ S := hms m List.mem_cons_self
        obtain ⟨body, hbody, hbodyS⟩ := hS m hm
        -- entering `m` leaves fewer names to enter
        have hless : (S \ (m :: seen).toFinset).card < k := by
          rw [← hk, List.toFinset_cons, Finset.sdiff_insert]
          exact Finset.card_erase_lt_of_mem (by simp [hm, hseen])
        have hall : ∀ m' ∈ body ++ ms, m' ∈ S := by
          intro m' hm'
          rcases List.mem_append.mp hm' with hm' | hm'
          · exact hbodyS m' hm'
          · exact hms' m' hm'
        obtain ⟨N, hN⟩ := ih _ hless _ hall rfl
        refine ⟨N + 1, fun n hn => ?_⟩
        obtain ⟨n, rfl⟩ := Nat.exists_eq_add_of_le' (Nat.one_le_of_lt hn)
        rw [visit, if_neg hseen, hbody]
        exact hN n (by omega)

open Classical in
theorem visit_ends {S : Finset κ} (hS : ∀ m, Leads L ms m → m ∈ S) (h : Finds L ms) :
    ∀ᶠ n in Filter.atTop, (visit L n ms []).isSome := by
  have hclosed : ∀ m ∈ S.filter (Leads L ms), ∃ body, L m = some body ∧
      ∀ m' ∈ body, m' ∈ S.filter (Leads L ms) := by
    intro m hm
    have hlead := (Finset.mem_filter.mp hm).2
    obtain ⟨body, hbody⟩ := Option.ne_none_iff_exists'.mp (h m hlead)
    refine ⟨body, hbody, fun m' hm' => ?_⟩
    have hlead' := hlead.body hbody hm'
    exact Finset.mem_filter.mpr ⟨hS m' hlead', hlead'⟩
  obtain ⟨N, hN⟩ := visit_closed [] hclosed fun m hm =>
    Finset.mem_filter.mpr ⟨hS m (.mem hm), .mem hm⟩
  exact Filter.eventually_atTop.mpr ⟨N, hN⟩

omit [DecidableEq κ] in
theorem Leads.agree (h : ∀ m, Leads L ms m → L m = L' m) {m : κ} (hm : Leads L' ms m) :
    Leads L ms m := by
  induction hm with
  | mem hm => exact .mem hm
  | body _ hb hm ih => exact .body ih ((h _ ih).trans hb) hm

omit [DecidableEq κ] in
/-- The rest of the table does not matter. -/
theorem Finds.agree (h : ∀ m, Leads L ms m → L m = L' m) (hf : Finds L ms) : Finds L' ms := by
  intro m hm
  have hlead := Leads.agree h hm
  rw [← h m hlead]
  exact hf m hlead

/-! ## One after the other -/

section InTurn

variable {σ : Type*} {P : List α → α → Prop} {a : α} {l : List α}

/-- `P` holds of every element, with the elements in front of it. -/
def InTurn (P : List α → α → Prop) (l : List α) : Prop := ∀ as a bs, l = as ++ a :: bs → P as a

@[simp]
theorem inTurn_nil : InTurn P [] := by
  intro as a bs h
  simp at h

theorem inTurn_cons : InTurn P (a :: l) ↔ P [] a ∧ InTurn (fun as => P (a :: as)) l := by
  constructor
  · intro h
    exact ⟨h [] a l rfl, fun as b bs hl => h (a :: as) b bs (congrArg (a :: ·) hl)⟩
  · rintro ⟨ha, hl⟩ as b bs h
    rcases List.cons_eq_append_iff.mp h with ⟨rfl, h⟩ | ⟨as', rfl, h⟩
    · cases h
      exact ha
    · exact hl as' b bs (List.cons.inj h).2

theorem inTurn_iff_forall {p : α → Prop} : InTurn (fun _ => p) l ↔ ∀ a ∈ l, p a := by
  constructor
  · intro h a ha
    obtain ⟨as, bs, hl⟩ := List.append_of_mem ha
    exact h as a bs hl
  · rintro h as a bs rfl
    exact h a (by simp)

theorem InTurn.mono {Q : List α → α → Prop} (h : InTurn P l) (hPQ : ∀ as a, P as a → Q as a) :
    InTurn Q l := fun as a bs hl => hPQ as a (h as a bs hl)

theorem InTurn.eventually {P : ℕ → List α → α → Prop}
    (h : InTurn (fun as a => ∀ᶠ n in Filter.atTop, P n as a) l) :
    ∀ᶠ n in Filter.atTop, InTurn (P n) l := by
  induction l generalizing P with
  | nil => exact .of_forall fun n => inTurn_nil
  | cons a l ih =>
    obtain ⟨ha, hl⟩ := inTurn_cons.mp h
    filter_upwards [ha, ih hl] with n ha hl
    exact inTurn_cons.mpr ⟨ha, hl⟩

/-- A fold whose state is made of what it has been through succeeds if every step does. -/
theorem foldlM_inTurn {f : σ → α → Option σ} {s : σ} (st : List α → σ) (as : List α)
    (hst : ∀ as a s, f (st as) a = some s → s = st (as ++ [a])) :
    l.foldlM f (st as) = some s ↔
      InTurn (fun bs a => (f (st (as ++ bs)) a).isSome) l ∧ s = st (as ++ l) := by
  induction l generalizing as with
  | nil =>
    rw [List.foldlM_nil, List.append_nil]
    exact ⟨fun h => ⟨inTurn_nil, (Option.some.inj h).symm⟩, fun h => congrArg some h.2.symm⟩
  | cons a l ih =>
    rw [List.foldlM_cons, inTurn_cons, List.append_nil]
    cases ha : f (st as) a with
    | none => simp
    | some s' =>
      rw [hst as a s' ha]
      exact (ih (as ++ [a])).trans (by simp)

end InTurn

end CalcLang.Lib
