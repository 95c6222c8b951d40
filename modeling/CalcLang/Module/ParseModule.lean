import Mathlib.Data.Finset.Basic
import Mathlib.Data.List.Basic
import Mathlib.Logic.Function.Basic
import Mathlib.Logic.Relation
import CalcLang.Lib.Transition

/-!
# Loading a program: `ParseDir`, `ParseModule` and the import loop of `program`

`ParseDir` loads the modules of the runtime and then `main`, one after the other.
`ParseModule` looks its module up in `startMap`, under the mutex `mu`. If it is there,
somebody is at work on it already and the call waits until its channel is closed.
Otherwise the call puts it there, starts one goroutine for each of the module's source
files, receives their nodes, emits the merged program under `emitMu`, and closes the
channel. A file's goroutine runs `program`, which calls `ParseModule` for one import of
the file after the other (in the order of a map iteration: any) after it has looked
whether the import is one of its `fathers`, the modules on the path to this call.

A state says where each goroutine is and how far the call that performs a module has
come. What `mu` guards is one step, since nothing in it waits; what `emitMu` guards is
not. The log is there to speak about the order of what happens: files that have been
parsed, and the beginning and the end of `Emit`. All nondeterminism is in the label
of a step: which goroutine goes on, and with which import.
-/

namespace CalcLang.Module

open CalcLang.Lib Relation

/-- What `ParseDir` loads, in this order. -/
def runtimeModules : List String :=
  ["github.com/Chronostasys/calc/runtime", "github.com/Chronostasys/calc/runtime/slice",
    "github.com/Chronostasys/calc/runtime/strings", "github.com/Chronostasys/calc/runtime/coro"]

/-- The modules a program is made of. A module has source files, and a file imports
modules: `imports` is what its import map holds. -/
structure Project where
  modules : Finset String
  files : String → List (List String)
  /-- Else `ParseModule` ends the program: it cannot find a source file. -/
  sources : ∀ m ∈ modules, files m ≠ []
  loaded : ∀ m ∈ runtimeModules ++ ["main"], m ∈ modules
  closed : ∀ m ∈ modules, ∀ file ∈ files m, ∀ v ∈ file, v ∈ modules
  /-- The runtime does not import the program. -/
  library : ∀ m ∈ runtimeModules, ¬ ReflTransGen (fun u v => ∃ file ∈ files u, v ∈ file) m "main"

/-- The import graph: a file of `m` imports `v`. -/
def Project.Imports (P : Project) (m v : String) : Prop :=
  m ∈ P.modules ∧ ∃ file ∈ P.files m, v ∈ file

/-- `ParseDir`, or the goroutine of a module's `i`th file. -/
abbrev Goroutine := Option (String × Nat)

/-- What a goroutine has to load. -/
def Project.imports (P : Project) : Goroutine → List String
  | none => runtimeModules ++ ["main"]
  | some (m, i) => (P.files m)[i]?.getD []

/-- Where a goroutine is. With it goes what is left of its imports. -/
inductive Place
  | unstarted
  /-- In the loop over the imports, or behind it. -/
  | program (left : List String)
  /-- `ParseModule(mod)` is called, and not yet behind `mu`. -/
  | calls (mod : String) (left : List String)
  /-- It waits for the channel of `mod`. -/
  | waits (mod : String) (left : List String)
  /-- The call performs `mod` itself. -/
  | performs (mod : String) (left : List String)
  /-- The file is parsed and its node not yet received. -/
  | parsed
  | finished
  deriving DecidableEq

/-- The imports whose `ParseModule` has not returned. -/
def Place.pending : Place → List String
  | program left => left
  | calls v left | waits v left | performs v left => v :: left
  | _ => []

/-- How far the call is that performs a module. -/
inductive Stage
  /-- So many goroutines have been started. -/
  | starting (n : Nat)
  /-- It holds `emitMu`. -/
  | emitting
  | emitted
  /-- The channel is closed. -/
  | closed
  deriving DecidableEq

/-- How many of `files` goroutines have been started. -/
def Stage.started (files : Nat) : Stage → Nat
  | starting n => n
  | _ => files

inductive Event
  | parsed (m : String) (i : Nat)
  | emits (m : String)
  | emitted (m : String)
  deriving DecidableEq

structure State where
  startMap : String → Option Stage
  /-- The `fathers` the call that performs a module was given. -/
  fathers : String → List String
  place : Goroutine → Place
  emitMu : Option String
  log : List Event
  /-- The program has ended with "found loop referencing". -/
  loop : Bool

/-- `ParseDir` begins. -/
def State.start : State where
  startMap _ := none
  fathers _ := []
  place g := if g = none then .program (runtimeModules ++ ["main"]) else .unstarted
  emitMu := none
  log := []
  loop := false

namespace State

/-- `newF` of a file's goroutine: the module and its fathers. -/
def newF (s : State) : Goroutine → List String
  | none => []
  | some (m, _) => m :: s.fathers m

def move (s : State) (g : Goroutine) (p : Place) : State :=
  { s with place := Function.update s.place g p }

def setStage (s : State) (m : String) (st : Stage) : State :=
  { s with startMap := Function.update s.startMap m (some st) }

def note (s : State) (e : Event) : State := { s with log := s.log ++ [e] }

section Fields

variable (s : State) (g : Goroutine) (p : Place) (m : String) (st : Stage) (e : Event)

@[simp] theorem move_startMap : (s.move g p).startMap = s.startMap := rfl
@[simp] theorem move_fathers : (s.move g p).fathers = s.fathers := rfl
@[simp] theorem move_place : (s.move g p).place = Function.update s.place g p := rfl
@[simp] theorem move_emitMu : (s.move g p).emitMu = s.emitMu := rfl
@[simp] theorem move_log : (s.move g p).log = s.log := rfl
@[simp] theorem move_loop : (s.move g p).loop = s.loop := rfl
@[simp] theorem setStage_startMap :
    (s.setStage m st).startMap = Function.update s.startMap m (some st) := rfl
@[simp] theorem setStage_fathers : (s.setStage m st).fathers = s.fathers := rfl
@[simp] theorem setStage_place : (s.setStage m st).place = s.place := rfl
@[simp] theorem setStage_emitMu : (s.setStage m st).emitMu = s.emitMu := rfl
@[simp] theorem setStage_log : (s.setStage m st).log = s.log := rfl
@[simp] theorem setStage_loop : (s.setStage m st).loop = s.loop := rfl
@[simp] theorem note_startMap : (s.note e).startMap = s.startMap := rfl
@[simp] theorem note_fathers : (s.note e).fathers = s.fathers := rfl
@[simp] theorem note_place : (s.note e).place = s.place := rfl
@[simp] theorem note_emitMu : (s.note e).emitMu = s.emitMu := rfl
@[simp] theorem note_log : (s.note e).log = s.log ++ [e] := rfl
@[simp] theorem note_loop : (s.note e).loop = s.loop := rfl

end Fields

end State

inductive Label
  | go (m : String)
  | call (g : Goroutine) (v : String)
  | enter (g : Goroutine)
  | resume (g : Goroutine)
  | finish (g : Goroutine)
  | receive (m : String) (i : Nat)
  | lock (m : String)
  | unlock (m : String)
  | close (m : String)
  deriving DecidableEq

/-- The import a goroutine may take next: `ParseDir` has an order, a map has none. -/
def mayCall (g : Goroutine) (v : String) (left : List String) : Bool :=
  if g = none then left.head? = some v else left.contains v

open State in
/-- One step. After the panic there is none. -/
def step (P : Project) (s : State) (l : Label) : Option State :=
  if s.loop then none else
  match l with
  | .go m =>
    match s.startMap m with
    | some (.starting n) =>
      if n < (P.files m).length then
        some ((s.setStage m (.starting (n + 1))).move (some (m, n))
          (.program (P.imports (some (m, n)))))
      else none
    | _ => none
  | .call g v =>
    match s.place g with
    | .program left =>
      if mayCall g v left then
        if (s.newF g).contains v then some { s with loop := true }
        else some (s.move g (.calls v (left.erase v)))
      else none
    | _ => none
  | .enter g =>
    match s.place g with
    | .calls v left =>
      match s.startMap v with
      | some _ => some (s.move g (.waits v left))
      | none =>
        some (({ s with fathers := Function.update s.fathers v (s.newF g) }.setStage v
          (.starting 0)).move g (.performs v left))
    | _ => none
  | .resume g =>
    match s.place g with
    | .waits v left | .performs v left =>
      if s.startMap v = some .closed then some (s.move g (.program left)) else none
    | _ => none
  | .finish g =>
    match g, s.place g with
    | none, .program [] => some (s.move none .finished)
    | some (m, i), .program [] => some ((s.move (some (m, i)) .parsed).note (.parsed m i))
    | _, _ => none
  | .receive m i =>
    match s.startMap m, s.place (some (m, i)) with
    | some (.starting n), .parsed =>
      if n = (P.files m).length then some (s.move (some (m, i)) .finished) else none
    | _, _ => none
  | .lock m =>
    match s.startMap m, s.emitMu with
    | some (.starting n), none =>
      if n = (P.files m).length ∧ ∀ i < n, s.place (some (m, i)) = .finished then
        some (({ s with emitMu := some m }.setStage m .emitting).note (.emits m))
      else none
    | _, _ => none
  | .unlock m =>
    match s.startMap m with
    | some .emitting =>
      some (({ s with emitMu := none }.setStage m .emitted).note (.emitted m))
    | _ => none
  | .close m =>
    match s.startMap m with
    | some .emitted => some (s.setStage m .closed)
    | _ => none

/-- The runs of `ParseDir`. -/
def loading (P : Project) : Machine State Label where
  start := .start
  step := step P

/-! ## What a step can do -/

/-- A step by its cases, each with all it asks of the state. -/
inductive Step (P : Project) (s : State) : Label → State → Prop
  | go {m n} (hm : s.startMap m = some (.starting n)) (hn : n < (P.files m).length) :
    Step P s (.go m) ((s.setStage m (.starting (n + 1))).move (some (m, n))
      (.program (P.imports (some (m, n)))))
  | loop {g v left} (hg : s.place g = .program left) (hv : mayCall g v left)
    (hloop : v ∈ s.newF g) : Step P s (.call g v) { s with loop := true }
  | call {g v left} (hg : s.place g = .program left) (hv : mayCall g v left)
    (hloop : v ∉ s.newF g) : Step P s (.call g v) (s.move g (.calls v (left.erase v)))
  | wait {g v left} (hg : s.place g = .calls v left) (hv : s.startMap v ≠ none) :
    Step P s (.enter g) (s.move g (.waits v left))
  | perform {g v left} (hg : s.place g = .calls v left) (hv : s.startMap v = none) :
    Step P s (.enter g) (({ s with fathers := Function.update s.fathers v (s.newF g) }.setStage v
      (.starting 0)).move g (.performs v left))
  | resume {g v left} (hg : s.place g = .waits v left ∨ s.place g = .performs v left)
    (hv : s.startMap v = some .closed) : Step P s (.resume g) (s.move g (.program left))
  | leave (hg : s.place none = .program []) : Step P s (.finish none) (s.move none .finished)
  | parse {m i} (hg : s.place (some (m, i)) = .program []) :
    Step P s (.finish (some (m, i))) ((s.move (some (m, i)) .parsed).note (.parsed m i))
  | receive {m i} (hm : s.startMap m = some (.starting (P.files m).length))
    (hg : s.place (some (m, i)) = .parsed) :
    Step P s (.receive m i) (s.move (some (m, i)) .finished)
  | lock {m} (hm : s.startMap m = some (.starting (P.files m).length)) (hmu : s.emitMu = none)
    (hfin : ∀ i < (P.files m).length, s.place (some (m, i)) = .finished) :
    Step P s (.lock m) (({ s with emitMu := some m }.setStage m .emitting).note (.emits m))
  | unlock {m} (hm : s.startMap m = some .emitting) :
    Step P s (.unlock m) (({ s with emitMu := none }.setStage m .emitted).note (.emitted m))
  | close {m} (hm : s.startMap m = some .emitted) : Step P s (.close m) (s.setStage m .closed)

theorem step_cases {P : Project} {s s' : State} {l : Label} (h : step P s l = some s') :
    s.loop = false ∧ Step P s l s' := by
  unfold step at h
  split at h
  · nomatch h
  next hl =>
  refine ⟨by simpa using hl, ?_⟩
  cases l with
  | go m =>
    simp only at h
    split at h
    next n hm =>
      split at h
      · obtain rfl := Option.some.inj h
        exact .go hm ‹_›
      · nomatch h
    · nomatch h
  | call g v =>
    simp only at h
    split at h
    next left hg =>
      split at h
      next hv =>
        split at h
        next hf =>
          obtain rfl := Option.some.inj h
          exact .loop hg hv (List.contains_iff_mem.mp hf)
        next hf =>
          obtain rfl := Option.some.inj h
          exact .call hg hv (fun hf' => hf (List.contains_iff_mem.mpr hf'))
      · nomatch h
    · nomatch h
  | enter g =>
    simp only at h
    split at h
    next v left hg =>
      split at h
      next hv =>
        obtain rfl := Option.some.inj h
        exact .wait hg (by rw [hv]; nofun)
      next hv =>
        obtain rfl := Option.some.inj h
        exact .perform hg hv
    · nomatch h
  | resume g =>
    simp only at h
    split at h
    next v left hg =>
      split at h
      · obtain rfl := Option.some.inj h
        exact .resume (.inl hg) ‹_›
      · nomatch h
    next v left hg =>
      split at h
      · obtain rfl := Option.some.inj h
        exact .resume (.inr hg) ‹_›
      · nomatch h
    · nomatch h
  | finish g =>
    simp only at h
    split at h
    · obtain rfl := Option.some.inj h
      exact .leave ‹_›
    · obtain rfl := Option.some.inj h
      exact .parse ‹_›
    · nomatch h
  | receive m i =>
    simp only at h
    split at h
    next n hm hg =>
      split at h
      next hn =>
        obtain rfl := Option.some.inj h
        exact .receive (hn ▸ hm) hg
      · nomatch h
    · nomatch h
  | lock m =>
    simp only at h
    split at h
    next n hm hmu =>
      split at h
      next hn =>
        obtain ⟨rfl, hfin⟩ := hn
        obtain rfl := Option.some.inj h
        exact .lock hm hmu hfin
      · nomatch h
    · nomatch h
  | unlock m =>
    simp only at h
    split at h
    · obtain rfl := Option.some.inj h
      exact .unlock ‹_›
    · nomatch h
  | close m =>
    simp only at h
    split at h
    · obtain rfl := Option.some.inj h
      exact .close ‹_›
    · nomatch h

theorem Step.eq {P : Project} {s s' : State} {l : Label} (hl : s.loop = false)
    (h : Step P s l s') : step P s l = some s' := by
  unfold step
  rw [if_neg (by simp [hl])]
  cases h with
  | go hm hn => simp [hm, hn]
  | loop hg hv hf => simp [hg, hv, hf]
  | call hg hv hf => simp [hg, hv, hf]
  | @wait g v left hg hv =>
    obtain ⟨st, hst⟩ := Option.ne_none_iff_exists'.mp hv
    simp [hg, hst]
  | perform hg hv => simp [hg, hv]
  | resume hg hv => rcases hg with hg | hg <;> simp [hg, hv]
  | leave hg => simp [hg]
  | parse hg => simp [hg]
  | receive hm hg => simp [hm, hg]
  | lock hm hmu hfin => simp [hm, hmu]; exact hfin
  | unlock hm => simp [hm]
  | close hm => simp [hm]

end CalcLang.Module
