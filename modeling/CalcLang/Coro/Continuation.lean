import CalcLang.Lib.Memory

/-!
# What `TryQueueContinuous` clears

A state machine is kept behind an interface value: a word with the address of the instance, and the
methods. `AwaitNode.calc` stores the continuation in the first word of the instance, `GetContinuous` reads it
there, for contexts of async functions as for both kinds of `AsyncGen`. `TryQueueContinuous` takes an interface
value as its parameter, and after it has read the continuation it sets the first word behind `&st`
to 0. That is the first word of its own copy of the interface value: the copy has no instance any more, and
the instance has its continuation still.

So every further call queues the continuation once more (`calls_queue`), for all kinds of state machines.
-/

namespace CalcLang.Coro.Continuation

open CalcLang.Lib

/-! ## State machines -/

/-- What a word of the memory is. -/
inductive Word where
  | int (i : Int)
  | ptr (p : Ptr)
deriving DecidableEq

/-- `nil`, as a pointer or as an integer. -/
def nil : Word := .int 0

/-- Where a word points to. -/
def Word.addr : Word → Ptr
  | .int _ => Ptr.nil
  | .ptr p => p

/-- The word at an address. -/
def load (m : Mem Word) (p : Ptr) : Word := m.cell p.block p.off

/-- A kind of state machine: how many words an instance has, and what `SetDone` writes to which of them. The
first one is the continuation and the second one the mutex. -/
structure Kind where
  size : Nat
  setDone : List (Nat × Word)
  size_ge : 2 ≤ size
  keeps : ∀ w ∈ setDone, 2 ≤ w.1

/-- `coro.AsyncGen`: `nextTask`, `lock`, `done`, `f`, `re` and `reFromFunc`. -/
def asyncGen : Kind where
  size := 6
  setDone := [(2, .int 1)]
  size_ge := by decide
  keeps := by simp

/-- `libuv.AsyncGen`: `nextTask`, `lock`, `done` and `f`. -/
def uvAsyncGen : Kind where
  size := 4
  setDone := [(2, .int 1)]
  size_ge := by decide
  keeps := by simp

/-- The context of an async function with so many variables. Its block address and its result are behind
them; `SetDone` clears the variables. -/
def context (vars : Nat) : Kind where
  size := 3 + vars + 2
  setDone := (2, .int 1) :: (List.range vars).map fun i => (3 + i, .int 0)
  size_ge := by omega
  keeps := by
    intro w hw
    obtain rfl | hw := List.mem_cons.mp hw
    · exact Nat.le_refl _
    · obtain ⟨i, -, rfl⟩ := List.mem_map.mp hw
      exact Nat.le_trans (by decide) (Nat.le_add_right 3 i)

def GetContinuous (m : Mem Word) (self : Ptr) : Word := load m self

def GetMutex (m : Mem Word) (self : Ptr) : Word := load m (self.add 1)

def SetDone (k : Kind) (m : Mem Word) (self : Ptr) : Mem Word :=
  k.setDone.foldl (fun m w => m.write (self.add w.1) [w.2]) m

/-! ## The call -/

/-- The memory, the mutexes that are locked, and what is on the scheduler's queue. -/
structure Runtime where
  mem : Mem Word
  held : List Word
  queue : List Word

/-- `TryQueueContinuous` from `SetDone` on. `param` is where the parameter `st` is, an interface value: each method
is called on the instance that its first word points to. -/
def complete (k : Kind) (param : Ptr) (m : Mem Word) (s : Runtime) : Runtime :=
  let m := SetDone k m (load m param).addr
  let c := GetContinuous m (load m param).addr
  if c = nil then { s with mem := m }
  else { s with mem := m.write param [nil], queue := s.queue ++ [c] }

/-- `TryQueueContinuous`, of the state machine with the instance `st`. The parameter has a place of its own, with the
instance and five methods. The call waits where the mutex is locked; otherwise it is locked and unlocked. -/
def TryQueueContinuous (k : Kind) (st : Ptr) (s : Runtime) : Option Runtime :=
  let param := (s.mem.alloc nil 6).1
  let m := (s.mem.alloc nil 6).2.write param [.ptr st]
  if GetMutex m (load m param).addr ∈ s.held then none else some (complete k param m s)

/-- So many calls, one after the other. -/
def calls (k : Kind) (st : Ptr) : Nat → Runtime → Option Runtime
  | 0, s => some s
  | n + 1, s => (TryQueueContinuous k st s).bind (calls k st n)

/-- What a call is meant to leave: no continuation, and one entry on the queue that stays the only one. -/
def Once (k : Kind) (st : Ptr) (c : Word) (s : Runtime) : Prop :=
  ∃ s', TryQueueContinuous k st s = some s' ∧ GetContinuous s'.mem st = nil ∧
    ∀ n t, calls k st n s' = some t → t.queue = s.queue ++ [c]

/-! ## What stays -/

/-- A state machine that is not locked and has a continuation. -/
structure Registered (k : Kind) (st : Ptr) (c : Word) (s : Runtime) : Prop where
  inst : s.mem.InBounds st k.size
  free : GetMutex s.mem st ∉ s.held
  cont : GetContinuous s.mem st = c
  ne : c ≠ nil

theorem load_write_self (m : Mem Word) (p : Ptr) (w : Word) : load (m.write p [w]) p = w := by
  simp [load, Mem.write]

theorem load_write_of_ne (m : Mem Word) {p q : Ptr} (h : p ≠ q) (w : Word) :
    load (m.write p [w]) q = load m q := by
  show (if q.block = p.block ∧ p.off ≤ q.off then [w].getD (q.off - p.off) (m.cell q.block q.off)
    else m.cell q.block q.off) = _
  split
  · rename_i hle
    have hoff : q.off ≠ p.off := by
      intro he
      apply h
      cases p
      cases q
      exact congrArg₂ Ptr.mk hle.1.symm he.symm
    rw [List.getD_eq_getElem?_getD, List.getElem?_eq_none (by simp only [List.length_singleton]; omega)]
    rfl
  · rfl

/-- The first two words of an instance are left alone by `SetDone`, and with them its own parameter. -/
theorem load_SetDone (k : Kind) (m : Mem Word) (self : Ptr) {q : Ptr}
    (hq : ∀ w ∈ k.setDone, self.add w.1 ≠ q) : load (SetDone k m self) q = load m q := by
  unfold SetDone
  revert hq
  generalize k.setDone = ws
  intro hq
  induction ws generalizing m with
  | nil => rfl
  | cons w ws ih =>
    have hrest := ih (m.write (self.add w.1) [w.2]) fun v hv => hq v (List.mem_cons_of_mem _ hv)
    exact hrest.trans (load_write_of_ne m (hq w List.mem_cons_self) w.2)

theorem sizes_SetDone (k : Kind) (m : Mem Word) (self : Ptr) : (SetDone k m self).sizes = m.sizes := by
  unfold SetDone
  generalize k.setDone = ws
  induction ws generalizing m with
  | nil => rfl
  | cons w ws ih => exact ih (m.write (self.add w.1) [w.2])

/-- What is there before a call is there afterwards, in the first two words of the instance. -/
theorem load_prologue (m : Mem Word) (st q : Ptr) (h : q.block < m.sizes.length) :
    load ((m.alloc nil 6).2.write (m.alloc nil 6).1 [.ptr st]) q = load m q := by
  have hne : (m.alloc nil 6).1 ≠ q := by
    intro he
    rw [← he] at h
    exact Nat.lt_irrefl _ h
  rw [load_write_of_ne _ hne]
  show (if q.block = m.sizes.length then nil else m.cell q.block q.off) = _
  rw [if_neg (Nat.ne_of_lt h)]
  rfl

/-- A call of a state machine with a continuation queues it, and that is all that anybody sees of it. -/
theorem Registered.call {k : Kind} {st : Ptr} {c : Word} {s : Runtime} (h : Registered k st c s) :
    ∃ s', TryQueueContinuous k st s = some s' ∧ Registered k st c s' ∧ s'.queue = s.queue ++ [c] := by
  have hlt := h.inst.block_lt
  -- the parameter is a cell of its own, so no field of the state machine is written but by `SetDone`
  let param := (s.mem.alloc nil 6).1
  let m := (s.mem.alloc nil 6).2.write param [.ptr st]
  have hself : load m param = .ptr st := load_write_self _ _ _
  have hparam : ∀ i, st.add i ≠ param := by
    intro i he
    have hb : st.block = s.mem.sizes.length := congrArg Ptr.block he
    omega
  let m' := SetDone k m st
  have hself' : load m' param = .ptr st := (load_SetDone k m st fun w _ => hparam w.1).trans hself
  have hfield : ∀ i, i < 2 → load m' (st.add i) = load s.mem (st.add i) := by
    intro i hi
    refine (load_SetDone k m st fun w hw he => ?_).trans (load_prologue s.mem st (st.add i) hlt)
    have hoff : st.off + w.1 = st.off + i := congrArg Ptr.off he
    have := k.keeps w hw
    omega
  have hmutex : GetMutex m st ∉ s.held := by
    have : GetMutex m st = GetMutex s.mem st := load_prologue s.mem st (st.add 1) hlt
    rw [this]
    exact h.free
  have hcont : GetContinuous m' st = c := (hfield 0 (by decide)).trans h.cont
  have hafter : ∀ i, i < 2 → load (m'.write param [nil]) (st.add i) = load s.mem (st.add i) :=
    fun i hi => (load_write_of_ne m' (Ne.symm (hparam i)) nil).trans (hfield i hi)
  refine ⟨{ s with mem := m'.write param [nil], queue := s.queue ++ [c] }, ?_, ⟨?_, ?_, ?_, h.ne⟩, rfl⟩
  · have hfree : GetMutex m (load m param).addr ∉ s.held := by
      rw [hself]
      exact hmutex
    have hdone : complete k param m s = { s with mem := m'.write param [nil], queue := s.queue ++ [c] } := by
      have hread : GetContinuous (SetDone k m st) (load (SetDone k m st) param).addr = c := by
        rw [hself']
        exact hcont
      unfold complete
      rw [hself]
      show (if GetContinuous (SetDone k m st) (load (SetDone k m st) param).addr = nil then _ else
        { s with mem := _, queue := _ ++ [GetContinuous (SetDone k m st) (load (SetDone k m st) param).addr] }) = _
      rw [hread]
      exact if_neg h.ne
    exact (if_neg hfree).trans (congrArg some hdone)
  · refine h.inst.grow ?_
    show s.mem.sizes <+: m'.sizes
    rw [sizes_SetDone]
    exact List.prefix_append _ _
  · show load (m'.write param [nil]) (st.add 1) ∉ s.held
    rw [hafter 1 (by decide)]
    exact h.free
  · exact (hafter 0 (by decide)).trans h.cont

/-- Any number of calls queue the continuation that number of times. -/
theorem calls_queue {k : Kind} {st : Ptr} {c : Word} (n : Nat) {s : Runtime} (h : Registered k st c s) :
    ∃ s', calls k st n s = some s' ∧ Registered k st c s' ∧ s'.queue = s.queue ++ List.replicate n c := by
  induction n generalizing s with
  | zero => exact ⟨s, rfl, h, (List.append_nil _).symm⟩
  | succ n ih =>
    obtain ⟨t, ht, hreg, hqueue⟩ := h.call
    obtain ⟨s', hs', hreg', hqueue'⟩ := ih hreg
    refine ⟨s', ?_, hreg', ?_⟩
    · show (TryQueueContinuous k st s).bind (calls k st n) = some s'
      rw [ht]
      exact hs'
    · rw [hqueue', hqueue, List.append_assoc]
      rfl

/-- No call of a state machine with a continuation leaves it without one, and the next call queues the continuation
again. -/
theorem never_once (k : Kind) (st : Ptr) (c : Word) (s : { s : Runtime // Registered k st c s }) :
    ¬ Once k st c s ∧ ∀ n, ∃ s', calls k st (n + 1) s = some s' ∧ GetContinuous s'.mem st = c ∧
      s'.queue = s.1.queue ++ List.replicate (n + 1) c := by
  constructor
  · intro h
    obtain ⟨s', hs', hnil, -⟩ := h
    obtain ⟨t, ht, hreg, -⟩ := s.2.call
    obtain rfl : t = s' := Option.some.inj (ht.symm.trans hs')
    exact hreg.ne (hreg.cont.symm.trans hnil)
  · intro n
    obtain ⟨s', hs', hreg, hqueue⟩ := calls_queue (n + 1) s.2
    exact ⟨s', hs', hreg.cont, hqueue⟩

/-- An `AsyncGen` with a mutex at 2 and a continuation at 3. -/
def waiting : Runtime where
  mem := (Mem.alloc ⟨[0], fun _ _ => nil⟩ nil 6).2.write ⟨1, 0⟩ [.ptr ⟨3, 0⟩, .ptr ⟨2, 0⟩]
  held := []
  queue := []

example : Registered asyncGen ⟨1, 0⟩ (.ptr ⟨3, 0⟩) waiting := ⟨⟨6, rfl, by decide⟩, by decide, rfl, by decide⟩

/-- Two calls queue it twice. -/
theorem queued_twice : ¬ Once asyncGen ⟨1, 0⟩ (.ptr ⟨3, 0⟩) waiting := by
  intro h
  obtain ⟨s', hs', -, hqueue⟩ := h
  have htwo : (calls asyncGen ⟨1, 0⟩ 2 waiting).map Runtime.queue = some [.ptr ⟨3, 0⟩, .ptr ⟨3, 0⟩] := rfl
  have hsecond : (calls asyncGen ⟨1, 0⟩ 1 s').map Runtime.queue = some [.ptr ⟨3, 0⟩, .ptr ⟨3, 0⟩] := by
    rw [← htwo]
    show _ = ((TryQueueContinuous asyncGen ⟨1, 0⟩ waiting).bind _).map Runtime.queue
    rw [hs']
    rfl
  obtain ⟨t, ht, hq⟩ := Option.map_eq_some_iff.mp hsecond
  rw [hqueue 1 t ht] at hq
  cases hq

end CalcLang.Coro.Continuation
