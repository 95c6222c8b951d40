import CalcLang.Lib.Memory
import CalcLang.Lib.Transition

/-!
# Strings

`runtime/strings/string.calc`: a string is a pointer to its bytes, with a length. A literal has its bytes in an
allocation that is made where it is evaluated, `Append` copies both strings into a new one, and `Print` gives the
bytes to `putchar`. `Byte` gives the pointer away, and with `NewStr` a program can take a part of the bytes for another
string.

Nothing writes to bytes that a string has. So strings are values: a program does the same on memory (`heap`) as on
lists of bytes (`values`), and every access is inside of one allocation (`strings_are_values`).

Lengths are sizes of memory in use, which 64 bits hold.
-/

namespace CalcLang.Strings

open CalcLang.Lib

abbrev Byte := BitVec 8

/-- `_str`. -/
structure Str where
  bs : Ptr
  len : Nat

/-- `NewStr`. -/
def NewStr (bs : Ptr) (len : Nat) : Str := ⟨bs, len⟩

/-- `inside` is `InBounds`, decided. -/
def inside (m : Mem Byte) (p : Ptr) (n : Nat) : Bool := m.sizes[p.block]?.any fun sz => p.off + n ≤ sz

/-- `memcpy`. -/
def memcpy (m : Mem Byte) (dst src : Ptr) (n : Nat) : Option (Mem Byte) :=
  if inside m dst n && inside m src n then some (m.copy dst src n) else none

/-- `StringNode.calc`: the bytes are stored into a new allocation. -/
def literal (m : Mem Byte) (ch : List Byte) : Str × Mem Byte :=
  let (alloca, m) := m.alloc 0 ch.length
  (NewStr alloca ch.length, m.write alloca ch)

/-- `Append`. -/
def Append (m : Mem Byte) (s newstr : Str) : Option (Str × Mem Byte) := do
  let (bs, m) := m.alloc 0 (s.len + newstr.len)
  let m ← memcpy m bs s.bs s.len
  let nbs := bs.add s.len
  let m ← memcpy m nbs newstr.bs newstr.len
  some (⟨bs, s.len + newstr.len⟩, m)

/-- `Print`, from the byte `i` on. `out` is what `putchar` has got. -/
def Print (m : Mem Byte) (s : Str) (i : Nat) (out : List Byte) : Option (List Byte) :=
  if i < s.len then
    let ch := s.bs.add i
    if inside m ch 1 then Print m s (i + 1) (out ++ [m.cell ch.block ch.off]) else none
  else some out
termination_by s.len - i

/-- `PrintLn`. -/
def PrintLn (m : Mem Byte) (s : Str) (out : List Byte) : Option (List Byte) := do
  let out ← Print m s 0 out
  some (out ++ [10])

/-! ## Programs that use strings -/

/-- What a program does. A string is known by its place among those made so far. `NewStr` is for the `len` bytes of
`s` from `start` on. -/
inductive Op where
  | literal (ch : List Byte)
  | NewStr (s start len : Nat)
  | Append (s newstr : Nat)
  | Print (s : Nat)
  | PrintLn (s : Nat)

structure State where
  mem : Mem Byte
  strs : List Str
  out : List Byte

/-- On memory. Nothing is said of a program that takes bytes behind a string. -/
def State.step (st : State) : Op → Option State
  | .literal ch =>
    let (s, m) := Strings.literal st.mem ch
    some { st with mem := m, strs := st.strs ++ [s] }
  | .NewStr a start len => do
    let s ← st.strs[a]?
    if start + len ≤ s.len then some { st with strs := st.strs ++ [Strings.NewStr (s.bs.add start) len] } else none
  | .Append a b => do
    let s ← st.strs[a]?
    let newstr ← st.strs[b]?
    let (s, m) ← Strings.Append st.mem s newstr
    some { st with mem := m, strs := st.strs ++ [s] }
  | .Print a => do
    let s ← st.strs[a]?
    let out ← Strings.Print st.mem s 0 st.out
    some { st with out := out }
  | .PrintLn a => do
    let s ← st.strs[a]?
    let out ← Strings.PrintLn st.mem s st.out
    some { st with out := out }

def heap : Machine State Op where
  start := ⟨.empty 0, [], []⟩
  step := State.step

/-- Strings as values. -/
structure Values where
  strs : List (List Byte)
  out : List Byte

def Values.step (v : Values) : Op → Option Values
  | .literal ch => some { v with strs := v.strs ++ [ch] }
  | .NewStr a start len => do
    let s ← v.strs[a]?
    if start + len ≤ s.length then some { v with strs := v.strs ++ [(s.drop start).take len] } else none
  | .Append a b => do
    let s ← v.strs[a]?
    let newstr ← v.strs[b]?
    some { v with strs := v.strs ++ [s ++ newstr] }
  | .Print a => do
    let s ← v.strs[a]?
    some { v with out := v.out ++ s }
  | .PrintLn a => do
    let s ← v.strs[a]?
    some { v with out := v.out ++ s ++ [10] }

def values : Machine Values Op where
  start := ⟨[], []⟩
  step := Values.step

/-! ## One operation -/

variable {m m' : Mem Byte} {s newstr : Str} {st st' : State}

/-- The bytes of a string. -/
def Str.bytes (m : Mem Byte) (s : Str) : List Byte := m.read s.bs s.len

/-- The string is in one allocation. -/
def Str.Within (m : Mem Byte) (s : Str) : Prop := m.InBounds s.bs s.len

theorem inside_iff {p : Ptr} {n : Nat} : inside m p n = true ↔ m.InBounds p n := by
  simp [inside, Mem.InBounds, Option.any_eq_true]

/-- What comes into memory beside the strings that are there. -/
structure Beside (m m' : Mem Byte) : Prop where
  grows : m.sizes <+: m'.sizes
  frame : ∀ q k, q.block < m.sizes.length → m'.read q k = m.read q k

theorem Beside.within (h : Beside m m') (hs : s.Within m) : s.Within m' ∧ s.bytes m' = s.bytes m :=
  ⟨hs.grow h.grows, h.frame _ _ hs.block_lt⟩

/-- A write to an allocation that is new. -/
theorem beside_write {p : Ptr} {bs : List Byte} (hp : m.sizes.length ≤ p.block) (h : Beside m m') :
    Beside m (m'.write p bs) where
  grows := h.grows
  frame q k hq := by
    have hne : p.block ≠ q.block := by omega
    rw [Mem.read_write_of_apart m' (.inl hne), h.frame q k hq]

theorem beside_alloc (m : Mem Byte) (n : Nat) : Beside m (m.alloc 0 n).2 where
  grows := List.prefix_append _ _
  frame _ _ hq := Mem.read_alloc m 0 n hq

/-- A literal is a new string. -/
theorem literal_spec (m : Mem Byte) (ch : List Byte) :
    Beside m (literal m ch).2 ∧ (literal m ch).1.Within (literal m ch).2 ∧
      (literal m ch).1.bytes (literal m ch).2 = ch := by
  refine ⟨?_, ?_, ?_⟩
  · exact beside_write (Nat.le_refl _) (beside_alloc m _)
  · exact Mem.inBounds_alloc m 0 ch.length
  · exact Mem.read_write_self _ _ ch

/-- `Append` comes to an end, with a new string of the bytes of both. -/
theorem append_spec (hs : s.Within m) (hn : newstr.Within m) : ∃ r m', Append m s newstr = some (r, m') ∧
    Beside m m' ∧ r.Within m' ∧ r.bytes m' = s.bytes m ++ newstr.bytes m := by
  let bs : Ptr := ⟨m.sizes.length, 0⟩
  let m₁ := (m.alloc 0 (s.len + newstr.len)).2
  let m₂ := m₁.copy bs s.bs s.len
  let m₃ := m₂.copy (bs.add s.len) newstr.bs newstr.len
  have h₁ : Beside m m₁ := beside_alloc m _
  have h₂ : Beside m m₂ := beside_write (Nat.le_refl _) h₁
  have h₃ : Beside m m₃ := beside_write (Nat.le_refl _) h₂
  have hall : m₁.InBounds bs (s.len + newstr.len) := Mem.inBounds_alloc m 0 _
  have hcopy₁ : memcpy m₁ bs s.bs s.len = some m₂ := by
    have hdst : m₁.InBounds bs s.len := by
      obtain ⟨sz, hsz, hle⟩ := hall
      exact ⟨sz, hsz, by omega⟩
    have hsrc := (h₁.within hs).1
    rw [memcpy, inside_iff.mpr hdst, inside_iff.mpr hsrc]
    rfl
  have hcopy₂ : memcpy m₂ (bs.add s.len) newstr.bs newstr.len = some m₃ := by
    have hdst : m₂.InBounds (bs.add s.len) newstr.len := by
      obtain ⟨sz, hsz, hle⟩ := hall
      exact ⟨sz, hsz, by simpa [bs] using hle⟩
    have hsrc := (h₂.within hn).1
    rw [memcpy, inside_iff.mpr hdst, inside_iff.mpr hsrc]
    rfl
  refine ⟨⟨bs, s.len + newstr.len⟩, m₃, ?_, h₃, hall, ?_⟩
  · show ((memcpy m₁ bs s.bs s.len).bind fun m => (memcpy m (bs.add s.len) newstr.bs newstr.len).bind _) = _
    rw [hcopy₁, Option.bind_some, hcopy₂]
    rfl
  · show m₃.read bs (s.len + newstr.len) = _
    rw [Mem.read_add]
    congr 1
    · -- the second copy is behind the first
      have hapart : Mem.Apart (bs.add s.len) newstr.len bs s.len := .inr (.inr (Nat.le_refl _))
      rw [Mem.read_copy_of_apart m₂ hapart, Mem.read_copy_self]
      exact (h₁.within hs).2
    · rw [Mem.read_copy_self]
      exact (h₂.within hn).2

theorem print_spec (hs : s.Within m) (i : Nat) (hi : i ≤ s.len) (out : List Byte) :
    Print m s i out = some (out ++ (s.bytes m).drop i) := by
  have hlen : (s.bytes m).length = s.len := Mem.length_read m s.bs s.len
  unfold Print
  split
  · rename_i hlt
    have hin : m.InBounds (s.bs.add i) 1 := by
      obtain ⟨sz, hsz, hle⟩ := hs
      exact ⟨sz, hsz, by simp only [Ptr.add_off]; omega⟩
    have hbytes : i < (s.bytes m).length := by omega
    have hcell : (s.bytes m)[i] = m.cell s.bs.block (s.bs.off + i) := by
      simp [Str.bytes, Mem.read]
    dsimp only
    rw [inside_iff.mpr hin, print_spec hs (i + 1) hlt, List.drop_eq_getElem_cons hbytes, hcell]
    simp
  · rename_i hge
    rw [List.drop_eq_nil_of_le (by omega), List.append_nil]
termination_by s.len - i

/-! ## Programs -/

/-- What the strings are, and what has been printed. -/
def State.values (st : State) : Values := ⟨st.strs.map (Str.bytes st.mem), st.out⟩

/-- Every string is in one allocation. -/
def State.Safe (st : State) : Prop := ∀ s ∈ st.strs, s.Within st.mem

/-- One string more. -/
theorem State.Safe.add (h : st.Safe) (hm : Beside st.mem m') (hs : s.Within m') :
    State.Safe ⟨m', st.strs ++ [s], st.out⟩ ∧
      State.values ⟨m', st.strs ++ [s], st.out⟩ = ⟨st.values.strs ++ [s.bytes m'], st.out⟩ := by
  constructor
  · intro t ht
    rcases List.mem_append.mp ht with ht | ht
    · exact (hm.within (h t ht)).1
    · obtain rfl := List.mem_singleton.mp ht
      exact hs
  · have hold : st.strs.map (Str.bytes m') = st.strs.map (Str.bytes st.mem) :=
      List.map_congr_left fun t ht => (hm.within (h t ht)).2
    simp [State.values, hold]

/-- What an operation does on memory, and what it does on values. -/
structure Agrees (r : Option State) (v : Option Values) : Prop where
  values : r.map State.values = v
  safe : ∀ st, r = some st → st.Safe

theorem agrees_some {v : Values} (h : st.Safe ∧ st.values = v) : Agrees (some st) (some v) where
  values := congrArg some h.2
  safe _ hst := Option.some.inj hst ▸ h.1

theorem agrees_none : Agrees none none where
  values := rfl
  safe _ hst := by cases hst

/-- An operation on a string is for one that is there. -/
theorem agrees_bind (h : st.Safe) (a : Nat) {f : Str → Option State} {g : List Byte → Option Values}
    (hfg : ∀ s : Str, s.Within st.mem → Agrees (f s) (g (s.bytes st.mem))) :
    Agrees (st.strs[a]?.bind f) (st.values.strs[a]?.bind g) := by
  have hget : st.values.strs[a]? = st.strs[a]?.map (Str.bytes st.mem) := List.getElem?_map
  rw [hget]
  cases hs : st.strs[a]? with
  | none => exact agrees_none
  | some s => exact hfg s (h s (List.mem_of_getElem? hs))

/-- One operation. -/
theorem step_agrees (h : st.Safe) (op : Op) : Agrees (st.step op) (st.values.step op) := by
  cases op with
  | literal ch =>
    obtain ⟨hm, hs, hbytes⟩ := literal_spec st.mem ch
    obtain ⟨hsafe, hvalues⟩ := h.add hm hs
    rw [hbytes] at hvalues
    exact agrees_some ⟨hsafe, hvalues⟩
  | NewStr a start len =>
    refine agrees_bind h a fun s hs => ?_
    have hlen : (s.bytes st.mem).length = s.len := Mem.length_read st.mem s.bs s.len
    rw [hlen]
    split
    · rename_i hle
      have hpart : (NewStr (s.bs.add start) len).Within st.mem := by
        obtain ⟨sz, hsz, hin⟩ := hs
        exact ⟨sz, hsz, by simp only [NewStr, Ptr.add_off]; omega⟩
      have hbytes : (NewStr (s.bs.add start) len).bytes st.mem = ((s.bytes st.mem).drop start).take len := by
        have hsub := Mem.read_sub st.mem s.bs (Nat.le_add_right start len) hle
        rw [Nat.add_sub_cancel_left, List.drop_take, Nat.add_sub_cancel_left] at hsub
        exact hsub
      obtain ⟨hsafe, hvalues⟩ := h.add ⟨List.prefix_refl _, fun _ _ _ => rfl⟩ hpart
      rw [hbytes] at hvalues
      exact agrees_some ⟨hsafe, hvalues⟩
    · exact agrees_none
  | Append a b =>
    refine agrees_bind h a fun s hs => agrees_bind h b fun newstr hn => ?_
    obtain ⟨r, m', happend, hm, hr, hbytes⟩ := append_spec hs hn
    obtain ⟨hsafe, hvalues⟩ := h.add hm hr
    rw [hbytes] at hvalues
    rw [happend]
    exact agrees_some ⟨hsafe, hvalues⟩
  | Print a =>
    refine agrees_bind h a fun s hs => ?_
    rw [print_spec hs 0 (Nat.zero_le _)]
    exact agrees_some ⟨h, rfl⟩
  | PrintLn a =>
    refine agrees_bind h a fun s hs => ?_
    rw [PrintLn, print_spec hs 0 (Nat.zero_le _)]
    exact agrees_some ⟨h, rfl⟩

/-- A whole program. -/
theorem exec_agrees : ∀ (ops : List Op) {st : State}, st.Safe → Agrees (heap.exec st ops) (values.exec st.values ops)
  | [], _, h => agrees_some ⟨h, rfl⟩
  | op :: ops, st, h => by
    have hstep := step_agrees h op
    show Agrees ((st.step op).bind fun st => heap.exec st ops) ((st.values.step op).bind fun v => values.exec v ops)
    rw [← hstep.values]
    cases hst : st.step op with
    | none => exact agrees_none
    | some st' => exact exec_agrees ops (hstep.safe st' hst)

/-- Strings are values: a program that makes strings, parts of strings and concatenations and prints them does on
memory, in any order, what it does on lists of bytes. So no string ever changes, `Append` is concatenation, what is
printed are the bytes; and `memcpy` and `Print` stay inside of allocations, or the program would not come to its
end. -/
theorem strings_are_values (ops : List Op) :
    (heap.exec heap.start ops).map State.values = values.exec values.start ops ∧
      ∀ st, heap.exec heap.start ops = some st → ∀ s ∈ st.strs, st.mem.InBounds s.bs s.len := by
  have hstart : heap.start.Safe := fun _ hs => by cases hs
  have h := exec_agrees ops hstart
  exact ⟨h.values, h.safe⟩

end CalcLang.Strings
