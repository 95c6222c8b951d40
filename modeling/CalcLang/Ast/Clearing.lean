import CalcLang.Ast.FrameExact
import CalcLang.Lib.Record

/-!
# What `SetDone` clears

When an async function has run to its end, `SetDone` of its frame notes it, and clears the frame so that the collector
does not follow what is left in it. It sets the field 2 and fills everything from the field 3 up to the last but one with
zeros. These numbers stand in `buildGenerator`; what the fields are is decided by `buildCtx` and `buildGenaratorCtx`,
which go over the body and the parameters.

`SetDone_cleared`: the two agree for every body. What is filled are the slots, each of them and nothing else but the
padding between them.
-/

namespace CalcLang.Ast

open CalcLang.Lib CalcLang.Lib.Record

variable {τ : Type}

/-! ## The frame in memory -/

/-- What the target says of the types. A bool takes one byte on all of them. -/
structure Layout (τ : Type) where
  int : Shape
  ptr : Shape
  of : τ → Shape

mutual
def FrameTy.shape (L : Layout τ) : FrameTy τ → Shape
  | .int => L.int
  | .mutexPtr | .i8Ptr => L.ptr
  | .i1 => ⟨1, 1⟩
  | .of t => L.of t
  | .struct fields => Record.shape (shapes L fields)

def shapes (L : Layout τ) : List (FrameTy τ) → List Shape
  | [] => []
  | t :: ts => t.shape L :: shapes L ts
end

@[simp] theorem getElem?_shapes (L : Layout τ) (tps : List (FrameTy τ)) (k : Nat) :
    (shapes L tps)[k]? = tps[k]?.map (FrameTy.shape L) := by
  induction tps generalizing k with
  | nil => simp [shapes]
  | cons t ts ih =>
    cases k with
    | zero => simp [shapes]
    | succ k => simpa [shapes] using ih k

/-- The chain of `getelementptr`s that `setVal` is given. -/
def slotPtr (L : Layout τ) : List (FrameTy τ) → Ptr → List Nat → Ptr
  | _, p, [] => p
  | tps, p, k :: ks =>
    match tps[k]? with
    | some (.struct fields) => slotPtr L fields (field (shapes L tps) p k) ks
    | _ => field (shapes L tps) p k

namespace Clearing

variable (L : Layout τ) (g : GeneratorCtx τ) (p : Ptr) (m : Mem UInt8)

/-- `NewGetElementPtr(stp, p, zero, k)`. -/
def gep (k : Nat) : Ptr := field (shapes L g.rtp) p k

/-- A load of the field. -/
def load (k : Nat) : Option (List UInt8) := g.rtp[k]?.map fun t => m.read (gep L g p k) (t.shape L).size

def GetContinuous : Option (List UInt8) := load L g p m 0

def GetMutex : Option (List UInt8) := load L g p m 1

def IsDone : Option Bool := (load L g p m 2).map fun bs => bs.headD 0 % 2 == 1

def GetResult : Option (List UInt8) := load L g p m (g.blockAddrId + 1)

/-- What `StepNext` jumps to. -/
def nextBlock : Option (List UInt8) := load L g p m g.blockAddrId

def SetDone : Mem UInt8 :=
  let m := m.write (gep L g p 2) [1]
  -- set data fields zero for gc
  let start := gep L g p 3
  let «end» := gep L g p (g.rtp.length - 2)
  memset m start 0 («end».off - start.off)

/-! ## Where the slots are -/

/-- A field of a node, or the frame of a block. -/
def IsSlotOf : Ctx → Prop
  | .field _ node => node ≠ none
  | .sub _ _ => True

/-- A field that a variable, a block or a parameter has. -/
def IsSlot (g : GeneratorCtx τ) (k : Nat) : Prop := (∃ v, g.context[k]? = some v ∧ IsSlotOf v) ∨ k ∈ g.idxmap

/-- A frame under construction: behind the three leading fields there are slots only. -/
structure Laid (c : Build τ) : Prop where
  len : c.tps.length = c.i
  ids : c.idxmap.length = c.i
  start : 3 ≤ c.i
  leading : c.tps.take 3 = [.int, .mutexPtr, .i1]
  slot : ∀ k v, c.idxmap[k]? = some v → (IsSlotOf v ↔ 3 ≤ k)

section Laid

variable {tp : Ref → τ} {c d : Build τ}

theorem laid_start : Laid (Build.start : Build τ) where
  len := rfl
  ids := rfl
  start := Nat.le_refl 3
  leading := rfl
  slot k v hv := by
    match k with
    | 0 | 1 | 2 =>
      obtain rfl := Option.some.inj hv
      simp [IsSlotOf]
    | k + 3 => cases hv

/-- A slot appended. -/
theorem Laid.append (h : Laid c) (t : FrameTy τ) {v : Ctx} (hv : IsSlotOf v) :
    Laid (⟨c.tps ++ [t], c.idxmap ++ [v], c.i + 1⟩ : Build τ) where
  len := by rw [List.length_append, h.len, List.length_singleton]
  ids := by rw [List.length_append, h.ids, List.length_singleton]
  start := Nat.le_succ_of_le h.start
  leading := by rw [List.take_append_of_le_length (h.len ▸ h.start), h.leading]
  slot k w hw := by
    have hstart := h.start
    rcases Nat.lt_or_ge k c.i with hlt | hge
    · rw [List.getElem?_append_left (h.ids ▸ hlt)] at hw
      exact h.slot k w hw
    · rw [List.getElem?_append_right (h.ids ▸ hge), List.getElem?_singleton] at hw
      split at hw
      · obtain rfl := Option.some.inj hw
        exact iff_of_true hv (by omega)
      · cases hw

/-- The walk appends slots. -/
theorem laid_trf (n : Node) (h : Laid c) : Laid (n.trf tp c) := by
  have hfield : ∀ {c : Build τ}, Laid c → ∀ t r, Laid (c.field t (some r)) :=
    fun h t r => h.append t (Option.some_ne_none r)
  cases n with
  | ifN _ sts | ifElse _ sts _ | forN _ _ _ sts => exact h.append _ trivial
  | define r _ => exact hfield h _ r
  | defAndAssign r _ e =>
    cases e with
    | await a e => exact hfield (hfield h _ r) _ a
    | _ => exact hfield h _ r
  | exp e =>
    cases e with
    | inlineFunc r ps a body => exact h.append _ trivial
    | await a e => exact hfield h _ a
    | _ => exact h
  | _ => exact h

theorem laid_trfs (ns : List Node) (h : Laid c) : Laid (trfs tp ns c) := by
  induction ns generalizing c with
  | nil => exact h
  | cons n ns ih => exact ih (laid_trf n h)

/-- Parameters are appended one behind the other. -/
theorem params_eq (ps : List τ) (c : Build τ) :
    ps.foldl (fun c p => c.field (.of p) none) c =
      ⟨c.tps ++ ps.map .of, c.idxmap ++ (List.range' c.i ps.length).map fun k => .field k none, c.i + ps.length⟩ := by
  induction ps generalizing c with
  | nil => simp
  | cons p ps ih =>
    rw [List.foldl_cons, ih]
    simp [Build.field, List.range'_succ, Nat.add_assoc, Nat.add_comm 1]

end Laid

/-! ## The whole frame -/

section Frame

variable (tp : Ref → τ) (st : List Node) (ps : List τ) (inner : τ)

theorem rtp_eq : (buildGenaratorCtx tp st ps inner).rtp =
    (buildCtx tp st).tps ++ ps.map .of ++ [.i8Ptr, .of inner] := by
  simp only [buildGenaratorCtx, params_eq]

theorem blockAddrId_eq : (buildGenaratorCtx tp st ps inner).blockAddrId = (buildCtx tp st).i + ps.length := by
  simp only [buildGenaratorCtx, params_eq]

/-- The resume address is the last field but one. -/
theorem length_rtp : (buildGenaratorCtx tp st ps inner).rtp.length =
    (buildGenaratorCtx tp st ps inner).blockAddrId + 2 := by
  have hlaid : Laid (buildCtx tp st) := laid_trfs st laid_start
  rw [rtp_eq, blockAddrId_eq]
  simp [hlaid.len, Nat.add_assoc]

/-- The third field says whether it is done. -/
theorem rtp_done : (buildGenaratorCtx tp st ps inner).rtp[2]? = some .i1 := by
  have hlaid : Laid (buildCtx tp st) := laid_trfs st laid_start
  have hleading : ((buildCtx tp st).tps.take 3)[2]? = some .i1 := by
    rw [hlaid.leading]
    rfl
  rw [List.getElem?_take_of_lt (by decide)] at hleading
  rw [rtp_eq, List.append_assoc, List.getElem?_append_left (hlaid.len ▸ hlaid.start), hleading]

/-- The slots are the fields from there on up to the resume address. -/
theorem isSlot_iff (k : Nat) : IsSlot (buildGenaratorCtx tp st ps inner) k ↔
    3 ≤ k ∧ k < (buildGenaratorCtx tp st ps inner).rtp.length - 2 := by
  have hlaid : Laid (buildCtx tp st) := laid_trfs st laid_start
  have hstart := hlaid.start
  rw [length_rtp, blockAddrId_eq, Nat.add_sub_cancel]
  simp only [IsSlot, buildGenaratorCtx, params_eq, List.mem_range'_1]
  rcases Nat.lt_or_ge k (buildCtx tp st).i with hlt | hge
  · -- a field that `buildCtx` has laid out
    obtain ⟨v, hv⟩ : ∃ v, (buildCtx tp st).idxmap[k]? = some v :=
      ⟨_, List.getElem?_eq_getElem (hlaid.ids ▸ hlt)⟩
    have hiff := hlaid.slot k v hv
    rw [List.getElem?_append_left (hlaid.ids ▸ hlt), hv]
    simp only [Option.some.injEq, exists_eq_left', hiff]
    omega
  · -- what the parameters have in `idxmap` of the `ctx` is for nobody
    have hnobody : ¬ ∃ v, ((buildCtx tp st).idxmap ++
        (List.range' (buildCtx tp st).i ps.length).map fun k => Ctx.field k none)[k]? = some v ∧ IsSlotOf v := by
      rintro ⟨v, hv, hslot⟩
      rw [List.getElem?_append_right (hlaid.ids ▸ hge)] at hv
      obtain ⟨j, -, rfl⟩ := List.mem_map.mp (List.mem_of_getElem? hv)
      exact hslot rfl
    rw [or_iff_right hnobody]
    omega

end Frame

/-! ## What is in the fields afterwards -/

/-- The place of a variable is in the field that its path begins with. -/
theorem slotPtr_within {tps : List (FrameTy τ)} {k : Nat} {q : List Nat} {t : FrameTy τ}
    (h : fieldAt tps (k :: q) = some t) : ∃ t₀, tps[k]? = some t₀ ∧
      (slotPtr L tps p (k :: q)).block = p.block ∧
      (field (shapes L tps) p k).off ≤ (slotPtr L tps p (k :: q)).off ∧
      (slotPtr L tps p (k :: q)).off + (t.shape L).size ≤ (field (shapes L tps) p k).off + (t₀.shape L).size := by
  induction q generalizing tps p k with
  | nil =>
    rw [fieldAt] at h
    refine ⟨t, h, ?_⟩
    have hptr : slotPtr L tps p [k] = field (shapes L tps) p k := by
      rw [slotPtr]
      split <;> rfl
    rw [hptr]
    exact ⟨rfl, Nat.le_refl _, Nat.le_refl _⟩
  | cons k' q ih =>
    simp only [fieldAt] at h
    split at h
    · rename_i fields hk
      obtain ⟨t₁, ht₁, hblock, hlo, hhi⟩ := ih (p := field (shapes L tps) p k) h
      have hin : offset (shapes L fields) k' + (t₁.shape L).size ≤ (Record.shape (shapes L fields)).size :=
        offset_add_size_le_shape (by rw [getElem?_shapes, ht₁]; rfl)
      have hptr : slotPtr L tps p (k :: k' :: q) = slotPtr L fields (field (shapes L tps) p k) (k' :: q) := by
        rw [slotPtr, hk]
      rw [field_off] at hlo hhi
      refine ⟨_, hk, ?_⟩
      rw [hptr, FrameTy.shape]
      exact ⟨hblock, by omega, by omega⟩
    · cases h

variable {L g p m}

theorem load_eq {k : Nat} {t : FrameTy τ} (ht : g.rtp[k]? = some t) :
    load L g p m k = some (m.read (gep L g p k) (t.shape L).size) := by
  rw [load, ht]
  rfl

/-- What `SetDone` fills. -/
theorem SetDone_eq : SetDone L g p m = memset (m.write (gep L g p 2) [1]) (field (shapes L g.rtp) p 3) 0
    (offset (shapes L g.rtp) (g.rtp.length - 2) - offset (shapes L g.rtp) 3) := by
  have hlen : (gep L g p (g.rtp.length - 2)).off - (gep L g p 3).off =
      offset (shapes L g.rtp) (g.rtp.length - 2) - offset (shapes L g.rtp) 3 := by
    simp only [gep, field_off]
    omega
  rw [SetDone, hlen]
  rfl

/-- What lies in a field in between is cleared. -/
theorem read_SetDone {k l : Nat} {t : FrameTy τ} {q : Ptr} (hslot : 3 ≤ k ∧ k < g.rtp.length - 2)
    (ht : g.rtp[k]? = some t) (hblock : q.block = p.block) (hlo : (gep L g p k).off ≤ q.off)
    (hhi : q.off + l ≤ (gep L g p k).off + (t.shape L).size) : (SetDone L g p m).read q l = List.replicate l 0 := by
  rw [SetDone_eq]
  exact read_memset_inside (by rw [getElem?_shapes, ht]; rfl) hslot.1 hslot.2 hblock hlo hhi

/-- Another field than these and that of `done` is as before. -/
theorem load_SetDone {k : Nat} (h5 : 5 ≤ g.rtp.length) (hdone : g.rtp[2]? = some .i1)
    (hslot : ¬ (3 ≤ k ∧ k < g.rtp.length - 2)) (h2 : k ≠ 2) : load L g p (SetDone L g p m) k = load L g p m k := by
  cases ht : g.rtp[k]? with
  | none => simp only [load, ht, Option.map_none]
  | some t =>
    have hshape : (shapes L g.rtp)[k]? = some (t.shape L) := by rw [getElem?_shapes, ht]; rfl
    have hshape2 : (shapes L g.rtp)[2]? = some ⟨1, 1⟩ := by rw [getElem?_shapes, hdone]; rfl
    have hfilled : (SetDone L g p m).read (gep L g p k) (t.shape L).size =
        (m.write (gep L g p 2) [1]).read (gep L g p k) (t.shape L).size := by
      rw [SetDone_eq]
      refine read_memset_outside hshape ?_ ?_
      · omega
      · omega
    have hstored : (m.write (gep L g p 2) [1]).read (gep L g p k) (t.shape L).size =
        m.read (gep L g p k) (t.shape L).size :=
      Mem.read_write_of_apart m (apart_field hshape2 hshape h2.symm p)
    rw [load_eq ht, load_eq ht, hfilled, hstored]

/-- `done` is set, and stays so. -/
theorem IsDone_SetDone (h5 : 5 ≤ g.rtp.length) (hdone : g.rtp[2]? = some .i1) :
    IsDone L g p (SetDone L g p m) = some true := by
  have hshape : (shapes L g.rtp)[2]? = some ⟨1, 1⟩ := by rw [getElem?_shapes, hdone]; rfl
  have hfilled : (SetDone L g p m).read (gep L g p 2) 1 = (m.write (gep L g p 2) [1]).read (gep L g p 2) 1 := by
    rw [SetDone_eq]
    exact read_memset_outside hshape (.inl (by omega)) (by omega)
  have hstored : (m.write (gep L g p 2) [1]).read (gep L g p 2) 1 = [1] := Mem.read_write_self m _ [1]
  rw [IsDone, load_eq hdone]
  simp only [FrameTy.shape, hfilled, hstored, Option.map_some]
  rfl

/-- A cell that is not as before is that of `done` or in the range. -/
theorem SetDone_changed {b o : Nat} (h : (SetDone L g p m).cell b o ≠ m.cell b o) : b = p.block ∧
    (o = (gep L g p 2).off ∨ (gep L g p 3).off ≤ o ∧ o < (gep L g p (g.rtp.length - 2)).off) := by
  rw [SetDone, cell_memset] at h
  split at h
  · rename_i hin
    exact ⟨hin.1, .inr ⟨hin.2.1, by omega⟩⟩
  · simp only [Mem.write] at h
    split at h
    · rename_i hin
      rcases Nat.eq_or_lt_of_le hin.2 with heq | hlt
      · exact ⟨hin.1, .inl heq.symm⟩
      · rw [List.getD_eq_getElem?_getD, List.getElem?_eq_none (by rw [List.length_singleton]; omega)] at h
        exact absurd rfl h
    · exact absurd rfl h


/-- What is as before can be read. -/
theorem kept (h5 : 5 ≤ g.rtp.length) (hdone : g.rtp[2]? = some .i1) {k : Nat} (hk : k < g.rtp.length)
    (hslot : ¬ (3 ≤ k ∧ k < g.rtp.length - 2)) (h2 : k ≠ 2) :
    ∃ bs, load L g p m k = some bs ∧ load L g p (SetDone L g p m) k = some bs := by
  have hload := load_eq (L := L) (p := p) (m := m) (List.getElem?_eq_getElem hk)
  exact ⟨_, hload, (load_SetDone h5 hdone hslot h2).trans hload⟩

/-! ## The frame of a body -/

/-- `SetDone` clears the variables and parameters of the frame at `p`, and nothing else. -/
structure Cleared (tp : Ref → τ) (b : Body) (L : Layout τ) (g : GeneratorCtx τ) (p : Ptr) (m : Mem UInt8) : Prop where
  /-- What is filled are the fields of the slots. -/
  range : ∀ k, IsSlot g k ↔ 3 ≤ k ∧ k < g.rtp.length - 2
  /-- Each of them reads zero. -/
  slot : ∀ k, IsSlot g k → ∀ t, g.rtp[k]? = some t →
    load L g p (SetDone L g p m) k = some (List.replicate (t.shape L).size 0)
  /-- So is the place of each variable of the body, at any depth. -/
  var : ∀ r ∈ nodesVals b.statements, ∀ path, g.slot r = some path →
    (SetDone L g p m).read (slotPtr L g.rtp p path) (L.of (tp r)).size = List.replicate (L.of (tp r)).size 0
  /-- What is filled belongs to a slot, or lies between it and the next field. -/
  filled : ∀ o, (gep L g p 3).off ≤ o → o < (gep L g p (g.rtp.length - 2)).off →
    ∃ k, IsSlot g k ∧ (gep L g p k).off ≤ o ∧ o < (gep L g p (k + 1)).off
  /-- Nothing is written but this and `done`. -/
  changed : ∀ b o, (SetDone L g p m).cell b o ≠ m.cell b o → b = p.block ∧
    (o = (gep L g p 2).off ∨ (gep L g p 3).off ≤ o ∧ o < (gep L g p (g.rtp.length - 2)).off)
  done : IsDone L g p (SetDone L g p m) = some true
  continuous : ∃ bs, GetContinuous L g p m = some bs ∧ GetContinuous L g p (SetDone L g p m) = some bs
  mutex : ∃ bs, GetMutex L g p m = some bs ∧ GetMutex L g p (SetDone L g p m) = some bs
  resume : ∃ bs, nextBlock L g p m = some bs ∧ nextBlock L g p (SetDone L g p m) = some bs
  result : ∃ bs, GetResult L g p m = some bs ∧ GetResult L g p (SetDone L g p m) = some bs

section Body

variable (tp : Ref → τ) (b : Body) (ps : List τ) (inner : τ)

/-- A variable of the body is in a slot, and its place has its type. -/
theorem slot_of_var {r : Ref} (hr : r ∈ nodesVals b.statements) {path : List Nat}
    (hpath : (buildGenaratorCtx tp b.statements ps inner).slot r = some path) :
    ∃ k q, path = k :: q ∧ IsSlot (buildGenaratorCtx tp b.statements ps inner) k ∧
      fieldAt (buildGenaratorCtx tp b.statements ps inner).rtp path = some (.of (tp r)) := by
  have hbody : (trfs tp b.statements .start).Good tp (· ∈ nodesVals b.statements) (givenAll b.statements) :=
    trfs_good b.statements .start [] (fun r hr h => b.not_inner h hr) Build.good_start
  obtain ⟨-, -, hslots⟩ := good_params tp ps hbody
  have hin : (r, path) ∈ (trfs tp b.statements .start).slots := hslots ▸ slot_mem hpath
  obtain ⟨k, q, rfl, h3, hk, ht⟩ := hbody.entry r path hr hin
  refine ⟨k, q, rfl, ?_, ?_⟩
  · rw [isSlot_iff, length_rtp, blockAddrId_eq, Nat.add_sub_cancel]
    exact ⟨h3, Nat.lt_of_lt_of_le hk (Nat.le_add_right _ _)⟩
  · rw [rtp_eq, List.append_assoc, buildCtx, fieldAt_append (hbody.len ▸ hk), ht]

/-- **`SetDone` clears the slots of the frame, whatever the body, its parameters and the target.** -/
theorem SetDone_cleared (L : Layout τ) (p : Ptr) (m : Mem UInt8) :
    Cleared tp b L (buildGenaratorCtx tp b.statements ps inner) p m := by
  have hrange := isSlot_iff tp b.statements ps inner
  have hlaid : Laid (buildCtx tp b.statements) := laid_trfs b.statements laid_start
  have hlen := length_rtp tp b.statements ps inner
  have haddr := blockAddrId_eq tp b.statements ps inner
  have hstart := hlaid.start
  have hdone := rtp_done tp b.statements ps inner
  have h5 : 5 ≤ (buildGenaratorCtx tp b.statements ps inner).rtp.length := by omega
  constructor
  case range => exact hrange
  case slot =>
    intro k hk t ht
    rw [load_eq ht]
    exact congrArg some (read_SetDone ((hrange k).mp hk) ht rfl (Nat.le_refl _) (Nat.le_refl _))
  case var =>
    -- the path begins with a slot, and all behind lies in that field
    intro r hr path hpath
    obtain ⟨k, q, rfl, hslot, htype⟩ := slot_of_var tp b ps inner hr hpath
    obtain ⟨t₀, ht₀, hblock, hlo, hhi⟩ := slotPtr_within L p htype
    exact read_SetDone ((hrange k).mp hslot) ht₀ hblock hlo hhi
  case filled =>
    -- the last field that begins at `o` or in front of it
    intro o hlo hhi
    simp only [gep, field_off] at hlo hhi ⊢
    have hfrom := Nat.le_sub_of_add_le' hlo
    have hto := Nat.sub_lt_left_of_lt_add (Nat.le_trans (Nat.le_add_right _ _) hlo) hhi
    obtain ⟨k, h3, hk, hbegin, hnext⟩ := exists_offset_le hfrom hto
    exact ⟨k, (hrange k).mpr ⟨h3, hk⟩, by omega, by omega⟩
  case changed => exact fun b o h => SetDone_changed h
  case done => exact IsDone_SetDone h5 hdone
  case continuous => exact kept h5 hdone (by omega) (by omega) (by omega)
  case mutex => exact kept h5 hdone (by omega) (by omega) (by omega)
  case resume => exact kept h5 hdone (by omega) (by omega) (by omega)
  case result => exact kept h5 hdone (by omega) (by omega) (by omega)

end Body

end Clearing

end CalcLang.Ast
