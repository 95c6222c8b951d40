import Mathlib.Data.List.Basic
import Mathlib.Tactic.Basic

/-!
# Backtracking computations

A `Back ε σ κ α` is a computation on a state in the manner of Go: it returns a value
or an error and leaves the state somewhere, it panics, it ends the program, or it
runs out of the fuel that stands for its loops and recursive calls. A panic that is
caught leaves the state where the catcher puts it, so none is kept with it. On the
way it may note calls (`κ`), of functions one wants to know about later.

`andThen_ok` and the equations beside the combinators compute a run step by step.
-/

namespace CalcLang.Lib

/-- What a computation comes to. -/
inductive Result (ε σ α : Type)
  | ok (a : α) (s : σ)
  | err (e : ε) (s : σ)
  | panic
  | fatal
  | out
  deriving DecidableEq

/-- Its result, and the calls noted on the way. -/
@[ext]
structure Run (ε σ κ α : Type) where
  result : Result ε σ α
  calls : List κ

/-- A backtracking computation. -/
structure Back (ε σ κ α : Type) where
  run : σ → Run ε σ κ α

variable {ε σ κ α β : Type}

namespace Run

def ok (a : α) (s : σ) : Run ε σ κ α := ⟨.ok a s, []⟩
def err (e : ε) (s : σ) : Run ε σ κ α := ⟨.err e s, []⟩
def panic : Run ε σ κ α := ⟨.panic, []⟩
def fatal : Run ε σ κ α := ⟨.fatal, []⟩
def out : Run ε σ κ α := ⟨.out, []⟩

/-- Go on from a result. -/
def andThen (r : Run ε σ κ α) (ok : α → σ → Run ε σ κ β) (err : ε → σ → Run ε σ κ β)
    (panic : Run ε σ κ β) : Run ε σ κ β :=
  match r.result with
  | .ok a s => ⟨(ok a s).result, r.calls ++ (ok a s).calls⟩
  | .err e s => ⟨(err e s).result, r.calls ++ (err e s).calls⟩
  | .panic => ⟨panic.result, r.calls ++ panic.calls⟩
  | .fatal => ⟨.fatal, r.calls⟩
  | .out => ⟨.out, r.calls⟩

section AndThen

variable {a : α} {e : ε} {s : σ} {f : α → σ → Run ε σ κ β} {g : ε → σ → Run ε σ κ β}
  {h : Run ε σ κ β}

@[simp] theorem andThen_ok : (ok a s).andThen f g h = f a s := rfl
@[simp] theorem andThen_err : (err e s : Run ε σ κ α).andThen f g h = g e s := rfl
@[simp] theorem andThen_panic : (panic : Run ε σ κ α).andThen f g h = h := rfl
@[simp] theorem andThen_fatal : (fatal : Run ε σ κ α).andThen f g h = fatal := rfl
@[simp] theorem andThen_out : (out : Run ε σ κ α).andThen f g h = out := rfl

end AndThen

end Run

namespace Back

/-! ## Combinators -/

/-- Errors and panics end a sequence. -/
instance : Monad (Back ε σ κ) where
  pure a := ⟨fun s => .ok a s⟩
  bind x f := ⟨fun s => (x.run s).andThen (fun a => (f a).run) .err .panic⟩

/-- Return an error. -/
def throw (e : ε) : Back ε σ κ α := ⟨fun s => .err e s⟩

def panic : Back ε σ κ α := ⟨fun _ => .panic⟩

def out : Back ε σ κ α := ⟨fun _ => .out⟩

/-- `SetCheckpoint`: the state as it is. -/
def here : Back ε σ κ σ := ⟨fun s => .ok s s⟩

/-- `GobackTo`. -/
def goback (s : σ) : Back ε σ κ Unit := ⟨fun _ => .ok () s⟩

/-- Note a call. -/
def note (k : κ) : Back ε σ κ Unit := ⟨fun s => ⟨.ok () s, [k]⟩⟩

/-- A call whose error the caller looks at. -/
def attempt (x : Back ε σ κ α) : Back ε σ κ (Except ε α) :=
  ⟨fun s => (x.run s).andThen (fun a s' => .ok (.ok a) s') (fun e s' => .ok (.error e) s') .panic⟩

/-- An error is a reason to panic. -/
def must (x : Back ε σ κ α) : Back ε σ κ α :=
  ⟨fun s => (x.run s).andThen .ok (fun _ _ => .panic) .panic⟩

/-- A deferred call: go back to where it started if it returns an error. -/
def rewinding (x : Back ε σ κ α) : Back ε σ κ α :=
  ⟨fun s => (x.run s).andThen .ok (fun e _ => .err e s) .panic⟩

/-- Run with panics caught: they become the error `e`. After any error the state is put
back. -/
def catching (e : ε) (x : Back ε σ κ α) : Back ε σ κ α :=
  ⟨fun s => (x.run s).andThen .ok (fun e _ => .err e s) (.err e s)⟩

/-- Run `x`; if it panics, go back and run `y`. -/
def recovering (x y : Back ε σ κ α) : Back ε σ κ α :=
  ⟨fun s => (x.run s).andThen .ok .err (y.run s)⟩

/-- A loop with fuel: go on from a left value, end with a right one. -/
def iterate (body : α → Back ε σ κ (α ⊕ β)) : Nat → α → Back ε σ κ β
  | 0, _ => out
  | n + 1, a => do
    match ← body a with
    | .inl a => iterate body n a
    | .inr b => pure b

/-- If there is an error, go on with the other from where the state is. -/
instance : OrElse (Back ε σ κ α) where
  orElse x y := ⟨fun s => (x.run s).andThen .ok (fun _ s' => (y ()).run s') .panic⟩

section Evaluation

variable {x y : Back ε σ κ α} {f : α → Back ε σ κ β} {s s' : σ} {e : ε}

@[simp] theorem bind_run :
    (x >>= f).run s = (x.run s).andThen (fun a => (f a).run) .err .panic := rfl

@[simp] theorem pure_run {a : α} : (pure a : Back ε σ κ α).run s = .ok a s := rfl

@[simp] theorem throw_run : (throw e : Back ε σ κ α).run s = .err e s := rfl

@[simp] theorem panic_run : (panic : Back ε σ κ α).run s = .panic := rfl

@[simp] theorem here_run : (here : Back ε σ κ σ).run s = .ok s s := rfl

@[simp] theorem goback_run : (goback s' : Back ε σ κ Unit).run s = .ok () s' := rfl

@[simp] theorem attempt_run : x.attempt.run s =
    (x.run s).andThen (fun a s' => .ok (.ok a) s') (fun e s' => .ok (.error e) s') .panic := rfl

@[simp] theorem must_run : x.must.run s = (x.run s).andThen .ok (fun _ _ => .panic) .panic := rfl

@[simp] theorem rewinding_run :
    x.rewinding.run s = (x.run s).andThen .ok (fun e _ => .err e s) .panic := rfl

@[simp] theorem catching_run :
    (x.catching e).run s = (x.run s).andThen .ok (fun e _ => .err e s) (.err e s) := rfl

@[simp] theorem recovering_run :
    (x.recovering y).run s = (x.run s).andThen .ok .err (y.run s) := rfl

@[simp] theorem orElse_run :
    (x <|> y).run s = (x.run s).andThen .ok (fun _ s' => y.run s') .panic := rfl

/-- A loop goes on. -/
theorem iterate_next {body : α → Back ε σ κ (α ⊕ β)} {a a' : α} (h : (body a).run s = .ok (.inl a') s')
    (n : Nat) : (iterate body (n + 1) a).run s = (iterate body n a').run s' := by
  rw [iterate, bind_run, h, Run.andThen_ok]

/-- A loop ends. -/
theorem iterate_last {body : α → Back ε σ κ (α ⊕ β)} {a : α} {b : β}
    (h : (body a).run s = .ok (.inr b) s') (n : Nat) : (iterate body (n + 1) a).run s = .ok b s' := by
  rw [iterate, bind_run, h, Run.andThen_ok]
  rfl

end Evaluation

/-- The computation returns an error or panics, without a noted call. -/
def Refuses (x : Back ε σ κ α) (s : σ) : Prop := x.run s = .panic ∨ ∃ e s', x.run s = .err e s'

section Refuses

variable {x : Back ε σ κ α} {f : α → Back ε σ κ β} {s s' : σ} {e : ε}

theorem refuses_of_err (h : x.run s = .err e s') : x.Refuses s := .inr ⟨e, s', h⟩

theorem refuses_of_panic (h : x.run s = .panic) : x.Refuses s := .inl h

/-- Caught, it leaves an error. -/
theorem Refuses.catching (h : x.Refuses s) : ∃ e', (x.catching e).run s = .err e' s := by
  rcases h with h | ⟨e', s', h⟩
  · exact ⟨e, by rw [catching_run, h, Run.andThen_panic]⟩
  · exact ⟨e', by rw [catching_run, h, Run.andThen_err]⟩

/-- The next alternative is tried in its place. -/
theorem Refuses.orElse {y : Back ε σ κ α} (h : x.Refuses s) : (x.catching e <|> y).run s = y.run s := by
  obtain ⟨e', he⟩ := h.catching (e := e)
  rw [orElse_run, he, Run.andThen_err]

theorem Refuses.must (h : x.Refuses s) : x.must.run s = .panic := by
  rcases h with h | ⟨e', s', h⟩ <;> rw [must_run, h] <;> rfl

theorem Refuses.bind (h : x.Refuses s) : (x >>= f).Refuses s := by
  rcases h with h | ⟨e', s', h⟩
  · exact .inl (by rw [bind_run, h, Run.andThen_panic])
  · exact .inr ⟨e', s', by rw [bind_run, h, Run.andThen_err]⟩

theorem Refuses.after {a : α} (hx : x.run s = .ok a s') (h : (f a).Refuses s') :
    (x >>= f).Refuses s := by
  rcases h with h | ⟨e', s'', h⟩
  · exact .inl (by rw [bind_run, hx, Run.andThen_ok, h])
  · exact .inr ⟨e', s'', by rw [bind_run, hx, Run.andThen_ok, h]⟩

theorem Refuses.rewinding (h : x.Refuses s) : x.rewinding.Refuses s := by
  rcases h with h | ⟨e', s', h⟩
  · exact .inl (by rw [rewinding_run, h, Run.andThen_panic])
  · exact .inr ⟨e', s, by rw [rewinding_run, h, Run.andThen_err]⟩

/-- A loop whose next turn fails. -/
theorem Refuses.iterate {body : α → Back ε σ κ (α ⊕ β)} {a : α} (h : (body a).Refuses s) (n : Nat) :
    (iterate body (n + 1) a).Refuses s := by
  rw [Back.iterate]
  exact h.bind

end Refuses

/-- Every value that is returned satisfies `Q`. -/
def Returns (x : Back ε σ κ α) (s : σ) (Q : α → Prop) : Prop :=
  ∀ a s', (x.run s).result = .ok a s' → Q a

section Returns

variable {x y : Back ε σ κ α} {f : α → Back ε σ κ β} {s s' : σ} {e : ε} {Q : α → Prop}
  {R : β → Prop}

/-- Where a value can come from. -/
theorem andThen_result_ok {r : Run ε σ κ α} {ok : α → σ → Run ε σ κ β} {err : ε → σ → Run ε σ κ β}
    {panic : Run ε σ κ β} {b : β} (h : (r.andThen ok err panic).result = .ok b s') :
    (∃ a s, r.result = .ok a s ∧ (ok a s).result = .ok b s') ∨
      (∃ e s, r.result = .err e s ∧ (err e s).result = .ok b s') ∨
      (r.result = .panic ∧ panic.result = .ok b s') := by
  unfold Run.andThen at h
  split at h
  next a s hr => exact .inl ⟨a, s, hr, h⟩
  next e s hr => exact .inr (.inl ⟨e, s, hr, h⟩)
  next hr => exact .inr (.inr ⟨hr, h⟩)
  next => cases h
  next => cases h

theorem Returns.mono {Q' : α → Prop} (h : x.Returns s Q) (hQ : ∀ a, Q a → Q' a) : x.Returns s Q' :=
  fun a s' ha => hQ a (h a s' ha)

theorem returns_of_run {a : α} (h : x.run s = .ok a s') (ha : Q a) : x.Returns s Q := by
  intro b s'' hb
  rw [h] at hb
  obtain ⟨rfl, -⟩ := Result.ok.inj hb
  exact ha

theorem Refuses.returns (h : x.Refuses s) : x.Returns s Q := by
  intro a s' ha
  rcases h with h | ⟨e, s'', h⟩ <;> rw [h] at ha <;> cases ha

theorem returns_pure {a : α} (ha : Q a) : (Pure.pure a : Back ε σ κ α).Returns s Q :=
  returns_of_run pure_run ha

theorem Returns.bind (h : x.Returns s Q) (hf : ∀ a s', Q a → (f a).Returns s' R) :
    (x >>= f).Returns s R := by
  intro b s' hb
  rw [bind_run] at hb
  rcases andThen_result_ok hb with ⟨a, s'', ha, hb⟩ | ⟨e, s'', -, hb⟩ | ⟨-, hb⟩
  · exact hf a s'' (h a s'' ha) b s' hb
  · cases hb
  · cases hb

/-- Whatever comes first. -/
theorem returns_bind (hf : ∀ a s', (f a).Returns s' R) : (x >>= f).Returns s R :=
  Returns.bind (Q := fun _ => True) (fun _ _ _ => trivial) fun a s' _ => hf a s'

theorem Returns.after {a : α} (hx : x.run s = .ok a s') (h : (f a).Returns s' R) :
    (x >>= f).Returns s R := by
  intro b s'' hb
  rw [bind_run, hx, Run.andThen_ok] at hb
  exact h b s'' hb

/-- The second alternative starts wherever the first one ends. -/
theorem Returns.orElse (h : x.Returns s Q) (hy : ∀ s', y.Returns s' Q) : (x <|> y).Returns s Q := by
  intro a s' ha
  rw [orElse_run] at ha
  rcases andThen_result_ok ha with ⟨b, s'', hb, ha⟩ | ⟨e, s'', -, ha⟩ | ⟨-, ha⟩
  · obtain ⟨rfl, -⟩ := Result.ok.inj ha
    exact h b s'' hb
  · exact hy s'' a s' ha
  · cases ha

/-- Behind a caught one it starts at the same place. -/
theorem Returns.catching (h : x.Returns s Q) (hy : y.Returns s Q) :
    (x.catching e <|> y).Returns s Q := by
  intro a s' ha
  cases hr : (x.run s).result with
  | ok b s'' =>
    simp only [orElse_run, catching_run, Run.andThen, hr, Run.ok, Result.ok.injEq] at ha
    exact ha.1 ▸ h b s'' hr
  | err e' s'' =>
    simp only [orElse_run, catching_run, Run.andThen, hr, Run.err] at ha
    exact hy a s' ha
  | panic =>
    simp only [orElse_run, catching_run, Run.andThen, hr, Run.err] at ha
    exact hy a s' ha
  | fatal => simp [Run.andThen, hr] at ha
  | out => simp [Run.andThen, hr] at ha

theorem Returns.recovering (h : x.Returns s Q) (hy : y.Returns s Q) :
    (x.recovering y).Returns s Q := by
  intro a s' ha
  rw [recovering_run] at ha
  rcases andThen_result_ok ha with ⟨b, s'', hb, ha⟩ | ⟨e, s'', -, ha⟩ | ⟨-, ha⟩
  · obtain ⟨rfl, -⟩ := Result.ok.inj ha
    exact h b s'' hb
  · cases ha
  · exact hy a s' ha

end Returns

section Out

variable {x : Back ε σ κ α} {f : α → Back ε σ κ β} {s m : σ}

/-- Where the first part of a sequence runs out of fuel. -/
theorem bind_out (h : (x.run s).result = .out) : ((x >>= f).run s).result = .out := by
  rw [bind_run]
  unfold Run.andThen
  rw [h]

/-- Where it is a later part. -/
theorem out_after {a : α} (hx : x.run s = .ok a m) (h : ((f a).run m).result = .out) :
    ((x >>= f).run s).result = .out := by
  rw [bind_run, hx]
  exact h

end Out

end Back

end CalcLang.Lib
