import Mathlib.Tactic.Common

/-!
# Programs of an event loop

An asynchronous program is cut at its awaits. What stands between two awaits runs at once;
an awaited operation waits until it can land, and then reads and writes the state with the
answer of its environment. The state, the answers, the values and the exceptions are
arbitrary types. `exec` runs a program alone.
-/

namespace Apm.Lib

set_option autoImplicit false

/-- A program over the state `σ`, with the answers `ι` of its environment. -/
inductive Async (ε ι σ α : Type) where
  | ret (a : α)
  | raise (e : ε)
  /-- goes on at once, from the state before the update -/
  | sync (update : σ → σ) (next : σ → Async ε ι σ α)
  /-- waits until the state is ready, and goes on when the operation lands -/
  | await (ready : σ → Bool) (land : ι → σ → σ) (next : ι → σ → Async ε ι σ α)

namespace Async

variable {ε ι σ α β : Type}

def bind : Async ε ι σ α → (α → Async ε ι σ β) → Async ε ι σ β
  | ret a, f => f a
  | raise e, _ => raise e
  | sync update next, f => sync update fun s => (next s).bind f
  | await ready land next, f => await ready land fun i s => (next i s).bind f

def handle : Async ε ι σ α → (ε → Async ε ι σ α) → Async ε ι σ α
  | ret a, _ => ret a
  | raise e, handler => handler e
  | sync update next, handler => sync update fun s => (next s).handle handler
  | await ready land next, handler => await ready land fun i s => (next i s).handle handler

instance : Monad (Async ε ι σ) where
  pure := ret
  bind := bind

instance : MonadExcept ε (Async ε ι σ) where
  throw := raise
  tryCatch := handle

/-- Reads the state. -/
def get : Async ε ι σ σ := sync id ret

def modify (f : σ → σ) : Async ε ι σ Unit := sync f fun _ => ret ()

def ofExcept : Except ε α → Async ε ι σ α
  | .ok a => ret a
  | .error e => raise e

/-- Awaits an operation: it reads the state and writes it when it lands. -/
def io (op : ι → σ → Except ε α × σ) : Async ε ι σ α :=
  await (fun _ => true) (fun i s => (op i s).2) fun i s => ofExcept (op i s).1

/-- Awaits what has already completed. -/
def hop : Async ε ι σ Unit := await (fun _ => true) (fun _ s => s) fun _ _ => ret ()

/-- Waits for the state. -/
def waitFor (ready : σ → Bool) : Async ε ι σ Unit := await ready (fun _ s => s) fun _ _ => ret ()

/-- A conditional statement. -/
def when (b : Bool) (p : Async ε ι σ Unit) : Async ε ι σ Unit := if b then p else ret ()

/-- Awaits a program. -/
def awaiting (p : Async ε ι σ α) : Async ε ι σ α := do
  let a ← p
  hop
  pure a

@[simp] theorem pure_eq (a : α) : (pure a : Async ε ι σ α) = ret a := rfl

@[simp] theorem throw_eq (e : ε) : (throw e : Async ε ι σ α) = raise e := rfl

@[simp] theorem bind_eq (p : Async ε ι σ α) (f : α → Async ε ι σ β) : p >>= f = p.bind f := rfl

@[simp] theorem tryCatch_eq (p : Async ε ι σ α) (handler : ε → Async ε ι σ α) :
    tryCatch p handler = p.handle handler := rfl

/-! ## A program alone -/

/-- The result and the state when the program runs alone, every operation landing with the
same answer; `none` when it waits for ever. -/
def exec (answer : ι) : Async ε ι σ α → σ → Option (Except ε α × σ)
  | ret a, s => some (.ok a, s)
  | raise e, s => some (.error e, s)
  | sync update next, s => exec answer (next s) (update s)
  | await ready land next, s =>
    if ready s then exec answer (next answer s) (land answer s) else none

/-- What follows an awaited program runs only on its value. -/
def andThen (answer : ι) (f : α → Async ε ι σ β) : Except ε α × σ → Option (Except ε β × σ)
  | (.ok a, s) => exec answer (f a) s
  | (.error e, s) => some (.error e, s)

variable (answer : ι) (s : σ)

@[simp] theorem exec_ret (a : α) : exec answer (ret a : Async ε ι σ α) s = some (.ok a, s) := rfl

@[simp] theorem exec_get : exec answer (get : Async ε ι σ σ) s = some (.ok s, s) := rfl

@[simp] theorem exec_modify (f : σ → σ) :
    exec answer (modify f : Async ε ι σ Unit) s = some (.ok (), f s) := rfl

@[simp] theorem exec_hop : exec answer (hop : Async ε ι σ Unit) s = some (.ok (), s) := rfl

theorem exec_waitFor {ready : σ → Bool} (h : ready s = true) :
    exec answer (waitFor ready : Async ε ι σ Unit) s = some (.ok (), s) := if_pos h

@[simp] theorem exec_io (op : ι → σ → Except ε α × σ) :
    exec answer (io op) s = some (op answer s) := by
  obtain ⟨r, t, h⟩ : ∃ r t, op answer s = (r, t) := ⟨_, _, rfl⟩
  cases r <;> simp [io, exec, h, ofExcept]

@[simp] theorem exec_bind (p : Async ε ι σ α) (f : α → Async ε ι σ β) :
    exec answer (p.bind f) s = (exec answer p s).bind (andThen answer f) := by
  induction p generalizing s with
  | ret a => rfl
  | raise e => rfl
  | sync update next ih => exact ih s (update s)
  | await ready land next ih =>
    simp only [bind, exec]
    split_ifs
    · exact ih answer s (land answer s)
    · rfl

@[simp] theorem andThen_ok (f : α → Async ε ι σ β) (a : α) :
    andThen answer f (.ok a, s) = exec answer (f a) s := rfl

@[simp] theorem andThen_error (f : α → Async ε ι σ β) (e : ε) :
    andThen answer f (.error e, s) = some (.error e, s) := rfl

@[simp] theorem exec_awaiting (p : Async ε ι σ α) : exec answer (awaiting p) s = exec answer p s := by
  simp only [awaiting, bind_eq, exec_bind]
  cases exec answer p s with
  | none => rfl
  | some x =>
    obtain ⟨r, t⟩ := x
    cases r <;> rfl

theorem exec_handle_of_ok {p : Async ε ι σ α} {handler : ε → Async ε ι σ α} {a : α} {t : σ}
    (h : exec answer p s = some (.ok a, t)) : exec answer (p.handle handler) s = some (.ok a, t) := by
  induction p generalizing s with
  | ret b => exact h
  | raise e => cases h
  | sync update next ih => exact ih s (update s) h
  | await ready land next ih =>
    simp only [exec] at h
    simp only [handle, exec]
    split_ifs at h ⊢
    exact ih answer s (land answer s) h

/-- Alone, the program returns, and `post` holds of its value and of the state it leaves. -/
def Returns (p : Async ε ι σ α) (s : σ) (post : α → σ → Prop) : Prop :=
  ∃ a t, exec answer p s = some (.ok a, t) ∧ post a t

namespace Returns

variable {answer s} {p : Async ε ι σ α} {f : α → Async ε ι σ β} {P P' : α → σ → Prop}
  {Q : β → σ → Prop}

theorem bind (hp : Returns answer p s P) (hf : ∀ a t, P a t → Returns answer (f a) t Q) :
    Returns answer (p >>= f) s Q := by
  obtain ⟨a, t, hexec, ha⟩ := hp
  obtain ⟨b, u, hnext, hb⟩ := hf a t ha
  refine ⟨b, u, ?_, hb⟩
  rw [bind_eq, exec_bind, hexec, Option.bind_some, andThen_ok, hnext]

/-- The first program has been run. -/
theorem next {a : α} {t : σ} (hp : exec answer p s = some (.ok a, t))
    (hf : Returns answer (f a) t Q) : Returns answer (p >>= f) s Q :=
  bind (P := fun b u => a = b ∧ t = u) ⟨a, t, hp, rfl, rfl⟩ fun _ _ h => h.1 ▸ h.2 ▸ hf

theorem mono (hp : Returns answer p s P) (h : ∀ a t, P a t → P' a t) : Returns answer p s P' := by
  obtain ⟨a, t, hexec, ha⟩ := hp
  exact ⟨a, t, hexec, h a t ha⟩

theorem pure {a : α} (h : P a s) : Returns answer (Pure.pure a : Async ε ι σ α) s P := ⟨a, s, rfl, h⟩

theorem modify {g : σ → σ} {P : Unit → σ → Prop} (h : P () (g s)) :
    Returns answer (modify g : Async ε ι σ Unit) s P := ⟨(), g s, rfl, h⟩

theorem io {op : ι → σ → Except ε α × σ} {a : α} {t : σ} (hop : op answer s = (.ok a, t))
    (h : P a t) : Returns answer (io op) s P := ⟨a, t, by rw [exec_io, hop], h⟩

theorem handle {handler : ε → Async ε ι σ α} (hp : Returns answer p s P) :
    Returns answer (tryCatch p handler) s P := by
  obtain ⟨a, t, hexec, ha⟩ := hp
  exact ⟨a, t, exec_handle_of_ok answer s hexec, ha⟩

theorem «when» {b : Bool} {p : Async ε ι σ Unit} {P : Unit → σ → Prop}
    (hp : b = true → Returns answer p s P) (hskip : b = false → P () s) :
    Returns answer (when b p) s P := by
  cases b with
  | true => exact hp rfl
  | false => exact ⟨(), s, rfl, hskip rfl⟩

theorem awaiting (hp : Returns answer p s P) : Returns answer (awaiting p) s P := by
  obtain ⟨a, t, hexec, ha⟩ := hp
  exact ⟨a, t, by rw [exec_awaiting, hexec], ha⟩

end Returns

end Async

end Apm.Lib
