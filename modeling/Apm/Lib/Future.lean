import Mathlib.Tactic.Common

/-!
# Futures over a shared state

A future runs on a shared state and completes with a value or an exception. What it has
done to the state stays done when it completes with an exception. States, values and
exceptions are arbitrary types. The rules below give the end of a future from the ends of
its parts: sequencing, `catch`, `finally` and loops.
-/

namespace Apm.Lib

set_option autoImplicit false

/-- A future that completes with a value of `α` or an exception of `ε`. -/
abbrev Future (ε σ α : Type) : Type := ExceptT ε (StateM σ) α

namespace Future

variable {ε σ α β : Type}

/-- How the future completes, and the state it leaves. -/
def exec (x : Future ε σ α) (s : σ) : Except ε α × σ := x.run.run s

/-- What follows an awaited future runs only on its value. -/
def after (ended : Except ε α × σ) (f : α → Future ε σ β) : Except ε β × σ :=
  match ended with
  | (.ok a, t) => (f a).exec t
  | (.error e, t) => (.error e, t)

/-- What handles the exception of a future runs only on its exception. -/
def handled (ended : Except ε α × σ) (handler : ε → Future ε σ α) : Except ε α × σ :=
  match ended with
  | (.ok a, t) => (.ok a, t)
  | (.error e, t) => (handler e).exec t

@[simp] theorem after_ok (a : α) (t : σ) (f : α → Future ε σ β) :
    after (.ok a, t) f = (f a).exec t := rfl

@[simp] theorem after_error (e : ε) (t : σ) (f : α → Future ε σ β) :
    after (.error e, t) f = (.error e, t) := rfl

@[simp] theorem handled_ok (a : α) (t : σ) (handler : ε → Future ε σ α) :
    handled (.ok a, t) handler = (.ok a, t) := rfl

@[simp] theorem handled_error (e : ε) (t : σ) (handler : ε → Future ε σ α) :
    handled (.error e, t) handler = (handler e).exec t := rfl

variable (x : Future ε σ α) (s : σ)

@[simp] theorem exec_pure (a : α) : exec (pure a : Future ε σ α) s = (.ok a, s) := rfl

@[simp] theorem exec_throw (e : ε) : exec (throw e : Future ε σ α) s = (.error e, s) := rfl

@[simp] theorem exec_get : exec (get : Future ε σ σ) s = (.ok s, s) := rfl

@[simp] theorem exec_modify (f : σ → σ) :
    exec (modify f : Future ε σ PUnit) s = (.ok ⟨⟩, f s) := rfl

@[simp] theorem exec_liftExcept (r : Except ε α) :
    exec (liftExcept r : Future ε σ α) s = (r, s) := by
  cases r <;> rfl

@[simp] theorem exec_bind (f : α → Future ε σ β) : exec (x >>= f) s = after (x.exec s) f := by
  change (ExceptT.bindCont f (exec x s).1).run (exec x s).2 = after (exec x s) f
  obtain ⟨r, t⟩ := exec x s
  cases r <;> rfl

/-- An exception is handled in the state that it has left. -/
@[simp] theorem exec_tryCatch (handler : ε → Future ε σ α) :
    exec (tryCatch x handler) s = handled (x.exec s) handler := by
  obtain ⟨r, t, hx⟩ : ∃ r t, x s = (r, t) := ⟨_, _, rfl⟩
  have hx' : exec x s = (r, t) := hx
  rw [hx']
  simp only [exec, tryCatch, tryCatchThe, MonadExceptOf.tryCatch, ExceptT.tryCatch, ExceptT.mk,
    ExceptT.run, bind, StateT.bind, StateT.run, hx]
  cases r <;> rfl

/-- A `finally` runs after either end, and only its own exception replaces that end. -/
@[simp] theorem exec_tryFinally (y : Future ε σ β) :
    exec (tryFinally x y) s =
      match y.exec (x.exec s).2 with
      | (.ok _, t) => ((x.exec s).1, t)
      | (.error e, t) => (.error e, t) := by
  obtain ⟨r, t, hx⟩ : ∃ r t, x s = (r, t) := ⟨_, _, rfl⟩
  obtain ⟨r', u, hy⟩ : ∃ r' u, y t = (r', u) := ⟨_, _, rfl⟩
  have hx' : exec x s = (r, t) := hx
  have hy' : exec y t = (r', u) := hy
  rw [hx', hy']
  cases r <;> cases r' <;>
    simp [exec, tryFinally, tryFinally', Functor.map, ExceptT.map, ExceptT.mk, ExceptT.run, bind,
      StateT.bind, StateT.run, hx, hy] <;> rfl

/-- A loop whose rounds all complete. -/
theorem exec_forIn_total {round : α → Future ε σ PUnit} {f : α → σ → σ}
    (h : ∀ a t, (round a).exec t = (.ok ⟨⟩, f a t)) (as : List α) :
    exec (forIn as PUnit.unit fun a _ => do
        round a
        pure (.yield PUnit.unit) : Future ε σ PUnit) s =
      (.ok ⟨⟩, as.foldl (fun t a => f a t) s) := by
  induction as generalizing s with
  | nil => rfl
  | cons a rest ih =>
    rw [List.forIn_cons]
    simp only [exec_bind, h, after_ok, exec_pure, List.foldl_cons]
    exact ih (f a s)

/-- A loop that only writes. -/
theorem exec_forIn_modify (f : α → σ → σ) (as : List α) :
    exec (forIn as PUnit.unit fun a _ => do
        modify (f a)
        pure (.yield PUnit.unit) : Future ε σ PUnit) s =
      (.ok ⟨⟩, as.foldl (fun t a => f a t) s) :=
  exec_forIn_total s (fun a t => exec_modify t (f a)) as

end Future

end Apm.Lib
