import Apm.Core.Time
import Mathlib.Logic.Function.Basic

/-!
# The idempotency table

One row for each user and key: a pending claim with its time stamp, or a
completed response. The turn locks of the sessions live in the same table, under
keys of their own text. Nothing in a row names the request that claimed it.
-/

namespace Apm.Idempotency

open Apm.Core

set_option autoImplicit false

/-- A row of `idempotency_keys`. -/
structure IdempotencyKey where
  response : Option String
  createdAt : Instant
  deriving DecidableEq, Repr

/-- The user and the key text. -/
abbrev Ref := Int × String

abbrev Table := Ref → Option IdempotencyKey

/-- `STALE_CLAIM_SECONDS`, in microseconds. -/
def staleClaim : Int := 120 * microsPerSecond

/-- `_turn_lock_key`. -/
def turnLockKey (sessionId : Int) : String := s!"turn-lock:session:{sessionId}"

/-- `lookup`: whether the row exists, and its response. -/
def lookup (table : Table) (r : Ref) : Bool × Option String :=
  match table r with
  | none => (false, none)
  | some row => (true, row.response)

/-- The `WHERE` of the upsert: a pending row older than `staleBefore`. -/
def IdempotencyKey.reclaimable (row : IdempotencyKey) (staleBefore : Instant) : Bool :=
  row.response.isNone && decide (row.createdAt < staleBefore)

/-- `claim`: insert, or reclaim a stale pending row. `stamp` is `now()` of its
transaction. -/
def claim (table : Table) (r : Ref) (staleBefore stamp : Instant) : Option Table :=
  match table r with
  | none => some (Function.update table r (some ⟨none, stamp⟩))
  | some row =>
    if row.reclaimable staleBefore then
      some (Function.update table r (some { row with createdAt := stamp }))
    else none

def complete (table : Table) (r : Ref) (response : String) : Table :=
  Function.update table r ((table r).map fun row => { row with response := some response })

def release (table : Table) (r : Ref) : Table := Function.update table r none

/-- The row is a pending claim stamped `t`. -/
def Pending (table : Table) (r : Ref) (t : Instant) : Prop := table r = some ⟨none, t⟩

theorem Pending.inj {table : Table} {r : Ref} {t u : Instant} (h : Pending table r t)
    (h' : Pending table r u) : t = u := by
  have hrow := Option.some.inj (h.symm.trans h')
  exact congrArg IdempotencyKey.createdAt hrow

/-- A claim succeeds on an absent row or on a stale pending one. -/
theorem claim_eq_some {table table' : Table} {r : Ref} {staleBefore stamp : Instant}
    (h : claim table r staleBefore stamp = some table') :
    table' = Function.update table r (some ⟨none, stamp⟩) ∧
      (table r = none ∨ ∃ t, Pending table r t ∧ t < staleBefore) := by
  simp only [claim] at h
  cases hrow : table r with
  | none =>
    rw [hrow] at h
    exact ⟨(Option.some.inj h).symm, .inl rfl⟩
  | some row =>
    rw [hrow] at h
    obtain ⟨response, createdAt⟩ := row
    simp only [IdempotencyKey.reclaimable, Bool.and_eq_true, decide_eq_true_eq] at h
    split_ifs at h with hstale
    obtain ⟨hnone, hlt⟩ := hstale
    rw [Option.isNone_iff_eq_none] at hnone
    subst hnone
    exact ⟨(Option.some.inj h).symm, .inr ⟨createdAt, hrow, hlt⟩⟩

theorem release_self (table : Table) (r : Ref) : release table r r = none :=
  Function.update_self ..

theorem release_other (table : Table) {r r' : Ref} (h : r' ≠ r) : release table r r' = table r' :=
  Function.update_of_ne h ..

theorem complete_self (table : Table) (r : Ref) (response : String) :
    complete table r response r = (table r).map fun row => { row with response := some response } :=
  Function.update_self ..

theorem complete_other (table : Table) {r r' : Ref} (response : String) (h : r' ≠ r) :
    complete table r response r' = table r' := Function.update_of_ne h ..

end Apm.Idempotency
