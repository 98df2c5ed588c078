import Apm.Lib.Table
import Mathlib.Order.Lattice

/-!
# Keys that expire

The keys of a server, each with a value and the instant it expires at, if any. A key that has
expired is not there for any command; whether it still takes up memory is not told.
-/

namespace Apm.Lib

set_option autoImplicit false

structure Expiring.Entry (κ ν τ : Type) where
  key : κ
  value : ν
  expiresAt : Option τ
  deriving DecidableEq, Repr

abbrev Expiring (κ ν τ : Type) := Table (Expiring.Entry.key : Expiring.Entry κ ν τ → κ)

namespace Expiring

variable {κ ν τ : Type} [DecidableEq κ] [LinearOrder τ]

/-- The entry of a key that has not expired. -/
def live (s : Expiring κ ν τ) (now : τ) (k : κ) : Option (Entry κ ν τ) :=
  (s.get k).filter fun e => e.expiresAt.all (now ≤ ·)

def lookup (s : Expiring κ ν τ) (now : τ) (k : κ) : Option ν := (s.live now k).map Entry.value

/-- `SETEX`, with the instant of the expiry. -/
def setex (s : Expiring κ ν τ) (k : κ) (v : ν) (expiresAt : τ) : Expiring κ ν τ :=
  s.upsert ⟨k, v, some expiresAt⟩

/-- `INCR`: a key that is not there is created without an expiry. -/
def incr (s : Expiring κ Nat τ) (now : τ) (k : κ) : Nat × Expiring κ Nat τ :=
  match s.live now k with
  | some e => (e.value + 1, s.upsert { e with value := e.value + 1 })
  | none => (1, s.upsert ⟨k, 1, none⟩)

/-- `EXPIRE`, with the instant of the expiry. -/
def expire (s : Expiring κ ν τ) (now : τ) (k : κ) (expiresAt : τ) : Expiring κ ν τ :=
  match s.live now k with
  | some e => s.upsert { e with expiresAt := some expiresAt }
  | none => s

variable {s : Expiring κ ν τ} {now : τ} {k k' : κ} {v : ν} {e : Entry κ ν τ} {expiresAt : τ}

theorem live_eq_some_iff :
    s.live now k = some e ↔ s.get k = some e ∧ ∀ t ∈ e.expiresAt, now ≤ t := by
  rw [live, Option.filter_eq_some_iff, Option.all_eq_true]
  simp only [decide_eq_true_iff, Option.mem_def]

theorem lookup_eq_some_iff :
    s.lookup now k = some v ↔ ∃ e, s.live now k = some e ∧ e.value = v := by
  rw [lookup, Option.map_eq_some_iff]

omit [LinearOrder τ] in
theorem get_setex :
    (s.setex k v expiresAt).get k' = if k = k' then some ⟨k, v, some expiresAt⟩ else s.get k' :=
  Table.get_upsert

theorem key_of_live (h : s.live now k = some e) : e.key = k :=
  Table.key_of_get (live_eq_some_iff.mp h).1

section incr

variable {s : Expiring κ Nat τ} {e : Entry κ Nat τ}

theorem incr_of_live (h : s.live now k = some e) :
    s.incr now k = (e.value + 1, s.upsert ⟨k, e.value + 1, e.expiresAt⟩) := by
  rw [incr, h, ← key_of_live h]

theorem incr_of_none (h : s.live now k = none) : s.incr now k = (1, s.upsert ⟨k, 1, none⟩) := by
  rw [incr, h]

end incr

/-- A key that has just been set without an expiry gets one. -/
theorem expire_upsert :
    expire (s.upsert ⟨k, v, none⟩) now k expiresAt =
      (s.upsert ⟨k, v, none⟩).upsert ⟨k, v, some expiresAt⟩ := by
  have hlive : live (s.upsert ⟨k, v, none⟩) now k = some ⟨k, v, none⟩ := by
    rw [live_eq_some_iff, Table.get_upsert, if_pos rfl]
    exact ⟨rfl, nofun⟩
  rw [expire, hlive]

end Expiring

end Apm.Lib
