import Mathlib.Data.List.Basic

/-!
# The last value of a key

A history lists keys with the values they were given, the latest last. What a key was last given
is what a store that was written in that order holds.
-/

namespace Apm.Lib

set_option autoImplicit false

variable {κ ν : Type} [DecidableEq κ]

/-- The value of the last use of a key. -/
def lastValue (uses : List (κ × ν)) (k : κ) : Option ν :=
  ((uses.filter fun e => e.1 = k).getLast?).map Prod.snd

variable {uses later : List (κ × ν)} {k k' : κ} {v : ν}

@[simp] theorem lastValue_nil : lastValue ([] : List (κ × ν)) k = none := rfl

/-- A later use hides the earlier ones. -/
theorem lastValue_append :
    lastValue (uses ++ later) k = (lastValue later k).or (lastValue uses k) := by
  rw [lastValue, List.filter_append, List.getLast?_append, Option.map_or]
  rfl

theorem lastValue_append_singleton : lastValue (uses ++ [(k, v)]) k' =
    if k' = k then some v else lastValue uses k' := by
  by_cases h : k' = k
  · subst h
    simp [lastValue]
  · simp [lastValue, h, Ne.symm h]

theorem mem_of_lastValue (h : lastValue uses k = some v) : (k, v) ∈ uses := by
  obtain ⟨⟨k', v'⟩, hlast, rfl⟩ := Option.map_eq_some_iff.mp h
  obtain ⟨hmem, hk⟩ := List.mem_filter.mp (List.mem_of_getLast? hlast)
  rw [← of_decide_eq_true hk]
  exact hmem

theorem lastValue_eq_none_iff : lastValue uses k = none ↔ ∀ v, (k, v) ∉ uses := by
  rw [lastValue, Option.map_eq_none_iff, List.getLast?_eq_none_iff, List.filter_eq_nil_iff]
  constructor
  · intro h v hv
    exact h (k, v) hv (decide_eq_true rfl)
  · rintro h ⟨k', v⟩ hmem hk
    exact h v (of_decide_eq_true hk ▸ hmem)

/-- A key that is given one value only has it. -/
theorem lastValue_eq_some_of_unique (hmem : (k, v) ∈ uses)
    (hunique : ∀ v', (k, v') ∈ uses → v' = v) : lastValue uses k = some v := by
  cases h : lastValue uses k with
  | none => exact absurd hmem (lastValue_eq_none_iff.mp h v)
  | some v' => rw [hunique v' (mem_of_lastValue h)]

end Apm.Lib
