import Mathlib.Order.Lattice

/-!
# Climbing a ladder of due dates

A rung is reached at an instant of a list that is not before the date the rung below
gives. Taking every rung at the first instant that allows it reaches each rung as early
as any choice of instants does, and the highest rung that any choice reaches.
-/

namespace Apm.Lib

set_option autoImplicit false

variable {α : Type} [LinearOrder α]

/-- From `s`, rung `k` is reached at `u` through the instants of `ts`. -/
inductive Climb (due : Nat → α → α) (ts : List α) (s : α) : Nat → α → Prop
  | start : Climb due ts s 0 s
  | step {k : Nat} {u t : α} : Climb due ts s k u → t ∈ ts → due k u ≤ t → Climb due ts s (k + 1) t

variable {due : Nat → α → α} {ts : List α} {s t u v : α} {k : Nat}

theorem Climb.mono {ts' : List α} (h : Climb due ts s k u) (hts : ∀ t ∈ ts, t ∈ ts') :
    Climb due ts' s k u := by
  induction h with
  | start => exact .start
  | step _ ht hdue ih => exact .step ih (hts _ ht) hdue

theorem Climb.mem (h : Climb due ts s k u) : u = s ∨ u ∈ ts := by
  cases h with
  | start => exact .inl rfl
  | step _ ht _ => exact .inr ht

/-- The rungs below. -/
theorem Climb.descend (h : Climb due ts s (k + 1) v) : ∃ u, Climb due ts s k u ∧ due k u ≤ v := by
  cases h with
  | step hk _ hdue => exact ⟨_, hk, hdue⟩

/-- A last instant serves for the last rung only. -/
theorem Climb.of_append (hdue : ∀ k u, u < due k u) (hs : s ≤ t) (hts : ∀ v ∈ ts, v ≤ t)
    (h : Climb due (ts ++ [t]) s k v) :
    Climb due ts s k v ∨ v = t ∧ ∃ j w, k = j + 1 ∧ Climb due ts s j w ∧ due j w ≤ t := by
  induction h with
  | start => exact .inl .start
  | @step j w x hw hx hle ih =>
    rcases ih with hold | ⟨rfl, -⟩
    · rcases List.mem_append.mp hx with hx | hx
      · exact .inl (.step hold hx hle)
      · obtain rfl := List.mem_singleton.mp hx
        exact .inr ⟨rfl, j, w, rfl, hold, hle⟩
    · have hxt : x ≤ w := by
        rcases List.mem_append.mp hx with hx | hx
        · exact hts x hx
        · exact (List.mem_singleton.mp hx).le
      exact absurd ((hdue j w).trans_le hle) (not_lt.mpr hxt)

/-- Rung `k` is the highest, and `u` the first instant it is reached at. -/
structure Earliest (due : Nat → α → α) (ts : List α) (s : α) (k : Nat) (u : α) : Prop where
  climbs : Climb due ts s k u
  least : ∀ v, Climb due ts s k v → u ≤ v
  top : ∀ v, ¬Climb due ts s (k + 1) v

theorem Earliest.start (due : Nat → α → α) (s : α) : Earliest due [] s 0 s where
  climbs := .start
  least v h := by cases h; exact le_rfl
  top v h := by cases h with | step _ ht _ => cases ht

theorem Earliest.le (h : Earliest due ts s k u) (hs : s ≤ t) (hts : ∀ v ∈ ts, v ≤ t) : u ≤ t := by
  rcases h.climbs.mem with rfl | hu
  · exact hs
  · exact hts u hu

/-- An instant before the date changes nothing. -/
theorem Earliest.wait (hdue : ∀ k u, u < due k u) (hmono : ∀ k, Monotone (due k))
    (h : Earliest due ts s k u) (hs : s ≤ t) (hts : ∀ v ∈ ts, v ≤ t) (ht : t < due k u) :
    Earliest due (ts ++ [t]) s k u where
  climbs := h.climbs.mono fun _ hv => List.mem_append_left _ hv
  least v hv := by
    rcases hv.of_append hdue hs hts with hold | ⟨rfl, -⟩
    · exact h.least v hold
    · exact h.le hs hts
  top v hv := by
    rcases hv.of_append hdue hs hts with hold | ⟨-, j, w, hj, hw, hle⟩
    · exact h.top v hold
    · obtain rfl : k = j := Nat.succ.inj hj
      exact absurd ((hmono k (h.least w hw)).trans hle) (not_le.mpr ht)

/-- An instant at or past the date takes the next rung. -/
theorem Earliest.advance (hdue : ∀ k u, u < due k u) (h : Earliest due ts s k u) (hs : s ≤ t)
    (hts : ∀ v ∈ ts, v ≤ t) (ht : due k u ≤ t) : Earliest due (ts ++ [t]) s (k + 1) t where
  climbs := .step (h.climbs.mono fun _ hv => List.mem_append_left _ hv)
    (List.mem_append_right _ (List.mem_singleton_self t)) ht
  least v hv := by
    rcases hv.of_append hdue hs hts with hold | ⟨rfl, -⟩
    · exact absurd hold (h.top v)
    · exact le_rfl
  top v hv := by
    rcases hv.of_append hdue hs hts with hold | ⟨-, j, w, hj, hw, -⟩
    · obtain ⟨w, hw, -⟩ := hold.descend
      exact h.top w hw
    · obtain rfl : k + 1 = j := Nat.succ.inj hj
      exact h.top w hw

end Apm.Lib
