import Mathlib.Data.List.Basic

/-!
# Adaptive CEFR levels

A debrief estimates a level for its session; the stored level of the learner
moves at most one step toward the estimate.
-/

namespace Apm.Debriefs

set_option autoImplicit false

/-- `CEFR_LEVELS`. -/
def cefrLevels : List String := ["A1", "A2", "B1", "B2", "C1", "C2"]

/-- The level at an index. Both indices of `nextCefrLevel` are in range. -/
def levelAt (n : Nat) : String := cefrLevels.getD n "A1"

/-- One step toward the estimate. An unknown level counts as A1, an unknown
estimate moves nothing. -/
def nextCefrLevel (current estimate : String) : String :=
  let current := if current ∈ cefrLevels then current else "A1"
  if estimate ∈ cefrLevels then
    let cur := cefrLevels.idxOf current
    let est := cefrLevels.idxOf estimate
    if cur < est then levelAt (cur + 1)
    else if est < cur then levelAt (cur - 1)
    else current
  else current

/-- The rank of a level, an unknown one counting as A1. -/
def cefrIndex (level : String) : Nat :=
  cefrLevels.idxOf (if level ∈ cefrLevels then level else "A1")

/-- At most one step up or down. -/
def CefrStep (before after : String) : Prop :=
  cefrIndex after ≤ cefrIndex before + 1 ∧ cefrIndex before ≤ cefrIndex after + 1

instance (before after : String) : Decidable (CefrStep before after) :=
  inferInstanceAs (Decidable (_ ∧ _))

theorem cefrIndex_lt (level : String) : cefrIndex level < cefrLevels.length := by
  unfold cefrIndex
  split
  · rename_i h
    exact List.idxOf_lt_length_of_mem h
  · decide

theorem cefrIndex_levelAt {n : Nat} (h : n < cefrLevels.length) : cefrIndex (levelAt n) = n := by
  have hall : ∀ m : Fin cefrLevels.length, cefrIndex (levelAt m) = m := by decide
  exact hall ⟨n, h⟩

/-- The rank afterwards: one closer to the estimate. -/
theorem cefrIndex_next (current : String) {estimate : String} (h : estimate ∈ cefrLevels) :
    cefrIndex (nextCefrLevel current estimate) =
      if cefrIndex current < cefrIndex estimate then cefrIndex current + 1
      else if cefrIndex estimate < cefrIndex current then cefrIndex current - 1
      else cefrIndex current := by
  have hest : cefrIndex estimate = cefrLevels.idxOf estimate := by rw [cefrIndex, if_pos h]
  have hcur := cefrIndex_lt current
  have hlt := cefrIndex_lt estimate
  unfold nextCefrLevel
  simp only [if_pos h, ← hest]
  change cefrIndex (if cefrIndex current < cefrIndex estimate then levelAt (cefrIndex current + 1)
    else if cefrIndex estimate < cefrIndex current then levelAt (cefrIndex current - 1)
    else if current ∈ cefrLevels then current else "A1") = _
  split_ifs with hup hdown hknown
  · exact cefrIndex_levelAt (by omega)
  · exact cefrIndex_levelAt (by omega)
  · rfl
  · simp [cefrIndex, hknown]

/-- The level moves by at most one step. -/
theorem nextCefrLevel_step (current estimate : String) :
    CefrStep current (nextCefrLevel current estimate) := by
  by_cases h : estimate ∈ cefrLevels
  · have hnext := cefrIndex_next current h
    unfold CefrStep
    split_ifs at hnext <;> omega
  · have hstay : cefrIndex (nextCefrLevel current estimate) = cefrIndex current := by
      unfold nextCefrLevel cefrIndex
      simp only [if_neg h]
      by_cases hc : current ∈ cefrLevels
      · simp only [if_pos hc]
      · simp only [if_neg hc]
        decide
    unfold CefrStep
    omega

end Apm.Debriefs
