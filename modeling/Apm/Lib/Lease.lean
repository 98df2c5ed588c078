import Mathlib.Logic.Function.Basic

/-!
# Leases without an owner field

Holders take, lose and give back leases on references. The shared row of a
reference says that it is taken, and since when, but not by whom: who holds it
is known only to the holders. A lease that has run out can be seized by another
holder while the first one still believes to hold it. Holders, references and
time stamps are arbitrary types; what the row of a reference says is a predicate
on the stamps.
-/

namespace Apm.Lib

set_option autoImplicit false

/-- What became of a holder's lease: not taken or given back, taken at a stamp,
or seized by another holder since. -/
inductive Tenure (τ : Type) where
  | free
  | held (stamp : τ)
  | reclaimed
  deriving DecidableEq, Repr

variable {κ ρ τ : Type} [DecidableEq κ]

/-- A holder takes a free reference. -/
def Tenure.take (tenure : κ → Tenure τ) (k : κ) (stamp : τ) : κ → Tenure τ :=
  Function.update tenure k (.held stamp)

/-- A holder seizes a reference: whoever held it is reclaimed. -/
def Tenure.seize [DecidableEq ρ] (ref : κ → ρ) (tenure : κ → Tenure τ) (k : κ) (stamp : τ) :
    κ → Tenure τ := fun j =>
  if j = k then .held stamp
  else if ref j = ref k then
    match tenure j with
    | .held _ => .reclaimed
    | t => t
  else tenure j

/-- A holder is through with its lease. -/
def Tenure.leave (tenure : κ → Tenure τ) (k : κ) : κ → Tenure τ :=
  Function.update tenure k .free

section tenure

variable {tenure : κ → Tenure τ} {k j : κ} {stamp : τ}

@[simp] theorem Tenure.take_self : Tenure.take tenure k stamp k = .held stamp :=
  Function.update_self ..

theorem Tenure.take_other (h : j ≠ k) : Tenure.take tenure k stamp j = tenure j :=
  Function.update_of_ne h ..

@[simp] theorem Tenure.leave_self : Tenure.leave tenure k k = .free := Function.update_self ..

theorem Tenure.leave_other (h : j ≠ k) : Tenure.leave tenure k j = tenure j :=
  Function.update_of_ne h ..

variable [DecidableEq ρ] {ref : κ → ρ}

@[simp] theorem Tenure.seize_self : Tenure.seize ref tenure k stamp k = .held stamp := if_pos rfl

theorem Tenure.seize_away (h : ref j ≠ ref k) : Tenure.seize ref tenure k stamp j = tenure j := by
  have hj : j ≠ k := fun he => h (congrArg ref he)
  rw [Tenure.seize, if_neg hj, if_neg h]

/-- Nobody else holds a seized reference. -/
theorem Tenure.seize_not_held (h : ref j = ref k) (hj : j ≠ k) (t : τ) :
    Tenure.seize ref tenure k stamp j ≠ .held t := by
  rw [Tenure.seize, if_neg hj, if_pos h]
  cases tenure j <;> simp

theorem Tenure.seize_eq_free_iff (hj : j ≠ k) :
    Tenure.seize ref tenure k stamp j = .free ↔ tenure j = .free := by
  rw [Tenure.seize, if_neg hj]
  split
  · cases tenure j <;> simp
  · rfl

end tenure

/-- At most one holder holds the reference, and the row carries its stamp. -/
structure Sole (ref : κ → ρ) (r : ρ) (pending : τ → Prop) (tenure : κ → Tenure τ) : Prop where
  row : ∀ k t, ref k = r → tenure k = .held t → pending t
  unique : ∀ k j t u, ref k = r → ref j = r → tenure k = .held t → tenure j = .held u → k = j

section rules

variable {ref : κ → ρ} {r : ρ} {pending pending' : τ → Prop} {tenure tenure' : κ → Tenure τ}
  {k : κ} {stamp : τ}

omit [DecidableEq κ] in
/-- The holders of the reference and its row are unchanged. -/
theorem Sole.congr (h : Sole ref r pending tenure) (hrow : ∀ t, pending t → pending' t)
    (htenure : ∀ j t, ref j = r → tenure' j = .held t → tenure j = .held t) :
    Sole ref r pending' tenure' where
  row := fun j t hj ht => hrow t (h.row j t hj (htenure j t hj ht))
  unique := fun j i t u hj hi ht hu =>
    h.unique j i t u hj hi (htenure j t hj ht) (htenure i u hi hu)

/-- A free reference is taken. -/
theorem Sole.take (h : Sole ref r pending tenure) (hk : ref k = r) (hfree : ∀ t, ¬pending t)
    (hrow : pending' stamp) : Sole ref r pending' (Tenure.take tenure k stamp) := by
  have honly : ∀ j t, ref j = r → Tenure.take tenure k stamp j = .held t → j = k ∧ t = stamp := by
    intro j t hj ht
    by_cases hjk : j = k
    · subst hjk
      rw [Tenure.take_self] at ht
      exact ⟨rfl, (Tenure.held.inj ht).symm⟩
    · rw [Tenure.take_other hjk] at ht
      exact absurd (h.row j t hj ht) (hfree t)
  exact ⟨fun j t hj ht => (honly j t hj ht).2 ▸ hrow,
    fun j i t u hj hi ht hu => (honly j t hj ht).1.trans (honly i u hi hu).1.symm⟩

/-- A taken reference is seized. -/
theorem Sole.seize [DecidableEq ρ] (hk : ref k = r) (hrow : pending' stamp) :
    Sole ref r pending' (Tenure.seize ref tenure k stamp) := by
  have honly : ∀ j t, ref j = r → Tenure.seize ref tenure k stamp j = .held t →
      j = k ∧ t = stamp := by
    intro j t hj ht
    by_cases hjk : j = k
    · subst hjk
      rw [Tenure.seize_self] at ht
      exact ⟨rfl, (Tenure.held.inj ht).symm⟩
    · exact absurd ht (Tenure.seize_not_held (hj.trans hk.symm) hjk t)
  exact ⟨fun j t hj ht => (honly j t hj ht).2 ▸ hrow,
    fun j i t u hj hi ht hu => (honly j t hj ht).1.trans (honly i u hi hu).1.symm⟩

/-- Its holder gives the reference back, whatever it leaves in the row. -/
theorem Sole.leave (h : Sole ref r pending tenure) (hk : ref k = r) (hheld : tenure k = .held stamp) :
    Sole ref r pending' (Tenure.leave tenure k) := by
  have hnone : ∀ j t, ref j = r → Tenure.leave tenure k j ≠ .held t := by
    intro j t hj ht
    by_cases hjk : j = k
    · subst hjk
      rw [Tenure.leave_self] at ht
      cases ht
    · rw [Tenure.leave_other hjk] at ht
      exact hjk (h.unique j k t stamp hj hk ht hheld)
  exact ⟨fun j t hj ht => absurd ht (hnone j t hj), fun j _ t _ hj _ ht _ => absurd ht (hnone j t hj)⟩

/-- A holder that holds nothing leaves, and the row stays. -/
theorem Sole.leave_other (h : Sole ref r pending tenure) (hrow : ∀ t, pending t → pending' t) :
    Sole ref r pending' (Tenure.leave tenure k) := by
  refine h.congr hrow fun j t _ ht => ?_
  by_cases hjk : j = k
  · subst hjk
    rw [Tenure.leave_self] at ht
    cases ht
  · rwa [Tenure.leave_other hjk] at ht

end rules

end Apm.Lib
