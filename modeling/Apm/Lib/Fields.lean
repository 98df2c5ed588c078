import Mathlib.Data.List.Basic
import Mathlib.Data.List.Count
import Mathlib.Data.List.Perm.Subperm
import Mathlib.Algebra.Order.BigOperators.Group.List

/-!
# Fields of a text

The fields of a text are its longest runs of items that do not separate. A function that splits
at the separators is known from the fields of a text. Two lists of fields, one within the other
as a bag and both with as many items, are the same bag.
-/

namespace Apm.Lib

set_option autoImplicit false

variable {α β : Type} {sep : α → Bool}

def fields (sep : α → Bool) (text : List α) : List (List α) :=
  (text.splitOnP sep).filter fun field => !field.isEmpty

/-- The function sees a text with a separator in it as the two texts around it. -/
structure SplitsAt (sep : α → Bool) (f : List α → List β) : Prop where
  nil : f [] = []
  append_cons : ∀ {c}, sep c = true → ∀ before after, f (before ++ c :: after) = f before ++ f after

theorem splitsAt_fields (sep : α → Bool) : SplitsAt sep (fields sep) where
  nil := rfl
  append_cons hc before after := by
    rw [fields, List.splitOnP_append_cons _ _ hc, List.filter_append, fields, fields]

theorem ne_nil_of_mem_fields {text field : List α} (h : field ∈ fields sep text) : field ≠ [] := by
  rw [fields, List.mem_filter] at h
  simpa using h.2

/-- A text is a field, or it has a first separator. -/
theorem unbroken_or_append_cons (sep : α → Bool) (text : List α) :
    (∀ c ∈ text, sep c = false) ∨
      ∃ before c after, text = before ++ c :: after ∧ sep c = true ∧
        ∀ c ∈ before, sep c = false := by
  induction text with
  | nil => exact .inl fun c hc => absurd hc List.not_mem_nil
  | cons c text ih =>
    cases hc : sep c with
    | true => exact .inr ⟨[], c, text, rfl, hc, fun c hc => absurd hc List.not_mem_nil⟩
    | false =>
      obtain hclean | ⟨before, d, after, rfl, hd, hclean⟩ := ih
      · exact .inl (List.forall_mem_cons.mpr ⟨hc, hclean⟩)
      · exact .inr ⟨c :: before, d, after, rfl, hd, List.forall_mem_cons.mpr ⟨hc, hclean⟩⟩

/-- A text without separators, or two texts around one. -/
theorem break_induction (sep : α → Bool) {P : List α → Prop}
    (unbroken : ∀ text, (∀ c ∈ text, sep c = false) → P text)
    (broken : ∀ before c after, sep c = true → P before → P after → P (before ++ c :: after))
    (text : List α) : P text := by
  obtain hclean | ⟨before, c, after, rfl, hc, hclean⟩ := unbroken_or_append_cons sep text
  · exact unbroken text hclean
  · have hlength : after.length < (before ++ c :: after).length := by
      rw [List.length_append, List.length_cons]
      omega
    exact broken before c after hc (unbroken before hclean) (break_induction sep unbroken broken after)
  termination_by text.length

/-- A text without separators is its only field. -/
theorem fields_unbroken {text : List α} (h : ∀ c ∈ text, sep c = false) :
    fields sep text = if text = [] then [] else [text] := by
  rw [fields, List.splitOnP_eq_singleton h]
  cases text <;> simp

/-- What is known of the fields is known of the text. -/
theorem SplitsAt.flatMap_fields {f : List α → List β} (h : SplitsAt sep f) (text : List α) :
    (fields sep text).flatMap f = f text := by
  induction text using break_induction sep with
  | unbroken text hclean =>
    rw [fields_unbroken hclean]
    split_ifs with hnil
    · rw [hnil, List.flatMap_nil, h.nil]
    · rw [List.flatMap_singleton]
  | broken before c after hc hbefore hafter =>
    rw [(splitsAt_fields sep).append_cons hc, List.flatMap_append, h.append_cons hc, hbefore,
      hafter]

theorem SplitsAt.intercalate {f : List α → List β} (h : SplitsAt sep f) {c : α} (hc : sep c = true)
    (words : List (List α)) : f ([c].intercalate words) = words.flatMap f := by
  induction words with
  | nil => exact h.nil
  | cons word words ih =>
    cases words with
    | nil => simp [List.intercalate]
    | cons next words =>
      have hjoin : [c].intercalate (word :: next :: words) =
          word ++ c :: [c].intercalate (next :: words) := by
        simp [List.intercalate]
      rw [hjoin, h.append_cons hc, ih, ← List.flatMap_cons]

theorem length_flatten_le_of_sublist {fields fields' : List (List α)} (h : fields.Sublist fields') :
    fields.flatten.length ≤ fields'.flatten.length := by
  induction h with
  | slnil => exact le_rfl
  | cons field h ih => rw [List.flatten_cons, List.length_append]; omega
  | cons_cons field h ih =>
    rw [List.flatten_cons, List.length_append, List.flatten_cons, List.length_append]
    omega

/-- Nothing that is not empty is left out with as many items. -/
theorem eq_of_sublist_of_length_flatten {fields fields' : List (List α)}
    (h : fields.Sublist fields') (hne : ∀ field ∈ fields', field ≠ [])
    (hlength : fields.flatten.length = fields'.flatten.length) : fields = fields' := by
  induction h with
  | slnil => rfl
  | cons field h ih =>
    have hpos := List.length_pos_iff.mpr (hne field List.mem_cons_self)
    have hle := length_flatten_le_of_sublist h
    rw [List.flatten_cons, List.length_append] at hlength
    omega
  | cons_cons field h ih =>
    rw [List.flatten_cons, List.length_append, List.flatten_cons, List.length_append] at hlength
    rw [ih (fun field hfield => hne field (List.mem_cons_of_mem _ hfield)) (by omega)]

/-- Each field as often as in the other list at most, and as many items: the same bag. -/
theorem perm_of_count_le [DecidableEq α] {fields fields' : List (List α)}
    (h : ∀ field, fields.count field ≤ fields'.count field) (hne : ∀ field ∈ fields', field ≠ [])
    (hlength : fields.flatten.length = fields'.flatten.length) : fields.Perm fields' := by
  obtain ⟨sorted, hperm, hsublist⟩ := List.subperm_ext_iff.mpr fun field _ => h field
  have hsorted := eq_of_sublist_of_length_flatten hsublist hne
    (by rw [hperm.flatten.length_eq, hlength])
  exact hperm.symm.trans (hsorted ▸ List.Perm.refl _)

end Apm.Lib
