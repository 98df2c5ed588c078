import Mathlib.Data.Fintype.Basic
import Mathlib.Data.Finset.Card
import Mathlib.Data.List.Infix

/-!
# Tags in a text

A family of tags: all of one length, different for different indices, each with the mark in front.
Few of them occur in a text that was there before the tag was drawn: where a tag stands, the text
tells which one it is, and it stands at a mark.
-/

namespace Apm.Lib

set_option autoImplicit false

variable {ι α : Type} {tag : ι → List α} {mark : α} {text : List α} {i j : ι}

structure Tags (tag : ι → List α) (mark : α) : Prop where
  injective : Function.Injective tag
  length : ∀ i j, (tag i).length = (tag j).length
  head : ∀ i, (tag i).head? = some mark

namespace Tags

theorem ne_nil (h : Tags tag mark) (i : ι) : tag i ≠ [] := by
  intro hnil
  have hhead := h.head i
  rw [hnil] at hhead
  cases hhead

theorem mem (h : Tags tag mark) (i : ι) : mark ∈ tag i := List.mem_of_head? (h.head i)

/-- One tag stands at the front of a text. -/
theorem eq_of_prefix (h : Tags tag mark) (hi : tag i <+: text) (hj : tag j <+: text) : i = j :=
  h.injective ((List.prefix_of_prefix_length_le hi hj (h.length i j).le).eq_of_length (h.length i j))

theorem eq_mark_of_prefix {c : α} (h : Tags tag mark) (hi : tag i <+: c :: text) : c = mark := by
  obtain ⟨rest, hrest⟩ := hi
  have hhead := h.head i
  rw [← List.head?_append_of_ne_nil _ (h.ne_nil i), hrest, List.head?_cons] at hhead
  exact Option.some.inj hhead

variable [Fintype ι] [DecidableEq α]

theorem card_prefix_le (h : Tags tag mark) (c : α) (text : List α) :
    (Finset.univ.filter fun i => tag i <+: c :: text).card ≤ if c = mark then 1 else 0 := by
  split_ifs with hc
  · refine Finset.card_le_one.mpr fun i hi j hj => ?_
    exact h.eq_of_prefix (Finset.mem_filter.mp hi).2 (Finset.mem_filter.mp hj).2
  · refine (Finset.card_eq_zero.mpr (Finset.filter_eq_empty_iff.mpr fun i _ hi => ?_)).le
    exact hc (h.eq_mark_of_prefix hi)

/-- **In a text no more of the tags occur than marks.** -/
theorem card_infix_le_count [DecidableEq ι] (h : Tags tag mark) (text : List α) :
    (Finset.univ.filter fun i => tag i <:+: text).card ≤ text.count mark := by
  induction text with
  | nil =>
    refine (Finset.card_eq_zero.mpr (Finset.filter_eq_empty_iff.mpr fun i _ hi => ?_)).le
    exact h.ne_nil i (List.infix_nil.mp hi)
  | cons c text ih =>
    have hsplit : (Finset.univ.filter fun i => tag i <:+: c :: text) ⊆
        (Finset.univ.filter fun i => tag i <+: c :: text) ∪
          Finset.univ.filter fun i => tag i <:+: text := by
      intro i hi
      rw [Finset.mem_union, Finset.mem_filter, Finset.mem_filter]
      exact (List.infix_cons_iff.mp (Finset.mem_filter.mp hi).2).imp
        (⟨Finset.mem_univ i, ·⟩) (⟨Finset.mem_univ i, ·⟩)
    calc (Finset.univ.filter fun i => tag i <:+: c :: text).card
      _ ≤ (Finset.univ.filter fun i => tag i <+: c :: text).card +
          (Finset.univ.filter fun i => tag i <:+: text).card :=
        (Finset.card_le_card hsplit).trans (Finset.card_union_le _ _)
      _ ≤ (if c = mark then 1 else 0) + text.count mark :=
        Nat.add_le_add (h.card_prefix_le c text) ih
      _ = (c :: text).count mark := by
        rw [List.count_cons, Nat.add_comm]
        simp only [beq_iff_eq]

end Tags

end Apm.Lib
