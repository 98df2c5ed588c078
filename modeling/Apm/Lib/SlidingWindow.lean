import Mathlib.Algebra.Order.Group.Defs
import Mathlib.Algebra.Order.Monoid.Unbundled.Basic
import Mathlib.Data.List.Basic

/-!
# Hits in a sliding window

A bucket holds the times of the hits of one key, oldest first. `slide` drops what has left the
window from its front. Of the hits accepted so far the bucket then holds exactly those that can
still count, and when a hit is accepted only with fewer than `n` of these, no interval of the
length of the window has more than `n`. A difference of times need only be monotone in both
times, as that of two floats is.
-/

namespace Apm.Lib

set_option autoImplicit false

class MonotoneSub (τ : Type) [LE τ] [Sub τ] : Prop where
  sub_mono {a b c d : τ} : a ≤ b → c ≤ d → a - d ≤ b - c

instance {τ : Type} [AddCommGroup τ] [LinearOrder τ] [IsOrderedAddMonoid τ] : MonotoneSub τ where
  sub_mono hab hcd := sub_le_sub hab hcd

namespace SlidingWindow

variable {τ : Type} [LinearOrder τ] [Sub τ]

/-- The bucket from the first hit that has not left the window. -/
def slide (window now : τ) (bucket : List τ) : List τ :=
  bucket.dropWhile fun t => decide (window < now - t)

/-- The hits in the window before `now`. -/
def recent (window now : τ) (hits : List τ) : List τ :=
  hits.filter fun t => decide (now - t ≤ window)

/-- The hits in a closed interval. -/
def between (a b : τ) (hits : List τ) : List τ :=
  hits.filter fun t => decide (a ≤ t ∧ t ≤ b)

/-- No closed interval as long as the window holds more than `n` hits. -/
def Spaced (window : τ) (n : Int) (hits : List τ) : Prop :=
  ∀ a b, b - a ≤ window → ((between a b hits).length : Int) ≤ n

/-- The bucket holds the accepted hits that can count at a time behind all of `past`. -/
structure Keeps (window : τ) (past accepted bucket : List τ) : Prop where
  recent_eq : ∀ now, (∀ t ∈ past, t ≤ now) → recent window now bucket = recent window now accepted
  sorted : bucket.Pairwise (· ≤ ·)
  mem_past : ∀ t ∈ bucket, t ∈ past

variable {window now later : τ} {past accepted bucket hits : List τ}

theorem mem_slide {t : τ} (h : t ∈ slide window now bucket) : t ∈ bucket :=
  (List.dropWhile_suffix _).subset h

theorem recent_append (more : List τ) :
    recent window now (hits ++ more) = recent window now hits ++ recent window now more :=
  List.filter_append _ _

theorem keeps_nil : Keeps window past [] [] where
  recent_eq _ _ := rfl
  sorted := List.Pairwise.nil
  mem_past _ h := by cases h

theorem Keeps.wait (h : Keeps window past accepted bucket) :
    Keeps window (past ++ [now]) accepted bucket where
  recent_eq _ hpast := h.recent_eq _ fun t ht => hpast t (List.mem_append_left _ ht)
  sorted := h.sorted
  mem_past t ht := List.mem_append_left _ (h.mem_past t ht)

theorem spaced_nil {n : Int} (hn : 0 ≤ n) : Spaced window n [] := fun _ _ _ => hn

variable [MonotoneSub τ]

/-- What has left the window is at the front. -/
theorem slide_eq_recent (h : bucket.Pairwise (· ≤ ·)) :
    slide window now bucket = recent window now bucket := by
  induction bucket with
  | nil => rfl
  | cons t bucket ih =>
    obtain ⟨ht, hrest⟩ := List.pairwise_cons.mp h
    by_cases hout : window < now - t
    · rw [slide, List.dropWhile_cons_of_pos (by simpa using hout), recent,
        List.filter_cons_of_neg (by simpa using hout)]
      exact ih hrest
    · have hall : ∀ s ∈ t :: bucket, decide (now - s ≤ window) = true := by
        intro s hs
        have hle : t ≤ s := by
          rcases List.mem_cons.mp hs with rfl | hs
          · exact le_refl s
          · exact ht s hs
        exact decide_eq_true
          (le_trans (MonotoneSub.sub_mono (le_refl now) hle) (not_lt.mp hout))
      rw [slide, List.dropWhile_cons_of_neg (by simpa using hout), recent,
        List.filter_eq_self.mpr hall]

/-- A hit that has left the window does not come back. -/
theorem recent_recent (h : now ≤ later) :
    recent window later (recent window now hits) = recent window later hits := by
  rw [recent, recent, List.filter_filter]
  refine List.filter_congr fun t _ => ?_
  rw [Bool.and_eq_left_iff_imp, decide_eq_true_eq, decide_eq_true_eq]
  exact le_trans (MonotoneSub.sub_mono h (le_refl t))

theorem Keeps.slide_eq (h : Keeps window past accepted bucket) (hpast : ∀ t ∈ past, t ≤ now) :
    slide window now bucket = recent window now accepted := by
  rw [slide_eq_recent h.sorted, h.recent_eq now hpast]

theorem Keeps.slide (h : Keeps window past accepted bucket) (hpast : ∀ t ∈ past, t ≤ now) :
    Keeps window (past ++ [now]) accepted (slide window now bucket) where
  recent_eq later hlater := by
    have hnow : now ≤ later := hlater now (List.mem_append_right _ List.mem_cons_self)
    rw [h.slide_eq hpast, recent_recent hnow]
  sorted := h.sorted.sublist (List.dropWhile_suffix _).sublist
  mem_past t ht := List.mem_append_left _ (h.mem_past t (mem_slide ht))

theorem Keeps.hit (h : Keeps window past accepted bucket) (hpast : ∀ t ∈ past, t ≤ now) :
    Keeps window (past ++ [now]) (accepted ++ [now])
      (SlidingWindow.slide window now bucket ++ [now]) where
  recent_eq later hlater := by
    rw [recent_append, recent_append, (h.slide hpast).recent_eq later hlater]
  sorted := by
    rw [List.pairwise_append]
    refine ⟨(h.slide hpast).sorted, List.pairwise_singleton _ _, fun t ht s hs => ?_⟩
    rw [List.mem_singleton.mp hs]
    exact hpast t (h.mem_past t (mem_slide ht))
  mem_past t ht := by
    rcases List.mem_append.mp ht with ht | ht
    · exact (h.slide hpast).mem_past t ht
    · exact List.mem_append_right _ ht

/-- One more hit fits where fewer than `n` are in the window before it. -/
theorem Spaced.hit {n : Int} (h : Spaced window n accepted)
    (hroom : ((recent window now accepted).length : Int) < n) :
    Spaced window n (accepted ++ [now]) := by
  intro a b hab
  have hsplit : between a b (accepted ++ [now]) = between a b accepted ++ between a b [now] :=
    List.filter_append _ _
  rw [hsplit, List.length_append]
  by_cases hnow : a ≤ now ∧ now ≤ b
  · have hsub : (between a b accepted).Sublist (recent window now accepted) := by
      refine List.monotone_filter_right _ fun t ht => ?_
      rw [decide_eq_true_eq] at ht ⊢
      exact le_trans (MonotoneSub.sub_mono hnow.2 ht.1) hab
    have hle := hsub.length_le
    have hone : (between a b [now]).length ≤ 1 := List.length_filter_le _ _
    omega
  · have hnone : between a b [now] = [] := by
      rw [between, List.filter_cons_of_neg (by simpa using hnow), List.filter_nil]
    rw [hnone, List.length_nil, Nat.add_zero]
    exact h a b hab

end SlidingWindow

end Apm.Lib
