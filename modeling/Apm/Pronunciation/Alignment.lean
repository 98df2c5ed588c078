import Apm.Pronunciation.Gop

/-!
# What an alignment says of the frames

The spans of an alignment are the runs of frames that the best walk spends at each label. They
are there whenever the frames leave room for the targets and for a blank between equal
neighbours; with fewer frames than targets the first targets take one frame each. In between
the table has no score to end in, and no target gets a frame.
-/

namespace Apm.Pronunciation

set_option autoImplicit false

open Apm.Lib

/-! ## The spans of a path -/

/-- A target with frames: its span is from the first to the last of them. -/
theorem spanOf_assigned {frames i : Nat} {path : List Int}
    (h : ∃ f < frames, path[f]? = some (2 * i + 1 : Int)) :
    ∃ first last : Nat, spanOf frames path i = ((first : Int), (last : Int)) ∧ first < frames ∧
      last < frames ∧ path[first]? = some (2 * i + 1 : Int) ∧
      path[last]? = some (2 * i + 1 : Int) ∧
      ∀ f < frames, path[f]? = some (2 * i + 1 : Int) → first ≤ f ∧ f ≤ last := by
  set assigned := (List.range frames).filter fun f => path[f]? = some (2 * i + 1 : Int) with hdef
  have hmem : ∀ f, f ∈ assigned ↔ f < frames ∧ path[f]? = some (2 * i + 1 : Int) := by
    intro f
    rw [hdef, List.mem_filter, List.mem_range, decide_eq_true_iff]
  have hsorted : assigned.Pairwise (· < ·) := List.Pairwise.filter _ List.pairwise_lt_range
  obtain ⟨f, hf, hat⟩ := h
  have hne : assigned ≠ [] := List.ne_nil_of_mem ((hmem f).mpr ⟨hf, hat⟩)
  obtain ⟨first, hfirst⟩ := Option.ne_none_iff_exists'.mp (List.head?_eq_none_iff.not.mpr hne)
  obtain ⟨last, hlast⟩ := Option.ne_none_iff_exists'.mp (List.getLast?_eq_none_iff.not.mpr hne)
  have hfirstMem := (hmem first).mp (List.mem_of_mem_head? hfirst)
  have hlastMem := (hmem last).mp (List.mem_of_mem_getLast? hlast)
  refine ⟨first, last, ?_, hfirstMem.1, hlastMem.1, hfirstMem.2, hlastMem.2, fun f hf hat => ?_⟩
  · rw [spanOf, ← hdef, hfirst, hlast]
  · have hf := (hmem f).mpr ⟨hf, hat⟩
    constructor
    · obtain ⟨rest, hrest⟩ := List.head?_eq_some_iff.mp hfirst
      rw [hrest] at hf hsorted
      obtain rfl | hf := List.mem_cons.mp hf
      · exact le_rfl
      · exact (List.rel_of_pairwise_cons hsorted hf).le
    · obtain ⟨front, hfront⟩ := List.getLast?_eq_some_iff.mp hlast
      rw [hfront] at hf hsorted
      obtain hf | hf := List.mem_append.mp hf
      · exact ((List.pairwise_append.mp hsorted).2.2 f hf last (List.mem_singleton_self _)).le
      · exact (List.mem_singleton.mp hf).le

/-- A target without frames has an empty span. -/
theorem spanOf_unassigned {frames i : Nat} {path : List Int}
    (h : ∀ f < frames, path[f]? ≠ some (2 * i + 1 : Int)) :
    spanOf frames path i = ((frames : Int), (frames : Int) - 1) := by
  have hnil : ((List.range frames).filter fun f => path[f]? = some (2 * i + 1 : Int)) = [] :=
    List.filter_eq_nil_iff.mpr fun f hf => by simpa using h f (List.mem_range.mp hf)
  rw [spanOf, hnil]
  rfl

variable {G : Type} [AddCommGroup G] [LinearOrder G]
variable {logProbs : List (List G)} {targetIds : List Nat} {blank : Nat}

/-! ## The end of the table -/

/-- The position that the path ends in. -/
def endPosition (targetIds : List Nat) (last : List (Cell G)) : Nat :=
  if scoreAt last (2 * targetIds.length - 1) ≤ scoreAt last (2 * targetIds.length)
  then 2 * targetIds.length else 2 * targetIds.length - 1

omit [AddCommGroup G] in
theorem endPosition_cases (hn : 1 ≤ targetIds.length) (last : List (Cell G)) :
    endPosition targetIds last ≤ 2 * targetIds.length ∧
      (endPosition targetIds last + 1) / 2 = targetIds.length := by
  rw [endPosition]
  split_ifs <;> omega

omit [AddCommGroup G] in
/-- It is the better of the two that hold all the targets. -/
theorem le_endPosition (last : List (Cell G)) {s : Nat} (hs : s ≤ 2 * targetIds.length)
    (hall : (s + 1) / 2 = targetIds.length) :
    scoreAt last s ≤ scoreAt last (endPosition targetIds last) := by
  obtain rfl | hs : s = 2 * targetIds.length ∨ s = 2 * targetIds.length - 1 := by omega
  · rw [endPosition]
    split_ifs with h
    · exact le_rfl
    · exact (not_le.mp h).le
  · rw [hs, endPosition]
    split_ifs with h
    · exact h
    · exact le_rfl

theorem forcedAlign_eq [IsOrderedAddMonoid G] {last : Nat}
    (hcovers : ∀ row ∈ logProbs, Covers targetIds blank row) (hn : 1 ≤ targetIds.length)
    (hlast : logProbs.length = last + 1) (hframes : targetIds.length ≤ last + 1) :
    ∃ rows, IsTable targetIds blank logProbs rows ∧
      forcedAlign logProbs targetIds blank =
        (backtrack rows (last + 1) (endPosition targetIds (rows.getD last []))).map fun path =>
          (List.range targetIds.length).map (spanOf (last + 1) path) := by
  obtain ⟨rows, hrows, htable⟩ := trellisRows_isTable hn (by omega) hcovers
  obtain ⟨hrow, hwidth⟩ := htable.row (show last < logProbs.length by omega)
  refine ⟨rows, htable, ?_⟩
  have hfinal := getElem?_row (show 2 * targetIds.length < _ by rw [hwidth]; omega)
  have hlabel := getElem?_row (show 2 * targetIds.length - 1 < _ by rw [hwidth]; omega)
  rw [forcedAlign, if_neg (by omega), if_neg (by omega)]
  simp only [hrows, hlast, Nat.add_sub_cancel, hrow, length_extended, hfinal,
    show 2 * targetIds.length + 1 - 2 = 2 * targetIds.length - 1 by omega, hlabel,
    Option.bind_eq_bind, Option.bind_some]
  rw [← endPosition]
  cases backtrack rows (last + 1) (endPosition targetIds (rows.getD last [])) <;> rfl

/-- What the frames pay for a labelling. -/
def total (logProbs : List (List G)) (labels : List Nat) : G :=
  ∑ f ∈ Finset.range logProbs.length, emission logProbs f (labels.getD f 0)

omit [LinearOrder G] in
theorem total_walkLabels {last : Nat} (hlast : logProbs.length = last + 1) (path : Nat → Nat) :
    total logProbs (walkLabels blank targetIds path (last + 1)) =
      (ctcTrellis blank targetIds (emission logProbs)).score last path := by
  rw [total, Trellis.score, hlast]
  refine Finset.sum_congr rfl fun f hf => congrArg _ ?_
  rw [walkLabels, List.getD_eq_getElem _ _ (by simpa using hf), List.getElem_map,
    List.getElem_range]

/-- A labelling that collapses to the targets scores no more than the end of the table. -/
theorem IsTable.total_le [IsOrderedAddMonoid G] {rows : List (List (Cell G))} {last : Nat}
    (h : IsTable targetIds blank logProbs rows) (hn : 1 ≤ targetIds.length)
    (hlast : logProbs.length = last + 1) {labels : List Nat}
    (hlen : labels.length = last + 1) (hcollapse : collapse blank labels = targetIds) :
    ((total logProbs labels : G) : WithBot G) ≤
      scoreAt (rows.getD last []) (endPosition targetIds (rows.getD last [])) := by
  have hrange : (List.range (last + 1)).map (fun f => labels.getD f 0) = labels := by
    refine List.ext_getElem (by rw [List.length_map, List.length_range, hlen]) fun f _ hf => ?_
    rw [List.getElem_map, List.getElem_range, List.getD_eq_getElem _ _ hf]
  obtain ⟨path, hwalk, hall, hpath⟩ := exists_walk_of_collapse (emission logProbs)
    (m := targetIds.length) le_rfl (fun f => labels.getD f 0)
    (by rw [hrange, hcollapse, List.take_length])
  have hlabels : walkLabels blank targetIds path (last + 1) = labels := by
    rw [← hrange]
    exact List.map_congr_left fun f hf => hpath f (Nat.le_of_lt_succ (List.mem_range.mp hf))
  rw [← hlabels, total_walkLabels hlast]
  exact ((h.isViterbi hn).score_le (by omega) hwalk).trans
    (le_endPosition _ hwalk.le hall)

/-- A score at a position that holds all the targets has its labelling behind it. -/
theorem IsTable.room [IsOrderedAddMonoid G] {rows : List (List (Cell G))}
    (h : IsTable targetIds blank logProbs rows) (hn : 1 ≤ targetIds.length)
    (hblank : blank ∉ targetIds) {f s : Nat} (hf : f < logProbs.length)
    (hs : s ≤ 2 * targetIds.length) (hall : (s + 1) / 2 = targetIds.length)
    (hfinite : scoreAt (rows.getD f []) s ≠ ⊥) :
    targetIds.length + repeats targetIds ≤ f + 1 := by
  obtain ⟨path, rfl, hwalk, -, -⟩ := h.backtrack_walk hn hf hs hfinite
  have hcollapse := hwalk.collapse_eq hblank
  rw [hall, List.take_length] at hcollapse
  exact (exists_collapse_iff hblank (f + 1)).mp
    ⟨walkLabels blank targetIds path (f + 1), by rw [walkLabels, List.length_map, List.length_range],
      hcollapse⟩

/-! ## With room for the targets -/

/-- The label that the spans give a frame: that of the target whose span holds it. -/
def spanLabel (targetIds : List Nat) (blank : Nat) (spans : List (Int × Int)) (f : Nat) : Nat :=
  match (spans.zip targetIds).find? fun p => p.1.1 ≤ (f : Int) ∧ (f : Int) ≤ p.1.2 with
  | some p => p.2
  | none => blank

/-- The frames labelled by the spans, blank elsewhere. -/
def spanLabels (targetIds : List Nat) (blank : Nat) (spans : List (Int × Int)) (frames : Nat) :
    List Nat :=
  (List.range frames).map (spanLabel targetIds blank spans)

/-- The frames that a path spends at target `i` are those from `first i` to `final i`. -/
structure Bounds (n frames : Nat) (path : Nat → Nat) (first final : Nat → Nat) : Prop where
  ordered : ∀ i < n, first i ≤ final i
  within : ∀ i < n, final i < frames
  exact : ∀ i < n, ∀ f < frames, path f = 2 * i + 1 ↔ first i ≤ f ∧ f ≤ final i

theorem path_getElem? {path : Nat → Nat} {frames f i : Nat} :
    ((List.range frames).map fun f => (path f : Int))[f]? = some (2 * i + 1 : Int) ↔
      f < frames ∧ path f = 2 * i + 1 := by
  rw [List.getElem?_map]
  by_cases hf : f < frames
  · rw [List.getElem?_range hf, Option.map_some, Option.some_inj]
    omega
  · rw [List.getElem?_eq_none (by rw [List.length_range]; omega)]
    simp [hf]

omit [LinearOrder G] in
/-- A walk over all the targets spends a run of frames at each. -/
theorem exists_bounds {last : Nat} {path : Nat → Nat}
    (hwalk : (ctcTrellis blank targetIds (emission logProbs)).IsWalk last path)
    (hall : (path last + 1) / 2 = targetIds.length) :
    ∃ first final, Bounds targetIds.length (last + 1) path first final ∧
      ∀ i < targetIds.length,
        spanOf (last + 1) ((List.range (last + 1)).map fun f => (path f : Int)) i =
          ((first i : Int), (final i : Int)) := by
  have hspans : ∀ i < targetIds.length, ∃ first final : Nat,
      spanOf (last + 1) ((List.range (last + 1)).map fun f => (path f : Int)) i =
        ((first : Int), (final : Int)) ∧ first ≤ final ∧ final < last + 1 ∧
      ∀ f < last + 1, path f = 2 * i + 1 ↔ first ≤ f ∧ f ≤ final := by
    intro i hi
    obtain ⟨f, hf, hat⟩ := hwalk.enters (i := i) (by omega)
    have hspan := spanOf_assigned ⟨f, Nat.lt_succ_of_le hf,
      path_getElem?.mpr ⟨Nat.lt_succ_of_le hf, hat⟩⟩
    obtain ⟨first, final, hspan, hfirst, hfinal, hatFirst, hatFinal, hbetween⟩ := hspan
    have hatFirst := (path_getElem?.mp hatFirst).2
    have hatFinal := (path_getElem?.mp hatFinal).2
    refine ⟨first, final, hspan, ?_, hfinal, fun g hg => ⟨fun hpath => ?_, fun hin => ?_⟩⟩
    · have := hbetween f (Nat.lt_succ_of_le hf) (path_getElem?.mpr ⟨Nat.lt_succ_of_le hf, hat⟩)
      omega
    · exact hbetween g hg (path_getElem?.mpr ⟨hg, hpath⟩)
    · have hlow := hwalk.mono hin.1 (Nat.le_of_lt_succ hg)
      have hhigh := hwalk.mono hin.2 (Nat.le_of_lt_succ hfinal)
      omega
  choose! first final hspan hordered hwithin hexact using hspans
  exact ⟨first, final, ⟨hordered, hwithin, hexact⟩, hspan⟩

omit [LinearOrder G] in
theorem Bounds.lt {last : Nat} {path first final : Nat → Nat}
    (h : Bounds targetIds.length (last + 1) path first final)
    (hwalk : (ctcTrellis blank targetIds (emission logProbs)).IsWalk last path) {i j : Nat}
    (hij : i < j) (hj : j < targetIds.length) : final i < first j := by
  by_contra hle
  have hi : i < targetIds.length := by omega
  have hordered := h.ordered j hj
  have hwithin := h.within j hj
  have hfinal := (h.exact i hi (final i) (h.within i hi)).mpr ⟨h.ordered i hi, le_rfl⟩
  have hfirst := (h.exact j hj (first j) (by omega)).mpr ⟨le_rfl, hordered⟩
  have hmono := hwalk.mono (show first j ≤ final i by omega) (Nat.le_of_lt_succ (h.within i hi))
  omega

/-- The labels that the spans give are those of the walk. -/
theorem Bounds.spanLabels_eq {frames : Nat} {path first final : Nat → Nat}
    (h : Bounds targetIds.length frames path first final) (blank : Nat)
    (hle : ∀ f < frames, path f ≤ 2 * targetIds.length) :
    spanLabels targetIds blank
        ((List.range targetIds.length).map fun i => ((first i : Int), (final i : Int))) frames =
      walkLabels blank targetIds path frames := by
  refine List.map_congr_left fun f hf => ?_
  have hf := List.mem_range.mp hf
  rw [spanLabel]
  split
  next p hfound =>
    have hin := List.find?_some hfound
    obtain ⟨i, hi, rfl⟩ := List.getElem_of_mem (List.mem_of_find?_eq_some hfound)
    have hi' : i < targetIds.length := by simpa using hi
    simp only [List.getElem_zip, List.getElem_map, List.getElem_range, decide_eq_true_eq] at hin ⊢
    have hpath := (h.exact i hi' f hf).mpr ⟨by omega, by omega⟩
    rw [hpath, positionLabel_odd hi']
  next hnone =>
    obtain ⟨i, hi | hi⟩ : ∃ i, path f = 2 * i ∨ path f = 2 * i + 1 := ⟨path f / 2, by omega⟩
    · rw [hi, positionLabel_even]
    · have hi' : i < targetIds.length := by have := hle f hf; omega
      have hin := (h.exact i hi' f hf).mp hi
      have hmem : (((first i : Int), (final i : Int)), targetIds[i]) ∈
          ((List.range targetIds.length).map fun i => ((first i : Int), (final i : Int))).zip
            targetIds :=
        List.mem_of_getElem (i := i) (h := by simpa using hi') (by simp)
      have := List.find?_eq_none.mp hnone _ hmem
      simp only [decide_eq_true_eq] at this
      omega

/-- With room for the targets and for a blank between equal neighbours, there is one span for
each target, they are in order and apart, and no labelling that collapses to the targets scores
more than the one that they give. -/
theorem forcedAlign_optimal [IsOrderedAddMonoid G] (logProbs : List (List G))
    (targetIds : List Nat) (blank : Nat)
    (hcovers : ∀ row ∈ logProbs, Covers targetIds blank row) (hblank : blank ∉ targetIds)
    (hn : 1 ≤ targetIds.length)
    (hframes : targetIds.length + repeats targetIds ≤ logProbs.length) :
    ∃ spans, forcedAlign logProbs targetIds blank = some spans ∧
      spans.length = targetIds.length ∧
      (∀ span ∈ spans, 0 ≤ span.1 ∧ span.1 ≤ span.2 ∧ span.2 < logProbs.length) ∧
      spans.Pairwise (fun a b => a.2 < b.1) ∧
      collapse blank (spanLabels targetIds blank spans logProbs.length) = targetIds ∧
      ∀ labels : List Nat, labels.length = logProbs.length → collapse blank labels = targetIds →
        total logProbs labels ≤
          total logProbs (spanLabels targetIds blank spans logProbs.length) := by
  obtain ⟨last, hlast⟩ : ∃ last, logProbs.length = last + 1 := ⟨logProbs.length - 1, by omega⟩
  obtain ⟨rows, htable, hrun⟩ := forcedAlign_eq hcovers hn hlast (by omega)
  obtain ⟨hle, hall⟩ := endPosition_cases hn (rows.getD last [])
  -- some labelling fits, so the end of the table has a score
  have hfinite : scoreAt (rows.getD last []) (endPosition targetIds (rows.getD last [])) ≠ ⊥ := by
    obtain ⟨labels, hlen, hcollapse⟩ := (exists_collapse_iff hblank _).mpr hframes
    have hbelow := htable.total_le hn hlast (hlen.trans hlast) hcollapse
    exact ((WithBot.bot_lt_coe _).trans_le hbelow).ne'
  obtain ⟨path, hpath, hwalk, hscore, hback⟩ := htable.backtrack_walk hn (by omega) hle hfinite
  obtain ⟨first, final, hbounds, hspan⟩ := exists_bounds hwalk (hpath ▸ hall)
  have hspans : (List.range targetIds.length).map
        (spanOf (last + 1) ((List.range (last + 1)).map fun f => (path f : Int))) =
      (List.range targetIds.length).map fun i => ((first i : Int), (final i : Int)) :=
    List.map_congr_left fun i hi => hspan i (List.mem_range.mp hi)
  have hlabels := hbounds.spanLabels_eq blank fun f hf =>
    (hwalk.mono (Nat.le_of_lt_succ hf) le_rfl).trans hwalk.le
  rw [hback, Option.map_some, hspans] at hrun
  refine ⟨_, hrun, by rw [List.length_map, List.length_range], fun span hspan => ?_, ?_, ?_,
    fun labels hlen hcollapse => ?_⟩
  · obtain ⟨i, hi, rfl⟩ := List.mem_map.mp hspan
    have hordered := hbounds.ordered i (List.mem_range.mp hi)
    have hwithin := hbounds.within i (List.mem_range.mp hi)
    exact ⟨by omega, by omega, by omega⟩
  · refine List.pairwise_map.mpr (List.pairwise_lt_range.imp_of_mem fun {i j} hi hj hij => ?_)
    have := hbounds.lt hwalk hij (List.mem_range.mp hj)
    omega
  · rw [hlast, hlabels, hwalk.collapse_eq hblank, hpath, hall, List.take_length]
  · have hbelow := htable.total_le hn hlast (hlen.trans hlast) hcollapse
    rw [hscore, WithBot.coe_le_coe] at hbelow
    rwa [hlast, hlabels, total_walkLabels hlast]

/-- Two equal targets over four frames. -/
theorem forcedAlign_optimal_repeated :
    ∃ spans, forcedAlign ([[0, -9], [-9, 0], [0, -9], [-9, 0]] : List (List Int)) [1, 1] 0 =
      some spans ∧ spans.length = 2 := by
  obtain ⟨spans, hrun, hlen, -⟩ :=
    forcedAlign_optimal ([[0, -9], [-9, 0], [0, -9], [-9, 0]] : List (List Int)) [1, 1] 0
      (by simp [Covers]) (by decide) (by decide) (by decide)
  exact ⟨spans, hrun, hlen⟩

/-! ## Without -/

/-- What is promised of the spans for any number of frames: one for each target, the empty ones
last, and one for the first target as soon as there is a frame. -/
structure Degrades (frames n : Nat) (spans : List (Int × Int)) : Prop where
  count : spans.length = n
  emptyLast : ∀ (i j : Nat) (a b : Int × Int), i ≤ j → spans[i]? = some a → spans[j]? = some b →
    a.2 < a.1 → b.2 < b.1
  first : 1 ≤ frames → ∀ a : Int × Int, spans[0]? = some a → a.1 ≤ a.2

/-- With fewer frames than targets, the first targets take a frame each. -/
theorem forcedAlign_few (h : logProbs.length < targetIds.length) :
    ∃ spans, forcedAlign logProbs targetIds blank = some spans ∧
      Degrades logProbs.length targetIds.length spans := by
  set frames := logProbs.length with hframes
  set n := targetIds.length with hn
  let front := (List.range (min frames n)).map fun i : Nat => ((i : Int), (i : Int))
  have hlen : front.length = frames := by
    rw [List.length_map, List.length_range]
    omega
  have hget : ∀ i,
      (front ++ List.replicate (n - front.length) ((frames : Int), (frames : Int) - 1))[i]? =
        if i < frames then some ((i : Int), (i : Int))
        else if i < n then some ((frames : Int), (frames : Int) - 1) else none := by
    intro i
    by_cases hi : i < frames
    · rw [if_pos hi, List.getElem?_append_left (by omega), List.getElem?_map,
        List.getElem?_range (by omega)]
      rfl
    · rw [if_neg hi, List.getElem?_append_right (by omega), List.getElem?_replicate, hlen]
      congr 1
      exact propext ⟨fun h => by omega, fun h => by omega⟩
  refine ⟨front ++ List.replicate (n - front.length) ((frames : Int), (frames : Int) - 1), ?_, ?_, ?_,
    ?_⟩
  · rw [forcedAlign, if_neg (by omega), if_pos h]
  · rw [List.length_append, List.length_replicate, hlen]
    omega
  · intro i j a b hij ha hb hempty
    rw [hget] at ha hb
    split_ifs at ha with hi hin
    · simp only [Option.some_inj] at ha
      rw [← ha] at hempty
      exact absurd hempty (lt_irrefl _)
    · rw [if_neg (by omega)] at hb
      split_ifs at hb with hj
      simp only [Option.some_inj] at hb
      rw [← hb]
      exact sub_one_lt _
  · intro hpos a ha
    rw [hget, if_pos (show 0 < frames from hpos), Option.some_inj] at ha
    rw [← ha]

theorem length_pos_of_lt {frames : Nat} (h : frames < targetIds.length + repeats targetIds) :
    0 < targetIds.length := by
  cases targetIds with
  | nil => exact absurd h (Nat.not_lt_zero frames)
  | cons t rest => exact Nat.succ_pos _

/-- Where the table has no score to end in, no target gets a frame. -/
theorem forcedAlign_stuck [IsOrderedAddMonoid G]
    (hcovers : ∀ row ∈ logProbs, Covers targetIds blank row) (hblank : blank ∉ targetIds)
    (hframes : targetIds.length ≤ logProbs.length)
    (hroom : logProbs.length < targetIds.length + repeats targetIds) :
    forcedAlign logProbs targetIds blank = some (List.replicate targetIds.length
      ((logProbs.length : Int), (logProbs.length : Int) - 1)) := by
  have hn := length_pos_of_lt hroom
  obtain ⟨last, hlast⟩ : ∃ last, logProbs.length = last + 1 := ⟨logProbs.length - 1, by omega⟩
  obtain ⟨rows, htable, hrun⟩ := forcedAlign_eq hcovers hn hlast (by omega)
  have hbot : ∀ f < logProbs.length, ∀ s ≤ 2 * targetIds.length,
      (s + 1) / 2 = targetIds.length → scoreAt (rows.getD f []) s = ⊥ := by
    intro f hf s hs hall
    by_contra hfinite
    have := htable.room hn hblank hf hs hall hfinite
    omega
  have hsource : ∀ f < logProbs.length, sourceAt (rows.getD f []) (2 * targetIds.length) = -1 := by
    intro f hf
    cases f with
    | zero => exact htable.first.origin _
    | succ f => exact (htable.next f hf).missing _ (hbot _ hf _ le_rfl (by omega))
  have hend : endPosition targetIds (rows.getD last []) = 2 * targetIds.length := by
    rw [endPosition, hbot last (by omega) _ le_rfl (by omega),
      hbot last (by omega) _ (by omega) (by omega), if_pos le_rfl]
  rw [hend, htable.backtrack_succ (by omega) le_rfl, hsource last (by omega),
    htable.backtrack_stuck hsource (by omega), Option.map_some, Option.map_some] at hrun
  have hempty : ∀ i, spanOf (last + 1)
      (List.replicate last (-1) ++ [((2 * targetIds.length : Nat) : Int)]) i =
        (((last + 1 : Nat) : Int), ((last + 1 : Nat) : Int) - 1) := by
    refine fun i => spanOf_unassigned fun f hf hat => ?_
    have hmem := List.mem_of_getElem? hat
    rw [List.mem_append, List.mem_replicate, List.mem_singleton] at hmem
    omega
  rw [hrun, hlast, List.map_congr_left fun i _ => hempty i, List.map_const', List.length_range]

/-- The spans degrade as promised unless the frames are enough for the targets alone and not for
the blanks that equal neighbours take between them. -/
theorem forcedAlign_degrades_iff [IsOrderedAddMonoid G] (logProbs : List (List G))
    (targetIds : List Nat) (blank : Nat)
    (hcovers : ∀ row ∈ logProbs, Covers targetIds blank row) (hblank : blank ∉ targetIds) :
    (∃ spans, forcedAlign logProbs targetIds blank = some spans ∧
        Degrades logProbs.length targetIds.length spans) ↔
      ¬ (targetIds.length ≤ logProbs.length ∧
        logProbs.length < targetIds.length + repeats targetIds) := by
  constructor
  · rintro ⟨spans, hrun, hdegrades⟩ ⟨hframes, hroom⟩
    rw [forcedAlign_stuck hcovers hblank hframes hroom, Option.some_inj] at hrun
    have hn := length_pos_of_lt hroom
    have hfirst := hdegrades.first (by omega) ((logProbs.length : Int), (logProbs.length : Int) - 1)
      (by rw [← hrun, List.getElem?_replicate, if_pos hn])
    exact absurd hfirst (not_le.mpr (sub_one_lt _))
  · intro hroom
    by_cases hzero : targetIds.length = 0
    · refine ⟨[], by rw [forcedAlign, if_pos hzero], hzero.symm, ?_, ?_⟩
      · exact fun i j a b _ ha => by simp at ha
      · exact fun _ a ha => by simp at ha
    · by_cases hfew : logProbs.length < targetIds.length
      · exact forcedAlign_few hfew
      · obtain ⟨spans, hrun, hlen, hspans, -⟩ := forcedAlign_optimal logProbs targetIds blank hcovers
          hblank (by omega) (by omega)
        have hnonempty (i : Nat) (a : Int × Int) (ha : spans[i]? = some a) : a.1 ≤ a.2 :=
          (hspans a (List.mem_of_getElem? ha)).2.1
        exact ⟨spans, hrun, hlen, fun i j a b _ ha _ hempty =>
          absurd (hnonempty i a ha) (not_le.mpr hempty), fun _ a ha => hnonempty 0 a ha⟩

/-- One frame for two targets: the first one has it. -/
theorem forcedAlign_degrades_one_frame :
    ∃ spans, forcedAlign ([[0, -9, -9]] : List (List Int)) [1, 2] 0 = some spans ∧
      Degrades 1 2 spans :=
  (forcedAlign_degrades_iff ([[0, -9, -9]] : List (List Int)) [1, 2] 0 (by simp [Covers])
    (by decide)).mpr (by decide)

/-- Two frames for the same target twice: the blank between them takes a third one, and neither
of the two has a frame. -/
theorem two_frames_no_span :
    ¬ ∃ spans, forcedAlign ([[0, -9], [-9, 0]] : List (List Int)) [1, 1] 0 = some spans ∧
      Degrades 2 2 spans := by
  rintro ⟨spans, hrun, hdegrades⟩
  have hstuck : forcedAlign ([[0, -9], [-9, 0]] : List (List Int)) [1, 1] 0 =
      some [(2, 1), (2, 1)] := by decide
  rw [hstuck, Option.some_inj] at hrun
  have hfirst := hdegrades.first (by decide) (2, 1) (by rw [← hrun]; rfl)
  exact absurd hfirst (by decide)

end Apm.Pronunciation
