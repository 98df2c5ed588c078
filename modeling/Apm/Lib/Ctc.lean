import Apm.Lib.Trellis

/-!
# Label sequences that collapse to a target

A labelling of the frames collapses to the sequence that is left when repeated labels are
merged and the blanks dropped. The labellings that collapse to a target are those of the walks
through the trellis of its positions, `blank, t₀, blank, t₁, …, blank`: a walk stays, advances
by one position, or skips a blank between two distinct labels.
-/

namespace Apm.Lib

set_option autoImplicit false

variable {α G : Type} [DecidableEq α]

/-! ## Collapsing -/

/-- Repeated labels are merged, then the blanks are dropped. -/
def collapse (blank : α) (labels : List α) : List α :=
  (labels.destutter (· ≠ ·)).filter (· ≠ blank)

theorem destutter'_concat (a b : α) (labels : List α) :
    (labels ++ [b]).destutter' (· ≠ ·) a =
      if (a :: labels).getLast (List.cons_ne_nil _ _) = b then labels.destutter' (· ≠ ·) a
      else labels.destutter' (· ≠ ·) a ++ [b] := by
  induction labels generalizing a with
  | nil =>
    by_cases h : a = b <;> simp [h]
  | cons c rest ih =>
    rw [List.cons_append, List.getLast_cons (List.cons_ne_nil _ _)]
    by_cases h : a = c
    · subst h
      rw [List.destutter'_cons_neg _ (not_not.mpr rfl), List.destutter'_cons_neg _ (not_not.mpr rfl)]
      exact ih a
    · rw [List.destutter'_cons_pos _ h, List.destutter'_cons_pos _ h, ih c]
      split_ifs <;> rfl

theorem collapse_singleton (blank b : α) :
    collapse blank [b] = if b = blank then [] else [b] := by
  by_cases h : b = blank <;> simp [collapse, h]

/-- A label adds itself unless it repeats the one before it or is blank. -/
theorem collapse_concat (blank a b : α) (labels : List α) :
    collapse blank (labels ++ [a] ++ [b]) =
      if a = b ∨ b = blank then collapse blank (labels ++ [a])
      else collapse blank (labels ++ [a]) ++ [b] := by
  have hdestutter : (labels ++ [a] ++ [b]).destutter (· ≠ ·) =
      if a = b then (labels ++ [a]).destutter (· ≠ ·)
      else (labels ++ [a]).destutter (· ≠ ·) ++ [b] := by
    cases labels with
    | nil => exact destutter'_concat a b []
    | cons c rest =>
      simp only [List.cons_append, List.destutter_cons']
      rw [destutter'_concat c b (rest ++ [a])]
      simp
  rw [collapse, hdestutter, collapse]
  by_cases hab : a = b
  · rw [if_pos hab, if_pos (.inl hab)]
  · by_cases hb : b = blank
    · rw [if_neg hab, if_pos (.inr hb), List.filter_append]
      simp [hb]
    · rw [if_neg hab, if_neg (not_or.mpr ⟨hab, hb⟩), List.filter_append]
      simp [hb]

/-! ## How many labels a target takes -/

/-- The number of equal neighbours. -/
def repeats : List α → Nat
  | [] => 0
  | [_] => 0
  | a :: b :: rest => (if a = b then 1 else 0) + repeats (b :: rest)

theorem repeats_concat (labels : List α) (b : α) :
    repeats (labels ++ [b]) = repeats labels + if labels.getLast? = some b then 1 else 0 := by
  induction labels with
  | nil => rfl
  | cons a rest ih =>
    cases rest with
    | nil => simp [repeats]
    | cons c rest =>
      rw [List.cons_append, List.cons_append, repeats, ← List.cons_append, ih, repeats,
        List.getLast?_cons_cons, Nat.add_assoc]

/-- A label that is not blank is the last one of what is left. -/
theorem getLast?_collapse_concat (blank a : α) (labels : List α) (ha : a ≠ blank) :
    (collapse blank (labels ++ [a])).getLast? = some a := by
  induction labels using List.reverseRecOn with
  | nil => simp [collapse_singleton, ha]
  | append_singleton labels c ih =>
    rw [collapse_concat]
    split_ifs with h
    · obtain rfl := h.resolve_right ha
      exact ih
    · exact List.getLast?_concat

/-- Each label left takes a label, and each repeat a blank before it. -/
theorem length_add_repeats_le (blank : α) (labels : List α) :
    (collapse blank labels).length + repeats (collapse blank labels) +
      (if labels.getLast? = some blank then 1 else 0) ≤ labels.length := by
  induction labels using List.reverseRecOn with
  | nil => simp [collapse, repeats]
  | append_singleton labels b ih =>
    rw [List.getLast?_concat, List.length_append, List.length_singleton]
    cases labels using List.reverseRecOn with
    | nil =>
      rw [List.nil_append, collapse_singleton]
      split_ifs <;> simp_all [repeats]
    | append_singleton labels a =>
      rw [List.getLast?_concat] at ih
      rw [collapse_concat]
      by_cases hsame : a = b ∨ b = blank
      · rw [if_pos hsame]
        by_cases hab : a = b
        · rw [hab] at ih ⊢
          omega
        · split_ifs at ih ⊢ <;> omega
      · obtain ⟨hab, hb⟩ := not_or.mp hsame
        rw [if_neg hsame, List.length_append, List.length_singleton, repeats_concat,
          if_neg (Option.some_injective _ |>.ne hb)]
        by_cases hlast : (collapse blank (labels ++ [a])).getLast? = some b
        · -- the repeated label comes after a blank
          have ha : a = blank := by
            by_contra ha
            rw [getLast?_collapse_concat blank a labels ha] at hlast
            exact hab (Option.some_injective _ hlast)
          rw [if_pos (congrArg some ha)] at ih
          rw [if_pos hlast]
          omega
        · rw [if_neg hlast]
          omega

/-- The target with a blank between equal neighbours. -/
def separate (blank : α) : List α → List α
  | [] => []
  | [a] => [a]
  | a :: b :: rest =>
    if a = b then a :: blank :: separate blank (b :: rest) else a :: separate blank (b :: rest)

theorem length_separate (blank : α) (targets : List α) :
    (separate blank targets).length = targets.length + repeats targets := by
  induction targets with
  | nil => rfl
  | cons a rest ih =>
    cases rest with
    | nil => rfl
    | cons b rest =>
      rw [separate, repeats, List.length_cons (a := a)]
      split_ifs
      · rw [List.length_cons, List.length_cons, ih]
        omega
      · rw [List.length_cons, ih]
        omega

theorem separate_cons (blank a : α) (rest : List α) :
    ∃ tail, separate blank (a :: rest) = a :: tail := by
  cases rest with
  | nil => exact ⟨_, rfl⟩
  | cons b rest =>
    rw [separate]
    split_ifs
    · exact ⟨_, rfl⟩
    · exact ⟨_, rfl⟩

theorem isChain_separate {blank : α} {targets : List α} (h : blank ∉ targets) :
    (separate blank targets).IsChain (· ≠ ·) := by
  induction targets with
  | nil => exact List.isChain_nil
  | cons a rest ih =>
    cases rest with
    | nil => exact List.isChain_singleton a
    | cons b rest =>
      have ha : blank ≠ a := List.ne_of_not_mem_cons h
      have hrest := List.not_mem_of_not_mem_cons h
      have hb : blank ≠ b := List.ne_of_not_mem_cons hrest
      have hchain := ih hrest
      obtain ⟨tail, htail⟩ := separate_cons blank b rest
      rw [separate]
      rw [htail] at hchain ⊢
      split_ifs with hab
      · exact List.isChain_cons_cons.mpr ⟨Ne.symm ha, List.isChain_cons_cons.mpr ⟨hb, hchain⟩⟩
      · exact List.isChain_cons_cons.mpr ⟨hab, hchain⟩

theorem collapse_separate {blank : α} {targets : List α} (h : blank ∉ targets) :
    collapse blank (separate blank targets) = targets := by
  rw [collapse, (List.destutter_eq_self_iff _ _).mpr (isChain_separate h)]
  induction targets with
  | nil => rfl
  | cons a rest ih =>
    have ha : blank ≠ a := List.ne_of_not_mem_cons h
    have hrest := List.not_mem_of_not_mem_cons h
    cases rest with
    | nil => simp [separate, Ne.symm ha]
    | cons b rest =>
      have hkeep (l : List α) : (a :: l).filter (· ≠ blank) = a :: l.filter (· ≠ blank) :=
        List.filter_cons_of_pos (decide_eq_true (Ne.symm ha))
      rw [separate]
      split_ifs
      · rw [hkeep, List.filter_cons_of_neg (by simp), ih hrest]
      · rw [hkeep, ih hrest]

/-- Blanks at the end change nothing. -/
theorem collapse_append_blanks (blank : α) (labels : List α) (k : Nat) :
    collapse blank (labels ++ List.replicate k blank) = collapse blank labels := by
  induction k with
  | zero => simp
  | succ k ih =>
    rw [List.replicate_succ', ← List.append_assoc]
    cases h : labels ++ List.replicate k blank using List.reverseRecOn with
    | nil =>
      obtain ⟨rfl, -⟩ := List.append_eq_nil_iff.mp h
      simp [collapse]
    | append_singleton labels' a => rw [collapse_concat, if_pos (.inr rfl), ← h, ih]

/-- A target has a labelling exactly of the lengths that leave room for its repeats. -/
theorem exists_collapse_iff {blank : α} {targets : List α} (h : blank ∉ targets) (frames : Nat) :
    (∃ labels : List α, labels.length = frames ∧ collapse blank labels = targets) ↔
      targets.length + repeats targets ≤ frames := by
  constructor
  · rintro ⟨labels, rfl, rfl⟩
    have := length_add_repeats_le blank labels
    omega
  · intro hframes
    refine ⟨separate blank targets ++ List.replicate (frames - (separate blank targets).length) blank,
      ?_, by rw [collapse_append_blanks, collapse_separate h]⟩
    rw [List.length_append, List.length_replicate, length_separate]
    omega

/-! ## The trellis of a target -/

variable (blank : α) (targets : List α)

/-- The label of a position: the odd positions are the labels of the target. -/
def positionLabel (s : Nat) : α := if s % 2 = 1 then targets.getD (s / 2) blank else blank

/-- Stay, advance by one, or skip a blank between two distinct labels. -/
structure CtcMove (s t : Nat) : Prop where
  le : t ≤ 2 * targets.length
  moves : t = s ∨ t = s + 1 ∨ t = s + 2 ∧ positionLabel blank targets t ≠ blank ∧
    positionLabel blank targets t ≠ positionLabel blank targets s

/-- The trellis of the target, where `emit f a` is what frame `f` pays for the label `a`. -/
def ctcTrellis (emit : Nat → α → G) : Trellis Nat G where
  start s := s ≤ 1 ∧ s ≤ 2 * targets.length
  move := CtcMove blank targets
  emit f s := emit f (positionLabel blank targets s)

variable {blank targets} {emit : Nat → α → G} {last : Nat} {path : Nat → Nat} {i : Nat}

omit [DecidableEq α] in
theorem positionLabel_even : positionLabel blank targets (2 * i) = blank :=
  if_neg (by omega)

omit [DecidableEq α] in
theorem positionLabel_odd (hi : i < targets.length) :
    positionLabel blank targets (2 * i + 1) = targets[i] := by
  rw [positionLabel, if_pos (by omega), show (2 * i + 1) / 2 = i by omega,
    List.getD_eq_getElem _ _ hi]

omit [DecidableEq α] in
theorem positionLabel_odd_ne (hblank : blank ∉ targets) (hi : i < targets.length) :
    positionLabel blank targets (2 * i + 1) ≠ blank := by
  rw [positionLabel_odd hi]
  exact fun h => hblank (h ▸ List.getElem_mem hi)

/-- The labels of the frames of a walk. -/
def walkLabels (blank : α) (targets : List α) (path : Nat → Nat) (frames : Nat) : List α :=
  (List.range frames).map fun f => positionLabel blank targets (path f)

omit [DecidableEq α] in
theorem Trellis.IsWalk.le (h : (ctcTrellis blank targets emit).IsWalk last path) :
    path last ≤ 2 * targets.length := by
  cases last with
  | zero => exact h.starts.2
  | succ last => exact (h.moves last (Nat.lt_succ_self last)).le

omit [DecidableEq α] in
theorem walkLabels_succ : walkLabels blank targets path (last + 1) =
    walkLabels blank targets path last ++ [positionLabel blank targets (path last)] := by
  rw [walkLabels, List.range_succ, List.map_append]
  rfl

omit [DecidableEq α] in
theorem CtcMove.mono {s t : Nat} (h : CtcMove blank targets s t) : s ≤ t := by
  obtain rfl | rfl | ⟨rfl, -, -⟩ := h.moves <;> omega

/-- A move collects the label of the position it enters, unless that is blank or no news. -/
theorem CtcMove.collects (hblank : blank ∉ targets) {s t : Nat} (h : CtcMove blank targets s t) :
    targets.take ((t + 1) / 2) =
      if positionLabel blank targets s = positionLabel blank targets t ∨
          positionLabel blank targets t = blank then targets.take ((s + 1) / 2)
      else targets.take ((s + 1) / 2) ++ [positionLabel blank targets t] := by
  have hle := h.le
  obtain ⟨i, rfl | rfl⟩ : ∃ i, t = 2 * i ∨ t = 2 * i + 1 := ⟨t / 2, by omega⟩
  · -- a blank is entered from itself or from the label before it
    rw [if_pos (.inr positionLabel_even)]
    obtain hs | hs | ⟨-, hne, -⟩ := h.moves
    · rw [hs]
    · congr 1
      omega
    · exact absurd positionLabel_even hne
  · have hi : i < targets.length := by omega
    have hlabel := positionLabel_odd_ne hblank hi
    obtain hs | hs | ⟨hs, -, hne⟩ := h.moves
    · rw [hs, if_pos (.inl rfl)]
    · obtain rfl : s = 2 * i := by omega
      rw [positionLabel_even, if_neg (not_or.mpr ⟨hlabel.symm, hlabel⟩), positionLabel_odd hi,
        show (2 * i + 1 + 1) / 2 = i + 1 by omega, show (2 * i + 1) / 2 = i by omega]
      exact List.take_succ_eq_append_getElem hi
    · rw [if_neg (not_or.mpr ⟨hne.symm, hlabel⟩), positionLabel_odd hi,
        show (2 * i + 1 + 1) / 2 = i + 1 by omega, show (s + 1) / 2 = i by omega]
      exact List.take_succ_eq_append_getElem hi

/-- The labels of a walk collapse to the targets that it has entered. -/
theorem Trellis.IsWalk.collapse_eq (hblank : blank ∉ targets)
    (h : (ctcTrellis blank targets emit).IsWalk last path) :
    collapse blank (walkLabels blank targets path (last + 1)) =
      targets.take ((path last + 1) / 2) := by
  induction last with
  | zero =>
    have hstart := h.starts
    obtain hzero | hone : path 0 = 0 ∨ path 0 = 1 := by have := hstart.1; omega
    · have hlabel : positionLabel blank targets (path 0) = blank := by rw [hzero]; rfl
      rw [walkLabels_succ, hlabel, hzero]
      simp [walkLabels, collapse_singleton]
    · have hn : 0 < targets.length := by have := hstart.2; omega
      have hlabel : positionLabel blank targets (path 0) = targets[0] := by
        rw [hone]; exact positionLabel_odd hn
      have hne : targets[0] ≠ blank := fun heq => hblank (heq ▸ List.getElem_mem hn)
      rw [walkLabels_succ, hlabel, hone, List.take_succ_eq_append_getElem hn]
      simp [walkLabels, collapse_singleton, hne]
  | succ last ih =>
    obtain ⟨hwalk, hmove⟩ := isWalk_succ_iff.mp h
    rw [walkLabels_succ, walkLabels_succ, collapse_concat, ← walkLabels_succ, ih hwalk]
    exact (hmove.collects hblank).symm

/-- A labelling that collapses to the first `m` targets is that of a walk that enters them. -/
theorem exists_walk_of_collapse (emit : Nat → α → G) {m : Nat} (hm : m ≤ targets.length)
    (label : Nat → α)
    (h : collapse blank ((List.range (last + 1)).map label) = targets.take m) :
    ∃ path, (ctcTrellis blank targets emit).IsWalk last path ∧ (path last + 1) / 2 = m ∧
      ∀ f ≤ last, positionLabel blank targets (path f) = label f := by
  induction last generalizing m with
  | zero =>
    have hone : collapse blank [label 0] = targets.take m := h
    have hwalk {s : Nat} (hs : s ≤ 1) (hn : s ≤ 2 * targets.length) :
        (ctcTrellis blank targets emit).IsWalk 0 fun _ => s :=
      ⟨⟨hs, hn⟩, fun f hf => absurd hf (Nat.not_lt_zero f)⟩
    have hlen := congrArg List.length hone
    rw [List.length_take, min_eq_left hm] at hlen
    by_cases hb : label 0 = blank
    · rw [collapse_singleton, if_pos hb] at hlen
      refine ⟨fun _ => 0, hwalk (by omega) (by omega), hlen, fun f hf => ?_⟩
      obtain rfl : f = 0 := by omega
      exact hb.symm
    · rw [collapse_singleton, if_neg hb] at hone hlen
      obtain rfl : m = 1 := hlen.symm
      refine ⟨fun _ => 1, hwalk (by omega) (by omega), rfl, fun f hf => ?_⟩
      obtain rfl : f = 0 := by omega
      rw [List.take_succ_eq_append_getElem hm] at hone
      exact (positionLabel_odd hm).trans (by simpa using hone.symm)
  | succ last ih =>
    rw [List.range_succ, List.map_append, List.range_succ, List.map_append, List.map_singleton,
      List.map_singleton, collapse_concat] at h
    have hinit : ∀ k, collapse blank (List.map label (List.range last) ++ [label last]) =
        targets.take k → collapse blank ((List.range (last + 1)).map label) = targets.take k := by
      intro k hk
      rw [List.range_succ, List.map_append, List.map_singleton, hk]
    -- the walk to the last frame but one goes on to `t`
    have hgo : ∀ (t : Nat) (path : Nat → Nat),
        (ctcTrellis blank targets emit).IsWalk last path →
        (∀ f ≤ last, positionLabel blank targets (path f) = label f) →
        CtcMove blank targets (path last) t → positionLabel blank targets t = label (last + 1) →
        (t + 1) / 2 = m → ∃ path, (ctcTrellis blank targets emit).IsWalk (last + 1) path ∧
          (path (last + 1) + 1) / 2 = m ∧
          ∀ f ≤ last + 1, positionLabel blank targets (path f) = label f := by
      intro t path hwalk hlabels hmove ht hmt
      obtain ⟨path', hwalk', ht', hsame⟩ := hwalk.extend hmove
      refine ⟨path', hwalk', ht' ▸ hmt, fun f hf => ?_⟩
      obtain hle | rfl : f ≤ last ∨ f = last + 1 := by omega
      · rw [hsame f hle, hlabels f hle]
      · rw [ht', ht]
    split_ifs at h with hsame
    · obtain ⟨path, hwalk, hpath, hlabels⟩ := ih hm (hinit m h)
      by_cases heq : label last = label (last + 1)
      · exact hgo (path last) path hwalk hlabels ⟨hwalk.le, .inl rfl⟩
          ((hlabels last le_rfl).trans heq) hpath
      · have hb : label (last + 1) = blank := hsame.resolve_left heq
        have hne : positionLabel blank targets (path last) ≠ blank := by
          rw [hlabels last le_rfl]
          exact fun hlast => heq (hlast.trans hb.symm)
        obtain ⟨i, hi⟩ : ∃ i, path last = 2 * i + 1 := by
          obtain ⟨i, hi | hi⟩ : ∃ i, path last = 2 * i ∨ path last = 2 * i + 1 :=
            ⟨path last / 2, by omega⟩
          · exact absurd (hi ▸ positionLabel_even) hne
          · exact ⟨i, hi⟩
        have hle := hwalk.le
        refine hgo (2 * (i + 1)) path hwalk hlabels ⟨by omega, .inr (.inl (by omega))⟩
          (positionLabel_even.trans hb.symm) (by omega)
    · obtain ⟨hne, hb⟩ := not_or.mp hsame
      obtain ⟨m, rfl⟩ : ∃ k, m = k + 1 := by
        cases m with
        | zero => simp at h
        | succ m => exact ⟨m, rfl⟩
      rw [List.take_succ_eq_append_getElem hm] at h
      obtain ⟨hpre, hlast⟩ := List.append_inj' h rfl
      have hlabel : positionLabel blank targets (2 * m + 1) = label (last + 1) :=
        (positionLabel_odd hm).trans (by simpa using hlast.symm)
      obtain ⟨path, hwalk, hpath, hlabels⟩ := ih (by omega) (hinit m hpre)
      refine hgo (2 * m + 1) path hwalk hlabels ⟨by omega, ?_⟩ hlabel (by omega)
      obtain hs | hs : path last = 2 * m ∨ path last + 2 = 2 * m + 1 := by omega
      · exact .inr (.inl (by omega))
      · refine .inr (.inr ⟨hs.symm, hlabel ▸ hb, ?_⟩)
        rw [hlabel, hlabels last le_rfl]
        exact Ne.symm hne

omit [DecidableEq α] in
/-- A walk never goes back. -/
theorem Trellis.IsWalk.mono (h : (ctcTrellis blank targets emit).IsWalk last path) {f g : Nat}
    (hfg : f ≤ g) (hg : g ≤ last) : path f ≤ path g := by
  induction g, hfg using Nat.le_induction with
  | base => exact le_rfl
  | succ g hfg ih => exact (ih (by omega)).trans (h.moves g (by omega)).mono

omit [DecidableEq α] in
/-- A walk skips no label. -/
theorem Trellis.IsWalk.enters (h : (ctcTrellis blank targets emit).IsWalk last path)
    (hi : 2 * i + 1 ≤ path last) : ∃ f ≤ last, path f = 2 * i + 1 := by
  induction last with
  | zero => exact ⟨0, le_rfl, by have := h.starts.1; omega⟩
  | succ last ih =>
    obtain ⟨hwalk, hmove⟩ := isWalk_succ_iff.mp h
    by_cases hbefore : 2 * i + 1 ≤ path last
    · obtain ⟨f, hf, hpath⟩ := ih hwalk hbefore
      exact ⟨f, by omega, hpath⟩
    · refine ⟨last + 1, le_rfl, ?_⟩
      obtain hs | hs | ⟨hs, hne, -⟩ := hmove.moves
      · omega
      · omega
      · -- the position after the skipped one is a label
        obtain ⟨k, hk | hk⟩ : ∃ k, path (last + 1) = 2 * k ∨ path (last + 1) = 2 * k + 1 :=
          ⟨path (last + 1) / 2, by omega⟩
        · exact absurd (hk ▸ positionLabel_even) hne
        · omega

end Apm.Lib
