import Mathlib

/-!
# Best walks through a trellis

A walk takes one state a frame, from a state where walks start, and each frame pays for the
state it is in. A table of best scores with the state that each score comes from is a Viterbi
table: no walk scores more than the table says of its last state, and the walk that is traced
back from a state scores exactly that.
-/

namespace Apm.Lib

set_option autoImplicit false

variable {σ G : Type}

structure Trellis (σ G : Type) where
  start : σ → Prop
  move : σ → σ → Prop
  /-- what a frame pays for a state -/
  emit : Nat → σ → G

namespace Trellis

variable [AddCommGroup G] (T : Trellis σ G)

/-- The states of the frames up to `last` are a walk. -/
structure IsWalk (last : Nat) (path : Nat → σ) : Prop where
  starts : T.start (path 0)
  moves : ∀ f < last, T.move (path f) (path (f + 1))

def score (last : Nat) (path : Nat → σ) : G := ∑ f ∈ Finset.range (last + 1), T.emit f (path f)

variable {T} {last : Nat} {path : Nat → σ}

theorem score_succ (path : Nat → σ) (last : Nat) :
    T.score (last + 1) path = T.score last path + T.emit (last + 1) (path (last + 1)) :=
  Finset.sum_range_succ ..

omit [AddCommGroup G] in
theorem isWalk_succ_iff :
    T.IsWalk (last + 1) path ↔ T.IsWalk last path ∧ T.move (path last) (path (last + 1)) := by
  constructor
  · exact fun h => ⟨⟨h.starts, fun f hf => h.moves f (by omega)⟩, h.moves last (by omega)⟩
  · intro h
    refine ⟨h.1.starts, fun f hf => ?_⟩
    obtain hlt | rfl : f < last ∨ f = last := by omega
    · exact h.1.moves f hlt
    · exact h.2

omit [AddCommGroup G] in
/-- Only the frames of a walk matter. -/
theorem IsWalk.congr {path' : Nat → σ} (h : T.IsWalk last path)
    (hpath : ∀ f ≤ last, path' f = path f) : T.IsWalk last path' := by
  refine ⟨hpath 0 (Nat.zero_le _) ▸ h.starts, fun f hf => ?_⟩
  rw [hpath f hf.le, hpath (f + 1) hf]
  exact h.moves f hf

/-- A path is continued by a state. -/
theorem exists_continued (path : Nat → σ) (last : Nat) (t : σ) :
    ∃ path' : Nat → σ, path' (last + 1) = t ∧ ∀ f ≤ last, path' f = path f :=
  ⟨fun f => if f ≤ last then path f else t, if_neg (by omega), fun _ hf => if_pos hf⟩

omit [AddCommGroup G] in
/-- A walk goes on to a state that it may move to. -/
theorem IsWalk.extend {t : σ} (h : T.IsWalk last path) (hmove : T.move (path last) t) :
    ∃ path', T.IsWalk (last + 1) path' ∧ path' (last + 1) = t ∧ ∀ f ≤ last, path' f = path f := by
  obtain ⟨path', hnew, hsame⟩ := exists_continued path last t
  refine ⟨path', isWalk_succ_iff.mpr ⟨h.congr hsame, ?_⟩, hnew, hsame⟩
  rwa [hsame last le_rfl, hnew]

variable [LinearOrder G] [IsOrderedAddMonoid G]

/-- For each of the frames, the scores of the best walks to each state, `⊥` where there is
none, and the state before the last one of such a walk. -/
structure IsViterbi (T : Trellis σ G) (frames : Nat) (best : Nat → σ → WithBot G)
    (back : Nat → σ → σ) : Prop where
  start : ∀ s, T.start s → best 0 s = T.emit 0 s
  started : ∀ s, best 0 s ≠ ⊥ → T.start s
  upper : ∀ f s t, f + 1 < frames → T.move s t →
    best f s + T.emit (f + 1) t ≤ best (f + 1) t
  attained : ∀ f t, f + 1 < frames → best (f + 1) t ≠ ⊥ → T.move (back (f + 1) t) t ∧
    best (f + 1) t = best f (back (f + 1) t) + T.emit (f + 1) t

variable {frames : Nat} {best : Nat → σ → WithBot G} {back : Nat → σ → σ}

/-- No walk scores more than the table says. -/
theorem IsViterbi.score_le (h : T.IsViterbi frames best back) (hlast : last < frames)
    (hwalk : T.IsWalk last path) : (T.score last path : WithBot G) ≤ best last (path last) := by
  induction last with
  | zero =>
    rw [h.start _ hwalk.starts, score, Finset.sum_range_one]
  | succ last ih =>
    obtain ⟨hprev, hmove⟩ := isWalk_succ_iff.mp hwalk
    calc (T.score (last + 1) path : WithBot G)
        = T.score last path + T.emit (last + 1) (path (last + 1)) := by
          rw [score_succ, WithBot.coe_add]
      _ ≤ best last (path last) + T.emit (last + 1) (path (last + 1)) :=
          add_le_add_left (ih (by omega) hprev) _
      _ ≤ best (last + 1) (path (last + 1)) := h.upper last _ _ hlast hmove

omit [IsOrderedAddMonoid G] in
/-- The state before one that a walk reaches is reached as well. -/
theorem IsViterbi.back_ne_bot (h : T.IsViterbi frames best back) {f : Nat} {t : σ}
    (hf : f + 1 < frames) (hfinite : best (f + 1) t ≠ ⊥) : best f (back (f + 1) t) ≠ ⊥ := by
  intro hbot
  rw [(h.attained f t hf hfinite).2, hbot, WithBot.bot_add] at hfinite
  exact hfinite rfl

omit [IsOrderedAddMonoid G] in
/-- The walk that is traced back scores what the table says. -/
theorem IsViterbi.traced (h : T.IsViterbi frames best back) (hlast : last < frames)
    (hfinite : best last (path last) ≠ ⊥)
    (htrace : ∀ f < last, path f = back (f + 1) (path (f + 1))) :
    T.IsWalk last path ∧ best last (path last) = T.score last path := by
  induction last with
  | zero =>
    have hstart := h.started _ hfinite
    refine ⟨⟨hstart, fun f hf => absurd hf (Nat.not_lt_zero f)⟩, ?_⟩
    rw [h.start _ hstart, score, Finset.sum_range_one]
  | succ last ih =>
    obtain ⟨hmove, heq⟩ := h.attained last _ hlast hfinite
    have hprev := h.back_ne_bot hlast hfinite
    rw [← htrace last (by omega)] at hmove heq hprev
    obtain ⟨hwalk, hscore⟩ := ih (by omega) hprev fun f hf => htrace f (by omega)
    refine ⟨isWalk_succ_iff.mpr ⟨hwalk, hmove⟩, ?_⟩
    rw [heq, hscore, score_succ, WithBot.coe_add]

end Trellis

end Apm.Lib
