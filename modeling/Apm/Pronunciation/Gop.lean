import Apm.Lib.Ctc

/-!
# Forced alignment

`forced_align` fills a table with one row a frame and one cell a position of `blank, t₀, blank,
…, blank`, then follows the table back from the better of the two last positions. The scores
are those of the table's Viterbi walks; where the frames leave no room for the targets the
table has no score at all in the last two columns.

The log-probabilities are elements of an ordered group and `⊥` is minus infinity. An index out
of range is `none`.
-/

namespace Apm.Pronunciation

set_option autoImplicit false

open Apm.Lib

variable {G : Type} [AddCommGroup G] [LinearOrder G]

/-- `row[s]`, where a negative index counts from the end. -/
def pyIndex {β : Type} (row : List β) (s : Int) : Option β :=
  if 0 ≤ s then row[s.toNat]?
  else if 0 ≤ row.length + s then row[(row.length + s).toNat]?
  else none

/-- `dp[f][s]` and `back[f][s]`. -/
abbrev Cell (G : Type) := WithBot G × Int

/-- `ext`: a blank, then each target and a blank. -/
def extended (targetIds : List Nat) (blank : Nat) : List Nat :=
  targetIds.foldl (fun ext t => ext ++ [t, blank]) [blank]

def firstRow (logProbs : List G) (ext : List Nat) : Option (List (Cell G)) := do
  let row : List (Cell G) := List.replicate ext.length (⊥, -1)
  let start ← ext[0]?
  let score : G ← logProbs[start]?
  let row := row.set 0 (score, -1)
  if 1 < ext.length then
    let label ← ext[1]?
    let score : G ← logProbs[label]?
    some (row.set 1 (score, -1))
  else some row

/-- The best predecessor so far and one more: only a better score replaces it. -/
def consider (prev : List (Cell G)) (source : Nat) (best : Cell G) : Option (Cell G) :=
  prev[source]?.map fun cell => if best.1 < cell.1 then (cell.1, (source : Int)) else best

def considerIf (may : Prop) [Decidable may] (prev : List (Cell G)) (source : Nat)
    (best : Cell G) : Option (Cell G) :=
  if may then consider prev source best else some best

/-- `best_prev` and `best_s`. -/
def bestBefore (prev : List (Cell G)) (ext : List Nat) (blank s : Nat) : Option (Cell G) := do
  let stay ← consider prev s (⊥, -1)
  let advance ← considerIf (1 ≤ s) prev (s - 1) stay
  -- skip a blank, only between two distinct labels
  considerIf (2 ≤ s ∧ ext[s]? ≠ some blank ∧ ext[s]? ≠ ext[s - 2]?) prev (s - 2) advance

def nextCell (logProbs : List G) (prev : List (Cell G)) (ext : List Nat) (blank s : Nat) :
    Option (Cell G) := do
  let best ← bestBefore prev ext blank s
  if best.2 ≠ -1 then
    let label ← ext[s]?
    let score : G ← logProbs[label]?
    some (best.1 + score, best.2)
  else some (⊥, -1)

/-- The rows after `prev`, one for each of the frames that are left. -/
def laterRows (ext : List Nat) (blank : Nat) :
    List (Cell G) → List (List G) → Option (List (List (Cell G)))
  | _, [] => some []
  | prev, logProbs :: rest => do
    let row ← (List.range ext.length).mapM (nextCell logProbs prev ext blank)
    let rows ← laterRows ext blank row rest
    some (row :: rows)

/-- `dp` and `back`. -/
def trellisRows (logProbs : List (List G)) (ext : List Nat) (blank : Nat) :
    Option (List (List (Cell G))) := do
  let first ← logProbs[0]?
  let row ← firstRow first ext
  let rows ← laterRows ext blank row logProbs.tail
  some (row :: rows)

/-- The loop from frame `frames - 1` down to 0: `path[f] = s` and then `s = back[f][s]`. -/
def backtrack (rows : List (List (Cell G))) : Nat → Int → Option (List Int)
  | 0, _ => some []
  | f + 1, s => do
    let row ← rows[f]?
    let cell ← pyIndex row s
    let path ← backtrack rows f cell.2
    some (path ++ [s])

/-- The first and the last frame at position `2 * i + 1`, or an empty span. -/
def spanOf (frames : Nat) (path : List Int) (i : Nat) : Int × Int :=
  let assigned := (List.range frames).filter fun f => path[f]? = some (2 * i + 1 : Int)
  match assigned.head?, assigned.getLast? with
  | some first, some last => (first, last)
  | _, _ => (frames, frames - 1)

def forcedAlign (logProbs : List (List G)) (targetIds : List Nat) (blank : Nat) :
    Option (List (Int × Int)) :=
  let frames := logProbs.length
  let n := targetIds.length
  if n = 0 then some []
  else if frames < n then
    let spans := (List.range (min frames n)).map fun i : Nat => ((i : Int), (i : Int))
    some (spans ++ List.replicate (n - spans.length) ((frames : Int), (frames : Int) - 1))
  else do
    let ext := extended targetIds blank
    let rows ← trellisRows logProbs ext blank
    let row ← rows[frames - 1]?
    let last ← row[ext.length - 1]?
    let label ← row[ext.length - 2]?
    let endPosition := if label.1 ≤ last.1 then ext.length - 1 else ext.length - 2
    let path ← backtrack rows frames endPosition
    some ((List.range n).map (spanOf frames path))

example : forcedAlign [[0, -9], [-9, 0], [0, -9], [-9, 0]] [1, 1] 0 =
    some [((1 : Int), (1 : Int)), (3, 3)] := by decide

/-! ## The rows -/

variable {targetIds : List Nat} {blank : Nat}

omit [AddCommGroup G] [LinearOrder G] in
theorem extended_concat (t : Nat) :
    extended (targetIds ++ [t]) blank = extended targetIds blank ++ [t, blank] := by
  rw [extended, List.foldl_append]
  rfl

theorem length_extended (targetIds : List Nat) (blank : Nat) :
    (extended targetIds blank).length = 2 * targetIds.length + 1 := by
  induction targetIds using List.reverseRecOn with
  | nil => rfl
  | append_singleton targetIds t ih =>
    rw [extended_concat, List.length_append, ih, List.length_append]
    simp only [List.length_cons, List.length_nil]
    omega

/-- The label at each position of `ext`. -/
theorem extended_getElem? {s : Nat} (hs : s ≤ 2 * targetIds.length) :
    (extended targetIds blank)[s]? = some (positionLabel blank targetIds s) := by
  induction targetIds using List.reverseRecOn generalizing s with
  | nil =>
    obtain rfl : s = 0 := by simpa using hs
    rfl
  | append_singleton targetIds t ih =>
    rw [List.length_append, List.length_singleton] at hs
    have hlen := length_extended targetIds blank
    rw [extended_concat]
    obtain hle | rfl | rfl : s ≤ 2 * targetIds.length ∨ s = 2 * targetIds.length + 1 ∨
        s = 2 * (targetIds.length + 1) := by omega
    · rw [List.getElem?_append_left (by omega), ih hle, positionLabel, positionLabel]
      by_cases hodd : s % 2 = 1
      · rw [if_pos hodd, if_pos hodd, List.getD_append _ _ _ _ (by omega)]
      · rw [if_neg hodd, if_neg hodd]
    · rw [List.getElem?_append_right (by omega), hlen, positionLabel_odd (by simp)]
      simp
    · rw [List.getElem?_append_right (by omega), hlen, positionLabel_even,
        show 2 * (targetIds.length + 1) - (2 * targetIds.length + 1) = 1 by omega]
      rfl

/-- `dp[f][s]`. -/
def scoreAt (row : List (Cell G)) (s : Nat) : WithBot G := (row.getD s (⊥, -1)).1

/-- `back[f][s]`. -/
def sourceAt (row : List (Cell G)) (s : Nat) : Int := (row.getD s (⊥, -1)).2

/-- The best of the predecessors `sources`, or none where none has a score. -/
structure IsBest (prev : List (Cell G)) (sources : Nat → Prop) (best : Cell G) : Prop where
  upper : ∀ s, sources s → scoreAt prev s ≤ best.1
  attained : best = (⊥, -1) ∨ ∃ s, sources s ∧ best = (scoreAt prev s, (s : Int)) ∧ best.1 ≠ ⊥

omit [AddCommGroup G] in
theorem IsBest.consider {prev : List (Cell G)} {sources : Nat → Prop} {best : Cell G}
    (h : IsBest prev sources best) {source : Nat} (hsource : source < prev.length) :
    ∃ best', consider prev source best = some best' ∧
      IsBest prev (fun s => sources s ∨ s = source) best' := by
  have hscore : (prev[source]).1 = scoreAt prev source := by
    rw [scoreAt, List.getD_eq_getElem _ _ hsource]
  rw [Pronunciation.consider, List.getElem?_eq_getElem hsource, Option.map_some, hscore]
  refine ⟨_, rfl, ?_, ?_⟩
  · rintro s (hs | rfl)
    · split_ifs with hlt
      · exact (h.upper s hs).trans hlt.le
      · exact h.upper s hs
    · split_ifs with hlt
      · exact le_rfl
      · exact not_lt.mp hlt
  · split_ifs with hlt
    · exact .inr ⟨source, .inr rfl, rfl, (bot_le.trans_lt hlt).ne'⟩
    · exact h.attained.imp id fun ⟨s, hs, hbest⟩ => ⟨s, .inl hs, hbest⟩

omit [AddCommGroup G] in
theorem IsBest.congr {prev : List (Cell G)} {sources sources' : Nat → Prop} {best : Cell G}
    (h : IsBest prev sources best) (hiff : ∀ s, sources s ↔ sources' s) :
    IsBest prev sources' best :=
  (funext fun s => propext (hiff s) : sources = sources') ▸ h

omit [AddCommGroup G] in
theorem IsBest.considerIf {prev : List (Cell G)} {sources : Nat → Prop} {best : Cell G}
    (h : IsBest prev sources best) (may : Prop) [Decidable may] {source : Nat}
    (hsource : source < prev.length) :
    ∃ best', considerIf may prev source best = some best' ∧
      IsBest prev (fun s => sources s ∨ may ∧ s = source) best' := by
  by_cases hmay : may
  · obtain ⟨best', hsome, hbest⟩ := h.consider hsource
    exact ⟨best', (if_pos hmay).trans hsome, hbest.congr fun s => by simp only [hmay, true_and]⟩
  · exact ⟨best, if_neg hmay, h.congr fun s => by simp only [hmay, false_and, or_false]⟩

omit [AddCommGroup G] in
/-- The three ways to enter a position are compared, each where it is there. -/
theorem bestBefore_isBest (blank : Nat) {prev : List (Cell G)}
    (hprev : prev.length = 2 * targetIds.length + 1) {s : Nat} (hs : s ≤ 2 * targetIds.length) :
    ∃ best, bestBefore prev (extended targetIds blank) blank s = some best ∧
      IsBest prev (fun source => CtcMove blank targetIds source s) best := by
  have hstart : IsBest prev (fun _ => False) ((⊥, -1) : Cell G) :=
    ⟨fun _ hfalse => hfalse.elim, .inl rfl⟩
  obtain ⟨stay, hstay, hbest⟩ := hstart.consider (show s < prev.length by omega)
  obtain ⟨advance, hadvance, hbest⟩ :=
    hbest.considerIf (1 ≤ s) (show s - 1 < prev.length by omega)
  obtain ⟨best, hskip, hbest⟩ := hbest.considerIf
    (2 ≤ s ∧ (extended targetIds blank)[s]? ≠ some blank ∧
      (extended targetIds blank)[s]? ≠ (extended targetIds blank)[s - 2]?)
    (show s - 2 < prev.length by omega)
  refine ⟨best, ?_, hbest.congr fun source => ?_⟩
  · rw [bestBefore, hstay]
    exact (congrArg (Option.bind · _) hadvance).trans hskip
  · rw [extended_getElem? hs, extended_getElem? (show s - 2 ≤ 2 * targetIds.length by omega)]
    constructor
    · rintro (((h | rfl) | ⟨hone, rfl⟩) | ⟨⟨htwo, hlabel, hne⟩, rfl⟩)
      · exact h.elim
      · exact ⟨hs, .inl rfl⟩
      · exact ⟨hs, .inr (.inl (by omega))⟩
      · exact ⟨hs, .inr (.inr ⟨by omega, fun heq => hlabel (congrArg some heq),
          fun heq => hne (congrArg some heq)⟩)⟩
    · intro h
      obtain h | h | ⟨h, hlabel, hne⟩ := h.moves
      · exact .inl (.inl (.inr h.symm))
      · exact .inl (.inr ⟨by omega, by omega⟩)
      · obtain rfl : source = s - 2 := by omega
        exact .inr ⟨⟨by omega, fun heq => hlabel (Option.some_injective _ heq),
          fun heq => hne (Option.some_injective _ heq)⟩, rfl⟩

/-! ## The table -/

/-- What frame `f` pays for a label. -/
def emission (logProbs : List (List G)) (f label : Nat) : G := (logProbs.getD f []).getD label 0

/-- The cells of a row come from those of the row before. -/
structure IsNext (targetIds : List Nat) (blank : Nat) (logProbs : List G)
    (prev row : List (Cell G)) : Prop where
  upper : ∀ s t, CtcMove blank targetIds s t →
    scoreAt prev s + (logProbs.getD (positionLabel blank targetIds t) 0 : G) ≤ scoreAt row t
  attained : ∀ t, scoreAt row t ≠ ⊥ → ∃ s : Nat, sourceAt row t = s ∧
    CtcMove blank targetIds s t ∧ scoreAt row t =
      scoreAt prev s + (logProbs.getD (positionLabel blank targetIds t) 0 : G)
  missing : ∀ t, scoreAt row t = ⊥ → sourceAt row t = -1

/-- A frame has a log-probability for the blank and for each of the targets. -/
def Covers (targetIds : List Nat) (blank : Nat) (logProbs : List G) : Prop :=
  blank < logProbs.length ∧ ∀ t ∈ targetIds, t < logProbs.length

omit [AddCommGroup G] [LinearOrder G] in
theorem Covers.label_lt {logProbs : List G} (h : Covers targetIds blank logProbs) {s : Nat}
    (hs : s ≤ 2 * targetIds.length) : positionLabel blank targetIds s < logProbs.length := by
  obtain ⟨i, rfl | rfl⟩ : ∃ i, s = 2 * i ∨ s = 2 * i + 1 := ⟨s / 2, by omega⟩
  · rw [positionLabel_even]
    exact h.1
  · rw [positionLabel_odd (by omega)]
    exact h.2 _ (List.getElem_mem _)

theorem mapM_forall₂ {β γ : Type} {f : β → Option γ} {P : β → γ → Prop} {l : List β}
    (h : ∀ a ∈ l, ∃ c, f a = some c ∧ P a c) :
    ∃ cs, l.mapM f = some cs ∧ List.Forall₂ P l cs := by
  induction l with
  | nil => exact ⟨[], rfl, .nil⟩
  | cons a rest ih =>
    obtain ⟨c, hc, hP⟩ := h a (List.mem_cons_self ..)
    obtain ⟨cs, hcs, hrest⟩ := ih fun b hb => h b (List.mem_cons_of_mem a hb)
    exact ⟨c :: cs, by rw [List.mapM_cons, hc, hcs]; rfl, .cons hP hrest⟩

theorem mapM_range {γ : Type} {f : Nat → Option γ} {P : Nat → γ → Prop} (k : Nat)
    (h : ∀ i < k, ∃ c, f i = some c ∧ P i c) :
    ∃ cs, (List.range k).mapM f = some cs ∧ cs.length = k ∧
      ∀ i (hi : i < cs.length), P i cs[i] := by
  obtain ⟨cs, hcs, hforall⟩ := mapM_forall₂ fun i hi => h i (List.mem_range.mp hi)
  have hlen : cs.length = k := by rw [← hforall.length_eq, List.length_range]
  refine ⟨cs, hcs, hlen, fun i hi => ?_⟩
  simpa using hforall.get (by rw [List.length_range]; omega) hi

/-- What the cell of position `t` says of the row before. -/
structure IsNextCell (targetIds : List Nat) (blank : Nat) (logProbs : List G)
    (prev : List (Cell G)) (t : Nat) (cell : Cell G) : Prop where
  upper : ∀ s, CtcMove blank targetIds s t →
    scoreAt prev s + (logProbs.getD (positionLabel blank targetIds t) 0 : G) ≤ cell.1
  attained : cell = (⊥, -1) ∨ cell.1 ≠ ⊥ ∧ ∃ s : Nat, cell.2 = s ∧
    CtcMove blank targetIds s t ∧
    cell.1 = scoreAt prev s + (logProbs.getD (positionLabel blank targetIds t) 0 : G)

theorem nextCell_some [IsOrderedAddMonoid G] {logProbs : List G} {prev : List (Cell G)}
    (hcovers : Covers targetIds blank logProbs) (hprev : prev.length = 2 * targetIds.length + 1)
    {t : Nat} (ht : t ≤ 2 * targetIds.length) :
    ∃ cell, nextCell logProbs prev (extended targetIds blank) blank t = some cell ∧
      IsNextCell targetIds blank logProbs prev t cell := by
  obtain ⟨best, hbest, hisBest⟩ := bestBefore_isBest blank hprev ht
  have hlabel := hcovers.label_lt ht
  rw [nextCell, hbest, Option.bind_eq_bind, Option.bind_some, extended_getElem? ht]
  have hupper : ∀ s, CtcMove blank targetIds s t →
      scoreAt prev s + (logProbs.getD (positionLabel blank targetIds t) 0 : G) ≤
        best.1 + (logProbs.getD (positionLabel blank targetIds t) 0 : G) :=
    fun s hs => add_le_add_left (hisBest.upper s hs) _
  obtain rfl | ⟨s, hs, rfl, hfinite⟩ := hisBest.attained
  · exact ⟨(⊥, -1), rfl, hupper, .inl rfl⟩
  · refine ⟨(scoreAt prev s + (logProbs.getD (positionLabel blank targetIds t) 0 : G), (s : Int)),
      ?_, hupper, .inr ⟨?_, s, rfl, hs, rfl⟩⟩
    · rw [if_pos (by omega), Option.bind_eq_bind, Option.bind_some,
        List.getElem?_eq_getElem hlabel, Option.bind_eq_bind, Option.bind_some,
        List.getD_eq_getElem _ _ hlabel]
    · rw [WithBot.add_ne_bot]
      exact ⟨hfinite, WithBot.coe_ne_bot⟩

theorem nextRow_some [IsOrderedAddMonoid G] {logProbs : List G} {prev : List (Cell G)}
    (hcovers : Covers targetIds blank logProbs) (hprev : prev.length = 2 * targetIds.length + 1) :
    ∃ row, (List.range (extended targetIds blank).length).mapM
        (nextCell logProbs prev (extended targetIds blank) blank) = some row ∧
      row.length = 2 * targetIds.length + 1 ∧ IsNext targetIds blank logProbs prev row := by
  rw [length_extended]
  obtain ⟨row, hrow, hlen, hcells⟩ := mapM_range (2 * targetIds.length + 1) fun t ht =>
    nextCell_some hcovers hprev (Nat.le_of_lt_succ ht)
  have hscore {t : Nat} (ht : t < row.length) : scoreAt row t = row[t].1 :=
    congrArg Prod.fst (List.getD_eq_getElem _ _ ht)
  have hsource {t : Nat} (ht : t < row.length) : sourceAt row t = row[t].2 :=
    congrArg Prod.snd (List.getD_eq_getElem _ _ ht)
  have houtside {t : Nat} (ht : ¬ t < row.length) : row.getD t (⊥, -1) = (⊥, -1) :=
    List.getD_eq_default _ _ (by omega)
  refine ⟨row, hrow, hlen, ⟨fun s t hmove => ?_, fun t hfinite => ?_, fun t hbot => ?_⟩⟩
  · have ht : t < row.length := by have := hmove.le; omega
    rw [hscore ht]
    exact (hcells t ht).upper s hmove
  · have ht : t < row.length := by
      by_contra ht
      exact hfinite (congrArg Prod.fst (houtside ht))
    rw [hscore ht] at hfinite ⊢
    rw [hsource ht]
    obtain heq | ⟨-, s, hs⟩ := (hcells t ht).attained
    · exact absurd (congrArg Prod.fst heq) hfinite
    · exact ⟨s, hs⟩
  · by_cases ht : t < row.length
    · rw [hscore ht] at hbot
      rw [hsource ht]
      obtain heq | ⟨hfinite, -⟩ := (hcells t ht).attained
      · exact congrArg Prod.snd heq
      · exact absurd hbot hfinite
    · exact congrArg Prod.snd (houtside ht)

/-- The rows from `prev` on, one for each frame that is left, each from the one before. -/
theorem laterRows_some [IsOrderedAddMonoid G] {prev : List (Cell G)} {rest : List (List G)}
    (hcovers : ∀ logProbs ∈ rest, Covers targetIds blank logProbs)
    (hprev : prev.length = 2 * targetIds.length + 1) :
    ∃ rows, laterRows (extended targetIds blank) blank prev rest = some rows ∧
      rows.length = rest.length ∧ (∀ row ∈ rows, row.length = 2 * targetIds.length + 1) ∧
      ∀ f < rest.length, IsNext targetIds blank (rest.getD f []) ((prev :: rows).getD f [])
        (rows.getD f []) := by
  induction rest generalizing prev with
  | nil => exact ⟨[], rfl, rfl, by simp, by simp⟩
  | cons logProbs rest ih =>
    obtain ⟨hhead, htail⟩ := List.forall_mem_cons.mp hcovers
    obtain ⟨row, hrow, hlen, hnext⟩ := nextRow_some hhead hprev
    obtain ⟨rows, hrows, hcount, hwidth, hsteps⟩ := ih htail hlen
    refine ⟨row :: rows, by rw [laterRows, hrow, Option.bind_eq_bind, Option.bind_some, hrows]; rfl,
      congrArg (· + 1) hcount, List.forall_mem_cons.mpr ⟨hlen, hwidth⟩, fun f hf => ?_⟩
    cases f with
    | zero => exact hnext
    | succ f => exact hsteps f (Nat.lt_of_succ_lt_succ hf)

/-- The row of frame 0: only the first two positions have a score. -/
structure IsFirst (targetIds : List Nat) (blank : Nat) (logProbs : List G)
    (row : List (Cell G)) : Prop where
  started : ∀ s ≤ 1, scoreAt row s = (logProbs.getD (positionLabel blank targetIds s) 0 : G)
  unstarted : ∀ s, 1 < s → scoreAt row s = ⊥
  origin : ∀ s, sourceAt row s = -1

omit [AddCommGroup G] [LinearOrder G] in
theorem getD_set (row : List (Cell G)) {s : Nat} (hs : s < row.length) (cell : Cell G) (t : Nat) :
    (row.set s cell).getD t (⊥, -1) = if s = t then cell else row.getD t (⊥, -1) := by
  rw [List.getD_eq_getElem?_getD, List.getElem?_set, if_pos hs]
  split_ifs
  · rfl
  · exact List.getD_eq_getElem?_getD.symm

omit [LinearOrder G] in
theorem firstRow_some {logProbs : List G} (hn : 1 ≤ targetIds.length)
    (hcovers : Covers targetIds blank logProbs) :
    ∃ row, firstRow logProbs (extended targetIds blank) = some row ∧
      row.length = 2 * targetIds.length + 1 ∧ IsFirst targetIds blank logProbs row := by
  have hlabel {s : Nat} (hs : s ≤ 2 * targetIds.length) :
      logProbs[positionLabel blank targetIds s]? =
        some (logProbs.getD (positionLabel blank targetIds s) 0) := by
    rw [List.getElem?_eq_getElem (hcovers.label_lt hs), List.getD_eq_getElem]
  let score (s : Nat) : Cell G := ((logProbs.getD (positionLabel blank targetIds s) 0 : G), -1)
  let empty : List (Cell G) := List.replicate (2 * targetIds.length + 1) (⊥, -1)
  have hlen : empty.length = 2 * targetIds.length + 1 := List.length_replicate ..
  have hempty (s : Nat) : empty.getD s (⊥, -1) = (⊥, -1) := by
    rw [List.getD_eq_getElem?_getD, List.getElem?_replicate]
    split_ifs <;> rfl
  have hcell (s : Nat) : ((empty.set 0 (score 0)).set 1 (score 1)).getD s (⊥, -1) =
      if s ≤ 1 then score s else (⊥, -1) := by
    rw [getD_set _ (by rw [List.length_set, hlen]; omega), getD_set _ (by omega), hempty]
    obtain rfl | rfl | hs : s = 0 ∨ s = 1 ∨ 1 < s := by omega
    · rfl
    · rfl
    · rw [if_neg (by omega), if_neg (by omega), if_neg (by omega)]
  refine ⟨(empty.set 0 (score 0)).set 1 (score 1), ?_,
    by rw [List.length_set, List.length_set, hlen], fun s hs => ?_, fun s hs => ?_, fun s => ?_⟩
  · rw [firstRow, extended_getElem? (Nat.zero_le _), extended_getElem? (by omega),
      length_extended]
    simp only [Option.bind_eq_bind, Option.bind_some, hlabel (Nat.zero_le _), hlabel
      (show 1 ≤ 2 * targetIds.length by omega), if_pos (show 1 < 2 * targetIds.length + 1 by omega)]
    rfl
  · rw [scoreAt, hcell, if_pos hs]
  · rw [scoreAt, hcell, if_neg (by omega)]
  · rw [sourceAt, hcell]
    split_ifs <;> rfl

/-- The table that the loops fill: one row for each frame. -/
structure IsTable (targetIds : List Nat) (blank : Nat) (logProbs : List (List G))
    (rows : List (List (Cell G))) : Prop where
  count : rows.length = logProbs.length
  width : ∀ row ∈ rows, row.length = 2 * targetIds.length + 1
  first : IsFirst targetIds blank (logProbs.getD 0 []) (rows.getD 0 [])
  next : ∀ f, f + 1 < logProbs.length → IsNext targetIds blank (logProbs.getD (f + 1) [])
    (rows.getD f []) (rows.getD (f + 1) [])

theorem trellisRows_isTable [IsOrderedAddMonoid G] {logProbs : List (List G)}
    (hn : 1 ≤ targetIds.length) (hframes : 1 ≤ logProbs.length)
    (hcovers : ∀ row ∈ logProbs, Covers targetIds blank row) :
    ∃ rows, trellisRows logProbs (extended targetIds blank) blank = some rows ∧
      IsTable targetIds blank logProbs rows := by
  obtain ⟨first, rest, rfl⟩ : ∃ first rest, logProbs = first :: rest :=
    List.exists_cons_of_length_pos hframes
  obtain ⟨hfirst, hrest⟩ := List.forall_mem_cons.mp hcovers
  obtain ⟨row, hrow, hlen, hisFirst⟩ := firstRow_some hn hfirst
  obtain ⟨rows, hrows, hcount, hwidth, hnext⟩ := laterRows_some hrest hlen
  refine ⟨row :: rows, ?_, congrArg (· + 1) hcount, List.forall_mem_cons.mpr ⟨hlen, hwidth⟩,
    hisFirst, fun f hf => hnext f (Nat.lt_of_succ_lt_succ hf)⟩
  rw [trellisRows, List.getElem?_cons_zero, Option.bind_eq_bind, Option.bind_some, hrow,
    Option.bind_eq_bind, Option.bind_some, List.tail_cons, hrows]
  rfl

/-- The table is a Viterbi table of the trellis of the targets. -/
theorem IsTable.isViterbi {logProbs : List (List G)} {rows : List (List (Cell G))}
    (h : IsTable targetIds blank logProbs rows) (hn : 1 ≤ targetIds.length) :
    (ctcTrellis blank targetIds (emission logProbs)).IsViterbi logProbs.length
      (fun f s => scoreAt (rows.getD f []) s)
      (fun f s => (sourceAt (rows.getD f []) s).toNat) := by
  refine ⟨fun s hs => h.first.started s hs.1, fun s hs => ?_, fun f s t hf hmove => ?_,
    fun f t hf hfinite => ?_⟩
  · have hle : s ≤ 1 := by
      by_contra hlt
      exact hs (h.first.unstarted s (by omega))
    exact ⟨hle, by omega⟩
  · exact (h.next f hf).upper s t hmove
  · obtain ⟨s, hs, hmove, hscore⟩ := (h.next f hf).attained t hfinite
    rw [hs]
    exact ⟨hmove, hscore⟩

/-! ## Following the table back -/

section
variable {logProbs : List (List G)} {rows : List (List (Cell G))}

omit [AddCommGroup G] [LinearOrder G] in
theorem getElem?_row {row : List (Cell G)} {s : Nat} (hs : s < row.length) :
    row[s]? = some (scoreAt row s, sourceAt row s) := by
  rw [scoreAt, sourceAt, List.getD_eq_getElem _ _ hs, List.getElem?_eq_getElem hs]

omit [AddCommGroup G] [LinearOrder G] in
theorem pyIndex_nat {row : List (Cell G)} {s : Nat} (hs : s < row.length) :
    pyIndex row s = some (scoreAt row s, sourceAt row s) := by
  rw [pyIndex, if_pos (by omega), Int.toNat_natCast, getElem?_row hs]

omit [AddCommGroup G] [LinearOrder G] in
/-- A missing predecessor reads the last position. -/
theorem pyIndex_missing {row : List (Cell G)} (hrow : 0 < row.length) :
    pyIndex row (-1) = pyIndex row (row.length - 1 : Nat) := by
  rw [pyIndex, pyIndex, if_neg (by omega), if_pos (by omega), if_pos (by omega),
    Int.toNat_natCast]
  congr 1
  omega

theorem IsTable.row (h : IsTable targetIds blank logProbs rows) {f : Nat}
    (hf : f < logProbs.length) :
    rows[f]? = some (rows.getD f []) ∧ (rows.getD f []).length = 2 * targetIds.length + 1 := by
  have hlt : f < rows.length := h.count ▸ hf
  rw [List.getD_eq_getElem _ _ hlt]
  exact ⟨List.getElem?_eq_getElem hlt, h.width _ (List.getElem_mem hlt)⟩

theorem IsTable.backtrack_succ (h : IsTable targetIds blank logProbs rows) {f s : Nat}
    (hf : f < logProbs.length) (hs : s ≤ 2 * targetIds.length) :
    backtrack rows (f + 1) s =
      (backtrack rows f (sourceAt (rows.getD f []) s)).map (· ++ [(s : Int)]) := by
  obtain ⟨hrow, hlen⟩ := h.row hf
  rw [backtrack, hrow, Option.bind_eq_bind, Option.bind_some, pyIndex_nat (by omega),
    Option.bind_eq_bind, Option.bind_some]
  cases backtrack rows f (sourceAt (rows.getD f []) s) <;> rfl

theorem IsTable.backtrack_missing (h : IsTable targetIds blank logProbs rows) {f : Nat}
    (hf : f < logProbs.length) :
    backtrack rows (f + 1) (-1) =
      (backtrack rows f (sourceAt (rows.getD f []) (2 * targetIds.length))).map (· ++ [-1]) := by
  obtain ⟨hrow, hlen⟩ := h.row hf
  rw [backtrack, hrow, Option.bind_eq_bind, Option.bind_some, pyIndex_missing (by omega), hlen,
    Nat.add_sub_cancel, pyIndex_nat (by omega), Option.bind_eq_bind, Option.bind_some]
  cases backtrack rows f (sourceAt (rows.getD f []) (2 * targetIds.length)) <;> rfl

/-- From a position that has a score, the path is a walk with that score. -/
theorem IsTable.backtrack_walk [IsOrderedAddMonoid G] (h : IsTable targetIds blank logProbs rows)
    (hn : 1 ≤ targetIds.length) {last s : Nat} (hlast : last < logProbs.length)
    (hs : s ≤ 2 * targetIds.length) (hfinite : scoreAt (rows.getD last []) s ≠ ⊥) :
    ∃ path : Nat → Nat, path last = s ∧
      (ctcTrellis blank targetIds (emission logProbs)).IsWalk last path ∧
      scoreAt (rows.getD last []) s =
        (ctcTrellis blank targetIds (emission logProbs)).score last path ∧
      backtrack rows (last + 1) s = some ((List.range (last + 1)).map fun f => (path f : Int)) := by
  have hviterbi := h.isViterbi hn
  suffices htraced : ∃ path : Nat → Nat, path last = s ∧
      (∀ f < last, path f = (sourceAt (rows.getD (f + 1) []) (path (f + 1))).toNat) ∧
      backtrack rows (last + 1) s =
        some ((List.range (last + 1)).map fun f => (path f : Int)) by
    obtain ⟨path, rfl, htrace, hpath⟩ := htraced
    obtain ⟨hwalk, hscore⟩ := hviterbi.traced hlast hfinite htrace
    exact ⟨path, rfl, hwalk, hscore, hpath⟩
  induction last generalizing s with
  | zero =>
    refine ⟨fun _ => s, rfl, fun f hf => absurd hf (Nat.not_lt_zero f), ?_⟩
    rw [h.backtrack_succ hlast hs]
    rfl
  | succ last ih =>
    obtain ⟨source, hsource, hmove, -⟩ := (h.next last hlast).attained s hfinite
    have hback := hviterbi.back_ne_bot hlast hfinite
    have hle : source ≤ 2 * targetIds.length := hmove.mono.trans hs
    rw [hsource, Int.toNat_natCast] at hback
    obtain ⟨path, hpath, htrace, hrun⟩ := ih (by omega) hle hback
    obtain ⟨path', hnew, hsame⟩ := Trellis.exists_continued path last s
    refine ⟨path', hnew, fun f hf => ?_, ?_⟩
    · obtain hlt | rfl : f < last ∨ f = last := by omega
      · rw [hsame f hlt.le, hsame (f + 1) hlt]
        exact htrace f hlt
      · rw [hsame f le_rfl, hnew, hpath, hsource, Int.toNat_natCast]
    · rw [h.backtrack_succ hlast hs, hsource, hrun, Option.map_some, List.range_succ (n := last + 1),
        List.map_append, List.map_singleton, hnew]
      refine congrArg (fun l => some (l ++ [(s : Int)])) (List.map_congr_left fun f hf => ?_)
      rw [hsame f (by have := List.mem_range.mp hf; omega)]

/-- Where the last column has no score, the path is a column of missing predecessors. -/
theorem IsTable.backtrack_stuck (h : IsTable targetIds blank logProbs rows)
    (hstuck : ∀ f < logProbs.length, sourceAt (rows.getD f []) (2 * targetIds.length) = -1)
    {f : Nat} (hf : f ≤ logProbs.length) : backtrack rows f (-1) = some (List.replicate f (-1)) := by
  induction f with
  | zero => rfl
  | succ f ih =>
    rw [h.backtrack_missing hf, hstuck f hf, ih (by omega), List.replicate_succ']
    rfl

end

end Apm.Pronunciation
