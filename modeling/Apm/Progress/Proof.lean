import Apm.Lib.Counter
import Apm.Lib.Keyset
import Apm.Llm.JsonObject
import Apm.Progress.Rows
import Mathlib.Data.List.Lex
import Mathlib.Data.List.Sort

/-!
# The proof of progress

`proof` compares the first and the latest debriefed session on a scenario, each read by a query of
its own. The errors of a session are counted by type, and a type is compared by its rate: errors per
turn of the learner, or the plain count where no turn is known.
-/

namespace Apm.Progress

open Apm.Core Apm.Lib
open Apm.Lib.Json (Text Value text)
open Apm.Llm (Overflow toText ok_of_bind)
open Apm.Debriefs.Analyzer (Interpreter stripText)

set_option autoImplicit false

structure SessionErrors where
  sessionId : Nat
  startedAt : Instant
  cefr : Text
  errorCounts : Counter Text
  turnCount : Nat

structure ProofDelta where
  skill : String
  baselineSessionId : Nat
  latestSessionId : Nat
  baselineStartedAt : Instant
  latestStartedAt : Instant
  baselineCefr : Text
  latestCefr : Text
  baselineTurns : Nat
  latestTurns : Nat
  resolved : List Text
  improved : List Text
  newOrWorse : List Text

/-! ## What a session says -/

/-- `isinstance(value, dict)` -/
def asDict : Value → Option (List (Text × Value))
  | .dict entries => some entries
  | _ => none

/-- `etype.strip() or "other"` -/
def orOther (etype : Text) : Text :=
  if stripText etype = [] then text "other" else stripText etype

/-- `str(error.get("error_type", "")).strip() or "other"` -/
def errorType (py : Interpreter) (entries : List (Text × Value)) : Except Overflow Text := do
  let etype ← toText py (Json.get entries "error_type" (.str []))
  .ok (orOther etype)

def errorTypes (py : Interpreter) (errors : List Value) : Except Overflow (List Text) :=
  (errors.filterMap asDict).mapM (errorType py)

/-- A turn of the learner. -/
def isUserTurn (turn : Value) : Bool :=
  match turn with
  | .dict entries =>
    match Json.get entries "role" .null with
    | .str role => role = text "user"
    | _ => false
  | _ => false

/-- `_to_session_errors` -/
def toSessionErrors (py : Interpreter) (row : Debriefed) : Except Overflow SessionErrors := do
  let types ← errorTypes py row.debrief.errors
  .ok ⟨row.session.id, row.session.startedAt, row.debrief.cefrEstimate, Counter.tally types,
    (row.turns.getD []).countP isUserTurn⟩

/-! ## The queries -/

/-- `_edge_query(started_at.asc(), id.asc())` -/
def baselineRow (w : World) (userId : Nat) (skill : String) : Option Debriefed :=
  firstRow Debriefed.key (w.onSkill userId skill)

/-- `_edge_query(started_at.desc(), id.desc())` -/
def latestRow (w : World) (userId : Nat) (skill : String) : Option Debriefed :=
  firstRow (fun r => OrderDual.toDual r.key) (w.onSkill userId skill)

/-- `sessions_for_skill`: the second query may see a later state than the first. -/
def sessionsForSkill (py : Interpreter) (first second : World) (userId : Nat) (skill : String) :
    Except Overflow (List SessionErrors) :=
  match baselineRow first userId skill with
  | none => .ok []
  | some row => do
    let baseline ← toSessionErrors py row
    match latestRow second userId skill with
    | none => .ok [baseline]
    | some row => do
      let latest ← toSessionErrors py row
      .ok (if latest.sessionId = baseline.sessionId then [baseline] else [baseline, latest])

/-! ## The comparison -/

/-- `_rate`, as the exact quotient: the floats of quotients of numbers below 2^26 compare as it
does. -/
def rate (count turns : Nat) : ℚ := if 0 < turns then count / turns else count

/-- `sorted` of some texts. -/
def sorted (texts : List Text) : List Text := texts.insertionSort (· ≤ ·)

def resolved (baseline latest : SessionErrors) : List Text :=
  sorted ((baseline.errorCounts.filter fun e =>
    0 < e.2 ∧ latest.errorCounts.get e.1 = 0).map Prod.fst)

def improved (baseline latest : SessionErrors) : List Text :=
  sorted ((baseline.errorCounts.filter fun e => 0 < e.2 ∧ 0 < latest.errorCounts.get e.1 ∧
    rate (latest.errorCounts.get e.1) latest.turnCount < rate e.2 baseline.turnCount).map Prod.fst)

def newOrWorse (baseline latest : SessionErrors) : List Text :=
  sorted ((latest.errorCounts.filter fun e => 0 < e.2 ∧
    rate (baseline.errorCounts.get e.1) baseline.turnCount <
      rate e.2 latest.turnCount).map Prod.fst)

def delta (skill : String) (baseline latest : SessionErrors) : ProofDelta :=
  ⟨skill, baseline.sessionId, latest.sessionId, baseline.startedAt, latest.startedAt, baseline.cefr,
    latest.cefr, baseline.turnCount, latest.turnCount, resolved baseline latest,
    improved baseline latest, newOrWorse baseline latest⟩

/-- `ProofService.proof` -/
def proof (py : Interpreter) (first second : World) (userId : Nat) (skill : String) :
    Except Overflow (Option ProofDelta) := do
  match ← sessionsForSkill py first second userId skill with
  | baseline :: later :: rest =>
    .ok (some (delta skill baseline ((later :: rest).getLast (by simp))))
  | _ => .ok none

/-! ## Rates -/

theorem rate_zero (turns : Nat) : rate 0 turns = 0 := by
  unfold rate
  split_ifs <;> simp

theorem rate_pos {count : Nat} (h : 0 < count) (turns : Nat) : 0 < rate count turns := by
  unfold rate
  split_ifs with hturns
  · positivity
  · exact_mod_cast h

theorem rate_nonneg (count turns : Nat) : 0 ≤ rate count turns := by
  unfold rate
  split_ifs <;> positivity

/-- A rate above another is not of an absent type. -/
theorem pos_of_rate_lt {count count' turns turns' : Nat} (h : rate count turns < rate count' turns') :
    0 < count' := by
  refine Nat.pos_of_ne_zero fun hzero => ?_
  rw [hzero, rate_zero] at h
  exact absurd h (not_lt.mpr (rate_nonneg _ _))

/-! ## The types of one list -/

theorem mem_sorted {texts : List Text} {t : Text} : t ∈ sorted texts ↔ t ∈ texts :=
  List.mem_insertionSort _

theorem pairwise_sorted {texts : List Text} (h : texts.Nodup) :
    (sorted texts).Pairwise (· < ·) := by
  have hle : (sorted texts).Pairwise (· ≤ ·) := List.pairwise_insertionSort _ _
  have hne : (sorted texts).Nodup := (List.perm_insertionSort _ texts).nodup_iff.mpr h
  exact (hle.and hne).imp fun h => lt_of_le_of_ne h.1 h.2

/-- The types of a counter that pass a test on their counts. -/
theorem mem_picked {types : List Text} {p : Text → Nat → Bool} {t : Text} :
    t ∈ sorted (((Counter.tally types).filter fun e => p e.1 e.2).map Prod.fst) ↔
      t ∈ types ∧ p t (types.count t) = true := by
  rw [mem_sorted, List.mem_map]
  constructor
  · rintro ⟨⟨k, n⟩, hmem, rfl⟩
    obtain ⟨hmem, hp⟩ := List.mem_filter.mp hmem
    obtain ⟨hk, hn⟩ := (Counter.mem_tally_iff types).mp hmem
    exact ⟨hk, hn ▸ hp⟩
  · rintro ⟨ht, hp⟩
    exact ⟨(t, types.count t),
      List.mem_filter.mpr ⟨(Counter.mem_tally_iff types).mpr ⟨ht, rfl⟩, hp⟩, rfl⟩

theorem pairwise_picked {types : List Text} {p : Text × Nat → Bool} :
    (sorted (((Counter.tally types).filter p).map Prod.fst)).Pairwise (· < ·) :=
  pairwise_sorted ((Counter.counts_tally types).nodup.sublist (List.filter_sublist.map Prod.fst))

/-! ## What a delta says -/

/-- The verdicts on the types of two sessions are the changes of their rates. -/
structure Honest (types types' : List Text) (turns turns' : Nat) (d : ProofDelta) : Prop where
  gone : ∀ t, t ∈ d.resolved ↔ 0 < types.count t ∧ types'.count t = 0
  fell : ∀ t, (t ∈ d.resolved ∨ t ∈ d.improved) ↔
    rate (types'.count t) turns' < rate (types.count t) turns
  rose : ∀ t, t ∈ d.newOrWorse ↔ rate (types.count t) turns < rate (types'.count t) turns'
  apart : ∀ t ∈ d.improved, t ∉ d.resolved
  ordered : d.resolved.Pairwise (· < ·) ∧ d.improved.Pairwise (· < ·) ∧
    d.newOrWorse.Pairwise (· < ·)

section delta

variable {types types' : List Text} {turns turns' : Nat} {t : Text}
  {skill : String} {baseline latest : SessionErrors}

theorem mem_resolved (hb : baseline.errorCounts = Counter.tally types)
    (hl : latest.errorCounts = Counter.tally types') :
    t ∈ resolved baseline latest ↔ 0 < types.count t ∧ types'.count t = 0 := by
  rw [resolved, hb, hl]
  refine (mem_picked (p := fun k n => 0 < n ∧ (Counter.tally types').get k = 0)).trans ?_
  rw [decide_eq_true_iff, Counter.get_tally]
  exact ⟨And.right, fun h => ⟨List.count_pos_iff.mp h.1, h⟩⟩

theorem mem_improved (hb : baseline.errorCounts = Counter.tally types)
    (hl : latest.errorCounts = Counter.tally types') :
    t ∈ improved baseline latest ↔ 0 < types.count t ∧ 0 < types'.count t ∧
      rate (types'.count t) latest.turnCount < rate (types.count t) baseline.turnCount := by
  rw [improved, hb, hl]
  refine (mem_picked (p := fun k n => 0 < n ∧ 0 < (Counter.tally types').get k ∧
    rate ((Counter.tally types').get k) latest.turnCount < rate n baseline.turnCount)).trans ?_
  rw [decide_eq_true_iff, Counter.get_tally]
  exact ⟨And.right, fun h => ⟨List.count_pos_iff.mp h.1, h⟩⟩

theorem mem_newOrWorse (hb : baseline.errorCounts = Counter.tally types)
    (hl : latest.errorCounts = Counter.tally types') :
    t ∈ newOrWorse baseline latest ↔ 0 < types'.count t ∧
      rate (types.count t) baseline.turnCount < rate (types'.count t) latest.turnCount := by
  rw [newOrWorse, hb, hl]
  refine (mem_picked (p := fun k n => 0 < n ∧
    rate ((Counter.tally types).get k) baseline.turnCount < rate n latest.turnCount)).trans ?_
  rw [decide_eq_true_iff, Counter.get_tally]
  exact ⟨And.right, fun h => ⟨List.count_pos_iff.mp h.1, h⟩⟩

theorem honest_delta (hb : baseline.errorCounts = Counter.tally types)
    (hl : latest.errorCounts = Counter.tally types') :
    Honest types types' baseline.turnCount latest.turnCount (delta skill baseline latest) where
  gone _ := mem_resolved hb hl
  fell t := by
    refine (or_congr (mem_resolved hb hl) (mem_improved hb hl)).trans ⟨?_, fun h => ?_⟩
    · rintro (⟨hcount, hnone⟩ | ⟨-, -, hless⟩)
      · rw [hnone, rate_zero]
        exact rate_pos hcount _
      · exact hless
    · have hcount : 0 < types.count t := pos_of_rate_lt h
      obtain hnone | hsome := Nat.eq_zero_or_pos (types'.count t)
      · exact .inl ⟨hcount, hnone⟩
      · exact .inr ⟨hcount, hsome, h⟩
  rose _ := (mem_newOrWorse hb hl).trans ⟨And.right, fun h => ⟨pos_of_rate_lt h, h⟩⟩
  apart t himproved hresolved := by
    obtain ⟨-, hnone⟩ := (mem_resolved hb hl).mp hresolved
    obtain ⟨-, hsome, -⟩ := (mem_improved hb hl).mp himproved
    omega
  ordered := by
    rw [delta, resolved, improved, newOrWorse, hb, hl]
    exact ⟨pairwise_picked, pairwise_picked, pairwise_picked⟩

end delta

/-! ## The two reads -/

section reads

variable {py : Interpreter} {first second w : World} {userId : Nat} {skill : String}
  {row baseline : Debriefed}

theorem baselineRow_eq_some (h : baselineRow w userId skill = some row) :
    row ∈ w.onSkill userId skill ∧ ∀ r ∈ w.onSkill userId skill, row.key ≤ r.key :=
  firstRow_eq_some h

theorem latestRow_eq_some (h : latestRow w userId skill = some row) :
    row ∈ w.onSkill userId skill ∧ ∀ r ∈ w.onSkill userId skill, r.key ≤ row.key := by
  obtain ⟨hmem, hle⟩ := firstRow_eq_some h
  exact ⟨hmem, fun r hr => OrderDual.toDual_le_toDual.mp (hle r hr)⟩

theorem toSessionErrors_ok {e : SessionErrors} (h : toSessionErrors py row = .ok e) :
    ∃ types, errorTypes py row.debrief.errors = .ok types ∧
      e = ⟨row.session.id, row.session.startedAt, row.debrief.cefrEstimate, Counter.tally types,
        (row.turns.getD []).countP isUserTurn⟩ := by
  obtain ⟨types, htypes, he⟩ := ok_of_bind h
  exact ⟨types, htypes, (Except.ok.inj he).symm⟩

theorem proof_ok {answer : Option ProofDelta}
    (h : proof py first second userId skill = .ok answer) :
    (answer = none ∧ (baselineRow first userId skill = none ∨ latestRow second userId skill = none ∨
      ∃ b l, baselineRow first userId skill = some b ∧ latestRow second userId skill = some l ∧
        l.session.id = b.session.id)) ∨
    ∃ b l e e', baselineRow first userId skill = some b ∧ latestRow second userId skill = some l ∧
      l.session.id ≠ b.session.id ∧ toSessionErrors py b = .ok e ∧ toSessionErrors py l = .ok e' ∧
      answer = some (delta skill e e') := by
  obtain ⟨sessions, hsessions, hanswer⟩ := ok_of_bind h
  rw [sessionsForSkill] at hsessions
  split at hsessions
  · rename_i hb
    obtain rfl := Except.ok.inj hsessions
    exact .inl ⟨(Except.ok.inj hanswer).symm, .inl hb⟩
  · rename_i b hb
    obtain ⟨e, he, hsessions⟩ := ok_of_bind hsessions
    split at hsessions
    · rename_i hl
      obtain rfl := Except.ok.inj hsessions
      exact .inl ⟨(Except.ok.inj hanswer).symm, .inr (.inl hl)⟩
    · rename_i l hl
      obtain ⟨e', he', hsessions⟩ := ok_of_bind hsessions
      obtain ⟨types, -, rfl⟩ := toSessionErrors_ok he
      obtain ⟨types', -, rfl⟩ := toSessionErrors_ok he'
      split_ifs at hsessions with hid
      · obtain rfl := Except.ok.inj hsessions
        exact .inl ⟨(Except.ok.inj hanswer).symm, .inr (.inr ⟨b, l, hb, hl, hid⟩)⟩
      · obtain rfl := Except.ok.inj hsessions
        exact .inr ⟨b, l, _, _, hb, hl, hid, he, he', (Except.ok.inj hanswer).symm⟩

/-- What is read later has not started before the baseline. -/
theorem startedAt_le {es : List Event} {latest : Debriefed} (hw : Inv first)
    (h : run step first es = some second) (hb : baseline ∈ first.onSkill userId skill)
    (hl : latest ∈ second.onSkill userId skill)
    (hlast : ∀ r ∈ second.onSkill userId skill, r.key ≤ latest.key) :
    baseline.session.startedAt ≤ latest.session.startedAt := by
  obtain ⟨hmem, ⟨huser, hskill⟩, hjoined⟩ := mem_onSkill.mp hb
  obtain ⟨hmem', ⟨huser', -⟩, -⟩ := mem_onSkill.mp hl
  have hdebrief : baseline.session.id ∈ first.debriefs.keys := by
    obtain ⟨d, hd, -⟩ := Option.map_eq_some_iff.mp hjoined
    exact Table.mem_keys_iff.mpr ⟨d, hd⟩
  have hkept : Kept baseline.session second :=
    kept_of_run hw ⟨hw.past _ hmem, .inl ⟨hmem, hdebrief⟩⟩ h
  obtain ⟨-, ⟨hstays, hdebriefed⟩ | hlater⟩ := hkept
  · obtain ⟨d, hd⟩ := Table.mem_keys_iff.mp hdebriefed
    have hrow : (⟨baseline.session, d, (second.transcripts.get baseline.session.id).map
        Transcript.turns⟩ : Debriefed) ∈ second.onSkill userId skill :=
      mem_onSkill.mpr ⟨hstays, ⟨huser, hskill⟩, by rw [World.joined, hd]; rfl⟩
    have hstart := startedAt_le_of_key (hlast _ hrow)
    exact hstart
  · exact hlater _ hmem' (huser'.trans huser.symm)

/-- A session that is read twice is the same. -/
theorem key_of_id {clock : Nat → Instant} {es es' : List Event} {latest : Debriefed}
    (hfirst : run step (.init clock) es = some first) (hsecond : run step first es' = some second)
    (hb : baseline ∈ first.onSkill userId skill) (hl : latest ∈ second.onSkill userId skill)
    (hid : latest.session.id = baseline.session.id) : latest.key = baseline.key := by
  obtain ⟨hmem, -⟩ := mem_onSkill.mp hb
  obtain ⟨hmem', -⟩ := mem_onSkill.mp hl
  have hold : latest.session ∈ first.sessions.rows :=
    old_of_run hsecond _ hmem' (hid ▸ (inv_of_run hfirst).ids _ hmem)
  have hsession : latest.session = baseline.session :=
    List.inj_on_of_nodup_map first.sessions.unique hold hmem hid
  rw [Debriefed.key, hsession, Debriefed.key]

end reads

/-- **A delta compares two sessions of the learner in their order, and calls a type better or worse
exactly when its rate fell or rose.** The two queries read two states with any starts, debriefs and
erasures between them. When there is a delta, its baseline is the first debriefed session on the
scenario at the first read and its latest another one, the last at the second read, which started
no earlier. A type is resolved when it was made and is gone, resolved or improved exactly when its
rate fell, and new or worse exactly when it rose. Where there is no delta, the second read has no
other session behind the baseline. -/
theorem proof_honest {py : Interpreter} {clock : Nat → Instant} {es es' : List Event}
    {first second : World} {userId : Nat} {skill : String} {answer : Option ProofDelta}
    (hfirst : run step (.init clock) es = some first) (hsecond : run step first es' = some second)
    (h : proof py first second userId skill = .ok answer) :
    (∀ d, answer = some d → ∃ b ∈ first.onSkill userId skill, ∃ l ∈ second.onSkill userId skill,
      (∀ r ∈ first.onSkill userId skill, b.key ≤ r.key) ∧
      (∀ r ∈ second.onSkill userId skill, r.key ≤ l.key) ∧
      d.baselineSessionId = b.session.id ∧ d.latestSessionId = l.session.id ∧
      b.session.id ≠ l.session.id ∧ b.session.startedAt ≤ l.session.startedAt ∧
      d.baselineTurns = (b.turns.getD []).countP isUserTurn ∧
      d.latestTurns = (l.turns.getD []).countP isUserTurn ∧
      ∃ types types', errorTypes py b.debrief.errors = .ok types ∧
        errorTypes py l.debrief.errors = .ok types' ∧
        Honest types types' d.baselineTurns d.latestTurns d) ∧
    (answer = none → ∀ b ∈ first.onSkill userId skill,
      (∀ r ∈ first.onSkill userId skill, b.key ≤ r.key) →
      ∀ r ∈ second.onSkill userId skill, b.key ≤ r.key → r.session.id = b.session.id) := by
  obtain ⟨rfl, hnone⟩ | ⟨b, l, e, e', hb, hl, hid, he, he', rfl⟩ := proof_ok h
  · refine ⟨fun d hd => (by cases hd), fun _ b hmem hleast r hr hle => ?_⟩
    obtain hb | hl | ⟨b', l, hb, hl, hid⟩ := hnone
    · rw [firstRow_eq_none.mp hb] at hmem
      cases hmem
    · rw [firstRow_eq_none.mp hl] at hr
      cases hr
    · obtain ⟨hmem', hleast'⟩ := baselineRow_eq_some hb
      obtain ⟨hmeml, hlast⟩ := latestRow_eq_some hl
      have hkey : b.key = b'.key := (hleast b' hmem').antisymm (hleast' b hmem)
      have hsame : l.key = b'.key := key_of_id hfirst hsecond hmem' hmeml hid
      have hrow : r.key = b.key := ((hlast r hr).trans (hsame.trans hkey.symm).le).antisymm hle
      exact congrArg (fun k => (ofLex k).2) hrow
  · refine ⟨fun d hd => ?_, fun hnone => (by cases hnone)⟩
    obtain rfl := Option.some.inj hd
    obtain ⟨hb, hleast⟩ := baselineRow_eq_some hb
    obtain ⟨hl, hlast⟩ := latestRow_eq_some hl
    obtain ⟨types, htypes, hcounts⟩ := toSessionErrors_ok he
    obtain ⟨types', htypes', hcounts'⟩ := toSessionErrors_ok he'
    have hhonest : Honest types types' e.turnCount e'.turnCount (delta skill e e') :=
      honest_delta (by rw [hcounts]) (by rw [hcounts'])
    have hstarts := startedAt_le (inv_of_run hfirst) hsecond hb hl hlast
    exact ⟨b, hb, l, hl, hleast, hlast, congrArg SessionErrors.sessionId hcounts,
      congrArg SessionErrors.sessionId hcounts', Ne.symm hid, hstarts,
      congrArg SessionErrors.turnCount hcounts, congrArg SessionErrors.turnCount hcounts', types,
      types', htypes, htypes', hhonest⟩

/-- An interpreter that writes floats as they are and prints every character. -/
def plain : Interpreter := ⟨⟨id, fun _ => true, 1000⟩, 1000⟩

def errorOf (etype : String) : Value := .dict [(text "error_type", .str (text etype))]

/-- Two sessions on one scenario; the second is debriefed between the reads. -/
def firstSession : List Event :=
  [.started 1 (some "cafe") 10,
    .debriefed ⟨0, text "A2", [errorOf "article", errorOf "verb_tense"]⟩, .started 1 (some "cafe") 20]

def secondDebrief : List Event :=
  [.saved ⟨1, [.dict [(text "role", .str (text "user"))]]⟩,
    .debriefed ⟨1, text "B1", [errorOf "article"]⟩]

/-- The sessions of the delta, if there is one. -/
def sessionsOf : Except Overflow (Option ProofDelta) → Option (Nat × Nat)
  | .ok (some d) => some (d.baselineSessionId, d.latestSessionId)
  | _ => none

theorem proof_honest_twoSessions : ∃ first second d,
    run step (.init fun _ => 0) firstSession = some first ∧ run step first secondDebrief = some second ∧
    proof plain first second 1 "cafe" = .ok (some d) ∧
    d.baselineSessionId ≠ d.latestSessionId := by
  have hcheck : (run step (.init fun _ => 0) firstSession).bind (fun first =>
      (run step first secondDebrief).map fun second =>
        sessionsOf (proof plain first second 1 "cafe")) = some (some (0, 1)) := by decide +kernel
  obtain ⟨first, hfirst, hrest⟩ := Option.bind_eq_some_iff.mp hcheck
  obtain ⟨second, hsecond, hsessions⟩ := Option.map_eq_some_iff.mp hrest
  cases hproof : proof plain first second 1 "cafe" with
  | error e => rw [hproof] at hsessions; cases hsessions
  | ok answer =>
    cases answer with
    | none => rw [hproof] at hsessions; cases hsessions
    | some d =>
      obtain ⟨hdelta, -⟩ := proof_honest hfirst hsecond hproof
      obtain ⟨b, -, l, -, -, -, hb, hl, hid, -⟩ := hdelta d rfl
      exact ⟨first, second, d, hfirst, hsecond, hproof, by rw [hb, hl]; exact hid⟩

end Apm.Progress
