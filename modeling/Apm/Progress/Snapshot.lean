import Apm.Progress.Proof

/-!
# The snapshot of progress

The trend of the levels over the last debriefed sessions, and the types of error that recur in the
last debriefs. The debriefs are read in the order of their starts alone, so the database may put
those of one instant in any order; the trend breaks such ties by the id.
-/

namespace Apm.Progress

open Apm.Core Apm.Lib
open Apm.Lib.Json (Text Value text)
open Apm.Llm (Overflow toText ok_of_bind)
open Apm.Debriefs.Analyzer (Interpreter)

set_option autoImplicit false

structure CefrPoint where
  sessionId : Nat
  startedAt : Instant
  level : Text

structure RecurringError where
  errorType : Text
  count : Nat
  latestCorrection : Text

structure ProgressSnapshot where
  cefrTrend : List CefrPoint
  recurringErrors : List RecurringError

def recentDebriefsWindow : Nat := 5
def maxRecurringErrors : Nat := 3
def maxTrendPoints : Nat := 100

/-! ## The queries -/

def cefrPoint (r : Debriefed) : CefrPoint :=
  ⟨r.session.id, r.session.startedAt, r.debrief.cefrEstimate⟩

/-- The key of `ORDER BY started_at DESC, id DESC`. -/
def Debriefed.newestFirst (r : Debriefed) : (Instant ×ₗ Nat)ᵒᵈ := OrderDual.toDual r.key

/-- `cefr_points` -/
def cefrPoints (w : World) (userId limit : Nat) : List CefrPoint :=
  ((pageAfter Debriefed.newestFirst limit none (w.ofUser userId)).map cefrPoint).reverse

/-- What the database may answer to `ORDER BY started_at DESC LIMIT window`. -/
def Recent (w : World) (userId window : Nat) (debriefs : List Debriefed) : Prop :=
  debriefs.length = min window (w.ofUser userId).length ∧
    ∃ rest, (debriefs ++ rest).Perm (w.ofUser userId) ∧
      (debriefs ++ rest).Pairwise fun r r' => r'.session.startedAt ≤ r.session.startedAt

/-- `(str(error.get("error_type", "")), str(error.get("correction", "")))` -/
def errorRow (py : Interpreter) (entries : List (Text × Value)) :
    Except Overflow (Text × Text) := do
  let errorType ← toText py (Json.get entries "error_type" (.str []))
  let correction ← toText py (Json.get entries "correction" (.str []))
  .ok (errorType, correction)

def errorRows (py : Interpreter) (r : Debriefed) : Except Overflow (List (Text × Text)) :=
  (r.debrief.errors.filterMap asDict).mapM (errorRow py)

/-- `recent_error_rows`, of the debriefs that the query has answered. -/
def recentErrorRows (py : Interpreter) (debriefs : List Debriefed) :
    Except Overflow (List (Text × Text)) := do
  let rows ← debriefs.mapM (errorRows py)
  .ok rows.flatten

/-! ## The errors that recur -/

/-- A row under the type it is counted for. -/
def typed (row : Text × Text) : Text × Text := (orOther row.1, row.2)

/-- The key of the sort: most frequent first, ties by the name of the type. -/
def RecurringError.key (e : RecurringError) : Int ×ₗ Text := toLex (-(e.count : Int), e.errorType)

/-- All the types, each with its count and its first correction. -/
def tallied (rows : List (Text × Text)) : List RecurringError :=
  (Counter.tally ((rows.map typed).map Prod.fst)).map fun e =>
    ⟨e.1, e.2, (((rows.map typed).foldl setDefault []).lookup e.1).getD []⟩

/-- `_recurring` -/
def recurring (rows : List (Text × Text)) : List RecurringError :=
  pageAfter RecurringError.key maxRecurringErrors none (tallied rows)

/-- `ProgressService.snapshot` -/
def snapshot (py : Interpreter) (w : World) (debriefs : List Debriefed) (userId : Nat) :
    Except Overflow ProgressSnapshot := do
  let rows ← recentErrorRows py debriefs
  .ok ⟨cefrPoints w userId maxTrendPoints, recurring rows⟩

section tallied

variable {rows : List (Text × Text)} {e : RecurringError}

theorem mem_tallied : e ∈ tallied rows ↔
    e.errorType ∈ (rows.map typed).map Prod.fst ∧
      ((rows.map typed).map Prod.fst).count e.errorType = e.count ∧
      (rows.map typed).lookup e.errorType = some e.latestCorrection := by
  have hlookup (t : Text) :
      ((rows.map typed).foldl setDefault []).lookup t = (rows.map typed).lookup t := by
    rw [lookup_foldl_setDefault, List.lookup_nil, Option.none_or]
  rw [tallied, List.mem_map]
  constructor
  · rintro ⟨⟨t, n⟩, hmem, rfl⟩
    obtain ⟨ht, hn⟩ := (Counter.mem_tally_iff _).mp hmem
    obtain ⟨correction, hfirst⟩ := exists_lookup ht
    refine ⟨ht, hn, ?_⟩
    rw [hlookup, hfirst]
    rfl
  · rintro ⟨ht, hn, hfirst⟩
    refine ⟨(e.errorType, e.count), (Counter.mem_tally_iff _).mpr ⟨ht, hn⟩, ?_⟩
    rw [hlookup, hfirst]
    rfl

theorem nodup_tallied : ((tallied rows).map RecurringError.key).Nodup := by
  have htypes : ((tallied rows).map RecurringError.errorType).Nodup := by
    rw [tallied, List.map_map]
    exact (Counter.counts_tally _).nodup
  have hkeys : (tallied rows).map RecurringError.errorType =
      ((tallied rows).map RecurringError.key).map fun k => (ofLex k).2 := by
    rw [List.map_map]
    rfl
  rw [hkeys] at htypes
  exact htypes.of_map

theorem firsts_recurring :
    Firsts RecurringError.key maxRecurringErrors (tallied rows) (recurring rows) :=
  firsts_pageAfter nodup_tallied

end tallied

/-! ## What a snapshot says -/

/-- The debrief lists an error of the type, with the correction. -/
def Corrects (py : Interpreter) (r : Debriefed) (t correction : Text) : Prop :=
  ∃ rows, errorRows py r = .ok rows ∧ (t, correction) ∈ rows.map typed

/-- The most frequent types of the debriefs, each with its newest correction. -/
structure Recurs (py : Interpreter) (debriefs : List Debriefed) (types : List Text)
    (shown : List RecurringError) : Prop where
  counted : ∀ e ∈ shown, 0 < e.count ∧ types.count e.errorType = e.count
  length_eq : shown.length = min maxRecurringErrors types.dedup.length
  ordered : shown.Pairwise fun e e' =>
    e'.count < e.count ∨ e'.count = e.count ∧ e.errorType < e'.errorType
  most : ∀ t ∈ types, t ∉ shown.map RecurringError.errorType → ∀ e ∈ shown,
    types.count t < e.count ∨ types.count t = e.count ∧ e.errorType < t
  newest : ∀ e ∈ shown, ∃ r ∈ debriefs, Corrects py r e.errorType e.latestCorrection ∧
    ∀ r' ∈ debriefs, ∀ correction, Corrects py r' e.errorType correction →
      r'.session.startedAt ≤ r.session.startedAt

section snapshot

variable {py : Interpreter} {first second : World} {userId : Nat} {debriefs : List Debriefed}

theorem key_lt_iff {e e' : RecurringError} : e.key < e'.key ↔
    e'.count < e.count ∨ e'.count = e.count ∧ e.errorType < e'.errorType := by
  rw [RecurringError.key, RecurringError.key, Prod.Lex.toLex_lt_toLex]
  refine or_congr ?_ (and_congr ?_ Iff.rfl)
  · simp only
    omega
  · simp only
    omega

/-- The rows come newest debrief first, so the first row of a type is of its newest debrief. -/
theorem newest_of_lookup {rows : List (List (Text × Text))} {t correction : Text}
    (hrows : debriefs.mapM (errorRows py) = .ok rows)
    (hordered : debriefs.Pairwise fun r r' => r'.session.startedAt ≤ r.session.startedAt)
    (h : (rows.flatten.map typed).lookup t = some correction) :
    ∃ r ∈ debriefs, Corrects py r t correction ∧
      ∀ r' ∈ debriefs, ∀ other, Corrects py r' t other →
        r'.session.startedAt ≤ r.session.startedAt := by
  induction debriefs generalizing rows with
  | nil =>
    obtain rfl := Except.ok.inj hrows
    cases h
  | cons r rest ih =>
    rw [List.mapM_cons] at hrows
    obtain ⟨own, hown, hrows⟩ := ok_of_bind hrows
    obtain ⟨others, hothers, hrows⟩ := ok_of_bind hrows
    obtain rfl := Except.ok.inj hrows
    obtain ⟨hlater, hordered⟩ := List.pairwise_cons.mp hordered
    rw [List.flatten_cons, List.map_append, List.lookup_append] at h
    cases hfirst : (own.map typed).lookup t with
    | some c =>
      rw [hfirst, Option.some_or] at h
      obtain rfl := Option.some.inj h
      obtain ⟨front, back, happend, -⟩ := List.lookup_eq_some_iff.mp hfirst
      have hmem : (t, c) ∈ own.map typed := by
        rw [happend]
        exact List.mem_append_right _ List.mem_cons_self
      refine ⟨r, List.mem_cons_self, ⟨own, hown, hmem⟩, fun r' hr' _ _ => ?_⟩
      rcases List.mem_cons.mp hr' with rfl | hr'
      · exact le_rfl
      · exact hlater r' hr'
    | none =>
      rw [hfirst, Option.none_or] at h
      obtain ⟨r₀, hr₀, hcorrects, hnewest⟩ := ih hothers hordered h
      refine ⟨r₀, List.mem_cons_of_mem _ hr₀, hcorrects, fun r' hr' other hother => ?_⟩
      rcases List.mem_cons.mp hr' with rfl | hr'
      · obtain ⟨own', hown', hmem⟩ := hother
        obtain rfl := Except.ok.inj (hown'.symm.trans hown)
        exact absurd rfl (bne_iff_ne.mp (List.lookup_eq_none_iff.mp hfirst _ hmem))
      · exact hnewest r' hr' other hother

theorem recurs_recurring {rows : List (Text × Text)}
    (hrows : recentErrorRows py debriefs = .ok rows)
    (hordered : debriefs.Pairwise fun r r' => r'.session.startedAt ≤ r.session.startedAt) :
    Recurs py debriefs ((rows.map typed).map Prod.fst) (recurring rows) where
  counted e he := by
    obtain ⟨htype, hcount, -⟩ := mem_tallied.mp (firsts_recurring.mem e he)
    exact ⟨hcount ▸ List.count_pos_iff.mpr htype, hcount⟩
  length_eq := by
    rw [firsts_recurring.length_eq, tallied, List.length_map, Counter.length_tally]
  ordered := firsts_recurring.ordered.imp fun hlt => key_lt_iff.mp hlt
  most t ht hleft e he := by
    obtain ⟨correction, hfirst⟩ := exists_lookup ht
    have hmem : (⟨t, ((rows.map typed).map Prod.fst).count t, correction⟩ : RecurringError) ∈
        tallied rows :=
      mem_tallied.mpr ⟨ht, rfl, hfirst⟩
    exact key_lt_iff.mp (firsts_recurring.before _ hmem
      (fun hshown => hleft (List.mem_map_of_mem hshown)) e he)
  newest e he := by
    obtain ⟨-, -, hfirst⟩ := mem_tallied.mp (firsts_recurring.mem e he)
    obtain ⟨lists, hlists, hflatten⟩ := ok_of_bind hrows
    obtain rfl := Except.ok.inj hflatten
    exact newest_of_lookup hlists hordered hfirst

/-- The trend shows the last debriefed sessions of the learner, the oldest of them first. -/
theorem cefrPoints_eq (w : World) (userId limit : Nat) :
    ∃ shown, Firsts Debriefed.newestFirst limit (w.ofUser userId) shown ∧
      cefrPoints w userId limit = (shown.map cefrPoint).reverse := by
  refine ⟨_, firsts_pageAfter ?_, rfl⟩
  have hnodup := (keys_nodup (w := w) fun s => s.userId = userId).map
    OrderDual.toDual.injective
  rwa [List.map_map] at hnodup

theorem pairwise_cefrPoints {w : World} {limit : Nat} :
    (cefrPoints w userId limit).Pairwise fun p p' => p.startedAt ≤ p'.startedAt := by
  obtain ⟨shown, hfirsts, hpoints⟩ := cefrPoints_eq w userId limit
  rw [hpoints, List.pairwise_reverse, List.pairwise_map]
  exact hfirsts.ordered.imp fun hlt => startedAt_le_of_key (OrderDual.toDual_lt_toDual.mp hlt).le

/-- **A snapshot shows the last sessions in their order, and the errors that recur the most.** The
trend and the debriefs are read from two states. The trend has the last debriefed sessions of the
learner at the first read, up to a hundred, the oldest first. However the database orders the
debriefs of one instant, the recurring errors are the most frequent types of the last five at the
second read, up to three, with their counts, ties by the name of the type; and the correction of
each comes from a debrief after which no other of them has an error of the type. -/
theorem snapshot_recent {s : ProgressSnapshot}
    (hrecent : Recent second userId recentDebriefsWindow debriefs)
    (h : snapshot py first debriefs userId = .ok s) :
    (∃ shown, Firsts Debriefed.newestFirst maxTrendPoints (first.ofUser userId) shown ∧
      s.cefrTrend = (shown.map cefrPoint).reverse) ∧
    s.cefrTrend.Pairwise (fun p p' => p.startedAt ≤ p'.startedAt) ∧
    ∃ rows, recentErrorRows py debriefs = .ok rows ∧
      Recurs py debriefs ((rows.map typed).map Prod.fst) s.recurringErrors := by
  obtain ⟨-, rest, -, hordered⟩ := hrecent
  obtain ⟨rows, hrows, hs⟩ := ok_of_bind h
  obtain rfl := Except.ok.inj hs
  exact ⟨cefrPoints_eq first userId maxTrendPoints, pairwise_cefrPoints, rows, hrows,
    recurs_recurring hrows (hordered.sublist (List.sublist_append_left _ _))⟩

def debriefOf (sessionId : Nat) (etypes : List String) : Debrief :=
  ⟨sessionId, text "A2", etypes.map errorOf⟩

/-- Two debriefed sessions of one learner, and what the query answers of them. -/
def debriefedTwice : World :=
  ⟨fun _ => 20, 2, ⟨[⟨0, 1, some "cafe", 10⟩, ⟨1, 1, none, 20⟩], by decide⟩,
    ⟨[debriefOf 0 ["article", "verb_tense"], debriefOf 1 ["verb_tense"]], by decide⟩, .empty _⟩

def twoDebriefs : List Debriefed :=
  [⟨⟨1, 1, none, 20⟩, debriefOf 1 ["verb_tense"], none⟩,
    ⟨⟨0, 1, some "cafe", 10⟩, debriefOf 0 ["article", "verb_tense"], none⟩]

theorem snapshot_recent_twoDebriefs : ∃ s,
    snapshot plain debriefedTwice twoDebriefs 1 = .ok s ∧ s.recurringErrors.length = 2 ∧
      s.cefrTrend.Pairwise fun p p' => p.startedAt ≤ p'.startedAt := by
  have hrecent : Recent debriefedTwice 1 recentDebriefsWindow twoDebriefs :=
    ⟨rfl, [], List.Perm.swap _ _ _, by
      simp only [twoDebriefs, List.append_nil, List.pairwise_pair]
      decide⟩
  have hrows : recentErrorRows plain twoDebriefs =
      .ok [(text "verb_tense", []), (text "article", []), (text "verb_tense", [])] := by rfl
  obtain ⟨s, hs⟩ : ∃ s, snapshot plain debriefedTwice twoDebriefs 1 = .ok s := by
    rw [snapshot, hrows]
    exact ⟨_, rfl⟩
  obtain ⟨-, hordered, rows, hrows', hrecurs⟩ := snapshot_recent hrecent hs
  obtain rfl := Except.ok.inj (hrows.symm.trans hrows')
  exact ⟨_, hs, hrecurs.length_eq.trans (by decide +kernel), hordered⟩

end snapshot

end Apm.Progress
