import Apm.Core.Time
import Apm.Lib.Json
import Apm.Lib.Run
import Apm.Lib.Table
import Mathlib.Data.Prod.Lex

/-!
# Debriefed sessions

The sessions of all learners with their debriefs and transcripts, and what changes them. A start
reads the clock under the lock of its learner's row, so a learner's sessions start in the order of
their commits; nothing orders the starts of two learners. A transcript and a debrief are written
while their session exists, and an erasure deletes the sessions of a learner that its statement saw,
with what refers to them. A reader that asks twice may find another state the second time.
-/

namespace Apm.Progress

open Apm.Core Apm.Lib
open Apm.Lib.Json (Text Value)

set_option autoImplicit false

/-- A row of sessions, as far as progress reads it. -/
structure Session where
  id : Nat
  userId : Nat
  scenarioId : Option String
  startedAt : Instant

structure Debrief where
  sessionId : Nat
  cefrEstimate : Text
  errors : List Value

structure Transcript where
  sessionId : Nat
  turns : List Value

structure World where
  /-- what the last start of each learner read -/
  clock : Nat → Instant
  /-- the sequence of the session ids -/
  nextId : Nat
  sessions : Table Session.id
  debriefs : Table Debrief.sessionId
  transcripts : Table Transcript.sessionId

inductive Event where
  | started (userId : Nat) (scenarioId : Option String) (now : Instant)
  | saved (transcript : Transcript)
  | debriefed (debrief : Debrief)
  /-- the commit of an erasure whose statement saw the first `seen` sessions of the table -/
  | erased (userId : Nat) (seen : Nat)

namespace World

def init (clock : Nat → Instant) : World := ⟨clock, 0, .empty _, .empty _, .empty _⟩

variable (w : World)

/-- The sessions that an erasure deletes. -/
def gone (userId seen : Nat) : List Nat :=
  ((w.sessions.rows.take seen).filter fun s => s.userId = userId).map Session.id

end World

/-- The clock that the starts of a learner read is taken not to go back. -/
def step (w : World) : Event → Option World
  | .started userId scenarioId now =>
    if w.clock userId ≤ now then
      (w.sessions.insert ⟨w.nextId, userId, scenarioId, now⟩).map fun sessions =>
        { w with
          clock := Function.update w.clock userId now
          nextId := w.nextId + 1
          sessions := sessions }
    else none
  | .saved transcript =>
    if transcript.sessionId ∈ w.sessions.keys then
      some { w with transcripts := w.transcripts.upsert transcript }
    else none
  | .debriefed debrief =>
    if debrief.sessionId ∈ w.sessions.keys then
      some { w with debriefs := w.debriefs.upsert debrief }
    else none
  | .erased userId seen =>
    some { w with
      sessions := w.sessions.delete fun s => s.id ∈ w.gone userId seen
      debriefs := w.debriefs.delete fun d => d.sessionId ∈ w.gone userId seen
      transcripts := w.transcripts.delete fun t => t.sessionId ∈ w.gone userId seen }

/-! ## The queries -/

/-- A row of the join of a session with its debrief, and its transcript if it has one. -/
structure Debriefed where
  session : Session
  debrief : Debrief
  turns : Option (List Value)

namespace World

variable (w : World)

def joined (s : Session) : Option Debriefed :=
  (w.debriefs.get s.id).map fun d => ⟨s, d, (w.transcripts.get s.id).map Transcript.turns⟩

/-- The debriefed sessions of a learner on one scenario. -/
def onSkill (userId : Nat) (skill : String) : List Debriefed :=
  (w.sessions.rows.filter fun s => s.userId = userId ∧ s.scenarioId = some skill).filterMap w.joined

/-- All the debriefed sessions of a learner. -/
def ofUser (userId : Nat) : List Debriefed :=
  (w.sessions.rows.filter fun s => s.userId = userId).filterMap w.joined

end World

/-- The key of `ORDER BY started_at, id`. -/
def Debriefed.key (r : Debriefed) : Instant ×ₗ Nat := toLex (r.session.startedAt, r.session.id)

theorem startedAt_le_of_key {r r' : Debriefed} (h : r.key ≤ r'.key) :
    r.session.startedAt ≤ r'.session.startedAt :=
  (Prod.Lex.le_iff.mp h).elim (fun hlt => hlt.le) fun heq => heq.1.le

section queries

variable {w : World} {userId : Nat} {skill : String} {r : Debriefed}

theorem session_of_joined {s : Session} (h : w.joined s = some r) : r.session = s := by
  obtain ⟨d, -, rfl⟩ := Option.map_eq_some_iff.mp h
  rfl

theorem mem_onSkill : r ∈ w.onSkill userId skill ↔
    r.session ∈ w.sessions.rows ∧ (r.session.userId = userId ∧ r.session.scenarioId = some skill) ∧
      w.joined r.session = some r := by
  rw [World.onSkill, List.mem_filterMap]
  constructor
  · rintro ⟨s, hs, hjoined⟩
    obtain rfl := session_of_joined hjoined
    obtain ⟨hmem, hskill⟩ := List.mem_filter.mp hs
    exact ⟨hmem, of_decide_eq_true hskill, hjoined⟩
  · rintro ⟨hmem, hskill, hjoined⟩
    exact ⟨r.session, List.mem_filter.mpr ⟨hmem, decide_eq_true hskill⟩, hjoined⟩

/-- A learner's debriefed sessions have different keys. -/
theorem keys_nodup (p : Session → Bool) :
    (((w.sessions.rows.filter p).filterMap w.joined).map Debriefed.key).Nodup := by
  have hids : ∀ rows : List Session, (((rows.filterMap w.joined).map Debriefed.session).map
      Session.id).Sublist (rows.map Session.id) := by
    intro rows
    refine List.Sublist.map _ ?_
    induction rows with
    | nil => exact List.Sublist.refl _
    | cons s rows ih =>
      rw [List.filterMap_cons]
      split
      · exact ih.cons _
      · rename_i r hjoined
        rw [List.map_cons, session_of_joined hjoined]
        exact ih.cons_cons _
  have hnodup : (((w.sessions.rows.filter p).filterMap w.joined).map fun r =>
      (ofLex r.key).2).Nodup := by
    have hsub := (hids (w.sessions.rows.filter p)).trans (List.filter_sublist.map Session.id)
    rw [List.map_map] at hsub
    exact w.sessions.unique.sublist hsub
  have hmap : (((w.sessions.rows.filter p).filterMap w.joined).map fun r => (ofLex r.key).2) =
      (((w.sessions.rows.filter p).filterMap w.joined).map Debriefed.key).map fun k =>
        (ofLex k).2 := by
    rw [List.map_map]
    rfl
  rw [hmap] at hnodup
  exact hnodup.of_map

end queries

/-! ## What the rows keep -/

variable {w w' : World}

/-- The table lists the sessions of each learner in the order of their starts. -/
structure Inv (w : World) : Prop where
  ordered : w.sessions.rows.Pairwise fun s s' => s'.userId = s.userId → s.startedAt ≤ s'.startedAt
  past : ∀ s ∈ w.sessions.rows, s.startedAt ≤ w.clock s.userId
  ids : ∀ s ∈ w.sessions.rows, s.id < w.nextId

theorem inv_init (clock : Nat → Instant) : Inv (.init clock) :=
  ⟨List.Pairwise.nil, fun _ h => absurd h List.not_mem_nil, fun _ h => absurd h List.not_mem_nil⟩

/-- The sessions after a step: one more at the end, some less, or the same. -/
inductive Moves (w w' : World) : Prop
  | started (s : Session) : s.id = w.nextId → w.clock s.userId ≤ s.startedAt →
    w'.sessions.rows = w.sessions.rows ++ [s] →
    w'.clock = Function.update w.clock s.userId s.startedAt → w'.nextId = w.nextId + 1 →
    w'.debriefs = w.debriefs → Moves w w'
  | written : w'.sessions = w.sessions → w'.clock = w.clock → w'.nextId = w.nextId →
    (∀ k, k ∈ w.debriefs.keys → k ∈ w'.debriefs.keys) → Moves w w'
  | erased (userId seen : Nat) :
    w'.sessions = w.sessions.delete (fun s => s.id ∈ w.gone userId seen) →
    w'.debriefs = w.debriefs.delete (fun d => d.sessionId ∈ w.gone userId seen) →
    w'.clock = w.clock → w'.nextId = w.nextId → Moves w w'

theorem moves_of_step {e : Event} (h : step w e = some w') : Moves w w' := by
  cases e with
  | started userId scenarioId now =>
    simp only [step] at h
    split_ifs at h with hnow
    obtain ⟨sessions, hinsert, rfl⟩ := Option.map_eq_some_iff.mp h
    rw [Table.insert] at hinsert
    split_ifs at hinsert
    obtain rfl := Option.some.inj hinsert
    exact .started ⟨w.nextId, userId, scenarioId, now⟩ rfl hnow rfl rfl rfl rfl
  | saved transcript =>
    simp only [step] at h
    split_ifs at h
    obtain rfl := Option.some.inj h
    exact .written rfl rfl rfl fun _ hk => hk
  | debriefed debrief =>
    simp only [step] at h
    split_ifs at h
    obtain rfl := Option.some.inj h
    exact .written rfl rfl rfl fun _ hk => Table.mem_keys_upsert.mpr (.inl hk)
  | erased userId seen =>
    obtain rfl := Option.some.inj h
    exact .erased userId seen rfl rfl rfl rfl

/-- A start moves the clock of its learner, and forward. -/
theorem clock_le {s : Session} (hnow : w.clock s.userId ≤ s.startedAt)
    (hclock : w'.clock = Function.update w.clock s.userId s.startedAt) (userId : Nat) :
    w.clock userId ≤ w'.clock userId := by
  rw [hclock]
  by_cases huser : userId = s.userId
  · subst huser
    rw [Function.update_self]
    exact hnow
  · rw [Function.update_of_ne huser]

theorem Inv.moves (hw : Inv w) (h : Moves w w') : Inv w' := by
  cases h with
  | started s hid hnow hrows hclock hnext _ =>
    refine ⟨?_, fun t ht => ?_, fun t ht => ?_⟩
    · rw [hrows]
      refine List.pairwise_append.mpr ⟨hw.ordered, List.pairwise_singleton _ _,
        fun t ht u hu huser => ?_⟩
      obtain rfl := List.mem_singleton.mp hu
      exact (hw.past t ht).trans (huser ▸ hnow)
    · rw [hrows] at ht
      rcases List.mem_append.mp ht with ht | ht
      · exact (hw.past t ht).trans (clock_le hnow hclock t.userId)
      · obtain rfl := List.mem_singleton.mp ht
        rw [hclock, Function.update_self]
    · rw [hnext]
      rw [hrows] at ht
      rcases List.mem_append.mp ht with ht | ht
      · exact Nat.lt_succ_of_lt (hw.ids t ht)
      · rw [List.mem_singleton.mp ht, hid]
        exact Nat.lt_succ_self _
  | written hsessions hclock hnext _ =>
    exact ⟨hsessions ▸ hw.ordered, fun s hs => hclock ▸ hw.past s (hsessions ▸ hs),
      fun s hs => hnext ▸ hw.ids s (hsessions ▸ hs)⟩
  | erased userId seen hsessions _ hclock hnext =>
    have hmem {s : Session} (hs : s ∈ w'.sessions.rows) : s ∈ w.sessions.rows := by
      rw [hsessions] at hs
      exact List.mem_of_mem_filter hs
    refine ⟨?_, fun s hs => hclock ▸ hw.past s (hmem hs), fun s hs => hnext ▸ hw.ids s (hmem hs)⟩
    rw [hsessions]
    exact hw.ordered.sublist List.filter_sublist

/-- A session and its debrief are still there, or all that is left of its learner came later. -/
def Kept (s : Session) (w : World) : Prop :=
  s.startedAt ≤ w.clock s.userId ∧
    ((s ∈ w.sessions.rows ∧ s.id ∈ w.debriefs.keys) ∨
      ∀ r ∈ w.sessions.rows, r.userId = s.userId → s.startedAt ≤ r.startedAt)

/-- What an erasure leaves of a learner started after each session it deletes. -/
theorem le_of_gone {s r : Session} {userId seen : Nat} (hw : Inv w) (hs : s ∈ w.sessions.rows)
    (hgone : s.id ∈ w.gone userId seen) (hr : r ∈ w.sessions.rows) (huser : r.userId = s.userId)
    (hleft : r.id ∉ w.gone userId seen) : s.startedAt ≤ r.startedAt := by
  obtain ⟨s', hmem, hid⟩ := List.mem_map.mp hgone
  obtain ⟨hseen, howner⟩ := List.mem_filter.mp hmem
  obtain rfl : s' = s :=
    List.inj_on_of_nodup_map w.sessions.unique (List.mem_of_mem_take hseen) hs hid
  have hpairwise := hw.ordered
  rw [← List.take_append_drop seen w.sessions.rows] at hpairwise hr
  rcases List.mem_append.mp hr with hr | hr
  · refine absurd (List.mem_map_of_mem (List.mem_filter.mpr ⟨hr, ?_⟩)) hleft
    rw [huser]
    exact howner
  · exact (List.pairwise_append.mp hpairwise).2.2 s' hseen r hr huser

theorem Kept.moves {s : Session} (hw : Inv w) (hs : Kept s w) (h : Moves w w') : Kept s w' := by
  obtain ⟨hpast, hs⟩ := hs
  cases h with
  | started new hid hnow hrows hclock _ hdebriefs =>
    refine ⟨hpast.trans (clock_le hnow hclock s.userId), ?_⟩
    rw [hrows, hdebriefs]
    obtain ⟨hmem, hdebrief⟩ | hlater := hs
    · exact .inl ⟨List.mem_append_left _ hmem, hdebrief⟩
    · refine .inr fun r hr huser => ?_
      rcases List.mem_append.mp hr with hr | hr
      · exact hlater r hr huser
      · obtain rfl := List.mem_singleton.mp hr
        exact hpast.trans (huser ▸ hnow)
  | written hsessions hclock _ hdebriefs =>
    refine ⟨hclock ▸ hpast, ?_⟩
    rw [hsessions]
    exact hs.imp (fun h => ⟨h.1, hdebriefs _ h.2⟩) id
  | erased userId seen hsessions hdebriefs hclock _ =>
    refine ⟨hclock ▸ hpast, ?_⟩
    have hmem_iff {r : Session} :
        r ∈ w'.sessions.rows ↔ r ∈ w.sessions.rows ∧ r.id ∉ w.gone userId seen := by
      rw [hsessions, Table.delete, List.mem_filter]
      simp
    obtain ⟨hmem, hdebrief⟩ | hlater := hs
    · by_cases hgone : s.id ∈ w.gone userId seen
      · refine .inr fun r hr huser => ?_
        obtain ⟨hr, hleft⟩ := hmem_iff.mp hr
        exact le_of_gone hw hmem hgone hr huser hleft
      · obtain ⟨d, hd⟩ := Table.mem_keys_iff.mp hdebrief
        refine .inl ⟨hmem_iff.mpr ⟨hmem, hgone⟩, Table.mem_keys_iff.mpr ⟨d, ?_⟩⟩
        rw [hdebriefs, Table.get_delete, hd, Option.filter_some, if_pos]
        rw [Table.key_of_get hd]
        simpa using hgone
    · exact .inr fun r hr huser => hlater r (hmem_iff.mp hr).1 huser

theorem kept_of_run {s : Session} {es : List Event} (hw : Inv w) (hs : Kept s w)
    (h : run step w es = some w') : Kept s w' :=
  (run_preserves (I := fun w => Inv w ∧ Kept s w)
    (fun _ _ _ hi hstep =>
      ⟨hi.1.moves (moves_of_step hstep), hi.2.moves hi.1 (moves_of_step hstep)⟩)
    ⟨hw, hs⟩ h).2

/-- The ids of the sessions are not used again. -/
theorem old_of_run {es : List Event} (h : run step w es = some w') :
    ∀ s ∈ w'.sessions.rows, s.id < w.nextId → s ∈ w.sessions.rows := by
  have hold : w.nextId ≤ w'.nextId ∧
      ∀ s ∈ w'.sessions.rows, s.id < w.nextId → s ∈ w.sessions.rows := by
    refine run_preserves (I := fun v => w.nextId ≤ v.nextId ∧
      ∀ s ∈ v.sessions.rows, s.id < w.nextId → s ∈ w.sessions.rows) (fun v e v' hv hstep => ?_)
      ⟨le_rfl, fun s hs _ => hs⟩ h
    obtain ⟨hnext, hold⟩ := hv
    cases moves_of_step hstep with
    | started new hid _ hrows _ hnext' _ =>
      refine ⟨by omega, fun s hs hlt => ?_⟩
      rw [hrows] at hs
      rcases List.mem_append.mp hs with hs | hs
      · exact hold s hs hlt
      · rw [List.mem_singleton.mp hs] at hlt
        omega
    | written hsessions _ hnext' _ =>
      exact ⟨hnext' ▸ hnext, fun s hs => hold s (hsessions ▸ hs)⟩
    | erased userId seen hsessions _ _ hnext' =>
      refine ⟨hnext' ▸ hnext, fun s hs => ?_⟩
      rw [hsessions] at hs
      exact hold s (List.mem_of_mem_filter hs)
  exact hold.2

theorem inv_of_run {clock : Nat → Instant} {es : List Event}
    (h : run step (.init clock) es = some w) : Inv w :=
  run_preserves (fun _ _ _ hw hstep => hw.moves (moves_of_step hstep)) (inv_init clock) h

end Apm.Progress
