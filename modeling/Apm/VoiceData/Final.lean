import Apm.VoiceData.Erasure
import Mathlib.Data.Fintype.Basic

/-!
# When an erasure is final

Transcripts, debriefs and vocabulary refer to a session, so nothing in flight can
write them back once the sessions are deleted. The review items and the analytics
events of a debrief that was stored before the purge refer to the user only: their
statements wait for the purge and then succeed. This file proves when a committed
purge leaves nothing behind.
-/

namespace Apm.VoiceData

open Apm.Core Apm.Lib Apm.Review Apm.Debriefs

set_option autoImplicit false

def Statement.rank : Statement → Nat
  | .transcripts => 0
  | .debriefs => 1
  | .vocabulary => 2
  | .reviewItems => 3
  | .sessions => 4
  | .analyticsEvents => 5
  | .memorySummary => 6
  | .userStats => 7

theorem Statement.rank_next {s t : Statement} (h : s.next = some t) : t.rank = s.rank + 1 := by
  cases s <;> cases h <;> rfl

theorem Statement.rank_last {s : Statement} (h : s.next = none) (t : Statement) :
    t.rank ≤ s.rank := by
  cases s <;> cases h
  cases t <;> decide

theorem Statement.rank_injective {s t : Statement} (h : s.rank = t.rank) : s = t := by
  cases s <;> cases t <;> first | rfl | cases h

/-- The purge does not reset a memory summary that is committed from now on. -/
def PurgePhase.keepsMemory : PurgePhase → Bool
  | .start s staged => Statement.rank .memorySummary < s.rank && !staged.memorySummary
  | .finish s _ found => Statement.rank .memorySummary ≤ s.rank && !found.memorySummary
  | .commit staged => !staged.memorySummary
  | .committed => true
  | _ => false

/-- No enrichment writes a review item or an event after the purge has committed, and
no save over an equal debrief changes a memory summary that the purge does not reset. -/
def settled {ι : Type} (S : Setup) (w : World ι) : Action ι → Bool
  | .advance i now =>
    match w.phase i with
    | .schedule _ result tracked => w.purge ≠ .committed || (scheduled result tracked now).isEmpty
    | .complete .. | .activate => w.purge ≠ .committed
    | .commit _ save (some loaded) =>
      save.debrief ≠ loaded || save.newMemory S.stripPersistentInstructions = save.memory ||
        !w.purge.keepsMemory
    | _ => true
  | _ => true

/-- What one statement of a request writes. -/
inductive Writes (S : Setup) (rows : Rows) (purge : PurgePhase) (now : Instant) (p : Phase) :
    Rows → Prop where
  | nothing : Writes S rows purge now p rows
  | transcript (s : Nat) (turns : List Conversation.Message) (hs : s ∈ rows.sessions.keys)
      (hfree : s ∉ purge.staged.sessions) :
      Writes S rows purge now p (rows.saveTranscript s turns hs)
  | endSession (s : Nat) (hfree : purge.holdsUser = false) :
      Writes S rows purge now p (rows.endSession s now)
  | core (s : Nat) (save : Save) (debrief : Debrief) (hs : s ∈ rows.sessions.keys)
      (hfree : s ∉ purge.staged.sessions) :
      Writes S rows purge now p ((rows.saveDebrief s debrief hs).stageCore S save)
  | equal (s : Nat) (save : Save) (hp : p = .commit s save (some save.debrief)) :
      Writes S rows purge now p (rows.stageCore S save)
  | word (s : Nat) (entry : VocabularyEntry)
      (hfree : entry.word ∈ rows.vocabulary.keys ∨
        (purge.holdsUser = false ∧ s ∈ rows.sessions.keys)) :
      Writes S rows purge now p (rows.capture entry)
  | review (s : Nat) (result : DebriefResult) (tracked : List ReviewItem)
      (hp : p = .schedule s result tracked)
      (hfree : ∀ item ∈ scheduled result tracked now,
        item.errorType ∈ rows.reviewItems.keys ∨ purge.holdsUser = false) :
      Writes S rows purge now p (rows.record (scheduled result tracked now))
  | event (e : AnalyticsEvent) (hp : (∃ s result prior, p = .complete s result prior) ∨ p = .activate)
      (hfree : purge.holdsUser = false) : Writes S rows purge now p (rows.emit e)

section writes

variable {S : Setup} {rows rows' : Rows} {purge : PurgePhase} {now : Instant} {p p' : Phase}

theorem capture_writes {s : Nat} {result : DebriefResult} {words : List VocabularyWord}
    (h : advance S rows purge now (.capture s result words) = some (rows', p')) :
    Writes S rows purge now p rows' := by
  cases words with
  | nil =>
    cases h
    exact .nothing
  | cons w words =>
    simp only [advance] at h
    split at h
    · cases h
      exact .nothing
    split at h
    · rename_i hsame
      split at h
      · cases h
      · cases h
        obtain ⟨row, hrow, -⟩ := (Option.any_eq_true ..).mp hsame
        exact .word s _ (.inl (Table.mem_keys_iff.mpr ⟨row, hrow⟩))
    split at h
    · cases h
    split at h
    · cases h
    rename_i hheld
    split at h
    · rename_i hsession
      cases h
      refine .word s _ ?_
      by_cases hword : (vocabularyEntry S s w).word ∈ rows.vocabulary.keys
      · exact .inl hword
      · exact .inr ⟨by simpa [hword] using hheld, hsession⟩
    · cases h
      exact .nothing

theorem commit_writes {s : Nat} {save : Save} {existing : Option Debrief}
    (h : advance S rows purge now (.commit s save existing) = some (rows', p')) :
    Writes S rows purge now (.commit s save existing) rows' := by
  cases existing with
  | none =>
    simp only [advance] at h
    split at h
    · cases h
    rename_i hfree
    split at h
    · cases h
      exact .nothing
    split at h
    · rename_i hs
      cases h
      exact .core s save _ hs fun hmem => hfree (.inr hmem)
    · cases h
      exact .nothing
  | some loaded =>
    simp only [advance] at h
    split at h
    · rename_i hequal
      cases h
      exact .equal s save (by rw [hequal])
    split at h
    · cases h
    rename_i hfree
    split at h
    · cases h
      exact .nothing
    · cases h
      exact .core s save _ _ fun hmem => hfree (.inr hmem)

theorem schedule_writes {s : Nat} {result : DebriefResult} {tracked : List ReviewItem}
    (h : advance S rows purge now (.schedule s result tracked) = some (rows', p')) :
    Writes S rows purge now (.schedule s result tracked) rows' := by
  simp only [advance] at h
  split at h
  · cases h
  rename_i hwaits
  cases h
  refine .review s result tracked rfl fun item hitem => ?_
  rw [Bool.not_eq_true, List.any_eq_false] at hwaits
  have hfree := hwaits item hitem
  simp only [Bool.or_eq_true, decide_eq_true_eq, Bool.and_eq_true, not_or, not_and] at hfree
  by_cases hkey : item.errorType ∈ rows.reviewItems.keys
  · exact .inl hkey
  · exact .inr (Bool.eq_false_iff.mpr (hfree.2 hkey))

/-- What one step of a request can write, whatever its phase. -/
theorem advance_writes (h : advance S rows purge now p = some (rows', p')) :
    Writes S rows purge now p rows' := by
  cases p with
  | entered request =>
    have hsame : rows' = rows := by
      cases request <;> simp only [advance] at h <;> repeat' split at h
      all_goals cases h; rfl
    exact hsame ▸ .nothing
  | persist s turns =>
    simp only [advance] at h
    split at h
    · cases h
    rename_i hfree
    split at h
    · rename_i hs
      cases h
      exact .transcript s turns hs fun hmem => hfree (.inr hmem)
    · cases h
      exact .nothing
  | close s =>
    simp only [advance] at h
    split at h
    · cases h
    rename_i hfree
    repeat' split at h
    · cases h
      exact .nothing
    · cases h
      exact .nothing
    · cases h
      exact .endSession s (Bool.eq_false_iff.mpr hfree)
  | commit s save existing => exact commit_writes h
  | capture s result words => exact capture_writes h
  | schedule s result tracked => exact schedule_writes h
  | complete s result prior =>
    simp only [advance] at h
    split at h
    · cases h
    rename_i hfree
    cases h
    exact .event _ (.inl ⟨s, result, prior, rfl⟩) (Bool.eq_false_iff.mpr hfree)
  | activate =>
    simp only [advance] at h
    split at h
    · cases h
    rename_i hfree
    split at h
    · cases h
      exact .nothing
    · cases h
      exact .event _ (.inr rfl) (Bool.eq_false_iff.mpr hfree)
  | reply | analyze | ended => cases h
  | check | read | reload | select | recover | refresh | track | count =>
    simp only [advance] at h
    repeat' split at h
    all_goals cases h; exact .nothing

end writes

/-- What the statements that ran have covered, and what a committed purge has erased. -/
def Progress (rows : Rows) : PurgePhase → Prop
  | .start s staged => ∀ s', s'.rank < s.rank → Covers rows staged s'
  | .finish s staged found =>
    (Statement.rank .sessions < s.rank → Covers rows staged .sessions) ∧
      ∀ s', s'.rank ≤ s.rank → Covers rows found s'
  | .commit staged => ∀ s, Covers rows staged s
  | .committed => Erased rows
  | .entered | .rolledBack => True

theorem purge_progress {rows rows' : Rows} {p p' : PurgePhase} (hi : Progress rows p)
    (h : purge rows p = some (rows', p')) : Progress rows' p' := by
  cases p with
  | entered =>
    cases h
    exact fun s' hs' => absurd hs' (Nat.not_lt_zero _)
  | start s staged =>
    cases h
    refine ⟨hi .sessions, fun s' hs' => ?_⟩
    by_cases hsame : s' = s
    · exact hsame ▸ (covers_select rows staged s).1
    · have hlt : s'.rank < s.rank :=
        Nat.lt_of_le_of_ne hs' fun he => hsame (Statement.rank_injective he)
      exact (covers_select rows staged s).2 s' hsame (hi s' hlt)
  | finish s staged found =>
    simp only [purge] at h
    split at h
    · rename_i next hnext
      cases h
      intro s' hs'
      rw [Statement.rank_next hnext] at hs'
      exact hi.2 s' (Nat.lt_succ_iff.mp hs')
    · rename_i hlast
      cases h
      exact fun s' => hi.2 s' (Statement.rank_last hlast s')
  | commit staged =>
    cases h
    exact erased_of_covers hi
  | committed | rolledBack => cases h

theorem keys_record {rows : Rows} {items : List ReviewItem}
    (h : ∀ item ∈ items, item.errorType ∈ rows.reviewItems.keys) :
    (rows.record items).reviewItems.keys = rows.reviewItems.keys := by
  show (items.foldl Table.upsert rows.reviewItems).keys = rows.reviewItems.keys
  generalize rows.reviewItems = table at h
  induction items generalizing table with
  | nil => rfl
  | cons item items ih =>
    have hkeys : (table.upsert item).keys = table.keys :=
      Table.keys_upsert_of_mem (h item List.mem_cons_self)
    rw [List.foldl_cons, ih _ fun other hother => ?_, hkeys]
    rw [hkeys]
    exact h other (List.mem_cons_of_mem _ hother)

section covers

variable {S : Setup} {rows rows' : Rows} {purge : PurgePhase} {now : Instant} {p : Phase}

/-- While the purge holds the user row, a write keeps what a statement has covered. A
summary is written with a debrief, which needs a session the purge has not locked. -/
theorem Writes.covers (hw : Writes S rows purge now p rows') (hholds : purge.holdsUser = true)
    {staged : Staged} {s : Statement}
    (hsessions : s = .memorySummary → ∀ k ∈ rows.sessions.keys, k ∈ purge.staged.sessions)
    (hequal : s = .memorySummary → ∀ k save, p = .commit k save (some save.debrief) →
      save.newMemory S.stripPersistentInstructions = save.memory ∨ staged.memorySummary = true)
    (hc : Covers rows staged s) : Covers rows' staged s := by
  cases hw with
  | nothing => exact hc
  | transcript k turns hs hfree => cases s <;> exact hc
  | endSession k hfree =>
    rw [hholds] at hfree
    cases hfree
  | core k save debrief hs hfree =>
    cases s with
    | memorySummary => exact absurd (hsessions rfl k hs) hfree
    | _ => exact hc
  | equal k save hp =>
    cases s with
    | memorySummary =>
      rcases hequal rfl k save hp with hkeep | hreset
      · show staged.memorySummary = true ∨ ∀ memory ∈ writeColumn save.memory
          (save.newMemory S.stripPersistentInstructions) rows.memorySummary, memory = ""
        rw [hkeep, writeColumn_self]
        exact hc
      · exact .inl hreset
    | _ => exact hc
  | word k entry hfree =>
    cases s with
    | vocabulary =>
      have hkeys : entry.word ∈ rows.vocabulary.keys := hfree.resolve_right fun h => by
        rw [hholds] at h
        cases h.1
      intro word hword
      rw [Rows.capture, Table.keys_upsert_of_mem hkeys] at hword
      exact hc word hword
    | _ => exact hc
  | review k result tracked hp hfree =>
    cases s with
    | reviewItems =>
      have hkeys : ∀ item ∈ scheduled result tracked now,
          item.errorType ∈ rows.reviewItems.keys := fun item hitem =>
        (hfree item hitem).resolve_right fun h => by
          rw [hholds] at h
          cases h
      intro errorType htype
      rw [keys_record hkeys] at htype
      exact hc errorType htype
    | _ => exact hc
  | event e hp hfree =>
    rw [hholds] at hfree
    cases hfree

/-- Once the purge has committed, no session is left to write under. -/
theorem Writes.erased (hw : Writes S rows .committed now p rows')
    (hreview : ∀ k result tracked, p = .schedule k result tracked →
      scheduled result tracked now = [])
    (hevent : (∀ k result prior, p ≠ .complete k result prior) ∧ p ≠ .activate)
    (hequal : ∀ k save, p = .commit k save (some save.debrief) →
      save.newMemory S.stripPersistentInstructions = save.memory)
    (he : Erased rows) : Erased rows' := by
  have hsession : ∀ k, k ∉ rows.sessions.keys := fun k hk => by
    rw [he.sessions] at hk
    cases hk
  cases hw with
  | nothing => exact he
  | transcript k turns hs hfree => exact absurd hs (hsession k)
  | endSession k hfree =>
    exact { he with
      sessions := by
        rw [Rows.endSession, Table.keys_update]
        exact he.sessions }
  | core k save debrief hs hfree => exact absurd hs (hsession k)
  | equal k save hp =>
    exact { he with
      memorySummary := by
        show ∀ memory ∈ writeColumn save.memory (save.newMemory S.stripPersistentInstructions)
          rows.memorySummary, memory = ""
        rw [hequal k save hp, writeColumn_self]
        exact he.memorySummary }
  | word k entry hfree =>
    rcases hfree with hword | ⟨-, hk⟩
    · rw [he.vocabulary] at hword
      cases hword
    · exact absurd hk (hsession k)
  | review k result tracked hp hfree =>
    rw [hreview k result tracked hp]
    exact he
  | event e hp hfree =>
    rcases hp with ⟨k, result, prior, hp⟩ | hp
    · exact absurd hp (hevent.1 k result prior)
    · exact absurd hp hevent.2

end covers

section runs

variable {ι : Type} [DecidableEq ι] {S : Setup} {w w' : World ι} {a : Action ι} {i : ι}
  {now : Instant}

omit [DecidableEq ι] in
/-- What the guard says of a save over an equal debrief. -/
theorem settled_commit (hs : settled S w (.advance i now) = true) (k : Nat) (save : Save)
    (hp : w.phase i = .commit k save (some save.debrief)) :
    save.newMemory S.stripPersistentInstructions = save.memory ∨ w.purge.keepsMemory = false := by
  rw [settled, hp] at hs
  simpa using hs

omit [DecidableEq ι] in
/-- What the guard says of an enrichment after the commit of the purge. -/
theorem settled_enrichment (hs : settled S w (.advance i now) = true)
    (hp : w.purge = .committed) :
    (∀ k result tracked, w.phase i = .schedule k result tracked →
      scheduled result tracked now = []) ∧
    (∀ k result prior, w.phase i ≠ .complete k result prior) ∧ w.phase i ≠ .activate := by
  refine ⟨fun k result tracked hphase => ?_, fun k result prior hphase => ?_, fun hphase => ?_⟩
  · rw [settled, hphase] at hs
    simpa [hp] using hs
  · rw [settled, hphase] at hs
    simp [hp] at hs
  · rw [settled, hphase] at hs
    simp [hp] at hs

omit [DecidableEq ι] in
theorem advance_progress (hi : Progress w.rows w.purge)
    (hs : settled S w (.advance i now) = true) {rows' : Rows} {p' : Phase}
    (h : advance S w.rows w.purge now (w.phase i) = some (rows', p')) :
    Progress rows' w.purge := by
  have hw := advance_writes h
  have hcommit := settled_commit hs
  cases hp : w.purge with
  | entered | rolledBack => trivial
  | committed =>
    have henrich := settled_enrichment hs hp
    rw [hp] at hw hi hcommit
    refine hw.erased henrich.1 henrich.2 (fun k save hphase => ?_) hi
    exact (hcommit k save hphase).resolve_right nofun
  | start s staged =>
    rw [hp] at hw hi hcommit
    intro s' hs'
    refine hw.covers rfl (fun he => ?_) (fun he k save hphase => ?_) (hi s' hs')
    · subst he
      exact hi .sessions (Nat.lt_trans (by decide) hs')
    · subst he
      refine (hcommit k save hphase).imp_right fun hreset => ?_
      simpa [PurgePhase.keepsMemory, hs'] using hreset
  | finish s staged found =>
    rw [hp] at hw hi hcommit
    refine ⟨fun hs' => hw.covers rfl nofun nofun (hi.1 hs'), fun s' hs' => ?_⟩
    refine hw.covers rfl (fun he => ?_) (fun he k save hphase => ?_) (hi.2 s' hs')
    · subst he
      exact hi.1 (Nat.lt_of_lt_of_le (by decide) hs')
    · subst he
      refine (hcommit k save hphase).imp_right fun hreset => ?_
      simpa [PurgePhase.keepsMemory, hs'] using hreset
  | commit staged =>
    rw [hp] at hw hi hcommit
    intro s'
    refine hw.covers rfl (fun _ => hi .sessions) (fun _ k save hphase => ?_) (hi s')
    refine (hcommit k save hphase).imp_right fun hreset => ?_
    simpa [PurgePhase.keepsMemory] using hreset

theorem step_progress (hi : Progress w.rows w.purge) (hs : settled S w a = true)
    (h : step S w a = some w') : Progress w'.rows w'.purge := by
  cases a with
  | purge =>
    simp only [step, Option.map_eq_some_iff, Prod.exists] at h
    obtain ⟨rows', p', hp, rfl⟩ := h
    exact purge_progress hi hp
  | rollbackPurge =>
    simp only [step] at h
    split at h
    · cases h
    · cases h
      trivial
  | advance i now =>
    simp only [step, Option.map_eq_some_iff, Prod.exists] at h
    obtain ⟨rows', p', hp, rfl⟩ := h
    exact advance_progress hi hs hp
  | reply | analyze =>
    simp only [step] at h
    split at h <;> cases h <;> exact hi
  | raise i =>
    simp only [step, Option.map_eq_some_iff] at h
    obtain ⟨p', -, rfl⟩ := h
    exact hi

/-- **An erasure is final** in every run of a purge beside turns, session ends and
debrief generations in which no enrichment writes after the purge has committed. -/
theorem erased_of_settled {rows : Rows} {request : ι → Request} {as : List (Action ι)}
    (hs : Along (step S) (fun w a _ => settled S w a = true) (World.init rows request) as)
    (hrun : run (step S) (World.init rows request) as = some w) (hp : w.purge = .committed) :
    Erased w.rows := by
  have hi : Progress w.rows w.purge :=
    run_invariant (I := fun w : World ι => Progress w.rows w.purge)
      (fun w a w' hi hs (h : step S w a = some w') => step_progress hi hs h)
      (show Progress (World.init rows request).rows .entered from trivial) hs hrun
  rw [hp] at hi
  exact hi

end runs

def plainSetup : Setup := ⟨40, fun text => text, fun text => text, false⟩

def spokenTurns : List Conversation.Message := [⟨"user", "He go home."⟩, ⟨"assistant", "He goes."⟩]

/-- One open session with two messages. -/
def spokenRows : Rows where
  sessions := ⟨[⟨1, none⟩], by decide⟩
  transcripts := ⟨[⟨1, spokenTurns⟩], by decide⟩
  debriefs := .empty _
  vocabulary := .empty _
  reviewItems := .empty _
  analyticsEvents := []
  cefrLevel := "B1"
  memorySummary := some "Talks about home."
  transcriptSession := by decide
  debriefSession := by decide

def spokenResult : DebriefResult :=
  ⟨"B1", "A short talk.", [⟨"He go", "He goes", "third person", "agreement", "", [], []⟩], []⟩

inductive Call where
  | turn | endSession | generate
  deriving DecidableEq

instance : Fintype Call := ⟨{.turn, .endSession, .generate}, fun i => by cases i <;> decide⟩

def inFlight : Call → Request
  | .turn => .turn 1 "Yes."
  | .endSession => .endSession 1
  | .generate => .generate 1

def wholePurge : List (Action Call) := List.replicate 18 .purge

/-- The purge runs while the turn and the generation wait for the LLM. -/
def inFlightRun : List (Action Call) :=
  [.advance .turn 0, .advance .endSession 0, .advance .generate 0, .advance .generate 0,
      .advance .generate 0] ++ wholePurge ++
    [.reply .turn (some "Good."), .advance .turn 1, .advance .endSession 1,
      .analyze .generate (some spokenResult), .advance .generate 1, .advance .generate 1,
      .advance .generate 1, .advance .generate 1]

theorem erased_of_settled_in_flight :
    ∃ w, run (step plainSetup) (.init spokenRows inFlight) inFlightRun = some w ∧
      (∀ i, w.phase i = .ended) ∧ Erased w.rows := by
  obtain ⟨w, hw, hd⟩ := exists_run_of_check (step plainSetup) (.init spokenRows inFlight)
    inFlightRun (fun w => decide (w.purge = .committed ∧ ∀ i, w.phase i = .ended))
    (by decide +kernel)
  obtain ⟨hp, hended⟩ := of_decide_eq_true hd
  exact ⟨w, hw, hended, erased_of_settled (by decide +kernel) hw hp⟩

/-- The purge runs between the commit of a debrief and its enrichment. -/
def enrichedRun : List (Action Call) :=
  [.advance .generate 0, .advance .generate 0, .advance .generate 0,
      .analyze .generate (some spokenResult), .advance .generate 0, .advance .generate 0,
      .advance .generate 0, .advance .generate 0] ++ wholePurge ++
    [.advance .turn 1, .advance .endSession 1, .advance .generate 1, .advance .generate 1,
      .advance .generate 1, .advance .generate 1, .advance .generate 1, .advance .generate 1]

/-- Every request has ended, and the learner has a review item and two events again. -/
theorem enrichment_outlives_erasure :
    ∃ w, run (step plainSetup) (.init spokenRows inFlight) enrichedRun = some w ∧
      w.purge = .committed ∧ (∀ i, w.phase i = .ended) ∧
      w.rows.reviewItems.keys = ["agreement"] ∧
      w.rows.analyticsEvents = [.sessionCompleted 1 "B1" 1, .activation] ∧ ¬Erased w.rows := by
  obtain ⟨w, hw, hd⟩ := exists_run_of_check (step plainSetup) (.init spokenRows inFlight)
    enrichedRun (fun w => decide (w.purge = .committed ∧ (∀ i, w.phase i = .ended) ∧
      w.rows.reviewItems.keys = ["agreement"] ∧
      w.rows.analyticsEvents = [.sessionCompleted 1 "B1" 1, .activation])) (by decide +kernel)
  obtain ⟨hp, hended, hitems, hevents⟩ := of_decide_eq_true hd
  refine ⟨w, hw, hp, hended, hitems, hevents, fun he => ?_⟩
  rw [he.reviewItems] at hitems
  cases hitems

end Apm.VoiceData
