import Apm.Debriefs.Service
import Apm.Lib.Keyset
import Apm.Lib.Table
import Apm.Review.Scheduler
import Mathlib.Data.Prod.Lex
import Mathlib.Data.Set.Finite.Basic

/-!
# The export of a learner's voice data

The export fetches the rows of a learner page by page, each page on a session of its own:
between two pages other requests insert and delete rows. `_keyset_pages` keeps the key of
the last row it has emitted, and nothing else.
-/

namespace Apm.VoiceData

open Apm.Core Apm.Lib Apm.Review
open Apm.Conversation (Message roleUser)

set_option autoImplicit false

/-- `_EXPORT_PAGE_SIZE`. -/
def exportPageSize : Nat := 200

/-- `_keyset_pages`: what it emits, and the number of its last fetch. `fetchPage n` is the
answer of the database to the fetch number `n`; `none` when the fuel runs out. -/
def keysetPages {γ ρ : Type} (fetchPage : Nat → Option γ → List ρ) (cursorOf : ρ → γ)
    (pageSize : Nat) : Nat → Nat → Option γ → Option (List ρ × Nat)
  | 0, _, _ => none
  | fuel + 1, fetch, cursor =>
    let rows := fetchPage fetch cursor
    match rows.getLast? with
    | none => some ([], fetch)
    | some last =>
      if rows.length < pageSize then some (rows, fetch)
      else (keysetPages fetchPage cursorOf pageSize fuel (fetch + 1) (some (cursorOf last))).map
        fun rest => (rows ++ rest.1, rest.2)

section pages

variable {κ ρ : Type} [LinearOrder κ] {key : ρ → κ}

/-- The query of a page: the first rows of the user after the cursor, in the order of the
key, of the table as it stands at that fetch. -/
def fetchPage (userOf : ρ → Int) (userId : Int) (pageSize : Nat) (tables : Nat → Table key)
    (fetch : Nat) (cursor : Option κ) : List ρ :=
  pageAfter key pageSize cursor ((tables fetch).rows.filter fun r => userOf r = userId)

/-- The rows of the user, page by page. -/
def exportRows (userOf : ρ → Int) (userId : Int) (pageSize : Nat) (tables : Nat → Table key)
    (fuel : Nat) : Option (List ρ × Nat) :=
  keysetPages (fetchPage userOf userId pageSize tables) key pageSize fuel 0 none

variable {userOf : ρ → Int} {userId : Int} {pageSize : Nat} {tables : Nat → Table key}
  {fetch : Nat} {cursor : Option κ} {r last : ρ}

/-- The row is a row of the user in the table of the fetch. -/
def Present (userOf : ρ → Int) (userId : Int) (tables : Nat → Table key) (fetch : Nat) (r : ρ) :
    Prop := r ∈ (tables fetch).rows ∧ userOf r = userId

omit [LinearOrder κ] in
theorem mem_user_rows : r ∈ (tables fetch).rows.filter (fun r => userOf r = userId) ↔
    Present userOf userId tables fetch r := by
  rw [List.mem_filter, decide_eq_true_iff]
  rfl

omit [LinearOrder κ] in
theorem user_keys_nodup (userOf : ρ → Int) (userId : Int) (tables : Nat → Table key) (fetch : Nat) :
    (((tables fetch).rows.filter fun r => userOf r = userId).map key).Nodup :=
  (tables fetch).unique.sublist (List.filter_sublist.map key)

/-- What has been emitted from a fetch on: sorted, after the cursor, only rows of the user,
and every row that stays. -/
structure Emits (userOf : ρ → Int) (userId : Int) (tables : Nat → Table key) (fetch : Nat)
    (cursor : Option κ) (emitted : List ρ) (final : Nat) : Prop where
  fetch_le : fetch ≤ final
  sorted : emitted.Pairwise fun r r' => key r < key r'
  after : ∀ r ∈ emitted, After cursor (key r)
  owned : ∀ r ∈ emitted, ∃ n, fetch ≤ n ∧ n ≤ final ∧ Present userOf userId tables n r
  complete : ∀ r, After cursor (key r) →
    (∀ n, fetch ≤ n → n ≤ final → Present userOf userId tables n r) → r ∈ emitted

/-- A short page ends the export. -/
theorem emits_short
    (hshort : (fetchPage userOf userId pageSize tables fetch cursor).length < pageSize) :
    Emits userOf userId tables fetch cursor
      (fetchPage userOf userId pageSize tables fetch cursor) fetch where
  fetch_le := le_rfl
  sorted := pairwise_pageAfter (user_keys_nodup userOf userId tables fetch)
  after _ hr := (mem_of_mem_pageAfter hr).2
  owned _ hr := ⟨fetch, le_rfl, le_rfl, mem_user_rows.mp (mem_of_mem_pageAfter hr).1⟩
  complete _ hafter hstays :=
    mem_pageAfter_of_short hshort (mem_user_rows.mpr (hstays fetch le_rfl le_rfl)) hafter

/-- A full page, and what is emitted after its last row. -/
theorem Emits.page {emitted : List ρ} {final : Nat}
    (hlast : (fetchPage userOf userId pageSize tables fetch cursor).getLast? = some last)
    (hrest : Emits userOf userId tables (fetch + 1) (some (key last)) emitted final) :
    Emits userOf userId tables fetch cursor
      (fetchPage userOf userId pageSize tables fetch cursor ++ emitted) final := by
  have hkeys := user_keys_nodup userOf userId tables fetch
  have hmem : last ∈ fetchPage userOf userId pageSize tables fetch cursor :=
    List.mem_of_getLast? hlast
  have hbehind : ∀ r ∈ emitted, key last < key r := fun r hr => hrest.after r hr _ rfl
  refine ⟨(Nat.le_succ fetch).trans hrest.fetch_le, ?_, ?_, ?_, ?_⟩
  · refine List.pairwise_append.mpr ⟨pairwise_pageAfter hkeys, hrest.sorted, fun r hr r' hr' => ?_⟩
    exact (le_getLast_pageAfter hkeys hlast hr).trans_lt (hbehind r' hr')
  · intro r hr
    obtain hr | hr := List.mem_append.mp hr
    · exact (mem_of_mem_pageAfter hr).2
    · exact fun c hc => ((mem_of_mem_pageAfter hmem).2 c hc).trans (hbehind r hr)
  · intro r hr
    obtain hr | hr := List.mem_append.mp hr
    · exact ⟨fetch, le_rfl, (Nat.le_succ fetch).trans hrest.fetch_le,
        mem_user_rows.mp (mem_of_mem_pageAfter hr).1⟩
    · obtain ⟨n, hn, hfinal, hpresent⟩ := hrest.owned r hr
      exact ⟨n, (Nat.le_succ fetch).trans hn, hfinal, hpresent⟩
  · intro r hafter hstays
    -- a row up to the last one is on this page, any other is still to come
    by_cases hle : key r ≤ key last
    · refine List.mem_append_left _ (mem_pageAfter_of_le_last hkeys hmem ?_ hafter hle)
      exact mem_user_rows.mpr (hstays fetch le_rfl ((Nat.le_succ fetch).trans hrest.fetch_le))
    · refine List.mem_append_right _ (hrest.complete r (fun c hc => ?_) fun n hn => ?_)
      · exact Option.some.inj hc ▸ not_le.mp hle
      · exact hstays n ((Nat.le_succ fetch).trans hn)

/-- The number of the keys that are still to come. -/
def remaining (keys : Finset κ) (cursor : Option κ) : Nat :=
  (keys.filter fun k => After cursor k).card

theorem remaining_lt {keys : Finset κ} (hlast : key last ∈ keys) (hafter : After cursor (key last)) :
    remaining keys (some (key last)) < remaining keys cursor := by
  refine Finset.card_lt_card (Finset.ssubset_iff_of_subset (fun k hk => ?_) |>.mpr
    ⟨key last, ?_, fun h => ?_⟩)
  · obtain ⟨hk, hlt⟩ := Finset.mem_filter.mp hk
    exact Finset.mem_filter.mpr ⟨hk, fun c hc => (hafter c hc).trans (hlt _ rfl)⟩
  · exact Finset.mem_filter.mpr ⟨hlast, hafter⟩
  · exact lt_irrefl _ ((Finset.mem_filter.mp h).2 _ rfl)

/-- The loop ends, as each full page leaves fewer keys to come. -/
theorem keysetPages_emits {keys : Finset κ}
    (hfinite : ∀ n, ∀ r, Present userOf userId tables n r → key r ∈ keys) (hsize : 1 ≤ pageSize)
    (fetch : Nat) (cursor : Option κ) :
    ∃ emitted final, Emits userOf userId tables fetch cursor emitted final ∧
      ∀ fuel, remaining keys cursor < fuel →
        keysetPages (fetchPage userOf userId pageSize tables) key pageSize fuel fetch cursor =
          some (emitted, final) := by
  induction hn : remaining keys cursor using Nat.strong_induction_on generalizing fetch cursor with
  | _ n ih =>
    subst hn
    obtain ⟨rows, hrows⟩ : ∃ rows, fetchPage userOf userId pageSize tables fetch cursor = rows :=
      ⟨_, rfl⟩
    cases hlast : rows.getLast? with
    | none =>
      have hnil : rows = [] := List.getLast?_eq_none_iff.mp hlast
      refine ⟨rows, fetch, hrows ▸ emits_short (by rw [hrows, hnil]; exact hsize), ?_⟩
      intro fuel hfuel
      obtain ⟨fuel, rfl⟩ := Nat.exists_eq_add_of_lt hfuel
      subst hnil
      simp only [keysetPages, hrows, List.getLast?_nil]
    | some last =>
      by_cases hshort : rows.length < pageSize
      · refine ⟨rows, fetch, hrows ▸ emits_short (hrows.symm ▸ hshort), fun fuel hfuel => ?_⟩
        obtain ⟨fuel, rfl⟩ := Nat.exists_eq_add_of_lt hfuel
        simp only [keysetPages, hrows, hlast, if_pos hshort]
      · have hmem := mem_of_mem_pageAfter (hrows ▸ List.mem_of_getLast? hlast :
          last ∈ fetchPage userOf userId pageSize tables fetch cursor)
        have hless : remaining keys (some (key last)) < remaining keys cursor :=
          remaining_lt (hfinite fetch last (mem_user_rows.mp hmem.1)) hmem.2
        obtain ⟨emitted, final, hemits, hloop⟩ :=
          ih _ hless (fetch + 1) (some (key last)) rfl
        refine ⟨rows ++ emitted, final, hrows ▸ hemits.page (hrows.symm ▸ hlast), fun fuel hfuel => ?_⟩
        obtain ⟨fuel, rfl⟩ := Nat.exists_eq_add_of_lt hfuel
        simp only [keysetPages, hrows, hlast, if_neg hshort]
        rw [hloop _ (by omega)]
        rfl

/-- **The export loses and repeats nothing.** Whatever is inserted and deleted between the
fetches, if only finitely many rows of the user are ever there, the export ends, emits rows of
the user in strictly increasing order of their keys, none of them twice, and emits every row
that is there from the first fetch to the last. -/
theorem exportRows_emits (userOf : ρ → Int) (userId : Int) (tables : Nat → Table key)
    (hsize : 1 ≤ pageSize) (hfinite : {r | ∃ n, Present userOf userId tables n r}.Finite) :
    ∃ emitted final, (∃ enough, ∀ fuel, enough ≤ fuel →
        exportRows userOf userId pageSize tables fuel = some (emitted, final)) ∧
      (emitted.Pairwise fun r r' => key r < key r') ∧ emitted.Nodup ∧
      (∀ r ∈ emitted, ∃ n ≤ final, Present userOf userId tables n r) ∧
      ∀ r, (∀ n ≤ final, Present userOf userId tables n r) → r ∈ emitted := by
  have hkeys : ∀ n r, Present userOf userId tables n r → key r ∈ (hfinite.image key).toFinset := by
    intro n r hpresent
    exact (Set.Finite.mem_toFinset _).mpr ⟨r, ⟨n, hpresent⟩, rfl⟩
  obtain ⟨emitted, final, hemits, hloop⟩ := keysetPages_emits hkeys hsize 0 none
  refine ⟨emitted, final, ⟨_, fun fuel hfuel => hloop fuel hfuel⟩, hemits.sorted, ?_, ?_, ?_⟩
  · have hne : ∀ {r r' : ρ}, key r < key r' → r ≠ r' := fun hlt heq => hlt.ne (congrArg key heq)
    exact hemits.sorted.imp hne
  · intro r hr
    obtain ⟨n, -, hn, hpresent⟩ := hemits.owned r hr
    exact ⟨n, hn, hpresent⟩
  · exact fun r hstays => hemits.complete r (fun c hc => by cases hc) fun n _ hn => hstays n hn

/-- Three rows at the first fetch; before the second one the cursor's row is deleted and a row
is inserted behind it. -/
def cursorDeleted (fetch : Nat) : Table (id : Int → Int) :=
  if fetch = 0 then ⟨[3, 1, 2], by decide⟩ else ⟨[3, 4], by decide⟩

theorem exportRows_emits_cursor_deleted :
    ∃ emitted final, (∃ enough, ∀ fuel, enough ≤ fuel →
        exportRows (fun _ => 7) 7 2 cursorDeleted fuel = some (emitted, final)) ∧
      emitted.Nodup ∧ 3 ∈ emitted := by
  have hrows : {r | ∃ n, Present (fun _ => 7) 7 cursorDeleted n r} ⊆ {1, 2, 3, 4} := by
    rintro r ⟨n, hr, -⟩
    rw [cursorDeleted] at hr
    split_ifs at hr <;> simp at hr ⊢ <;> omega
  obtain ⟨emitted, final, hends, -, hnodup, -, hcomplete⟩ :=
    exportRows_emits (fun _ => 7) 7 cursorDeleted (show 1 ≤ 2 by decide)
      ((Set.toFinite _).subset hrows)
  refine ⟨emitted, final, hends, hnodup, hcomplete 3 fun n _ => ⟨?_, rfl⟩⟩
  rw [cursorDeleted]
  split_ifs <;> decide

/-- The rows of the user, each as the lines that the export makes of it. -/
def streamRows {β : Type} (project : ρ → List β) (userOf : ρ → Int) (userId : Int)
    (tables : Nat → Table key) (fuel : Nat) : Option (List β) :=
  (exportRows userOf userId exportPageSize tables fuel).map fun x => x.1.flatMap project

end pages

/-! ## The four streams -/

namespace Export

structure VocabularyEntry where
  id : Int
  userId : Int
  word : String
  translation : String
  example_ : String

structure ReviewItem where
  id : Int
  userId : Int
  item : Review.ReviewItem

def ReviewItem.line (r : ReviewItem) : String × String × Nat × Status × Option Instant :=
  (r.item.errorType, r.item.state.latestCorrection, r.item.state.stage, r.item.state.status,
    r.item.state.nextReviewAt)

structure ConversationSession where
  id : Int
  userId : Int
  startedAt : Instant

structure Transcript where
  sessionId : Int
  turns : Option (List Message)

structure DebriefRow where
  sessionId : Int
  debrief : Debriefs.Debrief

/-- A row of a session joined with the row that refers to it. -/
structure Joined (ρ : Type) where
  session : ConversationSession
  row : ρ

/-- `(started_at, id)`, in the order of a row comparison. -/
def Joined.key {ρ : Type} (r : Joined ρ) : Lex (Instant × Int) :=
  toLex (r.session.startedAt, r.session.id)

/-- `JOIN ... ON session_id = sessions.id`, where at most one row refers to a session. -/
def joinSessions {ρ : Type} {sessionId : ρ → Int} (sessions : Table ConversationSession.id)
    (table : Table sessionId) : Table (@Joined.key ρ) where
  rows := sessions.rows.filterMap fun s => (table.get s.id).map fun row => ⟨s, row⟩
  unique := by
    have hids : ((sessions.rows.filterMap fun s => (table.get s.id).map fun row =>
        (⟨s, row⟩ : Joined ρ)).map fun r => r.session.id).Nodup := by
      refine sessions.unique.sublist ?_
      induction sessions.rows with
      | nil => exact .slnil
      | cons s rest ih =>
        cases hrow : table.get s.id with
        | none => simpa [List.filterMap_cons, hrow] using ih.cons s.id
        | some row => simpa [List.filterMap_cons, hrow] using ih.cons_cons s.id
    refine List.Nodup.of_map (fun k => (ofLex k).2) ?_
    rw [List.map_map]
    exact hids

def streamVocabulary (userId : Int) (tables : Nat → Table VocabularyEntry.id) (fuel : Nat) :
    Option (List (String × String × String)) :=
  streamRows (fun e => [(e.word, e.translation, e.example_)]) VocabularyEntry.userId userId tables fuel

def streamReviewItems (userId : Int) (tables : Nat → Table ReviewItem.id) (fuel : Nat) :
    Option (List (String × String × Nat × Status × Option Instant)) :=
  streamRows (fun r => [r.line]) ReviewItem.userId userId tables fuel

/-- What the learner said in the sessions: `(session_id, started_at, text)`. -/
def streamUtterances (userId : Int) (sessions : Nat → Table ConversationSession.id)
    (transcripts : Nat → Table Transcript.sessionId) (fuel : Nat) :
    Option (List (Int × Instant × String)) :=
  streamRows (fun r => ((r.row.turns.getD []).filter fun turn => turn.role = roleUser).map
      fun turn => (r.session.id, r.session.startedAt, turn.content))
    (fun r : Joined Transcript => r.session.userId) userId
    (fun n => joinSessions (sessions n) (transcripts n)) fuel

def streamDebriefs (userId : Int) (sessions : Nat → Table ConversationSession.id)
    (debriefs : Nat → Table DebriefRow.sessionId) (fuel : Nat) :
    Option (List (Int × Instant × Debriefs.Debrief)) :=
  streamRows (fun r => [(r.session.id, r.session.startedAt, r.row.debrief)])
    (fun r : Joined DebriefRow => r.session.userId) userId
    (fun n => joinSessions (sessions n) (debriefs n)) fuel

end Export

end Apm.VoiceData
