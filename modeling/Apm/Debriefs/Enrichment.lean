import Apm.Lib.UnitOfWork
import Apm.VoiceData.Erasure

/-!
# The enrichment of a debrief, statement by statement

Behind a stored debrief three steps run on the database session of the request: the words of the
debrief go into the notebook, its errors into the review schedule, and the session into the
analytics. An exception ends its own step only. The transaction is shared: the vocabulary leaves
the one it broke to the next step, and so does the review before its `try`.
-/

namespace Apm.Debriefs.Enrichment

open Apm.Core Apm.Lib Apm.Review
open Apm.VoiceData (VocabularyEntry AnalyticsEvent vocabularyEntry errorsSeen scheduled)

set_option autoImplicit false

/-! ## The tables -/

/-- `STATUS_REVIEW`, `STATUS_KNOWN`. -/
inductive CardStatus where
  | review
  | known
  deriving DecidableEq, Repr

/-- A row of `vocabulary_entries`. -/
structure Card where
  entry : VocabularyEntry
  status : CardStatus
  deriving DecidableEq, Repr

def Card.word (card : Card) : String := card.entry.word

/-- The rows of one learner. -/
structure Database where
  vocabulary : Table Card.word
  reviewItems : Table ReviewItem.errorType
  analyticsEvents : List AnalyticsEvent

namespace Database

def capture (entry : VocabularyEntry) (db : Database) : Database :=
  { db with vocabulary := db.vocabulary.upsert ⟨entry, .review⟩ }

def record (item : ReviewItem) (db : Database) : Database :=
  { db with reviewItems := db.reviewItems.upsert item }

/-- The insert of an event. `uq_analytics_activation_per_user` refuses a second activation. -/
def emit (event : AnalyticsEvent) (db : Database) : Option Database :=
  if event = .activation ∧ event ∈ db.analyticsEvents then none
  else some { db with analyticsEvents := db.analyticsEvents ++ [event] }

/-- `count_events` of the completions. -/
def completions (db : Database) : Nat := db.analyticsEvents.countP (· ≠ .activation)

end Database

/-! ## `run` -/

/-- The services a request has, and the arguments of `run`. -/
structure Call where
  vocabulary : Bool
  review : Bool
  analytics : Bool
  sessionId : Nat
  result : DebriefResult
  errorCount : Nat
  now : Instant

/-- How the database answers each statement: a word by its place in the result, an upsert of the
review by its type. A rollback always succeeds. -/
structure Answers where
  upsertWord : Nat → Bool
  commitWord : Nat → CommitAnswer
  lock : Bool
  list : Bool
  upsertType : String → Bool
  commitReview : CommitAnswer
  count : Bool
  complete : Bool
  commitComplete : CommitAnswer
  activate : Bool
  commitActivate : CommitAnswer

/-- No code between the statements raises. -/
abbrev EnrichWork := Work Database Empty

def rollbackAndRaise {α : Type} (e : Fault Empty) : EnrichWork α := do
  Work.rollback
  Work.raise e

section programs

variable (S : VoiceData.Setup) (a : Answers) (c : Call)

/-- `SqlAlchemyVocabularyRepository.upsert` -/
def upsertWord (i : Nat) (entry : VocabularyEntry) : EnrichWork Unit := do
  Work.tryWrite (a.upsertWord i) fun db => some (db.capture entry)
  Work.commit (a.commitWord i)

def captureWord (w : VocabularyWord) (i : Nat) : EnrichWork Unit :=
  let entry := vocabularyEntry S c.sessionId w
  if entry.word = "" then pure () else upsertWord a i entry

/-- `VocabularyService.capture` -/
def capture : List (VocabularyWord × Nat) → EnrichWork Unit
  | [] => pure ()
  | (w, i) :: words => do
    captureWord S a c w i
    capture words

def upsertItems : List ReviewItem → EnrichWork Unit
  | [] => pure ()
  | item :: items => do
    Work.tryWrite (a.upsertType item.errorType) fun db => some (db.record item)
    upsertItems items

/-- `ReviewService.record_session` -/
def recordSession : EnrichWork Unit := do
  Work.read a.lock fun _ => ()
  let tracked ← Work.read a.list fun db => db.reviewItems.rows
  Work.handle (do
    upsertItems a (scheduled c.result tracked c.now)
    Work.commit a.commitReview) rollbackAndRaise

/-- `SqlAlchemyAnalyticsSink.emit`: the commit flushes the event. -/
def sinkEmit (insert : Bool) (commit : CommitAnswer) (event : AnalyticsEvent) : EnrichWork Unit :=
  Work.handle (do
    Work.tryWrite insert (Database.emit event)
    Work.commit commit) rollbackAndRaise

/-- `AnalyticsService._emit` -/
def emit (insert : Bool) (commit : CommitAnswer) (event : AnalyticsEvent) : EnrichWork Bool :=
  Work.handle (do
    sinkEmit insert commit event
    pure true) fun _ => pure false

def countCompletions : EnrichWork (Option Nat) :=
  Work.handle (do
    let prior ← Work.read a.count Database.completions
    pure (some prior)) fun _ => pure none

def Call.completion : AnalyticsEvent :=
  .sessionCompleted c.sessionId c.result.cefrEstimate c.errorCount

/-- `AnalyticsService.session_completed` -/
def sessionCompleted : EnrichWork Unit := do
  let prior ← countCompletions a
  let completed ← emit a.complete a.commitComplete c.completion
  if completed = true ∧ prior = some 0 then do
    let _ ← emit a.activate a.commitActivate .activation
    pure ()
  else pure ()

/-- `except Exception` around a step. -/
def swallow (step : EnrichWork Unit) : EnrichWork Unit := Work.handle step fun _ => pure ()

def captureVocabulary : EnrichWork Unit :=
  if c.vocabulary = false ∨ c.result.words = [] then pure ()
  else swallow (capture S a c c.result.words.zipIdx)

def scheduleReview : EnrichWork Unit :=
  if c.review = false then pure () else swallow (recordSession a c)

def emitAnalytics : EnrichWork Unit :=
  if c.analytics = false then pure () else swallow (sessionCompleted a c)

/-- `PostDebriefEnrichment.run` -/
def run : EnrichWork Unit := do
  captureVocabulary S a c
  scheduleReview a c
  emitAnalytics a c

end programs

/-! ## What a step is to do, and the failures of its own statements -/

section specification

variable (S : VoiceData.Setup) (a : Answers) (c : Call) (db : Database)

def captureAll (words : List VocabularyWord) (cards : Table Card.word) : Table Card.word :=
  words.foldl (fun cards w =>
    let entry := vocabularyEntry S c.sessionId w
    if entry.word = "" then cards else cards.upsert ⟨entry, .review⟩) cards

/-- The notebook with the words of the debrief. -/
def captured : Table Card.word := captureAll S c c.result.words db.vocabulary

/-- The rows of the schedule that the debrief is to write. -/
def Call.items : List ReviewItem := scheduled c.result db.reviewItems.rows c.now

def rescheduled : Table ReviewItem.errorType := (c.items db).foldl Table.upsert db.reviewItems

/-- The events with the completion, and with the activation behind the first one. -/
def completed : List AnalyticsEvent :=
  let events := db.analyticsEvents ++ [c.completion]
  if db.completions = 0 ∧ .activation ∉ events then events ++ [.activation] else events

/-- A statement of one of these words is among the failing ones. -/
def WordFails (words : List (VocabularyWord × Nat)) : Prop :=
  ∃ p ∈ words, (vocabularyEntry S c.sessionId p.1).word ≠ "" ∧
    (a.upsertWord p.2 = false ∨ a.commitWord p.2 ≠ .done)

/-- A statement of the capture is among the failing ones. -/
def VocabularyFails : Prop := c.vocabulary = true ∧ WordFails S a c c.result.words.zipIdx

/-- A statement of the review before its `try` fails. -/
def ReviewStrands : Prop := c.review = true ∧ (a.lock = false ∨ a.list = false)

/-- The statement of one of these items is among the failing ones. -/
def ItemFails (items : List ReviewItem) : Prop :=
  ∃ item ∈ items, a.upsertType item.errorType = false

def ReviewFails : Prop :=
  ReviewStrands a c ∨ c.review = true ∧ (ItemFails a (c.items db) ∨ a.commitReview ≠ .done)

def AnalyticsFails : Prop :=
  a.count = false ∨ a.complete = false ∨ a.commitComplete ≠ .done ∨
    db.completions = 0 ∧ (a.activate = false ∨ a.commitActivate ≠ .done)

/-- A configured step, none of whose own statements is one of the failing ones, takes effect. -/
structure Isolated (db' : Database) : Prop where
  vocabulary : c.vocabulary = true → ¬VocabularyFails S a c → db'.vocabulary = captured S c db
  review : c.review = true → ¬ReviewFails a c db → db'.reviewItems = rescheduled c db
  analytics : c.analytics = true → ¬AnalyticsFails a db → db'.analyticsEvents = completed c db

/-- Behind a failure that leaves the transaction broken no step is to do anything more. -/
structure Spared : Prop where
  /-- a capture that fails leaves no schedule to write -/
  review : VocabularyFails S a c → c.review = true →
    ReviewFails a c db ∨ ∀ item ∈ c.items db, item ∈ db.reviewItems.rows
  analytics : VocabularyFails S a c ∨ ReviewStrands a c → c.analytics = true →
    AnalyticsFails a db

end specification

/-! ## The capture -/

section proofs

variable (S : VoiceData.Setup) (a : Answers) (c : Call)

theorem wordFails_cons (p : VocabularyWord × Nat) (words : List (VocabularyWord × Nat)) :
    WordFails S a c (p :: words) ↔ WordFails S a c [p] ∨ WordFails S a c words := by
  simp only [WordFails, List.mem_cons, List.not_mem_nil, or_false, exists_eq_or_imp,
    exists_eq_left]

/-- A word is written and committed, or its failure leaves the transaction broken. -/
theorem captureWord_post (w : VocabularyWord) (i : Nat) (db : Database) :
    Work.Post
      (fun _ w' => ¬WordFails S a c [(w, i)] ∧ w' = Work.opened
        { db with vocabulary := captureAll S c [w] db.vocabulary })
      (fun _ w' => WordFails S a c [(w, i)] ∧ w'.tx ≠ .active ∧
        ∃ cards, w'.committed = { db with vocabulary := cards })
      (captureWord S a c w i) (Work.opened db) := by
  simp only [WordFails, List.mem_singleton, exists_eq_left]
  rw [captureWord, captureAll, List.foldl_cons, List.foldl_nil]
  dsimp only
  split_ifs with hblank
  · exact .pure ⟨fun h => h.1 hblank, rfl⟩
  refine .bind (.tryWrite_answer rfl ?_ ?_)
  · intro hfail
    refine ⟨⟨hblank, .inl ?_⟩, nofun, db.vocabulary, rfl⟩
    exact hfail.resolve_right nofun
  · intro hanswer staged hstaged
    obtain rfl := Option.some.inj hstaged
    refine .commit rfl ?_ fun hdone => ⟨?_, rfl⟩
    · intro applied hfailed
      refine ⟨⟨hblank, .inr ?_⟩, nofun, ?_⟩
      · rw [hfailed]
        nofun
      · cases applied with
        | false => exact ⟨db.vocabulary, rfl⟩
        | true => exact ⟨_, rfl⟩
    · rintro ⟨-, hfalse | hcommit⟩
      · rw [hanswer] at hfalse
        cases hfalse
      · exact hcommit hdone

/-- The capture writes every word, or stops at the first failure. -/
theorem capture_post (words : List (VocabularyWord × Nat)) (db : Database) :
    Work.Post
      (fun _ w => ¬WordFails S a c words ∧ w = Work.opened
        { db with vocabulary := captureAll S c (words.map Prod.fst) db.vocabulary })
      (fun _ w => WordFails S a c words ∧ w.tx ≠ .active ∧
        ∃ cards, w.committed = { db with vocabulary := cards })
      (capture S a c words) (Work.opened db) := by
  induction words generalizing db with
  | nil => exact .pure ⟨fun ⟨_, hp, _⟩ => List.not_mem_nil hp, rfl⟩
  | cons p words ih =>
    obtain ⟨w, i⟩ := p
    rw [wordFails_cons]
    refine .bind ((captureWord_post S a c w i db).mono ?_ ?_)
    · rintro - w' ⟨hword, rfl⟩
      refine (ih _).mono ?_ ?_
      · rintro - w' ⟨hwords, rfl⟩
        exact ⟨not_or.mpr ⟨hword, hwords⟩, rfl⟩
      · rintro - w' ⟨hfails, hrest⟩
        exact ⟨.inr hfails, hrest⟩
    · rintro - w' ⟨hfails, hrest⟩
      exact ⟨.inl hfails, hrest⟩

/-- A swallowed step goes on from where it returned, and from where it raised. -/
theorem swallow_post {Q : Uow Database → Prop} {step : EnrichWork Unit} {w : Uow Database}
    (h : Work.Post (fun _ => Q) (fun _ => Q) step w) :
    Work.Post (fun _ => Q) (fun _ _ => False) (swallow step) w :=
  .handle (h.mono (fun _ _ hq => hq) fun _ _ hq => .pure hq)

theorem captureVocabulary_post (db : Database) :
    Work.Post
      (fun _ w => (¬VocabularyFails S a c ∧ ∃ cards,
          (c.vocabulary = true → cards = captured S c db) ∧
          w = Work.opened { db with vocabulary := cards }) ∨
        VocabularyFails S a c ∧ w.tx ≠ .active ∧ ∃ cards,
          w.committed = { db with vocabulary := cards })
      (fun _ _ => False) (captureVocabulary S a c) (Work.opened db) := by
  rw [captureVocabulary]
  split_ifs with hskip
  · refine .pure (.inl ⟨?_, db.vocabulary, ?_, rfl⟩)
    · rintro ⟨hon, p, hp, -⟩
      rcases hskip with hoff | hnil
      · rw [hon] at hoff
        cases hoff
      · rw [hnil] at hp
        cases hp
    · intro hon
      rcases hskip with hoff | hnil
      · rw [hon] at hoff
        cases hoff
      · rw [captured, hnil]
        rfl
  · rw [not_or, Bool.not_eq_false] at hskip
    refine swallow_post ((capture_post S a c _ db).mono ?_ ?_)
    · rintro - w ⟨hfine, rfl⟩
      refine .inl ⟨fun h => hfine h.2, _, fun _ => ?_, rfl⟩
      rw [List.zipIdx_map_fst]
      rfl
    · rintro - w ⟨hfails, hrest⟩
      exact .inr ⟨⟨hskip.1, hfails⟩, hrest⟩

/-! ## The review -/

theorem upsertItems_post (items : List ReviewItem) {w : Uow Database} (h : w.tx = .active) :
    Work.Post
      (fun _ w' => ¬ItemFails a items ∧ w' = { w with staged :=
        { w.staged with reviewItems := items.foldl Table.upsert w.staged.reviewItems } })
      (fun _ w' => ItemFails a items ∧ w'.committed = w.committed)
      (upsertItems a items) w := by
  induction items generalizing w with
  | nil => exact .pure ⟨fun ⟨_, hi, _⟩ => List.not_mem_nil hi, rfl⟩
  | cons item items ih =>
    have hcons : ItemFails a (item :: items) ↔
        a.upsertType item.errorType = false ∨ ItemFails a items := by
      simp only [ItemFails, List.mem_cons, exists_eq_or_imp]
    rw [hcons]
    refine .bind (.tryWrite_answer h ?_ ?_)
    · intro hfail
      exact ⟨.inl (hfail.resolve_right nofun), rfl⟩
    · intro hanswer staged hstaged
      obtain rfl := Option.some.inj hstaged
      refine (ih (by exact h)).mono ?_ ?_
      · rintro - w' ⟨hitems, rfl⟩
        refine ⟨not_or.mpr ⟨?_, hitems⟩, rfl⟩
        rw [hanswer]
        nofun
      · rintro - w' ⟨hfails, hcommitted⟩
        exact ⟨.inr hfails, hcommitted⟩

/-- Where the review ends with a healthy transaction, and what it has then done. -/
structure Reviewed (db : Database) (w : Uow Database) : Prop where
  stranded : ¬ReviewStrands a c
  opened : w = Work.opened w.committed
  vocabulary : w.committed.vocabulary = db.vocabulary
  analytics : w.committed.analyticsEvents = db.analyticsEvents
  items : c.review = true → ¬ReviewFails a c db → w.committed.reviewItems = rescheduled c db

/-- The review rolls back what fails behind its reads. -/
theorem recordSession_post (hreview : c.review = true) (db : Database) :
    Work.Post (fun _ w => Reviewed a c db w)
      (fun _ w => Reviewed a c db w ∨
        ReviewStrands a c ∧ w.tx ≠ .active ∧ w.committed = db)
      (recordSession a c) (Work.opened db) := by
  refine .bind (.read_answer rfl ?_ fun hlock => ?_)
  · intro hlock
    exact .inr ⟨⟨hreview, .inl hlock⟩, nofun, rfl⟩
  refine .bind (.read_answer rfl ?_ fun hlist => ?_)
  · intro hlist
    exact .inr ⟨⟨hreview, .inr hlist⟩, nofun, rfl⟩
  have hstranded : ¬ReviewStrands a c := by
    rintro ⟨-, h | h⟩
    · rw [hlock] at h
      cases h
    · rw [hlist] at h
      cases h
  refine .handle (.bind ((upsertItems_post a (c.items db) rfl).mono ?_ ?_))
  · rintro - w ⟨hitems, rfl⟩
    refine .commit rfl ?_ fun hdone => ⟨hstranded, rfl, rfl, rfl, fun _ _ => rfl⟩
    intro applied hfailed
    refine .bind (.rollback (.raise (.inl ⟨hstranded, rfl, ?_, ?_, ?_⟩)))
    · cases applied <;> rfl
    · cases applied <;> rfl
    · intro _ hfine
      refine absurd (.inr ⟨hreview, .inr ?_⟩) hfine
      rw [hfailed]
      nofun
  · rintro e w ⟨hfails, hcommitted⟩
    have hw : w.committed = db := hcommitted
    refine .bind (.rollback (.raise (.inl ⟨hstranded, rfl, ?_, ?_, ?_⟩)))
    · exact congrArg Database.vocabulary hw
    · exact congrArg Database.analyticsEvents hw
    · exact fun _ hfine => absurd (.inr ⟨hreview, .inl hfails⟩) hfine

theorem scheduleReview_post (db : Database) :
    Work.Post
      (fun _ w => Reviewed a c db w ∨ ReviewStrands a c ∧ w.tx ≠ .active ∧ w.committed = db)
      (fun _ _ => False) (scheduleReview a c) (Work.opened db) := by
  rw [scheduleReview]
  split_ifs with hoff
  · refine .pure (.inl ⟨?_, rfl, rfl, rfl, ?_⟩)
    · rintro ⟨hon, -⟩
      rw [hoff] at hon
      cases hon
    · intro hon
      rw [hoff] at hon
      cases hon
  · have hon : c.review = true := by rwa [Bool.not_eq_false] at hoff
    exact swallow_post ((recordSession_post a c hon db).mono (fun _ _ h => .inl h) fun _ _ h => h)

/-- In a broken transaction the review does nothing, and leaves it broken. -/
theorem scheduleReview_broken {w : Uow Database} (h : w.tx ≠ .active) :
    Work.Post (fun _ w' => w' = w) (fun _ _ => False) (scheduleReview a c) w := by
  rw [scheduleReview]
  split_ifs
  · exact .pure rfl
  · exact swallow_post (.bind (.read_broken h rfl))

/-! ## The analytics -/

/-- A commit with an event, or a rollback. -/
theorem emit_post (insert : Bool) (commit : CommitAnswer) (event : AnalyticsEvent)
    (db : Database) :
    Work.Post
      (fun recorded w => w = Work.opened w.committed ∧
        w.committed.vocabulary = db.vocabulary ∧ w.committed.reviewItems = db.reviewItems ∧
        (recorded = true → Database.emit event db = some w.committed) ∧
        (recorded = false → insert = false ∨ commit ≠ .done ∨
          Database.emit event db = none ∧ w.committed = db))
      (fun _ _ => False) (emit insert commit event) (Work.opened db) := by
  refine .handle (.bind (.handle (.bind (.tryWrite_answer rfl ?_ ?_))))
  · intro hfail
    refine .bind (.rollback (.raise (.pure ⟨rfl, rfl, rfl, nofun, fun _ => ?_⟩)))
    rcases hfail with hanswer | hnone
    · exact .inl hanswer
    · exact .inr (.inr ⟨hnone, rfl⟩)
  · intro hanswer staged hstaged
    have hemit : Database.emit event db = some staged := hstaged
    have hframe : staged.vocabulary = db.vocabulary ∧ staged.reviewItems = db.reviewItems := by
      rw [Database.emit] at hemit
      split_ifs at hemit
      obtain rfl := Option.some.inj hemit
      exact ⟨rfl, rfl⟩
    refine .commit rfl ?_ fun hdone => ?_
    · intro applied hfailed
      refine .bind (.rollback (.raise (.pure ⟨rfl, ?_, ?_, nofun, fun _ => .inr (.inl ?_)⟩)))
      · cases applied with
        | false => rfl
        | true => exact hframe.1
      · cases applied with
        | false => rfl
        | true => exact hframe.2
      · rw [hfailed]
        nofun
    · exact .pure ⟨rfl, hframe.1, hframe.2, fun _ => hemit, nofun⟩

/-- In a broken transaction nothing is recorded; the rollback mends it. -/
theorem emit_broken (insert : Bool) (commit : CommitAnswer) (event : AnalyticsEvent)
    {w : Uow Database} (h : w.tx ≠ .active) :
    Work.Post (fun recorded w' => recorded = false ∧ w' = Work.opened w.committed)
      (fun _ _ => False) (emit insert commit event) w :=
  .handle (.bind (.handle (.bind (.tryWrite_broken h
    (.bind (.rollback (.raise (.pure ⟨rfl, rfl⟩))))))))

/-- What the analytics keep of the database, and what they do where nothing of theirs fails. -/
structure Emitted (db db' : Database) : Prop where
  vocabulary : db'.vocabulary = db.vocabulary
  review : db'.reviewItems = db.reviewItems
  events : ¬AnalyticsFails a db → db'.analyticsEvents = completed c db

theorem sessionCompleted_broken {w : Uow Database} (h : w.tx ≠ .active) :
    Work.Post (fun _ w' => w'.committed = w.committed) (fun _ _ => False)
      (sessionCompleted a c) w := by
  refine .bind (.handle (.bind (.read_broken h (.pure ?_))))
  refine .bind ((emit_broken a.complete a.commitComplete c.completion h).mono ?_ fun _ _ hf => hf)
  rintro recorded w' ⟨rfl, rfl⟩
  exact .pure rfl

/-- The activation follows a completion that was recorded. -/
theorem activate_post {db db' : Database}
    (hcomplete : Database.emit c.completion db = some db') :
    Work.Post (fun _ w => Emitted a c db w.committed) (fun _ _ => False)
      (if true = true ∧ some db.completions = some 0 then do
        let _ ← emit a.activate a.commitActivate .activation
        pure ()
      else pure ()) (Work.opened db') := by
  rw [Database.emit, if_neg fun h => nomatch h.1] at hcomplete
  obtain rfl := Option.some.inj hcomplete
  split_ifs with hfirst
  · have hzero : db.completions = 0 := Option.some.inj hfirst.2
    refine .bind ((emit_post a.activate a.commitActivate .activation _).mono ?_ fun _ _ hf => hf)
    rintro recorded w ⟨-, hvocabulary, hreview, hrecorded, hnot⟩
    refine .pure ⟨hvocabulary, hreview, fun hfine => ?_⟩
    rw [completed]
    cases recorded with
    | true =>
      have hemit := hrecorded rfl
      rw [Database.emit] at hemit
      split_ifs at hemit with hthere
      rw [if_pos ⟨hzero, fun hmem => hthere ⟨rfl, hmem⟩⟩, ← Option.some.inj hemit]
    | false =>
      rcases hnot rfl with hanswer | hcommit | ⟨hnone, hw⟩
      · exact absurd (.inr (.inr (.inr ⟨hzero, .inl hanswer⟩))) hfine
      · exact absurd (.inr (.inr (.inr ⟨hzero, .inr hcommit⟩))) hfine
      · rw [Database.emit] at hnone
        split_ifs at hnone with hthere
        rw [if_neg fun h => h.2 hthere.2, hw]
  · refine .pure ⟨rfl, rfl, fun _ => ?_⟩
    rw [completed]
    exact (if_neg fun h => hfirst ⟨rfl, congrArg some h.1⟩).symm

theorem sessionCompleted_post (db : Database) :
    Work.Post (fun _ w => Emitted a c db w.committed) (fun _ _ => False)
      (sessionCompleted a c) (Work.opened db) := by
  refine .bind (.handle (.bind (.read_answer rfl ?_ fun _ => ?_)))
  · intro hcount
    refine .pure (.bind ((emit_broken a.complete a.commitComplete c.completion ?_).mono ?_
      fun _ _ hf => hf))
    · nofun
    rintro recorded w ⟨rfl, rfl⟩
    exact .pure ⟨rfl, rfl, fun hfine => absurd (.inl hcount) hfine⟩
  refine .pure (.bind ((emit_post a.complete a.commitComplete c.completion db).mono ?_
    fun _ _ hf => hf))
  rintro recorded w ⟨hw, hvocabulary, hreview, hrecorded, hnot⟩
  cases recorded with
  | true =>
    rw [hw]
    exact activate_post a c (hrecorded rfl)
  | false =>
    refine .pure ⟨hvocabulary, hreview, fun hfine => ?_⟩
    rcases hnot rfl with hanswer | hcommit | ⟨hnone, -⟩
    · exact absurd (.inr (.inl hanswer)) hfine
    · exact absurd (.inr (.inr (.inl hcommit))) hfine
    · rw [Database.emit, if_neg fun h => nomatch h.1] at hnone
      cases hnone

theorem emitAnalytics_broken {w : Uow Database} (h : w.tx ≠ .active) :
    Work.Post (fun _ w' => w'.committed = w.committed) (fun _ _ => False) (emitAnalytics a c) w := by
  rw [emitAnalytics]
  split_ifs
  · exact .pure rfl
  · exact swallow_post ((sessionCompleted_broken a c h).mono (fun _ _ hw => hw) fun _ _ hf => hf.elim)

theorem emitAnalytics_post (db : Database) :
    Work.Post
      (fun _ w => w.committed.vocabulary = db.vocabulary ∧
        w.committed.reviewItems = db.reviewItems ∧
        (c.analytics = true → ¬AnalyticsFails a db → w.committed.analyticsEvents = completed c db))
      (fun _ _ => False) (emitAnalytics a c) (Work.opened db) := by
  rw [emitAnalytics]
  split_ifs with hoff
  · refine .pure ⟨rfl, rfl, fun hon => ?_⟩
    rw [hoff] at hon
    cases hon
  · refine swallow_post ((sessionCompleted_post a c db).mono ?_ fun _ _ hf => hf.elim)
    exact fun _ w hw => ⟨hw.vocabulary, hw.review, fun _ => hw.events⟩

/-! ## The isolation -/

/-- How a run ends. -/
inductive Outcome (db : Database) : Database → Prop where
  | broken (h : VocabularyFails S a c) (cards : Table Card.word) :
      Outcome db { db with vocabulary := cards }
  | stranded (h : ¬VocabularyFails S a c) (hreview : ReviewStrands a c) {cards : Table Card.word}
      (hcards : c.vocabulary = true → cards = captured S c db) :
      Outcome db { db with vocabulary := cards }
  | isolated (h : ¬VocabularyFails S a c) (hreview : ¬ReviewStrands a c) {db' : Database}
      (hdone : Isolated S a c db db') : Outcome db db'

theorem run_post (db : Database) :
    Work.Post (fun _ w => Outcome S a c db w.committed) (fun _ _ => False) (run S a c)
      (Work.opened db) := by
  refine .bind ((captureVocabulary_post S a c db).mono ?_ fun _ _ hf => hf)
  rintro - w (⟨hfine, cards, hcards, rfl⟩ | ⟨hfails, hbroken, cards, hcommitted⟩)
  · refine .bind ((scheduleReview_post a c _).mono ?_ fun _ _ hf => hf)
    rintro - w (hreview | ⟨hstrands, hbroken, hcommitted⟩)
    · rw [hreview.opened]
      refine (emitAnalytics_post a c _).mono ?_ fun _ _ hf => hf
      rintro - w' ⟨hvocabulary, hitems, hevents⟩
      refine .isolated hfine hreview.stranded
        ⟨fun hon _ => ?_, fun hon hfine' => ?_, fun hon hfine' => ?_⟩
      · rw [hvocabulary, hreview.vocabulary]
        exact hcards hon
      · rw [hitems]
        exact hreview.items hon hfine'
      · have hsame := hreview.analytics
        rw [AnalyticsFails, Database.completions] at hevents
        rw [completed, Database.completions] at hevents
        rw [hsame] at hevents
        exact hevents hon hfine'
    · refine (emitAnalytics_broken a c hbroken).mono ?_ fun _ _ hf => hf
      rintro - w' hw'
      rw [hw', hcommitted]
      exact .stranded hfine hstrands hcards
  · refine .bind ((scheduleReview_broken a c hbroken).mono ?_ fun _ _ hf => hf)
    rintro - w' rfl
    refine (emitAnalytics_broken a c hbroken).mono ?_ fun _ _ hf => hf
    rintro - w'' hw''
    rw [hw'', hcommitted]
    exact .broken hfails cards

/-- A completed session always leaves an event. -/
theorem completed_ne (db : Database) : db.analyticsEvents ≠ completed c db := by
  intro h
  have hlength := congrArg List.length h
  rw [completed] at hlength
  split_ifs at hlength <;> simp only [List.length_append, List.length_singleton] at hlength <;>
    omega

theorem errorsSeen_nodup (errors : List DebriefError) :
    ((errorsSeen errors).map Prod.fst).Nodup := by
  have hfold : ∀ (errors : List DebriefError) (seen : List (String × String)),
      (seen.map Prod.fst).Nodup → ((errors.foldl (fun seen e =>
        if strip e.errorType = "" ∨ e.errorType ∈ seen.map Prod.fst then seen
        else seen ++ [(e.errorType, e.correction)]) seen).map Prod.fst).Nodup := by
    intro errors
    induction errors with
    | nil => exact fun _ h => h
    | cons e errors ih =>
      intro seen h
      refine ih _ ?_
      dsimp only
      split_ifs with hskip
      · exact h
      · rw [not_or] at hskip
        rw [List.map_append, List.map_cons, List.map_nil]
        exact h.append (List.nodup_singleton _) (List.disjoint_singleton.mpr hskip.2)
  exact hfold errors [] List.nodup_nil

theorem rescheduled_eq_iff (db : Database) :
    rescheduled c db = db.reviewItems ↔ ∀ item ∈ c.items db, item ∈ db.reviewItems.rows :=
  Table.upsertAll_eq_self_iff (recordSession_nodup _ _ db.reviewItems.unique (errorsSeen_nodup _))

/-- What a run leaves committed. -/
def enriched (db : Database) : Database := (run S a c (Work.opened db)).2.committed

theorem outcome_enriched (db : Database) : Outcome S a c db (enriched S a c db) := by
  have hpost := run_post S a c db
  rw [enriched]
  cases hrun : run S a c (Work.opened db) with
  | mk r w =>
    cases r with
    | ok _ => exact hpost.of_ok hrun
    | error _ => exact (hpost.of_error hrun).elim

/-- **The steps are isolated exactly where no step is left behind a broken transaction.** Each
step none of whose own statements fails takes full effect, if and only if a capture or the reads
of a review only fail where the later steps fail by themselves, are not configured, or have no
row of the schedule to change. -/
theorem isolated_iff (db : Database) :
    Isolated S a c db (enriched S a c db) ↔ Spared S a c db := by
  have houtcome := outcome_enriched S a c db
  generalize enriched S a c db = db' at houtcome
  cases houtcome with
  | broken hfails cards =>
    constructor
    · intro h
      refine ⟨fun _ hon => or_iff_not_imp_left.mpr fun hfine => ?_, fun _ hon => ?_⟩
      · exact (rescheduled_eq_iff c db).mp (h.review hon hfine).symm
      · by_contra hfine
        exact completed_ne c db (h.analytics hon hfine)
    · intro h
      refine ⟨fun _ hfine => absurd hfails hfine, fun hon hfine => ?_, fun hon hfine => ?_⟩
      · have hsame := (h.review hfails hon).resolve_left hfine
        exact ((rescheduled_eq_iff c db).mpr hsame).symm
      · exact absurd (h.analytics (.inl hfails) hon) hfine
  | stranded hvocabulary hstrands hcards =>
    constructor
    · intro h
      refine ⟨fun hfails => absurd hfails hvocabulary, fun _ hon => ?_⟩
      by_contra hfine
      exact completed_ne c db (h.analytics hon hfine)
    · intro h
      refine ⟨fun hon _ => hcards hon, fun _ hfine => ?_, fun hon hfine => ?_⟩
      · exact absurd (.inl hstrands) hfine
      · exact absurd (h.analytics (.inr hstrands) hon) hfine
  | isolated hvocabulary hreview hdone =>
    refine ⟨fun _ => ⟨fun hfails => absurd hfails hvocabulary, fun hbroken => ?_⟩, fun _ => hdone⟩
    exact absurd hbroken (not_or.mpr ⟨hvocabulary, hreview⟩)

end proofs

/-- A word of 121 characters, longer than its column: the session is not counted either. -/
theorem enriched_long_word :
    let word : VocabularyWord := ⟨String.ofList (List.replicate 121 'a'), "", "", ""⟩
    let c : Call := ⟨true, true, true, 7, ⟨"A2", "", [], [word]⟩, 0, 0⟩
    let a : Answers :=
      ⟨fun _ => false, fun _ => .done, true, true, fun _ => true, .done, true, true, .done, true,
        .done⟩
    let S : VoiceData.Setup := ⟨40, id, id, false⟩
    let db : Database := ⟨Table.empty _, Table.empty _, []⟩
    ¬Isolated S a c db (enriched S a c db) := by
  intro word c a S db h
  have hfine : ¬AnalyticsFails a db := by
    rintro (h | h | h | ⟨-, h | h⟩)
    · cases h
    · cases h
    · exact h rfl
    · cases h
    · exact h rfl
  have hevents : (enriched S a c db).analyticsEvents = completed c db := h.analytics rfl hfine
  revert hevents
  decide +kernel

end Apm.Debriefs.Enrichment
