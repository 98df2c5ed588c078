import Apm.Debriefs.Service

/-!
# The placement of a new learner

`place` estimates a level, writes it to the user row, and pre-fills the profile. The level is only
flushed: the commit is left to the update of the profile. That update first touches the profile
row, and the touch has a commit of its own, which takes the level with it.
-/

namespace Apm.Onboarding

open Apm.Lib
open Apm.Debriefs (strip cefrLevels)

set_option autoImplicit false

/-! ## The rows of a learner -/

/-- A row of `learner_profiles`. -/
structure LearnerProfile where
  interests : List String
  goal : Option String
  memorySummary : String
  correctionIntensity : String
  accent : String
  deriving DecidableEq, Repr

/-- The defaults of the columns. -/
def LearnerProfile.new : LearnerProfile := ⟨[], none, "", "gentle", "us"⟩

/-- The user row, and the profile if there is one: it goes with the user. -/
structure Learner where
  cefrLevel : String
  profile : Option LearnerProfile
  deriving DecidableEq, Repr

/-- The profile a touch finds or makes. -/
def Learner.touched (learner : Learner) : LearnerProfile := learner.profile.getD .new

/-- There is no learner when the account was deleted meanwhile. -/
abbrev Database := Option Learner

namespace Database

def level (db : Database) : Option String := db.map Learner.cefrLevel

/-- What a reader of the profile gets: without a row, the defaults. -/
def interests (db : Database) : List String := ((db.map Learner.touched).getD .new).interests

def goal (db : Database) : Option String := ((db.map Learner.touched).getD .new).goal

/-- The `UPDATE` of the level. It fails where it finds no row. -/
def setLevel (cefr : String) (db : Database) : Option Database :=
  db.map fun learner => some { learner with cefrLevel := cefr }

/-- `INSERT ... ON CONFLICT DO NOTHING` of the profile. Without a user its foreign key fails. -/
def insertProfile (db : Database) : Option Database :=
  db.map fun learner => some { learner with profile := some learner.touched }

/-- The `UPDATE` of a loaded profile: the columns that changed. -/
def updateProfile (loaded : LearnerProfile) (interests : List String) (goal : String)
    (db : Database) : Option Database := do
  let learner ← db
  let row ← learner.profile
  pure <| some { learner with
    profile := some { row with
      interests := writeColumn loaded.interests interests row.interests
      goal := writeColumn loaded.goal (some goal) row.goal } }

end Database

/-! ## `place` -/

/-- `_MAX_ANSWERS`. -/
def maxAnswers : Nat := 6

/-- `_MAX_ANSWER_CHARS`. -/
def maxAnswerChars : Nat := 1000

/-- `_MAX_INTERESTS`. -/
def maxInterests : Nat := 10

structure Setup where
  /-- `strip_persistent_instructions` -/
  stripPersistentInstructions : String → String
  /-- `cefr_estimate` of the analysis of the answers, with its fallback -/
  estimate : List String → String → String

/-- The arguments of `place`; `level` is the level of the user as the request loaded it. -/
structure Submission where
  level : String
  answers : List String
  interests : List String
  goal : String

def Submission.cleanAnswers (sub : Submission) : List String :=
  ((sub.answers.take maxAnswers).filter fun a => strip a ≠ "").map fun a =>
    String.ofList ((strip a).toList.take maxAnswerChars)

def Submission.cleanInterests (sub : Submission) : List String :=
  ((sub.interests.take maxInterests).filter fun i => strip i ≠ "").map strip

def Submission.cleanGoal (S : Setup) (sub : Submission) : String :=
  if strip sub.goal = "" then "" else S.stripPersistentInstructions (strip sub.goal)

/-- The level behind an analysis. -/
def Submission.estimatedLevel (S : Setup) (sub : Submission) : String :=
  let estimate := S.estimate sub.cleanAnswers sub.level
  if estimate ∈ cefrLevels then estimate else sub.level

structure PlacementResult where
  cefrLevel : String
  interests : List String
  goal : String
  deriving DecidableEq, Repr

/-- How the database answers each statement behind the analysis. -/
structure Answers where
  getUser : Bool
  flushLevel : Bool
  insert : Bool
  commitTouch : CommitAnswer
  select : Bool
  updateProfile : Bool
  commitProfile : CommitAnswer
  refresh : Bool

inductive Raised where
  | assertion
  deriving DecidableEq, Repr

abbrev PlaceWork := Work Database Raised

section programs

variable (S : Setup) (a : Answers) (sub : Submission)

/-- The level of the user object, if it belongs to the session, and the level to set. Behind an
analysis the user is loaded again; one that is gone leaves the detached object. -/
def assess : PlaceWork (Option String × String) :=
  if sub.cleanAnswers = [] then pure (some sub.level, sub.level)
  else do
    let persisted ← Work.read a.getUser Database.level
    pure (persisted, sub.estimatedLevel S)

/-- `save(user, commit=False)`: an `UPDATE` only where the level changed. -/
def flushLevel (loaded : Option String) (cefr : String) : PlaceWork Unit :=
  match loaded with
  | none => pure ()
  | some level =>
    if cefr = level then pure () else Work.tryWrite a.flushLevel (Database.setLevel cefr)

/-- `first_touch_by_user_id` -/
def firstTouch : PlaceWork LearnerProfile := do
  Work.tryWrite a.insert Database.insertProfile
  Work.commit a.commitTouch
  let row ← Work.read a.select fun db => db.bind Learner.profile
  match row with
  | none => Work.raise (.code .assertion)
  | some profile => pure profile

def flushProfile (profile : LearnerProfile) (interests : List String) (goal : String) :
    PlaceWork Unit :=
  if interests = profile.interests ∧ some goal = profile.goal then pure ()
  else Work.tryWrite a.updateProfile (Database.updateProfile profile interests goal)

/-- `ProfileService.update` -/
def update (interests : List String) (goal : String) : PlaceWork Unit := do
  let profile ← firstTouch a
  flushProfile a profile interests goal
  Work.commit a.commitProfile
  Work.read a.refresh fun _ => ()

/-- `OnboardingService.place`, from where the analysis has answered. -/
def place : PlaceWork PlacementResult := do
  let (loaded, cefr) ← assess S a sub
  flushLevel a loaded cefr
  update a sub.cleanInterests (sub.cleanGoal S)
  pure ⟨cefr, sub.cleanInterests, sub.cleanGoal S⟩

end programs

/-! ## Atomicity -/

/-- Neither the level nor the interests and the goal have been changed. -/
structure Unchanged (db db' : Database) : Prop where
  level : db'.level = db.level
  interests : db'.interests = db.interests
  goal : db'.goal = db.goal

section specification

variable (S : Setup) (a : Answers) (sub : Submission)

/-- The level of a placement. Without a usable answer it is left as it is. -/
def Submission.newLevel (level : String) : String :=
  if sub.cleanAnswers = [] then level else sub.estimatedLevel S

/-- All of them have been. -/
structure Placed (db db' : Database) : Prop where
  level : db'.level = db.level.map (sub.newLevel S)
  interests : db'.interests = sub.cleanInterests
  goal : db'.goal = some (sub.cleanGoal S)

def Atomic (db : Database) : Except (Fault Raised) PlacementResult → Database → Prop
  | .error _, db' => Unchanged db db'
  | .ok _, db' => Placed S sub db db'

def ChangesLevel (learner : Learner) : Prop :=
  sub.newLevel S learner.cefrLevel ≠ learner.cefrLevel

def ChangesProfile (learner : Learner) : Prop :=
  ¬(sub.cleanInterests = learner.touched.interests ∧
    some (sub.cleanGoal S) = learner.touched.goal)

/-- The commit of the first touch is reached, and applied. -/
structure TouchCommits (learner : Learner) : Prop where
  getUser : sub.cleanAnswers ≠ [] → a.getUser = true
  flushLevel : ChangesLevel S sub learner → a.flushLevel = true
  insert : a.insert = true
  commit : a.commitTouch ≠ .failed false

/-- The commit of the profile is reached, and applied. -/
structure ProfileCommits (learner : Learner) : Prop where
  touch : a.commitTouch = .done
  select : a.select = true
  update : ChangesProfile S sub learner → a.updateProfile = true
  commit : a.commitProfile ≠ .failed false

/-- No statement behind the first touch fails. -/
structure Returns (learner : Learner) : Prop extends ProfileCommits S a sub learner where
  done : a.commitProfile = .done
  refresh : a.refresh = true

/-- A placement that fails behind its first commit has nothing to change, and one that fails
behind the second commit has no profile to change either. -/
structure Spared (learner : Learner) : Prop where
  level : ¬ChangesLevel S sub learner
  profile : ProfileCommits S a sub learner → ¬ChangesProfile S sub learner

end specification

/-! ## How a placement ends -/

section proofs

variable (S : Setup) (a : Answers) (sub : Submission)

/-- The learner behind the first commit. -/
def Learner.halfPlaced (learner : Learner) : Learner where
  cefrLevel := sub.newLevel S learner.cefrLevel
  profile := some learner.touched

/-- The learner behind the second one. -/
def Learner.placed (learner : Learner) : Learner where
  cefrLevel := sub.newLevel S learner.cefrLevel
  profile := some { learner.touched with
    interests := sub.cleanInterests
    goal := some (sub.cleanGoal S) }

/-- How a placement ends, and what it leaves committed. -/
inductive Exit (learner : Learner) :
    Except (Fault Raised) PlacementResult → Database → Prop where
  | nothing (e : Fault Raised) (h : ¬TouchCommits S a sub learner) :
      Exit learner (.error e) (some learner)
  | half (e : Fault Raised) (htouch : TouchCommits S a sub learner)
      (h : ¬ProfileCommits S a sub learner) :
      Exit learner (.error e) (some (learner.halfPlaced S sub))
  | whole (e : Fault Raised) (htouch : TouchCommits S a sub learner)
      (hprofile : ProfileCommits S a sub learner) (h : ¬Returns S a sub learner) :
      Exit learner (.error e) (some (learner.placed S sub))
  | returned (r : PlacementResult) (h : Returns S a sub learner) :
      Exit learner (.ok r) (some (learner.placed S sub))

/-- The level of an unanswered submission is not written. -/
theorem newLevel_of_skipped (hskip : sub.cleanAnswers = []) (level : String) :
    sub.newLevel S level = level := if_pos hskip

/-- The statements before the touch of the profile commit nothing. -/
theorem flushLevel_post (learner : Learner) {loaded : Option String} {cefr : String}
    (hlevel : loaded = some learner.cefrLevel ∧ cefr = sub.newLevel S learner.cefrLevel ∨
      sub.cleanAnswers = [] ∧ loaded = some cefr) :
    Work.Post
      (fun _ w => (ChangesLevel S sub learner → a.flushLevel = true) ∧ w = ⟨some learner,
        some { learner with cefrLevel := sub.newLevel S learner.cefrLevel }, .active⟩)
      (fun _ w => ¬(ChangesLevel S sub learner → a.flushLevel = true) ∧ w.committed = some learner)
      (flushLevel a loaded cefr) (Work.opened (some learner)) := by
  rcases hlevel with ⟨rfl, rfl⟩ | ⟨hskip, rfl⟩
  · rw [flushLevel]
    split_ifs with hsame
    · refine .pure ⟨fun hchanges => absurd hsame hchanges, ?_⟩
      rw [hsame]
      rfl
    · refine .tryWrite_answer rfl ?_ ?_
      · intro hfail
        refine ⟨fun h => ?_, rfl⟩
        have hanswer := hfail.resolve_right nofun
        rw [h hsame] at hanswer
        cases hanswer
      · intro hanswer staged hstaged
        obtain rfl := Option.some.inj hstaged
        exact ⟨fun _ => hanswer, rfl⟩
  · rw [flushLevel, if_pos rfl]
    have hlevel := newLevel_of_skipped S sub hskip learner.cefrLevel
    refine .pure ⟨fun hchanges => absurd hlevel hchanges, ?_⟩
    rw [hlevel]
    rfl

/-- The touch of the profile commits what the session has flushed. -/
theorem firstTouch_post {learner flushed : Learner} {w : Uow Database}
    (hw : w = ⟨some learner, some flushed, .active⟩) :
    Work.Post
      (fun profile w => a.insert = true ∧ a.commitTouch = .done ∧ a.select = true ∧
        profile = flushed.touched ∧
        w = Work.opened (some { flushed with profile := some flushed.touched }))
      (fun _ w =>
        ((a.insert = false ∨ a.commitTouch = .failed false) ∧ w.committed = some learner) ∨
        (a.insert = true ∧ a.commitTouch ≠ .failed false ∧
          (a.commitTouch ≠ .done ∨ a.select = false) ∧
          w.committed = some { flushed with profile := some flushed.touched }))
      (firstTouch a) w := by
  obtain rfl := hw
  refine .bind (.tryWrite_answer rfl ?_ ?_)
  · exact fun hfail => .inl ⟨.inl (hfail.resolve_right nofun), rfl⟩
  intro hinsert staged hstaged
  obtain rfl := Option.some.inj hstaged
  refine .bind (.commit rfl ?_ fun hdone => .bind (.read_answer rfl ?_ fun hselect => ?_))
  · intro applied hfailed
    cases applied with
    | false => exact .inl ⟨.inr hfailed, rfl⟩
    | true =>
      refine .inr ⟨hinsert, ?_, .inl ?_, rfl⟩
      · rw [hfailed]
        nofun
      · rw [hfailed]
        nofun
  · intro hselect
    refine .inr ⟨hinsert, ?_, .inr hselect, rfl⟩
    rw [hdone]
    nofun
  · exact .pure ⟨hinsert, hdone, hselect, rfl, rfl⟩

theorem flushProfile_post {profile : LearnerProfile} {cefr : String} (interests : List String)
    (goal : String) {w : Uow Database} (hw : w = Work.opened (some ⟨cefr, some profile⟩)) :
    Work.Post
      (fun _ w => (¬(interests = profile.interests ∧ some goal = profile.goal) →
          a.updateProfile = true) ∧
        w = ⟨some ⟨cefr, some profile⟩,
          some ⟨cefr, some { profile with interests := interests, goal := some goal }⟩, .active⟩)
      (fun _ w => ¬(¬(interests = profile.interests ∧ some goal = profile.goal) →
          a.updateProfile = true) ∧ w.committed = some ⟨cefr, some profile⟩)
      (flushProfile a profile interests goal) w := by
  obtain rfl := hw
  rw [flushProfile]
  split_ifs with hsame
  · refine .pure ⟨fun hchanges => absurd hsame hchanges, ?_⟩
    obtain ⟨rfl, hgoal⟩ := hsame
    rw [hgoal]
    rfl
  · refine .tryWrite_answer rfl ?_ ?_
    · intro hfail
      refine ⟨fun h => ?_, rfl⟩
      have hanswer := hfail.resolve_right nofun
      rw [h hsame] at hanswer
      cases hanswer
    · intro hanswer staged hstaged
      obtain rfl := Option.some.inj hstaged
      refine ⟨fun _ => hanswer, ?_⟩
      simp only [writeColumn_current]
      rfl

/-- The rest of the update writes the interests and the goal. -/
theorem saveProfile_post {profile : LearnerProfile} {cefr : String} (interests : List String)
    (goal : String) {w : Uow Database} (hw : w = Work.opened (some ⟨cefr, some profile⟩)) :
    Work.Post
      (fun _ w => (¬(interests = profile.interests ∧ some goal = profile.goal) →
          a.updateProfile = true) ∧ a.commitProfile = .done ∧ a.refresh = true ∧
        w.committed = some ⟨cefr, some { profile with interests := interests, goal := some goal }⟩)
      (fun _ w =>
        (¬((¬(interests = profile.interests ∧ some goal = profile.goal) →
            a.updateProfile = true) ∧ a.commitProfile ≠ .failed false) ∧
          w.committed = some ⟨cefr, some profile⟩) ∨
        ((¬(interests = profile.interests ∧ some goal = profile.goal) →
            a.updateProfile = true) ∧ a.commitProfile ≠ .failed false ∧
          ¬(a.commitProfile = .done ∧ a.refresh = true) ∧ w.committed =
            some ⟨cefr, some { profile with interests := interests, goal := some goal }⟩))
      (do
        flushProfile a profile interests goal
        Work.commit a.commitProfile
        Work.read a.refresh fun _ => ()) w := by
  refine .bind ((flushProfile_post a interests goal hw).mono ?_ ?_)
  · rintro - w ⟨hupdate, rfl⟩
    refine .bind (.commit rfl ?_ fun hdone => .read_answer rfl ?_ fun hrefresh => ?_)
    · intro applied hfailed
      cases applied with
      | false => exact .inl ⟨fun h => h.2 hfailed, rfl⟩
      | true =>
        refine .inr ⟨hupdate, ?_, fun h => ?_, rfl⟩
        · rw [hfailed]
          nofun
        · rw [hfailed] at h
          cases h.1
    · intro hrefresh
      refine .inr ⟨hupdate, ?_, fun h => ?_, rfl⟩
      · rw [hdone]
        nofun
      · rw [hrefresh] at h
        cases h.2
    · exact ⟨hupdate, hdone, hrefresh, rfl⟩
  · rintro - w ⟨hupdate, hw⟩
    exact .inl ⟨fun h => hupdate h.1, hw⟩

/-- The part of a placement behind the assessment. -/
theorem write_post (learner : Learner) (hget : sub.cleanAnswers ≠ [] → a.getUser = true)
    {loaded : Option String} {cefr : String}
    (hlevel : loaded = some learner.cefrLevel ∧ cefr = sub.newLevel S learner.cefrLevel ∨
      sub.cleanAnswers = [] ∧ loaded = some cefr) :
    Work.Post (fun r w => Exit S a sub learner (.ok r) w.committed)
      (fun e w => Exit S a sub learner (.error e) w.committed)
      (do
        flushLevel a loaded cefr
        update a sub.cleanInterests (sub.cleanGoal S)
        pure ⟨cefr, sub.cleanInterests, sub.cleanGoal S⟩) (Work.opened (some learner)) := by
  refine .bind ((flushLevel_post S a sub learner hlevel).mono ?_ ?_)
  · rintro - w ⟨hflush, hw⟩
    refine .bind (.bind ((firstTouch_post a hw).mono ?_ ?_))
    · rintro profile w ⟨hinsert, htouch, hselect, rfl, hw⟩
      have hcommits : TouchCommits S a sub learner :=
        ⟨hget, hflush, hinsert, by rw [htouch]; nofun⟩
      refine (saveProfile_post a sub.cleanInterests (sub.cleanGoal S) hw).mono ?_ ?_
      · rintro - w ⟨hupdate, hdone, hrefresh, hcommitted⟩
        refine .pure ?_
        rw [hcommitted]
        exact .returned _ ⟨⟨htouch, hselect, hupdate, by rw [hdone]; nofun⟩, hdone, hrefresh⟩
      · rintro e w (⟨hnot, hcommitted⟩ | ⟨hupdate, hcommit, hnot, hcommitted⟩)
        · rw [hcommitted]
          exact .half e hcommits fun h => hnot ⟨h.update, h.commit⟩
        · rw [hcommitted]
          exact .whole e hcommits ⟨htouch, hselect, hupdate, hcommit⟩
            fun h => hnot ⟨h.done, h.refresh⟩
    · rintro e w (⟨hnot, hcommitted⟩ | ⟨hinsert, hcommit, hnot, hcommitted⟩)
      · rw [hcommitted]
        refine .nothing e fun h => ?_
        rcases hnot with hinsert | hfailed
        · rw [h.insert] at hinsert
          cases hinsert
        · exact h.commit hfailed
      · rw [hcommitted]
        refine .half e ⟨hget, hflush, hinsert, hcommit⟩ fun h => ?_
        rcases hnot with htouch | hselect
        · exact htouch h.touch
        · rw [h.select] at hselect
          cases hselect
  · rintro e w ⟨hflush, hcommitted⟩
    rw [hcommitted]
    exact .nothing e fun h => hflush h.flushLevel

theorem place_post (learner : Learner) :
    Work.Post (fun r w => Exit S a sub learner (.ok r) w.committed)
      (fun e w => Exit S a sub learner (.error e) w.committed) (place S a sub)
      (Work.opened (some learner)) := by
  refine .bind ?_
  rw [assess]
  split_ifs with hskip
  · exact .pure (write_post S a sub learner (fun h => absurd hskip h) (.inr ⟨hskip, rfl⟩))
  · refine .bind (.read_answer rfl (fun hget => ?_) fun hget => .pure ?_)
    · refine .nothing _ fun h => ?_
      rw [h.getUser hskip] at hget
      cases hget
    · exact write_post S a sub learner (fun _ => hget) (.inl ⟨rfl, (if_neg hskip).symm⟩)

/-- For a learner that is gone a placement fails, and writes nothing. -/
theorem place_gone :
    Work.Post (fun _ _ => False) (fun _ w => w.committed = none) (place S a sub)
      (Work.opened (none : Database)) := by
  have hupdate : ∀ (cefr : String) (w : Uow Database), w = Work.opened none →
      Work.Post (fun _ _ => False) (fun _ w => w.committed = none) (do
        update a sub.cleanInterests (sub.cleanGoal S)
        pure (⟨cefr, sub.cleanInterests, sub.cleanGoal S⟩ : PlacementResult)) w := by
    rintro cefr w rfl
    exact .bind (.bind (.bind (.tryWrite rfl rfl nofun)))
  refine .bind ?_
  rw [assess]
  split_ifs with hskip
  · refine .pure (.bind ?_)
    rw [flushLevel, if_pos rfl]
    exact .pure (hupdate _ _ rfl)
  · exact .bind (.read rfl rfl (.pure (.bind (.pure (hupdate _ _ rfl)))))

/-- The result of a placement, and what it leaves committed. -/
def placement (db : Database) : Except (Fault Raised) PlacementResult × Database :=
  let (r, w) := place S a sub (Work.opened db)
  (r, w.committed)

theorem exit_placement (learner : Learner) :
    Exit S a sub learner (placement S a sub (some learner)).1
      (placement S a sub (some learner)).2 := by
  have hpost := place_post S a sub learner
  rw [placement]
  cases hplace : place S a sub (Work.opened (some learner)) with
  | mk r w =>
    cases r with
    | ok r => exact hpost.of_ok hplace
    | error e => exact hpost.of_error hplace

/-- Half of a placement is unchanged where it sets the level that was there. -/
theorem unchanged_halfPlaced (learner : Learner) :
    Unchanged (some learner) (some (learner.halfPlaced S sub)) ↔ ¬ChangesLevel S sub learner := by
  rw [ChangesLevel, not_not]
  constructor
  · exact fun h => Option.some.inj h.level
  · exact fun h => ⟨congrArg some h, rfl, rfl⟩

theorem unchanged_placed (learner : Learner) :
    Unchanged (some learner) (some (learner.placed S sub)) ↔
      ¬ChangesLevel S sub learner ∧ ¬ChangesProfile S sub learner := by
  rw [ChangesLevel, ChangesProfile, not_not, not_not]
  constructor
  · exact fun h => ⟨Option.some.inj h.level, h.interests, h.goal⟩
  · rintro ⟨hlevel, hinterests, hgoal⟩
    exact ⟨congrArg some hlevel, hinterests, hgoal⟩

/-- **A placement is atomic exactly where nothing that changed fails behind its first commit.**
The touch of the profile commits the level; so where a statement behind it fails, the placement is
atomic only if the level was that one already and, once the second commit is through, the
interests and the goal too. -/
theorem placement_atomic_iff (db : Database) :
    Atomic S sub db (placement S a sub db).1 (placement S a sub db).2 ↔
      ∀ learner, db = some learner → TouchCommits S a sub learner → ¬Returns S a sub learner →
        Spared S a sub learner := by
  cases db with
  | none =>
    refine ⟨fun _ => nofun, fun _ => ?_⟩
    have hpost := place_gone S a sub
    rw [placement]
    cases hplace : place S a sub (Work.opened (none : Database)) with
    | mk r w =>
      cases r with
      | ok r => exact (hpost.of_ok hplace).elim
      | error e =>
        have hw : w.committed = none := hpost.of_error hplace
        simp only [Atomic, hw]
        exact ⟨rfl, rfl, rfl⟩
  | some learner =>
    have hexit := exit_placement S a sub learner
    generalize placement S a sub (some learner) = outcome at hexit ⊢
    obtain ⟨r, db'⟩ := outcome
    dsimp only at hexit ⊢
    cases hexit with
    | nothing e h =>
      refine ⟨fun _ => ?_, fun _ => ⟨rfl, rfl, rfl⟩⟩
      rintro _ ⟨rfl⟩ htouch
      exact absurd htouch h
    | half e htouch h =>
      rw [Atomic, unchanged_halfPlaced]
      constructor
      · rintro hlevel _ ⟨rfl⟩ - -
        exact ⟨hlevel, fun hprofile => absurd hprofile h⟩
      · exact fun hspared => (hspared learner rfl htouch fun hr => h hr.toProfileCommits).level
    | whole e htouch hprofile h =>
      rw [Atomic, unchanged_placed]
      constructor
      · rintro ⟨hlevel, hsame⟩ _ ⟨rfl⟩ - -
        exact ⟨hlevel, fun _ => hsame⟩
      · intro hspared
        have hfree := hspared learner rfl htouch h
        exact ⟨hfree.level, hfree.profile hprofile⟩
    | returned r h =>
      refine ⟨fun _ => ?_, fun _ => ⟨rfl, rfl, rfl⟩⟩
      rintro _ ⟨rfl⟩ - hnot
      exact absurd h hnot

end proofs

/-- An interest with a NUL character, which the JSON column refuses: the placement fails, and the
level is the new one. -/
theorem placement_nul_interest :
    let S : Setup := ⟨id, fun _ _ => "B1"⟩
    let sub : Submission := ⟨"A1", ["I have been learning for years."],
      [String.ofList ['a', Char.ofNat 0]], "travel"⟩
    let a : Answers := ⟨true, true, true, .done, true, false, .done, true⟩
    let db : Database := some ⟨"A1", none⟩
    ¬Atomic S sub db (placement S a sub db).1 (placement S a sub db).2 := by
  intro S sub a db
  have hraised : (placement S a sub db).1 = .error .database := by decide +kernel
  have hlevel : (placement S a sub db).2.level ≠ db.level := by decide +kernel
  rw [hraised]
  exact fun h => hlevel h.level

end Apm.Onboarding
