import Apm.Auth.Service

/-!
# One password for each reset token

Calls of `reset_password` run beside calls of `request_password_reset`, statement by statement. A
reset looks the user up by the hash of its token, hashes the new password, and writes the row with
the token cleared. The lookup takes no lock, and the `UPDATE` selects by id: a reset that was
looked up before another one committed writes over it.
-/

namespace Apm.Auth

open Apm.Core Apm.Lib

set_option autoImplicit false

/-- The arguments of `reset_password`. -/
structure ResetCall where
  rawToken : String
  newPassword : String
  deriving DecidableEq, Repr

def ResetCall.request (c : ResetCall) : Request := .resetPassword c.rawToken c.newPassword

/-- Where a call of `request_password_reset` stands. -/
inductive Issue where
  | entered (email : String)
  /-- the changed user object before its flush and commit -/
  | save (loaded mutated : User)
  | ended
  deriving DecidableEq, Repr

/-- A reset that was committed. -/
structure Reset (ι : Type) where
  call : ι
  userId : Nat
  hashedPassword : String
  deriving DecidableEq, Repr

structure ResetWorld (ι κ : Type) where
  base : World ι
  issuing : κ → Issue
  /-- history: the resets that were committed, in commit order -/
  resets : List (Reset ι)
  /-- history: the user a token was issued to -/
  issuedTo : String → Option Nat

inductive ResetAction (ι κ : Type) where
  | call (a : Action ι)
  /-- the next statement of a request for a token, with the clock and the token it may draw -/
  | issue (k : κ) (now : Instant) (raw : String)
  /-- a request for a token is rolled back -/
  | drop (k : κ)
  deriving DecidableEq

variable {ι κ : Type} [DecidableEq ι] [DecidableEq κ]

/-- The reset a statement commits. -/
def redeemed (w : World ι) : Action ι → List (Reset ι)
  | .advance i _ _ | .lose i _ _ =>
    match w.phase i with
    | .updating (.credentials loaded mutated) _ [] _ => [⟨i, loaded.id, mutated.hashedPassword⟩]
    | _ => []
  | .visit .. | .abort _ => []

/-- `timedelta(hours=1)`. -/
def resetTtl : Int := 3600 * microsPerSecond

namespace ResetWorld

def setIssue (w : ResetWorld ι κ) (k : κ) (p : Issue) : ResetWorld ι κ :=
  { w with issuing := Function.update w.issuing k p }

end ResetWorld

/-- The next statement of `request_password_reset`. -/
def issueStep (S : Setup) (w : ResetWorld ι κ) (k : κ) (now : Instant) (raw : String) :
    Issue → Option (ResetWorld ι κ)
  | .entered email =>
    match w.base.users.rows.find? (fun u => u.email = S.normalizeEmail email) with
    | none => some (w.setIssue k .ended)
    | some user =>
      if inactive user then some (w.setIssue k .ended)
      else
        some { w.setIssue k (.save user
            { user with
              resetTokenHash := some (S.hashToken raw)
              resetTokenExpiresAt := some (now + resetTtl) }) with
          issuedTo := Function.update w.issuedTo (S.hashToken raw) (some user.id) }
  | .save loaded mutated =>
    if mutated = loaded ∨ w.base.userLock loaded.id = none then
      -- `reset_token_hash` is unique
      if w.base.users.rows.any fun u =>
          u.id ≠ loaded.id && u.resetTokenHash.isSome && u.resetTokenHash = mutated.resetTokenHash
      then some (w.setIssue k .ended)
      else
        some { w.setIssue k .ended with
          base := { w.base with users := writeUser w.base loaded mutated } }
    else none
  | .ended => none

def resetStep (S : Setup) (w : ResetWorld ι κ) : ResetAction ι κ → Option (ResetWorld ι κ)
  | .call a =>
    (step S w.base a).map fun base =>
      { w with base := base, resets := w.resets ++ redeemed w.base a }
  | .issue k now raw => issueStep S w k now raw (w.issuing k)
  | .drop k => if w.issuing k = .ended then none else some (w.setIssue k .ended)

/-- The calls before they begin, over the rows before them. -/
def ResetWorld.init (users : Users) (tokens : RefreshTokens) (calls : ι → ResetCall)
    (emails : κ → String) : ResetWorld ι κ where
  base := World.init users tokens [] fun i => (calls i).request
  issuing := fun k => .entered (emails k)
  resets := []
  issuedTo := fun h =>
    (users.rows.find? fun u => u.resetTokenHash = some h).map User.id

/-! ## The property and its condition -/

section specification

variable (S : Setup) (calls : ι → ResetCall)

/-- The last reset of a user that was committed. -/
def lastReset (resets : List (Reset ι)) (userId : Nat) : Option (Reset ι) :=
  (resets.filter fun r => r.userId = userId).getLast?

/-- At most one of the calls with a token has committed its reset, and a user has the password of
the last call that has. Such a call has succeeded, unless the answer of its commit was lost. -/
structure OneShot (w : ResetWorld ι κ) : Prop where
  once : (w.resets.map fun r => (calls r.call).rawToken).Nodup
  stored : ∀ userId r, lastReset w.resets userId = some r →
    (w.base.users.get userId).map User.hashedPassword = some r.hashedPassword ∧
      ∃ salt, r.hashedPassword = S.hashPassword (calls r.call).newPassword salt

/-- The random texts are new: a token that is drawn was never issued, and a salted hash is not
the one that is stored. -/
def Fresh (w : ResetWorld ι κ) : ResetAction ι κ → ResetWorld ι κ → Prop
  | .issue _ _ raw, _ => w.issuedTo (S.hashToken raw) = none
  | .call (.advance i _ salt), _ =>
    match w.base.phase i with
    | .entered _ =>
      ∀ u ∈ w.base.users.rows, S.hashPassword (calls i).newPassword salt ≠ u.hashedPassword
    | _ => True
  | .call _, _ => True
  | .drop _, _ => True

/-- The `UPDATE` of a reset: no other call with its token has committed meanwhile. -/
def Unredeemed (w : ResetWorld ι κ) : ResetAction ι κ → ResetWorld ι κ → Prop
  | .call (.advance i _ _), _ =>
    match w.base.phase i with
    | .flush .. => ∀ r ∈ w.resets, (calls r.call).rawToken ≠ (calls i).rawToken
    | _ => True
  | .call _, _ => True
  | .issue .., _ => True
  | .drop _, _ => True

instance decidableFresh (w : ResetWorld ι κ) (a : ResetAction ι κ) (w' : ResetWorld ι κ) :
    Decidable (Fresh S calls w a w') := by
  unfold Fresh
  split
  · infer_instance
  · split <;> infer_instance
  · infer_instance
  · infer_instance

instance decidableUnredeemed (w : ResetWorld ι κ) (a : ResetAction ι κ) (w' : ResetWorld ι κ) :
    Decidable (Unredeemed calls w a w') := by
  unfold Unredeemed
  split
  · split <;> infer_instance
  · infer_instance
  · infer_instance
  · infer_instance

end specification

/-! ## What a statement of a reset can do -/

/-- The user as loaded and as changed, from the lookup on. -/
def Phase.change : Phase → Option (User × User)
  | .flush loaded mutated _ => some (loaded, mutated)
  | .revokeAll (.credentials loaded mutated) _ => some (loaded, mutated)
  | .updating (.credentials loaded mutated) .. => some (loaded, mutated)
  | _ => none

/-- The same behind the flush, which takes the lock of the row. -/
def Phase.flushed : Phase → Option (User × User)
  | .revokeAll (.credentials loaded mutated) _ => some (loaded, mutated)
  | .updating (.credentials loaded mutated) .. => some (loaded, mutated)
  | _ => none

theorem Phase.change_of_flushed {p : Phase} {change : User × User} (h : p.flushed = some change) :
    p.change = some change := by
  cases p with
  | revokeAll r => cases r <;> exact h
  | updating r => cases r <;> exact h
  | _ => cases h

/-- What a reset makes of the user it has found. -/
structure Redeems (S : Setup) (c : ResetCall) (loaded mutated : User) : Prop where
  token : loaded.resetTokenHash = some (S.hashToken c.rawToken)
  cleared : mutated.resetTokenHash = none
  password : mutated.hashedPassword ≠ loaded.hashedPassword
  salted : ∃ salt, mutated.hashedPassword = S.hashPassword c.newPassword salt

/-- A phase of a call of `reset_password`. -/
def Resetting (S : Setup) (c : ResetCall) (p : Phase) : Prop :=
  p = .entered c.request ∨ p.ended = true ∨
    ∃ loaded mutated, p.change = some (loaded, mutated) ∧ Redeems S c loaded mutated

/-- What a statement of a reset does, and the reset it commits. -/
inductive ResetMoves (S : Setup) (c : ResetCall) (w : World ι) :
    Action ι → World ι → List (Reset ι) → Prop where
  | look (i : ι) (now : Instant) (salt : String) (user : User)
      (hphase : w.phase i = .entered c.request) (hrow : user ∈ w.users.rows)
      (htoken : user.resetTokenHash = some (S.hashToken c.rawToken)) :
      ResetMoves S c w (.advance i now salt)
        (w.setPhase i (.flush user { user with
          hashedPassword := S.hashPassword c.newPassword salt
          resetTokenHash := none
          resetTokenExpiresAt := none } (some now))) []
  | leaves (a : Action ι) (p : Phase) (hp : p.ended = true) :
      ResetMoves S c w a (w.leave a.call p) []
  | flush (i : ι) (now : Instant) (salt : String) (loaded mutated : User) (read : Option Instant)
      (hphase : w.phase i = .flush loaded mutated read) (hfree : w.userLock loaded.id = none) :
      ResetMoves S c w (.advance i now salt)
        { w.setPhase i (.revokeAll (.credentials loaded mutated) read) with
          userLock := Function.update w.userLock loaded.id (some i) } []
  | goes (a : Action ι) (p : Phase) (w' : World ι) (loaded mutated : User)
      (hphase : (w.phase a.call).flushed = some (loaded, mutated))
      (hp : p.flushed = some (loaded, mutated)) (husers : w'.users = w.users)
      (hlock : w'.userLock = w.userLock) (hphase' : w'.phase = Function.update w.phase a.call p) :
      ResetMoves S c w a w' []
  | commits (a : Action ι) (p : Phase) (w' : World ι) (loaded mutated : User)
      (hphase : (w.phase a.call).flushed = some (loaded, mutated)) (hp : p.ended = true)
      (husers : w'.users = writeUser w loaded mutated)
      (hlock : w'.userLock = (w.leave a.call p).userLock)
      (hphase' : w'.phase = Function.update w.phase a.call p) :
      ResetMoves S c w a w' [⟨a.call, loaded.id, mutated.hashedPassword⟩]

section moves

variable {S : Setup} {c : ResetCall} {w w' : World ι}

/-- A call that is over has no statement left. -/
theorem step_ended {a : Action ι} (h : (w.phase a.call).ended = true) : step S w a = none := by
  cases a with
  | advance i now salt =>
    rw [Action.call] at h
    rw [step]
    cases hphase : w.phase i with
    | issued | rejected | done | aborted => rfl
    | _ =>
      rw [hphase] at h
      cases h
  | lose i now salt =>
    rw [Action.call] at h
    rw [step, lose, if_neg]
    cases hphase : w.phase i with
    | issued | rejected | done | aborted => exact Bool.false_ne_true
    | _ =>
      rw [hphase] at h
      cases h
  | visit i k =>
    rw [Action.call] at h
    rw [step]
    cases hphase : w.phase i with
    | issued | rejected | done | aborted => rfl
    | _ =>
      rw [hphase] at h
      cases h
  | abort i => exact if_pos h

theorem look_moves {i : ι} {now : Instant} {salt : String} (hphase : w.phase i = .entered c.request)
    (hstep : step S w (.advance i now salt) = some w') :
    ResetMoves S c w (.advance i now salt) w' (redeemed w (.advance i now salt)) := by
  rw [redeemed, hphase]
  rw [step, hphase] at hstep
  simp only [advance, ResetCall.request, enter] at hstep
  split at hstep
  · rw [← Option.some.inj hstep]
    exact .leaves (.advance i now salt) .rejected rfl
  · rename_i user hfound
    split at hstep
    · rw [← Option.some.inj hstep]
      exact .leaves (.advance i now salt) .rejected rfl
    · rw [← Option.some.inj hstep]
      have htoken := List.find?_some hfound
      exact .look i now salt user hphase (List.mem_of_find?_eq_some hfound)
        (of_decide_eq_true htoken)

/-- Behind the lookup a reset takes the lock, updates the tokens, and commits. -/
theorem change_moves {i : ι} {now : Instant} {salt : String} {loaded mutated : User}
    (hchange : (w.phase i).change = some (loaded, mutated)) (hne : mutated ≠ loaded)
    (hstep : step S w (.advance i now salt) = some w') :
    ResetMoves S c w (.advance i now salt) w' (redeemed w (.advance i now salt)) := by
  rw [redeemed]
  rw [step] at hstep
  cases hphase : w.phase i with
  | flush loaded' mutated' read =>
    rw [hphase] at hchange hstep
    obtain ⟨rfl, rfl⟩ := Prod.mk.inj (Option.some.inj hchange)
    simp only [advance, if_neg hne] at hstep
    split at hstep
    · rename_i hfree
      rw [← Option.some.inj hstep]
      exact .flush i now salt loaded' mutated' read hphase hfree
    · cases hstep
  | revokeAll r read =>
    rw [hphase] at hchange hstep
    cases r with
    | reuse => cases hchange
    | credentials loaded' mutated' =>
      obtain ⟨rfl, rfl⟩ := Prod.mk.inj (Option.some.inj hchange)
      rw [← Option.some.inj hstep]
      refine .goes (.advance i now salt) _ _ loaded' mutated' ?_ rfl rfl rfl rfl
      rw [Action.call, hphase]
      rfl
  | updating r revokedAt todo staged =>
    rw [hphase] at hchange hstep
    cases r with
    | reuse => cases hchange
    | credentials loaded' mutated' =>
      obtain ⟨rfl, rfl⟩ := Prod.mk.inj (Option.some.inj hchange)
      cases todo with
      | nil =>
        rw [← Option.some.inj hstep]
        refine .commits (.advance i now salt) .done _ loaded' mutated' ?_ rfl rfl rfl rfl
        rw [Action.call, hphase]
        rfl
      | cons => cases hstep
  | _ =>
    rw [hphase] at hchange
    cases hchange

/-- A reset whose commit is applied has redeemed its token, and fails if the answer is lost. -/
theorem lost_moves {i : ι} {now : Instant} {salt : String}
    (hreset : Resetting S c (w.phase i)) (hstep : step S w (.lose i now salt) = some w') :
    ResetMoves S c w (.lose i now salt) w' (redeemed w (.lose i now salt)) := by
  rw [redeemed]
  rw [step, lose] at hstep
  split at hstep
  swap
  · cases hstep
  rename_i hcommits
  rcases hreset with hphase | hended | ⟨loaded, mutated, hchange, -⟩
  · rw [hphase] at hcommits
    cases hcommits
  · rw [Phase.not_ended_of_commits hcommits] at hended
    cases hended
  · cases hphase : w.phase i with
    | flush | revokeAll =>
      rw [hphase] at hcommits
      cases hcommits
    | updating r revokedAt todo staged =>
      rw [hphase] at hchange hcommits hstep
      cases r with
      | reuse => cases hchange
      | credentials loaded' mutated' =>
        cases todo with
        | cons => cases hcommits
        | nil =>
          rw [← Option.some.inj hstep]
          refine .commits (.lose i now salt) .aborted _ loaded' mutated' ?_ rfl rfl rfl rfl
          rw [Action.call, hphase]
          rfl
    | _ =>
      rw [hphase] at hchange
      cases hchange

theorem visit_moves {i : ι} {h : String} {loaded mutated : User}
    (hchange : (w.phase i).change = some (loaded, mutated))
    (hstep : step S w (.visit i h) = some w') : ResetMoves S c w (.visit i h) w' [] := by
  rw [step] at hstep
  cases hphase : w.phase i with
  | updating r revokedAt todo staged =>
    rw [hphase] at hchange hstep
    cases r with
    | reuse => cases hchange
    | credentials loaded' mutated' =>
      obtain ⟨rfl, rfl⟩ := Prod.mk.inj (Option.some.inj hchange)
      have hflushed : (w.phase (Action.visit i h).call).flushed = some (loaded', mutated') := by
        rw [Action.call, hphase]
        rfl
      simp only [visit] at hstep
      split_ifs at hstep <;> rw [← Option.some.inj hstep]
      · exact .goes _ _ _ loaded' mutated' hflushed rfl rfl rfl rfl
      · exact .goes _ _ _ loaded' mutated' hflushed rfl rfl rfl rfl
  | _ =>
    rw [hphase] at hstep
    cases hstep

theorem Redeems.ne {loaded mutated : User} (h : Redeems S c loaded mutated) : mutated ≠ loaded :=
  fun he => h.password (congrArg User.hashedPassword he)

theorem reset_moves {a : Action ι} (hreset : Resetting S c (w.phase a.call))
    (hstep : step S w a = some w') : ResetMoves S c w a w' (redeemed w a) := by
  cases a with
  | abort i =>
    simp only [step] at hstep
    split at hstep
    · cases hstep
    · rw [← Option.some.inj hstep]
      exact .leaves (.abort i) .aborted rfl
  | lose i now salt => exact lost_moves hreset hstep
  | advance i now salt =>
    rcases hreset with hphase | hended | ⟨loaded, mutated, hchange, hredeems⟩
    · exact look_moves hphase hstep
    · rw [step_ended hended] at hstep
      cases hstep
    · exact change_moves hchange hredeems.ne hstep
  | visit i h =>
    rcases hreset with hphase | hended | ⟨loaded, mutated, hchange, -⟩
    · rw [Action.call] at hphase
      rw [step, hphase] at hstep
      cases hstep
    · rw [step_ended hended] at hstep
      cases hstep
    · exact visit_moves hchange hstep

end moves

/-! ## The invariant -/

/-- The calls with one token have loaded one user; the one behind its flush holds the row, and its
token is not redeemed. -/
structure Guarded (S : Setup) (calls : ι → ResetCall) (w : ResetWorld ι κ) : Prop where
  resetting : ∀ i, Resetting S (calls i) (w.base.phase i)
  rows : ∀ u ∈ w.base.users.rows, ∀ h, u.resetTokenHash = some h → w.issuedTo h = some u.id
  loaded : ∀ i loaded mutated, (w.base.phase i).change = some (loaded, mutated) →
    w.issuedTo (S.hashToken (calls i).rawToken) = some loaded.id ∧
      loaded.id ∈ w.base.users.keys
  issuing : ∀ k loaded mutated, w.issuing k = .save loaded mutated →
    mutated.hashedPassword = loaded.hashedPassword ∧
      ∃ h, mutated.resetTokenHash = some h ∧ w.issuedTo h = some loaded.id
  locked : ∀ i loaded mutated, (w.base.phase i).flushed = some (loaded, mutated) →
    w.base.userLock loaded.id = some i
  ahead : ∀ i loaded mutated, (w.base.phase i).flushed = some (loaded, mutated) →
    ∀ r ∈ w.resets, (calls r.call).rawToken ≠ (calls i).rawToken
  oneShot : OneShot S calls w

section rows

variable {w : World ι} {loaded mutated : User}

omit [DecidableEq ι] in
theorem mem_writeUser {u' : User} (h : u' ∈ (writeUser w loaded mutated).rows) :
    ∃ u ∈ w.users.rows, u'.id = u.id ∧ u'.resetTokenHash =
      if u.id = loaded.id then
        writeColumn loaded.resetTokenHash mutated.resetTokenHash u.resetTokenHash
      else u.resetTokenHash := by
  obtain ⟨u, hu, rfl⟩ := List.mem_map.mp h
  refine ⟨u, hu, ?_⟩
  by_cases hid : u.id = loaded.id
  · rw [if_pos (decide_eq_true hid), if_pos hid]
    exact ⟨rfl, rfl⟩
  · rw [if_neg (by rwa [decide_eq_true_eq]), if_neg hid]
    exact ⟨rfl, rfl⟩

omit [DecidableEq ι] in
theorem password_writeUser (userId : Nat) :
    ((writeUser w loaded mutated).get userId).map User.hashedPassword =
      if userId = loaded.id then (w.users.get userId).map fun u =>
        writeColumn loaded.hashedPassword mutated.hashedPassword u.hashedPassword
      else (w.users.get userId).map User.hashedPassword := by
  rw [writeUser, Table.get_update]
  cases hget : w.users.get userId with
  | none => rw [Option.map_none, Option.map_none, Option.map_none, ite_self]
  | some u =>
    obtain rfl := Table.key_of_get hget
    by_cases hid : u.id = loaded.id
    · rw [if_pos hid, Option.map_some, Option.map_some, if_pos (decide_eq_true hid)]
      rfl
    · rw [if_neg hid, Option.map_some, Option.map_some, if_neg (by rwa [decide_eq_true_eq])]
      rfl

omit [DecidableEq ι] in
/-- A write that keeps the password column. -/
theorem password_writeUser_of_eq (h : mutated.hashedPassword = loaded.hashedPassword)
    (userId : Nat) :
    ((writeUser w loaded mutated).get userId).map User.hashedPassword =
      (w.users.get userId).map User.hashedPassword := by
  rw [password_writeUser, h]
  simp only [writeColumn_self]
  exact ite_self _

omit [DecidableEq ι] in
theorem keys_writeUser : (writeUser w loaded mutated).keys = w.users.keys := Table.keys_update

end rows

section steps

variable {S : Setup} {calls : ι → ResetCall} {w w' : ResetWorld ι κ}

omit [DecidableEq ι] in
theorem Resetting.redeems {c : ResetCall} {p : Phase} {loaded mutated : User}
    (h : Resetting S c p) (hp : p.change = some (loaded, mutated)) :
    Redeems S c loaded mutated := by
  rcases h with rfl | hended | ⟨loaded', mutated', hchange, hredeems⟩
  · cases hp
  · cases p with
    | issued | rejected | done | aborted => cases hp
    | _ => cases hended
  · rw [hchange] at hp
    obtain ⟨rfl, rfl⟩ := Prod.mk.inj (Option.some.inj hp)
    exact hredeems

theorem Phase.change_of_ended {p : Phase} (h : p.ended = true) : p.change = none := by
  cases p with
  | issued | rejected | done | aborted => rfl
  | _ => cases h

/-- What a phase of a reset says about its token, its user, and the lock of the row. -/
structure Standing (S : Setup) (calls : ι → ResetCall) (w : ResetWorld ι κ) (i : ι) (p : Phase)
    (lock : Nat → Option ι) : Prop where
  resetting : Resetting S (calls i) p
  loaded : ∀ loaded mutated, p.change = some (loaded, mutated) →
    w.issuedTo (S.hashToken (calls i).rawToken) = some loaded.id ∧
      loaded.id ∈ w.base.users.keys
  locked : ∀ loaded mutated, p.flushed = some (loaded, mutated) → lock loaded.id = some i ∧
    ∀ r ∈ w.resets, (calls r.call).rawToken ≠ (calls i).rawToken

omit [DecidableEq ι] [DecidableEq κ] in
theorem standing_of_ended {i : ι} {p : Phase} {lock : Nat → Option ι} (h : p.ended = true) :
    Standing S calls w i p lock where
  resetting := .inr (.inl h)
  loaded loaded mutated hp := by
    rw [Phase.change_of_ended h] at hp
    cases hp
  locked loaded mutated hp := by
    have hchange := Phase.change_of_flushed hp
    rw [Phase.change_of_ended h] at hchange
    cases hchange

omit [DecidableEq ι] [DecidableEq κ] in
theorem Guarded.standing (hg : Guarded S calls w) (i : ι) :
    Standing S calls w i (w.base.phase i) w.base.userLock where
  resetting := hg.resetting i
  loaded := hg.loaded i
  locked := fun loaded mutated hp => ⟨hg.locked i loaded mutated hp, hg.ahead i loaded mutated hp⟩

omit [DecidableEq ι] [DecidableEq κ] in
/-- The invariant, from what it says about each phase. -/
theorem guarded_of_standing
    (hall : ∀ j, Standing S calls w j (w.base.phase j) w.base.userLock)
    (hrows : ∀ u ∈ w.base.users.rows, ∀ h, u.resetTokenHash = some h → w.issuedTo h = some u.id)
    (hissuing : ∀ k loaded mutated, w.issuing k = .save loaded mutated →
      mutated.hashedPassword = loaded.hashedPassword ∧
        ∃ h, mutated.resetTokenHash = some h ∧ w.issuedTo h = some loaded.id)
    (honeShot : OneShot S calls w) : Guarded S calls w where
  resetting j := (hall j).resetting
  rows := hrows
  loaded j := (hall j).loaded
  issuing := hissuing
  locked j loaded mutated hp := ((hall j).locked loaded mutated hp).1
  ahead j loaded mutated hp := ((hall j).locked loaded mutated hp).2
  oneShot := honeShot

omit [DecidableEq κ] in
/-- A statement that commits no reset moves its call, and leaves the locks of the others. -/
theorem guarded_quiet (hg : Guarded S calls w) (i : ι) {p : Phase} {base : World ι}
    (husers : base.users = w.base.users) (hphase : base.phase = Function.update w.base.phase i p)
    (hlock : ∀ j, j ≠ i → ∀ u, w.base.userLock u = some j → base.userLock u = some j)
    (hstanding : Standing S calls w i p base.userLock) :
    Guarded S calls { w with base := base } := by
  apply guarded_of_standing
  · intro j
    have hkeys : base.users.keys = w.base.users.keys := by rw [husers]
    by_cases hj : j = i
    · rw [hj, hphase, Function.update_self]
      refine ⟨hstanding.resetting, ?_, hstanding.locked⟩
      rw [hkeys]
      exact hstanding.loaded
    · rw [hphase, Function.update_of_ne hj]
      have hold := hg.standing j
      refine ⟨hold.resetting, ?_, fun loaded mutated hp => ?_⟩
      · rw [hkeys]
        exact hold.loaded
      · exact ⟨hlock j hj _ (hold.locked loaded mutated hp).1, (hold.locked loaded mutated hp).2⟩
  · rw [husers]
    exact hg.rows
  · exact hg.issuing
  · refine ⟨hg.oneShot.once, fun userId r hr => ?_⟩
    rw [husers]
    exact hg.oneShot.stored userId r hr

theorem leave_lock {w : World ι} {i j : ι} (p : Phase) (hj : j ≠ i) {u : Nat}
    (h : w.userLock u = some j) : (w.leave i p).userLock u = some j := by
  have hne : w.userLock u ≠ some i := fun he => hj (Option.some.inj (h.symm.trans he))
  exact (if_neg hne).trans h

omit [DecidableEq ι] in
/-- The last reset of a user once another one has committed. -/
theorem lastReset_append (resets : List (Reset ι)) (r : Reset ι) (userId : Nat) :
    lastReset (resets ++ [r]) userId =
      if r.userId = userId then some r else lastReset resets userId := by
  rw [lastReset, List.filter_append]
  by_cases h : r.userId = userId
  · have hthis : [r].filter (fun r => decide (r.userId = userId)) = [r] := by
      simp only [List.filter_cons, h, decide_true, if_true, List.filter_nil]
    rw [if_pos h, hthis, List.getLast?_append, List.getLast?_singleton, Option.some_or]
  · have hnone : [r].filter (fun r => decide (r.userId = userId)) = [] := by
      simp only [List.filter_cons, h, decide_false, Bool.false_eq_true, if_false, List.filter_nil]
    rw [if_neg h, hnone, List.append_nil]
    rfl

omit [DecidableEq ι] [DecidableEq κ] in
/-- Two calls behind their flush have different tokens: both would hold the row of one user. -/
theorem Guarded.token_ne (hg : Guarded S calls w) {i j : ι} (hj : j ≠ i)
    {loaded mutated loaded' mutated' : User}
    (hflushed : (w.base.phase i).flushed = some (loaded, mutated))
    (hflushed' : (w.base.phase j).flushed = some (loaded', mutated')) :
    (calls i).rawToken ≠ (calls j).rawToken := by
  intro hsame
  have hissued := (hg.loaded i loaded mutated (Phase.change_of_flushed hflushed)).1
  have hissued' := (hg.loaded j loaded' mutated' (Phase.change_of_flushed hflushed')).1
  rw [← hsame, hissued] at hissued'
  have hheld' := hg.locked j loaded' mutated' hflushed'
  rw [← Option.some.inj hissued', hg.locked i loaded mutated hflushed] at hheld'
  exact hj (Option.some.inj hheld').symm

omit [DecidableEq ι] [DecidableEq κ] in
/-- The redeemed token leaves the rows, the other ones stay. -/
theorem rows_redeemed (hg : Guarded S calls w) {c : ResetCall} {loaded mutated u' : User}
    (hredeems : Redeems S c loaded mutated) (hu' : u' ∈ (writeUser w.base loaded mutated).rows)
    {h : String} (htoken : u'.resetTokenHash = some h) : w.issuedTo h = some u'.id := by
  obtain ⟨u, hu, hid, hwritten⟩ := mem_writeUser hu'
  rw [hwritten] at htoken
  split_ifs at htoken with hloaded
  · rw [writeColumn, hredeems.cleared, if_neg (by rw [hredeems.token]; nofun)] at htoken
    cases htoken
  · rw [hid]
    exact hg.rows u hu h htoken

omit [DecidableEq ι] [DecidableEq κ] in
/-- The reset that commits is the first one with its token, and its password is stored. -/
theorem oneShot_commits (hg : Guarded S calls w) (i : ι) {loaded mutated : User} {base : World ι}
    (hflushed : (w.base.phase i).flushed = some (loaded, mutated))
    (husers : base.users = writeUser w.base loaded mutated) :
    OneShot S calls { w with
      base := base
      resets := w.resets ++ [⟨i, loaded.id, mutated.hashedPassword⟩] } := by
  have hchange := Phase.change_of_flushed hflushed
  have hredeems := (hg.resetting i).redeems hchange
  constructor
  · rw [List.map_append, List.map_cons, List.map_nil]
    refine List.Nodup.append hg.oneShot.once (List.nodup_singleton _) ?_
    rw [List.disjoint_singleton, List.mem_map]
    rintro ⟨r, hr, hsame⟩
    exact hg.ahead i loaded mutated hflushed r hr hsame
  · intro userId r hr
    rw [lastReset_append] at hr
    rw [husers, password_writeUser]
    split_ifs at hr with huser
    · obtain rfl := Option.some.inj hr
      obtain ⟨u, hu⟩ := Table.mem_keys_iff.mp (hg.loaded i loaded mutated hchange).2
      obtain rfl := huser
      rw [if_pos rfl, hu, Option.map_some, writeColumn, if_neg hredeems.password]
      exact ⟨rfl, hredeems.salted⟩
    · rw [if_neg fun he => huser he.symm]
      exact hg.oneShot.stored userId r hr

omit [DecidableEq κ] in
/-- A reset that commits ends its call; the other ones stand as before. -/
theorem guarded_commits (hg : Guarded S calls w) (i : ι) {loaded mutated : User} {base : World ι}
    (hflushed : (w.base.phase i).flushed = some (loaded, mutated)) {p : Phase}
    (hp : p.ended = true) (husers : base.users = writeUser w.base loaded mutated)
    (hlock : base.userLock = (w.base.leave i p).userLock)
    (hphase : base.phase = Function.update w.base.phase i p) :
    Guarded S calls { w with
      base := base
      resets := w.resets ++ [⟨i, loaded.id, mutated.hashedPassword⟩] } := by
  have hredeems := (hg.resetting i).redeems (Phase.change_of_flushed hflushed)
  have hkeys : base.users.keys = w.base.users.keys := by rw [husers, keys_writeUser]
  apply guarded_of_standing
  · intro j
    by_cases hj : j = i
    · rw [hj, hphase, Function.update_self]
      exact standing_of_ended hp
    · rw [hphase, Function.update_of_ne hj]
      have hold := hg.standing j
      refine ⟨hold.resetting, fun loaded' mutated' hp' => ?_, fun loaded' mutated' hp' => ⟨?_, ?_⟩⟩
      · rw [hkeys]
        exact hold.loaded loaded' mutated' hp'
      · rw [hlock]
        exact leave_lock p hj (hold.locked loaded' mutated' hp').1
      · intro r hr
        rcases List.mem_append.mp hr with hr | hr
        · exact (hold.locked loaded' mutated' hp').2 r hr
        · rw [List.mem_singleton.mp hr]
          exact hg.token_ne hj hflushed hp'
  · rw [husers]
    exact fun u' hu' h htoken => rows_redeemed hg hredeems hu' htoken
  · exact hg.issuing
  · exact oneShot_commits hg i hflushed husers

/-- A statement of a reset. -/
theorem guarded_call {a : Action ι} (hg : Guarded S calls w)
    (hfresh : Fresh S calls w (.call a) w') (hunredeemed : Unredeemed calls w (.call a) w')
    (hstep : resetStep S w (.call a) = some w') : Guarded S calls w' := by
  obtain ⟨base, hbase, rfl⟩ := Option.map_eq_some_iff.mp hstep
  have hmoves := reset_moves (hg.resetting a.call) hbase
  generalize redeemed w.base a = log at hmoves ⊢
  cases hmoves with
  | look i now salt user hphase hrow htoken =>
    rw [List.append_nil]
    refine guarded_quiet hg i rfl rfl (fun _ _ _ h => h) ⟨?_, ?_, nofun⟩
    · refine .inr (.inr ⟨_, _, rfl, htoken, rfl, ?_, salt, rfl⟩)
      simp only [Fresh, hphase] at hfresh
      exact hfresh user hrow
    · intro loaded mutated hp
      obtain ⟨rfl, rfl⟩ := Prod.mk.inj (Option.some.inj hp)
      exact ⟨hg.rows _ hrow _ htoken, List.mem_map.mpr ⟨_, hrow, rfl⟩⟩
  | leaves _ p hp =>
    rw [List.append_nil]
    exact guarded_quiet hg a.call rfl rfl (fun j hj u h => leave_lock p hj h) (standing_of_ended hp)
  | flush i now salt loaded mutated read hphase hfree =>
    rw [List.append_nil]
    have hold := hg.standing i
    rw [hphase] at hold
    refine guarded_quiet hg i rfl rfl (fun j _ u h => ?_) ⟨?_, ?_, ?_⟩
    · have hne : u ≠ loaded.id := by
        rintro rfl
        rw [hfree] at h
        cases h
      exact (Function.update_of_ne hne ..).trans h
    · exact .inr (.inr ⟨loaded, mutated, rfl, hold.resetting.redeems rfl⟩)
    · exact hold.loaded
    · intro loaded' mutated' hp
      obtain ⟨rfl, rfl⟩ := Prod.mk.inj (Option.some.inj hp)
      simp only [Unredeemed, hphase] at hunredeemed
      exact ⟨Function.update_self .., hunredeemed⟩
  | goes _ p base loaded mutated hflushed hp husers hlock hphase =>
    rw [List.append_nil]
    have hold := hg.standing a.call
    have hchange := Phase.change_of_flushed hflushed
    have hpchange := Phase.change_of_flushed hp
    refine guarded_quiet hg a.call husers hphase (fun _ _ _ h => ?_) ⟨?_, ?_, ?_⟩
    · rwa [hlock]
    · exact .inr (.inr ⟨loaded, mutated, hpchange, hold.resetting.redeems hchange⟩)
    · rw [hpchange, ← hchange]
      exact hold.loaded
    · rw [hp, ← hflushed, hlock]
      exact hold.locked
  | commits _ p base loaded mutated hflushed hp husers hlock hphase =>
    exact guarded_commits hg a.call hflushed hp husers hlock hphase

omit [DecidableEq ι] [DecidableEq κ] in
/-- A new token belongs to the user it is drawn for. -/
theorem issuedTo_draw {w : ResetWorld ι κ} {h h' : String} {userId userId' : Nat}
    (hnew : w.issuedTo h = none) (hold : w.issuedTo h' = some userId') :
    Function.update w.issuedTo h (some userId) h' = some userId' := by
  have hne : h' ≠ h := by
    rintro rfl
    rw [hnew] at hold
    cases hold
  rw [Function.update_of_ne hne, hold]

omit [DecidableEq ι] in
/-- A request for a token that ends, or has not begun. -/
theorem guarded_setIssue (hg : Guarded S calls w) (k : κ) : Guarded S calls (w.setIssue k .ended) :=
  { hg with
    issuing := fun k' loaded mutated hk => by
      replace hk : Function.update w.issuing k .ended k' = .save loaded mutated := hk
      by_cases hkk : k' = k
      · rw [hkk, Function.update_self] at hk
        cases hk
      · rw [Function.update_of_ne hkk] at hk
        exact hg.issuing k' loaded mutated hk
    oneShot := ⟨hg.oneShot.once, hg.oneShot.stored⟩ }

omit [DecidableEq ι] in
/-- A token that is drawn: no reset has presented it. -/
theorem guarded_draw (hg : Guarded S calls w) (k : κ) {now : Instant} {raw : String} {user : User}
    (hnew : w.issuedTo (S.hashToken raw) = none) :
    Guarded S calls { w.setIssue k (.save user
        { user with
          resetTokenHash := some (S.hashToken raw)
          resetTokenExpiresAt := some (now + resetTtl) }) with
      issuedTo := Function.update w.issuedTo (S.hashToken raw) (some user.id) } :=
  { hg with
    rows := fun u hu h htoken => issuedTo_draw hnew (hg.rows u hu h htoken)
    loaded := fun i loaded mutated hp =>
      ⟨issuedTo_draw hnew (hg.loaded i loaded mutated hp).1, (hg.loaded i loaded mutated hp).2⟩
    issuing := fun k' loaded mutated hk => by
      replace hk : Function.update w.issuing k _ k' = .save loaded mutated := hk
      by_cases hkk : k' = k
      · rw [hkk, Function.update_self] at hk
        cases hk
        exact ⟨rfl, _, rfl, Function.update_self ..⟩
      · rw [Function.update_of_ne hkk] at hk
        obtain ⟨hsame, h, htoken, hissued⟩ := hg.issuing k' loaded mutated hk
        exact ⟨hsame, h, htoken, issuedTo_draw hnew hissued⟩
    oneShot := ⟨hg.oneShot.once, hg.oneShot.stored⟩ }

omit [DecidableEq ι] in
/-- A token that is stored leaves the passwords alone. -/
theorem guarded_save (hg : Guarded S calls w) (k : κ) {loaded mutated : User}
    (hsave : w.issuing k = .save loaded mutated) :
    Guarded S calls { w.setIssue k .ended with
      base := { w.base with users := writeUser w.base loaded mutated } } := by
  obtain ⟨hsame, h, htoken, hissued⟩ := hg.issuing k loaded mutated hsave
  have hended := guarded_setIssue hg k
  refine { hended with
    rows := fun u' hu' h' htoken' => ?_
    loaded := fun i loaded' mutated' hp => ?_
    oneShot := ⟨hg.oneShot.once, fun userId r hr => ?_⟩ }
  · obtain ⟨u, hu, hid, hwritten⟩ := mem_writeUser hu'
    rw [hwritten] at htoken'
    rw [hid]
    split_ifs at htoken' with hloaded
    · rw [writeColumn] at htoken'
      split_ifs at htoken' with hunchanged
      · exact hg.rows u hu h' htoken'
      · rw [htoken] at htoken'
        rw [← Option.some.inj htoken', hloaded]
        exact hissued
    · exact hg.rows u hu h' htoken'
  · obtain ⟨hissued', hkey⟩ := hg.loaded i loaded' mutated' hp
    refine ⟨hissued', ?_⟩
    dsimp only
    rwa [keys_writeUser]
  · rw [password_writeUser_of_eq hsame]
    exact hg.oneShot.stored userId r hr

theorem guarded_issue {k : κ} {now : Instant} {raw : String} (hg : Guarded S calls w)
    (hfresh : Fresh S calls w (.issue k now raw) w')
    (hstep : resetStep S w (.issue k now raw) = some w') : Guarded S calls w' := by
  rw [resetStep] at hstep
  cases hissue : w.issuing k with
  | entered email =>
    rw [hissue] at hstep
    simp only [issueStep] at hstep
    split at hstep
    · rw [← Option.some.inj hstep]
      exact guarded_setIssue hg k
    · split_ifs at hstep <;> rw [← Option.some.inj hstep]
      · exact guarded_setIssue hg k
      · exact guarded_draw hg k hfresh
  | save loaded mutated =>
    rw [hissue] at hstep
    simp only [issueStep] at hstep
    split_ifs at hstep <;> rw [← Option.some.inj hstep]
    · exact guarded_setIssue hg k
    · exact guarded_save hg k hissue
  | ended =>
    rw [hissue] at hstep
    cases hstep

theorem guarded_step {a : ResetAction ι κ} (hg : Guarded S calls w)
    (hfresh : Fresh S calls w a w') (hunredeemed : Unredeemed calls w a w')
    (hstep : resetStep S w a = some w') : Guarded S calls w' := by
  cases a with
  | call a => exact guarded_call hg hfresh hunredeemed hstep
  | issue k now raw => exact guarded_issue hg hfresh hstep
  | drop k =>
    simp only [resetStep] at hstep
    split_ifs at hstep
    rw [← Option.some.inj hstep]
    exact guarded_setIssue hg k

end steps

/-- `reset_token_hash` is a unique column. -/
def UniqueTokens (users : Users) : Prop :=
  ∀ u ∈ users.rows, ∀ u' ∈ users.rows, ∀ h, u.resetTokenHash = some h →
    u'.resetTokenHash = some h → u = u'

omit [DecidableEq ι] [DecidableEq κ] in
theorem guarded_init (S : Setup) {users : Users} (hunique : UniqueTokens users)
    (tokens : RefreshTokens) (calls : ι → ResetCall) (emails : κ → String) :
    Guarded S calls (ResetWorld.init users tokens calls emails) where
  resetting := fun i => .inl rfl
  rows := fun u hu h htoken => by
    obtain ⟨u', hfound⟩ : ∃ u', users.rows.find? (fun u => u.resetTokenHash = some h) = some u' :=
      Option.isSome_iff_exists.mp (List.find?_isSome.mpr ⟨u, hu, decide_eq_true htoken⟩)
    have htoken' := List.find?_some hfound
    have hsame := hunique u hu u' (List.mem_of_find?_eq_some hfound) h htoken
      (of_decide_eq_true htoken')
    rw [hsame]
    exact congrArg (Option.map User.id) hfound
  loaded := nofun
  issuing := nofun
  locked := nofun
  ahead := nofun
  oneShot := ⟨List.nodup_nil, nofun⟩

/-- **A reset token is one-shot in every run in which no reset writes behind another one of its
token.** Where no call takes the row for its `UPDATE` after another call with the same token has
committed, at most one call with a token commits a reset, and a user has the password of the last
call that has. -/
theorem reset_oneShot (S : Setup) {users : Users} (hunique : UniqueTokens users)
    (tokens : RefreshTokens) (calls : ι → ResetCall) (emails : κ → String)
    {as : List (ResetAction ι κ)} {w : ResetWorld ι κ}
    (hfresh : Along (resetStep S) (Fresh S calls) (.init users tokens calls emails) as)
    (hunredeemed : Along (resetStep S) (Unredeemed calls) (.init users tokens calls emails) as)
    (hrun : run (resetStep S) (.init users tokens calls emails) as = some w) :
    OneShot S calls w := by
  have hguard : Along (resetStep S)
      (fun w a w' => Fresh S calls w a w' ∧ Unredeemed calls w a w')
      (.init users tokens calls emails) as := along_and hfresh hunredeemed
  exact (run_invariant (I := Guarded S calls)
    (fun w a w' hg hboth hstep => guarded_step hg hboth.1 hboth.2 hstep)
    (guarded_init S hunique tokens calls emails) hguard hrun).oneShot

/-- A service that keeps the texts readable. -/
def saltedSetup : Setup where
  normalizeEmail := id
  hashToken := id
  hashPassword := fun password salt => password ++ ":" ++ salt
  verifyPassword := fun password hashed => hashed.startsWith password
  refreshTtlDays := 30
  reuseGraceSeconds := 30

def onlyGrace (token : Option String) : Users :=
  ⟨[⟨1, "grace", "old", true, token, some 1000⟩], List.nodup_singleton _⟩

inductive Racer where
  | first | second
  deriving DecidableEq

def racers : Racer → ResetCall
  | .first => ⟨"token", "one"⟩
  | .second => ⟨"token", "two"⟩

def racing (i : Racer) (salt : String) : ResetAction Racer Unit := .call (.advance i 10 salt)

/-- A token is issued and redeemed; the second call finds it gone. -/
def serialRun : List (ResetAction Racer Unit) :=
  [.issue () 5 "token", .issue () 5 "", racing .first "s", racing .first "", racing .first "",
    racing .first "", racing .second "t"]

theorem reset_oneShot_serial :
    ∃ w, run (resetStep saltedSetup) (.init (onlyGrace none) (.empty _) racers fun _ => "grace")
        serialRun = some w ∧
      w.resets = [⟨.first, 1, "one:s"⟩] ∧ OneShot saltedSetup racers w := by
  obtain ⟨w, hrun, hresets⟩ := exists_run_of_check (resetStep saltedSetup)
    (.init (onlyGrace none) (.empty _) racers fun _ => "grace") serialRun
    (fun w => w.resets = [⟨.first, 1, "one:s"⟩]) (by decide +kernel)
  refine ⟨w, hrun, of_decide_eq_true hresets, ?_⟩
  refine reset_oneShot saltedSetup ?_ _ racers _ (by decide +kernel) (by decide +kernel) hrun
  intro u hu u' hu' h _ _
  rw [List.mem_singleton.mp hu, List.mem_singleton.mp hu']

/-- Both calls look the token up before either has written. -/
def racingRun : List (ResetAction Racer Unit) :=
  [racing .first "s", racing .second "t", racing .first "", racing .first "", racing .first "",
    racing .second "", racing .second "", racing .second ""]

/-- Both of them succeed, and the password is the second one's. -/
theorem reset_race :
    ∃ w, Along (resetStep saltedSetup) (Fresh saltedSetup racers)
        (.init (onlyGrace (some "token")) (.empty _) racers fun _ => "grace") racingRun ∧
      run (resetStep saltedSetup)
        (.init (onlyGrace (some "token")) (.empty _) racers fun _ => "grace") racingRun = some w ∧
      ¬OneShot saltedSetup racers w := by
  obtain ⟨w, hrun, htwice⟩ := exists_run_of_check (resetStep saltedSetup)
    (.init (onlyGrace (some "token")) (.empty _) racers fun _ => "grace") racingRun
    (fun w => w.resets = [⟨.first, 1, "one:s"⟩, ⟨.second, 1, "two:t"⟩]) (by decide +kernel)
  refine ⟨w, by decide +kernel, hrun, fun h => ?_⟩
  have honce := h.once
  rw [of_decide_eq_true htwice] at honce
  revert honce
  decide

end Apm.Auth
