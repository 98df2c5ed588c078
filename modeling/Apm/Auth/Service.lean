import Apm.Core.Time
import Apm.Lib.Run
import Apm.Lib.Table
import Apm.Lib.UnitOfWork

/-!
# Refresh tokens and credentials

The calls of the authentication service, statement by statement, over the
`users` and `refresh_tokens` tables under READ COMMITTED. A call reads committed
rows, keeps what it stages to itself until its commit, and holds the row locks
it has taken until its commit or rollback. `revoke_all_for_user` is one bulk
`UPDATE`: its snapshot fixes the rows it may touch, it waits for the lock of each
of them, and looks at the row again when it gets the lock.

Beside the tables the world keeps a history that no call reads: which tokens were
exchanged, which refreshes presented a revoked token late, and the number of
credential changes a user, a login and a token have seen.
-/

namespace Apm.Auth

open Apm.Core Apm.Lib

set_option autoImplicit false

structure User where
  id : Nat
  email : String
  hashedPassword : String
  isActive : Bool
  resetTokenHash : Option String
  resetTokenExpiresAt : Option Instant
  deriving DecidableEq, Repr

structure RefreshToken where
  tokenHash : String
  userId : Nat
  expiresAt : Instant
  revokedAt : Option Instant
  deriving DecidableEq, Repr

abbrev Users := Table User.id

abbrev RefreshTokens := Table RefreshToken.tokenHash

namespace RefreshTokens

/-- The tokens of a user that are not revoked. -/
def active (t : RefreshTokens) (userId : Nat) : List String :=
  t.select fun r => r.userId = userId && r.revokedAt.isNone

/-- Set `revoked_at` on the given rows. -/
def revoke (t : RefreshTokens) (revokedAt : Instant) (hashes : List String) : RefreshTokens :=
  t.update (fun r => r.tokenHash ∈ hashes) (fun r => { r with revokedAt := some revokedAt })
    fun _ => rfl

/-- What a row is after more statements: it stays, with its user, and once revoked
it stays revoked. -/
def Later (t t' : RefreshTokens) : Prop :=
  ∀ h row, t.get h = some row → ∃ row', t'.get h = some row' ∧ row'.userId = row.userId ∧
    (row'.revokedAt = none → row.revokedAt = none)

variable {t t' : RefreshTokens} {h : String}

theorem mem_active_iff {userId : Nat} :
    h ∈ t.active userId ↔ ∃ row, t.get h = some row ∧ row.userId = userId ∧ row.revokedAt = none := by
  simp only [active, Table.mem_select_iff, Bool.and_eq_true, decide_eq_true_eq,
    Option.isNone_iff_eq_none]

theorem get_revoke (revokedAt : Instant) (hashes : List String) :
    (t.revoke revokedAt hashes).get h = (t.get h).map fun row =>
      if h ∈ hashes then { row with revokedAt := some revokedAt } else row := by
  rw [revoke, Table.get_update]
  cases hrow : t.get h with
  | none => rfl
  | some row =>
    simp only [Option.map_some, decide_eq_true_eq, Table.key_of_get hrow]

/-- A row outside the bulk is left alone. -/
theorem get_revoke_of_notMem (revokedAt : Instant) {hashes : List String} (hh : h ∉ hashes) :
    (t.revoke revokedAt hashes).get h = t.get h := by
  rw [get_revoke]
  simp only [hh, if_false, Option.map_id']

theorem revokedAt_of_get_revoke {revokedAt : Instant} {hashes : List String} {row : RefreshToken}
    (hrow : (t.revoke revokedAt hashes).get h = some row) (hh : h ∈ hashes) :
    row.revokedAt ≠ none := by
  rw [get_revoke] at hrow
  obtain ⟨old, -, rfl⟩ := Option.map_eq_some_iff.mp hrow
  simp only [hh, if_true, ne_eq, reduceCtorEq, not_false_eq_true]

theorem Later.refl (t : RefreshTokens) : t.Later t := fun _ row hrow => ⟨row, hrow, rfl, id⟩

theorem Later.trans {t'' : RefreshTokens} (h₁ : t.Later t') (h₂ : t'.Later t'') : t.Later t'' := by
  intro h row hrow
  obtain ⟨row', hrow', huser, hrevoked⟩ := h₁ h row hrow
  obtain ⟨row'', hrow'', huser', hrevoked'⟩ := h₂ h row' hrow'
  exact ⟨row'', hrow'', huser'.trans huser, fun hnone => hrevoked (hrevoked' hnone)⟩

theorem later_revoke (t : RefreshTokens) (revokedAt : Instant) (hashes : List String) :
    t.Later (t.revoke revokedAt hashes) := by
  intro h row hrow
  rw [get_revoke, hrow]
  refine ⟨_, rfl, ?_, ?_⟩
  · split <;> rfl
  · split
    · exact fun hnone => by cases hnone
    · exact id

theorem later_insert {row : RefreshToken} (hinsert : t.insert row = some t') : t.Later t' := by
  intro h old hold
  refine ⟨old, ?_, rfl, id⟩
  rw [Table.get_insert hinsert, if_neg, hold]
  rintro rfl
  rw [Table.insert_fresh hinsert] at hold
  cases hold

end RefreshTokens

/-- The functions and settings the service is built with. Hashes are salted by
their second argument. -/
structure Setup where
  normalizeEmail : String → String
  hashToken : String → String
  hashPassword : String → String → String
  verifyPassword : String → String → Bool
  refreshTtlDays : Int
  reuseGraceSeconds : Int

inductive Request where
  | login (email password : String)
  | refresh (rawRefreshToken : String)
  | logout (rawRefreshToken : String)
  | changePassword (userId : Nat) (oldPassword newPassword : String)
  | resetPassword (rawToken newPassword : String)
  | setActive (userId : Nat) (active : Bool)
  deriving DecidableEq, Repr

/-- What a bulk revocation belongs to: a refresh that presented a revoked token,
or a change of the user row it is committed with. -/
inductive Revocation where
  | reuse (record : RefreshToken) (present : List String)
  | credentials (loaded mutated : User)
  deriving DecidableEq, Repr

def Revocation.userId : Revocation → Nat
  | .reuse record _ => record.userId
  | .credentials loaded _ => loaded.id

/-- Where a call stands. `present` and `epoch` are history: the tokens committed
when the row lock was obtained, the credential changes committed when the user
was loaded. -/
inductive Phase where
  | entered (request : Request)
  /-- a login before the `INSERT` of its token -/
  | issue (userId epoch : Nat)
  /-- a refresh that holds the row lock and has not read the clock -/
  | locked (record : RefreshToken) (present : List String)
  | lookup (record : RefreshToken) (now : Instant)
  /-- a refresh before it stages the revocation and the replacement -/
  | rotate (record : RefreshToken) (now : Instant)
  /-- a logout before its `UPDATE` -/
  | revokeOne (tokenHash : String)
  /-- a changed user object before the flush, with the clock if it was read already -/
  | flush (loaded mutated : User) (now : Option Instant)
  /-- a changed user object before a flush and commit without a revocation -/
  | save (loaded mutated : User)
  | revokeAll (r : Revocation) (now : Option Instant)
  /-- the bulk `UPDATE`: the rows of its snapshot it has not reached, and those it has updated -/
  | updating (r : Revocation) (revokedAt : Instant) (todo staged : List String)
  | issued (rawRefreshToken : String)
  | rejected
  | done
  /-- an exception of the database or a cancellation: a commit may have been applied before -/
  | aborted
  deriving DecidableEq, Repr

def Phase.ended : Phase → Bool
  | .issued _ | .rejected | .done | .aborted => true
  | _ => false

/-- The next statement is the commit. -/
def Phase.commits : Phase → Bool
  | .issue .. | .rotate .. | .revokeOne _ | .save .. | .updating _ _ [] _ => true
  | _ => false

theorem Phase.not_ended_of_commits {p : Phase} (h : p.commits = true) : p.ended = false := by
  cases p with
  | issued | rejected | done | aborted => cases h
  | _ => rfl

structure World (ι : Type) where
  users : Users
  tokens : RefreshTokens
  /-- holders of the row locks -/
  userLock : Nat → Option ι
  tokenLock : String → Option ι
  phase : ι → Phase
  /-- history: presented and issued token of every exchange -/
  exchanges : List (String × String)
  /-- history: the refreshes that presented a revoked token after the grace, with the
  token and those committed when the row lock was obtained -/
  late : ι → Option (RefreshToken × List String)
  /-- history: the committed credential changes of a user -/
  epoch : Nat → Nat
  /-- history: the epoch of the credentials a token goes back to -/
  issuedIn : String → Nat

inductive Action (ι : Type) where
  /-- the next statement of a call, with the clock and the random text it may use -/
  | advance (i : ι) (now : Instant) (random : String)
  /-- the same, where it is a commit that is applied and raises: its answer is lost -/
  | lose (i : ι) (now : Instant) (random : String)
  /-- the bulk `UPDATE` of a call reaches a row of its snapshot -/
  | visit (i : ι) (tokenHash : String)
  /-- a call is rolled back -/
  | abort (i : ι)
  deriving DecidableEq

def Action.call {ι : Type} : Action ι → ι
  | .advance i _ _ => i
  | .lose i _ _ => i
  | .visit i _ => i
  | .abort i => i

/-- The answer of a commit is lost. -/
def Action.lost {ι : Type} : Action ι → Bool
  | .lose .. => true
  | .advance .. | .visit .. | .abort _ => false

variable {ι : Type} [DecidableEq ι]

namespace World

def setPhase (w : World ι) (i : ι) (p : Phase) : World ι :=
  { w with phase := Function.update w.phase i p }

/-- The call is over and its locks are released. -/
def leave (w : World ι) (i : ι) (p : Phase) : World ι :=
  { w.setPhase i p with
    userLock := fun u => if w.userLock u = some i then none else w.userLock u
    tokenLock := fun h => if w.tokenLock h = some i then none else w.tokenLock h }

end World

/-- `_is_inactive` of a loaded user. -/
def inactive (user : User) : Bool := !user.isActive

/-- A row of `_issue_tokens`. -/
def newToken (S : Setup) (userId : Nat) (now : Instant) (raw : String) : RefreshToken :=
  ⟨S.hashToken raw, userId, now + S.refreshTtlDays * microsPerDay, none⟩

/-- `(now - revoked_at).total_seconds() > self._reuse_grace_seconds`. -/
def beyondGrace (S : Setup) (now revokedAt : Instant) : Bool :=
  S.reuseGraceSeconds * microsPerSecond < now - revokedAt

/-- The changed columns of the user row. -/
def writeUser (w : World ι) (loaded mutated : User) : Users :=
  w.users.update (fun u => u.id = loaded.id)
    (fun u => { u with
      hashedPassword := writeColumn loaded.hashedPassword mutated.hashedPassword u.hashedPassword
      isActive := writeColumn loaded.isActive mutated.isActive u.isActive
      resetTokenHash := writeColumn loaded.resetTokenHash mutated.resetTokenHash u.resetTokenHash
      resetTokenExpiresAt :=
        writeColumn loaded.resetTokenExpiresAt mutated.resetTokenExpiresAt u.resetTokenExpiresAt })
    fun _ => rfl

/-- The first statement of a request. -/
def enter (S : Setup) (w : World ι) (i : ι) (now : Instant) (random : String) :
    Request → Option (World ι)
  | .login email password =>
    match w.users.rows.find? (fun u => u.email = S.normalizeEmail email) with
    | none => some (w.leave i .rejected)
    | some user =>
      if !S.verifyPassword password user.hashedPassword || inactive user then
        some (w.leave i .rejected)
      else some (w.setPhase i (.issue user.id (w.epoch user.id)))
  | .refresh raw =>
    match w.tokens.get (S.hashToken raw) with
    | none => some (w.leave i .rejected)
    | some record =>
      -- `SELECT ... FOR UPDATE` waits for the holder of the row
      if w.tokenLock (S.hashToken raw) = none then
        some { w.setPhase i (.locked record w.tokens.keys) with
          tokenLock := Function.update w.tokenLock (S.hashToken raw) (some i) }
      else none
  | .logout raw =>
    match w.tokens.get (S.hashToken raw) with
    | none => some (w.leave i .done)
    | some record =>
      if record.revokedAt = none then some (w.setPhase i (.revokeOne record.tokenHash))
      else some (w.leave i .done)
  | .changePassword userId oldPassword newPassword =>
    match w.users.get userId with
    | none => some (w.leave i .rejected)
    | some user =>
      if inactive user || !S.verifyPassword oldPassword user.hashedPassword then
        some (w.leave i .rejected)
      else
        some (w.setPhase i (.flush user
          { user with
            hashedPassword := S.hashPassword newPassword random
            resetTokenHash := none
            resetTokenExpiresAt := none } none))
  | .resetPassword rawToken newPassword =>
    match w.users.rows.find? (fun u => u.resetTokenHash = some (S.hashToken rawToken)) with
    | none => some (w.leave i .rejected)
    | some user =>
      if user.resetTokenExpiresAt.all (· < now) || inactive user then some (w.leave i .rejected)
      else
        some (w.setPhase i (.flush user
          { user with
            hashedPassword := S.hashPassword newPassword random
            resetTokenHash := none
            resetTokenExpiresAt := none } (some now)))
  | .setActive userId active =>
    match w.users.get userId with
    | none => some (w.leave i .rejected)
    | some user =>
      if active then some (w.setPhase i (.save user { user with isActive := true }))
      else some (w.setPhase i (.flush user { user with isActive := false } none))

/-- The next statement of a call. -/
def advance (S : Setup) (w : World ι) (i : ι) (now : Instant) (random : String) :
    Phase → Option (World ι)
  | .entered request => enter S w i now random request
  | .issue userId epoch =>
    match w.tokens.insert (newToken S userId now random) with
    | none => some (w.leave i .aborted)
    | some tokens =>
      some { w.leave i (.issued random) with
        tokens := tokens
        issuedIn := Function.update w.issuedIn (S.hashToken random) epoch }
  | .locked record present =>
    match record.revokedAt with
    | some revokedAt =>
      if beyondGrace S now revokedAt then
        some { w.setPhase i (.revokeAll (.reuse record present) (some now)) with
          late := Function.update w.late i (some (record, present)) }
      else some (w.leave i .rejected)
    | none =>
      if record.expiresAt ≤ now then some (w.leave i .rejected)
      else some (w.setPhase i (.lookup record now))
  | .lookup record read =>
    match w.users.get record.userId with
    | none => some (w.leave i .rejected)
    | some user =>
      if inactive user then some (w.leave i .rejected)
      else some (w.setPhase i (.rotate record read))
  | .rotate record read =>
    match (w.tokens.revoke read [record.tokenHash]).insert
        (newToken S record.userId now random) with
    | none => some (w.leave i .aborted)
    | some tokens =>
      some { w.leave i (.issued random) with
        tokens := tokens
        exchanges := w.exchanges ++ [(record.tokenHash, S.hashToken random)]
        issuedIn :=
          Function.update w.issuedIn (S.hashToken random) (w.issuedIn record.tokenHash) }
  | .revokeOne tokenHash =>
    if w.tokenLock tokenHash = none then
      some { w.leave i .done with tokens := w.tokens.revoke now [tokenHash] }
    else none
  | .flush loaded mutated read =>
    -- an unchanged object is not written and takes no lock
    if mutated = loaded then some (w.setPhase i (.revokeAll (.credentials loaded mutated) read))
    else if w.userLock loaded.id = none then
      some { w.setPhase i (.revokeAll (.credentials loaded mutated) read) with
        userLock := Function.update w.userLock loaded.id (some i) }
    else none
  | .save loaded mutated =>
    if mutated = loaded ∨ w.userLock loaded.id = none then
      some { w.leave i .done with users := writeUser w loaded mutated }
    else none
  | .revokeAll r read =>
    some (w.setPhase i (.updating r (read.getD now) (w.tokens.active r.userId) []))
  | .updating (.reuse _ _) revokedAt [] staged =>
    some { w.leave i .rejected with tokens := w.tokens.revoke revokedAt staged }
  | .updating (.credentials loaded mutated) revokedAt [] staged =>
    some { w.leave i .done with
      users := writeUser w loaded mutated
      tokens := w.tokens.revoke revokedAt staged
      epoch := Function.update w.epoch loaded.id (w.epoch loaded.id + 1) }
  | .updating _ _ (_ :: _) _ => none
  | .issued _ | .rejected | .done | .aborted => none

/-- The bulk `UPDATE` waits for the lock of the row and evaluates its `WHERE` again. -/
def visit (w : World ι) (i : ι) (h : String) : Phase → Option (World ι)
  | .updating r revokedAt todo staged =>
    if h ∈ todo ∧ (w.tokenLock h = none ∨ w.tokenLock h = some i) then
      if h ∈ w.tokens.active r.userId then
        some { w.setPhase i (.updating r revokedAt (todo.filter (· ≠ h)) (h :: staged)) with
          tokenLock := Function.update w.tokenLock h (some i) }
      else some (w.setPhase i (.updating r revokedAt (todo.filter (· ≠ h)) staged))
    else none
  | _ => none

/-- The commit stands, and the call has failed. -/
def lose (S : Setup) (w : World ι) (i : ι) (now : Instant) (random : String) : Option (World ι) :=
  if (w.phase i).commits then
    (advance S w i now random (w.phase i)).map fun w' =>
      { w' with phase := Function.update w.phase i .aborted }
  else none

def step (S : Setup) (w : World ι) : Action ι → Option (World ι)
  | .advance i now random => advance S w i now random (w.phase i)
  | .lose i now random => lose S w i now random
  | .visit i h => visit w i h (w.phase i)
  | .abort i => if (w.phase i).ended then none else some (w.leave i .aborted)

/-- The calls before they begin, over the rows and the exchanges before them. -/
def World.init (users : Users) (tokens : RefreshTokens) (exchanges : List (String × String))
    (request : ι → Request) : World ι where
  users := users
  tokens := tokens
  userLock := fun _ => none
  tokenLock := fun _ => none
  phase := fun i => .entered (request i)
  exchanges := exchanges
  late := fun _ => none
  epoch := fun _ => 0
  issuedIn := fun _ => 0

end Apm.Auth
