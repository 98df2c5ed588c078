import Apm.Lib.Future
import Apm.Mobile.TokenRefresher
import Mathlib.Tactic.Common

/-!
# Logout in the app

`AuthViewModel.logout` runs over the auth repository, the store of the voice takes and the
queue of offline turns. Every future can complete with an exception; what an awaited call
throws leaves the rest of its caller undone unless the caller catches it. The outcomes of
the network call and of the storage operations of both purges are arbitrary.
-/

namespace Apm.Mobile

open Apm.Lib

set_option autoImplicit false

/-- What a future can complete with instead of a value. -/
inductive Thrown where
  | apiException (statusCode : Int) (code message : String)
  | error (message : String)
  deriving DecidableEq, Repr

/-- The state of `authViewModelProvider`, a user by its id. -/
inductive AuthState where
  | loading
  | data (user : Option Int)
  deriving DecidableEq, Repr

inductive UserProvider where
  | profileViewModel
  | streak
  | progress
  | review
  | voiceConsent
  | vocabularyViewModel
  | proof
  | debrief
  | missionViewModel
  | voiceTakes
  | conversationViewModel
  | placementViewModel
  deriving DecidableEq, Repr

def userScopedProviders : List UserProvider :=
  [.profileViewModel, .streak, .progress, .review, .voiceConsent, .vocabularyViewModel, .proof,
    .debrief, .missionViewModel, .voiceTakes, .conversationViewModel, .placementViewModel]

/-- What `logout` reads and writes. The attempts of both purges are recorded with the user
they ran under. -/
structure App where
  state : AuthState
  /-- `_generation` of the offline replay -/
  replayGeneration : Nat
  storage : Key → Option String
  /-- `_generation` of the token refresher -/
  refreshGeneration : Nat
  invalidated : List UserProvider
  /-- `_currentUserId` of the voice-take store -/
  takeUser : Option Int
  pendingPurges : List Int
  /-- `_currentUserId` of the offline turn queue -/
  queueUser : Option Int
  reports : List (Thrown × String)
  erasures : List (Option Int)
  purges : List (Option Int)

/-- How the calls end that leave the app. -/
structure Outcomes where
  /-- `POST /auth/logout` -/
  post : Except Thrown Unit
  /-- `eraseAll` of the store below -/
  eraseTakes : Except Thrown Unit
  clearPending : Except Thrown Unit
  addPending : Except Thrown Unit
  /-- the deletion of the queue's key -/
  deleteQueue : Except Thrown Unit

/-- `invalidateAndClear` of the token refresher. -/
def invalidateAndClear : Future Thrown App Unit :=
  modify fun app =>
    { app with refreshGeneration := app.refreshGeneration + 1, storage := fun _ => none }

namespace AuthRepository

/-- `AuthRepository.logout`. -/
def logout (o : Outcomes) : Future Thrown App Unit := do
  let refreshToken := (← get).storage .refresh
  try
    if refreshToken.isSome then
      liftExcept o.post
  finally
    invalidateAndClear

end AuthRepository

namespace UserScopedVoiceTakeStore

/-- `eraseAll`: a failure leaves the current user's takes blocked. -/
def eraseAll (o : Outcomes) : Future Thrown App Unit := do
  let userId := (← get).takeUser
  modify fun app => { app with erasures := app.erasures ++ [userId] }
  try
    liftExcept o.eraseTakes
    liftExcept o.clearPending
    modify fun app => { app with pendingPurges := [] }
  catch e =>
    if let some user := userId then
      liftExcept o.addPending
      modify fun app => { app with pendingPurges := user :: app.pendingPurges }
    throw e

end UserScopedVoiceTakeStore

namespace SecureOfflineTurnQueue

/-- `purgeCurrentUser`. -/
def purgeCurrentUser (o : Outcomes) : Future Thrown App Unit := do
  let userId := (← get).queueUser
  modify fun app => { app with purges := app.purges ++ [userId] }
  if userId.isSome then
    liftExcept o.deleteQueue

end SecureOfflineTurnQueue

namespace AuthViewModel

/-- `_bestEffortPurge`. -/
def bestEffortPurge (purge : Future Thrown App Unit) (context : String) : Future Thrown App Unit := do
  try
    purge
  catch e =>
    modify fun app => { app with reports := app.reports ++ [(e, context)] }

/-- `_syncVoiceTakeUser`. -/
def syncVoiceTakeUser (user : Option Int) : Future Thrown App Unit :=
  modify fun app => { app with takeUser := user }

/-- `_syncOfflineQueueUser`. -/
def syncOfflineQueueUser (user : Option Int) : Future Thrown App Unit :=
  modify fun app => { app with queueUser := user }

def logout (o : Outcomes) : Future Thrown App Unit := do
  modify fun app => { app with state := .loading }
  modify fun app => { app with replayGeneration := app.replayGeneration + 1 }
  AuthRepository.logout o
  for provider in userScopedProviders do
    modify fun app => { app with invalidated := app.invalidated ++ [provider] }
  bestEffortPurge (UserScopedVoiceTakeStore.eraseAll o)
    "AuthViewModel.logout: voice take purge failed"
  bestEffortPurge (SecureOfflineTurnQueue.purgeCurrentUser o)
    "AuthViewModel.logout: offline turn queue purge failed"
  syncVoiceTakeUser none
  syncOfflineQueueUser none
  modify fun app => { app with state := .data none }

end AuthViewModel

/-- The clean-up of a logout: what `app'` has to be after a logout in `app`, with `user`
the one who departs. -/
structure CleanedUp (user : Int) (app app' : App) : Prop where
  tokens : ∀ key, app'.storage key = none
  takes : app'.erasures = app.erasures ++ [some user]
  queue : app'.purges = app.purges ++ [some user]
  providers : ∀ provider ∈ userScopedProviders, provider ∈ app'.invalidated
  takeUser : app'.takeUser = none
  queueUser : app'.queueUser = none
  signedOut : app'.state = .data none

/-! ## What each call does -/

section calls

variable (o : Outcomes) (app : App)

/-- The tokens are cleared whatever the server answers, and its failure is thrown again. -/
theorem authRepository_logout_exec : (AuthRepository.logout o).exec app =
    (if (app.storage .refresh).isSome then o.post else .ok (),
      { app with refreshGeneration := app.refreshGeneration + 1, storage := fun _ => none }) := by
  cases hrefresh : app.storage .refresh <;>
    simp [AuthRepository.logout, invalidateAndClear, hrefresh]

/-- A best-effort purge completes, and reports what its purge has thrown. -/
theorem bestEffortPurge_exec (purge : Future Thrown App Unit) (context : String) :
    ∃ reports, (AuthViewModel.bestEffortPurge purge context).exec app =
      (.ok (), { (purge.exec app).2 with reports := reports }) := by
  rw [AuthViewModel.bestEffortPurge, Future.exec_tryCatch]
  obtain ⟨r, app'⟩ := purge.exec app
  cases r with
  | ok u => exact ⟨app'.reports, rfl⟩
  | error e => exact ⟨app'.reports ++ [(e, context)], rfl⟩

/-- The erasure is attempted under the current user, and only the marks of failed purges
depend on its end. -/
theorem eraseAll_exec : ∃ pending, ((UserScopedVoiceTakeStore.eraseAll o).exec app).2 =
    { app with erasures := app.erasures ++ [app.takeUser], pendingPurges := pending } := by
  obtain ⟨_, eraseTakes, clearPending, addPending, _⟩ := o
  simp only [UserScopedVoiceTakeStore.eraseAll, Future.exec_bind, Future.exec_get,
    Future.exec_modify, Future.after_ok, Future.exec_tryCatch, Future.exec_liftExcept]
  have hblock : ∀ e : Thrown, ∃ pending, ((do
      if let some user := app.takeUser then
        liftExcept addPending
        modify fun app => { app with pendingPurges := user :: app.pendingPurges }
      throw e : Future Thrown App Unit).exec
        { app with erasures := app.erasures ++ [app.takeUser] }).2 =
      { app with erasures := app.erasures ++ [app.takeUser], pendingPurges := pending } := by
    intro e
    cases htaker : app.takeUser with
    | none => exact ⟨app.pendingPurges, by simp⟩
    | some user =>
      cases addPending with
      | ok u => exact ⟨user :: app.pendingPurges, by simp⟩
      | error e' => exact ⟨app.pendingPurges, by simp⟩
  cases eraseTakes with
  | error e => exact hblock e
  | ok u =>
    cases clearPending with
    | error e => exact hblock e
    | ok u' => exact ⟨[], by simp⟩

theorem purgeCurrentUser_exec : ((SecureOfflineTurnQueue.purgeCurrentUser o).exec app).2 =
    { app with purges := app.purges ++ [app.queueUser] } := by
  obtain ⟨_, _, _, _, deleteQueue⟩ := o
  cases huser : app.queueUser <;> cases deleteQueue <;>
    simp [SecureOfflineTurnQueue.purgeCurrentUser, huser]

/-- Neither purge of a logout can throw. -/
theorem purgeTakes_exec (context : String) : ∃ pending reports,
    (AuthViewModel.bestEffortPurge (UserScopedVoiceTakeStore.eraseAll o) context).exec app =
      (.ok (), { app with
        erasures := app.erasures ++ [app.takeUser]
        pendingPurges := pending
        reports := reports }) := by
  obtain ⟨pending, herase⟩ := eraseAll_exec o app
  obtain ⟨reports, hpurge⟩ :=
    bestEffortPurge_exec app (UserScopedVoiceTakeStore.eraseAll o) context
  exact ⟨pending, reports, by rw [hpurge, herase]⟩

theorem purgeQueue_exec (context : String) : ∃ reports,
    (AuthViewModel.bestEffortPurge (SecureOfflineTurnQueue.purgeCurrentUser o) context).exec app =
      (.ok (), { app with purges := app.purges ++ [app.queueUser], reports := reports }) := by
  obtain ⟨reports, hpurge⟩ :=
    bestEffortPurge_exec app (SecureOfflineTurnQueue.purgeCurrentUser o) context
  exact ⟨reports, by rw [hpurge, purgeCurrentUser_exec]⟩

theorem foldl_invalidate (providers : List UserProvider) :
    providers.foldl (fun t provider => { t with invalidated := t.invalidated ++ [provider] }) app =
      { app with invalidated := app.invalidated ++ providers } := by
  induction providers generalizing app with
  | nil => simp
  | cons provider rest ih => rw [List.foldl_cons, ih, List.append_assoc, List.singleton_append]

/-- What is left to do when the repository has thrown: the whole clean-up but the tokens. -/
theorem logout_exec_error {e : Thrown} (htoken : (app.storage .refresh).isSome)
    (hpost : o.post = .error e) : (AuthViewModel.logout o).exec app =
      (.error e, { app with
        state := .loading
        replayGeneration := app.replayGeneration + 1
        refreshGeneration := app.refreshGeneration + 1
        storage := fun _ => none }) := by
  simp only [AuthViewModel.logout, Future.exec_bind, Future.exec_modify, Future.after_ok,
    authRepository_logout_exec, htoken, if_true, hpost, Future.after_error]

/-- Whatever the purges throw, a logout that gets past the repository completes. -/
theorem logout_exec_ok (hpost : app.storage .refresh = none ∨ o.post = .ok ()) :
    ∃ pending reports, (AuthViewModel.logout o).exec app =
      (.ok (), { app with
        state := .data none
        replayGeneration := app.replayGeneration + 1
        refreshGeneration := app.refreshGeneration + 1
        storage := fun _ => none
        invalidated := app.invalidated ++ userScopedProviders
        takeUser := none
        pendingPurges := pending
        queueUser := none
        reports := reports
        erasures := app.erasures ++ [app.takeUser]
        purges := app.purges ++ [app.queueUser] }) := by
  have hrepository : (AuthRepository.logout o).exec
      { app with state := .loading, replayGeneration := app.replayGeneration + 1 } =
      (.ok (), { app with
        state := .loading
        replayGeneration := app.replayGeneration + 1
        refreshGeneration := app.refreshGeneration + 1
        storage := fun _ => none }) := by
    rw [authRepository_logout_exec]
    rcases hpost with hnone | hok
    · simp [hnone]
    · simp [hok]
  simp only [AuthViewModel.logout, Future.exec_bind, Future.exec_modify, Future.after_ok,
    hrepository, Future.exec_forIn_modify, foldl_invalidate]
  generalize happ : ({ app with
    state := .loading
    replayGeneration := app.replayGeneration + 1
    refreshGeneration := app.refreshGeneration + 1
    storage := fun _ => none
    invalidated := app.invalidated ++ userScopedProviders } : App) = app₁
  obtain ⟨pending, reports, htakes⟩ := purgeTakes_exec o app₁
    "AuthViewModel.logout: voice take purge failed"
  rw [htakes, Future.after_ok]
  obtain ⟨reports', hqueue⟩ := purgeQueue_exec o
    { app₁ with
      erasures := app₁.erasures ++ [app₁.takeUser]
      pendingPurges := pending
      reports := reports }
    "AuthViewModel.logout: offline turn queue purge failed"
  rw [Future.exec_bind, hqueue, Future.after_ok]
  subst happ
  exact ⟨pending, reports', rfl⟩

end calls

/-- **When a logout cleans up.** For every end of the network call and of each storage
operation of both purges: a logout of `user` completes its clean-up if and only if no
refresh token is stored or `POST /auth/logout` succeeds. -/
theorem logout_cleans_up_iff (o : Outcomes) (app : App) {user : Int}
    (htakes : app.takeUser = some user) (hqueue : app.queueUser = some user) :
    CleanedUp user app ((AuthViewModel.logout o).exec app).2 ↔
      app.storage .refresh = none ∨ o.post = .ok () := by
  constructor
  · intro hclean
    by_contra hfails
    rw [not_or] at hfails
    obtain ⟨htoken, hpost⟩ := hfails
    cases hthrown : o.post with
    | ok u => exact hpost hthrown
    | error e =>
      have hleft := logout_exec_error o app (Option.isSome_iff_ne_none.mpr htoken) hthrown
      rw [hleft] at hclean
      cases hclean.signedOut
  · intro hpost
    obtain ⟨pending, reports, hend⟩ := logout_exec_ok o app hpost
    rw [hend]
    exact
      { tokens := fun _ => rfl
        takes := by rw [htakes]
        queue := by rw [hqueue]
        providers := fun _ hp => List.mem_append_right _ hp
        takeUser := rfl
        queueUser := rfl
        signedOut := rfl }

/-- A signed-in learner. -/
def signedIn : App where
  state := .data (some 1)
  replayGeneration := 0
  storage := fun _ => some "token"
  refreshGeneration := 0
  invalidated := []
  takeUser := some 1
  pendingPurges := []
  queueUser := some 1
  reports := []
  erasures := []
  purges := []

/-- The server answers, and both purges fail. -/
def purgesFail : Outcomes where
  post := .ok ()
  eraseTakes := .error (.error "disk error")
  clearPending := .ok ()
  addPending := .ok ()
  deleteQueue := .error (.error "keychain error")

theorem logout_cleans_up_iff_purges_fail :
    CleanedUp 1 signedIn ((AuthViewModel.logout purgesFail).exec signedIn).2 :=
  (logout_cleans_up_iff purgesFail signedIn rfl rfl).mpr (.inr rfl)

/-- The device is offline: the tokens are gone, and everything else of the departing
learner stays, on a screen that loads for ever. -/
theorem offline_logout_stops :
    ((AuthViewModel.logout { purgesFail with post := .error (.apiException 0 "network" "offline") }).exec
        signedIn) =
      (.error (.apiException 0 "network" "offline"), { signedIn with
        state := .loading
        replayGeneration := 1
        refreshGeneration := 1
        storage := fun _ => none }) ∧
    ¬CleanedUp 1 signedIn ((AuthViewModel.logout
      { purgesFail with post := .error (.apiException 0 "network" "offline") }).exec signedIn).2 := by
  have hleft := logout_exec_error
    { purgesFail with post := .error (.apiException 0 "network" "offline") } signedIn rfl rfl
  refine ⟨hleft, fun hclean => ?_⟩
  rw [hleft] at hclean
  cases hclean.signedOut

end Apm.Mobile
