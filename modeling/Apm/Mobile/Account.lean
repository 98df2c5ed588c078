import Apm.Mobile.Steps
import Mathlib.Data.Fintype.Basic

/-!
# The account of a retried request

A request that is refused with a 401 is retried with the token of the shared refresh,
whoever that token belongs to: the refresh reads what storage holds when it comes to
read, and a request may join a refresh that has read already. This file proves that a
request keeps its user as long as no refresh it waits for works with another user's
tokens.
-/

namespace Apm.Mobile

open Apm.Lib

set_option autoImplicit false

variable {ι : Type}

/-- The tokens, where there are any, are of one user. -/
def SameUser (first token : Option (Grant ι)) : Prop :=
  ∀ a ∈ first, ∀ b ∈ token, b.user = a.user

instance (first token : Option (Grant ι)) : Decidable (SameUser first token) :=
  inferInstanceAs (Decidable (∀ a ∈ first, ∀ b ∈ token, b.user = a.user))

/-- The call is about to read the refresh token. -/
def RefreshPhase.reads : RefreshPhase ι → Bool
  | .reading _ => true
  | _ => false

/-- The token of the first attempt, while its answer is awaited. -/
def RequestPhase.sentWith : RequestPhase ι → Option (Grant ι)
  | .sent first => first
  | _ => none

variable [DecidableEq ι]

/-- The token of the first attempt, while the request waits for the refresh. -/
def RequestPhase.waitsWith (f : ι) : RequestPhase ι → Option (Grant ι)
  | .refreshing first f' => if f' = f then first else none
  | _ => none

/-- No refresh reads a token of another user than a request that waits for it, and no
request joins a refresh that has read one. -/
def OwnRefresh (w : Device ι) (a : Action ι) (_ : Device ι) : Prop :=
  match a with
  | .perform f => (w.refreshes f).reads = true →
      ∀ r, SameUser ((w.requests r).waitsWith f) (w.storage .refresh)
  | .requestAnswered r true _ =>
      ∀ f ∈ w.inFlight, SameUser (w.requests r).sentWith (w.refreshes f).tokens
  | _ => True

instance [Fintype ι] (w : Device ι) (a : Action ι) (w' : Device ι) :
    Decidable (OwnRefresh w a w') :=
  match a with
  | .perform f => inferInstanceAs (Decidable ((w.refreshes f).reads = true →
      ∀ r, SameUser ((w.requests r).waitsWith f) (w.storage .refresh)))
  | .requestAnswered r true _ => inferInstanceAs (Decidable
      (∀ f ∈ w.inFlight, SameUser (w.requests r).sentWith (w.refreshes f).tokens))
  | .requestAnswered _ false _ | .refresh _ | .answer .. | .invalidateAndClear _ | .invalidate _
  | .invalidated _ | .login .. | .save _ | .loggedIn _ | .request _ | .retry _ => isTrue trivial

variable {w w' : Device ι} {f r : ι} {first : Option (Grant ι)} {second : Grant ι}

/-- Requests wait for tokens of their own user, and are retried with such tokens. -/
structure KeepsUser (w : Device ι) : Prop where
  waits : ∀ r first f, w.requests r = .refreshing first f →
    SameUser first (w.refreshes f).tokens
  retried : ∀ r first second, w.requests r = .retried first second →
    SameUser first (some second)

omit [DecidableEq ι] in
theorem keepsUser_start (restored : Key → Option Int) : KeepsUser (start restored : Device ι) :=
  ⟨nofun, nofun⟩

/-- What becomes of a request. -/
inductive RequestMoves (w w' : Device ι) (r : ι) : Action ι → Prop where
  | stays {a : Action ι} (h : w'.requests r = w.requests r) : RequestMoves w w' r a
  | sent {a : Action ι} {first : Option (Grant ι)} (h : w'.requests r = .sent first) :
      RequestMoves w w' r a
  | ended {a : Action ι} (h : w'.requests r = .ended) : RequestMoves w w' r a
  | waits {f' f : ι} {first : Option (Grant ι)} (h : w.requests r = .sent first)
      (h' : w'.requests r = .refreshing first f)
      (hflight : w.inFlight = some f ∨ (w'.refreshes f).tokens = none) :
      RequestMoves w w' r (.requestAnswered r true f')
  | retried {a : Action ι} {f : ι} {first : Option (Grant ι)} {tokens : Grant ι}
      (h : w.requests r = .refreshing first f) (hsettled : w.refreshes f = .settled (some tokens))
      (h' : w'.requests r = .retried first tokens) : RequestMoves w w' r a

theorem requestMoves_of_step {a : Action ι} (h : step w a = some w') (r : ι) :
    RequestMoves w w' r a := by
  cases step_cases h with
  | refresh hcalls => cases hcalls <;> exact .stays rfl
  | performs hp => cases hp <;> exact .stays rfl
  | request =>
    next r' hphase =>
    by_cases hr : r = r'
    · subst hr
      exact .sent Device.requestGoes_self
    · exact .stays (Device.requestGoes_other hr)
  | requestOver =>
    next r' f first hphase =>
    by_cases hr : r = r'
    · subst hr
      exact .ended Device.requestGoes_self
    · exact .stays (Device.requestGoes_other hr)
  | retryOver =>
    next r' f first hphase =>
    by_cases hr : r = r'
    · subst hr
      exact .ended Device.requestGoes_self
    · exact .stays (Device.requestGoes_other hr)
  | retries hphase hsettled =>
    next r' f first tokens =>
    by_cases hr : r = r'
    · subst hr
      exact .retried hphase hsettled Device.requestGoes_self
    · exact .stays (Device.requestGoes_other hr)
  | requestWaits hphase hcalls =>
    next w₁ r' f first =>
    by_cases hr : r = r'
    · subst hr
      refine .waits hphase Device.requestGoes_self ?_
      cases hcalls with
      | joins hflight => exact .inl (by rw [hflight]; rfl)
      | starts hflight =>
        right
        rw [hflight]
        show (Device.refreshGoes _ f .awaitingRead |>.refreshes f).tokens = none
        rw [Device.refreshGoes_self]
        rfl
    · refine .stays ((Device.requestGoes_other hr).trans ?_)
      cases hcalls <;> rfl
  | _ => exact .stays rfl

/-- One step: what a request waits for stays its user's. -/
theorem KeepsUser.preserved {a : Action ι} (hi : KeepsUser w) (hg : OwnRefresh w a w')
    (h : step w a = some w') : KeepsUser w' := by
  -- the tokens of a refresh that a request has waited for already
  have hwaits : ∀ r first f, w.requests r = .refreshing first f →
      SameUser first (w'.refreshes f).tokens := by
    intro r first f hr user huser token htoken
    rcases tokens_step h htoken with ⟨t, ht, he⟩ | ⟨rfl, ⟨generation, hreading⟩, hstored⟩
    · rw [← he]
      exact hi.waits r first f hr user huser t ht
    · refine hg (by rw [hreading]; rfl) r user ?_ token hstored
      rw [hr, RequestPhase.waitsWith, if_pos rfl]
      exact huser
  constructor
  · intro r first f hr
    cases requestMoves_of_step h r with
    | stays hstays => exact hwaits r first f (hstays ▸ hr)
    | sent hsent => rw [hsent] at hr; cases hr
    | ended hover => rw [hover] at hr; cases hr
    | retried _ _ hretried => rw [hretried] at hr; cases hr
    | waits hsent hrefreshing hflight =>
      rw [hrefreshing] at hr
      cases hr
      intro user huser token htoken
      rcases hflight with hflight | hnone
      · rcases tokens_step h htoken with ⟨t, ht, he⟩ | ⟨hperform, -⟩
        · rw [← he]
          refine hg f hflight user ?_ t ht
          rw [hsent]
          exact huser
        · cases hperform
      · rw [hnone] at htoken
        cases htoken
  · intro r first second hr
    cases requestMoves_of_step h r with
    | stays hstays => exact hi.retried r first second (hstays ▸ hr)
    | sent hsent => rw [hsent] at hr; cases hr
    | ended hover => rw [hover] at hr; cases hr
    | waits _ hrefreshing => rw [hrefreshing] at hr; cases hr
    | retried hrefreshing hsettled hretried =>
      rw [hretried] at hr
      cases hr
      have htokens := hi.waits r first _ hrefreshing
      rwa [hsettled] at htokens

/-- **When a request keeps its account.** In every interleaving of requests, refreshes,
logouts and logins in which no refresh works with another user's tokens for a request
that waits for it: a request whose first attempt carried a token of a user is retried
with a token of that user only. -/
theorem request_keeps_account (restored : Key → Option Int) {as : List (Action ι)}
    (hg : Along step OwnRefresh (start restored) as) (hrun : run step (start restored) as = some w)
    (r : ι) (first second : Grant ι) (hretried : w.requests r = .retried (some first) second) :
    second.user = first.user :=
  (run_invariant (I := KeepsUser) (fun w a w' hi hg (h : step w a = some w') => hi.preserved hg h)
    (keepsUser_start restored) hg hrun).retried r (some first) second hretried first rfl second rfl

/-- The refresh of one call, up to its result. -/
def wholeRefresh (f : ι) : List (Action ι) :=
  [.perform f, .perform f, .perform f, .answer f .tokens, .perform f, .perform f, .perform f,
    .perform f, .perform f]

/-- A request whose access token has expired. -/
def expired : List (Action Unit) :=
  [.request (), .requestAnswered () true ()] ++ wholeRefresh () ++ [.retry ()]

theorem request_keeps_account_expired :
    ∃ w, run step (start fun _ => some 1) expired = some w ∧
      (Grant.refreshed (.restored 1) ()).user = (Grant.restored 1 : Grant Unit).user := by
  obtain ⟨w, hrun, hretried⟩ := exists_run_of_check step (start fun _ => some 1) expired
    (fun w => w.requests () = .retried (some (.restored 1)) (.refreshed (.restored 1) ()))
    (by decide +kernel)
  exact ⟨w, hrun, request_keeps_account _ (by decide +kernel) hrun () _ _
    (of_decide_eq_true hretried)⟩

/-- The first user logs out and the second logs in before the answer to a request. -/
def changedMeanwhile : List (Action Unit) :=
  [.request (), .invalidateAndClear (), .invalidate (), .invalidate (), .invalidate (),
    .invalidated (), .login () 2, .save (), .save (), .loggedIn (),
    .requestAnswered () true ()] ++ wholeRefresh () ++ [.retry ()]

/-- The request of the first user is retried with a token of the second. -/
theorem request_changes_account :
    ∃ (w : Device Unit) (first second : Grant Unit),
      run step (start fun _ => some 1) changedMeanwhile = some w ∧
      w.requests () = .retried (some first) second ∧ first.user = 1 ∧ second.user = 2 := by
  obtain ⟨w, hrun, hretried⟩ := exists_run_of_check step (start fun _ => some 1) changedMeanwhile
    (fun w => w.requests () = .retried (some (.restored 1)) (.refreshed (.login () 2) ()))
    (by decide +kernel)
  exact ⟨w, _, _, hrun, of_decide_eq_true hretried, rfl, rfl⟩

end Apm.Mobile
