import Apm.Lib.AsyncMutex
import Apm.Lib.Run

/-!
# Tokens on a device

The token storage of a device, the one shared refresh flow with its generation, its
single flight and its mutex, and what uses them: authenticated requests, logouts and
the saves of logins. Every read, write and deletion of the storage, every answer of the
server and every start of a critical section is a step of its own, in any order.
-/

namespace Apm.Mobile

open Apm.Lib

set_option autoImplicit false

/-- The provenance of a token pair: in storage since the start of the app, from the
answer to a login, or from the answer to a refresh with an earlier pair. -/
inductive Grant (ι : Type) where
  | restored (user : Int)
  | login (call : ι) (user : Int)
  | refreshed (parent : Grant ι) (call : ι)
  deriving DecidableEq, Repr

variable {ι : Type}

/-- The server issues every pair to the user of its parent. -/
def Grant.user : Grant ι → Int
  | .restored user => user
  | .login _ user => user
  | .refreshed parent _ => parent.user

/-- The login a token descends from. -/
def Grant.origin : Grant ι → Option ι
  | .restored _ => none
  | .login call _ => some call
  | .refreshed parent _ => parent.origin

/-- The keys of `SecureTokenStorage`. -/
inductive Key where
  | access
  | refresh
  deriving DecidableEq, Repr

/-- Where a call of `_performRefresh` is. -/
inductive RefreshPhase (ι : Type) where
  | idle
  | awaitingRead
  | reading (generation : Nat)
  | read (generation : Nat) (token : Option (Grant ι))
  | posting (generation : Nat) (token : Grant ι)
  | awaitingSave (generation : Nat) (token : Grant ι)
  | saving (token : Grant ι) (key : Key)
  | saved (token : Grant ι)
  | awaitingClear (generation : Nat) (token : Grant ι)
  | clearing (token : Grant ι) (key : Key)
  | cleared (token : Grant ι)
  | ended (result : Option (Grant ι))
  | settled (result : Option (Grant ι))
  deriving DecidableEq, Repr

/-- Where a call of `invalidateAndClear` is. -/
inductive InvalidationPhase where
  | idle
  | queued
  | clearing (key : Key)
  | cleared
  | completed
  deriving DecidableEq, Repr

/-- Where the save of a login's tokens is. -/
inductive LoginPhase where
  | idle
  | saving (user : Int) (key : Key)
  | saved
  | completed
  deriving DecidableEq, Repr

/-- Where an authenticated request is, with the token of its first attempt. -/
inductive RequestPhase (ι : Type) where
  | idle
  | sent (first : Option (Grant ι))
  | refreshing (first : Option (Grant ι)) (call : ι)
  | retried (first : Option (Grant ι)) (second : Grant ι)
  | ended
  deriving DecidableEq, Repr

/-- The entries of `_mutex`. -/
inductive Section (ι : Type) where
  | refresh (call : ι)
  | invalidation (call : ι)
  deriving DecidableEq, Repr

structure Device (ι : Type) where
  storage : Key → Option (Grant ι)
  generation : Nat
  inFlight : Option ι
  mutex : AsyncMutex (Section ι)
  refreshes : ι → RefreshPhase ι
  invalidations : ι → InvalidationPhase
  logins : ι → LoginPhase
  requests : ι → RequestPhase ι

/-- The app starts, with the tokens it finds in storage. -/
def start (restored : Key → Option Int) : Device ι where
  storage key := (restored key).map .restored
  generation := 0
  inFlight := none
  mutex := .free
  refreshes _ := .idle
  invalidations _ := .idle
  logins _ := .idle
  requests _ := .idle

/-- How the server answers `/auth/refresh`: new tokens, a 401, or another failure. -/
inductive RefreshAnswer where
  | tokens
  | unauthorized
  | failed
  deriving DecidableEq, Repr

inductive Action (ι : Type) where
  /-- a call of `refresh` -/
  | refresh (call : ι)
  /-- the next step of a `_performRefresh` -/
  | perform (call : ι)
  /-- the answer to its `POST` -/
  | answer (call : ι) (answer : RefreshAnswer)
  /-- a call of `invalidateAndClear` -/
  | invalidateAndClear (call : ι)
  /-- its next step -/
  | invalidate (call : ι)
  /-- its completion -/
  | invalidated (call : ι)
  /-- the start of a login's save -/
  | login (call : ι) (user : Int)
  /-- its next write -/
  | save (call : ι)
  /-- its completion -/
  | loggedIn (call : ι)
  /-- a request reads the access token and is sent -/
  | request (call : ι)
  /-- a request is answered; after a 401 it calls `refresh`, which may start a call -/
  | requestAnswered (call : ι) (unauthorized : Bool) (refresh : ι)
  /-- a request is through with its refresh -/
  | retry (call : ι)
  deriving DecidableEq, Repr

variable [DecidableEq ι]

namespace Device

def store (w : Device ι) (key : Key) (token : Option (Grant ι)) : Device ι :=
  { w with storage := Function.update w.storage key token }

def refreshGoes (w : Device ι) (f : ι) (p : RefreshPhase ι) : Device ι :=
  { w with refreshes := Function.update w.refreshes f p }

def invalidationGoes (w : Device ι) (j : ι) (p : InvalidationPhase) : Device ι :=
  { w with invalidations := Function.update w.invalidations j p }

def loginGoes (w : Device ι) (i : ι) (p : LoginPhase) : Device ι :=
  { w with logins := Function.update w.logins i p }

def requestGoes (w : Device ι) (r : ι) (p : RequestPhase ι) : Device ι :=
  { w with requests := Function.update w.requests r p }

def enter (w : Device ι) (s : Section ι) : Device ι := { w with mutex := w.mutex.enter s }

def leave (w : Device ι) : Device ι := { w with mutex := w.mutex.leave }

variable {w : Device ι} {x y : ι}

omit [DecidableEq ι] in
@[simp] theorem store_self {key : Key} {token : Option (Grant ι)} :
    (w.store key token).storage key = token := Function.update_self ..

omit [DecidableEq ι] in
theorem store_other {key key' : Key} {token : Option (Grant ι)} (h : key' ≠ key) :
    (w.store key token).storage key' = w.storage key' := Function.update_of_ne h ..

@[simp] theorem refreshGoes_self {p : RefreshPhase ι} : (w.refreshGoes x p).refreshes x = p :=
  Function.update_self ..

theorem refreshGoes_other {p : RefreshPhase ι} (h : y ≠ x) :
    (w.refreshGoes x p).refreshes y = w.refreshes y := Function.update_of_ne h ..

@[simp] theorem invalidationGoes_self {p : InvalidationPhase} :
    (w.invalidationGoes x p).invalidations x = p := Function.update_self ..

theorem invalidationGoes_other {p : InvalidationPhase} (h : y ≠ x) :
    (w.invalidationGoes x p).invalidations y = w.invalidations y := Function.update_of_ne h ..

@[simp] theorem loginGoes_self {p : LoginPhase} : (w.loginGoes x p).logins x = p :=
  Function.update_self ..

theorem loginGoes_other {p : LoginPhase} (h : y ≠ x) :
    (w.loginGoes x p).logins y = w.logins y := Function.update_of_ne h ..

@[simp] theorem requestGoes_self {p : RequestPhase ι} : (w.requestGoes x p).requests x = p :=
  Function.update_self ..

theorem requestGoes_other {p : RequestPhase ι} (h : y ≠ x) :
    (w.requestGoes x p).requests y = w.requests y := Function.update_of_ne h ..

end Device

/-- `refresh`: the call in flight, or a new one. -/
def refresh (w : Device ι) (f : ι) : Option (Device ι) :=
  match w.inFlight with
  | some _ => some w
  | none =>
    if w.refreshes f = .idle then
      some ({ w with inFlight := some f }.enter (.refresh f) |>.refreshGoes f .awaitingRead)
    else none

/-- The next step of `_performRefresh`, up to the `whenComplete` of `refresh`. -/
def perform (w : Device ι) (f : ι) : Option (Device ι) :=
  match w.refreshes f with
  | .awaitingRead =>
    if w.mutex.Holds (.refresh f) then some (w.refreshGoes f (.reading w.generation)) else none
  | .reading generation => some (w.refreshGoes f (.read generation (w.storage .refresh)))
  | .read _ none => some (w.leave.refreshGoes f (.ended none))
  | .read generation (some token) => some (w.leave.refreshGoes f (.posting generation token))
  | .awaitingSave generation token =>
    if w.mutex.Holds (.refresh f) then
      if w.generation = generation then some (w.refreshGoes f (.saving token .access))
      else some (w.leave.refreshGoes f (.ended none))
    else none
  | .saving token .access =>
    some (w.store .access (some (.refreshed token f)) |>.refreshGoes f (.saving token .refresh))
  | .saving token .refresh =>
    some (w.store .refresh (some (.refreshed token f)) |>.refreshGoes f (.saved token))
  | .saved token => some (w.leave.refreshGoes f (.ended (some (.refreshed token f))))
  | .awaitingClear generation token =>
    if w.mutex.Holds (.refresh f) then
      if w.generation = generation then some (w.refreshGoes f (.clearing token .access))
      else some (w.leave.refreshGoes f (.ended none))
    else none
  | .clearing token .access =>
    some (w.store .access none |>.refreshGoes f (.clearing token .refresh))
  | .clearing token .refresh => some (w.store .refresh none |>.refreshGoes f (.cleared token))
  | .cleared _ => some (w.leave.refreshGoes f (.ended none))
  | .ended result => some ({ w with inFlight := none }.refreshGoes f (.settled result))
  | _ => none

def answer (w : Device ι) (f : ι) (answer : RefreshAnswer) : Option (Device ι) :=
  match w.refreshes f with
  | .posting generation token =>
    match answer with
    | .tokens => some (w.enter (.refresh f) |>.refreshGoes f (.awaitingSave generation token))
    | .unauthorized => some (w.enter (.refresh f) |>.refreshGoes f (.awaitingClear generation token))
    | .failed => some (w.refreshGoes f (.ended none))
  | _ => none

/-- The steps of `invalidateAndClear` under the mutex. -/
def invalidate (w : Device ι) (j : ι) : Option (Device ι) :=
  match w.invalidations j with
  | .queued =>
    if w.mutex.Holds (.invalidation j) then
      some ({ w with generation := w.generation + 1 }.invalidationGoes j (.clearing .access))
    else none
  | .clearing .access => some (w.store .access none |>.invalidationGoes j (.clearing .refresh))
  | .clearing .refresh => some (w.store .refresh none |>.invalidationGoes j .cleared)
  | _ => none

/-- The writes of `_persistAndExtractUser`. -/
def save (w : Device ι) (i : ι) : Option (Device ι) :=
  match w.logins i with
  | .saving user .access =>
    some (w.store .access (some (.login i user)) |>.loginGoes i (.saving user .refresh))
  | .saving user .refresh =>
    some (w.store .refresh (some (.login i user)) |>.loginGoes i .saved)
  | _ => none

/-- The answer to the first attempt of `_withRefresh`, or of a stream that has not
started in `postLineStream`. -/
def requestAnswered (w : Device ι) (r : ι) (unauthorized : Bool) (f : ι) : Option (Device ι) :=
  match w.requests r with
  | .sent first =>
    if unauthorized then
      (refresh w f).map (·.requestGoes r (.refreshing first (w.inFlight.getD f)))
    else some (w.requestGoes r .ended)
  | _ => none

/-- The second attempt of `_withRefresh` and `postLineStream`, if the refresh succeeded. -/
def retry (w : Device ι) (r : ι) : Option (Device ι) :=
  match w.requests r with
  | .refreshing first f =>
    match w.refreshes f with
    | .settled none => some (w.requestGoes r .ended)
    | .settled (some tokens) => some (w.requestGoes r (.retried first tokens))
    | _ => none
  | _ => none

def step (w : Device ι) : Action ι → Option (Device ι)
  | .refresh f => refresh w f
  | .perform f => perform w f
  | .answer f a => answer w f a
  | .invalidateAndClear j =>
    if w.invalidations j = .idle then
      some (w.enter (.invalidation j) |>.invalidationGoes j .queued)
    else none
  | .invalidate j => invalidate w j
  | .invalidated j =>
    if w.invalidations j = .cleared then some (w.leave.invalidationGoes j .completed) else none
  | .login i user =>
    if w.logins i = .idle then some (w.loginGoes i (.saving user .access)) else none
  | .save i => save w i
  | .loggedIn i => if w.logins i = .saved then some (w.loginGoes i .completed) else none
  | .request r =>
    if w.requests r = .idle then some (w.requestGoes r (.sent (w.storage .access))) else none
  | .requestAnswered r unauthorized f => requestAnswered w r unauthorized f
  | .retry r => retry w r

end Apm.Mobile
