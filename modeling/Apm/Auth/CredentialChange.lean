import Apm.Auth.Rotation
import Mathlib.Data.Fintype.Basic

/-!
# Sessions across a credential change

A password change, a password reset and a deactivation revoke the active tokens of
the user in the transaction that writes the user row. Their bulk update touches
the rows committed before it starts. A login that has verified the old password
and a refresh that has locked a token commit their new token after that: it is in
no snapshot. This file proves when no token outlives the credentials it goes
back to.
-/

namespace Apm.Auth

open Apm.Core Apm.Lib

set_option autoImplicit false

/-- A sign-in or a refresh. -/
def Request.signsIn : Request → Bool
  | .login .. | .refresh .. => true
  | _ => false

/-- A phase of a sign-in or a refresh. -/
def Phase.signing : Phase → Bool
  | .entered request => request.signsIn
  | .flush .. | .save .. | .revokeOne _ | .revokeAll (.credentials ..) _
  | .updating (.credentials ..) .. => false
  | _ => true

/-- The bulk `UPDATE` of a credential change of the user is in progress. -/
def Phase.ending (userId : Nat) : Phase → Bool
  | .updating (.credentials loaded _) .. => loaded.id = userId
  | _ => false

variable {ι : Type} [DecidableEq ι]

/-- Every active token goes back to the current credentials of its user. -/
def OldSessionsEnded (w : World ι) : Prop :=
  ∀ userId, ∀ h ∈ w.tokens.active userId, w.issuedIn h = w.epoch userId

/-- A login commits its token on current credentials that `c` is not changing, a
refresh exchanges outside the bulk `UPDATE` of `c`. -/
def ordered (c : ι) (w : World ι) (a : Action ι) : Bool :=
  match w.phase a.call with
  | .issue userId epoch => epoch = w.epoch userId && !(w.phase c).ending userId
  | .rotate record _ => !(w.phase c).ending record.userId
  | _ => true

/-- No active token is older than the credentials, and the bulk `UPDATE` of the
change has every active token of the user ahead of it or staged. -/
structure Current (c : ι) (w : World ι) : Prop where
  locked : Locked w
  signing : ∀ i, i ≠ c → (w.phase i).signing = true
  current : OldSessionsEnded w
  reached : ∀ loaded mutated revokedAt todo staged,
    w.phase c = .updating (.credentials loaded mutated) revokedAt todo staged →
    ∀ h ∈ w.tokens.active loaded.id, h ∈ todo ∨ h ∈ staged

section change

variable {S : Setup} {w w' : World ι} {c i : ι} {lost : Bool} {p q : Phase} {a : Action ι}

omit [DecidableEq ι] in
theorem Goes.signing (h : Goes S w p q) (hp : p.signing = true) : q.signing = true := by
  cases h with
  | flush request loaded mutated read hlogin hrefresh =>
    cases request with
    | login email password => exact absurd rfl (hlogin email password)
    | refresh raw => exact absurd rfl (hrefresh raw)
    | _ => cases hp
  | unchanged | save | revokeOne => cases hp
  | update r | skip r =>
    cases r with
    | reuse => rfl
    | credentials => cases hp
  | _ => rfl

theorem Leaves.signing (h : Leaves p q) : q.signing = true := by cases h <;> rfl

theorem Moves.signing (h : Moves S w i lost w') (hp : (w.phase i).signing = true) :
    (w'.phase i).signing = true := by
  have hself : ∀ (p : Phase), Function.update w.phase i p i = p := fun p => Function.update_self ..
  cases h with
  | goes p hgoes =>
    rw [show (w.setPhase i p).phase i = p from hself p]
    exact hgoes.signing hp
  | leaves p hleaves =>
    rw [show (w.leave i p).phase i = p from hself p]
    exact hleaves.signing
  | flush loaded mutated read hphase =>
    rw [hphase] at hp
    cases hp
  | stage r revokedAt todo staged k hphase =>
    rw [hphase] at hp
    simp only [World.setPhase, hself]
    cases r with
    | reuse => rfl
    | credentials => cases hp
  | lock | late =>
    simp only [World.setPhase, hself]
    rfl
  | _ =>
    simp only [World.leave, World.setPhase, hself]
    cases lost <;> rfl

/-- A token that was not there is active only for its user. -/
theorem active_insert {t t' : RefreshTokens} {new : RefreshToken} (hinsert : t.insert new = some t')
    {userId : Nat} {h : String} (hactive : h ∈ t'.active userId) :
    (h = new.tokenHash ∧ new.userId = userId) ∨ (h ≠ new.tokenHash ∧ h ∈ t.active userId) := by
  obtain ⟨row, hrow, huser, hnone⟩ := RefreshTokens.mem_active_iff.mp hactive
  rw [Table.get_insert hinsert] at hrow
  split at hrow
  · rename_i hh
    obtain rfl := Option.some.inj hrow
    exact .inl ⟨hh, huser⟩
  · rename_i hh
    exact .inr ⟨hh, RefreshTokens.mem_active_iff.mpr ⟨row, hrow, huser, hnone⟩⟩

theorem active_revoke {t : RefreshTokens} {revokedAt : Instant} {hashes : List String}
    {userId : Nat} {h : String} (hactive : h ∈ (t.revoke revokedAt hashes).active userId) :
    h ∈ t.active userId ∧ h ∉ hashes := by
  obtain ⟨row, hrow, huser, hnone⟩ := RefreshTokens.mem_active_iff.mp hactive
  have hout : h ∉ hashes := fun hh => RefreshTokens.revokedAt_of_get_revoke hrow hh hnone
  rw [RefreshTokens.get_revoke_of_notMem revokedAt hout] at hrow
  exact ⟨RefreshTokens.mem_active_iff.mpr ⟨row, hrow, huser, hnone⟩, hout⟩

/-- A step that issues no token: active tokens were active. -/
theorem current_keep (hc : Current c w) (hmoves : Moves S w i lost w')
    (hactive : ∀ userId, ∀ h ∈ w'.tokens.active userId, h ∈ w.tokens.active userId)
    (hepoch : w'.epoch = w.epoch) (hissued : w'.issuedIn = w.issuedIn)
    (hreached : ∀ loaded mutated revokedAt todo staged,
      w'.phase c = .updating (.credentials loaded mutated) revokedAt todo staged →
      ∀ h ∈ w'.tokens.active loaded.id, h ∈ todo ∨ h ∈ staged) : Current c w' where
  locked := locked_step hc.locked hmoves
  signing := fun j hj => by
    by_cases hji : j = i
    · subst hji
      exact hmoves.signing (hc.signing j hj)
    · rw [hmoves.phase_other hji]
      exact hc.signing j hj
  current := fun userId h hh => by
    rw [hepoch, hissued]
    exact hc.current userId h (hactive userId h hh)
  reached := hreached

/-- A step of another call leaves the bulk `UPDATE` where it is. -/
theorem Current.reached_other (hc : Current c w) (hmoves : Moves S w i lost w') (hci : c ≠ i)
    (hactive : ∀ userId, ∀ h ∈ w'.tokens.active userId, h ∈ w.tokens.active userId) :
    ∀ loaded mutated revokedAt todo staged,
      w'.phase c = .updating (.credentials loaded mutated) revokedAt todo staged →
      ∀ h ∈ w'.tokens.active loaded.id, h ∈ todo ∨ h ∈ staged := by
  intro loaded mutated revokedAt todo staged hphase h hh
  rw [hmoves.phase_other hci] at hphase
  exact hc.reached loaded mutated revokedAt todo staged hphase h (hactive _ h hh)

/-- A step that issues a token on current credentials. -/
theorem current_issue (hc : Current c w) (hmoves : Moves S w i lost w') {t : RefreshTokens}
    {new : RefreshToken} {epoch : Nat} (hinsert : t.insert new = some w'.tokens)
    (hold : ∀ userId, ∀ h ∈ t.active userId, h ∈ w.tokens.active userId)
    (hepoch : w'.epoch = w.epoch)
    (hissued : w'.issuedIn = Function.update w.issuedIn new.tokenHash epoch)
    (hcurrent : epoch = w.epoch new.userId) (hended : (w'.phase i).ended = true)
    (hquiet : (w.phase c).ending new.userId = false) : Current c w' where
  locked := locked_step hc.locked hmoves
  signing := fun j hj => by
    by_cases hji : j = i
    · subst hji
      exact hmoves.signing (hc.signing j hj)
    · rw [hmoves.phase_other hji]
      exact hc.signing j hj
  current := fun userId h hh => by
    rw [hepoch, hissued]
    rcases active_insert hinsert hh with ⟨rfl, rfl⟩ | ⟨hne, hh⟩
    · rw [Function.update_self, hcurrent]
    · rw [Function.update_of_ne hne]
      exact hc.current userId h (hold userId h hh)
  reached := fun loaded mutated revokedAt todo staged hphase h hh => by
    by_cases hci : c = i
    · rw [← hci, hphase] at hended
      cases hended
    · rw [hmoves.phase_other hci] at hphase
      rcases active_insert hinsert hh with ⟨rfl, huser⟩ | ⟨-, hh⟩
      · rw [hphase, huser] at hquiet
        simp [Phase.ending] at hquiet
      · exact hc.reached loaded mutated revokedAt todo staged hphase h (hold _ h hh)

omit [DecidableEq ι] in
/-- The phase a step of the change itself leads to. -/
theorem Current.reached_goes (hc : Current c w) (hgoes : Goes S w (w.phase c) q) :
    ∀ loaded mutated revokedAt todo staged,
      q = .updating (.credentials loaded mutated) revokedAt todo staged →
      ∀ h ∈ w.tokens.active loaded.id, h ∈ todo ∨ h ∈ staged := by
  rintro loaded mutated revokedAt todo staged rfl h hh
  generalize hp : w.phase c = p at hgoes
  cases hgoes with
  | update => exact .inl hh
  | skip _ _ todo' _ k hk =>
    refine (hc.reached loaded mutated revokedAt todo' staged hp h hh).imp_left fun ht => ?_
    have hne : h ≠ k := fun he => hk (he ▸ hh)
    exact List.mem_filter.mpr ⟨ht, by simpa using hne⟩

theorem current_step (hc : Current c w) (hordered : ordered c w a = true)
    (hmoves : Moves S w a.call a.lost w') : Current c w' := by
  have hself : ∀ (p : Phase), Function.update w.phase a.call p a.call = p :=
    fun p => Function.update_self ..
  have hsame : ∀ userId, ∀ h ∈ w.tokens.active userId, h ∈ w.tokens.active userId :=
    fun _ _ => id
  have hrevoke : ∀ {revokedAt : Instant} {hashes : List String} userId,
      ∀ h ∈ (w.tokens.revoke revokedAt hashes).active userId, h ∈ w.tokens.active userId :=
    fun userId h hh => (active_revoke hh).1
  have hmoves' := hmoves
  cases hmoves with
  | goes p hgoes =>
    refine current_keep hc hmoves' hsame rfl rfl ?_
    by_cases hca : c = a.call
    · rw [show (w.setPhase a.call p).phase c = p from hca ▸ hself p]
      exact hc.reached_goes (hca ▸ hgoes)
    · exact hc.reached_other hmoves' hca hsame
  | issue userId epoch now raw tokens hphase hinsert =>
    simp only [ordered, hphase, Bool.and_eq_true, decide_eq_true_eq, Bool.not_eq_true'] at hordered
    exact current_issue hc hmoves' hinsert hsame rfl rfl hordered.1
      ((congrArg Phase.ended (hself _)).trans (answered_ended rfl)) hordered.2
  | exchange record read now raw tokens hphase hinsert =>
    simp only [ordered, hphase, Bool.not_eq_true'] at hordered
    have hold := hc.locked a.call
    rw [hphase] at hold
    have hrow := (hold.record record rfl).2
    have hactive : record.tokenHash ∈ w.tokens.active record.userId :=
      RefreshTokens.mem_active_iff.mpr ⟨record, hrow, rfl, hold.exchanging record rfl⟩
    exact current_issue hc hmoves' hinsert hrevoke rfl rfl (hc.current _ _ hactive)
      ((congrArg Phase.ended (hself _)).trans (answered_ended rfl)) hordered
  | stage r revokedAt todo staged k hphase hmem hfree hactive =>
    refine current_keep hc hmoves' hsame rfl rfl ?_
    by_cases hca : c = a.call
    · intro loaded mutated revokedAt' todo' staged' hp h hh
      cases (hself _).symm.trans (hca ▸ hp)
      rw [List.mem_filter, List.mem_cons]
      by_cases hk : h = k
      · exact .inr (.inl hk)
      · exact (hc.reached loaded mutated revokedAt todo staged (hca ▸ hphase) h hh).imp
          (fun ht => ⟨ht, by simpa using hk⟩) .inr
    · exact hc.reached_other hmoves' hca hsame
  | changed loaded mutated revokedAt staged hphase =>
    have hca : c = a.call := by
      by_contra hne
      have hsigning := hc.signing a.call (Ne.symm hne)
      rw [hphase] at hsigning
      cases hsigning
    refine ⟨locked_step hc.locked hmoves', fun j hj => ?_, fun userId h hh => ?_, ?_⟩
    · rw [hmoves'.phase_other (hca ▸ hj)]
      exact hc.signing j hj
    · obtain ⟨hh, hout⟩ := active_revoke hh
      by_cases huser : userId = loaded.id
      · -- the bulk has reached every token of the user
        subst huser
        rcases hc.reached loaded mutated revokedAt [] staged (hca ▸ hphase) h hh with ht | hs
        · cases ht
        · exact absurd hs hout
      · exact (hc.current userId h hh).trans (Function.update_of_ne huser _ _).symm
    · intro loaded' mutated' revokedAt' todo' staged' hp
      exact absurd ((hself _).symm.trans (hca ▸ hp)) (answered_ne rfl rfl)
  | leaves p hleaves =>
    refine current_keep hc hmoves' hsame rfl rfl ?_
    by_cases hca : c = a.call
    · intro loaded mutated revokedAt todo staged hp
      obtain rfl := (hself p).symm.trans (hca ▸ hp)
      cases hleaves.ended
    · exact hc.reached_other hmoves' hca hsame
  | lock | late | flush =>
    refine current_keep hc hmoves' hsame rfl rfl ?_
    by_cases hca : c = a.call
    · intro loaded mutated revokedAt todo staged hp
      cases (hself _).symm.trans (hca ▸ hp)
    · exact hc.reached_other hmoves' hca hsame
  | save =>
    refine current_keep hc hmoves' hsame rfl rfl ?_
    by_cases hca : c = a.call
    · intro loaded mutated revokedAt todo staged hp
      exact absurd ((hself _).symm.trans (hca ▸ hp)) (answered_ne rfl rfl)
    · exact hc.reached_other hmoves' hca hsame
  | logout | reused =>
    refine current_keep hc hmoves' hrevoke rfl rfl ?_
    by_cases hca : c = a.call
    · intro loaded mutated revokedAt todo staged hp
      exact absurd ((hself _).symm.trans (hca ▸ hp)) (answered_ne rfl rfl)
    · exact hc.reached_other hmoves' hca hrevoke

/-- A credential change has been committed, whether or not its caller was told. -/
def Changed (w : World ι) : Prop := ∃ userId, w.epoch userId ≠ 0

/-- Until the change has committed there is one epoch. -/
structure OneEpoch (w : World ι) : Prop where
  epoch : ∀ userId, w.epoch userId = 0
  issuedIn : ∀ h, w.issuedIn h = 0
  issue : ∀ i userId epoch, w.phase i = .issue userId epoch → epoch = 0

theorem oneEpoch_keep (ho : OneEpoch w) (hmoves : Moves S w i lost w')
    (hepoch : ∀ userId, w'.epoch userId = 0) (hissued : ∀ h, w'.issuedIn h = 0)
    (hissue : ∀ userId epoch, w'.phase i = .issue userId epoch → epoch = 0) : OneEpoch w' where
  epoch := hepoch
  issuedIn := hissued
  issue := fun j userId epoch hj => by
    by_cases hji : j = i
    · exact hissue userId epoch (hji ▸ hj)
    · rw [hmoves.phase_other hji] at hj
      exact ho.issue j userId epoch hj

theorem oneEpoch_step (ho : OneEpoch w) (hmoves : Moves S w i lost w') :
    OneEpoch w' ∨ Changed w' := by
  have hself : ∀ (p : Phase), Function.update w.phase i p i = p := fun p => Function.update_self ..
  have hmoves' := hmoves
  cases hmoves with
  | goes p hgoes =>
    refine .inl (oneEpoch_keep ho hmoves' ho.epoch ho.issuedIn fun userId epoch hp => ?_)
    obtain rfl := (hself p).symm.trans hp
    generalize w.phase i = q at hgoes
    cases hgoes
    exact ho.epoch _
  | issue userId epoch now raw tokens hphase =>
    refine .inl (oneEpoch_keep ho hmoves' ho.epoch (fun h => ?_) fun _ _ hp =>
      absurd ((hself _).symm.trans hp) (answered_ne rfl rfl))
    by_cases hh : h = S.hashToken raw
    · rw [hh]
      exact (Function.update_self ..).trans (ho.issue i userId epoch hphase)
    · exact (Function.update_of_ne hh _ _).trans (ho.issuedIn h)
  | exchange record read now raw tokens hphase =>
    refine .inl (oneEpoch_keep ho hmoves' ho.epoch (fun h => ?_) fun _ _ hp =>
      absurd ((hself _).symm.trans hp) (answered_ne rfl rfl))
    by_cases hh : h = S.hashToken raw
    · rw [hh]
      exact (Function.update_self ..).trans (ho.issuedIn _)
    · exact (Function.update_of_ne hh _ _).trans (ho.issuedIn h)
  | changed loaded mutated revokedAt staged hphase =>
    exact .inr ⟨loaded.id, (Function.update_self ..).trans_ne (Nat.succ_ne_zero _)⟩
  | leaves p hleaves =>
    refine .inl (oneEpoch_keep ho hmoves' ho.epoch ho.issuedIn fun userId epoch hp => ?_)
    obtain rfl := (hself p).symm.trans hp
    cases hleaves.ended
  | save | logout | reused =>
    exact .inl (oneEpoch_keep ho hmoves' ho.epoch ho.issuedIn fun _ _ hp =>
      absurd ((hself _).symm.trans hp) (answered_ne rfl rfl))
  | lock | late | flush | stage =>
    exact .inl (oneEpoch_keep ho hmoves' ho.epoch ho.issuedIn fun _ _ hp => by
      cases (hself _).symm.trans hp)

theorem changed_step (hc : Changed w) (hmoves : Moves S w i lost w') : Changed w' := by
  obtain ⟨userId, hepoch⟩ := hc
  cases hmoves with
  | changed loaded =>
    refine ⟨userId, ?_⟩
    by_cases hid : userId = loaded.id
    · subst hid
      exact (Function.update_self ..).trans_ne (Nat.succ_ne_zero _)
    · exact (Function.update_of_ne hid ..).trans_ne hepoch
  | _ => exact ⟨userId, hepoch⟩

end change

section runs

variable (S : Setup) (users : Users) (tokens : RefreshTokens) (request : ι → Request) (c : ι)
  {as : List (Action ι)} {w : World ι}

omit [DecidableEq ι] in
theorem current_init (hothers : ∀ i, i ≠ c → (request i).signsIn = true) :
    Current c (World.init users tokens [] request) where
  locked := locked_init users tokens request []
  signing := hothers
  current := fun _ _ _ => rfl
  reached := fun _ _ _ _ _ hp => by cases hp

omit c in
theorem oneEpoch_run (hrun : run (step S) (.init users tokens [] request) as = some w)
    (hc : ¬ Changed w) : OneEpoch w := by
  have hend := run_preserves (I := fun w => Changed w ∨ OneEpoch w)
    (fun w a w' hi (hs : step S w a = some w') => by
      rcases hi with hchanged | hone
      · exact .inl (changed_step hchanged (step_moves hs))
      · exact (oneEpoch_step hone (step_moves hs)).symm)
    (.inr ⟨fun _ => rfl, fun _ => rfl, fun _ _ _ hp => by cases hp⟩) hrun
  exact hend.resolve_left hc

/-- **When old sessions end.** One call and any number of logins and refreshes, in
any order of their statements. If the call is a credential change that commits,
suppose that no login commits its token on credentials older than those of the
user, or while the bulk update of the change is in progress, and that no refresh
of the user exchanges while it is. Then in every state reached every active token
goes back to the current credentials of its user. -/
theorem old_sessions_ended (hothers : ∀ i, i ≠ c → (request i).signsIn = true)
    (hrun : run (step S) (.init users tokens [] request) as = some w)
    (hordered : Changed w →
      Along (step S) (fun w a _ => ordered c w a = true) (.init users tokens [] request) as) :
    OldSessionsEnded w := by
  by_cases hc : Changed w
  · exact (run_invariant (fun w a w' hi hg (hs : step S w a = some w') =>
      current_step hi hg (step_moves hs)) (current_init users tokens request c hothers)
      (hordered hc) hrun).current
  · have hone := oneEpoch_run S users tokens request hrun hc
    exact fun userId h _ => (hone.issuedIn h).trans (hone.epoch userId).symm

end runs

inductive Call where
  | change | login | refresh
  deriving DecidableEq

instance : Fintype Call := ⟨{.change, .login, .refresh}, fun i => by cases i <;> decide⟩

/-- A password change, a login with the old password and a refresh. -/
def passwordChange : Call → Request
  | .change => .changePassword 1 "old" "new"
  | .login => .login "ada" "old"
  | .refresh => .refresh "before"

def issuedBefore : RefreshTokens :=
  ⟨[⟨"before", 1, 2592000000000, none⟩], List.nodup_singleton _⟩

/-- The login and the refresh first, then the change. -/
def changeLast : List (Action Call) :=
  [.advance .login 0 "", .advance .login 0 "a", .advance .refresh 0 "", .advance .refresh 0 "",
    .advance .refresh 0 "", .advance .refresh 0 "b", .advance .change 0 "", .advance .change 0 "",
    .advance .change 0 "", .visit .change "a", .visit .change "b", .advance .change 0 ""]

theorem old_sessions_ended_change_last :
    ∃ w, run (step plainSetup) (.init onlyAda issuedBefore [] passwordChange) changeLast = some w ∧
      w.phase .change = .done ∧ OldSessionsEnded w := by
  obtain ⟨w, hw, hd⟩ := exists_run_of_check (step plainSetup)
    (.init onlyAda issuedBefore [] passwordChange) changeLast
    (fun w => decide (w.phase .change = .done)) (by decide +kernel)
  exact ⟨w, hw, of_decide_eq_true hd, old_sessions_ended plainSetup onlyAda issuedBefore
    passwordChange .change (by decide) hw fun _ => by decide +kernel⟩

/-- The login verifies the old password before the change and commits after it. -/
def loginAcross : List (Action Call) :=
  [.advance .login 0 "", .advance .change 0 "", .advance .change 0 "", .advance .change 0 "",
    .visit .change "before", .advance .change 0 "", .advance .login 0 "a", .advance .refresh 0 "",
    .advance .refresh 0 ""]

/-- The refresh holds its row when the bulk update starts and commits during it. -/
def refreshAcross : List (Action Call) :=
  [.advance .login 0 "", .abort .login, .advance .refresh 0 "", .advance .refresh 0 "",
    .advance .refresh 0 "", .advance .change 0 "", .advance .change 0 "", .advance .change 0 "",
    .advance .refresh 0 "b", .visit .change "before", .advance .change 0 ""]

/-- Both tokens are active after the change although they go back to the old password. -/
theorem old_session_survives :
    (∃ w, run (step plainSetup) (.init onlyAda issuedBefore [] passwordChange) loginAcross = some w ∧
      (∀ i, (w.phase i).ended = true) ∧ w.phase .change = .done ∧ w.tokens.active 1 = ["a"] ∧
      ¬OldSessionsEnded w) ∧
    ∃ w, run (step plainSetup) (.init onlyAda issuedBefore [] passwordChange) refreshAcross = some w ∧
      (∀ i, (w.phase i).ended = true) ∧ w.phase .change = .done ∧ w.tokens.active 1 = ["b"] ∧
      w.exchanges = [("before", "b")] ∧ ¬OldSessionsEnded w := by
  constructor
  · obtain ⟨w, hw, hd⟩ := exists_run_of_check (step plainSetup)
      (.init onlyAda issuedBefore [] passwordChange) loginAcross
      (fun w => decide ((∀ i, (w.phase i).ended = true) ∧ w.phase .change = .done ∧
        w.tokens.active 1 = ["a"] ∧ w.issuedIn "a" = 0 ∧ w.epoch 1 = 1)) (by decide +kernel)
    obtain ⟨hended, hdone, hactive, hissued, hepoch⟩ := of_decide_eq_true hd
    refine ⟨w, hw, hended, hdone, hactive, fun h => ?_⟩
    have hcurrent := h 1 "a" (by rw [hactive]; exact List.mem_singleton_self _)
    rw [hissued, hepoch] at hcurrent
    cases hcurrent
  · obtain ⟨w, hw, hd⟩ := exists_run_of_check (step plainSetup)
      (.init onlyAda issuedBefore [] passwordChange) refreshAcross
      (fun w => decide ((∀ i, (w.phase i).ended = true) ∧ w.phase .change = .done ∧
        w.tokens.active 1 = ["b"] ∧ w.exchanges = [("before", "b")] ∧ w.issuedIn "b" = 0 ∧
        w.epoch 1 = 1)) (by decide +kernel)
    obtain ⟨hended, hdone, hactive, hexchanges, hissued, hepoch⟩ := of_decide_eq_true hd
    refine ⟨w, hw, hended, hdone, hactive, hexchanges, fun h => ?_⟩
    have hcurrent := h 1 "b" (by rw [hactive]; exact List.mem_singleton_self _)
    rw [hissued, hepoch] at hcurrent
    cases hcurrent

end Apm.Auth
