import Apm.Auth.Service

/-!
# What one statement can do

`step_moves` inverts the step function once: a statement moves its call along,
ends it, takes a lock, or commits. Later proofs split on `Moves` and never unfold
the step function. From it every invariant of the tables follows, first of all
that a token row stays and that a revoked one stays revoked.
-/

namespace Apm.Auth

open Apm.Core Apm.Lib

set_option autoImplicit false

variable {ι : Type} [DecidableEq ι]

/-- A statement that only reads, or whose write changes nothing. -/
inductive Goes (S : Setup) (w : World ι) : Phase → Phase → Prop where
  | issue (email password : String) (user : User) :
      Goes S w (.entered (.login email password)) (.issue user.id (w.epoch user.id))
  | lookup (record : RefreshToken) (present : List String) (now : Instant)
      (hrevoked : record.revokedAt = none) :
      Goes S w (.locked record present) (.lookup record now)
  | rotate (record : RefreshToken) (now : Instant) : Goes S w (.lookup record now) (.rotate record now)
  | revokeOne (raw tokenHash : String) : Goes S w (.entered (.logout raw)) (.revokeOne tokenHash)
  | flush (request : Request) (loaded mutated : User) (read : Option Instant)
      (hrequest : ∀ email password, request ≠ .login email password)
      (hrefresh : ∀ raw, request ≠ .refresh raw) :
      Goes S w (.entered request) (.flush loaded mutated read)
  | save (userId : Nat) (loaded mutated : User) :
      Goes S w (.entered (.setActive userId true)) (.save loaded mutated)
  | unchanged (loaded mutated : User) (read : Option Instant) :
      Goes S w (.flush loaded mutated read) (.revokeAll (.credentials loaded mutated) read)
  | update (r : Revocation) (read : Option Instant) (now : Instant) :
      Goes S w (.revokeAll r read)
        (.updating r (read.getD now) (w.tokens.active r.userId) [])
  | skip (r : Revocation) (revokedAt : Instant) (todo staged : List String) (h : String)
      (hactive : h ∉ w.tokens.active r.userId) (hmem : h ∈ todo) :
      Goes S w (.updating r revokedAt todo staged)
        (.updating r revokedAt (todo.filter (· ≠ h)) staged)

/-- The ends of a call that commit nothing. -/
inductive Leaves : Phase → Phase → Prop where
  | refused (request : Request) : Leaves (.entered request) .rejected
  | finished (request : Request) : Leaves (.entered request) .done
  | locked (record : RefreshToken) (present : List String) :
      Leaves (.locked record present) .rejected
  | lookup (record : RefreshToken) (now : Instant) : Leaves (.lookup record now) .rejected
  | aborted (p : Phase) (hp : p.ended = false) : Leaves p .aborted

/-- The end of a call that commits, by whether the answer of the commit is lost. -/
def answered (lost : Bool) (p : Phase) : Phase := if lost then .aborted else p

theorem answered_ended {lost : Bool} {p : Phase} (hp : p.ended = true) :
    (answered lost p).ended = true := by
  cases lost
  · exact hp
  · rfl

theorem answered_ne {lost : Bool} {p q : Phase} (hp : p.ended = true) (hq : q.ended = false) :
    answered lost p ≠ q := by
  rintro rfl
  rw [answered_ended hp] at hq
  cases hq

inductive Moves (S : Setup) (w : World ι) (i : ι) (lost : Bool) : World ι → Prop where
  | goes (p : Phase) (hgoes : Goes S w (w.phase i) p) : Moves S w i lost (w.setPhase i p)
  | leaves (p : Phase) (hleaves : Leaves (w.phase i) p) : Moves S w i lost (w.leave i p)
  | lock (raw : String) (record : RefreshToken) (hphase : w.phase i = .entered (.refresh raw))
      (hrow : w.tokens.get record.tokenHash = some record)
      (hfree : w.tokenLock record.tokenHash = none) :
      Moves S w i lost { w.setPhase i (.locked record w.tokens.keys) with
        tokenLock := Function.update w.tokenLock record.tokenHash (some i) }
  | late (record : RefreshToken) (present : List String) (revokedAt now : Instant)
      (hphase : w.phase i = .locked record present) (hrevoked : record.revokedAt = some revokedAt)
      (hbeyond : beyondGrace S now revokedAt = true) :
      Moves S w i lost { w.setPhase i (.revokeAll (.reuse record present) (some now)) with
        late := Function.update w.late i (some (record, present)) }
  | flush (loaded mutated : User) (read : Option Instant)
      (hphase : w.phase i = .flush loaded mutated read) (hfree : w.userLock loaded.id = none) :
      Moves S w i lost { w.setPhase i (.revokeAll (.credentials loaded mutated) read) with
        userLock := Function.update w.userLock loaded.id (some i) }
  | save (loaded mutated : User) (hphase : w.phase i = .save loaded mutated) :
      Moves S w i lost { w.leave i (answered lost .done) with users := writeUser w loaded mutated }
  | issue (userId epoch : Nat) (now : Instant) (raw : String) (tokens : RefreshTokens)
      (hphase : w.phase i = .issue userId epoch)
      (hinsert : w.tokens.insert (newToken S userId now raw) = some tokens) :
      Moves S w i lost { w.leave i (answered lost (.issued raw)) with
        tokens := tokens
        issuedIn := Function.update w.issuedIn (S.hashToken raw) epoch }
  | exchange (record : RefreshToken) (read now : Instant) (raw : String) (tokens : RefreshTokens)
      (hphase : w.phase i = .rotate record read)
      (hinsert : (w.tokens.revoke read [record.tokenHash]).insert
        (newToken S record.userId now raw) = some tokens) :
      Moves S w i lost { w.leave i (answered lost (.issued raw)) with
        tokens := tokens
        exchanges := w.exchanges ++ [(record.tokenHash, S.hashToken raw)]
        issuedIn := Function.update w.issuedIn (S.hashToken raw) (w.issuedIn record.tokenHash) }
  | logout (tokenHash : String) (now : Instant) (hphase : w.phase i = .revokeOne tokenHash)
      (hfree : w.tokenLock tokenHash = none) :
      Moves S w i lost { w.leave i (answered lost .done) with tokens := w.tokens.revoke now [tokenHash] }
  | stage (r : Revocation) (revokedAt : Instant) (todo staged : List String) (h : String)
      (hphase : w.phase i = .updating r revokedAt todo staged) (hmem : h ∈ todo)
      (hfree : w.tokenLock h = none ∨ w.tokenLock h = some i)
      (hactive : h ∈ w.tokens.active r.userId) :
      Moves S w i lost
        { w.setPhase i (.updating r revokedAt (todo.filter (· ≠ h)) (h :: staged)) with
          tokenLock := Function.update w.tokenLock h (some i) }
  | reused (record : RefreshToken) (present : List String) (revokedAt : Instant)
      (staged : List String)
      (hphase : w.phase i = .updating (.reuse record present) revokedAt [] staged) :
      Moves S w i lost { w.leave i (answered lost .rejected) with tokens := w.tokens.revoke revokedAt staged }
  | changed (loaded mutated : User) (revokedAt : Instant) (staged : List String)
      (hphase : w.phase i = .updating (.credentials loaded mutated) revokedAt [] staged) :
      Moves S w i lost { w.leave i (answered lost .done) with
        users := writeUser w loaded mutated
        tokens := w.tokens.revoke revokedAt staged
        epoch := Function.update w.epoch loaded.id (w.epoch loaded.id + 1) }

section inversion

variable {S : Setup} {w w' : World ι} {i : ι} {lost : Bool} {now : Instant} {random : String}

theorem enter_moves {request : Request} (hphase : w.phase i = .entered request)
    (hstep : enter S w i now random request = some w') : Moves S w i false w' := by
  have hleave : ∀ p, Leaves (.entered request) p → some (w.leave i p) = some w' → Moves S w i false w' :=
    fun p hp he => Option.some.inj he ▸ .leaves p (hphase ▸ hp)
  have hgo : ∀ p, Goes S w (.entered request) p → some (w.setPhase i p) = some w' → Moves S w i false w' :=
    fun p hp he => Option.some.inj he ▸ .goes p (hphase ▸ hp)
  cases request with
  | login email password =>
    simp only [enter] at hstep
    split at hstep
    · exact hleave _ (.refused _) hstep
    · split at hstep
      · exact hleave _ (.refused _) hstep
      · exact hgo _ (.issue email password _) hstep
  | refresh raw =>
    simp only [enter] at hstep
    split at hstep
    · exact hleave _ (.refused _) hstep
    · rename_i record hrow
      have hkey := Table.key_of_get hrow
      rw [← hkey] at hrow hstep
      split at hstep
      · rename_i hfree
        obtain rfl := Option.some.inj hstep
        exact .lock raw record hphase hrow hfree
      · cases hstep
  | logout raw =>
    simp only [enter] at hstep
    split at hstep
    · exact hleave _ (.finished _) hstep
    · split at hstep
      · exact hgo _ (.revokeOne raw _) hstep
      · exact hleave _ (.finished _) hstep
  | changePassword userId oldPassword newPassword =>
    simp only [enter] at hstep
    split at hstep
    · exact hleave _ (.refused _) hstep
    · split at hstep
      · exact hleave _ (.refused _) hstep
      · exact hgo _ (.flush _ _ _ _ (by simp) (by simp)) hstep
  | resetPassword rawToken newPassword =>
    simp only [enter] at hstep
    split at hstep
    · exact hleave _ (.refused _) hstep
    · split at hstep
      · exact hleave _ (.refused _) hstep
      · exact hgo _ (.flush _ _ _ _ (by simp) (by simp)) hstep
  | setActive userId active =>
    simp only [enter] at hstep
    split at hstep
    · exact hleave _ (.refused _) hstep
    · split at hstep
      · rename_i hactive
        subst hactive
        exact hgo _ (.save userId _ _) hstep
      · exact hgo _ (.flush _ _ _ _ (by simp) (by simp)) hstep

theorem advance_moves (hstep : advance S w i now random (w.phase i) = some w') : Moves S w i false w' := by
  cases hphase : w.phase i with
  | entered request =>
    rw [hphase] at hstep
    exact enter_moves hphase hstep
  | issue userId epoch =>
    simp only [hphase, advance] at hstep
    split at hstep <;> obtain rfl := Option.some.inj hstep
    · exact .leaves _ (.aborted _ (by rw [hphase]; rfl))
    · rename_i tokens hinsert
      exact .issue userId epoch now random tokens hphase hinsert
  | locked record present =>
    simp only [hphase, advance] at hstep
    split at hstep
    · rename_i revokedAt hrevoked
      split at hstep <;> obtain rfl := Option.some.inj hstep
      · rename_i hbeyond
        exact .late record present revokedAt now hphase hrevoked hbeyond
      · exact .leaves _ (hphase ▸ .locked record present)
    · rename_i hrevoked
      split at hstep <;> obtain rfl := Option.some.inj hstep
      · exact .leaves _ (hphase ▸ .locked record present)
      · exact .goes _ (hphase ▸ .lookup record present now hrevoked)
  | lookup record read =>
    simp only [hphase, advance] at hstep
    split at hstep
    · obtain rfl := Option.some.inj hstep
      exact .leaves _ (hphase ▸ .lookup record read)
    · split at hstep <;> obtain rfl := Option.some.inj hstep
      · exact .leaves _ (hphase ▸ .lookup record read)
      · exact .goes _ (hphase ▸ .rotate record read)
  | rotate record read =>
    simp only [hphase, advance] at hstep
    split at hstep <;> obtain rfl := Option.some.inj hstep
    · exact .leaves _ (.aborted _ (by rw [hphase]; rfl))
    · rename_i tokens hinsert
      exact .exchange record read now random tokens hphase hinsert
  | revokeOne tokenHash =>
    simp only [hphase, advance] at hstep
    split at hstep
    · rename_i hfree
      obtain rfl := Option.some.inj hstep
      exact .logout tokenHash now hphase hfree
    · cases hstep
  | flush loaded mutated read =>
    simp only [hphase, advance] at hstep
    split at hstep
    · obtain rfl := Option.some.inj hstep
      exact .goes _ (hphase ▸ .unchanged loaded mutated read)
    · split at hstep
      · rename_i hfree
        obtain rfl := Option.some.inj hstep
        exact .flush loaded mutated read hphase hfree
      · cases hstep
  | save loaded mutated =>
    simp only [hphase, advance] at hstep
    split at hstep
    · obtain rfl := Option.some.inj hstep
      exact .save loaded mutated hphase
    · cases hstep
  | revokeAll r read =>
    simp only [hphase, advance] at hstep
    obtain rfl := Option.some.inj hstep
    exact .goes _ (hphase ▸ .update r read now)
  | updating r revokedAt todo staged =>
    cases todo with
    | nil =>
      cases r with
      | reuse record present =>
        simp only [hphase, advance] at hstep
        obtain rfl := Option.some.inj hstep
        exact .reused record present revokedAt staged hphase
      | credentials loaded mutated =>
        simp only [hphase, advance] at hstep
        obtain rfl := Option.some.inj hstep
        exact .changed loaded mutated revokedAt staged hphase
    | cons h rest =>
      rw [hphase] at hstep
      cases r <;> cases hstep
  | issued | rejected | done | aborted =>
    rw [hphase] at hstep
    cases hstep

/-- A bulk `UPDATE` commits when it has reached the rows of its snapshot. -/
theorem Phase.commits_updating {r : Revocation} {revokedAt : Instant} {todo staged : List String}
    {h : String} (hmem : h ∈ todo) : (Phase.updating r revokedAt todo staged).commits = false := by
  cases todo with
  | nil => cases hmem
  | cons => rfl

theorem lose_moves (hmoves : Moves S w i lost w') (hcommits : (w.phase i).commits = true) :
    Moves S w i true { w' with phase := Function.update w.phase i .aborted } := by
  have hnot : ∀ {p}, w.phase i = p → p.commits ≠ false := fun h hp => by
    rw [h, hp] at hcommits
    cases hcommits
  cases hmoves with
  | goes p hgoes =>
    generalize hp : w.phase i = q at hgoes
    cases hgoes with
    | skip r revokedAt todo staged h hactive hmem =>
      exact absurd (Phase.commits_updating hmem) (hnot hp)
    | _ => exact absurd rfl (hnot hp)
  | leaves => exact .leaves _ (.aborted _ (Phase.not_ended_of_commits hcommits))
  | save loaded mutated hphase => exact .save loaded mutated hphase
  | issue userId epoch now raw tokens hphase hinsert =>
    exact .issue userId epoch now raw tokens hphase hinsert
  | exchange record read now raw tokens hphase hinsert =>
    exact .exchange record read now raw tokens hphase hinsert
  | logout tokenHash now hphase hfree => exact .logout tokenHash now hphase hfree
  | reused record present revokedAt staged hphase =>
    exact .reused record present revokedAt staged hphase
  | changed loaded mutated revokedAt staged hphase =>
    exact .changed loaded mutated revokedAt staged hphase
  | stage r revokedAt todo staged h hphase hmem =>
    exact absurd (Phase.commits_updating hmem) (hnot hphase)
  | lock _ _ hphase | late _ _ _ _ hphase | flush _ _ _ hphase => exact absurd rfl (hnot hphase)

theorem step_moves {a : Action ι} (hstep : step S w a = some w') : Moves S w a.call a.lost w' := by
  cases a with
  | advance i now random => exact advance_moves hstep
  | lose i now random =>
    simp only [step, lose] at hstep
    split at hstep
    · rename_i hcommits
      obtain ⟨v, hv, rfl⟩ := Option.map_eq_some_iff.mp hstep
      exact lose_moves (advance_moves hv) hcommits
    · cases hstep
  | visit i h =>
    simp only [step] at hstep
    cases hphase : w.phase i with
    | updating r revokedAt todo staged =>
      simp only [hphase, visit] at hstep
      split at hstep
      · rename_i hfree
        split at hstep <;> obtain rfl := Option.some.inj hstep
        · rename_i hactive
          exact .stage r revokedAt todo staged h hphase hfree.1 hfree.2 hactive
        · rename_i hactive
          exact .goes _ (hphase ▸ .skip r revokedAt todo staged h hactive hfree.1)
      · cases hstep
    | _ =>
      simp only [hphase, visit, reduceCtorEq] at hstep
  | abort i =>
    simp only [step] at hstep
    split at hstep
    · cases hstep
    · rename_i hended
      obtain rfl := Option.some.inj hstep
      exact .leaves _ (.aborted _ (Bool.eq_false_iff.mpr hended))

/-- Rows stay, and revoked rows stay revoked. -/
theorem Moves.later (h : Moves S w i lost w') : w.tokens.Later w'.tokens := by
  cases h with
  | issue userId epoch now raw tokens hphase hinsert => exact RefreshTokens.later_insert hinsert
  | exchange record read now raw tokens hphase hinsert =>
    exact (RefreshTokens.later_revoke _ _ _).trans (RefreshTokens.later_insert hinsert)
  | logout | reused | changed => exact RefreshTokens.later_revoke _ _ _
  | _ => exact RefreshTokens.Later.refl _

end inversion

end Apm.Auth
