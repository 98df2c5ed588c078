import Apm.Lib.Calls
import Apm.Lib.Run
import Mathlib.Data.List.Nodup

/-!
# Registering once

`register` looks for its email, hashes the password, and writes the user and the first refresh token
in one transaction. Two registrations of one email may both find it free; the unique index on the
lowercased email decides between them, and a flush waits there for the transaction that has flushed
the same email.

The requests interleave statement by statement on the database. Any of them may raise or be
cancelled at any point, and a commit may be applied although its caller hears of a failure.
-/

namespace Apm.Auth.Register

open Apm.Lib

set_option autoImplicit false

structure Request where
  email : String
  password : String
  deriving DecidableEq, Repr

/-- A row of users. -/
structure User where
  id : Nat
  email : String
  hashedPassword : String
  deriving DecidableEq, Repr

inductive Phase where
  /-- `get_by_email` -/
  | looking
  /-- `hash_password` -/
  | hashing
  /-- the flush of the user -/
  | inserting (hashedPassword : String)
  /-- the user is flushed, and not committed; `refresh`, `_issue_tokens` -/
  | flushed (user : User)
  /-- committed; `_send_mail` -/
  | mailing (user : User) (tokenHash : String)
  | answered (user : User) (tokenHash : String)
  /-- committed, but the caller has an exception -/
  | lost (user : User) (tokenHash : String)
  /-- `EmailAlreadyExistsError` -/
  | taken
  /-- another exception, or a cancellation; rolled back -/
  | failed
  deriving DecidableEq, Repr

/-- What a call has committed. -/
def Phase.account : Phase → Option (User × String)
  | .mailing user tokenHash | .answered user tokenHash | .lost user tokenHash => some (user, tokenHash)
  | _ => none

/-- What a call has flushed and not committed. -/
def Phase.pending : Phase → Option User
  | .flushed user => some user
  | _ => none

structure World where
  /-- the committed rows -/
  users : List User
  /-- the committed refresh tokens, with their users -/
  tokens : List (Nat × String)
  /-- the sequence of the user ids -/
  nextId : Nat
  calls : List (Call Request Phase)

inductive Event where
  | arrive (request : Request)
  | looked (call : Nat)
  | hashed (call : Nat) (hashedPassword : String)
  | inserted (call : Nat)
  /-- the commit with the refresh token, and whether the caller hears of it -/
  | committed (call : Nat) (tokenHash : String) (told : Bool)
  | mailed (call : Nat)
  /-- what the call awaits raises, or the call is cancelled -/
  | dropped (call : Nat)

namespace World

def init : World := ⟨[], [], 0, []⟩

variable (w : World)

def phase (i : Nat) : Option Phase := w.calls[i]?.map Call.phase

def account (i : Nat) : Option (User × String) := (w.phase i).bind Phase.account

def pending (i : Nat) : Option User := (w.phase i).bind Phase.pending

def move (i : Nat) (p : Phase) : World := { w with calls := Call.setPhase w.calls i p }

def commit (i : Nat) (user : User) (tokenHash : String) (p : Phase) : World :=
  { w.move i p with users := w.users ++ [user], tokens := w.tokens ++ [(user.id, tokenHash)] }

end World

section model

/- `normalize_email`, and what the unique index lowers an email to -/
variable (normalizeEmail lower : String → String)

namespace World

variable (w : World)

/-- The normalized email of a call. -/
def email (i : Nat) : Option String := w.calls[i]?.map fun c => normalizeEmail c.arg.email

/-- The committed entries of the unique index. -/
def keys : List String := w.users.map fun user => lower user.email

/-- Its entries that no transaction has committed yet. -/
def pendingKeys : List String :=
  w.calls.filterMap fun c => c.phase.pending.map fun user => lower user.email

/-- The flush of a user: it fails where the index has the email, and waits for a transaction that
may still commit it. -/
def insert (i : Nat) (email hashedPassword : String) : Option World :=
  if lower email ∈ w.keys lower then some (w.move i .taken)
  else if lower email ∈ w.pendingKeys lower then none
  else some { w.move i (.flushed ⟨w.nextId, email, hashedPassword⟩) with nextId := w.nextId + 1 }

end World

def step (w : World) : Event → Option World
  | .arrive request => some { w with calls := w.calls ++ [⟨request, .looking⟩] }
  | .looked i =>
    match w.phase i, w.email normalizeEmail i with
    | some .looking, some email =>
      some (w.move i (if email ∈ w.users.map User.email then .taken else .hashing))
    | _, _ => none
  | .hashed i hashedPassword =>
    if w.phase i = some .hashing then some (w.move i (.inserting hashedPassword)) else none
  | .inserted i =>
    match w.phase i, w.email normalizeEmail i with
    | some (.inserting hashedPassword), some email => w.insert lower i email hashedPassword
    | _, _ => none
  | .committed i tokenHash told =>
    match w.phase i with
    | some (.flushed user) =>
      some (w.commit i user tokenHash (if told then .mailing user tokenHash else .lost user tokenHash))
    | _ => none
  | .mailed i =>
    match w.phase i with
    | some (.mailing user tokenHash) => some (w.move i (.answered user tokenHash))
    | _ => none
  | .dropped i =>
    match w.phase i with
    | some .looking | some .hashing | some (.inserting _) | some (.flushed _) =>
      some (w.move i .failed)
    | some (.mailing user tokenHash) => some (w.move i (.lost user tokenHash))
    | _ => none

/-! ## What the index keeps -/

structure Inv (w : World) : Prop where
  keys : (w.keys lower).Nodup
  ids : (w.users.map User.id).Nodup
  below : ∀ user ∈ w.users, user.id < w.nextId
  pending : ∀ i user, w.pending i = some user → w.email normalizeEmail i = some user.email ∧
    user.id < w.nextId ∧ user.id ∉ w.users.map User.id ∧ lower user.email ∉ w.keys lower
  apart : ∀ i j u v, w.pending i = some u → w.pending j = some v → i ≠ j →
    u.id ≠ v.id ∧ lower u.email ≠ lower v.email
  accounts : ∀ i user tokenHash, w.account i = some (user, tokenHash) →
    w.email normalizeEmail i = some user.email ∧ user ∈ w.users ∧ (user.id, tokenHash) ∈ w.tokens
  once : ∀ i j user t t', w.account i = some (user, t) → w.account j = some (user, t') → i = j
  owned : ∀ user ∈ w.users, ∃ i tokenHash, w.account i = some (user, tokenHash)
  taken : ∀ i, w.phase i = some .taken →
    ∃ email, w.email normalizeEmail i = some email ∧ lower email ∈ w.keys lower

end model

/-! ## One step -/

section steps

variable {normalizeEmail lower : String → String} {w w' : World} {i j : Nat} {p q : Phase}
  {user : User}

theorem phase_move : (w.move i p).phase j =
    if i = j then (w.phase j).map fun _ => p else w.phase j := by
  rw [World.phase, World.move, Call.getElem?_setPhase, World.phase]
  split
  · rw [Option.map_map, Option.map_map]
    rfl
  · rfl

@[simp] theorem email_move :
    (w.move i p).email normalizeEmail j = w.email normalizeEmail j := by
  have hsame : (Call.setPhase w.calls i p).map Call.arg = w.calls.map Call.arg :=
    Call.map_arg_setPhase
  have hargs := congrArg (fun args => args[j]?) hsame
  simp only [List.getElem?_map] at hargs
  rw [World.email, World.move, World.email]
  have hemail (c : Option (Call Request Phase)) : (c.map fun c => normalizeEmail c.arg.email) =
      (c.map Call.arg).map fun request => normalizeEmail request.email := by
    rw [Option.map_map]
    rfl
  rw [hemail, hargs, ← hemail]

theorem account_move (hi : w.phase i = some q) : (w.move i p).account j =
    if i = j then p.account else w.account j := by
  rw [World.account, phase_move]
  split_ifs with hij
  · rw [← hij, hi]
    rfl
  · rfl

theorem pending_move (hi : w.phase i = some q) : (w.move i p).pending j =
    if i = j then p.pending else w.pending j := by
  rw [World.pending, phase_move]
  split_ifs with hij
  · rw [← hij, hi]
    rfl
  · rfl

/-- A call that neither flushes nor commits. -/
theorem inv_move (hw : Inv normalizeEmail lower w) (hi : w.phase i = some q)
    (haccount : p.account = q.account) (hpending : p.pending = none)
    (htaken : p = .taken → ∃ email, w.email normalizeEmail i = some email ∧ lower email ∈ w.keys lower) :
    Inv normalizeEmail lower (w.move i p) := by
  have hsame (j : Nat) : (w.move i p).account j = w.account j := by
    rw [account_move hi]
    split_ifs with hij
    · rw [haccount, World.account, ← hij, hi]
      rfl
    · rfl
  have hfewer {j : Nat} {user : User} (hj : (w.move i p).pending j = some user) :
      w.pending j = some user := by
    rw [pending_move hi] at hj
    split_ifs at hj
    · rw [hpending] at hj
      cases hj
    · exact hj
  refine ⟨hw.keys, hw.ids, hw.below, fun j user hj => ?_, fun j k u v hj hk => ?_,
    fun j user tokenHash hj => ?_, fun j k user t t' hj hk => ?_, fun user hmem => ?_, fun j hj => ?_⟩
  · rw [email_move]
    exact hw.pending j user (hfewer hj)
  · exact hw.apart j k u v (hfewer hj) (hfewer hk)
  · rw [email_move]
    exact hw.accounts j user tokenHash (hsame j ▸ hj)
  · exact hw.once j k user t t' (hsame j ▸ hj) (hsame k ▸ hk)
  · obtain ⟨j, tokenHash, hj⟩ := hw.owned user hmem
    exact ⟨j, tokenHash, (hsame j).trans hj⟩
  · rw [email_move]
    rw [phase_move] at hj
    split_ifs at hj with hij
    · rw [← hij, hi] at hj
      exact hij ▸ htaken (Option.some.inj hj)
    · exact hw.taken j hj

theorem pendingKeys_of_pending (h : w.pending i = some user) :
    lower user.email ∈ w.pendingKeys lower := by
  obtain ⟨p, hp, hpending⟩ := Option.bind_eq_some_iff.mp h
  obtain ⟨c, hc, rfl⟩ := Option.map_eq_some_iff.mp hp
  exact List.mem_filterMap.mpr ⟨c, List.mem_of_getElem? hc, by rw [hpending]; rfl⟩

theorem pending_of_pendingKeys {key : String} (h : key ∈ w.pendingKeys lower) :
    ∃ i user, w.phase i = some (.flushed user) ∧ lower user.email = key := by
  obtain ⟨c, hc, hkey⟩ := List.mem_filterMap.mp h
  obtain ⟨user, huser, rfl⟩ := Option.map_eq_some_iff.mp hkey
  obtain ⟨i, hi⟩ := List.mem_iff_getElem?.mp hc
  refine ⟨i, user, ?_, rfl⟩
  rw [World.phase, hi, Option.map_some]
  cases hphase : c.phase with
  | flushed u =>
    rw [hphase] at huser
    rw [Option.some.inj huser]
  | _ =>
    rw [hphase] at huser
    cases huser

/-- The flush that the index admits. -/
theorem inv_flush {hashedPassword email : String} (hw : Inv normalizeEmail lower w)
    (hi : w.phase i = some (.inserting hashedPassword)) (hemail : w.email normalizeEmail i = some email)
    (hkey : lower email ∉ w.keys lower) (hfree : lower email ∉ w.pendingKeys lower) :
    Inv normalizeEmail lower
      { w.move i (.flushed ⟨w.nextId, email, hashedPassword⟩) with nextId := w.nextId + 1 } := by
  have haccount (j : Nat) : (w.move i (.flushed ⟨w.nextId, email, hashedPassword⟩)).account j =
      w.account j := by
    rw [account_move hi]
    split_ifs with hij
    · rw [World.account, ← hij, hi]
      rfl
    · rfl
  have hnew {j : Nat} {u : User}
      (hj : (w.move i (.flushed ⟨w.nextId, email, hashedPassword⟩)).pending j = some u) :
      (j = i ∧ u = ⟨w.nextId, email, hashedPassword⟩) ∨ w.pending j = some u := by
    rw [pending_move hi] at hj
    split_ifs at hj with hij
    · exact .inl ⟨hij.symm, (Option.some.inj hj).symm⟩
    · exact .inr hj
  have hunused : w.nextId ∉ w.users.map User.id := by
    intro hmem
    obtain ⟨u, hu, hid⟩ := List.mem_map.mp hmem
    exact absurd (hw.below u hu) (by omega)
  -- against what the other calls have flushed
  have hfresh {j : Nat} {u : User} (hj : w.pending j = some u) :
      u.id ≠ w.nextId ∧ lower u.email ≠ lower email :=
    ⟨Nat.ne_of_lt (hw.pending j u hj).2.1, fun heq => hfree (heq ▸ pendingKeys_of_pending hj)⟩
  refine ⟨hw.keys, hw.ids, fun u hu => Nat.lt_succ_of_lt (hw.below u hu), fun j u hj => ?_,
    fun j k u v hj hk hne => ?_, fun j u tokenHash hj => ?_, fun j k u t t' hj hk => ?_,
    fun u hu => ?_, fun j hj => ?_⟩
  · obtain ⟨rfl, rfl⟩ | hj := hnew hj
    · exact ⟨email_move.trans hemail, Nat.lt_succ_self _, hunused, hkey⟩
    · obtain ⟨hown, hlt, hid, hnot⟩ := hw.pending j u hj
      exact ⟨email_move.trans hown, Nat.lt_succ_of_lt hlt, hid, hnot⟩
  · obtain ⟨hji, rfl⟩ | hold := hnew hj
    · obtain ⟨hki, -⟩ | hother := hnew hk
      · exact absurd (hji.trans hki.symm) hne
      · exact ⟨(hfresh hother).1.symm, (hfresh hother).2.symm⟩
    · obtain ⟨-, rfl⟩ | hother := hnew hk
      · exact hfresh hold
      · exact hw.apart j k u v hold hother hne
  · obtain ⟨hown, hmem⟩ := hw.accounts j u tokenHash ((haccount j).symm.trans hj)
    exact ⟨email_move.trans hown, hmem⟩
  · exact hw.once j k u t t' ((haccount j).symm.trans hj) ((haccount k).symm.trans hk)
  · obtain ⟨j, tokenHash, hj⟩ := hw.owned u hu
    exact ⟨j, tokenHash, (haccount j).trans hj⟩
  · have hmoved : (w.move i (.flushed ⟨w.nextId, email, hashedPassword⟩)).phase j = some .taken := hj
    rw [phase_move] at hmoved
    split_ifs at hmoved with hij
    · rw [← hij, hi] at hmoved
      cases hmoved
    · obtain ⟨e, he, hmem⟩ := hw.taken j hmoved
      exact ⟨e, email_move.trans he, hmem⟩

/-- The commit of a flushed user with its token. -/
theorem inv_commit {tokenHash : String} (hw : Inv normalizeEmail lower w)
    (hi : w.phase i = some (.flushed user)) (haccount : p.account = some (user, tokenHash))
    (hpending : p.pending = none) : Inv normalizeEmail lower (w.commit i user tokenHash p) := by
  have hflushed : w.pending i = some user := by rw [World.pending, hi]; rfl
  obtain ⟨hown, hlt, hid, hkey⟩ := hw.pending i user hflushed
  have hnone : w.account i = none := by rw [World.account, hi]; rfl
  have hnot : user ∉ w.users := fun hmem => hid (List.mem_map_of_mem hmem)
  have hkeys : (w.commit i user tokenHash p).keys lower = w.keys lower ++ [lower user.email] :=
    List.map_append
  have hcases {j : Nat} {u : User} {t : String}
      (hj : (w.commit i user tokenHash p).account j = some (u, t)) :
      (j = i ∧ u = user ∧ t = tokenHash) ∨ w.account j = some (u, t) := by
    have hmoved : (w.move i p).account j = some (u, t) := hj
    rw [account_move hi, haccount] at hmoved
    split_ifs at hmoved with hij
    · obtain ⟨rfl, rfl⟩ := Prod.mk.inj (Option.some.inj hmoved)
      exact .inl ⟨hij.symm, rfl, rfl⟩
    · exact .inr hmoved
  have hothers {j : Nat} {u : User}
      (hj : (w.commit i user tokenHash p).pending j = some u) : j ≠ i ∧ w.pending j = some u := by
    have hmoved : (w.move i p).pending j = some u := hj
    rw [pending_move hi, hpending] at hmoved
    split_ifs at hmoved with hij
    exact ⟨Ne.symm hij, hmoved⟩
  refine ⟨?_, ?_, fun u hu => ?_, fun j u hj => ?_, fun j k u v hj hk => ?_, fun j u t hj => ?_,
    fun j k u t t' hj hk => ?_, fun u hu => ?_, fun j hj => ?_⟩
  · rw [hkeys]
    exact List.nodup_append.mpr ⟨hw.keys, List.nodup_singleton _, fun a ha b hb heq =>
      hkey (List.mem_singleton.mp hb ▸ heq ▸ ha)⟩
  · rw [World.commit, List.map_append]
    exact List.nodup_append.mpr ⟨hw.ids, List.nodup_singleton _, fun a ha b hb heq =>
      hid (List.mem_singleton.mp hb ▸ heq ▸ ha)⟩
  · rcases List.mem_append.mp hu with hu | hu
    · exact hw.below u hu
    · exact List.mem_singleton.mp hu ▸ hlt
  · obtain ⟨hne, hj⟩ := hothers hj
    obtain ⟨hemail, hbelow, hfree, hnew⟩ := hw.pending j u hj
    obtain ⟨hids, hlower⟩ := hw.apart j i u user hj hflushed hne
    refine ⟨email_move.trans hemail, hbelow, fun hmem => ?_, fun hmem => ?_⟩
    · rw [World.commit, List.map_append] at hmem
      rcases List.mem_append.mp hmem with hmem | hmem
      · exact hfree hmem
      · exact hids (List.mem_singleton.mp hmem)
    · rw [hkeys] at hmem
      rcases List.mem_append.mp hmem with hmem | hmem
      · exact hnew hmem
      · exact hlower (List.mem_singleton.mp hmem)
  · exact hw.apart j k u v (hothers hj).2 (hothers hk).2
  · obtain ⟨rfl, rfl, rfl⟩ | hj := hcases hj
    · exact ⟨email_move.trans hown, List.mem_append_right _ List.mem_cons_self,
        List.mem_append_right _ List.mem_cons_self⟩
    · obtain ⟨hemail, hmem, htoken⟩ := hw.accounts j u t hj
      exact ⟨email_move.trans hemail, List.mem_append_left _ hmem, List.mem_append_left _ htoken⟩
  · obtain ⟨hji, rfl, -⟩ | hold := hcases hj
    · obtain ⟨hki, -⟩ | hother := hcases hk
      · exact hji.trans hki.symm
      · exact absurd (hw.accounts k u t' hother).2.1 hnot
    · obtain ⟨-, rfl, -⟩ | hother := hcases hk
      · exact absurd (hw.accounts j u t hold).2.1 hnot
      · exact hw.once j k u t t' hold hother
  · rcases List.mem_append.mp hu with hu | hu
    · obtain ⟨j, t, hj⟩ := hw.owned u hu
      refine ⟨j, t, ?_⟩
      have hij : i ≠ j := fun hij => by rw [← hij, hnone] at hj; cases hj
      exact ((account_move hi).trans (if_neg hij)).trans hj
    · obtain rfl := List.mem_singleton.mp hu
      exact ⟨i, tokenHash, ((account_move hi).trans (if_pos rfl)).trans haccount⟩
  · have hmoved : (w.move i p).phase j = some .taken := hj
    rw [phase_move] at hmoved
    split_ifs at hmoved with hij
    · rw [← hij, hi] at hmoved
      obtain rfl : p = .taken := Option.some.inj hmoved
      cases haccount
    · obtain ⟨e, he, hmem⟩ := hw.taken j hmoved
      exact ⟨e, email_move.trans he, hkeys ▸ List.mem_append_left _ hmem⟩

theorem inv_arrive (hw : Inv normalizeEmail lower w) (request : Request) :
    Inv normalizeEmail lower { w with calls := w.calls ++ [⟨request, .looking⟩] } := by
  -- the call that arrives has written nothing
  have hphase {j : Nat} {p : Phase}
      (hj : World.phase { w with calls := w.calls ++ [⟨request, .looking⟩] } j = some p) :
      p = .looking ∨ w.phase j = some p := by
    rw [World.phase, List.getElem?_append] at hj
    split_ifs at hj
    · exact .inr hj
    · obtain ⟨c, hc, rfl⟩ := Option.map_eq_some_iff.mp hj
      rw [List.mem_singleton.mp (List.mem_of_getElem? hc)]
      exact .inl rfl
  have haccount {j : Nat} {a : User × String}
      (hj : World.account { w with calls := w.calls ++ [⟨request, .looking⟩] } j = some a) :
      w.account j = some a := by
    obtain ⟨p, hp, ha⟩ := Option.bind_eq_some_iff.mp hj
    obtain rfl | hp := hphase hp
    · cases ha
    · exact Option.bind_eq_some_iff.mpr ⟨p, hp, ha⟩
  have hpending {j : Nat} {u : User}
      (hj : World.pending { w with calls := w.calls ++ [⟨request, .looking⟩] } j = some u) :
      w.pending j = some u := by
    obtain ⟨p, hp, hu⟩ := Option.bind_eq_some_iff.mp hj
    obtain rfl | hp := hphase hp
    · cases hu
    · exact Option.bind_eq_some_iff.mpr ⟨p, hp, hu⟩
  have hkept {j : Nat} {c : Call Request Phase} (hc : w.calls[j]? = some c) :
      (w.calls ++ [⟨request, .looking⟩])[j]? = some c := by
    rw [List.getElem?_append_left (List.getElem?_eq_some_iff.mp hc).1, hc]
  have hemail {j : Nat} {email : String} (hj : w.email normalizeEmail j = some email) :
      World.email normalizeEmail { w with calls := w.calls ++ [⟨request, .looking⟩] } j =
        some email := by
    obtain ⟨c, hc, rfl⟩ := Option.map_eq_some_iff.mp hj
    rw [World.email, hkept hc]
    rfl
  refine ⟨hw.keys, hw.ids, hw.below, fun j u hj => ?_, fun j k u v hj hk => ?_,
    fun j u t hj => ?_, fun j k u t t' hj hk => ?_, fun u hu => ?_, fun j hj => ?_⟩
  · obtain ⟨hown, hrest⟩ := hw.pending j u (hpending hj)
    exact ⟨hemail hown, hrest⟩
  · exact hw.apart j k u v (hpending hj) (hpending hk)
  · obtain ⟨hown, hrest⟩ := hw.accounts j u t (haccount hj)
    exact ⟨hemail hown, hrest⟩
  · exact hw.once j k u t t' (haccount hj) (haccount hk)
  · obtain ⟨j, t, hj⟩ := hw.owned u hu
    obtain ⟨p, hp, ha⟩ := Option.bind_eq_some_iff.mp hj
    obtain ⟨c, hc, rfl⟩ := Option.map_eq_some_iff.mp hp
    refine ⟨j, t, ?_⟩
    rw [World.account, World.phase, hkept hc]
    exact ha
  · obtain hnew | hj := hphase hj
    · cases hnew
    · obtain ⟨email, hown, hmem⟩ := hw.taken j hj
      exact ⟨email, hemail hown, hmem⟩

theorem inv_insert {hashedPassword email : String} (hw : Inv normalizeEmail lower w)
    (hi : w.phase i = some (.inserting hashedPassword)) (hemail : w.email normalizeEmail i = some email)
    (h : w.insert lower i email hashedPassword = some w') : Inv normalizeEmail lower w' := by
  rw [World.insert] at h
  split_ifs at h with hkey hwaits
  · obtain rfl := Option.some.inj h
    exact inv_move hw hi rfl rfl fun _ => ⟨email, hemail, hkey⟩
  · obtain rfl := Option.some.inj h
    exact inv_flush hw hi hemail hkey hwaits

theorem inv_step {e : Event} (hw : Inv normalizeEmail lower w)
    (h : step normalizeEmail lower w e = some w') : Inv normalizeEmail lower w' := by
  cases e with
  | arrive request =>
    obtain rfl := Option.some.inj h
    exact inv_arrive hw request
  | looked i =>
    simp only [step] at h
    split at h
    · rename_i email hi hemail
      obtain rfl := Option.some.inj h
      split_ifs with htaken
      · obtain ⟨u, hu, rfl⟩ := List.mem_map.mp htaken
        exact inv_move hw hi rfl rfl fun _ => ⟨u.email, hemail, List.mem_map_of_mem hu⟩
      · exact inv_move hw hi rfl rfl fun heq => (by cases heq)
    · cases h
  | hashed i hashedPassword =>
    simp only [step] at h
    split_ifs at h with hi
    obtain rfl := Option.some.inj h
    exact inv_move hw hi rfl rfl fun heq => (by cases heq)
  | inserted i =>
    simp only [step] at h
    split at h
    · rename_i hi hemail
      exact inv_insert hw hi hemail h
    · cases h
  | committed i tokenHash told =>
    simp only [step] at h
    split at h
    · rename_i user hi
      obtain rfl := Option.some.inj h
      cases told with
      | true => exact inv_commit hw hi rfl rfl
      | false => exact inv_commit hw hi rfl rfl
    · cases h
  | mailed i =>
    simp only [step] at h
    split at h
    · rename_i hi
      obtain rfl := Option.some.inj h
      exact inv_move hw hi rfl rfl fun heq => (by cases heq)
    · cases h
  | dropped i =>
    simp only [step] at h
    split at h
    -- before the commit nothing is kept, behind it the account stays
    · rename_i hi
      obtain rfl := Option.some.inj h
      exact inv_move hw hi rfl rfl fun heq => (by cases heq)
    · rename_i hi
      obtain rfl := Option.some.inj h
      exact inv_move hw hi rfl rfl fun heq => (by cases heq)
    · rename_i hi
      obtain rfl := Option.some.inj h
      exact inv_move hw hi rfl rfl fun heq => (by cases heq)
    · rename_i hi
      obtain rfl := Option.some.inj h
      exact inv_move hw hi rfl rfl fun heq => (by cases heq)
    · rename_i hi
      obtain rfl := Option.some.inj h
      exact inv_move hw hi rfl rfl fun heq => (by cases heq)
    · cases h

theorem inv_init : Inv normalizeEmail lower World.init :=
  ⟨List.nodup_nil, List.nodup_nil, fun _ h => absurd h List.not_mem_nil, fun _ _ h => (by cases h),
    fun _ _ _ _ h => (by cases h), fun _ _ _ h => (by cases h), fun _ _ _ _ _ h => (by cases h),
    fun _ h => absurd h List.not_mem_nil, fun _ h => (by cases h)⟩

theorem inv_of_run {es : List Event} (h : run (step normalizeEmail lower) World.init es = some w) :
    Inv normalizeEmail lower w :=
  run_preserves (fun _ _ _ => inv_step) inv_init h

/-- Two accounts of one email are one account of one call. -/
theorem Inv.owner_unique (hw : Inv normalizeEmail lower w) {u v : User} {t t' : String}
    (hi : w.account i = some (u, t)) (hj : w.account j = some (v, t'))
    (hkey : lower u.email = lower v.email) : i = j := by
  have hu := (hw.accounts i u t hi).2.1
  have hv := (hw.accounts j v t' hj).2.1
  obtain rfl : u = v := List.inj_on_of_nodup_map hw.keys hu hv hkey
  exact hw.once i j u t t' hi hj

/-- A call that is answered, with an account or without, has its email registered. -/
theorem Inv.registered {email : String} (hw : Inv normalizeEmail lower w)
    (hemail : w.email normalizeEmail i = some email)
    (hi : w.phase i = some .taken ∨ (w.account i).isSome) : lower email ∈ w.keys lower := by
  obtain hi | hi := hi
  · obtain ⟨e, he, hmem⟩ := hw.taken i hi
    rw [hemail] at he
    exact Option.some.inj he ▸ hmem
  · obtain ⟨⟨user, tokenHash⟩, haccount⟩ := Option.isSome_iff_exists.mp hi
    obtain ⟨hown, hmem, -⟩ := hw.accounts i user tokenHash haccount
    rw [hemail] at hown
    exact Option.some.inj hown ▸ List.mem_map_of_mem hmem

/-- A flush that waits has a transaction to wait for. -/
theorem waits_for_pending {hashedPassword : String}
    (hi : w.phase i = some (.inserting hashedPassword))
    (h : step normalizeEmail lower w (.inserted i) = none) :
    ∃ j user, w.phase j = some (.flushed user) ∧
      (w.email normalizeEmail i).map lower = some (lower user.email) := by
  obtain ⟨c, hc, -⟩ := Option.map_eq_some_iff.mp hi
  have hemail : w.email normalizeEmail i = some (normalizeEmail c.arg.email) := by
    rw [World.email, hc]
    rfl
  simp only [step, hi, hemail, World.insert] at h
  split_ifs at h with hkey hwaits
  obtain ⟨j, user, hj, hsame⟩ := pending_of_pendingKeys hwaits
  exact ⟨j, user, hj, by rw [hemail, Option.map_some, hsame]⟩

end steps

/-- **An email is registered once, and its registrant can log on.** In every interleaving of
registrations, with failures, cancellations and lost commits at any point: no two accounts share an
email; each account belongs to a call that asked for its email and carries that call's first
refresh token, so that a failed call leaves nothing behind; when a call is answered with an account
or told that its email is taken, exactly one call has the account; and a flush that waits, waits for
a transaction with the same email that is still open. -/
theorem registered_once {normalizeEmail lower : String → String} {es : List Event} {w : World}
    (h : run (step normalizeEmail lower) World.init es = some w) :
    ((w.keys lower).Nodup ∧ (w.users.map User.id).Nodup) ∧
      (∀ user ∈ w.users, ∃ i tokenHash, w.account i = some (user, tokenHash) ∧
        w.email normalizeEmail i = some user.email ∧ (user.id, tokenHash) ∈ w.tokens) ∧
      (∀ i email, w.email normalizeEmail i = some email →
        (w.phase i = some .taken ∨ (w.account i).isSome) →
        ∃! j, ∃ user tokenHash,
          w.account j = some (user, tokenHash) ∧ lower user.email = lower email) ∧
      ∀ i hashedPassword, w.phase i = some (.inserting hashedPassword) →
        step normalizeEmail lower w (.inserted i) = none →
        ∃ j user, w.phase j = some (.flushed user) ∧
          (w.email normalizeEmail i).map lower = some (lower user.email) := by
  have hw := inv_of_run h
  refine ⟨⟨hw.keys, hw.ids⟩, fun user huser => ?_, fun i email hemail hi => ?_,
    fun i hashedPassword hi hwaits => waits_for_pending hi hwaits⟩
  · obtain ⟨i, tokenHash, haccount⟩ := hw.owned user huser
    obtain ⟨hemail, -, htoken⟩ := hw.accounts i user tokenHash haccount
    exact ⟨i, tokenHash, haccount, hemail, htoken⟩
  · obtain ⟨user, huser, hkey⟩ := List.mem_map.mp (hw.registered hemail hi)
    obtain ⟨j, tokenHash, haccount⟩ := hw.owned user huser
    refine ⟨j, ⟨user, tokenHash, haccount, hkey⟩, ?_⟩
    rintro k ⟨v, t, hk, hv⟩
    exact hw.owner_unique hk haccount (hv.trans hkey.symm)

/-- `lower`, of letters without an accent. -/
def asciiLower (email : String) : String := String.ofList (email.toList.map Char.toLower)

/-- One email, spelled in two ways. -/
def sameEmailTwice : List Event :=
  [.arrive ⟨"Ann@x.com", "one"⟩, .arrive ⟨"ann@X.com", "two"⟩, .looked 0, .looked 1,
    .hashed 0 "argon2-one", .hashed 1 "argon2-two", .inserted 1, .committed 1 "token-two" true,
    .inserted 0, .mailed 1]

theorem registered_once_sameEmailTwice :
    ∃ w, run (step asciiLower asciiLower) World.init sameEmailTwice = some w ∧
      w.phase 0 = some .taken ∧ ∃! j, ∃ user tokenHash, w.account j = some (user, tokenHash) ∧
        asciiLower user.email = asciiLower "ann@x.com" := by
  have hcheck : (run (step asciiLower asciiLower) World.init sameEmailTwice).map
      (fun w => decide (w.phase 0 = some .taken ∧ w.email asciiLower 0 = some "ann@x.com")) =
        some true := by decide +kernel
  obtain ⟨w, hrun, hw⟩ := exists_run_of_check _ _ _ _ hcheck
  obtain ⟨htaken, hemail⟩ := of_decide_eq_true hw
  obtain ⟨-, -, hone, -⟩ := registered_once hrun
  exact ⟨w, hrun, htaken, hone 0 "ann@x.com" hemail (.inl htaken)⟩

end Apm.Auth.Register
