import Apm.Conversation.Ownership
import Mathlib.Data.Fintype.Basic

/-!
# The turn lock of a session

Between its lock and the release a request reads the base transcript and
rewrites the whole column. While the lock row of a session has one holder and
its sections end before they can be reclaimed, the transcript grows by one
exchange for each committed turn. The lock row is a row of the idempotency
table: a request whose `Idempotency-Key` is the text of a turn lock can take it
and give it back as a key.
-/

namespace Apm.Conversation

open Apm.Core Apm.Lib Apm.Idempotency

set_option autoImplicit false

variable {ι : Type} [DecidableEq ι]

/-- A claim that is still held is not older than `STALE_CLAIM_SECONDS`. -/
def withinStale (clock : Instant) : Tenure Instant → Bool
  | .held stamp => decide (clock ≤ stamp + staleClaim)
  | _ => true

/-- No section under the lock row `r` has lasted longer than a live claim. -/
def SectionsEnd (S : Setup ι) (r : Ref) (w : World ι) : Prop :=
  ∀ i, S.ref (i, .lock) = r → (w.phase i).acts (S.request i).keyed .lock = true →
    withinStale w.clock (w.tenure (i, .lock)) = true

instance [Fintype ι] (S : Setup ι) (r : Ref) (w : World ι) : Decidable (SectionsEnd S r w) :=
  inferInstanceAs (Decidable (∀ _, _))

/-- A request that claimed the row `r` as its key, and was reclaimed, finalises it
only when that changes nothing. -/
def keyRightful (S : Setup ι) (r : Ref) (w : World ι) : Action ι → Bool
  | .finalise i =>
    match w.phase i with
    | .finish (op :: _) _ => decide (op.role = .key → S.ref (i, .key) = r →
        w.tenure (i, .key) = .reclaimed → op.harmless (w.table r) = true)
    | _ => true
  | _ => true

/-- The messages of the committed turns of a session, in commit order. -/
def exchanges (sessionId : Int) (commits : List (Int × String × String)) : List Message :=
  commits.flatMap fun c => if c.1 = sessionId then exchange c.2.1 c.2.2 else []

theorem exchanges_append (sessionId : Int) (commits : List (Int × String × String))
    (c : Int × String × String) : exchanges sessionId (commits ++ [c]) =
      exchanges sessionId commits ++ if c.1 = sessionId then exchange c.2.1 c.2.2 else [] := by
  simp [exchanges]

/-- Below the storage cap nothing ages out. -/
def BelowCap (cap : Int) (turns : List Message) : Prop := cap ≤ 0 ∨ (turns.length : Int) ≤ cap

theorem appendTurn_belowCap {cap : Int} {turns : List Message} {text reply : String}
    (h : BelowCap cap (turns ++ exchange text reply)) :
    appendTurn cap turns text reply = turns ++ exchange text reply := by
  change (if 0 < cap ∧ cap < ((turns ++ exchange text reply).length : Int) then _
    else turns ++ exchange text reply) = _
  rw [if_neg]
  rintro ⟨hpos, hlt⟩
  rcases h with h | h <;> omega

theorem BelowCap.left {cap : Int} {turns more : List Message} (h : BelowCap cap (turns ++ more)) :
    BelowCap cap turns := by
  rcases h with h | h
  · exact .inl h
  · rw [List.length_append] at h
    exact .inr (by omega)

/-! ## One section at a time -/

/-- The state of a session under its lock row `r`: the sections of the session are
those of its owner, they hold the row, and each has the stored transcript as its
base. -/
structure Serialised (S : Setup ι) (sessionId : Int) (r : Ref) (start : List Message)
    (w : World ι) : Prop extends Disciplined S w where
  sole : Sole S.ref r (Pending w.table r) w.tenure
  kept : ∀ i, S.ref (i, .lock) = r → (w.phase i).acts (S.request i).keyed .lock = true →
    w.tenure (i, .lock) ≠ .reclaimed
  ends : SectionsEnd S r w
  base : ∀ i base, (S.request i).sessionId = sessionId → (w.phase i).base = some base →
    S.ref (i, .lock) = r ∧ base = w.transcripts sessionId
  content : BelowCap S.transcriptMaxMessages (start ++ exchanges sessionId w.commits) →
    w.transcripts sessionId = start ++ exchanges sessionId w.commits

omit [DecidableEq ι] in
/-- A section holds its lock row. -/
theorem Serialised.held {S : Setup ι} {sessionId : Int} {r : Ref} {start : List Message}
    {w : World ι} (h : Serialised S sessionId r start w) {i : ι} (hr : S.ref (i, .lock) = r)
    (hacts : (w.phase i).acts (S.request i).keyed .lock = true) :
    ∃ t, w.tenure (i, .lock) = .held t ∧ w.clock ≤ t + staleClaim := by
  cases htenure : w.tenure (i, .lock) with
  | free => exact absurd htenure (h.acts i .lock hacts)
  | reclaimed => exact absurd htenure (h.kept i hr hacts)
  | held t =>
    have hends := h.ends i hr hacts
    rw [htenure] at hends
    exact ⟨t, rfl, of_decide_eq_true hends⟩

/-- A base in memory is the base of a section. -/
theorem acts_of_base {p : Phase} {base : List Message} (h : p.base = some base) (keyed : Bool) :
    p.acts keyed .lock = true := by
  cases p <;> first | rfl | cases h

section preservation

variable {S : Setup ι} {sessionId : Int} {r : Ref} {start : List Message} {w : World ι} {i : ι}

/-- A quiet step, or the phase of a store. -/
theorem kept_quiet {p : Phase} (h : Serialised S sessionId r start w) (hp : Quiet S w i p) :
    ∀ j, S.ref (j, .lock) = r →
      ((w.setPhase i p).phase j).acts (S.request j).keyed .lock = true →
      w.tenure (j, .lock) ≠ .reclaimed := by
  intro j hr hacts
  refine h.kept j hr ?_
  by_cases hj : j = i
  · subst hj
    simp only [World.setPhase, Function.update_self] at hacts
    exact hp.acts .lock hacts
  · simpa only [World.setPhase, Function.update_of_ne hj] using hacts

theorem base_quiet {p : Phase} (h : Serialised S sessionId r start w)
    (howner : ∀ j, (S.request j).sessionId = sessionId →
      S.owner sessionId = some (S.request j).userId → S.ref (j, .lock) = r)
    (hp : Quiet S w i p) :
    ∀ j base, (S.request j).sessionId = sessionId →
      ((w.setPhase i p).phase j).base = some base →
      S.ref (j, .lock) = r ∧ base = w.transcripts sessionId := by
  intro j base hs hb
  by_cases hj : j = i
  · subst hj
    simp only [World.setPhase, Function.update_self] at hb
    rcases hp.base base hb with hold | ⟨-, hread, hown⟩
    · exact h.base j base hs hold
    · rw [hs] at hread hown
      exact ⟨howner j hs hown, hread⟩
  · simp only [World.setPhase, Function.update_of_ne hj] at hb
    exact h.base j base hs hb

/-- A claim takes the lock row from no section. -/
theorem kept_take {role : Role} {readAt stamp : Instant} {table : Table}
    (h : Serialised S sessionId r start w) (hphase : w.phase i = role.claimed.1)
    (hread : readAt ≤ w.clock)
    (hclaim : claim w.table (S.ref (i, role)) (readAt - staleClaim) stamp = some table) :
    ∀ j, S.ref (j, .lock) = r →
      (((w.take S (i, role) stamp table).setPhase i role.claimed.2).phase j).acts
        (S.request j).keyed .lock = true →
      (w.take S (i, role) stamp table).tenure (j, .lock) ≠ .reclaimed := by
  intro j hr hacts
  by_cases hself : (j, Role.lock) = (i, role)
  · rw [hself, take_tenure_self]
    simp
  have hacts' : (w.phase j).acts (S.request j).keyed .lock = true := by
    by_cases hj : j = i
    · subst hj
      cases role with
      | lock => exact absurd rfl hself
      | key => simp [World.setPhase, Role.claimed, Phase.acts] at hacts
    · simpa only [World.setPhase, World.take, Function.update_of_ne hj] using hacts
  obtain ⟨t, htenure, hlive⟩ := h.held hr hacts'
  simp only [World.take]
  split
  · rw [Tenure.take_other hself, htenure]
    simp
  · rename_i hpresent
    by_cases href : S.ref (j, .lock) = S.ref (i, role)
    · -- the row of a section is not stale
      obtain ⟨-, habsent | ⟨u, hu, hstale⟩⟩ := claim_eq_some hclaim
      · exact absurd habsent hpresent
      · have hpending := h.sole.row (j, .lock) t hr htenure
        rw [← href, hr] at hu
        obtain rfl := hpending.inj hu
        have hfresh : readAt - staleClaim ≤ t := Int.sub_right_le_of_le_add (hread.trans hlive)
        exact absurd hstale (not_lt.mpr hfresh)
    · rw [Tenure.seize_away href, htenure]
      simp

theorem sole_finalised {op : Final} {rest : List Final} {outcome : Outcome}
    (h : Serialised S sessionId r start w) (hphase : w.phase i = .finish (op :: rest) outcome)
    (hkey : keyRightful S r w (.finalise i) = true) :
    Sole S.ref r (Pending (op.apply w.table (S.ref (i, op.role))) r)
      (Tenure.leave w.tenure (i, op.role)) := by
  refine Sole.finalised h.sole fun hr => ?_
  simp only [keyRightful, hphase, decide_eq_true_eq] at hkey
  cases hrole : op.role with
  | lock =>
    rw [hrole] at hr
    have hacts : (w.phase i).acts (S.request i).keyed .lock = true := by
      rw [hphase]
      exact List.any_eq_true.mpr ⟨op, List.mem_cons_self, decide_eq_true hrole⟩
    obtain ⟨t, ht, -⟩ := h.held hr hacts
    exact .inl ⟨t, ht⟩
  | key =>
    rw [hrole] at hr
    cases htenure : w.tenure (i, .key) with
    | free => exact absurd htenure (hrole ▸ h.head hphase)
    | held t => exact .inl ⟨t, rfl⟩
    | reclaimed =>
      right
      rw [hr]
      exact (apply_self_eq_iff _ _ _).mpr (hkey hrole hr htenure)

theorem kept_finalised {op : Final} {rest : List Final} {outcome : Outcome}
    (h : Serialised S sessionId r start w) (hphase : w.phase i = .finish (op :: rest) outcome) :
    ∀ j, S.ref (j, .lock) = r →
      (((w.finalise S i op).setPhase i (.finish rest outcome)).phase j).acts
        (S.request j).keyed .lock = true →
      Tenure.leave w.tenure (i, op.role) (j, .lock) ≠ .reclaimed := by
  intro j hr hacts
  by_cases hself : (j, Role.lock) = (i, op.role)
  · rw [hself, Tenure.leave_self]
    simp
  rw [Tenure.leave_other hself]
  refine h.kept j hr ?_
  by_cases hj : j = i
  · subst hj
    simp only [World.setPhase, Function.update_self, Phase.acts, List.any_eq_true] at hacts
    obtain ⟨o, ho, hrole⟩ := hacts
    rw [hphase]
    exact List.any_eq_true.mpr ⟨o, List.mem_cons_of_mem _ ho, hrole⟩
  · simpa only [World.setPhase, World.finalise, Function.update_of_ne hj] using hacts

omit [DecidableEq ι] in
/-- The section that stores is the only one of its session. -/
theorem stored_alone {base : List Message} {reply : String} {cut : Bool}
    (h : Serialised S sessionId r start w) (hphase : w.phase i = .persist base reply cut)
    (hs : (S.request i).sessionId = sessionId) {j : ι} {base' : List Message}
    (hj : (S.request j).sessionId = sessionId) (hb : (w.phase j).base = some base') : j = i := by
  have hbase : (w.phase i).base = some base := by rw [hphase]; rfl
  have hri := (h.base i base hs hbase).1
  have hrj := (h.base j base' hj hb).1
  obtain ⟨t, ht, -⟩ := h.held hri (acts_of_base hbase _)
  obtain ⟨u, hu, -⟩ := h.held hrj (acts_of_base hb _)
  exact congrArg Prod.fst (h.sole.unique (j, .lock) (i, .lock) u t hrj hri hu ht)

theorem base_store {base : List Message} {reply : String} {cut : Bool} {todo : List Final}
    {outcome : Outcome} (h : Serialised S sessionId r start w)
    (hphase : w.phase i = .persist base reply cut) :
    ∀ j base', (S.request j).sessionId = sessionId →
      (((w.store S i base reply).setPhase i (.finish todo outcome)).phase j).base = some base' →
      S.ref (j, .lock) = r ∧ base' = (w.store S i base reply).transcripts sessionId := by
  intro j base' hj hb
  by_cases hji : j = i
  · subst hji
    simp [World.setPhase, Phase.base] at hb
  · simp only [World.setPhase, World.store, Function.update_of_ne hji] at hb
    obtain ⟨hr, hread⟩ := h.base j base' hj hb
    refine ⟨hr, ?_⟩
    have hother : sessionId ≠ (S.request i).sessionId := fun hs =>
      hji (stored_alone h hphase hs.symm hj hb)
    simp only [World.store, Function.update_of_ne hother]
    exact hread

/-- A committed turn appends its exchange to the stored transcript. -/
theorem content_store {base : List Message} {reply : String} {cut : Bool}
    (h : Serialised S sessionId r start w) (hphase : w.phase i = .persist base reply cut)
    (hcap : BelowCap S.transcriptMaxMessages
      (start ++ exchanges sessionId (w.store S i base reply).commits)) :
    (w.store S i base reply).transcripts sessionId =
      start ++ exchanges sessionId (w.store S i base reply).commits := by
  simp only [World.store, exchanges_append] at hcap ⊢
  by_cases hs : (S.request i).sessionId = sessionId
  · rw [if_pos hs, ← List.append_assoc] at hcap
    have hbase := (h.base i base hs (by rw [hphase]; rfl)).2
    have hcontent := h.content hcap.left
    rw [if_pos hs, hs, Function.update_self, hbase, hcontent, appendTurn_belowCap hcap,
      List.append_assoc]
  · rw [if_neg hs, List.append_nil] at hcap ⊢
    rw [Function.update_of_ne (Ne.symm hs)]
    exact h.content hcap

end preservation

theorem serialised_step {S : Setup ι} {sessionId : Int} {r : Ref} {start : List Message}
    {w w' : World ι} {a : Action ι} (h : Serialised S sessionId r start w)
    (howner : ∀ j, (S.request j).sessionId = sessionId →
      S.owner sessionId = some (S.request j).userId → S.ref (j, .lock) = r)
    (hends : SectionsEnd S r w') (hkey : keyRightful S r w a = true) (hmove : Moves S w a w') :
    Serialised S sessionId r start w' := by
  have hdisciplined := disciplined_step h.toDisciplined hmove
  cases hmove with
  | tick micros => exact ⟨hdisciplined, h.sole, h.kept, hends, h.base, h.content⟩
  | quiet i p hp _ _ =>
    exact ⟨hdisciplined, h.sole, kept_quiet h hp, hends, base_quiet h howner hp, h.content⟩
  | take i role readAt stamp table hphase hread _ hclaim _ _ =>
    refine ⟨hdisciplined, Sole.claimed h.sole hclaim, kept_take h hphase hread hclaim, hends,
      fun j base hs hb => ?_, h.content⟩
    by_cases hj : j = i
    · subst hj
      cases role <;> simp [World.setPhase, Role.claimed, Phase.base] at hb
    · simp only [World.setPhase, World.take, Function.update_of_ne hj] at hb
      exact h.base j base hs hb
  | store i base reply cut hphase =>
    have hkept := kept_quiet h (quiet_afterPersist hphase)
    exact ⟨hdisciplined, h.sole, hkept, hends, base_store h hphase, content_store h hphase⟩
  | lost i base reply cut cancelled hphase =>
    have hkept := kept_quiet h (quiet_afterLoss hphase cancelled)
    exact ⟨hdisciplined, h.sole, hkept, hends, base_store h hphase, content_store h hphase⟩
  | finalise i op rest outcome hphase =>
    refine ⟨hdisciplined, sole_finalised h hphase hkey, kept_finalised h hphase, hends,
      fun j base hs hb => ?_, h.content⟩
    by_cases hj : j = i
    · subst hj
      simp [World.setPhase, Phase.base] at hb
    · simp only [World.setPhase, World.finalise, Function.update_of_ne hj] at hb
      exact h.base j base hs hb

/-- **No turn is lost under the lock.** For any number of requests with any keys
and every order of their steps: while every section under the session's lock row
ends before its claim is stale, and no request that took that row as its key
finalises it after a reclaim, the stored transcript below the cap is the one from
before with the exchange of each committed turn, once, in commit order. -/
theorem no_turn_lost (S : Setup ι) (sessionId userId : Int) (clock : Instant) (table : Table)
    (transcripts : Int → List Message) {as : List (Action ι)} {w : World ι}
    (howner : S.owner sessionId = some userId)
    (hrun : run (step S) (.init S clock table transcripts) as = some w)
    (hg : Along (step S) (fun w a w' => SectionsEnd S (userId, turnLockKey sessionId) w' ∧
        keyRightful S (userId, turnLockKey sessionId) w a = true)
      (.init S clock table transcripts) as)
    (hcap : BelowCap S.transcriptMaxMessages
      (transcripts sessionId ++ exchanges sessionId w.commits)) :
    w.transcripts sessionId = transcripts sessionId ++ exchanges sessionId w.commits := by
  have hinit : Serialised S sessionId (userId, turnLockKey sessionId) (transcripts sessionId)
      (World.init S clock table transcripts) := by
    have hquiet : ∀ j, ((World.init S clock table transcripts).phase j).base = none := by
      intro j
      simp only [World.init]
      split <;> rfl
    refine ⟨disciplined_init .., (held_init S clock table transcripts).sole _,
      fun j _ _ => by simp [World.init], fun j _ _ => rfl, fun j base _ hb => ?_, fun _ => ?_⟩
    · rw [hquiet j] at hb
      cases hb
    · simp [World.init, exchanges]
  have hlock : ∀ j, (S.request j).sessionId = sessionId →
      S.owner sessionId = some (S.request j).userId →
      S.ref (j, .lock) = (userId, turnLockKey sessionId) := by
    intro j hs hown
    rw [howner, Option.some.injEq] at hown
    simp only [Setup.ref, Request.ref, hs, hown]
  have hend := run_invariant (fun w a w' hi hga (hs : step S w a = some w') =>
    serialised_step hi hlock hga.1 hga.2 (step_moves hs)) hinit hg hrun
  exact hend.content hcap

/-- Two plain turns on one session. -/
def twoTurns : Setup Bool where
  request := fun i => ⟨1, 5, if i then .stream else .turn, none, if i then "two" else "one"⟩
  owner := fun _ => some 1
  transcriptMaxMessages := 200

/-- One turn after the other, through both endpoints. -/
def oneAfterAnother : List (Action Bool) :=
  [.acquire false 0 0, .prepare false true, .generate false (.reply "a"), .persist false .committed,
    .finalise false, .acquire true 0 0, .prepare true true, .generate true (.reply "b"),
    .persist true .committed, .finalise true]

theorem no_turn_lost_two_turns :
    ∃ w, run (step twoTurns) (.init twoTurns 0 (fun _ => none) fun _ => []) oneAfterAnother =
        some w ∧
      w.commits = [(5, "one", "a"), (5, "two", "b")] ∧
      w.transcripts 5 = [] ++ exchanges 5 w.commits := by
  obtain ⟨w, hw, hd⟩ := exists_run_of_check (step twoTurns)
    (.init twoTurns 0 (fun _ => none) fun _ => []) oneAfterAnother
    (fun w => decide (w.commits = [(5, "one", "a"), (5, "two", "b")])) (by decide +kernel)
  have hcommits := of_decide_eq_true hd
  refine ⟨w, hw, hcommits, ?_⟩
  exact no_turn_lost twoTurns 5 1 0 (fun _ => none) (fun _ => []) rfl hw (by decide +kernel)
    (.inr (by rw [hcommits]; decide))

/-- A request whose key is the text of its session's turn lock, and two plain turns. -/
def lockAsKey : Setup (Fin 3) where
  request := fun i =>
    if i = 0 then ⟨1, 5, .turn, some "turn-lock:session:5", "key"⟩
    else ⟨1, 5, .turn, none, if i = 1 then "one" else "two"⟩
  owner := fun _ => some 1
  transcriptMaxMessages := 200

/-- The key is claimed and stalls for 121 seconds. The first turn reclaims the row
as its lock; the refused request releases the row as its key; the second turn
acquires it. -/
def releasedAsKey : List (Action (Fin 3)) :=
  [.lookup 0, .claim 0 0 0, .tick 121000000, .acquire 1 121000000 121000000, .prepare 1 true,
    .acquire 0 121000000 121000000, .finalise 0, .acquire 2 121000000 121000000, .prepare 2 true,
    .generate 1 (.reply "a"), .persist 1 .committed, .generate 2 (.reply "b"),
    .persist 2 .committed, .finalise 1, .finalise 2]

/-- Both turns commit, every section ends at once, and the first exchange is lost. -/
theorem turn_lost_to_key :
    ∃ w, run (step lockAsKey) (.init lockAsKey 0 (fun _ => none) fun _ => []) releasedAsKey =
        some w ∧
      Along (step lockAsKey) (fun _ _ w' => SectionsEnd lockAsKey (1, turnLockKey 5) w')
        (.init lockAsKey 0 (fun _ => none) fun _ => []) releasedAsKey ∧
      w.commits = [(5, "one", "a"), (5, "two", "b")] ∧ w.transcripts 5 = exchange "two" "b" ∧
      w.transcripts 5 ≠ [] ++ exchanges 5 w.commits := by
  obtain ⟨w, hw, hd⟩ := exists_run_of_check (step lockAsKey)
    (.init lockAsKey 0 (fun _ => none) fun _ => []) releasedAsKey
    (fun w => decide (w.commits = [(5, "one", "a"), (5, "two", "b")] ∧
      w.transcripts 5 = exchange "two" "b")) (by decide +kernel)
  obtain ⟨hcommits, hstored⟩ := of_decide_eq_true hd
  refine ⟨w, hw, by decide +kernel, hcommits, hstored, ?_⟩
  rw [hcommits, hstored]
  decide

end Apm.Conversation
