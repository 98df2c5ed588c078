import Apm.Offline.TurnEndpoint
import Mathlib.Logic.Function.Iterate

/-!
# When the offline queue wedges

Repeated runs of `sync` against a reachable server, with no other turn beside them.
An ended session is refused with the same status as a turn that is still in progress,
so its turn stays at the head of the queue for ever, and so does a turn that the
database never takes. This file proves that a queue without such a turn is emptied,
whatever the server refuses before the endpoint.
-/

namespace Apm.Offline

open Apm.Core Apm.Idempotency

set_option autoImplicit false

variable (S : Setup) (gate : Nat → PendingTurn → Option Gate) (clock : Nat → Instant)

/-- The `n`-th attempt, at its clock. -/
def attempt (t : PendingTurn) (env : Server × Nat) : Exchange × (Server × Nat) :=
  let r := takeTurn S env.1 (gate env.2 t) (clock env.2) t
  (⟨false, r.1, false, []⟩, (r.2, env.2 + 1))

/-- One run of `sync` over the queue it finds. -/
def syncOnce (x : (Server × Nat) × List PendingTurn) : (Server × Nat) × List PendingTurn :=
  let r := sync (attempt S gate clock) x.2 x.1
  (r.1, r.2.queue)

/-- The turn is pending, and the first of its key. -/
def First (queue : List PendingTurn) (t : PendingTurn) : Prop :=
  queue.find? (fun p => decide (p.idempotencyKey = t.idempotencyKey)) = some t

/-- The endpoint answers the turn with a conflict. -/
def Conflicts (w : Server) (now : Instant) (t : PendingTurn) : Prop :=
  ∃ e, (takeTurn S w none now t).1 = .error e ∧ e.statusCode = 409

/-- What any number of attempts leave of the server's rows. -/
structure Follows (w w' : Server) : Prop where
  sessions : w'.sessions = w.sessions
  completed : ∀ r row, w.table r = some row → row.response ≠ none → w'.table r = some row
  pending : ∀ r row, w'.table r = some row → row.response = none → w.table r = some row
  locks : ∀ sessionId row, w'.table (S.userId, turnLockKey sessionId) = some row →
    w.table (S.userId, turnLockKey sessionId) = some row

variable {S gate clock}

theorem Follows.refl (w : Server) : Follows S w w :=
  ⟨rfl, fun _ _ h _ => h, fun _ _ h _ => h, fun _ _ h => h⟩

theorem Follows.trans {w w' w'' : Server} (h : Follows S w w') (h' : Follows S w' w'') :
    Follows S w w'' where
  sessions := h'.sessions.trans h.sessions
  completed := fun r row hrow hdone => h'.completed r row (h.completed r row hrow hdone) hdone
  pending := fun r row hrow hnone => h.pending r row (h'.pending r row hrow hnone) hnone
  locks := fun s row hrow => h.locks s row (h'.locks s row hrow)

theorem Follows.namespaced {w w' : Server} (h : Follows S w w') {t : PendingTurn}
    (hn : Namespaced S w.table t) : Namespaced S w'.table t :=
  ⟨hn.key, fun s row hrow => hn.lock s row (h.locks s row hrow)⟩

theorem Follows.blocked {w w' : Server} (h : Follows S w w') {t : PendingTurn}
    (hb : Blocked S w' t) : Blocked S w t := by
  refine ⟨hb.valid, hb.held.imp_right (·.sessions h.sessions.symm), ?_⟩
  rintro ⟨hkey, response, hresponse⟩
  refine hb.fresh ⟨hkey, response, ?_⟩
  cases hrow : w.table (S.keyRef t) with
  | none =>
    rw [lookup, hrow] at hresponse
    cases hresponse
  | some row =>
    rw [lookup, hrow] at hresponse
    have hsome : row.response = some response := hresponse
    have hcompleted : row.response ≠ none := hsome ▸ Option.some_ne_none _
    rw [lookup, h.completed _ row hrow hcompleted]
    exact hsome

theorem takeTurn_follows {w : Server} {t : PendingTurn} (hn : Namespaced S w.table t)
    (g : Option Gate) (now : Instant) : Follows S w (takeTurn S w g now t).2 := by
  obtain ⟨htidy, hsessions⟩ := takeTurn_tidy hn g now
  refine ⟨hsessions, htidy.completed, htidy.pending, fun s row hrow => ?_⟩
  exact htidy.others _ row (fun he => hn.key s (congrArg Prod.snd he).symm) hrow

/-- One turn of the loop. -/
theorem syncFrom_cons (t : PendingTurn) (rest : List PendingTurn) (w : Server) (n : Nat) (s : Sync) :
    syncFrom (attempt S gate clock) (t :: rest) (w, n) s =
      match takeTurn S w (gate n t) (clock n) t with
      | (.ok reply, w') => syncFrom (attempt S gate clock) rest (w', n + 1)
          { s.remove t (.ok reply) with sent := s.sent + 1 }
      | (.error e, w') =>
        if retryLater e then ((w', n + 1), s)
        else syncFrom (attempt S gate clock) rest (w', n + 1) (s.remove t (.error e)) := by
  have henqueue : s.enqueue [] = s := by rw [Sync.enqueue, List.append_nil]
  have hattempt : attempt S gate clock t (w, n) =
      (⟨false, (takeTurn S w (gate n t) (clock n) t).1, false, []⟩,
        ((takeTurn S w (gate n t) (clock n) t).2, n + 1)) := rfl
  rw [syncFrom, hattempt]
  rcases takeTurn S w (gate n t) (clock n) t with ⟨answer, w'⟩
  cases answer with
  | ok reply =>
    simp only [henqueue, Bool.false_eq_true, if_false]
    rfl
  | error e => simp only [henqueue, Bool.false_eq_true, if_false]

theorem filter_keys_cons (queue : List PendingTurn) (key : String) (keys : List String) :
    (queue.filter fun p => p.idempotencyKey ≠ key).filter (fun p => p.idempotencyKey ∉ keys) =
      queue.filter fun p => p.idempotencyKey ∉ key :: keys := by
  rw [List.filter_filter]
  refine List.filter_congr fun p _ => ?_
  simp only [List.mem_cons, not_or, Bool.decide_and, Bool.and_comm, ne_eq]

/-- What a run of the loop leaves: the server follows, and turns only leave the queue. -/
theorem syncFrom_follows (gate : Nat → PendingTurn → Option Gate)
    (clock : Nat → Instant) {turns : List PendingTurn} {w : Server} (n : Nat) (s : Sync)
    (hn : ∀ t ∈ turns, Namespaced S w.table t) :
    Follows S w (syncFrom (attempt S gate clock) turns (w, n) s).1.1 ∧
      n + min 1 turns.length ≤ (syncFrom (attempt S gate clock) turns (w, n) s).1.2 ∧
      ∃ keys : List String, (syncFrom (attempt S gate clock) turns (w, n) s).2.queue =
        s.queue.filter fun t => t.idempotencyKey ∉ keys := by
  induction turns generalizing w n s with
  | nil => exact ⟨.refl w, Nat.le_refl n, [], by simp [syncFrom]⟩
  | cons t rest ih =>
    have hfollows := takeTurn_follows (hn t List.mem_cons_self) (gate n t) (clock n)
    rw [syncFrom_cons, List.length_cons, Nat.min_eq_left (Nat.le_add_left 1 rest.length)]
    generalize takeTurn S w (gate n t) (clock n) t = r at hfollows ⊢
    obtain ⟨answer, w'⟩ := r
    replace hfollows : Follows S w w' := hfollows
    have hrest : ∀ p ∈ rest, Namespaced S w'.table p := fun p hp =>
      hfollows.namespaced (hn p (List.mem_cons_of_mem _ hp))
    have hgoes : ∀ s' : Sync,
        s'.queue = s.queue.filter (fun p => p.idempotencyKey ≠ t.idempotencyKey) →
        Follows S w (syncFrom (attempt S gate clock) rest (w', n + 1) s').1.1 ∧
          n + 1 ≤ (syncFrom (attempt S gate clock) rest (w', n + 1) s').1.2 ∧
          ∃ keys : List String, (syncFrom (attempt S gate clock) rest (w', n + 1) s').2.queue =
            s.queue.filter fun t => t.idempotencyKey ∉ keys := by
      intro s' hs'
      obtain ⟨hlater, hcount, keys, hkeys⟩ := ih (n + 1) s' hrest
      refine ⟨hfollows.trans hlater, Nat.le_of_add_right_le hcount, t.idempotencyKey :: keys, ?_⟩
      rw [hkeys, hs', filter_keys_cons]
    cases answer with
    | ok reply => exact hgoes _ rfl
    | error e =>
      dsimp only
      split
      · exact ⟨hfollows, Nat.le_refl _, [], by simp⟩
      · exact hgoes _ rfl

theorem first_head (t : PendingTurn) (rest : List PendingTurn) : First (t :: rest) t := by
  rw [First, List.find?_cons_of_pos]
  exact decide_eq_true rfl

theorem First.mem {queue : List PendingTurn} {t : PendingTurn} (h : First queue t) : t ∈ queue :=
  List.mem_of_find?_eq_some h

/-- Turns leave the queue by key, so the first turn of a key stays the first. -/
theorem first_filter {queue : List PendingTurn} {keys : List String} {t : PendingTurn} :
    First (queue.filter fun p => p.idempotencyKey ∉ keys) t ↔
      First queue t ∧ t.idempotencyKey ∉ keys := by
  have hsame : t.idempotencyKey ∉ keys → ∀ p : PendingTurn,
      decide (decide (p.idempotencyKey ∉ keys) = true ∧
        decide (p.idempotencyKey = t.idempotencyKey) = true) =
      decide (p.idempotencyKey = t.idempotencyKey) := fun hkey p => by
    refine decide_eq_decide.mpr ?_
    rw [decide_eq_true_eq, decide_eq_true_eq]
    exact ⟨fun h => h.2, fun h => ⟨h ▸ hkey, h⟩⟩
  constructor
  · intro h
    have hkey : t.idempotencyKey ∉ keys := of_decide_eq_true (List.mem_filter.mp h.mem).2
    rw [First, List.find?_filter, funext (hsame hkey)] at h
    exact ⟨h, hkey⟩
  · rintro ⟨h, hkey⟩
    rw [First, List.find?_filter, funext (hsame hkey)]
    exact h

/-- The first turn that `sync` reads leaves the queue when it is late and not blocked. -/
theorem syncFrom_head (gate : Nat → PendingTurn → Option Gate) (s : Sync)
    {t : PendingTurn} {rest : List PendingTurn} {w : Server} {n : Nat}
    (hn : ∀ p ∈ t :: rest, Namespaced S w.table p) (hlate : Late S w.table (clock n) t)
    (hb : ¬Blocked S w t) : ∃ keys : List String, t.idempotencyKey ∈ keys ∧
      (syncFrom (attempt S gate clock) (t :: rest) (w, n) s).2.queue =
        s.queue.filter fun p => p.idempotencyKey ∉ keys := by
  have hfollows := takeTurn_follows (hn t List.mem_cons_self) (gate n t) (clock n)
  have hanswer := @takeTurn_late S w (clock n) t (hn t List.mem_cons_self) hlate hb (gate n t)
  rw [syncFrom_cons]
  generalize takeTurn S w (gate n t) (clock n) t = r at hfollows hanswer ⊢
  obtain ⟨answer, w'⟩ := r
  have hrest : ∀ p ∈ rest, Namespaced S w'.table p := fun p hp =>
    Follows.namespaced hfollows (hn p (List.mem_cons_of_mem _ hp))
  have hgoes : ∀ s' : Sync,
      s'.queue = s.queue.filter (fun p => p.idempotencyKey ≠ t.idempotencyKey) →
      ∃ keys : List String, t.idempotencyKey ∈ keys ∧
        (syncFrom (attempt S gate clock) rest (w', n + 1) s').2.queue =
          s.queue.filter fun t => t.idempotencyKey ∉ keys := by
    intro s' hs'
    obtain ⟨-, -, keys, hkeys⟩ := syncFrom_follows gate clock (n + 1) s' hrest
    refine ⟨t.idempotencyKey :: keys, List.mem_cons_self, ?_⟩
    rw [hkeys, hs', filter_keys_cons]
  cases answer with
  | ok reply => exact hgoes _ rfl
  | error e =>
    dsimp only
    rw [if_neg (by rw [hanswer rfl]; exact Bool.false_ne_true)]
    exact hgoes _ rfl

/-- A queue without a blocked turn, and a bound on the age of what is pending for it. -/
structure Draining (S : Setup) (bound : Instant) (x : (Server × Nat) × List PendingTurn) : Prop where
  namespaced : ∀ t ∈ x.2, Namespaced S x.1.1.table t
  unblocked : ∀ t, First x.2 t → ¬Blocked S x.1.1 t
  pending : ∀ t ∈ x.2, ∀ r, r = S.keyRef t ∨ r = S.lockRef t → ∀ row,
    x.1.1.table r = some row → row.response = none → row.createdAt ≤ bound

theorem syncOnce_draining {bound : Instant} {x : (Server × Nat) × List PendingTurn}
    (h : Draining S bound x) : Draining S bound (syncOnce S gate clock x) := by
  obtain ⟨⟨w, n⟩, queue⟩ := x
  obtain ⟨hfollows, -, keys, hkeys⟩ := syncFrom_follows gate clock n ⟨queue, 0, []⟩ h.namespaced
  have hmem : ∀ t ∈ (syncOnce S gate clock ((w, n), queue)).2, t ∈ queue := fun t ht => by
    rw [show (syncOnce S gate clock ((w, n), queue)).2 = _ from hkeys] at ht
    exact (List.mem_filter.mp ht).1
  refine ⟨fun t ht => hfollows.namespaced (h.namespaced t (hmem t ht)), fun t ht hb => ?_,
    fun t ht r hr row hrow hnone => h.pending t (hmem t ht) r hr row
      (hfollows.pending r row hrow hnone) hnone⟩
  rw [show (syncOnce S gate clock ((w, n), queue)).2 = _ from hkeys] at ht
  exact h.unblocked t (first_filter.mp ht).1 (hfollows.blocked hb)

/-- Every run makes an attempt, and a late one takes a turn off the queue. -/
theorem syncOnce_measure (gate : Nat → PendingTurn → Option Gate) {bound : Instant} {late : Nat}
    (hclock : ∀ n, late ≤ n → bound < clock n - staleClaim) {x : (Server × Nat) × List PendingTurn}
    (h : Draining S bound x) (hne : x.2 ≠ []) :
    (syncOnce S gate clock x).2.length + (late - (syncOnce S gate clock x).1.2) <
      x.2.length + (late - x.1.2) := by
  obtain ⟨⟨w, n⟩, queue⟩ := x
  cases queue with
  | nil => exact absurd rfl hne
  | cons t rest =>
    have hn : ∀ p ∈ t :: rest, Namespaced S w.table p := h.namespaced
    obtain ⟨-, hcount, keys, hkeys⟩ := syncFrom_follows gate clock n ⟨t :: rest, 0, []⟩ hn
    show (syncFrom (attempt S gate clock) (t :: rest) (w, n) ⟨t :: rest, 0, []⟩).2.queue.length +
        (late - (syncFrom (attempt S gate clock) (t :: rest) (w, n) ⟨t :: rest, 0, []⟩).1.2) <
      (t :: rest).length + (late - n)
    rw [List.length_cons, Nat.min_eq_left (Nat.le_add_left 1 rest.length)] at hcount
    by_cases hlate : late ≤ n
    · have hold : Late S w.table (clock n) t := fun r hr row hrow hnone =>
        Int.lt_of_le_of_lt (h.pending t List.mem_cons_self r hr row hrow hnone) (hclock n hlate)
      obtain ⟨keys, hkey, hhead⟩ := syncFrom_head gate ⟨t :: rest, 0, []⟩ hn hold
        (h.unblocked t (first_head t rest))
      have hshorter : ((t :: rest).filter fun p => p.idempotencyKey ∉ keys).length <
          (t :: rest).length :=
        List.length_filter_lt_length_iff_exists.mpr
          ⟨t, List.mem_cons_self, fun hout => of_decide_eq_true hout hkey⟩
      rw [hhead]
      dsimp only
      omega
    · have hshorter : ((t :: rest).filter fun p => p.idempotencyKey ∉ keys).length ≤
          (t :: rest).length := List.length_filter_le ..
      rw [hkeys]
      dsimp only
      omega

theorem drains {bound : Instant} {late : Nat} (hclock : ∀ n, late ≤ n →
      bound < clock n - staleClaim) {x : (Server × Nat) × List PendingTurn}
    (h : Draining S bound x) : ∃ k, ((syncOnce S gate clock)^[k] x).2 = [] := by
  generalize hm : x.2.length + (late - x.1.2) = m
  induction m using Nat.strong_induction_on generalizing x with
  | _ m ih =>
    by_cases hempty : x.2 = []
    · exact ⟨0, hempty⟩
    · have hless := syncOnce_measure gate hclock h hempty
      rw [hm] at hless
      obtain ⟨k, hk⟩ := ih _ hless (syncOnce_draining h) rfl
      exact ⟨k + 1, hk⟩

theorem first_remove {s : Sync} {p t : PendingTurn} (answer : Answer) (h : First s.queue t)
    (hne : p.idempotencyKey ≠ t.idempotencyKey) : First (s.remove p answer).queue t := by
  have hfilter : (s.remove p answer).queue =
      s.queue.filter fun q => q.idempotencyKey ∉ [p.idempotencyKey] := by
    simp only [Sync.remove, List.mem_singleton, ne_eq]
  rw [hfilter, first_filter]
  exact ⟨h, fun hmem => hne (List.mem_singleton.mp hmem).symm⟩

/-- While nothing refuses a blocked turn before the endpoint, `sync` leaves it queued. -/
theorem syncFrom_blocked (clock : Nat → Instant) {turns : List PendingTurn} {w : Server} (n : Nat)
    {s : Sync} {t : PendingTurn} (hn : ∀ p ∈ turns, Namespaced S w.table p) (hturns : First turns t)
    (hs : First s.queue t) (hb : Blocked S w t) :
    First (syncFrom (attempt S (fun _ _ => none) clock) turns (w, n) s).2.queue t ∧
      Blocked S (syncFrom (attempt S (fun _ _ => none) clock) turns (w, n) s).1.1 t := by
  induction turns generalizing w n s with
  | nil => cases hturns
  | cons p rest ih =>
    rw [syncFrom_cons]
    by_cases hkey : p.idempotencyKey = t.idempotencyKey
    · have hp : p = t := by
        rw [First, List.find?_cons_of_pos (by exact decide_eq_true hkey)] at hturns
        exact Option.some.inj hturns
      subst hp
      obtain ⟨e, he, hkept⟩ := takeTurn_blocked hb (clock n)
      have hstays := takeTurn_stays_blocked hb (hn p List.mem_cons_self) (.inl rfl) (clock n)
      generalize takeTurn S w none (clock n) p = r at he hstays ⊢
      obtain ⟨answer, w'⟩ := r
      obtain rfl : answer = .error e := he
      dsimp only
      rw [if_pos hkept]
      exact ⟨hs, hstays⟩
    · have hrest : First rest t := by
        rwa [First, List.find?_cons_of_neg (by simpa using hkey)] at hturns
      have hstays := takeTurn_stays_blocked hb (hn p List.mem_cons_self)
        (.inr hkey) (clock n)
      have hfollows := takeTurn_follows (hn p List.mem_cons_self) none (clock n)
      generalize takeTurn S w none (clock n) p = r at hstays hfollows ⊢
      obtain ⟨answer, w'⟩ := r
      have hnamespaced : ∀ q ∈ rest, Namespaced S w'.table q := fun q hq =>
        Follows.namespaced hfollows (hn q (List.mem_cons_of_mem _ hq))
      cases answer with
      | ok reply => exact ih (n + 1) hnamespaced hrest (first_remove (.ok reply) hs hkey) hstays
      | error e =>
        dsimp only
        split
        · exact ⟨hs, hstays⟩
        · exact ih (n + 1) hnamespaced hrest (first_remove (.error e) hs hkey) hstays

/-- A blocked turn is never taken off the queue. -/
theorem syncs_blocked (clock : Nat → Instant) (k : Nat)
    {x : (Server × Nat) × List PendingTurn} {t : PendingTurn}
    (hn : ∀ p ∈ x.2, Namespaced S x.1.1.table p) (hfirst : First x.2 t) (hb : Blocked S x.1.1 t) :
    First ((syncOnce S (fun _ _ => none) clock)^[k] x).2 t := by
  induction k generalizing x with
  | zero => exact hfirst
  | succ k ih =>
    obtain ⟨⟨w, n⟩, queue⟩ := x
    rw [Function.iterate_succ_apply]
    obtain ⟨hfirst', hb'⟩ := syncFrom_blocked (s := ⟨queue, 0, []⟩) clock n hn hfirst hfirst hb
    obtain ⟨hfollows, -, keys, hkeys⟩ := syncFrom_follows (fun _ _ => none) clock n
      ⟨queue, 0, []⟩ hn
    refine ih (fun p hp => hfollows.namespaced (hn p ?_)) hfirst' hb'
    replace hp : p ∈ (syncFrom (attempt S (fun _ _ => none) clock) queue (w, n)
      ⟨queue, 0, []⟩).2.queue := hp
    rw [hkeys] at hp
    exact (List.mem_filter.mp hp).1

theorem exists_bound (table : Table) (refs : List Ref) :
    ∃ bound : Instant, ∀ r ∈ refs, ∀ row, table r = some row → row.createdAt ≤ bound := by
  induction refs with
  | nil => exact ⟨0, nofun⟩
  | cons r refs ih =>
    obtain ⟨bound, hbound⟩ := ih
    refine ⟨max bound (((table r).map IdempotencyKey.createdAt).getD bound), fun r' hr' row hrow => ?_⟩
    rcases List.mem_cons.mp hr' with rfl | hr'
    · rw [hrow]
      exact Int.le_max_right ..
    · exact Int.le_trans (hbound r' hr' row hrow) (Int.le_max_left ..)

theorem exists_natCast_gt (bound : Instant) : ∃ n : Nat, bound < (n : Int) :=
  ⟨bound.toNat + 1,
    Int.lt_of_le_of_lt (Int.self_le_toNat bound) (Int.ofNat_lt.mpr (Nat.lt_succ_self _))⟩

/-- **When the queue never wedges.** Against a reachable server with a working LLM and no
other turn, whatever it refuses before the endpoint: repeated runs of `sync` empty the
queue, and every conflict may be answered differently later, exactly if no pending turn
without a reply cached under its key is of an ended session of the learner or holds what
the database refuses. -/
theorem never_wedges_iff (S : Setup) (w : Server) (queue : List PendingTurn)
    (hn : ∀ t ∈ queue, Namespaced S w.table t) :
    ((∀ gate clock, (∀ n m, n ≤ m → clock n ≤ clock m) → (∀ bound, ∃ n, bound < clock n) →
        ∃ k, ((syncOnce S gate clock)^[k] ((w, 0), queue)).2 = []) ∧
      ∀ t, First queue t → ∀ now, Conflicts S w now t →
        ∃ later, now ≤ later ∧ ¬Conflicts S w later t) ↔
    ∀ t, First queue t → ¬Blocked S w t := by
  constructor
  · rintro ⟨hdrains, -⟩ t hfirst hb
    obtain ⟨k, hk⟩ := hdrains (fun _ _ => none) (fun n => (n : Int))
      (fun _ _ h => Int.ofNat_le.mpr h) exists_natCast_gt
    have hstays := syncs_blocked (x := ((w, 0), queue)) (fun n => (n : Int)) k hn hfirst hb
    rw [hk] at hstays
    cases hstays
  · intro hunblocked
    obtain ⟨bound, hbound⟩ := exists_bound w.table (queue.flatMap fun t => [S.keyRef t, S.lockRef t])
    have hpending : ∀ t ∈ queue, ∀ r, r = S.keyRef t ∨ r = S.lockRef t → ∀ row,
        w.table r = some row → row.response = none → row.createdAt ≤ bound :=
      fun t ht r hr row hrow _ => by
        refine hbound r (List.mem_flatMap.mpr ⟨t, ht, ?_⟩) row hrow
        rcases hr with rfl | rfl
        · exact List.mem_cons_self
        · exact List.mem_cons_of_mem _ List.mem_cons_self
    constructor
    · intro gate clock hmono hunbounded
      obtain ⟨late, hlate⟩ := hunbounded (bound + staleClaim)
      have hlate' : ∀ n, late ≤ n → bound < clock n - staleClaim := fun n hle => by
        have hclock : clock late ≤ clock n := hmono late n hle
        linarith
      exact drains hlate' ⟨hn, hunblocked, hpending⟩
    · intro t hfirst now _
      refine ⟨max now (bound + staleClaim + 1), Int.le_max_left .., fun ⟨e, he, hstatus⟩ => ?_⟩
      have hlate : Late S w.table (max now (bound + staleClaim + 1)) t :=
        fun r hr row hrow hnone => by
          have hold := hpending t hfirst.mem r hr row hrow hnone
          have hlater : bound + staleClaim + 1 ≤ max now (bound + staleClaim + 1) :=
            Int.le_max_right ..
          linarith
      have hkept := takeTurn_late (hn t hfirst.mem) hlate (hunblocked t hfirst) he
      rw [retryLater, hstatus] at hkept
      simp at hkept

def learner : Setup := ⟨1, fun _ => "reply"⟩

/-- An ended session and an open one of the learner. -/
def twoSessions : Server where
  table := fun _ => none
  sessions := fun s => if s = 5 then some ⟨1, true⟩ else if s = 6 then some ⟨1, false⟩ else none

def endedTurn : PendingTurn := ⟨5, "hello", "5-1", none⟩

def openTurn : PendingTurn := ⟨6, "hello", "6-2", none⟩

theorem le_length_turnLockKey (s : Int) : 18 ≤ (turnLockKey s).length := by
  have heq : turnLockKey s = "turn-lock:session:" ++ toString s := rfl
  have hnamespace : "turn-lock:session:".length = 18 := rfl
  rw [heq, String.length_append, hnamespace]
  exact Nat.le_add_right ..

/-- A key too short for the namespace of the turn locks is outside it. -/
theorem namespaced_of_length {t : PendingTurn} (h : t.idempotencyKey.length < 18) :
    Namespaced learner twoSessions.table t where
  key s he := by
    rw [he] at h
    exact absurd (le_length_turnLockKey s) (Nat.not_le.mpr h)
  lock s row hrow := absurd hrow (Option.some_ne_none row).symm

theorem never_wedges_iff_open_session :
    ∃ k, ((syncOnce learner (fun _ _ => none) fun n => (n : Int))^[k]
      ((twoSessions, 0), [openTurn])).2 = [] := by
  have hn : ∀ t ∈ [openTurn], Namespaced learner twoSessions.table t := fun t ht => by
    rw [List.mem_singleton.mp ht]
    exact namespaced_of_length (by decide)
  have hopen : ∀ t, First [openTurn] t → ¬Blocked learner twoSessions t := fun t ht hb => by
    rw [List.mem_singleton.mp ht.mem] at hb
    rcases hb.held with hlong | hid | ⟨session, hsession, -, hended⟩ | ⟨-, hrefused⟩
    · exact absurd hlong (by decide)
    · exact absurd hid (by decide)
    · cases hsession
      cases hended
    · exact absurd hrefused (by decide)
  exact ((never_wedges_iff learner twoSessions [openTurn] hn).mpr hopen).1 _ _
    (fun _ _ h => Int.ofNat_le.mpr h) exists_natCast_gt

/-- The turn of the ended session stays, and the one behind it is never attempted. -/
theorem ended_session_wedges_queue :
    (syncOnce learner (fun _ _ => none) (fun n => (n : Int))
        ((twoSessions, 0), [endedTurn, openTurn])).2 = [endedTurn, openTurn] ∧
      ¬∃ k, ((syncOnce learner (fun _ _ => none) fun n => (n : Int))^[k]
        ((twoSessions, 0), [endedTurn, openTurn])).2 = [] := by
  refine ⟨by decide +kernel, fun ⟨k, hk⟩ => ?_⟩
  have hn : ∀ t ∈ [endedTurn, openTurn], Namespaced learner twoSessions.table t := fun t ht => by
    rcases List.mem_pair.mp ht with rfl | rfl <;> exact namespaced_of_length (by decide)
  have hb : Blocked learner twoSessions endedTurn :=
    ⟨by decide, .inr (.ended ⟨⟨1, true⟩, rfl, rfl, rfl⟩), fun ⟨_, _, hresponse⟩ => by
      cases hresponse⟩
  have hstays := syncs_blocked (x := ((twoSessions, 0), [endedTurn, openTurn])) (fun n => (n : Int))
    k hn (first_head _ _) hb
  rw [hk] at hstays
  cases hstays

end Apm.Offline
