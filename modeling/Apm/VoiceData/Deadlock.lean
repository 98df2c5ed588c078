import Apm.VoiceData.Locking
import Mathlib.Data.Fin.VecNotation

/-!
# When the operations on one learner's rows do not deadlock

Every operation but one takes the user row first. A turn persist upserts its
transcript before that, and a purge that holds the user row deletes the transcripts.
The two orders cross when the persist holds a row that the purge has still to lock.
This file proves that nothing else can close a cycle of waits.
-/

namespace Apm.VoiceData.Locking

open Apm.Lib

set_option autoImplicit false

/-- The locks a transaction that holds the user row has still to take. -/
def Phase.ahead (rows : Rows) : Phase → List Lock
  | .delete todo taken later => todo ++ later.flatMap fun d => d.locks rows taken
  | p => p.request.toList

variable {ι : Type} [DecidableEq ι]

/-- The requested lock crosses the order of another transaction: it is the user row,
and another one holds a lock that is ahead, or it is ahead of one that holds the user row. -/
def crosses (w : World ι) (i : ι) : Bool :=
  match (w.phase i).request with
  | none => false
  | some l =>
    w.table.locks.any fun x => x.1 ≠ i &&
      if l = userLock then ((w.phase i).granted.ahead w.rows).any (x.2.conflicts ·)
      else userLock ∉ (w.phase i).locks && x.2 = userLock &&
        ((w.phase x.1).ahead w.rows).any (l.conflicts ·)

/-- No step takes a lock that crosses the order of another transaction. -/
def ordered (w : World ι) : Action ι → Bool
  | .advance i => !crosses w i
  | _ => true

/-- The table holds what the transactions have taken, and what is ahead of the holder
of the user row is free of the other transactions' locks. -/
structure Uncrossed (w : World ι) : Prop where
  fits : ∀ i l, w.table.Holds i l ↔ l ∈ (w.phase i).locks
  free : ∀ i j, i ≠ j → userLock ∈ (w.phase j).locks → ∀ l ∈ (w.phase i).locks,
    ∀ m ∈ (w.phase j).ahead w.rows, l.conflicts m = false

theorem granted_locks {p : Phase} {l : Lock} (h : p.request = some l) :
    p.granted.locks = l :: p.locks := by
  cases p with
  | start stale id => cases stale <;> cases h <;> rfl
  | delete todo taken later => cases todo <;> cases h; rfl
  | _ => cases h <;> rfl

theorem proceed_locks {rows : Rows} {p p' : Phase} (h : p.proceed rows = some p') :
    p'.locks = p.locks := by
  cases p with
  | upserted s =>
    cases h
    split <;> rfl
  | delete todo taken later =>
    cases todo <;> cases later <;> cases h
    rfl
  | _ => cases h

theorem user_not_mem_upsertLocks {s : Nat} {inserted : Bool} :
    userLock ∉ Phase.upsertLocks s inserted := by
  cases inserted <;> simp [Phase.upsertLocks, userLock, foreignKeyLock, transcriptLock]

theorem mem_locks_of_cons {rows : Rows} {taken : List Lock} {l m : Lock} {d : Delete}
    (h : m ∈ d.locks rows (l :: taken)) : m ∈ d.locks rows taken := by
  cases d <;>
    · rw [Delete.locks, List.mem_filter, decide_eq_true_eq] at h ⊢
      exact ⟨h.1, fun hm => h.2 (List.mem_cons_of_mem l hm)⟩

theorem granted_ahead {rows : Rows} {p : Phase} (hu : userLock ∈ p.locks) {m : Lock}
    (hm : m ∈ p.granted.ahead rows) : m ∈ p.ahead rows := by
  cases p with
  | upsert | end_ | start | purge | done => cases hu
  | upserted | foreignKey => exact absurd hu (by simp [Phase.locks, userLock, transcriptLock])
  | meter => exact absurd hu user_not_mem_upsertLocks
  | touch | close | reap => cases hm
  | metered | closed | insert => exact hm
  | delete todo taken later =>
    cases todo with
    | nil => exact hm
    | cons l todo =>
      simp only [Phase.granted, Phase.ahead, List.mem_append, List.mem_flatMap] at hm ⊢
      rcases hm with hm | ⟨d, hd, hm⟩
      · exact .inl (List.mem_cons_of_mem l hm)
      · exact .inr ⟨d, hd, mem_locks_of_cons hm⟩

theorem proceed_ahead {rows : Rows} {p p' : Phase} (h : p.proceed rows = some p')
    (hu : userLock ∈ p.locks) : p'.ahead rows = p.ahead rows := by
  cases p with
  | upserted => exact absurd hu (by simp [Phase.locks, userLock, transcriptLock])
  | delete todo taken later =>
    cases todo <;> cases later <;> cases h
    rfl
  | _ => cases h

/-- A commit without the user row is that of a persist whose metering failed. -/
theorem commit_without_user {rows rows' : Rows} {p : Phase} (h : p.commit rows = some rows')
    (hu : userLock ∉ p.locks) : ∃ s, transcriptLock s ∈ p.locks ∧
      rows'.sessions = rows.sessions ∧ ∀ t ∈ rows'.transcripts, t ∈ rows.transcripts ∨ t = s := by
  cases p with
  | meter s inserted =>
    cases h
    refine ⟨s, by cases inserted <;> simp [Phase.locks, Phase.upsertLocks], rfl, fun t ht => ?_⟩
    dsimp only at ht
    split at ht
    · exact .inl ht
    · exact (List.mem_append.mp ht).imp_right List.mem_singleton.mp
  | touch | metered | closed =>
    exact absurd (by simp [Phase.locks]) hu
  | insert reaped id => exact absurd (by cases reaped <;> simp [Phase.locks]) hu
  | delete todo taken later => exact absurd (by simp [Phase.locks]) hu
  | _ => cases h

theorem ahead_of_grown {rows rows' : Rows} {s : Nat} (hsessions : rows'.sessions = rows.sessions)
    (htranscripts : ∀ t ∈ rows'.transcripts, t ∈ rows.transcripts ∨ t = s) {p : Phase} {m : Lock}
    (hm : m ∈ p.ahead rows') : m ∈ p.ahead rows ∨ m = transcriptLock s := by
  cases p with
  | delete todo taken later =>
    simp only [Phase.ahead, List.mem_append, List.mem_flatMap] at hm ⊢
    rcases hm with hm | ⟨d, hd, hm⟩
    · exact .inl (.inl hm)
    · cases d with
      | sessions =>
        rw [Delete.locks, hsessions] at hm
        exact .inl (.inr ⟨.sessions, hd, hm⟩)
      | transcripts | cascade =>
        simp only [Delete.locks, List.mem_filter, List.mem_map] at hm
        obtain ⟨⟨t, ht, rfl⟩, htaken⟩ := hm
        rcases htranscripts t ht with ht | rfl
        · refine .inl (.inr ⟨_, hd, ?_⟩)
          exact List.mem_filter.mpr ⟨List.mem_map.mpr ⟨t, ht, rfl⟩, htaken⟩
        · exact .inr rfl
  | _ => exact .inl hm

section steps

variable {w w' : World ι} {a : Action ι} {i j : ι}

omit [DecidableEq ι] in
theorem Uncrossed.not_conflicts (hi : Uncrossed w) {l m : Lock} (hl : l ∈ (w.phase i).locks)
    (hm : m ∈ (w.phase j).locks) (hne : i ≠ j) : l.conflicts m = false :=
  LockTable.not_conflicts ((hi.fits i l).mpr hl) ((hi.fits j m).mpr hm) hne

omit [DecidableEq ι] in
theorem Uncrossed.user_unique (hi : Uncrossed w) (hu : userLock ∈ (w.phase i).locks)
    (hv : userLock ∈ (w.phase j).locks) : i = j := by
  by_contra hne
  exact absurd (hi.not_conflicts hu hv hne) (by decide)

/-- The grant of a lock that does not cross keeps the invariant. -/
theorem grant_uncrossed (hi : Uncrossed w) (hg : crosses w i = false) {l : Lock}
    {table : LockTable ι Row} (hrequest : (w.phase i).request = some l)
    (htable : w.table.acquire i l = some table) :
    Uncrossed { w.setPhase i (w.phase i).granted with table := table } := by
  have hlocks : (w.phase i).granted.locks = l :: (w.phase i).locks := granted_locks hrequest
  have hfree : ∀ j m, j ≠ i → m ∈ (w.phase j).locks → l.conflicts m = false := fun j m hne hm =>
    LockTable.acquire_free htable ((hi.fits j m).mpr hm) hne
  rw [crosses, hrequest, List.any_eq_false] at hg
  constructor
  · intro j m
    show table.Holds j m ↔ m ∈ (Function.update w.phase i (w.phase i).granted j).locks
    rw [LockTable.holds_acquire htable]
    by_cases hj : j = i
    · subst hj
      rw [Function.update_self, hlocks, List.mem_cons, hi.fits, and_iff_right rfl]
    · rw [Function.update_of_ne hj, hi.fits]
      exact or_iff_right fun h => hj h.1
  · intro j k hne hu
    show ∀ m ∈ (Function.update w.phase i (w.phase i).granted j).locks,
      ∀ n ∈ (Function.update w.phase i (w.phase i).granted k).ahead w.rows, m.conflicts n = false
    replace hu : userLock ∈ (Function.update w.phase i (w.phase i).granted k).locks := hu
    by_cases hk : k = i
    · subst hk
      rw [Function.update_self, hlocks, List.mem_cons] at hu
      rw [Function.update_of_ne hne, Function.update_self]
      intro m hm n hn
      rcases hu with rfl | hu
      · have hx := hg (j, m) ((hi.fits j m).mpr hm)
        simp only [ne_eq, hne, not_false_eq_true, decide_true, Bool.true_and, if_true,
          List.any_eq_true, not_exists, not_and, Bool.not_eq_true] at hx
        exact hx n hn
      · exact hi.free j k hne hu m hm n (granted_ahead hu hn)
    · rw [Function.update_of_ne hk] at hu ⊢
      by_cases hj : j = i
      · subst hj
        rw [Function.update_self, hlocks]
        intro m hm n hn
        rcases List.mem_cons.mp hm with rfl | hm
        · have hother : userLock ∉ (w.phase j).locks := fun hj => hne (hi.user_unique hj hu)
          have huser : m ≠ userLock := fun he => by
            have := hfree k userLock hk hu
            rw [he] at this
            exact absurd this (by decide)
          have hx := hg (k, userLock) ((hi.fits k userLock).mpr hu)
          simp only [ne_eq, hk, huser, hother, not_false_eq_true, decide_true, Bool.true_and,
            if_false, List.any_eq_true, not_exists, not_and, Bool.not_eq_true] at hx
          exact hx n hn
        · exact hi.free j k hne hu m hm n hn
      · rw [Function.update_of_ne hj]
        exact hi.free j k hne hu

theorem proceed_uncrossed (hi : Uncrossed w) {p : Phase}
    (hp : (w.phase i).proceed w.rows = some p) : Uncrossed (w.setPhase i p) := by
  have hlocks : ∀ j, (Function.update w.phase i p j).locks = (w.phase j).locks := fun j => by
    by_cases hj : j = i
    · subst hj
      rw [Function.update_self, proceed_locks hp]
    · rw [Function.update_of_ne hj]
  constructor
  · intro j m
    show w.table.Holds j m ↔ m ∈ (Function.update w.phase i p j).locks
    rw [hlocks, hi.fits]
  · intro j k hne
    show userLock ∈ (Function.update w.phase i p k).locks →
      ∀ m ∈ (Function.update w.phase i p j).locks,
        ∀ n ∈ (Function.update w.phase i p k).ahead w.rows, m.conflicts n = false
    rw [hlocks, hlocks]
    intro hu
    by_cases hk : k = i
    · subst hk
      rw [Function.update_self, proceed_ahead hp hu]
      exact hi.free j k hne hu
    · rw [Function.update_of_ne hk]
      exact hi.free j k hne hu

/-- The end of a transaction, with the rows it may have committed. -/
theorem finish_uncrossed (hi : Uncrossed w) {rows : Rows}
    (hrows : rows = w.rows ∨ (w.phase i).commit w.rows = some rows) :
    Uncrossed { w.finish i with rows := rows } := by
  have hphase : ∀ j l, l ∈ (Function.update w.phase i .done j).locks ↔
      j ≠ i ∧ l ∈ (w.phase j).locks := fun j l => by
    by_cases hj : j = i
    · subst hj
      rw [Function.update_self]
      exact ⟨nofun, fun h => absurd rfl h.1⟩
    · rw [Function.update_of_ne hj, and_iff_right hj]
  constructor
  · intro j m
    show (w.table.release i).Holds j m ↔ m ∈ (Function.update w.phase i .done j).locks
    rw [LockTable.holds_release, hphase, hi.fits]
  · intro j k hne huser m hlock n hn
    obtain ⟨hk, hu⟩ := (hphase k userLock).mp huser
    obtain ⟨hj, hm⟩ := (hphase j m).mp hlock
    replace hn : n ∈ (Function.update w.phase i .done k).ahead rows := hn
    rw [Function.update_of_ne hk] at hn
    rcases hrows with rfl | hcommit
    · exact hi.free j k hne hu m hm n hn
    · have hother : userLock ∉ (w.phase i).locks := fun h => hk (hi.user_unique hu h)
      obtain ⟨s, hs, hsessions, htranscripts⟩ := commit_without_user hcommit hother
      rcases ahead_of_grown hsessions htranscripts hn with hn | rfl
      · exact hi.free j k hne hu m hm n hn
      · exact hi.not_conflicts hm hs hj

theorem step_uncrossed (hi : Uncrossed w) (hg : ordered w a = true) (h : step w a = some w') :
    Uncrossed w' := by
  cases a with
  | advance i =>
    simp only [step] at h
    split at h
    · cases h
    split at h
    · rename_i l hrequest
      obtain ⟨table, htable, rfl⟩ := Option.map_eq_some_iff.mp h
      exact grant_uncrossed hi (by simpa [ordered] using hg) hrequest htable
    · obtain ⟨p, hp, rfl⟩ := Option.map_eq_some_iff.mp h
      exact proceed_uncrossed hi hp
  | commit i =>
    obtain ⟨rows, hrows, rfl⟩ := Option.map_eq_some_iff.mp h
    exact finish_uncrossed hi (.inr hrows)
  | rollback i =>
    simp only [step] at h
    split at h
    · cases h
    · cases h
      exact finish_uncrossed hi (.inl rfl)

omit [DecidableEq ι] in
theorem uncrossed_init (rows : Rows) (operation : ι → Operation) :
    Uncrossed (World.init rows operation) := by
  have hlocks : ∀ i, ((World.init rows operation).phase i).locks = [] := fun i => by
    show (operation i).begin.locks = []
    cases operation i <;> rfl
  constructor
  · intro i l
    rw [hlocks]
    exact ⟨nofun, nofun⟩
  · intro i j _ hu
    rw [hlocks] at hu
    cases hu

/-- Only a transaction that holds the user row deletes a session. -/
theorem user_of_deleted_session {p : Phase} {s : Nat} (h : ⟨.session s, .update⟩ ∈ p.locks) :
    userLock ∈ p.locks := by
  cases p with
  | upsert | end_ | start | purge | done => cases h
  | upserted | foreignKey => simp [Phase.locks, transcriptLock] at h
  | meter s inserted =>
    cases inserted <;> simp [Phase.locks, Phase.upsertLocks, transcriptLock, foreignKeyLock] at h
  | insert reaped id => cases reaped <;> simp [Phase.locks]
  | touch | metered | close | closed | reap | delete => simp [Phase.locks]

theorem user_of_row {p : Phase} {m : Lock} (hm : m ∈ p.locks) (hrow : m.row = .user) :
    userLock ∈ p.locks := by
  cases p with
  | upsert | end_ | start | purge | done => cases hm
  | upserted | foreignKey =>
    obtain rfl := List.mem_singleton.mp hm
    cases hrow
  | meter s inserted =>
    cases inserted
    · obtain rfl := List.mem_singleton.mp hm
      cases hrow
    · rcases List.mem_pair.mp hm with rfl | rfl <;> cases hrow
  | insert reaped id => cases reaped <;> simp [Phase.locks]
  | touch | metered | close | closed | reap | delete => simp [Phase.locks]

/-- A transaction that holds a lock but not the user row waits for the holder of that row. -/
theorem user_of_request {p q : Phase} (hlocks : p.locks ≠ []) (hu : userLock ∉ p.locks)
    {l m : Lock} (hl : p.request = some l) (hm : m ∈ q.locks) (hconflict : l.conflicts m = true) :
    userLock ∈ q.locks := by
  obtain ⟨hrow, hmode⟩ := RowLock.conflicts_iff.mp hconflict
  cases p with
  | upsert | end_ | start | purge | done => exact absurd rfl hlocks
  | upserted | metered | closed | insert => cases hl
  | touch | close | reap | delete => exact absurd (by simp [Phase.locks]) hu
  | meter s inserted =>
    cases hl
    exact user_of_row hm hrow.symm
  | foreignKey s =>
    cases hl
    obtain ⟨row, mode⟩ := m
    cases mode with
    | keyShare | noKeyUpdate => cases hmode
    | update =>
      obtain rfl : Row.session s = row := hrow
      exact user_of_deleted_session hm

theorem request_mem_ahead {rows : Rows} {p : Phase} {l : Lock} (hl : p.request = some l) :
    l ∈ p.ahead rows := by
  cases p with
  | delete todo taken later => exact List.mem_append_left _ (List.mem_of_head? hl)
  | _ => exact Option.mem_toList.mpr hl

/-- How far a transaction has come: without a lock, before the user row, after it. -/
def Phase.rank (p : Phase) : Nat :=
  if userLock ∈ p.locks then 2 else if p.locks = [] then 0 else 1

omit [DecidableEq ι] in
/-- The holder of the user row waits for nobody, and nobody else who holds a lock waits
for a transaction that is not its holder. -/
theorem rank_lt_of_waits (hi : Uncrossed w) (h : w.table.Waits w.request i j) :
    (w.phase i).rank < (w.phase j).rank := by
  obtain ⟨hne, l, hl, m, hm, hconflict⟩ := h
  replace hm : m ∈ (w.phase j).locks := (hi.fits j m).mp hm
  replace hl : (w.phase i).request = some l := hl
  by_cases hu : userLock ∈ (w.phase i).locks
  · have hfree := hi.free j i (Ne.symm hne) hu m hm l (request_mem_ahead hl)
    rw [RowLock.conflicts_comm, hfree] at hconflict
    cases hconflict
  · by_cases hempty : (w.phase i).locks = []
    · have hheld : (w.phase j).locks ≠ [] := List.ne_nil_of_mem hm
      rw [Phase.rank, Phase.rank, if_neg hu, if_pos hempty, if_neg hheld]
      split <;> decide
    · have hv := user_of_request hempty hu hl hm hconflict
      rw [Phase.rank, Phase.rank, if_neg hu, if_neg hempty, if_pos hv]
      decide

/-- **No deadlock** between turn persists, starts, ends and purges of one learner: for
any number of them and every interleaving in which no lock crosses the order of another
transaction, no reachable state has a cycle of waits. -/
theorem no_deadlock_of_ordered {rows : Rows} {operation : ι → Operation} {as : List (Action ι)}
    (hg : Along step (fun w a _ => ordered w a = true) (World.init rows operation) as)
    (hrun : run step (World.init rows operation) as = some w) : ¬w.table.Deadlock w.request := by
  have hi : Uncrossed w := run_invariant
    (fun w a w' hi hg (h : step w a = some w') => step_uncrossed hi hg h)
    (uncrossed_init rows operation) hg hrun
  exact LockTable.not_deadlock_of_rank (fun i => (w.phase i).rank)
    fun i j h => rank_lt_of_waits hi h

end steps

def operations : Fin 3 → Operation := ![.persist 1, .endSession 1, .purge]

/-- The purge waits for the user row that the persist holds with its transcript. -/
theorem no_deadlock_of_ordered_persist_first :
    ∃ w, run step (World.init ⟨[1], [1]⟩ operations) [.advance 0, .advance 0, .advance 0] = some w ∧
      w.table.Waits w.request 2 0 ∧ ¬w.table.Deadlock w.request := by
  obtain ⟨w, hw, hd⟩ := exists_run_of_check step (World.init ⟨[1], [1]⟩ operations)
    [.advance 0, .advance 0, .advance 0]
    (fun w => decide (w.request 2 = some userLock ∧ w.table.Holds 0 userLock)) (by decide)
  obtain ⟨hrequest, hholds⟩ := of_decide_eq_true hd
  exact ⟨w, hw, ⟨by decide, userLock, hrequest, userLock, hholds, by decide⟩,
    no_deadlock_of_ordered (by decide) hw⟩

/-- The purge takes the user row between the upsert of a persist and its metering. -/
theorem persist_and_purge_deadlock :
    ∃ w, run step (World.init ⟨[1], [1]⟩ operations)
        [.advance 0, .advance 0, .advance 2, .advance 2] = some w ∧
      w.table.Waits w.request 0 2 ∧ w.table.Waits w.request 2 0 ∧ w.table.Deadlock w.request := by
  obtain ⟨w, hw, hd⟩ := exists_run_of_check step (World.init ⟨[1], [1]⟩ operations)
    [.advance 0, .advance 0, .advance 2, .advance 2]
    (fun w => decide ((w.request 0 = some userLock ∧ w.table.Holds 2 userLock) ∧
      w.request 2 = some (transcriptLock 1) ∧ w.table.Holds 0 (transcriptLock 1))) (by decide)
  obtain ⟨⟨huser, hpurge⟩, htranscript, hpersist⟩ := of_decide_eq_true hd
  have hout : w.table.Waits w.request 0 2 :=
    ⟨by decide, userLock, huser, userLock, hpurge, by decide⟩
  have hback : w.table.Waits w.request 2 0 :=
    ⟨by decide, transcriptLock 1, htranscript, transcriptLock 1, hpersist, by decide⟩
  exact ⟨w, hw, hout, hback, 0, .tail (.single hout) hback⟩

end Apm.VoiceData.Locking
