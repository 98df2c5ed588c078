import Apm.Lib.Calls
import Apm.Lib.Expiring
import Apm.Lib.Lines
import Apm.Lib.Run

/-!
# The rate limiter on the server

`RedisRateLimiter` counts the hits of a key in fixed windows of the wall clock, one counter for
each window, in one script that also gives a new counter its expiry. The workers read their
clocks, the server runs the scripts in its own order and at its own time, and a reply can be
lost. The counters live a second longer than the window: as long as no script is later than
another one by more than this second, no counter starts anew within its window.
-/

namespace Apm.Core.RedisRateLimit

open Apm.Lib

set_option autoImplicit false

abbrev Text := List Char

/-- Nats count microseconds since the epoch. -/
def microsPerSecond : Nat := 1000000

/-- What a limiter is built with; a window of no seconds has no bucket. -/
structure Limits where
  maxHits : Int
  windowSeconds : Nat
  failOpen : Bool
  positive : 0 < windowSeconds

/-- The name of a limiter. -/
abbrev Namespace := {name : Text // ':' ∉ name}

/-- A call of `check`, with what `time.time()` gave. -/
structure Hit where
  namespace_ : Namespace
  key : Text
  now : Nat
  deriving DecidableEq

def Limits.window (l : Limits) : Nat := l.windowSeconds * microsPerSecond

/-- `int(time.time() // self._window)`. -/
def Limits.bucket (l : Limits) (now : Nat) : Nat := now / l.window

/-- `rate:{namespace}:{bucket}:{key}` -/
def redisKey (namespace_ : Namespace) (bucket : Nat) (key : Text) : Text :=
  "rate:".toList ++ (namespace_.val ++ ':' :: (Nat.toDigits 10 bucket ++ ':' :: key))

/-- No two counters share a key. -/
theorem redisKey_inj {ns ns' : Namespace} {b b' : Nat} {key key' : Text} :
    redisKey ns b key = redisKey ns' b' key' ↔ ns = ns' ∧ b = b' ∧ key = key' := by
  have hdigits (n : Nat) : ':' ∉ Nat.toDigits 10 n := fun hmem =>
    absurd (Nat.isDigit_of_mem_toDigits (by decide) (by decide) hmem) (by decide)
  rw [redisKey, redisKey, List.append_cancel_left_eq, append_separator_inj ns.2 ns'.2,
    append_separator_inj (hdigits b) (hdigits b'), Subtype.val_inj]
  have hb : Nat.toDigits 10 b = Nat.toDigits 10 b' ↔ b = b' := by
    constructor
    · intro h
      rw [← Nat.ofDigitChars_ten_toDigits (n := b), h, Nat.ofDigitChars_ten_toDigits]
    · exact congrArg _
  rw [hb]

abbrev Redis := Expiring Text Nat Nat

/-- `_INCR_AND_EXPIRE_SCRIPT`, which nothing interleaves with. -/
def incrAndExpire (redis : Redis) (k : Text) (seconds : Nat) (now : Nat) : Nat × Redis :=
  let (count, redis) := redis.incr now k
  (count, if count = 1 then redis.expire now k (now + seconds * microsPerSecond) else redis)

section script

variable {redis : Redis} {k : Text} {seconds : Nat} {now : Nat}

/-- A counter that is there counts on, until its old expiry. -/
theorem incrAndExpire_of_live {n : Nat} {expiresAt : Option Nat} (seconds : Nat)
    (h : redis.live now k = some ⟨k, n, expiresAt⟩) (hn : 0 < n) :
    (incrAndExpire redis k seconds now).1 = n + 1 ∧
      ∀ k', (incrAndExpire redis k seconds now).2.get k' =
        if k = k' then some ⟨k, n + 1, expiresAt⟩ else redis.get k' := by
  simp only [incrAndExpire, Expiring.incr_of_live h]
  refine ⟨trivial, fun k' => ?_⟩
  rw [if_neg (by omega), Table.get_upsert]

/-- A counter that is not there starts at one, with an expiry. -/
theorem incrAndExpire_of_none (seconds : Nat) (h : redis.live now k = none) :
    (incrAndExpire redis k seconds now).1 = 1 ∧
      ∀ k', (incrAndExpire redis k seconds now).2.get k' =
        if k = k' then some ⟨k, 1, some (now + seconds * microsPerSecond)⟩ else redis.get k' := by
  simp only [incrAndExpire, Expiring.incr_of_none h]
  refine ⟨trivial, fun k' => ?_⟩
  rw [if_pos trivial, Expiring.expire_upsert, Table.get_upsert, Table.get_upsert]
  by_cases hk : k = k'
  · rw [if_pos hk, if_pos hk]
  · rw [if_neg hk, if_neg hk, if_neg hk]

end script

/-! ## The checks -/

/-- Where a call of `check` is, and how it ends. -/
inductive Phase where
  | sent
  | counted (hits : Nat)
  | admitted
  | refused
  /-- no reply from the server: what `fail_open` says -/
  | unavailable (allowed : Bool)
  deriving DecidableEq, Repr

/-- The checks of all workers; the scripts that ran are a history, each with its hit and time. -/
structure World where
  redis : Redis
  calls : List (Call Hit Phase)
  ran : List (Hit × Nat)

def World.init : World := ⟨Table.empty _, [], []⟩

inductive Event where
  | check (hit : Hit)
  /-- the script of the `i`th call runs on the server -/
  | script (i : Nat) (at_ : Nat)
  /-- a script whose caller is gone runs after all -/
  | stray (hit : Hit) (at_ : Nat)
  | reply (i : Nat)
  /-- `RedisError`, whether the script ran or not -/
  | error (i : Nat)
  deriving DecidableEq

variable (limits : Namespace → Limits)

def World.setPhase (w : World) (i : Nat) (phase : Phase) : World :=
  { w with calls := Call.setPhase w.calls i phase }

def Hit.bucket (hit : Hit) : Nat := (limits hit.namespace_).bucket hit.now

def Hit.redisKey (hit : Hit) : Text :=
  RedisRateLimit.redisKey hit.namespace_ (hit.bucket limits) hit.key

/-- The script of a hit, with `args=[str(self._window + 1)]`. -/
def World.runScript (w : World) (hit : Hit) (at_ : Nat) : Nat × World :=
  let (hits, redis) := incrAndExpire w.redis (hit.redisKey limits)
    ((limits hit.namespace_).windowSeconds + 1) at_
  (hits, { w with redis := redis, ran := w.ran ++ [(hit, at_)] })

def step (w : World) : Event → Option World
  | .check hit => some { w with calls := w.calls ++ [⟨hit, .sent⟩] }
  | .script i at_ =>
    match w.calls[i]? with
    | some ⟨hit, .sent⟩ =>
      let (hits, w) := w.runScript limits hit at_
      some (w.setPhase i (.counted hits))
    | _ => none
  | .stray hit at_ => some (w.runScript limits hit at_).2
  | .reply i =>
    match w.calls[i]? with
    | some ⟨hit, .counted hits⟩ =>
      some (w.setPhase i
        (if (limits hit.namespace_).maxHits < hits then .refused else .admitted))
    | _ => none
  | .error i =>
    match w.calls[i]? with
    | some ⟨hit, .sent⟩ | some ⟨hit, .counted _⟩ =>
      some (w.setPhase i (.unavailable (limits hit.namespace_).failOpen))
    | _ => none

/-! ## The counters -/

/-- The hit counts for this window of the key. -/
def Hit.For (hit : Hit) (ns : Namespace) (b : Nat) (key : Text) : Prop :=
  hit.namespace_ = ns ∧ hit.bucket limits = b ∧ hit.key = key

instance (hit : Hit) (ns : Namespace) (b : Nat) (key : Text) : Decidable (hit.For limits ns b key) :=
  inferInstanceAs (Decidable (_ ∧ _ ∧ _))

/-- The scripts that ran for one window of a key. -/
def ranFor (ran : List (Hit × Nat)) (ns : Namespace) (b : Nat) (key : Text) :
    List (Hit × Nat) := ran.filter fun r => r.1.For limits ns b key

/-- The counter that the scripts of one window leave, if they all found it. -/
def counter (k : Text) (seconds : Nat) (ran : List (Hit × Nat)) :
    Option (Expiring.Entry Text Nat Nat) :=
  ran.head?.map fun r => ⟨k, ran.length, some (r.2 + seconds * microsPerSecond)⟩

/-- A script runs behind its reading of the clock, by no more than a second more than any other. -/
def Timely (lag : Int) (ran : List (Hit × Nat)) : Prop :=
  ∀ r ∈ ran, lag ≤ (r.2 : Int) - r.1.now ∧ (r.2 : Int) - r.1.now ≤ lag + microsPerSecond

def Counted (redis : Redis) (ran : List (Hit × Nat)) : Prop :=
  ∀ ns b key, redis.get (redisKey ns b key) =
    counter (redisKey ns b key) ((limits ns).windowSeconds + 1) (ranFor limits ran ns b key)

variable {limits}

theorem mem_ranFor {ran : List (Hit × Nat)} {ns : Namespace} {b : Nat} {key : Text}
    {r : Hit × Nat} : r ∈ ranFor limits ran ns b key ↔ r ∈ ran ∧ r.1.For limits ns b key := by
  rw [ranFor, List.mem_filter, decide_eq_true_iff]

theorem ranFor_append {ran : List (Hit × Nat)} {ns : Namespace} {b : Nat} {key : Text}
    {r : Hit × Nat} : ranFor limits (ran ++ [r]) ns b key =
      ranFor limits ran ns b key ++ if r.1.For limits ns b key then [r] else [] := by
  rw [ranFor, List.filter_append, ranFor]
  split
  · rename_i h
    simp [h]
  · rename_i h
    simp [h]

theorem redisKey_eq_iff {hit : Hit} {ns : Namespace} {b : Nat} {key : Text} :
    hit.redisKey limits = redisKey ns b key ↔ hit.For limits ns b key := redisKey_inj

/-- Two readings of the clock in one window are less than a window apart. -/
theorem now_lt_of_bucket_eq {hit hit' : Hit} {ns : Namespace} {b : Nat} {key : Text}
    (h : hit.For limits ns b key) (h' : hit'.For limits ns b key) :
    hit'.now < hit.now + (limits ns).window := by
  obtain ⟨rfl, hb, -⟩ := h
  obtain ⟨hns, hb', -⟩ := h'
  rw [Hit.bucket, Limits.bucket] at hb hb'
  rw [hns] at hb'
  have hpos : 0 < (limits hit.namespace_).window :=
    Nat.mul_pos (limits hit.namespace_).positive (by decide)
  have hlow := Nat.div_mul_le_self hit.now (limits hit.namespace_).window
  have hhigh := Nat.lt_div_mul_add (a := hit'.now) hpos
  rw [hb] at hlow
  rw [hb'] at hhigh
  exact hhigh.trans_le (Nat.add_le_add_right hlow _)

/-- The script of a hit finds the counter of its window, and counts on. -/
theorem runScript_counted {w : World} {hit : Hit} {at_ : Nat} {lag : Int}
    (hw : Counted limits w.redis w.ran)
    (htimely : Timely lag (w.ran ++ [(hit, at_)])) :
    (w.runScript limits hit at_).1 =
        (ranFor limits w.ran hit.namespace_ (hit.bucket limits) hit.key).length + 1 ∧
      Counted limits (w.runScript limits hit at_).2.redis (w.ran ++ [(hit, at_)]) := by
  have hself : hit.For limits hit.namespace_ (hit.bucket limits) hit.key := ⟨rfl, rfl, rfl⟩
  have hget := hw hit.namespace_ (hit.bucket limits) hit.key
  -- what the script does to any counter, from what it does to its own
  have hcounted {redis : Redis}
      (hnew : ∀ k', redis.get k' = if hit.redisKey limits = k' then
        counter (hit.redisKey limits) ((limits hit.namespace_).windowSeconds + 1)
          (ranFor limits (w.ran ++ [(hit, at_)]) hit.namespace_ (hit.bucket limits) hit.key)
        else w.redis.get k') : Counted limits redis (w.ran ++ [(hit, at_)]) := by
    intro ns b key
    rw [hnew]
    by_cases hfor : hit.For limits ns b key
    · obtain ⟨rfl, rfl, rfl⟩ := hfor
      exact if_pos rfl
    · rw [if_neg (mt redisKey_eq_iff.mp hfor), hw ns b key, ranFor_append, if_neg hfor,
        List.append_nil]
  cases hran : ranFor limits w.ran hit.namespace_ (hit.bucket limits) hit.key with
  | nil =>
    have hlive : w.redis.live at_ (hit.redisKey limits) = none := by
      rw [Expiring.live, Hit.redisKey, hget, hran]
      rfl
    obtain ⟨hone, hnew⟩ := incrAndExpire_of_none
      ((limits hit.namespace_).windowSeconds + 1) hlive
    refine ⟨hone, hcounted fun k' => ?_⟩
    rw [ranFor_append, hran, if_pos hself]
    exact hnew k'
  | cons first rest =>
    have hfirst := mem_ranFor.mp (hran ▸ List.mem_cons_self :
      first ∈ ranFor limits w.ran hit.namespace_ (hit.bucket limits) hit.key)
    -- the first script gave the counter more time than is left of its window and a second
    have hafter : at_ ≤ first.2 + ((limits hit.namespace_).windowSeconds + 1) * microsPerSecond := by
      have hwindow := now_lt_of_bucket_eq hfirst.2 hself
      have hlow := (htimely first (List.mem_append_left _ hfirst.1)).1
      have hhigh := (htimely (hit, at_) (List.mem_append_right _ (List.mem_singleton_self _))).2
      rw [Limits.window] at hwindow
      rw [Nat.add_mul, Nat.one_mul]
      dsimp only at hhigh
      omega
    have hlive : w.redis.live at_ (hit.redisKey limits) = some ⟨hit.redisKey limits,
        (first :: rest).length,
        some (first.2 + ((limits hit.namespace_).windowSeconds + 1) * microsPerSecond)⟩ := by
      rw [Expiring.live_eq_some_iff, Hit.redisKey, hget, hran]
      refine ⟨rfl, fun t ht => ?_⟩
      obtain rfl := Option.some.inj ht
      exact hafter
    obtain ⟨hnext, hnew⟩ := incrAndExpire_of_live
      ((limits hit.namespace_).windowSeconds + 1) hlive (Nat.succ_pos _)
    refine ⟨hnext, hcounted fun k' => ?_⟩
    rw [ranFor_append, hran, if_pos hself]
    refine (hnew k').trans ?_
    rw [counter, List.length_append, List.length_singleton]
    rfl

/-! ## The checks that pass -/

/-- The call has a place of the window, or will have one when its reply arrives. -/
def charged (limits : Namespace → Limits) (ns : Namespace) (b : Nat) (key : Text)
    (c : Call Hit Phase) : Bool :=
  decide (c.arg.For limits ns b key) &&
    match c.phase with
    | .admitted => true
    | .counted hits => decide ((hits : Int) ≤ (limits ns).maxHits)
    | _ => false

structure Inv (limits : Namespace → Limits) (w : World) : Prop where
  counted : Counted limits w.redis w.ran
  charged : ∀ ns b key, w.calls.countP (charged limits ns b key) ≤
    min (ranFor limits w.ran ns b key).length (limits ns).maxHits.toNat
  blind : ∀ c ∈ w.calls, ∀ allowed, c.phase = .unavailable allowed →
    allowed = (limits c.arg.namespace_).failOpen

/-- A call that moves without a script takes no place it did not have. -/
theorem inv_setPhase {w : World} {i : Nat} {hit : Hit} {phase phase' : Phase} (hw : Inv limits w)
    (hcall : w.calls[i]? = some ⟨hit, phase⟩)
    (hplace : ∀ ns b key, charged limits ns b key ⟨hit, phase'⟩ = true →
      charged limits ns b key ⟨hit, phase⟩ = true)
    (hblind : ∀ allowed, phase' = .unavailable allowed →
      allowed = (limits hit.namespace_).failOpen) : Inv limits (w.setPhase i phase') := by
  refine ⟨hw.counted, fun ns b key => ?_, Call.forall_setPhase hw.blind fun c hc => ?_⟩
  · have hcount := Call.countP_setPhase (charged limits ns b key) phase' hcall
    refine le_trans ?_ (hw.charged ns b key)
    have himp := hplace ns b key
    rw [World.setPhase]
    dsimp only at hcount ⊢
    split_ifs at hcount with h h' h'
    · omega
    · omega
    · exact absurd (himp h') h
    · omega
  · obtain rfl := Option.some.inj (hcall.symm.trans hc)
    exact hblind

theorem inv_script {w : World} {hit : Hit} {at_ : Nat} {lag : Int} (hw : Inv limits w)
    (htimely : Timely lag (w.ran ++ [(hit, at_)])) :
    Inv limits (w.runScript limits hit at_).2 := by
  refine ⟨(runScript_counted hw.counted htimely).2, fun ns b key => ?_, hw.blind⟩
  have hold := hw.charged ns b key
  change w.calls.countP _ ≤ min (ranFor limits (w.ran ++ [(hit, at_)]) ns b key).length _
  rw [ranFor_append, List.length_append]
  omega

theorem inv_step {w w' : World} {e : Event} {lag : Int} (hw : Inv limits w)
    (htimely : Timely lag w'.ran) (h : step limits w e = some w') : Inv limits w' := by
  cases e with
  | check hit =>
    obtain rfl := Option.some.inj h
    refine ⟨hw.counted, fun ns b key => ?_, Call.forall_begin hw.blind nofun⟩
    rw [Call.countP_begin, charged, Bool.and_false, if_neg (by decide), Nat.add_zero]
    exact hw.charged ns b key
  | script i at_ =>
    simp only [step] at h
    split at h
    · rename_i hit hcall
      obtain rfl := Option.some.inj h
      have hscript := inv_script hw htimely
      obtain ⟨hhits, -⟩ := runScript_counted hw.counted htimely
      refine ⟨hscript.counted, fun ns b key => ?_, Call.forall_setPhase hw.blind fun _ _ => nofun⟩
      have hcount := Call.countP_setPhase (charged limits ns b key)
        (.counted (w.runScript limits hit at_).1) hcall
      change (Call.setPhase w.calls i _).countP _ ≤
        min (ranFor limits (w.ran ++ [(hit, at_)]) ns b key).length _
      have hold := hw.charged ns b key
      rw [ranFor_append, List.length_append]
      by_cases hfor : hit.For limits ns b key
      · have hlast := hfor
        obtain ⟨rfl, rfl, rfl⟩ := hlast
        rw [hhits] at hcount ⊢
        simp only [charged, hfor, decide_true, Bool.true_and, decide_eq_true_eq,
          Bool.false_eq_true, if_false, Nat.add_zero] at hcount
        rw [hcount, if_pos hfor, List.length_singleton]
        split <;> omega
      · simp only [charged, hfor, decide_false, Bool.false_and, Bool.false_eq_true, if_false,
          Nat.add_zero] at hcount
        rw [if_neg hfor, List.length_nil, hcount]
        omega
    · cases h
  | stray hit at_ =>
    obtain rfl := Option.some.inj h
    exact inv_script hw htimely
  | reply i =>
    simp only [step] at h
    split at h
    · rename_i hit hits hcall
      obtain rfl := Option.some.inj h
      refine inv_setPhase hw hcall (fun ns b key hplace => ?_) fun allowed hp => ?_
      · split at hplace
        · simp [charged] at hplace
        · rename_i hfits
          simp only [charged, Bool.and_eq_true, decide_eq_true_eq, and_true] at hplace ⊢
          exact ⟨hplace, hplace.1 ▸ Int.not_lt.mp hfits⟩
      · split at hp <;> cases hp
    · cases h
  | error i =>
    simp only [step] at h
    split at h
    · rename_i hit hcall
      obtain rfl := Option.some.inj h
      exact inv_setPhase hw hcall (fun ns b key hplace => by simp [charged] at hplace)
        fun allowed hp => (Phase.unavailable.inj hp).symm
    · rename_i hit hits hcall
      obtain rfl := Option.some.inj h
      exact inv_setPhase hw hcall (fun ns b key hplace => by simp [charged] at hplace)
        fun allowed hp => (Phase.unavailable.inj hp).symm
    · cases h

theorem ran_subset {w w' : World} {e : Event} (h : step limits w e = some w') :
    w.ran ⊆ w'.ran := by
  cases e with
  | check hit => exact Option.some.inj h ▸ List.Subset.refl _
  | script i at_ =>
    simp only [step] at h
    split at h
    · exact Option.some.inj h ▸ List.subset_append_left _ _
    · cases h
  | stray hit at_ => exact Option.some.inj h ▸ List.subset_append_left _ _
  | reply i =>
    simp only [step] at h
    split at h
    · exact Option.some.inj h ▸ List.Subset.refl _
    · cases h
  | error i =>
    simp only [step] at h
    split at h
    · exact Option.some.inj h ▸ List.Subset.refl _
    · exact Option.some.inj h ▸ List.Subset.refl _
    · cases h

theorem inv_of_run {es : List Event} {w : World} {lag : Int}
    (h : run (step limits) World.init es = some w) (htimely : Timely lag w.ran) : Inv limits w := by
  refine run_preserves (I := fun w => Timely lag w.ran → Inv limits w) (fun s e t hs hst ht => ?_)
    (fun _ => ⟨fun _ _ _ => rfl, fun _ _ _ => Nat.zero_le _, List.forall_mem_nil _⟩) h htimely
  exact inv_step (hs fun r hr => ht r (ran_subset hst hr)) ht hst

/-- The calls of a key that the server let through, with a clock in the interval. -/
def admittedIn (w : World) (ns : Namespace) (key : Text) (a b : Nat) : Nat :=
  w.calls.countP fun c => decide (c.arg.namespace_ = ns ∧ c.arg.key = key ∧ c.phase = .admitted ∧
    a ≤ c.arg.now ∧ c.arg.now < b)

theorem admittedIn_bucket_le {w : World} (hw : Inv limits w) (ns : Namespace) (key : Text)
    (b : Nat) :
    admittedIn w ns key (b * (limits ns).window) ((b + 1) * (limits ns).window) ≤
      (limits ns).maxHits.toNat := by
  refine le_trans ?_ ((hw.charged ns b key).trans (Nat.min_le_right _ _))
  refine List.countP_mono_left fun c _ hc => ?_
  obtain ⟨rfl, rfl, hphase, hlow, hhigh⟩ := of_decide_eq_true hc
  have hbucket : c.arg.bucket limits = b := by
    rw [Hit.bucket, Limits.bucket]
    exact Nat.div_eq_of_lt_le hlow hhigh
  rw [charged, hphase, Bool.and_true]
  exact decide_eq_true ⟨rfl, hbucket, rfl⟩

/-- **In one window of the clock at most `max_hits` calls of a key are let through, and in any
interval as long at most twice as many**, whatever the workers, the order of the scripts and the
replies that are lost, as long as no script is late by a second more than another one. A limiter
that fails closed lets no other call through. -/
theorem admitted_le_max {es : List Event} {w : World} {lag : Int}
    (h : run (step limits) World.init es = some w) (htimely : Timely lag w.ran) (ns : Namespace)
    (key : Text) :
    (∀ b, admittedIn w ns key (b * (limits ns).window) ((b + 1) * (limits ns).window) ≤
      (limits ns).maxHits.toNat) ∧
    (∀ a, admittedIn w ns key a (a + (limits ns).window) ≤ 2 * (limits ns).maxHits.toNat) ∧
    ((limits ns).failOpen = false → ∀ c ∈ w.calls, c.arg.namespace_ = ns →
      c.phase ≠ .unavailable true) := by
  have hw := inv_of_run h htimely
  refine ⟨admittedIn_bucket_le hw ns key, fun a => ?_, fun hclosed c hc hns hp => ?_⟩
  · -- the interval lies in the window of its start and the next one
    have hpos : 0 < (limits ns).window := Nat.mul_pos (limits ns).positive (by decide)
    have hfirst := admittedIn_bucket_le hw ns key (a / (limits ns).window)
    have hnext := admittedIn_bucket_le hw ns key (a / (limits ns).window + 1)
    have hcover : admittedIn w ns key a (a + (limits ns).window) ≤
        admittedIn w ns key (a / (limits ns).window * (limits ns).window)
          ((a / (limits ns).window + 1) * (limits ns).window) +
        admittedIn w ns key ((a / (limits ns).window + 1) * (limits ns).window)
          ((a / (limits ns).window + 1 + 1) * (limits ns).window) := by
      refine Call.countP_le_add fun c _ hc => ?_
      obtain ⟨hns, hkey, hphase, hlow, hhigh⟩ := of_decide_eq_true hc
      have hstart := Nat.div_mul_le_self a (limits ns).window
      have hend := Nat.lt_div_mul_add (a := a) hpos
      simp only [decide_eq_true_eq, hns, hkey, hphase, Nat.add_mul, Nat.one_mul, true_and]
      omega
    omega
  · have hopen := hw.blind c hc true hp
    rw [hns, hclosed] at hopen
    cases hopen

def loginLimits : Namespace → Limits := fun _ => ⟨1, 60, false, by decide⟩

def login (now : Nat) : Hit := ⟨⟨"login".toList, by decide⟩, "9.9.9.9".toList, now⟩

/-- Two workers check one key within a window of one hit; the second script is half a second late. -/
def loginTwice : List Event :=
  [.check (login 5000000), .check (login 5000001), .script 1 5000100, .script 0 5500000, .reply 0,
    .reply 1]

theorem admitted_le_max_loginTwice :
    ∃ w, run (step loginLimits) World.init loginTwice = some w ∧
      admittedIn w (login 0).namespace_ (login 0).key 0 60000000 ≤ 1 := by
  have hcheck : (run (step loginLimits) World.init loginTwice).map (fun w =>
      decide (w.ran = [(login 5000001, 5000100), (login 5000000, 5500000)])) = some true := by decide
  obtain ⟨w, hrun, hw⟩ := exists_run_of_check _ _ _ _ hcheck
  have htimely : Timely 0 w.ran := by
    rw [of_decide_eq_true hw]
    intro r hr
    simp only [List.mem_cons, List.not_mem_nil, or_false] at hr
    rcases hr with rfl | rfl <;> decide
  exact ⟨w, hrun, (admitted_le_max hrun htimely (login 0).namespace_ (login 0).key).1 0⟩

/-! ## The counters that stay -/

/-- The hits of a key. -/
def hitsOf (limits : Namespace → Limits) (ran : List (Hit × Nat)) (k : Text) : Nat :=
  ran.countP fun r => r.1.redisKey limits = k

/-- A counter has counted from one since the hit that created it, and expires with the window of
that hit. -/
def Expires (limits : Namespace → Limits) (ran : List (Hit × Nat)) (k : Text)
    (e : Expiring.Entry Text Nat Nat) : Prop :=
  ∃ earlier creator later, ran = earlier ++ creator :: later ∧ creator.1.redisKey limits = k ∧
    e.value = 1 + hitsOf limits later k ∧
    e.expiresAt =
      some (creator.2 + ((limits creator.1.namespace_).windowSeconds + 1) * microsPerSecond)

def AllExpire (limits : Namespace → Limits) (w : World) : Prop :=
  ∀ k e, w.redis.get k = some e → Expires limits w.ran k e

theorem hitsOf_append {ran : List (Hit × Nat)} {r : Hit × Nat} {k : Text} :
    hitsOf limits (ran ++ [r]) k =
      hitsOf limits ran k + if r.1.redisKey limits = k then 1 else 0 := by
  rw [hitsOf, hitsOf, List.countP_append, List.countP_singleton]
  simp only [decide_eq_true_eq]

/-- A hit more that the counter has counted, or that is of another key. -/
theorem Expires.append {ran : List (Hit × Nat)} {r : Hit × Nat} {k : Text} {n : Nat}
    {expiresAt : Option Nat} (h : Expires limits ran k ⟨k, n, expiresAt⟩) :
    Expires limits (ran ++ [r]) k
      ⟨k, n + if r.1.redisKey limits = k then 1 else 0, expiresAt⟩ := by
  obtain ⟨earlier, creator, later, rfl, hkey, hvalue, hexp⟩ := h
  refine ⟨earlier, creator, later ++ [r], ?_, hkey, ?_, hexp⟩
  · rw [List.append_assoc, List.cons_append]
  · rw [hitsOf_append, ← Nat.add_assoc]
    exact congrArg (· + _) hvalue

theorem allExpire_runScript {w : World} {hit : Hit} {at_ : Nat} (hw : AllExpire limits w) :
    AllExpire limits (w.runScript limits hit at_).2 := by
  have hother {k : Text} {e : Expiring.Entry Text Nat Nat} (he : w.redis.get k = some e)
      (hk : hit.redisKey limits ≠ k) : Expires limits (w.ran ++ [(hit, at_)]) k e := by
    obtain rfl : e.key = k := Table.key_of_get he
    have happend := (hw _ e he).append (r := (hit, at_))
    rw [if_neg hk] at happend
    exact happend
  intro k e he
  change (incrAndExpire w.redis (hit.redisKey limits)
    ((limits hit.namespace_).windowSeconds + 1) at_).2.get k = some e at he
  cases hlive : w.redis.live at_ (hit.redisKey limits) with
  | none =>
    rw [(incrAndExpire_of_none _ hlive).2] at he
    split at he
    · rename_i hk
      obtain rfl := Option.some.inj he
      exact ⟨w.ran, (hit, at_), [], rfl, hk, rfl, rfl⟩
    · rename_i hk
      exact hother he hk
  | some e₀ =>
    have hget := (Expiring.live_eq_some_iff.mp hlive).1
    have hcounts := hw _ _ hget
    obtain ⟨k₀, n, expiresAt⟩ := e₀
    obtain rfl : k₀ = hit.redisKey limits := Expiring.key_of_live hlive
    have hpos : 0 < n := by
      obtain ⟨-, -, later, -, -, hvalue, -⟩ := hcounts
      dsimp only at hvalue
      omega
    rw [(incrAndExpire_of_live _ hlive hpos).2] at he
    split at he
    · rename_i hk
      obtain rfl := Option.some.inj he
      subst hk
      have happend := hcounts.append (r := (hit, at_))
      rw [if_pos rfl] at happend
      exact happend
    · rename_i hk
      exact hother he hk

theorem allExpire_step {w w' : World} {e : Event} (hw : AllExpire limits w)
    (h : step limits w e = some w') : AllExpire limits w' := by
  cases e with
  | check hit => exact Option.some.inj h ▸ hw
  | script i at_ =>
    simp only [step] at h
    split at h
    · exact Option.some.inj h ▸ allExpire_runScript hw
    · cases h
  | stray hit at_ => exact Option.some.inj h ▸ allExpire_runScript hw
  | reply i =>
    simp only [step] at h
    split at h
    · exact Option.some.inj h ▸ hw
    · cases h
  | error i =>
    simp only [step] at h
    split at h
    · exact Option.some.inj h ▸ hw
    · exact Option.some.inj h ▸ hw
    · cases h

/-- **No counter is left without an expiry**: whatever is lost or late, a counter on the server
goes a window and a second after the hit that created it. That hit is the one it has counted from:
the counter stands at one more than the hits of its key behind it. -/
theorem counter_expires {es : List Event} {w : World}
    (h : run (step limits) World.init es = some w) {k : Text} {e : Expiring.Entry Text Nat Nat}
    (hget : w.redis.get k = some e) :
    ∃ earlier creator later, w.ran = earlier ++ creator :: later ∧
      creator.1.redisKey limits = k ∧ e.value = 1 + hitsOf limits later k ∧
      e.expiresAt =
        some (creator.2 + ((limits creator.1.namespace_).windowSeconds + 1) * microsPerSecond) :=
  run_preserves (fun _ _ _ => allExpire_step) (fun _ _ he => absurd he.symm (Option.some_ne_none _))
    h k e hget

theorem counter_expires_loginTwice :
    ∃ w e, run (step loginLimits) World.init loginTwice = some w ∧
      w.redis.get ((login 0).redisKey loginLimits) = some e ∧
      ∃ creator ∈ w.ran, e.expiresAt = some (creator.2 + 61 * microsPerSecond) := by
  have hcheck : (run (step loginLimits) World.init loginTwice).map (fun w =>
      (w.redis.get ((login 0).redisKey loginLimits)).isSome) = some true := by decide
  obtain ⟨w, hrun, hsome⟩ := exists_run_of_check _ _ _ _ hcheck
  obtain ⟨e, hget⟩ := Option.isSome_iff_exists.mp hsome
  obtain ⟨earlier, creator, later, hran, -, -, hexp⟩ := counter_expires hrun hget
  exact ⟨w, e, hrun, hget, creator, hran ▸ List.mem_append_right _ List.mem_cons_self, hexp⟩

end Apm.Core.RedisRateLimit
