import Apm.Lib.SlidingWindow
import Apm.Lib.Table
import Mathlib.Algebra.Order.Ring.Int
import Mathlib.Data.Finset.Card

/-!
# The in-memory rate limiter

`InMemoryRateLimiter` keeps a bucket of times for each key, in a dictionary in the order of
insertion. A check expires the bucket of its own key, removes it when it is empty, drops the
oldest key to make room for a new one, and then takes the hit or refuses it. As long as no key is
dropped, a bucket holds the accepted hits of its key that can still count.
-/

namespace Apm.Core.RateLimit

open Apm.Lib (Table MonotoneSub)
open Apm.Lib.SlidingWindow

set_option autoImplicit false

structure Bucket (κ τ : Type) where
  key : κ
  hits : List τ
  deriving DecidableEq, Repr

variable {κ τ : Type} [DecidableEq κ]

/-- The bucket of a key; `defaultdict` has an empty one for a new key. -/
def bucketOf (hits : Table (Bucket.key : Bucket κ τ → κ)) (key : κ) : List τ :=
  ((hits.get key).map Bucket.hits).getD []

section dict

variable {hits : Table (Bucket.key : Bucket κ τ → κ)} {key k : κ} {bucket : List τ}

theorem bucketOf_of_isNone (h : (hits.get key).isNone) : bucketOf hits key = [] := by
  rw [bucketOf, Option.isNone_iff_eq_none.mp h]
  rfl

theorem bucketOf_upsert :
    bucketOf (hits.upsert ⟨key, bucket⟩) k = if k = key then bucket else bucketOf hits k := by
  rw [bucketOf, Table.get_upsert]
  by_cases hk : key = k
  · rw [if_pos hk, if_pos hk.symm]
    rfl
  · rw [if_neg hk, if_neg fun he => hk he.symm, bucketOf]

/-- To get or create a bucket changes none. -/
theorem bucketOf_create :
    bucketOf (hits.upsert ⟨key, bucketOf hits key⟩) k = bucketOf hits k := by
  rw [bucketOf_upsert]
  by_cases hk : k = key
  · rw [if_pos hk, hk]
  · rw [if_neg hk]

theorem bucketOf_delete :
    bucketOf (hits.delete fun b => b.key = key) k = if k = key then [] else bucketOf hits k := by
  rw [bucketOf, Table.get_delete]
  cases hget : hits.get k with
  | none =>
    rw [bucketOf_of_isNone (by rw [hget]; rfl), ite_self]
    rfl
  | some b =>
    have hb : b.key = k := Table.key_of_get hget
    by_cases hk : k = key
    · rw [if_pos hk, Option.filter_some, hb, decide_eq_true hk]
      rfl
    · rw [if_neg hk, Option.filter_some, hb, decide_eq_false hk, bucketOf, hget]
      rfl

theorem length_upsert_le : (hits.upsert ⟨key, bucket⟩).rows.length ≤ hits.rows.length + 1 := by
  unfold Table.upsert
  split
  · rw [Table.update, List.length_map]
    exact Nat.le_succ _
  · rw [List.length_append, List.length_singleton]

theorem length_upsert_of_mem (h : key ∈ hits.keys) :
    (hits.upsert ⟨key, bucket⟩).rows.length = hits.rows.length := by
  have hkeys := congrArg List.length (Table.keys_upsert_of_mem (r := Bucket.mk key bucket) h)
  rwa [Table.keys, Table.keys, List.length_map, List.length_map] at hkeys

theorem mem_keys_of_isSome (h : (hits.get key).isSome) : key ∈ hits.keys :=
  Table.mem_keys_iff.mpr (Option.isSome_iff_exists.mp h)

omit [DecidableEq κ] in
theorem keys_delete_subset {p : Bucket κ τ → Bool} : (hits.delete p).keys ⊆ hits.keys :=
  List.map_subset _ List.filter_sublist.subset

omit [DecidableEq κ] in
theorem length_delete_lt {p : Bucket κ τ → Bool} {b : Bucket κ τ} (hb : b ∈ hits.rows)
    (hp : p b = true) : (hits.delete p).rows.length < hits.rows.length := by
  refine List.length_filter_lt_length_iff_exists.mpr ⟨b, hb, ?_⟩
  rw [hp]
  decide

end dict

variable [LinearOrder τ] [Sub τ]

structure InMemoryRateLimiter (κ τ : Type) where
  max : Int
  window : τ
  maxKeys : Int
  hits : Table (Bucket.key : Bucket κ τ → κ)

def InMemoryRateLimiter.create (maxHits : Int) (windowSeconds : τ) (maxKeys : Int) :
    InMemoryRateLimiter κ τ :=
  ⟨maxHits, windowSeconds, maxKeys, Table.empty Bucket.key⟩

inductive Raised where
  | rateLimitedError (message : String)
  /-- what a coroutine makes of the `StopIteration` of an empty dictionary -/
  | runtimeError (message : String)
  deriving DecidableEq, Repr

namespace InMemoryRateLimiter

/-- The key's expired hits are popped, and its bucket removed if none is left. -/
def expire (limiter : InMemoryRateLimiter κ τ) (key : κ) (now : τ) :
    Table (Bucket.key : Bucket κ τ → κ) :=
  if (limiter.hits.get key).isSome then
    let bucket := slide limiter.window now (bucketOf limiter.hits key)
    if bucket.isEmpty then limiter.hits.delete fun b => b.key = key
    else limiter.hits.upsert ⟨key, bucket⟩
  else limiter.hits

/-- A new key takes the place of the oldest one where the dictionary is full. -/
def evict (limiter : InMemoryRateLimiter κ τ) (hits : Table (Bucket.key : Bucket κ τ → κ))
    (key : κ) : Except Raised (Table (Bucket.key : Bucket κ τ → κ)) :=
  if (hits.get key).isNone ∧ limiter.maxKeys ≤ hits.rows.length then
    match hits.rows with
    | [] => .error (.runtimeError "coroutine raised StopIteration")
    | oldest :: _ => .ok (hits.delete fun b => b.key = oldest.key)
  else .ok hits

def check (limiter : InMemoryRateLimiter κ τ) (key : κ) (now : τ) :
    InMemoryRateLimiter κ τ × Except Raised Unit :=
  let hits := limiter.expire key now
  match limiter.evict hits key with
  | .error e => ({ limiter with hits := hits }, .error e)
  | .ok hits =>
    let bucket := bucketOf hits key
    let hits := hits.upsert ⟨key, bucket⟩
    if limiter.max ≤ bucket.length then
      ({ limiter with hits := hits },
        .error (.rateLimitedError "Too many attempts, please retry later"))
    else ({ limiter with hits := hits.upsert ⟨key, bucket ++ [now]⟩ }, .ok ())

end InMemoryRateLimiter

/-! ## A sequence of calls -/

structure Call (κ τ : Type) where
  key : κ
  now : τ
  deriving DecidableEq, Repr

/-- The limiter beside the calls it has accepted. -/
structure Served (κ τ : Type) where
  limiter : InMemoryRateLimiter κ τ
  accepted : List (Call κ τ)

def serveOne (s : Served κ τ) (call : Call κ τ) : Served κ τ :=
  match s.limiter.check call.key call.now with
  | (limiter, .ok ()) => ⟨limiter, s.accepted ++ [call]⟩
  | (limiter, .error _) => ⟨limiter, s.accepted⟩

def serve (limiter : InMemoryRateLimiter κ τ) (calls : List (Call κ τ)) : Served κ τ :=
  calls.foldl serveOne ⟨limiter, []⟩

/-- The times of the calls of one key. -/
def hitsOf (key : κ) (calls : List (Call κ τ)) : List τ :=
  (calls.filter fun call => call.key = key).map Call.now

def distinctKeys (calls : List (Call κ τ)) : Nat := (calls.map Call.key).toFinset.card

omit [LinearOrder τ] [Sub τ] in
theorem distinctKeys_mono {calls more : List (Call κ τ)} (h : calls ⊆ more) :
    distinctKeys calls ≤ distinctKeys more := by
  refine Finset.card_le_card fun k hk => ?_
  rw [List.mem_toFinset] at hk ⊢
  exact List.map_subset _ h hk

/-! ## What the steps of a check leave -/

section steps

variable {limiter : InMemoryRateLimiter κ τ} {key k : κ} {now : τ}

/-- The bucket of the key slides, every other one stays. -/
theorem bucketOf_expire :
    bucketOf (limiter.expire key now) k =
      if k = key then slide limiter.window now (bucketOf limiter.hits key)
      else bucketOf limiter.hits k := by
  unfold InMemoryRateLimiter.expire
  by_cases hsome : (limiter.hits.get key).isSome
  · rw [if_pos hsome]
    cases hslide : slide limiter.window now (bucketOf limiter.hits key) with
    | nil => exact bucketOf_delete
    | cons t rest => exact bucketOf_upsert
  · rw [if_neg hsome]
    by_cases hk : k = key
    · rw [if_pos hk, hk, bucketOf_of_isNone (by simpa using hsome)]
      rfl
    · rw [if_neg hk]

theorem keys_expire_subset : (limiter.expire key now).keys ⊆ limiter.hits.keys := by
  unfold InMemoryRateLimiter.expire
  by_cases hsome : (limiter.hits.get key).isSome
  · rw [if_pos hsome]
    cases slide limiter.window now (bucketOf limiter.hits key) with
    | nil => exact keys_delete_subset
    | cons t rest =>
      have hkeys := Table.keys_upsert_of_mem (r := (⟨key, t :: rest⟩ : Bucket κ τ))
        (mem_keys_of_isSome hsome)
      exact fun k hk => hkeys ▸ hk
  · rw [if_neg hsome]
    exact List.Subset.refl _

theorem length_expire_le : (limiter.expire key now).rows.length ≤ limiter.hits.rows.length := by
  have hnodup : (limiter.expire key now).keys.Nodup := (limiter.expire key now).unique
  have hlength := (hnodup.subperm keys_expire_subset).length_le
  rwa [Table.keys, Table.keys, List.length_map, List.length_map] at hlength

omit [LinearOrder τ] [Sub τ] in
theorem evict_of_room {hits : Table (Bucket.key : Bucket κ τ → κ)}
    (h : key ∈ hits.keys ∨ (hits.rows.length : Int) < limiter.maxKeys) :
    limiter.evict hits key = .ok hits := by
  refine if_neg fun hfull => ?_
  rcases h with hmem | hlt
  · obtain ⟨b, hb⟩ := Table.mem_keys_iff.mp hmem
    rw [hb] at hfull
    exact Bool.false_ne_true hfull.1
  · omega

omit [LinearOrder τ] [Sub τ] in
/-- After an eviction there is room for the key. -/
theorem exists_evict (key : κ) {hits : Table (Bucket.key : Bucket κ τ → κ)} (hpos : 1 ≤ limiter.maxKeys)
    (hlength : (hits.rows.length : Int) ≤ limiter.maxKeys) :
    ∃ hits', limiter.evict hits key = .ok hits' ∧
      (hits'.rows.length : Int) ≤ limiter.maxKeys ∧
      (key ∈ hits'.keys ∨ (hits'.rows.length : Int) < limiter.maxKeys) := by
  by_cases hmem : key ∈ hits.keys
  · exact ⟨hits, evict_of_room (Or.inl hmem), hlength, Or.inl hmem⟩
  by_cases hroom : (hits.rows.length : Int) < limiter.maxKeys
  · exact ⟨hits, evict_of_room (Or.inr hroom), hlength, Or.inr hroom⟩
  have hnone : (hits.get key).isNone = true := by
    cases hget : hits.get key with
    | none => rfl
    | some b => exact absurd (Table.mem_keys_iff.mpr ⟨b, hget⟩) hmem
  rw [InMemoryRateLimiter.evict, if_pos ⟨hnone, not_lt.mp hroom⟩]
  cases hrows : hits.rows with
  | nil =>
    rw [hrows, List.length_nil] at hroom
    omega
  | cons oldest rest =>
    have hless := length_delete_lt (p := fun b => b.key = oldest.key)
      (hrows ▸ List.mem_cons_self : oldest ∈ hits.rows) (decide_eq_true rfl)
    exact ⟨_, rfl, by omega, Or.inr (by omega)⟩

theorem check_reject {hits : Table (Bucket.key : Bucket κ τ → κ)}
    (h : limiter.evict (limiter.expire key now) key = .ok hits)
    (hfull : limiter.max ≤ (bucketOf hits key).length) :
    limiter.check key now = ({ limiter with hits := hits.upsert ⟨key, bucketOf hits key⟩ },
      .error (.rateLimitedError "Too many attempts, please retry later")) := by
  simp only [InMemoryRateLimiter.check, h, if_pos hfull]

theorem check_accept {hits : Table (Bucket.key : Bucket κ τ → κ)}
    (h : limiter.evict (limiter.expire key now) key = .ok hits)
    (hroom : ¬ limiter.max ≤ (bucketOf hits key).length) :
    limiter.check key now = ({ limiter with
      hits := (hits.upsert ⟨key, bucketOf hits key⟩).upsert ⟨key, bucketOf hits key ++ [now]⟩ },
      .ok ()) := by
  simp only [InMemoryRateLimiter.check, h, if_neg hroom]

/-- A check changes nothing but the dictionary. -/
theorem check_eq_with :
    (limiter.check key now).1 = { limiter with hits := (limiter.check key now).1.hits } := by
  unfold InMemoryRateLimiter.check
  dsimp only
  split
  · rfl
  · split
    · rfl
    · rfl

/-- **A check keeps the dictionary within its bound.** -/
theorem length_check_le (hpos : 1 ≤ limiter.maxKeys)
    (hlength : (limiter.hits.rows.length : Int) ≤ limiter.maxKeys) :
    ((limiter.check key now).1.hits.rows.length : Int) ≤ limiter.maxKeys := by
  have hexpire : (limiter.expire key now).rows.length ≤ limiter.hits.rows.length :=
    length_expire_le
  have hexpired : ((limiter.expire key now).rows.length : Int) ≤ limiter.maxKeys := by omega
  obtain ⟨hits, hevict, hle, hroom⟩ := exists_evict key hpos hexpired
  have hcreate (bucket : List τ) :
      ((hits.upsert ⟨key, bucket⟩).rows.length : Int) ≤ limiter.maxKeys := by
    rcases hroom with hmem | hlt
    · rw [length_upsert_of_mem hmem]
      exact hle
    · have hone : (hits.upsert ⟨key, bucket⟩).rows.length ≤ hits.rows.length + 1 :=
        length_upsert_le
      omega
  by_cases hfull : limiter.max ≤ (bucketOf hits key).length
  · rw [check_reject hevict hfull]
    exact hcreate _
  · rw [check_accept hevict hfull]
    have hmem : key ∈ (hits.upsert ⟨key, bucketOf hits key⟩).keys :=
      Table.mem_keys_upsert.mpr (Or.inr rfl)
    dsimp only
    rw [length_upsert_of_mem hmem]
    exact hcreate _

end steps

/-! ## Runs -/

section runs

variable {limiter : InMemoryRateLimiter κ τ} {s : Served κ τ} {calls : List (Call κ τ)}
  {call : Call κ τ} {key : κ}

theorem serve_snoc : serve limiter (calls ++ [call]) = serveOne (serve limiter calls) call := by
  rw [serve, List.foldl_append]
  rfl

theorem serveOne_limiter : (serveOne s call).limiter = (s.limiter.check call.key call.now).1 := by
  unfold serveOne
  split
  · rename_i hcheck
    rw [hcheck]
  · rename_i hcheck
    rw [hcheck]

theorem serveOne_reject {hits : Table (Bucket.key : Bucket κ τ → κ)}
    (h : s.limiter.evict (s.limiter.expire call.key call.now) call.key = .ok hits)
    (hfull : s.limiter.max ≤ (bucketOf hits call.key).length) :
    serveOne s call =
      ⟨{ s.limiter with hits := hits.upsert ⟨call.key, bucketOf hits call.key⟩ }, s.accepted⟩ := by
  rw [serveOne, check_reject h hfull]

theorem serveOne_accept {hits : Table (Bucket.key : Bucket κ τ → κ)}
    (h : s.limiter.evict (s.limiter.expire call.key call.now) call.key = .ok hits)
    (hroom : ¬ s.limiter.max ≤ (bucketOf hits call.key).length) :
    serveOne s call =
      ⟨{ s.limiter with
          hits := (hits.upsert ⟨call.key, bucketOf hits call.key⟩).upsert
            ⟨call.key, bucketOf hits call.key ++ [call.now]⟩ },
        s.accepted ++ [call]⟩ := by
  rw [serveOne, check_accept h hroom]

theorem serve_limiter_eq :
    (serve limiter calls).limiter = { limiter with hits := (serve limiter calls).limiter.hits } := by
  induction calls using List.reverseRecOn with
  | nil => rfl
  | append_singleton calls call ih =>
    rw [serve_snoc, serveOne_limiter, check_eq_with, ih]

/-- **The dictionary never holds more keys than its bound.** -/
theorem length_serve_le (hpos : 1 ≤ limiter.maxKeys)
    (hlength : (limiter.hits.rows.length : Int) ≤ limiter.maxKeys) :
    ((serve limiter calls).limiter.hits.rows.length : Int) ≤ limiter.maxKeys := by
  induction calls using List.reverseRecOn with
  | nil => exact hlength
  | append_singleton calls call ih =>
    have hkeys : (serve limiter calls).limiter.maxKeys = limiter.maxKeys := by
      rw [serve_limiter_eq]
    rw [serve_snoc, serveOne_limiter, ← hkeys]
    exact length_check_le (by rw [hkeys]; exact hpos) (by rw [hkeys]; exact ih)

omit [LinearOrder τ] [Sub τ] in
theorem hitsOf_snoc :
    hitsOf key (calls ++ [call]) =
      if key = call.key then hitsOf key calls ++ [call.now] else hitsOf key calls := by
  rw [hitsOf, List.filter_append, List.map_append, ← hitsOf]
  by_cases hk : key = call.key
  · rw [if_pos hk, List.filter_cons_of_pos (by simpa using hk.symm)]
    rfl
  · rw [if_neg hk, List.filter_cons_of_neg (by simpa using fun he => hk he.symm),
      List.filter_nil, List.map_nil, List.append_nil]

/-- What the dictionary tells of the calls so far, as long as no key was dropped. -/
structure Tracks (s : Served κ τ) (calls : List (Call κ τ)) : Prop where
  keeps : ∀ key, Keeps s.limiter.window (calls.map Call.now) (hitsOf key s.accepted)
    (bucketOf s.limiter.hits key)
  spaced : ∀ key, Spaced s.limiter.window (max s.limiter.max 0) (hitsOf key s.accepted)
  keys : s.limiter.hits.keys ⊆ calls.map Call.key

theorem Tracks.mem_keys (h : Tracks s calls) {k : κ}
    (hk : k ∈ (s.limiter.expire call.key call.now).keys ∨ k = call.key) :
    k ∈ (calls ++ [call]).map Call.key := by
  rw [List.map_append, List.mem_append]
  rcases hk with hk | rfl
  · exact Or.inl (h.keys (keys_expire_subset hk))
  · exact Or.inr List.mem_cons_self

/-- While the keys are few none is dropped. -/
theorem Tracks.evict_eq (h : Tracks s calls)
    (hfew : (distinctKeys (calls ++ [call]) : Int) ≤ s.limiter.maxKeys) :
    s.limiter.evict (s.limiter.expire call.key call.now) call.key =
      .ok (s.limiter.expire call.key call.now) := by
  refine evict_of_room ?_
  by_cases hmem : call.key ∈ (s.limiter.expire call.key call.now).keys
  · exact Or.inl hmem
  refine Or.inr ?_
  have hnodup : (call.key :: (s.limiter.expire call.key call.now).keys).Nodup :=
    List.nodup_cons.mpr ⟨hmem, (s.limiter.expire call.key call.now).unique⟩
  have hsubset : (call.key :: (s.limiter.expire call.key call.now).keys).toFinset ⊆
      ((calls ++ [call]).map Call.key).toFinset := by
    intro k hk
    rw [List.mem_toFinset] at hk ⊢
    exact h.mem_keys (List.mem_cons.mp hk).symm
  have hcard := Finset.card_le_card hsubset
  rw [List.toFinset_card_of_nodup hnodup, List.length_cons, Table.keys, List.length_map,
    ← distinctKeys] at hcard
  omega

variable [MonotoneSub τ]

/-- The bucket that a check counts holds the accepted hits in the window before it. -/
theorem Tracks.bucket_eq (h : Tracks s calls) (hpast : ∀ c ∈ calls, c.now ≤ call.now) :
    bucketOf (s.limiter.expire call.key call.now) call.key =
      recent s.limiter.window call.now (hitsOf call.key s.accepted) := by
  rw [bucketOf_expire, if_pos rfl]
  exact (h.keeps call.key).slide_eq (List.forall_mem_map.mpr hpast)

/-- A hit is refused only behind `max` accepted hits in the window. -/
theorem Tracks.refused (h : Tracks s calls) (hpast : ∀ c ∈ calls, c.now ≤ call.now)
    (hfew : (distinctKeys (calls ++ [call]) : Int) ≤ s.limiter.maxKeys)
    (hraise : (s.limiter.check call.key call.now).2 ≠ .ok ()) :
    s.limiter.max ≤ (recent s.limiter.window call.now (hitsOf call.key s.accepted)).length := by
  by_contra hroom
  rw [← h.bucket_eq hpast] at hroom
  exact hraise (by rw [check_accept (h.evict_eq hfew) hroom])

theorem Tracks.reject (h : Tracks s calls) (hpast : ∀ c ∈ calls, c.now ≤ call.now)
    (hevict : s.limiter.evict (s.limiter.expire call.key call.now) call.key =
      .ok (s.limiter.expire call.key call.now))
    (hfull : s.limiter.max ≤
      (bucketOf (s.limiter.expire call.key call.now) call.key).length) :
    Tracks (serveOne s call) (calls ++ [call]) := by
  have htimes : ∀ t ∈ calls.map Call.now, t ≤ call.now := List.forall_mem_map.mpr hpast
  rw [serveOne_reject hevict hfull]
  refine ⟨fun k => ?_, h.spaced, fun k hk => h.mem_keys (Table.mem_keys_upsert.mp hk)⟩
  rw [List.map_append, bucketOf_create, bucketOf_expire (k := k)]
  by_cases hk : k = call.key
  · rw [if_pos hk, hk]
    exact (h.keeps call.key).slide htimes
  · rw [if_neg hk]
    exact (h.keeps k).wait

theorem Tracks.accept (h : Tracks s calls) (hpast : ∀ c ∈ calls, c.now ≤ call.now)
    (hevict : s.limiter.evict (s.limiter.expire call.key call.now) call.key =
      .ok (s.limiter.expire call.key call.now))
    (hroom : ¬ s.limiter.max ≤
      (bucketOf (s.limiter.expire call.key call.now) call.key).length) :
    Tracks (serveOne s call) (calls ++ [call]) := by
  have htimes : ∀ t ∈ calls.map Call.now, t ≤ call.now := List.forall_mem_map.mpr hpast
  rw [serveOne_accept hevict hroom]
  refine ⟨fun k => ?_, fun k => ?_, fun k hk => ?_⟩
  · rw [List.map_append, bucketOf_upsert, bucketOf_create, hitsOf_snoc]
    by_cases hk : k = call.key
    · rw [if_pos hk, if_pos hk, bucketOf_expire, if_pos rfl, hk]
      exact (h.keeps call.key).hit htimes
    · rw [if_neg hk, if_neg hk, bucketOf_expire (k := k), if_neg hk]
      exact (h.keeps k).wait
  · rw [hitsOf_snoc]
    by_cases hk : k = call.key
    · rw [if_pos hk, hk]
      refine (h.spaced call.key).hit ?_
      rw [← h.bucket_eq hpast]
      exact lt_max_of_lt_left (not_le.mp hroom)
    · rw [if_neg hk]
      exact h.spaced k
  · refine h.mem_keys ?_
    rcases Table.mem_keys_upsert.mp hk with hk | hk
    · exact Table.mem_keys_upsert.mp hk
    · exact Or.inr hk

/-- A call that drops no key keeps track. -/
theorem Tracks.step (h : Tracks s calls) (hpast : ∀ c ∈ calls, c.now ≤ call.now)
    (hfew : (distinctKeys (calls ++ [call]) : Int) ≤ s.limiter.maxKeys) :
    Tracks (serveOne s call) (calls ++ [call]) := by
  have hevict := h.evict_eq hfew
  by_cases hfull : s.limiter.max ≤ (bucketOf (s.limiter.expire call.key call.now) call.key).length
  · exact h.reject hpast hevict hfull
  · exact h.accept hpast hevict hfull

end runs

section created

variable {maxHits maxKeys : Int} {window : τ} {calls : List (Call κ τ)}

theorem accepted_subset {limiter : InMemoryRateLimiter κ τ} :
    (serve limiter calls).accepted ⊆ calls := by
  induction calls using List.reverseRecOn with
  | nil => exact List.Subset.refl _
  | append_singleton calls call ih =>
    rw [serve_snoc, serveOne]
    split
    · exact List.append_subset.mpr ⟨List.subset_append_of_subset_left _ ih,
        List.subset_append_right _ _⟩
    · exact List.subset_append_of_subset_left _ ih

variable [MonotoneSub τ]

theorem tracks_serve (hsorted : calls.Pairwise (·.now ≤ ·.now))
    (hfew : (distinctKeys calls : Int) ≤ maxKeys) :
    Tracks (serve (.create maxHits window maxKeys) calls) calls := by
  induction calls using List.reverseRecOn with
  | nil => exact ⟨fun _ => keeps_nil, fun _ => spaced_nil (le_max_right _ _), List.nil_subset _⟩
  | append_singleton calls call ih =>
    obtain ⟨hbefore, -, hpast⟩ := List.pairwise_append.mp hsorted
    have hcard := distinctKeys_mono (List.subset_append_left calls [call])
    have hkeys : (serve (.create maxHits window maxKeys) calls).limiter.maxKeys = maxKeys := by
      rw [serve_limiter_eq]
      rfl
    rw [serve_snoc]
    refine (ih hbefore (by omega)).step (fun c hc => hpast c hc call List.mem_cons_self) ?_
    rw [hkeys]
    exact hfew

theorem spaced_serve (hsorted : calls.Pairwise (·.now ≤ ·.now))
    (hfew : (distinctKeys calls : Int) ≤ maxKeys) (key : κ) :
    Spaced window (max maxHits 0)
      (hitsOf key (serve (.create maxHits window maxKeys) calls).accepted) := by
  have htracks : Tracks (serve (.create maxHits window maxKeys) calls) calls :=
    tracks_serve hsorted hfew
  have hspaced := htracks.spaced key
  rw [serve_limiter_eq] at hspaced
  exact hspaced

theorem refused_behind {before after : List (Call κ τ)} {call : Call κ τ}
    (hsorted : (before ++ call :: after).Pairwise (·.now ≤ ·.now))
    (hfew : (distinctKeys (before ++ call :: after) : Int) ≤ maxKeys)
    (hraise : ((serve (.create maxHits window maxKeys) before).limiter.check
      call.key call.now).2 ≠ .ok ()) :
    maxHits ≤ (recent window call.now
      (hitsOf call.key (serve (.create maxHits window maxKeys) before).accepted)).length := by
  obtain ⟨hbefore, -, hpast⟩ := List.pairwise_append.mp hsorted
  have hone : distinctKeys before ≤ distinctKeys (before ++ [call]) :=
    distinctKeys_mono (List.subset_append_left _ _)
  have hall : distinctKeys (before ++ [call]) ≤ distinctKeys (before ++ call :: after) := by
    refine distinctKeys_mono (List.append_subset.mpr ⟨List.subset_append_left _ _, ?_⟩)
    exact fun c hc => List.mem_append_right _ (List.mem_singleton.mp hc ▸ List.mem_cons_self)
  have htracks : Tracks (serve (.create maxHits window maxKeys) before) before :=
    tracks_serve hbefore (by omega)
  have hkeys : (serve (.create maxHits window maxKeys) before).limiter.maxKeys = maxKeys := by
    rw [serve_limiter_eq]
    rfl
  have hrefused := htracks.refused (fun c hc => hpast c hc call List.mem_cons_self)
    (by rw [hkeys]; omega) hraise
  rw [serve_limiter_eq] at hrefused
  exact hrefused

omit [MonotoneSub τ] in
/-- Accepted hits lie in the past. -/
theorem recent_accepted {limiter : InMemoryRateLimiter κ τ} {now : τ} {key : κ}
    (hpast : ∀ c ∈ calls, c.now ≤ now) :
    recent window now (hitsOf key (serve limiter calls).accepted) =
      (hitsOf key (serve limiter calls).accepted).filter
        fun t => t ≤ now ∧ now - t ≤ window := by
  refine List.filter_congr fun t ht => ?_
  obtain ⟨c, hc, rfl⟩ := List.mem_map.mp ht
  have hle := hpast c (accepted_subset (List.mem_of_mem_filter hc))
  simp only [hle, true_and]

/-- **The limiter keeps its dictionary within its bound, and while no key has to be dropped it
lets at most `maxHits` hits of a key into any window and refuses a hit only behind so many.** -/
theorem sliding_window (maxHits : Int) (window : τ) (maxKeys : Int) (calls : List (Call κ τ))
    (hpos : 1 ≤ maxKeys) (hsorted : calls.Pairwise (·.now ≤ ·.now)) :
    (∀ before, before <+: calls →
      ((serve (.create maxHits window maxKeys) before).limiter.hits.rows.length : Int) ≤ maxKeys) ∧
    ((distinctKeys calls : Int) ≤ maxKeys →
      (∀ key a b, b - a ≤ window →
        ((between a b
          (hitsOf key (serve (.create maxHits window maxKeys) calls).accepted)).length : Int) ≤
            max maxHits 0) ∧
      ∀ before call after, calls = before ++ call :: after →
        ((serve (.create maxHits window maxKeys) before).limiter.check call.key call.now).2 ≠
          .ok () →
        maxHits ≤ ((hitsOf call.key
          (serve (.create maxHits window maxKeys) before).accepted).filter
            fun t => t ≤ call.now ∧ call.now - t ≤ window).length) := by
  refine ⟨fun before _ => length_serve_le hpos (show (0 : Int) ≤ maxKeys by omega),
    fun hfew => ⟨spaced_serve hsorted hfew, ?_⟩⟩
  rintro before call after rfl hraise
  obtain ⟨-, -, hpast⟩ := List.pairwise_append.mp hsorted
  rw [← recent_accepted fun c hc => hpast c hc call List.mem_cons_self]
  exact refused_behind hsorted hfew hraise

/-- Two hits a minute: the hit on the sixtieth second is refused, the one behind it is not. -/
theorem sliding_window_minute :
    (∀ a b : Int, b - a ≤ 60 →
      ((between a b (hitsOf "k" (serve (.create 2 60 1000)
        [⟨"k", 0⟩, ⟨"k", 30⟩, ⟨"k", 60⟩, ⟨"k", 61⟩]).accepted)).length : Int) ≤ 2) ∧
    hitsOf "k" (serve (.create 2 60 1000)
      [⟨"k", 0⟩, ⟨"k", 30⟩, ⟨"k", 60⟩, ⟨"k", (61 : Int)⟩]).accepted = [0, 30, 61] ∧
    (2 : Int) ≤ ((hitsOf "k" (serve (.create 2 60 1000)
      [⟨"k", 0⟩, ⟨"k", 30⟩]).accepted).filter fun t => t ≤ (60 : Int) ∧ 60 - t ≤ 60).length := by
  have hwindow := (sliding_window 2 (60 : Int) 1000
    [⟨"k", 0⟩, ⟨"k", 30⟩, ⟨"k", 60⟩, ⟨"k", 61⟩] (by decide) (by decide)).2 (by decide)
  refine ⟨hwindow.1 "k", by decide, ?_⟩
  exact hwindow.2 [⟨"k", 0⟩, ⟨"k", 30⟩] ⟨"k", 60⟩ [⟨"k", 61⟩] rfl (by decide)

end created

end Apm.Core.RateLimit
