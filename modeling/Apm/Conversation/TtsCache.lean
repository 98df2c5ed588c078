import Apm.Core.Time
import Apm.Lib.Calls
import Apm.Lib.Expiring
import Apm.Lib.Lru
import Apm.Lib.Run

/-!
# Synthesized audio behind a cache

`CachingTtsProvider` asks a cache before it asks the provider. The cache is a backend: a bounded
dictionary of one process, or keys with an expiry on a server that the workers share and that may
not answer. A call looks up, synthesizes and stores, and any number of calls are at different
points of it. Whatever a backend returns was synthesized for that text; the one in memory holds
the texts answered last, so that it is known which calls reach the provider.
-/

namespace Apm.Conversation.Tts

open Apm.Core Apm.Lib
open Lru (recent)

set_option autoImplicit false

abbrev Audio := List UInt8

/-- A cache backend. What befalls an operation on it is outside of the program. -/
class TtsCache (C : Type) where
  Outside : Type
  get : C → Outside → String → Option Audio × C
  set : C → Outside → String → Audio → C
  /-- the entries it may return -/
  Holds : C → String → Audio → Prop
  holds_of_get {c o text audio} : (get c o text).1 = some audio → Holds c text audio
  holds_get {c o text text' audio} : Holds (get c o text).2 text' audio → Holds c text' audio
  holds_set {c o text text' audio audio'} : Holds (set c o text audio) text' audio' →
    Holds c text' audio' ∨ text' = text ∧ audio' = audio

/-! ## In memory -/

structure InMemoryTtsCache where
  max : Nat
  cache : OrderedDict String Audio
  bounded : cache.rows.length ≤ max

namespace InMemoryTtsCache

def init (maxEntries : Int) : Except String InMemoryTtsCache :=
  if maxEntries < 1 then .error "max_entries must be >= 1"
  else .ok ⟨maxEntries.toNat, Table.empty _, Nat.zero_le _⟩

def get (c : InMemoryTtsCache) (text : String) : Option Audio × InMemoryTtsCache :=
  if text ∈ c.cache.keys then
    (c.cache.lookup text,
      { c with
        cache := c.cache.moveToEnd text
        bounded := OrderedDict.length_moveToEnd.trans_le c.bounded })
  else (none, c)

def set (c : InMemoryTtsCache) (text : String) (audio : Audio) : InMemoryTtsCache :=
  { c with
    cache := c.cache.put c.max text audio
    bounded := OrderedDict.length_put_le c.bounded }

variable {c : InMemoryTtsCache} {text text' : String} {audio : Audio}

theorem get_fst : (c.get text).1 = c.cache.lookup text := by
  rw [get]
  split
  · rfl
  · rename_i h
    exact (OrderedDict.lookup_eq_none_iff.mpr h).symm

theorem get_snd (c : InMemoryTtsCache) (text : String) : (c.get text).2.max = c.max ∧
    (c.get text).2.cache = if text ∈ c.cache.keys then c.cache.moveToEnd text else c.cache := by
  rw [get]
  split
  · exact ⟨rfl, rfl⟩
  · exact ⟨rfl, rfl⟩

/-- A lookup changes the order of the entries only. -/
theorem lookup_get : (c.get text).2.cache.lookup text' = c.cache.lookup text' := by
  rw [(get_snd c text).2]
  split
  · exact OrderedDict.lookup_moveToEnd
  · rfl

theorem lookup_set {audio' : Audio} (h : (c.set text audio).cache.lookup text' = some audio') :
    c.cache.lookup text' = some audio' ∨ text' = text ∧ audio' = audio := by
  rw [set, OrderedDict.lookup_put] at h
  split at h
  · split at h
    · rename_i htext
      exact .inr ⟨htext, (Option.some.inj h).symm⟩
    · exact .inl h
  · cases h

end InMemoryTtsCache

instance : TtsCache InMemoryTtsCache where
  Outside := Unit
  get c _ text := c.get text
  set c _ text audio := c.set text audio
  Holds c text audio := c.cache.lookup text = some audio
  holds_of_get h := InMemoryTtsCache.get_fst.symm.trans h
  holds_get h := InMemoryTtsCache.lookup_get.symm.trans h
  holds_set h := InMemoryTtsCache.lookup_set h

/-! ## On the server -/

/-- The keys of the server that the cache reads and writes. -/
structure RedisTtsCache where
  client : Expiring String Audio Instant
  namespace_ : String
  ttlSeconds : Int

/-- An operation raises, or is carried out at an instant of the server. -/
inductive RedisOutside where
  | raises
  | at (now : Instant)
  deriving DecidableEq, Repr

namespace RedisTtsCache

def key (c : RedisTtsCache) (text : String) : String := c.namespace_ ++ ":" ++ text

def get (c : RedisTtsCache) (outside : RedisOutside) (text : String) : Option Audio :=
  match outside with
  | .raises => none
  | .at now => c.client.lookup now (c.key text)

def set (c : RedisTtsCache) (outside : RedisOutside) (text : String) (audio : Audio) :
    RedisTtsCache :=
  match outside with
  | .raises => c
  | .at now =>
    { c with client := c.client.setex (c.key text) audio (now + c.ttlSeconds * microsPerSecond) }

variable {c : RedisTtsCache} {text text' : String} {audio : Audio} {outside : RedisOutside}

/-- The key of one text is not that of another. -/
theorem key_inj : c.key text = c.key text' ↔ text = text' := String.append_right_inj _

/-- An entry of the text, whether it has expired or not. -/
def Stored (c : RedisTtsCache) (text : String) (audio : Audio) : Prop :=
  ∃ e, c.client.get (c.key text) = some e ∧ e.value = audio

theorem stored_of_get (h : c.get outside text = some audio) : c.Stored text audio := by
  cases outside with
  | raises => cases h
  | «at» now =>
    obtain ⟨e, he, hv⟩ := Expiring.lookup_eq_some_iff.mp h
    exact ⟨e, (Expiring.live_eq_some_iff.mp he).1, hv⟩

theorem stored_set {audio' : Audio} (h : (c.set outside text audio).Stored text' audio') :
    c.Stored text' audio' ∨ text' = text ∧ audio' = audio := by
  cases outside with
  | raises => exact .inl h
  | «at» now =>
    obtain ⟨e, he, hv⟩ := h
    rw [set, Expiring.get_setex] at he
    split at he
    · rename_i hkey
      obtain rfl := Option.some.inj he
      exact .inr ⟨(key_inj.mp hkey).symm, hv.symm⟩
    · exact .inl ⟨e, he, hv⟩

end RedisTtsCache

instance : TtsCache RedisTtsCache where
  Outside := RedisOutside
  get c o text := (c.get o text, c)
  set := RedisTtsCache.set
  Holds := RedisTtsCache.Stored
  holds_of_get := RedisTtsCache.stored_of_get
  holds_get := id
  holds_set := RedisTtsCache.stored_set

/-! ## The provider and its calls -/

/-- Where a call of `synthesize` is. -/
inductive Phase where
  | looking
  | synthesizing
  | storing (audio : Audio)
  | answered (audio : Audio)
  | failed
  deriving DecidableEq, Repr

/-- The calls of every process that uses the cache. What was synthesized and what was answered
through the cache are histories that no call reads. -/
structure World (C : Type) where
  cache : C
  calls : List (Call String Phase)
  synthesized : List (String × Audio)
  answers : List (String × Audio)

inductive Event (C : Type) [TtsCache C] where
  | call (text : String)
  | looked (i : Nat) (outside : TtsCache.Outside C)
  /-- the wrapped provider returns, or raises -/
  | synthesized (i : Nat) (result : Option Audio)
  | stored (i : Nat) (outside : TtsCache.Outside C)
  | cancelled (i : Nat)

variable {C : Type} [TtsCache C]

def World.setPhase (w : World C) (i : Nat) (phase : Phase) : World C :=
  { w with calls := Call.setPhase w.calls i phase }

/-- `CachingTtsProvider.synthesize`, from one `await` to the next. -/
def step (w : World C) : Event C → Option (World C)
  | .call text =>
    some { w with
      calls := w.calls ++ [⟨text, if text = "" then .answered [] else .looking⟩] }
  | .looked i outside =>
    match w.calls[i]? with
    | some ⟨text, .looking⟩ =>
      let (cached, cache) := TtsCache.get w.cache outside text
      match cached with
      | some audio =>
        some { w.setPhase i (.answered audio) with
          cache := cache
          answers := w.answers ++ [(text, audio)] }
      | none => some { w.setPhase i .synthesizing with cache := cache }
    | _ => none
  | .synthesized i result =>
    match w.calls[i]? with
    | some ⟨text, .synthesizing⟩ =>
      match result with
      | some audio =>
        some { w.setPhase i (.storing audio) with
          synthesized := w.synthesized ++ [(text, audio)] }
      | none => some (w.setPhase i .failed)
    | _ => none
  | .stored i outside =>
    match w.calls[i]? with
    | some ⟨text, .storing audio⟩ =>
      some { w.setPhase i (.answered audio) with
        cache := TtsCache.set w.cache outside text audio
        answers := w.answers ++ [(text, audio)] }
    | _ => none
  | .cancelled i =>
    match w.calls[i]? with
    | some ⟨_, .answered _⟩ => none
    | some _ => some (w.setPhase i .failed)
    | none => none

/-- What one event can do. -/
inductive Moves (w : World C) : Event C → World C → Prop where
  | silent : Moves w (.call "") { w with calls := w.calls ++ [⟨"", .answered []⟩] }
  | call (text : String) (h : text ≠ "") :
    Moves w (.call text) { w with calls := w.calls ++ [⟨text, .looking⟩] }
  | hit (i : Nat) (o : TtsCache.Outside C) (text : String) (audio : Audio)
    (hcall : w.calls[i]? = some ⟨text, .looking⟩)
    (hget : (TtsCache.get w.cache o text).1 = some audio) :
    Moves w (.looked i o) { w.setPhase i (.answered audio) with
      cache := (TtsCache.get w.cache o text).2
      answers := w.answers ++ [(text, audio)] }
  | miss (i : Nat) (o : TtsCache.Outside C) (text : String)
    (hcall : w.calls[i]? = some ⟨text, .looking⟩)
    (hget : (TtsCache.get w.cache o text).1 = none) :
    Moves w (.looked i o) { w.setPhase i .synthesizing with
      cache := (TtsCache.get w.cache o text).2 }
  | synthesized (i : Nat) (text : String) (audio : Audio)
    (hcall : w.calls[i]? = some ⟨text, .synthesizing⟩) :
    Moves w (.synthesized i (some audio)) { w.setPhase i (.storing audio) with
      synthesized := w.synthesized ++ [(text, audio)] }
  | raised (i : Nat) (text : String) (hcall : w.calls[i]? = some ⟨text, .synthesizing⟩) :
    Moves w (.synthesized i none) (w.setPhase i .failed)
  | stored (i : Nat) (o : TtsCache.Outside C) (text : String) (audio : Audio)
    (hcall : w.calls[i]? = some ⟨text, .storing audio⟩) :
    Moves w (.stored i o) { w.setPhase i (.answered audio) with
      cache := TtsCache.set w.cache o text audio
      answers := w.answers ++ [(text, audio)] }
  | cancelled (i : Nat) (text : String) (phase : Phase) (hcall : w.calls[i]? = some ⟨text, phase⟩)
    (hopen : ∀ audio, phase ≠ .answered audio) : Moves w (.cancelled i) (w.setPhase i .failed)

theorem moves_of_step {w w' : World C} {e : Event C} (h : step w e = some w') : Moves w e w' := by
  cases e with
  | call text =>
    obtain rfl := Option.some.inj h
    by_cases ht : text = ""
    · subst ht
      exact .silent
    · rw [if_neg ht]
      exact .call text ht
  | looked i o =>
    simp only [step] at h
    split at h
    · rename_i text hcall
      split at h
      · rename_i audio hget
        obtain rfl := Option.some.inj h
        exact .hit i o text audio hcall hget
      · rename_i hget
        obtain rfl := Option.some.inj h
        exact .miss i o text hcall hget
    · cases h
  | synthesized i result =>
    simp only [step] at h
    split at h
    · rename_i text hcall
      cases result with
      | some audio =>
        obtain rfl := Option.some.inj h
        exact .synthesized i text audio hcall
      | none =>
        obtain rfl := Option.some.inj h
        exact .raised i text hcall
    · cases h
  | stored i o =>
    simp only [step] at h
    split at h
    · rename_i text audio hcall
      obtain rfl := Option.some.inj h
      exact .stored i o text audio hcall
    · cases h
  | cancelled i =>
    simp only [step] at h
    split at h
    · cases h
    · rename_i c hopen hcall
      obtain rfl := Option.some.inj h
      exact .cancelled i c.arg c.phase hcall fun audio hp => hopen c.arg audio (by rw [← hp])
    · cases h

/-! ## What is returned was synthesized -/

/-- The audio a call holds or has returned was synthesized for its text. -/
structure Sound (synthesized : List (String × Audio)) (c : Call String Phase) : Prop where
  silent : c.arg = "" → c.phase = .answered []
  storing : ∀ audio, c.phase = .storing audio → (c.arg, audio) ∈ synthesized
  answered : ∀ audio, c.phase = .answered audio → c.arg ≠ "" → (c.arg, audio) ∈ synthesized

structure Inv (w : World C) : Prop where
  calls : ∀ c ∈ w.calls, Sound w.synthesized c
  holds : ∀ text audio, TtsCache.Holds w.cache text audio → (text, audio) ∈ w.synthesized
  spoken : ∀ e ∈ w.synthesized, e.1 ≠ ""

theorem Sound.mono {synthesized synthesized' : List (String × Audio)} {c : Call String Phase}
    (h : Sound synthesized c) (hsub : synthesized ⊆ synthesized') : Sound synthesized' c where
  silent := h.silent
  storing audio hp := hsub (h.storing audio hp)
  answered audio hp ht := hsub (h.answered audio hp ht)

theorem inv_step {w w' : World C} {e : Event C} (hw : Inv w) (h : step w e = some w') :
    Inv w' := by
  have hat {i : Nat} {c : Call String Phase} (hc : w.calls[i]? = some c) : Sound w.synthesized c :=
    hw.calls c (List.mem_of_getElem? hc)
  -- a call that is not answered has a text to speak
  have hspoken {i : Nat} {text : String} {phase : Phase} (hc : w.calls[i]? = some ⟨text, phase⟩)
      (hp : ∀ audio, phase ≠ .answered audio) : text ≠ "" :=
    fun ht => hp [] ((hat hc).silent ht)
  cases moves_of_step h with
  | silent =>
    exact ⟨Call.forall_begin hw.calls ⟨fun _ => rfl, nofun, fun _ _ ht => absurd rfl ht⟩, hw.holds,
      hw.spoken⟩
  | call text ht =>
    exact ⟨Call.forall_begin hw.calls ⟨fun h => absurd h ht, nofun, nofun⟩, hw.holds, hw.spoken⟩
  | hit i o text audio hcall hget =>
    have hmade := hw.holds text audio (TtsCache.holds_of_get hget)
    refine ⟨Call.forall_setPhase hw.calls fun c hc => ?_, ?_, hw.spoken⟩
    · obtain rfl := Option.some.inj (hcall.symm.trans hc)
      refine ⟨fun ht => absurd ht (hspoken hcall (by simp)), nofun, ?_⟩
      intro audio' hp _
      cases hp
      exact hmade
    · exact fun text' audio' hh => hw.holds text' audio' (TtsCache.holds_get hh)
  | miss i o text hcall hget =>
    refine ⟨Call.forall_setPhase hw.calls fun c hc => ?_, ?_, hw.spoken⟩
    · obtain rfl := Option.some.inj (hcall.symm.trans hc)
      exact ⟨fun ht => absurd ht (hspoken hcall (by simp)), nofun, nofun⟩
    · exact fun text' audio' hh => hw.holds text' audio' (TtsCache.holds_get hh)
  | synthesized i text audio hcall =>
    have hsub := List.subset_append_left w.synthesized [(text, audio)]
    have ht := hspoken hcall (by simp)
    refine ⟨Call.forall_setPhase (fun c hc => (hw.calls c hc).mono hsub) fun c hc => ?_,
      fun text' audio' hh => hsub (hw.holds text' audio' hh), ?_⟩
    · obtain rfl := Option.some.inj (hcall.symm.trans hc)
      refine ⟨fun h => absurd h ht, ?_, nofun⟩
      intro audio' hp
      cases hp
      exact List.mem_append_right _ (List.mem_singleton_self _)
    · intro e he
      rcases List.mem_append.mp he with hmem | hmem
      · exact hw.spoken e hmem
      · rw [List.mem_singleton.mp hmem]
        exact ht
  | raised i text hcall =>
    refine ⟨Call.forall_setPhase hw.calls fun c hc => ?_, hw.holds, hw.spoken⟩
    obtain rfl := Option.some.inj (hcall.symm.trans hc)
    exact ⟨fun h => absurd h (hspoken hcall (by simp)), nofun,
      nofun⟩
  | stored i o text audio hcall =>
    have hmade := (hat hcall).storing audio rfl
    refine ⟨Call.forall_setPhase hw.calls fun c hc => ?_, ?_, hw.spoken⟩
    · obtain rfl := Option.some.inj (hcall.symm.trans hc)
      refine ⟨fun ht => absurd ht (hspoken hcall (by simp)), nofun, ?_⟩
      intro audio' hp _
      cases hp
      exact hmade
    · intro text' audio' hh
      rcases TtsCache.holds_set hh with hold | ⟨rfl, rfl⟩
      · exact hw.holds text' audio' hold
      · exact hmade
  | cancelled i text phase hcall hopen =>
    refine ⟨Call.forall_setPhase hw.calls fun c hc => ?_, hw.holds, hw.spoken⟩
    obtain rfl := Option.some.inj (hcall.symm.trans hc)
    exact ⟨fun h => absurd h (hspoken hcall hopen), nofun, nofun⟩

/-- No call yet, in front of a cache with what was synthesized before. -/
def World.init (cache : C) (synthesized : List (String × Audio)) : World C :=
  ⟨cache, [], synthesized, []⟩

/-- **What a call returns was synthesized for its own text**, in any order of the calls of any
number of workers, whichever backend is behind them and whatever befalls it. The empty text gives
no audio, and the wrapped provider never speaks it. -/
theorem answered_synthesized {cache : C} {made : List (String × Audio)} {es : List (Event C)}
    {w : World C} (hcache : ∀ text audio, TtsCache.Holds cache text audio → (text, audio) ∈ made)
    (hmade : ∀ e ∈ made, e.1 ≠ "") (h : run step (World.init cache made) es = some w) :
    (∀ e ∈ w.synthesized, e.1 ≠ "") ∧
    ∀ (i : Nat) (text : String) (audio : Audio), w.calls[i]? = some ⟨text, .answered audio⟩ →
      (text = "" → audio = []) ∧ (text ≠ "" → (text, audio) ∈ w.synthesized) := by
  have hinit : Inv (World.init cache made) := ⟨nofun, hcache, hmade⟩
  have hw : Inv w := run_preserves (fun _ _ _ => inv_step) hinit h
  refine ⟨hw.spoken, fun i text audio hcall => ?_⟩
  have hsound := hw.calls _ (List.mem_of_getElem? hcall)
  refine ⟨fun ht => ?_, hsound.answered audio rfl⟩
  have hsilent := hsound.silent ht
  cases hsilent
  rfl

/-- Two calls say one text: the first is synthesized, the second waits for its turn. -/
def saidTwice : List (Event InMemoryTtsCache) :=
  [.call "hello", .looked 0 (), .synthesized 0 (some [7]), .stored 0 (), .call "hello"]

def roomForOne : InMemoryTtsCache := ⟨1, Table.empty _, Nat.zero_le _⟩

theorem answered_synthesized_saidTwice :
    ∃ w, run step (World.init roomForOne []) (saidTwice ++ [.looked 1 ()]) = some w ∧
      w.calls[1]? = some ⟨"hello", .answered [7]⟩ ∧ ("hello", [7]) ∈ w.synthesized := by
  have hcheck : (run step (World.init roomForOne []) (saidTwice ++ [.looked 1 ()])).map
      (fun w => decide (w.calls[1]? = some ⟨"hello", .answered [7]⟩)) = some true := by decide
  obtain ⟨w, hrun, hcall⟩ := exists_run_of_check _ _ _ _ hcheck
  have hcall := of_decide_eq_true hcall
  have hempty : ∀ text audio, TtsCache.Holds roomForOne text audio → (text, audio) ∈ [] :=
    fun _ _ hh => absurd hh.symm (Option.some_ne_none _)
  have hsound := (answered_synthesized hempty (List.forall_mem_nil _) hrun).2 1 "hello" [7] hcall
  exact ⟨w, hrun, hcall, hsound.2 (by decide)⟩

/-! ## What the cache in memory holds -/

/-- The cache holds the texts answered last, each with its last answer. -/
structure HoldsRecent (max : Nat) (w : World InMemoryTtsCache) : Prop where
  max_eq : w.cache.max = max
  tracks : Lru.Tracks max w.cache.cache w.answers

theorem holdsRecent_step {max : Nat} {w w' : World InMemoryTtsCache}
    {e : Event InMemoryTtsCache} (hw : HoldsRecent max w) (h : step w e = some w') :
    HoldsRecent max w' := by
  cases moves_of_step h with
  | silent | call | synthesized | raised | cancelled => exact ⟨hw.max_eq, hw.tracks⟩
  | hit i o text audio hcall hget =>
    have hlook : w.cache.cache.lookup text = some audio :=
      InMemoryTtsCache.get_fst.symm.trans hget
    have hmem : text ∈ w.cache.cache.keys := by
      rw [← OrderedDict.lookup_isSome_iff, hlook]
      rfl
    obtain ⟨hmax, hcache⟩ := InMemoryTtsCache.get_snd w.cache text
    rw [if_pos hmem] at hcache
    refine ⟨hmax.trans hw.max_eq, ?_⟩
    change Lru.Tracks max (w.cache.get text).2.cache _
    rw [hcache]
    exact hw.tracks.moveToEnd hlook
  | miss i o text hcall hget =>
    have hmem : text ∉ w.cache.cache.keys :=
      OrderedDict.lookup_eq_none_iff.mp (InMemoryTtsCache.get_fst.symm.trans hget)
    obtain ⟨hmax, hcache⟩ := InMemoryTtsCache.get_snd w.cache text
    rw [if_neg hmem] at hcache
    refine ⟨hmax.trans hw.max_eq, ?_⟩
    change Lru.Tracks max (w.cache.get text).2.cache _
    rw [hcache]
    exact hw.tracks
  | stored i o text audio hcall =>
    refine ⟨hw.max_eq, ?_⟩
    change Lru.Tracks max (w.cache.cache.put w.cache.max text audio) _
    rw [hw.max_eq]
    exact hw.tracks.put

/-- **A call reaches the provider exactly when its text is not among the `max` texts answered
last**; otherwise it is answered with the last answer to its text. This holds in any order of the
calls, of a fresh cache in memory. -/
theorem looked_iff_recent {maxEntries : Int} {cache : InMemoryTtsCache}
    {es : List (Event InMemoryTtsCache)} {w w' : World InMemoryTtsCache} {i : Nat} {text : String}
    (hinit : InMemoryTtsCache.init maxEntries = .ok cache)
    (h : run step (World.init cache []) es = some w) (hcall : w.calls[i]? = some ⟨text, .looking⟩)
    (hstep : step w (.looked i ()) = some w') :
    ∃ phase, w'.calls[i]? = some ⟨text, phase⟩ ∧
      (phase = .synthesizing ↔ text ∉ recent maxEntries.toNat (w.answers.map Prod.fst)) ∧
      (phase ≠ .synthesizing → ∃ audio, phase = .answered audio ∧
        lastValue w.answers text = some audio) := by
  have hfresh : HoldsRecent maxEntries.toNat (World.init cache []) := by
    rw [InMemoryTtsCache.init] at hinit
    split at hinit
    · cases hinit
    · cases hinit
      exact ⟨rfl, Lru.tracks_empty⟩
  have hw : HoldsRecent maxEntries.toNat w :=
    run_preserves (fun _ _ _ => holdsRecent_step) hfresh h
  have hlookup := hw.tracks.lookup text
  cases moves_of_step hstep with
  | hit _ _ text' audio hcall' hget =>
    obtain rfl := congrArg Call.arg (Option.some.inj (hcall.symm.trans hcall'))
    rw [← InMemoryTtsCache.get_fst, show (w.cache.get text).1 = some audio from hget] at hlookup
    split at hlookup
    · rename_i hmem
      exact ⟨.answered audio, Call.getElem?_setPhase_self hcall,
        ⟨fun h => (by cases h), fun hno => absurd hmem hno⟩, fun _ => ⟨audio, rfl, hlookup.symm⟩⟩
    · cases hlookup
  | miss _ _ text' hcall' hget =>
    obtain rfl := congrArg Call.arg (Option.some.inj (hcall.symm.trans hcall'))
    have hmem := OrderedDict.lookup_eq_none_iff.mp (InMemoryTtsCache.get_fst.symm.trans hget)
    rw [hw.tracks.keys_eq] at hmem
    exact ⟨.synthesizing, Call.getElem?_setPhase_self hcall, ⟨fun _ => hmem, fun _ => rfl⟩,
      fun hno => absurd rfl hno⟩

theorem looked_iff_recent_saidTwice :
    ∃ w w', run step (World.init roomForOne []) saidTwice = some w ∧
      step w (.looked 1 ()) = some w' ∧
      ∃ phase, w'.calls[1]? = some ⟨"hello", phase⟩ ∧
        (phase = .synthesizing ↔ "hello" ∉ recent 1 (w.answers.map Prod.fst)) := by
  have hcheck : (run step (World.init roomForOne []) saidTwice).map (fun w =>
      decide (w.calls[1]? = some ⟨"hello", .looking⟩) && (step w (.looked 1 ())).isSome) =
        some true := by decide
  obtain ⟨w, hrun, hw⟩ := exists_run_of_check _ _ _ _ hcheck
  obtain ⟨hcall, hsome⟩ := Bool.and_eq_true_iff.mp hw
  obtain ⟨w', hstep⟩ := Option.isSome_iff_exists.mp hsome
  have hinit : InMemoryTtsCache.init 1 = .ok roomForOne := rfl
  obtain ⟨phase, hphase, hiff, -⟩ :=
    looked_iff_recent hinit hrun (of_decide_eq_true hcall) hstep
  exact ⟨w, w', hrun, hstep, phase, hphase, hiff⟩

end Apm.Conversation.Tts
