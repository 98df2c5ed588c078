import Apm.Debriefs.Service
import Apm.Lib.Calls
import Apm.Lib.Lru
import Apm.Lib.Run
import Mathlib.Algebra.Order.Field.Rat

/-!
# Clients that are shared and closed

The LLM, STT and pronunciation clients are built behind an `lru_cache` each, so that one
configuration has one connection pool, and register themselves to be closed at shutdown. The
factories run in worker threads: several may build for one configuration, and an eviction drops a
client that is still in use. What is registered is closed once, whatever became of its entry.
-/

namespace Apm.Llm.Factory

open Apm.Lib
open Lru (recent)

set_option autoImplicit false

/-- The arguments `shared_llm_provider` is called with. -/
structure LlmConfig where
  engine : String
  apiKey : String
  baseUrl : String
  model : String
  timeoutSeconds : ℚ
  maxRetries : Int
  maxTokens : Int
  deriving DecidableEq

structure SttConfig where
  engine : String
  apiKey : String
  baseUrl : String
  model : String
  prompt : String
  deriving DecidableEq

structure PronunciationConfig where
  engine : String
  serviceUrl : String
  timeoutSeconds : ℚ
  secret : String
  deriving DecidableEq

/-- A call of one of the three cached factories. -/
inductive Request where
  | llm (config : LlmConfig)
  | stt (config : SttConfig)
  | pronunciation (config : PronunciationConfig)
  deriving DecidableEq

/-- The cached factories: `shared_llm_provider`, `shared_stt_provider` and
`shared_pronunciation_provider`. -/
inductive Shared where
  | llm
  | stt
  | pronunciation
  deriving DecidableEq, Repr

def Request.shared : Request → Shared
  | .llm _ => .llm
  | .stt _ => .stt
  | .pronunciation _ => .pronunciation

/-- `maxsize` of the `lru_cache`. -/
def Shared.maxsize : Shared → Nat
  | .llm => 8
  | .stt => 4
  | .pronunciation => 4

/-- `LlmProviderError`. -/
inductive BuildError where
  /-- `{engine} API key is not configured` -/
  | keyNotConfigured (engine : String)
  /-- `GROQ_API_KEY is required when STT_ENGINE=groq` -/
  | groqKeyRequired
  /-- `Unsupported LLM engine: {engine!r}` -/
  | unsupportedLlm (engine : String)
  /-- `Unsupported pronunciation engine: {engine!r}` -/
  | unsupportedPronunciation (engine : String)
  deriving DecidableEq, Repr

/-- What a factory makes: a fake or `None`, which owns no client, or a provider with its own. -/
inductive Made where
  | plain
  | client
  deriving DecidableEq, Repr

def buildLlmProvider (c : LlmConfig) : Except BuildError Made :=
  if c.engine = "fake" then .ok .plain
  else if c.engine = "deepseek" ∨ c.engine = "groq" then
    if Debriefs.strip c.apiKey = "" then .error (.keyNotConfigured c.engine) else .ok .client
  else .error (.unsupportedLlm c.engine)

def buildSttProvider (c : SttConfig) : Except BuildError Made :=
  if c.engine = "groq" then
    if Debriefs.strip c.apiKey = "" then .error .groqKeyRequired else .ok .client
  else .ok .plain

def buildPronunciationProvider (c : PronunciationConfig) : Except BuildError Made :=
  if c.engine = "fake" then .ok .plain
  else if c.engine = "gop" then .ok .client
  else .error (.unsupportedPronunciation c.engine)

def Request.build : Request → Except BuildError Made
  | .llm c => buildLlmProvider c
  | .stt c => buildSttProvider c
  | .pronunciation c => buildPronunciationProvider c

/-! ## The caches and the registry -/

/-- A provider as its callers hold it: its own client by number. -/
inductive Provider where
  | plain
  | client (id : Nat)
  deriving DecidableEq, Repr

/-- Where a call of a cached factory is. -/
inductive Phase where
  | building
  | built (p : Provider)
  | returned (p : Provider)
  | raised (e : BuildError)
  deriving DecidableEq, Repr

/-- The clients are numbered in the order they were built; the lists of those built, closed and
used are histories that the program does not keep. -/
structure World where
  caches : Shared → OrderedDict Request Provider
  registered : List Nat
  calls : List (Call Request Phase)
  built : List Request
  closed : List Nat
  uses : Shared → List (Request × Provider)

def World.init : World := ⟨fun _ => Table.empty _, [], [], [], [], fun _ => []⟩

inductive Event where
  | call (r : Request)
  /-- the factory of the `i`th call runs and registers what it has built -/
  | build (i : Nat)
  /-- its wrapper stores the result -/
  | store (i : Nat)
  /-- one turn of the loop of `close_all`, whether `aclose` raises or not -/
  | close
  deriving DecidableEq

def World.setPhase (w : World) (i : Nat) (phase : Phase) : World :=
  { w with calls := Call.setPhase w.calls i phase }

def World.use (w : World) (r : Request) (p : Provider) (cache : OrderedDict Request Provider) :
    World :=
  { w with
    caches := Function.update w.caches r.shared cache
    uses := Function.update w.uses r.shared (w.uses r.shared ++ [(r, p)]) }

def step (w : World) : Event → Option World
  | .call r =>
    let cache := w.caches r.shared
    match cache.lookup r with
    | some p => some { w.use r p (cache.moveToEnd r) with calls := w.calls ++ [⟨r, .returned p⟩] }
    | none => some { w with calls := w.calls ++ [⟨r, .building⟩] }
  | .build i =>
    match w.calls[i]? with
    | some ⟨r, .building⟩ =>
      match r.build with
      | .error e => some (w.setPhase i (.raised e))
      | .ok .plain => some (w.setPhase i (.built .plain))
      | .ok .client =>
        let id := w.built.length
        some { w.setPhase i (.built (.client id)) with
          built := w.built ++ [r]
          registered := w.registered ++ [id] }
    | _ => none
  | .store i =>
    match w.calls[i]? with
    | some ⟨r, .built p⟩ =>
      let cache := w.caches r.shared
      -- another thread may have stored an entry meanwhile; it stays, unused
      if r ∈ cache.keys then some (w.setPhase i (.returned p))
      else some ((w.setPhase i (.returned p)).use r p (cache.put r.shared.maxsize r p))
    | _ => none
  | .close =>
    match w.registered.getLast? with
    | some id => some { w with registered := w.registered.dropLast, closed := w.closed ++ [id] }
    | none => none

/-- What one event can do. -/
inductive Moves (w : World) : Event → World → Prop where
  | hit (r : Request) (p : Provider) (hlook : (w.caches r.shared).lookup r = some p) :
    Moves w (.call r) { w.use r p ((w.caches r.shared).moveToEnd r) with
      calls := w.calls ++ [⟨r, .returned p⟩] }
  | miss (r : Request) (hlook : (w.caches r.shared).lookup r = none) :
    Moves w (.call r) { w with calls := w.calls ++ [⟨r, .building⟩] }
  | raised (i : Nat) (r : Request) (e : BuildError) (hcall : w.calls[i]? = some ⟨r, .building⟩)
    (hbuild : r.build = .error e) : Moves w (.build i) (w.setPhase i (.raised e))
  | plain (i : Nat) (r : Request) (hcall : w.calls[i]? = some ⟨r, .building⟩)
    (hbuild : r.build = .ok .plain) : Moves w (.build i) (w.setPhase i (.built .plain))
  | client (i : Nat) (r : Request) (hcall : w.calls[i]? = some ⟨r, .building⟩)
    (hbuild : r.build = .ok .client) :
    Moves w (.build i) { w.setPhase i (.built (.client w.built.length)) with
      built := w.built ++ [r]
      registered := w.registered ++ [w.built.length] }
  | late (i : Nat) (r : Request) (p : Provider) (hcall : w.calls[i]? = some ⟨r, .built p⟩)
    (hmem : r ∈ (w.caches r.shared).keys) : Moves w (.store i) (w.setPhase i (.returned p))
  | stored (i : Nat) (r : Request) (p : Provider) (hcall : w.calls[i]? = some ⟨r, .built p⟩)
    (hmem : r ∉ (w.caches r.shared).keys) :
    Moves w (.store i) ((w.setPhase i (.returned p)).use r p
      ((w.caches r.shared).put r.shared.maxsize r p))
  | closed (id : Nat) (rest : List Nat) (hlast : w.registered = rest ++ [id]) :
    Moves w .close { w with registered := rest, closed := w.closed ++ [id] }

theorem moves_of_step {w w' : World} {e : Event} (h : step w e = some w') : Moves w e w' := by
  cases e with
  | call r =>
    simp only [step] at h
    split at h
    · rename_i p hlook
      obtain rfl := Option.some.inj h
      exact .hit r p hlook
    · rename_i hlook
      obtain rfl := Option.some.inj h
      exact .miss r hlook
  | build i =>
    simp only [step] at h
    split at h
    · rename_i r hcall
      split at h
      · rename_i e hbuild
        obtain rfl := Option.some.inj h
        exact .raised i r e hcall hbuild
      · rename_i hbuild
        obtain rfl := Option.some.inj h
        exact .plain i r hcall hbuild
      · rename_i hbuild
        obtain rfl := Option.some.inj h
        exact .client i r hcall hbuild
    · cases h
  | store i =>
    simp only [step] at h
    split at h
    · rename_i r p hcall
      split at h
      · rename_i hmem
        obtain rfl := Option.some.inj h
        exact .late i r p hcall hmem
      · rename_i hmem
        obtain rfl := Option.some.inj h
        exact .stored i r p hcall hmem
    · cases h
  | close =>
    simp only [step] at h
    split at h
    · rename_i id hlast
      obtain rfl := Option.some.inj h
      refine .closed id _ ?_
      obtain ⟨rest, hrest⟩ := List.getLast?_eq_some_iff.mp hlast
      rw [hrest, List.dropLast_concat]
    · cases h

/-! ## Every client is closed once -/

/-- The provider was made for the request. -/
def Genuine (built : List Request) (r : Request) : Provider → Prop
  | .plain => r.build = .ok .plain
  | .client id => built[id]? = some r ∧ r.build = .ok .client

def Phase.Genuine (built : List Request) (r : Request) : Phase → Prop
  | .building => True
  | .built p | .returned p => Factory.Genuine built r p
  | .raised e => r.build = .error e

structure Inv (w : World) : Prop where
  accounted : (w.registered ++ w.closed).Perm (List.range w.built.length)
  calls : ∀ c ∈ w.calls, c.phase.Genuine w.built c.arg
  uses : ∀ f, ∀ e ∈ w.uses f, Genuine w.built e.1 e.2
  tracks : ∀ f, Lru.Tracks f.maxsize (w.caches f) (w.uses f)

theorem Genuine.mono {built : List Request} {r r' : Request} {p : Provider}
    (h : Genuine built r p) : Genuine (built ++ [r']) r p := by
  cases p with
  | plain => exact h
  | client id =>
    refine ⟨?_, h.2⟩
    rw [List.getElem?_append_left (List.getElem?_eq_some_iff.mp h.1).1]
    exact h.1

theorem Phase.Genuine.mono {built : List Request} {r r' : Request} {phase : Phase}
    (h : phase.Genuine built r) : phase.Genuine (built ++ [r']) r := by
  cases phase with
  | building | raised => exact h
  | built | returned => exact Factory.Genuine.mono h

/-- A use is recorded with the cache it leaves. -/
theorem inv_use {w : World} {r : Request} {p : Provider} {cache : OrderedDict Request Provider}
    (hw : Inv w) (hp : Genuine w.built r p)
    (hcache : Lru.Tracks r.shared.maxsize cache (w.uses r.shared ++ [(r, p)])) :
    Inv (w.use r p cache) := by
  refine ⟨hw.accounted, hw.calls, fun f e he => ?_, fun f => ?_⟩
  · simp only [World.use, Function.update_apply] at he
    split at he
    · rename_i hf
      rcases List.mem_append.mp he with hold | hnew
      · exact hw.uses _ e hold
      · rw [List.mem_singleton.mp hnew]
        exact hp
    · exact hw.uses f e he
  · simp only [World.use, Function.update_apply]
    split
    · rename_i hf
      rw [hf]
      exact hcache
    · exact hw.tracks f

theorem inv_setPhase {w : World} {i : Nat} {r : Request} {phase phase' : Phase} (hw : Inv w)
    (hcall : w.calls[i]? = some ⟨r, phase⟩) (hp : phase'.Genuine w.built r) :
    Inv (w.setPhase i phase') := by
  refine ⟨hw.accounted, Call.forall_setPhase hw.calls fun c hc => ?_, hw.uses, hw.tracks⟩
  obtain rfl := Option.some.inj (hcall.symm.trans hc)
  exact hp

theorem inv_step {w w' : World} {e : Event} (hw : Inv w) (h : step w e = some w') : Inv w' := by
  cases moves_of_step h with
  | hit r p hlook =>
    have hp : Genuine w.built r p := hw.uses _ _ ((hw.tracks r.shared).mem_uses hlook)
    have huse := inv_use hw hp ((hw.tracks r.shared).moveToEnd hlook)
    exact ⟨huse.accounted, Call.forall_begin hw.calls hp, huse.uses, huse.tracks⟩
  | miss r hlook =>
    exact ⟨hw.accounted, Call.forall_begin hw.calls trivial, hw.uses, hw.tracks⟩
  | raised i r e hcall hbuild => exact inv_setPhase hw hcall hbuild
  | plain i r hcall hbuild => exact inv_setPhase hw hcall hbuild
  | client i r hcall hbuild =>
    refine ⟨?_, Call.forall_setPhase (fun c hc => (hw.calls c hc).mono) fun c hc => ?_,
      fun f e he => (hw.uses f e he).mono, hw.tracks⟩
    · rw [List.length_append, List.length_singleton, List.range_succ]
      refine List.Perm.trans ?_ (hw.accounted.append_right [w.built.length])
      rw [List.append_assoc, List.append_assoc]
      exact (List.perm_append_comm).append_left _
    · obtain rfl := Option.some.inj (hcall.symm.trans hc)
      exact ⟨List.getElem?_concat_length, hbuild⟩
  | late i r p hcall hmem =>
    exact inv_setPhase hw hcall (hw.calls _ (List.mem_of_getElem? hcall) : Genuine w.built r p)
  | stored i r p hcall hmem =>
    have hp : Genuine w.built r p := hw.calls _ (List.mem_of_getElem? hcall)
    exact inv_use (inv_setPhase hw hcall hp) hp (hw.tracks r.shared).put
  | closed id rest hlast =>
    refine ⟨List.Perm.trans ?_ hw.accounted, hw.calls, hw.uses, hw.tracks⟩
    rw [hlast, List.append_assoc]
    exact (List.perm_append_comm).append_left _

theorem inv_of_run {es : List Event} {w : World} (h : run step World.init es = some w) : Inv w :=
  run_preserves (fun _ _ _ => inv_step)
    ⟨List.Perm.refl _, List.forall_mem_nil _, fun _ => List.forall_mem_nil _,
      fun _ => Lru.tracks_empty⟩ h

/-- **Every client ever built is registered once or was closed once, and not both**, in any order
of calls, builds, evictions and turns of `close_all`; a caller holds a client that was built for
its own configuration. -/
theorem client_registered_or_closed_once {es : List Event} {w : World}
    (h : run step World.init es = some w) :
    (∀ id, w.registered.count id + w.closed.count id = if id < w.built.length then 1 else 0) ∧
    ∀ (i : Nat) (r : Request) (id : Nat), w.calls[i]? = some ⟨r, .returned (.client id)⟩ →
      w.built[id]? = some r := by
  have hw := inv_of_run h
  refine ⟨fun id => ?_, fun i r id hcall => (hw.calls _ (List.mem_of_getElem? hcall)).1⟩
  rw [← List.count_append, hw.accounted.count_eq]
  split
  · rename_i hlt
    exact List.count_eq_one_of_mem List.nodup_range (List.mem_range.mpr hlt)
  · rename_i hge
    exact List.count_eq_zero.mpr fun hmem => hge (List.mem_range.mp hmem)

def groqStt : Request := .stt ⟨"groq", "key", "https://groq", "whisper", ""⟩

/-- Two threads build for one configuration; the second one comes late. -/
def builtTwice : List Event :=
  [.call groqStt, .call groqStt, .build 0, .build 1, .store 0, .store 1]

theorem client_registered_or_closed_once_builtTwice :
    ∃ w, run step World.init (builtTwice ++ [.close, .close]) = some w ∧ w.registered = [] ∧
      w.registered.count 1 + w.closed.count 1 = 1 := by
  have hcheck : (run step World.init (builtTwice ++ [.close, .close])).map
      (fun w => decide (w.registered = [] ∧ w.built.length = 2)) = some true := by decide
  obtain ⟨w, hrun, hw⟩ := exists_run_of_check _ _ _ _ hcheck
  obtain ⟨hdrained, hbuilt⟩ := of_decide_eq_true hw
  refine ⟨w, hrun, hdrained, ((client_registered_or_closed_once hrun).1 1).trans ?_⟩
  rw [hbuilt, if_pos (by decide)]

/-- **A call builds exactly when its configuration is not among the last ones used**, eight of the
LLM and four of the others; otherwise it gets the provider of the last use. -/
theorem call_builds_iff_not_recent {es : List Event} {w w' : World} {r : Request}
    (h : run step World.init es = some w) (hstep : step w (.call r) = some w') :
    ∃ phase, w'.calls = w.calls ++ [⟨r, phase⟩] ∧
      (phase = .building ↔ r ∉ recent r.shared.maxsize ((w.uses r.shared).map Prod.fst)) ∧
      (phase ≠ .building → ∃ p, phase = .returned p ∧
        lastValue (w.uses r.shared) r = some p) := by
  have hlookup := ((inv_of_run h).tracks r.shared).lookup r
  cases moves_of_step hstep with
  | hit _ p hlook =>
    rw [hlook] at hlookup
    split at hlookup
    · rename_i hmem
      exact ⟨.returned p, rfl, ⟨fun h => (by cases h), fun hno => absurd hmem hno⟩,
        fun _ => ⟨p, rfl, hlookup.symm⟩⟩
    · cases hlookup
  | miss _ hlook =>
    have hmem := OrderedDict.lookup_eq_none_iff.mp hlook
    rw [((inv_of_run h).tracks r.shared).keys_eq] at hmem
    exact ⟨.building, rfl, ⟨fun _ => hmem, fun _ => rfl⟩, fun hno => absurd rfl hno⟩

theorem call_builds_iff_not_recent_builtTwice :
    ∃ w w', run step World.init builtTwice = some w ∧ step w (.call groqStt) = some w' ∧
      ∃ phase, w'.calls = w.calls ++ [⟨groqStt, phase⟩] ∧
        (phase = .building ↔ groqStt ∉ recent 4 ((w.uses .stt).map Prod.fst)) := by
  have hcheck : (run step World.init builtTwice).map
      (fun w => (step w (.call groqStt)).isSome) = some true := by decide
  obtain ⟨w, hrun, hsome⟩ := exists_run_of_check _ _ _ _ hcheck
  obtain ⟨w', hstep⟩ := Option.isSome_iff_exists.mp hsome
  obtain ⟨phase, hcalls, hiff, -⟩ := call_builds_iff_not_recent hrun hstep
  exact ⟨w, w', hrun, hstep, phase, hcalls, hiff⟩

end Apm.Llm.Factory
