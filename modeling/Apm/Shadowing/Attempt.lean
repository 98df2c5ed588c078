import Apm.Shadowing.Diff

/-!
# A spoken attempt

`score_attempt` transcribes the recording, and fetches the phoneme scores beside it. The verdict on
each word of the target comes from the text of the transcript, its score from the transcribed words;
the two lists are zipped by position. The speech recognizer and the pronunciation engine answer what
they like, in the order they like.
-/

namespace Apm.Shadowing

set_option autoImplicit false

open Apm.Lib
open Apm.Pronunciation

structure PhonemeScore where
  phoneme : Text
  score : ℚ
deriving DecidableEq

structure AttemptResult where
  transcript : Text
  words : List WordComparison
  missedWords : List Text
  coaching : Text
  phonemes : List PhonemeScore
deriving DecidableEq

/-- What a provider raises, or the service itself. -/
inductive Raised (ε : Type) where
  /-- `LlmProviderError` -/
  | provider (message : Text)
  /-- `RuntimeError`: there is no speech-to-text provider -/
  | noStt
  | other (e : ε)

variable {ε : Type}

/-- The providers of a service, with their answers to one recording. -/
structure Service (ε : Type) where
  transcribeVerbose : Option (Except (Raised ε) VerboseTranscript)
  scorePhonemes : Option (Except (Raised ε) (List PhonemeScore))
  /-- the transcription ends before the phoneme scores do -/
  sttFirst : Bool

namespace Service

/-- `_score_phonemes` -/
def phonemes (service : Service ε) : Except (Raised ε) (List PhonemeScore) :=
  match service.scorePhonemes with
  | none => .ok []
  | some (.error (.provider _)) => .ok []
  | some answer => answer

/-- `asyncio.gather`: the first that raises. -/
def gather {α β : Type} (sttFirst : Bool) (x : Except (Raised ε) α) (y : Except (Raised ε) β) :
    Except (Raised ε) (α × β) :=
  match x, y with
  | .ok a, .ok b => .ok (a, b)
  | .error e, .ok _ => .error e
  | .ok _, .error e => .error e
  | .error e, .error e' => .error (if sttFirst then e else e')

/-- `_merge` -/
def merge (heard : List WordComparison) (scores : List WordScore) : List WordComparison :=
  (heard.zip scores).map fun (h, s) => ⟨h.target, h.heard, s.score, s.confidence⟩

def scored (target : Text) (verbose : VerboseTranscript) (phonemes : List PhonemeScore) :
    AttemptResult :=
  let heard := compareWords target verbose.text
  ⟨verbose.text, merge heard (scoreWords target verbose), missedWords heard, [], phonemes⟩

def scoreAttempt (service : Service ε) (target : Text) (audio : List UInt8) (scorePhonemes : Bool) :
    Except (Raised ε) AttemptResult :=
  match service.transcribeVerbose with
  | none => .error .noStt
  | some transcribed =>
    if audio = [] then .ok ⟨[], [], [], [], []⟩
    else
      (gather service.sttFirst transcribed (if scorePhonemes then service.phonemes else .ok [])).map
        fun (verbose, phonemes) => scored target verbose phonemes

end Service

/-! ## The scores as pieces that are dealt -/

/-- The probabilities of the transcribed words of a normal form. -/
def probabilities (words : List TranscriptWord) (key : Text) : List (Option ℚ) :=
  (words.filter fun tw => Pronunciation.normalize tw.word = key).map TranscriptWord.probability

/-- The score of a word, from the transcribed word it is given. -/
def scoreFor : Option (Option ℚ) → ℚ
  | none => 0
  | some none => 1
  | some (some probability) => round3 (max 0 (min 1 probability))

def judged (raw : Text) (piece : Option (Option ℚ)) : WordScore :=
  ⟨raw, some (scoreFor piece), some presenceConfidence⟩

theorem foldl_hear (heard : Heard) (words : List TranscriptWord) {key : Text} (h : key ≠ []) :
    words.foldl hear heard key = heard key ++ probabilities words key := by
  induction words generalizing heard with
  | nil => exact (List.append_nil _).symm
  | cons tw words ih =>
    rw [List.foldl_cons, ih, hear, probabilities, probabilities, List.filter_cons]
    by_cases hsame : Pronunciation.normalize tw.word = key
    · subst hsame
      simp [h]
    · by_cases hnil : Pronunciation.normalize tw.word = []
      · simp [hnil, Ne.symm h]
      · simp [hnil, hsame, Function.update_of_ne (Ne.symm hsame)]

theorem scoreLoop_deal (heard : Heard) (raws : List Text) : scoreLoop heard raws =
    List.zipWith judged (wordsOf raws) (deal heard (keysOf raws)) := by
  induction raws generalizing heard with
  | nil => rfl
  | cons raw raws ih =>
    rw [scoreLoop]
    split_ifs with hkey
    · rw [ih, keysOf, keysOf, wordsOf_cons_of_nil raws hkey]
    rw [wordsOf_cons raws hkey, keysOf_cons raws hkey, deal, List.zipWith_cons_cons]
    cases hheard : heard (Pronunciation.normalize raw) with
    | nil =>
      have hsame : Function.update heard (Pronunciation.normalize raw) [] = heard := by
        rw [← hheard, Function.update_eq_self]
      rw [List.tail_nil, hsame, ← ih]
      rfl
    | cons p probs =>
      rw [List.tail_cons, ← ih]
      cases p <;> rfl

/-! ## Position by position -/

section merge

variable {target : Text} {verbose : VerboseTranscript} {phonemes : List PhonemeScore}

/-- The score and the confidence of a word, where any word was transcribed. -/
def scoreOption (verbose : VerboseTranscript) (piece : Option (Option ℚ)) : Option ℚ × Option ℚ :=
  if verbose.words = [] then (none, none) else (some (scoreFor piece), some presenceConfidence)

/-- What the words of the target are dealt. -/
def dealtTo (target : Text) (verbose : VerboseTranscript) : List (Option (Option ℚ)) :=
  deal (verbose.words.foldl hear fun _ => []) (keysOf (split target))

theorem length_keysOf (raws : List Text) : (keysOf raws).length = (wordsOf raws).length :=
  List.length_map _

theorem length_dealtTo : (dealtTo target verbose).length = (wordsOf (split target)).length := by
  rw [dealtTo, length_deal, length_keysOf]

theorem map_word_scoreWords :
    (scoreWords target verbose).map WordScore.word = wordsOf (split target) := by
  rw [scoreWords]
  split_ifs with hwords
  · rw [List.map_map]
    exact List.map_id _
  · refine List.ext_getElem ?_ fun i hi hi' => ?_
    · rw [scoreLoop_deal, ← dealtTo, List.length_map, List.length_zipWith, length_dealtTo, Nat.min_self]
    · simp [scoreLoop_deal, judged]

theorem map_score_scoreWords : (scoreWords target verbose).map (fun s => (s.score, s.confidence)) =
    (dealtTo target verbose).map (scoreOption verbose) := by
  rw [scoreWords]
  split_ifs with hwords
  · refine List.ext_getElem ?_ fun i hi hi' => ?_
    · rw [List.length_map, List.length_map, List.length_map, length_dealtTo]
      rfl
    · simp [scoreOption, hwords]
  · rw [scoreLoop_deal, List.map_zipWith]
    refine List.ext_getElem ?_ fun i hi hi' => ?_
    · rw [List.length_zipWith, ← dealtTo, length_dealtTo, Nat.min_self, List.length_map, length_dealtTo]
    · simp [scoreOption, hwords, judged, dealtTo]

theorem length_compareWords (transcript : Text) :
    (compareWords target transcript).length = (wordsOf (split target)).length := by
  rw [compareWords_verdict, List.length_zipWith, length_serve_keysOf, Nat.min_self]

/-- Both lists have one entry for each word of the target. -/
theorem lengths_eq (transcript : Text) :
    (compareWords target transcript).length = (scoreWords target verbose).length := by
  have hwords : (scoreWords target verbose).map WordScore.word = wordsOf (split target) :=
    map_word_scoreWords
  rw [length_compareWords, ← hwords, List.length_map]

variable {γ : Type}

/-- What a merged word has of its verdict. -/
theorem map_merge_heard {heard : List WordComparison} {scores : List WordScore}
    (h : heard.length = scores.length) (f : Text → Bool → γ) :
    (Service.merge heard scores).map (fun c => f c.target c.heard) =
      heard.map fun c => f c.target c.heard :=
  calc (Service.merge heard scores).map (fun c => f c.target c.heard)
      = (heard.zip scores).map ((fun c : WordComparison => f c.target c.heard) ∘ Prod.fst) := by
        rw [Service.merge, List.map_map]
        rfl
    _ = heard.map fun c => f c.target c.heard := by rw [← List.map_map, List.map_fst_zip h.le]

/-- What a merged word has of its score. -/
theorem map_merge_score {heard : List WordComparison} {scores : List WordScore}
    (h : heard.length = scores.length) :
    (Service.merge heard scores).map (fun c => (c.score, c.confidence)) =
      scores.map fun s => (s.score, s.confidence) :=
  calc (Service.merge heard scores).map (fun c => (c.score, c.confidence))
      = (heard.zip scores).map ((fun s : WordScore => (s.score, s.confidence)) ∘ Prod.snd) := by
        rw [Service.merge, List.map_map]
        rfl
    _ = scores.map fun s => (s.score, s.confidence) := by
        rw [← List.map_map, List.map_snd_zip h.ge]

/-- The words of one normal form, taken out of the words of the target. -/
theorem of_key {words : List WordComparison} {raws : List Text} (key : Text)
    (h : words.map WordComparison.target = raws) (f : WordComparison → γ) :
    (words.filter fun c => Pronunciation.normalize c.target = key).map f =
      (((raws.map Pronunciation.normalize).zip (words.map f)).filter fun d => d.1 = key).map
        Prod.snd := by
  rw [← h, List.map_map, List.zip_map', List.filter_map, List.map_map]
  rfl

/-- Every word of the target is judged, in its place. -/
theorem map_target_scored :
    (Service.scored target verbose phonemes).words.map WordComparison.target =
      wordsOf (split target) := by
  refine (map_merge_heard (lengths_eq _) fun raw _ => raw).trans ?_
  have hpairs : (compareWords target verbose.text).map (fun c => c.target) =
      ((compareWords target verbose.text).map fun c => (c.target, c.heard)).map Prod.fst := by
    rw [List.map_map]
    rfl
  rw [hpairs, compareWords_verdict, map_verdict]
  exact List.map_fst_zip (length_serve_keysOf _ _).ge

theorem map_heard_scored :
    (Service.scored target verbose phonemes).words.map WordComparison.heard =
      serve (fun key => (tokens verbose.text).count key) (keysOf (split target)) := by
  refine (map_merge_heard (lengths_eq _) fun _ heard => heard).trans ?_
  have hpairs : (compareWords target verbose.text).map (fun c => c.heard) =
      ((compareWords target verbose.text).map fun c => (c.target, c.heard)).map Prod.snd := by
    rw [List.map_map]
    rfl
  rw [hpairs, compareWords_verdict, map_verdict]
  exact List.map_snd_zip (length_serve_keysOf _ _).le

theorem map_score_scored :
    (Service.scored target verbose phonemes).words.map (fun c => (c.score, c.confidence)) =
      (dealtTo target verbose).map (scoreOption verbose) :=
  (map_merge_score (lengths_eq _)).trans map_score_scoreWords

/-- A normal form is heard as often as the transcript has it, from the left. -/
theorem heard_of_key (key : Text) :
    ((Service.scored target verbose phonemes).words.filter fun c =>
        Pronunciation.normalize c.target = key).map WordComparison.heard =
      (List.range ((keysOf (split target)).count key)).map fun k =>
        decide (k < (tokens verbose.text).count key) := by
  rw [of_key key map_target_scored, map_heard_scored]
  exact served_of_key _ _ key

/-- The words of a normal form take the transcribed ones in their order. -/
theorem score_of_key (key : Text) :
    ((Service.scored target verbose phonemes).words.filter fun c =>
        Pronunciation.normalize c.target = key).map (fun c => (c.score, c.confidence)) =
      (List.range ((keysOf (split target)).count key)).map fun k =>
        scoreOption verbose (probabilities verbose.words key)[k]? := by
  rw [of_key key map_target_scored, map_score_scored, List.zip_map_right, List.filter_map,
    List.map_map]
  have hdealt := congrArg (List.map (scoreOption verbose)) (dealt_of_key
    (verbose.words.foldl hear fun _ => []) (keysOf (split target)) key)
  rw [List.map_map, List.map_map] at hdealt
  refine hdealt.trans (List.map_congr_left fun k hk => ?_)
  -- a normal form of the target is not empty
  have hkey : key ≠ [] := by
    have hmem : key ∈ keysOf (split target) :=
      List.count_pos_iff.mp (Nat.zero_lt_of_lt (List.mem_range.mp hk))
    obtain ⟨raw, hraw, rfl⟩ := List.mem_map.mp hmem
    exact of_decide_eq_true (List.mem_filter.mp hraw).2
  rw [Function.comp_apply, foldl_hear _ _ hkey, List.nil_append]

end merge

/-- An attempt at a phrase that came through: its transcript and its phonemes. -/
theorem scoreAttempt_ok {service : Service ε} {target : Text} {audio : List UInt8}
    {scorePhonemes : Bool} {result : AttemptResult} (haudio : audio ≠ [])
    (h : service.scoreAttempt target audio scorePhonemes = .ok result) :
    ∃ verbose phonemes, service.transcribeVerbose = some (.ok verbose) ∧
      (if scorePhonemes then service.phonemes else .ok []) = .ok phonemes ∧
      result = Service.scored target verbose phonemes := by
  rw [Service.scoreAttempt] at h
  split at h
  · cases h
  · rename_i transcribed hstt
    rw [if_neg haudio] at h
    cases htranscribed : transcribed with
    | error e =>
      rw [htranscribed] at h
      cases hphonemes : (if scorePhonemes then service.phonemes else .ok []) with
      | error e' => rw [hphonemes] at h; cases h
      | ok phonemes => rw [hphonemes] at h; cases h
    | ok verbose =>
      rw [htranscribed] at h
      cases hphonemes : (if scorePhonemes then service.phonemes else .ok []) with
      | error e' => rw [hphonemes] at h; cases h
      | ok phonemes =>
        rw [hphonemes] at h
        exact ⟨verbose, phonemes, by rw [hstt, htranscribed], rfl, (Except.ok.inj h).symm⟩

/-- Without consent, without an engine, or with one that raises `LlmProviderError`, an attempt that
was transcribed has a result with no phonemes. -/
theorem scoreAttempt_without_phonemes {service : Service ε} {target : Text} {audio : List UInt8}
    {scorePhonemes : Bool} {verbose : VerboseTranscript} (haudio : audio ≠ [])
    (hstt : service.transcribeVerbose = some (.ok verbose))
    (h : scorePhonemes = false ∨ service.scorePhonemes = none ∨
      ∃ message, service.scorePhonemes = some (.error (.provider message))) :
    service.scoreAttempt target audio scorePhonemes = .ok (Service.scored target verbose []) := by
  have hphonemes : (if scorePhonemes then service.phonemes else .ok []) = .ok [] := by
    rcases h with rfl | hnone | ⟨message, hdown⟩
    · rfl
    · rw [Service.phonemes, hnone]
      exact ite_self _
    · rw [Service.phonemes, hdown]
      exact ite_self _
  rw [Service.scoreAttempt, hstt]
  dsimp only
  rw [if_neg haudio, hphonemes]
  rfl

/-- The missed words of a result are those not heard. -/
theorem missedWords_scored (target : Text) (verbose : VerboseTranscript)
    (phonemes : List PhonemeScore) : (Service.scored target verbose phonemes).missedWords =
      missedWords (Service.scored target verbose phonemes).words := by
  have hmissed (words : List WordComparison) : missedWords words =
      ((words.map fun c => (c.target, c.heard)).filter fun x => !x.2).map Prod.fst := by
    rw [missedWords, List.filter_map, List.map_map]
    rfl
  have hsame : (Service.scored target verbose phonemes).words.map (fun c => (c.target, c.heard)) =
      (compareWords target verbose.text).map fun c => (c.target, c.heard) :=
    map_merge_heard (lengths_eq _) Prod.mk
  rw [hmissed (Service.scored target verbose phonemes).words, hsame, ← hmissed]
  rfl

/-- **Every word of the target is judged once, and both verdicts on it are its own.** Whatever the
providers answer to a recording that is not empty, the words of a result are the words of the target
that have a normal form, in their order: the zip of the two lists drops none. The first words of a
normal form are heard, as many as the text of the transcript has of its token; and they take the
scores of the transcribed words in their order, the words behind them a zero, or no score where
nothing was transcribed. The missed words are those not heard. Without consent to scoring, without
an engine, or with one that fails by `LlmProviderError`, a transcribed attempt still has its result,
and the phonemes alone are empty. -/
theorem attempt_judged {service : Service ε} {target : Text} {audio : List UInt8}
    {scorePhonemes : Bool} (haudio : audio ≠ []) :
    (∀ result, service.scoreAttempt target audio scorePhonemes = .ok result →
      ∃ verbose, service.transcribeVerbose = some (.ok verbose) ∧ result.transcript = verbose.text ∧
        result.words.map WordComparison.target = wordsOf (split target) ∧
        (∀ key, (result.words.filter fun c => Pronunciation.normalize c.target = key).map
            WordComparison.heard = (List.range ((keysOf (split target)).count key)).map fun k =>
              decide (k < (tokens verbose.text).count key)) ∧
        (∀ key, (result.words.filter fun c => Pronunciation.normalize c.target = key).map
            (fun c => (c.score, c.confidence)) =
            (List.range ((keysOf (split target)).count key)).map fun k =>
              scoreOption verbose (probabilities verbose.words key)[k]?) ∧
        result.missedWords = missedWords result.words ∧
        result.phonemes = if scorePhonemes then service.phonemes.toOption.getD [] else []) ∧
      ∀ verbose, service.transcribeVerbose = some (.ok verbose) →
        (scorePhonemes = false ∨ service.scorePhonemes = none ∨
          ∃ message, service.scorePhonemes = some (.error (.provider message))) →
        ∃ result, service.scoreAttempt target audio scorePhonemes = .ok result ∧
          result.phonemes = [] := by
  refine ⟨fun result h => ?_, fun verbose hstt hnone =>
    ⟨_, scoreAttempt_without_phonemes haudio hstt hnone, rfl⟩⟩
  obtain ⟨verbose, phonemes, hstt, hphonemes, rfl⟩ := scoreAttempt_ok haudio h
  refine ⟨verbose, hstt, rfl, map_target_scored, heard_of_key, score_of_key,
    missedWords_scored target verbose phonemes, ?_⟩
  cases scorePhonemes with
  | false => exact (Except.ok.inj hphonemes).symm
  | true =>
    rw [if_pos rfl] at hphonemes ⊢
    rw [hphonemes]
    rfl

/-- A phrase that says "no" twice, a transcript that has it once with a probability, and an engine
that is down. -/
def noThenNo : Service Unit :=
  ⟨some (.ok ⟨"yes no".toList, [⟨"yes".toList, none⟩, ⟨"No,".toList, some (3 / 4)⟩]⟩),
    some (.error (.provider "503".toList)), false⟩

theorem attempt_judged_noThenNo :
    ∃ result, noThenNo.scoreAttempt "No, no!".toList [1] true = .ok result ∧
      result.words.map WordComparison.target = wordsOf (split "No, no!".toList) ∧
      result.phonemes = [] := by
  obtain ⟨hjudged, hdown⟩ := @attempt_judged Unit noThenNo "No, no!".toList [1] true (by decide)
  obtain ⟨result, hresult, hphonemes⟩ := hdown _ rfl (.inr (.inr ⟨_, rfl⟩))
  obtain ⟨-, -, -, htargets, -⟩ := hjudged result hresult
  exact ⟨result, hresult, htargets, hphonemes⟩

end Apm.Shadowing
