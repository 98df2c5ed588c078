import Apm.Pronunciation.Scorer

/-!
# The shadowing diff and the word scores

`compare_words` and `score_words` judge the words of one target phrase, and their verdicts are
shown side by side. The one counts the runs of word characters in the transcript, the other the
transcribed words by their normal form, which joins the runs of a word.
-/

namespace Apm.Shadowing

set_option autoImplicit false

open Apm.Debriefs (isSpace)
open Apm.Lib
open Apm.Pronunciation

structure WordComparison where
  target : Text
  heard : Bool
  score : Option ℚ
  confidence : Option ℚ
deriving DecidableEq

/-- `_tokens` -/
def tokens (text : Text) : List Text := findWords (lower text)

/-- How many heard tokens are left, by token. -/
abbrev Available := Text → Nat

/-- `available[token] = available.get(token, 0) + 1` -/
def makeAvailable (available : Available) (token : Text) : Available :=
  Function.update available token (available token + 1)

/-- The loop over the words of the target. -/
def compareLoop : Available → List Text → List WordComparison
  | _, [] => []
  | available, raw :: rest =>
    let normalized := (findWords (lower raw)).flatten
    if normalized = [] then compareLoop available rest
    else
      let heard := decide (0 < available normalized)
      ⟨raw, heard, none, none⟩ ::
        compareLoop (if heard then take available normalized else available) rest

/-- `compare_words` -/
def compareWords (target transcript : Text) : List WordComparison :=
  compareLoop ((tokens transcript).foldl makeAvailable fun _ => 0) (split target)

/-- `missed_words` -/
def missedWords (comparisons : List WordComparison) : List Text :=
  (comparisons.filter fun c => !c.heard).map (·.target)

/-! ## The diff as a stock of tokens -/

def verdict (raw : Text) (heard : Bool) : WordComparison := ⟨raw, heard, none, none⟩

theorem foldl_makeAvailable (available : Available) (tokens : List Text) :
    tokens.foldl makeAvailable available = fun key => available key + tokens.count key := by
  induction tokens generalizing available with
  | nil => rfl
  | cons token tokens ih =>
    rw [List.foldl_cons, ih]
    funext key
    rw [makeAvailable, List.count_cons]
    by_cases hkey : key = token
    · subst hkey
      rw [Function.update_self]
      simp only [beq_self_eq_true, if_true]
      omega
    · rw [Function.update_of_ne hkey]
      simp [Ne.symm hkey]

theorem compareLoop_verdict (available : Available) (raws : List Text) :
    compareLoop available raws =
      List.zipWith verdict (wordsOf raws) (serve available (keysOf raws)) := by
  induction raws generalizing available with
  | nil => rfl
  | cons raw raws ih =>
    rw [compareLoop]
    change (if Pronunciation.normalize raw = [] then _ else _) = _
    split_ifs with hkey
    · rw [ih, keysOf, keysOf, wordsOf_cons_of_nil raws hkey]
    have hrest : (if decide (0 < available (Pronunciation.normalize raw)) then
        take available (Pronunciation.normalize raw) else available) =
        take available (Pronunciation.normalize raw) := by
      split_ifs with hheard
      · rfl
      · exact (take_of_eq_zero (by simpa using hheard)).symm
    rw [wordsOf_cons raws hkey, keysOf_cons raws hkey, serve, List.zipWith_cons_cons, ← ih, ← hrest]
    rfl

/-- Each word of the target is heard while a token that is its normal form is left. -/
theorem compareWords_verdict (target transcript : Text) : compareWords target transcript =
    List.zipWith verdict (wordsOf (split target))
      (serve (fun key => (tokens transcript).count key) (keysOf (split target))) := by
  rw [compareWords, foldl_makeAvailable, compareLoop_verdict]
  simp only [Nat.zero_add]

/-! ## Runs of a text and of its words -/

theorem toNat_of_isSpace {c : Char} (h : isSpace c = true) : c.toNat ≤ 32 ∨ 0x85 ≤ c.toNat := by
  simp only [isSpace, Bool.or_eq_true, Bool.and_eq_true, decide_eq_true_eq] at h
  omega

theorem le_iff_toNat (c d : Char) : c ≤ d ↔ c.toNat ≤ d.toNat := Iff.rfl

theorem lowerChar_space {c : Char} (h : isSpace c = true) : lowerChar c = [c] := by
  have hnat := toNat_of_isSpace h
  have hplain : ¬ (c.val ≥ 'A'.val ∧ c.val ≤ 'Z'.val) := by
    rintro ⟨hle, hge⟩
    have hlow : 65 ≤ c.toNat := hle
    have hhigh : c.toNat ≤ 90 := hge
    omega
  have hspace : c.toNat ≠ 0x130 ∧ c.toNat ≠ 0x212a := by
    simp only [isSpace, Bool.or_eq_true, Bool.and_eq_true, decide_eq_true_eq] at h
    omega
  have hlower : c.toLower = c := dif_neg hplain
  rw [lowerChar, if_neg hspace.1, if_neg hspace.2, hlower]

theorem isWordChar_space {c : Char} (h : isSpace c = true) : isWordChar c = false := by
  have hnat := toNat_of_isSpace h
  rw [Bool.eq_false_iff]
  intro hword
  simp only [isWordChar, Bool.or_eq_true, Bool.and_eq_true, decide_eq_true_eq, le_iff_toNat]
    at hword
  have ha : 'a'.toNat = 97 := rfl
  have hz : 'z'.toNat = 122 := rfl
  have hzero : '0'.toNat = 48 := rfl
  have hnine : '9'.toNat = 57 := rfl
  omega

/-- White space ends a run. -/
theorem splitsAt_tokens : SplitsAt isSpace tokens where
  nil := rfl
  append_cons hc before after := by
    rw [tokens, lower, List.flatMap_append, List.flatMap_cons, lowerChar_space hc,
      List.singleton_append, findWords,
      (splitsAt_fields _).append_cons (by rw [isWordChar_space hc]; rfl)]
    rfl

/-- The transcribed words as running text. -/
def textOf (words : List Text) : Text := [' '].intercalate words

theorem tokens_textOf (words : List Text) : tokens (textOf words) = words.flatMap tokens :=
  splitsAt_tokens.intercalate (by decide) words

theorem tokens_split (text : Text) : (split text).flatMap tokens = tokens text :=
  splitsAt_tokens.flatMap_fields text

theorem split_textOf (words : List Text) : split (textOf words) = words.flatMap split :=
  (splitsAt_fields isSpace).intercalate (by decide) words

theorem ne_nil_of_mem_tokens {text token : Text} (h : token ∈ tokens text) : token ≠ [] :=
  ne_nil_of_mem_fields h

/-- A word without a run has no normal form. -/
theorem normalize_eq_nil_iff (raw : Text) : Pronunciation.normalize raw = [] ↔ tokens raw = [] := by
  constructor
  · intro h
    rw [Pronunciation.normalize, List.flatten_eq_nil_iff] at h
    exact List.eq_nil_iff_forall_not_mem.mpr fun token htoken =>
      ne_nil_of_mem_tokens htoken (h token htoken)
  · intro h
    show (tokens raw).flatten = []
    rw [h, List.flatten_nil]

theorem flatten_keysOf (raws : List Text) :
    (keysOf raws).flatten = (raws.flatMap tokens).flatten := by
  induction raws with
  | nil => rfl
  | cons raw raws ih =>
    rw [keysOf_cons_append, List.flatten_append, ih, List.flatMap_cons, List.flatten_append]
    congr 1
    by_cases hkey : Pronunciation.normalize raw = []
    · rw [(normalize_eq_nil_iff raw).mp hkey]
      simp [keysOf, wordsOf, hkey]
    · rw [keysOf_cons _ hkey, List.flatten_cons]
      exact List.append_nil _

/-- A word of one run at most is its own normal form. -/
theorem keysOf_of_single {raw : Text} (h : (tokens raw).length ≤ 1) :
    keysOf [raw] = tokens raw := by
  by_cases hkey : Pronunciation.normalize raw = []
  · rw [(normalize_eq_nil_iff raw).mp hkey]
    simp [keysOf, wordsOf, hkey]
  · obtain ⟨token, htoken⟩ : ∃ token, tokens raw = [token] := by
      have hne := mt (normalize_eq_nil_iff raw).mpr hkey
      have hpos := List.length_pos_iff.mpr hne
      exact List.length_eq_one_iff.mp (by omega)
    have hnormal : Pronunciation.normalize raw = token := by
      show (tokens raw).flatten = token
      rw [htoken, List.flatten_singleton]
    rw [keysOf_cons _ hkey, hnormal, htoken]
    rfl

theorem keysOf_of_all_single {raws : List Text} (h : ∀ raw ∈ raws, (tokens raw).length ≤ 1) :
    keysOf raws = raws.flatMap tokens := by
  induction raws with
  | nil => rfl
  | cons raw raws ih =>
    rw [List.forall_mem_cons] at h
    rw [keysOf_cons_append, keysOf_of_single h.1, ih h.2, List.flatMap_cons]

theorem length_keysOf_cons_le (raw : Text) (raws : List Text) :
    (keysOf (raw :: raws)).length ≤ 1 + (keysOf raws).length ∧
      (keysOf (raw :: raws)).length ≤ (tokens raw).length + (keysOf raws).length := by
  by_cases hkey : Pronunciation.normalize raw = []
  · rw [keysOf, wordsOf_cons_of_nil _ hkey, ← keysOf]
    omega
  · have hpos := List.length_pos_iff.mpr (mt (normalize_eq_nil_iff raw).mpr hkey)
    rw [keysOf_cons _ hkey, List.length_cons]
    omega

theorem length_keysOf_le (raws : List Text) :
    (keysOf raws).length ≤ (raws.flatMap tokens).length := by
  induction raws with
  | nil => exact le_rfl
  | cons raw raws ih =>
    have hraw := (length_keysOf_cons_le raw raws).2
    rw [List.flatMap_cons, List.length_append]
    omega

/-- As many normal forms as runs: no word has two runs. -/
theorem single_of_length_eq {raws : List Text}
    (h : (raws.flatMap tokens).length ≤ (keysOf raws).length) :
    ∀ raw ∈ raws, (tokens raw).length ≤ 1 := by
  induction raws with
  | nil => exact fun raw hraw => absurd hraw List.not_mem_nil
  | cons raw raws ih =>
    have hraw := length_keysOf_cons_le raw raws
    have hle := length_keysOf_le raws
    rw [List.flatMap_cons, List.length_append] at h
    exact List.forall_mem_cons.mpr ⟨by omega, ih (by omega)⟩

/-! ## Where the verdicts agree -/

/-- How often a normal form is heard in the diff. -/
def timesHeard (key : Text) (comparisons : List WordComparison) : Nat :=
  comparisons.countP fun c => Pronunciation.normalize c.target = key ∧ c.heard = true

/-- How often a normal form scores one. -/
def timesScored (key : Text) (scores : List WordScore) : Nat :=
  scores.countP fun s => Pronunciation.normalize s.word = key ∧ s.score = some 1

/-- What the two matchers promise of a target and of transcribed words without probabilities. -/
structure Agree (target : Text) (words : List Text) : Prop where
  same : (compareWords target (textOf words)).map (fun c => (c.target, c.heard)) =
    (scoreWords target (unscored (textOf words) words)).map
      fun s => (s.word, decide (s.score = some 1))
  heard : ∀ key, timesHeard key (compareWords target (textOf words)) =
    min ((keysOf (split target)).count key) ((keysOf words).count key)
  scored : ∀ key, timesScored key (scoreWords target (unscored (textOf words) words)) =
    min ((keysOf (split target)).count key) ((keysOf words).count key)
  itself : textOf words = target → missedWords (compareWords target (textOf words)) = [] ∧
    ∀ s ∈ scoreWords target (unscored (textOf words) words), s.score = some 1

/-- The runs and the normal forms of the transcribed words come to the same for every word of
the target; where the transcript is the target itself, no word has two runs. -/
structure RunsMatch (target : Text) (words : List Text) : Prop where
  counts : ∀ key ∈ keysOf (split target),
    min ((keysOf (split target)).count key) ((words.flatMap tokens).count key) =
      min ((keysOf (split target)).count key) ((keysOf words).count key)
  itself : textOf words = target → ∀ word ∈ words, (tokens word).length ≤ 1

/-- The verdicts of one kind, and the demands that were served. -/
theorem countP_zipWith {γ : Type} {judge : Text → Bool → γ} {p : γ → Bool} (key : Text)
    (h : ∀ raw served,
      p (judge raw served) = ((Pronunciation.normalize raw, served) == (key, true)))
    (raws : List Text) (served : List Bool) : (List.zipWith judge raws served).countP p =
      ((raws.map Pronunciation.normalize).zip served).count (key, true) := by
  induction raws generalizing served with
  | nil => rfl
  | cons raw raws ih =>
    cases served with
    | nil => rfl
    | cons first served =>
      rw [List.zipWith_cons_cons, List.countP_cons, ih, h, List.map_cons, List.zip_cons_cons,
        List.count_cons]

theorem timesHeard_eq (key target transcript : Text) :
    timesHeard key (compareWords target transcript) =
      min ((keysOf (split target)).count key) ((tokens transcript).count key) := by
  rw [timesHeard, compareWords_verdict, countP_zipWith key, ← keysOf, count_served]
  intro raw served
  rw [Bool.eq_iff_iff]
  refine decide_eq_true_iff.trans ?_
  simp [verdict]

theorem timesScored_eq (key target text : Text) {words : List Text} (h : words ≠ []) :
    timesScored key (scoreWords target (unscored text words)) =
      min ((keysOf (split target)).count key) ((keysOf words).count key) := by
  rw [timesScored, scoreWords_presence target text h, countP_zipWith key, ← keysOf, count_served]
  intro raw served
  rw [Bool.eq_iff_iff]
  cases served <;> simp [presence]

theorem length_serve_keysOf (stock : Text → Nat) (raws : List Text) :
    (serve stock (keysOf raws)).length = (wordsOf raws).length := by
  rw [length_serve, keysOf, List.length_map]

theorem map_verdict (raws : List Text) (served : List Bool) :
    (List.zipWith verdict raws served).map (fun c => (c.target, c.heard)) = raws.zip served :=
  List.map_zipWith ..

theorem map_presence (raws : List Text) (served : List Bool) :
    (List.zipWith presence raws served).map (fun s => (s.word, decide (s.score = some 1))) =
      raws.zip served := by
  rw [List.map_zipWith, List.zip]
  congr 1
  funext raw present
  cases present <;> simp [presence]

/-- The verdicts are the same where both stocks serve the words alike. -/
theorem same_iff (target : Text) {words : List Text} (h : words ≠ []) :
    (compareWords target (textOf words)).map (fun c => (c.target, c.heard)) =
        (scoreWords target (unscored (textOf words) words)).map
          (fun s => (s.word, decide (s.score = some 1))) ↔
      ∀ key ∈ keysOf (split target),
        min ((keysOf (split target)).count key) ((words.flatMap tokens).count key) =
          min ((keysOf (split target)).count key) ((keysOf words).count key) := by
  rw [compareWords_verdict, scoreWords_presence target _ h, map_verdict, map_presence,
    tokens_textOf]
  refine Iff.trans ?_ (serve_eq_iff _)
  constructor
  · intro hzip
    have hsnd := congrArg (List.map Prod.snd) hzip
    rwa [List.map_snd_zip (length_serve_keysOf _ _).le,
      List.map_snd_zip (length_serve_keysOf _ _).le] at hsnd
  · intro hserve
    rw [hserve]

theorem forall_zipWith_iff {γ : Type} {judge : Text → Bool → γ} {p : γ → Prop}
    (h : ∀ raw served, p (judge raw served) ↔ served = true) {raws : List Text}
    {served : List Bool} (hlength : served.length = raws.length) :
    (∀ x ∈ List.zipWith judge raws served, p x) ↔ ∀ one ∈ served, one = true := by
  induction raws generalizing served with
  | nil => simp [List.length_eq_zero_iff.mp hlength]
  | cons raw raws ih =>
    cases served with
    | nil => simp
    | cons first served =>
      rw [List.zipWith_cons_cons, List.forall_mem_cons, List.forall_mem_cons, h,
        ih (Nat.succ.inj hlength)]

/-- Every word of the target is heard. -/
theorem missedWords_eq_nil_iff (target transcript : Text) :
    missedWords (compareWords target transcript) = [] ↔
      ∀ key, (keysOf (split target)).count key ≤ (tokens transcript).count key := by
  rw [compareWords_verdict, missedWords, List.map_eq_nil_iff, List.filter_eq_nil_iff]
  refine Iff.trans ?_ (serve_all_iff _)
  exact forall_zipWith_iff (fun raw served => by simp [verdict]) (length_serve_keysOf _ _)

theorem scores_one_iff (target text : Text) {words : List Text} (h : words ≠ []) :
    (∀ s ∈ scoreWords target (unscored text words), s.score = some 1) ↔
      ∀ key, (keysOf (split target)).count key ≤ (keysOf words).count key := by
  rw [scoreWords_presence target text h]
  refine Iff.trans ?_ (serve_all_iff _)
  refine forall_zipWith_iff (fun raw served => ?_) (length_serve_keysOf _ _)
  cases served <;> simp [presence]

/-- The target itself is heard whole by both where no transcribed word has two runs. -/
theorem itself_iff (words : List Text) :
    (∀ key, (keysOf (split (textOf words))).count key ≤ (words.flatMap tokens).count key) ∧
        (∀ key, (keysOf (split (textOf words))).count key ≤ (keysOf words).count key) ↔
      ∀ word ∈ words, (tokens word).length ≤ 1 := by
  have hsplit : (split (textOf words)).flatMap tokens = words.flatMap tokens := by
    rw [tokens_split, tokens_textOf]
  have hflatten : (keysOf (split (textOf words))).flatten = (words.flatMap tokens).flatten := by
    rw [flatten_keysOf, hsplit]
  constructor
  · rintro ⟨hheard, hscored⟩
    have hruns := perm_of_count_le hheard
      (fun run hrun => by
        obtain ⟨word, -, hrun⟩ := List.mem_flatMap.mp hrun
        exact ne_nil_of_mem_tokens hrun)
      (by rw [hflatten])
    have hforms := perm_of_count_le hscored
      (fun key hkey => by
        simp only [keysOf, wordsOf, List.mem_map, List.mem_filter, decide_eq_true_iff] at hkey
        obtain ⟨raw, ⟨-, hne⟩, rfl⟩ := hkey
        exact hne)
      (by rw [hflatten, flatten_keysOf])
    exact single_of_length_eq (hruns.symm.trans hforms).length_eq.le
  · intro h
    have hpieces : ∀ piece ∈ split (textOf words), (tokens piece).length ≤ 1 := by
      intro piece hpiece
      rw [split_textOf, List.mem_flatMap] at hpiece
      obtain ⟨word, hword, hpiece⟩ := hpiece
      have hsub : (tokens piece).Sublist (tokens word) := by
        rw [← tokens_split word, List.flatMap_def]
        exact List.sublist_flatten_of_mem (List.mem_map_of_mem hpiece)
      exact hsub.length_le.trans (h word hword)
    rw [keysOf_of_all_single hpieces, hsplit, keysOf_of_all_single h]
    exact ⟨fun key => le_rfl, fun key => le_rfl⟩

/-- The two matchers keep their promise exactly where runs and normal forms match. -/
theorem agree_iff_runsMatch (target : Text) (words : List Text) (h : words ≠ []) :
    Agree target words ↔ RunsMatch target words := by
  have hitself : textOf words = target →
      ((missedWords (compareWords target (textOf words)) = [] ∧
        ∀ s ∈ scoreWords target (unscored (textOf words) words), s.score = some 1) ↔
      ∀ word ∈ words, (tokens word).length ≤ 1) := by
    rintro rfl
    rw [missedWords_eq_nil_iff, scores_one_iff _ _ h, tokens_textOf, itself_iff]
  constructor
  · intro hagree
    exact ⟨(same_iff target h).mp hagree.same, fun heq => (hitself heq).mp (hagree.itself heq)⟩
  · intro hmatch
    refine ⟨(same_iff target h).mpr hmatch.counts, fun key => ?_, fun key => ?_,
      fun heq => (hitself heq).mpr (hmatch.itself heq)⟩
    · rw [timesHeard_eq, tokens_textOf]
      by_cases hkey : key ∈ keysOf (split target)
      · exact hmatch.counts key hkey
      · rw [List.count_eq_zero_of_not_mem hkey, Nat.zero_min, Nat.zero_min]
    · exact timesScored_eq key target _ h

/-- A transcript of words of one run each matches every target. -/
theorem runsMatch_of_single (target : Text) {words : List Text}
    (h : ∀ word ∈ words, (tokens word).length ≤ 1) : RunsMatch target words :=
  ⟨fun key _ => by rw [keysOf_of_all_single h], fun _ => h⟩

theorem agree_iff_runsMatch_single :
    (Agree "I'm ready, you're not".toList ["i'm".toList, "Not".toList] ↔
      RunsMatch "I'm ready, you're not".toList ["i'm".toList, "Not".toList]) ∧
      RunsMatch "I'm ready, you're not".toList ["i'm".toList, "Not".toList] :=
  ⟨agree_iff_runsMatch _ _ (by decide), runsMatch_of_single _ (by decide)⟩

/-- A hyphenated word that is heard as it is written is missed by the diff and scores one. -/
theorem hyphenated_not_agree : ¬ Agree "well-known".toList ["well-known".toList] := by
  intro h
  have hsame := h.same
  rw [same_iff _ (by decide)] at hsame
  exact absurd hsame (by decide)

end Apm.Shadowing
