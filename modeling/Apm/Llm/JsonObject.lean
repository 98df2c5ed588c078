import Apm.Debriefs.Analyzer

/-!
# The JSON object in a reply

What the features share that ask the LLM for a JSON object: `parse_json_object` and `clip`, and the
list fields they read. `json.loads` may raise what `parse_json_object` does not catch, and `str`
may raise on a value that nests too deep.
-/

namespace Apm.Llm

open Apm.Lib
open Apm.Lib.Json (Text Value str loads)
open Apm.Debriefs.Analyzer (Interpreter Printable stripText)

set_option autoImplicit false

/-- What leaves `parse_json_object` or `str` as an exception. -/
inductive Overflow where
  /-- `ValueError`: an integer with too many digits -/
  | digits
  /-- `RecursionError` -/
  | recursion
  deriving DecidableEq, Repr

/-- `parse_json_object`: from the first opening brace to the last closing one. -/
def parseJsonObject (py : Interpreter) (reply : Text) :
    Except Overflow (Option (List (Text × Value))) :=
  match reply.findIdx? (· = 0x7b), reply.reverse.findIdx? (· = 0x7d) with
  | some start, some behind =>
    let stop := reply.length - 1 - behind
    if stop ≤ start then .ok none
    else
      match loads py.scanDepth ((reply.take (stop + 1)).drop start) with
      | .ok (.dict entries) => .ok (some entries)
      | .ok _ => .ok none
      | .error (.decode _) => .ok none
      | .error .digits => .error .digits
      | .error .recursion => .error .recursion
  | _, _ => .ok none

def clip (value : Text) (maxChars : Nat) : Text := (stripText value).take maxChars

/-- `str` -/
def toText (py : Interpreter) (value : Value) : Except Overflow Text :=
  if Printable py value then .ok (str py.toDisplay value) else .error .recursion

/-- `clip(str(data.get(key, "")), max_chars)` -/
def clipField (py : Interpreter) (data : List (Text × Value)) (key : String) (maxChars : Nat) :
    Except Overflow Text := do
  let value ← toText py (Json.get data key (.str []))
  .ok (clip value maxChars)

/-- `[clip(str(v), max_chars) for v in value if str(v).strip()][:cap]`, where only a list is
iterated. -/
def clipTexts (py : Interpreter) (value : Value) (maxChars cap : Nat) :
    Except Overflow (List Text) :=
  match value with
  | .list items => do
    let texts ← items.mapM (toText py)
    .ok (((texts.filter fun t => stripText t ≠ []).map fun t => clip t maxChars).take cap)
  | _ => .ok []

theorem ok_of_bind {ε α β : Type} {x : Except ε α} {f : α → Except ε β} {b : β}
    (h : x >>= f = .ok b) : ∃ a, x = .ok a ∧ f a = .ok b := by
  cases x with
  | error e => cases h
  | ok a => exact ⟨a, rfl, h⟩

theorem ok_of_mapError {ε ε' α : Type} {x : Except ε α} {f : ε → ε'} {a : α}
    (h : x.mapError f = .ok a) : x = .ok a := by
  cases x with
  | error e => cases h
  | ok b => rw [Except.ok.inj h]

/-! ## Bounds -/

variable {py : Interpreter} {value : Text} {maxChars cap : Nat}

theorem length_clip_le (value : Text) (maxChars : Nat) : (clip value maxChars).length ≤ maxChars := by
  rw [clip, List.length_take]
  omega

theorem clip_ne_nil (hpos : 0 < maxChars) (h : stripText value ≠ []) : clip value maxChars ≠ [] := by
  rw [clip, Ne, List.take_eq_nil_iff, not_or]
  exact ⟨by omega, h⟩

theorem length_clipField_le {data : List (Text × Value)} {key : String} {t : Text}
    (h : clipField py data key maxChars = .ok t) : t.length ≤ maxChars := by
  unfold clipField toText at h
  split at h
  · obtain rfl := Except.ok.inj h
    exact length_clip_le _ _
  · cases h

/-- What a list field gives: at most `cap` texts, none empty and none too long. -/
theorem clipTexts_bounded {value : Value} {texts : List Text} (hpos : 0 < maxChars)
    (h : clipTexts py value maxChars cap = .ok texts) :
    texts.length ≤ cap ∧ ∀ t ∈ texts, t ≠ [] ∧ t.length ≤ maxChars := by
  unfold clipTexts at h
  split at h
  · rename_i items
    cases hitems : items.mapM (toText py) with
    | error e =>
      rw [hitems] at h
      cases h
    | ok strs =>
      rw [hitems] at h
      obtain rfl := Except.ok.inj h
      refine ⟨by rw [List.length_take]; omega, fun t ht => ?_⟩
      obtain ⟨s, hs, rfl⟩ := List.mem_map.mp (List.mem_of_mem_take ht)
      have hstrip : stripText s ≠ [] := by simpa using (List.mem_filter.mp hs).2
      exact ⟨clip_ne_nil hpos hstrip, length_clip_le _ _⟩
  · obtain rfl := Except.ok.inj h
    exact ⟨Nat.zero_le _, fun t ht => absurd ht List.not_mem_nil⟩

end Apm.Llm
