import Mathlib.Data.List.DropRight

/-!
# The texts that Python reads as an IP address

`ipaddress.ip_address` takes four decimal octets, or eight groups of hexadecimal digits of which
a run may be left out at `::`, the last two may be written as an IPv4 address, and a scope may
follow `%`. Only which texts are taken is modelled, not the numbers they stand for.
-/

namespace Apm.Lib.IpAddress

set_option autoImplicit false

abbrev Text := List Char

def isDigit (c : Char) : Bool := '0' ≤ c && c ≤ '9'

def isHexDigit (c : Char) : Bool := isDigit c || ('a' ≤ c && c ≤ 'f') || ('A' ≤ c && c ≤ 'F')

/-- `int`, of decimal digits. -/
def number (digits : Text) : Nat := digits.foldl (fun n c => 10 * n + (c.toNat - 48)) 0

/-- `IPv4Address._parse_octet`. -/
def isOctet (octet : Text) : Bool :=
  octet != [] && octet.all isDigit && octet.length ≤ 3 &&
    (octet == ['0'] || octet.head? != some '0') && number octet ≤ 255

/-- `IPv4Address`. -/
def isIpv4 (text : Text) : Bool :=
  !text.contains '/' && (text.splitOn '.').length == 4 && (text.splitOn '.').all isOctet

/-- `IPv6Address._parse_hextet`. -/
def isHextet (hextet : Text) : Bool :=
  hextet != [] && hextet.all isHexDigit && hextet.length ≤ 4

/-- `IPv6Address._split_scope_id`, without the scope. -/
def splitScopeId (text : Text) : Option Text :=
  match text.dropWhile (· != '%') with
  | [] => some text
  | _ :: scopeId =>
    if scopeId = [] ∨ '%' ∈ scopeId then none else some (text.takeWhile (· != '%'))

/-- The groups, an IPv4 suffix being two of them; which two does not matter here. -/
def groups (text : Text) : Option (List Text) :=
  let parts := text.splitOn ':'
  match parts.getLast? with
  | none => none
  | some last =>
    if last.contains '.' then
      if isIpv4 last then some (parts.dropLast ++ [['0'], ['0']]) else none
    else some parts

/-- The groups with nothing in between two colons. -/
def skips (parts : List Text) : List Nat :=
  (List.range parts.length).filter fun i =>
    1 ≤ i && i + 1 < parts.length && parts.getD i [] == []

/-- How many groups stand before and behind the `::` at `skip`, which may cover an end. -/
def aroundSkip (parts : List Text) (skip : Nat) : Option (Nat × Nat) :=
  let partsHi := if parts.head? = some [] then skip - 1 else skip
  let partsLo := if parts.getLast? = some [] then parts.length - skip - 2
    else parts.length - skip - 1
  if parts.head? = some [] ∧ partsHi ≠ 0 then none
  else if parts.getLast? = some [] ∧ partsLo ≠ 0 then none
  else if 8 < partsHi + partsLo + 1 then none
  else some (partsHi, partsLo)

/-- `IPv6Address._ip_int_from_string`. -/
def isGroups (text : Text) : Bool :=
  if text = [] ∨ (text.splitOn ':').length < 3 then false
  else match groups text with
    | none => false
    | some parts =>
      if 9 < parts.length then false
      else match skips parts with
        | [] => parts.length == 8 && parts.all isHextet
        | [skip] =>
          match aroundSkip parts skip with
          | none => false
          | some (partsHi, partsLo) =>
            (parts.take partsHi).all isHextet && (parts.rtake partsLo).all isHextet
        | _ => false

/-- `IPv6Address`. -/
def isIpv6 (text : Text) : Bool :=
  !text.contains '/' && match splitScopeId text with
    | none => false
    | some address => isGroups address

/-- Whether `ip_address` takes the text. -/
def isIpAddress (text : Text) : Bool := isIpv4 text || isIpv6 text

example : isIpAddress "::ffff:192.0.2.1%eth0".toList = true := by decide
example : isIpAddress "1::2::3".toList = false := by decide
example : isIpAddress "192.0.2.01".toList = false := by decide

/-- What is split at a separator holds every other character. -/
theorem mem_splitOn {text : Text} {sep c : Char} (h : c ∈ text) :
    c = sep ∨ ∃ part ∈ text.splitOn sep, c ∈ part := by
  induction text with
  | nil => cases h
  | cons x text ih =>
    rw [List.splitOn_cons_eq_if_modifyHead]
    obtain ⟨first, rest, hsplit⟩ := List.exists_cons_of_ne_nil (List.splitOn_ne_nil sep text)
    rw [hsplit] at ih ⊢
    by_cases hx : (x == sep) = true
    · rw [if_pos hx]
      rcases List.mem_cons.mp h with rfl | h
      · exact Or.inl (beq_iff_eq.mp hx)
      · refine (ih h).imp_right fun ⟨part, hpart, hc⟩ => ⟨part, ?_, hc⟩
        exact List.mem_cons_of_mem _ hpart
    · rw [if_neg hx, List.modifyHead_cons]
      rcases List.mem_cons.mp h with rfl | h
      · exact Or.inr ⟨_, List.mem_cons_self, List.mem_cons_self⟩
      · refine (ih h).imp_right fun ⟨part, hpart, hc⟩ => ?_
        rcases List.mem_cons.mp hpart with rfl | hpart
        · exact ⟨_, List.mem_cons_self, List.mem_cons_of_mem _ hc⟩
        · exact ⟨part, List.mem_cons_of_mem _ hpart, hc⟩

/-- An IPv4 address is of digits and dots. -/
theorem mem_isIpv4 {text : Text} {c : Char} (h : isIpv4 text = true) (hc : c ∈ text) :
    c = '.' ∨ isDigit c = true := by
  simp only [isIpv4, Bool.and_eq_true] at h
  refine (mem_splitOn hc).imp_right fun ⟨octet, hoctet, hc⟩ => ?_
  have hall := List.all_eq_true.mp h.2 octet hoctet
  simp only [isOctet, Bool.and_eq_true] at hall
  exact List.all_eq_true.mp hall.1.1.1.2 c hc

end Apm.Lib.IpAddress
