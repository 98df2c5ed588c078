import Apm.Debriefs.Service
import Apm.Lib.IpAddress
import Apm.Lib.Lines

/-!
# The address a rate limit is keyed by

`client_ip` counts from the right of `X-Forwarded-For`, as many entries as there are trusted
proxies, but reads the first line of that name only. Each proxy on the way appends the peer it
sees, to the last line or on a line of its own. Whether the entry that is counted is the one of
the outermost proxy therefore depends on how many lines arrive, and the client decides that.
-/

namespace Apm.Api.ClientIp

open Apm.Lib (trim)
open Apm.Debriefs (isSpace)
open Apm.Lib.IpAddress

set_option autoImplicit false

/-! ## The code -/

/-- A Starlette request: its header lines with names in lower case, and `request.client.host`. -/
structure Request where
  headers : List (String × Text)
  client : Option Text
  deriving DecidableEq, Repr

def forwardedForName : String := "x-forwarded-for"

/-- `headers.getlist` of one name. -/
def Request.lines (request : Request) (name : String) : List Text :=
  (request.headers.filter fun h => h.1 = name).map Prod.snd

/-- `headers.get`: the first line of that name. -/
def Request.get (request : Request) (name : String) (default : Text) : Text :=
  (request.lines name).head?.getD default

def anonymous : Text := "anonymous".toList

/-- `peer or _ANONYMOUS` -/
def peerOf (client : Option Text) : Text :=
  match client with
  | none => anonymous
  | some [] => anonymous
  | some host => host

/-- `[hop.strip() for hop in forwarded.split(",")]` -/
def entries (forwarded : Text) : List Text := (forwarded.splitOn ',').map (trim isSpace)

/-- `hops[-count]`, where there are as many. -/
def fromRight (hops : List Text) (count : Nat) : Option Text :=
  if count ≤ hops.length then hops[hops.length - count]? else none

def clientIp (request : Request) (trustProxy : Bool) (trustedProxyCount : Int) : Text :=
  let candidate :=
    if trustProxy ∧ 1 ≤ trustedProxyCount then
      let forwarded := request.get forwardedForName []
      let hops := if trim isSpace forwarded ≠ [] then entries forwarded else []
      (fromRight hops trustedProxyCount.toNat).filter isIpAddress
    else none
  candidate.getD (peerOf request.client)

/-! ## The proxies -/

/-- An address as a proxy writes it: one entry of the header. -/
structure Address where
  text : Text
  valid : isIpAddress text = true
  noComma : ',' ∉ text
  stripped : trim isSpace text = text

theorem isSpace_of_isDigit {c : Char} (h : isDigit c = true) : isSpace c = false := by
  simp only [isDigit, Bool.and_eq_true, decide_eq_true_eq, Char.le_def, UInt32.le_iff_toNat_le] at h
  have hlow : 48 ≤ c.toNat := h.1
  have hhigh : c.toNat ≤ 57 := h.2
  simp only [isSpace, Bool.or_eq_false_iff, Bool.and_eq_false_iff, decide_eq_false_iff_not]
  omega

/-- Every IPv4 address is one entry. -/
def Address.ofIpv4 (text : Text) (h : isIpv4 text = true) : Address where
  text := text
  valid := by rw [isIpAddress, h, Bool.true_or]
  noComma hmem := absurd (mem_isIpv4 h hmem) (by decide)
  stripped := by
    have hspace : ∀ c ∈ text, isSpace c = false := by
      intro c hc
      rcases mem_isIpv4 h hc with rfl | hdigit
      · decide
      · exact isSpace_of_isDigit hdigit
    have hdrop : text.dropWhile isSpace = text := by
      cases text with
      | nil => rfl
      | cons c rest => exact List.dropWhile_cons_of_neg (by simp [hspace c])
    rw [trim, hdrop, List.rdropWhile_eq_self_iff]
    intro hne
    rw [hspace _ (List.getLast_mem hne)]
    exact Bool.false_ne_true

inductive Append where
  /-- a header line of its own -/
  | line
  /-- a comma and blanks behind the last line -/
  | extend (blanks : { blanks : Text // ∀ c ∈ blanks, isSpace c = true })

/-- A trusted proxy: the peer it sees, and how it appends it to the lines that arrive. -/
structure Proxy where
  peer : Address
  append : List Text → Append

def Proxy.forward (p : Proxy) (lines : List Text) : List Text :=
  match p.append lines, lines.getLast? with
  | .extend blanks, some last => lines.dropLast ++ [last ++ ',' :: (blanks ++ p.peer.text)]
  | _, _ => lines ++ [p.peer.text]

/-- The lines behind all proxies, the outermost first. -/
def forwardAll (proxies : List Proxy) (lines : List Text) : List Text :=
  proxies.foldl (fun lines p => p.forward lines) lines

theorem isSpace_of_mem_singleton : ∀ c ∈ [' '], isSpace c = true := by
  intro c hc
  rw [List.mem_singleton.mp hc]
  decide

/-- The proxy that puts `$proxy_add_x_forwarded_for` into the last line. -/
def appendingProxy (peer : Address) : Proxy :=
  ⟨peer, fun _ => .extend ⟨[' '], isSpace_of_mem_singleton⟩⟩

/-- The request came from the client's own lines through the proxies. -/
structure Through (proxies : List Proxy) (client : Option Text) (lines : List Text)
    (request : Request) : Prop where
  lines_eq : request.lines forwardedForName = forwardAll proxies lines
  client_eq : request.client = client

/-- The entries of the first line, if there is one. -/
def firstEntries (lines : List Text) : List Text := (lines.head?.map entries).getD []

/-- How many proxies wrote into the first line. -/
def extended : List Proxy → List Text → Nat
  | [], _ => 0
  | p :: proxies, lines =>
    if (p.forward lines).length = 1 then extended proxies (p.forward lines) + 1 else 0

/-- The entry of the client's own first line that is counted when some proxies wrote elsewhere,
and else the socket peer, are what the outermost proxy saw. -/
def ByChance (proxies : List Proxy) (client : Option Text) (lines : List Text) (peer : Text) :
    Prop :=
  match (fromRight (firstEntries lines) (proxies.length - extended proxies lines)).filter
    isIpAddress with
  | some entry => entry = peer
  | none => peerOf client = peer

/-- The request arrives on one line, or what is counted happens to be the same. -/
def Identified (proxies : List Proxy) (client : Option Text) (lines : List Text) (peer : Text) :
    Prop :=
  (forwardAll proxies lines).length = 1 ∨ ByChance proxies client lines peer

/-! ## The entries of a line -/

section entries

variable {line blanks : Text} {hops added : List Text} {count : Nat}

theorem trim_append (h : ∀ c ∈ blanks, isSpace c = true) (text : Text) :
    trim isSpace (blanks ++ text) = trim isSpace text := by
  induction blanks with
  | nil => rfl
  | cons c blanks ih =>
    rw [List.cons_append, Apm.Lib.trim_cons_space (h c List.mem_cons_self)]
    exact ih fun d hd => h d (List.mem_cons_of_mem _ hd)

theorem not_mem_blanks (h : ∀ c ∈ blanks, isSpace c = true) : ',' ∉ blanks := by
  intro hmem
  have hspace := h ',' hmem
  revert hspace
  decide

theorem entries_of_not_mem (h : ',' ∉ line) : entries line = [trim isSpace line] := by
  rw [entries, List.splitOn_eq_singleton h, List.map_singleton]

theorem entries_address (a : Address) : entries a.text = [a.text] := by
  rw [entries_of_not_mem a.noComma, a.stripped]

/-- What is appended behind a comma is the last entry. -/
theorem entries_extend (h : ∀ c ∈ blanks, isSpace c = true) (a : Address) :
    entries (line ++ ',' :: (blanks ++ a.text)) = entries line ++ [a.text] := by
  have hlast : ',' ∉ blanks ++ a.text := by
    rw [List.mem_append, not_or]
    exact ⟨not_mem_blanks h, a.noComma⟩
  have hentry := entries_of_not_mem hlast
  rw [trim_append h, a.stripped, entries] at hentry
  rw [entries, List.splitOn_append_cons_self, List.map_append, hentry, entries]

/-- A blank line has no entry that is an address. -/
theorem entries_blank (h : trim isSpace line = []) : entries line = [[]] := by
  have hfilter : ((trim isSpace line).filter fun c => !isSpace c) =
      line.filter fun c => !isSpace c := Apm.Lib.filter_trim
  rw [h, List.filter_nil, eq_comm, List.filter_eq_nil_iff] at hfilter
  rw [entries_of_not_mem fun hmem => hfilter ',' hmem (by decide), h]

theorem fromRight_nil (h : 1 ≤ count) : fromRight [] count = none := by
  rw [fromRight, if_neg (by rw [List.length_nil]; omega)]

theorem fromRight_append_length :
    fromRight (hops ++ added) added.length = added.head? := by
  rw [fromRight, if_pos (by simp), List.length_append, Nat.add_sub_cancel,
    List.getElem?_append_right (Nat.le_refl _), Nat.sub_self, List.head?_eq_getElem?]

theorem fromRight_append (h : added.length < count) :
    fromRight (hops ++ added) count = fromRight hops (count - added.length) := by
  unfold fromRight
  rw [List.length_append]
  by_cases hcount : count ≤ hops.length + added.length
  · have hindex : hops.length + added.length - count = hops.length - (count - added.length) := by
      omega
    rw [if_pos hcount, if_pos (by omega), hindex, List.getElem?_append_left (by omega)]
  · rw [if_neg hcount, if_neg (by omega)]

/-- A blank line is no less than one without hops. -/
theorem counted_hops (h : 1 ≤ count) :
    (fromRight (if trim isSpace line ≠ [] then entries line else []) count).filter isIpAddress =
      (fromRight (entries line) count).filter isIpAddress := by
  by_cases hblank : trim isSpace line = []
  · rw [if_neg (not_not.mpr hblank), fromRight_nil h, entries_blank hblank, fromRight]
    by_cases hone : count ≤ 1
    · obtain rfl : count = 1 := by omega
      rfl
    · rw [List.length_singleton, if_neg hone]
  · rw [if_pos hblank]

end entries

/-! ## The lines behind the proxies -/

section proxies

variable {p : Proxy} {proxies : List Proxy} {lines : List Text} {client : Option Text}
  {request : Request}

/-- A proxy starts the first line, writes behind the only one, or leaves the first one alone. -/
theorem forward_cases (p : Proxy) (lines : List Text) :
    (lines = [] ∧ p.forward lines = [p.peer.text]) ∨
    (∃ line blanks, lines = [line] ∧ (∀ c ∈ blanks, isSpace c = true) ∧
      p.forward lines = [line ++ ',' :: (blanks ++ p.peer.text)]) ∨
    ∃ line rest more, lines = line :: rest ∧ more ≠ [] ∧ p.forward lines = line :: more := by
  cases lines with
  | nil =>
    refine Or.inl ⟨rfl, ?_⟩
    rw [Proxy.forward]
    cases p.append [] with
    | line => rfl
    | extend blanks => rfl
  | cons line rest =>
    refine Or.inr ?_
    rw [Proxy.forward]
    cases p.append (line :: rest) with
    | line =>
      refine Or.inr ⟨line, rest, rest ++ [p.peer.text], rfl, ?_, rfl⟩
      exact List.append_ne_nil_of_right_ne_nil _ (List.cons_ne_nil _ _)
    | extend blanks =>
      cases rest with
      | nil => exact Or.inl ⟨line, blanks.1, rfl, blanks.2, rfl⟩
      | cons second rest =>
        refine Or.inr ⟨line, second :: rest, _, rfl, ?_, rfl⟩
        exact List.append_ne_nil_of_right_ne_nil _ (List.cons_ne_nil _ _)

theorem firstEntries_forward_one (h : (p.forward lines).length = 1) :
    firstEntries (p.forward lines) = firstEntries lines ++ [p.peer.text] := by
  rcases forward_cases p lines with ⟨rfl, hline⟩ | ⟨line, blanks, rfl, hblanks, hline⟩ |
    ⟨line, rest, more, rfl, hmore, hline⟩
  · rw [hline]
    exact entries_address p.peer
  · rw [hline]
    exact entries_extend hblanks p.peer
  · rw [hline, List.length_cons, Nat.add_eq_right, List.length_eq_zero_iff] at h
    exact absurd h hmore

theorem forward_many (h : (p.forward lines).length ≠ 1) :
    firstEntries (p.forward lines) = firstEntries lines ∧ 2 ≤ (p.forward lines).length := by
  rcases forward_cases p lines with ⟨rfl, hline⟩ | ⟨line, blanks, rfl, hblanks, hline⟩ |
    ⟨line, rest, more, rfl, hmore, hline⟩
  · rw [hline] at h
    exact absurd rfl h
  · rw [hline] at h
    exact absurd rfl h
  · have hpos := List.length_pos_of_ne_nil hmore
    rw [hline, List.length_cons]
    exact ⟨rfl, by omega⟩

theorem length_forward_ne_one (h : 2 ≤ lines.length) : (p.forward lines).length ≠ 1 := by
  rcases forward_cases p lines with ⟨rfl, -⟩ | ⟨line, blanks, rfl, -⟩ |
    ⟨line, rest, more, rfl, hmore, hline⟩
  · simp at h
  · simp at h
  · have hpos := List.length_pos_of_ne_nil hmore
    rw [hline, List.length_cons]
    omega

/-- Behind several lines no proxy writes into the first one. -/
theorem forwardAll_many (h : 2 ≤ lines.length) :
    firstEntries (forwardAll proxies lines) = firstEntries lines ∧
      2 ≤ (forwardAll proxies lines).length := by
  induction proxies generalizing lines with
  | nil => exact ⟨rfl, h⟩
  | cons p proxies ih =>
    obtain ⟨hfirst, hlength⟩ := forward_many (length_forward_ne_one (p := p) h)
    obtain ⟨hrest, hmore⟩ := ih hlength
    exact ⟨hrest.trans hfirst, hmore⟩

theorem extended_le : extended proxies lines ≤ proxies.length := by
  induction proxies generalizing lines with
  | nil => exact Nat.le_refl 0
  | cons p proxies ih =>
    rw [extended, List.length_cons]
    by_cases h : (p.forward lines).length = 1
    · rw [if_pos h]
      exact Nat.succ_le_succ ih
    · rw [if_neg h]
      exact Nat.zero_le _

/-- The first line holds the client's own entries and those of the proxies that wrote into it. -/
theorem firstEntries_forwardAll :
    firstEntries (forwardAll proxies lines) =
      firstEntries lines ++ (proxies.take (extended proxies lines)).map fun p => p.peer.text := by
  induction proxies generalizing lines with
  | nil => simp [forwardAll, extended]
  | cons p proxies ih =>
    rw [extended, forwardAll, List.foldl_cons, ← forwardAll]
    by_cases h : (p.forward lines).length = 1
    · rw [if_pos h, ih, firstEntries_forward_one h, List.take_succ_cons, List.map_cons,
        List.append_assoc, List.singleton_append]
    · obtain ⟨hfirst, hlength⟩ := forward_many h
      rw [if_neg h, (forwardAll_many hlength).1, hfirst, List.take_zero, List.map_nil,
        List.append_nil]

/-- All proxies write into the first line where only one line arrives. -/
theorem extended_eq_iff (hne : proxies ≠ []) :
    extended proxies lines = proxies.length ↔ (forwardAll proxies lines).length = 1 := by
  induction proxies generalizing lines with
  | nil => exact absurd rfl hne
  | cons p proxies ih =>
    rw [extended, forwardAll, List.foldl_cons, ← forwardAll, List.length_cons]
    by_cases h : (p.forward lines).length = 1
    · rw [if_pos h, Nat.add_right_cancel_iff]
      cases proxies with
      | nil => exact iff_of_true rfl h
      | cons q proxies => exact ih (List.cons_ne_nil _ _)
    · have hmany : 2 ≤ (forwardAll proxies (p.forward lines)).length :=
        (forwardAll_many (forward_many h).2).2
      rw [if_neg h]
      exact iff_of_false (Nat.succ_ne_zero _).symm (by omega)

/-! ## What the code takes for the client -/

theorem get_forwarded (h : Through proxies client lines request) :
    request.get forwardedForName [] = (forwardAll proxies lines).head?.getD [] := by
  rw [Request.get, h.lines_eq]

/-- No text that is not an address is taken from a header. -/
theorem clientIp_checked (request : Request) (trustProxy : Bool) (count : Int) :
    clientIp request trustProxy count = peerOf request.client ∨
      isIpAddress (clientIp request trustProxy count) = true := by
  rw [clientIp]
  by_cases htrust : trustProxy ∧ 1 ≤ count
  · simp only [if_pos htrust]
    cases hentry : (fromRight (if trim isSpace (request.get forwardedForName []) ≠ [] then
        entries (request.get forwardedForName []) else []) count.toNat).filter isIpAddress with
    | none => exact Or.inl rfl
    | some entry => exact Or.inr (Option.filter_eq_some_iff.mp hentry).2
  · simp only [if_neg htrust]
    exact Or.inl rfl

/-- The entry that is counted is looked for in the first line that arrives. -/
theorem clientIp_eq (h : Through proxies client lines request) (hpos : 1 ≤ proxies.length) :
    clientIp request true proxies.length =
      ((fromRight (firstEntries (forwardAll proxies lines)) proxies.length).filter
        isIpAddress).getD (peerOf client) := by
  have hcount : (1 : Int) ≤ proxies.length := by omega
  rw [clientIp]
  simp only [true_and, if_pos hcount, Int.toNat_natCast, get_forwarded h, h.client_eq]
  cases hhead : (forwardAll proxies lines).head? with
  | none =>
    rw [Option.getD_none, firstEntries, hhead]
    rfl
  | some line =>
    rw [Option.getD_some, counted_hops hpos, firstEntries, hhead]
    rfl

/-- Where some proxies wrote elsewhere, an entry of the client's own is counted. -/
theorem clientIp_of_lines (h : Through proxies client lines request) (hpos : 1 ≤ proxies.length)
    (hlines : (forwardAll proxies lines).length ≠ 1) :
    clientIp request true proxies.length =
      ((fromRight (firstEntries lines) (proxies.length - extended proxies lines)).filter
        isIpAddress).getD (peerOf client) := by
  have hne : proxies ≠ [] := List.ne_nil_of_length_pos hpos
  have hlt : extended proxies lines < proxies.length :=
    Nat.lt_of_le_of_ne extended_le fun he => hlines ((extended_eq_iff hne).mp he)
  have hlength : ((proxies.take (extended proxies lines)).map fun p => p.peer.text).length =
      extended proxies lines := by
    rw [List.length_map, List.length_take, Nat.min_eq_left extended_le]
  rw [clientIp_eq h hpos, firstEntries_forwardAll, fromRight_append (by rw [hlength]; exact hlt),
    hlength]

variable {outermost : Proxy} {inner : List Proxy}

/-- **On one line the entry of the outermost proxy is counted, whatever stands to its left.** -/
theorem clientIp_of_one_line (h : Through (outermost :: inner) client lines request)
    (hline : (forwardAll (outermost :: inner) lines).length = 1) :
    clientIp request true (inner.length + 1 : Nat) = outermost.peer.text := by
  have hall : extended (outermost :: inner) lines = (outermost :: inner).length :=
    (extended_eq_iff (List.cons_ne_nil _ _)).mpr hline
  have hentry : fromRight (firstEntries (forwardAll (outermost :: inner) lines))
      (outermost :: inner).length = some outermost.peer.text := by
    have hlength : ((outermost :: inner).map fun p => p.peer.text).length =
        (outermost :: inner).length := List.length_map _
    rw [firstEntries_forwardAll, hall, List.take_length, ← hlength, fromRight_append_length]
    rfl
  have heq := clientIp_eq h (Nat.succ_le_succ (Nat.zero_le _))
  rw [hentry, Option.filter_some, if_pos outermost.peer.valid, Option.getD_some] at heq
  exact heq

theorem clientIp_eq_iff (h : Through (outermost :: inner) client lines request) :
    clientIp request true (inner.length + 1 : Nat) = outermost.peer.text ↔
      Identified (outermost :: inner) client lines outermost.peer.text := by
  by_cases hline : (forwardAll (outermost :: inner) lines).length = 1
  · exact iff_of_true (clientIp_of_one_line h hline) (Or.inl hline)
  · have heq := clientIp_of_lines h (Nat.succ_le_succ (Nat.zero_le _)) hline
    rw [List.length_cons] at heq
    rw [heq, Identified, or_iff_right hline, ByChance, List.length_cons]
    cases (fromRight (firstEntries lines)
      (inner.length + 1 - extended (outermost :: inner) lines)).filter isIpAddress with
    | none => exact Iff.rfl
    | some entry => exact Iff.rfl

/-- **Two requests of one peer get the same identity, the one the outermost proxy saw, exactly if
each arrives on one line, or the client's own entries happen to say the same.** -/
theorem same_identity_iff {lines' : List Text} {request' : Request}
    (h : Through (outermost :: inner) client lines request)
    (h' : Through (outermost :: inner) client lines' request') :
    (clientIp request true (inner.length + 1 : Nat) =
        clientIp request' true (inner.length + 1 : Nat) ∧
      clientIp request true (inner.length + 1 : Nat) = outermost.peer.text) ↔
      Identified (outermost :: inner) client lines outermost.peer.text ∧
        Identified (outermost :: inner) client lines' outermost.peer.text := by
  rw [← clientIp_eq_iff h, ← clientIp_eq_iff h']
  constructor
  · rintro ⟨hsame, hpeer⟩
    exact ⟨hpeer, hsame.symm.trans hpeer⟩
  · rintro ⟨hpeer, hpeer'⟩
    exact ⟨hpeer.trans hpeer'.symm, hpeer⟩

/-- The address at home, as the one proxy sees it. -/
def home : Address := Address.ofIpv4 "203.0.113.7".toList (by decide)

/-- Entries to the left on the one line are without effect. -/
theorem same_identity_home :
    clientIp ⟨[(forwardedForName, "1.1.1.1, 203.0.113.7".toList)], some "10.0.0.1".toList⟩ true 1 =
        clientIp ⟨[(forwardedForName, "203.0.113.7".toList)], some "10.0.0.1".toList⟩ true 1 ∧
      clientIp ⟨[(forwardedForName, "1.1.1.1, 203.0.113.7".toList)], some "10.0.0.1".toList⟩
        true 1 = home.text := by
  have h : Through [appendingProxy home] (some "10.0.0.1".toList) ["1.1.1.1".toList]
      ⟨[(forwardedForName, "1.1.1.1, 203.0.113.7".toList)], some "10.0.0.1".toList⟩ :=
    ⟨by decide, rfl⟩
  have h' : Through [appendingProxy home] (some "10.0.0.1".toList) []
      ⟨[(forwardedForName, "203.0.113.7".toList)], some "10.0.0.1".toList⟩ := ⟨by decide, rfl⟩
  exact (same_identity_iff h h').mpr ⟨Or.inl rfl, Or.inl rfl⟩

/-- With two lines of the client the first one decides, which no proxy has written. -/
theorem identity_of_first_line :
    ¬ ∀ (outermost : Proxy) (inner : List Proxy) (client : Option Text) (lines lines' : List Text)
      (request request' : Request), Through (outermost :: inner) client lines request →
        Through (outermost :: inner) client lines' request' →
          clientIp request true (inner.length + 1 : Nat) =
              clientIp request' true (inner.length + 1 : Nat) ∧
            clientIp request true (inner.length + 1 : Nat) = outermost.peer.text := by
  intro hall
  have hforged := hall (appendingProxy home) [] (some "10.0.0.1".toList)
    ["1.1.1.1".toList, "x".toList] ["2.2.2.2".toList, "x".toList]
    ⟨[(forwardedForName, "1.1.1.1".toList), (forwardedForName, "x, 203.0.113.7".toList)],
      some "10.0.0.1".toList⟩
    ⟨[(forwardedForName, "2.2.2.2".toList), (forwardedForName, "x, 203.0.113.7".toList)],
      some "10.0.0.1".toList⟩
    ⟨by decide, rfl⟩ ⟨by decide, rfl⟩
  revert hforged
  decide

/-! ## What the client can do -/

theorem length_forward_extend (hextend : ∃ blanks, p.append lines = .extend blanks) :
    (p.forward lines).length = max 1 lines.length := by
  obtain ⟨blanks, hblanks⟩ := hextend
  rw [Proxy.forward, hblanks]
  cases lines with
  | nil => rfl
  | cons line rest =>
    rw [List.getLast?_cons, List.length_append, List.length_dropLast, List.length_singleton,
      List.length_cons]
    omega

/-- Proxies that extend the last line keep the client's number of lines. -/
theorem length_forwardAll_extend
    (hextend : ∀ p ∈ proxies, ∀ lines, ∃ blanks, p.append lines = .extend blanks)
    (hne : proxies ≠ []) : (forwardAll proxies lines).length = max 1 lines.length := by
  induction proxies generalizing lines with
  | nil => exact absurd rfl hne
  | cons p proxies ih =>
    have hfirst := length_forward_extend (hextend p List.mem_cons_self lines)
    rw [forwardAll, List.foldl_cons, ← forwardAll]
    cases proxies with
    | nil => exact hfirst
    | cons q proxies =>
      rw [ih (fun r hr => hextend r (List.mem_cons_of_mem _ hr)) (List.cons_ne_nil _ _), hfirst]
      omega

/-- A client that sends one line at most to such proxies has no say in its identity. -/
theorem clientIp_of_extending (h : Through (outermost :: inner) client lines request)
    (hextend : ∀ p ∈ outermost :: inner, ∀ lines, ∃ blanks, p.append lines = .extend blanks)
    (hlines : lines.length ≤ 1) :
    clientIp request true (inner.length + 1 : Nat) = outermost.peer.text := by
  refine clientIp_of_one_line h ?_
  rw [length_forwardAll_extend hextend (List.cons_ne_nil _ _)]
  omega

/-- **Whatever the proxies do, a client that sends two lines has the identity it likes.** -/
theorem exists_lines_clientIp (outermost : Proxy) (inner : List Proxy) (client : Option Text)
    (chosen : Address) :
    ∃ lines, ∀ request, Through (outermost :: inner) client lines request →
      clientIp request true (inner.length + 1 : Nat) = chosen.text := by
  let hops := List.replicate (inner.length + 1) chosen.text
  refine ⟨[[','].intercalate hops, []], fun request h => ?_⟩
  have hentries : entries ([','].intercalate hops) = hops := by
    rw [entries, List.splitOn_intercalate, List.map_replicate, chosen.stripped]
    · intro hop hhop
      rw [List.eq_of_mem_replicate hhop]
      exact chosen.noComma
    · exact List.cons_ne_nil _ _
  have hmany : (forwardAll (outermost :: inner) [[','].intercalate hops, []]).length ≠ 1 := by
    have htwo : 2 ≤ [[','].intercalate hops, []].length := Nat.le_refl 2
    have hlength : 2 ≤ (forwardAll (outermost :: inner) [[','].intercalate hops, []]).length :=
      (forwardAll_many htwo).2
    omega
  have hextended : extended (outermost :: inner) [[','].intercalate hops, []] = 0 :=
    if_neg (length_forward_ne_one (Nat.le_refl _))
  have hcounted : fromRight hops (inner.length + 1) = some chosen.text := by
    have hhead : fromRight ([] ++ hops) hops.length = hops.head? := fromRight_append_length
    rw [List.nil_append, List.length_replicate] at hhead
    exact hhead
  have heq := clientIp_of_lines h (Nat.succ_le_succ (Nat.zero_le _)) hmany
  rw [hextended, Nat.sub_zero, firstEntries, List.head?_cons, Option.map_some, Option.getD_some,
    hentries, List.length_cons, hcounted, Option.filter_some, if_pos chosen.valid,
    Option.getD_some] at heq
  exact heq

end proxies

end Apm.Api.ClientIp
