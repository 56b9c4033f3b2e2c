import Mathlib.Data.List.Basic
import Mathlib.Data.List.TakeWhile

set_option autoImplicit false

/-!
# Foundation: splitting and joining URLs

`urlsplit` and `urlunsplit` of Python's `urllib.parse`, with the attributes of the result that
read its network location.  What needs the tables of Unicode or the parser of IP addresses is a
parameter.
-/

namespace PortRag.Foundation

/-! ## Cutting texts -/

/-- `text.partition(mark)`: the text before the first mark, whether there is one, and the rest. -/
def partition (mark : Char) (text : List Char) : List Char × Bool × List Char :=
  match text.dropWhile (· ≠ mark) with
  | [] => (text, false, [])
  | _ :: rest => (text.takeWhile (· ≠ mark), true, rest)

/-- `text.rpartition(mark)[2]`. -/
def afterLast (mark : Char) (text : List Char) : List Char :=
  (text.reverse.takeWhile (· ≠ mark)).reverse

theorem partition_of_not_mem {mark : Char} {text : List Char} (h : mark ∉ text) :
    partition mark text = (text, false, []) := by
  have hnone : text.dropWhile (· ≠ mark) = [] := by
    rw [List.dropWhile_eq_nil_iff]
    intro c hc
    exact decide_eq_true (fun hmark => h (hmark ▸ hc))
  unfold partition
  rw [hnone]

theorem partition_append {mark : Char} {before : List Char} (h : mark ∉ before) (rest : List Char) :
    partition mark (before ++ mark :: rest) = (before, true, rest) := by
  have hall : ∀ c ∈ before, (decide (c ≠ mark)) = true :=
    fun c hc => decide_eq_true (fun hmark => h (hmark ▸ hc))
  have hdrop : (before ++ mark :: rest).dropWhile (· ≠ mark) = mark :: rest := by
    rw [List.dropWhile_append_of_pos hall, List.dropWhile_cons_of_neg (by simp)]
  have htake : (before ++ mark :: rest).takeWhile (· ≠ mark) = before := by
    rw [List.takeWhile_append_of_pos hall, List.takeWhile_cons_of_neg (by simp), List.append_nil]
  unfold partition
  rw [hdrop, htake]

/-- A text without the mark, or the text around the first one. -/
theorem partition_cases (mark : Char) (text : List Char) :
    (mark ∉ text ∧ partition mark text = (text, false, [])) ∨
      ∃ before rest, mark ∉ before ∧ text = before ++ mark :: rest ∧
        partition mark text = (before, true, rest) := by
  by_cases h : mark ∈ text
  · right
    have hsplit := List.takeWhile_append_dropWhile (p := fun c => decide (c ≠ mark)) (l := text)
    have hbefore : mark ∉ text.takeWhile (fun c => decide (c ≠ mark)) := by
      intro hmem
      have himp := List.mem_takeWhile_imp hmem
      simp at himp
    cases hdrop : text.dropWhile (fun c => decide (c ≠ mark)) with
    | nil =>
        rw [hdrop, List.append_nil] at hsplit
        rw [hsplit] at hbefore
        exact absurd h hbefore
    | cons c rest =>
        have hc : c = mark := by
          have hhead := List.head?_dropWhile_not (fun c => decide (c ≠ mark)) text
          rw [hdrop] at hhead
          simpa using hhead
        subst hc
        rw [hdrop] at hsplit
        refine ⟨_, rest, hbefore, hsplit.symm, ?_⟩
        conv_lhs => rw [← hsplit]
        exact partition_append hbefore rest
  · exact .inl ⟨h, partition_of_not_mem h⟩

theorem partition_fst (mark : Char) (text : List Char) :
    (partition mark text).1 = text.takeWhile (· ≠ mark) := by
  rcases partition_cases mark text with ⟨h, hcut⟩ | ⟨before, rest, h, rfl, hcut⟩
  · rw [hcut, List.takeWhile_eq_self_iff.mpr]
    exact fun c hc => decide_eq_true (fun hmark => h (hmark ▸ hc))
  · have hall : ∀ c ∈ before, (decide (c ≠ mark)) = true :=
      fun c hc => decide_eq_true (fun hmark => h (hmark ▸ hc))
    rw [hcut, List.takeWhile_append_of_pos hall, List.takeWhile_cons_of_neg (by simp),
      List.append_nil]

theorem subset_of_partition (mark : Char) (text : List Char) :
    (partition mark text).1 ⊆ text ∧ (partition mark text).2.2 ⊆ text := by
  rcases partition_cases mark text with ⟨-, hcut⟩ | ⟨before, rest, -, rfl, hcut⟩
  · rw [hcut]
    exact ⟨fun _ hc => hc, fun _ hc => absurd hc List.not_mem_nil⟩
  · rw [hcut]
    exact ⟨fun _ hc => List.mem_append_left _ hc,
      fun _ hc => List.mem_append_right _ (List.mem_cons_of_mem _ hc)⟩

theorem afterLast_subset (mark : Char) (text : List Char) : afterLast mark text ⊆ text := by
  intro c hc
  exact List.mem_reverse.mp ((List.takeWhile_sublist _).subset (List.mem_reverse.mp hc))

/-! ## Schemes and network locations -/

/-- A URL cut into its components. -/
structure SplitResult where
  scheme : List Char
  netloc : List Char
  path : List Char
  query : List Char
  fragment : List Char
  deriving DecidableEq

/-- `scheme_chars`. -/
def isSchemeChar (c : Char) : Bool := c.isAlphanum || c = '+' || c = '-' || c = '.'

/-- The scheme of a URL in lower case, and the rest; no scheme where the text before the first
colon is none. -/
def splitScheme (url : List Char) : List Char × List Char :=
  match partition ':' url with
  | (first :: more, true, rest) =>
      if first.isAlpha && (first :: more).all isSchemeChar then ((first :: more).map Char.toLower, rest)
      else ([], url)
  | _ => ([], url)

/-- What ends the `netloc` of a URL. -/
def isUrlDelimiter (c : Char) : Bool := c = '/' || c = '?' || c = '#'

/-- `_splitnetloc` of the text after the two slashes. -/
def splitNetloc (url : List Char) : List Char × List Char :=
  (url.takeWhile (!isUrlDelimiter ·), url.dropWhile (!isUrlDelimiter ·))

/-- The network location of a URL without its scheme, and the rest. -/
def splitAuthority (url : List Char) : List Char × List Char :=
  match url with
  | '/' :: '/' :: rest => splitNetloc rest
  | url => ([], url)

/-- `_hostinfo`: the host and the port of a network location, as text. -/
def hostInfo (netloc : List Char) : List Char × Option (List Char) :=
  let hostinfo := afterLast '@' netloc
  let cut := match partition '[' hostinfo with
    | (_, true, bracketed) =>
        let (hostname, _, rest) := partition ']' bracketed
        (hostname, (partition ':' rest).2.2)
    | _ =>
        let (hostname, _, port) := partition ':' hostinfo
        (hostname, port)
  (cut.1, if cut.2 = [] then none else some cut.2)

/-- An address of `ipaddress`; the last three attributes are whether they are not null. -/
structure IpAddress where
  ipv4 : Bool
  value : Nat
  compressed : List Char
  isGlobal : Bool
  isMulticast : Bool
  isReserved : Bool
  ipv4Mapped : Bool
  sixtofour : Bool
  teredo : Bool

/-- What rests on the tables of Unicode, and the parser of IP addresses: `str.lower`,
`unicodedata.normalize` to NFC and to NFKC, and `ipaddress.ip_address`, where `none` is a
`ValueError`. -/
structure TextTables where
  lower : List Char → List Char
  nfc : List Char → List Char
  nfkc : List Char → List Char
  ipAddress : List Char → Option IpAddress

/-- The host is part of the network location. -/
theorem hostInfo_subset (netloc : List Char) : (hostInfo netloc).1 ⊆ netloc := by
  have hafter := afterLast_subset '@' netloc
  unfold hostInfo
  dsimp only
  split
  · next bracketed hcut =>
      have hbracketed := (subset_of_partition '[' (afterLast '@' netloc)).2
      rw [hcut] at hbracketed
      exact fun c hc => hafter (hbracketed ((subset_of_partition ']' bracketed).1 hc))
  · exact fun c hc => hafter ((subset_of_partition ':' _).1 hc)

section Tables

variable (tables : TextTables)

/-- `hostname`, in lower case up to a zone. -/
def SplitResult.hostname (parsed : SplitResult) : Option (List Char) :=
  match (hostInfo parsed.netloc).1 with
  | [] => none
  | host =>
      match partition '%' host with
      | (name, true, zone) => some (tables.lower name ++ '%' :: zone)
      | (name, false, _) => some (tables.lower name)

/-- `username is not None`; without a username there is no password. -/
def SplitResult.hasUser (parsed : SplitResult) : Bool := parsed.netloc.contains '@'

/-- `int` of decimal digits. -/
def decimal (digits : List Char) : Nat := digits.foldl (fun n c => 10 * n + (c.toNat - 48)) 0

/-- `port`; the outer `none` is a `ValueError`. -/
def SplitResult.port (parsed : SplitResult) : Option (Option Nat) :=
  match (hostInfo parsed.netloc).2 with
  | none => some none
  | some digits =>
      if digits.all Char.isDigit && decimal digits ≤ 65535 then some (some (decimal digits))
      else none

/-- `_check_bracketed_host`. -/
def checkBracketedHost (host : List Char) : Bool :=
  match host with
  | 'v' :: rest =>
      let isHex := fun c : Char => c.isDigit || ('a' ≤ c && c ≤ 'f') || ('A' ≤ c && c ≤ 'F')
      match rest.dropWhile isHex with
      | '.' :: tail => rest.takeWhile isHex ≠ [] && tail ≠ [] && !tail.contains '\n'
      | _ => false
  | host => (tables.ipAddress host).any (!·.ipv4)

/-- `_check_bracketed_netloc`. -/
def checkBracketedNetloc (netloc : List Char) : Bool :=
  match partition '[' (afterLast '@' netloc) with
  | (before, true, bracketed) =>
      let (hostname, _, port) := partition ']' bracketed
      before = [] && (port = [] || port.head? = some ':') && checkBracketedHost tables hostname
  | (hostinfo, false, _) => checkBracketedHost tables (partition ':' hostinfo).1

/-- The brackets of a network location are those of a host. -/
def checkBrackets (netloc : List Char) : Bool :=
  if netloc.contains '[' && netloc.contains ']' then checkBracketedNetloc tables netloc
  else !netloc.contains '[' && !netloc.contains ']'

/-- `_checknetloc`: no character may become a delimiter under NFKC. -/
def checkNetloc (netloc : List Char) : Bool :=
  if netloc.all (·.toNat < 128) then true
  else
    let n := netloc.filter (fun c => c ≠ '@' && c ≠ ':' && c ≠ '#' && c ≠ '?')
    n = tables.nfkc n || (tables.nfkc n).all (fun c => !isUrlDelimiter c && c ≠ '@' && c ≠ ':')

/-- `urlsplit`; `none` is a `ValueError`. -/
def urlsplit (text : List Char) : Option SplitResult :=
  let url := (text.dropWhile (·.toNat ≤ 32)).filter (fun c => c ≠ '\t' && c ≠ '\r' && c ≠ '\n')
  let (scheme, url) := splitScheme url
  let (netloc, url) := splitAuthority url
  let (url, _, fragment) := partition '#' url
  let (path, _, query) := partition '?' url
  if checkBrackets tables netloc && checkNetloc tables netloc then
    some ⟨scheme, netloc, path, query, fragment⟩
  else none

end Tables

/-- `urlsplit` takes nothing off a URL without control characters. -/
theorem clean_eq {text : List Char} (hclean : ∀ c ∈ text, 32 < c.toNat) :
    (text.dropWhile (·.toNat ≤ 32)).filter (fun c => c ≠ '\t' && c ≠ '\r' && c ≠ '\n') = text := by
  have hdrop : text.dropWhile (·.toNat ≤ 32) = text := by
    cases text with
    | nil => rfl
    | cons c rest =>
        have hc := hclean c List.mem_cons_self
        exact List.dropWhile_cons_of_neg (by simpa using hc)
  rw [hdrop, List.filter_eq_self]
  intro c hc
  have hlarge := hclean c hc
  have hmarks : c ≠ '\t' ∧ c ≠ '\r' ∧ c ≠ '\n' :=
    ⟨by rintro rfl; exact absurd hlarge (by decide), by rintro rfl; exact absurd hlarge (by decide),
      by rintro rfl; exact absurd hlarge (by decide)⟩
  simp [hmarks]

/-- The components of a URL without control characters. -/
theorem urlsplit_some {tables : TextTables} {text : List Char} {parsed : SplitResult}
    (hclean : ∀ c ∈ text, 32 < c.toNat) (h : urlsplit tables text = some parsed) :
    parsed.scheme = (splitScheme text).1 ∧
      parsed.netloc = (splitAuthority (splitScheme text).2).1 ∧
      parsed.path =
        (partition '?' (partition '#' (splitAuthority (splitScheme text).2).2).1).1 ∧
      parsed.query =
        (partition '?' (partition '#' (splitAuthority (splitScheme text).2).2).1).2.2 := by
  unfold urlsplit at h
  rw [clean_eq hclean] at h
  dsimp only at h
  split at h
  · cases h
    exact ⟨rfl, rfl, rfl, rfl⟩
  · cases h

/-- A URL with a scheme starts with the scheme and a colon. -/
theorem splitScheme_some {text : List Char} (h : (splitScheme text).1 ≠ []) :
    ∃ first more rest, text = (first :: more) ++ ':' :: rest ∧ ':' ∉ first :: more ∧
      splitScheme text = ((first :: more).map Char.toLower, rest) := by
  rcases partition_cases ':' text with ⟨-, hcut⟩ | ⟨before, rest, hcolon, rfl, hcut⟩
  · unfold splitScheme at h
    rw [hcut] at h
    split at h
    · next hfound => cases hfound
    · exact (h rfl).elim
  · unfold splitScheme at h ⊢
    rw [hcut] at h ⊢
    cases before with
    | nil => exact (h rfl).elim
    | cons first more =>
        dsimp only at h ⊢
        split at h
        · next hvalid => exact ⟨first, more, rest, rfl, hcolon, if_pos hvalid⟩
        · exact (h rfl).elim

/-- `uses_netloc`. -/
def usesNetloc : List String :=
  ["", "ftp", "http", "gopher", "nntp", "telnet", "imap", "wais", "file", "mms", "https", "shttp",
    "snews", "prospero", "rtsp", "rtsps", "rtspu", "rsync", "svn", "svn+ssh", "sftp", "nfs", "git",
    "git+ssh", "ws", "wss", "itms-services"]

/-- `urlunsplit`. -/
def urlunsplit (parts : SplitResult) : List Char :=
  let url := parts.path
  let url :=
    if parts.netloc ≠ [] ∨ (parts.scheme ≠ [] ∧ String.ofList parts.scheme ∈ usesNetloc ∧
        url.take 2 ≠ ['/', '/']) then
      '/' :: '/' :: parts.netloc ++ (if url ≠ [] ∧ url.head? ≠ some '/' then '/' :: url else url)
    else url
  let url := if parts.scheme ≠ [] then parts.scheme ++ ':' :: url else url
  let url := if parts.query ≠ [] then url ++ '?' :: parts.query else url
  if parts.fragment ≠ [] then url ++ '#' :: parts.fragment else url

end PortRag.Foundation
