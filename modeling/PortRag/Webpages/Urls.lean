import PortRag.Basic
import PortRag.Foundation.UrlSplit

set_option autoImplicit false

/-!
# Webpage URLs

`normalize_url` of `rag/webpages/urls.py`: the only form in which a URL is registered, fetched
and returned.
-/

namespace PortRag.Webpages

open PortRag.Foundation

/-- The libraries of `normalize_url`: those of `urlsplit`, and
`httpx.URL(host=…).raw_host.decode("ascii")`, where `none` is one of the exceptions that
`normalize_url` catches. -/
structure UrlLibraries extends TextTables where
  rawHost : List Char → Option (List Char)

/-- `MAX_URLS`. -/
def maxUrls : Nat := 100

/-! ## Public addresses -/

/-- `_NAT64_NETWORKS`: the first bits of an IPv6 address, and how many are left out. -/
def nat64Networks : List (Nat × Nat) :=
  [(0x64ff9b0000000000000000, 32), (0x64ff9b0001, 80)]

/-- `_public_address`. -/
def publicAddress (address : IpAddress) : Bool :=
  address.isGlobal && !address.isMulticast && !address.isReserved && !address.ipv4Mapped &&
    !address.sixtofour && !address.teredo &&
    !nat64Networks.any (fun network => !address.ipv4 && address.value / 2 ^ network.2 = network.1)

/-! ## The text of a URL -/

/-- `url.strip(" ")`. -/
def stripBlanks (url : List Char) : List Char :=
  ((url.dropWhile (· = ' ')).reverse.dropWhile (· = ' ')).reverse

/-- A character that no URL may hold. -/
def isControl (c : Char) : Bool := c.toNat ≤ 32 || (127 ≤ c.toNat && c.toNat ≤ 159)

/-- `[a-z]` under `re.IGNORECASE`. -/
def isLetter (c : Char) : Bool := c.isAlpha || [0x130, 0x131, 0x17f, 0x212a].contains c.toNat

/-- `re.match(r"^[a-z][a-z0-9+.-]*://", url, re.IGNORECASE)`. -/
def matchesScheme (url : List Char) : Bool :=
  match partition ':' url with
  | (first :: more, true, '/' :: '/' :: _) =>
      isLetter first && more.all (fun c => isLetter c || c.isDigit || c = '+' || c = '.' || c = '-')
  | _ => false

/-- `re.match(r"^https?:", url, re.IGNORECASE)`. -/
def matchesHttp (url : List Char) : Bool :=
  match url with
  | h :: t :: t' :: p :: rest =>
      [h, t, t', p].map Char.toLower = ['h', 't', 't', 'p'] &&
        match rest with
        | ':' :: _ => true
        | s :: ':' :: _ => s = 's' || s = 'S' || s.toNat = 0x17f
        | _ => false
  | _ => false

/-- `value.rstrip(".")`. -/
def stripDots (value : List Char) : List Char := (value.reverse.dropWhile (· = '.')).reverse

/-- `[a-z0-9]`. -/
def isHostChar (c : Char) : Bool := ('a' ≤ c && c ≤ 'z') || c.isDigit

/-- `re.fullmatch(r"[a-z0-9](?:[a-z0-9.-]*[a-z0-9])?", hostname)`. -/
def isHostName (hostname : List Char) : Bool :=
  hostname.all (fun c => isHostChar c || c = '.' || c = '-') &&
    hostname.head?.any isHostChar && hostname.getLast?.any isHostChar

/-! ## Normalization -/

/-- A `ValueError` without a message. -/
def refused {α : Type} : Except Exc α := .error (.valueError "")

/-- The host as it is written in the result: a name in its ASCII form, or a public address. -/
def canonicalHost (lib : UrlLibraries) (bare : Bool) (hostname : List Char) :
    Except Exc (List Char) :=
  match lib.ipAddress hostname with
  | none =>
      match lib.rawHost hostname with
      | none => refused
      | some raw =>
          let name := stripDots raw
          if !isHostName name || (bare && !name.contains '.') then refused else .ok name
  | some address =>
      if publicAddress address then .ok address.compressed
      else .error (.webpageFetch "webpage address must be public")

/-- The authority of the result; default ports are left out. -/
def authorityText (scheme hostname : List Char) (port : Option Nat) : List Char :=
  let authority := if hostname.contains ':' then '[' :: hostname ++ [']'] else hostname
  match port with
  | none => authority
  | some port =>
      if port = (if scheme = "https".toList then 443 else 80) then authority
      else authority ++ ':' :: (toString port).toList

/-- The block of `normalize_url` whose errors are caught. -/
def normalizeParsed (lib : UrlLibraries) (bare : Bool) (url : List Char) : Except Exc String :=
  match urlsplit lib.toTextTables url with
  | none => refused
  | some parsed =>
      match parsed.hostname lib.toTextTables with
      | none => refused
      | some host =>
          if parsed.scheme ≠ "http".toList ∧ parsed.scheme ≠ "https".toList then refused
          else if parsed.hasUser || parsed.netloc.contains '%' then refused
          else
            let hostname := stripDots (lib.nfc (lib.lower host))
            if hostname = [] then refused
            else
              match parsed.port with
              | none => refused
              | some port =>
                  if port ≠ none ∧ port ≠ some 80 ∧ port ≠ some 443 then refused
                  else do
                    let hostname ← canonicalHost lib bare hostname
                    let path := if parsed.path = [] then ['/'] else parsed.path
                    let normalized := String.ofList (urlunsplit ⟨parsed.scheme,
                      authorityText parsed.scheme hostname port, path, parsed.query, []⟩)
                    if 4096 < normalized.utf8ByteSize then
                      .error (.webpageFetch "webpage URL is too long")
                    else pure normalized

/-- `normalize_url`. -/
def normalizeUrl (lib : UrlLibraries) (text : String) : Except Exc String :=
  let url := stripBlanks text.toList
  if url = [] || url.contains '\\' || url.any isControl then
    .error (.webpageFetch "invalid webpage URL")
  else
    let bare := !matchesScheme url
    if bare && (['/', '/'].isPrefixOf url || matchesHttp url) then
      .error (.webpageFetch "invalid public HTTP webpage URL")
    else
      let url := if bare then "https://".toList ++ url else url
      match normalizeParsed lib bare url with
      | .ok normalized => .ok normalized
      | .error (.webpageFetch message) => .error (.webpageFetch message)
      | .error _ => .error (.webpageFetch "invalid public HTTP webpage URL")

end PortRag.Webpages
