import PortRag.Webpages.Urls

set_option autoImplicit false

/-!
# The crawler client

`CrawlerClient` of `rag/webpages/fetch.py`: one authenticated request to the crawler service,
the bounded reading of its answer, and the checks of what it returned.
-/

namespace PortRag.Webpages

open PortRag.Foundation

/-! ## Errors -/

/-- The exceptions that a call of the crawler client can meet, by type. -/
inductive CrawlExc where
  /-- A `WebpageFetchError` that is not a `CrawlerUnavailableError`. -/
  | webpageFetch (message code : String)
  | crawlerUnavailable
  | valueError
  | httpError
  | osError
  | timeout
  | runtimeError
  | attributeError
  | cancelled
  | other (name : String)
  deriving DecidableEq, Inhabited

namespace CrawlExc

/-- `str(exc)` of the errors that are shown to a caller. -/
def message : CrawlExc → String
  | .webpageFetch message _ => message
  | .crawlerUnavailable => "webpage crawler is unavailable; try again later"
  | _ => ""

/-- The `code` of the errors that have one. -/
def code : CrawlExc → Option String
  | .webpageFetch _ code => some code
  | .crawlerUnavailable => some "crawler_unavailable"
  | _ => none

/-- `except ValueError`; both errors of the service are of this type. -/
def isValueError : CrawlExc → Bool
  | .webpageFetch _ _ => true
  | .crawlerUnavailable => true
  | .valueError => true
  | _ => false

/-- `except (httpx.HTTPError, OSError, TimeoutError, ValueError, RuntimeError)`. -/
def isFailure : CrawlExc → Bool
  | .httpError => true
  | .osError => true
  | .timeout => true
  | .runtimeError => true
  | e => e.isValueError

end CrawlExc

/-- `_SOURCE_ERRORS`. -/
def sourceErrors : List (String × String) :=
  [("invalid_url", "invalid public HTTP webpage URL"),
    ("unsafe_address", "webpage address must be public"),
    ("upstream_error", "webpage fetch failed"),
    ("invalid_content", "webpage must return HTML"),
    ("too_large", "webpage is too large"),
    ("too_many_redirects", "webpage has too many redirects"),
    ("no_readable_text", "webpage has no readable text")]

/-- `MAX_PAGE_BYTES`. -/
def maxPageBytes : Nat := 2 * 1024 * 1024

/-- `MAX_CRAWLER_RESPONSE_BYTES`. -/
def maxCrawlerResponseBytes : Nat := 16 * 1024 * 1024

/-- `_MAX_ERROR_RESPONSE_BYTES`. -/
def maxErrorResponseBytes : Nat := 4096

/-! ## Answers -/

/-- A value of `json.loads`; `unencodable` is a `str` with a lone surrogate. -/
inductive Payload where
  | text (value : String)
  | unencodable
  | list (items : List Payload)
  | dict (members : List (String × Payload))
  | other
  deriving Inhabited

/-- The members of a dictionary. -/
abbrev Members := List (String × Payload)

/-- `isinstance(value, str)`. -/
def Payload.isText : Payload → Bool
  | .text _ => true
  | .unencodable => true
  | _ => false

/-- A response as it is read: its headers, the parts of its body, and the error that ended the
body early. -/
structure CrawlerResponse where
  statusCode : Nat
  contentType : Option String
  contentEncoding : Option String
  contentLength : Option String
  parts : List (List UInt8)
  broken : Option CrawlExc

/-- What becomes of a request: a response, or an error before there is one, and the error that
closing the connection or the time limit raises last. -/
structure Exchange where
  response : Except CrawlExc CrawlerResponse
  closing : Option CrawlExc

/-- The libraries of the client; `loads` is `json.loads` of bytes. -/
structure CrawlerLibraries extends UrlLibraries where
  loads : List UInt8 → Except CrawlExc Payload

/-- The HTTP client: what becomes of a `POST` of a URL to a path of the service. -/
structure CrawlerClient where
  stream : String → String → Exchange

/-- `WebpagePage` as it is returned; a link can be any text. -/
structure CrawledPage where
  url : String
  text : String
  links : List Payload

/-! ## Reading -/

/-- The size in a `content-length` header; `none` is a text that is no number. -/
def contentSize (size : String) : Option Nat :=
  if size.toList ≠ [] ∧ size.toList.all Char.isDigit = true ∧ size.length ≤ 4300 then
    some (decimal size.toList)
  else none

/-- The loop over the parts of the body. -/
def readParts (maxBytes : Nat) (broken : Option CrawlExc) :
    List (List UInt8) → List UInt8 → Except CrawlExc (List UInt8)
  | [], body =>
      match broken with
      | none => .ok body
      | some e => .error e
  | part :: rest, body =>
      if maxBytes < body.length + part.length then .error .valueError
      else readParts maxBytes broken rest (body ++ part)

section Client

variable (lib : CrawlerLibraries)

/-- The media type of a response. -/
def mediaType (response : CrawlerResponse) : List Char :=
  let header := (response.contentType.getD "").toList
  lib.lower (strip (String.ofList (header.takeWhile (· ≠ ';')))).toList

/-- `_read_payload`. -/
def readPayload (response : CrawlerResponse) (maxBytes : Nat) : Except CrawlExc Members :=
  if mediaType lib response ≠ "application/json".toList ∨
      lib.lower (response.contentEncoding.getD "identity").toList ≠ "identity".toList then
    .error .valueError
  else if response.contentLength.any
      (fun size => (contentSize size).all (fun length => decide (maxBytes < length))) then
    .error .valueError
  else do
    let body ← readParts maxBytes response.broken response.parts []
    match ← lib.loads body with
    | .dict members => pure members
    | _ => .error .valueError

/-- The code that the body of a 422 names. -/
def errorCode (payload : Members) : Option String :=
  match payload.lookup "error" with
  | some (.dict error) =>
      match error.lookup "code" with
      | some (.text code) => some code
      | _ => none
  | _ => none

/-- The failure that the body of a 422 stands for. -/
def sourceFailure (payload : Members) : CrawlExc :=
  match (errorCode payload).bind (fun code => (sourceErrors.lookup code).map (code, ·)) with
  | some (code, message) => .webpageFetch message code
  | none => .crawlerUnavailable

/-- The block of `_request` under its two contexts: the failure it leaves behind, and the payload
it returns, if any, or the exception it ends with. -/
def answer (response : Except CrawlExc CrawlerResponse) :
    CrawlExc × Except CrawlExc (Option Members) :=
  match response with
  | .error e => (.crawlerUnavailable, .error e)
  | .ok response =>
      if response.statusCode ≠ 200 ∧ response.statusCode ≠ 422 then
        (.crawlerUnavailable, .error .valueError)
      else
        let limit :=
          if response.statusCode = 200 then maxCrawlerResponseBytes else maxErrorResponseBytes
        match readPayload lib response limit with
        | .error e => (.crawlerUnavailable, .error e)
        | .ok payload =>
            if response.statusCode = 200 then (.crawlerUnavailable, .ok (some payload))
            else (sourceFailure payload, .ok none)

/-- `_request`; an error of leaving the contexts replaces how the block ended. -/
def request (exchange : Exchange) : Except CrawlExc Members :=
  let (failure, ending) := answer lib exchange.response
  let ending : Except CrawlExc (Option Members) := match exchange.closing with
    | some e => .error e
    | none => ending
  match ending with
  | .ok (some payload) => .ok payload
  | .ok none => .error failure
  | .error e => if e.isFailure then .error failure else .error e

/-! ## Checking -/

/-- `normalize_url` as this module sees its errors. -/
def normalized (url : String) : Except CrawlExc String :=
  match normalizeUrl lib.toUrlLibraries url with
  | .ok url => .ok url
  | .error e => .error (.webpageFetch e.message "fetch_failed")

/-- `_response_url`.  A text with a lone surrogate is never its own normal form, which can be
encoded. -/
def responseUrl (value : Option Payload) : Except CrawlExc String :=
  match value with
  | some (.text value) =>
      if startsWith value "http://" || startsWith value "https://" then do
        let url ← normalized lib value
        if url ≠ value then .error .valueError else pure value
      else .error .valueError
  | _ => .error .valueError

/-- The checks of `fetch`. -/
def checkPage (payload : Members) : Except CrawlExc CrawledPage := do
  let finalUrl ← responseUrl lib (payload.lookup "url")
  match payload.lookup "text", payload.lookup "links" with
  | some (.text text), some (.list links) =>
      if strip text = "" ∨ maxPageBytes < text.utf8ByteSize ∨ 10000 < links.length ∨
          links.any (!·.isText) = true then .error .valueError
      else pure ⟨finalUrl, text, links⟩
  | _, _ => .error .valueError

/-- `host.endswith(f".{root_host}")`. -/
def isSubdomain (host : List Char) (rootHost : Option (List Char)) : Bool :=
  ('.' :: rootHost.getD "None".toList).isSuffixOf host

/-- A block whose value errors mean that the crawler is unavailable. -/
def orUnavailable {α : Type} (block : Except CrawlExc α) : Except CrawlExc α :=
  match block with
  | .ok value => .ok value
  | .error e => if e.isValueError then .error .crawlerUnavailable else .error e

/-- `CrawlerClient.fetch`. -/
def CrawlerClient.fetch (client : CrawlerClient) (url : String) : Except CrawlExc CrawledPage := do
  let url ← normalized lib url
  let payload ← request lib (client.stream "/v1/fetch" url)
  orUnavailable (checkPage lib payload)

end Client

end PortRag.Webpages
