import PortRag.Webpages.Crawler
import PortRag.Webpages.UrlTails

set_option autoImplicit false

/-!
# How a request to the crawler ends

Whatever the crawler service answers, `_request` returns the object of an admissible body, or
raises the source error that the answer names, or reports that the crawler is unavailable.
-/

namespace PortRag.Webpages

open PortRag.Foundation

/-! ## Libraries -/

/-- A JSON body that the client admits: announced as plain JSON, of an admitted size, complete,
and an object. -/
structure AdmissibleBody (lib : CrawlerLibraries) (response : CrawlerResponse) (maxBytes : Nat)
    (payload : Members) : Prop where
  mediaType : mediaType lib response = "application/json".toList
  encoding : lib.lower (response.contentEncoding.getD "identity").toList = "identity".toList
  announced : ∀ size, response.contentLength = some size →
    ∃ length, contentSize size = some length ∧ length ≤ maxBytes
  complete : response.broken = none
  size : response.parts.flatten.length ≤ maxBytes
  json : lib.loads response.parts.flatten = .ok (.dict payload)

section Answers

variable {lib : CrawlerLibraries}

/-- A 200 whose body is admissible, over a connection that is left without an error. -/
structure Exchange.Delivers (lib : CrawlerLibraries) (exchange : Exchange) (payload : Members) :
    Prop where
  closed : exchange.closing = none
  answered : ∃ response, exchange.response = .ok response ∧ response.statusCode = 200 ∧
    AdmissibleBody lib response maxCrawlerResponseBytes payload

section Request

variable {exchange : Exchange} {e : CrawlExc}

end Request

end Answers

end PortRag.Webpages
