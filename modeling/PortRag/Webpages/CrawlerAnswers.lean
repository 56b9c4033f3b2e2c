import PortRag.Webpages.CrawlerRequests
import PortRag.Webpages.UrlHosts

set_option autoImplicit false

/-!
# What the crawler client makes of an answer

A call of the client returns a checked page or checked URLs, or it raises one of the two errors of
the service with the text that belongs to it.
-/

namespace PortRag.Webpages

open PortRag.Foundation

/-- The host of a URL; `none` is a URL that cannot be split or that has no host. -/
def hostOf (lib : CrawlerLibraries) (url : String) : Option (List Char) :=
  (urlsplit lib.toTextTables url.toList).bind (fun parsed => parsed.hostname lib.toTextTables)

section Checks

variable {lib : CrawlerLibraries}

/-! ## URLs of an answer -/

/-- URLs that passed the checks so far. -/
structure Checked (lib : CrawlerLibraries) (rootHost : Option (List Char)) (seen : List String) :
    Prop where
  nodup : seen.Nodup
  normal : ∀ candidate ∈ seen, normalizeUrl lib.toUrlLibraries candidate = .ok candidate
  hosts : ∀ candidate ∈ seen, ∃ host, hostOf lib candidate = some host ∧
    (some host = rootHost ∨ isSubdomain host rootHost = true)

/-- The URLs before others have passed the checks as well. -/
theorem Checked.before {rootHost : Option (List Char)} {seen more : List String}
    (h : Checked lib rootHost (seen ++ more)) : Checked lib rootHost seen where
  nodup := (List.nodup_append.mp h.nodup).1
  normal candidate hmem := h.normal candidate (List.mem_append_left more hmem)
  hosts candidate hmem := h.hosts candidate (List.mem_append_left more hmem)

/-- A result that a call has to return: the object of a 200 has it, and it is valid. -/
structure Returned {α : Type} (lib : CrawlerLibraries) (exchange : Exchange)
    (Carries : Members → α → Prop) (Valid : α → Prop) (value : α) : Prop where
  delivered : ∃ payload, exchange.Delivers lib payload ∧ Carries payload value
  valid : Valid value

end Checks

end PortRag.Webpages
