import PortRag.Webpages.Publication
import PortRag.Webpages.Schedule
import PortRag.Webpages.Leases
import PortRag.Webpages.Atomicity
import PortRag.Webpages.Calendar
import PortRag.Webpages.Unchanged
import PortRag.Webpages.Starvation
import PortRag.Webpages.Previews
import PortRag.Webpages.StoredSize
import PortRag.Webpages.CrawlerAnswers
import PortRag.Service.ReadPaths
import PortRag.Service.Isolation
import PortRag.Service.Bindings
import PortRag.Service.RevisionRuns
import PortRag.Service.TakenKeys
import PortRag.Service.RevisionPosts
import PortRag.Maintenance.LegacyTexts
import PortRag.Security.Splicing
import PortRag.Security.RetrievalCapability
import PortRag.Ingest.Retries
import PortRag.Ingest.Custody
import PortRag.Ingest.StagedOriginals
import PortRag.Ingest.TextsKept
import PortRag.Ingest.Endings
import PortRag.Ingest.Reindex
import PortRag.Search.TopK
import PortRag.Ingest.Recovery
import PortRag.Service.Erasure
import PortRag.Service.FilePublished
import PortRag.Service.FilePoints
