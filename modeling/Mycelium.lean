import Mycelium.Lib.Cut
import Mycelium.Lib.Regex
import Mycelium.Lib.Tokenizer
import Mycelium.Lib.Machine
import Mycelium.Lib.OrderedIndex
import Mycelium.Lib.PriorityQueue
import Mycelium.Common.Bytes
import Mycelium.Common.Escape
import Mycelium.Common.Path
import Mycelium.Common.Url
import Mycelium.Common.Host
import Mycelium.Common.UrlParts
import Mycelium.Common.UrlRoundTrip
import Mycelium.Common.UrlNormalize
import Mycelium.Common.Rfc3986
import Mycelium.Common.UrlMerge
import Mycelium.Common.UrlSetters
import Mycelium.Common.Doc
import Mycelium.Crawler.Robots
import Mycelium.Crawler.UrlClassifier
import Mycelium.Crawler.HostQueues
import Mycelium.Crawler.EasyHandle
import Mycelium.Crawler.Crawl
import Mycelium.Crawler.RobotsCompliance
import Mycelium.Common.UrlIdempotent
import Mycelium.Crawler.HandleStates
import Mycelium.Crawler.EventLoop
import Mycelium.Crawler.InputBuffer
import Mycelium.Common.BigHash
import Mycelium.Common.BucketLock
import Mycelium.Dist.Forkfun
import Mycelium.Dist.Pickle
import Mycelium.Dist.Pipe
import Mycelium.Html.HtmlLexer
import Mycelium.Html.Links
import Mycelium.Crawler.RobotsLexer
import Mycelium.Crawler.RobotsText
import Mycelium.Crawler.RobotsEscapes
import Mycelium.Dist.DiskFifo
import Mycelium.Html.Entities
import Mycelium.Html.HtmlScanner
import Mycelium.Html.TextRuns
import Mycelium.Html.StartTags
import Mycelium.Html.WhiteSpace
import Mycelium.Html.Respacing
import Mycelium.Html.Quoting
import Mycelium.Common.HttpHeaders
import Mycelium.Crawler.Console
import Mycelium.Common.PathNormalize
import Mycelium.Common.IpLiteral
import Mycelium.Common.UrlAuthority
import Mycelium.Common.EscapeLaws
import Mycelium.Common.PathIterators
import Mycelium.Common.Utf8
import Mycelium.Html.EntityValues
import Mycelium.Html.EntityRoundTrip
import Mycelium.Dist.LocalIndexer
import Mycelium.Html.LinkRecords
import Mycelium.Common.PathScan
import Mycelium.Common.IntBytes
import Mycelium.Dist.ValidUtf8
import Mycelium.Common.Utf16
import Mycelium.Html.CaseFolder
import Mycelium.Common.BucketCalls
import Mycelium.Common.BucketOpen
import Mycelium.Common.FaultyCalls
import Mycelium.Common.StrandedLocks
import Mycelium.Common.BucketAlone
import Mycelium.Dist.Indexer
import Mycelium.Crawler.Drain
import Mycelium.Crawler.Server
import Mycelium.Lib.SortedMap
import Mycelium.Common.Bencode
import Mycelium.Common.BencodeReader
import Mycelium.Dist.Children
import Mycelium.Dist.LostSignal
import Mycelium.Crawler.Downloads
import Mycelium.Common.UrlReferences
import Mycelium.Dist.ForkfunRaise
import Mycelium.Html.LinkUrls
import Mycelium.Crawler.Sockets
import Mycelium.Common.BucketFiles
import Mycelium.Common.BucketObjects
