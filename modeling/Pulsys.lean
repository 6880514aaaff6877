import Pulsys.Cache.BodyHandle
import Pulsys.Cache.Descriptors
import Pulsys.Cache.Pieces
import Pulsys.Cache.SecondRange
import Pulsys.Cache.WakeUps
import Pulsys.Coreserver.Bodyless
import Pulsys.Coreserver.ContentLength
import Pulsys.Coreserver.HandlerFallback
import Pulsys.Coreserver.HeaderBuf
import Pulsys.Coreserver.KeepAlive
import Pulsys.Coreserver.PerIP
import Pulsys.Coreserver.ReactorLoop
import Pulsys.Coreserver.ReactorRequests
import Pulsys.Coreserver.RingHeader
import Pulsys.Coreserver.RingSound
import Pulsys.Coreserver.Sendfile
import Pulsys.Coreserver.WarmReuse
import Pulsys.Proxy.Aliases
import Pulsys.Proxy.ContentRange
import Pulsys.Proxy.Hops
import Pulsys.Proxy.HostAllow
import Pulsys.Proxy.KeyHexCache
import Pulsys.Proxy.LinkValues
import Pulsys.Proxy.OriginMarker
import Pulsys.Proxy.PartialContent
import Pulsys.Proxy.RangeFree
import Pulsys.Proxy.ReadYourWrites
import Pulsys.Proxy.Replays
import Pulsys.Proxy.TeeReader
import Pulsys.Proxy.Truncation
import Pulsys.Proxy.Versions
import Pulsys.Proxy.Writers
import Pulsys.Admin.ImportJobs
import Pulsys.Admin.ListingFiles
import Pulsys.Admin.Owners
import Pulsys.Admin.Settings
import Pulsys.Admin.Trim
import Pulsys.Registry.CommitBody
import Pulsys.Registry.Downloads
import Pulsys.Registry.LFSStorage
import Pulsys.Hfhub.Download
import Pulsys.Hfhub.Partition
import Pulsys.Auth.Access
import Pulsys.Auth.Staleness
