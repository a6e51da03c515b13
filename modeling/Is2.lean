import Is2.Core.Words
import Is2.Support.Nbq.Model
import Is2.Core.Lists
import Is2.Support.Nbq.Invariant
import Is2.Support.Nbq.Operations
import Is2.Core.Machine
import Is2.Core.Pattern
import Is2.Core.SeekQueue
import Is2.Evr.Contract
import Is2.Nconn.Pipe
import Is2.Srvr.Backpressure
import Is2.Srvr.Chunking
import Is2.Srvr.Delivery
import Is2.Srvr.Dispatch
import Is2.Srvr.Drain
import Is2.Srvr.IdleContract
import Is2.Srvr.Offsets
import Is2.Srvr.PoolPartition
import Is2.Srvr.HeaderMap
import Is2.Srvr.BodyQueue
import Is2.Srvr.UpsOffsets
import Is2.Srvr.ParseUri
import Is2.Srvr.RespText
import Is2.Srvr.SubrRequest
import Is2.Srvr.SubrTarget
import Is2.Srvr.UpsVerify
import Is2.Srvr.UpsPlaces
import Is2.Support.Nbq.Accounting
import Is2.Support.Nbq.Split
import Is2.Support.NlruMaps
import Is2.Support.NlruContract
import Is2.Support.Ja3
import Is2.Dns.AiCache
import Is2.UrlRouter.Cuts
import Is2.UrlRouter.Insert
import Is2.UrlRouter.Places
import Is2.UrlRouter.Losses
import Is2.UrlRouter.Lookup
import Is2.UrlRouter.Runs
import Is2.UrlRouter.Ends
import Is2.UrlRouter.Bindings
import Is2.UrlRouter.Buffers
import Is2.UrlRouter.Parsing
import Is2.UrlRouter.Rejected
import Is2.UrlRouter.Duplicates
import Is2.Srvr.SubrLookup
import Is2.Dns.CacheFile
import Is2.Handler.FilePath
import Is2.Handler.FileRead
import Is2.Support.Uri
import Is2.Support.Args
import Is2.Support.Cookies
import Is2.Support.Ja3Bounds
import Is2.Support.Ja3Str
import Is2.Support.TlsOptions
import Is2.Evr.Select
import Is2.UrlRouter.Through
import Is2.UrlRouter.Branch
import Is2.Srvr.ActivePool
import Is2.Srvr.PoolAccounting
import Is2.Ext.HttpParser.Order
import Is2.Ext.HttpParser.Places
import Is2.Nconn.HostName
import Is2.Srvr.RqstParser
import Is2.Srvr.RqstMessage
import Is2.Srvr.RqstDispatch
