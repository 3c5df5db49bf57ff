import XHttpCache.Support.OrderedMap
import XHttpCache.Support.Bytes
import XHttpCache.Support.Libc
import XHttpCache.Store.Keys
import XHttpCache.Store.SortedSet
import XHttpCache.Store.DataBase
import XHttpCache.Store.Refinement
import XHttpCache.Store.ScoreIndex
import XHttpCache.Expire.Manager
import XHttpCache.Redis.Commands
import XHttpCache.Http.Config
import XHttpCache.Http.Backend
import XHttpCache.Resp.Format
import XHttpCache.Server.Events
import XHttpCache.Server.Deadlines
import XHttpCache.Server.Deletion
import XHttpCache.Server.Flush
import XHttpCache.Resp.Parser
import XHttpCache.Resp.Safety
import XHttpCache.Resp.Incremental
import XHttpCache.Server.Threads
import XHttpCache.Server.Wakeups
import XHttpCache.Server.Refresh
import XHttpCache.Resp.Values
import XHttpCache.Server.Drain
import XHttpCache.Store.Faults
import XHttpCache.Redis.Replies
import XHttpCache.Server.Arguments
import XHttpCache.Resp.Arrival
import XHttpCache.Http.Frontend
import XHttpCache.Http.FastPath
import XHttpCache.Http.Validators
import XHttpCache.Server.Touched
import XHttpCache.Server.Upload
import XHttpCache.Server.Acknowledge
import XHttpCache.Resp.Decoder
import XHttpCache.Redis.RoundTrip
import XHttpCache.Resp.Grammar
import XHttpCache.Store.Scan
import XHttpCache.Http.Json
import XHttpCache.Server.Scan
import XHttpCache.Server.Repeats
import XHttpCache.Store.EtagNodes
import XHttpCache.Http.EtagSteps
import XHttpCache.Http.QueryArgs
import XHttpCache.Server.Revalidation
import XHttpCache.Redis.CmdTable
import XHttpCache.Redis.Sessions
import XHttpCache.Http.Base64
import XHttpCache.Http.Gzip
import XHttpCache.Http.Multipart
import XHttpCache.Http.Mpfd
import XHttpCache.Http.FormPosts
import XHttpCache.Http.Forms
import XHttpCache.Http.IniFile
import XHttpCache.Store.Murmur
import XHttpCache.Server.Connections
import XHttpCache.Server.CacheRefinement
import XHttpCache.Server.Failures
