import AdaptiveGateway.Auth.Accounts
import AdaptiveGateway.Auth.Admin
import AdaptiveGateway.Auth.Database
import AdaptiveGateway.Auth.Family
import AdaptiveGateway.Auth.History
import AdaptiveGateway.Auth.Keys
import AdaptiveGateway.Auth.Ledger
import AdaptiveGateway.Auth.Rotation
import AdaptiveGateway.Auth.Routes
import AdaptiveGateway.Auth.Sequential
import AdaptiveGateway.Auth.Transactions
import AdaptiveGateway.BodyLimit
import AdaptiveGateway.ClientIdentity
import AdaptiveGateway.Codec.Base64
import AdaptiveGateway.Codec.Decimal
import AdaptiveGateway.Codec.Dict
import AdaptiveGateway.Codec.Json
import AdaptiveGateway.Codec.Quote
import AdaptiveGateway.Codec.Rfc8259
import AdaptiveGateway.Codec.Text
import AdaptiveGateway.Codec.Url
import AdaptiveGateway.Codec.UrlParts
import AdaptiveGateway.Concurrent.Calls
import AdaptiveGateway.Concurrent.Jobs
import AdaptiveGateway.Concurrent.Phases
import AdaptiveGateway.Concurrent.Pool
import AdaptiveGateway.Concurrent.Process
import AdaptiveGateway.Concurrent.Prog
import AdaptiveGateway.Concurrent.Solo
import AdaptiveGateway.Concurrent.Table
import AdaptiveGateway.Concurrent.Volatile
import AdaptiveGateway.Concurrent.Watch
import AdaptiveGateway.Config
import AdaptiveGateway.ConfigFile
import AdaptiveGateway.Control.Debounce
import AdaptiveGateway.Control.FixedWindow
import AdaptiveGateway.Control.LatinSquare
import AdaptiveGateway.Detector.Corrupt
import AdaptiveGateway.Detector.Dwell
import AdaptiveGateway.Detector.Middleware
import AdaptiveGateway.Detector.Reversal
import AdaptiveGateway.Detector.RttState
import AdaptiveGateway.Detector.Signal
import AdaptiveGateway.Detector.StateText
import AdaptiveGateway.Detector.Stateless
import AdaptiveGateway.Detector.Transparent
import AdaptiveGateway.Detector.Update
import AdaptiveGateway.Exc
import AdaptiveGateway.FlushCache
import AdaptiveGateway.Js.Heap
import AdaptiveGateway.Js.InPlace
import AdaptiveGateway.Numbers
import AdaptiveGateway.Numeric.Binary64
import AdaptiveGateway.Numeric.Error
import AdaptiveGateway.Numeric.Rounding
import AdaptiveGateway.Optimizer.Dispatch
import AdaptiveGateway.Optimizer.FixedModes
import AdaptiveGateway.Optimizer.Marker
import AdaptiveGateway.Optimizer.Negotiation
import AdaptiveGateway.Optimizer.Representation
import AdaptiveGateway.Optimizer.Stripping
import AdaptiveGateway.Optimizer.Transform
import AdaptiveGateway.Optimizer.Validity
import AdaptiveGateway.Proxy.Attribution
import AdaptiveGateway.Proxy.Cache
import AdaptiveGateway.Proxy.Confinement
import AdaptiveGateway.Proxy.Escape
import AdaptiveGateway.Proxy.Fidelity
import AdaptiveGateway.Proxy.Fields
import AdaptiveGateway.Proxy.IdempotencyKey
import AdaptiveGateway.Proxy.Isolation
import AdaptiveGateway.Proxy.ListHeaders
import AdaptiveGateway.Proxy.Message
import AdaptiveGateway.Proxy.Revalidation
import AdaptiveGateway.Proxy.Route
import AdaptiveGateway.Proxy.SingleFlight
import AdaptiveGateway.Proxy.Target
import AdaptiveGateway.Proxy.Write
import AdaptiveGateway.ProxyHttp
import AdaptiveGateway.Python.Bytes
import AdaptiveGateway.Python.Dumps
import AdaptiveGateway.Python.Equality
import AdaptiveGateway.Python.Grouping
import AdaptiveGateway.Python.Loads
import AdaptiveGateway.Python.Locations
import AdaptiveGateway.Python.SortKeys
import AdaptiveGateway.Python.Value
import AdaptiveGateway.Queue.Backoff
import AdaptiveGateway.Queue.Budget
import AdaptiveGateway.Queue.Completion
import AdaptiveGateway.Queue.DeadLetter
import AdaptiveGateway.Queue.Effects
import AdaptiveGateway.Queue.Flight
import AdaptiveGateway.Queue.Isolation
import AdaptiveGateway.Queue.Lease
import AdaptiveGateway.Queue.NoLoss
import AdaptiveGateway.Queue.Stranded
import AdaptiveGateway.Queue.SyncWorker
import AdaptiveGateway.Queue.Turn
import AdaptiveGateway.Queue.World
import AdaptiveGateway.RateLimit
import AdaptiveGateway.RedisLock
import AdaptiveGateway.RequestLogger
import AdaptiveGateway.Sdk.Client
import AdaptiveGateway.Sdk.Express
import AdaptiveGateway.Sdk.Hints
import AdaptiveGateway.Study.Acceptance
import AdaptiveGateway.Study.Analysis
import AdaptiveGateway.Study.Collection
import AdaptiveGateway.Study.Completion
import AdaptiveGateway.Study.Content
import AdaptiveGateway.Study.Contract
import AdaptiveGateway.Study.Contrasts
import AdaptiveGateway.Study.Counterbalance
import AdaptiveGateway.Study.Finalization
import AdaptiveGateway.Study.Load
import AdaptiveGateway.Study.Measurement
import AdaptiveGateway.Study.Percentile
import AdaptiveGateway.Study.Reference
import AdaptiveGateway.Study.Rows
import AdaptiveGateway.Study.RunStudy
import AdaptiveGateway.Study.Streaming
