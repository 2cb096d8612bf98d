import XNetty.Lib.Incremental
import XNetty.Buffer.ByteBuf
import XNetty.WebSocket.Frame
import XNetty.Http.Request
import XNetty.Http.Response
import XNetty.WebSocket.Codec
import XNetty.WebSocket.RoundTrip
import XNetty.Lib.Ledger
import XNetty.Channel.Connection
import XNetty.Channel.Output
import XNetty.Channel.Drain
import XNetty.WebSocket.Output
import XNetty.Lib.Trie
import XNetty.Http.Router.Path
import XNetty.Http.Router.Node
import XNetty.Http.Router.Search
import XNetty.Http.Router.Router
import XNetty.Http.Router.Routes
import XNetty.Http.Router.Backtracking
import XNetty.Http.Router.StaticRoutes
import XNetty.Http.Router.Dispatch
import XNetty.Http.Router.Similar
import XNetty.Http.Router.Order
import XNetty.Http.Codec
import XNetty.Http.Segmentation
import XNetty.Http.Stream
import XNetty.Http.Recording
import XNetty.Http.Delivery
import XNetty.Http.Headers
import XNetty.Http.Body
import XNetty.Http.Rejection
import XNetty.Util.Base64
import XNetty.Util.Sha1
import XNetty.WebSocket.Upgrade
import XNetty.WebSocket.UpgradeTest
import XNetty.WebSocket.Transparency
import XNetty.Lib.Agenda
import XNetty.Lib.Ring
import XNetty.Event.TimerWheel
import XNetty.Event.TimerCancel
import XNetty.Event.TimerOnce
import XNetty.Event.TimerReentry
import XNetty.Event.TimerDeadline
import XNetty.Event.TimerSchedule
import XNetty.Event.LoopTimer
import XNetty.Event.LoopTicks
import XNetty.Event.NeverEarly
import XNetty.Event.SpscQueue
import XNetty.Event.PendingFunctors
import XNetty.Event.FunctorExceptions
import XNetty.Event.TimerExceptions
import XNetty.Event.SpscThreads
import XNetty.Event.TaskRing
import XNetty.Event.Wakeup
import XNetty.Event.Confinement
import XNetty.WebSocket.Subscriptions
import XNetty.WebSocket.TopicTree
import XNetty.Lib.Reentrant
import XNetty.Event.Worker
import XNetty.Event.Closing
import XNetty.Event.Unwinding
import XNetty.Event.Descriptors
import XNetty.Event.Zombies
import XNetty.Event.Lifecycle.Owed
import XNetty.Event.Lifecycle.Calls
import XNetty.Event.Lifecycle.Steps
import XNetty.Event.Lifecycle.Run
import XNetty.Event.Subscribers
import XNetty.Event.Hub
import XNetty.Lib.Guarded
import XNetty.WebSocket.Handler
import XNetty.WebSocket.Handshake
import XNetty.Http.Outbound
import XNetty.Lib.Lines
import XNetty.Http.Fields
import XNetty.Http.Reader
import XNetty.Http.Delimiting
import XNetty.Http.Codings
import XNetty.Http.Compression
import XNetty.Ssl.Handler
import XNetty.Ssl.Pipeline
import XNetty.Http.Negotiation
import XNetty.WebSocket.TextMessages
import XNetty.WebSocket.Stopping
import XNetty.Http.Refusal
import XNetty.Http.Turns
import XNetty.Http.LastServed
import XNetty.Http.SentRequest
import XNetty.Http.BodyLimit
import XNetty.Http.Retention
import XNetty.Lib.FileSystem
import XNetty.Http.StaticFile
import XNetty.Http.StaticFileRoot
import XNetty.Lib.FileTree
import XNetty.Channel.Pipeline
import XNetty.Channel.Propagation
import XNetty.Channel.OutboundEvents
import XNetty.Channel.Positions
import XNetty.Channel.Attachment
import XNetty.Channel.Installing
import XNetty.Channel.Dispatch
import XNetty.Channel.HandlerFailure
import XNetty.Channel.Context
import XNetty.Channel.WaterMark
import XNetty.Ssl.Backlog
import XNetty.WebSocket.KeepAlive
import XNetty.WebSocket.KeepAliveSteps
import XNetty.WebSocket.KeepAliveParts
import XNetty.WebSocket.PongTimeout
import XNetty.WebSocket.KeepAliveTimers
import XNetty.WebSocket.Conversation
import XNetty.WebSocket.CloseCode
import XNetty.WebSocket.LengthCheck
import XNetty.WebSocket.Utf8
import XNetty.Http.Serialization
import XNetty.Http.FramingFields
import XNetty.Http.ConnectionClose
import XNetty.Http.RequestAccess
import XNetty.Lib.Transcript
import XNetty.Http.LazyParsing
import XNetty.Http.QueryGrammar
import XNetty.Common.TokenBucket
import XNetty.Common.TokenThreads
import XNetty.Lib.Base64
import XNetty.Lib.SecureHash
import XNetty.Util.Sha1Standard
import XNetty.Buffer.RawBuf
import XNetty.Buffer.RawReadable
import XNetty.Buffer.ByteQueue
import XNetty.Bootstrap.ServerBootstrap
import XNetty.Bootstrap.Phases
import XNetty.Bootstrap.Shutdown
import XNetty.Buffer.Bounds
import XNetty.Buffer.Doubling
import XNetty.Buffer.Room
import XNetty.Buffer.Trimming
import XNetty.Buffer.RawRefines
import XNetty.Ssl.Plaintext
import XNetty.Ssl.Flushing
import XNetty.Ssl.Ciphertext
import XNetty.Lib.DoWhile
import XNetty.Util.Gzip
import XNetty.Http.Decompression
import XNetty.Event.PollLoop
import XNetty.Event.Handoff
import XNetty.Http.Exchange
import XNetty.Http.FileReplies
import XNetty.WebSocket.Exchange
import XNetty.Event.QueueTally
import XNetty.WebSocket.Publishing
import XNetty.WebSocket.Deliveries
import XNetty.Event.IdleTimeout
import XNetty.Util.Deflate
