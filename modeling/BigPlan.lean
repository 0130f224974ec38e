import BigPlan.Lib.Runs
import BigPlan.Lib.BitFields
import BigPlan.Lib.Blocks
import BigPlan.Lib.Java
import BigPlan.Lib.LazyQueue
import BigPlan.Lib.Text
import BigPlan.Lib.Decimal
import BigPlan.Lib.Fallible
import BigPlan.Lib.Recursion
import BigPlan.Lib.Framing
import BigPlan.Lib.Table
import BigPlan.Lib.Forest
import BigPlan.Lib.SortedSet
import BigPlan.Lib.Tally
import BigPlan.Lib.Expiring
import BigPlan.Lib.Script
import BigPlan.Lib.Scan
import BigPlan.Lib.Strings
import BigPlan.Lib.Arrays
import BigPlan.Uid.BitsAllocator
import BigPlan.Uid.DefaultUidGenerator
import BigPlan.Uid.NextIdOrder
import BigPlan.Uid.FieldRoundTrip
import BigPlan.Uid.RingBuffer
import BigPlan.Uid.RingBufferFifo
import BigPlan.Uid.RingBufferConcurrent
import BigPlan.Uid.CachedUidGenerator
import BigPlan.Uid.Life
import BigPlan.Uid.CachedOrder
import BigPlan.Uid.NextIdFailure
import BigPlan.Uid.PaddingFailure
import BigPlan.Uid.Restart
import BigPlan.Uid.TimeField
import BigPlan.Uid.RingSizing
import BigPlan.Uid.Cluster
import BigPlan.Uid.NamingThreadFactory
import BigPlan.Vertx.SimpleRedisRepository
import BigPlan.Vertx.SaveFind
import BigPlan.Vertx.PageIndex
import BigPlan.Vertx.ZeusArguments
import BigPlan.Auth.AccessCard
import BigPlan.Gateway.SignChecker
import BigPlan.Gateway.SignText
import BigPlan.Gateway.SecurityFilter
import BigPlan.Gateway.Identity
import BigPlan.Gateway.SignEnforcement
import BigPlan.Auth.Redis
import BigPlan.Auth.CodeExchange
import BigPlan.Auth.OneCode
import BigPlan.Auth.Oauth2Controller
import BigPlan.Auth.CodeOwner
import BigPlan.Auth.TokenLogic
import BigPlan.Auth.RefreshRotation
import BigPlan.Auth.ScopeText
import BigPlan.Auth.TokenWrites
import BigPlan.Auth.GrantedScopes
import BigPlan.Auth.TokenCheck
import BigPlan.Auth.BlockingCheck
import BigPlan.Auth.RoleService
import BigPlan.Auth.ResourceService
import BigPlan.Auth.RoleGroups
import BigPlan.Auth.RoleScopeCache
import BigPlan.Auth.RolePermissions
import BigPlan.Auth.RoleDeletion
import BigPlan.Auth.ResourceSync
import BigPlan.Blog.BlogScripts
import BigPlan.Blog.BlogCounters
import BigPlan.Blog.ScriptErrors
import BigPlan.Blog.ParseMarkdown
import BigPlan.Blog.MarkdownBlocks
import BigPlan.Blog.MarkdownPartition
import BigPlan.Blog.Views
import BigPlan.Job.TriggerJob
import BigPlan.Job.JobTable
import BigPlan.Job.JobService
import BigPlan.Job.TaskRetry
import BigPlan.Job.JobGroupService
import BigPlan.Job.RegistrationRuns
import BigPlan.Job.TaskPuller
import BigPlan.Job.MessageCodec
import BigPlan.Job.TaskExecutor
import BigPlan.Job.RoundRobinRoute
import BigPlan.User.CustomizeInfo
import BigPlan.User.UserService
import BigPlan.User.LogicalDeletion
import BigPlan.Auth.OrgTree
import BigPlan.Auth.CascadingDelete
import BigPlan.Auth.TreeRewrite
import BigPlan.Auth.UserPositions
import BigPlan.Auth.OwnerChain
import BigPlan.Auth.SubordinateCheck
import BigPlan.Auth.LowerPositions
import BigPlan.Auth.ListedOnce
import BigPlan.Sms.AliceService
import BigPlan.Sms.SmsFrequency
import BigPlan.Sms.FailedCalls
import BigPlan.Ngrok.TcpLogicHandler
import BigPlan.Ngrok.TcpStream
import BigPlan.Ngrok.TunnelUri
import BigPlan.Ngrok.LogicHandler
import BigPlan.Ngrok.HttpTunnel
import BigPlan.Jvm.RoundTrip
import BigPlan.Jvm.CodeAttribute
import BigPlan.Algorithm.Stacks
import BigPlan.Algorithm.ArrayQueue
import BigPlan.Algorithm.LinkedList
import BigPlan.Algorithm.MergeLists
import BigPlan.Algorithm.DoubleLinkedList
import BigPlan.Algorithm.JosephQuestion
import BigPlan.Algorithm.Question4
import BigPlan.Algorithm.ReverseList
import BigPlan.Algorithm.Sorts
import BigPlan.Algorithm.SparseArray
import BigPlan.Security.HexUtil
import BigPlan.Security.PBKDF2Utils
import BigPlan.Lock.AbstractSync
import BigPlan.Lock.WakeUp
import BigPlan.Lock.Situation
import BigPlan.Lock.Progress
import BigPlan.Lock.Inspection
import BigPlan.Lock.QueueView
import BigPlan.Lock.SharedAcquire
import BigPlan.Lock.Signals
import BigPlan.Lock.ConditionQueue
import BigPlan.Lock.SyncQueue
import BigPlan.Lock.HandOver
import BigPlan.Lock.Conditions
import BigPlan.Lock.WaiterView
