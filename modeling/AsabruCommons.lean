import AsabruCommons.Run
import AsabruCommons.Authentication.CachedFileList
import AsabruCommons.Authentication.Durability
import AsabruCommons.Authentication.Independence
import AsabruCommons.Authentication.LoadedFile
import AsabruCommons.Authentication.Revocation
import AsabruCommons.Authentication.Acceptance
import AsabruCommons.Authentication.CompactionPass
import AsabruCommons.Authentication.MemoryMappedListFile
import AsabruCommons.Authentication.SortedSet
import AsabruCommons.Authentication.BulkRemoval
import AsabruCommons.Authentication.LostUpdate
import AsabruCommons.WorkingCopy
import AsabruCommons.Authentication.SharedSet
import AsabruCommons.OrderedMap
import AsabruCommons.Search
import AsabruCommons.IStringStream
import AsabruCommons.Http.Message
import AsabruCommons.Http.Request
import AsabruCommons.Http.Response
import AsabruCommons.Http.Reserialised
import AsabruCommons.Http.Grammar
import AsabruCommons.Http.HeaderLines
import AsabruCommons.Http.Survival
import AsabruCommons.Http.Forwarding
import AsabruCommons.Http.Settling
import AsabruCommons.Http.Reading
import AsabruCommons.LoadBalancer.Basic
import AsabruCommons.LoadBalancer.Weighted
import AsabruCommons.LoadBalancer.RoundRobin
import AsabruCommons.Rotation
import AsabruCommons.LoadBalancer.Requests
import AsabruCommons.LoadBalancer.Proportional
import AsabruCommons.LoadBalancer.Fairness
import AsabruCommons.LoadBalancer.Settling
import AsabruCommons.Mutex
import AsabruCommons.ThreadPool.Basic
import AsabruCommons.ThreadPool.Shutdown
import AsabruCommons.ThreadPool.ExactlyOnce
import AsabruCommons.ThreadPool.Spawning
import AsabruCommons.ThreadPool.Queue
import AsabruCommons.ThreadPool.QueueProgress
import AsabruCommons.ThreadPool.OverQueue
import AsabruCommons.ThreadPool.Refinement
import AsabruCommons.ThreadPool.Clients
import AsabruCommons.TypeFactory.Basic
import AsabruCommons.TypeFactory.Singleton
import AsabruCommons.TypeFactory.Lookup
import AsabruCommons.TypeFactory.Answers
import AsabruCommons.Utf8
import AsabruCommons.Json
import AsabruCommons.Json.Reading
import AsabruCommons.Json.Writing
import AsabruCommons.Json.Fields
import AsabruCommons.Utils
import AsabruCommons.Logger.ContentWriter
import AsabruCommons.Logger.FileLog
import AsabruCommons.Logger.NetLog
import AsabruCommons.Logger.Worker
import AsabruCommons.Logger.WakeUps
import AsabruCommons.Sql
import AsabruCommons.Logger.DbLog
import AsabruCommons.Network.Delivery
import AsabruCommons.Logger.Collector
import AsabruCommons.Logger.Database
import AsabruCommons.Endian
import AsabruCommons.Network.WireIntegers
import AsabruCommons.Afcas.Client
import AsabruCommons.Afcas.Query
import AsabruCommons.Afcas.Migration
import AsabruCommons.Afcas.Response
import AsabruCommons.Afcas.Additions
import AsabruCommons.Authorization.Documents
import AsabruCommons.Authorization.Construction
import AsabruCommons.Precondition
import AsabruCommons.Authorization.MissingElements
import AsabruCommons.Authorization.Decision
import AsabruCommons.Utils.Splitting
import AsabruCommons.Utils.Escapes
import AsabruCommons.CArray
import AsabruCommons.Utils.ChopLine
import AsabruCommons.LineGrabber
import AsabruCommons.LineGrabber.Lines
import AsabruCommons.Network.PacketBounds
import AsabruCommons.GrowingVector
import AsabruCommons.Sweep
import AsabruCommons.Scheduler
import AsabruCommons.Scheduler.OnTime
import AsabruCommons.Scheduler.Reentrant
import AsabruCommons.Scheduler.Repeating
import AsabruCommons.FileTransfer.Payload
import AsabruCommons.SelfDelimiting
import AsabruCommons.FileTransfer.Packets
import AsabruCommons.FileTransfer.Messages
import AsabruCommons.Access.Process
import AsabruCommons.Access.Attribution
import AsabruCommons.Http.Trimming
