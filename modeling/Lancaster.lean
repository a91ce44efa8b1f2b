import Lancaster.Base.Bytes
import Lancaster.Base.Interleaving
import Lancaster.Base.Text
import Lancaster.Base.History
import Lancaster.Base.Atomic
import Lancaster.Base.Linked
import Lancaster.Storage
import Lancaster.Sender
import Lancaster.Receiver
import Lancaster.World
import Lancaster.Copying
import Lancaster.Transitions
import Lancaster.Packet
import Lancaster.PacketStream
import Lancaster.TcpFrames
import Lancaster.GapAnswers
import Lancaster.SequenceCoverage
import Lancaster.GapRequests
import Lancaster.VersionedLock
import Lancaster.RecordRegister
import Lancaster.SkipSound
import Lancaster.ChangeQueue
import Lancaster.StagedFresh
import Lancaster.Base.Broadcast
import Lancaster.Delivery
import Lancaster.Network
import Lancaster.CountedCopies
import Lancaster.Replication
import Lancaster.Simulation
import Lancaster.Coherence
import Lancaster.Backlog
import Lancaster.Owed
import Lancaster.Convergence
import Lancaster.Decoding
import Lancaster.DatagramBounds
import Lancaster.FrameBounds
import Lancaster.ReceiverLog
import Lancaster.Chain
import Lancaster.QueueScan
import Lancaster.QueueLaps
import Lancaster.QueueRestart
import Lancaster.Isolation
import Lancaster.Backpressure
import Lancaster.Poller
import Lancaster.Dispatch
import Lancaster.Base.Patches
import Lancaster.SegmentLayout
import Lancaster.StorageCreate
import Lancaster.CreateOutcomes
import Lancaster.FailedCreate
import Lancaster.Spin
import Lancaster.LockRecovery
import Lancaster.StorageOpen
import Lancaster.Handshake
import Lancaster.HandshakeBuffers
import Lancaster.Batch
import Lancaster.ChangedRecords
import Lancaster.Ledger
import Lancaster.PacketCodec
import Lancaster.QueueDrain
import Lancaster.Base.Assoc
import Lancaster.Table
import Lancaster.Dict
import Lancaster.RecordAddress
import Lancaster.RecordArray
import Lancaster.BatchRecords
import Lancaster.Copier
import Lancaster.Base.Compaction
import Lancaster.Eraser
import Lancaster.FreshCreate
import Lancaster.Reopen
import Lancaster.Grow
import Lancaster.GrownRecords
import Lancaster.FailedGrow
import Lancaster.Base.Extremes
import Lancaster.Base.Floating
import Lancaster.Latency
import Lancaster.Ports
import Lancaster.Commander
import Lancaster.FeedAddresses
import Lancaster.Base.Lagged
import Lancaster.Twist
import Lancaster.ErrorReport
import Lancaster.Index
import Lancaster.MultiStoreIndex
import Lancaster.A2i
import Lancaster.Base.Calendar
import Lancaster.Base.Decimal
import Lancaster.Clock
import Lancaster.Base.Json
import Lancaster.Advert
import Lancaster.LockedSearch
import Lancaster.Submux
import Lancaster.Toucher
import Lancaster.ToucherSteps
import Lancaster.ToucherRuns
import Lancaster.ReaderWriter
import Lancaster.Base.Completion
import Lancaster.Leads
import Lancaster.Flushing
import Lancaster.Hearing
import Lancaster.Answering
import Lancaster.CatchUp
