import SwitchML.P4.Types
import SwitchML.Lib.Machine
import SwitchML.P4.Headers
import SwitchML.P4.BitmapChecker
import SwitchML.P4.WorkersCounter
import SwitchML.P4.Exponents
import SwitchML.P4.Processor
import SwitchML.P4.NextStepSelector
import SwitchML.Controller.NextStepSelector
import SwitchML.Controller.Sessions
import SwitchML.Lib.Phases
import SwitchML.Lib.Queues
import SwitchML.Aggregation.Cells
import SwitchML.Aggregation.Job
import SwitchML.P4.UDPReceiver
import SwitchML.P4.RDMAReceiver
import SwitchML.P4.Forwarder
import SwitchML.P4.Parsers
import SwitchML.P4.Ingress
import SwitchML.Aggregation.Pipe
import SwitchML.Aggregation.Pass
import SwitchML.Aggregation.Invariant
import SwitchML.Aggregation.ConsumeStep
import SwitchML.Aggregation.HarvestStep
import SwitchML.Aggregation.Counting
import SwitchML.Aggregation.ExactlyOnce
import SwitchML.Aggregation.Maxima
import SwitchML.Aggregation.Lossless
import SwitchML.Aggregation.Admission
import SwitchML.Client.Job
import SwitchML.Client.FifoScheduler
import SwitchML.Lib.Rounds
import SwitchML.Lib.Split
import SwitchML.Client.FifoInvariant
import SwitchML.Client.FifoStep
import SwitchML.Client.FifoContract
import SwitchML.Client.Context
import SwitchML.Client.Deadlock
import SwitchML.Client.Settled
import SwitchML.Client.BarrierStop
import SwitchML.Client.BarrierWait
import SwitchML.Client.Stop
import SwitchML.Client.Holding
import SwitchML.Lib.Window
import SwitchML.Lib.Chunks
import SwitchML.Client.Quantizer
import SwitchML.Client.QuantizerFrame
import SwitchML.Client.Quantization
import SwitchML.Client.QuantizerRuns
import SwitchML.Client.DpdkWorkerThread
import SwitchML.Client.DpdkReceive
import SwitchML.Client.DpdkBitmap
import SwitchML.Client.DpdkTimers
import SwitchML.Controller.GRPCServer
import SwitchML.Controller.BarrierRounds
import SwitchML.Controller.BroadcastRuns
import SwitchML.Lib.ReentrantLock
import SwitchML.Lib.Raising
import SwitchML.Controller.SyncHandlers
import SwitchML.Client.DpdkRebuild
import SwitchML.Client.DummyBackend
import SwitchML.Client.DummyReceive
import SwitchML.Client.DummyRuns
import SwitchML.Client.DummyReduce
import SwitchML.Client.DummyAllReduce
import SwitchML.Client.DpdkSlots
import SwitchML.Client.RdmaWorkerThread
import SwitchML.Lib.Links
import SwitchML.Client.TimeoutQueue
import SwitchML.Client.TimeoutRuns
import SwitchML.Client.RdmaLoop
import SwitchML.Controller.RoceStream
import SwitchML.Controller.Senders
import SwitchML.Aggregation.QueuePairs
import SwitchML.P4.DropDecision
import SwitchML.Lib.Rounding
import SwitchML.Client.Config
import SwitchML.P4.UDPSender
import SwitchML.Client.DpdkAddresses
import SwitchML.Client.DpdkUtils
import SwitchML.P4.RDMASender
import SwitchML.P4.Egress
import SwitchML.Controller.ResponseStreams
import SwitchML.Controller.SessionSetup
import SwitchML.Controller.Reset
import SwitchML.Client.VectorLoops
import SwitchML.Aggregation.RdmaAccept
import SwitchML.Controller.SetupRuns
import SwitchML.Controller.SetupSessions
import SwitchML.Aggregation.RdmaSums
import SwitchML.Aggregation.RdmaAllReduce
import SwitchML.Aggregation.Recovery
import SwitchML.Lib.Formats
import SwitchML.Lib.Views
import SwitchML.P4.HeaderFormats
import SwitchML.P4.PacketParser
import SwitchML.P4.Transparency
import SwitchML.Aggregation.HarvestSums
