import Mpsi.Lib.Reach
import Mpsi.Lib.Stream
import Mpsi.Lib.Coalition
import Mpsi.Lib.XorGroup
import Mpsi.Lib.Swap
import Mpsi.Lib.Cycles
import Mpsi.Lib.Selections
import Mpsi.Data.Block
import Mpsi.Lib.OrdSet
import Mpsi.Data.Fault
import Mpsi.Data.Bitstring
import Mpsi.Lib.Lines
import Mpsi.Data.Loaders
import Mpsi.Data.Values
import Mpsi.Apport.SubGroup
import Mpsi.Apport.Cut
import Mpsi.Apport.Check
import Mpsi.Apport.Shuffle
import Mpsi.Apport.Orders
import Mpsi.Apport.Arrange
import Mpsi.Apport.Shortage
import Mpsi.Apport.Receiver
import Mpsi.Apport.Choice
import Mpsi.Apport.Privacy
import Mpsi.Apport.Indexing
import Mpsi.Apport.Handshake
import Mpsi.Apport.Detection
import Mpsi.Apport.Sampling
import Mpsi.Apport.Disjoint
import Mpsi.Gbf.Pipeline
import Mpsi.Gbf.Online
import Mpsi.Gbf.Semaphore
import Mpsi.Lib.Pool
import Mpsi.Lib.Sim
import Mpsi.Lib.Ending
import Mpsi.Lib.Blocking
import Mpsi.Lib.Session
import Mpsi.Lib.Loops
import Mpsi.Lib.Speaks
import Mpsi.Run.SockLoops
import Mpsi.Run.Wire
import Mpsi.Run.Bytes
import Mpsi.Run.Env
import Mpsi.Gbf.Share
import Mpsi.Gbf.Bloom
import Mpsi.Gbf.Filter
import Mpsi.Gbf.Rerandomize
import Mpsi.Gbf.Solutions
import Mpsi.Gbf.Uniform
import Mpsi.Gbf.Collect
import Mpsi.Gbf.Synch
import Mpsi.Gbf.Striped
import Mpsi.Run.Connect
import Mpsi.Run.Threads
import Mpsi.Run.Party
import Mpsi.Run.Streams
import Mpsi.Run.Joins
import Mpsi.Run.Scripts
import Mpsi.Run.Sessions
import Mpsi.Run.Phases
import Mpsi.Run.Invariant
import Mpsi.Run.Outcome
import Mpsi.Run.Plan
import Mpsi.Run.Tracked
import Mpsi.Run.Lone
import Mpsi.Run.Waiting
import Mpsi.Run.Progress
import Mpsi.Run.Local
import Mpsi.Run.Ending
import Mpsi.Run.Conformance
import Mpsi.Protocol.Schedule
import Mpsi.Protocol.SetUp
import Mpsi.Protocol.Coalition
import Mpsi.Protocol.Hiding
import Mpsi.Protocol.Barrier
import Mpsi.Protocol.Intersection
import Mpsi.Protocol.Output
import Mpsi.Protocol.Alone
import Mpsi.Protocol.Reference
import Mpsi.Protocol.Completes
import Mpsi.Protocol.Blind
import Mpsi.Protocol.Variation
import Mpsi.Protocol.Commitments
import Mpsi.Protocol.Dependence
import Mpsi.Protocol.Forging
import Mpsi.Protocol.Deciding
import Mpsi.Protocol.Steering
import Mpsi.Protocol.Memory
import Mpsi.Protocol.Function
import Mpsi.Protocol.Opened
import Mpsi.Protocol.Validation
