import MiniCcl.Average
import MiniCcl.Barrier
import MiniCcl.BootstrapBlocks
import MiniCcl.BootstrapRun
import MiniCcl.Collectives
import MiniCcl.ConnectionPlan
import MiniCcl.Descriptors
import MiniCcl.Failures
import MiniCcl.Finalize
import MiniCcl.Frame
import MiniCcl.Framing
import MiniCcl.InitTransportsPairs
import MiniCcl.Meaning
import MiniCcl.MeshMeaning
import MiniCcl.MeshRounds
import MiniCcl.NodeBounds
import MiniCcl.RdmaAutoMr
import MiniCcl.RdmaChunks
import MiniCcl.RdmaHandshake
import MiniCcl.RdmaInit
import MiniCcl.RdmaOneWay
import MiniCcl.RdmaPolling
import MiniCcl.RdmaShared
import MiniCcl.RdmaZeroCopy
import MiniCcl.RingMeaning
import MiniCcl.SessionBarrier
import MiniCcl.SessionLaws
import MiniCcl.SessionStreams
import MiniCcl.Sessions
import MiniCcl.Startup
import MiniCcl.Traffic
import MiniCcl.TransportTcp
import MiniCcl.TransportThreads
