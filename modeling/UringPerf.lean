import UringPerf.Base.Run
import UringPerf.Base.Trace
import UringPerf.Base.Scan
import UringPerf.Base.Ring
import UringPerf.Base.Single
import UringPerf.Base.Table
import UringPerf.Base.Feed
import UringPerf.Base.Delivery
import UringPerf.Base.Solo
import UringPerf.Base.Bytes
import UringPerf.Base.Circular
import UringPerf.Base.Masked
import UringPerf.Base.Smear
import UringPerf.Base.Ledger
import UringPerf.Base.Relabel
import UringPerf.Base.Segments
import UringPerf.Base.Owns
import UringPerf.Config.Args
import UringPerf.Engine.Context
import UringPerf.Engine.Completions
import UringPerf.Engine.Batch
import UringPerf.Engine.Consume
import UringPerf.Engine.Plain
import UringPerf.Engine.Stops
import UringPerf.Engine.Prep
import UringPerf.Engine.BufRing
import UringPerf.Engine.Select
import UringPerf.Stats.Counters
import UringPerf.Stats.Collector
import UringPerf.Stats.Exact
import UringPerf.Net.Stream
import UringPerf.Net.Handshake
import UringPerf.Net.Clock
import UringPerf.Server.Model
import UringPerf.Server.Effect
import UringPerf.Server.Inv
import UringPerf.Server.Preserve
import UringPerf.Server.Descriptors
import UringPerf.Server.Deadline
import UringPerf.Server.Lifetime
import UringPerf.Server.Isolation
import UringPerf.Server.Memory
import UringPerf.Server.Stopping
import UringPerf.Server.Queue
import UringPerf.Server.Overflow
import UringPerf.Server.Armed
import UringPerf.Server.Udp
import UringPerf.Client.Model
import UringPerf.Client.Effect
import UringPerf.Client.Send
import UringPerf.Client.Teardown
import UringPerf.Client.Socket
import UringPerf.Zcrx.Model
import UringPerf.Zcrx.Refill
import UringPerf.Zcrx.Effect
import UringPerf.Zcrx.Pool
import UringPerf.Zcrx.Area
import UringPerf.Zcrx.Packed
import UringPerf.Zcrx.Conns
import UringPerf.Zcrx.Slots
import UringPerf.Zcrx.Refine
import UringPerf.Recv.Ending
import UringPerf.Recv.Buffers
import UringPerf.Recv.ServerStream
import UringPerf.Recv.ClientStream
import UringPerf.Recv.Accepted
import UringPerf.Protocol.Agreement
import UringPerf.Protocol.Ports
import UringPerf.Protocol.Packets
import UringPerf.Worker.Loops
import UringPerf.Worker.Refine
import UringPerf.Worker.RefineZcrx
import UringPerf.Worker.Stops
import UringPerf.Worker.Calls
import UringPerf.Worker.Resources
import UringPerf.Program.Model
import UringPerf.Program.Summary
import UringPerf.Program.Shutdown
import UringPerf.Program.Lifetime
