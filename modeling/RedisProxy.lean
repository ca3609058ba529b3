import RedisProxy.Client.Backpressure
import RedisProxy.Server.Recovery
import RedisProxy.Client.Empty
import RedisProxy.System.Wakeup
import RedisProxy.Server.Ring
import RedisProxy.Wire.Incomplete
import RedisProxy.Wire.Resume
import RedisProxy.Mem.Store
import RedisProxy.Net.Output
import RedisProxy.Mem.Requests
import RedisProxy.System.Lifetime
import RedisProxy.Server.Intake
import RedisProxy.Net.Flush
import RedisProxy.Wire.Header
import RedisProxy.Wire.Line
import RedisProxy.Wire.Accepted
import RedisProxy.Wire.Completable
import RedisProxy.Client.Farewell
import RedisProxy.System.Loops
import RedisProxy.Mem.Scarce
import RedisProxy.Server.Push
import RedisProxy.Mem.Captured
import RedisProxy.Lib.Fifo
import RedisProxy.Server.Traversal
import RedisProxy.Lib.Words
import RedisProxy.Mem.Alloc
import RedisProxy.Mem.Growth
import RedisProxy.Mem.Independent
import RedisProxy.Mem.Offsets
import RedisProxy.Mem.Advance
import RedisProxy.Client.Forward
import RedisProxy.Lib.Ending
import RedisProxy.Lib.Shares
import RedisProxy.Lib.Simulation
import RedisProxy.Server.Standing
import RedisProxy.System.Delivery
import RedisProxy.System.Drain
import RedisProxy.Client.Intake
import RedisProxy.Lib.Marks
import RedisProxy.System.Poller
import RedisProxy.System.Rounds
import RedisProxy.Lib.Slots
import RedisProxy.Net.Sockets
import RedisProxy.Server.Descriptors
import RedisProxy.System.Hosted
import RedisProxy.Server.Backing
import RedisProxy.System.Running
import RedisProxy.System.Turns
