import ReplayServer.Util.CommonPrefix
import ReplayServer.Accept.HeaderReader
import ReplayServer.Replay.Streams.Header
import ReplayServer.Replay.AddData
import ReplayServer.Replay.DelayedData
import ReplayServer.Replay.WriterDelay
import ReplayServer.Replay.Repeated
import ReplayServer.Replay.Readers
import ReplayServer.Replay.CallingProtocol
import ReplayServer.Replay.LoopEnds
import ReplayServer.Replay.Save.Available
import ReplayServer.Replay.Runner
import ReplayServer.Replay.NoSpoilers
import ReplayServer.Replay.Shutdown
import ReplayServer.Replay.Broadcast
import ReplayServer.Replay.Performance
import ReplayServer.Server.Shutdown
import ReplayServer.Replay.Intake
