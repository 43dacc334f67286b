import MiniTcg.Lib.Argmax
import MiniTcg.Lib.Bytes
import MiniTcg.Lib.Narrow
import MiniTcg.Lib.Packed
import MiniTcg.Lib.Ring
import MiniTcg.Lib.Run
import MiniTcg.Lib.Scan
import MiniTcg.Lib.Share
import MiniTcg.Lib.Shm
import MiniTcg.Game.Exact
import MiniTcg.Game.Greedy
import MiniTcg.Game.Invariant
import MiniTcg.Game.Ledger
import MiniTcg.Game.Overflow
import MiniTcg.Game.Playout
import MiniTcg.Game.Priority
import MiniTcg.Game.Rules
import MiniTcg.Game.Sheet
import MiniTcg.Game.Slots
import MiniTcg.Game.State
import MiniTcg.Game.Step
import MiniTcg.Game.Symmetry
import MiniTcg.Game.Tempo
import MiniTcg.Game.Turn
import MiniTcg.Ipc.Capacity
import MiniTcg.Ipc.Ids
import MiniTcg.Ipc.Overlap
import MiniTcg.Ipc.Race
import MiniTcg.Ipc.Refinement
import MiniTcg.Ipc.Store
import MiniTcg.Wire.Calls
import MiniTcg.Wire.Codec
import MiniTcg.Wire.Corruption
import MiniTcg.Wire.Flow
import MiniTcg.Wire.Layout
import MiniTcg.Wire.Net
import MiniTcg.Wire.Packet
import MiniTcg.Wire.Proto
import MiniTcg.Wire.SendSize
import MiniTcg.Wire.Timeout
import MiniTcg.Server.Capacity
import MiniTcg.Server.Counters
import MiniTcg.Server.Fleet
import MiniTcg.Server.Host
import MiniTcg.Server.Isolation
import MiniTcg.Server.LostUpdate
import MiniTcg.Server.Numbers
import MiniTcg.Server.Overlap
import MiniTcg.Server.OwnMatch
import MiniTcg.Server.PlayOnce
import MiniTcg.Server.Replies
import MiniTcg.Server.Restart
import MiniTcg.Server.Resume
import MiniTcg.Server.Sends
import MiniTcg.Server.Serve
import MiniTcg.Server.Session
import MiniTcg.Server.StaleView
import MiniTcg.Server.Started
import MiniTcg.Server.Stream
import MiniTcg.Server.Waiting
import MiniTcg.Server.Worker
import MiniTcg.Client.BattleLog
import MiniTcg.Client.Bench
import MiniTcg.Client.Console
import MiniTcg.Client.Gui
import MiniTcg.Client.Link
import MiniTcg.Client.Octets
import MiniTcg.Client.Reconnect
import MiniTcg.Client.World
