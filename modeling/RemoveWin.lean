import RemoveWin.Lib.OpBased
import RemoveWin.Lib.Simulation
import RemoveWin.Lib.Access
import RemoveWin.Lib.JoinRegister
import RemoveWin.Lib.Knowledge
import RemoveWin.Lib.Walk
import RemoveWin.Lib.Decimal
import RemoveWin.Lib.Tombstones
import RemoveWin.Lib.Tokens
import RemoveWin.Lib.Counters
import RemoveWin.Lib.Completion
import RemoveWin.Lib.Trace
import RemoveWin.Lib.Reads
import RemoveWin.Sds
import RemoveWin.Server
import RemoveWin.SetType
import RemoveWin.PlainSet
import RemoveWin.VectorClock
import RemoveWin.TextCodec
import RemoveWin.ClockText
import RemoveWin.SetEncoding
import RemoveWin.Message
import RemoveWin.RWFramework
import RemoveWin.RwSet.Model
import RemoveWin.RwSet.Convergence
import RemoveWin.RwSet.RemoveWins
import RemoveWin.RwSet.Sequential
import RemoveWin.Broadcast
import RemoveWin.LamportClock
import RemoveWin.Db
import RemoveWin.SetDb
import RemoveWin.OrSet.Model
import RemoveWin.OrSet.Tags
import RemoveWin.OrSet.AddWins
import RemoveWin.OrSet.Local
import RemoveWin.OrSet.Overhead
import RemoveWin.PnSet.Model
import RemoveWin.PnSet.Convergence
import RemoveWin.PnSet.Local
import RemoveWin.SetStores
import RemoveWin.BinarySafe
import RemoveWin.SetSequential
import RemoveWin.SetReplies
import RemoveWin.SetMessages
import RemoveWin.ZsetType
import RemoveWin.RzSet.Model
import RemoveWin.RzSet.Convergence
import RemoveWin.OzSet.Model
import RemoveWin.OzSet.Element
import RemoveWin.OzSet.Pointers
import RemoveWin.OzSet.Scores
import RemoveWin.KeySpace.Model
import RemoveWin.KeySpace.Private
import RemoveWin.KeySpace.Handlers
import RemoveWin.KeySpace.SetHandlers
import RemoveWin.KeySpace.ZsetHandlers
import RemoveWin.KeySpace.RwSet
import RemoveWin.KeySpace.OrSet
import RemoveWin.KeySpace.PnSet
import RemoveWin.KeySpace.RzSet
import RemoveWin.KeySpace.OzSet
import RemoveWin.KeySpace.Alone
import RemoveWin.KeySpace.Replies
import RemoveWin.Tree.Model
import RemoveWin.Tree.Effects
import RemoveWin.Tree.Clocks
import RemoveWin.Tree.Message
import RemoveWin.Tree.Walks
import RemoveWin.Tree.Structure
import RemoveWin.Tree.Acyclic
import RemoveWin.Tree.Updates
import RemoveWin.Tree.Values
import RemoveWin.Tree.Parents
import RemoveWin.Tree.Placeholders
import RemoveWin.Tree.Churn
import RemoveWin.Tree.ChildLists
import RemoveWin.Tree.Headers
import RemoveWin.Tree.Tidy
import RemoveWin.Tree.RefTree
import RemoveWin.Tree.Sequential
import RemoveWin.Tree.Solo
import RemoveWin.Tree.LastValue
import RemoveWin.VcObject.Model
import RemoveWin.VcObject.Convergence
import RemoveWin.VcObject.Safety
import RemoveWin.VcObject.Divergence
import RemoveWin.Peers.Model
import RemoveWin.Peers.Links
import RemoveWin.Peers.Databases
import RemoveWin.Peers.Replicate
import RemoveWin.Configuration
import RemoveWin.Link.Numbers
import RemoveWin.Link.Output
import RemoveWin.Link.Fifo
import RemoveWin.Link.Inline
import RemoveWin.Link.Query
import RemoveWin.Link.Stream
import RemoveWin.Dict.Refines
import RemoveWin.Dict.Scan
