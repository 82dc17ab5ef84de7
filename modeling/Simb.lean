import Simb.Lib.Txn
import Simb.Lib.Ledger
import Simb.Lib.Table
import Simb.Lib.Text
import Simb.Lib.JsonText
import Simb.Lib.Hex
import Simb.Lib.Rlp
import Simb.Lib.RlpCanonical
import Simb.Lib.Run
import Simb.Lib.Span
import Simb.Lib.Lock
import Simb.Lib.Desk
import Simb.Lib.Flood
import Simb.Lib.Rely
import Simb.Interface
import Simb.Wire
import Simb.Pool
import Simb.PoolSpec
import Simb.PoolAccount
import Simb.BlockTree.Defs
import Simb.BlockTree.Spec
import Simb.BlockTree.Runs
import Simb.BlockTree.Links
import Simb.BlockTree.Classify
import Simb.BlockTree.Mining
import Simb.BlockTree.Miner
import Simb.BlockTree.MinedHash
import Simb.BlockTree.Preimage
import Simb.BlockTree.Ticks
import Simb.BlockTree.Race
import Simb.BlockTree.Locks
import Simb.BlockTree.Agreement
import Simb.BlockTree.Interleave
import Simb.Tasks.SyncHeader
import Simb.Tasks.SyncSpec
import Simb.Tasks.SyncOrder
import Simb.Tasks.SyncTrace
import Simb.Tasks.SyncSteps
import Simb.Tasks.SyncLive
import Simb.Tasks.SyncWait
import Simb.Net.Chain
import Simb.Net.ChainSpec
import Simb.Net.Latch
import Simb.Net.Serving
import Simb.Net.Sessions
import Simb.Net.Broadcasts
import Simb.Net.Ahead
import Simb.Net.Impostor
import Simb.Net.Download
import Simb.Net.HeaderRequests
import Simb.Net.Receivers
import Simb.Net.Network
import Simb.Net.Gossip
import Simb.Net.RoundTrip
import Simb.Net.NetworkSpec
import Simb.Net.Replies
import Simb.Net.AutoMine
import Simb.Rpc
import Simb.RpcSpec
import Simb.Net.Flow
import Simb.Net.NoPanic
import Simb.Net.Connecting
import Simb.Net.Traffic
import Simb.Client.Defs
import Simb.Client.Carries
import Simb.Client.Calm
import Simb.Client.Asking
import Simb.Client.Tickets
import Simb.Client.Launch
import Simb.Cluster.Defs
import Simb.Cluster.Agreement
import Simb.Cluster.Flooding
import Simb.Cluster.Convergence
import Simb.Cluster.Settling
import Simb.Cluster.Pools
import Simb.Cluster.Refinement
import Simb.Cluster.Requests
