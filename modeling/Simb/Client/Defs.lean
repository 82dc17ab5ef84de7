import Simb.BlockTree.Miner
import Simb.Net.Chain
import Simb.Net.Network

/-!
# A node (`client.rs`)

`start_network` starts the two tasks of a node, the network task and the chain side, with a channel for the commands of
the one and a channel for the events of the other.  `Client` is such a node as a whole: what the chain side asks of its
provider goes into the command channel, the events of the network task are taken one after the other, and a download
gets its headers through the network task.  The miner and other users of the node have handles on its chain, its pool
and its provider.

A step of a node is one turn of one of its loops, so the tasks may interleave theirs in any way.
-/

namespace Simb

open Simb.BlockTree Simb.Net Simb.Tasks

/-! ## Downloads -/

/-- The reply to a request for headers, if it was sent. -/
def Net.Network.headersReply (w : Network) (tx : ℕ) : Option (RequestResponse HeadersResponse) :=
  w.oneshots.sent.findSome? fun x =>
    match x with
    | (c, .headers response) => if c = tx then some response else none
    | _ => none

/-- What a download finds when it looks at its futures: nothing, the reply of the `i`-th, or that its sender is gone. -/
inductive Client.Found where
  | nothing
  | reply (i : ℕ)
  | closed (i : ℕ)

/-- `NetworkProvider` as the provider of a download: a future is the channel of its reply.  `look` says which future is
found ready. -/
def Net.Network.headersEnv (look : List ℕ → Network → Client.Found) : Env Network ℕ where
  getHeaders peer request w := (w.oneshots.next, w.call (.getHeaders peer request))
  pollNext queue w :=
    match look queue w with
    | .nothing => (none, w)
    | .reply i => (if h : i < queue.length then (w.headersReply queue[i]).map (⟨i, h⟩, ·) else none, w)
    | .closed i => (if h : i < queue.length then some (⟨i, h⟩, .error (.channelClosed "channel closed")) else none, w)

/-! ## The node -/

/-- The method of the provider that the chain side calls.  A response goes through a channel of its own. -/
def Net.Sent.request : Sent → Option ProviderRequest
  | .broadcastBlockHeader header => some (.broadcastBlockHeader header)
  | .broadcastTransactions transactions => some (.broadcastTransactions transactions)
  | .getClosestPeers => some .getClosestPeers
  | .response _ _ => none

structure Client where
  /-- The network task, with its commands. -/
  network : Network
  /-- The chain side, with the chain and the pool. -/
  manager : ChainNetworkManager
  /-- How many of the events of the network task the chain side has taken. -/
  received : ℕ
  /-- The downloads, as they run. -/
  downloads : List (SyncHeader ℕ)

/-- What can happen in a node. -/
inductive ClientStep where
  /-- The network task handles the next command. -/
  | command (a : Answers)
  /-- The network task handles an event of the swarm. -/
  | event (event : SwarmEvent)
  /-- The network task finds the `i`-th request of a peer answered by the chain side. -/
  | respond (i : ℕ)
  /-- The network task finds that it is time to bootstrap. -/
  | bootstrap
  /-- The receiver of a reply goes out of scope. -/
  | drop (tx : ℕ)
  /-- A method of the provider is called. -/
  | call (request : ProviderRequest)
  /-- The chain side takes the next event. -/
  | onEvent
  /-- The chain side finds the closest peers request answered. -/
  | onPeers (outcome : RequestResponse (List PeerId))
  /-- The chain side polls the `k`-th download. -/
  | onDownload (k fuel : ℕ) (look : List ℕ → Network → Client.Found)
  /-- A block is mined and broadcast. -/
  | mine (draws : Chain.Draws)
  /-- External transactions are added and broadcast. -/
  | submit (txs : List Transaction)

namespace Client

/-- The panics of the tasks. -/
inductive Panic where
  | network (p : NetworkManager.Panic)
  | chain (p : Net.Panic)
  | mining (p : BlockTree.Panic)
  deriving DecidableEq

/-- `start_network`, with a database file that holds `db`. -/
def startNetwork (P : Platform) (db : Db) (localPeerId : PeerId) : Client where
  network := .new localPeerId
  manager := .new (Chain.new P db) ∅
  received := 0
  downloads := []

/-- The database of the chain. -/
def chain (c : Client) : Db := c.manager.chain

/-- What the chain side asks of its provider becomes a command. -/
def handOver (network : Network) (x : Sent) : Network :=
  match x.request with
  | some request => network.call request
  | none => network

/-- The chain side goes on as `manager`, and what it has asked for since is handed over. -/
def withManager (c : Client) (manager : ChainNetworkManager) : Client :=
  { c with manager, network := (manager.sent.drop c.manager.sent.length).foldl handOver c.network }

def networkStep (c : Client) (x : NetworkStep) : Except Panic Client := do
  let network ← (c.network.step x).mapError .network
  return { c with network }

/-- The response of the chain side to the request of `channel`, if it was given. -/
def answer (c : Client) (channel : ℕ) : Option (List Header) :=
  c.manager.sent.findSome? fun x =>
    match x with
    | .response ch headers => if ch = channel then some headers else none
    | _ => none

def respond (c : Client) (i : ℕ) : Except Panic Client :=
  match c.network.manager.incomingPeerRequests[i]? with
  | some channel =>
    match c.answer channel with
    | some headers => c.networkStep (.response i (.ok headers))
    | none => .ok c
  | none => .ok c

variable (P : Platform)

def onEvent (c : Client) : Except Panic Client :=
  match c.network.manager.eventSender.sent[c.received]? with
  | some event => do
    let manager ← (c.manager.onEvent P event).mapError .chain
    return { c.withManager manager with received := c.received + 1 }
  | none => .ok c

/-- The downloads that are started are built. -/
def onPeers (c : Client) (outcome : RequestResponse (List PeerId)) : Except Panic Client := do
  let manager ← (c.manager.pollPeers P (some outcome)).mapError .chain
  return { c.withManager manager with
    downloads := c.downloads ++
      (manager.syncRequests.drop c.manager.syncRequests.length).filterMap SyncHeaderBuilder.build }

def onDownload (c : Client) (k fuel : ℕ) (look : List ℕ → Network → Found) : Except Panic Client :=
  match c.downloads[k]? with
  | some download =>
    match download.poll (Network.headersEnv look) fuel c.network with
    | some (.ready output, network) => do
      let manager ← (c.manager.pollSyncs P [(k, output)]).mapError .chain
      return { { c with network }.withManager manager with downloads := c.downloads.eraseIdx k }
    | some (.pending download, network) => .ok { c with network, downloads := c.downloads.set k download }
    | none => .ok c
  | none => .ok c

/-- `mine_and_broadcast_block`, up to where it waits for the outcome of the broadcast. -/
def mineAndBroadcastBlock (c : Client) (draws : Chain.Draws) : Except Panic Client := do
  match ← (Chain.mine P draws c.chain).mapError .mining with
  | (.mined header, chain) =>
    return { c with manager := { c.manager with chain }, network := c.network.call (.broadcastBlockHeader header) }
  | (.blockFallingBehind, chain) => return { c with manager := { c.manager with chain } }

/-- `add_transactions_and_broadcast`, up to where it waits for the outcome of the broadcast. -/
def addTransactionsAndBroadcast (c : Client) (txs : List Transaction) : Client :=
  -- neither the pool nor what is broadcast depends on the outcome
  let added := c.manager.pool.addTransactionsAndBroadcast txs (.ok ())
  { c with manager := { c.manager with pool := added.pool },
           network := c.network.call (.broadcastTransactions added.broadcast) }

def step (c : Client) : ClientStep → Except Panic Client
  | .command a => c.networkStep (.command a)
  | .event event => c.networkStep (.event event)
  | .respond i => c.respond i
  | .bootstrap => c.networkStep .bootstrap
  | .drop tx => c.networkStep (.drop tx)
  | .call request => c.networkStep (.call request)
  | .onEvent => c.onEvent P
  | .onPeers outcome => c.onPeers P outcome
  | .onDownload k fuel look => c.onDownload P k fuel look
  | .mine draws => c.mineAndBroadcastBlock P draws
  | .submit txs => .ok (c.addTransactionsAndBroadcast txs)

/-! ## Stopping -/

/-- The headers that the `k`-th download brings, once it is ready. -/
def brought (c : Client) (k fuel : ℕ) (look : List ℕ → Network → Found) : List Header :=
  match c.downloads[k]? with
  | some download =>
    match download.poll (Network.headersEnv look) fuel c.network with
    | some (.ready (.ok headers), _) => headers
    | _ => []
  | none => []

/-- The database when the node stops in a step, after `n` of the transactions of this step that change it.  Only a
download has more than one. -/
def halt (c : Client) (x : ClientStep) (n : ℕ) : Db :=
  match x with
  | .onDownload k fuel look =>
    match c.manager.addHeaders P ((c.brought k fuel look).take n) with
    | .ok manager => manager.chain
    | .error _ => c.chain
  | x =>
    if n = 0 then c.chain
    else
      match c.step P x with
      | .ok c' => c'.chain
      | .error _ => c.chain

end Client

end Simb
