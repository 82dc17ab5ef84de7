import Simb.BlockTree.Defs
import Simb.Pool
import Simb.Tasks.SyncHeader

/-!
# The chain side of the network (`net/chain.rs`)

`ChainNetworkManager` handles what the network delegates to it: it adds incoming headers and transactions,
answers requests for headers, and starts downloads from the closest peers when an incoming header has no
known parent.  It is a future, and everything happens in `poll`.

What a poll meets outside is a `PollInput`: the events that are there, the answer of the closest peers request
if it has come, and which downloads and broadcasts complete, in which order and with what output.  The
requests in flight are known by what they were made for.
-/

namespace Simb.Net

open Simb.BlockTree Simb.Tasks

/-- The panics of this file. -/
inductive Panic where
  | chain (p : BlockTree.Panic)
  | tip (e : BlockTree.Error)
  | addBlockHeader (e : BlockTree.Error)
  | getBlockHeader (e : BlockTree.Error)
  | syncDatabase (message : String)
  deriving DecidableEq

/-- Events that can be produced by the network, and delegated to the chain side.  A request for headers comes
with the channel for its response. -/
inductive ChainNetworkEvent where
  | incomingNewBlockHeader (header : Header)
  | incomingTransactions (transactions : List Transaction)
  | getBlockHeaders (channel : ℕ) (request : HeadersRequest)

/-- What the manager asks of its provider, and the responses it gives. -/
inductive Sent where
  | broadcastBlockHeader (header : Header)
  | broadcastTransactions (transactions : List Transaction)
  | getClosestPeers
  | response (channel : ℕ) (headers : List Header)

structure ChainNetworkManager where
  chain : Db
  /-- What went through `provider` and the response channels, oldest first. -/
  sent : List Sent
  pool : PoolTx
  /-- A list of sync request that is in progress. -/
  syncRequests : List SyncHeaderBuilder
  /-- The broadcasts in progress. -/
  broadcastRequests : List Sent
  /-- A request to get closest peers for sync process, with the header it was made for. -/
  closestPeersRequestForSync : Option Header
  /-- Prevent redundant sync request. -/
  pendingSyncRequest : Bool
  /-- Prevent redundant sync of same header. -/
  broadcastedHeaders : Finset String

/-- What a poll meets. -/
structure PollInput where
  events : List ChainNetworkEvent
  /-- The outcome of the closest peers request, once it is there. -/
  peers : Option (RequestResponse (List PeerId))
  /-- The downloads that complete: the place in the list, and the output. -/
  syncs : List (ℕ × SyncHeaderOutput)
  /-- The broadcasts that complete. -/
  broadcasts : List (ℕ × RequestResponse Unit)

namespace ChainNetworkManager

def new (chain : Db) (pool : PoolTx) : ChainNetworkManager where
  chain
  sent := []
  pool
  syncRequests := []
  broadcastRequests := []
  closestPeersRequestForSync := none
  pendingSyncRequest := false
  broadcastedHeaders := ∅

variable (P : Platform)

/-- `self.chain.tip().expect(..)`. -/
def tip (m : ChainNetworkManager) : Except Panic Header :=
  match (Chain.tip P).eval m.chain with
  | .ok t => .ok t
  | .error (.error e) => .error (.tip e)
  | .error (.panic p) => .error (.chain p)

/-- Give something to the provider to broadcast. -/
def broadcast (m : ChainNetworkManager) (x : Sent) : ChainNetworkManager :=
  { m with sent := m.sent ++ [x], broadcastRequests := m.broadcastRequests ++ [x] }

/-- We got closest peers from network and ready to sync header. -/
def sendSyncRequests (m : ChainNetworkManager) (header : Header) (peers : List PeerId) :
    Except Panic ChainNetworkManager := do
  let localHeader ← m.tip P
  return { m with syncRequests := m.syncRequests ++ peers.map fun peer =>
    { peerId := some peer, localHeadBlock := localHeader.number, targetHead := header.number } }

/-- Getting block header from chain and return in validable order (preserve order from early to latest
block): `n` headers at most, from `number` on. -/
def headersFrom (chain : Db) : (n : ℕ) → (number : UInt64) → Except Panic (List Header)
  | 0, _ => .ok []
  | n + 1, number =>
    match (Chain.getHeaderByBlockNumber P number).eval chain with
    | .ok header =>
      match (P.add header.number 1).eval chain with
      | .ok next => (headersFrom chain n next).map (header :: ·)
      | .error (.error e) => .error (.getBlockHeader e)
      | .error (.panic p) => .error (.chain p)
    -- request limit might exceed chain tip, we just return what we have
    | .error (.error .blockHeaderNotFound) => .ok []
    | .error (.error e) => .error (.getBlockHeader e)
    | .error (.panic p) => .error (.chain p)

def handleGetBlockHeadersRequest (m : ChainNetworkManager) (request : HeadersRequest) :
    Except Panic (List Header) :=
  headersFrom P m.chain request.limit.toNat request.startBlock

/-- An incoming header that lacks its parent: broadcast it once, and start to sync unless that is under way. -/
def onMissingParent (m : ChainNetworkManager) (header : Header) : ChainNetworkManager :=
  let m := if header.hash.text ∉ m.broadcastedHeaders then
      { m.broadcast (.broadcastBlockHeader header) with
        broadcastedHeaders := insert header.hash.text m.broadcastedHeaders }
    else m
  if m.closestPeersRequestForSync.isNone ∧ ¬ m.pendingSyncRequest then
    { m with pendingSyncRequest := true, sent := m.sent ++ [.getClosestPeers],
             closestPeersRequestForSync := some header }
  else m

def onNewBlockHeader (m : ChainNetworkManager) (header : Header) : Except Panic ChainNetworkManager :=
  match (Chain.tryAddBlockHeader P header).runOn m.chain with
  -- only broadcast if this block extend tip
  | (.ok .extendTip, chain) => .ok ({ m with chain }.broadcast (.broadcastBlockHeader header))
  | (.ok .alreadyInChain, chain) => .ok { m with chain }
  | (.error (.error .blockHeaderNotFound), chain) => do
    let _ ← { m with chain }.tip P
    return { m with chain }.onMissingParent header
  | (.error (.error .invalid), chain) => .ok { m with chain }
  | (.error (.error e), _) => .error (.addBlockHeader e)
  | (.error (.panic p), _) => .error (.chain p)

def onEvent (m : ChainNetworkManager) : ChainNetworkEvent → Except Panic ChainNetworkManager
  | .incomingNewBlockHeader header => m.onNewBlockHeader P header
  | .incomingTransactions transactions =>
    .ok ({ m with pool := (m.pool.addTransactions transactions).1 }.broadcast
      (.broadcastTransactions transactions))
  | .getBlockHeaders channel request => do
    let headers ← m.handleGetBlockHeadersRequest P request
    return { m with sent := m.sent ++ [.response channel headers] }

/-! ## The stages of a poll -/

/-- Handle all events that are there. -/
def pollEvents (m : ChainNetworkManager) : List ChainNetworkEvent → Except Panic ChainNetworkManager
  | [] => .ok m
  | event :: events => do pollEvents (← m.onEvent P event) events

/-- Look at the closest peers request. -/
def pollPeers (m : ChainNetworkManager) (peers : Option (RequestResponse (List PeerId))) :
    Except Panic ChainNetworkManager :=
  match m.closestPeersRequestForSync, peers with
  | some header, some (.ok peers) => { m with closestPeersRequestForSync := none }.sendSyncRequests P header peers
  | some _, some (.error _) => .ok { m with closestPeersRequestForSync := none }
  | _, _ => .ok m

/-- Add downloaded headers, up to the first one that is rejected. -/
def addHeaders (m : ChainNetworkManager) : List Header → Except Panic ChainNetworkManager
  | [] => .ok m
  | header :: headers =>
    match (Chain.tryAddBlockHeader P header).runOn m.chain with
    | (.error (.error .invalid), chain) => .ok { m with chain }
    | (.error (.error .blockHeaderNotFound), chain) => .ok { m with chain }
    | (.error (.error (.databaseError e)), _) => .error (.syncDatabase e)
    | (.error (.panic p), _) => .error (.chain p)
    | (.ok _, chain) => addHeaders { m with chain } headers

/-- The output of a download. -/
def onSyncOutput (m : ChainNetworkManager) : SyncHeaderOutput → Except Panic ChainNetworkManager
  | .ok headers => do
    let m ← m.addHeaders P headers
    let _ ← m.tip P
    -- we are done with this sync request, so we can send new sync request
    return { m with pendingSyncRequest := false }
  | .error _ => .ok m

/-- Look at the downloads, until none is ready. -/
def pollSyncs (m : ChainNetworkManager) : List (ℕ × SyncHeaderOutput) → Except Panic ChainNetworkManager
  | [] => .ok m
  | (i, output) :: syncs =>
    if i < m.syncRequests.length then do
      pollSyncs (← { m with syncRequests := m.syncRequests.eraseIdx i }.onSyncOutput P output) syncs
    else .ok m

/-- Look at the broadcasts, until none is ready.  Their results are only logged. -/
def pollBroadcasts (m : ChainNetworkManager) : List (ℕ × RequestResponse Unit) → ChainNetworkManager
  | [] => m
  | (i, _) :: broadcasts =>
    if i < m.broadcastRequests.length then
      pollBroadcasts { m with broadcastRequests := m.broadcastRequests.eraseIdx i } broadcasts
    else m

def poll (m : ChainNetworkManager) (input : PollInput) : Except Panic ChainNetworkManager := do
  -- we poll the event first since it is the one who drive the state here
  let m ← m.pollEvents P input.events
  let m ← m.pollPeers P input.peers
  let m ← m.pollSyncs P input.syncs
  return m.pollBroadcasts input.broadcasts

end ChainNetworkManager

end Simb.Net
