import Simb.Net.HeaderRequests

/-!
# The network task (`net/network.rs`, `net/provider.rs`)

`NetworkManager` drives the swarm.  It takes commands from the clones of `NetworkProvider`, each with the sender of a
oneshot channel for its reply, and events from libp2p.  A command that cannot be answered at once leaves its sender
in one of four maps, under the id that libp2p gives to the request or under the peer that is dialed, and an event takes
it out again.  Headers, transactions and requests that come from other nodes go on to the chain side.

libp2p is outside: what is asked of it is recorded, and what it answers while a command is handled is in `Answers`.
-/

namespace Simb.Net

open Simb.Lib

/-! ## What is exchanged -/

/-- A component of an address. -/
inductive Protocol where
  | p2p (peer : PeerId)
  | other (text : String)
  deriving DecidableEq

/-- libp2p's `Multiaddr`. -/
structure Multiaddr where
  protocols : List Protocol
  deriving DecidableEq

def Multiaddr.with (addr : Multiaddr) (protocol : Protocol) : Multiaddr := ⟨addr.protocols ++ [protocol]⟩

/-- The order of a map from peers is never seen. -/
instance : Ord PeerId := ⟨fun a b => compare a.bytes b.bytes⟩

instance : Std.TransOrd PeerId where
  eq_swap := Std.OrientedOrd.eq_swap (α := List UInt8)
  isLE_trans := Std.TransOrd.isLE_trans (α := List UInt8)

instance : Std.LawfulEqOrd PeerId where
  compare_self := Std.ReflOrd.compare_self (α := List UInt8)
  eq_of_compare {a b} h := by
    cases a
    cases b
    exact congrArg PeerId.mk (Std.LawfulEqOrd.eq_of_compare h)

/-- What a message asks for. -/
inductive ProviderRequest where
  | getClosestPeers
  | broadcastBlockHeader (header : Header)
  | broadcastTransactions (transactions : List Transaction)
  | getHeaders (peer : PeerId) (request : HeadersRequest)
  | dial (peerId : PeerId) (peerAddr : Multiaddr)
  | listenAddrs
  | startListening (addr : Multiaddr)
  deriving DecidableEq

/-- Message send to the network task.  Each carries the sender for its reply. -/
structure NetworkProviderMessage where
  request : ProviderRequest
  tx : ℕ

/-- What is sent back.  Each kind of message has one kind of reply. -/
inductive Reply where
  | unit (response : RequestResponse Unit)
  | addrs (response : RequestResponse (List Multiaddr))
  | peers (response : RequestResponse (List PeerId))
  | headers (response : RequestResponse HeadersResponse)

/-- `BLOCK_HEADER`. -/
def blockHeaderTopic : String := "/lightlayer/block_header"

/-- `TRANSACTIONS`. -/
def transactionsTopic : String := "/lightlayer/transactions"

/-- A message of the gossip protocol. -/
structure GossipMessage where
  topic : String
  data : List UInt8

inductive MdnsEvent where
  | discovered (list : List (PeerId × Multiaddr))
  | expired (list : List (PeerId × Multiaddr))

/-- The result of a query for the closest peers. -/
inductive GetClosestPeersResult where
  | ok (peers : List PeerId)
  | timeout

/-- Events of the routing protocol.  The other ones are only logged. -/
inductive KadEvent where
  | getClosestPeers (id : ℕ) (result : GetClosestPeersResult)
  | other

/-- Events of the swarm. -/
inductive SwarmEvent where
  | mdns (event : MdnsEvent)
  | gossipsub (message : GossipMessage)
  | kad (event : KadEvent)
  | requestResponse (event : HeadersEvent)
  | connectionEstablished (peerId : PeerId) (isDialer : Bool)
  | outgoingConnectionError (peerId : Option PeerId)
  | newListenAddr (listenerId : ℕ)
  | other

/-- What is asked of the swarm. -/
inductive SwarmCall where
  | listenOn (addr : Multiaddr)
  | dial (addr : Multiaddr)
  | publish (topic : String) (data : List UInt8)
  | getClosestPeers (peer : PeerId)
  | sendRequest (peer : PeerId) (request : HeadersRequest)
  | sendResponse (channel : ℕ) (headers : List Header)
  | addAddress (peer : PeerId) (addr : Multiaddr)
  | removeAddress (peer : PeerId) (addr : Multiaddr)
  | addExplicitPeer (peer : PeerId)
  | removeExplicitPeer (peer : PeerId)
  | bootstrap

/-- What the swarm answers while a command is handled. -/
structure Answers where
  /-- The id of the new listener, unless listening failed. -/
  listenOn : Option ℕ
  listeners : List Multiaddr
  externalAddresses : List Multiaddr
  /-- Whether the dialing was started. -/
  dial : Bool
  /-- Whether the message was published. -/
  publish : Bool
  /-- The id of the query. -/
  getClosestPeers : ℕ
  /-- The id of the request. -/
  sendRequest : ℕ

/-- Everything that is asked of the swarm is granted, with this id. -/
def granted (id : ℕ) : Answers := ⟨some id, [], [], true, true, id, id⟩

/-! ## Channels -/

/-- The panics of the network task, with their texts: the receiver of a reply is gone, the receiver of the events is
gone, or a message does not decode. -/
inductive NetworkManager.Panic where
  | reply (tx : ℕ) (message : String)
  | event (message : String)
  | decode (message : String)
  deriving DecidableEq

/-- The oneshot channels of the replies. -/
structure Oneshots where
  /-- The channels that were made. -/
  next : ℕ
  /-- What was sent, oldest first. -/
  sent : List (ℕ × Reply)
  /-- The channels whose receiver is gone. -/
  dropped : Finset ℕ

/-- Send a reply, or panic if its receiver is gone. -/
def Oneshots.send (o : Oneshots) (tx : ℕ) (reply : Reply) (message : String) :
    Except NetworkManager.Panic Oneshots :=
  if tx ∈ o.dropped then .error (.reply tx message) else .ok { o with sent := o.sent ++ [(tx, reply)] }

/-- The channel to the chain side. -/
structure EventSender where
  sent : List ChainNetworkEvent
  /-- Whether the receiver is there. -/
  connected : Bool

/-! ## NetworkManager -/

structure NetworkManager where
  localPeerId : PeerId
  /-- What was asked of the swarm, oldest first. -/
  swarm : List SwarmCall
  eventSender : EventSender
  pendingRequestHeaders : Table ℕ GetHeadersRequest
  pendingGetClosestPeers : Table ℕ ℕ
  pendingDial : Table PeerId ℕ
  pendingListening : Table ℕ ℕ
  /-- The requests of peers that the chain side has not answered. -/
  incomingPeerRequests : List ℕ

namespace NetworkManager

def new (localPeerId : PeerId) : NetworkManager where
  localPeerId
  swarm := []
  eventSender := ⟨[], true⟩
  pendingRequestHeaders := ∅
  pendingGetClosestPeers := ∅
  pendingDial := ∅
  pendingListening := ∅
  incomingPeerRequests := []

def call (n : NetworkManager) (c : SwarmCall) : NetworkManager := { n with swarm := n.swarm ++ [c] }

/-- `event_sender.send`, or panic if the receiver is gone. -/
def forward (n : NetworkManager) (event : ChainNetworkEvent) (message : String) : Except Panic NetworkManager :=
  if n.eventSender.connected then
    .ok { n with eventSender := { n.eventSender with sent := n.eventSender.sent ++ [event] } }
  else .error (.event message)

/-- The two broadcasts: publish, and reply whether it went well. -/
def broadcast (n : NetworkManager) (o : Oneshots) (a : Answers) (tx : ℕ) (topic : String) (data : List UInt8) :
    Except Panic (NetworkManager × Oneshots) := do
  let n := n.call (.publish topic data)
  if a.publish then
    return (n, ← o.send tx (.unit (.ok ())) "Reciever not to be dropped")
  else
    return (n, ← o.send tx (.unit (.error .publishError)) "Receiver not to be dropped")

def handleCommand (n : NetworkManager) (o : Oneshots) (a : Answers) (command : NetworkProviderMessage) :
    Except Panic (NetworkManager × Oneshots) :=
  let tx := command.tx
  match command.request with
  | .startListening addr => do
    let n := n.call (.listenOn addr)
    match a.listenOn with
    | none => return (n, ← o.send tx (.unit (.error .transportError)) "Reciever not dropped")
    | some listenerId => return ({ n with pendingListening := n.pendingListening.insert listenerId tx }, o)
  | .listenAddrs => do
    return (n, ← o.send tx (.addrs (.ok (a.listeners ++ a.externalAddresses))) "Reciever not dropped")
  | .dial peerId peerAddr => do
    match n.pendingDial[peerId]? with
    | none =>
      let n := n.call (.dial (peerAddr.with (.p2p peerId)))
      if a.dial then
        return ({ n.call (.addAddress peerId peerAddr) with pendingDial := n.pendingDial.insert peerId tx }, o)
      else
        return (n, ← o.send tx (.unit (.error .dialError)) "Reciever not dropped")
    -- already dialing, and the sender goes out of scope
    | some _ => return (n, o)
  | .broadcastTransactions transactions => n.broadcast o a tx transactionsTopic (Transaction.encodeAll transactions)
  | .broadcastBlockHeader header => n.broadcast o a tx blockHeaderTopic (Header.rlp.encode header)
  | .getClosestPeers =>
    .ok ({ n.call (.getClosestPeers n.localPeerId) with
      pendingGetClosestPeers := n.pendingGetClosestPeers.insert a.getClosestPeers tx }, o)
  | .getHeaders peer request =>
    .ok ({ n.call (.sendRequest peer request) with
      pendingRequestHeaders := n.pendingRequestHeaders.insert a.sendRequest ⟨peer, request, tx⟩ }, o)

def handleMdnsEvent (n : NetworkManager) : MdnsEvent → NetworkManager
  | .discovered list =>
    list.foldl (fun n (peerId, addr) => (n.call (.addExplicitPeer peerId)).call (.addAddress peerId addr)) n
  | .expired list =>
    list.foldl (fun n (peerId, addr) => (n.call (.removeExplicitPeer peerId)).call (.removeAddress peerId addr)) n

def handleKadEvent (n : NetworkManager) (o : Oneshots) : KadEvent → Except Panic (NetworkManager × Oneshots)
  | .getClosestPeers id result =>
    match n.pendingGetClosestPeers[id]? with
    | some sender => do
      let response : RequestResponse (List PeerId) :=
        match result with
        | .ok peers => .ok peers
        | .timeout => .error .timeout
      let o ← o.send sender (.peers response) "Reciever not to dropped"
      return ({ n with pendingGetClosestPeers := n.pendingGetClosestPeers.erase id }, o)
    | none => .ok (n, o)
  | .other => .ok (n, o)

/-- The response or the failure of a request for headers. -/
def respondHeaders (n : NetworkManager) (o : Oneshots) (requestId : ℕ) (response : RequestResponse HeadersResponse)
    (message : String) : Except Panic (NetworkManager × Oneshots) :=
  match n.pendingRequestHeaders[requestId]? with
  | some command => do
    let o ← o.send command.sender (.headers response) message
    return ({ n with pendingRequestHeaders := n.pendingRequestHeaders.erase requestId }, o)
  | none => .ok (n, o)

def handleRequestResponseHeaderEvent (n : NetworkManager) (o : Oneshots) :
    HeadersEvent → Except Panic (NetworkManager × Oneshots)
  | .request channel request => do
    let n ← n.forward (.getBlockHeaders channel request) "Chain network receiver not dropped."
    return ({ n with incomingPeerRequests := n.incomingPeerRequests ++ [channel] }, o)
  | .response requestId response => n.respondHeaders o requestId (.ok response) "Receiver not to dropped."
  | .outboundFailure requestId => n.respondHeaders o requestId (.error .outboundFailure) "Receiver dropped"
  | .inboundFailure => .ok (n, o)
  | .responseSent => .ok (n, o)

/-- What was decoded goes to the chain side. -/
def forwardDecoded {α : Type} (n : NetworkManager) (decoded : Option (α × List UInt8)) (event : α → ChainNetworkEvent)
    (notDecoded dropped : String) : Except Panic NetworkManager :=
  match decoded with
  | some (a, _) => n.forward (event a) dropped
  | none => .error (.decode notDecoded)

def handleGossipsubMessage (n : NetworkManager) (message : GossipMessage) : Except Panic NetworkManager := do
  let n ← (if message.topic = blockHeaderTopic then
      n.forwardDecoded (Header.rlp.decode message.data) .incomingNewBlockHeader
        "decode header" "receiver dropped when sending new block header"
    else .ok n)
  if message.topic = transactionsTopic then
    n.forwardDecoded (Transaction.decodeAll message.data) .incomingTransactions
      "decode transactions" "receiver dropped when sending new transactions"
  else .ok n

/-- The outcome of a dialing. -/
def settleDial (n : NetworkManager) (o : Oneshots) (peerId : PeerId) (response : RequestResponse Unit) :
    Except Panic (NetworkManager × Oneshots) :=
  match n.pendingDial[peerId]? with
  | some sender => do
    let o ← o.send sender (.unit response) "Reciever not dropped"
    return ({ n with pendingDial := n.pendingDial.erase peerId }, o)
  | none => .ok (n, o)

/-- A new address to listen on. -/
def settleListening (n : NetworkManager) (o : Oneshots) (listenerId : ℕ) : Except Panic (NetworkManager × Oneshots) :=
  match n.pendingListening[listenerId]? with
  | some sender => do
    let o ← o.send sender (.unit (.ok ())) "Reciever not dropped"
    return ({ n with pendingListening := n.pendingListening.erase listenerId }, o)
  | none => .ok (n, o)

def handleEvent (n : NetworkManager) (o : Oneshots) : SwarmEvent → Except Panic (NetworkManager × Oneshots)
  | .mdns event => .ok (n.handleMdnsEvent event, o)
  | .gossipsub message => do return (← n.handleGossipsubMessage message, o)
  | .kad event => n.handleKadEvent o event
  | .requestResponse event => n.handleRequestResponseHeaderEvent o event
  | .connectionEstablished peerId isDialer => if isDialer then n.settleDial o peerId (.ok ()) else .ok (n, o)
  | .outgoingConnectionError (some peerId) => n.settleDial o peerId (.error .dialError)
  | .outgoingConnectionError none => .ok (n, o)
  | .newListenAddr listenerId => n.settleListening o listenerId
  | .other => .ok (n, o)

/-- The `i`-th of the requests of peers is answered by the chain side. -/
def handleResponseBlockHeaders (n : NetworkManager) (i : ℕ) (response : RequestResponse (List Header)) :
    NetworkManager :=
  match n.incomingPeerRequests[i]? with
  | some channel =>
    let n := { n with incomingPeerRequests := n.incomingPeerRequests.eraseIdx i }
    match response with
    | .ok headers => n.call (.sendResponse channel headers)
    | .error _ => n
  | none => n

/-! ## Requests for headers -/

/-- The part of the manager that deals with requests for headers. -/
def headerRequests (n : NetworkManager) : HeaderRequests :=
  ⟨n.pendingRequestHeaders, n.eventSender.sent, n.incomingPeerRequests⟩

/-- The channels with these responses sent. -/
def deliver (channels : Channels) (responses : List (ℕ × RequestResponse HeadersResponse)) : Channels :=
  responses.foldl (fun channels x => channels.set x.1 (.full x.2)) channels

/-- Two results of the same event: both go on and send the same responses, or both panic. -/
def Agree (o : Oneshots) (channels : Channels) :
    Except Panic (NetworkManager × Oneshots) → Except NetworkPanic (HeaderRequests × Channels) → Prop
  | .ok (n', o'), .ok (h', channels') =>
    h' = n'.headerRequests ∧ ∃ responses, o' = { o with sent := o.sent ++ responses.map fun x => (x.1, .headers x.2) } ∧
      channels' = deliver channels responses
  | .error _, .error _ => True
  | _, _ => False

variable {n : NetworkManager} {o : Oneshots} {channels : Channels}

theorem respondHeaders_agree (h : ∀ tx, channels[tx]? = some .dropped ↔ tx ∈ o.dropped) (requestId : ℕ)
    (response : RequestResponse HeadersResponse) (message : String) (p : NetworkPanic) :
    Agree o channels (n.respondHeaders o requestId response message)
      (n.headerRequests.respond channels requestId response p) := by
  unfold respondHeaders HeaderRequests.respond
  cases hcommand : n.pendingRequestHeaders[requestId]? with
  | none =>
    rw [show n.headerRequests.pendingRequestHeaders[requestId]? = none from hcommand]
    exact ⟨rfl, [], by simp, rfl⟩
  | some command =>
    rw [show n.headerRequests.pendingRequestHeaders[requestId]? = some command from hcommand]
    by_cases hdropped : command.sender ∈ o.dropped
    · have hsend : o.send command.sender (.headers response) message = .error (.reply command.sender message) :=
        if_pos hdropped
      have hsend' : Oneshot.send channels command.sender response = none := by
        unfold Oneshot.send
        rw [(h command.sender).2 hdropped]
      simp only [hsend, hsend']
      trivial
    · have hsend : o.send command.sender (.headers response) message =
          .ok { o with sent := o.sent ++ [(command.sender, .headers response)] } := if_neg hdropped
      have hsend' : Oneshot.send channels command.sender response =
          some (channels.set command.sender (.full response)) := by
        unfold Oneshot.send
        split
        · rename_i heq
          exact absurd ((h command.sender).1 heq) hdropped
        · rfl
      simp only [hsend, hsend']
      exact ⟨rfl, [(command.sender, response)], rfl, rfl⟩

/-- **The same requests for headers.**  On events of the request-response protocol the manager and its part that deals
with requests for headers do the same, as long as they find the same receivers gone. -/
theorem handleRequestResponseHeaderEvent_agree (hn : n.eventSender.connected = true)
    (h : ∀ tx, channels[tx]? = some .dropped ↔ tx ∈ o.dropped) (event : HeadersEvent) :
    Agree o channels (n.handleRequestResponseHeaderEvent o event)
      (n.headerRequests.handleRequestResponseHeaderEvent channels event) := by
  cases event with
  | request channel request =>
    unfold handleRequestResponseHeaderEvent forward
    simp only [hn, if_true]
    exact ⟨rfl, [], by simp, rfl⟩
  | response requestId response => exact respondHeaders_agree h requestId (.ok response) _ _
  | outboundFailure requestId => exact respondHeaders_agree h requestId (.error .outboundFailure) _ _
  | inboundFailure => exact ⟨rfl, [], by simp, rfl⟩
  | responseSent => exact ⟨rfl, [], by simp, rfl⟩

end NetworkManager

/-! ## The task and its clients -/

/-- The places a sender can be kept in: the four maps, with their keys. -/
inductive Key where
  | request (id : ℕ)
  | query (id : ℕ)
  | peer (peerId : PeerId)
  | listener (id : ℕ)
  deriving DecidableEq

/-- The key of a request: the id that libp2p gives to it, or the peer to dial. -/
def Answers.key (a : Answers) : ProviderRequest → Option Key
  | .getHeaders _ _ => some (.request a.sendRequest)
  | .getClosestPeers => some (.query a.getClosestPeers)
  | .dial peerId _ => some (.peer peerId)
  | .startListening _ => a.listenOn.map .listener
  | .broadcastBlockHeader _ => none
  | .broadcastTransactions _ => none
  | .listenAddrs => none

/-- The network task, and what is between it and its clients. -/
structure Network where
  manager : NetworkManager
  oneshots : Oneshots
  /-- The commands on their way. -/
  commandRecv : List NetworkProviderMessage
  /-- The senders of the commands that were handled, each with the key of its request. -/
  handled : List (ℕ × Option Key)

/-- A step of the task or of a client. -/
inductive NetworkStep where
  /-- A client calls a method of the provider. -/
  | call (request : ProviderRequest)
  /-- A client drops the receiver of a reply. -/
  | drop (tx : ℕ)
  /-- The task handles the next command. -/
  | command (a : Answers)
  /-- The task handles an event. -/
  | event (event : SwarmEvent)
  /-- The chain side answers a request of a peer. -/
  | response (i : ℕ) (response : RequestResponse (List Header))
  /-- It is time to bootstrap. -/
  | bootstrap

namespace Network

def new (localPeerId : PeerId) : Network := ⟨.new localPeerId, ⟨0, [], ∅⟩, [], []⟩

/-- The methods of `NetworkProvider`: a new channel, and a message that carries its sender. -/
def call (s : Network) (request : ProviderRequest) : Network :=
  { s with oneshots := { s.oneshots with next := s.oneshots.next + 1 },
           commandRecv := s.commandRecv ++ [⟨request, s.oneshots.next⟩] }

def drop (s : Network) (tx : ℕ) : Network :=
  { s with oneshots := { s.oneshots with dropped := insert tx s.oneshots.dropped } }

def command (s : Network) (a : Answers) : Except NetworkManager.Panic Network :=
  match s.commandRecv with
  | [] => .ok s
  | command :: commands => do
    let (manager, oneshots) ← s.manager.handleCommand s.oneshots a command
    return { manager, oneshots, commandRecv := commands,
             handled := s.handled ++ [(command.tx, a.key command.request)] }

def event (s : Network) (e : SwarmEvent) : Except NetworkManager.Panic Network := do
  let (manager, oneshots) ← s.manager.handleEvent s.oneshots e
  return { s with manager, oneshots }

/-- One step. -/
def step (s : Network) : NetworkStep → Except NetworkManager.Panic Network
  | .call request => .ok (s.call request)
  -- there must be a receiver to drop
  | .drop tx => .ok (if tx < s.oneshots.next then s.drop tx else s)
  | .command a => s.command a
  | .event e => s.event e
  | .response i response => .ok { s with manager := s.manager.handleResponseBlockHeaders i response }
  | .bootstrap => .ok { s with manager := s.manager.call .bootstrap }

/-- One step of a network whose task may have panicked. -/
def next (r : Except NetworkManager.Panic Network) (x : NetworkStep) : Except NetworkManager.Panic Network :=
  match r with
  | .error p => .error p
  | .ok s => s.step x

end Network

end Simb.Net
