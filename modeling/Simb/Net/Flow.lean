import Simb.Net.Gossip
import Simb.Net.Serving

/-!
# What goes through a node

The logs of a node tell what has gone through it: the gossip messages that were published, the events that went to the
chain side, the headers that were served and received.  For the network task, `command_flows` and `event_flows` say what
a step adds to them; for the chain side, `onEvent_flow` and its like say what comes of an event or a download, and what is
asked of the provider.
-/

namespace Simb.Net

open Simb.BlockTree Simb.Tasks Simb.Lib

/-! ## Logs -/

/-- The gossip message that a request is to publish. -/
def ProviderRequest.message : ProviderRequest → Option GossipMessage
  | .broadcastBlockHeader header => some ⟨blockHeaderTopic, Header.rlp.encode header⟩
  | .broadcastTransactions transactions => some ⟨transactionsTopic, Transaction.encodeAll transactions⟩
  | _ => none

def SwarmCall.message : SwarmCall → Option GossipMessage
  | .publish topic data => some ⟨topic, data⟩
  | _ => none

def SwarmCall.served : SwarmCall → Option (List Header)
  | .sendResponse _ headers => some headers
  | _ => none

def Reply.received : ℕ × Reply → Option (List Header)
  | (_, .headers (.ok response)) => some response
  | _ => none

/-- The event of the chain side that an event of the swarm stands for. -/
def SwarmEvent.forwarded : SwarmEvent → Option ChainNetworkEvent
  | .gossipsub message => message.event
  | .requestResponse (.request channel request) => some (.getBlockHeaders channel request)
  | _ => none

/-- The headers that come in with an event of the swarm. -/
def SwarmEvent.received : SwarmEvent → Option (List Header)
  | .requestResponse (.response _ headers) => some headers
  | _ => none

/-- What was published, oldest first. -/
def NetworkManager.published (n : NetworkManager) : List GossipMessage := n.swarm.filterMap SwarmCall.message

/-- What was served to other nodes. -/
def NetworkManager.served (n : NetworkManager) : List (List Header) := n.swarm.filterMap SwarmCall.served

/-- The headers that came in from other nodes. -/
def Oneshots.received (o : Oneshots) : List (List Header) := o.sent.filterMap Reply.received

/-- The requests that wait for the network task. -/
def Network.requests (s : Network) : List ProviderRequest := s.commandRecv.map NetworkProviderMessage.request

/-! ## The network task -/

/-- What a step of the network task publishes, forwards, serves and receives. -/
structure Flows (n n' : NetworkManager) (o o' : Oneshots) (messages : List GossipMessage)
    (events : List ChainNetworkEvent) (served received : List (List Header)) : Prop where
  published : n'.published = n.published ++ messages
  events : n'.eventSender.sent = n.eventSender.sent ++ events
  connected : n'.eventSender.connected = n.eventSender.connected
  served : n'.served = n.served ++ served
  received : ∀ headers ∈ o'.received, headers ∈ o.received ∨ headers ∈ received

variable {n n' : NetworkManager} {o o' : Oneshots} {a : Answers} {s s' : Network}

theorem Flows.refl (n : NetworkManager) (o : Oneshots) : Flows n n o o [] [] [] [] :=
  ⟨by simp, by simp, rfl, by simp, fun _ h => .inl h⟩

/-- Something is asked of the swarm. -/
theorem Flows.call {messages : List GossipMessage} {events : List ChainNetworkEvent} {served received : List (List Header)}
    (h : Flows n n' o o' messages events served received) (c : SwarmCall) :
    Flows n (n'.call c) o o' (messages ++ c.message.toList) events (served ++ c.served.toList) received := by
  refine ⟨?_, h.events, h.connected, ?_, h.received⟩
  · simp only [NetworkManager.published, NetworkManager.call, List.filterMap_append] at h ⊢
    rw [show n'.swarm.filterMap SwarmCall.message = _ from h.published, List.append_assoc]
    cases c <;> rfl
  · simp only [NetworkManager.served, NetworkManager.call, List.filterMap_append] at h ⊢
    rw [show n'.swarm.filterMap SwarmCall.served = _ from h.served, List.append_assoc]
    cases c <;> rfl

/-- A reply is sent. -/
theorem Flows.send {messages : List GossipMessage} {events : List ChainNetworkEvent} {served : List (List Header)}
    (h : Flows n n' o o messages events served []) {tx : ℕ} {reply : Reply} {message : String}
    (he : o.send tx reply message = .ok o') :
    Flows n n' o o' messages events served (Reply.received (tx, reply)).toList := by
  refine ⟨h.published, h.events, h.connected, h.served, fun headers hmem => ?_⟩
  unfold Oneshots.send at he
  split at he
  · cases he
  · cases he
    rw [Oneshots.received, List.filterMap_append] at hmem
    exact (List.mem_append.mp hmem).imp_right fun hmem => by simpa using hmem

/-- What is kept for later does not show. -/
theorem Flows.keep {m : NetworkManager} {messages : List GossipMessage} {events : List ChainNetworkEvent}
    {served received : List (List Header)} (h : Flows n n' o o' messages events served received)
    (hswarm : m.swarm = n'.swarm) (hsender : m.eventSender = n'.eventSender) :
    Flows n m o o' messages events served received := by
  obtain ⟨hpublished, hevents, hconnected, hserved, hreceived⟩ := h
  refine ⟨?_, by rw [hsender, hevents], by rw [hsender, hconnected], ?_, hreceived⟩
  · rw [← hpublished, NetworkManager.published, hswarm]
    rfl
  · rw [← hserved, NetworkManager.served, hswarm]
    rfl

theorem broadcast_flows {tx : ℕ} {topic : String} {data : List UInt8}
    (he : n.broadcast o a tx topic data = .ok (n', o')) : Flows n n' o o' [⟨topic, data⟩] [] [] [] := by
  have hcall := (Flows.refl n o).call (.publish topic data)
  unfold NetworkManager.broadcast at he
  simp only at he
  split at he
  all_goals
    obtain ⟨o₁, hsend, he⟩ := exists_of_bind_eq_ok he
    cases he
    exact hcall.send hsend

/-- A command publishes its message, if it has one. -/
theorem handleCommand_flows {command : NetworkProviderMessage} (he : n.handleCommand o a command = .ok (n', o')) :
    Flows n n' o o' command.request.message.toList [] [] [] := by
  obtain ⟨request, tx⟩ := command
  have hrefl := Flows.refl n o
  unfold NetworkManager.handleCommand at he
  cases request with
  | startListening addr =>
    simp only at he
    split at he
    · obtain ⟨o₁, hsend, he⟩ := exists_of_bind_eq_ok he
      cases he
      exact (hrefl.call (.listenOn addr)).send hsend
    · cases he
      exact (hrefl.call (.listenOn addr)).keep rfl rfl
  | listenAddrs =>
    obtain ⟨o₁, hsend, he⟩ := exists_of_bind_eq_ok he
    cases he
    exact hrefl.send hsend
  | dial peerId peerAddr =>
    have hdial := hrefl.call (.dial (peerAddr.with (.p2p peerId)))
    simp only at he
    split at he
    · split at he
      · cases he
        exact (hdial.call (.addAddress peerId peerAddr)).keep rfl rfl
      · obtain ⟨o₁, hsend, he⟩ := exists_of_bind_eq_ok he
        cases he
        exact hdial.send hsend
    · cases he
      exact hrefl
  | broadcastTransactions transactions => exact broadcast_flows he
  | broadcastBlockHeader header => exact broadcast_flows he
  | getClosestPeers =>
    cases he
    exact (hrefl.call (.getClosestPeers n.localPeerId)).keep rfl rfl
  | getHeaders peer request =>
    cases he
    exact (hrefl.call (.sendRequest peer request)).keep rfl rfl

/-- The next command, if there is one, is taken and its message published. -/
theorem command_flows (he : s.command a = .ok s') :
    (s.requests = [] ∧ s' = s) ∨ ∃ request, s.requests = request :: s'.requests ∧
      Flows s.manager s'.manager s.oneshots s'.oneshots request.message.toList [] [] [] := by
  unfold Network.command at he
  split at he
  · rename_i hrecv
    cases he
    exact .inl ⟨by simp [Network.requests, hrecv], rfl⟩
  · rename_i command commands hrecv
    obtain ⟨⟨n', o'⟩, h₁, he⟩ := exists_of_bind_eq_ok he
    cases he
    exact .inr ⟨command.request, by simp [Network.requests, hrecv], handleCommand_flows h₁⟩

theorem handleMdnsEvent_flows (n : NetworkManager) (o : Oneshots) (event : MdnsEvent) :
    Flows n (n.handleMdnsEvent event) o o [] [] [] [] := by
  -- for every address of the list there are two calls, and neither publishes or serves anything
  have hfold : ∀ (f g : PeerId × Multiaddr → SwarmCall) (list : List (PeerId × Multiaddr)) (m : NetworkManager),
      (∀ x, (f x).message = none ∧ (g x).message = none ∧ (f x).served = none ∧ (g x).served = none) →
      Flows n m o o [] [] [] [] → Flows n (list.foldl (fun n x => (n.call (f x)).call (g x)) m) o o [] [] [] [] := by
    intro f g list m hcalls hm
    induction list generalizing m with
    | nil => exact hm
    | cons x list ih =>
      obtain ⟨hf, hg, hf', hg'⟩ := hcalls x
      have hnext := (hm.call (f x)).call (g x)
      simp only [hf, hg, hf', hg', Option.toList_none, List.append_nil] at hnext
      exact ih _ hnext
  cases event with
  | discovered list =>
    exact hfold (fun x => .addExplicitPeer x.1) (fun x => .addAddress x.1 x.2) list n
      (fun _ => ⟨rfl, rfl, rfl, rfl⟩) (.refl n o)
  | expired list =>
    exact hfold (fun x => .removeExplicitPeer x.1) (fun x => .removeAddress x.1 x.2) list n
      (fun _ => ⟨rfl, rfl, rfl, rfl⟩) (.refl n o)

theorem settleDial_flows {peerId : PeerId} {response : RequestResponse Unit}
    (he : n.settleDial o peerId response = .ok (n', o')) : Flows n n' o o' [] [] [] [] := by
  unfold NetworkManager.settleDial at he
  split at he
  · obtain ⟨o₁, hsend, he⟩ := exists_of_bind_eq_ok he
    cases he
    exact ((Flows.refl n o).send hsend).keep rfl rfl
  · cases he
    exact .refl n o

theorem settleListening_flows {listenerId : ℕ} (he : n.settleListening o listenerId = .ok (n', o')) :
    Flows n n' o o' [] [] [] [] := by
  unfold NetworkManager.settleListening at he
  split at he
  · obtain ⟨o₁, hsend, he⟩ := exists_of_bind_eq_ok he
    cases he
    exact ((Flows.refl n o).send hsend).keep rfl rfl
  · cases he
    exact .refl n o

theorem handleKadEvent_flows {event : KadEvent} (he : n.handleKadEvent o event = .ok (n', o')) :
    Flows n n' o o' [] [] [] [] := by
  unfold NetworkManager.handleKadEvent at he
  split at he
  · split at he
    · obtain ⟨o₁, hsend, he⟩ := exists_of_bind_eq_ok he
      cases he
      exact ((Flows.refl n o).send hsend).keep rfl rfl
    · cases he
      exact .refl n o
  · cases he
    exact .refl n o

/-- The headers of a response are received, if it was waited for. -/
theorem respondHeaders_flows {requestId : ℕ} {response : RequestResponse HeadersResponse} {message : String}
    (he : n.respondHeaders o requestId response message = .ok (n', o')) :
    Flows n n' o o' [] [] [] response.toOption.toList := by
  unfold NetworkManager.respondHeaders at he
  split at he
  · rename_i command hcommand
    obtain ⟨o₁, hsend, he⟩ := exists_of_bind_eq_ok he
    cases he
    have hflows := ((Flows.refl n o).send hsend).keep (m := { n with
      pendingRequestHeaders := n.pendingRequestHeaders.erase requestId }) rfl rfl
    cases response <;> exact hflows
  · cases he
    have hrefl := Flows.refl n o
    exact ⟨hrefl.published, hrefl.events, rfl, hrefl.served, fun _ h => .inl h⟩

theorem handleRequestResponseHeaderEvent_flows (hn : n.eventSender.connected = true) {event : HeadersEvent}
    (he : n.handleRequestResponseHeaderEvent o event = .ok (n', o')) :
    Flows n n' o o' [] (SwarmEvent.requestResponse event).forwarded.toList []
      (SwarmEvent.requestResponse event).received.toList := by
  unfold NetworkManager.handleRequestResponseHeaderEvent at he
  cases event with
  | request channel request =>
    obtain ⟨n₁, h₁, he⟩ := exists_of_bind_eq_ok he
    cases he
    unfold NetworkManager.forward at h₁
    rw [if_pos hn] at h₁
    cases h₁
    have hrefl := Flows.refl n o
    exact ⟨hrefl.published, rfl, rfl, hrefl.served, hrefl.received⟩
  | response requestId response => exact respondHeaders_flows he
  | outboundFailure requestId => exact respondHeaders_flows he
  | inboundFailure =>
    cases he
    exact .refl n o
  | responseSent =>
    cases he
    exact .refl n o

/-- An event is forwarded if it stands for one of the chain side, and its headers are received. -/
theorem handleEvent_flows (hn : n.eventSender.connected = true) {event : SwarmEvent}
    (he : n.handleEvent o event = .ok (n', o')) :
    Flows n n' o o' [] event.forwarded.toList [] event.received.toList := by
  unfold NetworkManager.handleEvent at he
  cases event with
  | mdns event =>
    cases he
    exact handleMdnsEvent_flows n o event
  | gossipsub message =>
    obtain ⟨n₁, h₁, he⟩ := exists_of_bind_eq_ok he
    cases he
    rcases handleGossipsubMessage_cases hn message with ⟨-, hok⟩ | ⟨-, -, p, herror⟩
    · cases hok.symm.trans h₁
      have hrefl := Flows.refl n o
      exact ⟨hrefl.published, rfl, rfl, hrefl.served, hrefl.received⟩
    · cases herror.symm.trans h₁
  | kad event => exact handleKadEvent_flows he
  | requestResponse event => exact handleRequestResponseHeaderEvent_flows hn he
  | connectionEstablished peerId isDialer =>
    simp only at he
    split at he
    · exact settleDial_flows he
    · cases he
      exact .refl n o
  | outgoingConnectionError peerId =>
    cases peerId with
    | some peerId => exact settleDial_flows he
    | none =>
      cases he
      exact .refl n o
  | newListenAddr listenerId => exact settleListening_flows he
  | other =>
    cases he
    exact .refl n o

theorem event_flows (hn : s.manager.eventSender.connected = true) {event : SwarmEvent} (he : s.event event = .ok s') :
    s'.requests = s.requests ∧
      Flows s.manager s'.manager s.oneshots s'.oneshots [] event.forwarded.toList [] event.received.toList := by
  obtain ⟨⟨n', o'⟩, h₁, he⟩ := exists_of_bind_eq_ok he
  cases he
  exact ⟨rfl, handleEvent_flows hn h₁⟩

/-- The response of the chain side to a request of a peer is served. -/
theorem handleResponseBlockHeaders_flows (n : NetworkManager) (o : Oneshots) (i : ℕ) (headers : List Header) :
    Flows n (n.handleResponseBlockHeaders i (.ok headers)) o o [] [] [] [] ∨
      Flows n (n.handleResponseBlockHeaders i (.ok headers)) o o [] [] [headers] [] := by
  unfold NetworkManager.handleResponseBlockHeaders
  split
  · rename_i channel hchannel
    have hflows := ((Flows.refl n o).keep (m := { n with incomingPeerRequests := n.incomingPeerRequests.eraseIdx i })
      rfl rfl).call (.sendResponse channel headers)
    exact .inr hflows
  · exact .inl (.refl n o)

/-! ## The chain side -/

/-- A ledger that has taken in some of `new`: it is not shorter, and all else in it was there. -/
structure Absorbs (L L' new : List Header) : Prop where
  length_le : L.length ≤ L'.length
  mem : ∀ b ∈ L', b ∈ L ∨ b ∈ new

theorem Absorbs.refl (L : List Header) : Absorbs L L [] := ⟨le_rfl, fun _ h => .inl h⟩

theorem Absorbs.mono {L L' new new' : List Header} (h : Absorbs L L' new) (hsub : ∀ b ∈ new, b ∈ new') :
    Absorbs L L' new' := ⟨h.length_le, fun b hb => (h.mem b hb).imp_right (hsub b)⟩

theorem Absorbs.trans {L L' L'' new new' : List Header} (h : Absorbs L L' new) (h' : Absorbs L' L'' new') :
    Absorbs L L'' (new ++ new') where
  length_le := h.length_le.trans h'.length_le
  mem b hb := by
    rcases h'.mem b hb with hb | hb
    · exact (h.mem b hb).imp_right fun hb => List.mem_append_left _ hb
    · exact .inr (List.mem_append_right _ hb)

theorem absorbs_put {L : List Header} {header : Header} (hle : height header ≤ L.length) :
    Absorbs L (put height L header) [header] where
  length_le := by
    rw [length_put hle]
    omega
  mem b hb := by
    unfold put at hb
    split at hb
    · exact (List.mem_or_eq_of_mem_set hb).imp_right List.mem_singleton.mpr
    · exact List.mem_append.mp hb

theorem absorbs_addHeader (P : Platform) (L : List Header) (header : Header) :
    Absorbs L (addHeader P L header) [header] := by
  unfold addHeader
  split
  · rename_i hv
    exact absorbs_put (height_le_of_validate hv)
  · exact (Absorbs.refl L).mono fun b hb => absurd hb List.not_mem_nil

/-- The header that comes in with an event. -/
def ChainNetworkEvent.header : ChainNetworkEvent → Option Header
  | .incomingNewBlockHeader header => some header
  | _ => none

/-- What may be asked of the provider on an event, with the ledger `L`. -/
def Sent.On (L : List Header) (event : ChainNetworkEvent) : Sent → Prop
  | .broadcastBlockHeader header => event = .incomingNewBlockHeader header
  | .broadcastTransactions transactions => event = .incomingTransactions transactions
  | .getClosestPeers => True
  | .response _ headers => ∀ b ∈ headers, b ∈ L

section

variable {P : Platform} {m m' : ChainNetworkManager} {L : List Header}

/-- Headers that are served are in the ledger. -/
theorem mem_of_headersFrom {db : Db} (h : db.Stores P L) {k : ℕ} {number : UInt64} {headers : List Header}
    (he : ChainNetworkManager.headersFrom P db k number = .ok headers) : ∀ b ∈ headers, b ∈ L := by
  induction k generalizing number headers with
  | zero =>
    cases he
    simp
  | succ k ih =>
    rw [headersFrom_succ h] at he
    cases hget : L[number.toNat]? with
    | none =>
      simp only [hget] at he
      cases he
      simp
    | some c =>
      simp only [hget] at he
      split at he
      · cases he
      · cases hrest : ChainNetworkManager.headersFrom P db k (number + 1) with
        | error e => simp [hrest, Except.map] at he
        | ok rest =>
          simp only [hrest, Except.map, Except.ok.injEq] at he
          subst he
          intro b hb
          rcases List.mem_cons.mp hb with rfl | hb
          · exact List.mem_of_getElem? hget
          · exact ih hrest b hb

/-- **What comes of an event.**  The ledger takes in the header of the event, if anything, and what is asked of the
provider passes on what came in or serves what is stored. -/
theorem onEvent_flow (h : m.chain.Stores P L) {event : ChainNetworkEvent} (he : m.onEvent P event = .ok m') :
    ∃ L' new, m'.chain.Stores P L' ∧ Absorbs L L' event.header.toList ∧ m'.sent = m.sent ++ new ∧
      ∀ x ∈ new, x.On L event := by
  cases event with
  | incomingNewBlockHeader header =>
    have hsame : Absorbs L L [header] := (Absorbs.refl L).mono fun b hb => absurd hb List.not_mem_nil
    rcases onNewBlockHeader_ledger h he with ⟨-, hheight, rfl⟩ | ⟨-, hheight, rfl⟩ | ⟨-, rfl⟩ | ⟨-, rfl⟩
    · refine ⟨_, [.broadcastBlockHeader header], h.insertHeader hheight.le, absorbs_put hheight.le, rfl, ?_⟩
      simp [Sent.On]
    · exact ⟨_, [], h.insertHeader hheight.le, absorbs_put hheight.le, by simp, by simp⟩
    · rw [ChainNetworkManager.onMissingParent_eq]
      refine ⟨L, _, h, hsame, rfl, ?_⟩
      intro x hx
      split_ifs at hx <;> simp at hx
      all_goals
        first
          | (subst hx; simp [Sent.On])
          | (rcases hx with rfl | rfl <;> simp [Sent.On])
    · exact ⟨L, [], h, hsame, by simp, by simp⟩
  | incomingTransactions transactions =>
    cases he
    exact ⟨L, [.broadcastTransactions transactions], h, .refl L, rfl, by simp [Sent.On]⟩
  | getBlockHeaders channel request =>
    obtain ⟨headers, hheaders, he⟩ := exists_of_bind_eq_ok he
    cases he
    refine ⟨L, [.response channel headers], h, .refl L, rfl, ?_⟩
    intro x hx
    rw [List.mem_singleton.mp hx]
    exact mem_of_headersFrom h hheaders

/-- What comes of the headers of a download. -/
theorem addHeaders_flow (h : m.chain.Stores P L) {headers : List Header} (he : m.addHeaders P headers = .ok m') :
    ∃ chain L', m' = { m with chain } ∧ chain.Stores P L' ∧ Absorbs L L' headers := by
  induction headers generalizing m L with
  | nil =>
    cases he
    exact ⟨_, L, rfl, h, .refl L⟩
  | cons header headers ih =>
    have hexec := h.tryAdd header
    rw [ChainM.exec_eq] at hexec
    have hone : Absorbs L (addHeader P L header) (header :: headers) :=
      (absorbs_addHeader P L header).mono fun b hb => List.mem_cons.mpr (.inl (List.mem_singleton.mp hb))
    unfold ChainNetworkManager.addHeaders at he
    split at he
    · rename_i hr
      rw [hr] at hexec
      cases he
      exact ⟨_, _, rfl, hexec, hone⟩
    · rename_i hr
      rw [hr] at hexec
      cases he
      exact ⟨_, _, rfl, hexec, hone⟩
    · cases he
    · cases he
    · rename_i hr
      rw [hr] at hexec
      obtain ⟨chain, L', rfl, hL', habs⟩ := ih (m := { m with chain := _ }) hexec he
      exact ⟨chain, L', rfl, hL', ((absorbs_addHeader P L header).trans habs)⟩

/-- What comes of a download that has ended. -/
theorem pollSyncs_flow (h : m.chain.Stores P L) {k : ℕ} {output : SyncHeaderOutput}
    (he : m.pollSyncs P [(k, output)] = .ok m') :
    ∃ L', m'.chain.Stores P L' ∧ Absorbs L L' (output.toOption.getD []) ∧ m'.sent = m.sent ∧ m'.pool = m.pool := by
  unfold ChainNetworkManager.pollSyncs at he
  split at he
  · obtain ⟨m₁, h₁, he⟩ := exists_of_bind_eq_ok he
    cases he
    cases output with
    | error e =>
      cases h₁
      exact ⟨L, h, .refl L, rfl, rfl⟩
    | ok headers =>
      obtain ⟨m₂, h₂, h₁⟩ := exists_of_bind_eq_ok h₁
      obtain ⟨t, -, h₁⟩ := exists_of_bind_eq_ok h₁
      cases h₁
      obtain ⟨chain, L', rfl, hL', habs⟩ :=
        addHeaders_flow (m := { m with syncRequests := m.syncRequests.eraseIdx k }) h h₂
      exact ⟨L', hL', habs, rfl, rfl⟩
  · cases he
    exact ⟨L, h, (Absorbs.refl L).mono fun b hb => absurd hb List.not_mem_nil, rfl, rfl⟩

end

end Simb.Net
