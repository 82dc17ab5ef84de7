import Simb.Net.NetworkSpec

/-!
# Requests for headers on their way

Of what the network task has, only some is about requests for headers: the requests of the node that wait for a response,
those of peers that wait for the chain side, and what was replied and responded.  This is its `Traffic`, and each step of
the task does to it what `Traffic.next` says (`traffic_step`).
-/

namespace Simb.Net

open Simb.Lib

/-- A reply with headers, with its channel. -/
def Reply.reply : ℕ × Reply → Option (ℕ × List Header)
  | (tx, .headers (.ok response)) => some (tx, response)
  | _ => none

/-- A request of a peer, with the channel for the response. -/
def ChainNetworkEvent.arrival : ChainNetworkEvent → Option (ℕ × HeadersRequest)
  | .getBlockHeaders channel request => some (channel, request)
  | _ => none

/-- A response to a peer, with its channel. -/
def SwarmCall.response : SwarmCall → Option (ℕ × List Header)
  | .sendResponse channel headers => some (channel, headers)
  | _ => none

structure Traffic where
  /-- The requests of the node that wait for a response, by the id that libp2p gave to them. -/
  pending : Table ℕ GetHeadersRequest
  replies : List (ℕ × List Header)
  arrivals : List (ℕ × HeadersRequest)
  /-- The channels of the requests that wait for the chain side. -/
  waiting : List ℕ
  responses : List (ℕ × List Header)

def trafficOf (n : NetworkManager) (o : Oneshots) : Traffic where
  pending := n.pendingRequestHeaders
  replies := o.sent.filterMap Reply.reply
  arrivals := n.eventSender.sent.filterMap ChainNetworkEvent.arrival
  waiting := n.incomingPeerRequests
  responses := n.swarm.filterMap SwarmCall.response

def Network.traffic (s : Network) : Traffic := trafficOf s.manager s.oneshots

namespace Traffic

/-- The request with this id has its response, or failed. -/
def settle (t : Traffic) (id : ℕ) (response : RequestResponse HeadersResponse) : Traffic :=
  match t.pending[id]? with
  | some command =>
    { t with pending := t.pending.erase id,
             replies := t.replies ++ response.toOption.toList.map fun headers => (command.sender, headers) }
  | none => t

/-- The traffic after a step of the task, when these commands were on their way. -/
def next (t : Traffic) (commands : List NetworkProviderMessage) : NetworkStep → Traffic
  | .command a =>
    match commands with
    | ⟨.getHeaders peer request, tx⟩ :: _ => { t with pending := t.pending.insert a.sendRequest ⟨peer, request, tx⟩ }
    | _ => t
  | .event (.requestResponse (.request channel request)) =>
    { t with arrivals := t.arrivals ++ [(channel, request)], waiting := t.waiting ++ [channel] }
  | .event (.requestResponse (.response id headers)) => t.settle id (.ok headers)
  | .event (.requestResponse (.outboundFailure id)) => t.settle id (.error .outboundFailure)
  | .response i response =>
    match t.waiting[i]? with
    | some channel =>
      { t with waiting := t.waiting.eraseIdx i,
               responses := t.responses ++ response.toOption.toList.map fun headers => (channel, headers) }
    | none => t
  | _ => t

@[simp] theorem arrivals_settle (t : Traffic) (id : ℕ) (response : RequestResponse HeadersResponse) :
    (t.settle id response).arrivals = t.arrivals := by
  unfold settle
  split <;> rfl

/-- The requests that came in are kept. -/
theorem arrivals_subset_next (t : Traffic) (commands : List NetworkProviderMessage) (x : NetworkStep) :
    t.arrivals ⊆ (t.next commands x).arrivals := by
  cases x with
  | command a =>
    simp only [next]
    split <;> exact fun _ h => h
  | event event =>
    cases event with
    | requestResponse event =>
      cases event with
      | request channel request => exact fun _ h => List.mem_append_left _ h
      | response id headers => simp [next]
      | outboundFailure id => simp [next]
      | _ => exact fun _ h => h
    | _ => exact fun _ h => h
  | response i response =>
    simp only [next]
    split <;> exact fun _ h => h
  | _ => exact fun _ h => h

end Traffic

variable {n n' : NetworkManager} {o o' : Oneshots} {a : Answers} {s s' : Network}

/-! ## Commands -/

theorem trafficOf_call {c : SwarmCall} (h : c.response = none) : trafficOf (n.call c) o = trafficOf n o := by
  simp [trafficOf, NetworkManager.call, h]

theorem trafficOf_send {tx : ℕ} {reply : Reply} {message : String} (h : o.send tx reply message = .ok o') :
    trafficOf n o' = { trafficOf n o with replies := (trafficOf n o).replies ++ (Reply.reply (tx, reply)).toList } := by
  unfold Oneshots.send at h
  split at h
  · cases h
  · cases h
    simp [trafficOf, List.filterMap_cons]
    cases Reply.reply (tx, reply) <;> rfl

/-- A reply without headers. -/
theorem trafficOf_send_other {tx : ℕ} {reply : Reply} {message : String} (h : o.send tx reply message = .ok o')
    (hreply : Reply.reply (tx, reply) = none) : trafficOf n o' = trafficOf n o := by
  rw [trafficOf_send h, hreply]
  simp

theorem handleCommand_traffic {command : NetworkProviderMessage} (he : n.handleCommand o a command = .ok (n', o'))
    (commands : List NetworkProviderMessage) :
    trafficOf n' o' = (trafficOf n o).next (command :: commands) (.command a) := by
  obtain ⟨request, tx⟩ := command
  have hbroadcast : ∀ {topic : String} {data : List UInt8}, n.broadcast o a tx topic data = .ok (n', o') →
      trafficOf n' o' = trafficOf n o := by
    intro topic data he
    unfold NetworkManager.broadcast at he
    simp only at he
    split at he
    all_goals
      obtain ⟨o₁, hsend, he⟩ := exists_of_bind_eq_ok he
      cases he
      rw [trafficOf_send_other hsend rfl, trafficOf_call rfl]
  unfold NetworkManager.handleCommand at he
  cases request with
  | broadcastBlockHeader header => exact hbroadcast he
  | broadcastTransactions transactions => exact hbroadcast he
  | listenAddrs =>
    obtain ⟨o₁, hsend, he⟩ := exists_of_bind_eq_ok he
    cases he
    exact trafficOf_send_other hsend rfl
  | startListening addr =>
    simp only at he
    split at he
    · obtain ⟨o₁, hsend, he⟩ := exists_of_bind_eq_ok he
      cases he
      rw [trafficOf_send_other hsend rfl, trafficOf_call rfl]
      rfl
    · cases he
      exact trafficOf_call (n := n) (o := o) rfl
  | dial peerId peerAddr =>
    simp only at he
    split at he
    · split at he
      · cases he
        have hdial := trafficOf_call (n := n) (o := o) (c := .dial (peerAddr.with (.p2p peerId))) rfl
        exact (trafficOf_call (c := .addAddress peerId peerAddr) rfl).trans hdial
      · obtain ⟨o₁, hsend, he⟩ := exists_of_bind_eq_ok he
        cases he
        rw [trafficOf_send_other hsend rfl, trafficOf_call rfl]
        rfl
    · cases he
      rfl
  | getClosestPeers =>
    cases he
    exact trafficOf_call (n := n) (o := o) rfl
  | getHeaders peer request =>
    cases he
    simp [trafficOf, NetworkManager.call, Traffic.next, SwarmCall.response]

/-! ## Events -/

theorem trafficOf_forward {event : ChainNetworkEvent} {message : String} (he : n.forward event message = .ok n') :
    trafficOf n' o =
      { trafficOf n o with arrivals := (trafficOf n o).arrivals ++ event.arrival.toList } := by
  unfold NetworkManager.forward at he
  split at he
  · cases he
    simp [trafficOf, List.filterMap_cons]
    cases event.arrival <;> rfl
  · cases he

theorem trafficOf_forwardDecoded {α : Type} {decoded : Option (α × List UInt8)} {event : α → ChainNetworkEvent}
    {notDecoded dropped : String} (hevent : ∀ x, (event x).arrival = none)
    (he : n.forwardDecoded decoded event notDecoded dropped = .ok n') : trafficOf n' o = trafficOf n o := by
  unfold NetworkManager.forwardDecoded at he
  split at he
  · rw [trafficOf_forward he, hevent]
    simp
  · cases he

theorem handleGossipsubMessage_traffic {message : GossipMessage} (he : n.handleGossipsubMessage message = .ok n') :
    trafficOf n' o = trafficOf n o := by
  obtain ⟨n₁, h₁, he⟩ := exists_of_bind_eq_ok he
  have hfirst : trafficOf n₁ o = trafficOf n o := by
    split at h₁
    · exact trafficOf_forwardDecoded (fun _ => rfl) h₁
    · cases h₁
      rfl
  rw [← hfirst]
  split at he
  · exact trafficOf_forwardDecoded (fun _ => rfl) he
  · cases he
    rfl

theorem handleMdnsEvent_traffic (n : NetworkManager) (o : Oneshots) (event : MdnsEvent) :
    trafficOf (n.handleMdnsEvent event) o = trafficOf n o := by
  unfold NetworkManager.handleMdnsEvent
  cases event with
  | discovered list =>
    induction list generalizing n with
    | nil => rfl
    | cons x list ih => exact (ih _).trans ((trafficOf_call (c := .addAddress x.1 x.2) rfl).trans (trafficOf_call rfl))
  | expired list =>
    induction list generalizing n with
    | nil => rfl
    | cons x list ih =>
      exact (ih _).trans ((trafficOf_call (c := .removeAddress x.1 x.2) rfl).trans (trafficOf_call rfl))

theorem settleDial_traffic {peerId : PeerId} {response : RequestResponse Unit}
    (he : n.settleDial o peerId response = .ok (n', o')) : trafficOf n' o' = trafficOf n o := by
  unfold NetworkManager.settleDial at he
  split at he
  · obtain ⟨o₁, hsend, he⟩ := exists_of_bind_eq_ok he
    cases he
    exact trafficOf_send_other (n := n) hsend rfl
  · cases he
    rfl

theorem settleListening_traffic {listenerId : ℕ} (he : n.settleListening o listenerId = .ok (n', o')) :
    trafficOf n' o' = trafficOf n o := by
  unfold NetworkManager.settleListening at he
  split at he
  · obtain ⟨o₁, hsend, he⟩ := exists_of_bind_eq_ok he
    cases he
    exact trafficOf_send_other (n := n) hsend rfl
  · cases he
    rfl

theorem handleKadEvent_traffic {event : KadEvent} (he : n.handleKadEvent o event = .ok (n', o')) :
    trafficOf n' o' = trafficOf n o := by
  unfold NetworkManager.handleKadEvent at he
  split at he
  · split at he
    · obtain ⟨o₁, hsend, he⟩ := exists_of_bind_eq_ok he
      cases he
      exact trafficOf_send_other (n := n) hsend rfl
    · cases he
      rfl
  · cases he
    rfl

theorem respondHeaders_traffic {requestId : ℕ} {response : RequestResponse HeadersResponse} {message : String}
    (he : n.respondHeaders o requestId response message = .ok (n', o')) :
    trafficOf n' o' = (trafficOf n o).settle requestId response := by
  unfold NetworkManager.respondHeaders at he
  unfold Traffic.settle
  split at he
  · rename_i command hcommand
    obtain ⟨o₁, hsend, he⟩ := exists_of_bind_eq_ok he
    cases he
    have hpending : (trafficOf n o).pending[requestId]? = some command := hcommand
    have hsent := trafficOf_send (n := n) hsend
    have hreply : (Reply.reply (command.sender, .headers response)).toList =
        response.toOption.toList.map fun headers => (command.sender, headers) := by
      cases response <;> rfl
    rw [hreply] at hsent
    simp only [hpending]
    exact congrArg (fun t : Traffic => { t with pending := n.pendingRequestHeaders.erase requestId }) hsent
  · rename_i hcommand
    cases he
    have hpending : (trafficOf n o).pending[requestId]? = none := hcommand
    simp only [hpending]

theorem handleEvent_traffic {event : SwarmEvent} (he : n.handleEvent o event = .ok (n', o'))
    (commands : List NetworkProviderMessage) :
    trafficOf n' o' = (trafficOf n o).next commands (.event event) := by
  cases event with
  | mdns event =>
    cases he
    exact handleMdnsEvent_traffic n o event
  | gossipsub message =>
    obtain ⟨n₁, hn₁, he⟩ := exists_of_bind_eq_ok he
    cases he
    exact handleGossipsubMessage_traffic hn₁
  | kad event => exact handleKadEvent_traffic he
  | requestResponse event =>
    cases event with
    | request channel request =>
      obtain ⟨n₁, hforward, he⟩ := exists_of_bind_eq_ok he
      cases he
      unfold NetworkManager.forward at hforward
      split at hforward
      · cases hforward
        simp [trafficOf, Traffic.next, ChainNetworkEvent.arrival]
      · cases hforward
    | response requestId response => exact respondHeaders_traffic he
    | outboundFailure requestId => exact respondHeaders_traffic he
    | _ =>
      cases he
      rfl
  | connectionEstablished peerId isDialer =>
    change (if isDialer then n.settleDial o peerId (.ok ()) else .ok (n, o)) = _ at he
    split at he
    · exact settleDial_traffic he
    · cases he
      rfl
  | outgoingConnectionError peerId =>
    cases peerId with
    | some peerId => exact settleDial_traffic he
    | none =>
      cases he
      rfl
  | newListenAddr listenerId => exact settleListening_traffic he
  | other =>
    cases he
    rfl

/-! ## Steps -/

theorem handleResponseBlockHeaders_traffic (n : NetworkManager) (o : Oneshots) (i : ℕ)
    (response : RequestResponse (List Header)) (commands : List NetworkProviderMessage) :
    trafficOf (n.handleResponseBlockHeaders i response) o = (trafficOf n o).next commands (.response i response) := by
  unfold NetworkManager.handleResponseBlockHeaders Traffic.next
  cases hchannel : n.incomingPeerRequests[i]? with
  | none =>
    have hwaiting : (trafficOf n o).waiting[i]? = none := hchannel
    simp only [hwaiting]
  | some channel =>
    have hwaiting : (trafficOf n o).waiting[i]? = some channel := hchannel
    simp only [hwaiting]
    cases response with
    | ok headers => simp [trafficOf, NetworkManager.call, SwarmCall.response, Except.toOption]
    | error e => simp [trafficOf, Except.toOption]

/-- **What a step does to the requests for headers.** -/
theorem traffic_step {x : NetworkStep} (he : s.step x = .ok s') : s'.traffic = s.traffic.next s.commandRecv x := by
  cases x with
  | call request =>
    cases he
    rfl
  | drop tx =>
    cases he
    split <;> rfl
  | command a =>
    change s.command a = .ok s' at he
    unfold Network.command at he
    split at he
    · rename_i hrecv
      cases he
      rw [hrecv]
      rfl
    · rename_i command commands hrecv
      obtain ⟨⟨n', o'⟩, hhandle, he⟩ := exists_of_bind_eq_ok he
      cases he
      rw [hrecv]
      exact handleCommand_traffic hhandle _
  | event event =>
    obtain ⟨⟨n', o'⟩, hhandle, he⟩ := exists_of_bind_eq_ok he
    cases he
    exact handleEvent_traffic hhandle _
  | response i response =>
    cases he
    exact handleResponseBlockHeaders_traffic _ _ _ _ _
  | bootstrap =>
    cases he
    exact trafficOf_call rfl

/-- Channels are made, and commands of theirs are sent. -/
structure Network.Later (s s' : Network) : Prop where
  next : s.oneshots.next ≤ s'.oneshots.next
  commands : ∀ m ∈ s'.commandRecv, m.tx < s.oneshots.next → m ∈ s.commandRecv

theorem Network.Later.refl (s : Network) : s.Later s := ⟨le_rfl, fun _ hm _ => hm⟩

theorem Network.Later.call (h : s.Later s') (request : ProviderRequest) : s.Later (s'.call request) := by
  refine ⟨h.next.trans (Nat.le_succ _), fun m hm hlt => ?_⟩
  rcases List.mem_append.mp hm with hm | hm
  · exact h.commands m hm hlt
  · rw [List.mem_singleton.mp hm] at hlt
    exact absurd hlt (Nat.not_lt.mpr h.next)

theorem later_step {x : NetworkStep} (he : s.step x = .ok s') : s.Later s' := by
  rcases step_cases he with ⟨request, -, rfl⟩ | ⟨tx, -, -, rfl⟩ | ⟨a, command, commands, -, hh⟩ | ⟨-, hr⟩
  · exact (Network.Later.refl s).call request
  · exact ⟨le_rfl, fun m hm _ => hm⟩
  · refine ⟨hh.next.ge, fun m hm _ => ?_⟩
    rw [hh.recv'] at hm
    rw [hh.recv]
    exact List.mem_cons_of_mem _ hm
  · exact ⟨hr.next.ge, fun m hm _ => by rwa [hr.recv] at hm⟩

end Simb.Net
