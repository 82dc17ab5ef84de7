import Simb.Net.NoPanic

/-!
# Listening and dialing

To listen on an address and to dial a peer takes the swarm some time: the sender of the reply is kept until the swarm
says how it went.  A second dial of a peer loses its sender.  When only one request of this kind is made at a time, no
sender is lost: the request waits for its turn, or is asked of the swarm and waits there, or has its one reply
(`Attends.step`).  Steps that are about other things leave all this alone (`Touches`).
-/

namespace Simb.Net

open Simb.Lib

/-- The request is to listen on an address or to dial a peer. -/
def ProviderRequest.connects : ProviderRequest → Bool
  | .startListening _ => true
  | .dial _ _ => true
  | _ => false

/-- What is asked of the swarm for it. -/
def ProviderRequest.swarmCall : ProviderRequest → Option SwarmCall
  | .startListening addr => some (.listenOn addr)
  | .dial peerId peerAddr => some (.dial (peerAddr.with (.p2p peerId)))
  | _ => none

/-- The error when the swarm fails to do it. -/
def ProviderRequest.failure : ProviderRequest → RequestError
  | .startListening _ => .transportError
  | _ => .dialError

def SwarmCall.connects : SwarmCall → Bool
  | .listenOn _ => true
  | .dial _ => true
  | _ => false

/-- The sender under this key is that of a request to listen or dial. -/
def Key.Connects : Key → Prop
  | .peer _ => True
  | .listener _ => True
  | .request _ => False
  | .query _ => False

/-- The sender of the request is kept under this key. -/
def Key.Fits : Key → ProviderRequest → Prop
  | .peer peerId, .dial peerId' _ => peerId = peerId'
  | .listener _, .startListening _ => True
  | _, _ => False

namespace Network

/-- The commands on their way that are to listen or dial. -/
def connecting (s : Network) : List NetworkProviderMessage := s.commandRecv.filter fun m => m.request.connects

/-- What the swarm was asked to listen on and to dial, oldest first. -/
def connections (s : Network) : List SwarmCall := s.manager.swarm.filter SwarmCall.connects

/-- The sender came with another command that waits, or waits for something else of the swarm. -/
def Elsewhere (s : Network) (tx : ℕ) : Prop :=
  (∃ m ∈ s.commandRecv, m.tx = tx ∧ m.request.connects = false) ∨
    ∃ key, ¬ key.Connects ∧ s.manager.held key = some tx

/-- No listening or dialing is under way, and the swarm was asked for `calls`. -/
structure Unconnecting (s : Network) (calls : List SwarmCall) : Prop where
  connecting : s.connecting = []
  held : ∀ key, key.Connects → s.manager.held key = none
  connections : s.connections = calls

/-- One request is under way, after the swarm was asked for `calls`: it waits for its turn, or the swarm was asked for it,
or it has its one reply. -/
inductive Attends (s : Network) (calls : List SwarmCall) (request : ProviderRequest) (tx : ℕ) : Prop
  | queued : s.connecting = [⟨request, tx⟩] → (∀ key, key.Connects → s.manager.held key = none) →
      tx ∉ s.oneshots.sent.map Prod.fst → s.connections = calls → Attends s calls request tx
  | begun (key : Key) : key.Fits request → s.connecting = [] → s.manager.held key = some tx →
      (∀ k, k.Connects → k ≠ key → s.manager.held k = none) → tx ∉ s.oneshots.sent.map Prod.fst →
      s.connections = calls ++ request.swarmCall.toList → Attends s calls request tx
  | answered (r : RequestResponse Unit) : s.Unconnecting (calls ++ request.swarmCall.toList) →
      (tx, .unit r) ∈ s.oneshots.sent → (∀ reply, (tx, reply) ∈ s.oneshots.sent → reply = .unit r) →
      (r = .ok () ∨ r = .error request.failure) → Attends s calls request tx

/-- What a step does to listening and dialing, if it makes no such request: nothing; or the next such request is handled,
and is kept, or answered at once, or lost as a second dial; or one that was kept gets its reply. -/
inductive Touches (s s' : Network) : Prop
  | other (new : List (ℕ × Reply)) : s'.connecting = s.connecting → s'.connections = s.connections →
      (∀ key, key.Connects → s'.manager.held key = s.manager.held key) →
      s'.oneshots.sent = s.oneshots.sent ++ new → (∀ x ∈ new, s.Elsewhere x.1) → Touches s s'
  | begin (m : NetworkProviderMessage) (key : Key) : s.connecting = m :: s'.connecting → key.Fits m.request →
      s'.connections = s.connections ++ m.request.swarmCall.toList →
      s'.manager.held = Function.update s.manager.held key (some m.tx) → s'.oneshots.sent = s.oneshots.sent → Touches s s'
  | fail (m : NetworkProviderMessage) : s.connecting = m :: s'.connecting →
      s'.connections = s.connections ++ m.request.swarmCall.toList → s'.manager.held = s.manager.held →
      s'.oneshots.sent = s.oneshots.sent ++ [(m.tx, .unit (.error m.request.failure))] → Touches s s'
  | lose (m : NetworkProviderMessage) : s.connecting = m :: s'.connecting → SecondDial s.manager m →
      s'.oneshots.sent = s.oneshots.sent → Touches s s'
  | settle (key : Key) (tx : ℕ) (r : RequestResponse Unit) : key.Connects → s'.connecting = s.connecting →
      s'.connections = s.connections → s.manager.held key = some tx →
      s'.manager.held = Function.update s.manager.held key none →
      s'.oneshots.sent = s.oneshots.sent ++ [(tx, .unit r)] →
      (r = .ok () ∨ (∃ peerId, key = .peer peerId) ∧ r = .error .dialError) → Touches s s'

end Network

variable {n n' : NetworkManager} {o o' : Oneshots} {a : Answers} {s s' : Network}

theorem Key.Fits.connects {key : Key} {request : ProviderRequest} (h : key.Fits request) : key.Connects := by
  cases key with
  | peer peerId => trivial
  | listener id => trivial
  | _ => cases request <;> cases h

/-! ## Commands -/

theorem sent_of_send {tx : ℕ} {reply : Reply} {message : String} (h : o.send tx reply message = .ok o') :
    o'.sent = o.sent ++ [(tx, reply)] := by
  unfold Oneshots.send at h
  split at h
  · cases h
  · cases h
    rfl

/-- A request that neither listens nor dials. -/
theorem handleCommand_other {request : ProviderRequest} {tx : ℕ} (hrequest : request.connects = false)
    (he : n.handleCommand o a ⟨request, tx⟩ = .ok (n', o')) :
    n'.swarm.filter SwarmCall.connects = n.swarm.filter SwarmCall.connects ∧
      (∀ key, key.Connects → n'.held key = n.held key) ∧
      ∃ new, o'.sent = o.sent ++ new ∧ ∀ x ∈ new, x.1 = tx := by
  have hbroadcast : ∀ {topic : String} {data : List UInt8}, n.broadcast o a tx topic data = .ok (n', o') →
      n'.swarm.filter SwarmCall.connects = n.swarm.filter SwarmCall.connects ∧
        (∀ key, key.Connects → n'.held key = n.held key) ∧ ∃ new, o'.sent = o.sent ++ new ∧ ∀ x ∈ new, x.1 = tx := by
    intro topic data he
    unfold NetworkManager.broadcast at he
    simp only at he
    split at he
    all_goals
      obtain ⟨o₁, hsend, he⟩ := exists_of_bind_eq_ok he
      cases he
      exact ⟨by simp [NetworkManager.call, SwarmCall.connects], fun _ _ => rfl, _, sent_of_send hsend, by simp⟩
  unfold NetworkManager.handleCommand at he
  cases request with
  | startListening addr => cases hrequest
  | dial peerId peerAddr => cases hrequest
  | broadcastBlockHeader header => exact hbroadcast he
  | broadcastTransactions transactions => exact hbroadcast he
  | listenAddrs =>
    obtain ⟨o₁, hsend, he⟩ := exists_of_bind_eq_ok he
    cases he
    exact ⟨rfl, fun _ _ => rfl, _, sent_of_send hsend, by simp⟩
  | getClosestPeers =>
    cases he
    refine ⟨by simp [NetworkManager.call, SwarmCall.connects], fun key hkey => ?_, [], (List.append_nil _).symm, by simp⟩
    cases key <;> first | rfl | cases hkey
  | getHeaders peer request =>
    cases he
    refine ⟨by simp [NetworkManager.call, SwarmCall.connects], fun key hkey => ?_, [], (List.append_nil _).symm, by simp⟩
    cases key <;> first | rfl | cases hkey

/-- A request to listen or dial is kept, or answered at once because the swarm refuses it, or a second dial. -/
theorem handleCommand_connects {request : ProviderRequest} {tx : ℕ} (hrequest : request.connects = true)
    (he : n.handleCommand o a ⟨request, tx⟩ = .ok (n', o')) : (SecondDial n ⟨request, tx⟩ ∧ o'.sent = o.sent) ∨
      n'.swarm.filter SwarmCall.connects = n.swarm.filter SwarmCall.connects ++ request.swarmCall.toList ∧
        ((∃ key : Key, key.Fits request ∧ n'.held = Function.update n.held key (some tx) ∧ o'.sent = o.sent) ∨
          n'.held = n.held ∧ o'.sent = o.sent ++ [(tx, .unit (.error request.failure))]) := by
  unfold NetworkManager.handleCommand at he
  cases request with
  | startListening addr =>
    simp only at he
    have hswarm : (n.call (.listenOn addr)).swarm.filter SwarmCall.connects =
        n.swarm.filter SwarmCall.connects ++ [.listenOn addr] := by simp [NetworkManager.call, SwarmCall.connects]
    split at he
    · obtain ⟨o₁, hsend, he⟩ := exists_of_bind_eq_ok he
      cases he
      exact .inr ⟨hswarm, .inr ⟨rfl, sent_of_send hsend⟩⟩
    · rename_i listenerId hlisten
      cases he
      refine .inr ⟨hswarm, .inl ⟨.listener listenerId, trivial, ?_, rfl⟩⟩
      refine (held_pendingListening fun j hj => Table.getElem?_insert_of_ne _ _ hj).trans ?_
      rw [Table.getElem?_insert_self]
      rfl
  | dial peerId peerAddr =>
    simp only at he
    split at he
    · have hswarm : (n.call (.dial (peerAddr.with (.p2p peerId)))).swarm.filter SwarmCall.connects =
          n.swarm.filter SwarmCall.connects ++ [.dial (peerAddr.with (.p2p peerId))] := by
        simp [NetworkManager.call, SwarmCall.connects]
      split at he
      · cases he
        refine .inr ⟨?_, .inl ⟨.peer peerId, rfl, ?_, rfl⟩⟩
        · simp [NetworkManager.call, SwarmCall.connects, ProviderRequest.swarmCall, List.filter_cons]
        · refine (held_pendingDial fun j hj => Table.getElem?_insert_of_ne _ _ hj).trans ?_
          rw [Table.getElem?_insert_self]
          rfl
      · obtain ⟨o₁, hsend, he⟩ := exists_of_bind_eq_ok he
        cases he
        exact .inr ⟨hswarm, .inr ⟨rfl, sent_of_send hsend⟩⟩
    · rename_i hoccupied
      cases he
      exact .inl ⟨⟨peerId, peerAddr, rfl, by rw [hoccupied]; rfl⟩, rfl⟩
  | _ => cases hrequest

/-! ## Events -/

/-- Nobody who waits for a listener or a dial is answered. -/
def Leaves (n n' : NetworkManager) (o o' : Oneshots) : Prop :=
  (∀ key : Key, key.Connects → n'.held key = n.held key) ∧
    ∃ new, o'.sent = o.sent ++ new ∧ ∀ x ∈ new, ∃ key : Key, ¬ key.Connects ∧ n.held key = some x.1

/-- Somebody who waits for a listener or a dial is answered. -/
def Connects (n n' : NetworkManager) (o o' : Oneshots) : Prop :=
  ∃ (key : Key) (tx : ℕ) (r : RequestResponse Unit), key.Connects ∧ n.held key = some tx ∧
    n'.held = Function.update n.held key none ∧ o'.sent = o.sent ++ [(tx, .unit r)] ∧
    (r = .ok () ∨ (∃ peerId, key = .peer peerId) ∧ r = .error .dialError)

theorem leaves_of_held (h : n'.held = n.held) : Leaves n n' o o :=
  ⟨fun key _ => congrFun h key, [], (List.append_nil _).symm, by simp⟩

theorem settleDial_connects {peerId : PeerId} {response : RequestResponse Unit}
    (hresponse : response = .ok () ∨ response = .error .dialError)
    (he : n.settleDial o peerId response = .ok (n', o')) :
    n'.swarm = n.swarm ∧ (Leaves n n' o o' ∨ Connects n n' o o') := by
  unfold NetworkManager.settleDial at he
  split at he
  · rename_i sender hsender
    obtain ⟨o₁, hsend, he⟩ := exists_of_bind_eq_ok he
    cases he
    refine ⟨rfl, .inr ⟨.peer peerId, sender, response, trivial, hsender, ?_, sent_of_send hsend,
      hresponse.imp_right fun h => ⟨⟨peerId, rfl⟩, h⟩⟩⟩
    rw [held_pendingDial fun j hj => Table.getElem?_erase_of_ne _ hj, Table.getElem?_erase_self]
  · cases he
    exact ⟨rfl, .inl (leaves_of_held rfl)⟩

theorem settleListening_connects {listenerId : ℕ} (he : n.settleListening o listenerId = .ok (n', o')) :
    n'.swarm = n.swarm ∧ (Leaves n n' o o' ∨ Connects n n' o o') := by
  unfold NetworkManager.settleListening at he
  split at he
  · rename_i sender hsender
    obtain ⟨o₁, hsend, he⟩ := exists_of_bind_eq_ok he
    cases he
    refine ⟨rfl, .inr ⟨.listener listenerId, sender, .ok (), trivial, hsender, ?_, sent_of_send hsend, .inl rfl⟩⟩
    rw [held_pendingListening fun j hj => Table.getElem?_erase_of_ne _ hj, Table.getElem?_erase_self]
  · cases he
    exact ⟨rfl, .inl (leaves_of_held rfl)⟩

theorem handleKadEvent_leaves {event : KadEvent} (he : n.handleKadEvent o event = .ok (n', o')) :
    n'.swarm = n.swarm ∧ Leaves n n' o o' := by
  unfold NetworkManager.handleKadEvent at he
  split at he
  · rename_i id result
    split at he
    · rename_i sender hsender
      obtain ⟨o₁, hsend, he⟩ := exists_of_bind_eq_ok he
      cases he
      refine ⟨rfl, fun key hkey => ?_, _, sent_of_send hsend, ?_⟩
      · cases key <;> first | rfl | cases hkey
      · simp only [List.mem_singleton, forall_eq]
        exact ⟨.query id, fun h => h, hsender⟩
    · cases he
      exact ⟨rfl, leaves_of_held rfl⟩
  · cases he
    exact ⟨rfl, leaves_of_held rfl⟩

theorem respondHeaders_leaves {requestId : ℕ} {response : RequestResponse HeadersResponse} {message : String}
    (he : n.respondHeaders o requestId response message = .ok (n', o')) : n'.swarm = n.swarm ∧ Leaves n n' o o' := by
  unfold NetworkManager.respondHeaders at he
  split at he
  · rename_i command hcommand
    obtain ⟨o₁, hsend, he⟩ := exists_of_bind_eq_ok he
    cases he
    refine ⟨rfl, fun key hkey => ?_, _, sent_of_send hsend, ?_⟩
    · cases key <;> first | rfl | cases hkey
    · simp only [List.mem_singleton, forall_eq]
      exact ⟨.request requestId, fun h => h, congrArg (Option.map GetHeadersRequest.sender) hcommand⟩
  · cases he
    exact ⟨rfl, leaves_of_held rfl⟩

theorem forward_leaves {event : ChainNetworkEvent} {message : String} (he : n.forward event message = .ok n') :
    n'.swarm = n.swarm ∧ n'.held = n.held := by
  unfold NetworkManager.forward at he
  split at he
  · cases he
    exact ⟨rfl, rfl⟩
  · cases he

theorem forwardDecoded_leaves {α : Type} {decoded : Option (α × List UInt8)} {event : α → ChainNetworkEvent}
    {notDecoded dropped : String} (he : n.forwardDecoded decoded event notDecoded dropped = .ok n') :
    n'.swarm = n.swarm ∧ n'.held = n.held := by
  unfold NetworkManager.forwardDecoded at he
  split at he
  · exact forward_leaves he
  · cases he

theorem handleGossipsubMessage_leaves {message : GossipMessage} (he : n.handleGossipsubMessage message = .ok n') :
    n'.swarm = n.swarm ∧ n'.held = n.held := by
  obtain ⟨n₁, h₁, he⟩ := exists_of_bind_eq_ok he
  have hfirst : n₁.swarm = n.swarm ∧ n₁.held = n.held := by
    split at h₁
    · exact forwardDecoded_leaves h₁
    · cases h₁
      exact ⟨rfl, rfl⟩
  have hsecond : n'.swarm = n₁.swarm ∧ n'.held = n₁.held := by
    split at he
    · exact forwardDecoded_leaves he
    · cases he
      exact ⟨rfl, rfl⟩
  exact ⟨hsecond.1.trans hfirst.1, hsecond.2.trans hfirst.2⟩

theorem handleMdnsEvent_connections (n : NetworkManager) (event : MdnsEvent) :
    (n.handleMdnsEvent event).swarm.filter SwarmCall.connects = n.swarm.filter SwarmCall.connects := by
  unfold NetworkManager.handleMdnsEvent
  cases event with
  | discovered list =>
    induction list generalizing n with
    | nil => rfl
    | cons x list ih => exact (ih _).trans (by simp [NetworkManager.call, SwarmCall.connects])
  | expired list =>
    induction list generalizing n with
    | nil => rfl
    | cons x list ih => exact (ih _).trans (by simp [NetworkManager.call, SwarmCall.connects])

/-- **What an event does to listening and dialing.** -/
theorem handleEvent_connects {event : SwarmEvent} (he : n.handleEvent o event = .ok (n', o')) :
    n'.swarm.filter SwarmCall.connects = n.swarm.filter SwarmCall.connects ∧
      (Leaves n n' o o' ∨ Connects n n' o o') := by
  have hsame : n'.swarm = n.swarm ∧ (Leaves n n' o o' ∨ Connects n n' o o') →
      n'.swarm.filter SwarmCall.connects = n.swarm.filter SwarmCall.connects ∧
        (Leaves n n' o o' ∨ Connects n n' o o') := fun h => ⟨by rw [h.1], h.2⟩
  unfold NetworkManager.handleEvent at he
  cases event with
  | mdns event =>
    cases he
    exact ⟨handleMdnsEvent_connections n event, .inl (leaves_of_held (held_handleMdnsEvent n event))⟩
  | gossipsub message =>
    obtain ⟨n₁, h₁, he⟩ := exists_of_bind_eq_ok he
    cases he
    obtain ⟨hswarm, hheld⟩ := handleGossipsubMessage_leaves h₁
    exact hsame ⟨hswarm, .inl (leaves_of_held hheld)⟩
  | kad event => exact hsame ((handleKadEvent_leaves he).imp_right .inl)
  | requestResponse event =>
    cases event with
    | request channel request =>
      obtain ⟨n₁, h₁, he⟩ := exists_of_bind_eq_ok he
      cases he
      obtain ⟨hswarm, hheld⟩ := forward_leaves h₁
      exact hsame ⟨hswarm, .inl (leaves_of_held hheld)⟩
    | response requestId response => exact hsame ((respondHeaders_leaves he).imp_right .inl)
    | outboundFailure requestId => exact hsame ((respondHeaders_leaves he).imp_right .inl)
    | inboundFailure =>
      cases he
      exact hsame ⟨rfl, .inl (leaves_of_held rfl)⟩
    | responseSent =>
      cases he
      exact hsame ⟨rfl, .inl (leaves_of_held rfl)⟩
  | connectionEstablished peerId isDialer =>
    simp only at he
    split at he
    · exact hsame (settleDial_connects (.inl rfl) he)
    · cases he
      exact hsame ⟨rfl, .inl (leaves_of_held rfl)⟩
  | outgoingConnectionError peerId =>
    cases peerId with
    | some peerId => exact hsame (settleDial_connects (.inr rfl) he)
    | none =>
      cases he
      exact hsame ⟨rfl, .inl (leaves_of_held rfl)⟩
  | newListenAddr listenerId => exact hsame (settleListening_connects he)
  | other =>
    cases he
    exact hsame ⟨rfl, .inl (leaves_of_held rfl)⟩

/-! ## Steps -/

/-- **What a step does to listening and dialing.** -/
theorem step_touches {x : NetworkStep} (hx : ∀ request, x = .call request → request.connects = false)
    (he : s.step x = .ok s') : s.Touches s' := by
  cases x with
  | call request =>
    cases he
    refine .other [] ?_ rfl (fun _ _ => rfl) (List.append_nil _).symm (by simp)
    simp [Network.connecting, Network.call, hx request rfl]
  | drop tx =>
    cases he
    refine .other [] ?_ ?_ (fun key _ => ?_) ?_ (by simp) <;> split <;>
      simp [Network.drop, Network.connecting, Network.connections]
  | command a =>
    change s.command a = .ok s' at he
    unfold Network.command at he
    split at he
    · cases he
      exact .other [] rfl rfl (fun _ _ => rfl) (List.append_nil _).symm (by simp)
    · rename_i m commands hrecv
      obtain ⟨⟨n', o'⟩, h₁, he⟩ := exists_of_bind_eq_ok he
      cases he
      cases hm : m.request.connects with
      | false =>
        obtain ⟨hswarm, hheld, new, hsent, hnew⟩ := handleCommand_other hm h₁
        refine .other new ?_ hswarm hheld hsent fun x hx => .inl ⟨m, ?_, (hnew x hx).symm, hm⟩
        · simp [Network.connecting, hrecv, hm]
        · rw [hrecv]
          exact List.mem_cons_self
      | true =>
        have hconnecting : s.connecting = m :: commands.filter fun m => m.request.connects := by
          simp [Network.connecting, hrecv, hm]
        rcases handleCommand_connects hm h₁ with ⟨hsecond, hsent⟩ | ⟨hswarm, ⟨key, hfits, hheld, hsent⟩ | ⟨hheld, hsent⟩⟩
        · exact .lose m hconnecting hsecond hsent
        · exact .begin m key hconnecting hfits hswarm hheld hsent
        · exact .fail m hconnecting hswarm hheld hsent
  | event event =>
    obtain ⟨⟨n', o'⟩, h₁, he⟩ := exists_of_bind_eq_ok he
    cases he
    obtain ⟨hswarm, ⟨hheld, new, hsent, hnew⟩ | ⟨key, tx, r, hkey, htx, hheld, hsent, hr⟩⟩ := handleEvent_connects h₁
    · exact .other new rfl hswarm hheld hsent fun x hx => .inr (hnew x hx)
    · exact .settle key tx r hkey rfl hswarm htx hheld hsent hr
  | response i response =>
    cases he
    refine .other [] rfl ?_ (fun key _ => ?_) (List.append_nil _).symm (by simp)
    · show (s.manager.handleResponseBlockHeaders i response).swarm.filter SwarmCall.connects = _
      unfold NetworkManager.handleResponseBlockHeaders
      split
      · split
        · simp [NetworkManager.call, SwarmCall.connects, Network.connections]
        · rfl
      · rfl
    · show (s.manager.handleResponseBlockHeaders i response).held key = _
      rw [held_handleResponseBlockHeaders]
  | bootstrap =>
    cases he
    refine .other [] rfl ?_ (fun _ _ => rfl) (List.append_nil _).symm (by simp)
    simp [Network.connections, NetworkManager.call, SwarmCall.connects]

/-- What was sent stays sent. -/
theorem Network.Touches.sent (h : s.Touches s') : ∀ x ∈ s.oneshots.sent, x ∈ s'.oneshots.sent := by
  intro x hx
  cases h with
  | other new _ _ _ hsent _ =>
    rw [hsent]
    exact List.mem_append_left _ hx
  | begin m key _ _ _ _ hsent => rwa [hsent]
  | fail m _ _ _ hsent =>
    rw [hsent]
    exact List.mem_append_left _ hx
  | lose m _ _ hsent => rwa [hsent]
  | settle key tx r _ _ _ _ _ hsent _ =>
    rw [hsent]
    exact List.mem_append_left _ hx

/-! ## One request at a time -/

variable {calls : List SwarmCall} {request : ProviderRequest} {tx : ℕ}

namespace Network

theorem unconnecting_new (localPeerId : PeerId) : (Network.new localPeerId).Unconnecting [] where
  connecting := rfl
  held key hkey := by
    cases key with
    | peer peerId => simp [Network.new, NetworkManager.new, NetworkManager.held]
    | listener id => simp [Network.new, NetworkManager.new, NetworkManager.held]
    | _ => cases hkey
  connections := rfl

/-- With nothing under way, nothing comes under way. -/
theorem Unconnecting.step (h : s.Unconnecting calls) (ht : s.Touches s') : s'.Unconnecting calls := by
  cases ht with
  | other new hconnecting hconnections hheld hsent hnew =>
    exact ⟨by rw [hconnecting, h.connecting], fun key hkey => by rw [hheld key hkey, h.held key hkey],
      by rw [hconnections, h.connections]⟩
  | begin m key hconnecting => exact absurd (hconnecting.symm.trans h.connecting) (List.cons_ne_nil _ _)
  | fail m hconnecting => exact absurd (hconnecting.symm.trans h.connecting) (List.cons_ne_nil _ _)
  | lose m hconnecting => exact absurd (hconnecting.symm.trans h.connecting) (List.cons_ne_nil _ _)
  | settle key tx r hkey hconnecting hconnections htx =>
    rw [h.held key hkey] at htx
    cases htx

/-- With nothing under way, a request is made. -/
theorem Unconnecting.call (hinv : s.Inv) (h : s.Unconnecting calls) (hrequest : request.connects = true) :
    (s.call request).Attends calls request s.oneshots.next := by
  refine .queued ?_ h.held hinv.next_notMem h.connections
  have hconnecting := h.connecting
  unfold Network.connecting at hconnecting ⊢
  simp [Network.call, hconnecting, hrequest]

/-- A sender that waits in the queue is not elsewhere. -/
theorem Inv.ne_of_queued (h : s.Inv) (hm : (⟨request, tx⟩ : NetworkProviderMessage) ∈ s.connecting) :
    ¬ s.Elsewhere tx := by
  obtain ⟨hmem, hconnects⟩ := List.mem_filter.mp hm
  obtain ⟨-, hqueue, hapart⟩ := List.nodup_append.mp h.nodup_senders
  rintro (⟨m, hm', htx, hother⟩ | ⟨key, -, hheld⟩)
  · obtain rfl := List.inj_on_of_nodup_map hqueue hm' hmem htx
    rw [hother] at hconnects
    cases hconnects
  · exact hapart tx (List.mem_map_of_mem (f := Prod.fst) (h.closed.held key tx hheld)) tx (List.mem_map_of_mem hmem) rfl

/-- A sender that waits for a listener or a dial is not elsewhere. -/
theorem Inv.ne_of_held (h : s.Inv) {key : Key} (hkey : key.Connects) (hheld : s.manager.held key = some tx) :
    ¬ s.Elsewhere tx := by
  have hmem := h.closed.held key tx hheld
  rintro (⟨m, hm, htx, -⟩ | ⟨key', hkey', hheld'⟩)
  · exact (List.nodup_append.mp h.nodup_senders).2.2 tx (List.mem_map_of_mem (f := Prod.fst) hmem) m.tx
      (List.mem_map_of_mem hm) htx.symm
  · have heq := List.inj_on_of_nodup_map h.nodup_handled hmem (h.closed.held key' tx hheld') rfl
    cases heq
    exact hkey' hkey

/-- A sender that was used is nowhere. -/
theorem Inv.ne_of_answered (h : s.Inv) (hopen : s.desk.Open) (hsent : tx ∈ s.oneshots.sent.map Prod.fst) :
    ¬ s.Elsewhere tx := by
  rintro (⟨m, hm, htx, -⟩ | ⟨key, -, hheld⟩)
  · exact (List.nodup_append.mp h.nodup_senders).2.2 tx (h.closed.answered tx hsent) m.tx (List.mem_map_of_mem hm) htx.symm
  · exact hopen key tx hheld hsent

/-- **The one request under way is not lost,** whatever else the task and its clients do. -/
theorem Attends.step (hinv : s.Inv) (hopen : s.desk.Open) (h : s.Attends calls request tx) (ht : s.Touches s') :
    s'.Attends calls request tx := by
  cases h with
  | queued hconnecting hheld hsent hcalls =>
    have hmem : (⟨request, tx⟩ : NetworkProviderMessage) ∈ s.connecting := by
      rw [hconnecting]
      exact List.mem_cons_self
    cases ht with
    | other new hconnecting' hcalls' hheld' hsent' hnew =>
      refine .queued (by rw [hconnecting', hconnecting]) (fun key hkey => by rw [hheld' key hkey, hheld key hkey]) ?_
        (by rw [hcalls', hcalls])
      rw [hsent', List.map_append, List.mem_append, not_or]
      refine ⟨hsent, fun htx => ?_⟩
      obtain ⟨x, hx, rfl⟩ := List.mem_map.mp htx
      exact hinv.ne_of_queued hmem (hnew x hx)
    | begin m key hconnecting' hfits hcalls' hheld' hsent' =>
      obtain ⟨rfl, hrest⟩ := List.cons.inj (hconnecting.symm.trans hconnecting')
      refine .begun key hfits hrest.symm ?_ (fun k hk hne => ?_) (by rwa [hsent']) (by rw [hcalls', hcalls])
      · rw [hheld', Function.update_self]
      · rw [hheld', Function.update_of_ne hne, hheld k hk]
    | fail m hconnecting' hcalls' hheld' hsent' =>
      obtain ⟨rfl, hrest⟩ := List.cons.inj (hconnecting.symm.trans hconnecting')
      refine .answered _ ⟨hrest.symm, fun key hkey => by rw [hheld', hheld key hkey], by rw [hcalls', hcalls]⟩
        (by rw [hsent']; exact List.mem_append_right _ (List.mem_singleton_self _)) (fun reply hreply => ?_) (.inr rfl)
      rw [hsent', List.mem_append, List.mem_singleton] at hreply
      rcases hreply with hreply | hreply
      · exact absurd (List.mem_map_of_mem (f := Prod.fst) hreply) hsent
      · exact (Prod.mk.inj hreply).2
    | lose m hconnecting' hsecond =>
      obtain ⟨rfl, -⟩ := List.cons.inj (hconnecting.symm.trans hconnecting')
      obtain ⟨peerId, peerAddr, -, hpending⟩ := hsecond
      have hnone : s.manager.pendingDial[peerId]? = none := hheld (.peer peerId) trivial
      rw [hnone] at hpending
      cases hpending
    | settle key tx' r hkey _ _ htx =>
      rw [hheld key hkey] at htx
      cases htx
  | begun key hfits hconnecting hkey hheld hsent hcalls =>
    cases ht with
    | other new hconnecting' hcalls' hheld' hsent' hnew =>
      refine .begun key hfits (by rw [hconnecting', hconnecting]) (by rw [hheld' key hfits.connects, hkey])
        (fun k hk hne => by rw [hheld' k hk, hheld k hk hne]) ?_ (by rw [hcalls', hcalls])
      rw [hsent', List.map_append, List.mem_append, not_or]
      refine ⟨hsent, fun htx => ?_⟩
      obtain ⟨x, hx, rfl⟩ := List.mem_map.mp htx
      exact hinv.ne_of_held hfits.connects hkey (hnew x hx)
    | begin m key' hconnecting' => exact absurd (hconnecting'.symm.trans hconnecting) (List.cons_ne_nil _ _)
    | fail m hconnecting' => exact absurd (hconnecting'.symm.trans hconnecting) (List.cons_ne_nil _ _)
    | lose m hconnecting' => exact absurd (hconnecting'.symm.trans hconnecting) (List.cons_ne_nil _ _)
    | settle key' tx' r hkey' hconnecting' hcalls' htx hheld' hsent' hr =>
      obtain rfl : key' = key := by
        by_contra hne
        rw [hheld key' hkey' hne] at htx
        cases htx
      obtain rfl : tx' = tx := Option.some.inj (htx.symm.trans hkey)
      refine .answered r ⟨by rw [hconnecting', hconnecting], fun k hk => ?_, by rw [hcalls', hcalls]⟩
        (by rw [hsent']; exact List.mem_append_right _ (List.mem_singleton_self _)) (fun reply hreply => ?_) ?_
      · rw [hheld']
        by_cases hne : k = key'
        · rw [hne, Function.update_self]
        · rw [Function.update_of_ne hne, hheld k hk hne]
      · rw [hsent', List.mem_append, List.mem_singleton] at hreply
        rcases hreply with hreply | hreply
        · exact absurd (List.mem_map_of_mem (f := Prod.fst) hreply) hsent
        · exact (Prod.mk.inj hreply).2
      · rcases hr with hr | ⟨⟨peerId, rfl⟩, hr⟩
        · exact .inl hr
        · refine .inr ?_
          cases request with
          | dial peerId' peerAddr => exact hr
          | _ => cases hfits
  | answered r hun hmem honly hr =>
    have hkept : ∀ new, s'.oneshots.sent = s.oneshots.sent ++ new → (∀ x ∈ new, s.Elsewhere x.1) →
        s'.Attends calls request tx := by
      intro new hsent hnew
      refine .answered r (hun.step ht) (by rw [hsent]; exact List.mem_append_left _ hmem) (fun reply hreply => ?_) hr
      rw [hsent, List.mem_append] at hreply
      rcases hreply with hreply | hreply
      · exact honly reply hreply
      · have hsent' : tx ∈ s.oneshots.sent.map Prod.fst := List.mem_map_of_mem (f := Prod.fst) hmem
        exact absurd (hnew _ hreply) (hinv.ne_of_answered hopen hsent')
    cases ht with
    | other new _ _ _ hsent hnew => exact hkept new hsent hnew
    | begin m key hconnecting => exact absurd (hconnecting.symm.trans hun.connecting) (List.cons_ne_nil _ _)
    | fail m hconnecting => exact absurd (hconnecting.symm.trans hun.connecting) (List.cons_ne_nil _ _)
    | lose m hconnecting => exact absurd (hconnecting.symm.trans hun.connecting) (List.cons_ne_nil _ _)
    | settle key tx' r' hkey _ _ htx =>
      rw [hun.held key hkey] at htx
      cases htx

end Network

end Simb.Net
