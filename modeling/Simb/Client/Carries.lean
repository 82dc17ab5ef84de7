import Simb.Client.Defs
import Simb.Net.Flow
import Simb.Net.Ahead
import Simb.Tasks.SyncSpec

/-!
# Where the headers of a node are

A node has headers in its ledger, in the commands and events between its tasks, in its downloads, and in what it has
published and served.  `Client.Carries K c L` says that all of them meet `K`.  A node makes a header only when it mines,
and otherwise passes on what came in: so as long as what it mines and what comes in meets `K`, every step keeps this
(`Client.Carries.step`).
-/

namespace Simb

open Simb.BlockTree Simb.Net Simb.Tasks Simb.Lib

/-! ## Headers on their way -/

namespace Net

/-- The header that a request is to broadcast. -/
def ProviderRequest.header : ProviderRequest → Option Header
  | .broadcastBlockHeader header => some header
  | _ => none

/-- The header that a message brings. -/
def GossipMessage.header (message : GossipMessage) : Option Header := message.event.bind ChainNetworkEvent.header

/-- The headers that come in with an event of the swarm. -/
def SwarmEvent.headers : SwarmEvent → List Header
  | .gossipsub message => message.header.toList
  | .requestResponse (.response _ headers) => headers
  | _ => []

/-- All headers in the network task meet `K`, and the chain side is there. -/
structure Network.Carries (K : Header → Prop) (w : Network) : Prop where
  connected : w.manager.eventSender.connected = true
  asked : ∀ request ∈ w.requests, ∀ b ∈ request.header, K b
  published : ∀ message ∈ w.manager.published, ∀ b ∈ message.header, K b
  events : ∀ event ∈ w.manager.eventSender.sent, ∀ b ∈ event.header, K b
  received : ∀ headers ∈ w.oneshots.received, ∀ b ∈ headers, K b
  served : ∀ headers ∈ w.manager.served, ∀ b ∈ headers, K b

end Net

namespace Client

/-- All headers in the node meet `K`, and its ledger is `L`. -/
structure Carries (P : Platform) (K : Header → Prop) (c : Client) (L : List Header) : Prop where
  network : c.network.Carries K
  stores : c.chain.Stores P L
  ledger : ∀ b ∈ L, K b
  answers : ∀ channel headers, .response channel headers ∈ c.manager.sent → ∀ b ∈ headers, K b
  downloads : ∀ d ∈ c.downloads, ∀ b ∈ d.queuedHeaders, K b

/-- The block that a step mines. -/
def mined (P : Platform) (c : Client) : ClientStep → List Header
  | .mine draws => minedBy P c.chain (.mine draws)
  | _ => []

/-- What a step brings into the node meets `K`: what comes in, what is asked of the provider from outside, and what is
mined. -/
def Brings (P : Platform) (K : Header → Prop) (c : Client) (x : ClientStep) : Prop :=
  (∀ event, x = .event event → ∀ b ∈ event.headers, K b) ∧
    (∀ request, x = .call request → ∀ b ∈ request.header, K b) ∧ ∀ b ∈ c.mined P x, K b

end Client

namespace Net

variable {K K' : Header → Prop} {w w' : Network} {n n' : NetworkManager} {o o' : Oneshots}

/-! ## The network task -/

theorem GossipMessage.header_blockHeader (header : Header) :
    (GossipMessage.mk blockHeaderTopic (Header.rlp.encode header)).header = some header := by
  simp [GossipMessage.header, GossipMessage.event, Header.rlp.decode_encode_self, ChainNetworkEvent.header]

theorem GossipMessage.header_transactions (data : List UInt8) :
    (GossipMessage.mk transactionsTopic data).header = none := by
  unfold GossipMessage.header GossipMessage.event
  simp only [blockHeaderTopic_ne.symm, if_false, if_true]
  cases Transaction.decodeAll data <;> rfl

/-- What is published for a request brings the header of the request. -/
theorem ProviderRequest.header_of_message {request : ProviderRequest} {message : GossipMessage}
    (h : request.message = some message) : message.header = request.header := by
  cases request with
  | broadcastBlockHeader header =>
    cases h
    exact GossipMessage.header_blockHeader header
  | broadcastTransactions transactions =>
    cases h
    exact GossipMessage.header_transactions _
  | _ => cases h

/-- The headers of the chain side's event come in with the event of the swarm. -/
theorem SwarmEvent.mem_headers_of_forwarded {event : SwarmEvent} {e : ChainNetworkEvent} (h : event.forwarded = some e)
    {b : Header} (hb : b ∈ e.header) : b ∈ event.headers := by
  cases event with
  | gossipsub message =>
    have hevent : message.event = some e := h
    have hheader : message.header = some b := by
      rw [GossipMessage.header, hevent]
      exact hb
    show b ∈ message.header.toList
    rw [hheader]
    simp
  | requestResponse event =>
    cases event with
    | request channel request =>
      cases h
      cases hb
    | _ => cases h
  | _ => cases h

theorem SwarmEvent.headers_of_received {event : SwarmEvent} {headers : List Header} (h : event.received = some headers) :
    event.headers = headers := by
  cases event with
  | requestResponse event =>
    cases event with
    | response requestId response =>
      cases h
      rfl
    | _ => cases h
  | _ => cases h

namespace Network.Carries

theorem mono (h : w.Carries K) (hK : ∀ b, K b → K' b) : w.Carries K' where
  connected := h.connected
  asked request hr b hb := hK b (h.asked request hr b hb)
  published message hm b hb := hK b (h.published message hm b hb)
  events event he b hb := hK b (h.events event he b hb)
  received headers hh b hb := hK b (h.received headers hh b hb)
  served headers hh b hb := hK b (h.served headers hh b hb)

theorem new (K : Header → Prop) (localPeerId : PeerId) : (Network.new localPeerId).Carries K where
  connected := rfl
  asked request hr := by simp [Network.new, Network.requests] at hr
  published message hm := by simp [Network.new, NetworkManager.new, NetworkManager.published] at hm
  events event he := by simp [Network.new, NetworkManager.new] at he
  received headers hh := by simp [Network.new, Oneshots.received] at hh
  served headers hh := by simp [Network.new, NetworkManager.new, NetworkManager.served] at hh

/-- What flows in a step meets `K`, and so do all headers after it. -/
theorem flows (h : w.Carries K) {messages : List GossipMessage} {events : List ChainNetworkEvent}
    {served received : List (List Header)}
    (hflows : Flows w.manager w'.manager w.oneshots w'.oneshots messages events served received)
    (hrequests : ∀ request ∈ w'.requests, ∀ b ∈ request.header, K b) (hmessages : ∀ m ∈ messages, ∀ b ∈ m.header, K b)
    (hevents : ∀ e ∈ events, ∀ b ∈ e.header, K b) (hserved : ∀ headers ∈ served, ∀ b ∈ headers, K b)
    (hreceived : ∀ headers ∈ received, ∀ b ∈ headers, K b) : w'.Carries K where
  connected := hflows.connected.trans h.connected
  asked := hrequests
  published message hm := by
    rw [hflows.published] at hm
    exact (List.mem_append.mp hm).elim (h.published message) (hmessages message)
  events event he := by
    rw [hflows.events] at he
    exact (List.mem_append.mp he).elim (h.events event) (hevents event)
  received headers hh := (hflows.received headers hh).elim (h.received headers) (hreceived headers)
  served headers hh := by
    rw [hflows.served] at hh
    exact (List.mem_append.mp hh).elim (h.served headers) (hserved headers)

theorem call (h : w.Carries K) {request : ProviderRequest} (hr : ∀ b ∈ request.header, K b) :
    (w.call request).Carries K := by
  refine ⟨h.connected, ?_, h.published, h.events, h.received, h.served⟩
  intro request' hr'
  rw [Network.requests, Network.call, List.map_append, List.mem_append] at hr'
  rcases hr' with hr' | hr'
  · exact h.asked request' hr'
  · rw [List.mem_singleton.mp hr']
    exact hr

theorem command (h : w.Carries K) {a : Answers} (he : w.command a = .ok w') : w'.Carries K := by
  rcases command_flows he with ⟨-, rfl⟩ | ⟨request, hrequests, hflows⟩
  · exact h
  · refine h.flows hflows (fun r hr => h.asked r ?_) (fun m hm b hb => ?_) (by simp) (by simp) (by simp)
    · rw [hrequests]
      exact List.mem_cons_of_mem _ hr
    · rw [request.header_of_message (Option.mem_toList.mp hm)] at hb
      refine h.asked request ?_ b hb
      rw [hrequests]
      exact List.mem_cons_self

theorem event (h : w.Carries K) {event : SwarmEvent} (hK : ∀ b ∈ event.headers, K b) (he : w.event event = .ok w') :
    w'.Carries K := by
  obtain ⟨hrequests, hflows⟩ := event_flows h.connected he
  refine h.flows hflows (fun r hr => h.asked r ?_) (by simp) (fun e he b hb => ?_) (by simp) (fun headers hh b hb => ?_)
  · rwa [hrequests] at hr
  · exact hK b (SwarmEvent.mem_headers_of_forwarded (Option.mem_toList.mp he) hb)
  · rw [← SwarmEvent.headers_of_received (Option.mem_toList.mp hh)] at hb
    exact hK b hb

theorem response (h : w.Carries K) {i : ℕ} {headers : List Header} (hK : ∀ b ∈ headers, K b) :
    Network.Carries K { w with manager := w.manager.handleResponseBlockHeaders i (.ok headers) } := by
  have hafter := @flows _ w { w with manager := w.manager.handleResponseBlockHeaders i (.ok headers) } h
  rcases handleResponseBlockHeaders_flows w.manager w.oneshots i headers with hflows | hflows
  · exact hafter hflows h.asked (by simp) (by simp) (by simp) (by simp)
  · refine hafter hflows h.asked (by simp) (by simp) ?_ (by simp)
    intro headers' hh
    rw [List.mem_singleton.mp hh]
    exact hK

/-- A step of the network task, or of one that uses it. -/
theorem step (h : w.Carries K) {x : NetworkStep} (hevent : ∀ event, x = .event event → ∀ b ∈ event.headers, K b)
    (hcall : ∀ request, x = .call request → ∀ b ∈ request.header, K b)
    (hresponse : ∀ i response, x = .response i response → ∃ headers, response = .ok headers ∧ ∀ b ∈ headers, K b)
    (he : w.step x = .ok w') : w'.Carries K := by
  cases x with
  | call request =>
    cases he
    exact h.call (hcall request rfl)
  | drop tx =>
    cases he
    split
    · exact ⟨h.connected, h.asked, h.published, h.events, h.received, h.served⟩
    · exact h
  | command a => exact h.command he
  | event event => exact h.event (hevent event rfl) he
  | response i response =>
    cases he
    obtain ⟨headers, rfl, hK⟩ := hresponse i response rfl
    exact h.response hK
  | bootstrap =>
    cases he
    exact h.flows ((Flows.refl w.manager w.oneshots).call .bootstrap) h.asked (by simp [SwarmCall.message]) (by simp)
      (by simp [SwarmCall.served]) (by simp)

end Network.Carries

/-! ## Downloads -/

/-- A reply that is found was sent. -/
theorem mem_received_of_headersReply {tx : ℕ} {headers : List Header} (h : w.headersReply tx = some (.ok headers)) :
    headers ∈ w.oneshots.received := by
  obtain ⟨⟨c, reply⟩, hx, hf⟩ := List.exists_of_findSome?_eq_some h
  refine List.mem_filterMap.mpr ⟨(c, reply), hx, ?_⟩
  cases reply with
  | headers response =>
    simp only [Option.ite_none_right_eq_some, Option.some.injEq] at hf
    obtain ⟨-, rfl⟩ := hf
    rfl
  | _ => cases hf

/-- Looking at the futures changes nothing. -/
theorem pollNext_world {look : List ℕ → Network → Client.Found} {queue : List ℕ}
    {found : Option (Fin queue.length × RequestResponse HeadersResponse)}
    (h : (Network.headersEnv look).pollNext queue w = (found, w')) : w' = w := by
  have hsnd := congrArg Prod.snd h
  unfold Network.headersEnv at hsnd
  simp only at hsnd
  split at hsnd <;> exact hsnd.symm

/-- The headers that are found were received. -/
theorem mem_received_of_pollNext {look : List ℕ → Network → Client.Found} {queue : List ℕ} {i : Fin queue.length}
    {headers : List Header} (h : (Network.headersEnv look).pollNext queue w = (some (i, .ok headers), w')) :
    headers ∈ w.oneshots.received := by
  have hfst := congrArg Prod.fst h
  unfold Network.headersEnv at hfst
  simp only at hfst
  split at hfst
  · cases hfst
  · split at hfst
    · obtain ⟨response, hreply, heq⟩ := Option.map_eq_some_iff.mp hfst
      cases heq
      exact mem_received_of_headersReply hreply
    · cases hfst
  · split at hfst <;> cases hfst

/-- The headers that a download has taken, and those in the network task, meet `K`. -/
theorem keeps_carries (K : Header → Prop) (look : List ℕ → Network → Client.Found) :
    Keeps (Network.headersEnv look) fun d w => (∀ b ∈ d.queuedHeaders, K b) ∧ w.Carries K := by
  refine ⟨?_, ?_, ?_⟩
  · intro s w w' hJ hp
    rwa [pollNext_world hp]
  · rintro s w w' s' i response ⟨hs, hw⟩ hp hready
    obtain ⟨headers, rfl, -, rfl⟩ := onReady_eq_ok hready
    rw [pollNext_world hp]
    refine ⟨fun b hb => ?_, hw⟩
    rcases List.mem_append.mp hb with hb | hb
    · exact hs b hb
    · exact hw.received _ (mem_received_of_pollNext hp) b hb
  · rintro s w w' fut ⟨hs, hw⟩ - - hg
    cases hg
    exact ⟨hs, hw.call fun b hb => by cases hb⟩

end Net

/-! ## A node -/

namespace Client

variable {P : Platform} {K K' : Header → Prop} {c c' : Client} {L : List Header}

/-- Below the last number, mining puts a block on the tip and asks for its broadcast. -/
theorem mineAndBroadcastBlock_of_below (h : c.chain.Stores P L) (hbelow : L.length < 2 ^ 64) (draws : Chain.Draws) :
    c.mineAndBroadcastBlock P draws = .ok { c with
      manager := { c.manager with chain := Chain.insertHeader P (minedOn P draws (L.getLast h.ne_nil)) c.chain }
      network := c.network.call (.broadcastBlockHeader (minedOn P draws (L.getLast h.ne_nil))) } := by
  simp only [mineAndBroadcastBlock, Chain.mine, runOn_mineBlock_below h hbelow draws, Except.mapError]
  rfl

theorem mined_of_below (h : c.chain.Stores P L) (hbelow : L.length < 2 ^ 64) (draws : Chain.Draws) :
    c.mined P (.mine draws) = [minedOn P draws (L.getLast h.ne_nil)] := by
  simp only [mined, minedBy, ChainM.eval_eq, runOn_mineBlock_below h hbelow draws]

/-- Only mining mines. -/
theorem exists_of_mem_mined {x : ClientStep} {b : Header} (hb : b ∈ c.mined P x) : ∃ draws, x = .mine draws := by
  cases x with
  | mine draws => exact ⟨draws, rfl⟩
  | _ => cases hb

namespace Carries

theorem mono (h : c.Carries P K L) (hK : ∀ b, K b → K' b) : c.Carries P K' L where
  network := h.network.mono hK
  stores := h.stores
  ledger b hb := hK b (h.ledger b hb)
  answers channel headers hh b hb := hK b (h.answers channel headers hh b hb)
  downloads d hd b hb := hK b (h.downloads d hd b hb)

theorem start (P : Platform) (localPeerId : PeerId) {K : Header → Prop} (hK : K (Chain.genesis P)) :
    (startNetwork P Db.empty localPeerId).Carries P K [Chain.genesis P] where
  network := .new K localPeerId
  stores := stores_new P
  ledger b hb := by rwa [List.mem_singleton.mp hb]
  answers channel headers hh := by simp [startNetwork, ChainNetworkManager.new] at hh
  downloads d hd := by simp [startNetwork] at hd

/-- A node that is started on a database that has a ledger. -/
theorem restart {db : Db} (h : db.Stores P L) (localPeerId : PeerId) (hL : ∀ b ∈ L, K b) (hK : K (Chain.genesis P)) :
    (startNetwork P db localPeerId).Carries P K (put height L (Chain.genesis P)) where
  network := .new K localPeerId
  stores := h.insertHeader (height_genesis_le P L)
  ledger b hb := by
    rcases (absorbs_put (height_genesis_le P L)).mem b hb with hb | hb
    · exact hL b hb
    · rwa [List.mem_singleton.mp hb]
  answers channel headers hh := by simp [startNetwork, ChainNetworkManager.new] at hh
  downloads d hd := by simp [startNetwork] at hd

theorem networkStep (h : c.Carries P K L) {x : NetworkStep}
    (hevent : ∀ event, x = .event event → ∀ b ∈ event.headers, K b)
    (hcall : ∀ request, x = .call request → ∀ b ∈ request.header, K b)
    (hresponse : ∀ i response, x = .response i response → ∃ headers, response = .ok headers ∧ ∀ b ∈ headers, K b)
    (he : c.networkStep x = .ok c') : c'.Carries P K L := by
  obtain ⟨w, hw, he⟩ := exists_of_bind_eq_ok he
  cases he
  exact ⟨h.network.step hevent hcall hresponse (mapError_eq_ok_iff.mp hw), h.stores, h.ledger, h.answers, h.downloads⟩

/-- What the chain side asks for is handed over. -/
theorem handOver {w : Network} (h : w.Carries K) {new : List Sent}
    (hnew : ∀ b, .broadcastBlockHeader b ∈ new → K b) : (new.foldl Client.handOver w).Carries K := by
  induction new generalizing w with
  | nil => exact h
  | cons x new ih =>
    refine ih ?_ fun b hb => hnew b (List.mem_cons_of_mem x hb)
    cases x with
    | broadcastBlockHeader header =>
      exact h.call fun b hb => by
        cases hb
        exact hnew header List.mem_cons_self
    | broadcastTransactions transactions => exact h.call fun b hb => by cases hb
    | getClosestPeers => exact h.call fun b hb => by cases hb
    | response channel headers => exact h

/-- The chain side goes on, and its ledger has taken in some headers that meet `K`. -/
theorem withManager (h : c.Carries P K L) {manager : ChainNetworkManager} {new : List Sent} {L' added : List Header}
    (hsent : manager.sent = c.manager.sent ++ new) (hstores : manager.chain.Stores P L') (habsorbs : Absorbs L L' added)
    (hadded : ∀ b ∈ added, K b) (hnew : ∀ b, .broadcastBlockHeader b ∈ new → K b)
    (hresponses : ∀ channel headers, .response channel headers ∈ new → ∀ b ∈ headers, K b) :
    (c.withManager manager).Carries P K L' where
  network := by
    unfold Client.withManager
    rw [hsent, List.drop_left]
    exact handOver h.network hnew
  stores := hstores
  ledger b hb := (habsorbs.mem b hb).elim (h.ledger b) (hadded b)
  answers channel headers hh := by
    change Sent.response channel headers ∈ manager.sent at hh
    rw [hsent] at hh
    exact (List.mem_append.mp hh).elim (h.answers channel headers) (hresponses channel headers)
  downloads := h.downloads

theorem onEvent (h : c.Carries P K L) (he : c.onEvent P = .ok c') :
    ∃ L', c'.Carries P K L' ∧ L.length ≤ L'.length := by
  unfold Client.onEvent at he
  split at he
  · rename_i event hevent
    obtain ⟨manager, hm, he⟩ := exists_of_bind_eq_ok he
    cases he
    obtain ⟨L', new, hstores, habsorbs, hsent, hon⟩ := onEvent_flow h.stores (mapError_eq_ok_iff.mp hm)
    have hK := h.network.events event (List.mem_of_getElem? hevent)
    have hnext := h.withManager hsent hstores habsorbs (fun b hb => hK b (Option.mem_toList.mp hb))
      (fun b hb => hK b (by rw [show event = _ from hon _ hb]; rfl))
      (fun channel headers hh b hb => h.ledger b (hon _ hh b hb))
    exact ⟨L', ⟨hnext.network, hnext.stores, hnext.ledger, hnext.answers, hnext.downloads⟩, habsorbs.length_le⟩
  · cases he
    exact ⟨L, h, le_rfl⟩

theorem onPeers (h : c.Carries P K L) {outcome : RequestResponse (List PeerId)} (he : c.onPeers P outcome = .ok c') :
    c'.Carries P K L := by
  obtain ⟨manager, hm, he⟩ := exists_of_bind_eq_ok he
  cases he
  obtain ⟨requests, closest, rfl⟩ := pollPeers_eq (mapError_eq_ok_iff.mp hm)
  have hsent : ({ c.manager with syncRequests := requests, closestPeersRequestForSync := closest } :
      ChainNetworkManager).sent = c.manager.sent ++ [] := (List.append_nil _).symm
  have hnext := h.withManager hsent h.stores (.refl L) (by simp) (by simp) (by simp)
  refine ⟨hnext.network, hnext.stores, hnext.ledger, hnext.answers, ?_⟩
  intro d hd b hb
  rcases List.mem_append.mp hd with hd | hd
  · exact h.downloads d hd b hb
  · -- a download that was just built has no headers
    obtain ⟨builder, -, hbuild⟩ := List.mem_filterMap.mp hd
    obtain ⟨peer, -, rfl⟩ := Option.map_eq_some_iff.mp hbuild
    cases hb

theorem onDownload (h : c.Carries P K L) {k fuel : ℕ} {look : List ℕ → Network → Found}
    (he : c.onDownload P k fuel look = .ok c') : ∃ L', c'.Carries P K L' ∧ L.length ≤ L'.length := by
  unfold Client.onDownload at he
  split at he
  · rename_i download hdownload
    have hJ : (∀ b ∈ download.queuedHeaders, K b) ∧ c.network.Carries K :=
      ⟨h.downloads download (List.mem_of_getElem? hdownload), h.network⟩
    split at he
    · rename_i output network hpoll
      have hafter := (keeps_carries K look).poll hJ hpoll
      obtain ⟨manager, hm, he⟩ := exists_of_bind_eq_ok he
      cases he
      obtain ⟨L', hstores, habsorbs, hsent, -⟩ := pollSyncs_flow h.stores (mapError_eq_ok_iff.mp hm)
      have hout : network.Carries K ∧ ∀ b ∈ output.toOption.getD [], K b := by
        cases output with
        | ok headers =>
          obtain ⟨d, ⟨hd, hw⟩, -, -, rfl⟩ := hafter
          exact ⟨hw, hd⟩
        | error e =>
          obtain ⟨d, w, i, response, ⟨-, hw⟩, hp, -⟩ := hafter
          rw [pollNext_world hp]
          exact ⟨hw, by simp [Except.toOption]⟩
      have hbase : Carries P K { c with network } L := ⟨hout.1, h.stores, h.ledger, h.answers, h.downloads⟩
      have hsent' : manager.sent = c.manager.sent ++ [] := by rw [hsent, List.append_nil]
      have hnext := hbase.withManager hsent' hstores habsorbs hout.2 (by simp) (by simp)
      refine ⟨L', ⟨hnext.network, hnext.stores, hnext.ledger, hnext.answers, ?_⟩, habsorbs.length_le⟩
      intro d hd
      exact h.downloads d (List.mem_of_mem_eraseIdx hd)
    · rename_i download' network hpoll
      cases he
      obtain ⟨hd, hw⟩ := (keeps_carries K look).poll hJ hpoll
      refine ⟨L, ⟨hw, h.stores, h.ledger, h.answers, ?_⟩, le_rfl⟩
      intro d hmem
      rcases List.mem_or_eq_of_mem_set hmem with hmem | rfl
      · exact h.downloads d hmem
      · exact hd
    · cases he
      exact ⟨L, h, le_rfl⟩
  · cases he
    exact ⟨L, h, le_rfl⟩

/-- A block that is mined below the last number is put on top of the ledger. -/
theorem mine (h : c.Carries P K L) (hbelow : Below P c.chain) {draws : Chain.Draws}
    (hK : ∀ b ∈ c.mined P (.mine draws), K b) (he : c.mineAndBroadcastBlock P draws = .ok c') :
    ∃ header, c.mined P (.mine draws) = [header] ∧ height header = L.length ∧ c'.Carries P K (L ++ [header]) := by
  rw [below_iff h.stores] at hbelow
  have hheight := height_minedOn_getLast h.stores hbelow draws
  have hmined := mined_of_below h.stores hbelow draws
  rw [mineAndBroadcastBlock_of_below h.stores hbelow] at he
  cases he
  generalize minedOn P draws (L.getLast h.stores.ne_nil) = header at hheight hmined
  have hheader : K header := hK header (by rw [hmined]; exact List.mem_singleton_self header)
  have hput : put height L header = L ++ [header] := by
    unfold put
    rw [if_neg (by omega)]
  refine ⟨header, hmined, hheight, h.network.call (fun b hb => ?_), ?_, ?_, h.answers, h.downloads⟩
  · cases hb
    exact hheader
  · rw [← hput]
    exact h.stores.insertHeader hheight.le
  · intro b hb
    rcases List.mem_append.mp hb with hb | hb
    · exact h.ledger b hb
    · rwa [List.mem_singleton.mp hb]

/-- **A node only passes on.**  If what a step brings into the node meets `K`, all headers in it still do. -/
theorem step (h : c.Carries P K L) {x : ClientStep} (hbrings : Brings P K c x)
    (hbelow : ∀ draws, x = .mine draws → Below P c.chain) (he : c.step P x = .ok c') :
    ∃ L', c'.Carries P K L' ∧ L.length ≤ L'.length := by
  obtain ⟨hevent, hcall, hmined⟩ := hbrings
  have hnetwork : ∀ y : NetworkStep, (∀ event, y = .event event → x = .event event) →
      (∀ request, y = .call request → x = .call request) → (∀ i response, y ≠ .response i response) →
      c.networkStep y = .ok c' → ∃ L', c'.Carries P K L' ∧ L.length ≤ L'.length := by
    intro y hy hy' hy'' hstep
    exact ⟨L, h.networkStep (fun e he => hevent e (hy e he)) (fun r hr => hcall r (hy' r hr))
      (fun i r hr => absurd hr (hy'' i r)) hstep, le_rfl⟩
  cases x with
  | command a => exact hnetwork (.command a) (by simp) (by simp) (by simp) he
  | event event => exact hnetwork (.event event) (by simp) (by simp) (by simp) he
  | bootstrap => exact hnetwork .bootstrap (by simp) (by simp) (by simp) he
  | drop tx => exact hnetwork (.drop tx) (by simp) (by simp) (by simp) he
  | call request => exact hnetwork (.call request) (by simp) (by simp) (by simp) he
  | respond i =>
    change c.respond i = .ok c' at he
    unfold Client.respond at he
    split at he
    · split at he
      · rename_i channel hchannel headers hanswer
        obtain ⟨x, hx, hfound⟩ := List.exists_of_findSome?_eq_some hanswer
        have hK : ∀ b ∈ headers, K b := by
          cases x with
          | response ch headers' =>
            simp only [Option.ite_none_right_eq_some, Option.some.injEq] at hfound
            obtain ⟨-, rfl⟩ := hfound
            exact h.answers ch headers' hx
          | _ => cases hfound
        refine ⟨L, h.networkStep (by simp) (by simp) ?_ he, le_rfl⟩
        intro j response hresponse
        cases hresponse
        exact ⟨headers, rfl, hK⟩
      · cases he
        exact ⟨L, h, le_rfl⟩
    · cases he
      exact ⟨L, h, le_rfl⟩
  | onEvent => exact h.onEvent he
  | onPeers outcome => exact ⟨L, h.onPeers he, le_rfl⟩
  | onDownload k fuel look => exact h.onDownload he
  | mine draws =>
    obtain ⟨header, -, -, hnext⟩ := h.mine (hbelow draws rfl) hmined he
    exact ⟨_, hnext, by simp⟩
  | submit txs =>
    cases he
    exact ⟨L, ⟨h.network.call fun b hb => (by cases hb), h.stores, h.ledger, h.answers, h.downloads⟩, le_rfl⟩

theorem brought (h : c.Carries P K L) (k fuel : ℕ) (look : List ℕ → Network → Found) :
    ∀ b ∈ c.brought k fuel look, K b := by
  intro b hb
  unfold Client.brought at hb
  split at hb
  · rename_i download hdownload
    split at hb
    · rename_i headers network hpoll
      obtain ⟨d, ⟨hd, -⟩, -, -, rfl⟩ := (keeps_carries K look).poll
        ⟨h.downloads download (List.mem_of_getElem? hdownload), h.network⟩ hpoll
      exact hd b hb
    · cases hb
  · cases hb

/-- What a node leaves when it stops in the middle of a step. -/
theorem halt (h : c.Carries P K L) {x : ClientStep} {n : ℕ} (hbrings : n ≠ 0 → Brings P K c x)
    (hbelow : ∀ draws, x = .mine draws → Below P c.chain) :
    ∃ L', (c.halt P x n).Stores P L' ∧ (∀ b ∈ L', K b) ∧ L.length ≤ L'.length := by
  unfold Client.halt
  split
  · rename_i k fuel look
    split
    · rename_i manager hadd
      obtain ⟨chain, L', rfl, hL', habsorbs⟩ := addHeaders_flow h.stores hadd
      refine ⟨L', hL', fun b hb => ?_, habsorbs.length_le⟩
      exact (habsorbs.mem b hb).elim (h.ledger b) fun hb => h.brought k fuel look b (List.mem_of_mem_take hb)
    · exact ⟨L, h.stores, h.ledger, le_rfl⟩
  · split
    · exact ⟨L, h.stores, h.ledger, le_rfl⟩
    · rename_i hn
      split
      · rename_i c' hc'
        obtain ⟨L', hL', hle⟩ := h.step (hbrings hn) hbelow hc'
        exact ⟨L', hL'.stores, hL'.ledger, hle⟩
      · exact ⟨L, h.stores, h.ledger, le_rfl⟩

end Carries

end Client

end Simb
