import Simb.Client.Carries
import Simb.Net.NoPanic

/-!
# What a step of a node does

A node takes in gossip and publishes some: what it is to publish waits in its outbox, and the events that came in wait
in its inbox.  As long as no header comes in without its parent, the node is calm: it never asks for its closest peers
and starts no downloads.  Then a step publishes the first message of the outbox, or adds an event to the inbox, or handles
the first event of the inbox, or puts a message of its own into the outbox, or does none of these (`Calm.effect`).  A step
of a calm node does not panic (`Calm.step_ok`).
-/

namespace Simb

open Simb.BlockTree Simb.Net Simb.Tasks Simb.Lib

namespace Net

/-- The message that announces a header. -/
def announce (header : Header) : GossipMessage := ⟨blockHeaderTopic, Header.rlp.encode header⟩

/-- The message that announces transactions. -/
def announceAll (transactions : List Transaction) : GossipMessage :=
  ⟨transactionsTopic, Transaction.encodeAll transactions⟩

/-- The message that is to be published for what the chain side asks for. -/
def Sent.message (x : Sent) : Option GossipMessage := x.request.bind ProviderRequest.message

end Net

namespace Client

/-- What the node has published, oldest first. -/
def published (c : Client) : List GossipMessage := c.network.manager.published

/-- What the node is to publish. -/
def outbox (c : Client) : List GossipMessage := c.network.requests.filterMap ProviderRequest.message

/-- The events that wait for the chain side. -/
def inbox (c : Client) : List ChainNetworkEvent := c.network.manager.eventSender.sent.drop c.received

/-- The messages that a step makes. -/
def makes (P : Platform) (c : Client) : ClientStep → List GossipMessage
  | .mine draws => (c.mined P (.mine draws)).map announce
  | .submit txs => [announceAll (c.manager.pool.addTransactionsAndBroadcast txs (.ok ())).broadcast]
  | _ => []

/-- No headers are asked for, and every receiver that is gone has its reply. -/
structure Calm (c : Client) : Prop where
  composed : c.network.Composed
  received : c.received ≤ c.network.manager.eventSender.sent.length
  idle : c.manager.Idle
  syncRequests : c.manager.syncRequests = []
  downloads : c.downloads = []

/-- A step from outside leaves a calm node calm: a receiver goes out of scope only when its reply is there, only the node
itself broadcasts, and gossip decodes. -/
structure Mild (c : Client) (x : ClientStep) : Prop where
  drops : ∀ tx, x = .drop tx → tx ∈ c.network.oneshots.sent.map Prod.fst
  calls : ∀ request, x = .call request → request.message = none
  decodes : ∀ message, x = .event (.gossipsub message) → message.Decodes

/-- Between `c` and `c'`, some messages were published, and some asked for; some events came in, and some were
handled. -/
structure Moves (c c' : Client) (out asked : List GossipMessage) (come handled : List ChainNetworkEvent) : Prop where
  published : c'.published = c.published ++ out
  outbox : c.outbox ++ asked = out ++ c'.outbox
  inbox : c.inbox ++ come = handled ++ c'.inbox

/-- What a step does to the outbox and the inbox, and to the chain and the pool. -/
inductive Effect (P : Platform) (c : Client) (x : ClientStep) (c' : Client) : Prop where
  | rest : c.makes P x = [] → Moves c c' [] [] [] [] → c'.manager = c.manager → Effect P c x c'
  | publish (m : GossipMessage) : c.makes P x = [] → Moves c c' [m] [] [] [] → c'.manager = c.manager → Effect P c x c'
  | hear (event : SwarmEvent) (e : ChainNetworkEvent) : x = .event event → event.forwarded = some e →
      Moves c c' [] [] [e] [] → c'.manager = c.manager → Effect P c x c'
  | handle (e : ChainNetworkEvent) (new : List Sent) : x = .onEvent → c.manager.onEvent P e = .ok c'.manager →
      c'.manager.sent = c.manager.sent ++ new → Moves c c' [] (new.filterMap Sent.message) [] [e] → Effect P c x c'
  | mine (draws : Chain.Draws) (header : Header) : x = .mine draws → c.mined P x = [header] →
      c'.manager = { c.manager with chain := Chain.insertHeader P header c.chain } →
      Moves c c' [] [announce header] [] [] → Effect P c x c'
  | submit (txs : List Transaction) : x = .submit txs →
      c'.manager = { c.manager with pool := (c.manager.pool.addTransactionsAndBroadcast txs (.ok ())).pool } →
      Moves c c' [] [announceAll (c.manager.pool.addTransactionsAndBroadcast txs (.ok ())).broadcast] [] [] →
      Effect P c x c'

variable {P : Platform} {c c' : Client} {w w' : Network} {L : List Header}

/-! ## The network task -/

theorem Moves.of_flows {messages : List GossipMessage} {events : List ChainNetworkEvent}
    {served received : List (List Header)}
    (h : Flows c.network.manager w'.manager c.network.oneshots w'.oneshots messages events served received)
    (hreceived : c.received ≤ c.network.manager.eventSender.sent.length)
    (hrequests : c.network.requests.filterMap ProviderRequest.message =
      messages ++ w'.requests.filterMap ProviderRequest.message) :
    Moves c { c with network := w' } messages [] events [] where
  published := h.published
  outbox := by
    rw [List.append_nil]
    exact hrequests
  inbox := by
    show _ = w'.manager.eventSender.sent.drop c.received
    rw [h.events, List.drop_append_of_le_length hreceived]
    rfl

theorem Moves.mem_outbox {out asked : List GossipMessage} {come handled : List ChainNetworkEvent}
    (h : Moves c c' out asked come handled) {m : GossipMessage} (hm : m ∈ c'.outbox) : m ∈ c.outbox ∨ m ∈ asked := by
  rw [← List.mem_append, h.outbox]
  exact List.mem_append_right _ hm

theorem Moves.mem_inbox {out asked : List GossipMessage} {come handled : List ChainNetworkEvent}
    (h : Moves c c' out asked come handled) {e : ChainNetworkEvent} (he : e ∈ c'.inbox) : e ∈ c.inbox ∨ e ∈ come := by
  rw [← List.mem_append, h.inbox]
  exact List.mem_append_right _ he

/-- What the chain side has asked for waits in the outbox. -/
theorem foldl_handOver (new : List Sent) (w : Network) :
    (new.foldl handOver w).manager = w.manager ∧
      (new.foldl handOver w).requests = w.requests ++ new.filterMap Sent.request := by
  induction new generalizing w with
  | nil => simp
  | cons x new ih =>
    obtain ⟨hmanager, hrequests⟩ := ih (handOver w x)
    rw [List.foldl_cons, hmanager, hrequests]
    unfold handOver
    cases hx : x.request with
    | none => simp [hx]
    | some request => simp [hx, Network.call, Network.requests]

theorem composed_call (h : w.Composed) (request : ProviderRequest) : (w.call request).Composed :=
  h.step (x := .call request) ⟨by simp, by simp⟩ rfl

theorem composed_handOver (h : w.Composed) (new : List Sent) : (new.foldl handOver w).Composed := by
  induction new generalizing w with
  | nil => exact h
  | cons x new ih =>
    refine ih ?_
    unfold handOver
    split
    · exact composed_call h _
    · exact h

theorem Moves.of_request {request : ProviderRequest} {manager : ChainNetworkManager} :
    Moves c { c with network := c.network.call request, manager } [] request.message.toList [] [] where
  published := (List.append_nil _).symm
  outbox := by
    show _ = (c.network.call request).requests.filterMap _
    rw [show (c.network.call request).requests = c.network.requests ++ [request] by
      simp [Network.call, Network.requests], List.filterMap_append]
    cases hm : request.message <;> simp [Client.outbox, hm]
  inbox := List.append_nil _

theorem Moves.of_withManager {manager : ChainNetworkManager} {new : List Sent}
    (hsent : manager.sent = c.manager.sent ++ new) :
    Moves c (c.withManager manager) [] (new.filterMap Sent.message) [] [] := by
  obtain ⟨hmanager, hrequests⟩ := foldl_handOver new c.network
  have hnetwork : (c.withManager manager).network = new.foldl handOver c.network := by
    unfold withManager
    rw [hsent, List.drop_left]
  refine ⟨?_, ?_, ?_⟩
  · unfold Client.published
    rw [hnetwork, hmanager, List.append_nil]
  · unfold Client.outbox
    rw [hnetwork, hrequests, List.filterMap_append, List.filterMap_filterMap]
    rfl
  · unfold Client.inbox
    rw [hnetwork, hmanager, List.append_nil]
    rfl

/-! ## Calm nodes -/

/-- If the next event is a header, it is valid on the ledger. -/
def Expects (P : Platform) (c : Client) (L : List Header) : Prop :=
  ∀ b rest, c.inbox = .incomingNewBlockHeader b :: rest → validate P L b = .ok ()

/-- An event that is no orphan starts no sync. -/
theorem manager_of_onEvent {m m' : ChainNetworkManager} (hL : m.chain.Stores P L) {e : ChainNetworkEvent}
    (he : m.onEvent P e = .ok m') (hvalid : ∀ b, e = .incomingNewBlockHeader b → validate P L b = .ok ()) :
    (m'.Idle ↔ m.Idle) ∧ m'.syncRequests = m.syncRequests := by
  cases e with
  | incomingNewBlockHeader header =>
    rcases onNewBlockHeader_ledger hL he with ⟨-, -, rfl⟩ | ⟨-, -, rfl⟩ | ⟨hv, -⟩ | ⟨hv, -⟩
    · exact ⟨Iff.rfl, rfl⟩
    · exact ⟨Iff.rfl, rfl⟩
    · rw [hvalid header rfl] at hv
      cases hv
    · rw [hvalid header rfl] at hv
      cases hv
  | incomingTransactions transactions =>
    cases he
    exact ⟨Iff.rfl, rfl⟩
  | getBlockHeaders channel request =>
    obtain ⟨headers, -, he⟩ := exists_of_bind_eq_ok he
    cases he
    exact ⟨Iff.rfl, rfl⟩

/-- Nor does it panic. -/
theorem onEvent_ok {m : ChainNetworkManager} (hL : m.chain.Stores P L) (hbelow : L.length < 2 ^ 64)
    {e : ChainNetworkEvent} (hvalid : ∀ b, e = .incomingNewBlockHeader b → validate P L b = .ok ()) :
    ∃ m', m.onEvent P e = .ok m' := by
  cases e with
  | incomingNewBlockHeader header =>
    have hrun := runOn_tryAddBlockHeader hL header
    rw [hvalid header rfl] at hrun
    show ∃ m', m.onNewBlockHeader P header = .ok m'
    unfold ChainNetworkManager.onNewBlockHeader
    rw [hrun]
    split_ifs
    · exact ⟨_, rfl⟩
    · exact ⟨_, rfl⟩
  | incomingTransactions transactions => exact ⟨_, rfl⟩
  | getBlockHeaders channel request =>
    have hserved := headersFrom_eq hL hbelow request.limit.toNat request.startBlock
    show ∃ m', (m.handleGetBlockHeadersRequest P request >>= _) = .ok m'
    unfold ChainNetworkManager.handleGetBlockHeadersRequest
    rw [hserved]
    exact ⟨_, rfl⟩

namespace Calm

/-- The network task goes on as `w`, with some more events. -/
theorem of_network (h : c.Calm) (hw : w.Composed) {events : List ChainNetworkEvent}
    (hevents : w.manager.eventSender.sent = c.network.manager.eventSender.sent ++ events) :
    Calm { c with network := w } := by
  refine ⟨hw, ?_, h.idle, h.syncRequests, h.downloads⟩
  show c.received ≤ w.manager.eventSender.sent.length
  rw [hevents, List.length_append]
  exact Nat.le_add_right_of_le h.received

/-- The network task handles an event of the swarm. -/
theorem event (h : c.Calm) {event : SwarmEvent} (hdecodes : ∀ message, event = .gossipsub message → message.Decodes)
    (he : c.networkStep (.event event) = .ok c') :
    c'.Calm ∧ c'.manager = c.manager ∧ Moves c c' [] [] event.forwarded.toList [] := by
  obtain ⟨w, hw, he⟩ := exists_of_bind_eq_ok he
  cases he
  have hstep := mapError_eq_ok_iff.mp hw
  have hcomposed := h.composed.step ⟨by simp, fun m hm => hdecodes m (NetworkStep.event.inj hm)⟩ hstep
  obtain ⟨hrequests, hflows⟩ := event_flows h.composed.connected hstep
  exact ⟨h.of_network hcomposed hflows.events, rfl, .of_flows hflows h.received (by rw [hrequests]; rfl)⟩

/-- A step of the network task. -/
theorem networkStep (h : c.Calm) {x : NetworkStep} (hx : Considerate c.network x)
    (hcalls : ∀ request, x = .call request → request.message = none)
    (hresponse : ∀ i response, x = .response i response → ∃ headers, response = .ok headers)
    (he : c.networkStep x = .ok c') :
    c'.Calm ∧ c'.manager = c.manager ∧ (Moves c c' [] [] [] [] ∨ (∃ m, Moves c c' [m] [] [] []) ∨
      ∃ event e, x = .event event ∧ event.forwarded = some e ∧ Moves c c' [] [] [e] []) := by
  obtain ⟨w, hw, hret⟩ := exists_of_bind_eq_ok he
  cases hret
  have hstep := mapError_eq_ok_iff.mp hw
  have hcomposed := h.composed.step hx hstep
  have hquiet : ∀ {served received}, Flows c.network.manager w.manager c.network.oneshots w.oneshots [] [] served received →
      w.requests.filterMap ProviderRequest.message = c.network.requests.filterMap ProviderRequest.message →
      Moves c { c with network := w } [] [] [] [] := fun hflows hrequests =>
    .of_flows hflows h.received (by rw [hrequests, List.nil_append])
  have hcalm : ∀ {events : List ChainNetworkEvent},
      w.manager.eventSender.sent = c.network.manager.eventSender.sent ++ events → Calm { c with network := w } :=
    fun hevents => h.of_network hcomposed hevents
  cases x with
  | call request =>
    cases hstep
    refine ⟨hcalm (List.append_nil _).symm, rfl, .inl ?_⟩
    have hmoves : Moves c { c with network := c.network.call request, manager := c.manager } _ _ _ _ := .of_request
    rwa [hcalls request rfl] at hmoves
  | drop tx =>
    cases hstep
    refine ⟨@hcalm [] ?_, rfl, .inl ⟨?_, ?_, ?_⟩⟩ <;> split <;>
      simp [Network.drop, Client.published, Client.outbox, Client.inbox, Network.requests]
  | command a =>
    rcases command_flows hstep with ⟨-, rfl⟩ | ⟨request, hrequests, hflows⟩
    · exact ⟨hcalm (List.append_nil _).symm, rfl, .inl (hquiet (.refl _ _) rfl)⟩
    · refine ⟨hcalm hflows.events, rfl, ?_⟩
      cases hm : request.message with
      | none =>
        rw [hm] at hflows
        exact .inl (hquiet hflows (by rw [hrequests, List.filterMap_cons_none hm]))
      | some m =>
        rw [hm] at hflows
        exact .inr (.inl ⟨m, .of_flows hflows h.received (by rw [hrequests, List.filterMap_cons_some hm]; rfl)⟩)
  | event event =>
    obtain ⟨hcalm, hmanager, hmoves⟩ := h.event (fun m hm => hx.2 m (by rw [hm])) he
    refine ⟨hcalm, hmanager, ?_⟩
    cases hforwarded : event.forwarded with
    | none =>
      rw [hforwarded] at hmoves
      exact .inl hmoves
    | some e =>
      rw [hforwarded] at hmoves
      exact .inr (.inr ⟨event, e, rfl, hforwarded, hmoves⟩)
  | response i response =>
    cases hstep
    obtain ⟨headers, rfl⟩ := hresponse i response rfl
    rcases handleResponseBlockHeaders_flows c.network.manager c.network.oneshots i headers with hflows | hflows
    · exact ⟨hcalm hflows.events, rfl, .inl (hquiet hflows rfl)⟩
    · exact ⟨hcalm hflows.events, rfl, .inl (hquiet hflows rfl)⟩
  | bootstrap =>
    cases hstep
    have hflows := (Flows.refl c.network.manager c.network.oneshots).call .bootstrap
    exact ⟨hcalm hflows.events, rfl, .inl (hquiet hflows rfl)⟩

/-- The chain side takes the next event. -/
theorem onEvent (h : c.Calm) (hL : c.chain.Stores P L) (hexpected : c.Expects P L) (he : c.onEvent P = .ok c') :
    c'.Calm ∧ Effect P c .onEvent c' := by
  unfold Client.onEvent at he
  split at he
  · rename_i e hnext
    obtain ⟨manager, hm, he⟩ := exists_of_bind_eq_ok he
    cases he
    have honEvent := mapError_eq_ok_iff.mp hm
    obtain ⟨hlt, hget⟩ := List.getElem?_eq_some_iff.mp hnext
    have hinbox : c.inbox = e :: c.network.manager.eventSender.sent.drop (c.received + 1) := by
      rw [← hget]
      exact List.drop_eq_getElem_cons hlt
    obtain ⟨-, new, -, -, hsent, -⟩ := onEvent_flow hL honEvent
    have hmoves := Moves.of_withManager (c := c) hsent
    have hnetwork : (c.withManager manager).network = new.foldl handOver c.network := by
      unfold withManager
      rw [hsent, List.drop_left]
    obtain ⟨hmanager, -⟩ := foldl_handOver new c.network
    refine ⟨⟨?_, ?_, ?_, ?_, h.downloads⟩, .handle e new rfl honEvent hsent ⟨hmoves.published, hmoves.outbox, ?_⟩⟩
    · show (c.withManager manager).network.Composed
      rw [hnetwork]
      exact composed_handOver h.composed new
    · show c.received + 1 ≤ (c.withManager manager).network.manager.eventSender.sent.length
      rw [hnetwork, hmanager]
      exact hlt
    · exact (manager_of_onEvent hL honEvent fun b hb => hexpected b _ (by rw [hinbox, hb])).1.mpr h.idle
    · exact (manager_of_onEvent hL honEvent fun b hb => hexpected b _ (by rw [hinbox, hb])).2.trans h.syncRequests
    · rw [hinbox, List.append_nil]
      show _ = _ :: (c.withManager manager).network.manager.eventSender.sent.drop (c.received + 1)
      rw [hnetwork, hmanager]
  · cases he
    exact ⟨h, .rest rfl ⟨by simp, by simp, by simp⟩ rfl⟩

/-- **What a step of a calm node does.** -/
theorem effect (h : c.Calm) (hL : c.chain.Stores P L) (hbelow : L.length < 2 ^ 64) (hexpected : c.Expects P L)
    {x : ClientStep} (hx : c.Mild x) (he : c.step P x = .ok c') : c'.Calm ∧ Effect P c x c' := by
  have hsame : c.makes P x = [] → c' = c → c'.Calm ∧ Effect P c x c' := by
    rintro hmakes rfl
    exact ⟨h, .rest hmakes ⟨by simp, by simp, by simp⟩ rfl⟩
  have hnetwork : c.makes P x = [] → ∀ y : NetworkStep, (∀ event, y = .event event → x = .event event) →
      (∀ request, y = .call request → x = .call request) → (∀ tx, y = .drop tx → x = .drop tx) →
      (∀ i response, y = .response i response → ∃ headers, response = .ok headers) →
      c.networkStep y = .ok c' → c'.Calm ∧ Effect P c x c' := by
    intro hmakes y hevent hcall hdrop hresponse hstep
    obtain ⟨hcalm, hmanager, hcases⟩ := h.networkStep
      ⟨fun tx htx => hx.drops tx (hdrop tx htx), fun m hm => hx.decodes m (hevent _ hm)⟩
      (fun r hr => hx.calls r (hcall r hr)) hresponse hstep
    refine ⟨hcalm, ?_⟩
    rcases hcases with hmoves | ⟨m, hmoves⟩ | ⟨event, e, hy, hforwarded, hmoves⟩
    · exact .rest hmakes hmoves hmanager
    · exact .publish m hmakes hmoves hmanager
    · exact .hear event e (hevent event hy) hforwarded hmoves hmanager
  cases x with
  | command a => exact hnetwork rfl (.command a) (by simp) (by simp) (by simp) (by simp) he
  | event event => exact hnetwork rfl (.event event) (by simp) (by simp) (by simp) (by simp) he
  | bootstrap => exact hnetwork rfl .bootstrap (by simp) (by simp) (by simp) (by simp) he
  | drop tx => exact hnetwork rfl (.drop tx) (by simp) (by simp) (by simp) (by simp) he
  | call request => exact hnetwork rfl (.call request) (by simp) (by simp) (by simp) (by simp) he
  | respond i =>
    change c.respond i = .ok c' at he
    unfold Client.respond at he
    split at he
    · split at he
      · exact hnetwork rfl _ (by simp) (by simp) (by simp) (by rintro j response ⟨⟩; exact ⟨_, rfl⟩) he
      · exact hsame rfl (by cases he; rfl)
    · exact hsame rfl (by cases he; rfl)
  | onEvent => exact h.onEvent hL hexpected he
  | onPeers outcome =>
    obtain ⟨manager, hm, he⟩ := exists_of_bind_eq_ok he
    have hpeers := mapError_eq_ok_iff.mp hm
    unfold ChainNetworkManager.pollPeers at hpeers
    rw [h.idle.1] at hpeers
    cases hpeers
    refine hsame rfl ?_
    cases he
    simp [withManager]
  | onDownload k fuel look =>
    change c.onDownload P k fuel look = .ok c' at he
    unfold Client.onDownload at he
    rw [h.downloads] at he
    exact hsame rfl (by cases he; rfl)
  | mine draws =>
    change c.mineAndBroadcastBlock P draws = .ok c' at he
    rw [mineAndBroadcastBlock_of_below hL hbelow] at he
    cases he
    exact ⟨⟨composed_call h.composed _, h.received, h.idle, h.syncRequests, h.downloads⟩,
      .mine draws _ rfl (mined_of_below hL hbelow draws) rfl .of_request⟩
  | submit txs =>
    cases he
    exact ⟨⟨composed_call h.composed _, h.received, h.idle, h.syncRequests, h.downloads⟩,
      .submit txs rfl rfl .of_request⟩

/-- **A step of a calm node does not panic.** -/
theorem step_ok (h : c.Calm) (hL : c.chain.Stores P L) (hbelow : L.length < 2 ^ 64) (hexpected : c.Expects P L)
    {x : ClientStep} (hx : c.Mild x) : ∃ c', c.step P x = .ok c' := by
  have hnetwork : ∀ y : NetworkStep, (∀ event, y = .event event → x = .event event) →
      (∀ tx, y = .drop tx → x = .drop tx) → ∃ c', c.networkStep y = .ok c' := by
    intro y hevent hdrop
    obtain ⟨w, hw⟩ := h.composed.step_ok (x := y)
      ⟨fun tx htx => hx.drops tx (hdrop tx htx), fun m hm => hx.decodes m (hevent _ hm)⟩
    exact ⟨{ c with network := w }, by rw [Client.networkStep, hw]; rfl⟩
  cases x with
  | command a => exact hnetwork (.command a) (by simp) (by simp)
  | event event => exact hnetwork (.event event) (by simp) (by simp)
  | bootstrap => exact hnetwork .bootstrap (by simp) (by simp)
  | drop tx => exact hnetwork (.drop tx) (by simp) (by simp)
  | call request => exact hnetwork (.call request) (by simp) (by simp)
  | respond i =>
    show ∃ c', c.respond i = .ok c'
    unfold Client.respond
    split
    · split
      · exact hnetwork _ (by simp) (by simp)
      · exact ⟨c, rfl⟩
    · exact ⟨c, rfl⟩
  | onEvent =>
    show ∃ c', c.onEvent P = .ok c'
    unfold Client.onEvent
    split
    · rename_i e hnext
      obtain ⟨hlt, hget⟩ := List.getElem?_eq_some_iff.mp hnext
      obtain ⟨manager, hmanager⟩ := onEvent_ok (m := c.manager) (e := e) hL hbelow fun b hb => by
        refine hexpected b (c.network.manager.eventSender.sent.drop (c.received + 1)) ?_
        rw [← hb, ← hget]
        exact List.drop_eq_getElem_cons hlt
      rw [hmanager]
      exact ⟨_, rfl⟩
    · exact ⟨c, rfl⟩
  | onPeers outcome =>
    show ∃ c', c.onPeers P outcome = .ok c'
    unfold Client.onPeers ChainNetworkManager.pollPeers
    rw [h.idle.1]
    exact ⟨_, rfl⟩
  | onDownload k fuel look =>
    show ∃ c', c.onDownload P k fuel look = .ok c'
    unfold Client.onDownload
    rw [h.downloads]
    exact ⟨c, rfl⟩
  | mine draws => exact ⟨_, mineAndBroadcastBlock_of_below hL hbelow draws⟩
  | submit txs => exact ⟨_, rfl⟩

end Calm

/-- A node that was just started. -/
theorem calm_start (P : Platform) (db : Db) (localPeerId : PeerId) : (startNetwork P db localPeerId).Calm where
  composed := .new localPeerId
  received := Nat.zero_le _
  idle := ⟨rfl, rfl⟩
  syncRequests := rfl
  downloads := rfl

end Client

end Simb
