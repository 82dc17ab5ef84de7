import Simb.Net.Chain
import Simb.Tasks.SyncSpec

/-!
# Requests for headers, between the tasks (`net/network.rs`, `net/provider.rs`)

A download asks for headers through the provider, that makes a oneshot channel, sends its sender to the
network task in a `GetHeaders` command, and keeps the receiver as a future.  The network task hands the request
to libp2p and keeps the sender under the id of the request, until libp2p reports a response or a failure for
that id.  A download that has resolved is dropped, and so are its receivers; a send to a dropped receiver
fails, and the network task panics.

The steps of the system are those of its tasks, in any order: a download issues its next request, takes an
answer or resolves, the network task handles a command or an event.  The downloads are `SyncHeader`s, and
a poll of one of them is a run of its steps (`exists_steps_of_poll`).
-/

namespace Simb.Net

open Simb.Tasks Simb.Lib

/-! ## The network task -/

/-- A oneshot channel: nothing was sent yet, a value is there, or the receiver is gone. -/
inductive Oneshot (α : Type) where
  | empty
  | full (a : α)
  | dropped

/-- Send through a oneshot channel.  It fails if the receiver is gone. -/
def Oneshot.send {α : Type} (channels : List (Oneshot α)) (sender : ℕ) (a : α) : Option (List (Oneshot α)) :=
  match channels[sender]? with
  | some .dropped => none
  | _ => some (channels.set sender (.full a))

/-- A request for headers, with the sender for its response. -/
structure GetHeadersRequest where
  peer : PeerId
  request : HeadersRequest
  sender : ℕ

/-- Events of libp2p's request-response protocol. -/
inductive HeadersEvent where
  | request (channel : ℕ) (request : HeadersRequest)
  | response (requestId : ℕ) (response : HeadersResponse)
  | outboundFailure (requestId : ℕ)
  | inboundFailure
  | responseSent

/-- The part of `NetworkManager` that deals with requests for headers. -/
structure HeaderRequests where
  pendingRequestHeaders : Table ℕ GetHeadersRequest
  /-- What was sent through `event_sender`.  Its receiver lives as long as the node. -/
  eventSender : List ChainNetworkEvent
  incomingPeerRequests : List ℕ

/-- The two `expect`s on the receiver of a response. -/
inductive NetworkPanic where
  | receiverNotToDropped
  | receiverDropped
  deriving DecidableEq

/-- The oneshot channels of the responses to `get_headers`. -/
abbrev Channels := List (Oneshot (RequestResponse HeadersResponse))

namespace HeaderRequests

/-- The `GetHeaders` branch of `handle_command`, with the id that libp2p gives to the request. -/
def handleGetHeaders (n : HeaderRequests) (requestId : ℕ) (command : GetHeadersRequest) : HeaderRequests :=
  { n with pendingRequestHeaders := n.pendingRequestHeaders.insert requestId command }

/-- Send the response for a request, if it is known. -/
def respond (n : HeaderRequests) (channels : Channels) (requestId : ℕ) (response : RequestResponse HeadersResponse)
    (p : NetworkPanic) : Except NetworkPanic (HeaderRequests × Channels) :=
  match n.pendingRequestHeaders[requestId]? with
  | some command =>
    match Oneshot.send channels command.sender response with
    | some channels => .ok ({ n with pendingRequestHeaders := n.pendingRequestHeaders.erase requestId }, channels)
    | none => .error p
  | none => .ok (n, channels)

def handleRequestResponseHeaderEvent (n : HeaderRequests) (channels : Channels) :
    HeadersEvent → Except NetworkPanic (HeaderRequests × Channels)
  | .request channel request =>
    .ok ({ n with eventSender := n.eventSender ++ [.getBlockHeaders channel request],
                  incomingPeerRequests := n.incomingPeerRequests ++ [channel] }, channels)
  | .response requestId response => n.respond channels requestId (.ok response) .receiverNotToDropped
  | .outboundFailure requestId => n.respond channels requestId (.error .outboundFailure) .receiverDropped
  | .inboundFailure => .ok (n, channels)
  | .responseSent => .ok (n, channels)

end HeaderRequests

/-! ## The system -/

/-- The downloads, the network task, and what is between them. -/
structure Exchange where
  /-- The downloads.  One that has resolved is dropped. -/
  syncers : List (Option (SyncHeader ℕ))
  channels : Channels
  /-- The commands on their way to the network task. -/
  commandRecv : List GetHeadersRequest
  manager : HeaderRequests
  /-- The next request id of libp2p. -/
  nextId : ℕ
  /-- The requests libp2p has not reported on. -/
  unanswered : Finset ℕ

/-- A step of some task. -/
inductive ExchangeStep where
  /-- A download is started. -/
  | start (b : SyncHeaderBuilder)
  /-- Download `k` issues its next request. -/
  | request (k : ℕ)
  /-- Download `k` takes the answer of its `i`-th request in flight. -/
  | ready (k i : ℕ)
  /-- Download `k` resolves with the headers it has. -/
  | finish (k : ℕ)
  /-- The network task handles the next command. -/
  | command
  /-- The network task handles an event of libp2p. -/
  | event (e : HeadersEvent)

namespace Exchange

/-- Nothing has happened. -/
def init : Exchange := ⟨[], [], [], ⟨∅, [], []⟩, 0, ∅⟩

/-- `NetworkProvider::get_headers`: a new channel, and a command that carries its sender. -/
def getHeaders (s : Exchange) (peer : PeerId) (request : HeadersRequest) : Exchange :=
  { s with channels := s.channels ++ [.empty],
           commandRecv := s.commandRecv ++ [⟨peer, request, s.channels.length⟩] }

/-- The receivers of `futs` are dropped. -/
def dropReceivers (channels : Channels) (futs : List ℕ) : Channels :=
  channels.mapIdx fun c channel => if c ∈ futs then .dropped else channel

def request (s : Exchange) (k : ℕ) : Exchange :=
  match s.syncers[k]? with
  | some (some syncer) =>
    if syncer.Idle then s
    else
      { s.getHeaders syncer.peerId syncer.nextRequest with
        syncers := s.syncers.set k (some (syncer.issued s.channels.length)) }
  | _ => s

/-- The response to the `i`-th request of a queue, if it is there. -/
def answer (s : Exchange) (queue : List ℕ) (i : ℕ) : Option (RequestResponse HeadersResponse) :=
  match queue[i]?.bind fun c => s.channels[c]? with
  | some (.full response) => some response
  | _ => none

def ready (s : Exchange) (k i : ℕ) : Exchange :=
  match s.syncers[k]? with
  | some (some syncer) =>
    match s.answer syncer.inProgressQueue i with
    | some response =>
      match syncer.onReady i response with
      | .ok syncer => { s with syncers := s.syncers.set k (some syncer) }
      -- resolved with an error: the requests that are still in flight go with it
      | .error _ =>
        { s with syncers := s.syncers.set k none,
                 channels := dropReceivers s.channels (syncer.inProgressQueue.eraseIdx i) }
    | none => s
  | _ => s

def finish (s : Exchange) (k : ℕ) : Exchange :=
  match s.syncers[k]? with
  | some (some syncer) =>
    if syncer.Idle ∧ syncer.inProgressQueue = [] then
      { s with syncers := s.syncers.set k none }
    else s
  | _ => s

/-- The next command is handed to libp2p, that gives it a fresh id. -/
def command (s : Exchange) : Exchange :=
  match s.commandRecv with
  | [] => s
  | command :: commands =>
    { s with commandRecv := commands, manager := s.manager.handleGetHeaders s.nextId command,
             nextId := s.nextId + 1, unanswered := insert s.nextId s.unanswered }

/-- The request an event reports on. -/
def requestId : HeadersEvent → Option ℕ
  | .response requestId _ => some requestId
  | .outboundFailure requestId => some requestId
  | _ => none

/-- libp2p reports once on each request. -/
def Reports (s : Exchange) (e : HeadersEvent) : Prop := ∀ id, requestId e = some id → id ∈ s.unanswered

instance (s : Exchange) (e : HeadersEvent) : Decidable (s.Reports e) :=
  match h : requestId e with
  | none => isTrue fun id hid => by rw [h] at hid; cases hid
  | some id => decidable_of_iff (id ∈ s.unanswered) (by simp [Reports, h])

def event (s : Exchange) (e : HeadersEvent) : Except NetworkPanic Exchange :=
  if s.Reports e then do
    let (manager, channels) ← s.manager.handleRequestResponseHeaderEvent s.channels e
    return { s with manager, channels, unanswered := s.unanswered \ (requestId e).toFinset }
  else .ok s

/-- One step of the system. -/
def step (s : Exchange) : ExchangeStep → Except NetworkPanic Exchange
  | .start b => .ok { s with syncers := s.syncers ++ [b.build] }
  | .request k => .ok (s.request k)
  | .ready k i => .ok (s.ready k i)
  | .finish k => .ok (s.finish k)
  | .command => .ok s.command
  | .event e => s.event e

/-- One step of a system that may have panicked. -/
def next (r : Except NetworkPanic Exchange) (x : ExchangeStep) : Except NetworkPanic Exchange :=
  match r with
  | .error p => .error p
  | .ok s => s.step x

/-! ## The steps of a poll -/

/-- What the poll of a download meets in the system: a script says which request the queue yields next, if its
response is there. -/
def env : Env (Exchange × List ℕ) ℕ where
  getHeaders peer request w := (w.1.channels.length, w.1.getHeaders peer request, w.2)
  pollNext queue w :=
    match w.2 with
    | [] => (none, w)
    | i :: script =>
      if h : i < queue.length then
        match w.1.answer queue i with
        | some response => (some (⟨i, h⟩, response), w.1, script)
        | none => (none, w.1, script)
      else (none, w.1, script)

/-- The steps of download `k`. -/
def Of (k : ℕ) : ExchangeStep → Prop
  | .request j => j = k
  | .ready j _ => j = k
  | .finish j => j = k
  | _ => False

/-- A run of the steps of download `k` leads from `s₀` to `s`. -/
def Leads (k : ℕ) (s₀ s : Exchange) : Prop :=
  ∃ steps : List ExchangeStep, (∀ x ∈ steps, Of k x) ∧ steps.foldl next (.ok s₀) = .ok s

variable {k : ℕ} {s₀ s s' : Exchange} {script : List ℕ} {syncer : SyncHeader ℕ}

theorem Leads.step (h : Leads k s₀ s) {x : ExchangeStep} (hx : Of k x) (hs : s.step x = .ok s') :
    Leads k s₀ s' := by
  obtain ⟨steps, hof, hrun⟩ := h
  refine ⟨steps ++ [x], ?_, ?_⟩
  · intro y hy
    rcases List.mem_append.mp hy with hy | hy
    · exact hof y hy
    · rw [List.mem_singleton.mp hy]
      exact hx
  · rw [List.foldl_append, hrun]
    exact hs

/-- The system, with `syncer` for download `k`. -/
def withSyncer (s : Exchange) (k : ℕ) (syncer : Option (SyncHeader ℕ)) : Exchange :=
  { s with syncers := s.syncers.set k syncer }

theorem syncers_withSyncer (hk : k < s.syncers.length) (syncer : Option (SyncHeader ℕ)) :
    (s.withSyncer k syncer).syncers[k]? = some syncer :=
  List.getElem?_set_self hk

theorem withSyncer_self (hk : s.syncers[k]? = some (some syncer)) : s.withSyncer k (some syncer) = s := by
  obtain ⟨hlt, hget⟩ := List.getElem?_eq_some_iff.mp hk
  unfold withSyncer
  rw [← hget, List.set_getElem_self]

theorem request_withSyncer (hk : k < s.syncers.length) (hidle : ¬ syncer.Idle) :
    (s.withSyncer k (some syncer)).request k =
      (s.getHeaders syncer.peerId syncer.nextRequest).withSyncer k (some (syncer.issued s.channels.length)) := by
  unfold request
  rw [syncers_withSyncer hk]
  simp only [hidle, if_false]
  unfold withSyncer getHeaders
  simp only [List.set_set]

theorem ready_withSyncer (hk : k < s.syncers.length) {i : ℕ} {response : RequestResponse HeadersResponse}
    (hresponse : s.answer syncer.inProgressQueue i = some response) :
    (s.withSyncer k (some syncer)).ready k i =
      match syncer.onReady i response with
      | .ok syncer => s.withSyncer k (some syncer)
      | .error _ =>
        { s with channels := dropReceivers s.channels (syncer.inProgressQueue.eraseIdx i) }.withSyncer k none := by
  have hanswer : (s.withSyncer k (some syncer)).answer syncer.inProgressQueue i = some response := hresponse
  unfold ready
  rw [syncers_withSyncer hk]
  simp only [hanswer]
  unfold withSyncer
  cases syncer.onReady i response with
  | ok syncer => simp only [List.set_set]
  | error e => simp only [List.set_set]

theorem finish_withSyncer (hk : k < s.syncers.length) (hidle : syncer.Idle) (hempty : syncer.inProgressQueue = []) :
    (s.withSyncer k (some syncer)).finish k = s.withSyncer k none := by
  unfold finish
  rw [syncers_withSyncer hk]
  simp only [hidle, hempty, and_self, if_true]
  unfold withSyncer
  simp only [List.set_set]

theorem env_pollNext (queue : List ℕ) (w : Exchange × List ℕ) :
    (env.pollNext queue w).2.1 = w.1 ∧
      ∀ i response, (env.pollNext queue w).1 = some (i, response) → w.1.answer queue i = some response := by
  obtain ⟨s, script⟩ := w
  unfold env
  cases script with
  | nil => exact ⟨rfl, fun i response h => by cases h⟩
  | cons j script =>
    simp only
    split
    · cases ha : s.answer queue j with
      | none => exact ⟨rfl, fun i response h => by cases h⟩
      | some response =>
        refine ⟨rfl, ?_⟩
        intro i response h
        cases h
        exact ha
    · exact ⟨rfl, fun i response h => by cases h⟩

/-- In the middle of a poll of download `k`: the system with what the poll has made of the download is reached by
its steps. -/
def Polling (k : ℕ) (s₀ : Exchange) (syncer : SyncHeader ℕ) (w : Exchange × List ℕ) : Prop :=
  k < w.1.syncers.length ∧ Leads k s₀ (w.1.withSyncer k (some syncer))

theorem keeps_polling (k : ℕ) (s₀ : Exchange) : Keeps env (Polling k s₀) where
  wait syncer w w' hJ hp := by
    have hw : w'.1 = w.1 := by
      rw [← (env_pollNext syncer.inProgressQueue w).1, hp]
    unfold Polling
    rw [hw]
    exact hJ
  ready syncer w w' syncer' i response hJ hp hr := by
    obtain ⟨hw, hanswer⟩ := env_pollNext syncer.inProgressQueue w
    rw [hp] at hw hanswer
    obtain ⟨hk, hleads⟩ := hJ
    unfold Polling
    rw [show w'.1 = w.1 from hw]
    refine ⟨hk, hleads.step (x := .ready k i) rfl ?_⟩
    show Except.ok (ready _ k i) = _
    rw [ready_withSyncer hk (hanswer i response rfl), hr]
  request syncer w w' fut hJ hwindow hlt hg := by
    obtain ⟨hk, hleads⟩ := hJ
    cases hg
    refine ⟨hk, hleads.step (x := .request k) rfl ?_⟩
    show Except.ok (request _ k) = _
    rw [request_withSyncer hk]
    rintro (hfull | hdone)
    · omega
    · exact UInt64.not_le.mpr hlt hdone

/-- **A poll of a download is a run of the system.**  Its steps lead to a system in which the download is as the
poll has left it, or gone if it has resolved. -/
theorem exists_steps_of_poll {fuel : ℕ} {polled : Polled ℕ} {w : Exchange × List ℕ}
    (hk : s.syncers[k]? = some (some syncer)) (h : syncer.poll env fuel (s, script) = some (polled, w)) :
    ∃ s', Leads k s s' ∧
      s'.syncers[k]? = some (match polled with | .pending syncer => some syncer | .ready _ => none) := by
  have hstart : Polling k s syncer (s, script) := by
    refine ⟨(List.getElem?_eq_some_iff.mp hk).1, [], fun x hx => absurd hx List.not_mem_nil, ?_⟩
    rw [withSyncer_self hk]
    rfl
  have hend := (keeps_polling k s).poll hstart h
  rcases polled with (e | headers) | syncer'
  · obtain ⟨syncer₁, w₁, i, response, ⟨hlt, hleads⟩, hp, hr⟩ := hend
    have hanswer := (env_pollNext syncer₁.inProgressQueue w₁).2 i response (by rw [hp])
    refine ⟨_, hleads.step (x := .ready k i) rfl rfl, ?_⟩
    rw [ready_withSyncer hlt hanswer, hr]
    exact syncers_withSyncer hlt _
  · obtain ⟨syncer₁, ⟨hlt, hleads⟩, hidle, hempty, -⟩ := hend
    refine ⟨_, hleads.step (x := .finish k) rfl rfl, ?_⟩
    rw [finish_withSyncer hlt hidle hempty]
    exact syncers_withSyncer hlt _
  · obtain ⟨hlt, hleads⟩ := hend
    exact ⟨_, hleads, syncers_withSyncer hlt _⟩

end Exchange

end Simb.Net
