import Simb.Client.Asking

/-!
# Starting a node (`client.rs`)

`execute_with_seed_nodes` starts the tasks of a node, listens on its addresses and dials the seed nodes, one after the
other, and then starts the RPC server.  Meanwhile the tasks run.  `Execution` is this function with the node: its steps
are those of the node, and those of the function, which goes on when the reply that it waits for is there.

The tasks neither listen nor dial, so there is one such request at a time, and none is lost.  The function panics only
when an address of a seed node does not end with a peer id, or when the swarm fails to do what it is asked
(`launch_in_order`).
-/

namespace Simb

open Simb.BlockTree Simb.Net Simb.Tasks Simb.Lib

/-! ## Waiting for a reply -/

namespace Net

/-- The senders that are kept. -/
def NetworkManager.senders (n : NetworkManager) : List ℕ :=
  n.pendingRequestHeaders.toList.map (fun x => x.2.sender) ++ n.pendingGetClosestPeers.toList.map Prod.snd ++
    n.pendingDial.toList.map Prod.snd ++ n.pendingListening.toList.map Prod.snd

/-- The reply to a command that has no result, if it was sent. -/
def Network.unitReply (w : Network) (tx : ℕ) : Option (RequestResponse Unit) :=
  w.oneshots.sent.findSome? fun x =>
    match x with
    | (c, .unit response) => if c = tx then some response else none
    | _ => none

/-- What the receiver of a reply finds: nothing, the reply, or that the sender is gone. -/
inductive Await where
  | pending
  | ready (response : RequestResponse Unit)
  | closed

def Network.await (w : Network) (tx : ℕ) : Await :=
  match w.unitReply tx with
  | some response => .ready response
  | none => if tx ∈ w.commandRecv.map NetworkProviderMessage.tx ++ w.manager.senders then .pending else .closed

/-- The peer id at the end of an address. -/
def Multiaddr.peerId (addr : Multiaddr) : Option PeerId :=
  match addr.protocols.getLast? with
  | some (.p2p peerId) => some peerId
  | _ => none

end Net

/-! ## `execute_with_seed_nodes` -/

/-- The panics of the function: it expects to be able to listen, a peer id at the end of the address of a seed node, and
to be able to dial; `start_listening` expects its sender not to be dropped. -/
inductive Execution.Panic where
  | listening (error : RequestError)
  | sender
  | peerId
  | dial (error : RequestError)
  deriving DecidableEq

/-- Where the function is. -/
inductive Stage where
  /-- It waits until the node listens on an address; then these addresses are next, and then these seed nodes. -/
  | listening (tx : ℕ) (addrs seedNodes : List Multiaddr)
  /-- It waits until a seed node is dialed; then these are next. -/
  | dialing (tx : ℕ) (seedNodes : List Multiaddr)
  /-- The RPC server is started, and it waits for the tasks. -/
  | serving
  | panicked (p : Execution.Panic)

/-- The function, the node that it started, and what it has asked its provider for, with the channels of the replies. -/
structure Execution where
  node : Client
  stage : Stage
  asked : List (ProviderRequest × ℕ)

inductive ExecutionStep where
  /-- A step of the node. -/
  | node (x : ClientStep)
  /-- The function looks whether it can go on. -/
  | poll

namespace Execution

/-- A method of the provider is called, and its reply awaited. -/
def ask (e : Execution) (request : ProviderRequest) (stage : ℕ → Stage) : Execution where
  node := { e.node with network := e.node.network.call request }
  stage := stage e.node.network.oneshots.next
  asked := e.asked ++ [(request, e.node.network.oneshots.next)]

/-- The reply was taken, and its receiver goes out of scope. -/
def taken (e : Execution) (tx : ℕ) : Execution :=
  { e with node := { e.node with network := e.node.network.drop tx } }

/-- Dial the seed nodes. -/
def dial (e : Execution) : List Multiaddr → Execution
  | [] => { e with stage := .serving }
  | addr :: seedNodes =>
    match addr.peerId with
    | some peerId => e.ask (.dial peerId addr) fun tx => .dialing tx seedNodes
    | none => { e with stage := .panicked .peerId }

/-- Listen on the addresses, and then dial the seed nodes. -/
def listen (e : Execution) (seedNodes : List Multiaddr) : List Multiaddr → Execution
  | [] => e.dial seedNodes
  | addr :: addrs => e.ask (.startListening addr) fun tx => .listening tx addrs seedNodes

/-- The addresses to listen on: all, if none is given. -/
def addresses (listeningAddrs : List Multiaddr) : List Multiaddr :=
  if listeningAddrs.isEmpty then [⟨[.other "/ip4/0.0.0.0", .other "/tcp/0"]⟩] else listeningAddrs

/-- `execute_with_seed_nodes`, up to where it waits for the first time. -/
def start (P : Platform) (db : Db) (localPeerId : PeerId) (listeningAddrs seedNodes : List Multiaddr) : Execution :=
  listen ⟨Client.startNetwork P db localPeerId, .serving, []⟩ seedNodes (addresses listeningAddrs)

def poll (e : Execution) : Execution :=
  match e.stage with
  | .listening tx addrs seedNodes =>
    match e.node.network.await tx with
    | .pending => e
    | .ready (.ok ()) => (e.taken tx).listen seedNodes addrs
    | .ready (.error error) => { e with stage := .panicked (.listening error) }
    | .closed => { e with stage := .panicked .sender }
  | .dialing tx seedNodes =>
    match e.node.network.await tx with
    | .pending => e
    | .ready (.ok ()) => (e.taken tx).dial seedNodes
    | .ready (.error error) => { e with stage := .panicked (.dial error) }
    | .closed => { e with stage := .panicked (.dial (.channelClosed "channel closed")) }
  | .serving => e
  | .panicked _ => e

def step (P : Platform) (e : Execution) : ExecutionStep → Except Client.Panic Execution
  | .poll => .ok e.poll
  | .node x =>
    match e.stage with
    -- the tasks end with the function
    | .panicked _ => .ok e
    | _ => do return { e with node := ← e.node.step P x }

/-- A step when a task may have panicked. -/
def next (P : Platform) (r : Except Client.Panic Execution) (x : ExecutionStep) : Except Client.Panic Execution :=
  match r with
  | .error p => .error p
  | .ok e => e.step P x

/-- What is asked for to dial the seed nodes, up to the first without a peer id. -/
def dials : List Multiaddr → List ProviderRequest
  | [] => []
  | addr :: seedNodes =>
    match addr.peerId with
    | some peerId => .dial peerId addr :: dials seedNodes
    | none => []

/-- What is asked for, in this order. -/
def plan (listeningAddrs seedNodes : List Multiaddr) : List ProviderRequest :=
  (addresses listeningAddrs).map .startListening ++ dials seedNodes

/-- What the swarm is asked for. -/
def calls (asked : List (ProviderRequest × ℕ)) : List SwarmCall := asked.flatMap fun x => x.1.swarmCall.toList

/-- All of this was done. -/
def Acknowledged (w : Network) (asked : List (ProviderRequest × ℕ)) : Prop :=
  ∀ x ∈ asked, (x.2, .unit (.ok ())) ∈ w.oneshots.sent

/-- The reply that the function waits for. -/
def awaited (e : Execution) : Option ℕ :=
  match e.stage with
  | .listening tx _ _ => some tx
  | .dialing tx _ => some tx
  | _ => none

/-- The panic when this request fails. -/
def panicOf : ProviderRequest → Panic
  | .startListening _ => .listening .transportError
  | _ => .dial .dialError

/-- What holds while a node is started. -/
structure InOrder (listeningAddrs seedNodes : List Multiaddr) (e : Execution) : Prop where
  /-- What is asked for goes by the plan. -/
  planned : e.asked.map Prod.fst <+: plan listeningAddrs seedNodes
  /-- Each request but the last one was done before the next was made. -/
  acknowledged : Acknowledged e.node.network e.asked.dropLast
  /-- The swarm is asked for the same, each once; the last request may still be on its way. -/
  swarm : e.node.network.connections = calls e.asked ∨ e.node.network.connections = calls e.asked.dropLast
  /-- The sender of the reply that is awaited is not lost. -/
  awaited : ∀ tx, e.awaited = some tx → e.node.network.await tx ≠ .closed
  /-- The server is started when all is done. -/
  serving : e.stage = .serving → e.asked.map Prod.fst = plan listeningAddrs seedNodes ∧
    Acknowledged e.node.network e.asked ∧ ∀ addr ∈ seedNodes, addr.peerId ≠ none
  /-- The function panics when a seed node has no peer id, or the last request failed. -/
  panicked : ∀ p, e.stage = .panicked p → (p = .peerId ∧ ∃ addr ∈ seedNodes, addr.peerId = none) ∨
    ∃ request tx, e.asked.getLast? = some (request, tx) ∧ p = panicOf request ∧
      (tx, .unit (.error request.failure)) ∈ e.node.network.oneshots.sent

end Execution

variable {P : Platform} {c c' : Client} {w w' : Network} {tx : ℕ}

/-! ## The reply that is awaited -/

namespace Net.Network

theorem mem_senders_of_held {key : Key} (h : w.manager.held key = some tx) : tx ∈ w.manager.senders := by
  unfold NetworkManager.senders
  simp only [List.mem_append, List.mem_map]
  cases key with
  | request id =>
    obtain ⟨command, hcommand, htx⟩ := Option.map_eq_some_iff.mp h
    exact .inl (.inl (.inl ⟨(id, command), Std.ExtTreeMap.mem_toList_iff_getElem?_eq_some.mpr hcommand, htx⟩))
  | query id => exact .inl (.inl (.inr ⟨(id, tx), Std.ExtTreeMap.mem_toList_iff_getElem?_eq_some.mpr h, rfl⟩))
  | peer peerId => exact .inl (.inr ⟨(peerId, tx), Std.ExtTreeMap.mem_toList_iff_getElem?_eq_some.mpr h, rfl⟩)
  | listener id => exact .inr ⟨(id, tx), Std.ExtTreeMap.mem_toList_iff_getElem?_eq_some.mpr h, rfl⟩

theorem mem_sent_of_unitReply {r : RequestResponse Unit} (h : w.unitReply tx = some r) :
    (tx, .unit r) ∈ w.oneshots.sent := by
  obtain ⟨⟨c, reply⟩, hx, hf⟩ := List.exists_of_findSome?_eq_some h
  cases reply with
  | unit response =>
    simp only [Option.ite_none_right_eq_some, Option.some.injEq] at hf
    obtain ⟨rfl, rfl⟩ := hf
    exact hx
  | _ => cases hf

theorem unitReply_ne_none {r : RequestResponse Unit} (h : (tx, .unit r) ∈ w.oneshots.sent) : w.unitReply tx ≠ none := by
  intro hnone
  have hall := List.findSome?_eq_none_iff.mp hnone _ h
  simp at hall

theorem await_pending (hsent : tx ∉ w.oneshots.sent.map Prod.fst)
    (hmem : tx ∈ w.commandRecv.map NetworkProviderMessage.tx ++ w.manager.senders) : w.await tx = .pending := by
  unfold await
  cases hreply : w.unitReply tx with
  | some r => exact absurd (List.mem_map_of_mem (f := Prod.fst) (mem_sent_of_unitReply hreply)) hsent
  | none => exact if_pos hmem

/-- **What the receiver finds,** when its request is under way: nothing, or the reply. -/
theorem Attends.await {calls : List SwarmCall} {request : ProviderRequest} (h : w.Attends calls request tx) :
    w.await tx = .pending ∨ ∃ r, w.await tx = .ready r ∧ (r = .ok () ∨ r = .error request.failure) ∧
      (tx, .unit r) ∈ w.oneshots.sent ∧ w.Unconnecting (calls ++ request.swarmCall.toList) := by
  cases h with
  | queued hconnecting hheld hsent hcalls =>
    refine .inl (await_pending hsent (List.mem_append_left _ ?_))
    have hmem : (⟨request, tx⟩ : NetworkProviderMessage) ∈ w.connecting := by
      rw [hconnecting]
      exact List.mem_cons_self
    exact List.mem_map_of_mem (f := NetworkProviderMessage.tx) (List.mem_filter.mp hmem).1
  | begun key hfits hconnecting hkey hheld hsent hcalls =>
    exact .inl (await_pending hsent (List.mem_append_right _ (mem_senders_of_held hkey)))
  | answered r hun hmem honly hr =>
    refine .inr ⟨r, ?_, hr, hmem, hun⟩
    unfold Network.await
    cases hreply : w.unitReply tx with
    | some r' =>
      have heq := honly _ (mem_sent_of_unitReply hreply)
      cases heq
      rfl
    | none => exact absurd hreply (unitReply_ne_none hmem)

end Net.Network

/-! ## Starting a node -/

namespace Execution

variable {asked before : List (ProviderRequest × ℕ)} {request : ProviderRequest}

/-- All that was asked for was done. -/
structure Resting (w : Network) (asked : List (ProviderRequest × ℕ)) : Prop where
  inv : w.Inv
  waiting : w.desk.Open
  acknowledged : Acknowledged w asked
  unconnecting : w.Unconnecting (calls asked)

/-- All was done but the last request. -/
structure Awaiting (w : Network) (before : List (ProviderRequest × ℕ)) (request : ProviderRequest) (tx : ℕ) : Prop where
  inv : w.Inv
  waiting : w.desk.Open
  acknowledged : Acknowledged w before
  attends : w.Attends (calls before) request tx

theorem calls_append (before : List (ProviderRequest × ℕ)) (request : ProviderRequest) (tx : ℕ) :
    calls (before ++ [(request, tx)]) = calls before ++ request.swarmCall.toList := by
  simp [calls]

/-- A step of the network task or of its clients. -/
theorem Resting.step (h : Resting w asked) {x : NetworkStep}
    (hx : ∀ request, x = .call request → request.connects = false) (he : w.step x = .ok w') : Resting w' asked := by
  have htouches := step_touches hx he
  exact ⟨h.inv.step he, open_step h.inv h.waiting he, fun x hx => htouches.sent _ (h.acknowledged x hx),
    h.unconnecting.step htouches⟩

theorem Awaiting.step (h : Awaiting w before request tx) {x : NetworkStep}
    (hx : ∀ request, x = .call request → request.connects = false) (he : w.step x = .ok w') :
    Awaiting w' before request tx := by
  have htouches := step_touches hx he
  exact ⟨h.inv.step he, open_step h.inv h.waiting he, fun x hx => htouches.sent _ (h.acknowledged x hx),
    h.attends.step h.inv h.waiting htouches⟩

theorem Resting.call (h : Resting w asked) (hrequest : request.connects = true) :
    Awaiting (w.call request) asked request w.oneshots.next :=
  ⟨h.inv.call request, h.waiting, h.acknowledged, h.unconnecting.call h.inv hrequest⟩

/-- **What is found when the function looks:** nothing yet, or that the last request was done too, or that it failed. -/
theorem Awaiting.await (h : Awaiting w before request tx) : w.await tx = .pending ∨
    (w.await tx = .ready (.ok ()) ∧ Resting (w.drop tx) (before ++ [(request, tx)])) ∨
    (w.await tx = .ready (.error request.failure) ∧ (tx, .unit (.error request.failure)) ∈ w.oneshots.sent) := by
  rcases h.attends.await with hpending | ⟨r, hready, rfl | rfl, hsent, hun⟩
  · exact .inl hpending
  · refine .inr (.inl ⟨hready, ⟨h.inv.senders, h.inv.closed⟩, h.waiting, fun x hx => ?_, ?_⟩)
    · rcases List.mem_append.mp hx with hx | hx
      · exact h.acknowledged x hx
      · rw [List.mem_singleton.mp hx]
        exact hsent
    · rw [calls_append]
      exact ⟨hun.connecting, hun.held, hun.connections⟩
  · exact .inr (.inr ⟨hready, hsent⟩)

variable {listeningAddrs seedNodes addrs seeds done : List Multiaddr} {e e' : Execution}

/-- Where the function is, and what is done then. -/
inductive Kept (listeningAddrs seedNodes : List Multiaddr) (e : Execution) : Prop
  | listening {tx : ℕ} {addr : Multiaddr} {addrs : List Multiaddr} {before : List (ProviderRequest × ℕ)} :
      e.stage = .listening tx addrs seedNodes → e.asked = before ++ [(.startListening addr, tx)] →
      Awaiting e.node.network before (.startListening addr) tx →
      e.asked.map Prod.fst ++ (addrs.map .startListening ++ dials seedNodes) = plan listeningAddrs seedNodes →
      Kept listeningAddrs seedNodes e
  | dialing {tx : ℕ} {peerId : PeerId} {addr : Multiaddr} {seeds done : List Multiaddr}
      {before : List (ProviderRequest × ℕ)} :
      e.stage = .dialing tx seeds → e.asked = before ++ [(.dial peerId addr, tx)] →
      Awaiting e.node.network before (.dial peerId addr) tx →
      e.asked.map Prod.fst ++ dials seeds = plan listeningAddrs seedNodes → seedNodes = done ++ seeds →
      (∀ addr ∈ done, addr.peerId ≠ none) → Kept listeningAddrs seedNodes e
  | serving : e.stage = .serving → Resting e.node.network e.asked →
      e.asked.map Prod.fst = plan listeningAddrs seedNodes → (∀ addr ∈ seedNodes, addr.peerId ≠ none) →
      Kept listeningAddrs seedNodes e
  | noPeerId : e.stage = .panicked .peerId → Resting e.node.network e.asked →
      e.asked.map Prod.fst = plan listeningAddrs seedNodes → (∃ addr ∈ seedNodes, addr.peerId = none) →
      Kept listeningAddrs seedNodes e
  | failed {tx : ℕ} {request : ProviderRequest} {before : List (ProviderRequest × ℕ)} :
      e.stage = .panicked (panicOf request) → e.asked = before ++ [(request, tx)] →
      Awaiting e.node.network before request tx → e.asked.map Prod.fst <+: plan listeningAddrs seedNodes →
      (tx, .unit (.error request.failure)) ∈ e.node.network.oneshots.sent → Kept listeningAddrs seedNodes e

/-- The seed nodes are dialed next. -/
theorem kept_dial (h : Resting e.node.network e.asked)
    (hplan : e.asked.map Prod.fst ++ dials seeds = plan listeningAddrs seedNodes) (hseeds : seedNodes = done ++ seeds)
    (hdone : ∀ addr ∈ done, addr.peerId ≠ none) : Kept listeningAddrs seedNodes (e.dial seeds) := by
  cases seeds with
  | nil =>
    rw [List.append_nil] at hseeds
    subst hseeds
    refine .serving rfl h ?_ hdone
    rwa [dials, List.append_nil] at hplan
  | cons addr seeds =>
    cases hpeer : addr.peerId with
    | none =>
      have hdial : e.dial (addr :: seeds) = { e with stage := .panicked .peerId } := by simp only [dial, hpeer]
      rw [hdial]
      refine .noPeerId rfl h ?_ ⟨addr, by rw [hseeds]; simp, hpeer⟩
      simpa only [dials, hpeer, List.append_nil] using hplan
    | some peerId =>
      have hdial : e.dial (addr :: seeds) = e.ask (.dial peerId addr) fun tx => .dialing tx seeds := by
        simp only [dial, hpeer]
      rw [hdial]
      have hseeds' : seedNodes = (done ++ [addr]) ++ seeds := by rw [hseeds, List.append_cons]
      refine .dialing rfl rfl (h.call rfl) ?_ hseeds' ?_
      · rw [← hplan]
        simp [ask, dials, hpeer]
      · intro addr' haddr'
        rcases List.mem_append.mp haddr' with haddr' | haddr'
        · exact hdone addr' haddr'
        · rw [List.mem_singleton.mp haddr', hpeer]
          exact Option.some_ne_none _

/-- The addresses are listened on next. -/
theorem kept_listen (h : Resting e.node.network e.asked)
    (hplan : e.asked.map Prod.fst ++ (addrs.map .startListening ++ dials seedNodes) = plan listeningAddrs seedNodes) :
    Kept listeningAddrs seedNodes (e.listen seedNodes addrs) := by
  cases addrs with
  | nil => exact kept_dial h hplan (List.nil_append seedNodes).symm (by simp)
  | cons addr addrs =>
    refine .listening rfl rfl (h.call rfl) ?_
    rw [← hplan]
    simp [listen, ask]

theorem kept_start (P : Platform) (db : Db) (localPeerId : PeerId) (listeningAddrs seedNodes : List Multiaddr) :
    Kept listeningAddrs seedNodes (start P db localPeerId listeningAddrs seedNodes) := by
  refine kept_listen ⟨Network.inv_new localPeerId, ?_, by simp [Acknowledged], Network.unconnecting_new localPeerId⟩ rfl
  exact fun key tx _ hmem => absurd hmem List.not_mem_nil

/-- The function looks whether it can go on. -/
theorem Kept.poll (h : Kept listeningAddrs seedNodes e) : Kept listeningAddrs seedNodes e.poll := by
  cases h with
  | listening hstage hasked hawaiting hplan =>
    unfold Execution.poll
    rw [hstage]
    simp only
    rcases hawaiting.await with hawait | ⟨hawait, hresting⟩ | ⟨hawait, hfailed⟩ <;> rw [hawait]
    · exact .listening hstage hasked hawaiting hplan
    · refine kept_listen ?_ hplan
      rw [← hasked] at hresting
      exact hresting
    · exact .failed rfl hasked hawaiting ⟨_, hplan⟩ hfailed
  | dialing hstage hasked hawaiting hplan hseeds hdone =>
    unfold Execution.poll
    rw [hstage]
    simp only
    rcases hawaiting.await with hawait | ⟨hawait, hresting⟩ | ⟨hawait, hfailed⟩ <;> rw [hawait]
    · exact .dialing hstage hasked hawaiting hplan hseeds hdone
    · refine kept_dial ?_ hplan hseeds hdone
      rw [← hasked] at hresting
      exact hresting
    · exact .failed rfl hasked hawaiting ⟨_, hplan⟩ hfailed
  | serving hstage hresting hplan hseeds =>
    unfold Execution.poll
    rw [hstage]
    exact .serving hstage hresting hplan hseeds
  | noPeerId hstage hresting hplan hseeds =>
    unfold Execution.poll
    rw [hstage]
    exact .noPeerId hstage hresting hplan hseeds
  | failed hstage hasked hawaiting hplan hfailed =>
    unfold Execution.poll
    rw [hstage]
    exact .failed hstage hasked hawaiting hplan hfailed

/-- A step of the node. -/
theorem Kept.node (h : Kept listeningAddrs seedNodes e) {x : ClientStep}
    (hx : ∀ request, x = .call request → request.connects = false) (he : e.step P (.node x) = .ok e') :
    Kept listeningAddrs seedNodes e' := by
  have hresting : ∀ {node}, e.node.step P x = .ok node → Resting e.node.network e.asked → Resting node.network e.asked :=
    fun hnode h => Client.network_invariant (fun w x w' hJ hx he => Resting.step hJ hx he) h hx hnode
  have hawaiting : ∀ {node before request tx}, e.node.step P x = .ok node →
      Awaiting e.node.network before request tx → Awaiting node.network before request tx :=
    fun hnode h => Client.network_invariant (fun w x w' hJ hx he => Awaiting.step hJ hx he) h hx hnode
  unfold step at he
  cases h with
  | listening hstage hasked h hplan =>
    rw [hstage] at he
    obtain ⟨node, hnode, he⟩ := exists_of_bind_eq_ok he
    cases he
    exact .listening rfl hasked (hawaiting hnode h) hplan
  | dialing hstage hasked h hplan hseeds hdone =>
    rw [hstage] at he
    obtain ⟨node, hnode, he⟩ := exists_of_bind_eq_ok he
    cases he
    exact .dialing rfl hasked (hawaiting hnode h) hplan hseeds hdone
  | serving hstage h hplan hseeds =>
    rw [hstage] at he
    obtain ⟨node, hnode, he⟩ := exists_of_bind_eq_ok he
    cases he
    exact .serving rfl (hresting hnode h) hplan hseeds
  | noPeerId hstage h hplan hseeds =>
    rw [hstage] at he
    cases he
    exact .noPeerId hstage h hplan hseeds
  | failed hstage hasked h hplan hfailed =>
    rw [hstage] at he
    cases he
    exact .failed hstage hasked h hplan hfailed

/-- The function and the node, as long as no task panics. -/
theorem Kept.step (h : Kept listeningAddrs seedNodes e) {x : ExecutionStep}
    (hx : ∀ request, x = .node (.call request) → request.connects = false) (he : e.step P x = .ok e') :
    Kept listeningAddrs seedNodes e' := by
  cases x with
  | poll =>
    cases he
    exact h.poll
  | node x => exact h.node (fun request hrequest => hx request (congrArg _ hrequest)) he

/-! ## What follows -/

theorem Resting.connections (h : Resting w asked) : w.connections = calls asked := h.unconnecting.connections

theorem Awaiting.connections (h : Awaiting w before request tx) :
    w.connections = calls (before ++ [(request, tx)]) ∨ w.connections = calls before := by
  rw [calls_append]
  cases h.attends with
  | queued _ _ _ hcalls => exact .inr hcalls
  | begun _ _ _ _ _ _ hcalls => exact .inl hcalls
  | answered _ hun => exact .inl hun.connections

theorem Awaiting.not_closed (h : Awaiting w before request tx) : w.await tx ≠ .closed := by
  rcases h.await with hawait | ⟨hawait, -⟩ | ⟨hawait, -⟩ <;> rw [hawait] <;> exact fun hclosed => nomatch hclosed

theorem Kept.planned (h : Kept listeningAddrs seedNodes e) : e.asked.map Prod.fst <+: plan listeningAddrs seedNodes := by
  cases h with
  | listening _ _ _ hplan
  | dialing _ _ _ hplan => exact ⟨_, hplan⟩
  | serving _ _ hplan
  | noPeerId _ _ hplan => exact hplan ▸ List.prefix_rfl
  | failed _ _ _ hplan => exact hplan

theorem Kept.resting_or_awaiting (h : Kept listeningAddrs seedNodes e) : Resting e.node.network e.asked ∨
    ∃ before request tx, e.asked = before ++ [(request, tx)] ∧ Awaiting e.node.network before request tx := by
  cases h with
  | serving _ h
  | noPeerId _ h => exact .inl h
  | listening _ hasked h
  | dialing _ hasked h
  | failed _ hasked h => exact .inr ⟨_, _, _, hasked, h⟩

theorem Kept.inOrder (h : Kept listeningAddrs seedNodes e) : e.InOrder listeningAddrs seedNodes := by
  refine ⟨h.planned, ?_, ?_, ?_, ?_, ?_⟩
  · rcases h.resting_or_awaiting with h | ⟨before, request, tx, hasked, h⟩
    · exact fun x hx => h.acknowledged x (List.mem_of_mem_dropLast hx)
    · rw [hasked, List.dropLast_concat]
      exact h.acknowledged
  · rcases h.resting_or_awaiting with h | ⟨before, request, tx, hasked, h⟩
    · exact .inl h.connections
    · rw [hasked, List.dropLast_concat]
      exact h.connections
  · intro tx htx
    rw [Execution.awaited] at htx
    cases h with
    | listening hstage _ h
    | dialing hstage _ h =>
      rw [hstage] at htx
      cases htx
      exact h.not_closed
    | serving hstage
    | noPeerId hstage
    | failed hstage =>
      rw [hstage] at htx
      cases htx
  · intro hserving
    cases h with
    | serving hstage h hplan hseeds => exact ⟨hplan, h.acknowledged, hseeds⟩
    | listening hstage
    | dialing hstage
    | noPeerId hstage
    | failed hstage => cases hstage.symm.trans hserving
  · intro p hp
    cases h with
    | noPeerId hstage h hplan hseeds =>
      cases hstage.symm.trans hp
      exact .inl ⟨rfl, hseeds⟩
    | failed hstage hasked h hplan hfailed =>
      cases hstage.symm.trans hp
      exact .inr ⟨_, _, by rw [hasked, List.getLast?_concat], rfl, hfailed⟩
    | listening hstage
    | dialing hstage
    | serving hstage => cases hstage.symm.trans hp

/-- **A node is started in order.**  If only the function listens and dials, then in every state, as long as no task
panics: it has listened on its addresses and dialed the seed nodes one after the other, and the swarm was asked for just
this; the reply that it waits for is not lost; the server is started when all is done; and the function panics only when
the address of a seed node has no peer id, or what it asked for last failed. -/
theorem launch_in_order (P : Platform) (db : Db) (localPeerId : PeerId) (listeningAddrs seedNodes : List Multiaddr)
    (steps : List ExecutionStep) (h : ∀ request, .node (.call request) ∈ steps → request.connects = false) :
    EveryState (next P) (fun r => ∀ e, r = .ok e → e.InOrder listeningAddrs seedNodes)
      (.ok (start P db localPeerId listeningAddrs seedNodes)) steps := by
  have hrun : EveryState (next P) (fun r => ∀ e, r = .ok e → Kept listeningAddrs seedNodes e)
      (.ok (start P db localPeerId listeningAddrs seedNodes)) steps := by
    refine everyState_of_everyStep (C := fun _ x => True ∧ ∀ request, x = .node (.call request) → request.connects = false)
      ?_ ?_ ((everyStep_true _ _ _).and_mem ?_)
    · rintro r x hr ⟨-, hx⟩ e' he'
      cases r with
      | error p => cases he'
      | ok e => exact (hr e rfl).step hx he'
    · rintro _ ⟨⟩
      exact kept_start P db localPeerId listeningAddrs seedNodes
    · rintro x hx request rfl
      exact h request hx
  exact hrun.mono fun r hr e he => (hr e he).inOrder

/-- A node with one seed node. -/
theorem launch_in_order_seed :
    EveryState (next (sample true)) (fun r => ∀ e, r = .ok e → e.InOrder [] [⟨[.p2p ⟨[2]⟩]⟩])
      (.ok (start (sample true) Db.empty ⟨[1]⟩ [] [⟨[.p2p ⟨[2]⟩]⟩]))
      [.node (.command (granted 0)), .poll, .node (.event (.newListenAddr 0)), .poll, .node (.command (granted 0)),
        .node (.event (.connectionEstablished ⟨[2]⟩ true)), .poll] :=
  launch_in_order _ _ _ _ _ _ (by simp)

/-- It is started. -/
example :
    ∃ e, [.node (.command (granted 0)), .poll, .node (.event (.newListenAddr 0)), .poll, .node (.command (granted 0)),
        .node (.event (.connectionEstablished ⟨[2]⟩ true)), .poll].foldl (next (sample true))
      (.ok (start (sample true) Db.empty ⟨[1]⟩ [] [⟨[.p2p ⟨[2]⟩]⟩])) = .ok e ∧ e.stage = .serving :=
  ⟨_, rfl, rfl⟩

end Execution

end Simb
