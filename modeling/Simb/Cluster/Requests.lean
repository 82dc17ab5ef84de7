import Simb.Client.Tickets
import Simb.Cluster.Defs

/-!
# Responses are not mixed up

A cluster leaves open which of its responses a request for headers gets.  In fact libp2p gives to a request what its peer
responded to just that request, although the two sides know it by different numbers.  With the tickets behind these numbers
this can be said (`Wired.Permitted`), and then what a node gets is what the node that it asked had for this very request, on
its chain as it was at some moment since (`responses_not_mixed_up`).  Nodes may stop and be started again, and others that
are no nodes may ask and respond what they like.
-/

namespace Simb

open Simb.BlockTree Simb.Net Simb.Lib

variable {ι : Type}

/-- A step of a node, with the ticket behind the request that comes in, if a node asked it. -/
structure WiredStep (ι : Type) where
  node : ι
  step : ClusterStep
  origin : Option Ticket

/-- The nodes, the tickets behind the numbers that each of them uses, and the nodes in the states before. -/
structure Wired (ι : Type) where
  cluster : Cluster ι
  labels : ι → Labels
  before : List (ι → Client)

namespace Wired

/-- All nodes are started on fresh databases. -/
def start (P : Platform) (localPeerId : ι → PeerId) : Wired ι := ⟨.start P localPeerId, fun _ => .empty, []⟩

/-- The number of the state. -/
def now (s : Wired ι) : ℕ := s.before.length

/-- A node that has the peer id of the ticket had these headers for its request, in one of the states since it was asked. -/
def Answered (P : Platform) (localPeerId : ι → PeerId) (before : List (ι → Client)) (r : Ticket)
    (headers : List Header) : Prop :=
  ∃ j, localPeerId j = r.peer ∧ ∃ k nodes, r.time ≤ k ∧ before[k]? = some nodes ∧
    (nodes j).manager.handleGetBlockHeadersRequest P r.request = .ok headers

/-- What may happen.  A request comes in on a channel of its own, and if a node asked it then just this and of this peer.
A response that comes in to a request of a node was made to the request of the same ticket. -/
structure Permitted (localPeerId : ι → PeerId) (s : Wired ι) (x : WiredStep ι) : Prop where
  request : ∀ channel request, x.step = .run (.event (.requestResponse (.request channel request))) →
    (∀ w ∈ s.cluster.networks x.node, channel ∉ w.traffic.arrivals.map Prod.fst) ∧
      ∀ r, x.origin = some r →
        r.peer = localPeerId x.node ∧ r.request = request ∧ ∃ i id, (s.labels i).outbound id = some r
  response : ∀ id headers, x.step = .run (.event (.requestResponse (.response id headers))) →
    ∀ r, (s.labels x.node).outbound id = some r → r.peer ∈ Set.range localPeerId →
      ∃ j channel, (s.labels j).inbound channel = some r ∧
        ∃ w ∈ s.cluster.networks j, (channel, headers) ∈ w.traffic.responses

section

variable [DecidableEq ι] (P : Platform)

/-- A step of one node. -/
def step (s : Wired ι) (x : WiredStep ι) : Except Client.Panic (Wired ι) := do
  let cluster ← s.cluster.step P (x.node, x.step)
  return { cluster
           labels := Function.update s.labels x.node (match x.step with
             | .run y =>
               (s.labels x.node).next (s.now + 1) x.origin (s.cluster.node x.node) (cluster.node x.node) y
             | .restart _ _ => (s.labels x.node).restart)
           before := s.before ++ [s.cluster.node] }

/-- A step of a cluster in which a task may have panicked. -/
def next (r : Except Client.Panic (Wired ι)) (x : WiredStep ι) : Except Client.Panic (Wired ι) :=
  match r with
  | .error p => .error p
  | .ok s => s.step P x

/-- Every step of the run meets `C`, as long as no task panics. -/
abbrev EveryStep (C : Wired ι → WiredStep ι → Prop) (s : Wired ι) (steps : List (WiredStep ι)) : Prop :=
  Lib.EveryStep (next P) (fun r x => ∀ s, r = .ok s → C s x) (.ok s) steps

/-- Every state of the run meets `I`, as long as no task panics. -/
abbrev EveryState (I : Wired ι → Prop) (s : Wired ι) (steps : List (WiredStep ι)) : Prop :=
  Lib.EveryState (next P) (fun r => ∀ s, r = .ok s → I s) (.ok s) steps

end

/-! ## Steps -/

variable {P : Platform} {localPeerId : ι → PeerId} {s s' : Wired ι} {x : WiredStep ι}

/-- A step changes the labels of one node. -/
theorem step_eq_ok [DecidableEq ι] (h : s.step P x = .ok s') : s.cluster.step P (x.node, x.step) = .ok s'.cluster ∧
    s'.before = s.before ++ [s.cluster.node] ∧ (∀ i, i ≠ x.node → s'.labels i = s.labels i) ∧
    (∀ y, x.step = .run y → s'.labels x.node =
      (s.labels x.node).next (s.now + 1) x.origin (s.cluster.node x.node) (s'.cluster.node x.node) y) ∧
    ∀ y n, x.step = .restart y n → s'.labels x.node = (s.labels x.node).restart := by
  obtain ⟨cluster, hcluster, h⟩ := exists_of_bind_eq_ok h
  cases h
  refine ⟨hcluster, rfl, fun i hi => by simp [hi], fun y hy => ?_, fun y n hy => ?_⟩
  · simp [hy]
  · simp [hy]

/-! ## What holds in every state -/

/-- In every node the numbers are those of their requests, and what it responded before it was last started is as asked. -/
structure Inv (P : Platform) (localPeerId : ι → PeerId) (s : Wired ι) : Prop where
  node : ∀ i, Traced (· ∈ Set.range localPeerId) (Answered P localPeerId s.before) (localPeerId i) s.now (s.labels i)
    (s.cluster.node i)
  past : ∀ i, ∀ w ∈ s.cluster.past i, ∀ x ∈ w.traffic.responses, x.1 ∈ w.traffic.arrivals.map Prod.fst ∧
    ∀ r, (s.labels i).inbound x.1 = some r → Answered P localPeerId s.before r x.2

theorem Answered.append {before : List (ι → Client)} {r : Ticket} {headers : List Header}
    (h : Answered P localPeerId before r headers) (nodes : ι → Client) :
    Answered P localPeerId (before ++ [nodes]) r headers := by
  obtain ⟨j, hj, k, nodes', hk, hnodes, hheaders⟩ := h
  refine ⟨j, hj, k, nodes', hk, ?_, hheaders⟩
  rwa [List.getElem?_append_left (List.getElem?_eq_some_iff.mp hnodes).1]

theorem inv_start (P : Platform) (localPeerId : ι → PeerId) : (start P localPeerId).Inv P localPeerId where
  node i := .start P Db.empty (localPeerId i) rfl rfl
  past _ _ hw := absurd hw List.not_mem_nil

/-- What a node has ever responded. -/
theorem Inv.responses (h : s.Inv P localPeerId) {i : ι} {w : Network} (hw : w ∈ s.cluster.networks i) :
    ∀ x ∈ w.traffic.responses, x.1 ∈ w.traffic.arrivals.map Prod.fst ∧
      ∀ r, (s.labels i).inbound x.1 = some r → Answered P localPeerId s.before r x.2 := by
  rcases List.mem_cons.mp hw with rfl | hw
  · exact (h.node i).traces.responses
  · exact h.past i w hw

/-- What comes in is what was asked and responded. -/
theorem Inv.admits (h : s.Inv P localPeerId) (hx : s.Permitted localPeerId x) {y : ClientStep} (hy : x.step = .run y) :
    Traced.Admits (· ∈ Set.range localPeerId) (Answered P localPeerId s.before) (localPeerId x.node) s.now
      (s.labels x.node) (s.cluster.node x.node) y x.origin where
  request channel request heq := by
    obtain ⟨hnew, horigin⟩ := hx.request channel request (by rw [hy, heq])
    refine ⟨hnew _ List.mem_cons_self, fun r hr => ?_⟩
    obtain ⟨hpeer, hrequest, i, id, hout⟩ := horigin r hr
    exact ⟨hpeer, hrequest, (h.node i).traces.outbound id r hout⟩
  response id headers heq r hr hknown := by
    obtain ⟨j, channel, hin, w, hw, hmem⟩ := hx.response id headers (by rw [hy, heq]) r hr hknown
    exact (h.responses hw _ hmem).2 r hin

/-- The labels of what a node has responded stay. -/
theorem Inv.inbound (h : s.Inv P localPeerId) (hx : s.Permitted localPeerId x) {w : Network}
    (hw : w ∈ s.cluster.networks x.node) {y : ℕ × List Header} (hy : y ∈ w.traffic.responses) {c' : Client}
    {z : ClientStep} (hz : x.step = .run z) :
    ((s.labels x.node).next (s.now + 1) x.origin (s.cluster.node x.node) c' z).inbound y.1 =
      (s.labels x.node).inbound y.1 :=
  inbound_next _ fun request heq =>
    (hx.request y.1 request (by rw [hz, heq])).1 w hw (h.responses hw y hy).1

theorem Inv.step [DecidableEq ι] (h : s.Inv P localPeerId) (hx : s.Permitted localPeerId x)
    (he : s.step P x = .ok s') : s'.Inv P localPeerId := by
  obtain ⟨hcluster, hbefore, hlabels, hrun, hrestart⟩ := step_eq_ok he
  obtain ⟨hnode, -, hpast, hothers⟩ := Cluster.step_eq_ok hcluster
  have hB : ∀ r headers, Answered P localPeerId s.before r headers → Answered P localPeerId s'.before r headers := by
    intro r headers hr
    rw [hbefore]
    exact hr.append _
  have hnow : s'.now = s.now + 1 := by
    unfold now
    rw [hbefore, List.length_append, List.length_singleton]
  constructor
  · intro i
    rw [hnow]
    by_cases hi : i = x.node
    · subst hi
      cases hstep : x.step with
      | run y =>
        rw [hstep] at hnode
        rw [hrun y hstep]
        -- what the chain side has now is had in this state, which is not before any ticket
        refine (h.node x.node).step (h.admits hx hstep) hB ?_ hnode
        intro r headers hpeer htime hheaders
        refine ⟨x.node, hpeer.symm, s.now, s.cluster.node, htime, ?_, hheaders⟩
        rw [hbefore]
        exact List.getElem?_concat_length
      | restart y n =>
        rw [hstep] at hnode
        rw [hrestart y n hstep, ← Except.ok.inj hnode]
        exact .start P _ _ rfl rfl
    · rw [hlabels i hi, (hothers i hi).1]
      exact (h.node i).mono hB
  · intro i w hw y hy
    by_cases hi : i = x.node
    · subst hi
      have hw' : w ∈ s.cluster.networks x.node := hpast w hw
      obtain ⟨harrived, hmeets⟩ := h.responses hw' y hy
      refine ⟨harrived, fun r hr => hB _ _ (hmeets r ?_)⟩
      cases hstep : x.step with
      | run z => rwa [hrun z hstep, h.inbound hx hw' hy hstep] at hr
      | restart z n =>
        rw [hrestart z n hstep] at hr
        exact hr
    · rw [(hothers i hi).2.2] at hw
      obtain ⟨harrived, hmeets⟩ := h.past i w hw y hy
      refine ⟨harrived, fun r hr => hB _ _ (hmeets r ?_)⟩
      rwa [hlabels i hi] at hr

/-! ## What nodes get -/

/-- What a node gets for its requests is what the nodes that it asked had for them. -/
structure Faithful (P : Platform) (localPeerId : ι → PeerId) (s : Wired ι) : Prop where
  /-- The reply to a request for headers. -/
  replies : ∀ i tx headers, (s.cluster.node i).network.headersReply tx = some (.ok headers) →
    ∃ r, (s.labels i).asked tx = some r ∧
      (r.peer ∈ Set.range localPeerId → Answered P localPeerId s.before r headers)
  /-- A download waits for the replies of its own peer. -/
  downloads : ∀ i, ∀ d ∈ (s.cluster.node i).downloads, ∀ tx ∈ d.inProgressQueue,
    ∃ r, (s.labels i).asked tx = some r ∧ r.peer = d.peerId

theorem mem_replies_of_headersReply {w : Network} {tx : ℕ} {headers : List Header}
    (h : w.headersReply tx = some (.ok headers)) : (tx, headers) ∈ w.traffic.replies := by
  obtain ⟨⟨c, reply⟩, hx, hf⟩ := List.exists_of_findSome?_eq_some h
  refine List.mem_filterMap.mpr ⟨(c, reply), hx, ?_⟩
  cases reply with
  | headers response =>
    simp only [Option.ite_none_right_eq_some, Option.some.injEq] at hf
    obtain ⟨rfl, rfl⟩ := hf
    rfl
  | _ => cases hf

theorem Inv.faithful (h : s.Inv P localPeerId) : s.Faithful P localPeerId where
  replies i _ _ hreply := (h.node i).traces.replies _ (mem_replies_of_headersReply hreply)
  downloads i := (h.node i).downloads

/-- **Responses are not mixed up.**  In every state of every run, with any interleaving of the tasks of all nodes, requests
that fail, nodes that are started again, and strangers that ask and respond, what a node gets for a request to another node
is what this node had for just that request in some state since it was asked, and a download only waits for replies of its
own peer. -/
theorem responses_not_mixed_up [DecidableEq ι] (P : Platform) (localPeerId : ι → PeerId) (steps : List (WiredStep ι))
    (h : EveryStep P (fun s x => s.Permitted localPeerId x) (start P localPeerId) steps) :
    EveryState P (fun s => s.Faithful P localPeerId) (start P localPeerId) steps := by
  have hrun : EveryState P (fun s => s.Inv P localPeerId) (start P localPeerId) steps := by
    refine everyState_of_everyStep ?_ ?_ h
    · rintro (p | s) x hs hx s' he
      · cases he
      · exact (hs s rfl).step (hx s rfl) he
    · rintro _ ⟨⟩
      exact inv_start P localPeerId
  exact hrun.mono fun r hr s hs => (hr s hs).faithful

/-! ## One request -/

/-- The peer ids of two nodes. -/
def twoPeers (i : Bool) : PeerId := if i then ⟨[1]⟩ else ⟨[2]⟩

/-- Node `true` asks node `false` for its first block, and gets it. -/
def exchange (P : Platform) : List (WiredStep Bool) :=
  [⟨true, .run (.call (.getHeaders ⟨[2]⟩ ⟨1, 0⟩)), none⟩, ⟨true, .run (.command (granted 0)), none⟩,
    ⟨false, .run (.event (.requestResponse (.request 0 ⟨1, 0⟩))), some ⟨⟨⟨[2]⟩, ⟨1, 0⟩, 0⟩, 1⟩⟩,
    ⟨false, .run .onEvent, none⟩, ⟨false, .run (.respond 0), none⟩,
    ⟨true, .run (.event (.requestResponse (.response 0 [Chain.genesis P]))), none⟩]

/-- Node `false` when the request has come in. -/
def asked (P : Platform) : Client :=
  { Client.startNetwork P Db.empty (twoPeers false) with
    network := { Network.new (twoPeers false) with
      manager := { NetworkManager.new (twoPeers false) with
        eventSender := ⟨[.getBlockHeaders 0 ⟨1, 0⟩], true⟩, incomingPeerRequests := [0] } } }

/-- The chain side has the headers for the request that comes next. -/
theorem eq_of_getBlockHeaders {c c' : Client} {channel : ℕ} {request : HeadersRequest} {headers : List Header}
    (he : c.step P .onEvent = .ok c')
    (hevent : c.network.manager.eventSender.sent[c.received]? = some (.getBlockHeaders channel request))
    (h : c.manager.handleGetBlockHeadersRequest P request = .ok headers) :
    c' = { c.withManager { c.manager with sent := c.manager.sent ++ [.response channel headers] } with
      received := c.received + 1 } := by
  have hhandle : c.manager.onEvent P (.getBlockHeaders channel request) =
      .ok { c.manager with sent := c.manager.sent ++ [.response channel headers] } := by
    unfold ChainNetworkManager.onEvent
    simp only [h]
    rfl
  unfold Client.step Client.onEvent at he
  simp only [hevent, hhandle] at he
  exact (Except.ok.inj he).symm

/-- The step that led here. -/
theorem exists_of_next [DecidableEq ι] {r : Except Client.Panic (Wired ι)} (h : next P r x = .ok s') :
    ∃ s, r = .ok s ∧ s.step P x = .ok s' := by
  cases r with
  | error p => cases h
  | ok s => exact ⟨s, rfl, h⟩

theorem exchange_permitted (P : Platform) :
    EveryStep P (fun s x => s.Permitted twoPeers x) (start P twoPeers) (exchange P) := by
  refine ⟨?_, ?_, ?_, ?_, ?_, ?_, trivial⟩
  · intro s _
    exact ⟨by simp, by simp⟩
  · intro s _
    exact ⟨by simp, by simp⟩
  · rintro _ ⟨⟩
    refine ⟨?_, by simp⟩
    rintro channel request ⟨⟩
    refine ⟨?_, ?_⟩
    · intro w hw
      rcases List.mem_cons.mp hw with rfl | hw
      · exact List.not_mem_nil
      · cases hw
    · rintro _ ⟨⟩
      exact ⟨rfl, rfl, true, 0, rfl⟩
  · intro s _
    exact ⟨by simp, by simp⟩
  · intro s _
    exact ⟨by simp, by simp⟩
  · intro s₅ hs
    obtain ⟨s₄, hs, h₅⟩ := exists_of_next hs
    obtain ⟨s₃, hs, h₄⟩ := exists_of_next hs
    -- the first three steps compute, while the fourth reads the chain
    cases hs
    obtain ⟨hcluster₄, -, hlabels₄, hrun₄, -⟩ := step_eq_ok h₄
    obtain ⟨hcluster₅, -, hlabels₅, hrun₅, -⟩ := step_eq_ok h₅
    obtain ⟨hnode₄, -⟩ := Cluster.step_eq_ok hcluster₄
    obtain ⟨hnode₅, -⟩ := Cluster.step_eq_ok hcluster₅
    have hheaders := headersFrom_eq (stores_new P) (by simp) 1 0
    have hnode₄ : (asked P).step P .onEvent = .ok (s₄.cluster.node false) := hnode₄
    have hevent : (asked P).network.manager.eventSender.sent[(asked P).received]? =
        some (.getBlockHeaders 0 ⟨1, 0⟩) := rfl
    have hgiven := eq_of_getBlockHeaders hnode₄ hevent hheaders
    change (s₄.cluster.node false).step P (.respond 0) = .ok (s₅.cluster.node false) at hnode₅
    rw [hgiven] at hnode₅
    have hnode₅ := Except.ok.inj hnode₅
    refine ⟨?_, ?_⟩
    · rintro channel request ⟨⟩
    · rintro id headers ⟨⟩ r hr -
      rw [hlabels₅ true (by simp), hlabels₄ true (by simp)] at hr
      cases hr
      refine ⟨false, 0, ?_, (s₅.cluster.node false).network, List.mem_cons_self, ?_⟩
      · rw [hrun₅ _ rfl]
        show (s₄.labels false).inbound 0 = _
        rw [hrun₄ _ rfl]
        rfl
      · rw [← hnode₅]
        exact List.mem_singleton_self _

theorem responses_not_mixed_up_exchange :
    EveryState (sample true) (fun s => s.Faithful (sample true) twoPeers) (start (sample true) twoPeers)
      (exchange (sample true)) :=
  responses_not_mixed_up _ _ _ (exchange_permitted _)

end Wired

end Simb
