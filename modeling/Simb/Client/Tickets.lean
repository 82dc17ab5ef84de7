import Simb.Client.Asking
import Simb.Net.Traffic

/-!
# Which response belongs to which request

A request for headers goes through many hands, and each knows it by another number: the node by the channel of its reply,
its network task by the id that libp2p gave to it, and the peer by the channel for its response.  To say that all of these
mean the same request, each request gets a `Ticket` when it is asked, and `Labels` say which ticket is behind a number.
`Traced` is then what holds in a node, and each of its steps keeps it (`Traced.step`).
-/

namespace Simb

open Simb.BlockTree Simb.Net Simb.Tasks Simb.Lib

/-! ## Tickets -/

/-- A request for headers, and the first of the states in which it is asked. -/
structure Ticket extends GetHeadersRequest where
  time : ℕ

/-- The ticket of a command on its way. -/
def Net.Network.ticket (w : Network) (time tx : ℕ) : Option Ticket :=
  w.commandRecv.findSome? fun m =>
    match m with
    | ⟨.getHeaders peer request, sender⟩ => if sender = tx then some ⟨⟨peer, request, sender⟩, time⟩ else none
    | _ => none

/-- The tickets behind the numbers that are used in a node. -/
structure Labels where
  /-- By the channel of the reply. -/
  asked : ℕ → Option Ticket
  /-- By the id of the request. -/
  outbound : ℕ → Option Ticket
  /-- By the channel for the response to a peer. -/
  inbound : ℕ → Option Ticket

namespace Labels

/-- Nothing was asked. -/
def empty : Labels := ⟨fun _ => none, fun _ => none, fun _ => none⟩

/-- The labels after the step `x` from `c` to `c'`.  A request that comes in has the ticket `origin`, if a node asked it. -/
def next (l : Labels) (time : ℕ) (origin : Option Ticket) (c c' : Client) (x : ClientStep) : Labels where
  asked tx := l.asked tx <|> c'.network.ticket time tx
  outbound :=
    match x, c.network.commandRecv with
    | .command a, ⟨.getHeaders _ _, tx⟩ :: _ => Function.update l.outbound a.sendRequest (l.asked tx)
    | _, _ => l.outbound
  inbound :=
    match x with
    | .event (.requestResponse (.request channel _)) => Function.update l.inbound channel origin
    | _ => l.inbound

/-- A node that is started again has asked nothing.  The channels of before are not used again. -/
def restart (l : Labels) : Labels := { empty with inbound := l.inbound }

end Labels

/-! ## What holds in a node -/

/-- The commands on their way have their tickets. -/
structure Asks (now : ℕ) (l : Labels) (w : Network) : Prop where
  inv : w.Inv
  made : ∀ tx r, l.asked tx = some r → tx < w.oneshots.next ∧ r.time ≤ now
  queued : ∀ m ∈ w.commandRecv, ∀ peer request, m.request = .getHeaders peer request →
    ∃ r, l.asked m.tx = some r ∧ r.peer = peer ∧ r.request = request

/-- What is behind the numbers in the network task of the node `me`.  `B` is what a response to a ticket is to meet, for the
peers that are `known`. -/
structure Traces (known : PeerId → Prop) (B : Ticket → List Header → Prop) (me : PeerId) (now : ℕ) (l : Labels)
    (t : Traffic) : Prop where
  pending : ∀ id command, t.pending[id]? = some command →
    ∃ r, l.asked command.sender = some r ∧ l.outbound id = some r
  outbound : ∀ id r, l.outbound id = some r → r.time ≤ now
  replies : ∀ x ∈ t.replies, ∃ r, l.asked x.1 = some r ∧ (known r.peer → B r x.2)
  arrivals : ∀ x ∈ t.arrivals, ∀ r, l.inbound x.1 = some r → r.peer = me ∧ r.request = x.2 ∧ r.time ≤ now
  responses : ∀ x ∈ t.responses, x.1 ∈ t.arrivals.map Prod.fst ∧ ∀ r, l.inbound x.1 = some r → B r x.2

structure Traced (known : PeerId → Prop) (B : Ticket → List Header → Prop) (me : PeerId) (now : ℕ) (l : Labels)
    (c : Client) : Prop where
  asks : Asks now l c.network
  traces : Traces known B me now l c.network.traffic
  given : ∀ channel headers, .response channel headers ∈ c.manager.sent →
    channel ∈ c.network.traffic.arrivals.map Prod.fst ∧ ∀ r, l.inbound channel = some r → B r headers
  downloads : ∀ d ∈ c.downloads, ∀ tx ∈ d.inProgressQueue, ∃ r, l.asked tx = some r ∧ r.peer = d.peerId

variable {P : Platform} {known : PeerId → Prop} {B B' : Ticket → List Header → Prop} {me : PeerId} {now : ℕ}
  {l l' : Labels} {w w' : Network} {t : Traffic} {c c' : Client} {origin : Option Ticket}

/-! ## Commands -/

theorem exists_of_ticket {time tx : ℕ} {r : Ticket} (h : w.ticket time tx = some r) :
    ∃ m ∈ w.commandRecv, m.tx = tx ∧ m.request = .getHeaders r.peer r.request ∧ r.time = time := by
  obtain ⟨⟨request, sender⟩, hm, hfound⟩ := List.exists_of_findSome?_eq_some h
  refine ⟨_, hm, ?_⟩
  cases request with
  | getHeaders peer request =>
    simp only [Option.ite_none_right_eq_some, Option.some.injEq] at hfound
    obtain ⟨rfl, rfl⟩ := hfound
    exact ⟨rfl, rfl, rfl⟩
  | _ => cases hfound

/-- Each command has a channel of its own, so its ticket is found. -/
theorem ticket_of_mem (h : w.Inv) (time : ℕ) {m : NetworkProviderMessage} (hm : m ∈ w.commandRecv) {peer : PeerId}
    {request : HeadersRequest} (hrequest : m.request = .getHeaders peer request) :
    ∃ r, w.ticket time m.tx = some r ∧ r.peer = peer ∧ r.request = request := by
  have hsome : (w.ticket time m.tx).isSome := by
    refine List.findSome?_isSome_iff.mpr ⟨m, hm, ?_⟩
    obtain ⟨request', sender⟩ := m
    obtain rfl : request' = _ := hrequest
    simp
  obtain ⟨r, hr⟩ := Option.isSome_iff_exists.mp hsome
  obtain ⟨m', hm', htx, hrequest', -⟩ := exists_of_ticket hr
  obtain rfl := List.inj_on_of_nodup_map (List.nodup_append.mp h.nodup_senders).2.1 hm' hm htx
  obtain ⟨rfl, rfl⟩ := ProviderRequest.getHeaders.inj (hrequest'.symm.trans hrequest)
  exact ⟨r, hr, rfl, rfl⟩

namespace Labels

theorem asked_next {x : ClientStep} {time tx : ℕ} {r : Ticket} (h : l.asked tx = some r) :
    (l.next time origin c c' x).asked tx = some r := by
  simp [next, h]

end Labels

/-- Every command gets its ticket when it is sent. -/
theorem Asks.next (h : Asks now l w) (hw : w'.Inv) (hlater : w.Later w')
    (hasked : ∀ tx, l'.asked tx = (l.asked tx <|> w'.ticket (now + 1) tx)) : Asks (now + 1) l' w' where
  inv := hw
  made tx r hr := by
    rw [hasked, Option.orElse_eq_some] at hr
    rcases hr with hr | ⟨-, hr⟩
    · obtain ⟨hlt, hle⟩ := h.made tx r hr
      exact ⟨hlt.trans_le hlater.next, hle.trans (Nat.le_succ _)⟩
    · obtain ⟨m, hm, rfl, -, htime⟩ := exists_of_ticket hr
      refine ⟨?_, htime.le⟩
      have hmem := List.mem_append_right (w'.handled.map Prod.fst) (List.mem_map_of_mem (f := NetworkProviderMessage.tx) hm)
      rw [hw.senders] at hmem
      exact List.mem_range.mp hmem
  queued m hm peer request hrequest := by
    rw [hasked]
    -- a channel that was there has its ticket, and a new one gets it now
    by_cases hlt : m.tx < w.oneshots.next
    · obtain ⟨r, hr, hpeer⟩ := h.queued m (hlater.commands m hm hlt) peer request hrequest
      exact ⟨r, by rw [hr]; rfl, hpeer⟩
    · have hnone : l.asked m.tx = none := by
        cases hr : l.asked m.tx with
        | none => rfl
        | some r => exact absurd (h.made m.tx r hr).1 hlt
      obtain ⟨r, hr, hpeer⟩ := ticket_of_mem hw (now + 1) hm hrequest
      exact ⟨r, by rw [hnone, hr]; rfl, hpeer⟩

/-! ## The network task -/

namespace Traces

/-- More is asked, and the responses meet more. -/
theorem mono (h : Traces known B me now l t) (hB : ∀ r headers, B r headers → B' r headers)
    (hasked : ∀ tx r, l.asked tx = some r → l'.asked tx = some r) (houtbound : l'.outbound = l.outbound)
    (hinbound : l'.inbound = l.inbound) : Traces known B' me (now + 1) l' t where
  pending id command hcommand := by
    obtain ⟨r, hr, hid⟩ := h.pending id command hcommand
    exact ⟨r, hasked _ r hr, by rw [houtbound, hid]⟩
  outbound id r hr := by
    rw [houtbound] at hr
    exact (h.outbound id r hr).trans (Nat.le_succ now)
  replies x hx := by
    obtain ⟨r, hr, hmeets⟩ := h.replies x hx
    exact ⟨r, hasked _ r hr, fun hknown => hB _ _ (hmeets hknown)⟩
  arrivals x hx r hr := by
    rw [hinbound] at hr
    obtain ⟨hpeer, hrequest, htime⟩ := h.arrivals x hx r hr
    exact ⟨hpeer, hrequest, htime.trans (Nat.le_succ now)⟩
  responses x hx := by
    rw [hinbound]
    exact ⟨(h.responses x hx).1, fun r hr => hB _ _ ((h.responses x hx).2 r hr)⟩

/-- A request of the node is sent. -/
theorem send (h : Traces known B me now l t) (command : GetHeadersRequest) {r : Ticket}
    (hr : l.asked command.sender = some r) (htime : r.time ≤ now) (id : ℕ) :
    Traces known B me now { l with outbound := Function.update l.outbound id (some r) }
      { t with pending := t.pending.insert id command } where
  pending id' command' hcommand := by
    by_cases hid : id' = id
    · subst hid
      rw [Table.getElem?_insert_self] at hcommand
      cases hcommand
      exact ⟨r, hr, Function.update_self ..⟩
    · rw [Table.getElem?_insert_of_ne _ _ hid] at hcommand
      obtain ⟨r', hr', hout⟩ := h.pending id' command' hcommand
      exact ⟨r', hr', by rw [← hout]; exact Function.update_of_ne hid ..⟩
  outbound id' r' hr' := by
    change Function.update l.outbound id (some r) id' = some r' at hr'
    by_cases hid : id' = id
    · subst hid
      rw [Function.update_self] at hr'
      cases hr'
      exact htime
    · rw [Function.update_of_ne hid] at hr'
      exact h.outbound id' r' hr'
  replies := h.replies
  arrivals := h.arrivals
  responses := h.responses

/-- A request of the node has its response, or failed. -/
theorem settle (h : Traces known B me now l t) (id : ℕ) (response : RequestResponse HeadersResponse)
    (hresponse : ∀ headers, response = .ok headers → ∀ r, l.outbound id = some r → known r.peer → B r headers) :
    Traces known B me now l (t.settle id response) := by
  unfold Traffic.settle
  cases hcommand : t.pending[id]? with
  | none => exact h
  | some command =>
    obtain ⟨r, hr, hid⟩ := h.pending id command hcommand
    refine ⟨?_, h.outbound, ?_, h.arrivals, h.responses⟩
    · intro id' command' hcommand'
      by_cases hid' : id' = id
      · subst hid'
        rw [Table.getElem?_erase_self] at hcommand'
        cases hcommand'
      · rw [Table.getElem?_erase_of_ne _ hid'] at hcommand'
        exact h.pending id' command' hcommand'
    · intro x hx
      rcases List.mem_append.mp hx with hx | hx
      · exact h.replies x hx
      · obtain ⟨headers, hheaders, rfl⟩ := List.mem_map.mp hx
        cases response with
        | error e => cases hheaders
        | ok headers' =>
          cases List.mem_singleton.mp hheaders
          exact ⟨r, hr, hresponse _ rfl r hid⟩

/-- A request of a peer comes in, on a channel of its own. -/
theorem arrive (h : Traces known B me now l t) {channel : ℕ} (hnew : channel ∉ t.arrivals.map Prod.fst)
    {request : HeadersRequest} (horigin : ∀ r, origin = some r → r.peer = me ∧ r.request = request ∧ r.time ≤ now)
    (waiting : List ℕ) : Traces known B me now { l with inbound := Function.update l.inbound channel origin }
      { t with arrivals := t.arrivals ++ [(channel, request)], waiting } where
  pending := h.pending
  outbound := h.outbound
  replies := h.replies
  arrivals x hx r hr := by
    change Function.update l.inbound channel origin x.1 = some r at hr
    rcases List.mem_append.mp hx with hx | hx
    · have hne : x.1 ≠ channel := fun heq => hnew (heq ▸ List.mem_map_of_mem hx)
      exact h.arrivals x hx r (by rwa [Function.update_of_ne hne] at hr)
    · rw [List.mem_singleton.mp hx] at hr ⊢
      exact horigin r (by rwa [Function.update_self] at hr)
  responses x hx := by
    obtain ⟨hmem, hmeets⟩ := h.responses x hx
    have hne : x.1 ≠ channel := fun heq => hnew (heq ▸ hmem)
    refine ⟨by rw [List.map_append]; exact List.mem_append_left _ hmem, fun r hr => hmeets r ?_⟩
    change Function.update l.inbound channel origin x.1 = some r at hr
    rwa [Function.update_of_ne hne] at hr

/-- A request of a peer gets its response. -/
theorem respond (h : Traces known B me now l t) {channel : ℕ} {headers : List Header}
    (hmem : channel ∈ t.arrivals.map Prod.fst) (hmeets : ∀ r, l.inbound channel = some r → B r headers)
    (waiting : List ℕ) :
    Traces known B me now l { t with waiting, responses := t.responses ++ [(channel, headers)] } where
  pending := h.pending
  outbound := h.outbound
  replies := h.replies
  arrivals := h.arrivals
  responses x hx := by
    rcases List.mem_append.mp hx with hx | hx
    · exact h.responses x hx
    · rw [List.mem_singleton.mp hx]
      exact ⟨hmem, hmeets⟩

end Traces

/-! ## Steps -/

/-- What may come in at a node: a request on a channel of its own and with the ticket behind it, and for a request to a known
peer only what this responds. -/
structure Traced.Admits (known : PeerId → Prop) (B : Ticket → List Header → Prop) (me : PeerId) (now : ℕ) (l : Labels)
    (c : Client) (x : ClientStep) (origin : Option Ticket) : Prop where
  request : ∀ channel request, x = .event (.requestResponse (.request channel request)) →
    channel ∉ c.network.traffic.arrivals.map Prod.fst ∧
      ∀ r, origin = some r → r.peer = me ∧ r.request = request ∧ r.time ≤ now
  response : ∀ id headers, x = .event (.requestResponse (.response id headers)) →
    ∀ r, l.outbound id = some r → known r.peer → B r headers

/-- The labels of a network task after a step of it. -/
theorem Traces.step (h : Traces known B me now l c.network.traffic) (hasks : Asks now l c.network)
    (hgiven : ∀ channel headers, .response channel headers ∈ c.manager.sent →
      channel ∈ c.network.traffic.arrivals.map Prod.fst ∧ ∀ r, l.inbound channel = some r → B r headers)
    {x : ClientStep} (hx : Traced.Admits known B me now l c x origin) {y : NetworkStep} (hy : Client.NetworkStepOf c x y)
    (time : ℕ) : Traces known B me now { l.next time origin c c' x with asked := l.asked }
      (c.network.traffic.next c.network.commandRecv y) := by
  cases hy with
  | command a =>
    cases hrecv : c.network.commandRecv with
    | nil => simpa [Labels.next, Traffic.next, hrecv] using h
    | cons m commands =>
      obtain ⟨request, tx⟩ := m
      cases request with
      | getHeaders peer request =>
        obtain ⟨r, hr, hpeer⟩ := hasks.queued _ (by rw [hrecv]; exact List.mem_cons_self) peer request rfl
        have hsend := h.send ⟨peer, request, tx⟩ hr (hasks.made tx r hr).2 a.sendRequest
        simpa [Labels.next, Traffic.next, hrecv, hr] using hsend
      | _ => simpa [Labels.next, Traffic.next, hrecv] using h
  | event event =>
    cases event with
    | requestResponse event =>
      cases event with
      | request channel request =>
        obtain ⟨hnew, horigin⟩ := hx.request channel request rfl
        exact h.arrive hnew horigin _
      | response id headers =>
        refine h.settle id (.ok headers) ?_
        rintro _ ⟨⟩
        exact hx.response id headers rfl
      | outboundFailure id => exact h.settle id (.error .outboundFailure) (by rintro _ ⟨⟩)
      | _ => exact h
    | _ => exact h
  | respond hchannel hmem =>
    rename_i i channel headers
    have hwaiting : c.network.traffic.waiting[i]? = some channel := hchannel
    obtain ⟨harrived, hmeets⟩ := hgiven channel headers hmem
    simp only [Traffic.next, hwaiting]
    exact h.respond harrived hmeets _
  | _ => exact h

/-- The ticket of a request that came in stays, as long as no other one comes in on its channel. -/
theorem inbound_next {x : ClientStep} {channel : ℕ} (time : ℕ)
    (h : ∀ request, x ≠ .event (.requestResponse (.request channel request))) :
    (l.next time origin c c' x).inbound channel = l.inbound channel := by
  cases x with
  | event event =>
    cases event with
    | requestResponse event =>
      cases event with
      | request channel' request =>
        have hne : channel ≠ channel' := fun heq => h request (heq ▸ rfl)
        exact Function.update_of_ne hne ..
      | _ => rfl
    | _ => rfl
  | _ => rfl

theorem Traced.mono (h : Traced known B me now l c) (hB : ∀ r headers, B r headers → B' r headers) :
    Traced known B' me (now + 1) l c where
  asks := ⟨h.asks.inv, fun tx r hr => (h.asks.made tx r hr).imp_right (·.trans (Nat.le_succ now)), h.asks.queued⟩
  traces := h.traces.mono hB (fun _ _ hr => hr) rfl rfl
  given channel headers hmem := (h.given channel headers hmem).imp_right fun hmeets r hr => hB r headers (hmeets r hr)
  downloads := h.downloads

/-- The requests that are in flight after a poll of a download were so before, or are commands on their way. -/
theorem inFlight_of_poll {d d' : SyncHeader ℕ} {fuel : ℕ} {look : List ℕ → Network → Client.Found}
    (h : d.poll (Network.headersEnv look) fuel w = some (.pending d', w')) :
    d'.peerId = d.peerId ∧ ∀ tx ∈ d'.inProgressQueue, tx ∈ d.inProgressQueue ∨
      ∃ m ∈ w'.commandRecv, m.tx = tx ∧ ∃ request, m.request = .getHeaders d.peerId request := by
  have hkeeps : Keeps (Network.headersEnv look) fun d' w' => d'.peerId = d.peerId ∧ ∀ tx ∈ d'.inProgressQueue,
      tx ∈ d.inProgressQueue ∨
        ∃ m ∈ w'.commandRecv, m.tx = tx ∧ ∃ request, m.request = .getHeaders d.peerId request := by
    refine ⟨?_, ?_, ?_⟩
    · intro s w w' hJ hp
      rwa [pollNext_world hp]
    · rintro s w w' s' i response ⟨hpeer, hqueue⟩ hp hready
      obtain ⟨headers, -, -, rfl⟩ := onReady_eq_ok hready
      rw [pollNext_world hp]
      exact ⟨hpeer, fun tx htx => hqueue tx (List.mem_of_mem_eraseIdx htx)⟩
    · rintro s w w' fut ⟨hpeer, hqueue⟩ - - hg
      cases hg
      refine ⟨hpeer, fun tx htx => ?_⟩
      rcases List.mem_append.mp htx with htx | htx
      · refine (hqueue tx htx).imp_right ?_
        rintro ⟨m, hm, hrest⟩
        exact ⟨m, List.mem_append_left _ hm, hrest⟩
      · refine .inr ⟨_, List.mem_append_right _ (List.mem_singleton_self _), (List.mem_singleton.mp htx).symm, ?_⟩
        exact ⟨s.nextRequest, by rw [← hpeer]⟩
  exact hkeeps.poll ⟨rfl, fun tx htx => .inl htx⟩ h

/-- The labels in the network task after a step, and how the task went on. -/
theorem Traced.task (h : Traced known B me now l c) {x : ClientStep} (hx : Traced.Admits known B me now l c x origin)
    (hB : ∀ r headers, B r headers → B' r headers) (he : c.step P x = .ok c') :
    c'.network.Inv ∧ c.network.Later c'.network ∧
      Traces known B' me (now + 1) (l.next (now + 1) origin c c' x) c'.network.traffic ∧
      c.network.traffic.arrivals ⊆ c'.network.traffic.arrivals := by
  have hasked : ∀ tx r, l.asked tx = some r → (l.next (now + 1) origin c c' x).asked tx = some r :=
    fun tx r hr => Labels.asked_next hr
  cases hcalls : x.calls with
  | true =>
    -- these steps only call the provider, so the labels and the traffic are those of before
    have hnext : (l.next (now + 1) origin c c' x).outbound = l.outbound ∧
        (l.next (now + 1) origin c c' x).inbound = l.inbound := by
      cases x <;> first | exact ⟨rfl, rfl⟩ | cases hcalls
    obtain ⟨hinv, hlater, htraffic⟩ := Client.calls_invariant
      (J := fun w => w.Inv ∧ c.network.Later w ∧ w.traffic = c.network.traffic)
      (fun w request hw _ => ⟨hw.1.call request, hw.2.1.call request, hw.2.2⟩)
      ⟨h.asks.inv, .refl _, rfl⟩ hcalls he
    rw [htraffic]
    exact ⟨hinv, hlater, h.traces.mono hB hasked hnext.1 hnext.2, fun _ h => h⟩
  | false =>
    rcases Client.network_of_step hcalls he with ⟨i, rfl, rfl⟩ | ⟨y, w, hy, hw, rfl⟩
    · exact ⟨h.asks.inv, .refl _, h.traces.mono hB hasked rfl rfl, fun _ h => h⟩
    · refine ⟨h.asks.inv.step hw, later_step hw, ?_, ?_⟩
      · have htraces : Traces known B me now
            { l.next (now + 1) origin c { c with network := w } x with asked := l.asked }
            (c.network.traffic.next c.network.commandRecv y) := h.traces.step h.asks h.given hx hy (now + 1)
        rw [← traffic_step hw] at htraces
        exact htraces.mono hB hasked rfl rfl
      · rw [traffic_step hw]
        exact Traffic.arrivals_subset_next _ _ _

/-- **The numbers stay those of their requests.**  `B` may meanwhile become more, and what the chain side has for a request
to this node is to meet it. -/
theorem Traced.step (h : Traced known B me now l c) {x : ClientStep} (hx : Traced.Admits known B me now l c x origin)
    (hB : ∀ r headers, B r headers → B' r headers)
    (hanswer : ∀ r headers, r.peer = me → r.time ≤ now →
      c.manager.handleGetBlockHeadersRequest P r.request = .ok headers → B' r headers)
    (he : c.step P x = .ok c') : Traced known B' me (now + 1) (l.next (now + 1) origin c c' x) c' := by
  obtain ⟨hinv, hlater, htraces, harrivals⟩ := h.task hx hB he
  have hasked : ∀ tx r, l.asked tx = some r → (l.next (now + 1) origin c c' x).asked tx = some r :=
    fun tx r hr => Labels.asked_next hr
  have hinbound : ∀ channel ∈ c.network.traffic.arrivals.map Prod.fst,
      (l.next (now + 1) origin c c' x).inbound channel = l.inbound channel := fun channel hchannel =>
    inbound_next _ fun request heq => (hx.request channel request heq).1 hchannel
  have hasks : Asks (now + 1) (l.next (now + 1) origin c c' x) c'.network := h.asks.next hinv hlater fun _ => rfl
  refine ⟨hasks, htraces, ?_, ?_⟩
  · intro channel headers hmem
    rcases Client.response_of_step he hmem with hmem | ⟨request, hevent, hheaders⟩
    · obtain ⟨harrived, hmeets⟩ := h.given channel headers hmem
      rw [hinbound channel harrived]
      exact ⟨List.map_subset _ harrivals harrived, fun r hr => hB r headers (hmeets r hr)⟩
    -- a new response is what the chain side has now, for a request with the ticket of its channel
    · have harrived : (channel, request) ∈ c.network.traffic.arrivals := List.mem_filterMap.mpr ⟨_, hevent, rfl⟩
      rw [hinbound channel (List.mem_map_of_mem harrived)]
      refine ⟨List.mem_map_of_mem (harrivals harrived), fun r hr => ?_⟩
      obtain ⟨hpeer, hrequest, htime⟩ := h.traces.arrivals _ harrived r hr
      exact hanswer r headers hpeer htime (by rw [hrequest]; exact hheaders)
  · intro d hd tx htx
    rcases Client.download_of_step he hd with hd | hempty | ⟨d₀, hd₀, fuel, look, hpoll⟩
    · obtain ⟨r, hr, hpeer⟩ := h.downloads d hd tx htx
      exact ⟨r, hasked tx r hr, hpeer⟩
    · rw [hempty] at htx
      cases htx
    · obtain ⟨hpeer, hqueue⟩ := inFlight_of_poll hpoll
      rw [hpeer]
      rcases hqueue tx htx with htx | ⟨m, hm, rfl, request, hrequest⟩
      · obtain ⟨r, hr, hr'⟩ := h.downloads d₀ hd₀ tx htx
        exact ⟨r, hasked tx r hr, hr'⟩
      · obtain ⟨r, hr, hr', -⟩ := hasks.queued m hm d₀.peerId request hrequest
        exact ⟨r, hr, hr'⟩

/-- A node that was just started. -/
theorem Traced.start (P : Platform) (db : Db) (localPeerId : PeerId) (hl : l.asked = Labels.empty.asked)
    (hout : l.outbound = Labels.empty.outbound) : Traced known B me now l (Client.startNetwork P db localPeerId) where
  asks := ⟨Network.inv_new localPeerId, by rw [hl]; rintro tx r ⟨⟩, fun m hm => absurd hm List.not_mem_nil⟩
  traces := by
    refine ⟨?_, by rw [hout]; rintro id r ⟨⟩, fun x hx => absurd hx List.not_mem_nil,
      fun x hx => absurd hx List.not_mem_nil, fun x hx => absurd hx List.not_mem_nil⟩
    intro id command hcommand
    simp [Client.startNetwork, Network.new, Network.traffic, trafficOf, NetworkManager.new] at hcommand
  given channel headers hmem := absurd hmem List.not_mem_nil
  downloads d hd := absurd hd List.not_mem_nil

end Simb
