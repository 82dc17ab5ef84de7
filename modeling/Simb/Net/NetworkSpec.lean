import Simb.Lib.Desk
import Simb.Lib.Run
import Simb.Net.Network

/-!
# What the network task can do

The four maps of the task together are a `Desk`: each command is answered at once or kept under the key of its request,
and each event answers what is kept under one key, if anything is.  There is one exception, a command to dial a peer that
is being dialed already, which is neither answered nor kept.  `step_cases` says what a step of the task or of a client
does, and `step_eq_error` what a panic on a reply says.
-/

namespace Simb.Net

open Simb.Lib

variable {n n' : NetworkManager} {o o' : Oneshots} {a : Answers} {command : NetworkProviderMessage}

/-! ## The maps as a desk -/

/-- The sender that is kept under a key. -/
def NetworkManager.held (n : NetworkManager) : Key → Option ℕ
  | .request id => n.pendingRequestHeaders[id]?.map GetHeadersRequest.sender
  | .query id => n.pendingGetClosestPeers[id]?
  | .peer peerId => n.pendingDial[peerId]?
  | .listener id => n.pendingListening[id]?

/-- What has become of the senders. -/
def Network.desk (s : Network) : Desk Key ℕ := ⟨s.manager.held, s.oneshots.sent.map Prod.fst, s.handled⟩

/-! A change of one map at one key is a change of the desk at one key. -/

theorem held_pendingRequestHeaders {t : Table ℕ GetHeadersRequest} {id : ℕ}
    (h : ∀ j, j ≠ id → t[j]? = n.pendingRequestHeaders[j]?) :
    { n with pendingRequestHeaders := t }.held =
      Function.update n.held (.request id) (t[id]?.map GetHeadersRequest.sender) := by
  refine Function.eq_update_iff.2 ⟨rfl, ?_⟩
  rintro (id' | _ | _ | _) hne
  · exact congrArg (Option.map GetHeadersRequest.sender) (h id' fun heq => hne (congrArg Key.request heq))
  · rfl
  · rfl
  · rfl

theorem held_pendingGetClosestPeers {t : Table ℕ ℕ} {id : ℕ} (h : ∀ j, j ≠ id → t[j]? = n.pendingGetClosestPeers[j]?) :
    { n with pendingGetClosestPeers := t }.held = Function.update n.held (.query id) t[id]? := by
  refine Function.eq_update_iff.2 ⟨rfl, ?_⟩
  rintro (_ | id' | _ | _) hne
  · rfl
  · exact h id' fun heq => hne (congrArg Key.query heq)
  · rfl
  · rfl

theorem held_pendingDial {t : Table PeerId ℕ} {peerId : PeerId} (h : ∀ j, j ≠ peerId → t[j]? = n.pendingDial[j]?) :
    { n with pendingDial := t }.held = Function.update n.held (.peer peerId) t[peerId]? := by
  refine Function.eq_update_iff.2 ⟨rfl, ?_⟩
  rintro (_ | _ | peerId' | _) hne
  · rfl
  · rfl
  · exact h peerId' fun heq => hne (congrArg Key.peer heq)
  · rfl

theorem held_pendingListening {t : Table ℕ ℕ} {id : ℕ} (h : ∀ j, j ≠ id → t[j]? = n.pendingListening[j]?) :
    { n with pendingListening := t }.held = Function.update n.held (.listener id) t[id]? := by
  refine Function.eq_update_iff.2 ⟨rfl, ?_⟩
  rintro (_ | _ | _ | id') hne
  · rfl
  · rfl
  · rfl
  · exact h id' fun heq => hne (congrArg Key.listener heq)

/-! ## What commands and events do -/

/-- The result of a handler that ends with a reply: a panic if the receiver is gone, and `n'` otherwise. -/
def RepliesTo (n' : NetworkManager) (o : Oneshots) (tx : ℕ)
    (r : Except NetworkManager.Panic (NetworkManager × Oneshots)) : Prop :=
  ∃ reply message, r = (do return (n', ← o.send tx reply message))

section

variable {r : Except NetworkManager.Panic (NetworkManager × Oneshots)} {n₁ : NetworkManager} {tx : ℕ}

theorem RepliesTo.eq_ok (h : RepliesTo n' o tx r) (hr : r = .ok (n₁, o')) :
    n₁ = n' ∧ ∃ reply, o' = { o with sent := o.sent ++ [(tx, reply)] } := by
  obtain ⟨reply, message, heq⟩ := h
  obtain ⟨o₁, hsend, hret⟩ := exists_of_bind_eq_ok (heq.symm.trans hr)
  unfold Oneshots.send at hsend
  split at hsend
  · cases hsend
  · cases hsend
    cases hret
    exact ⟨rfl, reply, rfl⟩

theorem RepliesTo.eq_error {tx' : ℕ} {message : String} (h : RepliesTo n' o tx r)
    (hr : r = .error (.reply tx' message)) : tx = tx' ∧ tx' ∈ o.dropped := by
  obtain ⟨reply, message', heq⟩ := h
  rcases bind_eq_error_iff.1 (heq.symm.trans hr) with hsend | ⟨o₁, -, hret⟩
  · unfold Oneshots.send at hsend
    split at hsend
    · rename_i hdropped
      cases hsend
      exact ⟨rfl, hdropped⟩
    · cases hsend
  · cases hret

end

/-- The two broadcasts. -/
theorem broadcast_repliesTo (n : NetworkManager) (o : Oneshots) (a : Answers) (tx : ℕ) (topic : String)
    (data : List UInt8) : ∃ n', n'.held = n.held ∧ RepliesTo n' o tx (n.broadcast o a tx topic data) := by
  refine ⟨n.call (.publish topic data), rfl, ?_⟩
  unfold NetworkManager.broadcast
  simp only
  split
  · exact ⟨_, _, rfl⟩
  · exact ⟨_, _, rfl⟩

/-- The command is to dial a peer that is being dialed. -/
def SecondDial (n : NetworkManager) (command : NetworkProviderMessage) : Prop :=
  ∃ peerId peerAddr, command.request = .dial peerId peerAddr ∧ n.pendingDial[peerId]?.isSome

/-- **The ways a command is handled.**  It is answered at once, or kept under its key, or it is a second dial and
lost. -/
theorem handleCommand_cases (n : NetworkManager) (o : Oneshots) (a : Answers) (command : NetworkProviderMessage) :
    (¬ SecondDial n command ∧ ∃ n', n'.held = n.held ∧ RepliesTo n' o command.tx (n.handleCommand o a command)) ∨
      (¬ SecondDial n command ∧ ∃ n' key, a.key command.request = some key ∧
        n'.held = Function.update n.held key (some command.tx) ∧ (∀ peerId, key = .peer peerId → n.held key = none) ∧
        n.handleCommand o a command = .ok (n', o)) ∨
      (SecondDial n command ∧ n.handleCommand o a command = .ok (n, o)) := by
  obtain ⟨request, tx⟩ := command
  have hother : (∀ peerId peerAddr, request ≠ .dial peerId peerAddr) → ¬ SecondDial n ⟨request, tx⟩ := by
    rintro hne ⟨peerId, peerAddr, heq, -⟩
    exact hne peerId peerAddr heq
  unfold NetworkManager.handleCommand
  cases request with
  | startListening addr =>
    have hdial := hother fun _ _ => by rintro ⟨⟩
    simp only
    split
    · exact .inl ⟨hdial, n.call (.listenOn addr), rfl, _, _, rfl⟩
    · rename_i listenerId hlisten
      refine .inr (.inl ⟨hdial, _, .listener listenerId, ?_, ?_, fun _ h => (by cases h), rfl⟩)
      · simp only [Answers.key, hlisten, Option.map_some]
      · refine (held_pendingListening fun j hj => Table.getElem?_insert_of_ne _ _ hj).trans ?_
        rw [Table.getElem?_insert_self]
        rfl
  | listenAddrs => exact .inl ⟨hother fun _ _ => (by rintro ⟨⟩), n, rfl, _, _, rfl⟩
  | dial peerId peerAddr =>
    simp only
    split
    · rename_i hvacant
      have hdial : ¬ SecondDial n ⟨.dial peerId peerAddr, tx⟩ := by
        rintro ⟨_, _, ⟨⟩, hsome⟩
        rw [hvacant] at hsome
        cases hsome
      split
      · refine .inr (.inl ⟨hdial, _, .peer peerId, rfl, ?_, fun _ _ => hvacant, rfl⟩)
        refine (held_pendingDial fun j hj => Table.getElem?_insert_of_ne _ _ hj).trans ?_
        rw [Table.getElem?_insert_self]
        rfl
      · exact .inl ⟨hdial, n.call (.dial (peerAddr.with (.p2p peerId))), rfl, _, _, rfl⟩
    · rename_i hoccupied
      exact .inr (.inr ⟨⟨peerId, peerAddr, rfl, by rw [hoccupied]; rfl⟩, rfl⟩)
  | broadcastTransactions transactions =>
    exact .inl ⟨hother fun _ _ => (by rintro ⟨⟩), broadcast_repliesTo n o a tx _ _⟩
  | broadcastBlockHeader header =>
    exact .inl ⟨hother fun _ _ => (by rintro ⟨⟩), broadcast_repliesTo n o a tx _ _⟩
  | getClosestPeers =>
    refine .inr (.inl ⟨hother fun _ _ => (by rintro ⟨⟩), _, .query a.getClosestPeers, rfl, ?_, fun _ h => (by cases h),
      rfl⟩)
    refine (held_pendingGetClosestPeers fun j hj => Table.getElem?_insert_of_ne _ _ hj).trans ?_
    rw [Table.getElem?_insert_self]
    rfl
  | getHeaders peer request =>
    refine .inr (.inl ⟨hother fun _ _ => (by rintro ⟨⟩), _, .request a.sendRequest, rfl, ?_, fun _ h => (by cases h),
      rfl⟩)
    refine (held_pendingRequestHeaders fun j hj => Table.getElem?_insert_of_ne _ _ hj).trans ?_
    rw [Table.getElem?_insert_self]
    rfl

/-- The result of a handler that has nothing to do with the senders. -/
structure Ignores (n : NetworkManager) (o : Oneshots)
    (r : Except NetworkManager.Panic (NetworkManager × Oneshots)) : Prop where
  ok : ∀ n' o', r = .ok (n', o') → n'.held = n.held ∧ o' = o
  error : ∀ tx message, r ≠ .error (.reply tx message)

/-- The result of a handler that replies to a sender that was kept under a key. -/
def Settles (n : NetworkManager) (o : Oneshots) (r : Except NetworkManager.Panic (NetworkManager × Oneshots)) : Prop :=
  ∃ key tx n', n.held key = some tx ∧ n'.held = Function.update n.held key none ∧ RepliesTo n' o tx r

theorem ignores_ok (h : n'.held = n.held) : Ignores n o (.ok (n', o)) := by
  refine ⟨?_, fun _ _ => by rintro ⟨⟩⟩
  rintro _ _ ⟨⟩
  exact ⟨h, rfl⟩

theorem settleDial_cases (n : NetworkManager) (o : Oneshots) (peerId : PeerId) (response : RequestResponse Unit) :
    Ignores n o (n.settleDial o peerId response) ∨ Settles n o (n.settleDial o peerId response) := by
  unfold NetworkManager.settleDial
  split
  · rename_i sender hsender
    refine .inr ⟨.peer peerId, sender, _, hsender, ?_, _, _, rfl⟩
    rw [held_pendingDial fun j hj => Table.getElem?_erase_of_ne _ hj, Table.getElem?_erase_self]
  · exact .inl (ignores_ok rfl)

theorem settleListening_cases (n : NetworkManager) (o : Oneshots) (listenerId : ℕ) :
    Ignores n o (n.settleListening o listenerId) ∨ Settles n o (n.settleListening o listenerId) := by
  unfold NetworkManager.settleListening
  split
  · rename_i sender hsender
    refine .inr ⟨.listener listenerId, sender, _, hsender, ?_, _, _, rfl⟩
    rw [held_pendingListening fun j hj => Table.getElem?_erase_of_ne _ hj, Table.getElem?_erase_self]
  · exact .inl (ignores_ok rfl)

theorem handleKadEvent_cases (n : NetworkManager) (o : Oneshots) (event : KadEvent) :
    Ignores n o (n.handleKadEvent o event) ∨ Settles n o (n.handleKadEvent o event) := by
  unfold NetworkManager.handleKadEvent
  split
  · rename_i id result
    split
    · rename_i sender hsender
      refine .inr ⟨.query id, sender, _, hsender, ?_, _, _, rfl⟩
      rw [held_pendingGetClosestPeers fun j hj => Table.getElem?_erase_of_ne _ hj, Table.getElem?_erase_self]
    · exact .inl (ignores_ok rfl)
  · exact .inl (ignores_ok rfl)

theorem respondHeaders_cases (n : NetworkManager) (o : Oneshots) (requestId : ℕ)
    (response : RequestResponse HeadersResponse) (message : String) :
    Ignores n o (n.respondHeaders o requestId response message) ∨
      Settles n o (n.respondHeaders o requestId response message) := by
  unfold NetworkManager.respondHeaders
  split
  · rename_i command hcommand
    refine .inr ⟨.request requestId, command.sender, _, congrArg (Option.map GetHeadersRequest.sender) hcommand, ?_, _, _,
      rfl⟩
    rw [held_pendingRequestHeaders fun j hj => Table.getElem?_erase_of_ne _ hj, Table.getElem?_erase_self]
    rfl
  · exact .inl (ignores_ok rfl)

/-- The result of what only forwards events to the chain side. -/
structure Forwards (n : NetworkManager) (r : Except NetworkManager.Panic NetworkManager) : Prop where
  ok : ∀ n', r = .ok n' → n'.held = n.held
  error : ∀ tx message, r ≠ .error (.reply tx message)

theorem forwards_self (n : NetworkManager) : Forwards n (.ok n) := by
  refine ⟨?_, fun _ _ => by rintro ⟨⟩⟩
  rintro _ ⟨⟩
  rfl

/-- One after the other. -/
theorem Forwards.bind {r : Except NetworkManager.Panic NetworkManager}
    {f : NetworkManager → Except NetworkManager.Panic NetworkManager} (h : Forwards n r)
    (hf : ∀ n', Forwards n' (f n')) : Forwards n (r >>= f) where
  ok n' hn' := by
    obtain ⟨n₁, h₁, hret⟩ := exists_of_bind_eq_ok hn'
    rw [(hf n₁).ok n' hret, h.ok n₁ h₁]
  error tx message herror := by
    rcases bind_eq_error_iff.1 herror with herror | ⟨n₁, -, herror⟩
    · exact h.error tx message herror
    · exact (hf n₁).error tx message herror

/-- What a handler does with the manager after that. -/
theorem Forwards.ignores {r : Except NetworkManager.Panic NetworkManager} (h : Forwards n r)
    {f : NetworkManager → NetworkManager} (hf : ∀ n', (f n').held = n'.held) :
    Ignores n o (do return (f (← r), o)) where
  ok n' o' hr := by
    obtain ⟨n₁, h₁, hret⟩ := exists_of_bind_eq_ok hr
    cases hret
    exact ⟨(hf n₁).trans (h.ok n₁ h₁), rfl⟩
  error tx message hr := by
    rcases bind_eq_error_iff.1 hr with herror | ⟨n₁, -, herror⟩
    · exact h.error tx message herror
    · cases herror

theorem forward_forwards (n : NetworkManager) (event : ChainNetworkEvent) (message : String) :
    Forwards n (n.forward event message) := by
  unfold NetworkManager.forward
  split
  · refine ⟨?_, fun _ _ => by rintro ⟨⟩⟩
    rintro _ ⟨⟩
    rfl
  · exact ⟨fun _ h => (by cases h), fun _ _ => by rintro ⟨⟩⟩

theorem forwardDecoded_forwards {α : Type} (n : NetworkManager) (decoded : Option (α × List UInt8))
    (event : α → ChainNetworkEvent) (notDecoded dropped : String) :
    Forwards n (n.forwardDecoded decoded event notDecoded dropped) := by
  unfold NetworkManager.forwardDecoded
  split
  · exact forward_forwards n _ _
  · exact ⟨fun _ h => (by cases h), fun _ _ => by rintro ⟨⟩⟩

theorem handleGossipsubMessage_forwards (n : NetworkManager) (message : GossipMessage) :
    Forwards n (n.handleGossipsubMessage message) := by
  refine Forwards.bind ?_ fun n' => ?_
  · split
    · exact forwardDecoded_forwards n _ _ _ _
    · exact forwards_self n
  · split
    · exact forwardDecoded_forwards n' _ _ _ _
    · exact forwards_self n'

theorem held_handleMdnsEvent (n : NetworkManager) (event : MdnsEvent) : (n.handleMdnsEvent event).held = n.held := by
  cases event with
  | discovered list =>
    unfold NetworkManager.handleMdnsEvent
    induction list generalizing n with
    | nil => rfl
    | cons x list ih => exact ih _
  | expired list =>
    unfold NetworkManager.handleMdnsEvent
    induction list generalizing n with
    | nil => rfl
    | cons x list ih => exact ih _

/-- **The ways an event is handled.**  It has nothing to do with the senders, or one that was kept gets its reply. -/
theorem handleEvent_cases (n : NetworkManager) (o : Oneshots) (event : SwarmEvent) :
    Ignores n o (n.handleEvent o event) ∨ Settles n o (n.handleEvent o event) := by
  cases event with
  | mdns event => exact .inl (ignores_ok (held_handleMdnsEvent n event))
  | gossipsub message => exact .inl ((handleGossipsubMessage_forwards n message).ignores fun _ => rfl)
  | kad event => exact handleKadEvent_cases n o event
  | requestResponse event =>
    cases event with
    | request channel request => exact .inl ((forward_forwards n _ _).ignores fun _ => rfl)
    | response requestId response => exact respondHeaders_cases n o requestId _ _
    | outboundFailure requestId => exact respondHeaders_cases n o requestId _ _
    | inboundFailure => exact .inl (ignores_ok rfl)
    | responseSent => exact .inl (ignores_ok rfl)
  | connectionEstablished peerId isDialer =>
    cases isDialer with
    | true => exact settleDial_cases n o peerId _
    | false => exact .inl (ignores_ok rfl)
  | outgoingConnectionError peerId =>
    cases peerId with
    | some peerId => exact settleDial_cases n o peerId _
    | none => exact .inl (ignores_ok rfl)
  | newListenAddr listenerId => exact settleListening_cases n o listenerId
  | other => exact .inl (ignores_ok rfl)

/-! ## Steps -/

variable {s s' : Network}

/-- What handling the next command does. -/
structure Handles (s s' : Network) (a : Answers) (command : NetworkProviderMessage)
    (commands : List NetworkProviderMessage) : Prop where
  recv : s.commandRecv = command :: commands
  recv' : s'.commandRecv = commands
  next : s'.oneshots.next = s.oneshots.next
  dropped : s'.oneshots.dropped = s.oneshots.dropped
  desk : (¬ SecondDial s.manager command ∧ s'.desk = s.desk.answer command.tx (a.key command.request)) ∨
    (¬ SecondDial s.manager command ∧ ∃ key, a.key command.request = some key ∧ s'.desk = s.desk.keep command.tx key ∧
      ∀ peerId, key = .peer peerId → s.desk.held key = none) ∨
    (SecondDial s.manager command ∧ s'.desk = s.desk.lose command.tx (a.key command.request))

theorem command_cases (he : s.command a = .ok s') :
    (s.commandRecv = [] ∧ s' = s) ∨ ∃ command commands, Handles s s' a command commands := by
  unfold Network.command at he
  split at he
  · rename_i hrecv
    cases he
    exact .inl ⟨hrecv, rfl⟩
  · rename_i command commands hrecv
    obtain ⟨⟨n', o'⟩, h₁, he⟩ := exists_of_bind_eq_ok he
    cases he
    refine .inr ⟨command, commands, ?_⟩
    rcases handleCommand_cases s.manager s.oneshots a command with
      ⟨hd, n₁, hheld, hreplies⟩ | ⟨hd, n₁, key, hkey, hheld, hvacant, hok⟩ | ⟨hd, hok⟩
    · obtain ⟨rfl, reply, rfl⟩ := hreplies.eq_ok h₁
      refine ⟨hrecv, rfl, rfl, rfl, .inl ⟨hd, ?_⟩⟩
      unfold Network.desk Desk.answer
      simp only [hheld, List.map_append, List.map_singleton]
    · cases hok.symm.trans h₁
      refine ⟨hrecv, rfl, rfl, rfl, .inr (.inl ⟨hd, key, hkey, ?_, hvacant⟩)⟩
      unfold Network.desk Desk.keep
      simp only [hheld, hkey]
    · cases hok.symm.trans h₁
      exact ⟨hrecv, rfl, rfl, rfl, .inr (.inr ⟨hd, rfl⟩)⟩

/-- What every other step does: a sender that is kept may get its reply. -/
structure Reacts (s s' : Network) : Prop where
  next : s'.oneshots.next = s.oneshots.next
  dropped : s'.oneshots.dropped = s.oneshots.dropped
  recv : s'.commandRecv = s.commandRecv
  desk : s'.desk = s.desk ∨ ∃ key tx, s.desk.held key = some tx ∧ s'.desk = s.desk.settle tx key

theorem Reacts.refl (s : Network) : Reacts s s := ⟨rfl, rfl, rfl, .inl rfl⟩

theorem event_reacts {e : SwarmEvent} (he : s.event e = .ok s') : Reacts s s' := by
  obtain ⟨⟨n', o'⟩, h₁, he⟩ := exists_of_bind_eq_ok he
  cases he
  rcases handleEvent_cases s.manager s.oneshots e with hignores | ⟨key, tx, n₁, htx, hheld, hreplies⟩
  · obtain ⟨hheld, rfl⟩ := hignores.ok _ _ h₁
    refine ⟨rfl, rfl, rfl, .inl ?_⟩
    unfold Network.desk
    simp only [hheld]
  · obtain ⟨rfl, reply, rfl⟩ := hreplies.eq_ok h₁
    refine ⟨rfl, rfl, rfl, .inr ⟨key, tx, htx, ?_⟩⟩
    unfold Network.desk Desk.settle
    simp only [hheld, List.map_append, List.map_singleton]

theorem held_handleResponseBlockHeaders (n : NetworkManager) (i : ℕ) (response : RequestResponse (List Header)) :
    (n.handleResponseBlockHeaders i response).held = n.held := by
  unfold NetworkManager.handleResponseBlockHeaders
  split
  · split
    · rfl
    · rfl
  · rfl

theorem response_reacts (s : Network) (i : ℕ) (response : RequestResponse (List Header)) :
    Reacts s { s with manager := s.manager.handleResponseBlockHeaders i response } := by
  refine ⟨rfl, rfl, rfl, .inl ?_⟩
  unfold Network.desk
  rw [held_handleResponseBlockHeaders]

/-- **The ways a step can go.** -/
theorem step_cases {x : NetworkStep} (he : s.step x = .ok s') :
    (∃ request, x = .call request ∧ s' = s.call request) ∨
      (∃ tx, x = .drop tx ∧ tx < s.oneshots.next ∧ s' = s.drop tx) ∨
      (∃ a command commands, x = .command a ∧ Handles s s' a command commands) ∨
      ((∀ a, x = .command a → s.commandRecv = []) ∧ Reacts s s') := by
  cases x with
  | call request =>
    cases he
    exact .inl ⟨request, rfl, rfl⟩
  | drop tx =>
    cases he
    split
    · rename_i hlt
      exact .inr (.inl ⟨tx, rfl, hlt, rfl⟩)
    · exact .inr (.inr (.inr ⟨by rintro a ⟨⟩, .refl s⟩))
  | command a =>
    rcases command_cases he with ⟨hrecv, rfl⟩ | ⟨command, commands, hhandles⟩
    · exact .inr (.inr (.inr ⟨fun _ _ => hrecv, .refl s'⟩))
    · exact .inr (.inr (.inl ⟨a, command, commands, rfl, hhandles⟩))
  | event e => exact .inr (.inr (.inr ⟨by rintro a ⟨⟩, event_reacts he⟩))
  | response i response =>
    cases he
    exact .inr (.inr (.inr ⟨by rintro a ⟨⟩, response_reacts s i response⟩))
  | bootstrap =>
    cases he
    exact .inr (.inr (.inr ⟨by rintro a ⟨⟩, rfl, rfl, rfl, .inl rfl⟩))

/-! ## What holds in every run -/

/-- The channels were made one after the other and the commands are handled in that order, and only what was handled
is kept or answered. -/
structure Network.Inv (s : Network) : Prop where
  senders : s.handled.map Prod.fst ++ s.commandRecv.map NetworkProviderMessage.tx = List.range s.oneshots.next
  closed : s.desk.Closed

theorem Network.inv_new (localPeerId : PeerId) : (Network.new localPeerId).Inv where
  senders := rfl
  closed := by
    refine ⟨?_, fun tx htx => absurd htx List.not_mem_nil⟩
    rintro (_ | _ | _ | _) tx htx <;> simp [desk, new, NetworkManager.new, NetworkManager.held] at htx

theorem Network.Inv.call (h : s.Inv) (request : ProviderRequest) : (s.call request).Inv where
  senders := by
    show s.handled.map Prod.fst ++ (s.commandRecv ++ [_]).map NetworkProviderMessage.tx =
      List.range (s.oneshots.next + 1)
    rw [List.map_append, ← List.append_assoc, h.senders, List.range_succ]
    rfl
  closed := h.closed

/-- The sender of the next command has not been seen. -/
theorem Network.Inv.new (h : s.Inv) {commands : List NetworkProviderMessage}
    (hrecv : s.commandRecv = command :: commands) : s.desk.New command.tx := by
  have hnodup : (s.handled.map Prod.fst ++ s.commandRecv.map NetworkProviderMessage.tx).Nodup := by
    rw [h.senders]
    exact List.nodup_range
  rw [hrecv, List.nodup_append] at hnodup
  exact fun hmem => hnodup.2.2 _ hmem _ List.mem_cons_self rfl

/-- A sender that was used came with a command that was handled. -/
theorem Network.Inv.lt_next (h : s.Inv) {tx : ℕ} (htx : tx ∈ s.handled.map Prod.fst) : tx < s.oneshots.next := by
  have hmem := List.mem_append_left (s.commandRecv.map NetworkProviderMessage.tx) htx
  rw [h.senders] at hmem
  exact List.mem_range.mp hmem

/-- Every command has a sender of its own. -/
theorem Network.Inv.nodup_senders (h : s.Inv) :
    (s.handled.map Prod.fst ++ s.commandRecv.map NetworkProviderMessage.tx).Nodup := by
  rw [h.senders]
  exact List.nodup_range

theorem Network.Inv.nodup_handled (h : s.Inv) : (s.handled.map Prod.fst).Nodup :=
  (List.nodup_append.mp h.nodup_senders).1

/-- The next channel is unused. -/
theorem Network.Inv.next_notMem (h : s.Inv) : s.oneshots.next ∉ s.oneshots.sent.map Prod.fst :=
  fun hmem => Nat.lt_irrefl _ (h.lt_next (h.closed.answered _ hmem))

/-- The senders are those of before, with the first of the commands now a handled one. -/
theorem Handles.senders {commands : List NetworkProviderMessage} (h : Handles s s' a command commands) :
    s'.handled.map Prod.fst ++ s'.commandRecv.map NetworkProviderMessage.tx =
      s.handled.map Prod.fst ++ s.commandRecv.map NetworkProviderMessage.tx := by
  have htaken : s'.handled.map Prod.fst = s.handled.map Prod.fst ++ [command.tx] := by
    rcases h.desk with ⟨-, hdesk⟩ | ⟨-, key, -, hdesk, -⟩ | ⟨-, hdesk⟩
    all_goals
      rw [show s'.handled = s'.desk.taken from rfl, hdesk]
      exact List.map_append
  rw [htaken, h.recv, h.recv', List.append_assoc]
  rfl

theorem Reacts.handled (h : Reacts s s') : s'.handled = s.handled := by
  rcases h.desk with hdesk | ⟨key, tx, -, hdesk⟩
  all_goals
    rw [show s'.handled = s'.desk.taken from rfl, hdesk]
    rfl

/-- Every step keeps the invariant. -/
theorem Network.Inv.step (h : s.Inv) {x : NetworkStep} (he : s.step x = .ok s') : s'.Inv := by
  rcases step_cases he with ⟨request, -, rfl⟩ | ⟨tx, -, -, rfl⟩ | ⟨a, command, commands, -, hh⟩ | ⟨-, hr⟩
  · exact h.call request
  · exact ⟨h.senders, h.closed⟩
  · refine ⟨by rw [hh.senders, hh.next, h.senders], ?_⟩
    rcases hh.desk with ⟨-, hdesk⟩ | ⟨-, key, -, hdesk, -⟩ | ⟨-, hdesk⟩ <;> rw [hdesk]
    · exact h.closed.answer _ _
    · exact h.closed.keep _ _
    · exact h.closed.lose _ _
  · refine ⟨by rw [hr.handled, hr.recv, hr.next, h.senders], ?_⟩
    rcases hr.desk with hdesk | ⟨key, tx, htx, hdesk⟩ <;> rw [hdesk]
    · exact h.closed
    · exact h.closed.settle htx

/-! ## Panics of the network task -/

/-- **What a panic on a reply says.**  The receiver is gone, and the sender came with the next command or was
kept. -/
theorem step_eq_error {x : NetworkStep} {tx : ℕ} {message : String} (h : s.step x = .error (.reply tx message)) :
    tx ∈ s.oneshots.dropped ∧
      ((∃ command commands, s.commandRecv = command :: commands ∧ command.tx = tx) ∨
        ∃ key, s.desk.held key = some tx) := by
  cases x with
  | call request => cases h
  | drop tx' => cases h
  | command a =>
    have hcommand : s.command a = .error (.reply tx message) := h
    unfold Network.command at hcommand
    split at hcommand
    · cases hcommand
    · rename_i command commands hrecv
      rcases bind_eq_error_iff.1 hcommand with hpanic | ⟨_, -, hpanic⟩
      · rcases handleCommand_cases s.manager s.oneshots a command with
          ⟨-, n₁, -, hreplies⟩ | ⟨-, n₁, key, -, -, -, hok⟩ | ⟨-, hok⟩
        · obtain ⟨htx, hdropped⟩ := hreplies.eq_error hpanic
          exact ⟨hdropped, .inl ⟨command, commands, hrecv, htx⟩⟩
        · cases hok.symm.trans hpanic
        · cases hok.symm.trans hpanic
      · cases hpanic
  | event e =>
    rcases bind_eq_error_iff.1 h with hpanic | ⟨_, -, hpanic⟩
    · rcases handleEvent_cases s.manager s.oneshots e with hignores | ⟨key, tx', n₁, htx, -, hreplies⟩
      · exact absurd hpanic (hignores.error tx message)
      · obtain ⟨rfl, hdropped⟩ := hreplies.eq_error hpanic
        exact ⟨hdropped, .inr ⟨key, htx⟩⟩
    · cases hpanic
  | response i response => cases h
  | bootstrap => cases h

end Simb.Net
