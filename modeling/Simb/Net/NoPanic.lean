import Simb.Net.Flow
import Simb.Net.NetworkSpec

/-!
# When the network task does not panic

The network task panics when the receiver of a reply is gone, when a gossip message does not decode, and when the chain
side is gone.  As long as clients hold on to a receiver until its reply is there, gossip decodes and the chain side is
there, it never does, whatever commands and events it meets in which order (`network_never_panics`): a sender is used
once, so a receiver that is gone has its reply.
-/

namespace Simb.Net

open Simb.Lib

/-- A receiver goes out of scope only when its reply is there, and gossip decodes. -/
def Considerate (s : Network) (x : NetworkStep) : Prop :=
  (∀ tx, x = .drop tx → tx ∈ s.oneshots.sent.map Prod.fst) ∧ ∀ message, x = .event (.gossipsub message) → message.Decodes

/-- Nothing that is kept has been answered, and whose receiver is gone has its reply.  The chain side is there. -/
structure Network.Composed (s : Network) : Prop where
  inv : s.Inv
  waiting : s.desk.Open
  replied : ∀ tx ∈ s.oneshots.dropped, tx ∈ s.oneshots.sent.map Prod.fst
  connected : s.manager.eventSender.connected = true

variable {n : NetworkManager} {o o' : Oneshots} {a : Answers} {s s' : Network} {x : NetworkStep}

/-! ## Other panics -/

/-- The result of a handler that panics only when the receiver of a reply is gone. -/
def OnlyReplies {α : Type} (r : Except NetworkManager.Panic α) : Prop :=
  ∀ p, r = .error p → ∃ tx message, p = .reply tx message

theorem onlyReplies_ok {α : Type} (x : α) : OnlyReplies (.ok x) := fun _ h => by cases h

theorem RepliesTo.onlyReplies {n' : NetworkManager} {tx : ℕ}
    {r : Except NetworkManager.Panic (NetworkManager × Oneshots)} (h : RepliesTo n' o tx r) : OnlyReplies r := by
  obtain ⟨reply, message, rfl⟩ := h
  intro p hp
  rcases bind_eq_error_iff.1 hp with hsend | ⟨o₁, -, hret⟩
  · unfold Oneshots.send at hsend
    split at hsend
    · cases hsend
      exact ⟨tx, message, rfl⟩
    · cases hsend
  · cases hret

theorem handleCommand_onlyReplies (n : NetworkManager) (o : Oneshots) (a : Answers) (command : NetworkProviderMessage) :
    OnlyReplies (n.handleCommand o a command) := by
  rcases handleCommand_cases n o a command with ⟨-, n₁, -, hreplies⟩ | ⟨-, n₁, key, -, -, -, hok⟩ | ⟨-, hok⟩
  · exact hreplies.onlyReplies
  · rw [hok]
    exact onlyReplies_ok _
  · rw [hok]
    exact onlyReplies_ok _

/-- What is forwarded to a chain side that is there does not panic. -/
theorem forward_of_connected (hn : n.eventSender.connected = true) (event : ChainNetworkEvent) (message : String) :
    n.forward event message = .ok (n.delivered [event]) := by
  unfold NetworkManager.forward
  rw [if_pos hn]
  rfl

theorem settleDial_onlyReplies (n : NetworkManager) (o : Oneshots) (peerId : PeerId) (response : RequestResponse Unit) :
    OnlyReplies (n.settleDial o peerId response) := by
  unfold NetworkManager.settleDial
  split
  · exact RepliesTo.onlyReplies ⟨_, _, rfl⟩
  · exact onlyReplies_ok _

theorem settleListening_onlyReplies (n : NetworkManager) (o : Oneshots) (listenerId : ℕ) :
    OnlyReplies (n.settleListening o listenerId) := by
  unfold NetworkManager.settleListening
  split
  · exact RepliesTo.onlyReplies ⟨_, _, rfl⟩
  · exact onlyReplies_ok _

theorem handleKadEvent_onlyReplies (n : NetworkManager) (o : Oneshots) (event : KadEvent) :
    OnlyReplies (n.handleKadEvent o event) := by
  unfold NetworkManager.handleKadEvent
  split
  · split
    · exact RepliesTo.onlyReplies ⟨_, _, rfl⟩
    · exact onlyReplies_ok _
  · exact onlyReplies_ok _

theorem respondHeaders_onlyReplies (n : NetworkManager) (o : Oneshots) (requestId : ℕ)
    (response : RequestResponse HeadersResponse) (message : String) :
    OnlyReplies (n.respondHeaders o requestId response message) := by
  unfold NetworkManager.respondHeaders
  split
  · exact RepliesTo.onlyReplies ⟨_, _, rfl⟩
  · exact onlyReplies_ok _

theorem handleEvent_onlyReplies (hn : n.eventSender.connected = true) {event : SwarmEvent}
    (hdecodes : ∀ message, event = .gossipsub message → message.Decodes) : OnlyReplies (n.handleEvent o event) := by
  cases event with
  | mdns event => exact onlyReplies_ok _
  | gossipsub message =>
    show OnlyReplies (do return (← n.handleGossipsubMessage message, o))
    rcases handleGossipsubMessage_cases hn message with ⟨-, hok⟩ | ⟨hd, -⟩
    · rw [hok]
      exact onlyReplies_ok _
    · exact absurd (hdecodes message rfl) hd
  | kad event => exact handleKadEvent_onlyReplies n o event
  | requestResponse event =>
    cases event with
    | request channel request =>
      show OnlyReplies (n.forward _ _ >>= _)
      rw [forward_of_connected hn]
      exact onlyReplies_ok _
    | response requestId response => exact respondHeaders_onlyReplies n o requestId _ _
    | outboundFailure requestId => exact respondHeaders_onlyReplies n o requestId _ _
    | inboundFailure => exact onlyReplies_ok _
    | responseSent => exact onlyReplies_ok _
  | connectionEstablished peerId isDialer =>
    cases isDialer with
    | true => exact settleDial_onlyReplies n o peerId _
    | false => exact onlyReplies_ok _
  | outgoingConnectionError peerId =>
    cases peerId with
    | some peerId => exact settleDial_onlyReplies n o peerId _
    | none => exact onlyReplies_ok _
  | newListenAddr listenerId => exact settleListening_onlyReplies n o listenerId
  | other => exact onlyReplies_ok _

/-- With the chain side there and gossip that decodes, a step panics only when the receiver of a reply is gone. -/
theorem step_onlyReplies (hn : s.manager.eventSender.connected = true)
    (hdecodes : ∀ message, x = .event (.gossipsub message) → message.Decodes) : OnlyReplies (s.step x) := by
  cases x with
  | call request => exact onlyReplies_ok _
  | drop tx => exact onlyReplies_ok _
  | command a =>
    show OnlyReplies (s.command a)
    intro p hp
    unfold Network.command at hp
    split at hp
    · cases hp
    · rcases bind_eq_error_iff.1 hp with hp | ⟨_, -, hp⟩
      · exact handleCommand_onlyReplies s.manager s.oneshots a _ p hp
      · cases hp
  | event event =>
    intro p hp
    rcases bind_eq_error_iff.1 hp with hp | ⟨_, -, hp⟩
    · exact handleEvent_onlyReplies hn (fun message heq => hdecodes message (by rw [heq])) p hp
    · cases hp
  | response i response => exact onlyReplies_ok _
  | bootstrap => exact onlyReplies_ok _

/-! ## Runs -/

/-- What was answered stays answered. -/
theorem Handles.answered {command : NetworkProviderMessage} {commands : List NetworkProviderMessage}
    (h : Handles s s' a command commands) : ∀ tx ∈ s.desk.answered, tx ∈ s'.desk.answered := by
  intro tx htx
  rcases h.desk with ⟨-, hdesk⟩ | ⟨-, key, -, hdesk, -⟩ | ⟨-, hdesk⟩ <;> rw [hdesk]
  · exact List.mem_append_left _ htx
  · exact htx
  · exact htx

theorem Reacts.answered (h : Reacts s s') : ∀ tx ∈ s.desk.answered, tx ∈ s'.desk.answered := by
  intro tx htx
  rcases h.desk with hdesk | ⟨key, tx', -, hdesk⟩ <;> rw [hdesk]
  · exact htx
  · exact List.mem_append_left _ htx

/-- Nothing that is kept has been answered, after every step. -/
theorem open_step (hinv : s.Inv) (hopen : s.desk.Open) (he : s.step x = .ok s') : s'.desk.Open := by
  rcases step_cases he with ⟨request, -, rfl⟩ | ⟨tx, -, -, rfl⟩ | ⟨a, command, commands, -, hh⟩ | ⟨-, hr⟩
  · exact hopen
  · exact hopen
  · have hnew := hinv.new hh.recv
    rcases hh.desk with ⟨-, hdesk⟩ | ⟨-, key, -, hdesk, -⟩ | ⟨-, hdesk⟩ <;> rw [hdesk]
    · exact hopen.answer hinv.closed hnew _
    · exact hopen.keep hinv.closed hnew key
    · exact hopen.lose _ _
  · rcases hr.desk with hdesk | ⟨key, tx, htx, hdesk⟩ <;> rw [hdesk]
    · exact hopen
    · exact hopen.settle hinv.closed hinv.nodup_handled htx

/-- The chain side stays there. -/
theorem step_connected (hn : s.manager.eventSender.connected = true) (he : s.step x = .ok s') :
    s'.manager.eventSender.connected = s.manager.eventSender.connected := by
  cases x with
  | call request =>
    cases he
    rfl
  | drop tx =>
    cases he
    split <;> rfl
  | command a =>
    rcases command_flows he with ⟨-, rfl⟩ | ⟨request, -, hflows⟩
    · rfl
    · exact hflows.connected
  | event event => exact (event_flows hn he).2.connected
  | response i response =>
    cases he
    show (s.manager.handleResponseBlockHeaders i response).eventSender.connected = _
    unfold NetworkManager.handleResponseBlockHeaders
    split
    · split <;> rfl
    · rfl
  | bootstrap =>
    cases he
    rfl

namespace Network.Composed

theorem new (localPeerId : PeerId) : (Network.new localPeerId).Composed where
  inv := Network.inv_new localPeerId
  waiting k tx _ hmem := absurd hmem List.not_mem_nil
  replied tx htx := by simp [Network.new] at htx
  connected := rfl

theorem step (h : s.Composed) (hx : Considerate s x) (he : s.step x = .ok s') : s'.Composed := by
  obtain ⟨hinv, hwaiting, hreplied, hconnected⟩ := h
  refine ⟨hinv.step he, open_step hinv hwaiting he, ?_, ?_⟩
  · rcases step_cases he with ⟨request, -, rfl⟩ | ⟨tx, rfl, -, rfl⟩ | ⟨a, command, commands, -, hh⟩ | ⟨-, hr⟩
    · exact hreplied
    · intro tx' htx'
      rcases Finset.mem_insert.mp htx' with rfl | htx'
      · exact hx.1 tx' rfl
      · exact hreplied tx' htx'
    · rw [hh.dropped]
      exact fun tx htx => hh.answered tx (hreplied tx htx)
    · rw [hr.dropped]
      exact fun tx htx => hr.answered tx (hreplied tx htx)
  · exact (step_connected hconnected he).trans hconnected

/-- **A step does not panic,** since a receiver that is gone has its reply and a sender is used once. -/
theorem step_ok (h : s.Composed) (hx : Considerate s x) : ∃ s', s.step x = .ok s' := by
  cases he : s.step x with
  | ok s' => exact ⟨s', rfl⟩
  | error p =>
    obtain ⟨tx, message, rfl⟩ := step_onlyReplies h.connected hx.2 p he
    obtain ⟨hdropped, hsender⟩ := step_eq_error he
    have hanswered : tx ∈ s.desk.answered := h.replied tx hdropped
    rcases hsender with ⟨command, commands, hrecv, rfl⟩ | ⟨key, hkey⟩
    · exact absurd (h.inv.closed.answered _ hanswered) (h.inv.new hrecv)
    · exact absurd hanswered (h.waiting key tx hkey)

end Network.Composed

/-- **The network task does not panic.**  In every run of the network task with its clients in which a receiver goes out
of scope only when its reply is there, and gossip decodes, no command and no event makes it panic: not a second dial, nor
a failed publishing, nor an answer that nobody waits for. -/
theorem network_never_panics (localPeerId : PeerId) (steps : List NetworkStep)
    (h : EveryStep Network.next (fun r x => ∀ s, r = .ok s → Considerate s x) (.ok (.new localPeerId)) steps) :
    EveryState Network.next (fun r => ∃ s, r = .ok s) (.ok (.new localPeerId)) steps := by
  have hrun : EveryState Network.next (fun r => ∃ s : Network, r = .ok s ∧ s.Composed) (.ok (.new localPeerId)) steps := by
    refine everyState_of_everyStep ?_ ⟨_, rfl, .new localPeerId⟩ h
    rintro _ x ⟨s, rfl, hs⟩ hx
    obtain ⟨s', hs'⟩ := hs.step_ok (hx s rfl)
    exact ⟨s', hs', hs.step (hx s rfl) hs'⟩
  exact hrun.mono fun r ⟨s, hs, _⟩ => ⟨s, hs⟩

/-- A header is broadcast, the receiver of the reply goes out of scope, and the header comes in again. -/
theorem network_never_panics_broadcast :
    EveryState Network.next (fun r => ∃ s, r = .ok s) (.ok (.new ⟨[1]⟩))
      [.call (.broadcastBlockHeader ⟨1, .empty, .empty, 0, 0, .empty⟩), .command (granted 0), .drop 0,
        .event (.gossipsub ⟨blockHeaderTopic, Header.rlp.encode ⟨1, .empty, .empty, 0, 0, .empty⟩⟩)] := by
  refine network_never_panics ⟨[1]⟩ _ ⟨?_, ?_, ?_, ?_, trivial⟩
  · exact fun s _ => ⟨by simp, by simp⟩
  · exact fun s _ => ⟨by simp, by simp⟩
  · rintro _ ⟨⟩
    refine ⟨?_, by simp⟩
    rintro tx ⟨⟩
    exact List.mem_singleton.mpr rfl
  · refine fun s _ => ⟨by simp, ?_⟩
    rintro message ⟨⟩
    refine ⟨fun _ => ?_, fun htopic => absurd htopic blockHeaderTopic_ne⟩
    rw [Header.rlp.decode_encode_self]
    rfl

end Simb.Net
