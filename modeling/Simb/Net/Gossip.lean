import Simb.Net.Network

/-!
# Gossip that does not decode

A message of the gossip protocol is decoded by its topic and goes on to the chain side.  The decoding is under an
`expect`, so any peer can make the network task panic with bytes that are no header, or no transactions
(`malformed_gossip_panics`).  On every other message the handler does what it should (`survives_iff`).
-/

namespace Simb.Net

/-- The event a message stands for, if it stands for one. -/
def GossipMessage.event (message : GossipMessage) : Option ChainNetworkEvent :=
  if message.topic = blockHeaderTopic then
    (Header.rlp.decode message.data).map fun x => .incomingNewBlockHeader x.1
  else if message.topic = transactionsTopic then
    (Transaction.decodeAll message.data).map fun x => .incomingTransactions x.1
  else none

/-- The manager that has sent these events to the chain side, and has done nothing else. -/
def NetworkManager.delivered (n : NetworkManager) (events : List ChainNetworkEvent) : NetworkManager :=
  { n with eventSender := { n.eventSender with sent := n.eventSender.sent ++ events } }

/-- The handler returns, with the event of the message forwarded if there is one and nothing else changed. -/
def Survives (n : NetworkManager) (message : GossipMessage) : Prop :=
  n.handleGossipsubMessage message = .ok (n.delivered message.event.toList)

/-- The data is what the topic promises. -/
def GossipMessage.Decodes (message : GossipMessage) : Prop :=
  (message.topic = blockHeaderTopic → (Header.rlp.decode message.data).isSome) ∧
    (message.topic = transactionsTopic → (Transaction.decodeAll message.data).isSome)

variable {n : NetworkManager} {message : GossipMessage}

theorem NetworkManager.delivered_nil (n : NetworkManager) : n.delivered [] = n := by
  unfold delivered
  rw [List.append_nil]

theorem blockHeaderTopic_ne : blockHeaderTopic ≠ transactionsTopic := by decide

theorem NetworkManager.delivered_injective (n : NetworkManager) : Function.Injective n.delivered := fun _ _ h =>
  List.append_cancel_left (congrArg (fun m : NetworkManager => m.eventSender.sent) h)

/-- What was decoded is forwarded. -/
theorem forwardDecoded_some {α : Type} (hn : n.eventSender.connected = true) (x : α × List UInt8)
    (event : α → ChainNetworkEvent) (notDecoded dropped : String) :
    n.forwardDecoded (some x) event notDecoded dropped = .ok (n.delivered [event x.1]) := by
  show n.forward (event x.1) dropped = _
  unfold NetworkManager.forward
  rw [if_pos hn]
  rfl

/-- **What the handler does.**  With the chain side there, it forwards the event of the message if the data is what the
topic promises, and panics otherwise. -/
theorem handleGossipsubMessage_cases (hn : n.eventSender.connected = true) (message : GossipMessage) :
    (message.Decodes ∧ n.handleGossipsubMessage message = .ok (n.delivered message.event.toList)) ∨
      (¬ message.Decodes ∧ message.event = none ∧ ∃ p, n.handleGossipsubMessage message = .error p) := by
  unfold GossipMessage.Decodes GossipMessage.event NetworkManager.handleGossipsubMessage
  by_cases hheader : message.topic = blockHeaderTopic
  · simp only [hheader, blockHeaderTopic_ne, if_true, if_false, forall_const, false_implies, and_true]
    cases Header.rlp.decode message.data with
    | none => exact .inr ⟨Bool.false_ne_true, rfl, _, rfl⟩
    | some x => exact .inl ⟨rfl, by rw [forwardDecoded_some hn]; rfl⟩
  · by_cases htx : message.topic = transactionsTopic
    · simp only [htx, blockHeaderTopic_ne.symm, if_true, if_false, forall_const, false_implies, true_and]
      cases Transaction.decodeAll message.data with
      | none => exact .inr ⟨Bool.false_ne_true, rfl, _, rfl⟩
      | some x => exact .inl ⟨rfl, forwardDecoded_some hn x _ "decode transactions" _⟩
    · simp only [hheader, htx, if_false, false_implies, and_self, true_and]
      rw [Option.toList_none, NetworkManager.delivered_nil]
      exact .inl rfl

/-- **When a gossip message is survived.**  With the chain side there, the handler returns on a message, forwards what
it decodes to and leaves the rest as it was, exactly if the message does decode or has another topic. -/
theorem survives_iff (hn : n.eventSender.connected = true) (message : GossipMessage) :
    Survives n message ↔ message.Decodes := by
  unfold Survives
  rcases handleGossipsubMessage_cases hn message with ⟨hd, hok⟩ | ⟨hd, -, p, herror⟩
  · exact ⟨fun _ => hd, fun _ => hok⟩
  · refine ⟨fun h => ?_, fun h => absurd h hd⟩
    cases herror.symm.trans h

/-- A header is published by one node and comes in at another. -/
theorem survives_published_header :
    Survives (.new ⟨[1]⟩) ⟨blockHeaderTopic, Header.rlp.encode ⟨1, .empty, .empty, 0, 0, .empty⟩⟩ := by
  refine (survives_iff rfl _).2 ⟨fun _ => ?_, fun h => absurd h blockHeaderTopic_ne⟩
  show (Header.rlp.decode (Header.rlp.encode _)).isSome
  rw [Header.rlp.decode_encode_self]
  rfl

/-- A single zero byte is no header, and no list of transactions. -/
theorem malformed_gossip_panics :
    ¬ Survives (.new ⟨[1]⟩) ⟨blockHeaderTopic, [0]⟩ ∧ ¬ Survives (.new ⟨[1]⟩) ⟨transactionsTopic, [0]⟩ ∧
      (NetworkManager.new ⟨[1]⟩).handleGossipsubMessage ⟨blockHeaderTopic, [0]⟩ = .error (.decode "decode header") ∧
      (NetworkManager.new ⟨[1]⟩).handleGossipsubMessage ⟨transactionsTopic, [0]⟩ =
        .error (.decode "decode transactions") := by
  have hheader : (NetworkManager.new ⟨[1]⟩).handleGossipsubMessage ⟨blockHeaderTopic, [0]⟩ =
      .error (.decode "decode header") := rfl
  have htx : (NetworkManager.new ⟨[1]⟩).handleGossipsubMessage ⟨transactionsTopic, [0]⟩ =
      .error (.decode "decode transactions") := rfl
  refine ⟨fun h => ?_, fun h => ?_, hheader, htx⟩
  · cases hheader.symm.trans h
  · cases htx.symm.trans h

end Simb.Net
