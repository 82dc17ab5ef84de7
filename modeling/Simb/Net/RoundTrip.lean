import Simb.BlockTree.Runs
import Simb.Net.Gossip
import Simb.Wire

/-!
# What is written is read back

Headers are stored and sent in the RLP format.  What is in the database is always decoded to the header that was stored,
and what one node publishes is what another one forwards to its chain side (`round_trip`).

The converse does not hold.  The decoder reads one item from the front of a message, and the handler does not look at
what follows it, so a header also comes in under bodies that are not its encoding (`trailing_byte_accepted`).  Without
trailing bytes every message that is accepted is canonical (`canonical_iff`).
-/

namespace Simb.Net

open Simb.BlockTree Simb.Lib

/-- A build on the format that `alloy_rlp` derives. -/
def rlpPlatform (overflowChecks : Bool) (sha256 : List UInt8 → Vector UInt8 32) : Platform :=
  ⟨overflowChecks, sha256, Header.rlp⟩

/-! ## Storage -/

/-- What is stored is decoded, and is what was stored. -/
structure ReadsBack (P : Platform) (db : Db) : Prop where
  number : ∀ n, (Chain.getHeaderByBlockNumber P n).eval db ≠ .error (.panic .decodeHeader)
  tip : (Chain.tip P).eval db ≠ .error (.panic .decodeHeader)
  stored : ∀ n buf, db.header[n]? = some buf →
    ∃ header, buf = P.headers.encode header ∧ (Chain.getHeaderByBlockNumber P n).eval db = .ok header
  added : ∀ header r, (Chain.tryAddBlockHeader P header).eval db = .ok r →
    (Chain.getHeaderByBlockNumber P header.number).eval ((Chain.tryAddBlockHeader P header).exec db) = .ok header

theorem readsBack_of_stores {P : Platform} {db : Db} {L : List Header} (h : db.Stores P L) : ReadsBack P db where
  number n := by
    rw [ChainM.eval_eq, runOn_getHeaderByBlockNumber h]
    cases L[n.toNat]? with
    | none => rintro ⟨⟩
    | some b => rintro ⟨⟩
  tip := by
    rw [(eval_tip_eq_ok h).2 rfl]
    rintro ⟨⟩
  stored n buf hbuf := by
    rw [h.header] at hbuf
    obtain ⟨header, hheader, rfl⟩ := Option.map_eq_some_iff.mp hbuf
    exact ⟨header, rfl, (eval_getHeaderByBlockNumber_eq_ok h).2 hheader⟩
  added header r hr := by
    rw [eval_tryAddBlockHeader h] at hr
    cases hv : validate P L header with
    | error e =>
      rw [hv] at hr
      cases hr
    | ok u =>
      have hle := height_le_of_validate hv
      rw [exec_tryAddBlockHeader h, if_pos hv, eval_getHeaderByBlockNumber_eq_ok (h.insertHeader hle), getElem?_put hle,
        if_pos (show header.number.toNat = height header from rfl)]

/-! ## Gossip -/

variable {n : NetworkManager} {message message' : GossipMessage} {event : ChainNetworkEvent}

/-- The handler takes the message for this event. -/
def Accepts (n : NetworkManager) (message : GossipMessage) (event : ChainNetworkEvent) : Prop :=
  n.handleGossipsubMessage message = .ok (n.delivered [event])

theorem accepts_iff (hn : n.eventSender.connected = true) : Accepts n message event ↔ message.event = some event := by
  unfold Accepts
  rcases handleGossipsubMessage_cases hn message with ⟨-, hok⟩ | ⟨-, hnone, p, herror⟩
  · rw [hok, Except.ok.injEq, n.delivered_injective.eq_iff]
    cases message.event with
    | none => simp
    | some event' => simp
  · rw [hnone, herror]
    constructor
    · rintro ⟨⟩
    · rintro ⟨⟩

/-- With the chain side gone, a message that is for it makes the handler panic. -/
theorem forwardDecoded_of_not_connected {α : Type} (hn : ¬ n.eventSender.connected = true)
    (decoded : Option (α × List UInt8)) (event : α → ChainNetworkEvent) (notDecoded dropped : String) :
    ∃ p, n.forwardDecoded decoded event notDecoded dropped = .error p := by
  unfold NetworkManager.forwardDecoded NetworkManager.forward
  cases decoded with
  | none => exact ⟨_, rfl⟩
  | some x => exact ⟨_, if_neg hn⟩

theorem connected_of_accepts (h : Accepts n message event) : n.eventSender.connected = true := by
  by_contra hn
  unfold Accepts NetworkManager.handleGossipsubMessage at h
  by_cases htopic : message.topic = blockHeaderTopic
  · obtain ⟨p, hp⟩ := forwardDecoded_of_not_connected hn (Header.rlp.decode message.data) .incomingNewBlockHeader
      "decode header" "receiver dropped when sending new block header"
    rw [if_pos htopic, hp] at h
    cases h
  · rw [if_neg htopic] at h
    change (if message.topic = transactionsTopic then _ else Except.ok n) = _ at h
    split at h
    · obtain ⟨p, hp⟩ := forwardDecoded_of_not_connected hn (Transaction.decodeAll message.data) .incomingTransactions
        "decode transactions" "receiver dropped when sending new transactions"
      rw [hp] at h
      cases h
    · have hnil : n.delivered [] = n.delivered [event] := n.delivered_nil.trans (Except.ok.inj h)
      cases n.delivered_injective hnil

theorem event_eq_header {header : Header} :
    message.event = some (.incomingNewBlockHeader header) ↔
      message.topic = blockHeaderTopic ∧ ∃ r, Header.rlp.decode message.data = some (header, r) := by
  unfold GossipMessage.event
  by_cases htopic : message.topic = blockHeaderTopic
  · simp [htopic]
  · by_cases htx : message.topic = transactionsTopic
    · simp [htx, blockHeaderTopic_ne.symm]
    · simp [htopic, htx]

theorem event_eq_transactions {transactions : List Transaction} :
    message.event = some (.incomingTransactions transactions) ↔
      message.topic = transactionsTopic ∧ ∃ r, Transaction.decodeAll message.data = some (transactions, r) := by
  unfold GossipMessage.event
  by_cases htopic : message.topic = blockHeaderTopic
  · simp [htopic, blockHeaderTopic_ne]
  · by_cases htx : message.topic = transactionsTopic
    · simp [htx, blockHeaderTopic_ne.symm]
    · simp [htopic, htx]

/-- A command that was handled has published one message, and whoever gets it forwards this event. -/
def Delivers (n : NetworkManager) (r : Except NetworkManager.Panic (NetworkManager × Oneshots))
    (event : ChainNetworkEvent) : Prop :=
  ∀ n' o', r = .ok (n', o') → ∃ topic data, n'.swarm = n.swarm ++ [.publish topic data] ∧
    ∀ receiver : NetworkManager, receiver.eventSender.connected = true → Accepts receiver ⟨topic, data⟩ event

theorem delivers_broadcast {o : Oneshots} {a : Answers} {tx : ℕ} {topic : String} {data : List UInt8}
    (hevent : GossipMessage.event ⟨topic, data⟩ = some event) : Delivers n (n.broadcast o a tx topic data) event := by
  intro n' o' h
  refine ⟨topic, data, ?_, fun receiver hreceiver => (accepts_iff hreceiver).2 hevent⟩
  unfold NetworkManager.broadcast at h
  simp only at h
  split at h
  · obtain ⟨o₁, -, h⟩ := exists_of_bind_eq_ok h
    cases h
    rfl
  · obtain ⟨o₁, -, h⟩ := exists_of_bind_eq_ok h
    cases h
    rfl

/-- **Round trips.**  Whatever follows it, an encoded header or list of transactions is decoded to what was encoded; in
every reachable database no stored header fails to decode, and each is read back as it was stored; and what a command
publishes is what the handler of another node forwards. -/
theorem round_trip (overflowChecks : Bool) (sha256 : List UInt8 → Vector UInt8 32) :
    (∀ header r, Header.rlp.decode (Header.rlp.encode header ++ r) = some (header, r)) ∧
      (∀ (ts : TransactionVec) r,
        Transaction.decodeAll (Transaction.encodeAll ts.transactions ++ r) = some (ts.transactions, r)) ∧
      (∀ db, Reachable (rlpPlatform overflowChecks sha256) db → ReadsBack (rlpPlatform overflowChecks sha256) db) ∧
      (∀ (n : NetworkManager) o a tx header,
        Delivers n (n.handleCommand o a ⟨.broadcastBlockHeader header, tx⟩) (.incomingNewBlockHeader header)) ∧
      ∀ (n : NetworkManager) o a tx (ts : TransactionVec),
        Delivers n (n.handleCommand o a ⟨.broadcastTransactions ts.transactions, tx⟩)
          (.incomingTransactions ts.transactions) := by
  refine ⟨Header.rlp.decode_encode, fun ts => Transaction.decodeAll_encodeAll ts.length_flatMap_lt, ?_, ?_, ?_⟩
  · intro db h
    obtain ⟨L, hL⟩ := h.stores
    exact readsBack_of_stores hL
  · intro n o a tx header
    exact delivers_broadcast (event_eq_header.2 ⟨rfl, [], Header.rlp.decode_encode_self header⟩)
  · intro n o a tx ts
    have hdecode := Transaction.decodeAll_encodeAll ts.length_flatMap_lt []
    rw [List.append_nil] at hdecode
    exact delivers_broadcast (event_eq_transactions.2 ⟨rfl, [], hdecode⟩)

/-- The genesis block of a fresh database is read back. -/
theorem round_trip_genesis :
    ReadsBack (rlpPlatform true sampleSha256) (Chain.new (rlpPlatform true sampleSha256) Db.empty) :=
  (round_trip true sampleSha256).2.2.1 _ .new

/-! ## Canonical messages -/

/-- What the handler takes a message for is what its body encodes. -/
structure Canonical (n : NetworkManager) (message : GossipMessage) : Prop where
  header : ∀ header, Accepts n message (.incomingNewBlockHeader header) → message.data = Header.rlp.encode header
  transactions : ∀ transactions, Accepts n message (.incomingTransactions transactions) →
    message.data = Transaction.encodeAll transactions

/-- Something follows the encoding that the topic promises. -/
def GossipMessage.Trailed (message : GossipMessage) : Prop :=
  (message.topic = blockHeaderTopic ∧ ∃ header r, r ≠ [] ∧ message.data = Header.rlp.encode header ++ r) ∨
    (message.topic = transactionsTopic ∧ ∃ transactions r, r ≠ [] ∧
      (transactions.flatMap Transaction.rlp.encode).length < 2 ^ 64 ∧
      message.data = Transaction.encodeAll transactions ++ r)

/-- A header that is accepted was encoded, and something may follow. -/
theorem data_of_accepts_header {header : Header} (h : Accepts n message (.incomingNewBlockHeader header)) :
    message.topic = blockHeaderTopic ∧ ∃ r, message.data = Header.rlp.encode header ++ r := by
  obtain ⟨htopic, r, hr⟩ := event_eq_header.1 ((accepts_iff (connected_of_accepts h)).1 h)
  exact ⟨htopic, r, Header.rlp_canonical _ _ _ hr⟩

theorem data_of_accepts_transactions {transactions : List Transaction}
    (h : Accepts n message (.incomingTransactions transactions)) :
    message.topic = transactionsTopic ∧ (transactions.flatMap Transaction.rlp.encode).length < 2 ^ 64 ∧
      ∃ r, message.data = Transaction.encodeAll transactions ++ r := by
  obtain ⟨htopic, r, hr⟩ := event_eq_transactions.1 ((accepts_iff (connected_of_accepts h)).1 h)
  exact ⟨htopic, Transaction.length_flatMap_lt_of_decodeAll hr, r, Transaction.eq_encodeAll_append hr⟩

theorem canonical_of_not_trailed (h : n.eventSender.connected = true → ¬ message.Trailed) : Canonical n message where
  header header haccepts := by
    obtain ⟨htopic, r, hr⟩ := data_of_accepts_header haccepts
    by_contra hne
    refine h (connected_of_accepts haccepts) (.inl ⟨htopic, header, r, ?_, hr⟩)
    rintro rfl
    exact hne (by rw [hr, List.append_nil])
  transactions transactions haccepts := by
    obtain ⟨htopic, hlen, r, hr⟩ := data_of_accepts_transactions haccepts
    by_contra hne
    refine h (connected_of_accepts haccepts) (.inr ⟨htopic, transactions, r, ?_, hlen, hr⟩)
    rintro rfl
    exact hne (by rw [hr, List.append_nil])

theorem not_canonical_of_trailed (hn : n.eventSender.connected = true) (h : message.Trailed) :
    ¬ Canonical n message := by
  intro hcanonical
  rcases h with ⟨htopic, header, r, hr, hdata⟩ | ⟨htopic, transactions, r, hr, hlen, hdata⟩
  · have hdecode : Header.rlp.decode message.data = some (header, r) := by
      rw [hdata]
      exact Header.rlp.decode_encode header r
    have heq := hcanonical.header header ((accepts_iff hn).2 (event_eq_header.2 ⟨htopic, r, hdecode⟩))
    rw [hdata] at heq
    exact hr (List.append_right_eq_self.mp heq)
  · have hdecode : Transaction.decodeAll message.data = some (transactions, r) := by
      rw [hdata]
      exact Transaction.decodeAll_encodeAll hlen r
    have heq := hcanonical.transactions transactions
      ((accepts_iff hn).2 (event_eq_transactions.2 ⟨htopic, r, hdecode⟩))
    rw [hdata] at heq
    exact hr (List.append_right_eq_self.mp heq)

/-- **When a gossip message is canonical.**  What the handler takes a message for is what its body encodes, exactly if
nothing follows the encoding in the body, or the chain side is gone and nothing is taken; and two messages without
trailing bytes that are taken for the same header or the same transactions have the same body. -/
theorem canonical_iff (n : NetworkManager) :
    (∀ message, Canonical n message ↔ (n.eventSender.connected = true → ¬ message.Trailed)) ∧
      ∀ message message', ¬ message.Trailed → ¬ message'.Trailed →
        (∀ header, Accepts n message (.incomingNewBlockHeader header) →
          Accepts n message' (.incomingNewBlockHeader header) → message.data = message'.data) ∧
        ∀ transactions, Accepts n message (.incomingTransactions transactions) →
          Accepts n message' (.incomingTransactions transactions) → message.data = message'.data := by
  constructor
  · exact fun message => ⟨fun h hn ht => not_canonical_of_trailed hn ht h, canonical_of_not_trailed⟩
  intro message message' h h'
  have hc : Canonical n message := canonical_of_not_trailed fun _ => h
  have hc' : Canonical n message' := canonical_of_not_trailed fun _ => h'
  refine ⟨fun header ha ha' => ?_, fun transactions ha ha' => ?_⟩
  · rw [hc.header header ha, hc'.header header ha']
  · rw [hc.transactions transactions ha, hc'.transactions transactions ha']

/-- A header of number `1` with nothing else in it. -/
def plainHeader : Header := ⟨1, .empty, .empty, 0, 0, .empty⟩

theorem not_trailed_plainHeader : ¬ GossipMessage.Trailed ⟨blockHeaderTopic, Header.rlp.encode plainHeader⟩ := by
  rintro (⟨-, header, r, hr, hdata⟩ | ⟨htopic, -⟩)
  · have hself := Header.rlp.decode_encode_self plainHeader
    rw [show Header.rlp.encode plainHeader = Header.rlp.encode header ++ r from hdata,
      Header.rlp.decode_encode] at hself
    cases hself
    exact hr rfl
  · exact absurd htopic blockHeaderTopic_ne

/-- A header as it is published. -/
theorem canonical_plainHeader :
    Canonical (.new ⟨[1]⟩) ⟨blockHeaderTopic, Header.rlp.encode plainHeader⟩ :=
  ((canonical_iff _).1 _).2 fun _ => not_trailed_plainHeader

/-- The same header with a zero byte after it is taken for the header, though it is another body. -/
theorem trailing_byte_accepted :
    Accepts (.new ⟨[1]⟩) ⟨blockHeaderTopic, Header.rlp.encode plainHeader⟩ (.incomingNewBlockHeader plainHeader) ∧
      Accepts (.new ⟨[1]⟩) ⟨blockHeaderTopic, Header.rlp.encode plainHeader ++ [0]⟩
        (.incomingNewBlockHeader plainHeader) ∧
      Header.rlp.encode plainHeader ++ [0] ≠ Header.rlp.encode plainHeader ∧
      ¬ Canonical (.new ⟨[1]⟩) ⟨blockHeaderTopic, Header.rlp.encode plainHeader ++ [0]⟩ := by
  refine ⟨(accepts_iff rfl).2 (event_eq_header.2 ⟨rfl, [], Header.rlp.decode_encode_self _⟩),
    (accepts_iff rfl).2 (event_eq_header.2 ⟨rfl, [0], Header.rlp.decode_encode _ _⟩), ?_, ?_⟩
  · intro h
    cases List.append_right_eq_self.mp h
  · exact not_canonical_of_trailed rfl (.inl ⟨rfl, plainHeader, [0], List.cons_ne_nil _ _, rfl⟩)

end Simb.Net
