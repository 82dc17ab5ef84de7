import Simb.Client.Calm
import Simb.Cluster.Agreement
import Simb.Lib.Flood
import Simb.Wire

/-!
# Gossip between the nodes

`Flooded` is a cluster whose gossip goes over links: what a node publishes is passed on from neighbour to neighbour, and a
node takes a message once.  A message is known by the hash of its data alone, whoever published it (`messageId`).  When a
header or transactions came in and were taken over, the chain side broadcasts them again; this is the same message, since
an encoding is exact, so it goes nowhere, and a link carries no more messages than were made (`link_traffic`).

A step of a calm node that meets what it expects is one of a few changes (`Change`), and everything here and in the
modules that follow is shown for these one by one.
-/

namespace Simb

open Simb.BlockTree Simb.Net Simb.Lib

namespace Net

/-- `message_id_fn`: the text of the hash of the data. -/
def messageId (dataHash : List UInt8 → UInt64) (message : GossipMessage) : String := toString (dataHash message.data)

/-- The message that an event is passed on as. -/
def ChainNetworkEvent.message : ChainNetworkEvent → Option GossipMessage
  | .incomingNewBlockHeader header => some (announce header)
  | .incomingTransactions transactions => some (announceAll transactions)
  | .getBlockHeaders _ _ => none

/-- A message that brings an event, and is what that event is passed on as. -/
def GossipMessage.Proper (message : GossipMessage) : Prop := ∃ e, message.event = some e ∧ e.message = some message

end Net

/-- The links between the nodes, and the miner of each group of linked nodes. -/
structure Overlay (ι : Type) extends Groups ι where
  linked : ι → ι → Bool
  miner_of_linked : ∀ i j, linked i j → miner i = miner j

abbrev Overlay.Linked {ι : Type} (o : Overlay ι) (i j : ι) : Prop := o.linked i j = true

/-- The nodes, the gossip between them, and all messages that they have made. -/
structure Flooded (ι : Type) where
  node : ι → Client
  flood : Flood ι GossipMessage
  made : List GossipMessage

/-- A step of a node, or the next message on a link arrives. -/
inductive FloodedStep (ι : Type) where
  | node (i : ι) (x : ClientStep)
  | arrive (i j : ι)

namespace Flooded

variable {ι : Type}

/-- All nodes are started on fresh databases. -/
def start (P : Platform) (localPeerId : ι → PeerId) : Flooded ι :=
  ⟨fun i => Client.startNetwork P Db.empty (localPeerId i), .start, []⟩

section

variable [DecidableEq ι] (P : Platform) (dataHash : List UInt8 → UInt64) (o : Overlay ι)

/-- What a node has published goes out to its neighbours. -/
def step (s : Flooded ι) : FloodedStep ι → Except Client.Panic (Flooded ι)
  | .node i x => do
    let c ← (s.node i).step P x
    return { node := Function.update s.node i c
             flood := (c.published.drop (s.node i).published.length).foldl
               (fun f m => f.publish (messageId dataHash) o.Linked i m) s.flood
             made := s.made ++ (s.node i).makes P x }
  | .arrive i j =>
    match s.flood.taken (messageId dataHash) i j with
    | some m => do
      let c ← (s.node j).step P (.event (.gossipsub m))
      return { s with node := Function.update s.node j c
                      flood := s.flood.arrive (messageId dataHash) o.Linked i j }
    | none => .ok { s with flood := s.flood.arrive (messageId dataHash) o.Linked i j }

/-- A step when a task may have panicked. -/
def next (r : Except Client.Panic (Flooded ι)) (x : FloodedStep ι) : Except Client.Panic (Flooded ι) :=
  match r with
  | .error p => .error p
  | .ok s => s.step P dataHash o x

/-- Every step of the run meets `C`, as long as no task panics. -/
abbrev EveryStep (C : Flooded ι → FloodedStep ι → Prop) (s : Flooded ι) (steps : List (FloodedStep ι)) : Prop :=
  Lib.EveryStep (next P dataHash o) (fun r x => ∀ s, r = .ok s → C s x) (.ok s) steps

/-- No task panics in the run, and every state of it meets `I`. -/
abbrev EveryState (I : Flooded ι → Prop) (s : Flooded ι) (steps : List (FloodedStep ι)) : Prop :=
  Lib.EveryState (next P dataHash o) (fun r => ∃ s, r = .ok s ∧ I s) (.ok s) steps

end

/-- The tip is two below the last number. -/
def Room (P : Platform) (db : Db) : Prop := ∀ t, (Chain.tip P).eval db = .ok t → t.number.toNat + 2 < 2 ^ 64

/-- What may happen at a node.  Gossip comes over the links only, a receiver goes out of scope when its reply is there,
only the miner of a group mines, what is submitted fits into memory, and the ids of messages do not clash. -/
structure Permits (P : Platform) (dataHash : List UInt8 → UInt64) (o : Overlay ι) (s : Flooded ι) (i : ι)
    (x : ClientStep) : Prop where
  noGossip : ∀ message, x ≠ .event (.gossipsub message)
  drops : ∀ tx, x = .drop tx → tx ∈ (s.node i).network.oneshots.sent.map Prod.fst
  calls : ∀ request, x = .call request → request.message = none
  mines : ∀ draws, x = .mine draws → o.miner i = i ∧ Room P (s.node i).chain
  submits : ∀ txs, x = .submit txs → (txs.map Transaction.size).sum < 2 ^ 57
  apart : ∀ m ∈ (s.node i).makes P x, ∀ m' ∈ s.made, messageId dataHash m' = messageId dataHash m → m' = m

def Permitted (P : Platform) (dataHash : List UInt8 → UInt64) (o : Overlay ι) (s : Flooded ι) : FloodedStep ι → Prop
  | .node i x => s.Permits P dataHash o i x
  | .arrive _ _ => True

/-! ## What a step changes -/

/-- Node `i` has the ledger `L`, and its next event is valid on it. -/
structure Sane (P : Platform) (s : Flooded ι) (i : ι) (L : List Header) : Prop where
  calm : (s.node i).Calm
  stores : (s.node i).chain.Stores P L
  bound : L.length < 2 ^ 64
  expects : (s.node i).Expects P L

section

variable [DecidableEq ι] (P : Platform) (dataHash : List UInt8 → UInt64) (o : Overlay ι)

/-- What a step changes at node `i` and in the gossip. -/
inductive Change (s : Flooded ι) (i : ι) (x : FloodedStep ι) (s' : Flooded ι) : Prop where
  | rest : Client.Moves (s.node i) (s'.node i) [] [] [] [] → (s'.node i).manager = (s.node i).manager →
      s'.flood = s.flood → s'.made = s.made → Change s i x s'
  | publish (m : GossipMessage) : Client.Moves (s.node i) (s'.node i) [m] [] [] [] →
      (s'.node i).manager = (s.node i).manager → s'.flood = s.flood.publish (messageId dataHash) o.Linked i m →
      s'.made = s.made → Change s i x s'
  | hear (e : ChainNetworkEvent) : e.message = none → Client.Moves (s.node i) (s'.node i) [] [] [e] [] →
      (s'.node i).manager = (s.node i).manager → s'.flood = s.flood → s'.made = s.made → Change s i x s'
  | drop (j : ι) : s'.node i = s.node i → s.flood.taken (messageId dataHash) j i = none →
      s'.flood = s.flood.arrive (messageId dataHash) o.Linked j i → s'.made = s.made → Change s i x s'
  | take (j : ι) (m : GossipMessage) (e : ChainNetworkEvent) : s.flood.taken (messageId dataHash) j i = some m →
      m.event = some e → e.message = some m → Client.Moves (s.node i) (s'.node i) [] [] [e] [] →
      (s'.node i).manager = (s.node i).manager → s'.flood = s.flood.arrive (messageId dataHash) o.Linked j i →
      s'.made = s.made → Change s i x s'
  | handle (e : ChainNetworkEvent) (new : List Sent) : (s.node i).manager.onEvent P e = .ok (s'.node i).manager →
      (s'.node i).manager.sent = (s.node i).manager.sent ++ new →
      Client.Moves (s.node i) (s'.node i) [] (new.filterMap Sent.message) [] [e] → s'.flood = s.flood →
      s'.made = s.made → Change s i x s'
  | mine (draws : Chain.Draws) (header : Header) : x = .node i (.mine draws) →
      (s.node i).mined P (.mine draws) = [header] →
      (s'.node i).manager = { (s.node i).manager with chain := Chain.insertHeader P header (s.node i).chain } →
      Client.Moves (s.node i) (s'.node i) [] [announce header] [] [] → s'.flood = s.flood →
      s'.made = s.made ++ [announce header] → Change s i x s'
  | submit (txs : List Transaction) : x = .node i (.submit txs) → (s'.node i).manager = { (s.node i).manager with
        pool := ((s.node i).manager.pool.addTransactionsAndBroadcast txs (.ok ())).pool } →
      Client.Moves (s.node i) (s'.node i) []
        [announceAll ((s.node i).manager.pool.addTransactionsAndBroadcast txs (.ok ())).broadcast] [] [] →
      s'.flood = s.flood →
      s'.made = s.made ++ [announceAll ((s.node i).manager.pool.addTransactionsAndBroadcast txs (.ok ())).broadcast] →
      Change s i x s'

end

/-- No message is seen that was not made, what waits in an outbox was made, and what waits in an inbox was seen. -/
structure Spread (dataHash : List UInt8 → UInt64) (o : Overlay ι) (s : Flooded ι) : Prop where
  sound : s.flood.Sound (messageId dataHash) o.Linked
  apart : ∀ m ∈ s.made, ∀ m' ∈ s.made, messageId dataHash m = messageId dataHash m' → m = m'
  proper : ∀ m ∈ s.made, m.Proper
  seen : ∀ i, ∀ m ∈ s.flood.seen i, m ∈ s.made
  outbox : ∀ i, ∀ m ∈ (s.node i).outbox, m ∈ s.made
  inbox : ∀ i, ∀ e ∈ (s.node i).inbox, ∀ m ∈ e.message, m ∈ s.flood.seen i

variable {P : Platform} {dataHash : List UInt8 → UInt64} {o : Overlay ι} {s s' : Flooded ι} {i j : ι}

/-! ## Messages -/

theorem decodes_of_event {message : GossipMessage} {e : ChainNetworkEvent} (h : message.event = some e) :
    message.Decodes := by
  unfold GossipMessage.event at h
  refine ⟨fun htopic => ?_, fun htopic => ?_⟩
  · rw [if_pos htopic] at h
    obtain ⟨x, hx, -⟩ := Option.map_eq_some_iff.mp h
    rw [hx]
    rfl
  · rw [if_neg (by rw [htopic]; exact blockHeaderTopic_ne.symm), if_pos htopic] at h
    obtain ⟨x, hx, -⟩ := Option.map_eq_some_iff.mp h
    rw [hx]
    rfl

theorem proper_announce (header : Header) : (announce header).Proper := by
  refine ⟨.incomingNewBlockHeader header, ?_, rfl⟩
  simp [announce, GossipMessage.event, Header.rlp.decode_encode_self]

theorem event_announceAll {txs : List Transaction} (h : (txs.flatMap Transaction.rlp.encode).length < 2 ^ 64) :
    (announceAll txs).event = some (.incomingTransactions txs) := by
  have hdecode := Transaction.decodeAll_encodeAll h []
  rw [List.append_nil] at hdecode
  simp [announceAll, GossipMessage.event, blockHeaderTopic_ne.symm, hdecode]

theorem proper_announceAll {txs : List Transaction} (h : (txs.flatMap Transaction.rlp.encode).length < 2 ^ 64) :
    (announceAll txs).Proper := ⟨_, event_announceAll h, rfl⟩

/-- What the chain side asks for on an event is to pass on its message. -/
theorem message_of_onEvent {m m' : ChainNetworkManager} {L : List Header} (hL : m.chain.Stores P L)
    {e : ChainNetworkEvent} (he : m.onEvent P e = .ok m') {new : List Sent} (hsent : m'.sent = m.sent ++ new) :
    ∀ message ∈ new.filterMap Sent.message, e.message = some message := by
  obtain ⟨-, new', -, -, hsent', hon⟩ := onEvent_flow hL he
  obtain rfl := List.append_cancel_left (hsent.symm.trans hsent')
  intro message hmessage
  obtain ⟨x, hx, hm⟩ := List.mem_filterMap.mp hmessage
  have hx' := hon x hx
  cases x with
  | broadcastBlockHeader header =>
    obtain rfl : e = _ := hx'
    exact hm
  | broadcastTransactions transactions =>
    obtain rfl : e = _ := hx'
    exact hm
  | getClosestPeers => cases hm
  | response channel headers => cases hm

/-- What is broadcast of some transactions fits into memory if they do. -/
theorem length_broadcast_lt (pool : PoolTx) {txs : List Transaction} (h : (txs.map Transaction.size).sum < 2 ^ 57) :
    ((pool.addTransactionsAndBroadcast txs (.ok ())).broadcast.flatMap Transaction.rlp.encode).length < 2 ^ 64 := by
  refine TransactionVec.length_flatMap_lt ⟨_, lt_of_le_of_lt ?_ h⟩
  exact (List.filter_sublist.map Transaction.size).sum_le_sum fun _ _ => Nat.zero_le _

/-! ## The spread of messages -/

theorem spread_start (P : Platform) (dataHash : List UInt8 → UInt64) (o : Overlay ι) (localPeerId : ι → PeerId) :
    (start P localPeerId).Spread dataHash o where
  sound := Flood.sound_start _ _
  apart _ hm := absurd hm List.not_mem_nil
  proper _ hm := absurd hm List.not_mem_nil
  seen _ _ hm := absurd hm List.not_mem_nil
  outbox _ _ hm := absurd hm List.not_mem_nil
  inbox _ _ he := absurd he List.not_mem_nil

/-- Messages that were seen are told apart by their ids. -/
theorem Spread.clear (h : s.Spread dataHash o) : s.flood.Clear (messageId dataHash) := fun i j m hm m' hm' =>
  h.apart m (h.seen i m hm) m' (h.seen j m' hm')

/-- What is published was seen then. -/
theorem Spread.mem_publish [DecidableEq ι] (h : s.Spread dataHash o) {m : GossipMessage} (hm : m ∈ s.made) :
    m ∈ (s.flood.publish (messageId dataHash) o.Linked i m).seen i := by
  rw [Flood.seen_publish]
  by_cases hknown : s.flood.Knows (messageId dataHash) i m
  · obtain ⟨m', hm', heq⟩ := List.mem_map.mp hknown
    rw [if_neg (by simp [hknown]), ← h.apart m' (h.seen i m' hm') m hm heq]
    exact hm'
  · rw [if_pos ⟨rfl, hknown⟩]
    exact List.mem_append_right _ (List.mem_singleton_self m)

/-- What a change at node `i` has to meet. -/
theorem Spread.of_node (h : s.Spread dataHash o) (hothers : ∀ k, k ≠ i → s'.node k = s.node k)
    (hsound : s'.flood.Sound (messageId dataHash) o.Linked) (hmade : ∀ m ∈ s.made, m ∈ s'.made)
    (hapart : ∀ m ∈ s'.made, ∀ m' ∈ s'.made, messageId dataHash m = messageId dataHash m' → m = m')
    (hproper : ∀ m ∈ s'.made, m.Proper) (hgrows : ∀ k, ∀ m ∈ s.flood.seen k, m ∈ s'.flood.seen k)
    (hseen : ∀ k, ∀ m ∈ s'.flood.seen k, m ∈ s'.made) (houtbox : ∀ m ∈ (s'.node i).outbox, m ∈ s'.made)
    (hinbox : ∀ e ∈ (s'.node i).inbox, ∀ m ∈ e.message, m ∈ s'.flood.seen i) : s'.Spread dataHash o where
  sound := hsound
  apart := hapart
  proper := hproper
  seen := hseen
  outbox k m hm := by
    by_cases hk : k = i
    · subst hk
      exact houtbox m hm
    · rw [hothers k hk] at hm
      exact hmade m (h.outbox k m hm)
  inbox k e he m hm := by
    by_cases hk : k = i
    · subst hk
      exact hinbox e he m hm
    · rw [hothers k hk] at he
      exact hgrows k m (h.inbox k e he m hm)

/-- Nothing is made, and node `i` goes on. -/
theorem Spread.of_moves (h : s.Spread dataHash o) (hothers : ∀ k, k ≠ i → s'.node k = s.node k)
    {out asked : List GossipMessage} {come handled : List ChainNetworkEvent}
    (hmoves : Client.Moves (s.node i) (s'.node i) out asked come handled) (hmade : s'.made = s.made)
    (hsound : s'.flood.Sound (messageId dataHash) o.Linked) (hgrows : ∀ k, ∀ m ∈ s.flood.seen k, m ∈ s'.flood.seen k)
    (hseen : ∀ k, ∀ m ∈ s'.flood.seen k, m ∈ s.made) (hasked : ∀ m ∈ asked, m ∈ s.made)
    (hcome : ∀ e ∈ come, ∀ m ∈ e.message, m ∈ s'.flood.seen i) : s'.Spread dataHash o := by
  refine h.of_node hothers hsound (by simp [hmade]) (by rw [hmade]; exact h.apart) (by rw [hmade]; exact h.proper) hgrows
    (by rw [hmade]; exact hseen) (fun m hm => ?_) fun e he m hm => ?_
  · rw [hmade]
    exact (hmoves.mem_outbox hm).elim (h.outbox i m) (hasked m)
  · rcases hmoves.mem_inbox he with he | he
    · exact hgrows i m (h.inbox i e he m hm)
    · exact hcome e he m hm

/-- Node `i` makes a message. -/
theorem Spread.of_made (h : s.Spread dataHash o) (hothers : ∀ k, k ≠ i → s'.node k = s.node k) {m : GossipMessage}
    (hmoves : Client.Moves (s.node i) (s'.node i) [] [m] [] []) (hflood : s'.flood = s.flood)
    (hmade : s'.made = s.made ++ [m]) (hproper : m.Proper)
    (hapart : ∀ m' ∈ s.made, messageId dataHash m' = messageId dataHash m → m' = m) : s'.Spread dataHash o := by
  have hold : ∀ m' ∈ s.made, m' ∈ s'.made := fun m' hm' => by rw [hmade]; exact List.mem_append_left _ hm'
  have hcases : ∀ m' ∈ s'.made, m' ∈ s.made ∨ m' = m := fun m' hm' => by
    rw [hmade] at hm'
    exact (List.mem_append.mp hm').imp_right List.mem_singleton.mp
  refine h.of_node hothers (by rw [hflood]; exact h.sound) hold ?_ ?_ (by rw [hflood]; exact fun _ _ hm => hm) ?_ ?_ ?_
  · intro m₁ h₁ m₂ h₂ heq
    rcases hcases m₁ h₁ with h₁ | rfl <;> rcases hcases m₂ h₂ with h₂ | rfl
    · exact h.apart m₁ h₁ m₂ h₂ heq
    · exact hapart m₁ h₁ heq
    · exact (hapart m₂ h₂ heq.symm).symm
    · rfl
  · intro m' hm'
    rcases hcases m' hm' with hm' | rfl
    · exact h.proper m' hm'
    · exact hproper
  · intro k m' hm'
    rw [hflood] at hm'
    exact hold m' (h.seen k m' hm')
  · intro m' hm'
    rcases hmoves.mem_outbox hm' with hm' | hm'
    · exact hold m' (h.outbox i m' hm')
    · rw [List.mem_singleton.mp hm', hmade]
      exact List.mem_append_right _ (List.mem_singleton_self m)
  · intro e he m' hm'
    rw [hflood]
    rcases hmoves.mem_inbox he with he | he
    · exact h.inbox i e he m' hm'
    · cases he

/-! ## Steps -/

/-- A message that arrives at a node is proper. -/
theorem Spread.proper_of_taken (h : s.Spread dataHash o) {m : GossipMessage}
    (hm : s.flood.taken (messageId dataHash) j i = some m) : m.Proper :=
  h.proper m (h.seen j m (h.sound.mem_of_arriving (Option.filter_eq_some_iff.mp hm).1).2)

section

variable [DecidableEq ι]

/-- A step of a node, which publishes `out`. -/
theorem step_node {x : ClientStep} (he : s.step P dataHash o (.node i x) = .ok s') :
    ∃ c, (s.node i).step P x = .ok c ∧ s'.node i = c ∧ (∀ k, k ≠ i → s'.node k = s.node k) ∧
      s'.made = s.made ++ (s.node i).makes P x ∧
      ∀ out, c.published = (s.node i).published ++ out →
        s'.flood = out.foldl (fun f m => f.publish (messageId dataHash) o.Linked i m) s.flood := by
  obtain ⟨c, hc, he⟩ := exists_of_bind_eq_ok he
  cases he
  exact ⟨c, hc, by simp, fun k hk => by simp [hk], rfl, fun out hout => by simp [hout]⟩

/-- An arrival at a node, which takes a message or drops it. -/
theorem step_arrive (he : s.step P dataHash o (.arrive j i) = .ok s') :
    s'.flood = s.flood.arrive (messageId dataHash) o.Linked j i ∧ s'.made = s.made ∧
      ((s.flood.taken (messageId dataHash) j i = none ∧ s'.node = s.node) ∨
        ∃ m c, s.flood.taken (messageId dataHash) j i = some m ∧ (s.node i).step P (.event (.gossipsub m)) = .ok c ∧
          s'.node i = c ∧ ∀ k, k ≠ i → s'.node k = s.node k) := by
  unfold step at he
  cases htaken : s.flood.taken (messageId dataHash) j i with
  | none =>
    simp only [htaken] at he
    cases he
    exact ⟨rfl, rfl, .inl ⟨rfl, rfl⟩⟩
  | some m =>
    simp only [htaken] at he
    obtain ⟨c, hc, he⟩ := exists_of_bind_eq_ok he
    cases he
    exact ⟨rfl, rfl, .inr ⟨m, c, rfl, hc, by simp, fun k hk => by simp [hk]⟩⟩

/-- **A step is a change at one node,** if it is calm and meets what it expects. -/
theorem step_change (hspread : s.Spread dataHash o) {ledgers : ι → List Header} (hsane : ∀ i, s.Sane P i (ledgers i))
    {x : FloodedStep ι} (hx : s.Permitted P dataHash o x) (he : s.step P dataHash o x = .ok s') :
    ∃ i, (∀ k, k ≠ i → s'.node k = s.node k) ∧ (s'.node i).Calm ∧ Change P dataHash o s i x s' := by
  cases x with
  | node i x =>
    obtain ⟨c, hc, rfl, hothers, hmade, hflood⟩ := step_node he
    have hx : s.Permits P dataHash o i x := hx
    have hmild : (s.node i).Mild x := ⟨hx.drops, hx.calls, fun m hm => absurd hm (hx.noGossip m)⟩
    obtain ⟨hcalm, heffect⟩ := (hsane i).calm.effect (hsane i).stores (hsane i).bound (hsane i).expects hmild hc
    refine ⟨i, hothers, hcalm, ?_⟩
    cases heffect with
    | rest hmakes hmoves hmanager =>
      exact .rest hmoves hmanager (hflood [] hmoves.published) (by rw [hmade, hmakes, List.append_nil])
    | publish m hmakes hmoves hmanager =>
      exact .publish m hmoves hmanager (hflood [m] hmoves.published) (by rw [hmade, hmakes, List.append_nil])
    | hear event e heq hforwarded hmoves hmanager =>
      subst heq
      have hnone : e.message = none := by
        cases event with
        | gossipsub message => exact absurd rfl (hx.noGossip message)
        | requestResponse event => cases event <;> cases hforwarded; rfl
        | _ => cases hforwarded
      exact .hear e hnone hmoves hmanager (hflood [] hmoves.published) (by rw [hmade]; exact List.append_nil _)
    | handle e new heq honEvent hsent hmoves =>
      subst heq
      exact .handle e new honEvent hsent hmoves (hflood [] hmoves.published) (by rw [hmade]; exact List.append_nil _)
    | mine draws header heq hmined hmanager hmoves =>
      subst heq
      exact .mine draws header rfl hmined hmanager hmoves (hflood [] hmoves.published)
        (by rw [hmade, Client.makes, hmined]; rfl)
    | submit txs heq hmanager hmoves =>
      subst heq
      exact .submit txs rfl hmanager hmoves (hflood [] hmoves.published) hmade
  | arrive j i =>
    obtain ⟨hflood, hmade, ⟨htaken, hnode⟩ | ⟨m, c, htaken, hc, rfl, hothers⟩⟩ := step_arrive he
    · exact ⟨i, fun k _ => congrFun hnode k, by rw [hnode]; exact (hsane i).calm,
        .drop j (congrFun hnode i) htaken hflood hmade⟩
    · obtain ⟨e, hevent, hmessage⟩ := hspread.proper_of_taken htaken
      obtain ⟨hcalm, hmanager, hmoves⟩ := (hsane i).calm.event
        (by rintro _ ⟨⟩; exact decodes_of_event hevent) hc
      rw [show (SwarmEvent.gossipsub m).forwarded = some e from hevent] at hmoves
      exact ⟨i, hothers, hcalm, .take j m e htaken hevent hmessage hmoves hmanager hflood hmade⟩

/-- **A step does not panic** then. -/
theorem step_ok (hspread : s.Spread dataHash o) {ledgers : ι → List Header} (hsane : ∀ i, s.Sane P i (ledgers i))
    {x : FloodedStep ι} (hx : s.Permitted P dataHash o x) : ∃ s', s.step P dataHash o x = .ok s' := by
  cases x with
  | node i x =>
    have hx : s.Permits P dataHash o i x := hx
    have hmild : (s.node i).Mild x := ⟨hx.drops, hx.calls, fun m hm => absurd hm (hx.noGossip m)⟩
    obtain ⟨c, hc⟩ := (hsane i).calm.step_ok (hsane i).stores (hsane i).bound (hsane i).expects hmild
    exact ⟨_, by rw [step, hc]; rfl⟩
  | arrive j i =>
    cases htaken : s.flood.taken (messageId dataHash) j i with
    | none => exact ⟨_, by rw [step, htaken]⟩
    | some m =>
      obtain ⟨e, hevent, -⟩ := hspread.proper_of_taken htaken
      have hmild : (s.node i).Mild (.event (.gossipsub m)) :=
        ⟨by simp, by simp, by rintro _ ⟨⟩; exact decodes_of_event hevent⟩
      obtain ⟨c, hc⟩ := (hsane i).calm.step_ok (hsane i).stores (hsane i).bound (hsane i).expects hmild
      exact ⟨_, by simp only [step, htaken, hc]; rfl⟩

/-- **A change keeps what is known of messages.** -/
theorem Spread.change (h : s.Spread dataHash o) {L : List Header} (hL : (s.node i).chain.Stores P L)
    (hothers : ∀ k, k ≠ i → s'.node k = s.node k) {x : FloodedStep ι} (hx : s.Permitted P dataHash o x)
    (hchange : Change P dataHash o s i x s') : s'.Spread dataHash o := by
  cases hchange with
  | rest hmoves hmanager hflood hmade =>
    exact h.of_moves hothers hmoves hmade (by rw [hflood]; exact h.sound) (by rw [hflood]; exact fun _ _ hm => hm)
      (by rw [hflood]; exact h.seen) (by simp) (by simp)
  | publish m hmoves hmanager hflood hmade =>
    have hm : m ∈ (s.node i).outbox := by
      have houtbox := hmoves.outbox
      rw [List.append_nil] at houtbox
      rw [houtbox]
      exact List.mem_cons_self
    refine h.of_moves hothers hmoves hmade ?_ ?_ ?_ (by simp) (by simp)
    · rw [hflood]
      exact h.sound.publish i m
    · rw [hflood]
      exact fun _ _ hm => Flood.mem_publish_of_mem hm
    · rw [hflood]
      intro k m' hm'
      rcases Flood.mem_seen_publish hm' with hm' | ⟨-, rfl⟩
      · exact h.seen k m' hm'
      · exact h.outbox i m' hm
  | hear e hnone hmoves hmanager hflood hmade =>
    exact h.of_moves hothers hmoves hmade (by rw [hflood]; exact h.sound) (by rw [hflood]; exact fun _ _ hm => hm)
      (by rw [hflood]; exact h.seen) (by simp) (by simp [hnone])
  | drop j hnode htaken hflood hmade =>
    have hmoves : Client.Moves (s.node i) (s'.node i) [] [] [] [] := by
      rw [hnode]
      exact ⟨by simp, by simp, by simp⟩
    refine h.of_moves hothers hmoves hmade ?_ ?_ ?_ (by simp) (by simp)
    · rw [hflood]
      exact h.sound.arrive j i
    · rw [hflood]
      exact fun _ _ hm => Flood.mem_seen_arrive_iff.mpr (.inl hm)
    · rw [hflood]
      intro k m hm
      rcases Flood.mem_seen_arrive_iff.mp hm with hm | ⟨-, hm⟩
      · exact h.seen k m hm
      · rw [htaken] at hm
        cases hm
  | take j m e htaken hevent hmessage hmoves hmanager hflood hmade =>
    have hsent := (h.sound.mem_of_arriving (Option.filter_eq_some_iff.mp htaken).1).2
    refine h.of_moves hothers hmoves hmade ?_ ?_ ?_ (by simp) ?_
    · rw [hflood]
      exact h.sound.arrive j i
    · rw [hflood]
      exact fun _ _ hm => Flood.mem_seen_arrive_iff.mpr (.inl hm)
    · rw [hflood]
      intro k m' hm'
      rcases Flood.mem_seen_arrive_iff.mp hm' with hm' | ⟨-, hm'⟩
      · exact h.seen k m' hm'
      · rw [htaken] at hm'
        cases hm'
        exact h.seen j m hsent
    · intro e' he' m' hm'
      rw [List.mem_singleton.mp he', hmessage] at hm'
      cases hm'
      rw [hflood]
      exact Flood.mem_seen_arrive_iff.mpr (.inr ⟨rfl, htaken⟩)
  | handle e new honEvent hsent hmoves hflood hmade =>
    refine h.of_moves hothers hmoves hmade (by rw [hflood]; exact h.sound) (by rw [hflood]; exact fun _ _ hm => hm)
      (by rw [hflood]; exact h.seen) (fun m hm => ?_) (by simp)
    -- what is passed on was seen
    have he : e ∈ (s.node i).inbox := by
      have hinbox := hmoves.inbox
      rw [List.append_nil] at hinbox
      rw [hinbox]
      exact List.mem_cons_self
    exact h.seen i m (h.inbox i e he m (message_of_onEvent hL honEvent hsent m hm))
  | mine draws header heq hmined hmanager hmoves hflood hmade =>
    subst heq
    refine h.of_made hothers hmoves hflood hmade (proper_announce header) ?_
    exact hx.apart _ (by rw [Client.makes, hmined]; exact List.mem_singleton_self _)
  | submit txs heq hmanager hmoves hflood hmade =>
    subst heq
    refine h.of_made hothers hmoves hflood hmade (proper_announceAll ?_) ?_
    · exact length_broadcast_lt _ (hx.submits txs rfl)
    · exact hx.apart _ (List.mem_singleton_self _)

end

end Flooded

end Simb
