import Simb.Cluster.Settling
import Simb.PoolSpec

/-!
# The pools converge

A node broadcasts the transactions that were submitted to it and are new to its pool, and every node adds what comes in.
So what is in a pool was broadcast, and what was broadcast is in the pool of every node that has seen it, or in its inbox
(`Pooled`), as long as equal hashes mean equal transactions.  When nothing is on its way any more, the pool of a node is
part of the pools of the nodes that it reaches (`settled_pools_agree`), and what was submitted is in all of them
(`submitted_reaches`).
-/

namespace Simb

open Simb.BlockTree Simb.Net Simb.Lib

/-! ## The transactions of messages -/

/-- The transactions that an event brings. -/
def Net.ChainNetworkEvent.transactions : ChainNetworkEvent → List Transaction
  | .incomingTransactions transactions => transactions
  | _ => []

/-- The transactions that a message brings. -/
def Net.GossipMessage.transactions (message : GossipMessage) : List Transaction :=
  (message.event.map ChainNetworkEvent.transactions).getD []

/-- The transaction is in the pool of the node, by its hash. -/
def Client.Has (c : Client) (tx : Transaction) : Prop := c.manager.pool[tx.hash.text]? = some tx

namespace Flooded

variable {ι : Type}

/-- What is in a pool was broadcast or is to be, and what was seen is in the pool or in the inbox; all transactions are in
`S`. -/
structure Pooled (S : Set Transaction) (s : Flooded ι) : Prop where
  ours : ∀ i hash tx, (s.node i).manager.pool[hash]? = some tx → tx ∈ S ∧ tx.hash.text = hash ∧
    ∃ m, (m ∈ s.flood.seen i ∨ m ∈ (s.node i).outbox) ∧ tx ∈ m.transactions
  made : ∀ m ∈ s.made, ∀ tx ∈ m.transactions, tx ∈ S
  seen : ∀ i, ∀ m ∈ s.flood.seen i, ∀ tx ∈ m.transactions, (s.node i).Has tx ∨ ∃ e ∈ (s.node i).inbox, m.event = some e
  outbox : ∀ i, ∀ m ∈ (s.node i).outbox, ∀ tx ∈ m.transactions, (s.node i).Has tx
  inbox : ∀ i, ∀ e ∈ (s.node i).inbox, ∀ m ∈ e.message, m.event = some e

variable {P : Platform} {dataHash : List UInt8 → UInt64} {o : Overlay ι} {s s' : Flooded ι} {i j : ι}
  {S : Set Transaction} {m : GossipMessage} {e : ChainNetworkEvent} {tx : Transaction}

theorem transactions_of_event (h : m.event = some e) : m.transactions = e.transactions := by
  rw [GossipMessage.transactions, h]
  rfl

theorem transactions_announce (header : Header) : (announce header).transactions = [] := by
  obtain ⟨e, hevent, hmessage⟩ := proper_announce header
  rw [transactions_of_event hevent]
  cases e with
  | incomingTransactions transactions =>
    have hheader := header_announce header
    rw [← Option.some.inj hmessage, header_announceAll] at hheader
    cases hheader
  | _ => rfl

theorem pooled_start (P : Platform) (S : Set Transaction) (localPeerId : ι → PeerId) :
    (start P localPeerId).Pooled S where
  ours _ _ _ h := by
    change (∅ : PoolTx)[_]? = _ at h
    simp at h
  made _ hm := absurd hm List.not_mem_nil
  seen _ _ hm := absurd hm List.not_mem_nil
  outbox _ _ hm := absurd hm List.not_mem_nil
  inbox _ _ he := absurd he List.not_mem_nil

/-! ## Adding to a pool -/

/-- What is added is in the pool, and what was in it stays, if equal hashes mean equal transactions. -/
theorem getElem?_add (hS : Set.InjOn Transaction.hash S) {pool : PoolTx} {txs : List Transaction}
    (htxs : ∀ tx ∈ txs, tx ∈ S) (htx : tx ∈ txs ∨ tx ∈ S ∧ pool[tx.hash.text]? = some tx) :
    (pool.addTransactions txs).1[tx.hash.text]? = some tx := by
  have hmem : tx ∈ S := htx.elim (htxs tx) And.left
  rw [PoolTx.getElem?_addTransactions]
  cases hlast : PoolTx.lastWith tx.hash.text txs with
  | none =>
    rcases htx with htx | ⟨-, htx⟩
    · exact absurd rfl (PoolTx.lastWith_eq_none.mp hlast tx htx)
    · exact htx
  | some t =>
    obtain ⟨ht, hhash⟩ := PoolTx.mem_of_lastWith hlast
    exact congrArg some (hS (htxs t ht) hmem (Str.ext_iff.mpr hhash))

/-- What is in the pool then was in it, or was added. -/
theorem getElem?_add_cases {pool : PoolTx} {txs : List Transaction} {hash : String}
    (h : (pool.addTransactions txs).1[hash]? = some tx) : pool[hash]? = some tx ∨ tx ∈ txs ∧ tx.hash.text = hash := by
  rw [PoolTx.getElem?_addTransactions, Option.or_eq_some_iff] at h
  rcases h with h | ⟨-, h⟩
  · exact .inr (PoolTx.mem_of_lastWith h)
  · exact .inl h

/-- What was submitted is in the pool already, or is broadcast. -/
theorem mem_broadcast (hS : Set.InjOn Transaction.hash S) {pool : PoolTx} {txs : List Transaction}
    (htxs : ∀ tx ∈ txs, tx ∈ S) (hpool : ∀ hash tx, pool[hash]? = some tx → tx ∈ S ∧ tx.hash.text = hash) (htx : tx ∈ txs) :
    pool[tx.hash.text]? = some tx ∨ tx ∈ (pool.addTransactionsAndBroadcast txs (.ok ())).broadcast := by
  rw [PoolTx.broadcast_eq, List.mem_filter]
  cases hold : pool[tx.hash.text]? with
  | none => exact .inr ⟨htx, by simp⟩
  | some t =>
    obtain ⟨ht, hhash⟩ := hpool _ _ hold
    exact .inl (congrArg some (hS ht (htxs tx htx) (Str.ext_iff.mpr hhash)))

/-- An event that brings no transactions leaves the pool as it is, and no transactions are passed on for it. -/
theorem pool_of_onEvent {n n' : ChainNetworkManager} (he : n.onEvent P e = .ok n') :
    (e.transactions = [] ∧ (∀ m, e.message = some m → m.transactions = []) ∧ n'.pool = n.pool) ∨
      ∃ transactions, e = .incomingTransactions transactions ∧ n' =
        { n with pool := (n.pool.addTransactions transactions).1 }.broadcast (.broadcastTransactions transactions) := by
  cases e with
  | incomingNewBlockHeader header =>
    obtain ⟨r, chain, -, hcases⟩ := ChainNetworkManager.onNewBlockHeader_cases he
    refine .inl ⟨rfl, ?_, ?_⟩
    · rintro _ ⟨⟩
      exact transactions_announce header
    rcases hcases with ⟨-, rfl⟩ | ⟨-, rfl⟩ | ⟨-, rfl⟩ | ⟨-, rfl⟩
    · rfl
    · rfl
    · rw [ChainNetworkManager.onMissingParent_eq]
    · rfl
  | incomingTransactions transactions =>
    cases he
    exact .inr ⟨transactions, rfl, rfl⟩
  | getBlockHeaders channel request =>
    obtain ⟨headers, -, he⟩ := exists_of_bind_eq_ok he
    cases he
    exact .inl ⟨rfl, by rintro _ ⟨⟩, rfl⟩

namespace Pooled

theorem has_of_add (h : s.Pooled S) (hS : Set.InjOn Transaction.hash S) {txs : List Transaction} (htxs : ∀ tx ∈ txs, tx ∈ S)
    (hpool : (s'.node i).manager.pool = ((s.node i).manager.pool.addTransactions txs).1) :
    (∀ tx, (s.node i).Has tx → (s'.node i).Has tx) ∧ ∀ tx ∈ txs, (s'.node i).Has tx := by
  unfold Client.Has
  rw [hpool]
  exact ⟨fun tx htx => getElem?_add hS htxs (.inr ⟨(h.ours i _ tx htx).1, htx⟩), fun tx htx => getElem?_add hS htxs (.inl htx)⟩

/-- What a change at node `i` has to meet. -/
theorem of_moves (h : s.Pooled S) (hnode : ∀ k, k ≠ i → s'.node k = s.node k)
    (hothers : ∀ k, k ≠ i → s'.flood.seen k = s.flood.seen k) {out asked : List GossipMessage}
    {come handled : List ChainNetworkEvent} (hmoves : Client.Moves (s.node i) (s'.node i) out asked come handled)
    (hmade : ∀ m ∈ s'.made, m ∈ s.made ∨ m ∈ asked) (hS : ∀ m ∈ asked, ∀ tx ∈ m.transactions, tx ∈ S)
    (hgrows : ∀ tx, (s.node i).Has tx → (s'.node i).Has tx)
    (hours : ∀ hash tx, (s'.node i).manager.pool[hash]? = some tx → (s.node i).manager.pool[hash]? = some tx ∨
      tx ∈ S ∧ tx.hash.text = hash ∧ ∃ m, (m ∈ s.flood.seen i ∨ m ∈ asked) ∧ tx ∈ m.transactions)
    (hasked : ∀ m ∈ asked, ∀ tx ∈ m.transactions, (s'.node i).Has tx)
    (hcome : ∀ e ∈ come, ∀ m ∈ e.message, m.event = some e)
    (hhandled : ∀ e ∈ handled, ∀ tx ∈ e.transactions, (s'.node i).Has tx)
    (hold : ∀ m ∈ s.flood.seen i, m ∈ s'.flood.seen i) (hout : ∀ m ∈ out, m ∈ s'.flood.seen i)
    (hseen : ∀ m ∈ s'.flood.seen i, m ∈ s.flood.seen i ∨ m ∈ out ∨ ∃ e ∈ come, m.event = some e) : s'.Pooled S := by
  -- where the messages and the events go
  have hsent : ∀ m, m ∈ (s.node i).outbox ∨ m ∈ asked → m ∈ s'.flood.seen i ∨ m ∈ (s'.node i).outbox := by
    intro m hm
    rw [← List.mem_append, hmoves.outbox, List.mem_append] at hm
    exact hm.imp_left (hout m)
  have hwaits : ∀ m : GossipMessage, (∃ e, (e ∈ (s.node i).inbox ∨ e ∈ come) ∧ m.event = some e) → ∀ tx ∈ m.transactions,
      (s'.node i).Has tx ∨ ∃ e ∈ (s'.node i).inbox, m.event = some e := by
    rintro m ⟨e, he, hevent⟩ tx htx
    rw [← List.mem_append, hmoves.inbox, List.mem_append] at he
    rcases he with he | he
    · exact .inl (hhandled e he tx (by rwa [← transactions_of_event hevent]))
    · exact .inr ⟨e, he, hevent⟩
  refine ⟨fun k hash tx htx => ?_, fun m hm => ?_, fun k m hm tx htx => ?_, fun k m hm tx htx => ?_, fun k e he m hm => ?_⟩
  · by_cases hk : k = i
    · subst hk
      rcases hours hash tx htx with htx | ⟨hmem, hhash, m, hm, htx⟩
      · obtain ⟨hmem, hhash, m, hm, htx⟩ := h.ours k hash tx htx
        refine ⟨hmem, hhash, m, ?_, htx⟩
        exact hm.elim (fun hm => .inl (hold m hm)) fun hm => hsent m (.inl hm)
      · refine ⟨hmem, hhash, m, ?_, htx⟩
        exact hm.elim (fun hm => .inl (hold m hm)) fun hm => hsent m (.inr hm)
    · rw [hnode k hk] at htx ⊢
      rw [hothers k hk]
      exact h.ours k hash tx htx
  · exact (hmade m hm).elim (h.made m) (hS m)
  · by_cases hk : k = i
    · subst hk
      rcases hseen m hm with hm | hm | ⟨e, he, hevent⟩
      · rcases h.seen k m hm tx htx with hhas | ⟨e, he, hevent⟩
        · exact .inl (hgrows tx hhas)
        · exact hwaits m ⟨e, .inl he, hevent⟩ tx htx
      · -- what is published was to be
        have hmem : m ∈ (s.node k).outbox ∨ m ∈ asked := by
          rw [← List.mem_append, hmoves.outbox]
          exact List.mem_append_left _ hm
        exact .inl (hmem.elim (fun hm => hgrows tx (h.outbox k m hm tx htx)) fun hm => hasked m hm tx htx)
      · exact hwaits m ⟨e, .inr he, hevent⟩ tx htx
    · rw [hothers k hk] at hm
      rw [hnode k hk]
      exact h.seen k m hm tx htx
  · by_cases hk : k = i
    · subst hk
      rcases hmoves.mem_outbox hm with hm | hm
      · exact hgrows tx (h.outbox k m hm tx htx)
      · exact hasked m hm tx htx
    · rw [hnode k hk] at hm ⊢
      exact h.outbox k m hm tx htx
  · by_cases hk : k = i
    · subst hk
      rcases hmoves.mem_inbox he with he | he
      · exact h.inbox k e he m hm
      · exact hcome e he m hm
    · rw [hnode k hk] at he
      exact h.inbox k e he m hm

/-- A change that leaves the pools as they are. -/
theorem of_same (h : s.Pooled S) (hnode : ∀ k, k ≠ i → s'.node k = s.node k)
    (hothers : ∀ k, k ≠ i → s'.flood.seen k = s.flood.seen k) {out asked : List GossipMessage}
    {come handled : List ChainNetworkEvent} (hmoves : Client.Moves (s.node i) (s'.node i) out asked come handled)
    (hpool : (s'.node i).manager.pool = (s.node i).manager.pool) (hmade : ∀ m ∈ s'.made, m ∈ s.made ∨ m ∈ asked)
    (hasked : ∀ m ∈ asked, m.transactions = []) (hhandled : ∀ e ∈ handled, e.transactions = [])
    (hcome : ∀ e ∈ come, ∀ m ∈ e.message, m.event = some e)
    (hold : ∀ m ∈ s.flood.seen i, m ∈ s'.flood.seen i) (hout : ∀ m ∈ out, m ∈ s'.flood.seen i)
    (hseen : ∀ m ∈ s'.flood.seen i, m ∈ s.flood.seen i ∨ m ∈ out ∨ ∃ e ∈ come, m.event = some e) :
    s'.Pooled S ∧ ∀ tx, (s.node i).Has tx → (s'.node i).Has tx := by
  have hgrows : ∀ tx, (s.node i).Has tx → (s'.node i).Has tx := by
    intro tx htx
    unfold Client.Has
    rwa [hpool]
  refine ⟨h.of_moves hnode hothers hmoves hmade (fun m hm tx htx => ?_) hgrows ?_ (fun m hm tx htx => ?_) hcome
    (fun e he tx htx => ?_) hold hout hseen, hgrows⟩
  · rw [hasked m hm] at htx
    cases htx
  · rw [hpool]
    exact fun hash tx htx => .inl htx
  · rw [hasked m hm] at htx
    cases htx
  · rw [hhandled e he] at htx
    cases htx

/-- Transactions come in and are added to the pool. -/
theorem handle (h : s.Pooled S) (hspread : s.Spread dataHash o) (hS : Set.InjOn Transaction.hash S)
    (hnode : ∀ k, k ≠ i → s'.node k = s.node k) {transactions : List Transaction}
    (hpool : (s'.node i).manager.pool = ((s.node i).manager.pool.addTransactions transactions).1)
    (hmoves : Client.Moves (s.node i) (s'.node i) [] [announceAll transactions] [] [.incomingTransactions transactions])
    (hflood : s'.flood = s.flood) (hmade : s'.made = s.made) :
    s'.Pooled S ∧ ∀ tx, (s.node i).Has tx → (s'.node i).Has tx := by
  have hinbox := hmoves.inbox
  rw [List.append_nil] at hinbox
  have hmem : ChainNetworkEvent.incomingTransactions transactions ∈ (s.node i).inbox := by
    rw [hinbox]
    exact List.mem_cons_self
  -- the message that brought them
  have hseen := hspread.inbox i _ hmem _ rfl
  have htransactions : (announceAll transactions).transactions = transactions :=
    transactions_of_event (h.inbox i _ hmem _ rfl)
  have htxs : ∀ tx ∈ transactions, tx ∈ S := by
    intro tx htx
    exact h.made _ (hspread.seen i _ hseen) tx (by rwa [htransactions])
  obtain ⟨hgrows, hnew⟩ := h.has_of_add hS htxs hpool
  refine ⟨h.of_moves hnode (fun k _ => by rw [hflood]) hmoves (by rw [hmade]; exact fun m hm => .inl hm) ?_ hgrows ?_ ?_
    (by simp) ?_ (by rw [hflood]; exact fun _ hm => hm) (by simp) (by rw [hflood]; exact fun _ hm => .inl hm), hgrows⟩
  · simpa [htransactions] using htxs
  · intro hash tx htx
    rw [hpool] at htx
    refine (getElem?_add_cases htx).imp_right fun ⟨htx, hhash⟩ => ?_
    exact ⟨htxs tx htx, hhash, _, .inl hseen, by rwa [htransactions]⟩
  · simpa [htransactions] using hnew
  · simpa [ChainNetworkEvent.transactions] using hnew

/-- Transactions are submitted. -/
theorem submit (h : s.Pooled S) (hS : Set.InjOn Transaction.hash S) (hnode : ∀ k, k ≠ i → s'.node k = s.node k)
    {txs : List Transaction} (htxs : ∀ tx ∈ txs, tx ∈ S) (hsize : (txs.map Transaction.size).sum < 2 ^ 57)
    (hpool : (s'.node i).manager.pool = ((s.node i).manager.pool.addTransactions txs).1) {m : GossipMessage}
    (hm : m = announceAll ((s.node i).manager.pool.addTransactionsAndBroadcast txs (.ok ())).broadcast)
    (hmoves : Client.Moves (s.node i) (s'.node i) [] [m] [] []) (hflood : s'.flood = s.flood)
    (hmade : s'.made = s.made ++ [m]) :
    s'.Pooled S ∧ (∀ tx, (s.node i).Has tx → (s'.node i).Has tx) ∧ ∀ tx ∈ txs, (s'.node i).Has tx := by
  have htransactions : m.transactions = ((s.node i).manager.pool.addTransactionsAndBroadcast txs (.ok ())).broadcast := by
    rw [hm]
    exact transactions_of_event (event_announceAll (length_broadcast_lt _ hsize))
  have hsub : ∀ tx ∈ m.transactions, tx ∈ txs := by
    intro tx htx
    rw [htransactions, PoolTx.broadcast_eq] at htx
    exact List.mem_of_mem_filter htx
  obtain ⟨hgrows, hnew⟩ := h.has_of_add hS htxs hpool
  refine ⟨h.of_moves hnode (fun k _ => by rw [hflood]) hmoves ?_ ?_ hgrows ?_ ?_ (by simp) (by simp)
    (by rw [hflood]; exact fun _ hm => hm) (by simp) (by rw [hflood]; exact fun _ hm => .inl hm), hgrows, hnew⟩
  · rw [hmade]
    exact fun m' hm' => List.mem_append.mp hm'
  · simpa using fun tx htx => htxs tx (hsub tx htx)
  · intro hash tx htx
    rw [hpool] at htx
    rcases getElem?_add_cases htx with hold | ⟨hmem, hhash⟩
    · exact .inl hold
    · -- it was in the pool, or it is broadcast
      have hknown : ∀ hash tx, (s.node i).manager.pool[hash]? = some tx → tx ∈ S ∧ tx.hash.text = hash := fun hash tx htx =>
        ⟨(h.ours i hash tx htx).1, (h.ours i hash tx htx).2.1⟩
      rcases mem_broadcast hS htxs hknown hmem with hold | hbroadcast
      · rw [hhash] at hold
        exact .inl hold
      · rw [← htransactions] at hbroadcast
        exact .inr ⟨htxs tx hmem, hhash, m, .inr (List.mem_singleton_self m), hbroadcast⟩
  · simpa using fun tx htx => hnew tx (hsub tx htx)

section

variable [DecidableEq ι]

/-- **A change keeps the pools,** and no pool loses anything. -/
theorem change (h : s.Pooled S) (hspread : s.Spread dataHash o) (hS : Set.InjOn Transaction.hash S) {L : List Header}
    (hL : (s.node i).chain.Stores P L) (hnode : ∀ k, k ≠ i → s'.node k = s.node k) {x : FloodedStep ι}
    (hx : s.Permitted P dataHash o x) (htxs : ∀ i txs, x = .node i (.submit txs) → ∀ tx ∈ txs, tx ∈ S) (hchange : Change P dataHash o s i x s') :
    s'.Pooled S ∧ ∀ tx, (s.node i).Has tx → (s'.node i).Has tx := by
  cases hchange with
  | rest hmoves hmanager hflood hmade =>
    exact h.of_same hnode (fun k _ => by rw [hflood]) hmoves (congrArg ChainNetworkManager.pool hmanager)
      (by rw [hmade]; exact fun m hm => .inl hm) (by simp) (by simp) (by simp) (by rw [hflood]; exact fun _ hm => hm)
      (by simp) (by rw [hflood]; exact fun _ hm => .inl hm)
  | publish m hmoves hmanager hflood hmade =>
    have houtbox := hmoves.outbox
    rw [List.append_nil] at houtbox
    have hm : m ∈ s.made := hspread.outbox i m (by rw [houtbox]; exact List.mem_cons_self)
    refine h.of_same hnode (fun k hk => ?_) hmoves (congrArg ChainNetworkManager.pool hmanager)
      (by rw [hmade]; exact fun m hm => .inl hm) (by simp) (by simp) (by simp)
      (by rw [hflood]; exact fun _ hm => Flood.mem_publish_of_mem hm) ?_ fun m' hm' => ?_
    · rw [hflood, Flood.seen_publish, if_neg (by simp [hk])]
    · rw [hflood]
      simpa using hspread.mem_publish hm
    · rw [hflood] at hm'
      rcases Flood.mem_seen_publish hm' with hm' | ⟨-, rfl⟩
      · exact .inl hm'
      · exact .inr (.inl (List.mem_singleton_self _))
  | hear e hnone hmoves hmanager hflood hmade =>
    exact h.of_same hnode (fun k _ => by rw [hflood]) hmoves (congrArg ChainNetworkManager.pool hmanager)
      (by rw [hmade]; exact fun m hm => .inl hm) (by simp) (by simp) (by simp [hnone])
      (by rw [hflood]; exact fun _ hm => hm) (by simp) (by rw [hflood]; exact fun _ hm => .inl hm)
  | drop j hsame htaken hflood hmade =>
    have hseen : s'.flood.seen = s.flood.seen := by
      funext k
      rw [hflood, Flood.seen_arrive, htaken]
      simp
    have hmoves : Client.Moves (s.node i) (s'.node i) [] [] [] [] := by
      rw [hsame]
      exact ⟨by simp, by simp, by simp⟩
    exact h.of_same hnode (fun k _ => by rw [hseen]) hmoves (by rw [hsame]) (by rw [hmade]; exact fun m hm => .inl hm)
      (by simp) (by simp) (by simp) (by rw [hseen]; exact fun _ hm => hm) (by simp)
      (by rw [hseen]; exact fun _ hm => .inl hm)
  | take j m e htaken hevent hmessage hmoves hmanager hflood hmade =>
    refine h.of_same hnode (fun k hk => ?_) hmoves (congrArg ChainNetworkManager.pool hmanager)
      (by rw [hmade]; exact fun m hm => .inl hm) (by simp) (by simp) ?_
      (by rw [hflood]; exact fun _ hm => Flood.mem_seen_arrive_iff.mpr (.inl hm)) (by simp) fun m' hm' => ?_
    · rw [hflood, Flood.seen_arrive, if_neg hk]
    · simpa [hmessage] using hevent
    · rw [hflood] at hm'
      rcases Flood.mem_seen_arrive_iff.mp hm' with hm' | ⟨-, hm'⟩
      · exact .inl hm'
      · rw [htaken] at hm'
        cases hm'
        exact .inr (.inr ⟨e, List.mem_singleton_self e, hevent⟩)
  | handle e new honEvent hsent hmoves hflood hmade =>
    rcases pool_of_onEvent honEvent with ⟨hnone, hmessage, hpool⟩ | ⟨transactions, rfl, hmanager⟩
    · exact h.of_same hnode (fun k _ => by rw [hflood]) hmoves hpool (by rw [hmade]; exact fun m hm => .inl hm)
        (fun m hm => hmessage m (message_of_onEvent hL honEvent hsent m hm)) (by simp [hnone]) (by simp)
        (by rw [hflood]; exact fun _ hm => hm) (by simp) (by rw [hflood]; exact fun _ hm => .inl hm)
    · have hnew : new.filterMap Sent.message = [announceAll transactions] := by
        rw [hmanager] at hsent
        rw [← List.append_cancel_left hsent]
        rfl
      rw [hnew] at hmoves
      exact h.handle hspread hS hnode (by rw [hmanager]; rfl) hmoves hflood hmade
  | mine draws header heq hmined hmanager hmoves hflood hmade =>
    exact h.of_same hnode (fun k _ => by rw [hflood]) hmoves (by rw [hmanager])
      (by rw [hmade]; exact fun m hm => List.mem_append.mp hm) (by simp [transactions_announce]) (by simp) (by simp)
      (by rw [hflood]; exact fun _ hm => hm) (by simp) (by rw [hflood]; exact fun _ hm => .inl hm)
  | submit txs heq hmanager hmoves hflood hmade =>
    subst heq
    obtain ⟨hpooled, hgrows, -⟩ := h.submit hS hnode (htxs i txs rfl) (hx.submits txs rfl) (by rw [hmanager]; rfl) rfl
      hmoves hflood hmade
    exact ⟨hpooled, hgrows⟩

end

end Pooled

/-! ## Runs -/

/-- What may happen, if all transactions that are submitted are in `S`. -/
def PermittedIn (P : Platform) (dataHash : List UInt8 → UInt64) (o : Overlay ι) (S : Set Transaction) (s : Flooded ι)
    (x : FloodedStep ι) : Prop :=
  s.Permitted P dataHash o x ∧ ∀ i txs, x = .node i (.submit txs) → ∀ tx ∈ txs, tx ∈ S

section

variable [DecidableEq ι]

/-- A permitted step keeps the pools. -/
theorem Pooled.step (h : s.Pooled S) (hs : s.Kept P dataHash o) (hS : Set.InjOn Transaction.hash S) {x : FloodedStep ι}
    (hx : s.PermittedIn P dataHash o S x) :
    ∃ s', s.step P dataHash o x = .ok s' ∧ s'.Kept P dataHash o ∧ s'.Pooled S ∧
      (∀ i tx, (s.node i).Has tx → (s'.node i).Has tx) ∧
      ∀ i txs, x = .node i (.submit txs) → ∀ tx ∈ txs, (s'.node i).Has tx := by
  obtain ⟨s', he, hs'⟩ := hs.step hx.1
  obtain ⟨hspread, ledgers, hblocks⟩ := hs
  obtain ⟨i, hnode, -, hchange⟩ := step_change hspread hblocks.sane hx.1 he
  obtain ⟨hpooled, hgrows⟩ := h.change hspread hS (hblocks.stores i) hnode hx.1 hx.2 hchange
  refine ⟨s', he, hs', hpooled, fun k tx htx => ?_, ?_⟩
  · by_cases hk : k = i
    · subst hk
      exact hgrows tx htx
    · rwa [hnode k hk]
  · rintro k txs rfl
    obtain ⟨c, hc, hnode', -⟩ := step_node he
    cases hc
    exact (h.has_of_add hS (hx.2 k txs rfl) (by rw [hnode']; rfl)).2

theorem Pooled.everyState (h : s.Pooled S) (hs : s.Kept P dataHash o) (hS : Set.InjOn Transaction.hash S)
    {steps : List (FloodedStep ι)} (hsteps : EveryStep P dataHash o (fun s x => s.PermittedIn P dataHash o S x) s steps) :
    EveryState P dataHash o (fun s => s.Kept P dataHash o ∧ s.Pooled S) s steps := by
  refine everyState_of_everyStep ?_ ⟨s, rfl, hs, h⟩ hsteps
  rintro _ x ⟨s, rfl, hs, h⟩ hx
  obtain ⟨s', he, hs', h', -⟩ := h.step hs hS (hx s rfl)
  exact ⟨s', he, hs', h'⟩

/-- No pool loses anything in a run. -/
theorem Pooled.run (h : s.Pooled S) (hs : s.Kept P dataHash o) (hS : Set.InjOn Transaction.hash S)
    {steps : List (FloodedStep ι)} (hsteps : EveryStep P dataHash o (fun s x => s.PermittedIn P dataHash o S x) s steps) :
    ∃ s', steps.foldl (next P dataHash o) (.ok s) = .ok s' ∧ s'.Kept P dataHash o ∧ s'.Pooled S ∧
      ∀ i tx, (s.node i).Has tx → (s'.node i).Has tx := by
  induction steps generalizing s with
  | nil => exact ⟨s, rfl, hs, h, fun _ _ htx => htx⟩
  | cons x steps ih =>
    obtain ⟨hx, hsteps⟩ := hsteps
    obtain ⟨s₁, he, hs₁, h₁, hgrows₁, -⟩ := h.step hs hS (hx s rfl)
    rw [show next P dataHash o (.ok s) x = .ok s₁ from he] at hsteps
    obtain ⟨s', hs', hkept, h', hgrows⟩ := ih h₁ hs₁ hsteps
    refine ⟨s', ?_, hkept, h', fun i tx htx => hgrows i tx (hgrows₁ i tx htx)⟩
    rw [List.foldl_cons, show next P dataHash o (.ok s) x = .ok s₁ from he]
    exact hs'

end

/-! ## When nothing is on its way any more -/

/-- A node then has the transactions of the nodes whose messages get there. -/
theorem Pooled.has_of_settled (h : s.Pooled S) (hspread : s.Spread dataHash o) (hs : s.Settled)
    (hpath : Relation.ReflTransGen o.Linked i j) (htx : (s.node i).Has tx) : (s.node j).Has tx := by
  obtain ⟨-, -, m, hm, htx⟩ := h.ours i _ tx htx
  rw [hs.outbox i] at hm
  have hseen := hspread.sound.mem_of_path hspread.clear hs.quiet (hm.resolve_right List.not_mem_nil) hpath
  rcases h.seen j m hseen tx htx with hhas | ⟨e, he, -⟩
  · exact hhas
  · rw [hs.inbox j] at he
    cases he

theorem Pooled.le_of_settled (h : s.Pooled S) (hspread : s.Spread dataHash o) (hs : s.Settled)
    (hpath : Relation.ReflTransGen o.Linked i j) {hash : String} (htx : (s.node i).manager.pool[hash]? = some tx) :
    (s.node j).manager.pool[hash]? = some tx := by
  have hhash := (h.ours i hash tx htx).2.1
  rw [← hhash] at htx ⊢
  exact h.has_of_settled hspread hs hpath htx

/-- **The pools agree.**  In every state of a run in which nothing is on its way any more: what is in the pool of a node is in
the pools of all nodes that its messages can get to, and nodes that are linked both ways have the same pool.  Equal hashes
have to mean equal transactions. -/
theorem settled_pools_agree [DecidableEq ι] (P : Platform) (dataHash : List UInt8 → UInt64) (o : Overlay ι)
    (localPeerId : ι → PeerId) (S : Set Transaction) (hS : Set.InjOn Transaction.hash S) (steps : List (FloodedStep ι))
    (h : EveryStep P dataHash o (fun s x => s.PermittedIn P dataHash o S x) (start P localPeerId) steps) :
    EveryState P dataHash o
      (fun s => s.Settled → ∀ i j, Relation.ReflTransGen o.Linked i j →
        (∀ (hash : String) tx, (s.node i).manager.pool[hash]? = some tx → (s.node j).manager.pool[hash]? = some tx) ∧
          (Relation.ReflTransGen o.Linked j i → (s.node i).manager.pool = (s.node j).manager.pool))
      (start P localPeerId) steps := by
  refine ((pooled_start P S localPeerId).everyState (kept_start P dataHash o localPeerId) hS h).mono ?_
  rintro _ ⟨s, rfl, hkept, hpooled⟩
  refine ⟨s, rfl, fun hs i j hij => ⟨fun hash tx htx => hpooled.le_of_settled hkept.1 hs hij htx, fun hji => ?_⟩⟩
  refine Std.ExtTreeMap.ext_getElem? fun {hash} => Option.ext fun tx => ?_
  exact ⟨hpooled.le_of_settled hkept.1 hs hij, hpooled.le_of_settled hkept.1 hs hji⟩

/-- A transaction is submitted to the node that does not mine, and published. -/
def payment : List (FloodedStep Bool) := [.node false (.submit [PoolTx.payA]), .node false (.command (granted 0))]

theorem injOn_payA : Set.InjOn Transaction.hash {PoolTx.payA} := Set.injOn_singleton _ _

theorem payment_permitted (P : Platform) (localPeerId : Bool → PeerId) :
    EveryStep P byteSum pair (fun s x => s.PermittedIn P byteSum pair {PoolTx.payA} x) (start P localPeerId) payment := by
  refine ⟨?_, ?_, trivial⟩
  · rintro _ ⟨⟩
    refine ⟨⟨by simp, by simp, by simp, by simp, ?_, fun m _ m' hm' => by cases hm'⟩, ?_⟩
    · rintro _ ⟨⟩
      decide
    · rintro i txs ⟨⟩ tx htx
      exact List.mem_singleton.mp htx
  · exact fun s _ => ⟨⟨by simp, by simp, by simp, by simp, by simp, by simp [Client.makes]⟩, by simp⟩

theorem settled_pools_agree_payment :
    EveryState (sample true) byteSum pair
      (fun s => s.Settled → ∀ i j, Relation.ReflTransGen pair.Linked i j →
        (∀ (hash : String) tx, (s.node i).manager.pool[hash]? = some tx → (s.node j).manager.pool[hash]? = some tx) ∧
          (Relation.ReflTransGen pair.Linked j i → (s.node i).manager.pool = (s.node j).manager.pool))
      (start (sample true) fun _ => ⟨[1]⟩) payment :=
  settled_pools_agree _ _ _ _ _ injOn_payA _ (payment_permitted _ _)

/-- **What was submitted gets everywhere.**  When nothing is on its way any more, every node that the messages of node `i` can
get to has all transactions that were submitted to `i` in the run. -/
theorem submitted_reaches [DecidableEq ι] (P : Platform) (dataHash : List UInt8 → UInt64) (o : Overlay ι)
    (localPeerId : ι → PeerId) (S : Set Transaction) (hS : Set.InjOn Transaction.hash S) (earlier later : List (FloodedStep ι))
    (i : ι) (txs : List Transaction)
    (h : EveryStep P dataHash o (fun s x => s.PermittedIn P dataHash o S x) (start P localPeerId)
      (earlier ++ .node i (.submit txs) :: later))
    (s : Flooded ι)
    (hrun : (earlier ++ .node i (.submit txs) :: later).foldl (next P dataHash o) (.ok (start P localPeerId)) = .ok s)
    (hs : s.Settled) (j : ι) (hpath : Relation.ReflTransGen o.Linked i j) :
    ∀ tx ∈ txs, (s.node j).manager.pool[tx.hash.text]? = some tx := by
  obtain ⟨hearlier, hlater⟩ := everyStep_append.mp h
  obtain ⟨s₁, he₁, hkept₁, hpooled₁, -⟩ :=
    (pooled_start P S localPeerId).run (kept_start P dataHash o localPeerId) hS hearlier
  rw [he₁] at hlater
  obtain ⟨hx, hlater⟩ := hlater
  obtain ⟨s₂, he₂, hkept₂, hpooled₂, -, hadded⟩ := hpooled₁.step hkept₁ hS (hx s₁ rfl)
  rw [show next P dataHash o (.ok s₁) (.node i (.submit txs)) = .ok s₂ from he₂] at hlater
  obtain ⟨s₃, he₃, hkept₃, hpooled₃, hgrows⟩ := hpooled₂.run hkept₂ hS hlater
  rw [List.foldl_append, he₁, List.foldl_cons, show next P dataHash o (.ok s₁) (.node i (.submit txs)) = .ok s₂ from he₂,
    he₃] at hrun
  cases hrun
  intro tx htx
  exact hpooled₃.has_of_settled hkept₃.1 hs hpath (hgrows i tx (hadded i txs rfl tx htx))

theorem Busy.permittedIn {x : FloodedStep ι} (h : s.Busy x) : s.PermittedIn P dataHash o S x := by
  refine ⟨h.permitted, ?_⟩
  rintro i txs rfl
  exact h.elim

/-- The node that mines gets the transaction. -/
theorem submitted_reaches_payment :
    ∃ later s, (payment ++ later).foldl (next (sample true) byteSum pair) (.ok (start (sample true) fun _ => ⟨[1]⟩)) = .ok s ∧
      s.Settled ∧ (s.node true).manager.pool[PoolTx.payA.hash.text]? = some PoolTx.payA := by
  have hsteps := payment_permitted (sample true) fun _ => ⟨[1]⟩
  obtain ⟨s₁, he₁, hkept₁, -⟩ := (pooled_start (sample true) {PoolTx.payA} fun _ : Bool => ⟨[1]⟩).run
    (kept_start (sample true) byteSum pair _) injOn_payA hsteps
  obtain ⟨later, s, hlater, hs, hsettled⟩ := exists_settled hkept₁
  have hrun : (payment ++ later).foldl (next (sample true) byteSum pair) (.ok (start (sample true) fun _ => ⟨[1]⟩)) = .ok s := by
    rw [List.foldl_append, he₁, hs]
  have hall := everyStep_append.mpr ⟨hsteps, by
    rw [he₁]
    exact EveryStep.of_invariant (I := fun _ => True) (fun _ _ _ _ => trivial)
      (fun r x _ hx s hr => (hx s hr).permittedIn) trivial hlater⟩
  exact ⟨later, s, hrun, hsettled, submitted_reaches _ _ _ _ _ injOn_payA [] (.node false (.command (granted 0)) :: later)
    false [PoolTx.payA] hall s hrun hsettled true (.single rfl) _ (List.mem_singleton_self _)⟩

end Flooded

end Simb
