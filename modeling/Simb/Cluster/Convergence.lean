import Simb.Cluster.Flooding

/-!
# The chain spreads

Blocks go over the links in the order in which they were mined, and every node takes each of them once.  So the blocks
that a node has seen are the first ones of its miner's, and its ledger with the headers in its inbox is just these
(`Blocks`).  No header ever comes in before its parent: no node asks for its closest peers or downloads anything, and no
task panics (`flooded_never_panics`).  When nothing is on its way any more, every node that the miner's blocks can reach
has the miner's chain (`chains_converge`).
-/

namespace Simb

open Simb.BlockTree Simb.Net Simb.Lib

/-- The headers that wait for the chain side. -/
def Client.headersIn (c : Client) : List Header := c.inbox.filterMap ChainNetworkEvent.header

/-- The headers that are to be published. -/
def Client.headersOut (c : Client) : List Header := c.outbox.filterMap GossipMessage.header

theorem Client.Moves.headersIn {c c' : Client} {out asked : List GossipMessage} {come handled : List ChainNetworkEvent}
    (h : Client.Moves c c' out asked come handled) :
    c.headersIn ++ come.filterMap ChainNetworkEvent.header =
      handled.filterMap ChainNetworkEvent.header ++ c'.headersIn := by
  rw [Client.headersIn, ← List.filterMap_append, h.inbox, List.filterMap_append, Client.headersIn]

theorem Client.Moves.headersOut {c c' : Client} {out asked : List GossipMessage} {come handled : List ChainNetworkEvent}
    (h : Client.Moves c c' out asked come handled) :
    c.headersOut ++ asked.filterMap GossipMessage.header = out.filterMap GossipMessage.header ++ c'.headersOut := by
  rw [Client.headersOut, ← List.filterMap_append, h.outbox, List.filterMap_append, Client.headersOut]

namespace Flooded

variable {ι : Type}

/-- The genesis block, and the blocks that node `i` has seen. -/
def blocks (P : Platform) (s : Flooded ι) (i : ι) : List Header :=
  Chain.genesis P :: (s.flood.seen i).filterMap GossipMessage.header

/-- `m` announces the block that follows the one that `m'` announces. -/
def Next (M : List Header) (m' m : GossipMessage) : Prop :=
  ∃ n b' b, 0 < n ∧ M[n]? = some b' ∧ M[n + 1]? = some b ∧ m' = announce b' ∧ m = announce b

/-- Node `i` has the ledger `ledgers i`.  A follower has the blocks that it has seen, but for those in its inbox, and a
miner has seen what it has, but for what is in its outbox. -/
structure Blocks (P : Platform) (o : Overlay ι) (s : Flooded ι) (ledgers : ι → List Header) : Prop where
  calm : ∀ i, (s.node i).Calm
  stores : ∀ i, (s.node i).chain.Stores P (ledgers i)
  follower : ∀ i, o.miner i ≠ i → s.blocks P i = ledgers i ++ (s.node i).headersIn
  miner : ∀ i, o.miner i = i → ledgers i = s.blocks P i ++ (s.node i).headersOut ∧ (s.node i).headersIn = []
  upto : ∀ i, s.blocks P i <+: s.blocks P (o.miner i)
  echoes : ∀ i, o.miner i ≠ i → ∀ m ∈ (s.node i).outbox, ∀ b ∈ m.header, m ∈ s.flood.seen i
  linked : ∀ i, Linked Header.hash Header.parentHash (ledgers (o.miner i))
  bound : ∀ i, (ledgers (o.miner i)).length < 2 ^ 64
  ordered : s.flood.Ordered fun i => Next (ledgers (o.miner i))

variable {P : Platform} {dataHash : List UInt8 → UInt64} {o : Overlay ι} {s s' : Flooded ι} {i j : ι}
  {ledgers : ι → List Header} {m : GossipMessage} {b : Header}

/-! ## What is announced -/

theorem eq_announce (hm : m.Proper) (hb : m.header = some b) : m = announce b := by
  obtain ⟨e, hevent, hmessage⟩ := hm
  rw [GossipMessage.header, hevent] at hb
  cases e with
  | incomingNewBlockHeader header =>
    cases hb
    cases hmessage
    rfl
  | _ => cases hb

theorem header_announce (b : Header) : (announce b).header = some b := GossipMessage.header_blockHeader b

theorem header_announceAll (txs : List Transaction) : (announceAll txs).header = none :=
  GossipMessage.header_transactions _

/-- The header of the event that a proper message brings. -/
theorem header_of_message {e : ChainNetworkEvent} (h : e.message = some m) : e.header = m.header := by
  cases e with
  | incomingNewBlockHeader header =>
    cases h
    exact (header_announce header).symm
  | incomingTransactions transactions =>
    cases h
    exact (header_announceAll transactions).symm
  | getBlockHeaders channel request => cases h

theorem header_of_message_none {e : ChainNetworkEvent} (h : e.message = none) : e.header = none := by
  cases e with
  | getBlockHeaders channel request => rfl
  | _ => cases h

/-- An event that brings no header leaves the chain as it is. -/
theorem chain_of_onEvent {n n' : ChainNetworkManager} {e : ChainNetworkEvent} (hheader : e.header = none)
    (he : n.onEvent P e = .ok n') : n'.chain = n.chain := by
  cases e with
  | incomingNewBlockHeader header => cases hheader
  | incomingTransactions transactions =>
    cases he
    rfl
  | getBlockHeaders channel request =>
    obtain ⟨headers, -, he⟩ := exists_of_bind_eq_ok he
    cases he
    rfl

namespace Blocks

/-- The blocks that were seen are on the miner's ledger. -/
theorem blocks_isPrefix (h : s.Blocks P o ledgers) (i : ι) : s.blocks P i <+: ledgers (o.miner i) := by
  refine (h.upto i).trans ?_
  rw [(h.miner (o.miner i) (o.miner_miner i)).1]
  exact List.prefix_append _ _

theorem isPrefix (h : s.Blocks P o ledgers) (i : ι) : ledgers i <+: ledgers (o.miner i) := by
  by_cases hi : o.miner i = i
  · rw [hi]
  · refine List.IsPrefix.trans ?_ (h.blocks_isPrefix i)
    rw [h.follower i hi]
    exact List.prefix_append _ _

theorem height_eq (h : s.Blocks P o ledgers) {n : ℕ} (hb : (s.blocks P i)[n]? = some b) : height b = n :=
  (h.stores (o.miner i)).numbered n b (getElem?_of_isPrefix (h.blocks_isPrefix i) hb)

/-- **A block was announced if it was seen,** at its height. -/
theorem announce_mem_iff (h : s.Blocks P o ledgers) (hspread : s.Spread dataHash o) :
    announce b ∈ s.flood.seen i ↔ 0 < height b ∧ (s.blocks P i)[height b]? = some b := by
  have hmem : announce b ∈ s.flood.seen i ↔ b ∈ (s.flood.seen i).filterMap GossipMessage.header := by
    rw [List.mem_filterMap]
    constructor
    · exact fun hm => ⟨_, hm, header_announce b⟩
    · rintro ⟨m, hm, hb⟩
      rwa [← eq_announce (hspread.proper m (hspread.seen i m hm)) hb]
  rw [hmem, List.mem_iff_getElem?]
  constructor
  · rintro ⟨n, hn⟩
    have hget : (s.blocks P i)[n + 1]? = some b := hn
    rw [h.height_eq hget]
    exact ⟨n.succ_pos, hget⟩
  · rintro ⟨hpos, hget⟩
    obtain ⟨n, hn⟩ := Nat.exists_eq_succ_of_ne_zero hpos.ne'
    rw [hn] at hget
    exact ⟨n, hget⟩

/-- The next event of a node, if it is a header, is the block that its ledger lacks. -/
theorem next_header (h : s.Blocks P o ledgers) {rest : List ChainNetworkEvent}
    (hinbox : (s.node i).inbox = .incomingNewBlockHeader b :: rest) :
    o.miner i ≠ i ∧ height b = (ledgers i).length ∧ validate P (ledgers i) b = .ok () ∧
      s.blocks P i = (ledgers i ++ [b]) ++ rest.filterMap ChainNetworkEvent.header := by
  have hin : (s.node i).headersIn = b :: rest.filterMap ChainNetworkEvent.header := by
    rw [Client.headersIn, hinbox]
    rfl
  have hi : o.miner i ≠ i := by
    intro hi
    rw [(h.miner i hi).2] at hin
    cases hin
  have hblocks := h.follower i hi
  rw [hin] at hblocks
  have hget : (s.blocks P i)[(ledgers i).length]? = some b := by rw [hblocks]; simp
  have hheight := h.height_eq hget
  have hpos := (h.stores i).length_pos
  refine ⟨hi, hheight, ?_, by rw [hblocks]; simp⟩
  -- the parent is the tip, and the miner's ledger is linked
  have htip := (h.stores i).getElem?_getLast
  refine validate_of_parent (height_pos_iff.mp (by omega)) (p := (ledgers i).getLast (h.stores i).ne_nil)
    (by rw [hheight]; exact htip) ?_
  refine (h.linked i ((ledgers i).length - 1) _ b ?_ ?_).symm
  · exact getElem?_of_isPrefix (h.isPrefix i) htip
  · rw [Nat.sub_add_cancel hpos]
    exact getElem?_of_isPrefix (h.blocks_isPrefix i) hget

theorem sane (h : s.Blocks P o ledgers) (i : ι) : s.Sane P i (ledgers i) where
  calm := h.calm i
  stores := h.stores i
  bound := (h.isPrefix i).length_le.trans_lt (h.bound i)
  expects _ _ hinbox := (h.next_header hinbox).2.2.1

theorem blocks_eq_of_seen {k : ι} (hseen : s'.flood.seen k = s.flood.seen k) : s'.blocks P k = s.blocks P k := by
  rw [blocks, hseen]
  rfl

theorem blocks_eq_of_append {k : ι} (hseen : s'.flood.seen k = s.flood.seen k ++ [m]) :
    s'.blocks P k = s.blocks P k ++ m.header.toList := by
  rw [blocks, hseen, List.filterMap_append]
  cases hm : m.header <;> simp [blocks, hm]

/-- The block before one on the miner's ledger is announced before it. -/
theorem next_iff (h : s.Blocks P o ledgers) {b : Header} {n : ℕ} (hb : (ledgers (o.miner i))[n]? = some b) :
    Next (ledgers (o.miner i)) m (announce b) ↔
      ∃ k b', 0 < k ∧ n = k + 1 ∧ (ledgers (o.miner i))[k]? = some b' ∧ m = announce b' := by
  have hheight : height b = n := (h.stores (o.miner i)).numbered n b hb
  constructor
  · rintro ⟨k, b', b₁, hk, hb', hb₁, rfl, heq⟩
    have hsame : b = b₁ := by
      have hheaders := congrArg GossipMessage.header heq
      rwa [header_announce, header_announce, Option.some.injEq] at hheaders
    have hheight₁ : height b₁ = k + 1 := (h.stores (o.miner i)).numbered (k + 1) b₁ hb₁
    exact ⟨k, b', hk, by rw [← hheight, hsame, hheight₁], hb', rfl⟩
  · rintro ⟨k, b', hk, rfl, hb', rfl⟩
    exact ⟨k, b', b, hk, hb', hb, rfl, rfl⟩

/-- **A block that arrives follows those that were seen.** -/
theorem arrives (h : s.Blocks P o ledgers) (hspread : s.Spread dataHash o)
    (htaken : s.flood.taken (messageId dataHash) j i = some m) (hb : m.header = some b) :
    m = announce b ∧ o.miner i ≠ i ∧ (s.blocks P i ++ [b]) <+: s.blocks P (o.miner i) := by
  obtain ⟨harriving, hnew⟩ := Option.filter_eq_some_iff.mp htaken
  obtain ⟨hlinked, hsent⟩ := hspread.sound.mem_of_arriving harriving
  obtain rfl := eq_announce (hspread.proper_of_taken htaken) hb
  have hnew : ¬ s.flood.Knows (messageId dataHash) i (announce b) := by simpa using hnew
  have hminer := o.miner_of_linked j i hlinked
  obtain ⟨hpos, hget⟩ := (h.announce_mem_iff hspread).mp hsent
  have hmined : (s.blocks P (o.miner i))[height b]? = some b := by
    have hupto := h.upto j
    rw [hminer] at hupto
    exact getElem?_of_isPrefix hupto hget
  have hprefix := h.upto i
  have hlt := (List.getElem?_eq_some_iff.mp hmined).1
  -- it is not among those that were seen
  have hge : (s.blocks P i).length ≤ height b := by
    by_contra hlt'
    refine hnew (Flood.knows_of_mem ((h.announce_mem_iff hspread).mpr ⟨hpos, ?_⟩))
    have hown := List.getElem?_eq_getElem (l := s.blocks P i) (i := height b) (by omega)
    rw [hown, ← getElem?_of_isPrefix hprefix hown]
    exact hmined
  -- but the one before it is
  have hle : height b ≤ (s.blocks P i).length := by
    by_contra hgt
    obtain ⟨n, hn⟩ := Nat.exists_eq_succ_of_ne_zero hpos.ne'
    have hlenpos : 0 < (s.blocks P i).length := Nat.succ_pos _
    have hb' := List.getElem?_eq_getElem (l := s.blocks P (o.miner i)) (i := n) (by omega)
    generalize (s.blocks P (o.miner i))[n] = b' at hb'
    have hledger := h.blocks_isPrefix (o.miner i)
    rw [o.miner_miner] at hledger
    have hdep : Next (ledgers (o.miner j)) (announce b') (announce b) := by
      rw [hminer]
      refine ⟨n, b', b, by omega, getElem?_of_isPrefix hledger hb', ?_, rfl, rfl⟩
      rw [show n + 1 = height b from hn.symm]
      exact getElem?_of_isPrefix hledger hmined
    have hmem := h.ordered.dep_of_arriving hspread.sound hspread.clear harriving hdep
    rw [h.announce_mem_iff hspread] at hmem
    have hlt'' := (List.getElem?_eq_some_iff.mp hmem.2).1
    have hheight' : height b' = n := (h.stores (o.miner i)).numbered n b' (getElem?_of_isPrefix hledger hb')
    omega
  have hlen := le_antisymm hge hle
  refine ⟨rfl, fun hi => ?_, ?_⟩
  · rw [hi] at hlt
    omega
  · rw [← hlen] at hmined
    obtain ⟨rest, hrest⟩ := hprefix
    rw [← hrest, List.getElem?_append_right le_rfl, Nat.sub_self] at hmined
    cases rest with
    | nil => cases hmined
    | cons x rest =>
      cases hmined
      exact ⟨rest, by rw [← hrest]; simp⟩

/-! ## Steps that bring no new block -/

theorem start (P : Platform) (o : Overlay ι) (localPeerId : ι → PeerId) :
    (start P localPeerId).Blocks P o fun _ => [Chain.genesis P] where
  calm i := Client.calm_start P Db.empty (localPeerId i)
  stores _ := stores_new P
  follower _ _ := rfl
  miner _ _ := ⟨rfl, rfl⟩
  upto _ := List.prefix_rfl
  echoes _ _ _ hm := absurd hm List.not_mem_nil
  linked _ _ _ _ _ hc := by simp at hc
  bound _ := by simp
  ordered := Flood.ordered_start _

section

variable [DecidableEq ι]

/-- What a change at node `i`, which has the ledger `L` then, has to meet, if no miner's ledger changes. -/
theorem of_node (h : s.Blocks P o ledgers) (hothers : ∀ k, k ≠ i → s'.node k = s.node k) (hcalm : (s'.node i).Calm)
    {L : List Header} (hstores : (s'.node i).chain.Stores P L) (hkept : o.miner i = i → L = ledgers i)
    (hblocks : ∀ k, k ≠ i → s'.blocks P k = s.blocks P k) (hgrows : s.blocks P i <+: s'.blocks P i)
    (hseen : ∀ k, ∀ m ∈ s.flood.seen k, m ∈ s'.flood.seen k)
    (hfollower : o.miner i ≠ i → s'.blocks P i = L ++ (s'.node i).headersIn ∧
      s'.blocks P i <+: s.blocks P (o.miner i) ∧ ∀ m ∈ (s'.node i).outbox, ∀ b ∈ m.header, m ∈ s'.flood.seen i)
    (hminer : o.miner i = i → L = s'.blocks P i ++ (s'.node i).headersOut ∧ (s'.node i).headersIn = [])
    (hordered : s'.flood.Ordered fun k => Next (ledgers (o.miner k))) :
    s'.Blocks P o (Function.update ledgers i L) := by
  have hminers : ∀ k, Function.update ledgers i L (o.miner k) = ledgers (o.miner k) := by
    intro k
    by_cases hk : o.miner k = i
    · rw [hk, Function.update_self]
      exact hkept (by rw [← hk]; exact o.miner_miner k)
    · rw [Function.update_of_ne hk]
  refine ⟨fun k => ?_, fun k => ?_, fun k hk => ?_, fun k hk => ?_, fun k => ?_, fun k hk => ?_, fun k => ?_, fun k => ?_, ?_⟩
  · by_cases hki : k = i
    · rw [hki]
      exact hcalm
    · rw [hothers k hki]
      exact h.calm k
  · by_cases hki : k = i
    · rw [hki, Function.update_self]
      exact hstores
    · rw [hothers k hki, Function.update_of_ne hki]
      exact h.stores k
  · by_cases hki : k = i
    · subst hki
      rw [Function.update_self]
      exact (hfollower hk).1
    · rw [hothers k hki, hblocks k hki, Function.update_of_ne hki]
      exact h.follower k hk
  · by_cases hki : k = i
    · subst hki
      rw [Function.update_self]
      exact hminer hk
    · rw [hothers k hki, hblocks k hki, Function.update_of_ne hki]
      exact h.miner k hk
  · -- the miner's blocks may only get more
    have hmono : s.blocks P (o.miner k) <+: s'.blocks P (o.miner k) := by
      by_cases hm : o.miner k = i
      · rw [hm]
        exact hgrows
      · rw [hblocks _ hm]
    by_cases hki : k = i
    · subst hki
      by_cases hk : o.miner k = k
      · rw [hk]
      · exact (hfollower hk).2.1.trans hmono
    · rw [hblocks k hki]
      exact (h.upto k).trans hmono
  · by_cases hki : k = i
    · subst hki
      exact (hfollower hk).2.2
    · rw [hothers k hki]
      exact fun m hm b hb => hseen k m (h.echoes k hk m hm b hb)
  · rw [hminers]
    exact h.linked k
  · rw [hminers]
    exact h.bound k
  · simp only [hminers]
    exact hordered

/-- A change that brings no new header to a node, and none to its neighbours. -/
theorem of_same (h : s.Blocks P o ledgers) (hothers : ∀ k, k ≠ i → s'.node k = s.node k) (hcalm : (s'.node i).Calm)
    (hchain : (s'.node i).chain = (s.node i).chain) {out asked : List GossipMessage}
    {come handled : List ChainNetworkEvent} (hmoves : Client.Moves (s.node i) (s'.node i) out asked come handled)
    (hout : o.miner i = i → ∀ m ∈ out, m.header = none) (hasked : ∀ m ∈ asked, m.header = none)
    (hcome : ∀ e ∈ come, e.header = none) (hhandled : ∀ e ∈ handled, e.header = none)
    (hblocks : ∀ k, s'.blocks P k = s.blocks P k) (hseen : ∀ k, ∀ m ∈ s.flood.seen k, m ∈ s'.flood.seen k)
    (hordered : s'.flood.Ordered fun k => Next (ledgers (o.miner k))) : s'.Blocks P o ledgers := by
  have hin := hmoves.headersIn
  rw [List.filterMap_eq_nil_iff.mpr hcome, List.filterMap_eq_nil_iff.mpr hhandled, List.append_nil, List.nil_append] at hin
  have hnode := h.of_node hothers hcalm (L := ledgers i) (by rw [hchain]; exact h.stores i) (fun _ => rfl)
    (fun k _ => hblocks k) (by rw [hblocks]) hseen (fun hi => ?_) (fun hi => ?_) hordered
  · rwa [Function.update_eq_self] at hnode
  · refine ⟨by rw [hblocks, ← hin]; exact h.follower i hi, by rw [hblocks]; exact h.upto i, fun m hm b hb => ?_⟩
    rcases hmoves.mem_outbox hm with hm | hm
    · exact hseen i m (h.echoes i hi m hm b hb)
    · rw [hasked m hm] at hb
      cases hb
  · have hheaders := hmoves.headersOut
    rw [List.filterMap_eq_nil_iff.mpr hasked, List.filterMap_eq_nil_iff.mpr (hout hi), List.append_nil,
      List.nil_append] at hheaders
    rw [hblocks, ← hin, ← hheaders]
    exact h.miner i hi

/-! ## A new block -/

/-- A miner publishes the block that follows what it has seen. -/
theorem publish (h : s.Blocks P o ledgers) (hspread : s.Spread dataHash o) (hi : o.miner i = i)
    (hothers : ∀ k, k ≠ i → s'.node k = s.node k) (hcalm : (s'.node i).Calm)
    (hchain : (s'.node i).chain = (s.node i).chain) (hb : m.header = some b)
    (hmoves : Client.Moves (s.node i) (s'.node i) [m] [] [] [])
    (hflood : s'.flood = s.flood.publish (messageId dataHash) o.Linked i m) : s'.Blocks P o ledgers := by
  have houtbox := hmoves.outbox
  rw [List.append_nil] at houtbox
  have hmade : m ∈ s.made := hspread.outbox i m (by rw [houtbox]; exact List.mem_cons_self)
  obtain rfl := eq_announce (hspread.proper m hmade) hb
  have hout := hmoves.headersOut
  rw [List.filterMap_cons_some hb] at hout
  obtain ⟨hledger, hin⟩ := h.miner i hi
  simp only [List.filterMap_nil, List.append_nil, List.singleton_append] at hout
  rw [hout] at hledger
  have hget : (ledgers i)[(s.blocks P i).length]? = some b := by rw [hledger]; simp
  have hheight : height b = (s.blocks P i).length := (h.stores i).numbered _ b hget
  -- so the block is new
  have hnew : ¬ s.flood.Knows (messageId dataHash) i (announce b) := by
    intro hknown
    obtain ⟨m', hm', heq⟩ := List.mem_map.mp hknown
    rw [hspread.apart m' (hspread.seen i m' hm') _ hmade heq, h.announce_mem_iff hspread, hheight] at hm'
    simp at hm'
  have hseen : ∀ k, s'.flood.seen k = if k = i then s.flood.seen k ++ [announce b] else s.flood.seen k := by
    intro k
    rw [hflood, Flood.seen_publish]
    simp only [hnew, not_false_eq_true, and_true]
  have hblocks : s'.blocks P i = s.blocks P i ++ [b] := by
    rw [blocks_eq_of_append ((hseen i).trans (if_pos rfl)), header_announce]
    rfl
  have hgrows : ∀ k, ∀ m ∈ s.flood.seen k, m ∈ s'.flood.seen k := by
    intro k m hm
    rw [hflood]
    exact Flood.mem_publish_of_mem hm
  have hnode := h.of_node hothers hcalm (L := ledgers i) (by rw [hchain]; exact h.stores i) (fun _ => rfl)
    (fun k hk => blocks_eq_of_seen (by rw [hseen, if_neg hk])) (by rw [hblocks]; exact List.prefix_append _ _) hgrows
    (fun hne => absurd hi hne) (fun _ => ⟨by rw [hblocks, hledger]; simp, ?_⟩) ?_
  · rwa [Function.update_eq_self] at hnode
  · have hheaders := hmoves.headersIn
    rw [hin] at hheaders
    exact (List.nil_append _).symm.trans hheaders.symm
  · rw [hflood]
    refine h.ordered.publish hspread.sound hspread.clear fun _ m' hm' => ?_
    rw [h.next_iff (by rw [hi]; exact hget)] at hm'
    obtain ⟨k, b', hk, hlen, hb', rfl⟩ := hm'
    -- the block before it was seen
    rw [h.announce_mem_iff hspread, (h.stores (o.miner i)).numbered k b' hb']
    rw [hi, hledger, List.getElem?_append_left (by omega)] at hb'
    exact ⟨hk, hb'⟩

/-- A follower takes the block that follows what it has seen. -/
theorem take (h : s.Blocks P o ledgers) (hspread : s.Spread dataHash o) (hothers : ∀ k, k ≠ i → s'.node k = s.node k)
    (hcalm : (s'.node i).Calm) (hchain : (s'.node i).chain = (s.node i).chain)
    (htaken : s.flood.taken (messageId dataHash) j i = some m) (hb : m.header = some b)
    {e : ChainNetworkEvent} (he : e.message = some m) (hmoves : Client.Moves (s.node i) (s'.node i) [] [] [e] [])
    (hflood : s'.flood = s.flood.arrive (messageId dataHash) o.Linked j i) : s'.Blocks P o ledgers := by
  obtain ⟨rfl, hi, hprefix⟩ := h.arrives hspread htaken hb
  have hseen : ∀ k, s'.flood.seen k = if k = i then s.flood.seen k ++ [announce b] else s.flood.seen k := by
    intro k
    rw [hflood, Flood.seen_arrive, htaken]
    rfl
  have hblocks : s'.blocks P i = s.blocks P i ++ [b] := by
    rw [blocks_eq_of_append ((hseen i).trans (if_pos rfl)), header_announce]
    rfl
  have hgrows : ∀ k, ∀ m ∈ s.flood.seen k, m ∈ s'.flood.seen k := by
    intro k m hm
    rw [hflood]
    exact Flood.mem_seen_arrive_iff.mpr (.inl hm)
  have hin := hmoves.headersIn
  rw [List.filterMap_cons_some (by rw [header_of_message he, header_announce])] at hin
  have hnode := h.of_node hothers hcalm (L := ledgers i) (by rw [hchain]; exact h.stores i) (fun _ => rfl)
    (fun k hk => blocks_eq_of_seen (by rw [hseen, if_neg hk])) (by rw [hblocks]; exact List.prefix_append _ _) hgrows
    (fun _ => ⟨?_, by rw [hblocks]; exact hprefix, fun m hm b hb => ?_⟩) (fun hself => absurd hself hi) ?_
  · rwa [Function.update_eq_self] at hnode
  · simp only [List.filterMap_nil, List.nil_append] at hin
    rw [hblocks, h.follower i hi, ← hin, List.append_assoc]
  · rcases hmoves.mem_outbox hm with hm | hm
    · exact hgrows i m (h.echoes i hi m hm b hb)
    · cases hm
  · rw [hflood]
    exact h.ordered.arrive hspread.sound hspread.clear (fun k l hl => by rw [o.miner_of_linked k l hl]) j i

/-- A follower adds the block to its chain. -/
theorem handle (h : s.Blocks P o ledgers) (hspread : s.Spread dataHash o) (hothers : ∀ k, k ≠ i → s'.node k = s.node k)
    (hcalm : (s'.node i).Calm) {new : List Sent}
    (he : (s.node i).manager.onEvent P (.incomingNewBlockHeader b) = .ok (s'.node i).manager)
    (hsent : (s'.node i).manager.sent = (s.node i).manager.sent ++ new)
    (hmoves : Client.Moves (s.node i) (s'.node i) [] (new.filterMap Sent.message) [] [.incomingNewBlockHeader b])
    (hflood : s'.flood = s.flood) : s'.Blocks P o (Function.update ledgers i (ledgers i ++ [b])) := by
  have hinbox := hmoves.inbox
  rw [List.append_nil, List.singleton_append] at hinbox
  obtain ⟨hi, hheight, hvalid, hblocks⟩ := h.next_header hinbox
  have hstores := h.stores i
  have hput : put height (ledgers i) b = ledgers i ++ [b] := by
    unfold put
    rw [if_neg (by omega)]
  have hasked := message_of_onEvent hstores he hsent
  -- the block becomes the tip
  have hmanager : (s.node i).manager.onNewBlockHeader P b = .ok (s'.node i).manager := he
  rw [onNewBlockHeader_of_extends hstores hvalid hheight] at hmanager
  have hchain : (s'.node i).chain = Chain.insertHeader P b (s.node i).chain :=
    congrArg ChainNetworkManager.chain (Except.ok.inj hmanager).symm
  have hsame : s'.blocks P = s.blocks P := by
    unfold blocks
    rw [hflood]
  refine h.of_node hothers hcalm ?_ (fun hself => absurd hself hi) (fun k _ => by rw [hsame]) (by rw [hsame])
    (by rw [hflood]; exact fun _ _ hm => hm) (fun _ => ⟨?_, ?_, fun m hm b' hb' => ?_⟩) (fun hself => absurd hself hi)
    (by rw [hflood]; exact h.ordered)
  · rw [hchain, ← hput]
    exact hstores.insertHeader hheight.le
  · rw [hsame, hblocks]
    rfl
  · rw [hsame]
    exact h.upto i
  · rw [hflood]
    rcases hmoves.mem_outbox hm with hm | hm
    · exact h.echoes i hi m hm b' hb'
    · refine hspread.inbox i _ ?_ m (hasked m hm)
      rw [hinbox]
      exact List.mem_cons_self

/-- A miner extends its chain. -/
theorem mine (h : s.Blocks P o ledgers) (hspread : s.Spread dataHash o) (hothers : ∀ k, k ≠ i → s'.node k = s.node k)
    (hcalm : (s'.node i).Calm) {draws : Chain.Draws} (hi : o.miner i = i) (hroom : Room P (s.node i).chain)
    (hmined : (s.node i).mined P (.mine draws) = [b])
    (hchain : (s'.node i).chain = Chain.insertHeader P b (s.node i).chain)
    (hmoves : Client.Moves (s.node i) (s'.node i) [] [announce b] [] []) (hflood : s'.flood = s.flood) :
    s'.Blocks P o (Function.update ledgers i (ledgers i ++ [b])) := by
  have hstores := h.stores i
  have hpos := hstores.length_pos
  have hbelow := h.bound i
  rw [hi] at hbelow
  rw [Client.mined_of_below hstores hbelow draws, List.cons.injEq] at hmined
  obtain ⟨hb, -⟩ := hmined
  have hheight : height b = (ledgers i).length := by rw [← hb, height_minedOn_getLast hstores hbelow]
  have hput : put height (ledgers i) b = ledgers i ++ [b] := by
    unfold put
    rw [if_neg (by omega)]
  have hnext : (s'.node i).chain.Stores P (ledgers i ++ [b]) := by
    rw [hchain, ← hput]
    exact hstores.insertHeader hheight.le
  have hsame : s'.blocks P = s.blocks P := by
    unfold blocks
    rw [hflood]
  have hledgers : ∀ k, Function.update ledgers i (ledgers i ++ [b]) k = ledgers k ∨
      k = i ∧ Function.update ledgers i (ledgers i ++ [b]) k = ledgers i ++ [b] := by
    intro k
    by_cases hk : k = i
    · subst hk
      exact .inr ⟨rfl, by rw [Function.update_self]⟩
    · exact .inl (by rw [Function.update_of_ne hk])
  have hnode : ∀ k, o.miner k ≠ k → k ≠ i := by
    rintro k hk rfl
    exact hk hi
  refine ⟨fun k => ?_, fun k => ?_, fun k hk => ?_, fun k hk => ?_, fun k => ?_, fun k hk => ?_, fun k => ?_, fun k => ?_, ?_⟩
  · by_cases hki : k = i
    · rw [hki]
      exact hcalm
    · rw [hothers k hki]
      exact h.calm k
  · by_cases hki : k = i
    · rw [hki, Function.update_self]
      exact hnext
    · rw [hothers k hki, Function.update_of_ne hki]
      exact h.stores k
  · rw [hothers k (hnode k hk), hsame, Function.update_of_ne (hnode k hk)]
    exact h.follower k hk
  · by_cases hki : k = i
    · subst hki
      obtain ⟨hledger, hin⟩ := h.miner k hi
      have hout := hmoves.headersOut
      have hin' := hmoves.headersIn
      rw [List.filterMap_cons_some (header_announce b)] at hout
      simp only [List.filterMap_nil, List.append_nil, List.nil_append] at hout hin'
      rw [Function.update_self, hsame, ← hout, ← hin', ← List.append_assoc, ← hledger]
      exact ⟨rfl, hin⟩
    · rw [hothers k hki, hsame, Function.update_of_ne hki]
      exact h.miner k hk
  · rw [hsame]
    exact h.upto k
  · rw [hothers k (hnode k hk), hflood]
    exact h.echoes k hk
  · rcases hledgers (o.miner k) with hk | ⟨-, hk⟩ <;> rw [hk]
    · exact h.linked k
    · have hlinked := h.linked i
      rw [hi] at hlinked
      rw [← hput]
      refine (linked_put_iff hlinked hheight.le fun p _ hp => ?_).mpr fun c hc => ?_
      · rw [hheight, hstores.getElem?_getLast] at hp
        rw [← hb, ← Option.some.inj hp]
        rfl
      · rw [List.getElem?_eq_none (by omega)] at hc
        cases hc
  · rcases hledgers (o.miner k) with hk | ⟨-, hk⟩ <;> rw [hk]
    · exact h.bound k
    · have htip := hroom _ ((eval_tip_eq_ok hstores).2 rfl)
      rw [hstores.number_getLast] at htip
      rw [List.length_append, List.length_singleton]
      omega
  · rw [hflood]
    refine h.ordered.mono hspread.sound fun k m hm m' hdep => ?_
    rcases hledgers (o.miner k) with hk | ⟨hk, hk'⟩
    · rwa [hk] at hdep
    · rw [hk'] at hdep
      rw [hk]
      obtain ⟨n, b', b₁, hn, hb', hb₁, rfl, rfl⟩ := hdep
      -- what was seen is on the old ledger
      have hseen := ((h.announce_mem_iff hspread).mp hm).2
      have hold := getElem?_of_isPrefix (h.blocks_isPrefix k) hseen
      rw [hk, hnext.numbered (n + 1) b₁ hb₁] at hold
      have hlt := (List.getElem?_eq_some_iff.mp hold).1
      rw [List.getElem?_append_left (by omega)] at hb'
      exact ⟨n, b', b₁, hn, hb', hold, rfl, rfl⟩

/-- **A change keeps the blocks in order,** and no ledger loses anything. -/
theorem change (h : s.Blocks P o ledgers) (hspread : s.Spread dataHash o) (hothers : ∀ k, k ≠ i → s'.node k = s.node k)
    (hcalm : (s'.node i).Calm) {x : FloodedStep ι} (hx : s.Permitted P dataHash o x)
    (hchange : Change P dataHash o s i x s') : ∃ ledgers', s'.Blocks P o ledgers' ∧ ∀ k, ledgers k <+: ledgers' k := by
  have hgrows : ∀ b k, ledgers k <+: Function.update ledgers i (ledgers i ++ [b]) k := by
    intro b k
    by_cases hk : k = i
    · subst hk
      rw [Function.update_self]
      exact List.prefix_append _ _
    · rw [Function.update_of_ne hk]
  cases hchange with
  | rest hmoves hmanager hflood hmade =>
    refine ⟨ledgers, h.of_same hothers hcalm (congrArg ChainNetworkManager.chain hmanager) hmoves (by simp) (by simp)
      (by simp) (by simp) (fun k => blocks_eq_of_seen (by rw [hflood])) (by rw [hflood]; exact fun _ _ hm => hm)
      (by rw [hflood]; exact h.ordered), fun k => List.prefix_rfl⟩
  | publish m hmoves hmanager hflood hmade =>
    refine ⟨ledgers, ?_, fun k => List.prefix_rfl⟩
    have hchain := congrArg ChainNetworkManager.chain hmanager
    have houtbox := hmoves.outbox
    rw [List.append_nil] at houtbox
    have hm : m ∈ (s.node i).outbox := by
      rw [houtbox]
      exact List.mem_cons_self
    cases hb : m.header with
    | none =>
      refine h.of_same hothers hcalm hchain hmoves (by simp [hb]) (by simp) (by simp) (by simp) (fun k => ?_)
        (by rw [hflood]; exact fun _ _ hm => Flood.mem_publish_of_mem hm) ?_
      · have hseen : s'.flood.seen k =
            if k = i ∧ ¬ s.flood.Knows (messageId dataHash) i m then s.flood.seen k ++ [m] else s.flood.seen k := by
          rw [hflood, Flood.seen_publish]
        by_cases hnew : k = i ∧ ¬ s.flood.Knows (messageId dataHash) i m
        · rw [blocks_eq_of_append (hseen.trans (if_pos hnew)), hb]
          exact List.append_nil _
        · exact blocks_eq_of_seen (hseen.trans (if_neg hnew))
      · rw [hflood]
        refine h.ordered.publish hspread.sound hspread.clear fun _ m' hm' => ?_
        -- no block depends on it
        obtain ⟨n, b', b₁, -, -, -, -, rfl⟩ := hm'
        rw [header_announce] at hb
        cases hb
    | some b =>
      by_cases hi : o.miner i = i
      · exact h.publish hspread hi hothers hcalm hchain hb hmoves hflood
      · -- an echo goes nowhere
        have hecho : s'.flood = s.flood := by
          rw [hflood]
          exact if_pos (Flood.knows_of_mem (h.echoes i hi m hm b hb))
        exact h.of_same hothers hcalm hchain hmoves (fun hself => absurd hself hi) (by simp) (by simp) (by simp)
          (fun k => blocks_eq_of_seen (by rw [hecho])) (by rw [hecho]; exact fun _ _ hm => hm)
          (by rw [hecho]; exact h.ordered)
  | hear e hnone hmoves hmanager hflood hmade =>
    have he := header_of_message_none hnone
    refine ⟨ledgers, h.of_same hothers hcalm (congrArg ChainNetworkManager.chain hmanager) hmoves (by simp) (by simp)
      (by simp [he]) (by simp) (fun k => blocks_eq_of_seen (by rw [hflood])) (by rw [hflood]; exact fun _ _ hm => hm)
      (by rw [hflood]; exact h.ordered), fun k => List.prefix_rfl⟩
  | drop j hnode htaken hflood hmade =>
    have hmoves : Client.Moves (s.node i) (s'.node i) [] [] [] [] := by
      rw [hnode]
      exact ⟨by simp, by simp, by simp⟩
    refine ⟨ledgers, h.of_same hothers hcalm (by rw [hnode]) hmoves (by simp) (by simp) (by simp) (by simp)
      (fun k => blocks_eq_of_seen (by rw [hflood, Flood.seen_arrive, htaken]; simp))
      (by rw [hflood]; exact fun _ _ hm => Flood.mem_seen_arrive_iff.mpr (.inl hm)) ?_, fun k => List.prefix_rfl⟩
    rw [hflood]
    exact h.ordered.arrive hspread.sound hspread.clear (fun k l hl => by rw [o.miner_of_linked k l hl]) j i
  | take j m e htaken hevent hmessage hmoves hmanager hflood hmade =>
    refine ⟨ledgers, ?_, fun k => List.prefix_rfl⟩
    have hchain := congrArg ChainNetworkManager.chain hmanager
    cases hb : m.header with
    | none =>
      refine h.of_same hothers hcalm hchain hmoves (by simp) (by simp) (by simp [header_of_message hmessage, hb]) (by simp)
        (fun k => ?_) (by rw [hflood]; exact fun _ _ hm => Flood.mem_seen_arrive_iff.mpr (.inl hm)) ?_
      · have hseen : s'.flood.seen k = if k = i then s.flood.seen k ++ [m] else s.flood.seen k := by
          rw [hflood, Flood.seen_arrive, htaken]
          rfl
        by_cases hk : k = i
        · rw [blocks_eq_of_append (hseen.trans (if_pos hk)), hb]
          exact List.append_nil _
        · exact blocks_eq_of_seen (hseen.trans (if_neg hk))
      · rw [hflood]
        exact h.ordered.arrive hspread.sound hspread.clear (fun k l hl => by rw [o.miner_of_linked k l hl]) j i
    | some b => exact h.take hspread hothers hcalm hchain htaken hb hmessage hmoves hflood
  | handle e new honEvent hsent hmoves hflood hmade =>
    cases he : e.header with
    | none =>
      refine ⟨ledgers, h.of_same hothers hcalm (chain_of_onEvent he honEvent) hmoves (by simp) (fun m hm => ?_) (by simp)
        (by simp [he]) (fun k => blocks_eq_of_seen (by rw [hflood])) (by rw [hflood]; exact fun _ _ hm => hm)
        (by rw [hflood]; exact h.ordered), fun k => List.prefix_rfl⟩
      rw [← header_of_message (message_of_onEvent (h.stores i) honEvent hsent m hm), he]
    | some b =>
      obtain rfl : e = .incomingNewBlockHeader b := by
        cases e with
        | incomingNewBlockHeader header => rw [Option.some.inj he]
        | _ => cases he
      exact ⟨_, h.handle hspread hothers hcalm honEvent hsent hmoves hflood, hgrows b⟩
  | mine draws header heq hmined hmanager hmoves hflood hmade =>
    subst heq
    obtain ⟨hi, hroom⟩ := hx.mines draws rfl
    exact ⟨_, h.mine hspread hothers hcalm hi hroom hmined (congrArg ChainNetworkManager.chain hmanager) hmoves hflood,
      hgrows header⟩
  | submit txs heq hmanager hmoves hflood hmade =>
    refine ⟨ledgers, h.of_same hothers hcalm (congrArg ChainNetworkManager.chain hmanager :) hmoves (by simp)
      (by simp [header_announceAll]) (by simp) (by simp) (fun k => blocks_eq_of_seen (by rw [hflood]))
      (by rw [hflood]; exact fun _ _ hm => hm) (by rw [hflood]; exact h.ordered), fun k => List.prefix_rfl⟩

end

end Blocks

/-! ## Runs -/

/-- What holds in every state of a run. -/
def Kept (P : Platform) (dataHash : List UInt8 → UInt64) (o : Overlay ι) (s : Flooded ι) : Prop :=
  s.Spread dataHash o ∧ ∃ ledgers, s.Blocks P o ledgers

/-- Nothing is on its way any more. -/
structure Settled (s : Flooded ι) : Prop where
  quiet : s.flood.Quiet
  outbox : ∀ i, (s.node i).outbox = []
  inbox : ∀ i, (s.node i).inbox = []

theorem kept_start (P : Platform) (dataHash : List UInt8 → UInt64) (o : Overlay ι) (localPeerId : ι → PeerId) :
    (start P localPeerId).Kept P dataHash o :=
  ⟨spread_start P dataHash o localPeerId, _, .start P o localPeerId⟩

/-- **A permitted step does not panic,** and keeps what holds. -/
theorem Kept.step [DecidableEq ι] (h : s.Kept P dataHash o) {x : FloodedStep ι} (hx : s.Permitted P dataHash o x) :
    ∃ s', s.step P dataHash o x = .ok s' ∧ s'.Kept P dataHash o := by
  obtain ⟨hspread, ledgers, hblocks⟩ := h
  obtain ⟨s', he⟩ := step_ok hspread hblocks.sane hx
  obtain ⟨i, hothers, hcalm, hchange⟩ := step_change hspread hblocks.sane hx he
  obtain ⟨ledgers', hblocks', -⟩ := hblocks.change hspread hothers hcalm hx hchange
  exact ⟨s', he, hspread.change (hblocks.stores i) hothers hx hchange, ledgers', hblocks'⟩

theorem Kept.everyState [DecidableEq ι] (h : s.Kept P dataHash o) {steps : List (FloodedStep ι)}
    (hsteps : EveryStep P dataHash o (fun s x => s.Permitted P dataHash o x) s steps) :
    EveryState P dataHash o (fun s => s.Kept P dataHash o) s steps := by
  refine everyState_of_everyStep ?_ ⟨s, rfl, h⟩ hsteps
  rintro _ x ⟨s, rfl, hs⟩ hx
  exact hs.step (hx s rfl)

/-- Node `false` is linked to the miner. -/
def pair : Overlay Bool where
  toGroups := Cluster.twoNodes
  linked i j := i != j
  miner_of_linked _ _ _ := rfl

/-- A sum over the bytes. -/
def byteSum (data : List UInt8) : UInt64 := data.foldl (fun h b => 31 * h + b.toUInt64) 7

/-- A block is mined and published, and the other node takes it and broadcasts it again. -/
def delivery : List (FloodedStep Bool) :=
  [.node true (.mine zeroDraws), .node true (.command (granted 0)), .arrive true false, .node false .onEvent,
    .node false (.command (granted 0))]

theorem delivery_permitted (P : Platform) (localPeerId : Bool → PeerId) :
    EveryStep P byteSum pair (fun s x => s.Permitted P byteSum pair x) (start P localPeerId) delivery := by
  refine ⟨?_, ?_, ?_, ?_, ?_, trivial⟩
  · rintro _ ⟨⟩
    refine ⟨by simp, by simp, by simp, fun draws _ => ⟨rfl, fun t ht => ?_⟩, by simp, fun m _ m' hm' => ?_⟩
    · rw [(eval_tip_eq_ok (stores_new P)).1 ht]
      exact (by decide : 0 + 2 < 2 ^ 64)
    · cases hm'
  · exact fun s _ => ⟨by simp, by simp, by simp, by simp, by simp, by simp [Client.makes]⟩
  · exact fun s _ => trivial
  · exact fun s _ => ⟨by simp, by simp, by simp, by simp, by simp, by simp [Client.makes]⟩
  · exact fun s _ => ⟨by simp, by simp, by simp, by simp, by simp, by simp [Client.makes]⟩

/-- **Nothing goes over a link twice.**  In every state of a run, a link has carried messages with different ids only, and
no more of them than blocks were mined and transactions submitted in the whole cluster, whatever else was broadcast. -/
theorem link_traffic [DecidableEq ι] (P : Platform) (dataHash : List UInt8 → UInt64) (o : Overlay ι)
    (localPeerId : ι → PeerId) (steps : List (FloodedStep ι))
    (h : EveryStep P dataHash o (fun s x => s.Permitted P dataHash o x) (start P localPeerId) steps) :
    EveryState P dataHash o
      (fun s => ∀ i j, ((s.flood.sent i j).map (messageId dataHash)).Nodup ∧ (s.flood.sent i j).length ≤ s.made.length)
      (start P localPeerId) steps := by
  refine ((kept_start P dataHash o localPeerId).everyState h).mono ?_
  rintro _ ⟨s, rfl, hspread, -⟩
  refine ⟨s, rfl, fun i j => ⟨?_, hspread.sound.length_sent_le (hspread.seen i) j⟩⟩
  exact (hspread.sound.distinct i).sublist ((hspread.sound.sublist i j).map _)

theorem link_traffic_delivery :
    EveryState (sample true) byteSum pair
      (fun s => ∀ i j, ((s.flood.sent i j).map (messageId byteSum)).Nodup ∧ (s.flood.sent i j).length ≤ s.made.length)
      (start (sample true) fun _ => ⟨[1]⟩) delivery :=
  link_traffic _ _ _ _ _ (delivery_permitted _ _)

/-! ## When nothing is on its way any more -/

/-- What the miner has seen was seen wherever its blocks get. -/
theorem Blocks.blocks_eq_of_settled (h : s.Blocks P o ledgers) (hspread : s.Spread dataHash o) (hs : s.Settled)
    (hpath : Relation.ReflTransGen o.Linked (o.miner i) i) : s.blocks P i = s.blocks P (o.miner i) := by
  refine (h.upto i).eq_of_length_le ?_
  -- the last block of the miner was seen
  have hne : s.blocks P (o.miner i) ≠ [] := List.cons_ne_nil _ _
  have hlast : (s.blocks P (o.miner i))[(s.blocks P (o.miner i)).length - 1]? =
      some ((s.blocks P (o.miner i)).getLast hne) := by
    rw [← List.getLast?_eq_getElem?, List.getLast?_eq_some_getLast hne]
  generalize (s.blocks P (o.miner i)).getLast hne = b at hlast
  have hheight := h.height_eq hlast
  by_cases hpos : 0 < height b
  · have hseen : announce b ∈ s.flood.seen (o.miner i) := (h.announce_mem_iff hspread).mpr ⟨hpos, by rw [hheight]; exact hlast⟩
    have hmem := hspread.sound.mem_of_path hspread.clear hs.quiet hseen hpath
    have hlt := (List.getElem?_eq_some_iff.mp ((h.announce_mem_iff hspread).mp hmem).2).1
    omega
  · exact (show (s.blocks P (o.miner i)).length ≤ 1 by omega).trans (Nat.succ_le_succ (Nat.zero_le _))

/-- **Then every node has its miner's chain,** if its miner's blocks can get there. -/
theorem Blocks.eq_of_settled (h : s.Blocks P o ledgers) (hspread : s.Spread dataHash o) (hs : s.Settled)
    (hpath : Relation.ReflTransGen o.Linked (o.miner i) i) : ledgers i = ledgers (o.miner i) := by
  have hminer := (h.miner (o.miner i) (o.miner_miner i)).1
  rw [Client.headersOut, hs.outbox, List.filterMap_nil, List.append_nil] at hminer
  by_cases hi : o.miner i = i
  · rw [hi]
  · have hfollower := h.follower i hi
    rw [Client.headersIn, hs.inbox, List.filterMap_nil, List.append_nil] at hfollower
    rw [← hfollower, h.blocks_eq_of_settled hspread hs hpath, hminer]

theorem header_eq_of_stores {db db' : Db} {L : List Header} (h : db.Stores P L) (h' : db'.Stores P L) :
    db.header = db'.header :=
  Std.ExtTreeMap.ext_getElem? fun {n} => (h.header n).trans (h'.header n).symm

/-- **The chains converge.**  In every state of a run in which nothing is on its way any more, every node that its miner's
blocks can reach has the `HEADER` table of its miner. -/
theorem chains_converge [DecidableEq ι] (P : Platform) (dataHash : List UInt8 → UInt64) (o : Overlay ι)
    (localPeerId : ι → PeerId) (steps : List (FloodedStep ι))
    (h : EveryStep P dataHash o (fun s x => s.Permitted P dataHash o x) (start P localPeerId) steps) :
    EveryState P dataHash o
      (fun s => s.Settled → ∀ i, Relation.ReflTransGen o.Linked (o.miner i) i →
        (s.node i).chain.header = (s.node (o.miner i)).chain.header)
      (start P localPeerId) steps := by
  refine ((kept_start P dataHash o localPeerId).everyState h).mono ?_
  rintro _ ⟨s, rfl, hspread, ledgers, hblocks⟩
  refine ⟨s, rfl, fun hs i hpath => header_eq_of_stores (hblocks.stores i) ?_⟩
  rw [hblocks.eq_of_settled hspread hs hpath]
  exact hblocks.stores (o.miner i)

theorem chains_converge_delivery :
    EveryState (sample true) byteSum pair
      (fun s => s.Settled → ∀ i, Relation.ReflTransGen pair.Linked (pair.miner i) i →
        (s.node i).chain.header = (s.node (pair.miner i)).chain.header)
      (start (sample true) fun _ => ⟨[1]⟩) delivery :=
  chains_converge _ _ _ _ _ (delivery_permitted _ _)

end Flooded

end Simb
