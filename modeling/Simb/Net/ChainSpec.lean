import Simb.BlockTree.Links
import Simb.Net.Chain

/-!
# What the chain side of the network can do

The cases of each method of `ChainNetworkManager`, and that its chain always holds a ledger
(`HasLedger.poll`), so that none of the `expect`s on the tip fails.
-/

namespace Simb.Net

open Simb.BlockTree Simb.Tasks Simb.Lib

variable {P : Platform} {m m' : ChainNetworkManager} {header : Header}

/-! ## Incoming headers -/

namespace ChainNetworkManager

/-- No closest peers request is in flight, and the latch is open. -/
def Idle (m : ChainNetworkManager) : Prop := m.closestPeersRequestForSync = none ∧ m.pendingSyncRequest = false

instance (m : ChainNetworkManager) : Decidable m.Idle := inferInstanceAs (Decidable (_ ∧ _))

theorem idle_iff : (m.closestPeersRequestForSync.isNone ∧ ¬ m.pendingSyncRequest) ↔ m.Idle := by
  unfold Idle
  rw [Option.isNone_iff_eq_none, Bool.not_eq_true]

/-- A header without a parent is broadcast unless it is recorded, and starts a session unless one is under way. -/
theorem onMissingParent_eq (m : ChainNetworkManager) (header : Header) :
    m.onMissingParent header =
      { m with
        sent := m.sent ++ ((if header.hash.text ∈ m.broadcastedHeaders then [] else [.broadcastBlockHeader header]) ++
          if m.Idle then [.getClosestPeers] else [])
        broadcastRequests := m.broadcastRequests ++
          if header.hash.text ∈ m.broadcastedHeaders then [] else [.broadcastBlockHeader header]
        broadcastedHeaders := insert header.hash.text m.broadcastedHeaders
        closestPeersRequestForSync := if m.Idle then some header else m.closestPeersRequestForSync
        pendingSyncRequest := if m.Idle then true else m.pendingSyncRequest } := by
  have hidle := idle_iff (m := m)
  unfold onMissingParent
  by_cases hmem : header.hash.text ∈ m.broadcastedHeaders
  · simp only [not_not.mpr hmem, if_false, if_pos hmem, hidle, Finset.insert_eq_of_mem hmem]
    split <;> simp
  · simp only [hmem, not_false_eq_true, if_true, if_false, broadcast, hidle]
    split <;> simp

@[simp] theorem chain_onMissingParent : (m.onMissingParent header).chain = m.chain := by
  rw [onMissingParent_eq]

/-- A broadcast that completes only leaves its list. -/
theorem pollBroadcasts_eq (m : ChainNetworkManager) (broadcasts : List (ℕ × RequestResponse Unit)) :
    ∃ rest, m.pollBroadcasts broadcasts = { m with broadcastRequests := rest } := by
  induction broadcasts generalizing m with
  | nil => exact ⟨_, rfl⟩
  | cons x broadcasts ih =>
    unfold pollBroadcasts
    split
    · obtain ⟨rest, hrest⟩ := ih { m with broadcastRequests := m.broadcastRequests.eraseIdx x.1 }
      exact ⟨rest, hrest⟩
    · exact ⟨_, rfl⟩

theorem pollPeers_none (P : Platform) (m : ChainNetworkManager) : m.pollPeers P none = .ok m := by
  unfold pollPeers
  cases m.closestPeersRequestForSync <;> rfl

/-- What the manager makes of the answer for an incoming header. -/
theorem onNewBlockHeader_cases (h : m.onNewBlockHeader P header = .ok m') :
    ∃ r chain, (Chain.tryAddBlockHeader P header).runOn m.chain = (r, chain) ∧
      (r = .ok .extendTip ∧ m' = { m with chain }.broadcast (.broadcastBlockHeader header) ∨
        r = .ok .alreadyInChain ∧ m' = { m with chain } ∨
        r = .error (.error .blockHeaderNotFound) ∧ m' = { m with chain }.onMissingParent header ∨
        r = .error (.error .invalid) ∧ m' = { m with chain }) := by
  unfold onNewBlockHeader at h
  rcases hr : (Chain.tryAddBlockHeader P header).runOn m.chain with ⟨(e | p) | (_ | _), chain⟩
  · cases e with
    | invalid =>
      simp only [hr] at h
      cases h
      exact ⟨_, _, rfl, .inr (.inr (.inr ⟨rfl, rfl⟩))⟩
    | blockHeaderNotFound =>
      simp only [hr] at h
      obtain ⟨t, -, h⟩ := exists_of_bind_eq_ok h
      cases h
      exact ⟨_, _, rfl, .inr (.inr (.inl ⟨rfl, rfl⟩))⟩
    | databaseError message =>
      simp only [hr] at h
      cases h
  · simp only [hr] at h
    cases h
  · simp only [hr] at h
    cases h
    exact ⟨_, _, rfl, .inl ⟨rfl, rfl⟩⟩
  · simp only [hr] at h
    cases h
    exact ⟨_, _, rfl, .inr (.inl ⟨rfl, rfl⟩)⟩

end ChainNetworkManager

/-! ## The stages of a poll -/

/-- Downloaded headers are added to the chain, one after the other. -/
theorem addHeaders_eq {headers : List Header} (he : m.addHeaders P headers = .ok m') :
    ∃ added : List Header, m' = { m with chain := added.foldl (addTo P) m.chain } := by
  induction headers generalizing m with
  | nil =>
    cases he
    exact ⟨[], rfl⟩
  | cons header headers ih =>
    have hexec : addTo P m.chain header = ((Chain.tryAddBlockHeader P header).runOn m.chain).2 := rfl
    unfold ChainNetworkManager.addHeaders at he
    split at he
    · rename_i hr
      rw [hr] at hexec
      cases he
      exact ⟨[header], by rw [List.foldl_cons, hexec]; rfl⟩
    · rename_i hr
      rw [hr] at hexec
      cases he
      exact ⟨[header], by rw [List.foldl_cons, hexec]; rfl⟩
    · cases he
    · cases he
    · rename_i hr
      rw [hr] at hexec
      obtain ⟨added, rfl⟩ := ih he
      exact ⟨header :: added, by rw [List.foldl_cons, hexec]⟩

/-- The output of a download: an error changes nothing, and a success releases the latch. -/
theorem onSyncOutput_cases {output : SyncHeaderOutput} (he : m.onSyncOutput P output = .ok m') :
    ((∃ e, output = .error e) ∧ m' = m) ∨ (∃ headers, output = .ok headers) ∧ ∃ added : List Header,
      m' = { m with chain := added.foldl (addTo P) m.chain, pendingSyncRequest := false } := by
  cases output with
  | error e =>
    cases he
    exact .inl ⟨⟨e, rfl⟩, rfl⟩
  | ok headers =>
    obtain ⟨m₁, h₁, he⟩ := exists_of_bind_eq_ok he
    obtain ⟨t, -, he⟩ := exists_of_bind_eq_ok he
    obtain ⟨added, rfl⟩ := addHeaders_eq h₁
    cases he
    exact .inr ⟨⟨headers, rfl⟩, added, rfl⟩

/-- The next download that completes leaves the list.  If it failed nothing else changes, and if not the latch is
released.  A download that is not in the list ends the loop. -/
theorem pollSyncs_cons {i : ℕ} {output : SyncHeaderOutput} {syncs : List (ℕ × SyncHeaderOutput)}
    (he : m.pollSyncs P ((i, output) :: syncs) = .ok m') :
    (i < m.syncRequests.length ∧ ∃ m₁ : ChainNetworkManager, m₁.pollSyncs P syncs = .ok m' ∧
      m₁.syncRequests.length = m.syncRequests.length - 1 ∧
      ((∃ e, output = .error e) ∧ m₁ = { m with syncRequests := m.syncRequests.eraseIdx i } ∨
        (∃ headers, output = .ok headers) ∧ ∃ added : List Header,
          m₁ = { m with chain := added.foldl (addTo P) m.chain, pendingSyncRequest := false,
                        syncRequests := m.syncRequests.eraseIdx i })) ∨
      ¬ i < m.syncRequests.length ∧ m' = m := by
  unfold ChainNetworkManager.pollSyncs at he
  split at he
  · rename_i hi
    obtain ⟨m₁, h₁, h₂⟩ := exists_of_bind_eq_ok he
    have hlen := List.length_eraseIdx_of_lt hi
    rcases onSyncOutput_cases h₁ with ⟨herr, rfl⟩ | ⟨hok, added, rfl⟩
    · exact .inl ⟨hi, _, h₂, hlen, .inl ⟨herr, rfl⟩⟩
    · exact .inl ⟨hi, _, h₂, hlen, .inr ⟨hok, added, rfl⟩⟩
  · rename_i hi
    cases he
    exact .inr ⟨hi, rfl⟩

/-- Downloads that complete add headers to the chain, leave their list, and may release the latch. -/
theorem pollSyncs_eq {syncs : List (ℕ × SyncHeaderOutput)} (he : m.pollSyncs P syncs = .ok m') :
    ∃ (added : List Header) (requests : List SyncHeaderBuilder) (latch : Bool),
      m' = { m with chain := added.foldl (addTo P) m.chain, syncRequests := requests, pendingSyncRequest := latch } := by
  induction syncs generalizing m with
  | nil =>
    cases he
    exact ⟨[], _, _, rfl⟩
  | cons sync syncs ih =>
    rcases pollSyncs_cons he with ⟨-, m₁, hrest, -, ⟨-, rfl⟩ | ⟨-, added', rfl⟩⟩ | ⟨-, rfl⟩
    · obtain ⟨added, requests, latch, rfl⟩ := ih hrest
      exact ⟨added, requests, latch, rfl⟩
    · obtain ⟨added, requests, latch, rfl⟩ := ih hrest
      exact ⟨added' ++ added, requests, latch, by rw [List.foldl_append]⟩
    · exact ⟨[], _, _, rfl⟩

/-- The answer of the closest peers request starts downloads. -/
theorem pollPeers_eq {peers : Option (RequestResponse (List PeerId))} (he : m.pollPeers P peers = .ok m') :
    ∃ requests closest, m' = { m with syncRequests := requests, closestPeersRequestForSync := closest } := by
  unfold ChainNetworkManager.pollPeers at he
  split at he
  · obtain ⟨t, -, he⟩ := exists_of_bind_eq_ok he
    cases he
    exact ⟨_, _, rfl⟩
  · cases he
    exact ⟨_, _, rfl⟩
  · cases he
    exact ⟨_, _, rfl⟩

/-- `C` holds of every event, in the state in which it is handled. -/
def EveryEvent (P : Platform) (C : ChainNetworkManager → ChainNetworkEvent → Prop) :
    ChainNetworkManager → List ChainNetworkEvent → Prop
  | _, [] => True
  | m, event :: events => C m event ∧ ∀ m', m.onEvent P event = .ok m' → EveryEvent P C m' events

section

variable {I : ChainNetworkManager → Prop} {C D : ChainNetworkManager → ChainNetworkEvent → Prop}
variable {events : List ChainNetworkEvent}

/-- What every event that meets `C` preserves holds after the events of a poll. -/
theorem EveryEvent.pollEvents (hI : ∀ m event m', I m → C m event → m.onEvent P event = .ok m' → I m') (h0 : I m)
    (h : EveryEvent P C m events) (he : m.pollEvents P events = .ok m') : I m' := by
  induction events generalizing m with
  | nil =>
    cases he
    exact h0
  | cons event events ih =>
    obtain ⟨m₁, h₁, h₂⟩ := exists_of_bind_eq_ok he
    exact ih (hI m event m₁ h0 h.1 h₁) (h.2 m₁ h₁) h₂

/-- What follows from such an invariant for every event. -/
theorem EveryEvent.of_invariant (hI : ∀ m event m', I m → C m event → m.onEvent P event = .ok m' → I m')
    (hD : ∀ m event, I m → C m event → D m event) (h0 : I m) (h : EveryEvent P C m events) :
    EveryEvent P D m events := by
  induction events generalizing m with
  | nil => trivial
  | cons event events ih =>
    refine ⟨hD m event h0 h.1, ?_⟩
    intro m₁ h₁
    exact ih (hI m event m₁ h0 h.1 h₁) (h.2 m₁ h₁)

theorem EveryEvent.and_mem {E : ChainNetworkEvent → Prop} (h : EveryEvent P C m events) (hE : ∀ event ∈ events, E event) :
    EveryEvent P (fun m event => C m event ∧ E event) m events := by
  induction events generalizing m with
  | nil => trivial
  | cons event events ih =>
    refine ⟨⟨h.1, hE event List.mem_cons_self⟩, ?_⟩
    intro m₁ h₁
    exact ih (h.2 m₁ h₁) fun e he => hE e (List.mem_cons_of_mem _ he)

theorem everyEvent_true (P : Platform) (m : ChainNetworkManager) (events : List ChainNetworkEvent) :
    EveryEvent P (fun _ _ => True) m events := by
  induction events generalizing m with
  | nil => trivial
  | cons event events ih => exact ⟨trivial, fun m' _ => ih m'⟩

end

/-! ## The chain of a manager -/

/-- The chain of the manager holds a ledger. -/
def HasLedger (P : Platform) (m : ChainNetworkManager) : Prop := ∃ L, m.chain.Stores P L

namespace HasLedger

theorem of_chain_eq (h : HasLedger P m) (he : m'.chain = m.chain) : HasLedger P m' := by
  obtain ⟨L, hL⟩ := h
  exact ⟨L, by rw [he]; exact hL⟩

theorem tip (h : HasLedger P m) : ∃ t, m.tip P = .ok t := by
  obtain ⟨L, hL⟩ := h
  refine ⟨L.getLast hL.ne_nil, ?_⟩
  unfold ChainNetworkManager.tip
  rw [(eval_tip_eq_ok hL).2 rfl]

theorem add (h : HasLedger P m) {r : Except Fail AddedBlockResult} {chain : Db}
    (hr : (Chain.tryAddBlockHeader P header).runOn m.chain = (r, chain)) : ∃ L, chain.Stores P L := by
  obtain ⟨L, hL⟩ := h
  have hadd := hL.tryAdd header
  rw [ChainM.exec_eq, hr] at hadd
  exact ⟨_, hadd⟩

theorem onEvent (h : HasLedger P m) {event : ChainNetworkEvent} (he : m.onEvent P event = .ok m') :
    HasLedger P m' := by
  cases event with
  | incomingNewBlockHeader header =>
    obtain ⟨r, chain, hr, hcases⟩ := ChainNetworkManager.onNewBlockHeader_cases he
    have hadd := h.add hr
    rcases hcases with ⟨-, rfl⟩ | ⟨-, rfl⟩ | ⟨-, rfl⟩ | ⟨-, rfl⟩
    · exact hadd
    · exact hadd
    · exact of_chain_eq (m := { m with chain }) hadd ChainNetworkManager.chain_onMissingParent
    · exact hadd
  | incomingTransactions transactions =>
    cases he
    exact h
  | getBlockHeaders channel request =>
    obtain ⟨headers, -, he⟩ := exists_of_bind_eq_ok he
    cases he
    exact h

theorem pollEvents (h : HasLedger P m) {events : List ChainNetworkEvent} (he : m.pollEvents P events = .ok m') :
    HasLedger P m' :=
  EveryEvent.pollEvents (fun _ _ _ h _ he => h.onEvent he) h (everyEvent_true P m events) he

theorem pollSyncs (h : HasLedger P m) {syncs : List (ℕ × SyncHeaderOutput)} (he : m.pollSyncs P syncs = .ok m') :
    HasLedger P m' := by
  obtain ⟨added, requests, latch, rfl⟩ := pollSyncs_eq he
  obtain ⟨L, hL⟩ := h
  obtain ⟨L', hL', -⟩ := hL.foldl_addTo added
  exact ⟨L', hL'⟩

/-- One download for each peer, from the tip up to the header. -/
theorem sendSyncRequests (h : HasLedger P m) (header : Header) (peers : List PeerId) :
    ∃ t, m.tip P = .ok t ∧ m.sendSyncRequests P header peers =
      .ok { m with syncRequests := m.syncRequests ++ peers.map fun peer =>
        { peerId := some peer, localHeadBlock := t.number, targetHead := header.number } } := by
  obtain ⟨t, ht⟩ := h.tip
  refine ⟨t, ht, ?_⟩
  unfold ChainNetworkManager.sendSyncRequests
  rw [ht]
  rfl

theorem pollPeers (h : HasLedger P m) {peers : Option (RequestResponse (List PeerId))}
    (he : m.pollPeers P peers = .ok m') : HasLedger P m' := by
  obtain ⟨requests, closest, rfl⟩ := pollPeers_eq he
  exact h

theorem poll (h : HasLedger P m) {input : PollInput} (he : m.poll P input = .ok m') : HasLedger P m' := by
  obtain ⟨m₁, h₁, he⟩ := exists_of_bind_eq_ok he
  obtain ⟨m₂, h₂, he⟩ := exists_of_bind_eq_ok he
  obtain ⟨m₃, h₃, he⟩ := exists_of_bind_eq_ok he
  cases he
  obtain ⟨rest, hrest⟩ := m₃.pollBroadcasts_eq input.broadcasts
  exact of_chain_eq (((h.pollEvents h₁).pollPeers h₂).pollSyncs h₃) (by rw [hrest])

end HasLedger

/-- What an incoming header does to a manager whose chain holds `L`. -/
theorem onNewBlockHeader_ledger {L : List Header} (h : m.chain.Stores P L) (he : m.onNewBlockHeader P header = .ok m') :
    (validate P L header = .ok () ∧ height header = L.length ∧
        m' = { m with chain := Chain.insertHeader P header m.chain }.broadcast (.broadcastBlockHeader header)) ∨
      (validate P L header = .ok () ∧ height header < L.length ∧
        m' = { m with chain := Chain.insertHeader P header m.chain }) ∨
      (validate P L header = .error (.error .blockHeaderNotFound) ∧ m' = m.onMissingParent header) ∨
      (validate P L header = .error (.error .invalid) ∧ m' = m) := by
  obtain ⟨r, chain, hr, hcases⟩ := ChainNetworkManager.onNewBlockHeader_cases he
  rw [runOn_tryAddBlockHeader h] at hr
  cases hv : validate P L header with
  | ok u =>
    have hle := height_le_of_validate hv
    rw [hv] at hr
    cases hr
    rcases hcases with ⟨hc, rfl⟩ | ⟨hc, rfl⟩ | ⟨hc, -⟩ | ⟨hc, -⟩
    · refine .inl ⟨rfl, ?_, rfl⟩
      by_contra hne
      rw [if_pos (by omega)] at hc
      cases hc
    · refine .inr (.inl ⟨rfl, ?_, rfl⟩)
      by_contra hge
      rw [if_neg hge] at hc
      cases hc
    · cases hc
    · cases hc
  | error e =>
    rw [hv] at hr
    cases hr
    rcases hcases with ⟨hc, -⟩ | ⟨hc, -⟩ | ⟨hc, rfl⟩ | ⟨hc, rfl⟩
    · cases hc
    · cases hc
    · cases hc
      exact .inr (.inr (.inl ⟨rfl, rfl⟩))
    · cases hc
      exact .inr (.inr (.inr ⟨rfl, rfl⟩))

/-- A header that becomes the new tip. -/
theorem onNewBlockHeader_of_extends {L : List Header} (h : m.chain.Stores P L) (hv : validate P L header = .ok ())
    (hheight : height header = L.length) :
    m.onNewBlockHeader P header =
      .ok ({ m with chain := Chain.insertHeader P header m.chain }.broadcast (.broadcastBlockHeader header)) := by
  have hrun := runOn_tryAddBlockHeader h header
  rw [hv] at hrun
  simp only [hheight, Nat.lt_irrefl, if_false] at hrun
  unfold ChainNetworkManager.onNewBlockHeader
  rw [hrun]

/-- A header whose parent is not there. -/
theorem onNewBlockHeader_of_missing {L : List Header} (h : m.chain.Stores P L)
    (hv : validate P L header = .error (.error .blockHeaderNotFound)) :
    m.onNewBlockHeader P header = .ok (m.onMissingParent header) := by
  obtain ⟨t, ht⟩ := HasLedger.tip ⟨L, h⟩
  have hrun := runOn_tryAddBlockHeader h header
  rw [hv] at hrun
  unfold ChainNetworkManager.onNewBlockHeader
  rw [hrun]
  show m.tip P >>= _ = _
  rw [ht]
  rfl

end Simb.Net
