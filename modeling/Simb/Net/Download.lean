import Simb.Net.Serving
import Simb.Tasks.SyncLive
import Simb.Tasks.SyncOrder

/-!
# A download from a peer, end to end

A download splits the blocks above the local head into batches, the peer answers each batch with what it has of it,
and the manager adds the headers to its chain one by one.  Here the three are put together, for a peer with a linked
chain of which the local chain is a prefix.

As long as the batches are answered in the order of their numbers, the headers that are queued are a slice of the
peer's ledger (`Slices`).  So the chain ends as the peer's chain up to the target (`sync_applies`), or up to
the peer's tip if that is lower (`incomplete_peer_iff`), provided no batch lies above the peer's tip: the answer to
such a batch is empty, and the whole download fails.
-/

namespace Simb.Net

open Simb.BlockTree Simb.Tasks Simb.Lib

variable {ω φ : Type} {env : Env ω φ} {requestOf : φ → HeadersRequest} {P : Platform} {L : List Header}
variable {peer m : ChainNetworkManager} {s : SyncHeader φ} {w w' : ω} {b : SyncHeaderBuilder} {k : ℕ}

/-- Every request is answered by `handle_get_block_headers_request` of `peer`. -/
structure Served (P : Platform) (peer : ChainNetworkManager) (env : Env ω φ) (requestOf : φ → HeadersRequest) :
    Prop where
  future : ∀ peerId request w, requestOf (env.getHeaders peerId request w).1 = request
  answer : ∀ queue w i response w', env.pollNext queue w = (some (i, response), w') →
    ∃ headers, peer.handleGetBlockHeadersRequest P (requestOf (queue.get i)) = .ok headers ∧ response = .ok headers

/-- The requests complete in the order in which they were issued. -/
def InOrder (env : Env ω φ) : Prop :=
  ∀ queue w i response w', env.pollNext queue w = (some (i, response), w') → i.val = 0

/-! ## Slices -/

/-- A batch of the download can start just above block `k`: a whole number of full batches lies between the local head
and `k`. -/
def OnGrid (b : SyncHeaderBuilder) (k : ℕ) : Prop :=
  ∃ j, k = b.localHeadBlock.toNat + b.requestLimit.toNat * j

/-- A download that has taken the answers up to block `k`, in order. -/
structure Slices (L : List Header) (requestOf : φ → HeadersRequest) (b : SyncHeaderBuilder) (k : ℕ)
    (s : SyncHeader φ) : Prop where
  window : s.maxConcurrentLimit = b.maxConcurrentLimit
  limit : s.requestLimit = b.requestLimit
  target : s.targetHead = b.targetHead
  room : s.inProgressQueue.length ≤ b.maxConcurrentLimit
  above : b.localHeadBlock.toNat ≤ k
  below : s.localHeadBlock.toNat ≤ b.targetHead.toNat
  grid : s.localHeadBlock.toNat < b.targetHead.toNat → OnGrid b s.localHeadBlock.toNat
  span : Span (first requestOf) (size requestOf) (k + 1) s.inProgressQueue (s.localHeadBlock.toNat + 1)
  batches : ∀ fut ∈ s.inProgressQueue, OnGrid b (first requestOf fut - 1) ∧
    first requestOf fut + size requestOf fut ≤ b.targetHead.toNat + 1 ∧ size requestOf fut ≤ b.requestLimit.toNat
  queued : s.queuedHeaders = (L.drop (b.localHeadBlock.toNat + 1)).take (k - b.localHeadBlock.toNat)
  /-- The last batch that was taken starts on the grid, and is not above the tip of the ledger. -/
  last : k = b.localHeadBlock.toNat ∨ ∃ k' < k, OnGrid b k' ∧ k ≤ k' + b.requestLimit.toNat ∧ k' + 1 < L.length

/-- The answer to the first batch in flight is taken. -/
theorem Slices.ready {fut : φ} {rest : List φ} (h : Slices L requestOf b k s) (hq : s.inProgressQueue = fut :: rest)
    {headers : List Header} (hheaders : headers = (L.drop (k + 1)).take (size requestOf fut)) (hne : headers ≠ []) :
    Slices L requestOf b (k + size requestOf fut)
      { s with inProgressQueue := rest, queuedHeaders := s.queuedHeaders ++ headers } := by
  obtain ⟨hwindow, hlimit, htarget, hroom, habove, hbelow, hgrid, hspan, hbatches, hqueued, hlast⟩ := h
  rw [hq] at hroom hspan hbatches
  obtain ⟨hfirst, hpos, hspan⟩ := hspan
  obtain ⟨hon, hend, hsize⟩ := hbatches fut List.mem_cons_self
  rw [hfirst, Nat.add_sub_cancel] at hon
  refine ⟨hwindow, hlimit, htarget, ?_, by omega, hbelow, hgrid, ?_, ?_, ?_, ?_⟩
  · rw [List.length_cons] at hroom
    show rest.length ≤ _
    omega
  · rw [show k + size requestOf fut + 1 = k + 1 + size requestOf fut by omega]
    exact hspan
  · exact fun fut' hfut' => hbatches fut' (List.mem_cons_of_mem _ hfut')
  · show s.queuedHeaders ++ headers = _
    rw [hqueued, hheaders, show k + size requestOf fut - b.localHeadBlock.toNat =
      k - b.localHeadBlock.toNat + size requestOf fut by omega, List.take_add, List.drop_drop,
      show b.localHeadBlock.toNat + 1 + (k - b.localHeadBlock.toNat) = k + 1 by omega]
  · refine .inr ⟨k, by omega, hon, by omega, ?_⟩
    by_contra hlen
    rw [List.drop_eq_nil_of_le (by omega)] at hheaders
    exact hne (by rw [hheaders, List.take_nil])

/-- The next batch is issued. -/
theorem Slices.request (h : Slices L requestOf b k s) (hl : 1 ≤ b.requestLimit)
    (hwindow : s.inProgressQueue.length < s.maxConcurrentLimit) (hlt : s.localHeadBlock < s.targetHead) {fut : φ}
    (hfut : requestOf fut = s.nextRequest) : Slices L requestOf b k (s.issued fut) := by
  obtain ⟨hstart, hpos, hlim, hhead⟩ := nextRequest_spec hlt (by rw [h.limit]; exact hl)
  rw [h.target, h.limit] at hlim
  rw [h.target, UInt64.lt_iff_toNat_lt] at hlt
  have hfirst : first requestOf fut = s.localHeadBlock.toNat + 1 := by rw [first, hfut, hstart]
  have hsize : size requestOf fut = s.nextRequest.limit.toNat := by rw [size, hfut]
  have hnew : (s.issued fut).localHeadBlock.toNat = s.localHeadBlock.toNat + s.nextRequest.limit.toNat := hhead
  have hqueue : (s.issued fut).inProgressQueue = s.inProgressQueue ++ [fut] := rfl
  refine ⟨h.window, h.limit, h.target, ?_, h.above, by omega, ?_, ?_, ?_, h.queued, h.last⟩
  · rw [hqueue, List.length_append, List.length_singleton, ← h.window]
    exact hwindow
  · intro hlt'
    obtain ⟨j, hj⟩ := h.grid hlt
    refine ⟨j + 1, ?_⟩
    rw [Nat.mul_succ]
    omega
  · rw [hnew, hqueue, show s.localHeadBlock.toNat + s.nextRequest.limit.toNat + 1 =
      s.localHeadBlock.toNat + 1 + size requestOf fut by omega]
    exact h.span.append_singleton hfirst (by omega)
  · rw [hqueue]
    intro fut' hfut'
    rcases List.mem_append.mp hfut' with hfut' | hfut'
    · exact h.batches fut' hfut'
    · rw [List.mem_singleton.mp hfut', hfirst, Nat.add_sub_cancel]
      exact ⟨h.grid hlt, by omega, by omega⟩

theorem slices_build (hs : b.build = some s) (hlt : b.localHeadBlock < b.targetHead) :
    Slices L requestOf b b.localHeadBlock.toNat s := by
  unfold SyncHeaderBuilder.build at hs
  obtain ⟨peerId, -, rfl⟩ := Option.map_eq_some_iff.mp hs
  rw [UInt64.lt_iff_toNat_lt] at hlt
  refine ⟨rfl, rfl, rfl, Nat.zero_le _, le_rfl, hlt.le, fun _ => ⟨0, rfl⟩, rfl, ?_, by simp, .inl rfl⟩
  exact fun fut hfut => absurd hfut List.not_mem_nil

/-- What the peer answers to the first batch in flight. -/
theorem Slices.answer (h : Slices L requestOf b k s) (hpeer : peer.chain.Stores P L)
    (hserved : Served P peer env requestOf) {i : Fin s.inProgressQueue.length}
    {response : RequestResponse HeadersResponse} (hi : i.val = 0)
    (hp : env.pollNext s.inProgressQueue w = (some (i, response), w')) :
    ∃ fut rest, s.inProgressQueue = fut :: rest ∧ response = .ok ((L.drop (k + 1)).take (size requestOf fut)) := by
  obtain ⟨headers, hanswer, rfl⟩ := hserved.answer _ _ _ _ _ hp
  have hget : s.inProgressQueue[0]? = some (s.inProgressQueue.get i) := by
    rw [← hi]
    exact List.getElem?_eq_getElem i.isLt
  generalize s.inProgressQueue.get i = fut₀ at hget hanswer
  have hspan := h.span
  have hbatches := h.batches
  cases hq : s.inProgressQueue with
  | nil =>
    rw [hq] at hget
    cases hget
  | cons fut rest =>
    rw [hq] at hget hspan hbatches
    obtain rfl : fut = fut₀ := Option.some.inj hget
    obtain ⟨-, hend, -⟩ := hbatches fut List.mem_cons_self
    refine ⟨fut, rest, rfl, ?_⟩
    have hfit : (requestOf fut).startBlock.toNat + (requestOf fut).limit.toNat ≤ 2 ^ 64 :=
      hend.trans (Nat.succ_le_of_lt b.targetHead.toNat_lt)
    rw [headersFrom_eq_ok hpeer hfit hanswer]
    rw [show (requestOf fut).startBlock.toNat = k + 1 from hspan.1]
    rfl

/-! ## Whole downloads -/

/-- The last batch of the download starts below block `n`. -/
def LastBatchBelow (b : SyncHeaderBuilder) (n : ℕ) : Prop :=
  b.localHeadBlock.toNat + b.requestLimit.toNat *
    ((b.targetHead.toNat - b.localHeadBlock.toNat - 1) / b.requestLimit.toNat) < n

/-- A batch that starts on the grid and reaches the target is the last one. -/
theorem lastBatchBelow_iff {n k : ℕ} (hon : OnGrid b k) (hlt : k < b.targetHead.toNat)
    (hle : b.targetHead.toNat ≤ k + b.requestLimit.toNat) : LastBatchBelow b n ↔ k < n := by
  obtain ⟨j, hj⟩ := hon
  have hdiv : (b.targetHead.toNat - b.localHeadBlock.toNat - 1) / b.requestLimit.toNat = j := by
    rw [Nat.div_eq_iff (by omega), Nat.mul_comm]
    omega
  unfold LastBatchBelow
  rw [hdiv, ← hj]

/-- No batch that is issued starts above the last one. -/
theorem LastBatchBelow.lt {n k : ℕ} (h : LastBatchBelow b n) (hl : 1 ≤ b.requestLimit) (hon : OnGrid b k)
    (hlt : k < b.targetHead.toNat) : k < n := by
  obtain ⟨j, hj⟩ := hon
  rw [UInt64.le_iff_toNat_le] at hl
  have hone : (1 : UInt64).toNat = 1 := rfl
  have hdiv : j ≤ (b.targetHead.toNat - b.localHeadBlock.toNat - 1) / b.requestLimit.toNat := by
    rw [Nat.le_div_iff_mul_le (by omega), Nat.mul_comm]
    omega
  have hmul := Nat.mul_le_mul_left b.requestLimit.toNat hdiv
  unfold LastBatchBelow at h
  omega

/-- **What a download in order comes to.**  It gives the slice of the peer's ledger from the local head to the target
if its last batch starts in the ledger, and fails otherwise. -/
theorem resolves_slices (hpeer : peer.chain.Stores P L) (hserved : Served P peer env requestOf)
    (hl : 1 ≤ b.requestLimit) (hmax : 1 ≤ b.maxConcurrentLimit) (hlt : b.localHeadBlock < b.targetHead)
    (hs : b.build = some s)
    (horder : ∀ k s w i response w', Slices L requestOf b k s →
      env.pollNext s.inProgressQueue w = (some (i, response), w') → i.val = 0)
    {output : SyncHeaderOutput} (h : Resolves env s w output w') :
    output = .ok ((L.drop (b.localHeadBlock.toNat + 1)).take (b.targetHead.toNat - b.localHeadBlock.toNat)) ∧
        LastBatchBelow b (L.length - 1) ∨
      (∃ e, output = .error e) ∧ ¬ LastBatchBelow b (L.length - 1) := by
  have hkeeps : Keeps env fun s _ => ∃ k, Slices L requestOf b k s := by
    refine ⟨fun s w w' hJ _ => hJ, ?_, ?_⟩
    · rintro s w w' s' i response ⟨k, hJ⟩ hp hr
      have hi := horder k s w i response w' hJ hp
      obtain ⟨fut, rest, hq, rfl⟩ := hJ.answer hpeer hserved hi hp
      obtain ⟨headers, heq, hne, rfl⟩ := onReady_eq_ok hr
      cases heq
      refine ⟨k + size requestOf fut, ?_⟩
      rw [hi, hq]
      exact hJ.ready hq rfl hne
    · rintro s w w' fut ⟨k, hJ⟩ hwindow hlt hg
      have hfut := hserved.future s.peerId s.nextRequest w
      rw [hg] at hfut
      exact ⟨k, hJ.request hl hwindow hlt hfut⟩
  have hend := hkeeps.resolves ⟨_, slices_build hs hlt⟩ h
  rw [UInt64.lt_iff_toNat_lt] at hlt
  cases output with
  | error e =>
    -- the batch that is answered with nothing starts above the tip
    obtain ⟨s₁, w₁, i, response, ⟨k, hJ⟩, hp, hr⟩ := hend
    obtain ⟨fut, rest, hq, rfl⟩ := hJ.answer hpeer hserved (horder k s₁ w₁ i response w' hJ hp) hp
    refine .inr ⟨⟨e, rfl⟩, fun hbelow => ?_⟩
    have hspan := hJ.span
    rw [hq] at hspan
    obtain ⟨hfirst, hpos, -⟩ := hspan
    obtain ⟨hon, hle, -⟩ := hJ.batches fut (by rw [hq]; exact List.mem_cons_self)
    rw [hfirst, Nat.add_sub_cancel] at hon
    have hk := hbelow.lt hl hon (by omega)
    rcases onReady_eq_error hr with ⟨e', hc⟩ | hc
    · cases hc
    · have hlen := congrArg List.length (Except.ok.inj hc)
      rw [List.length_take, List.length_drop, List.length_nil] at hlen
      omega
  | ok headers =>
    obtain ⟨s₁, ⟨k, hJ⟩, hidle, hempty, rfl⟩ := hend
    have hspan := hJ.span
    rw [hempty] at hspan
    have hk : k = b.targetHead.toNat := by
      have hbelow := hJ.below
      have hk1 : k + 1 = s₁.localHeadBlock.toNat + 1 := hspan
      rcases hidle with hfull | hdone
      · rw [hJ.window, hempty, List.length_nil] at hfull
        omega
      · rw [hJ.target, UInt64.le_iff_toNat_le] at hdone
        omega
    refine .inl ⟨by rw [hJ.queued, hk], ?_⟩
    rcases hJ.last with hl0 | ⟨k', hk', hon, hle, hlen⟩
    · omega
    · rw [lastBatchBelow_iff hon (by omega) (by omega)]
      omega

/-! ## Applying the output -/

/-- A poll in which download `i` completes, and nothing else that matters. -/
def syncCompletes (i : ℕ) (output : SyncHeaderOutput) (broadcasts : List (ℕ × RequestResponse Unit)) : PollInput :=
  ⟨[], none, [(i, output)], broadcasts⟩

theorem poll_syncCompletes {i : ℕ} (hi : i < m.syncRequests.length) {output : SyncHeaderOutput}
    {m₁ : ChainNetworkManager}
    (hm₁ : { m with syncRequests := m.syncRequests.eraseIdx i }.onSyncOutput P output = .ok m₁)
    (broadcasts : List (ℕ × RequestResponse Unit)) :
    ∃ m', m.poll P (syncCompletes i output broadcasts) = .ok m' ∧ m'.chain = m₁.chain := by
  obtain ⟨rest, hrest⟩ := m₁.pollBroadcasts_eq broadcasts
  refine ⟨m₁.pollBroadcasts broadcasts, ?_, by rw [hrest]⟩
  show m.pollPeers P none >>= _ = _
  rw [ChainNetworkManager.pollPeers_none]
  show m.pollSyncs P [(i, output)] >>= _ = _
  unfold ChainNetworkManager.pollSyncs
  rw [if_pos hi, hm₁]
  rfl

/-- A slice that follows the local ledger is added to it. -/
theorem poll_slice (hpeer : peer.chain.Stores P L) (hlinked : LinkedChain P peer.chain) (hk : 0 < k)
    (hlocal : m.chain.Stores P (L.take k)) {i : ℕ} (hi : i < m.syncRequests.length) (n : ℕ)
    (broadcasts : List (ℕ × RequestResponse Unit)) :
    ∃ m', m.poll P (syncCompletes i (.ok ((L.drop k).take n)) broadcasts) = .ok m' ∧
      m'.chain.Stores P (L.take (k + n)) ∧ AllAdded P m.chain ((L.drop k).take n) := by
  obtain ⟨chain, hout, hstores, hall⟩ := onSyncOutput_slice ((linkedChain_iff hpeer).1 hlinked) hpeer.numbered
    (m := { m with syncRequests := m.syncRequests.eraseIdx i }) hk hlocal n
  obtain ⟨m', hpoll, hchain⟩ := poll_syncCompletes hi hout broadcasts
  exact ⟨m', hpoll, by rw [hchain]; exact hstores, hall⟩

/-- If there is only one batch at a time, it is the first one in flight. -/
theorem Slices.length_le_one (h : Slices L requestOf b k s)
    (hone : b.maxConcurrentLimit = 1 ∨ b.targetHead.toNat - b.localHeadBlock.toNat ≤ b.requestLimit.toNat) :
    s.inProgressQueue.length ≤ 1 := by
  rcases hone with hone | hone
  · exact h.room.trans hone.le
  · have hspan := h.span
    have hbatches := h.batches
    generalize s.inProgressQueue = queue at hspan hbatches ⊢
    rcases queue with _ | ⟨x, _ | ⟨y, rest⟩⟩
    · exact Nat.zero_le _
    · exact le_rfl
    · -- both batches would start at the local head
      obtain ⟨hx, hxpos, hy, hypos, -⟩ := hspan
      obtain ⟨⟨j, hj⟩, hend, -⟩ := hbatches y (List.mem_cons_of_mem _ List.mem_cons_self)
      have habove := h.above
      rcases j with _ | j
      · omega
      · rw [Nat.mul_succ] at hj
        omega

/-- The chain of `peer` is linked and has the tip `t`, and the chain of `m` is that chain up to number `n`. -/
structure Extends (P : Platform) (peer m : ChainNetworkManager) (t : Header) (n : UInt64) : Prop where
  served : Reachable P peer.chain
  linked : LinkedChain P peer.chain
  tip : (Chain.tip P).eval peer.chain = .ok t
  own : Reachable P m.chain
  same : UpTo P m.chain peer.chain n

theorem Extends.ledger {t : Header} {n : UInt64} (h : Extends P peer m t n) (hle : n ≤ t.number) :
    ∃ L, peer.chain.Stores P L ∧ m.chain.Stores P (L.take (n.toNat + 1)) ∧ t.number.toNat + 1 = L.length := by
  obtain ⟨L, hL⟩ := h.served.stores
  obtain ⟨M, hM⟩ := h.own.stores
  have hnum := hL.number_getLast
  have hpos := hL.length_pos
  rw [← (eval_tip_eq_ok hL).1 h.tip] at hnum
  rw [UInt64.le_iff_toNat_le] at hle
  have hsame := (upTo_iff hM hL (by omega)).1 h.same
  exact ⟨L, hL, by rw [← hsame]; exact hM, by omega⟩

/-- A download whose requests are answered resolves. -/
theorem resolves_of_answered (hs : b.build = some s) (hl : 1 ≤ b.requestLimit) (hanswered : ¬ Starves env s w) :
    ∃ output w', Resolves env s w output w' := by
  unfold SyncHeaderBuilder.build at hs
  obtain ⟨peerId, -, rfl⟩ := Option.map_eq_some_iff.mp hs
  exact (resolves_or_starves env hl w).resolve_right hanswered

/-- **A download of one batch at a time, end to end.**  From a peer with a linked chain that the local chain is a
prefix of, and that answers every request, the download resolves, no header of it is rejected, and the local chain
ends as the peer's chain up to the target. -/
theorem sync_applies {t : Header} (hextends : Extends P peer m t b.localHeadBlock)
    (hlt : b.localHeadBlock < b.targetHead) (hle : b.targetHead ≤ t.number) (hl : 1 ≤ b.requestLimit)
    (hmax : 1 ≤ b.maxConcurrentLimit)
    (hone : b.maxConcurrentLimit = 1 ∨ b.targetHead.toNat - b.localHeadBlock.toNat ≤ b.requestLimit.toNat)
    (hs : b.build = some s) (hserved : Served P peer env requestOf) (hanswered : ¬ Starves env s w) {i : ℕ}
    (hi : m.syncRequests[i]? = some b) (broadcasts : List (ℕ × RequestResponse Unit)) :
    (∃ output w', Resolves env s w output w') ∧ ∀ output w', Resolves env s w output w' →
      ∃ headers m', output = .ok headers ∧ m.poll P (syncCompletes i output broadcasts) = .ok m' ∧
        AllAdded P m.chain headers ∧ UpTo P m'.chain peer.chain b.targetHead ∧
        (Chain.tip P).eval m'.chain = (Chain.getHeaderByBlockNumber P b.targetHead).eval peer.chain := by
  obtain ⟨L, hL, hM, hlen⟩ := hextends.ledger (UInt64.le_of_lt (UInt64.lt_of_lt_of_le hlt hle))
  refine ⟨resolves_of_answered hs hl hanswered, ?_⟩
  intro output w' h
  have horder : ∀ k s w i response w', Slices L requestOf b k s →
      env.pollNext s.inProgressQueue w = (some (i, response), w') → i.val = 0 := by
    intro k s w i response w' hJ _
    have := hJ.length_le_one hone
    have := i.isLt
    omega
  have hresult := resolves_slices hL hserved hl hmax hlt hs horder h
  rw [UInt64.lt_iff_toNat_lt] at hlt
  rw [UInt64.le_iff_toNat_le] at hle
  rcases hresult with ⟨rfl, -⟩ | ⟨-, hnot⟩
  · obtain ⟨m', hpoll, hstores, hall⟩ := poll_slice hL hextends.linked (Nat.succ_pos _) hM
      (List.getElem?_eq_some_iff.mp hi).1 (b.targetHead.toNat - b.localHeadBlock.toNat) broadcasts
    rw [show b.localHeadBlock.toNat + 1 + (b.targetHead.toNat - b.localHeadBlock.toNat) = b.targetHead.toNat + 1
      by omega] at hstores
    exact ⟨_, m', rfl, hpoll, hall, (upTo_iff hstores hL (by omega)).2 rfl, eval_tip_take hstores hL (by omega)⟩
  · -- the last batch starts below the target
    refine absurd ?_ hnot
    have hdiv := Nat.mul_div_le (b.targetHead.toNat - b.localHeadBlock.toNat - 1) b.requestLimit.toNat
    unfold LastBatchBelow
    omega

/-- **When a download from an incomplete peer makes progress.**  From a peer with a linked chain that the local chain
is a prefix of, whose tip is below the target, and that answers every request, in order, the local chain ends as the
peer's chain exactly if the last batch starts at or below the peer's tip. -/
theorem incomplete_peer_iff {t : Header} (hextends : Extends P peer m t b.localHeadBlock)
    (hlt : b.localHeadBlock < t.number) (hgt : t.number < b.targetHead) (hl : 1 ≤ b.requestLimit)
    (hmax : 1 ≤ b.maxConcurrentLimit) (hs : b.build = some s) (hserved : Served P peer env requestOf)
    (horder : InOrder env) (hanswered : ¬ Starves env s w) {i : ℕ} (hi : m.syncRequests[i]? = some b)
    (broadcasts : List (ℕ × RequestResponse Unit)) :
    (∃ output w', Resolves env s w output w') ∧ ∀ output w', Resolves env s w output w' →
      ((∃ m', m.poll P (syncCompletes i output broadcasts) = .ok m' ∧ UpTo P m'.chain peer.chain t.number) ↔
        LastBatchBelow b t.number.toNat) := by
  obtain ⟨L, hL, hM, hlen⟩ := hextends.ledger (UInt64.le_of_lt hlt)
  refine ⟨resolves_of_answered hs hl hanswered, ?_⟩
  intro output w' h
  have hresult := resolves_slices hL hserved hl hmax (UInt64.lt_trans hlt hgt) hs
    (fun _ s w i response w' _ => horder _ w i response w') h
  have hi := (List.getElem?_eq_some_iff.mp hi).1
  rw [← hlen, Nat.add_sub_cancel] at hresult
  rw [UInt64.lt_iff_toNat_lt] at hlt hgt
  rcases hresult with ⟨rfl, hbelow⟩ | ⟨⟨e, rfl⟩, hnot⟩
  · obtain ⟨m', hpoll, hstores, -⟩ := poll_slice hL hextends.linked (Nat.succ_pos _) hM hi
      (b.targetHead.toNat - b.localHeadBlock.toNat) broadcasts
    refine iff_of_true ⟨m', hpoll, (upTo_iff hstores hL (by omega)).2 ?_⟩ hbelow
    rw [List.take_of_length_le (by omega), List.take_of_length_le (by omega)]
  · -- nothing is added, and the tip stays where it is
    have hout : { m with syncRequests := m.syncRequests.eraseIdx i }.onSyncOutput P (.error e) =
        .ok { m with syncRequests := m.syncRequests.eraseIdx i } := rfl
    obtain ⟨m₁, hpoll, hchain⟩ := poll_syncCompletes hi hout broadcasts
    refine iff_of_false ?_ hnot
    rintro ⟨m', hm', hup⟩
    obtain rfl := Except.ok.inj (hpoll.symm.trans hm')
    rw [hchain, upTo_iff hM hL (by omega)] at hup
    have hlen' := congrArg List.length hup
    rw [List.length_take, List.length_take] at hlen'
    omega

/-! ### A peer with one block -/

/-- A peer that answers at once, in order. -/
def serving (P : Platform) (peer : ChainNetworkManager) : Env Unit HeadersRequest where
  getHeaders _ request w := (request, w)
  pollNext queue w :=
    match queue with
    | [] => (none, w)
    | request :: rest =>
      match peer.handleGetBlockHeadersRequest P request with
      | .ok headers => (some (⟨0, Nat.succ_pos rest.length⟩, .ok headers), w)
      | .error _ => (none, w)

theorem answer_serving {P : Platform} {peer : ChainNetworkManager} {queue : List HeadersRequest} {w w' : Unit}
    {i : Fin queue.length} {response : RequestResponse HeadersResponse}
    (hp : (serving P peer).pollNext queue w = (some (i, response), w')) :
    i.val = 0 ∧ ∃ headers, peer.handleGetBlockHeadersRequest P (queue.get i) = .ok headers ∧ response = .ok headers := by
  unfold serving at hp
  cases queue with
  | nil => simp at hp
  | cons request rest =>
    simp only at hp
    split at hp
    · rename_i headers hheaders
      cases hp
      exact ⟨rfl, headers, hheaders, rfl⟩
    · simp at hp

theorem served_serving (P : Platform) (peer : ChainNetworkManager) : Served P peer (serving P peer) id where
  future _ _ _ := rfl
  answer _ _ _ _ _ hp := (answer_serving hp).2

theorem inOrder_serving (P : Platform) (peer : ChainNetworkManager) : InOrder (serving P peer) :=
  fun _ _ _ _ _ hp => (answer_serving hp).1

/-- A download that is pending has a request in flight. -/
theorem queue_ne_nil_of_pending {s' : SyncHeader φ} (h : Comes env s w (.pending s') w') : s'.inProgressQueue ≠ [] := by
  generalize hp : Polled.pending s' = polled at h
  induction h with
  | poll fuel hpoll =>
    subst hp
    exact (poll_eq_pending hpoll).2
  | again fuel _ _ ih => exact ih hp

/-- A peer whose chain is not full answers every request. -/
theorem not_starves_serving (hpeer : peer.chain.Stores P L) (hlen : L.length < 2 ^ 64) (s : SyncHeader HeadersRequest) :
    ¬ Starves (serving P peer) s () := by
  rintro ⟨s', w', hcomes, hnone⟩
  have hne := queue_ne_nil_of_pending hcomes
  have h0 := hnone 0
  unfold serving at h0
  generalize s'.inProgressQueue = queue at hne h0
  cases queue with
  | nil => exact hne rfl
  | cons request rest =>
    have hheaders := headersFrom_eq hpeer hlen request.limit.toNat request.startBlock
    change ChainNetworkManager.handleGetBlockHeadersRequest P peer request = _ at hheaders
    simp only [hheaders] at h0
    cases h0

/-- A peer with block `1`. -/
def onePeer (P : Platform) : ChainNetworkManager := .new (addAll P [firstBlock P]) ∅

theorem stores_onePeer (P : Platform) : (onePeer P).chain.Stores P [Chain.genesis P, firstBlock P] :=
  stores_firstBlock P

/-- A fresh chain, with a download in flight. -/
def downloading (P : Platform) (b : SyncHeaderBuilder) : ChainNetworkManager :=
  { ChainNetworkManager.new (Chain.new P Db.empty) ∅ with syncRequests := [b] }

theorem extends_onePeer (P : Platform) (b : SyncHeaderBuilder) :
    Extends P (onePeer P) (downloading P b) (firstBlock P) 0 where
  served := .step (.add _) .new trivial
  linked := by
    rw [linkedChain_iff (stores_onePeer P)]
    rintro (_ | i) p c hp hc
    · cases hp
      cases hc
      rfl
    · cases hc
  tip := (eval_tip_eq_ok (stores_onePeer P)).2 rfl
  own := .new
  same := (upTo_iff (n := 0) (stores_new P) (stores_onePeer P) (Nat.succ_pos 1)).2 rfl

theorem not_starves_onePeer (P : Platform) (s : SyncHeader HeadersRequest) : ¬ Starves (serving P (onePeer P)) s () :=
  not_starves_serving (stores_onePeer P) (by simp) s

/-- The download of the blocks up to `target`, with the limits of the source. -/
def downloadTo (target : UInt64) : SyncHeaderBuilder := { peerId := some ⟨[]⟩, targetHead := target }

/-- Such a download before its first poll. -/
def downloadStart (target : UInt64) : SyncHeader HeadersRequest := ⟨[], [], 10, 0, 1000, target, ⟨[]⟩⟩

/-- Block `1` is downloaded from a peer that has it. -/
theorem sync_applies_one :
    ∃ output, Resolves (serving (sample true) (onePeer (sample true))) (downloadStart 1) () output () ∧
      ∃ m', (downloading (sample true) (downloadTo 1)).poll (sample true) (syncCompletes 0 output []) = .ok m' ∧
        UpTo (sample true) m'.chain (onePeer (sample true)).chain 1 := by
  obtain ⟨⟨output, w', h⟩, hall⟩ := sync_applies (b := downloadTo 1) (i := 0) (extends_onePeer (sample true) _)
    (by decide) (show (1 : UInt64) ≤ 1 by decide) (by decide) (by decide) (.inr (by decide)) rfl
    (served_serving _ _) (not_starves_onePeer _ _) rfl []
  obtain ⟨headers, m', -, hpoll, -, hup, -⟩ := hall output w' h
  exact ⟨output, h, m', hpoll, hup⟩

/-- Block `2` comes in, and the peer has block `1`. -/
theorem incomplete_peer_one :
    ∃ output, Resolves (serving (sample true) (onePeer (sample true))) (downloadStart 2) () output () ∧
      ∃ m', (downloading (sample true) (downloadTo 2)).poll (sample true) (syncCompletes 0 output []) = .ok m' ∧
        UpTo (sample true) m'.chain (onePeer (sample true)).chain 1 := by
  obtain ⟨⟨output, w', h⟩, hiff⟩ := incomplete_peer_iff (b := downloadTo 2) (i := 0) (extends_onePeer (sample true) _)
    (show (0 : UInt64) < 1 by decide) (show (1 : UInt64) < 2 by decide) (by decide) (by decide) rfl
    (served_serving _ _) (inOrder_serving _ _) (not_starves_onePeer _ _) rfl []
  exact ⟨output, h, (hiff output w' h).2 (show 0 < 1 by decide)⟩

/-- If a download gives nothing, block `1` is not added. -/
theorem not_upTo_of_nothing (P : Platform) (b : SyncHeaderBuilder) {output : SyncHeaderOutput}
    (houtput : (∃ e, output = .error e) ∨ output = .ok []) {m' : ChainNetworkManager}
    (h : (downloading P b).poll P (syncCompletes 0 output []) = .ok m') :
    ¬ UpTo P m'.chain (onePeer P).chain 1 := by
  have hout : ∃ m₁, { downloading P b with syncRequests := [] }.onSyncOutput P output = .ok m₁ ∧
      m₁.chain = Chain.new P Db.empty := by
    rcases houtput with ⟨e, rfl⟩ | rfl
    · exact ⟨_, rfl, rfl⟩
    · obtain ⟨t, ht⟩ := HasLedger.tip (m := { downloading P b with syncRequests := [] }) ⟨_, stores_new P⟩
      refine ⟨{ downloading P b with syncRequests := [], pendingSyncRequest := false }, ?_, rfl⟩
      show { downloading P b with syncRequests := [] }.tip P >>= _ = _
      rw [ht]
      rfl
  obtain ⟨m₁, hm₁, hchain⟩ := hout
  obtain ⟨m₂, hpoll, hchain₂⟩ := poll_syncCompletes (m := downloading P b) (i := 0) Nat.one_pos hm₁ []
  obtain rfl := Except.ok.inj (hpoll.symm.trans h)
  rw [hchain₂, hchain, upTo_iff (n := 1) (stores_new P) (stores_onePeer P) (Nat.lt_succ_self 1)]
  exact fun heq => by cases congrArg List.length heq

/-- With a window of no requests the download of block `1` asks for nothing, resolves with no headers, and the chain
stays as it was. -/
theorem no_window_no_sync :
    Extends (sample true) (onePeer (sample true))
        (downloading (sample true) { downloadTo 1 with maxConcurrentLimit := 0 }) (firstBlock (sample true)) 0 ∧
      Served (sample true) (onePeer (sample true)) (serving (sample true) (onePeer (sample true))) id ∧
      ¬ Starves (serving (sample true) (onePeer (sample true))) { downloadStart 1 with maxConcurrentLimit := 0 } () ∧
      Resolves (serving (sample true) (onePeer (sample true))) { downloadStart 1 with maxConcurrentLimit := 0 } ()
        (.ok []) () ∧
      ∀ m', (downloading (sample true) { downloadTo 1 with maxConcurrentLimit := 0 }).poll (sample true)
          (syncCompletes 0 (.ok []) []) = .ok m' → ¬ UpTo (sample true) m'.chain (onePeer (sample true)).chain 1 := by
  refine ⟨extends_onePeer _ _, served_serving _ _, not_starves_onePeer _ _, .ready 1 rfl, ?_⟩
  exact fun m' hm' => not_upTo_of_nothing _ _ (.inr rfl) hm'

/-- Block `1001` comes in and the only peer has block `1`: the second batch is answered with nothing, the download
fails, and block `1` is not added either. -/
theorem empty_batch_stops_sync :
    Extends (sample true) (onePeer (sample true)) (downloading (sample true) (downloadTo 1001))
        (firstBlock (sample true)) 0 ∧
      Served (sample true) (onePeer (sample true)) (serving (sample true) (onePeer (sample true))) id ∧
      InOrder (serving (sample true) (onePeer (sample true))) ∧
      ¬ Starves (serving (sample true) (onePeer (sample true))) (downloadStart 1001) () ∧
      ∃ output, Resolves (serving (sample true) (onePeer (sample true))) (downloadStart 1001) () output () ∧
        ∀ m', (downloading (sample true) (downloadTo 1001)).poll (sample true) (syncCompletes 0 output []) = .ok m' →
          ¬ UpTo (sample true) m'.chain (onePeer (sample true)).chain 1 := by
  refine ⟨extends_onePeer _ _, served_serving _ _, inOrder_serving _ _, not_starves_onePeer _ _, ?_⟩
  obtain ⟨output, w', h⟩ := resolves_of_answered (b := downloadTo 1001) (s := downloadStart 1001) rfl (by decide)
    (not_starves_onePeer (sample true) _)
  have hresult := resolves_slices (b := downloadTo 1001) (stores_onePeer (sample true)) (served_serving _ _)
    (by decide) (by decide) (by decide) rfl (fun _ s w i response w' _ => inOrder_serving _ _ _ w i response w') h
  rcases hresult with ⟨-, hbelow⟩ | ⟨herror, -⟩
  · exact absurd hbelow (show ¬ (1000 < 1) by decide)
  · exact ⟨output, h, fun m' hm' => not_upTo_of_nothing _ _ (.inl herror) hm'⟩

end Simb.Net
