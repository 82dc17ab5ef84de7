import Simb.Net.Latch

/-!
# A header that claims to be the first

`validate_adjacent_block_header` lets the genesis block pass and looks up the parent of every other header under
`header.number - 1`.  For another header of number `0` this underflows.  A debug build panics, and the header aborts
the node, by gossip or inside a download.  In a release build the number wraps to the last one, no parent is found
there, and the header is treated as one that is ahead of the chain: it is broadcast, recorded, and starts a session.
So no such header is rejected as it should be (`impostor_never_rejected`).
-/

namespace Simb.Net

open Simb.BlockTree Simb.Tasks Simb.Lib

variable {P : Platform} {m m' : ChainNetworkManager} {header : Header}

/-- A header with the number of the genesis block, other than the genesis block. -/
structure Impostor (P : Platform) (header : Header) : Prop where
  number : header.number = 0
  other : header ≠ Chain.genesis P

/-- What is asked of a node when such a header comes in. -/
structure Rejects (P : Platform) (m : ChainNetworkManager) (header : Header) : Prop where
  /-- Nothing underflows in the validation: a build that checks for it does not panic there. -/
  noUnderflow : (Chain.validateAdjacentBlockHeader { P with overflowChecks := true } header).eval m.chain ≠
    .error (.panic .overflow)
  invalid : (Chain.tryAddBlockHeader P header).eval m.chain = .error (.error .invalid)
  /-- By gossip: the node goes on, and neither broadcasts the header, nor records it, nor asks for peers. -/
  gossip : ∃ m', m.onEvent P (.incomingNewBlockHeader header) = .ok m' ∧ m'.sent = m.sent ∧
    m'.broadcastedHeaders = m.broadcastedHeaders ∧ m'.closestPeersRequestForSync = m.closestPeersRequestForSync
  /-- In a download: when its turn comes, the node goes on. -/
  sync : ∀ headers, ∃ m', m.onSyncOutput P (.ok (header :: headers)) = .ok m'

/-! ## With overflow checks -/

theorem validate_impostor (hov : P.overflowChecks = true) (h : Impostor P header) (db : Db) :
    (Chain.validateAdjacentBlockHeader P header).runOn db = (.error (.panic .overflow), db) := by
  have hsub : (P.sub header.number 1).runOn db = (.error (.panic .overflow), db) := by
    unfold Platform.sub
    rw [if_pos ⟨hov, by rw [h.number]; decide⟩]
    rfl
  unfold Chain.validateAdjacentBlockHeader
  simp only [h.other, if_false]
  exact ChainM.runOn_bind_error hsub

theorem tryAdd_impostor (hov : P.overflowChecks = true) (h : Impostor P header) (db : Db) :
    (Chain.tryAddBlockHeader P header).runOn db = (.error (.panic .overflow), db) := by
  unfold Chain.tryAddBlockHeader
  exact ChainM.runOn_bind_error (validate_impostor hov h db)

/-- The node aborts, by gossip. -/
theorem onEvent_impostor (hov : P.overflowChecks = true) (h : Impostor P header) (m : ChainNetworkManager) :
    m.onEvent P (.incomingNewBlockHeader header) = .error (.chain .overflow) := by
  show m.onNewBlockHeader P header = _
  unfold ChainNetworkManager.onNewBlockHeader
  rw [tryAdd_impostor hov h]

/-- The node aborts, in a download. -/
theorem onSyncOutput_impostor (hov : P.overflowChecks = true) (h : Impostor P header) (m : ChainNetworkManager)
    (headers : List Header) : m.onSyncOutput P (.ok (header :: headers)) = .error (.chain .overflow) := by
  have hadd : m.addHeaders P (header :: headers) = .error (.chain .overflow) := by
    unfold ChainNetworkManager.addHeaders
    rw [tryAdd_impostor hov h]
  show m.addHeaders P (header :: headers) >>= _ = _
  rw [hadd]
  rfl

/-! ## Without -/

/-- The parent is looked for under the last number, which is free. -/
theorem validate_impostor_wraps {L : List Header} (hov : P.overflowChecks = false) (h : Impostor P header)
    (hlt : L.length < 2 ^ 64) : validate P L header = .error (.error .blockHeaderNotFound) := by
  have hlast : (header.number - 1).toNat = 2 ^ 64 - 1 := by
    rw [h.number]
    rfl
  have hnone : L[(header.number - 1).toNat]? = none := by
    rw [hlast, List.getElem?_eq_none_iff]
    omega
  unfold validate
  rw [if_neg h.other, if_neg (by rw [hov]; rintro ⟨⟨⟩, -⟩), hnone]

/-- The header is treated as one whose parent is missing. -/
theorem impostor_missing (hov : P.overflowChecks = false) (hr : Reachable P m.chain) (hb : Below P m.chain)
    (h : Impostor P header) :
    (Chain.tryAddBlockHeader P header).eval m.chain = .error (.error .blockHeaderNotFound) ∧
      m.onEvent P (.incomingNewBlockHeader header) = .ok (m.onMissingParent header) := by
  obtain ⟨L, hL⟩ := hr.stores
  have hv := validate_impostor_wraps hov h ((below_iff hL).1 hb)
  refine ⟨?_, onNewBlockHeader_of_missing hL hv⟩
  rw [eval_tryAddBlockHeader hL, hv]

/-! ## The verdict -/

/-- **No impostor is rejected.**  Whatever chain was reached, the validation underflows on a header of number `0` other
than the genesis block.  With overflow checks the node aborts on it, by gossip and in a download.  Without, below the
last number, it is handled like a header whose parent is missing. -/
theorem impostor_never_rejected (hr : Reachable P m.chain) (h : Impostor P header) :
    ¬ Rejects P m header ∧
      (P.overflowChecks = true →
        m.onEvent P (.incomingNewBlockHeader header) = .error (.chain .overflow) ∧
          ∀ headers, m.onSyncOutput P (.ok (header :: headers)) = .error (.chain .overflow)) ∧
      (P.overflowChecks = false → Below P m.chain →
        (Chain.tryAddBlockHeader P header).eval m.chain = .error (.error .blockHeaderNotFound) ∧
          m.onEvent P (.incomingNewBlockHeader header) = .ok (m.onMissingParent header)) := by
  refine ⟨?_, fun hov => ⟨onEvent_impostor hov h m, onSyncOutput_impostor hov h m⟩,
    fun hov hb => impostor_missing hov hr hb h⟩
  intro hrejects
  have hchecked : Impostor { P with overflowChecks := true } header := ⟨h.number, h.other⟩
  refine hrejects.noUnderflow ?_
  rw [ChainM.eval_eq, validate_impostor rfl hchecked]

/-- A header of number `0` that names the genesis block as its parent. -/
def impostor (P : Platform) : Header := plain 0 ⟨"i0", by decide⟩ (Chain.genesis P).hash

theorem impostor_impostor (P : Platform) : Impostor P (impostor P) where
  number := rfl
  other h := absurd (congrArg Header.timestamp h) (show ¬ (0 : UInt64) = 1705551177 by decide)

/-- A debug build, on a fresh chain. -/
theorem impostor_aborts :
    (ChainNetworkManager.new (Chain.new (sample true) Db.empty) ∅).onEvent (sample true)
      (.incomingNewBlockHeader (impostor (sample true))) = .error (.chain .overflow) :=
  ((impostor_never_rejected (m := .new (Chain.new (sample true) Db.empty) ∅) .new
    (impostor_impostor (sample true))).2.1 rfl).1

/-- Neither a debug build nor a release build rejects it on a fresh chain. -/
theorem impostor_accepted :
    ¬ Rejects (sample true) (.new (Chain.new (sample true) Db.empty) ∅) (impostor (sample true)) ∧
      ¬ Rejects (sample false) (.new (Chain.new (sample false) Db.empty) ∅) (impostor (sample false)) := by
  constructor
  · intro h
    obtain ⟨m', hm', -⟩ := h.gossip
    rw [onEvent_impostor rfl (impostor_impostor _)] at hm'
    cases hm'
  · intro h
    have hb : Below (sample false) (Chain.new (sample false) Db.empty) := (below_iff (stores_new _)).2 (by decide)
    have hmissing := (impostor_missing (m := .new (Chain.new (sample false) Db.empty) ∅) rfl .new hb
      (impostor_impostor _)).1
    cases h.invalid.symm.trans hmissing

end Simb.Net
