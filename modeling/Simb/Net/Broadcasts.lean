import Simb.BlockTree.Classify
import Simb.Net.Sessions

/-!
# Each header is broadcast once

An incoming header is broadcast on two occasions: when it becomes the new tip, and when its parent is missing.  Only
the second is recorded in `broadcasted_headers`, and only the second looks there.  A header that came in before its
parent is therefore broadcast again if it comes in again just after its parent (`broadcast_twice`).  Nothing else
can go wrong: `broadcast_once_iff` is exact.
-/

namespace Simb.Net

open Simb.BlockTree Simb.Tasks Simb.Lib

variable {P : Platform} {m m' : ChainNetworkManager} {S : Set Header}

/-- A broadcast of a header with the given hash. -/
def Sent.broadcasts (hash : String) : Sent → Bool
  | .broadcastBlockHeader header => header.hash.text = hash
  | _ => false

/-- The number of times `broadcast_block_header` was called for a hash. -/
def broadcasts (hash : String) (sent : List Sent) : ℕ := sent.countP (Sent.broadcasts hash)

/-- The header is the child of the tip. -/
def ChildOfTip (P : Platform) (m : ChainNetworkManager) (header : Header) : Prop :=
  ∃ t, (Chain.tip P).eval m.chain = .ok t ∧ header.number.toNat = t.number.toNat + 1 ∧ header.parentHash = t.hash

/-- After every event of a poll, every hash has been broadcast at most once. -/
def OncePerHash (P : Platform) (r : Except Panic ChainNetworkManager) (x : NetStep) : Prop :=
  ∀ m input, r = .ok m → x = .poll input →
    EveryEvent P (fun m event => ∀ m', m.onEvent P event = .ok m' → ∀ hash, broadcasts hash m'.sent ≤ 1) m input.events

/-- No header that comes in as the child of the tip is recorded as broadcast. -/
def FreshChild (P : Platform) (r : Except Panic ChainNetworkManager) (x : NetStep) : Prop :=
  ∀ m input, r = .ok m → x = .poll input →
    EveryEvent P (fun m event => ∀ header, event = .incomingNewBlockHeader header →
      header.hash.text ∈ m.broadcastedHeaders → ¬ ChildOfTip P m header) m input.events

/-- The headers that come in during the polls are in `S`. -/
def From (S : Set Header) (steps : List NetStep) : Prop :=
  ∀ input, .poll input ∈ steps → ∀ header, .incomingNewBlockHeader header ∈ input.events → header ∈ S

/-! ## Events -/

theorem broadcasts_append (hash : String) (sent new : List Sent) :
    broadcasts hash (sent ++ new) = broadcasts hash sent + broadcasts hash new := List.countP_append

/-- What a header that lacks its parent adds to what was sent. -/
theorem onMissingParent_broadcasts (m : ChainNetworkManager) (header : Header) :
    (header.hash.text ∈ m.broadcastedHeaders ∧ (m.onMissingParent header).broadcastedHeaders = m.broadcastedHeaders ∧
        ∀ hash, broadcasts hash (m.onMissingParent header).sent = broadcasts hash m.sent) ∨
      (header.hash.text ∉ m.broadcastedHeaders ∧
        (m.onMissingParent header).broadcastedHeaders = insert header.hash.text m.broadcastedHeaders ∧
        ∀ hash, broadcasts hash (m.onMissingParent header).sent =
          broadcasts hash m.sent + if header.hash.text = hash then 1 else 0) := by
  rw [ChainNetworkManager.onMissingParent_eq]
  by_cases hmem : header.hash.text ∈ m.broadcastedHeaders
  · refine .inl ⟨hmem, Finset.insert_eq_of_mem hmem, fun hash => ?_⟩
    rw [if_pos hmem]
    split <;> simp [broadcasts, Sent.broadcasts]
  · refine .inr ⟨hmem, rfl, fun hash => ?_⟩
    rw [if_neg hmem]
    split <;> simp [broadcasts, Sent.broadcasts, List.countP_cons]

/-- The event makes the manager broadcast a header. -/
def Broadcasts (m m' : ChainNetworkManager) (header : Header) : Prop :=
  ∀ hash, broadcasts hash m'.sent = broadcasts hash m.sent + if header.hash.text = hash then 1 else 0

/-- The ways in which an event can lead to a broadcast. -/
theorem onEvent_broadcasts {L : List Header} (h : m.chain.Stores P L) {event : ChainNetworkEvent}
    (he : m.onEvent P event = .ok m') :
    ∃ L', m'.chain.Stores P L' ∧ L.length ≤ L'.length ∧
      ((∃ header, event = .incomingNewBlockHeader header ∧ validate P L header = .ok () ∧ height header = L.length ∧
          L.length < L'.length ∧ m'.broadcastedHeaders = m.broadcastedHeaders ∧ Broadcasts m m' header) ∨
        (∃ header, event = .incomingNewBlockHeader header ∧
          validate P L header = .error (.error .blockHeaderNotFound) ∧ header.hash.text ∉ m.broadcastedHeaders ∧
          m'.broadcastedHeaders = insert header.hash.text m.broadcastedHeaders ∧ Broadcasts m m' header) ∨
        (m'.broadcastedHeaders = m.broadcastedHeaders ∧ ∀ hash, broadcasts hash m'.sent = broadcasts hash m.sent)) := by
  cases event with
  | incomingNewBlockHeader header =>
    rcases onNewBlockHeader_ledger h he with ⟨hv, hheight, rfl⟩ | ⟨hv, hlt, rfl⟩ | ⟨hv, rfl⟩ | ⟨-, rfl⟩
    · have hst := h.insertHeader (height_le_of_validate hv)
      have hlen := length_put (height_le_of_validate hv)
      refine ⟨_, hst, by omega, .inl ⟨header, rfl, hv, hheight, by omega, rfl, ?_⟩⟩
      intro hash
      simp [ChainNetworkManager.broadcast, broadcasts, Sent.broadcasts, List.countP_cons]
    · have hst := h.insertHeader (height_le_of_validate hv)
      have hlen := length_put (height_le_of_validate hv)
      exact ⟨_, hst, by omega, .inr (.inr ⟨rfl, fun _ => rfl⟩)⟩
    · have hst : (m.onMissingParent header).chain.Stores P L := by
        rw [ChainNetworkManager.chain_onMissingParent]
        exact h
      refine ⟨L, hst, le_rfl, .inr ?_⟩
      rcases onMissingParent_broadcasts m header with ⟨-, hset, hcount⟩ | ⟨hnot, hset, hcount⟩
      · exact .inr ⟨hset, hcount⟩
      · exact .inl ⟨header, rfl, hv, hnot, hset, hcount⟩
    · exact ⟨L, h, le_rfl, .inr (.inr ⟨rfl, fun _ => rfl⟩)⟩
  | incomingTransactions transactions =>
    cases he
    refine ⟨L, h, le_rfl, .inr (.inr ⟨rfl, fun hash => ?_⟩)⟩
    simp [ChainNetworkManager.broadcast, broadcasts, Sent.broadcasts]
  | getBlockHeaders channel request =>
    obtain ⟨headers, -, he⟩ := exists_of_bind_eq_ok he
    cases he
    refine ⟨L, h, le_rfl, .inr (.inr ⟨rfl, fun hash => ?_⟩)⟩
    simp [broadcasts, Sent.broadcasts]

theorem childOfTip_iff {L : List Header} (h : m.chain.Stores P L) (header : Header) :
    ChildOfTip P m header ↔ validate P L header = .ok () ∧ height header = L.length := by
  have hnum := h.number_getLast
  have hpos := h.length_pos
  have hlast := h.getElem?_getLast
  constructor
  · rintro ⟨t, ht, hn, hparent⟩
    rw [eval_tip_eq_ok h] at ht
    subst ht
    have hheight : height header = L.length := by
      unfold height
      omega
    refine ⟨validate_of_parent ?_ (by rw [hheight]; exact hlast) hparent.symm, hheight⟩
    intro h0
    rw [h0] at hn
    cases hn
  · rintro ⟨hv, hheight⟩
    refine ⟨_, (eval_tip_eq_ok h).2 rfl, ?_, parent_of_validate hv (by omega) (by rw [hheight]; exact hlast)⟩
    unfold height at hheight
    omega

/-! ## What a manager keeps -/

/-- Every hash was broadcast at most once, and a header that was broadcast is recorded or has a place in the chain. -/
structure Once (P : Platform) (S : Set Header) (m : ChainNetworkManager) : Prop where
  once : ∀ hash, broadcasts hash m.sent ≤ 1
  known : ∃ L, m.chain.Stores P L ∧ ∀ header ∈ S, 0 < broadcasts header.hash.text m.sent →
    header.hash.text ∈ m.broadcastedHeaders ∨ 0 < height header ∧ height header < L.length

/-- Growth of the chain and nothing else. -/
theorem Once.of_grows (h : Once P S m) (hsent : m'.sent = m.sent)
    (hset : m'.broadcastedHeaders = m.broadcastedHeaders)
    (hgrows : ∀ L, m.chain.Stores P L → ∃ L', m'.chain.Stores P L' ∧ L.length ≤ L'.length) : Once P S m' := by
  obtain ⟨honce, L, hL, hknown⟩ := h
  obtain ⟨L', hL', hle⟩ := hgrows L hL
  refine ⟨by rw [hsent]; exact honce, L', hL', ?_⟩
  rw [hsent, hset]
  intro header hheader hpos
  rcases hknown header hheader hpos with hmem | ⟨h0, hlt⟩
  · exact .inl hmem
  · exact .inr ⟨h0, by omega⟩

/-- A header whose parent is missing has no place in the chain. -/
theorem not_lt_of_missing {L : List Header} {header : Header}
    (hv : validate P L header = .error (.error .blockHeaderNotFound)) :
    ¬ (0 < height header ∧ height header < L.length) := by
  rintro ⟨hpos, hlt⟩
  rw [validate_eq_notFound_iff (height_pos_iff.mp hpos)] at hv
  omega

/-- A header that was not broadcast before is broadcast, and is recorded or has a place in the chain then. -/
theorem Once.broadcast (hS : Set.InjOn Header.hash S) {L L' : List Header} {header : Header} (hheader : header ∈ S)
    (honce : ∀ hash, broadcasts hash m.sent ≤ 1) (hzero : broadcasts header.hash.text m.sent = 0)
    (hknown : ∀ header ∈ S, 0 < broadcasts header.hash.text m.sent →
      header.hash.text ∈ m.broadcastedHeaders ∨ 0 < height header ∧ height header < L.length)
    (hL' : m'.chain.Stores P L') (hle : L.length ≤ L'.length) (hsub : m.broadcastedHeaders ⊆ m'.broadcastedHeaders)
    (hnew : header.hash.text ∈ m'.broadcastedHeaders ∨ 0 < height header ∧ height header < L'.length)
    (hcount : Broadcasts m m' header) : Once P S m' := by
  refine ⟨?_, L', hL', ?_⟩
  · intro hash
    rw [hcount]
    split
    · rename_i heq
      rw [← heq, hzero]
    · exact honce hash
  · intro header' hheader' hpos
    by_cases heq : header.hash.text = header'.hash.text
    · obtain rfl := hS hheader hheader' (Str.ext_iff.mpr heq)
      exact hnew
    · rw [hcount, if_neg heq] at hpos
      rcases hknown header' hheader' hpos with hmem | ⟨h0, hlt⟩
      · exact .inl (hsub hmem)
      · exact .inr ⟨h0, by omega⟩

theorem Once.onEvent (hS : Set.InjOn Header.hash S) (h : Once P S m) {event : ChainNetworkEvent}
    (hfrom : ∀ header, event = .incomingNewBlockHeader header → header ∈ S)
    (hfresh : ∀ header, event = .incomingNewBlockHeader header → header.hash.text ∈ m.broadcastedHeaders →
      ¬ ChildOfTip P m header)
    (he : m.onEvent P event = .ok m') : Once P S m' := by
  obtain ⟨honce, L, hL, hknown⟩ := h
  have hpos := hL.length_pos
  obtain ⟨L', hL', hle, hcases⟩ := onEvent_broadcasts hL he
  rcases hcases with ⟨header, rfl, hv, hheight, hlt, hset, hcount⟩ | ⟨header, rfl, hv, hnot, hset, hcount⟩ |
    ⟨hset, hcount⟩
  · -- the new tip: it is not recorded, and had no place in the chain
    have hheader := hfrom header rfl
    have hzero : broadcasts header.hash.text m.sent = 0 := by
      by_contra hne
      rcases hknown header hheader (Nat.pos_of_ne_zero hne) with hmem | ⟨-, hlt'⟩
      · exact hfresh header rfl hmem ((childOfTip_iff hL header).2 ⟨hv, hheight⟩)
      · omega
    exact Once.broadcast hS hheader honce hzero hknown hL' hle (by rw [hset]) (.inr ⟨by omega, by omega⟩) hcount
  · -- a missing parent: it is not recorded, and has no place in the chain
    have hheader := hfrom header rfl
    have hzero : broadcasts header.hash.text m.sent = 0 := by
      by_contra hne
      rcases hknown header hheader (Nat.pos_of_ne_zero hne) with hmem | hplace
      · exact hnot hmem
      · exact not_lt_of_missing hv hplace
    refine Once.broadcast hS hheader honce hzero hknown hL' hle ?_ (.inl ?_) hcount
    · rw [hset]
      exact Finset.subset_insert _ _
    · rw [hset]
      exact Finset.mem_insert_self _ _
  · refine ⟨fun hash => by rw [hcount]; exact honce hash, L', hL', ?_⟩
    intro header hheader hpos
    rw [hcount] at hpos
    rw [hset]
    rcases hknown header hheader hpos with hmem | ⟨h0, hlt⟩
    · exact .inl hmem
    · exact .inr ⟨h0, by omega⟩

/-- What is recorded was broadcast. -/
def Recorded (m : ChainNetworkManager) : Prop := ∀ hash ∈ m.broadcastedHeaders, 0 < broadcasts hash m.sent

theorem Recorded.onEvent (hledger : HasLedger P m) (h : Recorded m) {event : ChainNetworkEvent}
    (he : m.onEvent P event = .ok m') : Recorded m' := by
  obtain ⟨L, hL⟩ := hledger
  obtain ⟨L', -, -, hcases⟩ := onEvent_broadcasts hL he
  intro hash hmem
  rcases hcases with ⟨header, -, -, -, -, hset, hcount⟩ | ⟨header, -, -, -, hset, hcount⟩ | ⟨hset, hcount⟩
  · rw [hset] at hmem
    rw [hcount]
    exact Nat.add_pos_left (h hash hmem) _
  · rw [hset] at hmem
    rw [hcount]
    rcases Finset.mem_insert.mp hmem with rfl | hmem
    · rw [if_pos rfl]
      omega
    · exact Nat.add_pos_left (h hash hmem) _
  · rw [hset] at hmem
    rw [hcount]
    exact h hash hmem

/-! ## Whole runs -/

/-- A poll, once its events are handled, broadcasts nothing more. -/
theorem poll_broadcasts {input : PollInput} (he : m.poll P input = .ok m') :
    ∃ m₁, m.pollEvents P input.events = .ok m₁ ∧ m'.sent = m₁.sent ∧
      m'.broadcastedHeaders = m₁.broadcastedHeaders ∧
      ∀ L, m₁.chain.Stores P L → ∃ L', m'.chain.Stores P L' ∧ L.length ≤ L'.length := by
  obtain ⟨m₁, h₁, he⟩ := exists_of_bind_eq_ok he
  obtain ⟨m₂, h₂, he⟩ := exists_of_bind_eq_ok he
  obtain ⟨m₃, h₃, he⟩ := exists_of_bind_eq_ok he
  cases he
  obtain ⟨requests, closest, rfl⟩ := pollPeers_eq h₂
  obtain ⟨added, requests', latch, rfl⟩ := pollSyncs_eq h₃
  obtain ⟨rest, hrest⟩ := ChainNetworkManager.pollBroadcasts_eq _ input.broadcasts
  rw [hrest]
  exact ⟨m₁, h₁, rfl, rfl, fun L hL => hL.foldl_addTo added⟩

/-- A header that is recorded and comes in as the child of the tip is broadcast again. -/
theorem freshChild_of_oncePerHash {db : Db} (h : Reachable P db) (pool : PoolTx) {steps : List NetStep}
    (hsteps : EveryStep (NetStep.apply P) (OncePerHash P) (.ok (.new db pool)) steps) :
    EveryStep (NetStep.apply P) (FreshChild P) (.ok (.new db pool)) steps := by
  have hkeeps : ∀ (C : ChainNetworkManager → ChainNetworkEvent → Prop) (m : ChainNetworkManager)
      (event : ChainNetworkEvent) (m' : ChainNetworkManager), HasLedger P m ∧ Recorded m → C m event →
        m.onEvent P event = .ok m' → HasLedger P m' ∧ Recorded m' :=
    fun C m event m' hI _ he => ⟨hI.1.onEvent he, hI.2.onEvent hI.1 he⟩
  refine everyStep_poll_of_invariant (I := fun m => HasLedger P m ∧ Recorded m) ?_ ?_ ?_ ?_ hsteps
  · intro m input m' hm _ hm'
    obtain ⟨m₁, h₁, hsent, hset, -⟩ := poll_broadcasts hm'
    have hm₁ := EveryEvent.pollEvents (hkeeps _) hm (everyEvent_true P m input.events) h₁
    refine ⟨hm.1.poll hm', ?_⟩
    unfold Recorded
    rw [hsent, hset]
    exact hm₁.2
  · exact fun m header hm => ⟨exists_stores_addTo hm.1, hm.2⟩
  · intro m input hm hx
    refine EveryEvent.of_invariant (hkeeps _) ?_ hm (hx m input rfl rfl)
    rintro m _ ⟨⟨L, hL⟩, hrecorded⟩ honce header rfl hmem hchild
    obtain ⟨hv, hheight⟩ := (childOfTip_iff hL header).1 hchild
    have hcount := honce _ (onNewBlockHeader_of_extends hL hv hheight) header.hash.text
    have hold := hrecorded _ hmem
    simp only [ChainNetworkManager.broadcast, broadcasts_append] at hcount
    simp only [broadcasts, Sent.broadcasts, List.countP_singleton, decide_true, if_true] at hcount hold
    omega
  · exact ⟨h.stores, fun hash hmem => absurd hmem (Finset.notMem_empty _)⟩

theorem oncePerHash_of_freshChild {db : Db} (h : Reachable P db) (pool : PoolTx) (hS : Set.InjOn Header.hash S)
    {steps : List NetStep} (hfrom : From S steps)
    (hsteps : EveryStep (NetStep.apply P) (FreshChild P) (.ok (.new db pool)) steps) :
    EveryStep (NetStep.apply P) (OncePerHash P) (.ok (.new db pool)) steps := by
  have hmem : ∀ x ∈ steps, ∀ input, x = .poll input →
      ∀ event ∈ input.events, ∀ header, event = .incomingNewBlockHeader header → header ∈ S := by
    rintro _ hx input rfl _ hevent header rfl
    exact hfrom input hx header hevent
  have hkeeps : ∀ m event m', Once P S m →
      ((∀ header, event = .incomingNewBlockHeader header → header.hash.text ∈ m.broadcastedHeaders →
        ¬ ChildOfTip P m header) ∧ ∀ header, event = .incomingNewBlockHeader header → header ∈ S) →
      m.onEvent P event = .ok m' → Once P S m' :=
    fun m event m' honce hevent he => honce.onEvent hS hevent.2 hevent.1 he
  refine everyStep_poll_of_invariant (I := fun m => Once P S m) ?_ ?_ ?_ ?_ (hsteps.and_mem hmem)
  · rintro m input m' hm ⟨hx, hin⟩ hm'
    obtain ⟨m₁, h₁, hsent, hset, hgrows⟩ := poll_broadcasts hm'
    refine Once.of_grows ?_ hsent hset hgrows
    exact EveryEvent.pollEvents hkeeps hm ((hx m input rfl rfl).and_mem (hin input rfl)) h₁
  · exact fun m header hm => hm.of_grows rfl rfl fun L hL => ⟨_, hL.addTo header, length_le_addHeader L header⟩
  · rintro m input hm ⟨hx, hin⟩
    refine EveryEvent.of_invariant hkeeps ?_ hm ((hx m input rfl rfl).and_mem (hin input rfl))
    exact fun m event honce hevent m' he => (hkeeps m event m' honce hevent he).once
  · obtain ⟨L, hL⟩ := h.stores
    exact ⟨fun _ => Nat.zero_le _, L, hL, fun header _ hpos => absurd hpos (Nat.lt_irrefl 0)⟩

/-- **When each header is broadcast once.**  In a run of a manager in which the headers that come in have distinct
hashes, `broadcast_block_header` is called at most once for each hash exactly if no header that comes in as the child
of the tip was recorded before, when its parent was missing. -/
theorem broadcast_once_iff {db : Db} (h : Reachable P db) (pool : PoolTx) (hS : Set.InjOn Header.hash S)
    (steps : List NetStep) (hfrom : From S steps) :
    EveryStep (NetStep.apply P) (OncePerHash P) (.ok (.new db pool)) steps ↔
      EveryStep (NetStep.apply P) (FreshChild P) (.ok (.new db pool)) steps :=
  ⟨freshChild_of_oncePerHash h pool, oncePerHash_of_freshChild h pool hS hfrom⟩

/-! ### A block before its parent -/

section

variable (P : Platform)

/-- Blocks `1` and `2`. -/
def twoBlocks : Set Header := {firstBlock P, secondBlock}

theorem injOn_twoBlocks : Set.InjOn Header.hash (twoBlocks P) := by
  have hne : (firstBlock P).hash ≠ secondBlock.hash := by
    intro heq
    exact absurd (Str.ext_iff.mp heq) (show ¬ ("a1" : String) = "a2" by decide)
  rintro a (rfl | rfl) b (rfl | rfl) heq
  · rfl
  · exact absurd heq hne
  · exact absurd heq.symm hne
  · rfl

/-- Block `2` comes in, then block `1`, then block `2` again. -/
def childComesAgain : PollInput :=
  ⟨[.incomingNewBlockHeader secondBlock, .incomingNewBlockHeader (firstBlock P), .incomingNewBlockHeader secondBlock],
    none, [], []⟩

/-- Block `2` comes in, then block `1`. -/
def childComesFirst : PollInput :=
  ⟨[.incomingNewBlockHeader secondBlock, .incomingNewBlockHeader (firstBlock P)], none, [], []⟩

theorem from_twoBlocks {input : PollInput}
    (h : ∀ header, .incomingNewBlockHeader header ∈ input.events → header = firstBlock P ∨ header = secondBlock) :
    From (twoBlocks P) [.poll input] := by
  intro input' hinput header hheader
  cases List.mem_singleton.mp hinput
  exact h header hheader

theorem childComesFirst_fresh :
    FreshChild P (.ok (.new (Chain.new P Db.empty) ∅)) (.poll (childComesFirst P)) := by
  rintro _ _ ⟨⟩ ⟨⟩
  refine ⟨fun header _ hmem => absurd hmem (Finset.notMem_empty _), fun m' hm' => ⟨?_, fun _ _ => trivial⟩⟩
  rintro _ ⟨⟩ hmem
  have h₁ := onNewBlockHeader_secondBlock (m := .new (Chain.new P Db.empty) ∅) P rfl
  cases h₁.symm.trans hm'
  exact absurd (Finset.mem_singleton.mp hmem) (show ¬ ("a1" : String) = "a2" by decide)

theorem childComesAgain_twice (hchain : m.chain = Chain.new P Db.empty) (hnot : "a2" ∉ m.broadcastedHeaders) :
    ¬ OncePerHash P (.ok m) (.poll (childComesAgain P)) := by
  intro h
  have hst₀ : m.chain.Stores P [Chain.genesis P] := by
    rw [hchain]
    exact stores_new P
  have h₁ := onNewBlockHeader_secondBlock P hchain
  have hst₁ : (m.onMissingParent secondBlock).chain.Stores P [Chain.genesis P] := by
    rw [ChainNetworkManager.chain_onMissingParent]
    exact hst₀
  have h₂ := onNewBlockHeader_of_extends hst₁ (validate_firstBlock P []) rfl
  have hst₂ := hst₁.insertHeader (height_le_of_validate (validate_firstBlock P []))
  have hv : validate P [Chain.genesis P, firstBlock P] secondBlock = .ok () :=
    validate_of_parent (show (2 : UInt64) ≠ 0 by decide) rfl rfl
  have h₃ := onNewBlockHeader_of_extends (m := { m.onMissingParent secondBlock with
    chain := _ }.broadcast (.broadcastBlockHeader (firstBlock P))) hst₂ hv rfl
  have hcount := (((h _ _ rfl rfl).2 _ h₁).2 _ h₂).1 _ h₃ "a2"
  rcases onMissingParent_broadcasts m secondBlock with ⟨hmem, -⟩ | ⟨-, -, hfirst⟩
  · exact hnot hmem
  · have hsecond : broadcasts "a2" [.broadcastBlockHeader secondBlock] = 1 := rfl
    simp only [ChainNetworkManager.broadcast, broadcasts_append] at hcount
    rw [hfirst "a2", hsecond, if_pos (show secondBlock.hash.text = "a2" from rfl)] at hcount
    omega

end

/-- Block `2` comes in, and then its parent: each of them is broadcast once. -/
theorem broadcast_once_two_blocks :
    EveryStep (NetStep.apply (sample true)) (OncePerHash (sample true)) (.ok (.new (Chain.new (sample true) Db.empty) ∅))
      [.poll (childComesFirst (sample true))] := by
  refine (broadcast_once_iff (S := twoBlocks (sample true)) .new ∅ (injOn_twoBlocks _) _ ?_).2 ⟨?_, trivial⟩
  · exact from_twoBlocks _ fun header hheader => by simpa [childComesFirst, or_comm] using hheader
  · exact childComesFirst_fresh _

/-- Block `2` comes in before block `1`, and again after it: it is broadcast when its parent is missing, and when it
becomes the new tip. -/
theorem broadcast_twice :
    Linked Header.hash Header.parentHash [Chain.genesis (sample true), firstBlock (sample true), secondBlock] ∧
      Set.InjOn Header.hash (twoBlocks (sample true)) ∧
      From (twoBlocks (sample true)) [.poll (childComesAgain (sample true))] ∧
      ¬ EveryStep (NetStep.apply (sample true)) (OncePerHash (sample true))
        (.ok (.new (Chain.new (sample true) Db.empty) ∅)) [.poll (childComesAgain (sample true))] := by
  refine ⟨linked_secondBlock _, injOn_twoBlocks _, ?_, ?_⟩
  · exact from_twoBlocks _ fun header hheader => by simpa [childComesAgain, or_comm] using hheader
  · rintro ⟨htwice, -⟩
    exact childComesAgain_twice (sample true) rfl (Finset.notMem_empty _) htwice

end Simb.Net
