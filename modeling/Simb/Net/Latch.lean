import Simb.BlockTree.Links
import Simb.Net.ChainSpec

/-!
# The latch of the sync process

`pending_sync_request` is set when the manager asks for the closest peers to sync from, and while it is set no
other sync is started.  It is released in one place only, when a download succeeds.  A session can end
otherwise: the closest peers request fails or finds nobody, or all downloads fail.  Then the latch stays set
with nothing in flight that could release it, and no later header starts a sync again.

`everyState_notWedged_iff` says exactly in which runs this does not happen.
-/

namespace Simb.Net

open Simb.BlockTree Simb.Tasks Simb.Lib

/-- If the latch is set, something is in flight. -/
def NotWedged (m : ChainNetworkManager) : Prop :=
  m.pendingSyncRequest = true → m.closestPeersRequestForSync ≠ none ∨ m.syncRequests ≠ []

/-- What can happen to a manager: it is polled, or a header is added to its chain elsewhere. -/
inductive NetStep where
  | poll (input : PollInput)
  | addElsewhere (header : Header)

/-- The manager after a step, unless it has panicked. -/
def NetStep.apply (P : Platform) (r : Except Panic ChainNetworkManager) (x : NetStep) :
    Except Panic ChainNetworkManager :=
  match r, x with
  | .error p, _ => .error p
  | .ok m, .poll input => m.poll P input
  | .ok m, .addElsewhere header => .ok { m with chain := addTo P m.chain header }

/-- The `n` downloads in flight all complete, each with an error. -/
def AllFail : ℕ → List (ℕ × SyncHeaderOutput) → Prop
  | 0, _ => True
  | _ + 1, [] => False
  | n + 1, (i, output) :: syncs => i < n + 1 ∧ (∃ e, output = .error e) ∧ AllFail n syncs

/-- The number of downloads that the answer of the closest peers request starts. -/
def started (m : ChainNetworkManager) (peers : Option (RequestResponse (List PeerId))) : ℕ :=
  match m.closestPeersRequestForSync, peers with
  | some _, some (.ok peers) => peers.length
  | _, _ => 0

/-- No closest peers request stays in flight, and all downloads, those just started included, fail. -/
def EndsInFailure (m : ChainNetworkManager) (input : PollInput) : Prop :=
  (m.closestPeersRequestForSync = none ∨ input.peers ≠ none) ∧
    AllFail (m.syncRequests.length + started m input.peers) input.syncs

/-- A poll that finds the latch set, once its events are handled, is not one in which the session ends in
failure. -/
def EndsWell (P : Platform) (r : Except Panic ChainNetworkManager) (x : NetStep) : Prop :=
  ∀ m input m', r = .ok m → x = .poll input → m.pollEvents P input.events = .ok m' →
    m'.pendingSyncRequest = true → ¬ EndsInFailure m' input

variable {P : Platform} {m m' : ChainNetworkManager}

/-- What a poll that meets `C` preserves, and headers that are added elsewhere too, holds at every poll of a run of such
steps, and so does what follows from it. -/
theorem everyStep_poll_of_invariant {I : ChainNetworkManager → Prop} {D : ChainNetworkManager → PollInput → Prop}
    {C : Except Panic ChainNetworkManager → NetStep → Prop} {steps : List NetStep}
    (hpoll : ∀ m input m', I m → C (.ok m) (.poll input) → m.poll P input = .ok m' → I m')
    (hadd : ∀ m header, I m → I { m with chain := addTo P m.chain header })
    (hD : ∀ m input, I m → C (.ok m) (.poll input) → D m input) (h0 : I m)
    (h : EveryStep (NetStep.apply P) C (.ok m) steps) :
    EveryStep (NetStep.apply P) (fun r x => ∀ m input, r = .ok m → x = .poll input → D m input) (.ok m) steps := by
  refine EveryStep.of_invariant (I := fun r => ∀ m, r = .ok m → I m) ?_ ?_ ?_ h
  · rintro (p | m) x hr hx m' hm'
    · cases hm'
    cases x with
    | poll input => exact hpoll m input m' (hr m rfl) hx hm'
    | addElsewhere header =>
      cases hm'
      exact hadd m header (hr m rfl)
  · rintro _ _ hr hx m input rfl rfl
    exact hD m input (hr m rfl) hx
  · rintro _ ⟨⟩
    exact h0

/-! ## The stages of a poll -/

theorem pollPeers_spec (h : HasLedger P m) (peers : Option (RequestResponse (List PeerId))) :
    ∃ m', m.pollPeers P peers = .ok m' ∧ m'.pendingSyncRequest = m.pendingSyncRequest ∧
      (m'.closestPeersRequestForSync = none ↔ m.closestPeersRequestForSync = none ∨ peers ≠ none) ∧
      m'.syncRequests.length = m.syncRequests.length + started m peers := by
  unfold ChainNetworkManager.pollPeers started
  cases hc : m.closestPeersRequestForSync with
  | none => exact ⟨m, rfl, rfl, by simp [hc], rfl⟩
  | some header =>
    rcases peers with _ | (e | peers)
    · exact ⟨m, rfl, rfl, by simp [hc], rfl⟩
    · exact ⟨_, rfl, rfl, by simp, rfl⟩
    · obtain ⟨t, -, hsend⟩ :=
        HasLedger.sendSyncRequests (m := { m with closestPeersRequestForSync := none }) h header peers
      exact ⟨_, hsend, rfl, by simp, by simp⟩

/-- All downloads fail: they are gone, and the latch is as it was. -/
theorem pollSyncs_of_allFail {syncs : List (ℕ × SyncHeaderOutput)} (h : AllFail m.syncRequests.length syncs) :
    m.pollSyncs P syncs = .ok { m with syncRequests := [] } := by
  induction syncs generalizing m with
  | nil =>
    cases hs : m.syncRequests with
    | nil => simp only [ChainNetworkManager.pollSyncs, ← hs]
    | cons x xs =>
      rw [hs] at h
      exact absurd h fun h => h
  | cons sync syncs ih =>
    obtain ⟨i, output⟩ := sync
    unfold ChainNetworkManager.pollSyncs
    cases hs : m.syncRequests with
    | nil =>
      rw [if_neg (by simp), ← hs]
    | cons x xs =>
      rw [hs] at h
      obtain ⟨hi, ⟨e, rfl⟩, hrest⟩ := h
      have hlen : (m.syncRequests.eraseIdx i).length = xs.length := by
        rw [List.length_eraseIdx_of_lt (by rw [hs]; exact hi), hs]
        rfl
      rw [← hs, if_pos (by rw [hs]; exact hi)]
      exact ih (m := { m with syncRequests := m.syncRequests.eraseIdx i }) (by rw [hlen]; exact hrest)

/-- The latch is set after the downloads only if it was set before, and if none is left, all have failed. -/
theorem pending_of_pollSyncs {syncs : List (ℕ × SyncHeaderOutput)} (he : m.pollSyncs P syncs = .ok m')
    (hp : m'.pendingSyncRequest = true) :
    m.pendingSyncRequest = true ∧ m'.closestPeersRequestForSync = m.closestPeersRequestForSync ∧
      (m'.syncRequests = [] → AllFail m.syncRequests.length syncs) := by
  induction syncs generalizing m with
  | nil =>
    cases he
    refine ⟨hp, rfl, ?_⟩
    intro hs
    rw [hs]
    trivial
  | cons sync syncs ih =>
    obtain ⟨i, output⟩ := sync
    rcases pollSyncs_cons he with ⟨hi, m₁, hrest, hlen, hm₁⟩ | ⟨-, rfl⟩
    · obtain ⟨hp₁, hc₁, hfail⟩ := ih hrest
      rcases hm₁ with ⟨herr, rfl⟩ | ⟨-, added, rfl⟩
      · refine ⟨hp₁, hc₁, ?_⟩
        intro hs
        have hothers := hfail hs
        rw [hlen] at hothers
        obtain ⟨n, hn⟩ := Nat.exists_eq_succ_of_ne_zero (Nat.ne_of_gt (Nat.lt_of_le_of_lt (Nat.zero_le i) hi))
        rw [hn] at hothers hi ⊢
        exact ⟨hi, herr, hothers⟩
      · simp at hp₁
    · refine ⟨hp, rfl, ?_⟩
      intro hs
      rw [hs]
      trivial

/-- A poll leaves the latch set with nothing in flight exactly if, with the latch set after its events, the
session ends in failure. -/
theorem notWedged_poll_iff (h : HasLedger P m) (input : PollInput) :
    (∀ m', m.poll P input = .ok m' → NotWedged m') ↔
      ∀ m', m.pollEvents P input.events = .ok m' → m'.pendingSyncRequest = true → ¬ EndsInFailure m' input := by
  constructor
  · intro hpoll m₁ h₁ hp ⟨hpeers, hfail⟩
    obtain ⟨m₂, h₂, hp₂, hc₂, hlen₂⟩ := pollPeers_spec (h.pollEvents h₁) input.peers
    rw [← hlen₂] at hfail
    have h₃ := pollSyncs_of_allFail (P := P) hfail
    obtain ⟨rest, hrest⟩ := ChainNetworkManager.pollBroadcasts_eq { m₂ with syncRequests := [] } input.broadcasts
    have hok : m.poll P input = .ok { m₂ with syncRequests := [], broadcastRequests := rest } := by
      unfold ChainNetworkManager.poll
      rw [h₁]
      show m₁.pollPeers P input.peers >>= _ = _
      rw [h₂]
      show m₂.pollSyncs P input.syncs >>= _ = _
      rw [h₃]
      exact congrArg Except.ok hrest
    rcases hpoll _ hok (hp₂.trans hp) with hc | hs
    · exact hc (hc₂.2 hpeers)
    · exact hs rfl
  · intro hgood m' hpoll hp
    obtain ⟨m₁, h₁, hpoll⟩ := exists_of_bind_eq_ok hpoll
    obtain ⟨m₂, h₂, hpoll⟩ := exists_of_bind_eq_ok hpoll
    obtain ⟨m₃, h₃, hpoll⟩ := exists_of_bind_eq_ok hpoll
    obtain ⟨rest, hrest⟩ := m₃.pollBroadcasts_eq input.broadcasts
    cases hpoll
    rw [hrest] at hp ⊢
    obtain ⟨hp₂, hc₃, hfail⟩ := pending_of_pollSyncs h₃ hp
    obtain ⟨m₂', h₂', hpend, hc₂, hlen₂⟩ := pollPeers_spec (h.pollEvents h₁) input.peers
    rw [h₂] at h₂'
    cases h₂'
    by_contra hw
    obtain ⟨hc, hs⟩ := not_or.mp hw
    refine hgood m₁ h₁ (hpend.symm.trans hp₂) ⟨hc₂.1 ?_, ?_⟩
    · rw [← hc₃]
      exact not_not.mp hc
    · rw [← hlen₂]
      exact hfail (not_not.mp hs)

/-! ## Whole runs -/

/-- What `NotWedged` says of a manager that may have panicked. -/
def NeverWedged (r : Except Panic ChainNetworkManager) : Prop := ∀ m, r = .ok m → NotWedged m

/-- **When the latch is never stuck.**  In a run of a manager on a reachable chain, after every step something is
in flight or the latch is open exactly if in no poll the session ends in failure. -/
theorem everyState_notWedged_iff {db : Db} (h : Reachable P db) (pool : PoolTx) (steps : List NetStep) :
    EveryState (NetStep.apply P) NeverWedged (.ok (.new db pool)) steps ↔
      EveryStep (NetStep.apply P) (EndsWell P) (.ok (.new db pool)) steps := by
  have hledger : ∀ r x, (∀ m, r = .ok m → HasLedger P m) → ∀ m, NetStep.apply P r x = .ok m → HasLedger P m := by
    rintro (p | m) x hr m' hm'
    · cases hm'
    · cases x with
      | poll input => exact (hr m rfl).poll hm'
      | addElsewhere header =>
        cases hm'
        exact exists_stores_addTo (hr m rfl)
  have hstep : ∀ r x, (∀ m, r = .ok m → HasLedger P m) → NeverWedged r →
      (NeverWedged (NetStep.apply P r x) ↔ EndsWell P r x) := by
    rintro (p | m) x hr hw
    · exact ⟨fun _ m _ _ hm => (by cases hm), fun _ m hm => by cases hm⟩
    · cases x with
      | poll input =>
        refine (notWedged_poll_iff (hr m rfl) input).trans ⟨?_, fun h m' => h m input m' rfl rfl⟩
        rintro h _ _ m' ⟨⟩ ⟨⟩
        exact h m'
      | addElsewhere header =>
        refine ⟨fun _ _ _ _ _ hx => (by cases hx), fun _ m' hm' => ?_⟩
        cases hm'
        exact hw m rfl
  refine everyState_iff_everyStep hledger hstep ?_ ?_
  · rintro _ ⟨⟩
    exact h.stores
  · rintro _ ⟨⟩ hp
    cases hp

/-! ### A closest peers request that fails -/

/-- Block `2` comes in on a fresh chain, and its parent is not there. -/
theorem onNewBlockHeader_secondBlock (P : Platform) (h : m.chain = Chain.new P Db.empty) :
    m.onNewBlockHeader P secondBlock = .ok (m.onMissingParent secondBlock) := by
  refine onNewBlockHeader_of_missing (L := [Chain.genesis P]) (by rw [h]; exact stores_new P) ?_
  rw [validate_of_ne_zero (show (2 : UInt64) ≠ 0 by decide)]
  rfl

theorem pollEvents_secondBlock (P : Platform) (h : m.chain = Chain.new P Db.empty) :
    m.pollEvents P [.incomingNewBlockHeader secondBlock] = .ok (m.onMissingParent secondBlock) := by
  show m.onNewBlockHeader P secondBlock >>= _ = _
  rw [onNewBlockHeader_secondBlock P h]
  rfl

/-- A poll with block `2` coming in, and nothing else. -/
def secondBlockComes : PollInput := ⟨[.incomingNewBlockHeader secondBlock], none, [], []⟩

theorem poll_secondBlock (P : Platform) (h : m.chain = Chain.new P Db.empty) :
    m.poll P secondBlockComes = .ok (m.onMissingParent secondBlock) := by
  show m.pollEvents P [.incomingNewBlockHeader secondBlock] >>= _ = _
  rw [pollEvents_secondBlock P h]
  show (m.onMissingParent secondBlock).pollPeers P none >>= _ = _
  rw [ChainNetworkManager.pollPeers_none]
  rfl

/-- The session that block `2` starts is waiting for the closest peers. -/
theorem notWedged_secondBlock :
    EveryState (NetStep.apply (sample true)) NeverWedged (.ok (.new (Chain.new (sample true) Db.empty) ∅))
      [.poll secondBlockComes] := by
  refine (everyState_notWedged_iff .new ∅ _).2 ⟨?_, trivial⟩
  rintro _ _ m' ⟨⟩ ⟨⟩ hm' - ⟨hpeers, -⟩
  have hm : m' = _ := Except.ok.inj (hm'.symm.trans (pollEvents_secondBlock _ rfl))
  subst hm
  rcases hpeers with hc | hc
  · cases hc
  · exact hc rfl

/-- The manager after block `2` came in on a fresh chain and the closest peers request failed. -/
def wedged : ChainNetworkManager :=
  { (ChainNetworkManager.new (Chain.new (sample true) Db.empty) ∅).onMissingParent secondBlock with
    closestPeersRequestForSync := none }

/-- The closest peers request times out: the latch stays set with nothing in flight, and when block `2` comes in
again, no sync is started. -/
theorem failed_peers_request_wedges :
    [.poll secondBlockComes, .poll ⟨[], some (.error .timeout), [], []⟩].foldl (NetStep.apply (sample true))
        (.ok (.new (Chain.new (sample true) Db.empty) ∅)) = .ok wedged ∧
      ¬ NotWedged wedged ∧
      wedged.poll (sample true) secondBlockComes = .ok (wedged.onMissingParent secondBlock) ∧
      ¬ NotWedged (wedged.onMissingParent secondBlock) := by
  have hfirst := poll_secondBlock (m := .new (Chain.new (sample true) Db.empty) ∅) (sample true) rfl
  refine ⟨?_, ?_, poll_secondBlock (sample true) rfl, ?_⟩
  · show NetStep.apply _ (ChainNetworkManager.poll _ _ secondBlockComes) _ = _
    rw [hfirst]
    rfl
  · intro h
    rcases h rfl with hc | hs
    · exact hc rfl
    · exact hs rfl
  · intro h
    rcases h rfl with hc | hs
    · exact hc rfl
    · exact hs rfl

end Simb.Net
