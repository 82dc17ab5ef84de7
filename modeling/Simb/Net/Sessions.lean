import Simb.Net.Latch
import Simb.Net.Serving

/-!
# One sync session at a time

A session asks for the closest peers and starts one download for each of them, but the latch that keeps a second
session away is released by the first download that succeeds.  If the others are still in flight then, the next
header without a parent starts a new session beside them (`second_session`).  If whenever a download succeeds no
other stays in flight, a session is only started when the one before is over (`one_session_at_a_time`).
-/

namespace Simb.Net

open Simb.BlockTree Simb.Tasks Simb.Lib

variable {P : Platform} {m m' : ChainNetworkManager}

/-- Of `n` downloads in flight, one completes with headers. -/
def SomeSucceeds : ℕ → List (ℕ × SyncHeaderOutput) → Prop
  | _, [] => False
  | n, (i, output) :: syncs => i < n ∧ ((∃ headers, output = .ok headers) ∨ SomeSucceeds (n - 1) syncs)

/-- All of `n` downloads in flight complete. -/
def AllComplete : ℕ → List (ℕ × SyncHeaderOutput) → Prop
  | 0, _ => True
  | _ + 1, [] => False
  | n + 1, (i, _) :: syncs => i < n + 1 ∧ AllComplete n syncs

/-- In a poll in which a download succeeds, all others in flight complete too. -/
def NoneLeftBehind (P : Platform) (r : Except Panic ChainNetworkManager) (x : NetStep) : Prop :=
  ∀ m input m₁, r = .ok m → x = .poll input → m.pollEvents P input.events = .ok m₁ →
    SomeSucceeds (m₁.syncRequests.length + started m₁ input.peers) input.syncs →
      AllComplete (m₁.syncRequests.length + started m₁ input.peers) input.syncs

/-- With the latch open there is no session, and a session that waits for the closest peers has no download. -/
structure Session (m : ChainNetworkManager) : Prop where
  idle : m.pendingSyncRequest = false → m.closestPeersRequestForSync = none ∧ m.syncRequests = []
  waits : m.closestPeersRequestForSync ≠ none → m.syncRequests = []

/-! ## Events -/

/-- An event leaves the session as it is, or starts one with the latch open. -/
theorem onEvent_cases {event : ChainNetworkEvent} (he : m.onEvent P event = .ok m') :
    ∃ new, m'.sent = m.sent ++ new ∧ m'.syncRequests = m.syncRequests ∧
      (m.closestPeersRequestForSync = none ∧ m.pendingSyncRequest = false ∧ m'.pendingSyncRequest = true ∨
        m'.closestPeersRequestForSync = m.closestPeersRequestForSync ∧
          m'.pendingSyncRequest = m.pendingSyncRequest ∧ .getClosestPeers ∉ new) := by
  cases event with
  | incomingNewBlockHeader header =>
    obtain ⟨r, chain, -, hcases⟩ := ChainNetworkManager.onNewBlockHeader_cases he
    rcases hcases with ⟨-, rfl⟩ | ⟨-, rfl⟩ | ⟨-, rfl⟩ | ⟨-, rfl⟩
    · exact ⟨[.broadcastBlockHeader header], rfl, rfl, .inr ⟨rfl, rfl, by simp⟩⟩
    · exact ⟨[], by simp, rfl, .inr ⟨rfl, rfl, by simp⟩⟩
    · rw [ChainNetworkManager.onMissingParent_eq]
      refine ⟨_, rfl, rfl, ?_⟩
      by_cases hidle : ChainNetworkManager.Idle { m with chain }
      · exact .inl ⟨hidle.1, hidle.2, if_pos hidle⟩
      · refine .inr ⟨if_neg hidle, if_neg hidle, ?_⟩
        rw [if_neg hidle]
        split <;> simp
    · exact ⟨[], by simp, rfl, .inr ⟨rfl, rfl, by simp⟩⟩
  | incomingTransactions transactions =>
    cases he
    exact ⟨[.broadcastTransactions transactions], rfl, rfl, .inr ⟨rfl, rfl, by simp⟩⟩
  | getBlockHeaders channel request =>
    obtain ⟨headers, -, he⟩ := exists_of_bind_eq_ok he
    cases he
    exact ⟨[.response channel headers], rfl, rfl, .inr ⟨rfl, rfl, by simp⟩⟩

theorem Session.onEvent (h : Session m) {event : ChainNetworkEvent} (he : m.onEvent P event = .ok m') : Session m' := by
  obtain ⟨new, -, hsyncs, ⟨hclosest, hpending, hset⟩ | ⟨hclosest, hpending, -⟩⟩ := onEvent_cases he
  · refine ⟨fun hc => ?_, fun _ => ?_⟩
    · rw [hset] at hc
      cases hc
    · rw [hsyncs]
      exact (h.idle hpending).2
  · refine ⟨?_, ?_⟩
    · rw [hclosest, hpending, hsyncs]
      exact h.idle
    · rw [hclosest, hsyncs]
      exact h.waits

theorem Session.pollPeers (h : Session m) {peers : Option (RequestResponse (List PeerId))}
    (he : m.pollPeers P peers = .ok m') : Session m' := by
  unfold ChainNetworkManager.pollPeers at he
  split at he
  · rename_i header peers hclosest
    -- the latch is closed, as the closest peers were asked for
    have hset : m.pendingSyncRequest ≠ false := by
      intro hc
      rw [(h.idle hc).1] at hclosest
      cases hclosest
    obtain ⟨t, -, he⟩ := exists_of_bind_eq_ok he
    cases he
    exact ⟨fun hc => absurd hc hset, fun hc => absurd rfl hc⟩
  · rename_i header e hclosest
    have hset : m.pendingSyncRequest ≠ false := by
      intro hc
      rw [(h.idle hc).1] at hclosest
      cases hclosest
    cases he
    exact ⟨fun hc => absurd hc hset, fun hc => absurd rfl hc⟩
  · cases he
    exact h

theorem AllComplete.of_empty {n : ℕ} (h : AllComplete n []) : n = 0 := by
  cases n with
  | zero => rfl
  | succ n => exact h.elim

theorem AllComplete.cons {n i : ℕ} {output : SyncHeaderOutput} {syncs : List (ℕ × SyncHeaderOutput)}
    (h : AllComplete n ((i, output) :: syncs)) : n = 0 ∨ i < n ∧ AllComplete (n - 1) syncs := by
  cases n with
  | zero => exact .inl rfl
  | succ n => exact .inr h

theorem pollSyncs_session {syncs : List (ℕ × SyncHeaderOutput)} (he : m.pollSyncs P syncs = .ok m') :
    m'.closestPeersRequestForSync = m.closestPeersRequestForSync ∧
      (m'.pendingSyncRequest = false → m.pendingSyncRequest = false ∨ SomeSucceeds m.syncRequests.length syncs) ∧
      (AllComplete m.syncRequests.length syncs → m'.syncRequests = []) := by
  induction syncs generalizing m with
  | nil =>
    cases he
    exact ⟨rfl, .inl, fun hall => List.length_eq_zero_iff.mp hall.of_empty⟩
  | cons sync syncs ih =>
    obtain ⟨i, output⟩ := sync
    rcases pollSyncs_cons he with ⟨hi, m₁, hrest, hlen, hm₁⟩ | ⟨hi, rfl⟩
    · obtain ⟨hclosest, hpending, hall⟩ := ih hrest
      rw [hlen] at hpending hall
      have hdone : AllComplete m.syncRequests.length ((i, output) :: syncs) → m'.syncRequests = [] := by
        intro hc
        rcases hc.cons with h0 | ⟨-, hc⟩
        · omega
        · exact hall hc
      rcases hm₁ with ⟨-, rfl⟩ | ⟨hok, added, rfl⟩
      · exact ⟨hclosest, fun hc => (hpending hc).imp_right fun hs => ⟨hi, .inr hs⟩, hdone⟩
      · exact ⟨hclosest, fun _ => .inr ⟨hi, .inl hok⟩, hdone⟩
    · refine ⟨rfl, .inl, fun hc => ?_⟩
      rcases hc.cons with h0 | ⟨hlt, -⟩
      · exact List.length_eq_zero_iff.mp h0
      · exact absurd hlt hi

theorem SomeSucceeds.pos {n : ℕ} {syncs : List (ℕ × SyncHeaderOutput)} (h : SomeSucceeds n syncs) : 0 < n := by
  cases syncs with
  | nil => exact h.elim
  | cons sync syncs => exact Nat.lt_of_le_of_lt (Nat.zero_le _) h.1

theorem Session.pollSyncs (h : Session m) {syncs : List (ℕ × SyncHeaderOutput)}
    (hsyncs : SomeSucceeds m.syncRequests.length syncs → AllComplete m.syncRequests.length syncs)
    (he : m.pollSyncs P syncs = .ok m') : Session m' := by
  obtain ⟨hclosest, hpending, hall⟩ := pollSyncs_session he
  have hnone : m.syncRequests = [] → m'.syncRequests = [] := by
    intro hs
    refine hall ?_
    rw [hs]
    trivial
  refine ⟨?_, ?_⟩
  · intro hc
    rw [hclosest]
    rcases hpending hc with hp | hsome
    · exact ⟨(h.idle hp).1, hnone (h.idle hp).2⟩
    · refine ⟨?_, hall (hsyncs hsome)⟩
      by_contra hne
      have hpos := hsome.pos
      rw [h.waits hne] at hpos
      exact absurd hpos (Nat.lt_irrefl 0)
  · rw [hclosest]
    exact fun hc => hnone (h.waits hc)

theorem Session.poll (hledger : HasLedger P m) (h : Session m) {input : PollInput}
    (hsyncs : NoneLeftBehind P (.ok m) (.poll input)) (he : m.poll P input = .ok m') : Session m' := by
  obtain ⟨m₁, h₁, he⟩ := exists_of_bind_eq_ok he
  obtain ⟨m₂, h₂, he⟩ := exists_of_bind_eq_ok he
  obtain ⟨m₃, h₃, he⟩ := exists_of_bind_eq_ok he
  cases he
  have hs₁ : Session m₁ :=
    EveryEvent.pollEvents (fun _ _ _ hs _ he => hs.onEvent he) h (everyEvent_true P m input.events) h₁
  obtain ⟨m₂', h₂', -, -, hlen⟩ := pollPeers_spec (hledger.pollEvents h₁) input.peers
  rw [h₂] at h₂'
  cases h₂'
  have hs₃ : Session m₃ := by
    refine (hs₁.pollPeers h₂).pollSyncs ?_ h₃
    rw [hlen]
    exact hsyncs m input m₁ rfl rfl h₁
  obtain ⟨rest, hrest⟩ := m₃.pollBroadcasts_eq input.broadcasts
  rw [hrest]
  exact ⟨hs₃.idle, hs₃.waits⟩

/-! ## Whole runs -/

theorem linked_secondBlock (P : Platform) :
    Linked Header.hash Header.parentHash [Chain.genesis P, firstBlock P, secondBlock] := by
  rintro (_ | _ | i) p c hp hc
  · cases hp
    cases hc
    rfl
  · cases hp
    cases hc
    rfl
  · cases hc

end Simb.Net
