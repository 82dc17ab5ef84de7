import Simb.BlockTree.Agreement
import Simb.BlockTree.Miner
import Simb.Net.NetworkSpec

/-!
# The miner and the network task

The miner gives each block to the network task in a command, and keeps the receiver of the reply in its slot.  A block
that is mined while the request before it is unanswered takes its place, and the receiver is dropped; when the network
task gets to that command, its reply has nowhere to go and it panics (`mined_too_early`).  As long as every reply is there
when the next block is mined, the miner drops no request that is unanswered, and the network task never panics on a
reply to the miner (`kept_iff`).
-/

namespace Simb.Net

open Simb.BlockTree Simb.Lib

/-! ## The system -/

/-- The outcome of a broadcast, if it was sent. -/
def Oneshots.outcome (o : Oneshots) (tx : ℕ) : Option (RequestResponse Unit) :=
  o.sent.findSome? fun x =>
    match x with
    | (c, .unit response) => if c = tx then some response else none
    | _ => none

/-- `NetworkProvider` as a provider of broadcasts: a future is the channel of its reply. -/
def Network.provider : BroadcastProvider Network ℕ where
  broadcastBlockHeader header s := (s.oneshots.next, s.call (.broadcastBlockHeader header))
  pollFut tx s := s.oneshots.outcome tx
  dropFut tx s := s.drop tx

/-- A miner on a block tree `B` and the network task. -/
structure MiningNode (B : Type) where
  /-- The miner, until it panics. -/
  miner : Option (FixedBlockTimeMiner B ℕ)
  network : Network
  /-- The channels of the blocks that were mined. -/
  mined : List ℕ

/-- A step of some task. -/
inductive MiningStep (B : Type) where
  /-- A tick of the interval is due. -/
  | elapse
  /-- The chain is changed through another handle. -/
  | elsewhere (f : B → B)
  /-- The miner is polled, and this is what `mine_block` does if it is called. -/
  | poll (mineBlock : B → Except BlockTree.Panic (MineBlockResult × B))
  /-- A step of the network task or of another client. -/
  | network (x : NetworkStep)

namespace MiningNode

variable {B : Type}

def new (localPeerId : PeerId) (chain : B) : MiningNode B := ⟨some (.new chain), .new localPeerId, []⟩

/-- The channels of `network` that `old` does not have. -/
def channelsSince (old network : Network) : List ℕ :=
  List.range' old.oneshots.next (network.oneshots.next - old.oneshots.next)

/-- A miner that panics takes what is in its slot with it. -/
def poll (s : MiningNode B) (mineBlock : B → Except BlockTree.Panic (MineBlockResult × B)) : MiningNode B :=
  match s.miner with
  | none => s
  | some m =>
    match m.execute Network.provider mineBlock s.network with
    | .ok (m, network) => ⟨some m, network, s.mined ++ channelsSince s.network network⟩
    | .error _ =>
      { s with miner := none, network := FixedBlockTimeMiner.dropRequest Network.provider m.pendingBroadcast s.network }

/-- The receivers of the miner are its own, and no other client can drop them. -/
def owns (s : MiningNode B) : NetworkStep → Bool
  | .drop tx => tx ∈ s.mined
  | _ => false

/-- One step. -/
def step (s : MiningNode B) : MiningStep B → Except NetworkManager.Panic (MiningNode B)
  | .elapse => .ok { s with miner := s.miner.map fun m => { m with interval := m.interval.elapse } }
  | .elsewhere f => .ok { s with miner := s.miner.map fun m => { m with chain := f m.chain } }
  | .poll mineBlock => .ok (s.poll mineBlock)
  | .network x => if s.owns x then .ok s else do return { s with network := ← s.network.step x }

/-- One step of a system whose network task may have panicked. -/
def next (r : Except NetworkManager.Panic (MiningNode B)) (x : MiningStep B) :
    Except NetworkManager.Panic (MiningNode B) :=
  match r with
  | .error p => .error p
  | .ok s => s.step x

/-- The request that the miner waits for. -/
def slot (s : MiningNode B) : Option (BroadcastRequest ℕ) := s.miner.bind (·.pendingBroadcast)

/-- A reply was sent. -/
def Replied (s : MiningNode B) (tx : ℕ) : Prop := tx ∈ s.network.oneshots.sent.map Prod.fst

/-- No request of the miner was dropped before its reply was there, and the network task will not panic on a reply to
the miner, whatever comes next. -/
structure Kept (s : MiningNode B) : Prop where
  kept : ∀ tx ∈ s.mined, tx ∈ s.network.oneshots.dropped → s.Replied tx
  safe : ∀ tx ∈ s.mined, ∀ x message, s.network.step x ≠ .error (.reply tx message)

/-- The miner finds a tick, and mines a block (or panics). -/
def Mines (s : MiningNode B) (mineBlock : B → Except BlockTree.Panic (MineBlockResult × B)) : Prop :=
  ∃ m, s.miner = some m ∧ m.interval.overdue ≠ 0 ∧ ∀ chain, mineBlock m.chain ≠ .ok (.blockFallingBehind, chain)

end MiningNode

variable {B : Type}

/-- In every state the requests of the miner are kept. -/
def AllKept (r : Except NetworkManager.Panic (MiningNode B)) : Prop := ∀ s, r = .ok s → s.Kept

/-- When the miner mines a block, its slot is empty or the reply is there. -/
def RepliesInTime (r : Except NetworkManager.Panic (MiningNode B)) (x : MiningStep B) : Prop :=
  ∀ s mineBlock request, r = .ok s → x = .poll mineBlock → s.Mines mineBlock → s.slot = some request →
    s.Replied request.fut

/-! ## What a poll of the miner does -/

theorem mem_sent_of_outcome {o : Oneshots} {tx : ℕ} {response : RequestResponse Unit}
    (h : o.outcome tx = some response) : tx ∈ o.sent.map Prod.fst := by
  obtain ⟨⟨c, reply⟩, hmem, hc⟩ := List.exists_of_findSome?_eq_some h
  cases reply with
  | unit response' =>
    simp only at hc
    split at hc
    · rename_i heq
      rw [← heq]
      exact List.mem_map_of_mem (f := Prod.fst) hmem
    · cases hc
  | addrs response' => cases hc
  | peers response' => cases hc
  | headers response' => cases hc

namespace MiningNode

variable {s s' : MiningNode B} {mineBlock : B → Except BlockTree.Panic (MineBlockResult × B)}

/-- The slot is emptied when the reply is there. -/
theorem pollBroadcast_cases (m : FixedBlockTimeMiner B ℕ) (w : Network) :
    ((m.pollBroadcast Network.provider w).1.pendingBroadcast = m.pendingBroadcast ∧
        (m.pollBroadcast Network.provider w).2 = w) ∨
      ∃ request, m.pendingBroadcast = some request ∧ request.fut ∈ w.oneshots.sent.map Prod.fst ∧
        (m.pollBroadcast Network.provider w).1.pendingBroadcast = none ∧
        (m.pollBroadcast Network.provider w).2 = w.drop request.fut := by
  unfold FixedBlockTimeMiner.pollBroadcast
  split
  · rename_i request hrequest
    split
    · rename_i response hresponse
      exact .inr ⟨request, hrequest, mem_sent_of_outcome hresponse, rfl, rfl⟩
    · exact .inl ⟨rfl, rfl⟩
  · exact .inl ⟨rfl, rfl⟩

/-- Whatever is in the slot goes out of scope. -/
def dropSlot (s : MiningNode B) (w : Network) : Network :=
  FixedBlockTimeMiner.dropRequest Network.provider s.slot w

theorem slot_of_miner {m : FixedBlockTimeMiner B ℕ} (hm : s.miner = some m) : s.slot = m.pendingBroadcast := by
  unfold slot
  rw [hm]
  rfl

theorem poll_of_ok {m : FixedBlockTimeMiner B ℕ} {x : FixedBlockTimeMiner B ℕ × Network} (hm : s.miner = some m)
    (hexec : m.execute Network.provider mineBlock s.network = .ok x) :
    s.poll mineBlock = ⟨some x.1, x.2, s.mined ++ channelsSince s.network x.2⟩ := by
  unfold poll
  rw [hm]
  simp only [hexec]

theorem poll_of_error {m : FixedBlockTimeMiner B ℕ} {p : BlockTree.Panic} (hm : s.miner = some m)
    (hexec : m.execute Network.provider mineBlock s.network = .error p) :
    s.poll mineBlock = { s with miner := none, network := s.dropSlot s.network } := by
  unfold poll dropSlot
  rw [slot_of_miner hm, hm]
  simp only [hexec]

/-- The channels that were there are not new. -/
theorem append_channelsSince {w w' : Network} (l : List ℕ) (h : w'.oneshots.next = w.oneshots.next) :
    l ++ channelsSince w w' = l := by
  unfold channelsSince
  rw [h, Nat.sub_self]
  exact List.append_nil _

/-- A call that only looks at the slot. -/
theorem poll_of_execute {m m₁ : FixedBlockTimeMiner B ℕ} (hm : s.miner = some m)
    (hslot : m₁.pendingBroadcast = m.pendingBroadcast)
    (hexec : m.execute Network.provider mineBlock s.network = .ok (m₁.pollBroadcast Network.provider s.network)) :
    (s.poll mineBlock).mined = s.mined ∧
      ((s.poll mineBlock).slot = s.slot ∧ (s.poll mineBlock).network = s.network ∨
        ∃ request, s.slot = some request ∧ s.Replied request.fut ∧ (s.poll mineBlock).slot = none ∧
          (s.poll mineBlock).network = s.network.drop request.fut) := by
  rw [poll_of_ok hm hexec, slot_of_miner hm, ← hslot]
  rcases pollBroadcast_cases m₁ s.network with ⟨hslot', hw⟩ | ⟨request, hrequest, hreplied, hslot', hw⟩
  · exact ⟨append_channelsSince _ (by rw [hw]), .inl ⟨hslot', hw⟩⟩
  · exact ⟨append_channelsSince _ (by rw [hw]; rfl), .inr ⟨request, hrequest, hreplied, hslot', hw⟩⟩

theorem next_dropSlot (s : MiningNode B) (w : Network) : (s.dropSlot w).oneshots.next = w.oneshots.next := by
  unfold dropSlot FixedBlockTimeMiner.dropRequest
  split <;> rfl

theorem sent_dropSlot (s : MiningNode B) (w : Network) : (s.dropSlot w).oneshots.sent = w.oneshots.sent := by
  unfold dropSlot FixedBlockTimeMiner.dropRequest
  split <;> rfl

/-- The ways a poll can go: no block is mined and the slot is emptied only if the reply is there, or the miner
panics and drops what is in the slot, or a block is mined and takes the place of what is in the slot. -/
theorem poll_cases (mineBlock : B → Except BlockTree.Panic (MineBlockResult × B))
    (hnew : ¬ s.Replied s.network.oneshots.next) :
    (¬ s.Mines mineBlock ∧ (s.poll mineBlock).mined = s.mined ∧
        ((s.poll mineBlock).slot = s.slot ∧ (s.poll mineBlock).network = s.network ∨
          ∃ request, s.slot = some request ∧ s.Replied request.fut ∧ (s.poll mineBlock).slot = none ∧
            (s.poll mineBlock).network = s.network.drop request.fut)) ∨
      (s.Mines mineBlock ∧ (s.poll mineBlock).mined = s.mined ∧ (s.poll mineBlock).slot = none ∧
        (s.poll mineBlock).network = s.dropSlot s.network) ∨
      (s.Mines mineBlock ∧ (s.poll mineBlock).mined = s.mined ++ [s.network.oneshots.next] ∧ ∃ header,
        (s.poll mineBlock).slot = some ⟨header, s.network.oneshots.next⟩ ∧
        (s.poll mineBlock).network = s.dropSlot (s.network.call (.broadcastBlockHeader header))) := by
  cases hm : s.miner with
  | none =>
    have hpoll : s.poll mineBlock = s := by
      unfold poll
      rw [hm]
    refine .inl ⟨?_, by rw [hpoll], .inl ⟨by rw [hpoll], by rw [hpoll]⟩⟩
    rintro ⟨m, hm', -⟩
    cases hm.symm.trans hm'
  | some m =>
    by_cases hzero : m.interval.overdue = 0
    · refine .inl ⟨?_, poll_of_execute hm rfl (FixedBlockTimeMiner.execute_of_no_tick _ _ hzero)⟩
      rintro ⟨m', hm', hpos, -⟩
      cases hm.symm.trans hm'
      exact hpos hzero
    · cases hmine : mineBlock m.chain with
      | error p =>
        have hmines : s.Mines mineBlock := ⟨m, hm, hzero, fun chain h => by cases hmine.symm.trans h⟩
        rw [poll_of_error hm (FixedBlockTimeMiner.execute_of_panic _ _ hzero hmine)]
        exact .inr (.inl ⟨hmines, rfl, rfl, rfl⟩)
      | ok x =>
        obtain ⟨header | _, chain⟩ := x
        · have hmines : s.Mines mineBlock := ⟨m, hm, hzero, fun chain h => by cases hmine.symm.trans h⟩
          obtain ⟨m₁, hslot, hexec⟩ := FixedBlockTimeMiner.execute_of_mined Network.provider s.network hzero hmine
          refine .inr (.inr ⟨hmines, ?_⟩)
          rw [← slot_of_miner hm] at hexec
          rw [poll_of_ok hm hexec]
          rcases pollBroadcast_cases m₁ (s.dropSlot (s.network.call (.broadcastBlockHeader header))) with
            ⟨hslot', hw⟩ | ⟨request, hrequest, hreplied, -, -⟩
          · refine ⟨?_, header, hslot'.trans hslot, hw⟩
            refine congrArg (s.mined ++ ·) ((congrArg (channelsSince s.network) hw).trans ?_)
            unfold channelsSince
            rw [next_dropSlot]
            show List.range' _ (s.network.oneshots.next + 1 - s.network.oneshots.next) = _
            rw [Nat.add_sub_cancel_left]
            rfl
          · -- the reply to a command that was just sent is not there
            cases hslot.symm.trans hrequest
            rw [sent_dropSlot] at hreplied
            exact absurd hreplied hnew
        · obtain ⟨m₁, hslot, hexec⟩ := FixedBlockTimeMiner.execute_of_behind Network.provider s.network hzero hmine
          refine .inl ⟨?_, poll_of_execute hm hslot hexec⟩
          rintro ⟨m', hm', -, hnot⟩
          cases hm.symm.trans hm'
          exact hnot chain hmine

end MiningNode

/-! ## What holds in every run -/

/-- Only what was made can be gone.  The commands of the miner are broadcasts, so their senders are never kept, and what
is in the slot was mined. -/
structure Sound (w : Network) (mined : List ℕ) (slot : Option (BroadcastRequest ℕ)) : Prop where
  network : w.Inv
  dropped : ∀ tx ∈ w.oneshots.dropped, tx < w.oneshots.next
  made : ∀ tx ∈ mined, tx < w.oneshots.next
  queued : ∀ command ∈ w.commandRecv, command.tx ∈ mined → ∃ header, command.request = .broadcastBlockHeader header
  held : ∀ key tx, w.desk.held key = some tx → tx ∉ mined
  own : ∀ request, slot = some request → request.fut ∈ mined

/-- No receiver of the miner is gone before the reply was sent. -/
def NoneLost (w : Network) (mined : List ℕ) : Prop :=
  ∀ tx ∈ mined, tx ∈ w.oneshots.dropped → tx ∈ w.oneshots.sent.map Prod.fst

section

variable {w w' : Network} {mined : List ℕ} {slot : Option (BroadcastRequest ℕ)}

/-- If none is lost, the network task does not panic on a reply to the miner. -/
theorem NoneLost.safe (h : NoneLost w mined) (hs : Sound w mined slot) {tx : ℕ} (htx : tx ∈ mined) (x : NetworkStep)
    (message : String) : w.step x ≠ .error (.reply tx message) := by
  intro hpanic
  obtain ⟨hdropped, ⟨command, commands, hrecv, rfl⟩ | ⟨key, hkey⟩⟩ := step_eq_error hpanic
  · exact hs.network.new hrecv (hs.network.closed.answered _ (h _ htx hdropped))
  · exact hs.held key tx hkey htx

/-- Another client calls a method of the provider. -/
theorem Sound.call (h : Sound w mined slot) (request : ProviderRequest) : Sound (w.call request) mined slot where
  network := h.network.call request
  dropped tx htx := Nat.lt_succ_of_lt (h.dropped tx htx)
  made tx htx := Nat.lt_succ_of_lt (h.made tx htx)
  queued command hcommand htx := by
    rcases List.mem_append.mp hcommand with hcommand | hcommand
    · exact h.queued command hcommand htx
    · rw [List.mem_singleton.mp hcommand] at htx
      exact absurd (h.made _ htx) (Nat.lt_irrefl _)
  held := h.held
  own := h.own

theorem Sound.drop (h : Sound w mined slot) {tx : ℕ} (htx : tx < w.oneshots.next) : Sound (w.drop tx) mined slot where
  network := ⟨h.network.senders, h.network.closed⟩
  dropped tx' htx' := by
    rcases Finset.mem_insert.mp htx' with rfl | htx'
    · exact htx
    · exact h.dropped tx' htx'
  made := h.made
  queued := h.queued
  held := h.held
  own := h.own

theorem Sound.handles (h : Sound w mined slot) {a : Answers} {command : NetworkProviderMessage}
    {commands : List NetworkProviderMessage} (hw' : w'.Inv) (hh : Handles w w' a command commands) :
    Sound w' mined slot where
  network := hw'
  dropped := by
    rw [hh.dropped, hh.next]
    exact h.dropped
  made := by
    rw [hh.next]
    exact h.made
  queued c hc htx := by
    refine h.queued c ?_ htx
    rw [hh.recv]
    rw [hh.recv'] at hc
    exact List.mem_cons_of_mem _ hc
  held key tx hkey := by
    rcases hh.desk with ⟨-, hdesk⟩ | ⟨-, key', hkey', hdesk, -⟩ | ⟨-, hdesk⟩ <;> rw [hdesk] at hkey
    · exact h.held key tx hkey
    · rcases Desk.update_eq_some_iff.1 hkey with ⟨-, ⟨⟩⟩ | ⟨-, hkey⟩
      · -- a command that is kept is not one of the miner's
        intro htx
        obtain ⟨header, hheader⟩ := h.queued command (by rw [hh.recv]; exact List.mem_cons_self) htx
        rw [hheader] at hkey'
        cases hkey'
      · exact h.held key tx hkey
    · exact h.held key tx hkey
  own := h.own

theorem Sound.reacts (h : Sound w mined slot) (hw' : w'.Inv) (hr : Reacts w w') : Sound w' mined slot := by
  refine ⟨hw', by rw [hr.dropped, hr.next]; exact h.dropped, by rw [hr.next]; exact h.made,
    by rw [hr.recv]; exact h.queued, ?_, h.own⟩
  rcases hr.desk with hdesk | ⟨key, tx, -, hdesk⟩ <;> rw [hdesk]
  · exact h.held
  · intro key' tx' hkey'
    rcases Desk.update_eq_some_iff.1 hkey' with ⟨-, ⟨⟩⟩ | ⟨-, hkey'⟩
    exact h.held key' tx' hkey'

theorem Sound.step (h : Sound w mined slot) {x : NetworkStep} (he : w.step x = .ok w') : Sound w' mined slot := by
  rcases step_cases he with ⟨request, -, rfl⟩ | ⟨tx, -, hlt, rfl⟩ | ⟨a, command, commands, -, hh⟩ | ⟨-, hr⟩
  · exact h.call request
  · exact h.drop hlt
  · exact h.handles (h.network.step he) hh
  · exact h.reacts (h.network.step he) hr

/-- Replies are only added, and nobody else drops a receiver of the miner. -/
theorem NoneLost.step (h : NoneLost w mined) {x : NetworkStep} (hx : ∀ tx, x = .drop tx → tx ∉ mined)
    (he : w.step x = .ok w') : NoneLost w' mined := by
  have hgrows : w'.oneshots.dropped = w.oneshots.dropped → (∃ new, w'.desk.answered = w.desk.answered ++ new) →
      NoneLost w' mined := by
    rintro hdropped ⟨new, hnew⟩ tx htx hmem
    rw [hdropped] at hmem
    show tx ∈ w'.desk.answered
    rw [hnew]
    exact List.mem_append_left _ (h tx htx hmem)
  rcases step_cases he with ⟨request, -, rfl⟩ | ⟨tx, hdrop, -, rfl⟩ | ⟨a, command, commands, -, hh⟩ | ⟨-, hr⟩
  · exact h
  · intro tx' htx' hmem
    rcases Finset.mem_insert.mp hmem with rfl | hmem
    · exact absurd htx' (hx _ hdrop)
    · exact h tx' htx' hmem
  · refine hgrows hh.dropped ?_
    rcases hh.desk with ⟨-, hdesk⟩ | ⟨-, key, -, hdesk, -⟩ | ⟨-, hdesk⟩ <;> rw [hdesk]
    · exact ⟨[command.tx], rfl⟩
    · exact ⟨[], (List.append_nil _).symm⟩
    · exact ⟨[], (List.append_nil _).symm⟩
  · refine hgrows hr.dropped ?_
    rcases hr.desk with hdesk | ⟨key, tx, -, hdesk⟩ <;> rw [hdesk]
    · exact ⟨[], (List.append_nil _).symm⟩
    · exact ⟨[tx], rfl⟩

theorem Sound.empty (h : Sound w mined slot) : Sound w mined none :=
  ⟨h.network, h.dropped, h.made, h.queued, h.held, fun request hrequest => by cases hrequest⟩

/-- The miner gives a block to the provider. -/
theorem Sound.broadcast (h : Sound w mined slot) (header : Header) :
    Sound (w.call (.broadcastBlockHeader header)) (mined ++ [w.oneshots.next]) (some ⟨header, w.oneshots.next⟩) where
  network := h.network.call _
  dropped := (h.call (.broadcastBlockHeader header)).dropped
  made tx htx := by
    rcases List.mem_append.mp htx with htx | htx
    · exact Nat.lt_succ_of_lt (h.made tx htx)
    · rw [List.mem_singleton.mp htx]
      exact Nat.lt_succ_self _
  queued command hcommand htx := by
    rcases List.mem_append.mp hcommand with hcommand | hcommand
    · rcases List.mem_append.mp htx with htx | htx
      · exact h.queued command hcommand htx
      · have hmem := List.mem_append_right (w.handled.map Prod.fst)
          (List.mem_map_of_mem (f := NetworkProviderMessage.tx) hcommand)
        rw [h.network.senders, List.mem_singleton.mp htx, List.mem_range] at hmem
        exact absurd hmem (Nat.lt_irrefl _)
    · rw [List.mem_singleton.mp hcommand]
      exact ⟨header, rfl⟩
  held key tx hkey htx := by
    rcases List.mem_append.mp htx with htx | htx
    · exact h.held key tx hkey htx
    · have hlt := h.network.lt_next (List.mem_map_of_mem (f := Prod.fst) (h.network.closed.held key tx hkey))
      exact absurd hlt (by rw [List.mem_singleton.mp htx]; exact Nat.lt_irrefl _)
  own request hrequest := by
    cases hrequest
    exact List.mem_append_right _ (List.mem_singleton_self _)

variable {s : MiningNode B} {mineBlock : B → Except BlockTree.Panic (MineBlockResult × B)}

theorem Sound.dropSlot (h : Sound w mined slot) (hown : ∀ request, s.slot = some request → request.fut ∈ mined) :
    Sound (s.dropSlot w) mined slot := by
  unfold MiningNode.dropSlot FixedBlockTimeMiner.dropRequest
  split
  · rename_i request hrequest
    exact h.drop (h.made _ (hown request hrequest))
  · exact h

/-- What is in the slot is dropped: none is lost, exactly if the reply is there. -/
theorem noneLost_dropSlot_iff (h : NoneLost w mined) (hown : ∀ request, s.slot = some request → request.fut ∈ mined) :
    NoneLost (s.dropSlot w) mined ↔ ∀ request, s.slot = some request → request.fut ∈ w.oneshots.sent.map Prod.fst := by
  unfold MiningNode.dropSlot FixedBlockTimeMiner.dropRequest
  split
  · rename_i request hrequest
    constructor
    · intro hlost request' hrequest'
      cases hrequest.symm.trans hrequest'
      exact hlost _ (hown request hrequest) (Finset.mem_insert_self _ _)
    · intro hreplied tx htx hmem
      rcases Finset.mem_insert.mp hmem with rfl | hmem
      · exact hreplied request hrequest
      · exact h tx htx hmem
  · rename_i hnone
    refine ⟨fun _ request hrequest => ?_, fun _ => h⟩
    cases hnone.symm.trans hrequest

theorem Sound.poll (h : Sound s.network s.mined s.slot)
    (mineBlock : B → Except BlockTree.Panic (MineBlockResult × B)) :
    Sound (s.poll mineBlock).network (s.poll mineBlock).mined (s.poll mineBlock).slot := by
  rcases MiningNode.poll_cases mineBlock h.network.next_notMem with
    ⟨-, hmined, ⟨hslot, hw⟩ | ⟨request, hrequest, -, hslot, hw⟩⟩ | ⟨-, hmined, hslot, hw⟩ | ⟨-, hmined, header, hslot, hw⟩
  all_goals rw [hmined, hslot, hw]
  · exact h
  · exact (h.drop (h.made _ (h.own request hrequest))).empty
  · exact (h.dropSlot h.own).empty
  · exact (h.broadcast header).dropSlot fun request hrequest => List.mem_append_left _ (h.own request hrequest)

/-- **One poll.**  None is lost, exactly if no block is mined before the reply is there. -/
theorem noneLost_poll_iff (h : Sound s.network s.mined s.slot) (hlost : NoneLost s.network s.mined) :
    NoneLost (s.poll mineBlock).network (s.poll mineBlock).mined ↔
      (s.Mines mineBlock → ∀ request, s.slot = some request → s.Replied request.fut) := by
  rcases MiningNode.poll_cases mineBlock h.network.next_notMem with
    ⟨hno, hmined, hcases⟩ | ⟨hmines, hmined, -, hw⟩ | ⟨hmines, hmined, header, -, hw⟩
  · refine ⟨fun _ hmines => absurd hmines hno, fun _ => ?_⟩
    rcases hcases with ⟨-, hw⟩ | ⟨request, -, hreplied, -, hw⟩ <;> rw [hmined, hw]
    · exact hlost
    · intro tx htx hmem
      rcases Finset.mem_insert.mp hmem with rfl | hmem
      · exact hreplied
      · exact hlost tx htx hmem
  · rw [hmined, hw, noneLost_dropSlot_iff hlost h.own]
    exact ⟨fun hreplied _ => hreplied, fun hreplied => hreplied hmines⟩
  · have hcall : NoneLost (s.network.call (.broadcastBlockHeader header)) (s.mined ++ [s.network.oneshots.next]) := by
      intro tx htx hmem
      rcases List.mem_append.mp htx with htx | htx
      · exact hlost tx htx hmem
      · rw [List.mem_singleton.mp htx] at hmem
        exact absurd (h.dropped _ hmem) (Nat.lt_irrefl _)
    rw [hmined, hw, noneLost_dropSlot_iff hcall fun request hrequest => List.mem_append_left _ (h.own request hrequest)]
    exact ⟨fun hreplied _ => hreplied, fun hreplied => hreplied hmines⟩

theorem kept_iff_noneLost (h : Sound s.network s.mined s.slot) : s.Kept ↔ NoneLost s.network s.mined :=
  ⟨fun hkept => hkept.kept, fun hlost => ⟨hlost, fun _ htx => hlost.safe h htx⟩⟩

end

/-! ## Whole runs -/

theorem sound_new (localPeerId : PeerId) (chain : B) :
    Sound (MiningNode.new localPeerId chain).network (MiningNode.new localPeerId chain).mined
      (MiningNode.new localPeerId chain).slot where
  network := Network.inv_new localPeerId
  dropped tx htx := absurd htx (Finset.notMem_empty tx)
  made tx htx := absurd htx List.not_mem_nil
  queued command hcommand := absurd hcommand List.not_mem_nil
  held key tx _ := List.not_mem_nil
  own request hrequest := by cases hrequest

/-- A step that is no poll leaves the slot and what was mined alone, and is none of the network or one of another
client. -/
theorem step_of_not_poll {s s' : MiningNode B} {x : MiningStep B} (hx : ∀ mineBlock, x ≠ .poll mineBlock)
    (he : s.step x = .ok s') :
    s'.mined = s.mined ∧ s'.slot = s.slot ∧
      (s'.network = s.network ∨ ∃ y, (∀ tx, y = .drop tx → tx ∉ s.mined) ∧ s.network.step y = .ok s'.network) := by
  have hslot : ∀ f : FixedBlockTimeMiner B ℕ → FixedBlockTimeMiner B ℕ,
      (∀ m, (f m).pendingBroadcast = m.pendingBroadcast) →
        MiningNode.slot { s with miner := s.miner.map f } = s.slot := by
    intro f hf
    unfold MiningNode.slot
    cases s.miner with
    | none => rfl
    | some m => exact hf m
  cases x with
  | elapse =>
    cases he
    exact ⟨rfl, hslot _ fun _ => rfl, .inl rfl⟩
  | elsewhere f =>
    cases he
    exact ⟨rfl, hslot _ fun _ => rfl, .inl rfl⟩
  | poll mineBlock => exact absurd rfl (hx mineBlock)
  | network y =>
    unfold MiningNode.step at he
    simp only at he
    split at he
    · cases he
      exact ⟨rfl, rfl, .inl rfl⟩
    · rename_i hnot
      obtain ⟨w, hw, he⟩ := exists_of_bind_eq_ok he
      cases he
      refine ⟨rfl, rfl, .inr ⟨y, ?_, hw⟩⟩
      rintro tx rfl htx
      exact hnot (decide_eq_true htx)

theorem Sound.node_step {s s' : MiningNode B} (h : Sound s.network s.mined s.slot) {x : MiningStep B}
    (he : s.step x = .ok s') : Sound s'.network s'.mined s'.slot := by
  by_cases hx : ∃ mineBlock, x = .poll mineBlock
  · obtain ⟨mineBlock, rfl⟩ := hx
    cases he
    exact h.poll mineBlock
  · obtain ⟨hmined, hslot, hw | ⟨y, -, hw⟩⟩ := step_of_not_poll (fun mineBlock heq => hx ⟨mineBlock, heq⟩) he
    · rw [hmined, hslot, hw]
      exact h
    · rw [hmined, hslot]
      exact h.step hw

/-- **When the miner keeps its requests.**  In a run of the miner with the network task and its other clients, on any
block tree, no request of the miner is dropped before its reply was sent and the network task never panics on a reply
to it, exactly if at every poll in which the miner mines a block its slot is empty or the reply is there. -/
theorem kept_iff (localPeerId : PeerId) (chain : B) (steps : List (MiningStep B)) :
    EveryState MiningNode.next AllKept (.ok (.new localPeerId chain)) steps ↔
      EveryStep MiningNode.next RepliesInTime (.ok (.new localPeerId chain)) steps := by
  refine everyState_iff_everyStep (J := fun r => ∀ s, r = .ok s → Sound s.network s.mined s.slot) ?_ ?_ ?_ ?_
  · rintro (p | s) x hJ s' hs'
    · cases hs'
    · exact (hJ s rfl).node_step hs'
  · rintro (p | s) x hJ hI
    · exact ⟨fun _ _ _ _ hr => (by cases hr), fun _ _ hr => by cases hr⟩
    · have hsound := hJ s rfl
      have hlost := (kept_iff_noneLost hsound).1 (hI s rfl)
      by_cases hx : ∃ mineBlock, x = .poll mineBlock
      · obtain ⟨mineBlock, rfl⟩ := hx
        have hiff : AllKept (MiningNode.next (.ok s) (.poll mineBlock)) ↔ (s.poll mineBlock).Kept :=
          ⟨fun h => h _ rfl, fun h _ hs' => by cases hs'; exact h⟩
        rw [hiff, kept_iff_noneLost (hsound.poll mineBlock), noneLost_poll_iff hsound hlost]
        refine ⟨?_, fun h hmines request => h s mineBlock request rfl rfl hmines⟩
        rintro h _ _ request ⟨⟩ ⟨⟩ hmines hrequest
        exact h hmines request hrequest
      · have hother : ∀ mineBlock, x ≠ .poll mineBlock := fun mineBlock heq => hx ⟨mineBlock, heq⟩
        refine ⟨fun _ _ mineBlock _ _ heq => absurd heq (hother mineBlock), fun _ s' hs' => ?_⟩
        rw [kept_iff_noneLost (hsound.node_step hs')]
        obtain ⟨hmined, -, hw | ⟨y, hy, hw⟩⟩ := step_of_not_poll hother hs'
        · rw [hmined, hw]
          exact hlost
        · rw [hmined]
          exact hlost.step hy hw
  · rintro _ ⟨⟩
    exact sound_new localPeerId chain
  · rintro _ ⟨⟩
    exact (kept_iff_noneLost (sound_new localPeerId chain)).2 fun tx htx => absurd htx List.not_mem_nil

/-! ### A block mined before the reply -/

/-- Two ticks, with nothing from the network task between them. -/
def twoTicks (mineBlock : B → Except BlockTree.Panic (MineBlockResult × B)) : List (MiningStep B) :=
  [.poll mineBlock, .elapse, .poll mineBlock]

section

variable {mineBlock : B → Except BlockTree.Panic (MineBlockResult × B)} {chain chain' chain'' : B}
  {header header' : Header}

/-- A poll with one tick, when no reply was sent so far. -/
theorem poll_of_mined {w : Network} (hsent : w.oneshots.sent = []) (slot : Option (BroadcastRequest ℕ)) (mined : List ℕ)
    (hmine : mineBlock chain = .ok (.mined header, chain')) :
    MiningNode.poll ⟨some ⟨⟨1⟩, chain, slot⟩, w, mined⟩ mineBlock =
      ⟨some ⟨⟨0⟩, chain', some ⟨header, w.oneshots.next⟩⟩,
        FixedBlockTimeMiner.dropRequest Network.provider slot (w.call (.broadcastBlockHeader header)),
        mined ++ [w.oneshots.next]⟩ := by
  let w' := FixedBlockTimeMiner.dropRequest Network.provider slot (w.call (.broadcastBlockHeader header))
  have hnone : w'.oneshots.outcome w.oneshots.next = none := by
    have hsent' : w'.oneshots.sent = [] := by
      cases slot <;> exact hsent
    unfold Oneshots.outcome
    rw [hsent']
    rfl
  have hnext : w'.oneshots.next = w.oneshots.next + 1 := by
    cases slot <;> rfl
  have hexec : FixedBlockTimeMiner.execute Network.provider mineBlock ⟨⟨1⟩, chain, slot⟩ w =
      .ok (⟨⟨0⟩, chain', some ⟨header, w.oneshots.next⟩⟩, w') := by
    rw [FixedBlockTimeMiner.execute_of_tick _ _ Nat.one_ne_zero]
    unfold FixedBlockTimeMiner.onTick
    rw [show mineBlock (FixedBlockTimeMiner.poll ⟨⟨1⟩, chain, slot⟩).2.chain = _ from hmine]
    show Except.ok (FixedBlockTimeMiner.pollBroadcast Network.provider
      ⟨⟨0⟩, chain', some ⟨header, w.oneshots.next⟩⟩ w') = _
    unfold FixedBlockTimeMiner.pollBroadcast
    simp only [Network.provider, hnone]
  rw [MiningNode.poll_of_ok (s := ⟨some ⟨⟨1⟩, chain, slot⟩, w, mined⟩) rfl hexec]
  unfold MiningNode.channelsSince
  simp only [hnext, Nat.add_sub_cancel_left]
  rfl

/-- After the first tick the first block is on its way, and the next tick is due. -/
theorem oneTick (localPeerId : PeerId) (hmine : mineBlock chain = .ok (.mined header, chain')) :
    MiningNode.next (MiningNode.next (.ok (.new localPeerId chain)) (.poll mineBlock)) .elapse =
      .ok ⟨some ⟨⟨1⟩, chain', some ⟨header, 0⟩⟩, (Network.new localPeerId).call (.broadcastBlockHeader header), [0]⟩ := by
  have h₁ : (MiningNode.new localPeerId chain).poll mineBlock = _ := poll_of_mined rfl none [] hmine
  show MiningNode.next (.ok ((MiningNode.new localPeerId chain).poll mineBlock)) .elapse = _
  rw [h₁]
  rfl

/-- The second tick drops the request for the first block, and the network task panics on it. -/
theorem twoTicks_panics (localPeerId : PeerId) (hmine : mineBlock chain = .ok (.mined header, chain'))
    (hmine' : mineBlock chain' = .ok (.mined header', chain'')) :
    ¬ EveryState MiningNode.next AllKept (.ok (.new localPeerId chain)) (twoTicks mineBlock) ∧
      (twoTicks mineBlock ++ [MiningStep.network (.command (granted 0))]).foldl MiningNode.next
          (.ok (.new localPeerId chain)) =
        .error (.reply 0 "Reciever not to be dropped") := by
  have h₂ := oneTick localPeerId hmine
  have h₃ : MiningNode.next (.ok ⟨some ⟨⟨1⟩, chain', some ⟨header, 0⟩⟩,
      (Network.new localPeerId).call (.broadcastBlockHeader header), [0]⟩) (.poll mineBlock) = .ok _ :=
    congrArg Except.ok (poll_of_mined rfl (some ⟨header, 0⟩) [0] hmine')
  constructor
  · rintro ⟨-, -, -, hkept⟩
    rw [h₂, h₃] at hkept
    have hreplied := (hkept _ rfl).kept 0 (List.mem_cons_self) (Finset.mem_insert_self _ _)
    exact List.not_mem_nil hreplied
  · unfold twoTicks
    simp only [List.cons_append, List.nil_append, List.foldl_cons, List.foldl_nil]
    rw [h₂, h₃]
    rfl

end

theorem mine_below {P : Platform} {db : Db} {L : List Header} (h : db.Stores P L) (hb : L.length < 2 ^ 64)
    (draws : Chain.Draws) :
    ∃ header db' L', Chain.mine P draws db = .ok (.mined header, db') ∧ db'.Stores P L' ∧ L'.length = L.length + 1 := by
  have hheight := height_minedOn_getLast h hb draws
  refine ⟨minedOn P draws (L.getLast h.ne_nil), _, _, ?_, h.insertHeader hheight.le, ?_⟩
  · unfold Chain.mine
    rw [runOn_mineBlock_below h hb]
  · rw [length_put hheight.le]
    omega

/-- Two blocks are mined on a fresh chain, and the network task has not got to the first one in between. -/
theorem mined_too_early :
    ¬ EveryState MiningNode.next AllKept (.ok (.new ⟨[1]⟩ (Chain.new (sample true) Db.empty)))
        (twoTicks (Chain.mine (sample true) zeroDraws)) ∧
      (twoTicks (Chain.mine (sample true) zeroDraws) ++ [MiningStep.network (.command (granted 0))]).foldl MiningNode.next
        (.ok (.new ⟨[1]⟩ (Chain.new (sample true) Db.empty))) = .error (.reply 0 "Reciever not to be dropped") := by
  obtain ⟨header, db, L, hmine, hL, hlen⟩ := mine_below (stores_new (sample true)) (by decide) zeroDraws
  obtain ⟨header', db', L', hmine', -⟩ := mine_below hL (by rw [hlen]; decide) zeroDraws
  exact twoTicks_panics ⟨[1]⟩ hmine hmine'

end Simb.Net
