import Simb.BlockTree.Defs

/-!
# The miner (`blocktree.rs`)

`FixedBlockTimeMiner` mines a block at every tick of an interval and gives it to a provider to broadcast.  It holds on to
the request until the outcome is there, in a slot for one request.  `execute` is one `poll_fn`, and everything happens
in its closure.

The miner is generic in the block tree, of which it only uses `mine_block`, and in the provider, whose futures live in
some world `ω`.
-/

namespace Simb.BlockTree

/-- tokio's `Interval`, which catches up: the ticks that are overdue are there one after the other. -/
structure Interval where
  overdue : ℕ

namespace Interval

/-- The first tick is there at once. -/
def new : Interval := ⟨1⟩

/-- Another tick is due. -/
def elapse (i : Interval) : Interval := ⟨i.overdue + 1⟩

/-- Whether there is a tick, and the interval without it. -/
def pollTick (i : Interval) : Bool × Interval :=
  match i.overdue with
  | 0 => (false, i)
  | overdue + 1 => (true, ⟨overdue⟩)

end Interval

/-- What a `BroadcastProvider` does in a world, with futures that are known by `Fut`. -/
structure BroadcastProvider (ω Fut : Type) where
  broadcastBlockHeader : Header → ω → Fut × ω
  /-- The outcome of a broadcast, if it is there. -/
  pollFut : Fut → ω → Option (RequestResponse Unit)
  /-- A future goes out of scope. -/
  dropFut : Fut → ω → ω

structure BroadcastRequest (Fut : Type) where
  header : Header
  fut : Fut

structure FixedBlockTimeMiner (B Fut : Type) where
  interval : Interval
  chain : B
  pendingBroadcast : Option (BroadcastRequest Fut)

namespace FixedBlockTimeMiner

variable {B Fut ω : Type}

def new (chain : B) : FixedBlockTimeMiner B Fut := ⟨.new, chain, none⟩

/-- Look for a tick. -/
def poll (m : FixedBlockTimeMiner B Fut) : Bool × FixedBlockTimeMiner B Fut :=
  (m.interval.pollTick.1, { m with interval := m.interval.pollTick.2 })

variable (provider : BroadcastProvider ω Fut) (mineBlock : B → Except Panic (MineBlockResult × B))

/-- What is in the slot goes out of scope. -/
def dropRequest : Option (BroadcastRequest Fut) → ω → ω
  | some request, w => provider.dropFut request.fut w
  | none, w => w

/-- A block was mined: the request for it takes the place of the one before. -/
def broadcast (m : FixedBlockTimeMiner B Fut) (header : Header) (w : ω) : FixedBlockTimeMiner B Fut × ω :=
  let (fut, w) := provider.broadcastBlockHeader header w
  ({ m with pendingBroadcast := some ⟨header, fut⟩ }, dropRequest provider m.pendingBroadcast w)

/-- There is a tick: mine, and look for a tick once more. -/
def onTick (m : FixedBlockTimeMiner B Fut) (w : ω) : Except Panic (FixedBlockTimeMiner B Fut × ω) := do
  let (result, chain) ← mineBlock m.chain
  let m := { m with chain }
  let (m, w) :=
    match result with
    | .mined header => m.broadcast provider header w
    | .blockFallingBehind => (m, w)
  return (m.poll.2, w)

/-- Look at the request in the slot.  Its outcome is only logged. -/
def pollBroadcast (m : FixedBlockTimeMiner B Fut) (w : ω) : FixedBlockTimeMiner B Fut × ω :=
  match m.pendingBroadcast with
  | some request =>
    match provider.pollFut request.fut w with
    | some _ => ({ m with pendingBroadcast := none }, provider.dropFut request.fut w)
    | none => (m, w)
  | none => (m, w)

/-- One call of the closure of `execute`. -/
def execute (m : FixedBlockTimeMiner B Fut) (w : ω) : Except Panic (FixedBlockTimeMiner B Fut × ω) := do
  let (m, w) ← (if m.poll.1 then m.poll.2.onTick provider mineBlock w else .ok (m.poll.2, w))
  return m.pollBroadcast provider w

/-! ## The ways a call can go -/

variable {mineBlock} {m : FixedBlockTimeMiner B Fut} (w : ω)

/-- Without a tick, only the slot is looked at. -/
theorem execute_of_no_tick (h : m.interval.overdue = 0) :
    m.execute provider mineBlock w = .ok (m.pollBroadcast provider w) := by
  obtain ⟨⟨overdue⟩, chain, pendingBroadcast⟩ := m
  obtain rfl : overdue = 0 := h
  rfl

theorem execute_of_tick (h : m.interval.overdue ≠ 0) :
    m.execute provider mineBlock w =
      m.poll.2.onTick provider mineBlock w >>= fun x => .ok (x.1.pollBroadcast provider x.2) := by
  obtain ⟨⟨_ | overdue⟩, chain, pendingBroadcast⟩ := m
  · exact absurd rfl h
  · rfl

theorem execute_of_panic (h : m.interval.overdue ≠ 0) {p : Panic} (hmine : mineBlock m.chain = .error p) :
    m.execute provider mineBlock w = .error p := by
  rw [execute_of_tick provider w h]
  unfold onTick
  rw [show mineBlock m.poll.2.chain = .error p from hmine]
  rfl

/-- No block was mined at the tick: the slot is as it was, and looked at. -/
theorem execute_of_behind (h : m.interval.overdue ≠ 0) {chain : B}
    (hmine : mineBlock m.chain = .ok (.blockFallingBehind, chain)) :
    ∃ m₁ : FixedBlockTimeMiner B Fut, m₁.pendingBroadcast = m.pendingBroadcast ∧
      m.execute provider mineBlock w = .ok (m₁.pollBroadcast provider w) := by
  refine ⟨{ m.poll.2 with chain }.poll.2, rfl, ?_⟩
  rw [execute_of_tick provider w h]
  unfold onTick
  rw [show mineBlock m.poll.2.chain = .ok (.blockFallingBehind, chain) from hmine]
  rfl

/-- A block was mined at the tick: its broadcast is in the slot, and looked at, and what was there is dropped. -/
theorem execute_of_mined (h : m.interval.overdue ≠ 0) {chain : B} {header : Header}
    (hmine : mineBlock m.chain = .ok (.mined header, chain)) :
    ∃ m₁ : FixedBlockTimeMiner B Fut,
      m₁.pendingBroadcast = some ⟨header, (provider.broadcastBlockHeader header w).1⟩ ∧
      m.execute provider mineBlock w = .ok (m₁.pollBroadcast provider
        (dropRequest provider m.pendingBroadcast (provider.broadcastBlockHeader header w).2)) := by
  refine ⟨({ m.poll.2 with chain }.broadcast provider header w).1.poll.2, rfl, ?_⟩
  rw [execute_of_tick provider w h]
  unfold onTick
  rw [show mineBlock m.poll.2.chain = .ok (.mined header, chain) from hmine]
  rfl

end FixedBlockTimeMiner

/-- `BlockTree::mine_block` of a chain, with its draws. -/
def Chain.mine (P : Platform) (draws : Chain.Draws) (db : Db) : Except Panic (MineBlockResult × Db) :=
  match (Chain.mineBlock P draws).runOn db with
  | (.ok result, db) => .ok (result, db)
  | (.error (.error e), _) => .error (.miningFailed e)
  | (.error (.panic p), _) => .error p

end Simb.BlockTree
