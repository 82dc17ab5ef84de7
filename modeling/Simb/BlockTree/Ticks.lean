import Simb.BlockTree.Miner
import Simb.BlockTree.Mining

/-!
# The ticks of the miner

The closure of `execute` looks for a tick, mines if there is one, and then looks for a tick once more, only to be woken
at the next.  If a second tick is there by then, it is taken and thrown away: no block is mined for it, and the
closure returns `Pending` although no waker is registered with the interval (`second_tick_lost`).  It goes well
exactly if whenever a tick is taken, no other is due before `mine_block` has returned (`ticks_answered_iff`).
-/

namespace Simb.BlockTree

open Simb.Lib

/-- What the closure does with the interval and the chain. -/
inductive MinerAct where
  | pollTick (ready : Bool)
  | mineBlock
  deriving DecidableEq

/-- A call of the closure. -/
structure MinerCall where
  /-- What it did, oldest first. -/
  acts : List MinerAct
  /-- It returned, with `Pending`; otherwise `mine_block` panicked. -/
  returned : Bool

/-- Every tick that is taken is answered by one `mine_block`, and there is no other. -/
def Answered : List MinerAct → Prop
  | [] => True
  | .pollTick false :: acts => Answered acts
  | .pollTick true :: .mineBlock :: acts => Answered acts
  | _ => False

/-- What the last `poll_tick` said. -/
def lastPoll (acts : List MinerAct) : Option Bool :=
  (acts.filterMap fun act => match act with
    | .pollTick ready => some ready
    | .mineBlock => none).getLast?

/-- No tick is swallowed by the call, and it does not return without a waker. -/
structure MinerCall.Prompt (call : MinerCall) : Prop where
  answered : Answered call.acts
  waits : call.returned = true → lastPoll call.acts = some false

variable {B Fut ω : Type} {provider : BroadcastProvider ω Fut}

section

variable (provider) (mineBlock : B → Except Panic (MineBlockResult × B)) (during : ℕ)

/-- `onTick`, with what it does.  While `mine_block` runs, `during` ticks become due. -/
def FixedBlockTimeMiner.onTickLogged (m : FixedBlockTimeMiner B Fut) (w : ω) :
    List MinerAct × Except Panic (FixedBlockTimeMiner B Fut × ω) :=
  match mineBlock m.chain with
  | .error p => ([.mineBlock], .error p)
  | .ok (result, chain) =>
    let m := { m with chain, interval := Interval.elapse^[during] m.interval }
    let (m, w) :=
      match result with
      | .mined header => m.broadcast provider header w
      | .blockFallingBehind => (m, w)
    ([.mineBlock, .pollTick m.poll.1], .ok (m.poll.2, w))

/-- One call of the closure of `execute`, with what it does. -/
def FixedBlockTimeMiner.executeLogged (m : FixedBlockTimeMiner B Fut) (w : ω) :
    List MinerAct × Except Panic (FixedBlockTimeMiner B Fut × ω) :=
  if m.poll.1 then
    let (acts, r) := m.poll.2.onTickLogged provider mineBlock during w
    (.pollTick true :: acts, do let (m, w) ← r; return m.pollBroadcast provider w)
  else ([.pollTick false], .ok (m.poll.2.pollBroadcast provider w))

end

/-! ## The system -/

/-- A miner, the world of its provider, and the calls of the closure so far. -/
structure TickedMiner (B Fut ω : Type) where
  /-- The miner, until it panics. -/
  miner : Option (FixedBlockTimeMiner B Fut)
  world : ω
  calls : List MinerCall

inductive TickStep (B ω : Type) where
  /-- A tick of the interval is due. -/
  | elapse
  /-- The chain is changed through another handle. -/
  | elsewhere (f : B → B)
  /-- Something happens to the provider, such as the completion of a broadcast. -/
  | world (f : ω → ω)
  /-- The task is polled.  This is what `mine_block` does if it is called, and how many ticks become due meanwhile. -/
  | poll (mineBlock : B → Except Panic (MineBlockResult × B)) (during : ℕ)

namespace TickedMiner

def new (chain : B) (w : ω) : TickedMiner B Fut ω := ⟨some (.new chain), w, []⟩

variable (provider) in
/-- The closure is called, unless the task has panicked. -/
def poll (s : TickedMiner B Fut ω) (mineBlock : B → Except Panic (MineBlockResult × B)) (during : ℕ) :
    TickedMiner B Fut ω :=
  match s.miner with
  | none => s
  | some m =>
    match m.executeLogged provider mineBlock during s.world with
    | (acts, .ok (m, w)) => ⟨some m, w, s.calls ++ [⟨acts, true⟩]⟩
    | (acts, .error _) =>
      ⟨none, FixedBlockTimeMiner.dropRequest provider m.pendingBroadcast s.world, s.calls ++ [⟨acts, false⟩]⟩

variable (provider) in
def next (s : TickedMiner B Fut ω) : TickStep B ω → TickedMiner B Fut ω
  | .elapse => { s with miner := s.miner.map fun m => { m with interval := m.interval.elapse } }
  | .elsewhere f => { s with miner := s.miner.map fun m => { m with chain := f m.chain } }
  | .world f => { s with world := f s.world }
  | .poll mineBlock during => s.poll provider mineBlock during

/-- No call so far has swallowed a tick or returned without a waker. -/
def NoTickLost (s : TickedMiner B Fut ω) : Prop := ∀ call ∈ s.calls, call.Prompt

/-- When a tick is taken, no other one is due before `mine_block` has returned, if it returns. -/
def OneTickAtATime (s : TickedMiner B Fut ω) (x : TickStep B ω) : Prop :=
  ∀ m mineBlock during, s.miner = some m → x = .poll mineBlock during → m.interval.overdue ≠ 0 →
    m.interval.overdue + during = 1 ∨ ∃ p, mineBlock m.chain = .error p

end TickedMiner

/-! ## One call of the closure -/

theorem iterate_elapse (n : ℕ) (i : Interval) : Interval.elapse^[n] i = ⟨i.overdue + n⟩ := by
  induction n generalizing i with
  | zero => rfl
  | succ n ih =>
    rw [Function.iterate_succ_apply, ih]
    show (⟨i.overdue + 1 + n⟩ : Interval) = ⟨i.overdue + (n + 1)⟩
    rw [Nat.add_assoc, Nat.add_comm 1 n]

theorem pollTick_fst (n : ℕ) : (Interval.pollTick ⟨n⟩).1 = decide (n ≠ 0) := by
  cases n with
  | zero => rfl
  | succ n => simp [Interval.pollTick]

section

variable (provider : BroadcastProvider ω Fut) (mineBlock : B → Except Panic (MineBlockResult × B)) (during : ℕ)
variable {m : FixedBlockTimeMiner B Fut} (w : ω)

/-- The log aside, `onTick` finds the ticks that became due while it mined. -/
theorem onTickLogged_snd (m : FixedBlockTimeMiner B Fut) :
    (m.onTickLogged provider mineBlock during w).2 =
      { m with interval := Interval.elapse^[during] m.interval }.onTick provider mineBlock w := by
  unfold FixedBlockTimeMiner.onTickLogged FixedBlockTimeMiner.onTick
  rcases mineBlock m.chain with p | ⟨result, chain⟩
  · rfl
  · cases result with
    | mined header => rfl
    | blockFallingBehind => rfl

/-- The log aside, the call is `execute`: ticks that become due while it mines might as well have been due before. -/
theorem executeLogged_snd (m : FixedBlockTimeMiner B Fut) :
    (m.executeLogged provider mineBlock during w).2 =
      (if m.interval.overdue = 0 then m else { m with interval := Interval.elapse^[during] m.interval }).execute
        provider mineBlock w := by
  obtain ⟨⟨_ | overdue⟩, chain, pendingBroadcast⟩ := m
  · rfl
  have hdue : Interval.elapse^[during] ⟨overdue + 1⟩ = ⟨overdue + during + 1⟩ := by
    rw [iterate_elapse, Nat.add_right_comm]
  have htick := onTickLogged_snd provider mineBlock during w ⟨⟨overdue⟩, chain, pendingBroadcast⟩
  rw [iterate_elapse] at htick
  rw [if_neg (Nat.succ_ne_zero overdue), hdue, FixedBlockTimeMiner.execute_of_tick provider w (Nat.succ_ne_zero _)]
  exact congrArg (· >>= fun x => .ok (x.1.pollBroadcast provider x.2)) htick

variable {mineBlock}

theorem onTickLogged_of_panic {p : Panic} (hmine : mineBlock m.chain = .error p) :
    m.onTickLogged provider mineBlock during w = ([.mineBlock], .error p) := by
  unfold FixedBlockTimeMiner.onTickLogged
  rw [hmine]

theorem onTickLogged_of_ok {result : MineBlockResult} {chain : B} (hmine : mineBlock m.chain = .ok (result, chain)) :
    ∃ x, m.onTickLogged provider mineBlock during w =
      ([.mineBlock, .pollTick (decide (m.interval.overdue + during ≠ 0))], .ok x) := by
  unfold FixedBlockTimeMiner.onTickLogged
  rw [hmine, ← pollTick_fst, ← iterate_elapse]
  cases result with
  | mined header => exact ⟨_, rfl⟩
  | blockFallingBehind => exact ⟨_, rfl⟩

theorem executeLogged_of_no_tick (h : m.interval.overdue = 0) :
    m.executeLogged provider mineBlock during w = ([.pollTick false], .ok (m.pollBroadcast provider w)) := by
  obtain ⟨⟨overdue⟩, chain, pendingBroadcast⟩ := m
  obtain rfl : overdue = 0 := h
  rfl

theorem executeLogged_of_tick (h : m.interval.overdue ≠ 0) :
    m.executeLogged provider mineBlock during w =
      (.pollTick true :: (m.poll.2.onTickLogged provider mineBlock during w).1,
        (m.poll.2.onTickLogged provider mineBlock during w).2 >>= fun x => .ok (x.1.pollBroadcast provider x.2)) := by
  obtain ⟨⟨_ | overdue⟩, chain, pendingBroadcast⟩ := m
  · exact absurd rfl h
  · rfl

theorem executeLogged_of_panic (h : m.interval.overdue ≠ 0) {p : Panic} (hmine : mineBlock m.chain = .error p) :
    m.executeLogged provider mineBlock during w = ([.pollTick true, .mineBlock], .error p) := by
  rw [executeLogged_of_tick provider during w h, onTickLogged_of_panic provider during w (m := m.poll.2) hmine]
  rfl

theorem executeLogged_of_ok (h : m.interval.overdue ≠ 0) {result : MineBlockResult} {chain : B}
    (hmine : mineBlock m.chain = .ok (result, chain)) :
    ∃ x, m.executeLogged provider mineBlock during w =
      ([.pollTick true, .mineBlock, .pollTick (decide (m.interval.overdue + during ≠ 1))], .ok x) := by
  obtain ⟨x, hx⟩ := onTickLogged_of_ok provider during w (m := m.poll.2) hmine
  refine ⟨x.1.pollBroadcast provider x.2, ?_⟩
  rw [executeLogged_of_tick provider during w h, hx]
  obtain ⟨⟨_ | overdue⟩, chain₀, pendingBroadcast⟩ := m
  · exact absurd rfl h
  · have hiff : overdue + during ≠ 0 ↔ overdue + 1 + during ≠ 1 := by omega
    show ([_, _, MinerAct.pollTick (decide (overdue + during ≠ 0))], _) = _
    rw [decide_eq_decide.mpr hiff]
    rfl

end

/-! ## Whole runs -/

namespace TickedMiner

variable {s : TickedMiner B Fut ω}

theorem noTickLost_append_iff {calls : List MinerCall} {call : MinerCall} {miner : Option (FixedBlockTimeMiner B Fut)}
    {w : ω} (h : ∀ call ∈ calls, call.Prompt) :
    (⟨miner, w, calls ++ [call]⟩ : TickedMiner B Fut ω).NoTickLost ↔ call.Prompt := by
  constructor
  · intro hall
    exact hall call (by simp)
  · intro hcall call' hmem
    rcases List.mem_append.mp hmem with hmem | hmem
    · exact h call' hmem
    · cases List.mem_singleton.mp hmem
      exact hcall

/-- A step that is not a call, or finds the task gone, loses nothing. -/
theorem oneTickAtATime_of_not_poll {x : TickStep B ω}
    (hx : ∀ m mineBlock during, s.miner = some m → x ≠ .poll mineBlock during) : s.OneTickAtATime x := by
  intro m mineBlock during hm heq
  exact absurd heq (hx m mineBlock during hm)

/-- The log of a call that takes a tick and mines: its second look decides. -/
theorem prompt_of_ok_iff (again : Bool) :
    (⟨[.pollTick true, .mineBlock, .pollTick again], true⟩ : MinerCall).Prompt ↔ again = false := by
  constructor
  · rintro ⟨-, hwaits⟩
    exact Option.some.inj (hwaits rfl)
  · rintro rfl
    exact ⟨trivial, fun _ => rfl⟩

theorem noTickLost_poll_iff (h : s.NoTickLost) {m : FixedBlockTimeMiner B Fut} (hm : s.miner = some m)
    (mineBlock : B → Except Panic (MineBlockResult × B)) (during : ℕ) :
    (s.poll provider mineBlock during).NoTickLost ↔
      (m.interval.overdue ≠ 0 → m.interval.overdue + during = 1 ∨ ∃ p, mineBlock m.chain = .error p) := by
  unfold poll
  rw [hm]
  by_cases hzero : m.interval.overdue = 0
  · simp only [executeLogged_of_no_tick provider during s.world hzero, noTickLost_append_iff h]
    exact ⟨fun _ hne => absurd hzero hne, fun _ => ⟨trivial, fun _ => rfl⟩⟩
  rcases hmine : mineBlock m.chain with p | ⟨result, chain⟩
  · simp only [executeLogged_of_panic provider during s.world hzero hmine, noTickLost_append_iff h]
    exact ⟨fun _ _ => .inr ⟨p, rfl⟩, fun _ => ⟨trivial, fun hc => absurd hc Bool.false_ne_true⟩⟩
  · obtain ⟨y, hy⟩ := executeLogged_of_ok provider during s.world hzero hmine
    simp only [hy, noTickLost_append_iff h, prompt_of_ok_iff, decide_eq_false_iff_not, not_not]
    constructor
    · exact fun hone _ => .inl hone
    · intro hone
      rcases hone hzero with hone | ⟨p, hp⟩
      · exact hone
      · cases hp

theorem noTickLost_next_iff (h : s.NoTickLost) (x : TickStep B ω) :
    (s.next provider x).NoTickLost ↔ s.OneTickAtATime x := by
  cases x with
  | elapse => exact iff_of_true h (oneTickAtATime_of_not_poll (by simp))
  | elsewhere f => exact iff_of_true h (oneTickAtATime_of_not_poll (by simp))
  | world f => exact iff_of_true h (oneTickAtATime_of_not_poll (by simp))
  | poll mineBlock during =>
    cases hm : s.miner with
    | none =>
      have hsame : s.next provider (.poll mineBlock during) = s := by
        show s.poll provider mineBlock during = s
        unfold poll
        rw [hm]
      rw [hsame]
      exact iff_of_true h (oneTickAtATime_of_not_poll (by simp [hm]))
    | some m =>
      refine (noTickLost_poll_iff h hm mineBlock during).trans ?_
      constructor
      · rintro hone m' _ _ hm' ⟨⟩
        cases hm.symm.trans hm'
        exact hone
      · intro hone
        exact hone m mineBlock during hm rfl

end TickedMiner

/-- **When no tick is lost.**  In a run of the miner's task, with any block tree and any provider, every tick that is
taken is answered by one `mine_block`, and the closure only returns with a waker for the next tick, exactly if
whenever a tick is taken no other is due before `mine_block` has returned. -/
theorem ticks_answered_iff (provider : BroadcastProvider ω Fut) (chain : B) (w : ω) (steps : List (TickStep B ω)) :
    EveryState (TickedMiner.next provider) TickedMiner.NoTickLost (.new chain w) steps ↔
      EveryStep (TickedMiner.next provider) TickedMiner.OneTickAtATime (.new chain w) steps :=
  everyState_iff_everyStep (J := fun _ => True) (fun _ _ _ => trivial)
    (fun _ x _ h => TickedMiner.noTickLost_next_iff h x) trivial (fun _ h => absurd h List.not_mem_nil)

/-! ### Two ticks at one poll -/

/-- A provider whose broadcasts succeed at once. -/
def succeeds : BroadcastProvider Unit Unit where
  broadcastBlockHeader _ _ := ((), ())
  pollFut _ _ := some (.ok ())
  dropFut _ _ := ()

/-- The task of a fresh chain is polled late, when a second tick is overdue. -/
def latePoll : List (TickStep Db Unit) := [.elapse, .poll (Chain.mine (sample true) zeroDraws) 0]

/-- One block is mined for the two ticks, and the task sleeps without a waker. -/
theorem second_tick_lost :
    ((latePoll.foldl (TickedMiner.next succeeds) (.new (Chain.new (sample true) Db.empty) ())).calls.map
        MinerCall.acts = [[.pollTick true, .mineBlock, .pollTick true]]) ∧
      ¬ EveryState (TickedMiner.next succeeds) TickedMiner.NoTickLost
        (.new (Chain.new (sample true) Db.empty) ()) latePoll := by
  have hmine : ∃ result chain,
      Chain.mine (sample true) zeroDraws (Chain.new (sample true) Db.empty) = .ok (result, chain) := by
    unfold Chain.mine
    rw [runOn_mineBlock_below (stores_new _) (by decide)]
    exact ⟨_, _, rfl⟩
  obtain ⟨result, chain, hmine⟩ := hmine
  obtain ⟨x, hx⟩ := executeLogged_of_ok succeeds 0 () (m := ⟨⟨2⟩, Chain.new (sample true) Db.empty, none⟩)
    (Nat.succ_ne_zero 1) hmine
  have hrun : latePoll.foldl (TickedMiner.next succeeds) (.new (Chain.new (sample true) Db.empty) ()) =
      ⟨some x.1, x.2, [⟨[.pollTick true, .mineBlock, .pollTick true], true⟩]⟩ := by
    show TickedMiner.poll succeeds ⟨some ⟨⟨2⟩, Chain.new (sample true) Db.empty, none⟩, (), []⟩
      (Chain.mine (sample true) zeroDraws) 0 = _
    unfold TickedMiner.poll
    simp only [hx]
    rfl
  constructor
  · rw [hrun]
    rfl
  · rintro ⟨-, -, hlost⟩
    have hlast : TickedMiner.NoTickLost
        (latePoll.foldl (TickedMiner.next succeeds) (.new (Chain.new (sample true) Db.empty) ())) := hlost.head
    rw [hrun] at hlast
    have hagain := (TickedMiner.prompt_of_ok_iff true).1 (hlast _ List.mem_cons_self)
    cases hagain

end Simb.BlockTree
