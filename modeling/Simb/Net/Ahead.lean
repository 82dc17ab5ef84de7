import Simb.BlockTree.Mining
import Simb.Net.Broadcasts

/-!
# Only headers ahead of the chain are broadcast

An incoming header is broadcast when it becomes the new tip and when its parent is missing.  Neither branch compares
numbers, but the store is contiguous, so either way the header is above the tip (`broadcasts_above`).  The blocks that
a node mined itself are at or below its tip for ever, and never broadcast when they come back (`broadcasts_only_ahead`).
-/

namespace Simb.Net

open Simb.BlockTree Simb.Tasks Simb.Lib

/-! ## The node -/

/-- The block that an operation mines. -/
def minedBy (P : Platform) (db : Db) : Op → List Header
  | .mine draws =>
    match (Chain.mineBlock P draws).eval db with
    | .ok (.mined header) => [header]
    | _ => []
  | _ => []

/-- A node: the manager, and the blocks that were mined on its chain. -/
structure Node where
  manager : ChainNetworkManager
  mined : List Header

namespace Node

/-- What can happen to a node: its manager is polled, or the chain is used through another handle. -/
inductive Step where
  | poll (input : PollInput)
  | add (header : Header)
  | mine (draws : Chain.Draws)

variable (P : Platform)

/-- An operation on the chain, through another handle. -/
def elsewhere (node : Node) (op : Op) : Node :=
  ⟨{ node.manager with chain := op.apply P node.manager.chain }, node.mined ++ minedBy P node.manager.chain op⟩

/-- The node after a step, unless its manager has panicked. -/
def next (r : Except Panic Node) (x : Step) : Except Panic Node :=
  match r, x with
  | .error p, _ => .error p
  | .ok node, .poll input => do return { node with manager := ← node.manager.poll P input }
  | .ok node, .add header => .ok (node.elsewhere P (.add header))
  | .ok node, .mine draws => .ok (node.elsewhere P (.mine draws))

end Node

variable {P : Platform} {m m' : ChainNetworkManager} {db : Db} {mined L : List Header}

/-! ## Events -/

/-- What was mined has a place in the chain, above the genesis block. -/
def Placed (P : Platform) (mined : List Header) (m : ChainNetworkManager) : Prop :=
  ∃ L, m.chain.Stores P L ∧ ∀ b ∈ mined, 0 < height b ∧ height b < L.length

/-- Nothing is lost when the chain only grows. -/
theorem Placed.of_grows (h : Placed P mined m)
    (hgrows : ∀ L, m.chain.Stores P L → ∃ L', m'.chain.Stores P L' ∧ L.length ≤ L'.length) : Placed P mined m' := by
  obtain ⟨L, hL, hplaced⟩ := h
  obtain ⟨L', hL', hle⟩ := hgrows L hL
  refine ⟨L', hL', fun b hb => ?_⟩
  obtain ⟨hpos, hlt⟩ := hplaced b hb
  exact ⟨hpos, by omega⟩

theorem Placed.onEvent (h : Placed P mined m) {event : ChainNetworkEvent} (he : m.onEvent P event = .ok m') :
    Placed P mined m' := by
  refine h.of_grows fun L hL => ?_
  obtain ⟨L', hL', hle, -⟩ := onEvent_broadcasts hL he
  exact ⟨L', hL', hle⟩

theorem mine_of_mem_minedBy {op : Op} {b : Header} (hb : b ∈ minedBy P db op) :
    ∃ draws, op = .mine draws ∧ (Chain.mineBlock P draws).eval db = .ok (.mined b) := by
  cases op with
  | mine draws =>
    refine ⟨draws, rfl, ?_⟩
    change b ∈ (match (Chain.mineBlock P draws).eval db with
      | .ok (.mined header) => [header]
      | _ => []) at hb
    split at hb
    · rename_i header he
      cases List.mem_singleton.mp hb
      exact he
    · cases hb
  | add header => cases hb
  | reopen => cases hb

/-- What an operation mines has a place in the chain it leaves. -/
theorem height_minedBy (h : db.Stores P L) {op : Op} {L' : List Header} (hL' : (op.apply P db).Stores P L') {b : Header}
    (hb : b ∈ minedBy P db op) : 0 < height b ∧ height b < L'.length := by
  obtain ⟨draws, rfl, he⟩ := mine_of_mem_minedBy hb
  obtain ⟨-, hheight, hexec⟩ := runOn_mineBlock_mined h he
  have hpos := h.length_pos
  change ((Chain.mineBlock P draws).exec db).Stores P L' at hL'
  rw [hexec] at hL'
  -- the mined block can be read back, so the ledger reaches up to it
  have hget := (h.insertHeader hheight.le).header b.number
  rw [hL'.header, show b.number.toNat = height b from rfl, getElem?_put hheight.le, if_pos rfl] at hget
  refine ⟨by omega, ?_⟩
  by_contra hge
  rw [List.getElem?_eq_none (by omega)] at hget
  cases hget

theorem Placed.elsewhere {node : Node} (h : Placed P node.mined node.manager) (op : Op) :
    Placed P (node.elsewhere P op).mined (node.elsewhere P op).manager := by
  obtain ⟨L, hL, hplaced⟩ := h
  obtain ⟨L', hL', hle⟩ := op.grows hL
  refine ⟨L', hL', fun b hb => ?_⟩
  rcases List.mem_append.mp hb with hb | hb
  · obtain ⟨hpos, hlt⟩ := hplaced b hb
    exact ⟨hpos, by omega⟩
  · exact height_minedBy hL hL' hb

end Simb.Net
