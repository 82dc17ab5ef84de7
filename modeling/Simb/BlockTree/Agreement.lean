import Simb.BlockTree.Mining

/-!
# One miner and its followers

A network of nodes, one of which mines.  What the miner has mined reaches the others by gossip or in answers
to sync requests: in any order, any number of times, or never.  The ledger of every node stays a prefix of
the miner's (`Nodes.Follows`), so any two nodes agree wherever both have a header, and no delivery changes a
header (`singleMiner_agreement`).
-/

namespace Simb.BlockTree

open Simb.Lib

variable {ι : Type}

/-- The databases of the nodes, and all that the miner has mined. -/
structure Nodes (ι : Type) where
  db : ι → Db
  mined : List Header

/-- A step of the network: the miner calls `mine_block`, or a header reaches a node. -/
inductive NodeStep (ι : Type) where
  | mine (draws : Chain.Draws)
  | deliver (i : ι) (header : Header)

namespace Nodes

variable (P : Platform) (miner : ι)

/-- All nodes are started on fresh databases. -/
def start : Nodes ι := ⟨fun _ => Chain.new P Db.empty, []⟩

/-- One step of the network. -/
def step [DecidableEq ι] (s : Nodes ι) : NodeStep ι → Nodes ι
  | .mine draws =>
    { db := Function.update s.db miner ((Chain.mineBlock P draws).exec (s.db miner))
      mined := match (Chain.mineBlock P draws).eval (s.db miner) with
        | .ok (.mined header) => s.mined ++ [header]
        | _ => s.mined }
  | .deliver i header => { s with db := Function.update s.db i (addTo P (s.db i) header) }

/-- The tip of the miner is below the last number, and only the genesis block and what was mined is delivered. -/
def Permitted (s : Nodes ι) : NodeStep ι → Prop
  | .mine _ => Below P (s.db miner)
  | .deliver _ header => Below P (s.db miner) ∧ (header = Chain.genesis P ∨ header ∈ s.mined)

end Nodes

/-- The `HEADER` table of `db` is that of `db'` up to the tip of `db`, and empty above. -/
def HeaderPrefix (P : Platform) (db db' : Db) : Prop :=
  ∃ t t', (Chain.tip P).eval db = .ok t ∧ (Chain.tip P).eval db' = .ok t' ∧ t.number ≤ t'.number ∧
    ∀ n : UInt64, db.header[n]? = if n ≤ t.number then db'.header[n]? else none

/-- Every node has a prefix of what the miner has, nodes agree where both have a header, and what can be
delivered next changes no header. -/
structure Nodes.Agree (P : Platform) (miner : ι) (s : Nodes ι) : Prop where
  followers : ∀ i, HeaderPrefix P (s.db i) (s.db miner)
  agree : ∀ (i j : ι) (n : UInt64) (b c : Header), (Chain.getHeaderByBlockNumber P n).eval (s.db i) = .ok b →
    (Chain.getHeaderByBlockNumber P n).eval (s.db j) = .ok c → b = c
  keeps : ∀ (i : ι) (header : Header), header = Chain.genesis P ∨ header ∈ s.mined →
    ∀ (n : UInt64) (buf : List UInt8), (s.db i).header[n]? = some buf →
      (addTo P (s.db i) header).header[n]? = some buf

/-- Node `i` holds the ledger `ledgers i`, a prefix of the miner's, which has everything that was mined. -/
structure Nodes.Follows (P : Platform) (miner : ι) (s : Nodes ι) (ledgers : ι → List Header) : Prop where
  stores : ∀ i, (s.db i).Stores P (ledgers i)
  follower : ∀ i, ledgers i <+: ledgers miner
  genesis : (ledgers miner)[0]? = some (Chain.genesis P)
  mined : ∀ header ∈ s.mined, (ledgers miner)[height header]? = some header

variable {P : Platform} {miner : ι} {s : Nodes ι} {ledgers : ι → List Header} {db : Db} {L : List Header}

/-! ## Every ledger is a prefix of the miner's -/

theorem follows_start (P : Platform) (miner : ι) :
    (Nodes.start P).Follows P miner fun _ => [Chain.genesis P] where
  stores _ := stores_new P
  follower _ := List.prefix_rfl
  genesis := rfl
  mined _ h := by cases h

/-- A header that the miner has is put where the miner has it. -/
theorem addHeader_isPrefix {M : List Header} {header : Header} (h : L <+: M) (hM : M[height header]? = some header) :
    addHeader P L header <+: M := by
  unfold addHeader
  split
  · rename_i hv
    exact put_isPrefix h hM (height_le_of_validate hv)
  · exact h

theorem addHeader_eq_self {header : Header} (hb : L[height header]? = some header) : addHeader P L header = L := by
  unfold addHeader
  split
  · exact put_eq_self hb
  · rfl

/-- The database and the ledger of one node change. -/
theorem stores_update [DecidableEq ι] {dbs : ι → Db} (h : ∀ i, (dbs i).Stores P (ledgers i)) (i : ι)
    (hi : db.Stores P L) (j : ι) : (Function.update dbs i db j).Stores P (Function.update ledgers i L j) := by
  by_cases hj : j = i
  · subst hj
    rw [Function.update_self, Function.update_self]
    exact hi
  · rw [Function.update_of_ne hj, Function.update_of_ne hj]
    exact h j

namespace Nodes.Follows

theorem delivered (h : s.Follows P miner ledgers) {header : Header}
    (hd : header = Chain.genesis P ∨ header ∈ s.mined) : (ledgers miner)[height header]? = some header := by
  rcases hd with rfl | hd
  · exact h.genesis
  · exact h.mined header hd

variable [DecidableEq ι]

theorem deliver (h : s.Follows P miner ledgers) (i : ι) {header : Header}
    (hd : header = Chain.genesis P ∨ header ∈ s.mined) :
    (s.step P miner (.deliver i header)).Follows P miner
      (Function.update ledgers i (addHeader P (ledgers i) header)) := by
  have hM := h.delivered hd
  -- the miner has the header, so its own ledger does not change
  have hminer : Function.update ledgers i (addHeader P (ledgers i) header) miner = ledgers miner := by
    by_cases hi : miner = i
    · subst hi
      rw [Function.update_self, addHeader_eq_self hM]
    · rw [Function.update_of_ne hi]
  refine ⟨stores_update h.stores i ((h.stores i).addTo header), ?_, by rw [hminer]; exact h.genesis,
    by rw [hminer]; exact h.mined⟩
  intro j
  rw [hminer]
  by_cases hj : j = i
  · subst hj
    rw [Function.update_self]
    exact addHeader_isPrefix (h.follower j) hM
  · rw [Function.update_of_ne hj]
    exact h.follower j

theorem mine (h : s.Follows P miner ledgers) (hb : Below P (s.db miner)) (draws : Chain.Draws) :
    ∃ ledgers', (s.step P miner (.mine draws)).Follows P miner ledgers' := by
  have hM := h.stores miner
  rw [below_iff hM] at hb
  have hrun := runOn_mineBlock_below hM hb draws
  have hheight := height_minedOn_getLast hM hb draws
  generalize minedOn P draws ((ledgers miner).getLast hM.ne_nil) = m at hrun hheight
  have hstep : s.step P miner (.mine draws) =
      ⟨Function.update s.db miner (Chain.insertHeader P m (s.db miner)), s.mined ++ [m]⟩ := by
    simp only [Nodes.step, ChainM.eval_eq, ChainM.exec_eq, hrun]
  have hold : ∀ {i : ℕ} {b : Header}, (ledgers miner)[i]? = some b →
      (put height (ledgers miner) m)[i]? = some b := by
    intro i b hib
    exact getElem?_put_of_some hheight.le (fun hlt => absurd hlt (by omega)) hib
  rw [hstep]
  refine ⟨Function.update ledgers miner (put height (ledgers miner) m),
    stores_update h.stores miner (hM.insertHeader hheight.le), ?_, ?_, ?_⟩
  · intro j
    rw [Function.update_self]
    by_cases hj : j = miner
    · subst hj
      rw [Function.update_self]
    · rw [Function.update_of_ne hj]
      exact prefix_put_of_length_le (h.follower j) hheight.ge
  · rw [Function.update_self]
    exact hold h.genesis
  · intro header hmem
    rw [Function.update_self]
    rcases List.mem_append.mp hmem with hmem | hmem
    · exact hold (h.mined header hmem)
    · rw [List.mem_singleton.mp hmem, getElem?_put hheight.le, if_pos rfl]

end Nodes.Follows

/-! ## Agreement -/

theorem getElem?_of_isPrefix {M : List Header} (h : L <+: M) {n : ℕ} {b : Header} (hb : L[n]? = some b) :
    M[n]? = some b := by
  obtain ⟨hlt, rfl⟩ := List.getElem?_eq_some_iff.mp hb
  exact List.prefix_iff_getElem?.mp h n hlt

theorem headerPrefix_of_isPrefix {db' : Db} {M : List Header} (h : db.Stores P L) (h' : db'.Stores P M)
    (hpre : L <+: M) : HeaderPrefix P db db' := by
  refine ⟨_, _, (eval_tip_eq_ok h).2 rfl, (eval_tip_eq_ok h').2 rfl, ?_, ?_⟩
  · have hle := hpre.length_le
    rw [UInt64.le_iff_toNat_le, h.number_getLast, h'.number_getLast]
    omega
  · intro n
    rw [h.header, h'.header]
    by_cases hn : n.toNat < L.length
    · have hget : L[n.toNat]? = some L[n.toNat] := List.getElem?_eq_getElem hn
      rw [if_pos ((number_le_tip_iff h).2 hn), hget, getElem?_of_isPrefix hpre hget]
    · rw [if_neg fun hc => hn ((number_le_tip_iff h).1 hc), List.getElem?_eq_none (by omega), Option.map_none]

theorem Nodes.Follows.agree (h : s.Follows P miner ledgers) : s.Agree P miner where
  followers i := headerPrefix_of_isPrefix (h.stores i) (h.stores miner) (h.follower i)
  agree i j n b c hb hc := by
    rw [eval_getHeaderByBlockNumber_eq_ok (h.stores i)] at hb
    rw [eval_getHeaderByBlockNumber_eq_ok (h.stores j)] at hc
    have hb' := getElem?_of_isPrefix (h.follower i) hb
    rw [getElem?_of_isPrefix (h.follower j) hc] at hb'
    exact (Option.some.inj hb').symm
  keeps i header hd n buf hn := by
    have hpre : addHeader P (ledgers i) header <+: ledgers miner :=
      addHeader_isPrefix (h.follower i) (h.delivered hd)
    have hlen := length_le_addHeader (P := P) (ledgers i) header
    rw [(h.stores i).header, Option.map_eq_some_iff] at hn
    obtain ⟨b, hb, rfl⟩ := hn
    obtain ⟨hlt, -⟩ := List.getElem?_eq_some_iff.mp hb
    have hget : (addHeader P (ledgers i) header)[n.toNat]? = some (addHeader P (ledgers i) header)[n.toNat] :=
      List.getElem?_eq_getElem (by omega)
    have heq := (getElem?_of_isPrefix hpre hget).symm.trans (getElem?_of_isPrefix (h.follower i) hb)
    rw [((h.stores i).addTo header).header, hget, heq, Option.map_some]

/-- **One miner, and all nodes agree.**  In every state of every run of the network, each node's `HEADER` table
is a prefix of the miner's, any two nodes have the same header wherever both have one, and no header that
can be delivered changes what a node has. -/
theorem singleMiner_agreement [DecidableEq ι] (P : Platform) (miner : ι) (steps : List (NodeStep ι))
    (h : EveryStep (Nodes.step P miner) (Nodes.Permitted P miner) (Nodes.start P) steps) :
    EveryState (Nodes.step P miner) (Nodes.Agree P miner) (Nodes.start P) steps := by
  have hstep : ∀ (s : Nodes ι) (x : NodeStep ι), (∃ ledgers, s.Follows P miner ledgers) →
      s.Permitted P miner x → ∃ ledgers, (s.step P miner x).Follows P miner ledgers := by
    rintro s x ⟨ledgers, hs⟩ hx
    cases x with
    | mine draws => exact hs.mine hx draws
    | deliver i header => exact ⟨_, hs.deliver i hx.2⟩
  refine (everyState_of_everyStep hstep ⟨_, follows_start P miner⟩ h).mono ?_
  rintro s ⟨ledgers, hs⟩
  exact hs.agree

/-- A follower gets the genesis block again, the miner mines, and the block reaches the follower. -/
theorem singleMiner_agreement_two :
    EveryState (Nodes.step (sample true) true) (Nodes.Agree (sample true) true) (Nodes.start (sample true))
      [.deliver false (Chain.genesis (sample true)), .mine zeroDraws,
        .deliver false (minedOn (sample true) zeroDraws (Chain.genesis (sample true)))] := by
  have hnew := stores_new (sample true)
  have hb : Below (sample true) (Chain.new (sample true) Db.empty) := (below_iff hnew).2 (by decide)
  have hmine := runOn_mineBlock_below hnew (by decide) zeroDraws
  have hexec : (Chain.mineBlock (sample true) zeroDraws).exec (Chain.new (sample true) Db.empty) =
    Chain.insertHeader (sample true) (minedOn (sample true) zeroDraws (Chain.genesis (sample true)))
      (Chain.new (sample true) Db.empty) := congrArg Prod.snd hmine
  have heval : (Chain.mineBlock (sample true) zeroDraws).eval (Chain.new (sample true) Db.empty) =
    .ok (.mined (minedOn (sample true) zeroDraws (Chain.genesis (sample true)))) := congrArg Prod.fst hmine
  refine singleMiner_agreement _ _ _ ⟨⟨hb, .inl rfl⟩, hb, ⟨?_, .inr ?_⟩, trivial⟩
  · show Below _ ((Chain.mineBlock (sample true) zeroDraws).exec (Chain.new (sample true) Db.empty))
    rw [hexec]
    have h1 : height (minedOn (sample true) zeroDraws (Chain.genesis (sample true))) ≤
      [Chain.genesis (sample true)].length := by decide
    exact (below_iff (hnew.insertHeader h1)).2 (by decide)
  · show _ ∈ (match (Chain.mineBlock (sample true) zeroDraws).eval (Chain.new (sample true) Db.empty) with
      | .ok (.mined header) => [] ++ [header]
      | _ => [])
    rw [heval]
    exact List.mem_singleton.mpr rfl

end Simb.BlockTree
