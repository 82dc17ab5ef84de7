import Simb.BlockTree.Agreement
import Simb.Cluster.Defs
import Simb.RpcSpec

/-!
# One miner in each group

The nodes of a cluster fall into groups, and in each group one node mines.  Headers may be lost, repeated, delayed and
reordered on their way, come by gossip or in a download, the tasks of all nodes interleave, and nodes stop and are started
again.  Still the ledger of each node is a prefix of its miner's in every state (`Follows`): every header in the node is one
that the miner has, and a ledger of such headers is a prefix.  So all nodes of a group agree (`one_miner_agreement`), and so
do the answers of their RPC servers, at any two times (`reads_are_consistent`).
-/

namespace Simb

open Simb.BlockTree Simb.Net Simb.Lib

/-- The miner of each node's group. -/
structure Groups (ι : Type) where
  miner : ι → ι
  miner_miner : ∀ i, miner (miner i) = miner i

namespace Cluster

variable {ι : Type}

/-- What may happen in a cluster with one miner in each group. -/
def OneMiner (P : Platform) (g : Groups ι) (s : Cluster ι) (x : ι × ClusterStep) : Prop :=
  s.Permitted P g.miner x ∧ ∀ draws, x.2.act = .mine draws → g.miner x.1 = x.1

/-- Every node has a prefix of what its miner has, and nodes of a group agree where both have a header. -/
structure Agrees (P : Platform) (g : Groups ι) (s : Cluster ι) : Prop where
  followers : ∀ i, HeaderPrefix P (s.node i).chain (s.node (g.miner i)).chain
  agree : ∀ i j, g.miner i = g.miner j → ∀ n b c,
    (Chain.getHeaderByBlockNumber P n).eval (s.node i).chain = .ok b →
      (Chain.getHeaderByBlockNumber P n).eval (s.node j).chain = .ok c → b = c

/-- The ledger has `b` at its height. -/
def OnLedger (M : List Header) (b : Header) : Prop := M[height b]? = some b

/-- Node `i` has the ledger `ledgers i`, which begins with the genesis block, and all headers in it are on its miner's
ledger. -/
structure Follows (P : Platform) (g : Groups ι) (s : Cluster ι) (ledgers : ι → List Header) : Prop where
  carries : ∀ i, s.Carries P (OnLedger (ledgers (g.miner i))) i (ledgers i)
  genesis : ∀ i, OnLedger (ledgers i) (Chain.genesis P)

variable {P : Platform} {g : Groups ι} {s s' : Cluster ι} {x : ι × ClusterStep} {ledgers : ι → List Header}

/-! ## Every ledger is a prefix of the miner's -/

/-- A ledger of headers that are on another is a prefix of it. -/
theorem isPrefix_of_onLedger {db : Db} {L M : List Header} (h : db.Stores P L) (hM : ∀ b ∈ L, OnLedger M b) :
    L <+: M := by
  rw [List.prefix_iff_getElem?]
  intro n hn
  have hget : L[n]? = some L[n] := List.getElem?_eq_getElem hn
  have hon := hM L[n] (List.getElem_mem hn)
  unfold OnLedger at hon
  rwa [h.numbered n L[n] hget] at hon

theorem OnLedger.append {M : List Header} {b : Header} (h : OnLedger M b) (new : List Header) :
    OnLedger (M ++ new) b := getElem?_of_isPrefix (List.prefix_append M new) h

namespace Follows

theorem isPrefix (h : s.Follows P g ledgers) (i : ι) : ledgers i <+: ledgers (g.miner i) :=
  isPrefix_of_onLedger (h.carries i).node.stores (h.carries i).node.ledger

theorem start (P : Platform) (g : Groups ι) (localPeerId : ι → PeerId) :
    (start P localPeerId).Follows P g fun _ => [Chain.genesis P] := ⟨carries_start P localPeerId rfl, fun _ => rfl⟩

/-- A step of node `x.1`, which has the ledger `L'` after it. -/
theorem update [DecidableEq ι] (h : s.Follows P g ledgers) {L' : List Header} (he : s.step P x = .ok s')
    (hnode : s'.Carries P (OnLedger (Function.update ledgers x.1 L' (g.miner x.1))) x.1 L')
    (hgrows : ledgers x.1 <+: L') :
    s'.Follows P g (Function.update ledgers x.1 L') ∧ ∀ i, ledgers i <+: Function.update ledgers x.1 L' i := by
  have hprefixes : ∀ i, ledgers i <+: Function.update ledgers x.1 L' i := by
    intro i
    by_cases hi : i = x.1
    · subst hi
      rwa [Function.update_self]
    · rw [Function.update_of_ne hi]
  refine ⟨⟨fun i => ?_, fun i => getElem?_of_isPrefix (hprefixes i) (h.genesis i)⟩, hprefixes⟩
  by_cases hi : i = x.1
  · subst hi
    rwa [Function.update_self]
  · rw [Function.update_of_ne hi]
    exact ((h.carries i).mono fun b hb => getElem?_of_isPrefix (hprefixes (g.miner i)) hb).other he hi

/-- **A step keeps the ledgers prefixes,** and no ledger loses anything. -/
theorem step [DecidableEq ι] (h : s.Follows P g ledgers) (hx : s.OneMiner P g x) (he : s.step P x = .ok s') :
    ∃ ledgers', s'.Follows P g ledgers' ∧ ∀ i, ledgers i <+: ledgers' i := by
  obtain ⟨hpermitted, hminer⟩ := hx
  have hgroup : ∀ j, g.miner j = g.miner x.1 → s.Carries P (OnLedger (ledgers (g.miner x.1))) j (ledgers j) := by
    intro j hj
    rw [← hj]
    exact h.carries j
  have hself := hgroup x.1 rfl
  cases hmined : x.2.mined P (s.node x.1) with
  | nil =>
    obtain ⟨L', hL', hle⟩ := hself.step (h.genesis _) (hpermitted.brings hgroup (by simp [hmined])) hpermitted.below he
    have hprefix := List.prefix_of_prefix_length_le (h.isPrefix x.1)
      (isPrefix_of_onLedger hL'.node.stores hL'.node.ledger) hle
    refine ⟨_, h.update he ?_ hprefix⟩
    by_cases hown : g.miner x.1 = x.1
    · rw [hown, Function.update_self]
      rw [hown] at hL'
      exact hL'.mono fun b hb => getElem?_of_isPrefix hprefix hb
    · rwa [Function.update_of_ne hown]
  | cons header rest =>
    have hmem : header ∈ x.2.mined P (s.node x.1) := by simp [hmined]
    obtain ⟨draws, hdraws⟩ := ClusterStep.exists_of_mem_mined hmem
    have hown := hminer draws hdraws
    rw [hown] at hself
    -- what is mined is not on the ledger yet
    have hnew : s.Carries P (fun b => OnLedger (ledgers x.1) b ∨ b = header) x.1 (ledgers x.1) := hself.mono fun b hb => .inl hb
    obtain ⟨hheight, hnext⟩ := hnew.mine (h.genesis x.1) hmem (.inr rfl) hpermitted.below he
    have hprefix := List.prefix_append (ledgers x.1) [header]
    refine ⟨_, h.update he ?_ hprefix⟩
    rw [hown, Function.update_self]
    refine hnext.mono fun b hb => ?_
    rcases hb with hb | hb
    · exact hb.append [header]
    · rw [hb, OnLedger, hheight, List.getElem?_concat_length]

/-- What a run adds. -/
theorem run [DecidableEq ι] (h : s.Follows P g ledgers) {steps : List (ι × ClusterStep)}
    (hsteps : EveryStep P (OneMiner P g) s steps) (hs' : steps.foldl (next P) (.ok s) = .ok s') :
    ∃ ledgers', s'.Follows P g ledgers' ∧ ∀ i, ledgers i <+: ledgers' i := by
  induction steps generalizing s ledgers with
  | nil =>
    cases hs'
    exact ⟨ledgers, h, fun i => List.prefix_rfl⟩
  | cons x steps ih =>
    obtain ⟨hx, hsteps⟩ := hsteps
    rw [List.foldl_cons, show next P (.ok s) x = s.step P x from rfl] at hs'
    change Lib.EveryStep _ _ (s.step P x) steps at hsteps
    cases hstep : s.step P x with
    | error p => rw [hstep, foldl_next_error] at hs'; cases hs'
    | ok s₁ =>
      rw [hstep] at hs' hsteps
      obtain ⟨ledgers₁, h₁, hgrows₁⟩ := h.step (hx s rfl) hstep
      obtain ⟨ledgers', h', hgrows⟩ := ih h₁ hsteps hs'
      exact ⟨ledgers', h', fun i => (hgrows₁ i).trans (hgrows i)⟩

theorem agrees (h : s.Follows P g ledgers) : s.Agrees P g where
  followers i := headerPrefix_of_isPrefix (h.carries i).node.stores (h.carries (g.miner i)).node.stores (h.isPrefix i)
  agree i j hij n b c hb hc := by
    rw [eval_getHeaderByBlockNumber_eq_ok (h.carries i).node.stores] at hb
    rw [eval_getHeaderByBlockNumber_eq_ok (h.carries j).node.stores] at hc
    have hb' := getElem?_of_isPrefix (h.isPrefix i) hb
    rw [hij, getElem?_of_isPrefix (h.isPrefix j) hc] at hb'
    exact (Option.some.inj hb').symm

end Follows

/-- **One miner in each group, and the group agrees.**  In every state of every run of a cluster, as long as no task
panics: the `HEADER` table of each node is that of its miner up to its own tip, and two nodes of a group have the same
header wherever both have one. -/
theorem one_miner_agreement [DecidableEq ι] (P : Platform) (g : Groups ι) (localPeerId : ι → PeerId)
    (steps : List (ι × ClusterStep)) (h : EveryStep P (OneMiner P g) (Cluster.start P localPeerId) steps) :
    EveryState P (Agrees P g) (Cluster.start P localPeerId) steps := by
  have hrun := EveryStep.everyState (I := fun s => ∃ ledgers, s.Follows P g ledgers) h ⟨_, .start P g localPeerId⟩
    fun s x s' ⟨ledgers, hs⟩ hx he => by
      obtain ⟨ledgers', hs', -⟩ := hs.step hx he
      exact ⟨ledgers', hs'⟩
  refine hrun.mono fun r hr s hs => ?_
  obtain ⟨ledgers, hfollows⟩ := hr s hs
  exact hfollows.agrees

/-- The miner is node `true`. -/
def twoNodes : Groups Bool := ⟨fun _ => true, fun _ => rfl⟩

theorem relay_oneMiner (P : Platform) (localPeerId : Bool → PeerId) :
    EveryStep P (OneMiner P twoNodes) (Cluster.start P localPeerId) (relay P) := by
  refine ((relay_permitted P true localPeerId).and_mem (E := fun x => ∀ draws, x.2.act = .mine draws → x.1 = true) ?_).of_invariant
    (I := fun _ => True) (fun _ _ _ _ => trivial) (fun r x _ hx s hs => ⟨hx.1 s hs, fun draws hd => (hx.2 draws hd).symm⟩)
    trivial
  simp [relay]

theorem one_miner_agreement_relay :
    EveryState (sample true) (Agrees (sample true) twoNodes) (Cluster.start (sample true) fun _ => ⟨[1]⟩)
      (relay (sample true)) :=
  one_miner_agreement _ _ _ _ (relay_oneMiner _ _)

/-! ## What the RPC servers answer -/

theorem ethGetBlockByNumber_eq_ok {db : Db} {L : List Header} (h : db.Stores P L) {random : UInt64} {number : String}
    {block : Rpc.Block} :
    Rpc.ethGetBlockByNumber (Chain.blockTree P db random) number = .ok block ↔
      ∃ n b, Rpc.parseBlockNumber number = .ok n ∧ L[n.toNat]? = some b ∧ Rpc.blockOf b = block := by
  cases hparse : Rpc.parseBlockNumber number with
  | error e => simp [Rpc.ethGetBlockByNumber_of_error hparse]
  | ok n =>
    rw [Rpc.ethGetBlockByNumber_of_ok _ hparse]
    simp only [Except.ok.injEq, exists_and_left, exists_eq_left', ← eval_getHeaderByBlockNumber_eq_ok h]
    change Rpc.answer ((Chain.getHeaderByBlockNumber P n).eval db) _ _ = _ ↔ _
    rcases (Chain.getHeaderByBlockNumber P n).eval db with (e | p) | b <;> simp [Rpc.answer]

/-- **Reads are consistent.**  In a run of a cluster with one miner in each group, `eth_getBlockByNumber` goes on to give
the answer that it gave once, also when the node was stopped and started again; and a node of the same group, if it has a
block under this number at any later time, gives the same answer. -/
theorem reads_are_consistent [DecidableEq ι] (P : Platform) (g : Groups ι) (localPeerId : ι → PeerId)
    (steps later : List (ι × ClusterStep))
    (h : EveryStep P (OneMiner P g) (Cluster.start P localPeerId) (steps ++ later)) {s s' : Cluster ι}
    (hs : steps.foldl (next P) (.ok (Cluster.start P localPeerId)) = .ok s)
    (hs' : later.foldl (next P) (.ok s) = .ok s') (i : ι) (number : String) (random random' : UInt64) (block : Rpc.Block)
    (hread : Rpc.ethGetBlockByNumber (Chain.blockTree P (s.node i).chain random) number = .ok block) :
    Rpc.ethGetBlockByNumber (Chain.blockTree P (s'.node i).chain random') number = .ok block ∧
      ∀ j block', g.miner j = g.miner i →
        Rpc.ethGetBlockByNumber (Chain.blockTree P (s'.node j).chain random') number = .ok block' → block' = block := by
  have hsplit := everyStep_append.mp h
  rw [hs] at hsplit
  obtain ⟨ledgers, hledgers, -⟩ := (Follows.start P g localPeerId).run hsplit.1 hs
  obtain ⟨ledgers', hledgers', hgrows⟩ := hledgers.run hsplit.2 hs'
  rw [ethGetBlockByNumber_eq_ok (hledgers.carries i).node.stores] at hread
  obtain ⟨n, b, hparse, hb, rfl⟩ := hread
  have hb' := getElem?_of_isPrefix (hgrows i) hb
  refine ⟨(ethGetBlockByNumber_eq_ok (hledgers'.carries i).node.stores).2 ⟨n, b, hparse, hb', rfl⟩, ?_⟩
  intro j block' hij hread'
  obtain ⟨n', c, hparse', hc, rfl⟩ := (ethGetBlockByNumber_eq_ok (hledgers'.carries j).node.stores).1 hread'
  cases hparse.symm.trans hparse'
  have hb'' := getElem?_of_isPrefix (hledgers'.isPrefix i) hb'
  have hc' := getElem?_of_isPrefix (hledgers'.isPrefix j) hc
  rw [hij, hb''] at hc'
  rw [Option.some.inj hc']

/-- The genesis block is read, the node stops while it mines, and the block is read again. -/
theorem reads_are_consistent_genesis :
    ∃ s', [(true, ClusterStep.restart (.mine zeroDraws) 1)].foldl (next (sample true))
        (.ok (Cluster.start (sample true) fun _ => ⟨[1]⟩)) = .ok s' ∧
      Rpc.ethGetBlockByNumber (Chain.blockTree (sample true) (s'.node true).chain 7) "0x0" =
        .ok (Rpc.blockOf (Chain.genesis (sample true))) := by
  have hstores := stores_new (sample true)
  have hread : Rpc.ethGetBlockByNumber (Chain.blockTree (sample true) (Chain.new (sample true) Db.empty) 7) "0x0" =
      .ok (Rpc.blockOf (Chain.genesis (sample true))) :=
    (ethGetBlockByNumber_eq_ok hstores).2 ⟨0, Chain.genesis (sample true), rfl, rfl, rfl⟩
  have hrun : EveryStep (sample true) (OneMiner (sample true) twoNodes) (Cluster.start (sample true) fun _ => ⟨[1]⟩)
      ([] ++ [(true, .restart (.mine zeroDraws) 1)]) := by
    refine ⟨?_, trivial⟩
    rintro _ ⟨⟩
    exact ⟨⟨by simp, by simp, fun _ _ => (below_iff hstores).2 (by simp)⟩, fun _ _ => rfl⟩
  exact ⟨_, rfl, (reads_are_consistent (sample true) twoNodes (fun _ => ⟨[1]⟩) [] _ hrun rfl rfl true "0x0" 7 7 _
    hread).1⟩

end Cluster

end Simb
