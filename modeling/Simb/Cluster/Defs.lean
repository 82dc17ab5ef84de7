import Simb.Client.Carries

/-!
# A cluster of nodes

Some nodes, each started on a fresh database, run next to each other.  A step is a step of one of them, so the steps of
their tasks interleave in any way.  A node may also stop in the middle of a step and be started again: then what it had in
memory is gone, and its database is left as far as its last transaction.  What the nodes have from each other goes through
libp2p, which may lose, repeat, delay and reorder: all that is asked of it is that a message that comes in was published,
and a response served, by a node of the same group (`Cluster.Delivers`), maybe before that node was last started.

A header then never comes from nowhere: whatever a node shows is the genesis block, or was mined in its group
(`shows_only_mined`).
-/

namespace Simb

open Simb.BlockTree Simb.Net Simb.Lib

variable {ι γ : Type}

/-- What can happen to a node. -/
inductive ClusterStep where
  /-- It makes a step. -/
  | run (x : ClientStep)
  /-- It stops in a step, after `n` of the transactions that change its database, and is started again. -/
  | restart (x : ClientStep) (n : ℕ)

namespace ClusterStep

/-- The step that a node makes, as a whole or in part. -/
@[simp] def act : ClusterStep → ClientStep
  | .run x => x
  | .restart x _ => x

/-- The block that is mined.  If the node stops, it is in the database or nowhere. -/
def mined (P : Platform) (c : Client) : ClusterStep → List Header
  | .run x => c.mined P x
  | .restart x n => if n = 0 then [] else c.mined P x

/-- The node after a step. -/
def node (P : Platform) (c : Client) : ClusterStep → Except Client.Panic Client
  | .run x => c.step P x
  | .restart x n => .ok (Client.startNetwork P (c.halt P x n) c.network.manager.localPeerId)

/-- Only mining mines. -/
theorem exists_of_mem_mined {P : Platform} {c : Client} {x : ClusterStep} {b : Header} (hb : b ∈ x.mined P c) :
    ∃ draws, x.act = .mine draws := by
  cases x with
  | run x => exact Client.exists_of_mem_mined hb
  | restart x n =>
    change b ∈ if n = 0 then [] else c.mined P x at hb
    split_ifs at hb
    · cases hb
    · exact Client.exists_of_mem_mined hb

end ClusterStep

/-- The nodes, what each of them has mined, and the network tasks that it had before it was last started. -/
structure Cluster (ι : Type) where
  node : ι → Client
  mined : ι → List Header
  past : ι → List Network

namespace Cluster

/-- All nodes are started on fresh databases. -/
def start (P : Platform) (localPeerId : ι → PeerId) : Cluster ι :=
  ⟨fun i => Client.startNetwork P Db.empty (localPeerId i), fun _ => [], fun _ => []⟩

/-- The network tasks of a node, the present one first. -/
def networks (s : Cluster ι) (i : ι) : List Network := (s.node i).network :: s.past i

/-- A header that can be read from a node, or that it has ever published or served. -/
def Shows (P : Platform) (s : Cluster ι) (i : ι) (b : Header) : Prop :=
  (∃ n, (Chain.getHeaderByBlockNumber P n).eval (s.node i).chain = .ok b) ∨
    ∃ w ∈ s.networks i, (∃ message ∈ w.manager.published, message.header = some b) ∨ ∃ headers ∈ w.manager.served, b ∈ headers

/-- A message or a response that comes in at a node comes from a node of its group. -/
def Delivers (group : ι → γ) (s : Cluster ι) (i : ι) : SwarmEvent → Prop
  | .gossipsub message => ∃ j, group j = group i ∧ ∃ w ∈ s.networks j, message ∈ w.manager.published
  | .requestResponse (.response _ headers) => ∃ j, group j = group i ∧ ∃ w ∈ s.networks j, headers ∈ w.manager.served
  | _ => True

/-- What may happen in a cluster.  Only the chain broadcasts headers, and mining goes on below the last number. -/
structure Permitted (P : Platform) (group : ι → γ) (s : Cluster ι) (x : ι × ClusterStep) : Prop where
  delivers : ∀ event, x.2.act = .event event → s.Delivers group x.1 event
  calls : ∀ request, x.2.act = .call request → request.header = none
  below : ∀ draws, x.2.act = .mine draws → Below P (s.node x.1).chain

section

variable [DecidableEq ι] (P : Platform)

/-- A step of one node. -/
def step (s : Cluster ι) (x : ι × ClusterStep) : Except Client.Panic (Cluster ι) := do
  let c ← x.2.node P (s.node x.1)
  return { node := Function.update s.node x.1 c
           mined := Function.update s.mined x.1 (s.mined x.1 ++ x.2.mined P (s.node x.1))
           past := Function.update s.past x.1 (match x.2 with
             | .run _ => s.past x.1
             | .restart _ _ => s.networks x.1) }

/-- A step of a cluster in which a task may have panicked. -/
def next (r : Except Client.Panic (Cluster ι)) (x : ι × ClusterStep) : Except Client.Panic (Cluster ι) :=
  match r with
  | .error p => .error p
  | .ok s => s.step P x

/-- Every step of the run meets `C`, as long as no task panics. -/
abbrev EveryStep (C : Cluster ι → ι × ClusterStep → Prop) (s : Cluster ι) (steps : List (ι × ClusterStep)) : Prop :=
  Lib.EveryStep (next P) (fun r x => ∀ s, r = .ok s → C s x) (.ok s) steps

/-- Every state of the run meets `I`, as long as no task panics. -/
abbrev EveryState (I : Cluster ι → Prop) (s : Cluster ι) (steps : List (ι × ClusterStep)) : Prop :=
  Lib.EveryState (next P) (fun r => ∀ s, r = .ok s → I s) (.ok s) steps

end

/-! ## Steps and runs -/

variable {P : Platform} {group : ι → γ} {s s' : Cluster ι} {x : ι × ClusterStep}

section

variable [DecidableEq ι]

/-- A step changes one node. -/
theorem step_eq_ok (h : s.step P x = .ok s') : x.2.node P (s.node x.1) = .ok (s'.node x.1) ∧
    s'.mined x.1 = s.mined x.1 ++ x.2.mined P (s.node x.1) ∧
    (∀ w ∈ s'.past x.1, w ∈ s.networks x.1) ∧
    ∀ i, i ≠ x.1 → s'.node i = s.node i ∧ s'.mined i = s.mined i ∧ s'.past i = s.past i := by
  obtain ⟨c, hc, h⟩ := exists_of_bind_eq_ok h
  cases h
  refine ⟨by simp [hc], by simp, fun w hw => ?_, fun i hi => by simp [hi]⟩
  simp only [Function.update_self] at hw
  split at hw
  · exact List.mem_cons_of_mem _ hw
  · exact hw

/-- What a node can do the cluster can. -/
theorem exists_step {c : Client} (h : x.2.node P (s.node x.1) = .ok c) :
    ∃ s', s.step P x = .ok s' ∧ s'.node = Function.update s.node x.1 c := by
  unfold step
  rw [h]
  exact ⟨_, rfl, rfl⟩

theorem foldl_next_error (p : Client.Panic) (steps : List (ι × ClusterStep)) :
    steps.foldl (next P) (.error p) = .error p := by
  induction steps with
  | nil => rfl
  | cons x steps ih => exact ih

/-- What every permitted step keeps holds all along a run of such steps. -/
theorem EveryStep.everyState {I : Cluster ι → Prop} {C : Cluster ι → ι × ClusterStep → Prop}
    {steps : List (ι × ClusterStep)} (h : EveryStep P C s steps) (h0 : I s)
    (hI : ∀ s x s', I s → C s x → s.step P x = .ok s' → I s') : EveryState P I s steps := by
  refine everyState_of_everyStep ?_ ?_ h
  · rintro (p | s) x hs hx s' he
    · cases he
    · exact hI s x s' (hs s rfl) (hx s rfl) he
  · rintro _ ⟨⟩
    exact h0

end

/-! ## Headers in a node -/

/-- All headers in a node, and in its network tasks before it was last started, meet `K`, and its ledger is `L`. -/
structure Carries (P : Platform) (K : Header → Prop) (s : Cluster ι) (i : ι) (L : List Header) : Prop where
  node : (s.node i).Carries P K L
  past : ∀ w ∈ s.past i, w.Carries K

/-- What a step brings into its node meets `K`: what comes in, what is asked of the provider from outside, and what is
mined. -/
structure Brings (P : Platform) (K : Header → Prop) (s : Cluster ι) (x : ι × ClusterStep) : Prop where
  comes : ∀ event, x.2.act = .event event → ∀ b ∈ event.headers, K b
  asked : ∀ request, x.2.act = .call request → ∀ b ∈ request.header, K b
  mined : ∀ b ∈ x.2.mined P (s.node x.1), K b

namespace Carries

variable {K K' : Header → Prop} {i : ι} {L : List Header}

theorem mono (h : s.Carries P K i L) (hK : ∀ b, K b → K' b) : s.Carries P K' i L :=
  ⟨h.node.mono hK, fun w hw => (h.past w hw).mono hK⟩

theorem networks (h : s.Carries P K i L) {w : Network} (hw : w ∈ s.networks i) : w.Carries K := by
  rcases List.mem_cons.mp hw with rfl | hw
  · exact h.node.network
  · exact h.past w hw

theorem of_shows (h : s.Carries P K i L) {b : Header} (hb : s.Shows P i b) : K b := by
  rcases hb with ⟨n, hn⟩ | ⟨w, hw, ⟨message, hm, hb⟩ | ⟨headers, hh, hb⟩⟩
  · rw [eval_getHeaderByBlockNumber_eq_ok h.node.stores] at hn
    exact h.node.ledger b (List.mem_of_getElem? hn)
  · exact (h.networks hw).published message hm b hb
  · exact (h.networks hw).served headers hh b hb

/-- **A node only passes on,** also when it is started again. -/
theorem step [DecidableEq ι] (h : s.Carries P K x.1 L) (hgenesis : K (Chain.genesis P)) (hbrings : s.Brings P K x)
    (hbelow : ∀ draws, x.2.act = .mine draws → Below P (s.node x.1).chain) (he : s.step P x = .ok s') :
    ∃ L', s'.Carries P K x.1 L' ∧ L.length ≤ L'.length := by
  obtain ⟨hnode, -, hpast, -⟩ := step_eq_ok he
  have hnetworks : ∀ w ∈ s'.past x.1, w.Carries K := fun w hw => h.networks (hpast w hw)
  obtain ⟨i, x | ⟨x, n⟩⟩ := x
  · obtain ⟨L', hL', hle⟩ := h.node.step ⟨hbrings.comes, hbrings.asked, hbrings.mined⟩ hbelow hnode
    exact ⟨L', ⟨hL', hnetworks⟩, hle⟩
  · have hmined := hbrings.mined
    obtain ⟨L', hstores, hK, hle⟩ := h.node.halt (n := n)
      (fun hn => ⟨hbrings.comes, hbrings.asked, by rwa [ClusterStep.mined, if_neg hn] at hmined⟩) hbelow
    have habsorbs := absorbs_put (height_genesis_le P L')
    refine ⟨_, ⟨?_, hnetworks⟩, hle.trans habsorbs.length_le⟩
    rw [← Except.ok.inj hnode]
    exact .restart hstores _ hK hgenesis

/-- A block that is mined is put on top of the ledger, also when the node stops then and is started again. -/
theorem mine [DecidableEq ι] (h : s.Carries P K x.1 L) (hgenesis : L[height (Chain.genesis P)]? = some (Chain.genesis P))
    {b : Header} (hb : b ∈ x.2.mined P (s.node x.1)) (hK : K b)
    (hbelow : ∀ draws, x.2.act = .mine draws → Below P (s.node x.1).chain) (he : s.step P x = .ok s') :
    height b = L.length ∧ s'.Carries P K x.1 (L ++ [b]) := by
  obtain ⟨hnode, -, hpast, -⟩ := step_eq_ok he
  have hnetworks : ∀ w ∈ s'.past x.1, w.Carries K := fun w hw => h.networks (hpast w hw)
  have hmine : ∀ draws, Below P (s.node x.1).chain → b ∈ (s.node x.1).mined P (.mine draws) →
      ∃ c, (s.node x.1).step P (.mine draws) = .ok c ∧ height b = L.length ∧ c.Carries P K (L ++ [b]) := by
    intro draws hbelow hb
    have hmined := Client.mined_of_below h.node.stores ((below_iff h.node.stores).1 hbelow) draws
    have hstep := Client.mineAndBroadcastBlock_of_below h.node.stores ((below_iff h.node.stores).1 hbelow) draws
    rw [hmined, List.mem_singleton] at hb
    have hmeets : ∀ b' ∈ (s.node x.1).mined P (.mine draws), K b' := by
      intro b' hb'
      rw [hmined, List.mem_singleton, ← hb] at hb'
      rwa [hb']
    obtain ⟨header, hheader, hheight, hnext⟩ := h.node.mine hbelow hmeets hstep
    rw [hmined, ← hb, List.singleton_inj] at hheader
    subst hheader
    exact ⟨_, hstep, hheight, hnext⟩
  obtain ⟨i, x | ⟨x, n⟩⟩ := x
  · obtain ⟨draws, rfl⟩ := Client.exists_of_mem_mined hb
    obtain ⟨c, hc, hheight, hnext⟩ := hmine draws (hbelow draws rfl) hb
    obtain rfl := Except.ok.inj (hc.symm.trans hnode)
    exact ⟨hheight, hnext, hnetworks⟩
  · change b ∈ if n = 0 then [] else (s.node i).mined P x at hb
    split_ifs at hb with hn
    · cases hb
    · obtain ⟨draws, rfl⟩ := Client.exists_of_mem_mined hb
      obtain ⟨c, hc, hheight, hnext⟩ := hmine draws (hbelow draws rfl) hb
      have hhalt : (s.node i).halt P (.mine draws) n = c.chain := by
        simp only [Client.halt, if_neg hn, hc]
      have hlt : height (Chain.genesis P) < L.length := (List.getElem?_eq_some_iff.mp hgenesis).1
      have hgenesis' : (L ++ [b])[height (Chain.genesis P)]? = some (Chain.genesis P) := by
        rw [List.getElem?_append_left hlt, hgenesis]
      refine ⟨hheight, ?_, hnetworks⟩
      have hrestart := Client.Carries.restart hnext.stores (s.node i).network.manager.localPeerId hnext.ledger
        (hnext.ledger _ (List.mem_of_getElem? hgenesis'))
      rw [put_eq_self hgenesis'] at hrestart
      rw [← Except.ok.inj hnode, hhalt]
      exact hrestart

end Carries

/-! ## Where headers come from -/

/-- The genesis block, and what was mined in the group of a node. -/
def Known (P : Platform) (group : ι → γ) (s : Cluster ι) (i : ι) (b : Header) : Prop :=
  b = Chain.genesis P ∨ ∃ j, group j = group i ∧ b ∈ s.mined j

/-- All headers in a node are known in its group. -/
def Originates (P : Platform) (group : ι → γ) (s : Cluster ι) : Prop :=
  ∀ i, ∃ L, s.Carries P (s.Known P group i) i L

theorem Known.of_group {i j : ι} (h : group j = group i) {b : Header} (hb : s.Known P group j b) :
    s.Known P group i b := hb.imp_right fun ⟨k, hk, hmem⟩ => ⟨k, hk.trans h, hmem⟩

/-- The headers that come in at a node meet what the headers in the nodes of its group meet. -/
theorem Delivers.carries {K : Header → Prop} {ledgers : ι → List Header} {i : ι} {event : SwarmEvent}
    (h : s.Delivers group i event) (hs : ∀ j, group j = group i → s.Carries P K j (ledgers j)) :
    ∀ b ∈ event.headers, K b := by
  intro b hb
  cases event with
  | gossipsub message =>
    obtain ⟨j, hj, w, hw, hm⟩ := h
    exact ((hs j hj).networks hw).published message hm b (Option.mem_toList.mp hb)
  | requestResponse event =>
    cases event with
    | response requestId headers =>
      obtain ⟨j, hj, w, hw, hh⟩ := h
      exact ((hs j hj).networks hw).served headers hh b hb
    | _ => cases hb
  | _ => cases hb

/-- What a permitted step brings into a node, if nothing else is mined. -/
theorem Permitted.brings {K : Header → Prop} {ledgers : ι → List Header} (h : s.Permitted P group x)
    (hs : ∀ j, group j = group x.1 → s.Carries P K j (ledgers j)) (hmined : ∀ b ∈ x.2.mined P (s.node x.1), K b) :
    s.Brings P K x where
  comes event he := (h.delivers event he).carries hs
  asked request hr b hb := by
    rw [h.calls request hr] at hb
    cases hb
  mined := hmined

theorem carries_start (P : Platform) (localPeerId : ι → PeerId) {K : Header → Prop} (hK : K (Chain.genesis P)) (i : ι) :
    (start P localPeerId).Carries P K i [Chain.genesis P] :=
  ⟨.start P (localPeerId i) hK, fun _ hw => absurd hw List.not_mem_nil⟩

variable [DecidableEq ι]

/-- A step of another node. -/
theorem Carries.other {K : Header → Prop} {i : ι} {L : List Header} (h : s.Carries P K i L) (he : s.step P x = .ok s')
    (hi : i ≠ x.1) : s'.Carries P K i L := by
  obtain ⟨-, -, -, hothers⟩ := step_eq_ok he
  obtain ⟨hnode, -, hpast⟩ := hothers i hi
  exact ⟨by rw [hnode]; exact h.node, by rw [hpast]; exact h.past⟩

theorem Originates.step (h : s.Originates P group) (hx : s.Permitted P group x) (he : s.step P x = .ok s') :
    s'.Originates P group := by
  obtain ⟨-, hmined, -, hothers⟩ := step_eq_ok he
  choose ledgers hledgers using h
  have hknown : ∀ i b, s.Known P group i b → s'.Known P group i b := by
    rintro i b (rfl | ⟨j, hj, hb⟩)
    · exact .inl rfl
    · refine .inr ⟨j, hj, ?_⟩
      by_cases hjx : j = x.1
      · subst hjx
        simp [hmined, hb]
      · rwa [(hothers j hjx).2.1]
  intro i
  by_cases hi : i = x.1
  · subst hi
    have hgroup : ∀ j, group j = group x.1 → s.Carries P (s'.Known P group x.1) j (ledgers j) := fun j hj =>
      (hledgers j).mono fun b hb => hknown x.1 b (hb.of_group hj)
    have hnew : ∀ b ∈ x.2.mined P (s.node x.1), s'.Known P group x.1 b := fun b hb =>
      .inr ⟨x.1, rfl, by simp [hmined, hb]⟩
    obtain ⟨L', hL', -⟩ := (hgroup x.1 rfl).step (.inl rfl) (hx.brings hgroup hnew) hx.below he
    exact ⟨L', hL'⟩
  · exact ⟨ledgers i, ((hledgers i).mono (hknown i)).other he hi⟩

/-- **No header comes from nowhere.**  In every state of every run of a cluster, with any number of miners and with nodes
that stop and are started again, a header that can be read from a node, or that it has ever published or served, is the
genesis block or was mined by a node of its group. -/
theorem shows_only_mined (P : Platform) (group : ι → γ) (localPeerId : ι → PeerId) (steps : List (ι × ClusterStep))
    (h : EveryStep P (fun s x => s.Permitted P group x) (start P localPeerId) steps) :
    EveryState P (fun s => ∀ i b, s.Shows P i b → s.Known P group i b) (start P localPeerId) steps := by
  have hrun := EveryStep.everyState (I := fun s => s.Originates P group) h
    (fun i => ⟨_, carries_start P localPeerId (.inl rfl) i⟩) fun s x s' hs hx he => hs.step hx he
  refine hrun.mono fun r hr s hs i b hb => ?_
  obtain ⟨L, hL⟩ := hr s hs i
  exact hL.of_shows hb

/-- Node `true` mines the first block and publishes it, and stops before its next step.  When it is there again, what it
published comes in at node `false`. -/
def relay (P : Platform) : List (Bool × ClusterStep) :=
  [(true, .run (.mine zeroDraws)), (true, .run (.command (granted 0))), (true, .restart .bootstrap 0),
    (false, .run (.event (.gossipsub ⟨blockHeaderTopic, Header.rlp.encode (minedOn P zeroDraws (Chain.genesis P))⟩))),
    (false, .run .onEvent)]

theorem relay_permitted (P : Platform) (g : γ) (localPeerId : Bool → PeerId) :
    EveryStep P (fun s x => s.Permitted P (fun _ => g) x) (start P localPeerId) (relay P) := by
  have hstores := stores_new P
  have hmine := Client.mineAndBroadcastBlock_of_below (c := (start P localPeerId).node true) hstores (by simp) zeroDraws
  have hfirst : next P (.ok (start P localPeerId)) (true, .run (.mine zeroDraws)) = .ok ⟨_, _, _⟩ :=
    congrArg (fun r => r >>= fun c => Except.ok (Cluster.mk (Function.update _ true c) _ _)) hmine
  refine ⟨?_, ?_, ?_, ?_, ?_, trivial⟩
  · rintro _ ⟨⟩
    exact ⟨by simp, by simp, fun _ _ => (below_iff hstores).2 (by simp)⟩
  · intro s _
    exact ⟨by simp, by simp, by simp⟩
  · intro s _
    exact ⟨by simp, by simp, by simp⟩
  · intro s hs
    rw [hfirst] at hs
    cases hs
    refine ⟨?_, by simp, by simp⟩
    rintro _ ⟨⟩
    exact ⟨true, rfl, _, List.mem_cons_of_mem _ List.mem_cons_self, List.mem_singleton.mpr rfl⟩
  · intro s _
    exact ⟨by simp, by simp, by simp⟩

theorem shows_only_mined_relay :
    EveryState (sample true) (fun s => ∀ i b, s.Shows (sample true) i b → s.Known (sample true) (fun _ => ()) i b)
      (start (sample true) fun _ => ⟨[1]⟩) (relay (sample true)) :=
  shows_only_mined _ _ _ _ (relay_permitted _ _ _)

end Cluster

end Simb
