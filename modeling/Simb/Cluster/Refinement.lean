import Simb.Cluster.Convergence

/-!
# Gossip over links is one of the networks of a cluster

A cluster leaves open what the network does, as long as nothing comes in that was not published or served in the group.
`Flooded` says what it does with gossip.  It refines a cluster with one miner in each group: what arrives over a link was
published by a node that is linked to it in some steps (`Published`), so each run is a run of a cluster with the same nodes
(`flooded_refines_cluster`), and what holds of the nodes in all those holds here.
-/

namespace Simb

open Simb.BlockTree Simb.Net Simb.Lib

namespace Flooded

variable {ι : Type} {P : Platform} {dataHash : List UInt8 → UInt64} {o : Overlay ι} {s s' : Flooded ι} {i j : ι}

/-- A response that comes in was served in the group. -/
def Served (o : Overlay ι) (s : Flooded ι) : FloodedStep ι → Prop
  | .node i (.event (.requestResponse (.response _ headers))) =>
    ∃ j, o.miner j = o.miner i ∧ headers ∈ (s.node j).network.manager.served
  | _ => True

/-- Every message that was seen was published in the group. -/
def Published (o : Overlay ι) (s : Flooded ι) : Prop :=
  ∀ i, ∀ m ∈ s.flood.seen i, ∃ j, o.miner j = o.miner i ∧ m ∈ (s.node j).published

/-! ## What may happen -/

/-- What may happen at a node may happen at it in a cluster. -/
theorem Permits.oneMiner {t : Cluster ι} (h : t.node = s.node) {x : ClientStep} (hx : s.Permits P dataHash o i x)
    (hserved : s.Served o (.node i x)) (hbelow : Below P (s.node i).chain) : t.OneMiner P o.toGroups (i, .run x) := by
  refine ⟨⟨?_, ?_, ?_⟩, fun draws hdraws => (hx.mines draws hdraws).1⟩
  · rintro event rfl
    cases event with
    | gossipsub message => exact absurd rfl (hx.noGossip message)
    | requestResponse event =>
      cases event with
      | response requestId headers =>
        obtain ⟨j, hj, hmem⟩ := hserved
        refine ⟨j, hj, _, List.mem_cons_self, ?_⟩
        rwa [h]
      | _ => trivial
    | _ => trivial
  · intro request hrequest
    have hmessage := hx.calls request hrequest
    cases request with
    | broadcastBlockHeader header => cases hmessage
    | _ => rfl
  · intro draws _
    rwa [h]

/-- What arrives may come in at the node in a cluster. -/
theorem Published.oneMiner {t : Cluster ι} (h : t.node = s.node) (hpublished : s.Published o)
    (hsound : s.flood.Sound (messageId dataHash) o.Linked) {m : GossipMessage}
    (htaken : s.flood.taken (messageId dataHash) j i = some m) :
    t.OneMiner P o.toGroups (i, .run (.event (.gossipsub m))) := by
  obtain ⟨hlinked, hseen⟩ := hsound.mem_of_arriving (Option.filter_eq_some_iff.mp htaken).1
  obtain ⟨k, hk, hm⟩ := hpublished j m hseen
  refine ⟨⟨?_, by simp, by simp⟩, by simp⟩
  rintro _ ⟨⟩
  refine ⟨k, hk.trans (o.miner_of_linked j i hlinked), _, List.mem_cons_self, ?_⟩
  rw [h]
  exact hm

/-! ## Steps -/

variable [DecidableEq ι]

/-- What a change makes known was published at its node, or had been seen by a neighbour. -/
theorem Change.seen {x : FloodedStep ι} (hsound : s.flood.Sound (messageId dataHash) o.Linked)
    (hchange : Change P dataHash o s i x s') : (∀ m ∈ (s.node i).published, m ∈ (s'.node i).published) ∧
      ∀ k, ∀ m ∈ s'.flood.seen k,
        m ∈ s.flood.seen k ∨ (k = i ∧ m ∈ (s'.node i).published) ∨ ∃ j, o.Linked j k ∧ m ∈ s.flood.seen j := by
  have hgrows : ∀ {out asked : List GossipMessage} {come handled : List ChainNetworkEvent},
      Client.Moves (s.node i) (s'.node i) out asked come handled →
      ∀ m ∈ (s.node i).published, m ∈ (s'.node i).published := by
    intro out asked come handled hmoves m hm
    rw [hmoves.published]
    exact List.mem_append_left _ hm
  have hsame : s'.flood = s.flood → ∀ k, ∀ m ∈ s'.flood.seen k,
      m ∈ s.flood.seen k ∨ (k = i ∧ m ∈ (s'.node i).published) ∨ ∃ j, o.Linked j k ∧ m ∈ s.flood.seen j := by
    intro hflood k m hm
    rw [hflood] at hm
    exact .inl hm
  have harrive : ∀ j, s'.flood = s.flood.arrive (messageId dataHash) o.Linked j i → ∀ k, ∀ m ∈ s'.flood.seen k,
      m ∈ s.flood.seen k ∨ (k = i ∧ m ∈ (s'.node i).published) ∨ ∃ j, o.Linked j k ∧ m ∈ s.flood.seen j := by
    intro j hflood k m hm
    rw [hflood] at hm
    rcases Flood.mem_seen_arrive_iff.mp hm with hm | ⟨rfl, htaken⟩
    · exact .inl hm
    · exact .inr (.inr ⟨j, hsound.mem_of_arriving (Option.filter_eq_some_iff.mp htaken).1⟩)
  cases hchange with
  | rest hmoves hmanager hflood hmade => exact ⟨hgrows hmoves, hsame hflood⟩
  | publish m hmoves hmanager hflood hmade =>
    refine ⟨hgrows hmoves, fun k m' hm' => ?_⟩
    rw [hflood] at hm'
    rcases Flood.mem_seen_publish hm' with hm' | ⟨rfl, rfl⟩
    · exact .inl hm'
    · refine .inr (.inl ⟨rfl, ?_⟩)
      rw [hmoves.published]
      exact List.mem_append_right _ (List.mem_singleton_self _)
  | hear e hnone hmoves hmanager hflood hmade => exact ⟨hgrows hmoves, hsame hflood⟩
  | drop j hnode htaken hflood hmade => exact ⟨by simp [hnode], harrive j hflood⟩
  | take j m e htaken hevent hmessage hmoves hmanager hflood hmade => exact ⟨hgrows hmoves, harrive j hflood⟩
  | handle e new honEvent hsent hmoves hflood hmade => exact ⟨hgrows hmoves, hsame hflood⟩
  | mine draws header heq hmined hmanager hmoves hflood hmade => exact ⟨hgrows hmoves, hsame hflood⟩
  | submit txs heq hmanager hmoves hflood hmade => exact ⟨hgrows hmoves, hsame hflood⟩

theorem Published.change (h : s.Published o) {x : FloodedStep ι} (hsound : s.flood.Sound (messageId dataHash) o.Linked)
    (hothers : ∀ k, k ≠ i → s'.node k = s.node k) (hchange : Change P dataHash o s i x s') : s'.Published o := by
  obtain ⟨hgrows, hseen⟩ := hchange.seen hsound
  have hkept : ∀ k m, (∃ j, o.miner j = o.miner k ∧ m ∈ (s.node j).published) →
      ∃ j, o.miner j = o.miner k ∧ m ∈ (s'.node j).published := by
    rintro k m ⟨j, hj, hm⟩
    refine ⟨j, hj, ?_⟩
    by_cases hji : j = i
    · subst hji
      exact hgrows m hm
    · rwa [hothers j hji]
  intro k m hm
  rcases hseen k m hm with hm | ⟨rfl, hm⟩ | ⟨j, hlinked, hm⟩
  · exact hkept k m (h k m hm)
  · exact ⟨k, rfl, hm⟩
  · refine hkept k m ?_
    rw [← o.miner_of_linked j k hlinked]
    exact h j m hm

/-- A cluster with the same nodes makes the same step. -/
theorem exists_step {t : Cluster ι} (h : t.node = s.node) {x : ClientStep} {c : Client}
    (hc : (s.node i).step P x = .ok c) (hnode : s'.node i = c) (hothers : ∀ k, k ≠ i → s'.node k = s.node k) :
    ∃ t', t.step P (i, .run x) = .ok t' ∧ t'.node = s'.node := by
  obtain ⟨t', ht', hsame⟩ := t.exists_step (P := P) (x := (i, .run x)) (c := c) (by rw [h]; exact hc)
  refine ⟨t', ht', ?_⟩
  rw [hsame, h]
  funext k
  by_cases hk : k = i
  · subst hk
    rw [hnode]
    exact Function.update_self ..
  · rw [hothers k hk]
    exact Function.update_of_ne hk ..

/-! ## Runs -/

/-- A cluster that runs along has the same nodes. -/
structure Along (P : Platform) (dataHash : List UInt8 → UInt64) (o : Overlay ι) (s : Flooded ι) (t : Cluster ι) :
    Prop where
  kept : s.Kept P dataHash o
  published : s.Published o
  node : t.node = s.node

/-- Neither run has panicked, and the cluster runs along. -/
def RunsAlong (P : Platform) (dataHash : List UInt8 → UInt64) (o : Overlay ι) (r : Except Client.Panic (Flooded ι))
    (r' : Except Client.Panic (Cluster ι)) : Prop :=
  ∃ s t, r = .ok s ∧ r' = .ok t ∧ s.Along P dataHash o t

/-- **A step is matched** by a step of the cluster, or by none if a message is dropped. -/
theorem Along.step {t : Cluster ι} (h : s.Along P dataHash o t) {x : FloodedStep ι} (hx : s.Permitted P dataHash o x)
    (hserved : s.Served o x) : ∃ s' t' steps, s.step P dataHash o x = .ok s' ∧ s'.Along P dataHash o t' ∧
      Cluster.EveryStep P (Cluster.OneMiner P o.toGroups) t steps ∧ steps.foldl (Cluster.next P) (.ok t) = .ok t' := by
  obtain ⟨s', he, hkept⟩ := h.kept.step hx
  obtain ⟨hspread, ledgers, hblocks⟩ := h.kept
  obtain ⟨k, hothers, -, hchange⟩ := step_change hspread hblocks.sane hx he
  have hpublished := h.published.change hspread.sound hothers hchange
  -- a step of the cluster ends the same
  have hrun : ∀ {i : ι} {y : ClientStep} {c : Client}, t.OneMiner P o.toGroups (i, .run y) →
      (s.node i).step P y = .ok c → s'.node i = c → (∀ k, k ≠ i → s'.node k = s.node k) →
      ∃ s' t' steps, s.step P dataHash o x = .ok s' ∧ s'.Along P dataHash o t' ∧
        Cluster.EveryStep P (Cluster.OneMiner P o.toGroups) t steps ∧ steps.foldl (Cluster.next P) (.ok t) = .ok t' := by
    intro i y c hone hc hnode hothers
    obtain ⟨t', ht', hsame⟩ := exists_step h.node hc hnode hothers
    refine ⟨s', t', [(i, .run y)], he, ⟨hkept, hpublished, hsame⟩, ⟨?_, trivial⟩, ht'⟩
    rintro _ ⟨⟩
    exact hone
  cases x with
  | node i y =>
    obtain ⟨c, hc, hnode, hothers, -⟩ := step_node he
    have hsane := hblocks.sane i
    exact hrun (Permits.oneMiner h.node hx hserved ((below_iff hsane.stores).2 hsane.bound)) hc hnode hothers
  | arrive j i =>
    obtain ⟨-, -, ⟨-, hnode⟩ | ⟨m, c, htaken, hc, hnode, hothers⟩⟩ := step_arrive he
    · exact ⟨s', t, [], he, ⟨hkept, hpublished, h.node.trans hnode.symm⟩, trivial, rfl⟩
    · exact hrun (h.published.oneMiner h.node hspread.sound htaken) hc hnode hothers

/-- **Gossip over links is one of the networks of a cluster.**  A run in which every response that comes in was served in
the group ends with the same nodes as some run of a cluster with one miner in each group. -/
theorem flooded_refines_cluster (P : Platform) (dataHash : List UInt8 → UInt64) (o : Overlay ι) (localPeerId : ι → PeerId)
    (steps : List (FloodedStep ι))
    (h : EveryStep P dataHash o (fun s x => s.Permitted P dataHash o x ∧ s.Served o x) (start P localPeerId) steps) :
    ∃ run, Cluster.EveryStep P (Cluster.OneMiner P o.toGroups) (Cluster.start P localPeerId) run ∧
      ∃ s t, steps.foldl (next P dataHash o) (.ok (start P localPeerId)) = .ok s ∧
        run.foldl (Cluster.next P) (.ok (Cluster.start P localPeerId)) = .ok t ∧ t.node = s.node := by
  have hstart : RunsAlong P dataHash o (.ok (start P localPeerId)) (.ok (Cluster.start P localPeerId)) :=
    ⟨_, _, rfl, rfl, kept_start P dataHash o localPeerId, fun i m hm => absurd hm List.not_mem_nil, rfl⟩
  have hmatch : ∀ r r' x, RunsAlong P dataHash o r r' → (∀ s, r = .ok s → s.Permitted P dataHash o x ∧ s.Served o x) →
      ∃ run, Lib.EveryStep (Cluster.next P) (fun r x => ∀ t, r = .ok t → t.OneMiner P o.toGroups x) r' run ∧
        RunsAlong P dataHash o (next P dataHash o r x) (run.foldl (Cluster.next P) r') := by
    rintro _ _ x ⟨s, t, rfl, rfl, halong⟩ hx
    obtain ⟨s', t', run, hs', halong', hrun, ht'⟩ := halong.step (hx s rfl).1 (hx s rfl).2
    exact ⟨run, hrun, s', t', hs', ht', halong'⟩
  obtain ⟨run, hrun, s, t, hs, ht, halong⟩ := h.exists_run hmatch hstart
  exact ⟨run, hrun, s, t, hs, ht, halong.node⟩

theorem flooded_refines_cluster_delivery :
    ∃ run, Cluster.EveryStep (sample true) (Cluster.OneMiner (sample true) pair.toGroups)
        (Cluster.start (sample true) fun _ => ⟨[1]⟩) run ∧
      ∃ s t, delivery.foldl (next (sample true) byteSum pair) (.ok (start (sample true) fun _ => ⟨[1]⟩)) = .ok s ∧
        run.foldl (Cluster.next (sample true)) (.ok (Cluster.start (sample true) fun _ => ⟨[1]⟩)) = .ok t ∧
        t.node = s.node := by
  refine flooded_refines_cluster (sample true) byteSum pair (fun _ => ⟨[1]⟩) delivery ?_
  refine ((delivery_permitted _ _).and_mem (E := fun x => ∀ s : Flooded Bool, s.Served pair x) ?_).of_invariant
    (I := fun _ => True) (fun _ _ _ _ => trivial) (fun r x _ hx s hs => ⟨hx.1 s hs, hx.2 s⟩) trivial
  simp [delivery, Served]

end Flooded

end Simb
