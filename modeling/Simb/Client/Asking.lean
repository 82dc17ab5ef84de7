import Simb.Client.Carries
import Simb.Net.Connecting

/-!
# What the tasks of a node ask of each other

The chain side, the miner and the users of a node only call methods of the provider.  So what these calls keep is kept when
they make a step (`calls_invariant`), and what every step of the network task keeps is kept by the node
(`network_invariant`).
-/

namespace Simb

open Simb.BlockTree Simb.Net Simb.Tasks Simb.Lib

/-- A step of the chain side, the miner or a user. -/
def ClientStep.calls : ClientStep → Bool
  | .onEvent => true
  | .onPeers _ => true
  | .onDownload _ _ _ => true
  | .mine _ => true
  | .submit _ => true
  | _ => false

namespace Client

variable {P : Platform} {J : Network → Prop} {c c' : Client}

/-- What the chain side asks for is neither to listen nor to dial. -/
theorem connects_of_request {x : Sent} {request : ProviderRequest} (h : x.request = some request) :
    request.connects = false := by
  cases x <;> cases h <;> rfl

/-- What a download does. -/
theorem keeps_network (hcall : ∀ w request, J w → request.connects = false → J (w.call request))
    (look : List ℕ → Network → Found) : Keeps (Network.headersEnv look) fun _ w => J w := by
  refine ⟨?_, ?_, ?_⟩
  · intro s w w' hJ hp
    rwa [pollNext_world hp]
  · intro s w w' s' i response hJ hp _
    rwa [pollNext_world hp]
  · intro s w w' fut hJ _ _ hg
    cases hg
    exact hcall w _ hJ rfl

/-- **What the calls keep** is kept when the chain side, the miner or a user makes a step. -/
theorem calls_invariant (hcall : ∀ w request, J w → request.connects = false → J (w.call request)) (h : J c.network)
    {x : ClientStep} (hx : x.calls = true) (he : c.step P x = .ok c') : J c'.network := by
  have hmanager : ∀ {c : Client} {manager : ChainNetworkManager}, J c.network → J (c.withManager manager).network := by
    intro c manager hJ
    show J ((manager.sent.drop c.manager.sent.length).foldl handOver c.network)
    generalize manager.sent.drop c.manager.sent.length = new
    generalize c.network = w at hJ ⊢
    induction new generalizing w with
    | nil => exact hJ
    | cons x new ih =>
      refine ih _ ?_
      unfold handOver
      split
      · rename_i request hrequest
        exact hcall w request hJ (connects_of_request hrequest)
      · exact hJ
  cases x with
  | onEvent =>
    change c.onEvent P = .ok c' at he
    unfold Client.onEvent at he
    split at he
    · obtain ⟨manager, -, he⟩ := exists_of_bind_eq_ok he
      cases he
      exact hmanager h
    · cases he
      exact h
  | onPeers outcome =>
    obtain ⟨manager, -, he⟩ := exists_of_bind_eq_ok he
    cases he
    exact hmanager h
  | onDownload k fuel look =>
    change c.onDownload P k fuel look = .ok c' at he
    unfold Client.onDownload at he
    split at he
    · rename_i download hdownload
      split at he
      · rename_i output network hpoll
        have hafter := (keeps_network hcall look).poll h hpoll
        obtain ⟨manager, -, he⟩ := exists_of_bind_eq_ok he
        cases he
        have hJ : J network := by
          cases output with
          | ok headers =>
            obtain ⟨d, hJ, -⟩ := hafter
            exact hJ
          | error e =>
            obtain ⟨d, w, i, response, hJ, hp, -⟩ := hafter
            rwa [pollNext_world hp]
        exact hmanager (c := { c with network }) hJ
      · rename_i download' network hpoll
        cases he
        exact (keeps_network hcall look).poll h hpoll
      · cases he
        exact h
    · cases he
      exact h
  | mine draws =>
    obtain ⟨⟨result, chain⟩, -, he⟩ := exists_of_bind_eq_ok he
    cases result with
    | mined header =>
      cases he
      exact hcall c.network _ h rfl
    | blockFallingBehind =>
      cases he
      exact h
  | submit txs =>
    cases he
    exact hcall c.network _ h rfl
  | _ => cases hx

/-- The step of the network task, or of one that calls it, that a step of the node is. -/
inductive NetworkStepOf (c : Client) : ClientStep → NetworkStep → Prop
  | command (a : Answers) : NetworkStepOf c (.command a) (.command a)
  | event (event : SwarmEvent) : NetworkStepOf c (.event event) (.event event)
  | bootstrap : NetworkStepOf c .bootstrap .bootstrap
  | drop (tx : ℕ) : NetworkStepOf c (.drop tx) (.drop tx)
  | call (request : ProviderRequest) : NetworkStepOf c (.call request) (.call request)
  | respond {i channel : ℕ} {headers : List Header} : c.network.manager.incomingPeerRequests[i]? = some channel →
      .response channel headers ∈ c.manager.sent → NetworkStepOf c (.respond i) (.response i (.ok headers))

/-- The other steps of the node are steps of its network task, or nothing if no response is there. -/
theorem network_of_step {x : ClientStep} (hx : x.calls = false) (he : c.step P x = .ok c') :
    (∃ i, x = .respond i ∧ c' = c) ∨
      ∃ y w, NetworkStepOf c x y ∧ c.network.step y = .ok w ∧ c' = { c with network := w } := by
  have hnetwork : ∀ y, NetworkStepOf c x y → c.networkStep y = .ok c' →
      ∃ y w, NetworkStepOf c x y ∧ c.network.step y = .ok w ∧ c' = { c with network := w } := by
    intro y hy he
    obtain ⟨w, hw, he⟩ := exists_of_bind_eq_ok he
    cases he
    exact ⟨y, w, hy, mapError_eq_ok_iff.mp hw, rfl⟩
  cases x with
  | command a => exact .inr (hnetwork _ (.command a) he)
  | event event => exact .inr (hnetwork _ (.event event) he)
  | bootstrap => exact .inr (hnetwork _ .bootstrap he)
  | drop tx => exact .inr (hnetwork _ (.drop tx) he)
  | call request => exact .inr (hnetwork _ (.call request) he)
  | respond i =>
    change c.respond i = .ok c' at he
    unfold Client.respond at he
    split at he
    · rename_i channel hchannel
      split at he
      · rename_i headers hanswer
        refine .inr (hnetwork _ (.respond hchannel ?_) he)
        obtain ⟨x, hx, hfound⟩ := List.exists_of_findSome?_eq_some hanswer
        cases x with
        | response ch headers' =>
          simp only [Option.ite_none_right_eq_some, Option.some.injEq] at hfound
          obtain ⟨rfl, rfl⟩ := hfound
          exact hx
        | _ => cases hfound
      · cases he
        exact .inl ⟨i, rfl, rfl⟩
    · cases he
      exact .inl ⟨i, rfl, rfl⟩
  | _ => cases hx

/-- **What the network task and its clients keep the node keeps,** as long as only somebody outside listens or dials. -/
theorem network_invariant (hstep : ∀ w x w', J w → (∀ request, x = .call request → request.connects = false) →
      w.step x = .ok w' → J w')
    (h : J c.network) {x : ClientStep} (hx : ∀ request, x = .call request → request.connects = false)
    (he : c.step P x = .ok c') : J c'.network := by
  cases hcalls : x.calls with
  | true =>
    refine calls_invariant (fun w request hJ hrequest => ?_) h hcalls he
    exact hstep w (.call request) _ hJ (by rintro _ ⟨⟩; exact hrequest) rfl
  | false =>
    rcases network_of_step hcalls he with ⟨-, -, rfl⟩ | ⟨y, w, hy, hw, rfl⟩
    · exact h
    · refine hstep c.network y w h ?_ hw
      rintro request rfl
      cases hy
      exact hx request rfl

/-- A response that the chain side gives is what it has for a request that came in. -/
theorem response_of_step {x : ClientStep} (he : c.step P x = .ok c') {channel : ℕ} {headers : List Header}
    (h : .response channel headers ∈ c'.manager.sent) : .response channel headers ∈ c.manager.sent ∨
      ∃ request, .getBlockHeaders channel request ∈ c.network.manager.eventSender.sent ∧
        c.manager.handleGetBlockHeadersRequest P request = .ok headers := by
  cases hcalls : x.calls with
  | false =>
    rcases network_of_step hcalls he with ⟨-, -, rfl⟩ | ⟨y, w, -, -, rfl⟩
    · exact .inl h
    · exact .inl h
  | true =>
    cases x with
    | onEvent =>
      change c.onEvent P = .ok c' at he
      unfold Client.onEvent at he
      split at he
      · rename_i event hevent
        obtain ⟨manager, hm, he⟩ := exists_of_bind_eq_ok he
        cases he
        change Sent.response channel headers ∈ manager.sent at h
        have hm := mapError_eq_ok_iff.mp hm
        cases event with
        | incomingNewBlockHeader header =>
          obtain ⟨r, chain, -, ⟨-, rfl⟩ | ⟨-, rfl⟩ | ⟨-, rfl⟩ | ⟨-, rfl⟩⟩ :=
            ChainNetworkManager.onNewBlockHeader_cases hm
          · exact .inl (by simpa [ChainNetworkManager.broadcast] using h)
          · exact .inl h
          · rw [ChainNetworkManager.onMissingParent_eq] at h
            refine .inl ?_
            simp only [List.mem_append] at h
            split_ifs at h <;> simpa using h
          · exact .inl h
        | incomingTransactions transactions =>
          cases hm
          exact .inl (by simpa [ChainNetworkManager.broadcast] using h)
        | getBlockHeaders channel' request =>
          obtain ⟨headers', hheaders, hm⟩ := exists_of_bind_eq_ok hm
          cases hm
          rcases List.mem_append.mp h with h | h
          · exact .inl h
          · cases List.mem_singleton.mp h
            exact .inr ⟨request, List.mem_of_getElem? hevent, hheaders⟩
      · cases he
        exact .inl h
    | onPeers outcome =>
      obtain ⟨manager, hm, he⟩ := exists_of_bind_eq_ok he
      cases he
      obtain ⟨requests, closest, rfl⟩ := pollPeers_eq (mapError_eq_ok_iff.mp hm)
      exact .inl h
    | onDownload k fuel look =>
      change c.onDownload P k fuel look = .ok c' at he
      unfold Client.onDownload at he
      split at he
      · split at he
        · obtain ⟨manager, hm, he⟩ := exists_of_bind_eq_ok he
          cases he
          obtain ⟨added, requests, latch, rfl⟩ := pollSyncs_eq (mapError_eq_ok_iff.mp hm)
          exact .inl h
        · cases he
          exact .inl h
        · cases he
          exact .inl h
      · cases he
        exact .inl h
    | mine draws =>
      obtain ⟨⟨result, chain⟩, -, he⟩ := exists_of_bind_eq_ok he
      cases result with
      | mined header =>
        cases he
        exact .inl h
      | blockFallingBehind =>
        cases he
        exact .inl h
    | submit txs =>
      cases he
      exact .inl h
    | _ => cases hcalls

/-- A download was there, or is new, or was polled. -/
theorem download_of_step {x : ClientStep} (he : c.step P x = .ok c') {d : SyncHeader ℕ} (hd : d ∈ c'.downloads) :
    d ∈ c.downloads ∨ d.inProgressQueue = [] ∨
      ∃ d₀ ∈ c.downloads, ∃ fuel look, d₀.poll (Network.headersEnv look) fuel c.network =
        some (.pending d, c'.network) := by
  cases hcalls : x.calls with
  | false =>
    rcases network_of_step hcalls he with ⟨-, -, rfl⟩ | ⟨y, w, -, -, rfl⟩
    · exact .inl hd
    · exact .inl hd
  | true =>
    cases x with
    | onEvent =>
      change c.onEvent P = .ok c' at he
      unfold Client.onEvent at he
      split at he
      · obtain ⟨manager, -, he⟩ := exists_of_bind_eq_ok he
        cases he
        exact .inl hd
      · cases he
        exact .inl hd
    | onPeers outcome =>
      obtain ⟨manager, -, he⟩ := exists_of_bind_eq_ok he
      cases he
      rcases List.mem_append.mp hd with hd | hd
      · exact .inl hd
      · obtain ⟨builder, -, hbuild⟩ := List.mem_filterMap.mp hd
        obtain ⟨peer, -, rfl⟩ := Option.map_eq_some_iff.mp hbuild
        exact .inr (.inl rfl)
    | onDownload k fuel look =>
      change c.onDownload P k fuel look = .ok c' at he
      unfold Client.onDownload at he
      split at he
      · rename_i download hdownload
        split at he
        · obtain ⟨manager, -, he⟩ := exists_of_bind_eq_ok he
          cases he
          exact .inl (List.mem_of_mem_eraseIdx hd)
        · rename_i download' network hpoll
          cases he
          rcases List.mem_or_eq_of_mem_set hd with hd | rfl
          · exact .inl hd
          · exact .inr (.inr ⟨download, List.mem_of_getElem? hdownload, fuel, look, hpoll⟩)
        · cases he
          exact .inl hd
      · cases he
        exact .inl hd
    | mine draws =>
      obtain ⟨⟨result, chain⟩, -, he⟩ := exists_of_bind_eq_ok he
      cases result with
      | mined header =>
        cases he
        exact .inl hd
      | blockFallingBehind =>
        cases he
        exact .inl hd
    | submit txs =>
      cases he
      exact .inl hd
    | _ => cases hcalls

end Client

end Simb
