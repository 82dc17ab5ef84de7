import Simb.Cluster.Convergence

/-!
# Everything settles

A node is busy while it has commands to carry out or events to take, and a link while something is on its way.  What is
still to be done when all that was made has to get everywhere is a number (`work`), and every step of the busy ones lowers
it (`work_lt`).  So they are done after that many steps at most, and when nothing is busy any more, nothing is on its way
(`always_settles`): what keeps a cluster from converging is only new blocks and transactions.
-/

namespace Simb

open Simb.BlockTree Simb.Net Simb.Lib

/-! ## The queues of a node -/

namespace Client

/-- What the node has to do: an event that it takes may lead to two commands. -/
def todo (c : Client) : ℕ := c.network.requests.length + 3 * c.inbox.length

variable {P : Platform} {c c' : Client}

/-- A command is carried out. -/
theorem todo_command {a : Answers} (he : c.step P (.command a) = .ok c') (hbusy : c.network.requests ≠ []) :
    ∃ request : ProviderRequest, c'.todo + 1 = c.todo ∧ c'.published = c.published ++ request.message.toList ∧
      ∀ m ∈ request.message, m ∈ c.outbox := by
  obtain ⟨w, hw, he⟩ := exists_of_bind_eq_ok he
  cases he
  rcases command_flows (mapError_eq_ok_iff.mp hw) with ⟨hnone, -⟩ | ⟨request, hrequests, hflows⟩
  · exact absurd hnone hbusy
  · refine ⟨request, ?_, hflows.published, fun m hm => ?_⟩
    · have hinbox : w.manager.eventSender.sent = c.network.manager.eventSender.sent := by
        rw [hflows.events, List.append_nil]
      simp only [todo, inbox, hrequests, hinbox, List.length_cons]
      omega
    · rw [outbox, hrequests]
      exact List.mem_filterMap.mpr ⟨request, List.mem_cons_self, hm⟩

/-- An event of the swarm comes in. -/
theorem todo_event (h : c.Calm) {event : SwarmEvent} (he : c.step P (.event event) = .ok c') : c'.todo ≤ c.todo + 3 := by
  obtain ⟨w, hw, he⟩ := exists_of_bind_eq_ok he
  cases he
  obtain ⟨hrequests, hflows⟩ := event_flows h.composed.connected (mapError_eq_ok_iff.mp hw)
  simp only [todo, inbox, hrequests, hflows.events, List.length_drop, List.length_append]
  cases event.forwarded with
  | none => simp
  | some e =>
    rw [Option.toList_some, List.length_singleton]
    omega

/-- What is asked of the provider for an event. -/
theorem length_sent_onEvent {n n' : ChainNetworkManager} {e : ChainNetworkEvent} (he : n.onEvent P e = .ok n') :
    ∃ new, n'.sent = n.sent ++ new ∧ new.length ≤ 2 := by
  cases e with
  | incomingNewBlockHeader header =>
    obtain ⟨r, chain, -, hcases⟩ := ChainNetworkManager.onNewBlockHeader_cases he
    rcases hcases with ⟨-, rfl⟩ | ⟨-, rfl⟩ | ⟨-, rfl⟩ | ⟨-, rfl⟩
    · exact ⟨[.broadcastBlockHeader header], rfl, by simp⟩
    · exact ⟨[], by simp, by simp⟩
    · rw [ChainNetworkManager.onMissingParent_eq]
      refine ⟨_, rfl, ?_⟩
      split_ifs <;> simp
    · exact ⟨[], by simp, by simp⟩
  | incomingTransactions transactions =>
    cases he
    exact ⟨[.broadcastTransactions transactions], rfl, by simp⟩
  | getBlockHeaders channel request =>
    obtain ⟨headers, -, he⟩ := exists_of_bind_eq_ok he
    cases he
    exact ⟨[.response channel headers], rfl, by simp⟩

/-- The chain side takes an event. -/
theorem todo_onEvent (he : c.step P .onEvent = .ok c') (hbusy : c.inbox ≠ []) :
    c'.todo + 1 ≤ c.todo ∧ c'.published = c.published := by
  change c.onEvent P = .ok c' at he
  unfold Client.onEvent at he
  split at he
  · rename_i e hnext
    obtain ⟨manager, hm, he⟩ := exists_of_bind_eq_ok he
    cases he
    obtain ⟨new, hsent, hlen⟩ := length_sent_onEvent (mapError_eq_ok_iff.mp hm)
    obtain ⟨hmanager, hrequests⟩ := foldl_handOver new c.network
    have hnetwork : (c.withManager manager).network = new.foldl handOver c.network := by
      unfold withManager
      rw [hsent, List.drop_left]
    have hlt := (List.getElem?_eq_some_iff.mp hnext).1
    have hnew := (List.length_filterMap_le Sent.request new).trans hlen
    simp only [todo, inbox, published, hnetwork, hmanager, hrequests, List.length_append, List.length_drop]
    exact ⟨by omega, trivial⟩
  · rename_i hnone
    exact absurd (List.drop_eq_nil_of_le (List.getElem?_eq_none_iff.mp hnone)) hbusy

end Client

/-! ## The work of a cluster -/

namespace Flooded

variable {ι : Type}

/-- A step of a node or a link that has something to do. -/
def Busy (s : Flooded ι) : FloodedStep ι → Prop
  | .node i (.command _) => (s.node i).network.requests ≠ []
  | .node i .onEvent => (s.node i).inbox ≠ []
  | .arrive i j => s.flood.arriving i j ≠ none
  | _ => False

variable {P : Platform} {dataHash : List UInt8 → UInt64} {o : Overlay ι} {s s' : Flooded ι} {i j : ι}
  {x : FloodedStep ι}

theorem Busy.permitted (h : s.Busy x) : s.Permitted P dataHash o x := by
  cases x with
  | arrive i j => trivial
  | node i x =>
    cases x with
    | command a => exact ⟨by simp, by simp, by simp, by simp, by simp, by simp [Client.makes]⟩
    | onEvent => exact ⟨by simp, by simp, by simp, by simp, by simp, by simp [Client.makes]⟩
    | _ => exact h.elim

/-- When nothing is busy, nothing is on its way. -/
theorem Settled.of_not_busy (hs : s.Spread dataHash o) (h : ∀ x, ¬ s.Busy x) : s.Settled where
  quiet i j := by
    refine (hs.sound.got_le i j).antisymm (not_lt.mp fun hlt => h (.arrive i j) ?_)
    rw [Busy, Flood.arriving, List.getElem?_eq_getElem hlt]
    simp
  outbox i := by
    have hnone := not_not.mp (h (.node i (.command (granted 0))))
    rw [Client.outbox, hnone, List.filterMap_nil]
  inbox i := not_not.mp (h (.node i .onEvent))

section

variable [DecidableEq ι] [Fintype ι]

/-- What is left to do. -/
def work (s : Flooded ι) : ℕ := s.flood.work 3 s.made.length + ∑ i, (s.node i).todo

/-- **What is busy gets something done.** -/
theorem work_lt (h : s.Kept P dataHash o) (hx : s.Busy x) (he : s.step P dataHash o x = .ok s') : s'.work < s.work := by
  obtain ⟨hspread, ledgers, hblocks⟩ := h
  have htodo := fun i => Flood.sum_add_eq (fun k => (s.node k).todo) (fun k => (s'.node k).todo) i
  have hseen : ∀ {i m}, m ∈ s.made → ¬ s.flood.Knows (messageId dataHash) i m →
      (s.flood.seen i).length < s.made.length := fun hm hnew => hspread.sound.length_seen_lt (hspread.seen _) hm hnew
  unfold work
  cases x with
  | node i x =>
    obtain ⟨c, hc, hnode, hothers, hmade, hflood⟩ := step_node he
    have htodo := htodo i fun k hk => by rw [hothers k hk]
    cases x with
    | command a =>
      obtain ⟨request, hless, hpublished, hmessage⟩ := Client.todo_command hc hx
      have hwork : s'.flood.work 3 s.made.length ≤ s.flood.work 3 s.made.length := by
        rw [hflood _ hpublished]
        cases hm : request.message with
        | none => exact le_rfl
        | some m => exact Flood.work_publish_le 3 (hseen (hspread.outbox i m (hmessage m hm)))
      rw [hnode] at htodo
      rw [hmade, show (s.node i).makes P (.command a) = [] from rfl, List.append_nil]
      omega
    | onEvent =>
      obtain ⟨hless, hpublished⟩ := Client.todo_onEvent hc hx
      rw [hnode] at htodo
      rw [hmade, show (s.node i).makes P .onEvent = [] from rfl, List.append_nil,
        hflood [] (by rw [hpublished, List.append_nil]), List.foldl_nil]
      omega
    | _ => exact hx.elim
  | arrive j i =>
    obtain ⟨m, hm⟩ := Option.ne_none_iff_exists'.mp hx
    obtain ⟨hflood, hmade, hcases⟩ := step_arrive he
    have hsent := hspread.seen j m (hspread.sound.mem_of_arriving hm).2
    have hwork := Flood.work_arrive 3 hm hspread.sound (hseen (i := i) hsent)
    rw [hflood, hmade]
    rcases hcases with ⟨htaken, hnode⟩ | ⟨m, c, htaken, hc, hnode, hothers⟩
    · rw [htaken, Option.toList_none, List.length_nil] at hwork
      rw [hnode]
      omega
    · have hmore := Client.todo_event (hblocks.calm i) hc
      have htodo := htodo i fun k hk => by rw [hothers k hk]
      rw [htaken, Option.toList_some, List.length_singleton] at hwork
      rw [hnode] at htodo
      omega

/-- A run of busy steps is over soon. -/
theorem length_le_work (h : s.Kept P dataHash o) {steps : List (FloodedStep ι)}
    (hsteps : EveryStep P dataHash o (fun s x => s.Busy x) s steps) :
    ∃ s', steps.foldl (next P dataHash o) (.ok s) = .ok s' ∧ s'.Kept P dataHash o ∧ steps.length + s'.work ≤ s.work := by
  induction steps generalizing s with
  | nil => exact ⟨s, rfl, h, by simp⟩
  | cons x steps ih =>
    obtain ⟨hx, hsteps⟩ := hsteps
    obtain ⟨s₁, he, h₁⟩ := h.step (hx s rfl).permitted
    have hlt := work_lt h (hx s rfl) he
    rw [List.foldl_cons, show next P dataHash o (.ok s) x = s.step P dataHash o x from rfl, he]
    change Lib.EveryStep _ _ (s.step P dataHash o x) steps at hsteps
    rw [he] at hsteps
    obtain ⟨s', hs', h', hle⟩ := ih h₁ hsteps
    exact ⟨s', hs', h', by rw [List.length_cons]; omega⟩

/-- **Everything settles.**  From every state of a run, the nodes and links that have something to do can make at most `work`
steps until something new is made; and when they have done all, nothing is on its way. -/
theorem always_settles (P : Platform) (dataHash : List UInt8 → UInt64) (o : Overlay ι) (localPeerId : ι → PeerId)
    (steps : List (FloodedStep ι))
    (h : EveryStep P dataHash o (fun s x => s.Permitted P dataHash o x) (start P localPeerId) steps) :
    EveryState P dataHash o
      (fun s => ∀ later, EveryStep P dataHash o (fun s x => s.Busy x) s later →
        later.length ≤ s.work ∧ ∃ s', later.foldl (next P dataHash o) (.ok s) = .ok s' ∧
          ((∃ x, s'.Busy x) ∨ s'.Settled))
      (start P localPeerId) steps := by
  refine ((kept_start P dataHash o localPeerId).everyState h).mono ?_
  rintro _ ⟨s, rfl, hs⟩
  refine ⟨s, rfl, fun later hlater => ?_⟩
  obtain ⟨s', hs', hkept, hle⟩ := length_le_work hs hlater
  refine ⟨by omega, s', hs', ?_⟩
  by_cases hbusy : ∃ x, s'.Busy x
  · exact .inl hbusy
  · exact .inr (.of_not_busy hkept.1 (not_exists.mp hbusy))

theorem always_settles_delivery :
    EveryState (sample true) byteSum pair
      (fun s => ∀ later, EveryStep (sample true) byteSum pair (fun s x => s.Busy x) s later →
        later.length ≤ s.work ∧ ∃ s', later.foldl (next (sample true) byteSum pair) (.ok s) = .ok s' ∧
          ((∃ x, s'.Busy x) ∨ s'.Settled))
      (start (sample true) fun _ => ⟨[1]⟩) delivery :=
  always_settles _ _ _ _ _ (delivery_permitted _ _)

/-- So a state in which nothing is on its way can be reached. -/
theorem exists_settled (h : s.Kept P dataHash o) :
    ∃ later s', EveryStep P dataHash o (fun s x => s.Busy x) s later ∧
      later.foldl (next P dataHash o) (.ok s) = .ok s' ∧ s'.Settled := by
  induction hn : s.work using Nat.strong_induction_on generalizing s with
  | _ n ih =>
    by_cases hbusy : ∃ x, s.Busy x
    · obtain ⟨x, hx⟩ := hbusy
      obtain ⟨s₁, he, h₁⟩ := h.step hx.permitted
      obtain ⟨later, s', hlater, hs', hsettled⟩ := ih _ (hn ▸ work_lt h hx he) h₁ rfl
      refine ⟨x :: later, s', ⟨by rintro _ ⟨⟩; exact hx, ?_⟩, ?_, hsettled⟩
      · rw [show next P dataHash o (.ok s) x = .ok s₁ from he]
        exact hlater
      · rw [List.foldl_cons, show next P dataHash o (.ok s) x = .ok s₁ from he]
        exact hs'
    · exact ⟨[], s, trivial, rfl, .of_not_busy h.1 (not_exists.mp hbusy)⟩

end

end Flooded

end Simb
