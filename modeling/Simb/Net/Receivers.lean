import Simb.Lib.Run
import Simb.Net.HeaderRequests
import Simb.Tasks.SyncOrder

/-!
# No response to a dropped receiver

As long as a sender is on its way, in a command or in the map of the network task, its receiver must not be
dropped.  A download drops receivers only when it resolves with an error, on a failed or an empty answer.  If
at that moment none of its other requests is unanswered, no sender ever meets a dropped receiver
(`no_send_to_dropped`); otherwise the next report on such a request makes the network task panic.
-/

namespace Simb.Net

open Simb.Tasks Simb.Lib

/-- The network task has not panicked, and does not on any event that can come next. -/
def Safe (r : Except NetworkPanic Exchange) : Prop := ∃ s, r = .ok s ∧ ∀ e, ∃ s', s.event e = .ok s'

/-- A download that takes a failed or an empty answer has no other request that is unanswered. -/
def Settled (r : Except NetworkPanic Exchange) (x : ExchangeStep) : Prop :=
  ∀ s k i syncer response, r = .ok s → x = .ready k i → s.syncers[k]? = some (some syncer) →
    s.answer syncer.inProgressQueue i = some response → (∃ e, response = .error e) ∨ response = .ok [] →
      ∀ c ∈ syncer.inProgressQueue.eraseIdx i, s.channels[c]? ≠ some .empty

/-- Every sender that is on its way has a channel of its own, in which nothing was sent and whose receiver is
there. -/
structure Exchange.Inv (s : Exchange) : Prop where
  commands : ∀ g ∈ s.commandRecv, s.channels[g.sender]? = some .empty
  pending : ∀ (id : ℕ) (g : GetHeadersRequest), s.manager.pendingRequestHeaders[id]? = some g →
    s.channels[g.sender]? = some .empty ∧ id < s.nextId
  distinct : s.commandRecv.Pairwise fun g g' => g.sender ≠ g'.sender
  apart : ∀ g ∈ s.commandRecv, ∀ (id : ℕ) (g' : GetHeadersRequest),
    s.manager.pendingRequestHeaders[id]? = some g' → g.sender ≠ g'.sender
  unique : ∀ (id id' : ℕ) (g g' : GetHeadersRequest), s.manager.pendingRequestHeaders[id]? = some g →
    s.manager.pendingRequestHeaders[id']? = some g' → g.sender = g'.sender → id = id'

namespace Exchange

variable {s s' : Exchange}

theorem inv_init : init.Inv := by
  have hnone : ∀ (id : ℕ) (g : GetHeadersRequest), init.manager.pendingRequestHeaders[id]? ≠ some g := by
    intro id g
    simp [init]
  exact ⟨fun g hg => absurd hg List.not_mem_nil, fun id g hg => absurd hg (hnone id g), .nil,
    fun g hg => absurd hg List.not_mem_nil, fun id _ g _ hg => absurd hg (hnone id g)⟩

/-- What a sender relies on does not involve the downloads. -/
theorem Inv.of_eq (h : s.Inv) (hc : s'.channels = s.channels) (hr : s'.commandRecv = s.commandRecv)
    (hm : s'.manager.pendingRequestHeaders = s.manager.pendingRequestHeaders) (hn : s'.nextId = s.nextId) :
    s'.Inv := by
  obtain ⟨h1, h2, h3, h4, h5⟩ := h
  rw [← hc, ← hr] at h1
  rw [← hc, ← hm, ← hn] at h2
  rw [← hr] at h3
  rw [← hr, ← hm] at h4
  rw [← hm] at h5
  exact ⟨h1, h2, h3, h4, h5⟩

theorem lt_of_empty {c : ℕ} {channels : Channels} (h : channels[c]? = some .empty) : c < channels.length :=
  (List.getElem?_eq_some_iff.mp h).1

/-- A new channel, with its sender on the way to the network task. -/
theorem Inv.getHeaders (h : s.Inv) (peer : PeerId) (request : HeadersRequest) :
    (s.getHeaders peer request).Inv := by
  have hold : ∀ {c : ℕ}, s.channels[c]? = some .empty → (s.channels ++ [.empty])[c]? = some .empty := by
    intro c hc
    rw [List.getElem?_append_left (lt_of_empty hc), hc]
  refine ⟨?_, ?_, ?_, ?_, h.unique⟩
  · intro g hg
    rcases List.mem_append.mp hg with hg | hg
    · exact hold (h.commands g hg)
    · rw [List.mem_singleton.mp hg]
      exact List.getElem?_concat_length
  · intro id g hg
    exact ⟨hold (h.pending id g hg).1, (h.pending id g hg).2⟩
  · show (s.commandRecv ++ [_]).Pairwise _
    rw [List.pairwise_append]
    refine ⟨h.distinct, List.pairwise_singleton _ _, ?_⟩
    intro g hg g' hg'
    rw [List.mem_singleton.mp hg']
    exact (lt_of_empty (h.commands g hg)).ne
  · intro g hg id g' hg'
    rcases List.mem_append.mp hg with hg | hg
    · exact h.apart g hg id g' hg'
    · rw [List.mem_singleton.mp hg]
      exact (lt_of_empty (h.pending id g' hg').1).ne'

theorem Inv.request (h : s.Inv) (k : ℕ) : (s.request k).Inv := by
  unfold Exchange.request
  split
  · split
    · exact h
    · exact (h.getHeaders _ _).of_eq rfl rfl rfl rfl
  · exact h

theorem Inv.finish (h : s.Inv) (k : ℕ) : (s.finish k).Inv := by
  unfold Exchange.finish
  split
  · split
    · exact h.of_eq rfl rfl rfl rfl
    · exact h
  · exact h

theorem getElem?_dropReceivers {channels : Channels} {futs : List ℕ} {c : ℕ} (hc : c ∉ futs) :
    (dropReceivers channels futs)[c]? = channels[c]? := by
  unfold dropReceivers
  rw [List.getElem?_mapIdx]
  simp [hc]

theorem Inv.ready (h : s.Inv) {k i : ℕ} (hs : Settled (.ok s) (.ready k i)) : (s.ready k i).Inv := by
  unfold Exchange.ready
  split
  · rename_i syncer hsyncer
    split
    · rename_i response hresponse
      split
      · exact h.of_eq rfl rfl rfl rfl
      · rename_i e he
        -- the receivers that go are those of channels that are not empty
        have hne := hs s k i syncer response rfl rfl hsyncer hresponse (onReady_eq_error he)
        have hkeep : ∀ {c : ℕ}, s.channels[c]? = some .empty →
            (dropReceivers s.channels (syncer.inProgressQueue.eraseIdx i))[c]? = some .empty := by
          intro c hc
          rw [getElem?_dropReceivers fun hmem => hne c hmem hc, hc]
        refine ⟨?_, ?_, h.distinct, h.apart, h.unique⟩
        · intro g hg
          exact hkeep (h.commands g hg)
        · intro id g hg
          exact ⟨hkeep (h.pending id g hg).1, (h.pending id g hg).2⟩
    · exact h
  · exact h

/-- A command goes to the map, under a new id. -/
theorem Inv.command (h : s.Inv) : s.command.Inv := by
  unfold Exchange.command
  split
  · exact h
  · rename_i g rest hcommands
    obtain ⟨h1, h2, h3, h4, h5⟩ := h
    rw [hcommands] at h1 h3 h4
    have hmap : ∀ {id : ℕ} {g' : GetHeadersRequest},
        (s.manager.pendingRequestHeaders.insert s.nextId g)[id]? = some g' →
          id = s.nextId ∧ g' = g ∨ id ≠ s.nextId ∧ s.manager.pendingRequestHeaders[id]? = some g' := by
      intro id g' hid
      by_cases hn : id = s.nextId
      · subst hn
        rw [Table.getElem?_insert_self] at hid
        exact .inl ⟨rfl, (Option.some.inj hid).symm⟩
      · rw [Table.getElem?_insert_of_ne _ _ hn] at hid
        exact .inr ⟨hn, hid⟩
    obtain ⟨hhead, hrest⟩ := List.pairwise_cons.mp h3
    refine ⟨fun g' hg' => h1 g' (List.mem_cons_of_mem _ hg'), ?_, hrest, ?_, ?_⟩
    · intro id g' hid
      show _ ∧ id < s.nextId + 1
      rcases hmap hid with ⟨rfl, rfl⟩ | ⟨-, hid⟩
      · exact ⟨h1 _ List.mem_cons_self, Nat.lt_succ_self _⟩
      · exact ⟨(h2 _ _ hid).1, Nat.lt_succ_of_lt (h2 _ _ hid).2⟩
    · intro g' hg' id g'' hid
      rcases hmap hid with ⟨rfl, rfl⟩ | ⟨-, hid⟩
      · exact (hhead g' hg').symm
      · exact h4 g' (List.mem_cons_of_mem _ hg') id g'' hid
    · intro id id' g' g'' hid hid' heq
      rcases hmap hid with ⟨rfl, rfl⟩ | ⟨-, hold⟩
      · rcases hmap hid' with ⟨rfl, rfl⟩ | ⟨-, hold'⟩
        · rfl
        · exact absurd heq (h4 _ List.mem_cons_self id' g'' hold')
      · rcases hmap hid' with ⟨rfl, rfl⟩ | ⟨-, hold'⟩
        · exact absurd heq.symm (h4 _ List.mem_cons_self id g' hold)
        · exact h5 id id' g' g'' hold hold' heq

theorem send_empty {channels : Channels} {c : ℕ} (h : channels[c]? = some .empty)
    (a : RequestResponse HeadersResponse) : Oneshot.send channels c a = some (channels.set c (.full a)) := by
  unfold Oneshot.send
  rw [h]

/-- A response goes through, and its sender is gone. -/
theorem Inv.respond (h : s.Inv) (id : ℕ) (response : RequestResponse HeadersResponse) (p : NetworkPanic) :
    ∃ manager channels, s.manager.respond s.channels id response p = .ok (manager, channels) ∧
      { s with manager, channels }.Inv := by
  unfold HeaderRequests.respond
  cases hid : s.manager.pendingRequestHeaders[id]? with
  | none => exact ⟨_, _, rfl, h⟩
  | some g =>
    simp only [send_empty (h.pending id g hid).1]
    refine ⟨_, _, rfl, ?_⟩
    have hkeep : ∀ {c : ℕ}, g.sender ≠ c → s.channels[c]? = some .empty →
        (s.channels.set g.sender (.full response))[c]? = some .empty := by
      intro c hne hc
      rw [List.getElem?_set_ne hne, hc]
    have hmap : ∀ {id' : ℕ} {g' : GetHeadersRequest}, (s.manager.pendingRequestHeaders.erase id)[id']? = some g' →
        s.manager.pendingRequestHeaders[id']? = some g' ∧ g.sender ≠ g'.sender := by
      intro id' g' hid'
      by_cases hn : id' = id
      · subst hn
        rw [Table.getElem?_erase_self] at hid'
        cases hid'
      · rw [Table.getElem?_erase_of_ne _ hn] at hid'
        exact ⟨hid', fun heq => hn (h.unique id id' g g' hid hid' heq).symm⟩
    refine ⟨?_, ?_, h.distinct, ?_, ?_⟩
    · intro g' hg'
      exact hkeep (h.apart g' hg' id g hid).symm (h.commands g' hg')
    · intro id' g' hid'
      obtain ⟨hold, hne⟩ := hmap hid'
      exact ⟨hkeep hne (h.pending id' g' hold).1, (h.pending id' g' hold).2⟩
    · intro g' hg' id' g'' hid'
      exact h.apart g' hg' id' g'' (hmap hid').1
    · intro id' id'' g' g'' hid' hid''
      exact h.unique id' id'' g' g'' (hmap hid').1 (hmap hid'').1

/-- No event makes the network task panic. -/
theorem Inv.event (h : s.Inv) (e : HeadersEvent) : ∃ s', s.event e = .ok s' ∧ s'.Inv := by
  have hhandle : ∃ manager channels,
      s.manager.handleRequestResponseHeaderEvent s.channels e = .ok (manager, channels) ∧
        { s with manager, channels }.Inv := by
    cases e with
    | request channel request => exact ⟨_, _, rfl, h.of_eq rfl rfl rfl rfl⟩
    | response id response => exact h.respond id (.ok response) .receiverNotToDropped
    | outboundFailure id => exact h.respond id (.error .outboundFailure) .receiverDropped
    | inboundFailure => exact ⟨_, _, rfl, h⟩
    | responseSent => exact ⟨_, _, rfl, h⟩
  unfold Exchange.event
  split
  · obtain ⟨manager, channels, heq, hinv⟩ := hhandle
    rw [heq]
    exact ⟨_, rfl, hinv.of_eq rfl rfl rfl rfl⟩
  · exact ⟨s, rfl, h⟩

theorem Inv.step (h : s.Inv) {x : ExchangeStep} (hx : Settled (.ok s) x) : ∃ s', s.step x = .ok s' ∧ s'.Inv := by
  cases x with
  | start b => exact ⟨_, rfl, h.of_eq rfl rfl rfl rfl⟩
  | request k => exact ⟨_, rfl, h.request k⟩
  | ready k i => exact ⟨_, rfl, h.ready hx⟩
  | finish k => exact ⟨_, rfl, h.finish k⟩
  | command => exact ⟨_, rfl, h.command⟩
  | event e => exact h.event e

end Exchange

/-- **No response to a dropped receiver.**  In every run in which a download that takes a failed or an empty answer
has no other request unanswered, the network task never panics, whatever event comes next. -/
theorem no_send_to_dropped (steps : List ExchangeStep)
    (h : EveryStep Exchange.next Settled (.ok Exchange.init) steps) :
    EveryState Exchange.next Safe (.ok Exchange.init) steps := by
  have hstep : ∀ r x, (∃ s, r = .ok s ∧ s.Inv) → Settled r x → ∃ s, Exchange.next r x = .ok s ∧ s.Inv := by
    rintro _ x ⟨s, rfl, hs⟩ hx
    exact hs.step hx
  refine (everyState_of_everyStep hstep ⟨_, rfl, Exchange.inv_init⟩ h).mono ?_
  rintro _ ⟨s, rfl, hs⟩
  refine ⟨s, rfl, ?_⟩
  intro e
  obtain ⟨s', hs', -⟩ := hs.event e
  exact ⟨s', hs'⟩

/-! ### Two batches, the first one empty -/

/-- With one batch in flight, an empty answer leaves no other request behind. -/
theorem no_send_to_dropped_one :
    EveryState Exchange.next Safe (.ok Exchange.init)
      [.start twoBatches, .request 0, .command, .event (.response 0 []), .ready 0 0] := by
  refine no_send_to_dropped _ ⟨?_, ?_, ?_, ?_, ?_, trivial⟩
  · rintro _ _ _ _ _ - ⟨⟩
  · rintro _ _ _ _ _ - ⟨⟩
  · rintro _ _ _ _ _ - ⟨⟩
  · rintro _ _ _ _ _ - ⟨⟩
  · rintro s k i syncer response hs ⟨⟩ hsyncer - - c hc
    cases hs
    cases hsyncer
    cases hc

/-- Two batches are in flight.  The first is answered with no header, so the download fails and drops the receiver
of the second, and the response to the second makes the network task panic. -/
theorem send_to_dropped :
    [.start twoBatches, .request 0, .request 0, .command, .command, .event (.response 0 []), .ready 0 0,
        .event (.response 1 (mockHeaders ⟨1, 2⟩))].foldl Exchange.next (.ok Exchange.init) =
      .error .receiverNotToDropped := by
  rfl

end Simb.Net
