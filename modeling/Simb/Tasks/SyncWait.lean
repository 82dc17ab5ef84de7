import Simb.Tasks.SyncSteps

/-!
# What a download waits for

A poll that leaves its download pending ends with a look at all requests in flight.  The outer loop only ends after a
round that issued no request, and in such a round nothing happens after `poll_next` has yielded nothing
(`poll_pending`).  So no request is in flight that was not polled since it was pushed, and the window is full unless
there is nothing to be requested (`waits_only_when_must`).

A `FuturesUnordered` polls each of its futures when it is polled for the first time since the future was pushed, or was
woken.  What is asked of it here is that it yields something whenever one of its futures is ready (`Yields`).
-/

namespace Simb.Tasks

variable {ω φ : Type}

/-- What a poll does to its queue. -/
inductive Event (ω φ : Type) where
  /-- A new request is pushed. -/
  | pushed (fut : φ)
  /-- `poll_next` on these futures, in this world. -/
  | polled (queue : List φ) (w : ω)

/-- `env` in a world that remembers what is done to the queue. -/
def Env.watched (env : Env ω φ) : Env (ω × List (Event ω φ)) φ where
  getHeaders peerId request w :=
    let (fut, w₁) := env.getHeaders peerId request w.1
    (fut, w₁, w.2 ++ [.pushed fut])
  pollNext queue w :=
    let (yielded, w₁) := env.pollNext queue w.1
    (yielded, w₁, w.2 ++ [.polled queue w.1])

/-- Whenever one of the futures is ready, the queue yields something. -/
def Yields (env : Env ω φ) (ready : ω → φ → Prop) : Prop :=
  ∀ queue w, (∃ fut ∈ queue, ready w fut) → (env.pollNext queue w).1 ≠ none

/-- No more requests are in flight than allowed. -/
def SyncHeader.Within (s : SyncHeader φ) : Prop := s.inProgressQueue.length ≤ s.maxConcurrentLimit

/-- The states of a download: as it was built, and as polls leave it, in any worlds. -/
inductive Reached (env : Env ω φ) : SyncHeader φ → Prop
  | built {b : SyncHeaderBuilder} {s : SyncHeader φ} : b.build = some s → Reached env s
  | polled (fuel : ℕ) {s s' : SyncHeader φ} {w w' : ω} :
      Reached env s → s.poll env fuel w = some (.pending s', w') → Reached env s'

/-- The download `s` waits for what it has to, in the world `w`, after a poll with this log. -/
structure WaitsRightly (env : Env ω φ) (ready : ω → φ → Prop) (s : SyncHeader φ) (w : ω) (log : List (Event ω φ)) :
    Prop where
  nonempty : s.inProgressQueue ≠ []
  /-- Every request in flight was polled after the last push, and was not ready. -/
  polled : ∀ fut ∈ s.inProgressQueue, ∃ before w₁ after,
    log = before ++ .polled s.inProgressQueue w₁ :: after ∧ (∀ fut', .pushed fut' ∉ after) ∧ ¬ ready w₁ fut
  /-- The world is as `poll_next` left it when it yielded nothing, with the wakers that it has registered. -/
  registered : ∃ w₁, env.pollNext s.inProgressQueue w₁ = (none, w)
  full : s.maxConcurrentLimit ≤ s.inProgressQueue.length ∨ s.targetHead ≤ s.localHeadBlock

variable {env : Env ω φ} {s s' : SyncHeader φ} {w w' : ω}

/-! ## The last round -/

/-- The loop over the answers ends when the queue is empty, or yields nothing. -/
theorem drain_ends {n : ℕ} (hn : n = s.inProgressQueue.length) (h : s.drain env n w = (.ok s', w')) :
    s'.inProgressQueue = [] ∨ ∃ w₁, env.pollNext s'.inProgressQueue w₁ = (none, w') := by
  induction n generalizing s w with
  | zero =>
    cases h
    exact .inl (List.length_eq_zero_iff.mp hn.symm)
  | succ n ih =>
    rcases drain_succ h with ⟨⟨⟩, hp⟩ | ⟨i, response, w₁, -, ⟨e, -, hc, -⟩ | ⟨s₁, hr, hrest⟩⟩
    · exact .inr ⟨w, hp⟩
    · simp at hc
    · exact ih (length_onReady i.isLt hn hr) hrest

/-- The last round of the outer loop takes answers and issues no request. -/
theorem loop_ends {fuel : ℕ} (h : s.loop env fuel w = some (.ok s', w')) :
    s'.Idle ∧ (s'.inProgressQueue = [] ∨ ∃ w₁, env.pollNext s'.inProgressQueue w₁ = (none, w')) := by
  induction fuel generalizing s w with
  | zero => cases h
  | succ fuel ih =>
    rcases loop_succ h with ⟨e, -, hc⟩ | ⟨s₁, w₁, hd, ⟨s₂, w₂, -, hrest⟩ | ⟨hidle, ⟨⟩, rfl⟩⟩
    · simp at hc
    · exact ih hrest
    · exact ⟨hidle, drain_ends rfl hd⟩

/-- **A poll that leaves the download pending** looked at all requests in flight when it had issued the last one. -/
theorem poll_pending {fuel : ℕ} (h : s.poll env fuel w = some (.pending s', w')) :
    s'.inProgressQueue ≠ [] ∧ s'.Idle ∧ ∃ w₁, env.pollNext s'.inProgressQueue w₁ = (none, w') := by
  obtain ⟨hloop, hne⟩ := poll_eq_pending h
  obtain ⟨hidle, hlast⟩ := loop_ends hloop
  exact ⟨hne, hidle, hlast.resolve_left hne⟩

/-! ## The window -/

theorem keeps_within (env : Env ω φ) : Keeps env fun s _ => s.Within where
  wait _ _ _ h _ := h
  ready s _ _ s' i response h _ hr := by
    obtain ⟨headers, -, -, rfl⟩ := onReady_eq_ok hr
    show (s.inProgressQueue.eraseIdx i).length ≤ s.maxConcurrentLimit
    exact (List.length_eraseIdx_le ..).trans h
  request s _ _ fut _ hroom _ _ := by
    show (s.inProgressQueue ++ [fut]).length ≤ s.maxConcurrentLimit
    rw [List.length_append, List.length_singleton]
    exact hroom

theorem Reached.within (h : Reached env s) : s.Within := by
  induction h with
  | built hb =>
    obtain ⟨peerId, -, rfl⟩ := Option.map_eq_some_iff.mp hb
    exact Nat.zero_le _
  | polled fuel _ hp ih => exact (keeps_within env).poll ih hp

/-! ## Waiting -/

theorem watched_over (env : Env ω φ) : env.watched.Over env Prod.fst where
  getHeaders _ _ _ := rfl
  pollNext _ _ := rfl

theorem WaitsRightly.of_poll {ready : ω → φ → Prop} {fuel : ℕ} {log log' : List (Event ω φ)} (hyields : Yields env ready)
    (h : s.poll env.watched fuel (w, log) = some (.pending s', w', log')) : WaitsRightly env ready s' w' log' := by
  obtain ⟨hne, hidle, ⟨w₁, log₁⟩, hlast⟩ := poll_pending h
  simp only [Env.watched, Prod.mk.injEq] at hlast
  obtain ⟨hnone, hworld, rfl⟩ := hlast
  refine ⟨hne, fun fut hfut => ⟨log₁, w₁, [], rfl, by simp, fun hready => ?_⟩, ⟨w₁, Prod.ext hnone hworld⟩, hidle⟩
  exact hyields _ _ ⟨fut, hfut, hready⟩ hnone

/-- **A download only waits when it must.**  Suppose that the queue yields something whenever one of its futures is
ready.  When a poll from any state leaves the download pending, requests are in flight, each of them was polled after it
was pushed and was not ready, and the window is full or nothing is left to be requested.  From a state that has no more
requests in flight than allowed, as all states that are reached, the window is never more than full. -/
theorem waits_only_when_must {ready : ω → φ → Prop} (hyields : Yields env ready) :
    (∀ s, Reached env s → s.Within) ∧
      ∀ (fuel : ℕ) (s s' : SyncHeader φ) (w w' : ω), s.poll env fuel w = some (.pending s', w') →
        (∃ log, s.poll env.watched fuel (w, []) = some (.pending s', w', log) ∧ WaitsRightly env ready s' w' log) ∧
          (s.Within → s'.inProgressQueue.length = s'.maxConcurrentLimit ∨ s'.targetHead ≤ s'.localHeadBlock) := by
  refine ⟨fun s => Reached.within, fun fuel s s' w w' h => ?_⟩
  have hwatched := (watched_over env).poll fuel s (w, [])
  rw [h] at hwatched
  obtain ⟨⟨polled, w₁, log⟩, hrun, heq⟩ := Option.map_eq_some_iff.mp hwatched.symm
  cases heq
  have hwaits := WaitsRightly.of_poll hyields hrun
  refine ⟨⟨log, hrun, hwaits⟩, fun hs => ?_⟩
  have hs' : s'.Within := (keeps_within env).poll hs h
  exact hwaits.full.imp_left fun hfull => le_antisymm hs' hfull

/-- A provider with a clock, which ticks when the queue is polled: a future is ready two ticks after the request. -/
def clock : Env ℕ ℕ where
  getHeaders _ _ w := (w + 2, w)
  pollNext queue w :=
    ((queue.findFinIdx? fun fut => fut ≤ w).map fun i => (i, .ok [⟨0, .empty, .empty, 0, 0, .empty⟩]), w + 1)

theorem yields_clock : Yields clock fun w fut => fut ≤ w := by
  rintro queue w ⟨fut, hfut, hready⟩ hnone
  simp only [clock, Option.map_eq_none_iff, List.findFinIdx?_eq_none_iff] at hnone
  simpa [hready] using hnone fut hfut

/-- Three blocks are requested one at a time, and two requests are in flight when the poll ends. -/
theorem waits_only_when_must_clock : ∃ s' log,
    (threeBlocks ℕ).poll clock.watched 2 (0, []) = some (.pending s', 1, log) ∧
      WaitsRightly clock (fun w fut => fut ≤ w) s' 1 log ∧ s'.inProgressQueue.length = s'.maxConcurrentLimit := by
  have hpoll : (threeBlocks ℕ).poll clock 2 0 =
      some (.pending { threeBlocks ℕ with inProgressQueue := [2, 2], localHeadBlock := 2 }, 1) := rfl
  obtain ⟨⟨log, hrun, hwaits⟩, hfull⟩ := (waits_only_when_must yields_clock).2 _ _ _ _ _ hpoll
  refine ⟨_, log, hrun, hwaits, (hfull (Nat.zero_le _)).resolve_right ?_⟩
  decide

end Simb.Tasks
