import Simb.Tasks.SyncSteps

/-!
# Downloads end

Every answer that a download takes and every request that it issues brings it closer to its end: `work` goes
down.  So every poll ends after some progress, unless nothing is ready (`exists_poll`), and a download resolves unless
from some moment on none of the requests in flight is answered any more (`resolves_or_starves`).
-/

namespace Simb.Tasks

variable {ω φ : Type} {env : Env ω φ} {s s' : SyncHeader φ} {w w' : ω}

/-! ## One poll -/

/-- The inner loop over the answers takes some, or finds none ready. -/
theorem work_drain {n : ℕ} (hn : n = s.inProgressQueue.length) (h : s.drain env n w = (.ok s', w')) :
    s'.requestLimit = s.requestLimit ∧
      (work s' < work s ∨ s' = s ∧ (s.inProgressQueue = [] ∨ env.pollNext s.inProgressQueue w = (none, w'))) := by
  induction n generalizing s w with
  | zero =>
    cases h
    exact ⟨rfl, .inr ⟨rfl, .inl (List.length_eq_zero_iff.mp hn.symm)⟩⟩
  | succ n ih =>
    rcases drain_succ h with ⟨⟨⟩, hp⟩ | ⟨i, response, w₁, hp, ⟨e, -, hc, -⟩ | ⟨s₁, hr, hrest⟩⟩
    · exact ⟨rfl, .inr ⟨rfl, .inr hp⟩⟩
    · simp at hc
    · obtain ⟨hlimit, hwork⟩ := work_onReady i.isLt hr
      obtain ⟨hlimit', hless⟩ := ih (length_onReady i.isLt hn hr) hrest
      refine ⟨hlimit'.trans hlimit, .inl ?_⟩
      rcases hless with hlt | ⟨rfl, -⟩
      · exact hlt.trans hwork
      · exact hwork

/-- The inner loop that fills the window and makes progress issues a request. -/
theorem work_fill {room : ℕ} {progress : Bool} (hl : 1 ≤ s.requestLimit)
    (h : s.fill env room w = (s', w', progress)) :
    s'.requestLimit = s.requestLimit ∧ work s' ≤ work s ∧ (progress = true → work s' < work s) := by
  induction room generalizing s w progress with
  | zero =>
    cases h
    exact ⟨rfl, le_rfl, fun hc => by simp at hc⟩
  | succ room ih =>
    rcases fill_succ h with ⟨rfl, rfl, rfl, -⟩ | ⟨rfl, hb, fut, w₁, more, -, hrest⟩
    · exact ⟨rfl, le_rfl, fun hc => by simp at hc⟩
    · have hissued := work_issued hb hl fut
      obtain ⟨hlimit, hle, -⟩ := ih (s := s.issued fut) hl hrest
      have hlt := hle.trans_lt hissued
      exact ⟨hlimit, hlt.le, fun _ => hlt⟩

/-- The outer loop makes some progress, or the queue has nothing. -/
theorem work_loop {fuel : ℕ} (hl : 1 ≤ s.requestLimit) (h : s.loop env fuel w = some (.ok s', w')) :
    s'.requestLimit = s.requestLimit ∧
      (work s' < work s ∨ s' = s ∧ (s.inProgressQueue = [] ∨ env.pollNext s.inProgressQueue w = (none, w'))) := by
  induction fuel generalizing s w with
  | zero => cases h
  | succ fuel ih =>
    rcases loop_succ h with ⟨e, -, hc⟩ | ⟨s₁, w₁, hd, ⟨s₂, w₂, hf, hrest⟩ | ⟨-, ⟨⟩, rfl⟩⟩
    · simp at hc
    · obtain ⟨hlimit₁, hdrain⟩ := work_drain rfl hd
      obtain ⟨hlimit₂, -, hmore⟩ := work_fill (by rw [hlimit₁]; exact hl) hf
      obtain ⟨hlimit₃, hless⟩ := ih (by rw [hlimit₂, hlimit₁]; exact hl) hrest
      have hlt : work s₂ < work s := by
        rcases hdrain with hlt | ⟨rfl, -⟩
        · exact (hmore rfl).trans hlt
        · exact hmore rfl
      refine ⟨hlimit₃.trans (hlimit₂.trans hlimit₁), .inl ?_⟩
      rcases hless with hless | ⟨rfl, -⟩
      · exact hless.trans hlt
      · exact hlt
    · exact work_drain rfl hd

/-- **Every poll ends.**  If it leaves the download pending, it has made some progress, or nothing was ready. -/
theorem exists_poll (env : Env ω φ) (hl : 1 ≤ s.requestLimit) (w : ω) :
    ∃ fuel polled w', s.poll env fuel w = some (polled, w') ∧ ∀ s', polled = .pending s' →
      s'.requestLimit = s.requestLimit ∧
        (work s' < work s ∨ s' = s ∧ env.pollNext s.inProgressQueue w = (none, w')) := by
  obtain ⟨⟨result, w'⟩, hx⟩ := exists_iterations env .draining hl (Nat.lt_succ_self _) w
  have hloop := loop_of_iterations hx le_rfl
  refine ⟨_, finish result, w', by rw [poll_eq, hloop]; rfl, fun s' hs' => ?_⟩
  obtain ⟨rfl, hne⟩ := finish_eq_pending hs'
  obtain ⟨hlimit, hwork⟩ := work_loop hl hloop
  refine ⟨hlimit, hwork.imp_right ?_⟩
  rintro ⟨rfl, hqueue⟩
  exact ⟨rfl, hqueue.resolve_left hne⟩

/-! ## Whole downloads -/

/-- The world after the queue was asked `n` times. -/
def asked (env : Env ω φ) (queue : List φ) (n : ℕ) (w : ω) : ω := (fun w => (env.pollNext queue w).2)^[n] w

/-- The download comes to a point from which on none of its requests in flight is answered. -/
def Starves (env : Env ω φ) (s : SyncHeader φ) (w : ω) : Prop :=
  ∃ s' w', Comes env s w (.pending s') w' ∧
    ∀ n, (env.pollNext s'.inProgressQueue (asked env s'.inProgressQueue n w')).1 = none

/-- The download resolves, or its requests are not answered. -/
def Ends (env : Env ω φ) (s : SyncHeader φ) (w : ω) : Prop :=
  (∃ output w', Resolves env s w output w') ∨ Starves env s w

theorem Ends.again {fuel : ℕ} (h : Ends env s' w') (hp : s.poll env fuel w = some (.pending s', w')) : Ends env s w := by
  rcases h with ⟨output, w₁, hr⟩ | ⟨s₁, w₁, hc, hn⟩
  · exact .inl ⟨output, w₁, .pending fuel hp hr⟩
  · exact .inr ⟨s₁, w₁, .again fuel hp hc, hn⟩

/-- One poll brings a download to its end, or nothing was ready. -/
theorem ends_or_waits (hl : 1 ≤ s.requestLimit)
    (ih : ∀ s' : SyncHeader φ, 1 ≤ s'.requestLimit → work s' < work s → ∀ w, Ends env s' w) (w : ω) :
    Ends env s w ∨ ∃ fuel w', s.poll env fuel w = some (.pending s, w') ∧
      env.pollNext s.inProgressQueue w = (none, w') := by
  obtain ⟨fuel, polled, w', hpoll, hpending⟩ := exists_poll env hl w
  cases polled with
  | ready output => exact .inl (.inl ⟨output, w', .ready fuel hpoll⟩)
  | pending s' =>
    obtain ⟨hlimit, hlt | ⟨rfl, hnone⟩⟩ := hpending s' rfl
    · exact .inl ((ih s' (by rw [hlimit]; exact hl) hlt w').again hpoll)
    · exact .inr ⟨fuel, w', hpoll, hnone⟩

/-- **A download resolves, or its requests are not answered.** -/
theorem resolves_or_starves (env : Env ω φ) (hl : 1 ≤ s.requestLimit) (w : ω) : Ends env s w := by
  induction hn : work s using Nat.strong_induction_on generalizing s w with
  | _ n ih =>
    subst hn
    have hless : ∀ s' : SyncHeader φ, 1 ≤ s'.requestLimit → work s' < work s → ∀ w, Ends env s' w :=
      fun s' hl' hlt w => ih (work s') hlt hl' w rfl
    by_cases hnone : ∀ n, (env.pollNext s.inProgressQueue (asked env s.inProgressQueue n w)).1 = none
    · rcases ends_or_waits hl hless w with hends | ⟨fuel, w', hpoll, hwait⟩
      · exact hends
      · refine .inr ⟨s, w', .poll fuel hpoll, fun n => ?_⟩
        have hlater := hnone (n + 1)
        unfold asked at hlater
        rw [Function.iterate_succ_apply, hwait] at hlater
        exact hlater
    · -- by induction on the number of times the queue is asked before it answers
      obtain ⟨n, hn⟩ := not_forall.mp hnone
      clear hnone
      induction n generalizing w with
      | zero =>
        rcases ends_or_waits hl hless w with hends | ⟨fuel, w', hpoll, hwait⟩
        · exact hends
        · exact absurd (congrArg Prod.fst hwait) hn
      | succ n ihn =>
        rcases ends_or_waits hl hless w with hends | ⟨fuel, w', hpoll, hwait⟩
        · exact hends
        · unfold asked at hn
          rw [Function.iterate_succ_apply, hwait] at hn
          exact (ihn w' hn).again hpoll

end Simb.Tasks
