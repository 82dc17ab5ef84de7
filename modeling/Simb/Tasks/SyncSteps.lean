import Simb.Tasks.SyncSpec

/-!
# The iterations of a poll

`poll` has two loops inside of a third.  Here it goes one iteration at a time (`iterate`), with no bound on any loop.
Every iteration lowers the `rank` of the point that the poll has come to: it takes an answer, issues a request, or goes
on to the next loop, and the outer loop only goes round again after a request.  So a poll ends after a number of
iterations that depends on the blocks to be requested and the requests in flight alone (`poll_terminates`), and it comes
to what `poll` comes to with any fuel from there on.
-/

namespace Simb.Tasks

/-- The loop whose next iteration is due. -/
inductive At where
  | draining
  | filling (progress : Bool)

/-- What an iteration comes to: a further one, or the end of the outer loop. -/
inductive Iteration (ω φ : Type) where
  | goes (pc : At) (s : SyncHeader φ) (w : ω)
  | ends (result : Except SyncHeaderError (SyncHeader φ)) (w : ω)

variable {ω φ : Type} (env : Env ω φ)

/-- One iteration. -/
def iterate : At → SyncHeader φ → ω → Iteration ω φ
  | .draining, s, w =>
    -- an empty queue yields `Ready(None)`
    if s.inProgressQueue.isEmpty then .goes (.filling false) s w
    else
      match env.pollNext s.inProgressQueue w with
      | (none, w) => .goes (.filling false) s w
      | (some (i, response), w) =>
        match s.onReady i response with
        | .ok s => .goes .draining s w
        | .error e => .ends (.error e) w
  | .filling progress, s, w =>
    if s.inProgressQueue.length < s.maxConcurrentLimit ∧ s.localHeadBlock < s.targetHead then
      let (fut, w) := env.getHeaders s.peerId s.nextRequest w
      .goes (.filling true) (s.issued fut) w
    else if progress then .goes .draining s w
    else .ends (.ok s) w

/-- The iterations up to the end, if there are `n` at most. -/
def iterations : (n : ℕ) → At → SyncHeader φ → ω → Option (Except SyncHeaderError (SyncHeader φ) × ω)
  | 0, _, _, _ => none
  | n + 1, pc, s, w =>
    match iterate env pc s w with
    | .goes pc s w => iterations n pc s w
    | .ends result w => some (result, w)

/-- What the end of the outer loop makes of a poll. -/
def finish : Except SyncHeaderError (SyncHeader φ) → Polled φ
  | .error e => .ready (.error e)
  | .ok s => if s.inProgressQueue.isEmpty then .ready (.ok s.queuedHeaders) else .pending s

/-- A poll, if it ends within `n` iterations. -/
def pollWithin (n : ℕ) (s : SyncHeader φ) (w : ω) : Option (Polled φ × ω) :=
  (iterations env n .draining s w).map (Prod.map finish id)

variable {env} {s s' : SyncHeader φ} {w w' : ω} {pc pc' : At} {n m : ℕ}
  {x : Except SyncHeaderError (SyncHeader φ) × ω}

/-! ## The rank -/

/-- What a download has still to do: to request the blocks up to the target, and to take the answers in flight. -/
def work (s : SyncHeader φ) : ℕ := 2 * (s.targetHead.toNat - s.localHeadBlock.toNat) + s.inProgressQueue.length

theorem work_onReady {i : ℕ} {response : RequestResponse HeadersResponse} (hi : i < s.inProgressQueue.length)
    (h : s.onReady i response = .ok s') : s'.requestLimit = s.requestLimit ∧ work s' < work s := by
  obtain ⟨headers, -, -, rfl⟩ := onReady_eq_ok h
  refine ⟨rfl, ?_⟩
  simp only [work, List.length_eraseIdx_of_lt hi]
  omega

theorem work_issued (hlt : s.localHeadBlock < s.targetHead) (hl : 1 ≤ s.requestLimit) (fut : φ) :
    work (s.issued fut) < work s := by
  obtain ⟨-, hpos, hlim, hhead⟩ := nextRequest_spec hlt hl
  simp only [work, SyncHeader.issued, hhead, List.length_append, List.length_singleton]
  omega

theorem length_onReady {i n : ℕ} {response : RequestResponse HeadersResponse} (hi : i < s.inProgressQueue.length)
    (hn : n + 1 = s.inProgressQueue.length) (h : s.onReady i response = .ok s') :
    n = s'.inProgressQueue.length := by
  obtain ⟨headers, -, -, rfl⟩ := onReady_eq_ok h
  simp only [List.length_eraseIdx_of_lt hi]
  omega

/-- How far a poll is from its end. -/
def rank : At → SyncHeader φ → ℕ
  | .draining, s => 3 * work s + 2
  | .filling false, s => 3 * work s + 1
  | .filling true, s => 3 * work s + 3

/-- An iteration of the loop over the answers takes one, or it is the last. -/
theorem rank_lt_draining (h : iterate env .draining s w = .goes pc' s' w') :
    s'.requestLimit = s.requestLimit ∧ rank pc' s' < rank .draining s := by
  simp only [iterate] at h
  split at h
  · cases h
    exact ⟨rfl, Nat.lt_succ_self _⟩
  · rcases hp : env.pollNext s.inProgressQueue w with ⟨_ | ⟨i, response⟩, w₁⟩
    · simp only [hp] at h
      cases h
      exact ⟨rfl, Nat.lt_succ_self _⟩
    · cases hr : s.onReady i response with
      | ok s₁ =>
        simp only [hp, hr] at h
        cases h
        obtain ⟨hlimit, hwork⟩ := work_onReady i.isLt hr
        refine ⟨hlimit, ?_⟩
        simp only [rank]
        omega
      | error e => simp [hp, hr] at h

/-- An iteration of the loop over the window issues a request, or it is the last, after some progress. -/
theorem rank_lt_filling {progress : Bool} (hl : 1 ≤ s.requestLimit)
    (h : iterate env (.filling progress) s w = .goes pc' s' w') :
    s'.requestLimit = s.requestLimit ∧ rank pc' s' < rank (.filling progress) s := by
  have hrank : 3 * work s + 1 ≤ rank (.filling progress) s := by
    cases progress with
    | false => exact le_rfl
    | true => exact Nat.le_add_right (3 * work s + 1) 2
  simp only [iterate] at h
  split at h
  · rename_i hroom
    rcases hg : env.getHeaders s.peerId s.nextRequest w with ⟨fut, w₁⟩
    simp only [hg] at h
    cases h
    have hissued := work_issued hroom.2 hl fut
    refine ⟨rfl, ?_⟩
    have hafter : rank (.filling true) (s.issued fut) = 3 * work (s.issued fut) + 3 := rfl
    omega
  · cases progress with
    | false => simp at h
    | true =>
      simp only [if_true] at h
      cases h
      exact ⟨rfl, Nat.lt_succ_self _⟩

/-- **Every iteration comes closer to the end.** -/
theorem rank_lt (hl : 1 ≤ s.requestLimit) (h : iterate env pc s w = .goes pc' s' w') :
    s'.requestLimit = s.requestLimit ∧ rank pc' s' < rank pc s := by
  cases pc with
  | draining => exact rank_lt_draining h
  | filling progress => exact rank_lt_filling hl h

/-- The iterations end. -/
theorem exists_iterations (env : Env ω φ) (pc : At) (hl : 1 ≤ s.requestLimit) (hn : rank pc s < n) (w : ω) :
    ∃ x, iterations env n pc s w = some x := by
  induction n generalizing pc s w with
  | zero => omega
  | succ n ih =>
    unfold iterations
    cases hi : iterate env pc s w with
    | ends result w₁ => exact ⟨_, rfl⟩
    | goes pc₁ s₁ w₁ =>
      obtain ⟨hlimit, hlt⟩ := rank_lt hl hi
      exact ih pc₁ (by rw [hlimit]; exact hl) (by omega) w₁

/-! ## The loops -/

/-- The iterations of the inner loop over the answers are `drain`. -/
theorem iterations_drain (hn : n = s.inProgressQueue.length) (h : iterations env m .draining s w = some x) :
    (∃ e w₁, s.drain env n w = (.error e, w₁) ∧ x = (.error e, w₁)) ∨
      ∃ s₁ w₁ m₁, s.drain env n w = (.ok s₁, w₁) ∧ m₁ < m ∧ iterations env m₁ (.filling false) s₁ w₁ = some x := by
  induction n generalizing s w m with
  | zero =>
    cases m with
    | zero => simp [iterations] at h
    | succ m =>
      have hempty : s.inProgressQueue.isEmpty := by
        rw [List.isEmpty_iff, ← List.length_eq_zero_iff, ← hn]
      simp only [iterations, iterate, hempty, if_true] at h
      exact .inr ⟨s, w, m, rfl, Nat.lt_succ_self m, h⟩
  | succ n ih =>
    cases m with
    | zero => simp [iterations] at h
    | succ m =>
      have hempty : s.inProgressQueue.isEmpty = false := by
        rw [List.isEmpty_eq_false_iff, ← List.length_pos_iff]
        omega
      simp only [iterations, iterate, hempty, Bool.false_eq_true, if_false] at h
      unfold SyncHeader.drain
      rcases hp : env.pollNext s.inProgressQueue w with ⟨_ | ⟨i, response⟩, w₁⟩
      · simp only [hp] at h
        exact .inr ⟨s, w₁, m, rfl, Nat.lt_succ_self m, h⟩
      · cases hr : s.onReady i response with
        | error e =>
          simp only [hp, hr] at h ⊢
          exact .inl ⟨e, w₁, rfl, (Option.some.inj h).symm⟩
        | ok s₁ =>
          simp only [hp, hr] at h ⊢
          rcases ih (length_onReady i.isLt hn hr) h with herr | ⟨s₂, w₂, m₂, hd, hm, hrest⟩
          · exact .inl herr
          · exact .inr ⟨s₂, w₂, m₂, hd, hm.trans (Nat.lt_succ_self m), hrest⟩

/-- The loop over the window ends. -/
theorem iterations_stop {progress : Bool}
    (hstop : ¬ (s.inProgressQueue.length < s.maxConcurrentLimit ∧ s.localHeadBlock < s.targetHead))
    (h : iterations env m (.filling progress) s w = some x) :
    (progress = true → ∃ m₁, m₁ < m ∧ iterations env m₁ .draining s w = some x) ∧
      (progress = false → x = (.ok s, w)) := by
  cases m with
  | zero => simp [iterations] at h
  | succ m =>
    simp only [iterations, iterate, if_neg hstop] at h
    cases progress with
    | true => exact ⟨fun _ => ⟨m, Nat.lt_succ_self m, h⟩, fun hc => by simp at hc⟩
    | false => exact ⟨fun hc => by simp at hc, fun _ => (Option.some.inj h).symm⟩

/-- The iterations of the inner loop over the window are `fill`. -/
theorem iterations_fill {progress : Bool} (hn : n = s.maxConcurrentLimit - s.inProgressQueue.length)
    (h : iterations env m (.filling progress) s w = some x) :
    ∃ s₁ w₁ more, s.fill env n w = (s₁, w₁, more) ∧
      ((progress || more) = true → ∃ m₁, m₁ < m ∧ iterations env m₁ .draining s₁ w₁ = some x) ∧
      ((progress || more) = false → x = (.ok s₁, w₁)) := by
  induction n generalizing s w m progress with
  | zero =>
    refine ⟨s, w, false, rfl, ?_⟩
    rw [Bool.or_false]
    exact iterations_stop (fun hroom => by omega) h
  | succ n ih =>
    unfold SyncHeader.fill
    by_cases hb : s.localHeadBlock < s.targetHead
    · cases m with
      | zero => simp [iterations] at h
      | succ m =>
        have hroom : s.inProgressQueue.length < s.maxConcurrentLimit := by omega
        rcases hg : env.getHeaders s.peerId s.nextRequest w with ⟨fut, w₁⟩
        simp only [iterations, iterate, hroom, hb, and_self, if_true, hg] at h
        have hlen : n = (s.issued fut).maxConcurrentLimit - (s.issued fut).inProgressQueue.length := by
          simp only [SyncHeader.issued, List.length_append, List.length_singleton]
          omega
        obtain ⟨s₂, w₂, more, hf, hgoes, -⟩ := ih hlen h
        obtain ⟨m₁, hm₁, hrest⟩ := hgoes rfl
        simp only [hb, if_true, hf]
        refine ⟨s₂, w₂, true, rfl, fun _ => ⟨m₁, hm₁.trans (Nat.lt_succ_self m), hrest⟩, fun hc => ?_⟩
        simp at hc
    · rw [if_neg hb]
      refine ⟨s, w, false, rfl, ?_⟩
      rw [Bool.or_false]
      exact iterations_stop (fun hroom => hb hroom.2) h

/-- **The iterations are those of `loop`,** with any fuel that is not less than their number. -/
theorem loop_of_iterations {fuel : ℕ} (h : iterations env m .draining s w = some x) (hfuel : m ≤ fuel) :
    s.loop env fuel w = some x := by
  induction fuel generalizing s w m with
  | zero =>
    obtain rfl := Nat.le_zero.mp hfuel
    simp [iterations] at h
  | succ fuel ih =>
    unfold SyncHeader.loop
    rcases iterations_drain rfl h with ⟨e, w₁, hd, rfl⟩ | ⟨s₁, w₁, m₁, hd, hm₁, hfill⟩
    · simp only [hd]
    · obtain ⟨s₂, w₂, more, hf, hgoes, hends⟩ := iterations_fill rfl hfill
      rw [Bool.false_or] at hgoes hends
      cases more with
      | true =>
        obtain ⟨m₂, hm₂, hrest⟩ := hgoes rfl
        simp only [hd, hf]
        exact ih hrest (by omega)
      | false =>
        simp only [hd, hf]
        rw [hends rfl]

theorem finish_eq_pending {result : Except SyncHeaderError (SyncHeader φ)} (h : finish result = .pending s) :
    result = .ok s ∧ s.inProgressQueue ≠ [] := by
  cases result with
  | error e => simp [finish] at h
  | ok s₁ =>
    simp only [finish] at h
    split at h
    · simp at h
    · rename_i hne
      cases h
      exact ⟨rfl, fun hempty => hne (by simp [hempty])⟩

theorem poll_eq (s : SyncHeader φ) (fuel : ℕ) (w : ω) :
    s.poll env fuel w = (s.loop env fuel w).map (Prod.map finish id) := by
  unfold SyncHeader.poll
  rcases s.loop env fuel w with _ | ⟨_ | s₁, w₁⟩ <;> rfl

/-- A poll leaves the download pending with requests in flight. -/
theorem poll_eq_pending {fuel : ℕ} (h : s.poll env fuel w = some (.pending s', w')) :
    s.loop env fuel w = some (.ok s', w') ∧ s'.inProgressQueue ≠ [] := by
  rw [poll_eq] at h
  obtain ⟨⟨result, w₁⟩, hloop, heq⟩ := Option.map_eq_some_iff.mp h
  simp only [Prod.map_apply, id, Prod.mk.injEq] at heq
  obtain ⟨hpending, rfl⟩ := heq
  obtain ⟨rfl, hne⟩ := finish_eq_pending hpending
  exact ⟨hloop, hne⟩

/-- **A poll ends.**  If at least one block is asked for in a request, then a poll ends, from any state, whatever the
window and whenever the futures are ready, after a number of iterations of its loops that only depends on the blocks to
be requested and the requests in flight; and with any fuel from this number on `poll` gives what it ends with. -/
theorem poll_terminates (env : Env ω φ) (s : SyncHeader φ) (w : ω) (hl : 1 ≤ s.requestLimit) :
    ∃ polled w',
      pollWithin env (3 * (2 * (s.targetHead.toNat - s.localHeadBlock.toNat) + s.inProgressQueue.length) + 3) s w =
        some (polled, w') ∧
      ∀ fuel, 3 * (2 * (s.targetHead.toNat - s.localHeadBlock.toNat) + s.inProgressQueue.length) + 3 ≤ fuel →
        s.poll env fuel w = some (polled, w') := by
  obtain ⟨⟨result, w'⟩, hx⟩ := exists_iterations env .draining hl (Nat.lt_succ_self _) w
  refine ⟨finish result, w', ?_, fun fuel hfuel => ?_⟩
  · unfold pollWithin
    exact congrArg (Option.map _) hx
  · rw [poll_eq, loop_of_iterations hx hfuel]
    rfl

/-- A provider whose futures are ready as soon as they are pushed. -/
def atOnce : Env Unit Unit where
  getHeaders _ _ w := ((), w)
  pollNext queue w :=
    match queue with
    | [] => (none, w)
    | _ :: _ => (some (⟨0, Nat.succ_pos _⟩, .ok [⟨0, .empty, .empty, 0, 0, .empty⟩]), w)

/-- Three blocks to be requested, one at a time, with two requests in flight at most. -/
def threeBlocks (φ : Type) : SyncHeader φ :=
  { inProgressQueue := [], queuedHeaders := [], maxConcurrentLimit := 2, localHeadBlock := 0, requestLimit := 1,
    targetHead := 3, peerId := ⟨[]⟩ }

/-- Three blocks, with futures that are ready as soon as they are pushed: 21 iterations are enough. -/
theorem poll_terminates_atOnce : ∃ polled w', pollWithin atOnce 21 (threeBlocks Unit) () = some (polled, w') := by
  obtain ⟨polled, w', h, -⟩ := poll_terminates atOnce (threeBlocks Unit) () (by decide)
  exact ⟨polled, w', h⟩

end Simb.Tasks
