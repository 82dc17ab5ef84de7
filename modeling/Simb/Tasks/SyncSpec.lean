import Simb.Tasks.SyncHeader

/-!
# What a download can do

All that a download does is to take an answer off its queue, or to issue its next request.  `Keeps` is the
rule that follows: what these two keep holds when a poll ends (`Keeps.poll`), after any number of polls
(`Keeps.comes`), and when the download resolves (`Keeps.resolves`).
-/

namespace Simb.Tasks

variable {ω φ : Type} {env : Env ω φ} {J : SyncHeader φ → ω → Prop} {s s' : SyncHeader φ} {w w' : ω}

/-! ## The two steps -/

/-- The next request: it starts above the head, asks for some blocks, and nothing of it wraps around. -/
theorem nextRequest_spec (hlt : s.localHeadBlock < s.targetHead) (hl : 1 ≤ s.requestLimit) :
    s.nextRequest.startBlock.toNat = s.localHeadBlock.toNat + 1 ∧ 0 < s.nextRequest.limit.toNat ∧
      s.nextRequest.limit.toNat = min (s.targetHead.toNat - s.localHeadBlock.toNat) s.requestLimit.toNat ∧
      (s.localHeadBlock + s.nextRequest.limit).toNat = s.localHeadBlock.toNat + s.nextRequest.limit.toNat := by
  have hsub : (s.targetHead - s.localHeadBlock).toNat = s.targetHead.toNat - s.localHeadBlock.toNat :=
    UInt64.toNat_sub_of_le _ _ (UInt64.le_of_lt hlt)
  have hlim : s.nextRequest.limit.toNat = min (s.targetHead.toNat - s.localHeadBlock.toNat) s.requestLimit.toNat := by
    show (if s.targetHead - s.localHeadBlock ≤ s.requestLimit then s.targetHead - s.localHeadBlock
      else s.requestLimit).toNat = _
    split
    · rename_i hle
      rw [UInt64.le_iff_toNat_le, hsub] at hle
      omega
    · rename_i hle
      rw [UInt64.le_iff_toNat_le, hsub] at hle
      omega
  have htarget := s.targetHead.toNat_lt
  have hone : (1 : UInt64).toNat = 1 := rfl
  rw [UInt64.lt_iff_toNat_lt] at hlt
  rw [UInt64.le_iff_toNat_le, hone] at hl
  refine ⟨?_, by omega, hlim, ?_⟩
  · show (s.localHeadBlock + 1).toNat = _
    rw [UInt64.toNat_add, hone]
    omega
  · rw [UInt64.toNat_add]
    omega

theorem onReady_eq_ok {i : ℕ} {response : RequestResponse HeadersResponse} (h : s.onReady i response = .ok s') :
    ∃ headers, response = .ok headers ∧ headers ≠ [] ∧
      s' = { s with inProgressQueue := s.inProgressQueue.eraseIdx i,
                    queuedHeaders := s.queuedHeaders ++ headers } := by
  cases response with
  | error e => cases h
  | ok headers =>
    unfold SyncHeader.onReady SyncHeader.onHeaderResponse at h
    simp only at h
    split at h
    · cases h
    · rename_i hne
      cases h
      exact ⟨headers, rfl, hne, rfl⟩

/-- A download fails on a failed or an empty answer. -/
theorem onReady_eq_error {i : ℕ} {response : RequestResponse HeadersResponse} {e : SyncHeaderError}
    (h : s.onReady i response = .error e) : (∃ e, response = .error e) ∨ response = .ok [] := by
  cases response with
  | error e => exact .inl ⟨e, rfl⟩
  | ok headers =>
    unfold SyncHeader.onReady SyncHeader.onHeaderResponse at h
    simp only at h
    split at h
    · rename_i hempty
      exact .inr (by rw [hempty])
    · cases h

theorem Resolves.comes {output : SyncHeaderOutput} (h : Resolves env s w output w') :
    Comes env s w (.ready output) w' := by
  induction h with
  | ready fuel hp => exact .poll fuel hp
  | pending fuel hp _ ih => exact .again fuel hp ih

/-! ## The loops -/

/-- An iteration of the loop over the answers: nothing is ready, the download fails on an answer, or it takes one. -/
theorem drain_succ {n : ℕ} {r : Except SyncHeaderError (SyncHeader φ)} (h : s.drain env (n + 1) w = (r, w')) :
    (r = .ok s ∧ env.pollNext s.inProgressQueue w = (none, w')) ∨
      ∃ i response w₁, env.pollNext s.inProgressQueue w = (some (i, response), w₁) ∧
        ((∃ e, s.onReady i response = .error e ∧ r = .error e ∧ w' = w₁) ∨
          ∃ s₁, s.onReady i response = .ok s₁ ∧ s₁.drain env n w₁ = (r, w')) := by
  unfold SyncHeader.drain at h
  rcases hp : env.pollNext s.inProgressQueue w with ⟨_ | ⟨i, response⟩, w₁⟩
  · simp only [hp] at h
    cases h
    exact .inl ⟨rfl, rfl⟩
  · refine .inr ⟨i, response, w₁, rfl, ?_⟩
    cases hr : s.onReady i response with
    | error e =>
      simp only [hp, hr] at h
      cases h
      exact .inl ⟨e, rfl, rfl, rfl⟩
    | ok s₁ =>
      simp only [hp, hr] at h
      exact .inr ⟨s₁, rfl, h⟩

/-- An iteration of the loop that fills the window: all blocks are requested, or the next request is issued. -/
theorem fill_succ {room : ℕ} {progress : Bool} (h : s.fill env (room + 1) w = (s', w', progress)) :
    (progress = false ∧ s' = s ∧ w' = w ∧ s.targetHead ≤ s.localHeadBlock) ∨
      (progress = true ∧ s.localHeadBlock < s.targetHead ∧
        ∃ fut w₁ more, env.getHeaders s.peerId s.nextRequest w = (fut, w₁) ∧
          (s.issued fut).fill env room w₁ = (s', w', more)) := by
  unfold SyncHeader.fill at h
  by_cases hb : s.localHeadBlock < s.targetHead
  · rcases hg : env.getHeaders s.peerId s.nextRequest w with ⟨fut, w₁⟩
    rcases hf : (s.issued fut).fill env room w₁ with ⟨s₂, w₂, more⟩
    simp only [hb, if_true, hg, hf] at h
    cases h
    exact .inr ⟨rfl, hb, fut, w₁, more, rfl, hf⟩
  · rw [if_neg hb] at h
    cases h
    exact .inl ⟨rfl, rfl, rfl, UInt64.not_lt.mp hb⟩

/-- The loop that fills the window and makes no progress does nothing. -/
theorem fill_idle {room : ℕ} (hroom : room = s.maxConcurrentLimit - s.inProgressQueue.length)
    (h : s.fill env room w = (s', w', false)) : s' = s ∧ w' = w ∧ s.Idle := by
  cases room with
  | zero =>
    cases h
    exact ⟨rfl, rfl, .inl (by omega)⟩
  | succ room =>
    rcases fill_succ h with ⟨-, rfl, rfl, hdone⟩ | ⟨hc, -⟩
    · exact ⟨rfl, rfl, .inr hdone⟩
    · simp at hc

/-- An iteration of the outer loop: the download fails, or it goes round again after some progress, or the loop ends. -/
theorem loop_succ {fuel : ℕ} {r : Except SyncHeaderError (SyncHeader φ)} (h : s.loop env (fuel + 1) w = some (r, w')) :
    (∃ e, s.drain env s.inProgressQueue.length w = (.error e, w') ∧ r = .error e) ∨
      ∃ s₁ w₁, s.drain env s.inProgressQueue.length w = (.ok s₁, w₁) ∧
        ((∃ s₂ w₂, s₁.fill env (s₁.maxConcurrentLimit - s₁.inProgressQueue.length) w₁ = (s₂, w₂, true) ∧
            s₂.loop env fuel w₂ = some (r, w')) ∨
          s₁.Idle ∧ r = .ok s₁ ∧ w' = w₁) := by
  unfold SyncHeader.loop at h
  rcases hd : s.drain env s.inProgressQueue.length w with ⟨e | s₁, w₁⟩
  · simp only [hd] at h
    cases h
    exact .inl ⟨e, rfl, rfl⟩
  · refine .inr ⟨s₁, w₁, rfl, ?_⟩
    rcases hf : s₁.fill env (s₁.maxConcurrentLimit - s₁.inProgressQueue.length) w₁ with ⟨s₂, w₂, progress⟩
    simp only [hd, hf] at h
    cases progress with
    | true => exact .inl ⟨s₂, w₂, rfl, h⟩
    | false =>
      obtain ⟨rfl, rfl, hidle⟩ := fill_idle rfl hf
      cases h
      exact .inr ⟨hidle, rfl, rfl⟩

/-! ## The rule -/

/-- The steps of a download keep `J`. -/
structure Keeps (env : Env ω φ) (J : SyncHeader φ → ω → Prop) : Prop where
  wait : ∀ s w w', J s w → env.pollNext s.inProgressQueue w = (none, w') → J s w'
  ready : ∀ s w w' s' i response, J s w → env.pollNext s.inProgressQueue w = (some (i, response), w') →
    s.onReady i response = .ok s' → J s' w'
  request : ∀ s w w' fut, J s w → s.inProgressQueue.length < s.maxConcurrentLimit →
    s.localHeadBlock < s.targetHead → env.getHeaders s.peerId s.nextRequest w = (fut, w') → J (s.issued fut) w'

/-- A download of which `J` is known takes an answer on which it fails. -/
def Fails (env : Env ω φ) (J : SyncHeader φ → ω → Prop) (e : SyncHeaderError) (w' : ω) : Prop :=
  ∃ s w i response, J s w ∧ env.pollNext s.inProgressQueue w = (some (i, response), w') ∧
    s.onReady i response = .error e

/-- What is known after a poll of a download that keeps `J`. -/
def After (env : Env ω φ) (J : SyncHeader φ → ω → Prop) (w' : ω) : Polled φ → Prop
  | .pending s => J s w'
  | .ready (.ok headers) => ∃ s, J s w' ∧ s.Idle ∧ s.inProgressQueue = [] ∧ s.queuedHeaders = headers
  | .ready (.error e) => Fails env J e w'

namespace Keeps

theorem drain (hk : Keeps env J) {n : ℕ} {r : Except SyncHeaderError (SyncHeader φ)} (hJ : J s w)
    (h : s.drain env n w = (r, w')) : (∃ s', r = .ok s' ∧ J s' w') ∨ ∃ e, r = .error e ∧ Fails env J e w' := by
  induction n generalizing s w with
  | zero =>
    cases h
    exact .inl ⟨s, rfl, hJ⟩
  | succ n ih =>
    rcases drain_succ h with ⟨rfl, hp⟩ | ⟨i, response, w₁, hp, ⟨e, hr, rfl, rfl⟩ | ⟨s₁, hr, hrest⟩⟩
    · exact .inl ⟨s, rfl, hk.wait _ _ _ hJ hp⟩
    · exact .inr ⟨e, rfl, s, w, i, response, hJ, hp, hr⟩
    · exact ih (hk.ready _ _ _ _ _ _ hJ hp hr) hrest

theorem fill (hk : Keeps env J) {room : ℕ} {progress : Bool} (hJ : J s w)
    (hroom : room ≤ s.maxConcurrentLimit - s.inProgressQueue.length)
    (h : s.fill env room w = (s', w', progress)) : J s' w' := by
  induction room generalizing s w progress with
  | zero =>
    cases h
    exact hJ
  | succ room ih =>
    rcases fill_succ h with ⟨-, rfl, rfl, -⟩ | ⟨-, hb, fut, w₁, more, hg, hrest⟩
    · exact hJ
    · have hlen : (s.issued fut).inProgressQueue.length = s.inProgressQueue.length + 1 := by
        simp [SyncHeader.issued]
      refine ih (hk.request _ _ _ _ hJ (by omega) hb hg) ?_ hrest
      rw [hlen]
      show room ≤ s.maxConcurrentLimit - _
      omega

theorem loop (hk : Keeps env J) {fuel : ℕ} {r : Except SyncHeaderError (SyncHeader φ)} (hJ : J s w)
    (h : s.loop env fuel w = some (r, w')) :
    (∃ s', r = .ok s' ∧ J s' w' ∧ s'.Idle) ∨ ∃ e, r = .error e ∧ Fails env J e w' := by
  induction fuel generalizing s w with
  | zero => cases h
  | succ fuel ih =>
    rcases loop_succ h with ⟨e, hd, rfl⟩ | ⟨s₁, w₁, hd, ⟨s₂, w₂, hf, hrest⟩ | ⟨hidle, rfl, rfl⟩⟩
    · exact (hk.drain hJ hd).imp_left fun ⟨s', hs', _⟩ => (by simp at hs')
    · rcases hk.drain hJ hd with ⟨_, ⟨⟩, hJ₁⟩ | ⟨e, he, -⟩
      · exact ih (hk.fill hJ₁ le_rfl hf) hrest
      · simp at he
    · rcases hk.drain hJ hd with ⟨_, ⟨⟩, hJ₁⟩ | ⟨e, he, -⟩
      · exact .inl ⟨s₁, rfl, hJ₁, hidle⟩
      · simp at he

/-- What is known when a poll ends. -/
theorem poll (hk : Keeps env J) {fuel : ℕ} {polled : Polled φ} (hJ : J s w)
    (h : s.poll env fuel w = some (polled, w')) : After env J w' polled := by
  unfold SyncHeader.poll at h
  rcases hl : s.loop env fuel w with _ | ⟨r, w₁⟩
  · simp only [hl] at h
    cases h
  · rcases hk.loop hJ hl with ⟨s₁, rfl, hJ₁, hidle⟩ | ⟨e, rfl, hfail⟩
    · simp only [hl] at h
      split at h
      · rename_i hempty
        cases h
        exact ⟨s₁, hJ₁, hidle, List.isEmpty_iff.mp hempty, rfl⟩
      · cases h
        exact hJ₁
    · simp only [hl] at h
      cases h
      exact hfail

/-- What is known after some polls. -/
theorem comes (hk : Keeps env J) {polled : Polled φ} (hJ : J s w) (h : Comes env s w polled w') :
    After env J w' polled := by
  induction h with
  | poll fuel hp => exact hk.poll hJ hp
  | again fuel hp _ ih => exact ih (hk.poll hJ hp)

/-- What is known when a download resolves. -/
theorem resolves (hk : Keeps env J) {output : SyncHeaderOutput} (hJ : J s w) (h : Resolves env s w output w') :
    After env J w' (.ready output) := hk.comes hJ h.comes

end Keeps

/-! ## Richer worlds -/

/-- `env'` does what `env` does, in a world that knows more. -/
structure Env.Over {ω' : Type} (env' : Env ω' φ) (env : Env ω φ) (g : ω' → ω) : Prop where
  getHeaders : ∀ peerId request w,
    env.getHeaders peerId request (g w) = (env'.getHeaders peerId request w).map id g
  pollNext : ∀ queue w, env.pollNext queue (g w) = (env'.pollNext queue w).map id g

namespace Env.Over

variable {ω' : Type} {env' : Env ω' φ} {g : ω' → ω}

theorem drain (ho : env'.Over env g) (n : ℕ) (s : SyncHeader φ) (w : ω') :
    s.drain env n (g w) = (s.drain env' n w).map id g := by
  induction n generalizing s w with
  | zero => rfl
  | succ n ih =>
    unfold SyncHeader.drain
    rw [ho.pollNext]
    rcases env'.pollNext s.inProgressQueue w with ⟨_ | ⟨i, response⟩, w₁⟩
    · rfl
    · simp only [Prod.map_apply, id]
      cases s.onReady i response with
      | ok s₁ => exact ih s₁ w₁
      | error e => rfl

theorem fill (ho : env'.Over env g) (room : ℕ) (s : SyncHeader φ) (w : ω') :
    s.fill env room (g w) = (s.fill env' room w).map id (Prod.map g id) := by
  induction room generalizing s w with
  | zero => rfl
  | succ room ih =>
    unfold SyncHeader.fill
    by_cases hb : s.localHeadBlock < s.targetHead
    · have hg := ho.getHeaders s.peerId s.nextRequest w
      rcases hg' : env'.getHeaders s.peerId s.nextRequest w with ⟨fut, w₁⟩
      rw [hg'] at hg
      simp only [hb, if_true, hg, Prod.map_apply, id, ih]
      rfl
    · simp only [hb, if_false]
      rfl

theorem loop (ho : env'.Over env g) (fuel : ℕ) (s : SyncHeader φ) (w : ω') :
    s.loop env fuel (g w) = (s.loop env' fuel w).map (Prod.map id g) := by
  induction fuel generalizing s w with
  | zero => rfl
  | succ fuel ih =>
    unfold SyncHeader.loop
    rw [ho.drain]
    rcases s.drain env' s.inProgressQueue.length w with ⟨e | s₁, w₁⟩
    · rfl
    · simp only [Prod.map_apply, id]
      rw [ho.fill]
      rcases s₁.fill env' (s₁.maxConcurrentLimit - s₁.inProgressQueue.length) w₁ with ⟨s₂, w₂, _ | _⟩
      · rfl
      · exact ih s₂ w₂

theorem poll (ho : env'.Over env g) (fuel : ℕ) (s : SyncHeader φ) (w : ω') :
    s.poll env fuel (g w) = (s.poll env' fuel w).map (Prod.map id g) := by
  unfold SyncHeader.poll
  rw [ho.loop]
  rcases s.loop env' fuel w with _ | ⟨e | s₁, w₁⟩ <;> rfl

/-- **A run in the poorer world is one in the richer world.** -/
theorem comes (ho : env'.Over env g) {polled : Polled φ} {w : ω'} (h : Comes env s (g w) polled w') :
    ∃ w₁, g w₁ = w' ∧ Comes env' s w polled w₁ := by
  generalize hg : g w = w₀ at h
  induction h generalizing w with
  | poll fuel hp =>
    subst hg
    rw [ho.poll] at hp
    obtain ⟨⟨polled', w₁⟩, hp', heq⟩ := Option.map_eq_some_iff.mp hp
    cases heq
    exact ⟨w₁, rfl, .poll fuel hp'⟩
  | again fuel hp _ ih =>
    subst hg
    rw [ho.poll] at hp
    obtain ⟨⟨polled', w₁⟩, hp', heq⟩ := Option.map_eq_some_iff.mp hp
    cases heq
    obtain ⟨w₂, hw₂, hcomes⟩ := ih rfl
    exact ⟨w₂, hw₂, .again fuel hp' hcomes⟩

end Env.Over

end Simb.Tasks
