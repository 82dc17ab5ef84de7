import Simb.Tasks.SyncOrder

/-!
# The accounts of a download

The log of a download has an entry for every request it issues and for every answer it takes, whoever answers and
in whatever order.  Replayed, it gives an `Account`: which requests were issued, which are in flight, and what
the others were answered with.

`batch_accounting` says what holds of the log of every run: the requests cover the blocks above the local head one
after the other, the window is never exceeded, a download that succeeds has used every answer once, and one that
takes a failed or an empty answer fails.
-/

namespace Simb.Tasks

open Simb.Lib

variable {ω φ : Type} {env : Env ω φ} {s s' : SyncHeader φ} {w w' : ω} {b : SyncHeaderBuilder}

/-! ## Logs -/

/-- What a download does outside: it issues a request, or takes the answer of the `i`-th request in flight. -/
inductive Entry where
  | issue (request : HeadersRequest)
  | answer (i : ℕ) (response : RequestResponse HeadersResponse)

/-- The same environment, with the log of the download. -/
def Env.logged (env : Env ω φ) : Env (ω × List Entry) φ where
  getHeaders peerId request w :=
    let (fut, w₁) := env.getHeaders peerId request w.1
    (fut, w₁, w.2 ++ [.issue request])
  pollNext queue w :=
    match env.pollNext queue w.1 with
    | (none, w₁) => (none, w₁, w.2)
    | (some (i, response), w₁) => (some (i, response), w₁, w.2 ++ [.answer i response])

theorem logged_over (env : Env ω φ) : env.logged.Over env Prod.fst where
  getHeaders _ _ _ := rfl
  pollNext queue w := by
    simp only [Env.logged]
    split <;> simp_all

/-- Every run has a log. -/
theorem Comes.logged {polled : Polled φ} (h : Comes env s w polled w') (log : List Entry) :
    ∃ log', Comes env.logged s (w, log) polled (w', log') := by
  obtain ⟨⟨_, log'⟩, rfl, hlog⟩ := (logged_over env).comes (w := (w, log)) h
  exact ⟨log', hlog⟩

/-- What a log comes to. -/
structure Account where
  /-- The requests, in the order in which they were issued. -/
  issued : List HeadersRequest
  inFlight : List HeadersRequest
  /-- The requests that were answered, with their responses, in the order of the answers. -/
  answered : List (HeadersRequest × RequestResponse HeadersResponse)

/-- An account after one more entry. -/
def Account.enter (a : Account) : Entry → Account
  | .issue request => { a with issued := a.issued ++ [request], inFlight := a.inFlight ++ [request] }
  | .answer i response =>
    { a with inFlight := a.inFlight.eraseIdx i,
             answered := a.answered ++ a.inFlight[i]?.toList.map fun request => (request, response) }

/-- The account of a log. -/
def account (log : List Entry) : Account := log.foldl Account.enter ⟨[], [], []⟩

theorem account_append_singleton (log : List Entry) (entry : Entry) :
    account (log ++ [entry]) = (account log).enter entry := by
  unfold account
  rw [List.foldl_append]
  rfl

/-- The first block of a request. -/
def startOf (request : HeadersRequest) : ℕ := request.startBlock.toNat

/-- The number of blocks of a request. -/
def limitOf (request : HeadersRequest) : ℕ := request.limit.toNat

/-- What holds of the log of a download at every moment. -/
structure Books (b : SyncHeaderBuilder) (log : List Entry) : Prop where
  /-- The requests follow each other from the block above the local head, and none passes the target. -/
  ranges : ∃ head ≤ max b.localHeadBlock.toNat b.targetHead.toNat,
    Span startOf limitOf (b.localHeadBlock.toNat + 1) (account log).issued (head + 1)
  limits : ∀ request ∈ (account log).issued, limitOf request ≤ b.requestLimit.toNat
  /-- The window was never exceeded. -/
  window : ∀ log', log' <+: log → (account log').inFlight.length ≤ b.maxConcurrentLimit

/-- What holds of the log of a download that has resolved to `headers`. -/
structure Closed (b : SyncHeaderBuilder) (log : List Entry) (headers : List Header) : Prop where
  /-- The requests are those for the blocks above the local head up to the target. -/
  covers : Span startOf limitOf (b.localHeadBlock.toNat + 1) (account log).issued
    (max b.localHeadBlock.toNat b.targetHead.toNat + 1)
  /-- Each was answered once. -/
  once : (account log).issued.Perm ((account log).answered.map Prod.fst)
  /-- Every answer was a success with some headers, and the output is made of all of them. -/
  output : ∃ answers : List (HeadersRequest × List Header),
    (account log).answered = answers.map (fun x => (x.1, .ok x.2)) ∧ (∀ x ∈ answers, x.2 ≠ []) ∧
      headers = answers.flatMap Prod.snd

/-- A failed or an empty answer. -/
def Bad (response : RequestResponse HeadersResponse) : Prop := (∃ e, response = .error e) ∨ response = .ok []

/-! ## What a download keeps -/

theorem Books.answer {log : List Entry} (h : Books b log) (i : ℕ) (response : RequestResponse HeadersResponse) :
    Books b (log ++ [.answer i response]) := by
  obtain ⟨hranges, hlimits, hwindow⟩ := h
  have hacc := account_append_singleton log (.answer i response)
  refine ⟨by rw [hacc]; exact hranges, by rw [hacc]; exact hlimits, ?_⟩
  intro log' hpre
  rcases List.prefix_concat_iff.mp hpre with rfl | hpre
  · rw [hacc]
    exact (List.eraseIdx_sublist _ _).length_le.trans (hwindow log (List.prefix_refl _))
  · exact hwindow log' hpre

/-- The books of a download that was built by `b` and is still at work. -/
structure Kept (b : SyncHeaderBuilder) (s : SyncHeader φ) (w : ω × List Entry) : Prop where
  window : s.maxConcurrentLimit = b.maxConcurrentLimit
  limit : s.requestLimit = b.requestLimit
  target : s.targetHead = b.targetHead
  books : Books b w.2
  span : Span startOf limitOf (b.localHeadBlock.toNat + 1) (account w.2).issued (s.localHeadBlock.toNat + 1)
  below : s.localHeadBlock.toNat ≤ max b.localHeadBlock.toNat b.targetHead.toNat
  queue : (account w.2).inFlight.length = s.inProgressQueue.length
  perm : (account w.2).issued.Perm ((account w.2).answered.map Prod.fst ++ (account w.2).inFlight)
  answers : ∃ answers : List (HeadersRequest × List Header),
    (account w.2).answered = answers.map (fun x => (x.1, .ok x.2)) ∧ (∀ x ∈ answers, x.2 ≠ []) ∧
      s.queuedHeaders = answers.flatMap Prod.snd
  clean : ∀ i response, Entry.answer i response ∈ w.2 → ¬ Bad response

/-- An answer with some headers is taken. -/
theorem Kept.ready {w w' : ω × List Entry} (h : Kept b s w) (i : Fin s.inProgressQueue.length) {headers : List Header}
    (hne : headers ≠ []) (hw : w'.2 = w.2 ++ [.answer i (.ok headers)]) :
    Kept b { s with inProgressQueue := s.inProgressQueue.eraseIdx i,
                    queuedHeaders := s.queuedHeaders ++ headers } w' := by
  have hacc := account_append_singleton w.2 (.answer i (.ok headers))
  rw [← hw] at hacc
  have hi : i.1 < (account w.2).inFlight.length := by
    rw [h.queue]
    exact i.isLt
  obtain ⟨answers, hanswers, hsome, hqueued⟩ := h.answers
  refine ⟨h.window, h.limit, h.target, by rw [hw]; exact h.books.answer i _, by rw [hacc]; exact h.span, h.below,
    ?_, ?_, ⟨answers ++ [((account w.2).inFlight.get ⟨i, hi⟩, headers)], ?_, ?_, ?_⟩, ?_⟩
  · rw [hacc]
    show ((account w.2).inFlight.eraseIdx i).length = (s.inProgressQueue.eraseIdx i).length
    rw [List.length_eraseIdx_of_lt hi, List.length_eraseIdx_of_lt i.isLt, h.queue]
  · rw [hacc]
    show (account w.2).issued.Perm (((account w.2).answered ++ _).map Prod.fst ++ (account w.2).inFlight.eraseIdx i)
    rw [List.getElem?_eq_getElem hi]
    refine h.perm.trans ?_
    simp only [Option.toList_some, List.map_cons, List.map_nil, List.map_append, List.append_assoc]
    exact (List.Perm.refl _).append (List.getElem_cons_eraseIdx_perm hi).symm
  · rw [hacc]
    show (account w.2).answered ++ _ = _
    rw [hanswers, List.getElem?_eq_getElem hi]
    simp
  · intro x hx
    rcases List.mem_append.mp hx with hx | hx
    · exact hsome x hx
    · rw [List.mem_singleton.mp hx]
      exact hne
  · simp [hqueued]
  · rw [hw]
    intro j response hj
    rcases List.mem_append.mp hj with hj | hj
    · exact h.clean j response hj
    · cases List.mem_singleton.mp hj
      simp [Bad, hne]

/-- The next request is issued. -/
theorem Kept.request {w w' : ω × List Entry} (h : Kept b s w) (hl : 1 ≤ b.requestLimit)
    (hroom : s.inProgressQueue.length < s.maxConcurrentLimit) (hlt : s.localHeadBlock < s.targetHead) (fut : φ)
    (hw : w'.2 = w.2 ++ [.issue s.nextRequest]) : Kept b (s.issued fut) w' := by
  have hacc := account_append_singleton w.2 (.issue s.nextRequest)
  rw [← hw] at hacc
  obtain ⟨hstart, hpos, hlim, hhead⟩ := nextRequest_spec hlt (by rw [h.limit]; exact hl)
  rw [h.target, h.limit] at hlim
  have hspan : Span startOf limitOf (b.localHeadBlock.toNat + 1) (account w'.2).issued
      ((s.localHeadBlock + s.nextRequest.limit).toNat + 1) := by
    rw [hacc, hhead]
    show Span _ _ _ ((account w.2).issued ++ [s.nextRequest]) (s.localHeadBlock.toNat + _ + 1)
    rw [show s.localHeadBlock.toNat + s.nextRequest.limit.toNat + 1 =
      s.localHeadBlock.toNat + 1 + limitOf s.nextRequest by unfold limitOf; omega]
    exact h.span.append_singleton hstart hpos
  have hbelow : (s.localHeadBlock + s.nextRequest.limit).toNat ≤ max b.localHeadBlock.toNat b.targetHead.toNat := by
    omega
  have hbooks : Books b w'.2 := by
    refine ⟨⟨_, hbelow, hspan⟩, ?_, ?_⟩
    · rw [hacc]
      intro request hrequest
      rcases List.mem_append.mp hrequest with hrequest | hrequest
      · exact h.books.limits request hrequest
      · rw [List.mem_singleton.mp hrequest]
        exact hlim.trans_le (min_le_right _ _)
    · rw [hw]
      intro log' hpre
      rcases List.prefix_concat_iff.mp hpre with rfl | hpre
      · rw [← hw, hacc]
        show ((account w.2).inFlight ++ [_]).length ≤ _
        rw [List.length_append, h.queue, List.length_singleton, ← h.window]
        exact hroom
      · exact h.books.window log' hpre
  refine ⟨h.window, h.limit, h.target, hbooks, hspan, hbelow, ?_, ?_, by rw [hacc]; exact h.answers, ?_⟩
  · rw [hacc]
    show ((account w.2).inFlight ++ [_]).length = (s.inProgressQueue ++ [fut]).length
    rw [List.length_append, List.length_append, h.queue]
    rfl
  · rw [hacc]
    show ((account w.2).issued ++ [s.nextRequest]).Perm (_ ++ ((account w.2).inFlight ++ [s.nextRequest]))
    rw [← List.append_assoc]
    exact h.perm.append_right _
  · rw [hw]
    intro i response hi
    rcases List.mem_append.mp hi with hi | hi
    · exact h.clean i response hi
    · cases List.mem_singleton.mp hi

/-- What the log adds to an answer of the queue. -/
theorem logged_pollNext_some {queue : List φ} {w w' : ω × List Entry} {i : Fin queue.length}
    {response : RequestResponse HeadersResponse} (h : env.logged.pollNext queue w = (some (i, response), w')) :
    w'.2 = w.2 ++ [.answer i response] := by
  unfold Env.logged at h
  rcases hq : env.pollNext queue w.1 with ⟨_ | ⟨j, response⟩, w₁⟩
  · simp only [hq] at h
    cases h
  · simp only [hq] at h
    cases h
    rfl

theorem logged_pollNext_none {queue : List φ} {w w' : ω × List Entry}
    (h : env.logged.pollNext queue w = (none, w')) : w'.2 = w.2 := by
  unfold Env.logged at h
  rcases hq : env.pollNext queue w.1 with ⟨_ | ⟨i, response⟩, w₁⟩
  · simp only [hq] at h
    cases h
    rfl
  · simp only [hq] at h
    cases h

/-- **A download keeps its accounts**, whoever answers. -/
theorem keeps_kept (env : Env ω φ) (hl : 1 ≤ b.requestLimit) : Keeps env.logged (Kept b) where
  wait s w w' hJ hp := by
    have hw := logged_pollNext_none hp
    obtain ⟨h1, h2, h3, h4, h5, h6, h7, h8, h9, h10⟩ := hJ
    rw [← hw] at h4 h5 h7 h8 h9 h10
    exact ⟨h1, h2, h3, h4, h5, h6, h7, h8, h9, h10⟩
  ready s w w' s' i response hJ hp hr := by
    obtain ⟨headers, rfl, hne, rfl⟩ := onReady_eq_ok hr
    exact hJ.ready i hne (logged_pollNext_some hp)
  request s w w' fut hJ hroom hlt hg := by
    cases hg
    exact hJ.request hl hroom hlt _ rfl

theorem kept_build (hs : b.build = some s) (w : ω) : Kept b s (w, []) := by
  unfold SyncHeaderBuilder.build at hs
  obtain ⟨peerId, -, rfl⟩ := Option.map_eq_some_iff.mp hs
  refine ⟨rfl, rfl, rfl, ⟨⟨_, le_max_left _ _, rfl⟩, ?_, ?_⟩, rfl, le_max_left _ _, rfl, .refl _, ⟨[], rfl, ?_, rfl⟩, ?_⟩
  · intro request hrequest
    cases hrequest
  · intro log' hpre
    rw [List.prefix_nil.mp hpre]
    exact Nat.zero_le _
  · intro x hx
    cases hx
  · intro i response hi
    cases hi

/-- **The accounts of a download.**  In every run, whoever answers and in whatever order: the requests are
consecutive ranges of at most `request_limit` blocks from the block above the local head, none passes the target, and
the window is never exceeded.  If the download succeeds, they cover all blocks up to the target, each was answered
once, with some headers, and the output is made of all the answers.  If it takes a failed or an empty answer, it
resolves with an error. -/
theorem batch_accounting (hlimit : 1 ≤ b.requestLimit) (hmax : 1 ≤ b.maxConcurrentLimit) (hs : b.build = some s)
    {polled : Polled φ} (h : Comes env s w polled w') :
    (∃ log, Comes env.logged s (w, []) polled (w', log)) ∧
      ∀ log, Comes env.logged s (w, []) polled (w', log) →
        Books b log ∧ (∀ headers, polled = .ready (.ok headers) → Closed b log headers) ∧
          ∀ i response, .answer i response ∈ log → Bad response → ∃ e, polled = .ready (.error e) := by
  refine ⟨h.logged [], ?_⟩
  intro log hlog
  have hend := (keeps_kept env hlimit).comes (kept_build hs w) hlog
  rcases polled with (e | headers) | s'
  · obtain ⟨s₁, w₁, i, response, hJ, hp, -⟩ := hend
    have hw := logged_pollNext_some hp
    change log = _ at hw
    refine ⟨?_, fun headers hc => (by cases hc), fun _ _ _ _ => ⟨e, rfl⟩⟩
    rw [hw]
    exact hJ.books.answer i response
  · obtain ⟨s₁, hJ, hidle, hempty, rfl⟩ := hend
    refine ⟨hJ.books, ?_, fun i response hi hbad => absurd hbad (hJ.clean i response hi)⟩
    rintro _ ⟨⟩
    have hnone : (account log).inFlight = [] := by
      have hqueue := hJ.queue
      rw [hempty] at hqueue
      exact List.length_eq_zero_iff.mp hqueue
    have hhead : s₁.localHeadBlock.toNat = max b.localHeadBlock.toNat b.targetHead.toNat := by
      have hle := hJ.span.le
      have hbelow := hJ.below
      rcases hidle with hfull | hdone
      · rw [hJ.window, hempty, List.length_nil] at hfull
        omega
      · rw [hJ.target, UInt64.le_iff_toNat_le] at hdone
        omega
    refine ⟨?_, ?_, hJ.answers⟩
    · rw [← hhead]
      exact hJ.span
    · have hperm := hJ.perm
      rw [hnone, List.append_nil] at hperm
      exact hperm
  · refine ⟨hend.books, fun headers hc => (by cases hc), ?_⟩
    exact fun i response hi hbad => absurd hbad (hend.clean i response hi)

/-- The accounts of two batches of which the second is answered first. -/
theorem two_batches_closed :
    Closed twoBatches [.issue ⟨1, 1⟩, .issue ⟨1, 2⟩, .answer 1 (.ok (mockHeaders ⟨1, 2⟩)),
      .answer 0 (.ok (mockHeaders ⟨1, 1⟩))] (mockHeaders ⟨1, 2⟩ ++ mockHeaders ⟨1, 1⟩) := by
  have h : Comes scripted twoBatchesStart [1, 0] (.ready (.ok (mockHeaders ⟨1, 2⟩ ++ mockHeaders ⟨1, 1⟩))) [] :=
    .poll 2 rfl
  have haccounts := (batch_accounting (b := twoBatches) (by decide) (by decide) rfl h).2 _ (.poll 2 rfl)
  exact haccounts.2.1 _ rfl

end Simb.Tasks
