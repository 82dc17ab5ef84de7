import Simb.Lib.Span
import Simb.Tasks.SyncSpec

/-!
# The order of downloaded headers

A download keeps the books of its batches (`Batches`): the requests issued cover the blocks above the local
head one after the other, each is in flight or completed, and the headers are queued in the order in which
the requests completed.  So if the peer answers each request with the headers it asks for, the output is in order
exactly if the requests complete in the order in which they were issued (`output_in_order_iff`).
-/

namespace Simb.Tasks

open Simb.Lib

variable {ω φ : Type} {env : Env ω φ} {s s' : SyncHeader φ} {w w' : ω}

/-! ## The batches of a download -/

/-- A history of a download: the futures in the order in which they were issued, and in which they completed. -/
structure History (φ : Type) where
  issued : List φ
  completed : List φ

/-- The same environment, with the history of the download. -/
def Env.recorded (env : Env ω φ) : Env (ω × History φ) φ where
  getHeaders peerId request w :=
    let (fut, w₁) := env.getHeaders peerId request w.1
    (fut, w₁, { w.2 with issued := w.2.issued ++ [fut] })
  pollNext queue w :=
    match env.pollNext queue w.1 with
    | (none, w₁) => (none, w₁, w.2)
    | (some (i, response), w₁) =>
      (some (i, response), w₁, { w.2 with completed := w.2.completed ++ [queue.get i] })

/-- Every future answers the request it was made for, with the headers of the numbers asked for, in order. -/
structure Honest (env : Env ω φ) (requestOf : φ → HeadersRequest) : Prop where
  future : ∀ peerId request w, requestOf (env.getHeaders peerId request w).1 = request
  answer : ∀ queue w i response w', env.pollNext queue w = (some (i, response), w') →
    ∃ headers, response = .ok headers ∧ headers.map (fun b => b.number.toNat) =
      List.range' (requestOf (queue.get i)).startBlock.toNat (requestOf (queue.get i)).limit.toNat

variable {requestOf : φ → HeadersRequest} {b : SyncHeaderBuilder}

/-- The first block of a batch. -/
def first (requestOf : φ → HeadersRequest) (fut : φ) : ℕ := (requestOf fut).startBlock.toNat

/-- The number of blocks of a batch. -/
def size (requestOf : φ → HeadersRequest) (fut : φ) : ℕ := (requestOf fut).limit.toNat

/-- The bookkeeping of a download that was built by `b`. -/
structure Batches (requestOf : φ → HeadersRequest) (b : SyncHeaderBuilder) (s : SyncHeader φ) (w : ω × History φ) :
    Prop where
  window : s.maxConcurrentLimit = b.maxConcurrentLimit
  limit : s.requestLimit = b.requestLimit
  target : s.targetHead = b.targetHead
  span : Span (first requestOf) (size requestOf) (b.localHeadBlock.toNat + 1) w.2.issued (s.localHeadBlock.toNat + 1)
  below : s.localHeadBlock.toNat ≤ max b.localHeadBlock.toNat b.targetHead.toNat
  perm : w.2.issued.Perm (w.2.completed ++ s.inProgressQueue)
  queued : s.queuedHeaders.map (fun b => b.number.toNat) =
    numbers (first requestOf) (size requestOf) w.2.completed

/-- What the recorded environment adds to an answer of the queue. -/
theorem recorded_pollNext_some {queue : List φ} {w w' : ω × History φ} {i : Fin queue.length}
    {response : RequestResponse HeadersResponse} (h : env.recorded.pollNext queue w = (some (i, response), w')) :
    env.pollNext queue w.1 = (some (i, response), w'.1) ∧
      w'.2 = { w.2 with completed := w.2.completed ++ [queue.get i] } := by
  unfold Env.recorded at h
  rcases hq : env.pollNext queue w.1 with ⟨_ | ⟨j, response⟩, w₁⟩
  · simp only [hq] at h
    cases h
  · simp only [hq] at h
    cases h
    exact ⟨rfl, rfl⟩

theorem recorded_pollNext_none {queue : List φ} {w w' : ω × History φ}
    (h : env.recorded.pollNext queue w = (none, w')) : w'.2 = w.2 := by
  unfold Env.recorded at h
  rcases hq : env.pollNext queue w.1 with ⟨_ | ⟨i, response⟩, w₁⟩
  · simp only [hq] at h
    cases h
    rfl
  · simp only [hq] at h
    cases h

/-- A batch completes. -/
theorem Batches.ready {w w' : ω × History φ} (h : Batches requestOf b s w) (i : Fin s.inProgressQueue.length)
    {headers : List Header} (hw : w'.2 = { w.2 with completed := w.2.completed ++ [s.inProgressQueue.get i] })
    (hnum : headers.map (fun b => b.number.toNat) = List.range' (first requestOf (s.inProgressQueue.get i))
      (size requestOf (s.inProgressQueue.get i))) :
    Batches requestOf b { s with inProgressQueue := s.inProgressQueue.eraseIdx i,
                                 queuedHeaders := s.queuedHeaders ++ headers } w' := by
  obtain ⟨h1, h2, h3, h4, h5, h6, h7⟩ := h
  refine ⟨h1, h2, h3, by rw [hw]; exact h4, h5, ?_, ?_⟩
  · rw [hw]
    refine h6.trans ?_
    rw [List.append_assoc]
    exact (List.Perm.refl _).append (List.getElem_cons_eraseIdx_perm i.isLt).symm
  · rw [hw]
    show (s.queuedHeaders ++ headers).map _ = numbers _ _ (w.2.completed ++ [s.inProgressQueue.get i])
    rw [List.map_append, h7, hnum]
    unfold numbers
    rw [List.flatMap_append, List.flatMap_singleton]

/-- The next batch is issued. -/
theorem Batches.request {w w' : ω × History φ} (h : Batches requestOf b s w) (hl : 1 ≤ b.requestLimit)
    (hlt : s.localHeadBlock < s.targetHead) {fut : φ} (hfut : requestOf fut = s.nextRequest)
    (hw : w'.2 = { w.2 with issued := w.2.issued ++ [fut] }) : Batches requestOf b (s.issued fut) w' := by
  obtain ⟨h1, h2, h3, h4, h5, h6, h7⟩ := h
  obtain ⟨hstart, hpos, hlim, hhead⟩ := nextRequest_spec hlt (by rw [h2]; exact hl)
  have hfirst : first requestOf fut = s.localHeadBlock.toNat + 1 := by rw [first, hfut, hstart]
  have hsize : size requestOf fut = s.nextRequest.limit.toNat := by rw [size, hfut]
  rw [h3] at hlim
  refine ⟨h1, h2, h3, ?_, ?_, ?_, by rw [hw]; exact h7⟩
  · rw [hw]
    show Span _ _ _ (w.2.issued ++ [fut]) ((s.localHeadBlock + s.nextRequest.limit).toNat + 1)
    rw [hhead, show s.localHeadBlock.toNat + s.nextRequest.limit.toNat + 1 =
      s.localHeadBlock.toNat + 1 + size requestOf fut by omega]
    exact h4.append_singleton hfirst (by omega)
  · show (s.localHeadBlock + s.nextRequest.limit).toNat ≤ _
    omega
  · rw [hw]
    show (w.2.issued ++ [fut]).Perm (w.2.completed ++ (s.inProgressQueue ++ [fut]))
    rw [← List.append_assoc]
    exact h6.append_right [fut]

/-- **A download keeps its books.** -/
theorem keeps_batches (hh : Honest env requestOf) (hl : 1 ≤ b.requestLimit) :
    Keeps env.recorded (Batches requestOf b) where
  wait s w w' hJ hp := by
    have hw := recorded_pollNext_none hp
    obtain ⟨h1, h2, h3, h4, h5, h6, h7⟩ := hJ
    rw [← hw] at h4 h6 h7
    exact ⟨h1, h2, h3, h4, h5, h6, h7⟩
  ready s w w' s' i response hJ hp hr := by
    obtain ⟨headers, rfl, -, rfl⟩ := onReady_eq_ok hr
    obtain ⟨hq, hw⟩ := recorded_pollNext_some hp
    obtain ⟨headers', heq, hnum⟩ := hh.answer _ _ _ _ _ hq
    cases heq
    exact hJ.ready i hw hnum
  request s w w' fut hJ _ hlt hg := by
    have hfut := hh.future s.peerId s.nextRequest w.1
    cases hg
    exact hJ.request hl hlt hfut rfl

theorem batches_build (hs : b.build = some s) (w : ω) : Batches requestOf b s (w, ⟨[], []⟩) := by
  unfold SyncHeaderBuilder.build at hs
  obtain ⟨peerId, -, rfl⟩ := Option.map_eq_some_iff.mp hs
  exact ⟨rfl, rfl, rfl, rfl, le_max_left _ _, .refl _, rfl⟩

/-- **When downloaded headers are in order.**  A download whose peer answers every request with the headers asked
for, and that resolves, gives the headers above its local head up to its target in ascending order exactly
if the requests completed in the order in which they were issued. -/
theorem output_in_order_iff (hh : Honest env requestOf) (hlimit : 1 ≤ b.requestLimit)
    (hmax : 1 ≤ b.maxConcurrentLimit) (hs : b.build = some s) {headers : List Header} {history : History φ}
    (h : Resolves env.recorded s (w, ⟨[], []⟩) (.ok headers) (w', history)) :
    headers.map (fun b => b.number.toNat) =
        List.range' (b.localHeadBlock.toNat + 1) (b.targetHead.toNat - b.localHeadBlock.toNat) ↔
      history.completed = history.issued := by
  obtain ⟨s', hJ, hidle, hempty, rfl⟩ := (keeps_batches hh hlimit).resolves (batches_build hs w) h
  have hperm : history.issued.Perm history.completed := by
    have := hJ.perm
    rwa [hempty, List.append_nil] at this
  have hspan := hJ.span
  have hle := hspan.le
  have hbelow := hJ.below
  have htarget : b.targetHead.toNat ≤ s'.localHeadBlock.toNat := by
    rcases hidle with hfull | hdone
    · rw [hJ.window, hempty] at hfull
      simp only [List.length_nil] at hfull
      omega
    · rw [hJ.target, UInt64.le_iff_toNat_le] at hdone
      exact hdone
  rw [hJ.queued, ← hspan.numbers_eq_iff hperm]
  rw [show s'.localHeadBlock.toNat + 1 - (b.localHeadBlock.toNat + 1) =
    b.targetHead.toNat - b.localHeadBlock.toNat by omega]

/-! ### Two batches in flight -/

/-- The headers asked for, with nothing but their numbers. -/
def mockHeaders (request : HeadersRequest) : HeadersResponse :=
  (List.range' request.startBlock.toNat request.limit.toNat).map fun n =>
    ⟨UInt64.ofNat n, .empty, .empty, 0, 0, .empty⟩

/-- A peer that answers honestly what has an answer, in the order of a script: each number of it is the place in
the queue of the next future to complete. -/
def scripted : Env (List ℕ) HeadersRequest where
  getHeaders _ request script := (request, script)
  pollNext queue script :=
    match script with
    | [] => (none, [])
    | i :: script =>
      if h : i < queue.length then
        let request := queue.get ⟨i, h⟩
        if request.startBlock.toNat + request.limit.toNat ≤ 2 ^ 64 then
          (some (⟨i, h⟩, .ok (mockHeaders request)), script)
        else (none, script)
      else (none, script)

theorem numbers_mockHeaders {request : HeadersRequest}
    (h : request.startBlock.toNat + request.limit.toNat ≤ 2 ^ 64) :
    (mockHeaders request).map (fun b => b.number.toNat) =
      List.range' request.startBlock.toNat request.limit.toNat := by
  unfold mockHeaders
  rw [List.map_map]
  refine (List.map_congr_left fun n hn => ?_).trans (List.map_id _)
  have hlt : n < 2 ^ 64 := Nat.lt_of_lt_of_le (List.mem_range'_1.mp hn).2 h
  exact UInt64.toNat_ofNat_of_lt' hlt

theorem honest_scripted : Honest scripted id where
  future _ _ _ := rfl
  answer queue script i response script' hp := by
    unfold scripted at hp
    cases script with
    | nil => cases hp
    | cons j script =>
      simp only at hp
      split at hp
      · split at hp
        · rename_i hle
          cases hp
          exact ⟨_, rfl, numbers_mockHeaders hle⟩
        · cases hp
      · cases hp

/-- Blocks `1` and `2`, one in each batch, two batches in flight. -/
def twoBatches : SyncHeaderBuilder where
  peerId := some ⟨[]⟩
  targetHead := 2
  requestLimit := 1
  maxConcurrentLimit := 2

/-- The download of `twoBatches` before the first poll. -/
def twoBatchesStart : SyncHeader HeadersRequest := ⟨[], [], 2, 0, 1, 2, ⟨[]⟩⟩

/-- The first batch completes first. -/
theorem two_batches_in_order :
    (mockHeaders ⟨1, 1⟩ ++ mockHeaders ⟨1, 2⟩).map (fun b => b.number.toNat) = List.range' (0 + 1) (2 - 0) := by
  have h : Resolves scripted.recorded twoBatchesStart ([0, 0], ⟨[], []⟩)
      (.ok (mockHeaders ⟨1, 1⟩ ++ mockHeaders ⟨1, 2⟩)) ([], ⟨[⟨1, 1⟩, ⟨1, 2⟩], [⟨1, 1⟩, ⟨1, 2⟩]⟩) :=
    .ready 2 rfl
  exact (output_in_order_iff (b := twoBatches) honest_scripted (by decide) (by decide) rfl h).2 rfl

/-- The second batch completes first: the download resolves, and gives block `2` before block `1`. -/
theorem two_batches_out_of_order :
    Resolves scripted.recorded twoBatchesStart ([1, 0], ⟨[], []⟩)
        (.ok (mockHeaders ⟨1, 2⟩ ++ mockHeaders ⟨1, 1⟩)) ([], ⟨[⟨1, 1⟩, ⟨1, 2⟩], [⟨1, 2⟩, ⟨1, 1⟩]⟩) ∧
      (mockHeaders ⟨1, 2⟩ ++ mockHeaders ⟨1, 1⟩).map (fun b => b.number.toNat) ≠ List.range' (0 + 1) (2 - 0) :=
  ⟨.ready 2 rfl, by decide⟩

end Simb.Tasks
