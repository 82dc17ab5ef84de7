import Simb.Interface

/-!
# Downloading headers from a peer (`tasks/sync_header.rs`)

A `SyncHeader` asks one peer for the headers above its local head, in batches, with a window of requests in
flight.  It is a future: `poll` runs its nested loops until nothing more can be done at once.

What `poll` meets outside is an `Env`: what `get_headers` of the provider returns, and what the
`FuturesUnordered` of the requests in flight yields.  A `FuturesUnordered` may yield any of its futures that
is ready, so an `Env` may answer with any of them, and the state of the world it answers from is arbitrary.
The outer loop of `poll` is not bounded by the state, so it runs on fuel; the inner loops are bounded by the
window.
-/

namespace Simb.Tasks

/-- Errors of a header download. -/
inductive SyncHeaderError where
  | headerInvalid
  | emptyResponse
  | requestError (e : RequestError)
  deriving DecidableEq

abbrev SyncHeaderOutput := Except SyncHeaderError (List Header)

/-- A header download, with futures of type `φ` in flight, in the order in which they were issued. -/
structure SyncHeader (φ : Type) where
  inProgressQueue : List φ
  queuedHeaders : List Header
  maxConcurrentLimit : ℕ
  localHeadBlock : UInt64
  requestLimit : UInt64
  targetHead : UInt64
  peerId : PeerId

/-- The builder, with the defaults of the source. -/
structure SyncHeaderBuilder where
  peerId : Option PeerId := none
  localHeadBlock : UInt64 := 0
  targetHead : UInt64 := 0
  requestLimit : UInt64 := 1000
  maxConcurrentLimit : ℕ := 10

/-- The provider and the `FuturesUnordered` of a download, in a world of type `ω`. -/
structure Env (ω φ : Type) where
  /-- `get_headers`: the future of a new request. -/
  getHeaders : PeerId → HeadersRequest → ω → φ × ω
  /-- `poll_next`: one of the futures that is ready, with its output, or nothing yet. -/
  pollNext : (queue : List φ) → ω → Option (Fin queue.length × RequestResponse HeadersResponse) × ω

/-- What a poll comes to. -/
inductive Polled (φ : Type) where
  | ready (output : SyncHeaderOutput)
  | pending (s : SyncHeader φ)

variable {ω φ : Type}

/-- A peer is required. -/
def SyncHeaderBuilder.build (b : SyncHeaderBuilder) : Option (SyncHeader φ) :=
  b.peerId.map fun peerId =>
    { inProgressQueue := [], queuedHeaders := [], maxConcurrentLimit := b.maxConcurrentLimit,
      localHeadBlock := b.localHeadBlock, requestLimit := b.requestLimit, targetHead := b.targetHead, peerId }

namespace SyncHeader

def onHeaderResponse (s : SyncHeader φ) (headers : HeadersResponse) : Except SyncHeaderError (SyncHeader φ) :=
  if headers = [] then .error .emptyResponse
  -- the number of headers, their validity and their order are not checked
  else .ok { s with queuedHeaders := s.queuedHeaders ++ headers }

/-- Future `i` has left the queue with `response`. -/
def onReady (s : SyncHeader φ) (i : ℕ) (response : RequestResponse HeadersResponse) :
    Except SyncHeaderError (SyncHeader φ) :=
  match response with
  | .ok headers => onHeaderResponse { s with inProgressQueue := s.inProgressQueue.eraseIdx i } headers
  | .error e => .error (.requestError e)

/-- The request for the next batch. -/
def nextRequest (s : SyncHeader φ) : HeadersRequest where
  startBlock := s.localHeadBlock + 1
  limit := min (s.targetHead - s.localHeadBlock) s.requestLimit

/-- The request `nextRequest` is in flight as `fut`. -/
def issued (s : SyncHeader φ) (fut : φ) : SyncHeader φ :=
  { s with localHeadBlock := s.localHeadBlock + s.nextRequest.limit,
           inProgressQueue := s.inProgressQueue ++ [fut] }

/-- No request can be issued: the window is full, or all blocks are requested. -/
def Idle (s : SyncHeader φ) : Prop :=
  s.maxConcurrentLimit ≤ s.inProgressQueue.length ∨ s.targetHead ≤ s.localHeadBlock

instance (s : SyncHeader φ) : Decidable s.Idle := inferInstanceAs (Decidable (_ ∨ _))

variable (env : Env ω φ)

/-- The loop over what the queue yields.  `n` is the length of the queue, and an empty queue yields nothing. -/
def drain : (n : ℕ) → SyncHeader φ → ω → Except SyncHeaderError (SyncHeader φ) × ω
  | 0, s, w => (.ok s, w)
  | n + 1, s, w =>
    match env.pollNext s.inProgressQueue w with
    | (none, w) => (.ok s, w)
    | (some (i, response), w) =>
      match s.onReady i response with
      | .ok s => drain n s w
      | .error e => (.error e, w)

/-- The loop that fills the window, `room` requests at most, and whether it made progress. -/
def fill : (room : ℕ) → SyncHeader φ → ω → SyncHeader φ × ω × Bool
  | 0, s, w => (s, w, false)
  | room + 1, s, w =>
    if s.localHeadBlock < s.targetHead then
      let (fut, w) := env.getHeaders s.peerId s.nextRequest w
      let (s, w, _) := fill room (s.issued fut) w
      (s, w, true)
    else (s, w, false)

/-- The outer loop. -/
def loop : (fuel : ℕ) → SyncHeader φ → ω → Option (Except SyncHeaderError (SyncHeader φ) × ω)
  | 0, _, _ => none
  | fuel + 1, s, w =>
    match drain env s.inProgressQueue.length s w with
    | (.error e, w) => some (.error e, w)
    | (.ok s, w) =>
      match fill env (s.maxConcurrentLimit - s.inProgressQueue.length) s w with
      | (s, w, true) => loop fuel s w
      | (s, w, false) => some (.ok s, w)

def poll (fuel : ℕ) (s : SyncHeader φ) (w : ω) : Option (Polled φ × ω) :=
  match loop env fuel s w with
  | none => none
  | some (.error e, w) => some (.ready (.error e), w)
  | some (.ok s, w) => some (if s.inProgressQueue.isEmpty then .ready (.ok s.queuedHeaders) else .pending s, w)

end SyncHeader

/-- Polled again and again from `s` in the world `w`, a download resolves to `output` in the world `w'`. -/
inductive Resolves (env : Env ω φ) : SyncHeader φ → ω → SyncHeaderOutput → ω → Prop
  | ready (fuel : ℕ) {s : SyncHeader φ} {w w' : ω} {output : SyncHeaderOutput} :
      s.poll env fuel w = some (.ready output, w') → Resolves env s w output w'
  | pending (fuel : ℕ) {s s' : SyncHeader φ} {w w' w'' : ω} {output : SyncHeaderOutput} :
      s.poll env fuel w = some (.pending s', w') → Resolves env s' w' output w'' → Resolves env s w output w''

/-- After some polls of a download, the last one comes to `polled` in the world `w'`. -/
inductive Comes (env : Env ω φ) : SyncHeader φ → ω → Polled φ → ω → Prop
  | poll (fuel : ℕ) {s : SyncHeader φ} {w w' : ω} {polled : Polled φ} :
      s.poll env fuel w = some (polled, w') → Comes env s w polled w'
  | again (fuel : ℕ) {s s' : SyncHeader φ} {w w' w'' : ω} {polled : Polled φ} :
      s.poll env fuel w = some (.pending s', w') → Comes env s' w' polled w'' → Comes env s w polled w''

end Simb.Tasks
