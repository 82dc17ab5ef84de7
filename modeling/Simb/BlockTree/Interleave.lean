import Simb.BlockTree.Mining
import Simb.BlockTree.Race
import Simb.Lib.Rely

/-!
# All calls at once, and crashes

The clones of a chain are used by all tasks of a node: the miner, the chain side of the network and the RPC server call its
methods at the same time, and the node may crash at any point and be started again on its database.  Each transaction of
each method keeps the ledger and its genesis block, and loses no number (`accord`).  So the store stays contiguous in every
interleaving, and every answer is sound, whenever it is given (`interleaved_contiguous`).
-/

namespace Simb.BlockTree

open Simb.Lib

/-! ## Calls and their answers -/

/-- A call of a method of the chain. -/
inductive Method where
  | add (header : Header)
  | mine (draws : Chain.Draws)
  | byNumber (n : UInt64)
  | byHash (hash : String)
  | tip

/-- What a call returns. -/
inductive Answer where
  | added (r : AddedBlockResult)
  | mined (r : MineBlockResult)
  | header (header : Header)

/-- The program of a call. -/
def Method.body (P : Platform) : Method → Prog Db (Except Fail Answer)
  | .add header => ExceptT.run do return .added (← Chain.tryAddBlockHeader P header)
  | .mine draws => ExceptT.run do return .mined (← Chain.mineBlock P draws)
  | .byNumber n => ExceptT.run do return .header (← Chain.getHeaderByBlockNumber P n)
  | .byHash hash => ExceptT.run do return .header (← Chain.getHeaderByHash P hash)
  | .tip => ExceptT.run do return .header (← Chain.tip P)

/-- There is a header under the number. -/
def Db.Has (db : Db) (n : UInt64) : Prop := db.header[n]?.isSome

/-- What an answer says of the store: what was added or mined has its place, and a header that was read too.  Adding panics for
number `0` at most, a read fails only if there is no such header, and the tip is always there. -/
def Method.Sound (db : Db) : Method → Except Fail Answer → Prop
  | .add header, r => (∀ a, r = .ok a → db.Has header.number) ∧ ∀ q, r = .error (.panic q) → header.number = 0
  | .mine _, r => ∀ header, r = .ok (.mined (.mined header)) → db.Has header.number
  | .byNumber n, r => r = .error (.error .blockHeaderNotFound) ∨ ∃ b, r = .ok (.header b) ∧ b.number = n ∧ db.Has n
  | .byHash _, r => r = .error (.error .blockHeaderNotFound) ∨ ∃ b, r = .ok (.header b) ∧ db.Has b.number
  | .tip, r => ∃ t, r = .ok (.header t) ∧ db.Has t.number

/-! ## The accord -/

/-- All methods keep the ledger with its genesis block, and lose no number, as long as the tip is below the last number. -/
def accord (P : Platform) : Accord Db where
  inv db := ∃ L, db.Stores P L ∧ L[0]? = some (Chain.genesis P)
  guard := Below P
  grows db db' := ∀ n, db.Has n → db'.Has n
  refl _ _ h := h
  trans h h' n hn := h' n (h n hn)

variable {P : Platform} {db : Db} {L : List Header} {header : Header} {α : Type} {Q : Db → Except Fail α → Prop}

theorem has_iff (h : db.Stores P L) {n : UInt64} : db.Has n ↔ n.toNat < L.length := by
  rw [Db.Has, h.header, Option.isSome_map]
  simp

/-- What was read alone in a transaction. -/
theorem safe_read {x : Db → Except Fail α} (h : ∀ db, (accord P).inv db → Below P db → ∀ db', (accord P).grows db db' →
    Q db' (x db)) : Prog.Safe (accord P) Q (ChainM.read x).run db :=
  Prog.Safe.read fun t ht hguard _ u _ htu => h t ht hguard u htu

theorem safe_tip (P : Platform) (db : Db) :
    Prog.Safe (accord P) (fun db r => ∃ t, r = .ok t ∧ db.Has t.number) (Chain.tip P).run db := by
  rw [tip_eq_read]
  refine safe_read fun db ⟨L, hL, _⟩ _ db' hgrows => ⟨_, (eval_tip_eq_ok hL).2 rfl, hgrows _ ?_⟩
  rw [has_iff hL, hL.number_getLast]
  exact Nat.sub_one_lt hL.length_pos.ne'

/-- The header is the genesis block, or the number below its own has a header. -/
def HasPlace (P : Platform) (db : Db) (header : Header) : Prop :=
  header = Chain.genesis P ∨ header.number ≠ 0 ∧ db.Has (header.number - 1)

theorem safe_validate (P : Platform) (header : Header) (db : Db) :
    Prog.Safe (accord P) (fun db r => (r = .ok () → HasPlace P db header) ∧ ∀ q, r = .error (.panic q) → header.number = 0)
      (Chain.validateAdjacentBlockHeader P header).run db := by
  by_cases hg : header = Chain.genesis P
  · unfold Chain.validateAdjacentBlockHeader
    rw [if_pos hg]
    exact Prog.Safe.done fun _ _ _ => ⟨fun _ => .inl hg, by simp⟩
  by_cases hov : P.overflowChecks ∧ header.number = 0
  · have hpanic : Chain.validateAdjacentBlockHeader P header = throw (.panic .overflow) := by
      have hsub : P.sub header.number 1 = throw (.panic .overflow) := by
        unfold Platform.sub
        rw [if_pos ⟨hov.1, by rw [hov.2]; decide⟩]
      unfold Chain.validateAdjacentBlockHeader
      rw [if_neg hg, hsub]
      rfl
    rw [hpanic]
    exact Prog.Safe.done fun _ _ _ => ⟨fun h => (by cases h), fun _ _ => hov.2⟩
  · rw [validate_eq_read P hg hov]
    refine safe_read fun db ⟨L, hL, _⟩ hbelow db' hgrows => ?_
    rw [eval_validate hL]
    refine ⟨fun hv => .inr ?_, fun q hv => ?_⟩
    · have hne := height_pos_iff.mp (pos_of_validate ((below_iff hL).1 hbelow) hv hg)
      exact ⟨hne, hgrows _ ((has_iff hL).2 ((validate_eq_ok hv).resolve_left hg))⟩
    · unfold validate at hv
      rw [if_neg hg, if_neg hov] at hv
      split at hv
      · cases hv
      · split at hv <;> cases hv

theorem HasPlace.grow {db' : Db} (h : HasPlace P db header) (hgrows : (accord P).grows db db') : HasPlace P db' header :=
  h.imp_right fun h => ⟨h.1, hgrows _ h.2⟩

/-- A header that has a place is written there. -/
theorem safe_insertHeader (hplace : HasPlace P db header) :
    Prog.Safe (accord P) (fun db r => (∃ u, r = .ok u) ∧ db.Has header.number)
      (ChainM.write (Chain.insertHeader P header)).run db := by
  rintro db' ⟨L, hL, hg⟩ - hgrows
  have hplace := hplace.grow hgrows
  have hle : height header ≤ L.length := by
    rcases hplace with rfl | ⟨hne, hhas⟩
    · exact height_genesis_le P L
    · rw [has_iff hL, toNat_sub_one hne] at hhas
      have hpos := height_pos_iff.mpr hne
      unfold height at hpos ⊢
      omega
  have hnext := hL.insertHeader hle
  have hlen := length_put (L := L) hle
  refine ⟨⟨_, hnext, genesis_put hg hle fun hne => height_pos_iff.mpr (hplace.resolve_left hne).1⟩, fun n hn => ?_, ?_⟩
  · rw [has_iff hL] at hn
    rw [has_iff hnext]
    omega
  · refine Prog.Safe.done fun db'' _ hgrows' => ⟨⟨_, rfl⟩, hgrows' _ ?_⟩
    rw [has_iff hnext, hlen]
    unfold height
    omega

theorem safe_tryAddBlockHeader (header : Header) (h : (accord P).inv db) :
    Prog.Safe (accord P) (fun db r => (Method.add header).Sound db (r.map Answer.added))
      (Chain.tryAddBlockHeader P header).run db := by
  -- only validation fails
  have hnever : ∀ {db : Db} {e : Fail} {t : Header → Prop}, (∃ b, Except.error e = .ok b ∧ t b) →
      (Method.add header).Sound db (.error e) := by
    rintro db e t ⟨b, hb, -⟩
    cases hb
  refine (safe_validate P header db).bindExcept h (fun db _ h _ hplace => ?_) fun db e _ _ he => ?_
  · refine (safe_tip P db).bindExcept h (fun db' oldTip h' hgrows _ => ?_) fun _ e _ _ he => hnever he
    refine (safe_insertHeader ((hplace.1 rfl).grow hgrows)).bindExcept h' (fun db u h _ hhas => ?_)
      fun _ e _ _ he => by obtain ⟨⟨u, hu⟩, -⟩ := he; cases hu
    refine (safe_tip P db).bindExcept h (fun db' t _ hgrows _ => ?_) fun _ e _ _ he => hnever he
    split
    · exact Prog.Safe.done fun _ _ hgrows' => ⟨fun _ _ => hgrows' _ (hgrows _ hhas.2), fun _ h => by cases h⟩
    · exact Prog.Safe.done fun _ _ hgrows' => ⟨fun _ _ => hgrows' _ (hgrows _ hhas.2), fun _ h => by cases h⟩
  · refine ⟨fun a ha => (by cases ha), fun q hq => ?_⟩
    cases hq
    exact he.2 q rfl

/-- A panic instead of an error. -/
theorem safe_orPanic {x : ChainM α} {p : Error → Panic} (h : (accord P).inv db) (hx : Prog.Safe (accord P) Q x.run db)
    {R : Db → Except Fail α → Prop} (hok : ∀ db a, Q db (.ok a) → R db (.ok a)) (hpanic : ∀ db e, R db (.error (.panic e))) :
    Prog.Safe (accord P) R (x.orPanic p).run db := by
  refine hx.always.bind h fun db r hdb _ hr => ?_
  rcases r with (e | q) | a
  · exact Prog.Safe.done fun _ _ _ => hpanic _ _
  · exact Prog.Safe.done fun _ _ _ => hpanic _ _
  · exact Prog.Safe.done fun db' h' hgrows => hok db' a (hr db' h' hgrows)

theorem safe_mineBlock (draws : Chain.Draws) (h : (accord P).inv db) :
    Prog.Safe (accord P) (fun db r => ∀ header, r = .ok (.mined header) → db.Has header.number)
      (Chain.mineBlock P draws).run db := by
  refine (safe_orPanic (Q := fun _ _ => True) (R := fun _ _ => True) h ((safe_tip P db).mono fun _ _ _ _ => trivial)
    (fun _ _ _ => trivial) fun _ _ => trivial).bindExcept h (fun db t h _ _ => ?_) fun _ e _ _ _ a ha => by cases ha
  unfold Chain.mineOn Platform.add
  split
  · exact Prog.Safe.done fun _ _ _ header hr => by cases hr
  · have hadd := safe_tryAddBlockHeader (Chain.minedHeader P draws t (t.number + 1)) h
    refine (safe_orPanic (R := fun db r => ∀ a, r = .ok a → db.Has (t.number + 1)) h hadd
      (fun db a ha _ _ => ha.1 _ rfl) fun db e a ha => by cases ha).bindExcept h (fun db r _ _ hr => ?_) fun _ e _ _ _ a ha => by cases ha
    cases r with
    | alreadyInChain => exact Prog.Safe.done fun _ _ _ header hr => by cases hr
    | extendTip =>
      refine Prog.Safe.done fun db' _ hgrows header hheader => ?_
      cases hheader
      exact hgrows _ (hr _ rfl)

theorem safe_getHeaderByBlockNumber (P : Platform) (n : UInt64) (db : Db) :
    Prog.Safe (accord P) (fun db r => r = .error (.error .blockHeaderNotFound) ∨ ∃ b, r = .ok b ∧ b.number = n ∧ db.Has n)
      (Chain.getHeaderByBlockNumber P n).run db := by
  refine safe_read fun db ⟨L, hL, _⟩ _ db' hgrows => ?_
  rw [findHeader_eq hL]
  cases hb : L[n.toNat]? with
  | none => exact .inl rfl
  | some b =>
    exact .inr ⟨b, rfl, UInt64.toNat_inj.mp (hL.number_toNat hb), hgrows n ((has_iff hL).2 (List.getElem?_eq_some_iff.mp hb).1)⟩

theorem safe_getHeaderByHash (P : Platform) (hash : String) (db : Db) :
    Prog.Safe (accord P) (fun db r => r = .error (.error .blockHeaderNotFound) ∨ ∃ b, r = .ok b ∧ db.Has b.number)
      (Chain.getHeaderByHash P hash).run db := by
  refine safe_read fun db ⟨L, hL, _⟩ _ db' hgrows => ?_
  cases hn : db.hash[hash]? with
  | none => exact .inl rfl
  | some n =>
    simp only [findHeader_eq hL]
    have hlt := hL.hash hash n hn
    have hb := List.getElem?_eq_getElem hlt
    rw [hb]
    refine .inr ⟨_, rfl, hgrows _ ((has_iff hL).2 ?_)⟩
    rw [hL.number_toNat hb]
    exact hlt

/-- **Every call keeps the accord, and its answer is sound.** -/
theorem safe_body (call : Method) (h : (accord P).inv db) :
    Prog.Safe (accord P) (fun db r => call.Sound db r) (call.body P) db := by
  cases call with
  | add header =>
    refine (safe_tryAddBlockHeader header h).bindExcept h (fun db r _ _ hr => ?_) fun _ e _ _ he => he
    exact Prog.Safe.done fun _ _ hgrows => ⟨fun _ _ => hgrows _ (hr.1 _ rfl), fun _ h => by cases h⟩
  | mine draws =>
    refine (safe_mineBlock draws h).bindExcept h (fun db r _ _ hr => ?_) fun _ e _ _ _ header hr => by cases hr
    refine Prog.Safe.done fun _ _ hgrows header hheader => ?_
    cases hheader
    exact hgrows _ (hr header rfl)
  | byNumber n =>
    refine (safe_getHeaderByBlockNumber P n db).bindExcept h (fun db b _ _ hr => ?_) fun _ e _ _ hr => ?_
    · rcases hr with hr | ⟨b', hb, hnum, hhas⟩
      · cases hr
      · cases hb
        exact Prog.Safe.done fun _ _ hgrows => .inr ⟨b, rfl, hnum, hgrows n hhas⟩
    · rcases hr with hr | ⟨b, hb, -⟩
      · cases hr
        exact .inl rfl
      · cases hb
  | byHash hash =>
    refine (safe_getHeaderByHash P hash db).bindExcept h (fun db b _ _ hr => ?_) fun _ e _ _ hr => ?_
    · rcases hr with hr | ⟨b', hb, hhas⟩
      · cases hr
      · cases hb
        exact Prog.Safe.done fun _ _ hgrows => .inr ⟨b, rfl, hgrows _ hhas⟩
    · rcases hr with hr | ⟨b, hb, -⟩
      · cases hr
        exact .inl rfl
      · cases hb
  | tip =>
    refine (safe_tip P db).bindExcept h (fun db t _ _ hr => ?_) fun _ e _ _ hr => ?_
    · obtain ⟨t, ⟨⟩, hhas⟩ := hr
      exact Prog.Safe.done fun _ _ hgrows => ⟨t, rfl, hgrows _ hhas⟩
    · obtain ⟨t, ht, -⟩ := hr
      cases ht

/-! ## Runs -/

/-- One step of a node's chain: a call starts, or a thread makes its next transaction, or the node crashes and is started
again. -/
abbrev stepChain (P : Platform) : Pool Db Method (Except Fail Answer) → Fault Method → Pool Db Method (Except Fail Answer) :=
  Pool.fault (Method.body P) (Chain.new P)

theorem accord_recover (db : Db) (h : (accord P).inv db) :
    (accord P).inv (Chain.new P db) ∧ (accord P).grows db (Chain.new P db) := by
  obtain ⟨L, hL, hg⟩ := h
  have hle := height_genesis_le P L
  have hnext := hL.insertHeader hle
  refine ⟨⟨_, hnext, genesis_put hg hle fun h => absurd rfl h⟩, fun n hn => ?_⟩
  rw [has_iff hL] at hn
  rw [Chain.new, has_iff hnext, length_put hle]
  omega

/-- **The store is contiguous at all times.**  Any calls interleave on a reachable database, transaction by transaction, and
the node may crash between any two of them and be started again.  As long as the tip is below the last number: in every state
the keys of the `HEADER` table are `0` to the tip's number, each header is under its own and the genesis block under `0`; what
a call has answered is sound in every state after; and no step lowers the tip. -/
theorem interleaved_contiguous (h : Reaches P (fun db _ => Below P db) db) (steps : List (Fault Method))
    (hbelow : EveryStep (stepChain P) (fun c _ => Below P c.store) ⟨db, []⟩ steps) :
    EveryState (stepChain P) (fun c => Contiguous P c.store ∧
        ∀ (call : Method) r, (call, Prog.done r) ∈ c.threads → call.Sound c.store r) ⟨db, []⟩ steps ∧
      EveryStep (stepChain P) (fun c x => TipLe P c.store (stepChain P c x).store) ⟨db, []⟩ steps := by
  have hkept : Pool.Kept (accord P) (fun (call : Method) db r => call.Sound db r) ⟨db, []⟩ :=
    ⟨h.genesis, fun _ hx => absurd hx List.not_mem_nil⟩
  have hbody : ∀ (call : Method) db, (accord P).inv db → Prog.Safe (accord P) (fun db r => call.Sound db r) (Method.body P call) db :=
    fun call db => safe_body call
  have hrecover : ∀ db, (accord P).inv db → Below P db →
      (accord P).inv (Chain.new P db) ∧ (accord P).grows db (Chain.new P db) := fun db h _ => accord_recover db h
  constructor
  · refine (hkept.everyState hbody hrecover hbelow).mono fun c hc => ⟨?_, fun call r hx => hc.result hx⟩
    obtain ⟨L, hL, hg⟩ := hc.inv
    exact hL.contiguous hg
  · refine hbelow.of_invariant (fun c x hc hg => (hc.step hbody hrecover hg x).1) (fun c x hc hg => ?_) hkept
    obtain ⟨hnext, hgrows⟩ := hc.step hbody hrecover hg x
    obtain ⟨L, hL, -⟩ := hc.inv
    obtain ⟨L', hL', -⟩ := hnext.inv
    have hlast := hgrows (L.getLast hL.ne_nil).number
    rw [has_iff hL, has_iff hL', hL.number_getLast] at hlast
    have hpos := hL.length_pos
    exact tipLe_of_length_le hL hL' (by omega)

/-- A block is being mined and the tip is read, when the node crashes. -/
def crashed : List (Fault Method) :=
  [.act (.call (.mine zeroDraws)), .act (.exec 0), .act (.call .tip), .act (.exec 1), .crash]

theorem interleaved_contiguous_crashed :
    EveryState (stepChain (sample true)) (fun c => Contiguous (sample true) c.store ∧
        ∀ (call : Method) r, (call, Prog.done r) ∈ c.threads → call.Sound c.store r)
        ⟨Chain.new (sample true) Db.empty, []⟩ crashed ∧
      EveryStep (stepChain (sample true)) (fun c x => TipLe (sample true) c.store (stepChain (sample true) c x).store)
        ⟨Chain.new (sample true) Db.empty, []⟩ crashed := by
  have hbelow : Below (sample true) (Chain.new (sample true) Db.empty) := (below_iff (stores_new _)).2 (by decide)
  exact interleaved_contiguous .new _ ⟨hbelow, hbelow, hbelow, hbelow, hbelow, trivial⟩

end Simb.BlockTree
