import Simb.Interface
import Simb.Lib.Table
import Simb.Lib.Text
import Simb.Lib.Txn

/-!
# The block tree (`blocktree.rs`)

A `Chain` is a handle on a database with two tables, `HEADER` from numbers to encoded headers and `HASH`
from hashes to numbers.  Every method takes the lock of the database once for each transaction, so a
method is a `Prog` of transactions: run alone it is the sequential method, and the clones of a `Chain`
may interleave theirs.

What the code takes from elsewhere is collected in `Platform`: whether the build checks overflow, SHA-256,
and the codec of headers.  redb is taken as a transactional map that does not fail, so `DatabaseError` is
never returned.
-/

namespace Simb.BlockTree

open Simb.Lib

/-- What the program is built on. -/
structure Platform where
  /-- Whether arithmetic that overflows panics (a debug build) or wraps (a release build). -/
  overflowChecks : Bool
  /-- `sha2::Sha256`. -/
  sha256 : List UInt8 → Vector UInt8 32
  /-- `alloy_rlp` on `Header`. -/
  headers : Codec Header

inductive Error where
  | invalid
  | blockHeaderNotFound
  | databaseError (message : String)
  deriving DecidableEq

/-- The panics of this file. -/
inductive Panic where
  | overflow
  | emptyTable
  | decodeHeader
  | tipUnwrap (e : Error)
  | miningFailed (e : Error)
  deriving DecidableEq

/-- How a call can fail to return `Ok`: it returns `Err`, or it panics. -/
inductive Fail where
  | error (e : Error)
  | panic (p : Panic)
  deriving DecidableEq

inductive AddedBlockResult where
  | extendTip
  | alreadyInChain
  deriving DecidableEq

inductive MineBlockResult where
  | mined (header : Header)
  | blockFallingBehind
  deriving DecidableEq

/-- The database of a chain. -/
structure Db where
  /-- `HEADER`: block number, encoded block header. -/
  header : Table UInt64 (List UInt8)
  /-- `HASH`: block hash, block number. -/
  hash : Table String UInt64

/-- A database file that was just created. -/
def Db.empty : Db := ⟨∅, ∅⟩

/-- Methods of a chain: transactions on its database, that may fail. -/
abbrev ChainM := ExceptT Fail (Prog Db)

namespace ChainM

variable {α : Type}

/-- One read transaction. -/
def read (f : Db → Except Fail α) : ChainM α := Prog.read f

/-- One write transaction. -/
def write (f : Db → Db) : ChainM Unit := ExceptT.lift (Prog.write f)

/-- `unwrap` and its like: an `Err` becomes a panic. -/
def orPanic (x : ChainM α) (p : Error → Panic) : ChainM α := ExceptT.mk do
  match ← x.run with
  | .error (.error e) => pure (.error (.panic (p e)))
  | r => pure r

/-- What a method returns and the database it leaves, when it runs alone. -/
def runOn (x : ChainM α) (db : Db) : Except Fail α × Db := Prog.run x.run db

/-- What a method returns when it runs alone. -/
def eval (x : ChainM α) (db : Db) : Except Fail α := Prog.eval x.run db

/-- The database a method leaves when it runs alone. -/
def exec (x : ChainM α) (db : Db) : Db := Prog.exec x.run db

end ChainM

section

variable (P : Platform)

/-- `a - b` on `u64`. -/
def Platform.sub (a b : UInt64) : ChainM UInt64 :=
  if P.overflowChecks ∧ a < b then throw (.panic .overflow) else pure (a - b)

/-- `a + b` on `u64`. -/
def Platform.add (a b : UInt64) : ChainM UInt64 :=
  if P.overflowChecks ∧ a + b < a then throw (.panic .overflow) else pure (a + b)

/-! ## Hashes -/

/-- The object that is hashed.  `serde_json` keeps the members of an object in the order of their keys. -/
def hashedText (blockNumber timestamp : UInt64) (parentHash stateRoot data : String) (nonce : UInt64) : String :=
  Json.object [("block_number", .num blockNumber), ("data", .str data), ("nonce", .num nonce),
    ("parent_hash", .str parentHash), ("state_root", .str stateRoot), ("timestamp", .num timestamp)]

def calculateHash (blockNumber timestamp : UInt64) (parentHash stateRoot data : String) (nonce : UInt64) :
    Vector UInt8 32 :=
  P.sha256 (hashedText blockNumber timestamp parentHash stateRoot data nonce).toUTF8.data.toList

/-- `hex::encode` of a digest. -/
def hexDigest (digest : Vector UInt8 32) : Str where
  text := hexEncode digest.toList
  bound := by rw [utf8ByteSize_hexEncode, Vector.length_toList]; norm_num

/-- The free function `mine_block`, with the nonce it draws. -/
def mineBlock (number timestamp : UInt64) (previousHash stateRoot data : String) (nonce : UInt64) :
    UInt64 × Str :=
  (nonce, hexDigest (calculateHash P number timestamp previousHash stateRoot data nonce))

/-! ## Chain -/

namespace Chain

def genesis : Header where
  hash := hexDigest (calculateHash P 0 1705551177 "genesis" "0x" "0x" 17012)
  number := 0
  nonce := 17012
  parentHash := ⟨"genesis", by decide⟩
  stateRoot := ⟨"0x", by decide⟩
  timestamp := 1705551177

/-- The two inserts of a header. -/
def insertHeader (header : Header) (db : Db) : Db where
  header := db.header.insert header.number (P.headers.encode header)
  hash := db.hash.insert header.hash.text header.number

/-- `Chain::new` on a database file that holds `db`. -/
def new (db : Db) : Db := insertHeader P (genesis P) db

/-- Read back an encoded header. -/
def decodeHeader (buf : List UInt8) : Except Fail Header :=
  match P.headers.decode buf with
  | some (header, _) => .ok header
  | none => .error (.panic .decodeHeader)

/-- The header of a number, as a read transaction finds it. -/
def findHeader (blockNumber : UInt64) (db : Db) : Except Fail Header :=
  match db.header[blockNumber]? with
  | some buf => decodeHeader P buf
  | none => .error (.error .blockHeaderNotFound)

def getHeaderByBlockNumber (blockNumber : UInt64) : ChainM Header := ChainM.read (findHeader P blockNumber)

/-- The header is read while the lock for the number is still held, so this is one transaction. -/
def getHeaderByHash (hash : String) : ChainM Header :=
  ChainM.read fun db =>
    match db.hash[hash]? with
    | some blockNumber => findHeader P blockNumber db
    | none => .error (.error .blockHeaderNotFound)

/-- NOTE: this is not support chain re-org. -/
def tip : ChainM Header :=
  ChainM.read fun db =>
    match db.header.last with
    | some (_, buf) => decodeHeader P buf
    | none => .error (.panic .emptyTable)

/-- Skip consensus validation and just validate the parent hash and block number for proper chain
ordering. -/
def validateAdjacentBlockHeader (header : Header) : ChainM Unit := do
  -- skip validation if it is genesis block
  if header = genesis P then
    return ()
  let parentHeader ← getHeaderByBlockNumber P (← P.sub header.number 1)
  if parentHeader.hash ≠ header.parentHash then
    throw (.error .invalid)
  if (← P.add parentHeader.number 1) ≠ header.number then
    throw (.error .invalid)

def tryAddBlockHeader (header : Header) : ChainM AddedBlockResult := do
  validateAdjacentBlockHeader P header
  let oldTip ← tip P
  ChainM.write (insertHeader P header)
  if oldTip.number < (← tip P).number then
    return .extendTip
  else
    return .alreadyInChain

/-- The clock and the random draws of one call of `mine_block`. -/
structure Draws where
  timestamp : UInt64
  randomBytes : Vector UInt8 32
  nonce : UInt64

/-- The header that `mine_block` builds on a tip.  The header has neither the state root nor the time that
went into its hash. -/
def minedHeader (draws : Draws) (prevBlockHeader : Header) (number : UInt64) : Header :=
  let parentHash := prevBlockHeader.hash
  let stateRoot := hexDigest (P.sha256 draws.randomBytes.toList)
  let (nonce, hash) :=
    BlockTree.mineBlock P number draws.timestamp parentHash.text stateRoot.text "a block data" draws.nonce
  { hash, nonce, number, parentHash, stateRoot := .empty, timestamp := 0 }

/-- `mine_block` from the point where it has read the tip. -/
def mineOn (draws : Draws) (prevBlockHeader : Header) : ChainM MineBlockResult := do
  let number ← P.add prevBlockHeader.number 1
  let header := minedHeader P draws prevBlockHeader number
  match ← (tryAddBlockHeader P header).orPanic .miningFailed with
  | .alreadyInChain => return .blockFallingBehind
  | .extendTip => return .mined header

def mineBlock (draws : Draws) : ChainM MineBlockResult := do
  let prevBlockHeader ← (tip P).orPanic .tipUnwrap
  mineOn P draws prevBlockHeader

end Chain

end

end Simb.BlockTree
