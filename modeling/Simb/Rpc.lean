import Simb.BlockTree.Defs
import Simb.Lib.Hex

/-!
# The RPC server (`rpc.rs`)

The handlers of the server.  A handler is given the one string parameter of its method; it returns a value or an error
object, or it panics.  What it asks of the block tree is a parameter, and `Chain.blockTree` is what a chain answers.
-/

namespace Simb.Rpc

open Simb.Lib

/-- `INVALID_PARAMS_CODE` of `jsonrpsee`. -/
def invalidParamsCode : ℤ := -32602

/-- `INTERNAL_ERROR_CODE` of `jsonrpsee`. -/
def internalErrorCode : ℤ := -32603

/-- `ErrorObjectOwned`, always without data. -/
structure ErrorObject where
  code : ℤ
  message : String
  deriving DecidableEq

inductive Panic where
  /-- A string is sliced behind its end, or inside of a character. -/
  | slice
  | blockTree (p : BlockTree.Panic)
  deriving DecidableEq

/-- How a handler can fail to return `Ok`. -/
inductive Fail where
  | error (e : ErrorObject)
  | panic (p : Panic)
  deriving DecidableEq

/-- The JSON object of a block. -/
structure Block where
  blockHash : String
  blockNumber : String
  stateRoot : String
  parentRoot : String
  transactions : List Transaction
  deriving DecidableEq

/-- The methods of `BlockTree` that the handlers call. -/
structure BlockTree where
  getHeaderByBlockNumber : UInt64 → Except BlockTree.Fail Header
  getHeaderByHash : String → Except BlockTree.Fail Header
  getBalance : String → Except BlockTree.Fail UInt64

/-- `Error::to_string` of the block tree. -/
def errorMessage : BlockTree.Error → String
  | .invalid => "Invalid header"
  | .blockHeaderNotFound => "Block header not found in database"
  | .databaseError message => "Database error: " ++ message

/-- `match` on what the block tree answers: an error gives an error object, and a panic goes on. -/
def answer {α β : Type} (result : Except BlockTree.Fail α) (message : BlockTree.Error → String) (ok : α → β) :
    Except Fail β :=
  match result with
  | .ok a => .ok (ok a)
  | .error (.error e) => .error (.error ⟨internalErrorCode, message e⟩)
  | .error (.panic p) => .error (.panic (.blockTree p))

/-- `format!("0x{:x}", n)`. -/
def hexNumber (n : UInt64) : String := "0x" ++ Hex.format n

def blockOf (header : Header) : Block where
  blockHash := header.hash.text
  blockNumber := hexNumber header.number
  stateRoot := header.stateRoot.text
  parentRoot := header.parentHash.text
  transactions := []

/-- The number in the parameter of `eth_getBlockByNumber`.  The first two bytes are dropped unseen. -/
def parseBlockNumber (blockNumber : String) : Except Fail UInt64 :=
  match Hex.sliceFrom 2 blockNumber.toList with
  | none => .error (.panic .slice)
  | some digits =>
    match Hex.fromHex digits with
    | some n => .ok n
    | none => .error (.error ⟨invalidParamsCode, "Number should be in hex string format"⟩)

def ethGetBlockByNumber (chain : BlockTree) (blockNumber : String) : Except Fail Block := do
  let number ← parseBlockNumber blockNumber
  answer (chain.getHeaderByBlockNumber number) (fun _ => "Block not found at " ++ blockNumber) blockOf

def ethGetBlockByHash (chain : BlockTree) (hash : String) : Except Fail Block :=
  answer (chain.getHeaderByHash hash) (fun _ => "Block not found with hash: " ++ hash) blockOf

def ethGetBalance (chain : BlockTree) (address : String) : Except Fail String :=
  answer (chain.getBalance address) (fun e => "Internal error: " ++ errorMessage e) hexNumber

end Simb.Rpc

namespace Simb.BlockTree.Chain

/-- `get_balance`, with the number it draws. -/
def getBalance (random : UInt64) (address : String) : Except Fail UInt64 :=
  if address = "0x000000000000000000000000000000000000dead" then .ok 57005 else .ok random

/-- What a chain answers whose database is `db`, if it draws `random`. -/
def blockTree (P : Platform) (db : Db) (random : UInt64) : Rpc.BlockTree where
  getHeaderByBlockNumber n := (getHeaderByBlockNumber P n).eval db
  getHeaderByHash hash := (getHeaderByHash P hash).eval db
  getBalance address := getBalance random address

end Simb.BlockTree.Chain
