import Simb.Interface
import Simb.Lib.Table

/-!
# The transaction pool (`pool.rs`)

The pending transactions, by hash.
-/

namespace Simb

open Simb.Lib

/-- The pool of pending transactions. -/
abbrev PoolTx := Table String Transaction

namespace PoolTx

/-- Add transactions one after the other, and list the hashes that were not in the pool. -/
def addTransactions : PoolTx → List Transaction → PoolTx × List String
  | pool, [] => (pool, [])
  | pool, tx :: txs =>
    let (pool', added) := addTransactions (pool.insert tx.hash.text tx) txs
    if pool[tx.hash.text]?.isNone then (pool', tx.hash.text :: added) else (pool', added)

/-- Add a transaction, and tell its hash if that was not in the pool. -/
def addTransaction (pool : PoolTx) (tx : Transaction) : PoolTx × Option String :=
  (pool.insert tx.hash.text tx, if pool[tx.hash.text]?.isNone then some tx.hash.text else none)

/-- What a call of `add_transactions_and_broadcast` does. -/
structure Added where
  pool : PoolTx
  /-- What is given to `broadcast_transactions`. -/
  broadcast : List Transaction
  result : RequestResponse (List String)

/-- Add external transactions to the pool, and broadcast to the network those that are new to it; `outcome` is what
comes of the broadcast. -/
def addTransactionsAndBroadcast (pool : PoolTx) (txs : List Transaction) (outcome : RequestResponse Unit) : Added :=
  let (pool, addedHashes) := pool.addTransactions txs
  { pool
    -- would broadcast only transaction that new to the local pool
    broadcast := txs.filter fun tx => tx.hash.text ∈ addedHashes
    result := outcome.map fun _ => addedHashes }

/-- All transactions, in the order of their hashes. -/
def getAll (pool : PoolTx) : List Transaction := pool.toList.map Prod.snd

/-- Take out the transaction with the first hash. -/
def next (pool : PoolTx) : PoolTx × Option Transaction :=
  let (pool, first) := pool.popFirst
  (pool, first.map Prod.snd)

end PoolTx

end Simb
