import Simb.Pool

/-!
# What the pool keeps

Adding a transaction always writes it, and the answer only tells whether its hash was new.  So of the transactions with
one hash the last one stays (`getElem?_addTransactions`), and a hash is reported by the first one that carries it
(`count_addTransactions`).

As long as equal hashes mean equal transactions this makes no difference, and pools that were given the same
transactions are the same (`pools_converge`).  Otherwise a pending transaction may be replaced while its hash is
reported as known (`never_replaced_iff`).  A broadcast that fails leaves the pool with its transactions, which are then
no longer new (`restores_iff`).  What is broadcast is found again by its hash, so a batch that brings a new hash twice
is broadcast with both transactions (`broadcastsEach_iff`).
-/

namespace Simb.PoolTx

open Simb.Lib

/-- The first transaction with a hash. -/
def firstWith (hash : String) (txs : List Transaction) : Option Transaction := txs.find? fun tx => tx.hash.text = hash

/-- The last transaction with a hash. -/
def lastWith (hash : String) (txs : List Transaction) : Option Transaction := firstWith hash txs.reverse

variable {pool : PoolTx} {tx : Transaction} {txs : List Transaction} {hash : String}

theorem lastWith_cons :
    lastWith hash (tx :: txs) = (lastWith hash txs).or (if tx.hash.text = hash then some tx else none) := by
  unfold lastWith firstWith
  rw [List.reverse_cons, List.find?_append]
  congr 1
  by_cases h : tx.hash.text = hash
  · simp [h]
  · simp [h]

theorem lastWith_eq_none : lastWith hash txs = none ↔ ∀ tx ∈ txs, tx.hash.text ≠ hash := by
  unfold lastWith firstWith
  simp

theorem mem_of_lastWith (h : lastWith hash txs = some tx) : tx ∈ txs ∧ tx.hash.text = hash := by
  unfold lastWith firstWith at h
  exact ⟨List.mem_reverse.mp (List.mem_of_find?_eq_some h), by simpa using List.find?_some h⟩

/-! ## Adding transactions -/

/-- **The last one stays.** -/
theorem getElem?_addTransactions (pool : PoolTx) (txs : List Transaction) (hash : String) :
    (pool.addTransactions txs).1[hash]? = (lastWith hash txs).or pool[hash]? := by
  induction txs generalizing pool with
  | nil => rfl
  | cons tx txs ih =>
    have hpool : (pool.addTransactions (tx :: txs)).1 = (addTransactions (pool.insert tx.hash.text tx) txs).1 := by
      simp only [addTransactions]
      split <;> rfl
    rw [hpool, ih, lastWith_cons, Option.or_assoc]
    congr 1
    by_cases h : tx.hash.text = hash
    · subst h
      rw [Table.getElem?_insert_self, if_pos rfl, Option.some_or]
    · rw [Table.getElem?_insert_of_ne _ _ (Ne.symm h), if_neg h, Option.none_or]

/-- **A new hash is reported once.** -/
theorem count_addTransactions (pool : PoolTx) (txs : List Transaction) (hash : String) :
    (pool.addTransactions txs).2.count hash =
      if pool[hash]? = none ∧ lastWith hash txs ≠ none then 1 else 0 := by
  induction txs generalizing pool with
  | nil => simp [addTransactions, lastWith, firstWith]
  | cons tx txs ih =>
    have hrest := ih (pool.insert tx.hash.text tx)
    by_cases h : tx.hash.text = hash
    · subst h
      rw [Table.getElem?_insert_self] at hrest
      cases hp : pool[tx.hash.text]? with
      | none => simp [addTransactions, hp, hrest, lastWith_cons]
      | some t => simp [addTransactions, hp, hrest]
    · rw [Table.getElem?_insert_of_ne _ _ (Ne.symm h)] at hrest
      have hcount : (pool.addTransactions (tx :: txs)).2.count hash =
          (addTransactions (pool.insert tx.hash.text tx) txs).2.count hash := by
        simp only [addTransactions]
        split
        · exact List.count_cons_of_ne h
        · rfl
      rw [hcount, hrest, lastWith_cons, if_neg h, Option.or_none]

theorem addTransactions_append (pool : PoolTx) (xs ys : List Transaction) :
    pool.addTransactions (xs ++ ys) =
      (((pool.addTransactions xs).1.addTransactions ys).1,
        (pool.addTransactions xs).2 ++ ((pool.addTransactions xs).1.addTransactions ys).2) := by
  induction xs generalizing pool with
  | nil => rfl
  | cons x xs ih =>
    simp only [List.cons_append, addTransactions, ih]
    split
    · rfl
    · rfl

/-- One transaction is a batch of one. -/
theorem addTransaction_eq (pool : PoolTx) (tx : Transaction) :
    pool.addTransactions [tx] = ((pool.addTransaction tx).1, (pool.addTransaction tx).2.toList) := by
  unfold addTransaction
  simp only [addTransactions]
  split
  · rfl
  · rfl

/-! ## Pools converge -/

/-- A call that adds to the pool. -/
inductive Call where
  | addTransaction (tx : Transaction)
  | addTransactions (txs : List Transaction)

/-- What a call brings. -/
def Call.transactions : Call → List Transaction
  | addTransaction tx => [tx]
  | addTransactions txs => txs

/-- The pool after a call, and the hashes that the call reports as added. -/
def Call.apply (pool : PoolTx) : Call → PoolTx × List String
  | addTransaction tx => ((pool.addTransaction tx).1, (pool.addTransaction tx).2.toList)
  | addTransactions txs => pool.addTransactions txs

/-- The pool after some calls, and all hashes that they report. -/
def run : PoolTx → List Call → PoolTx × List String
  | pool, [] => (pool, [])
  | pool, call :: calls =>
    let (pool, added) := call.apply pool
    let (pool, rest) := run pool calls
    (pool, added ++ rest)

/-- What the calls bring. -/
def received (calls : List Call) : List Transaction := calls.flatMap Call.transactions

theorem Call.apply_eq (pool : PoolTx) (call : Call) : call.apply pool = pool.addTransactions call.transactions := by
  cases call with
  | addTransaction tx => exact (addTransaction_eq pool tx).symm
  | addTransactions txs => rfl

/-- However the transactions are split into calls, they are added one after the other. -/
theorem run_eq (pool : PoolTx) (calls : List Call) : run pool calls = pool.addTransactions (received calls) := by
  induction calls generalizing pool with
  | nil => rfl
  | cons call calls ih =>
    show ((run (call.apply pool).1 calls).1, (call.apply pool).2 ++ (run (call.apply pool).1 calls).2) = _
    rw [ih, call.apply_eq]
    exact (addTransactions_append pool call.transactions (received calls)).symm

/-- The transactions of `txs`, each once, in the order of their hashes. -/
structure SortedOnce (txs all : List Transaction) : Prop where
  sorted : all.Pairwise fun a b => a.hash.text < b.hash.text
  mem : ∀ tx, tx ∈ all ↔ tx ∈ txs

/-- Every hash of `txs` is reported once, and no other. -/
structure ReportedOnce (txs : List Transaction) (reports : List String) : Prop where
  once : ∀ tx ∈ txs, reports.count tx.hash.text = 1
  only : ∀ hash ∈ reports, ∃ tx ∈ txs, tx.hash.text = hash

/-- In a pool that was empty, every transaction is found by its hash if equal hashes mean equal transactions. -/
theorem getElem?_of_injOn (h : Set.InjOn Transaction.hash {tx | tx ∈ txs}) (hash : String) (tx : Transaction) :
    (addTransactions ∅ txs).1[hash]? = some tx ↔ tx ∈ txs ∧ tx.hash.text = hash := by
  rw [getElem?_addTransactions, Std.ExtTreeMap.getElem?_empty, Option.or_none]
  constructor
  · exact mem_of_lastWith
  · rintro ⟨hmem, rfl⟩
    cases hlast : lastWith tx.hash.text txs with
    | none => exact absurd rfl (lastWith_eq_none.mp hlast tx hmem)
    | some t =>
      obtain ⟨ht, hhash⟩ := mem_of_lastWith hlast
      exact congrArg some (h ht hmem (Str.ext_iff.mpr hhash))

theorem sortedOnce_getAll (h : Set.InjOn Transaction.hash {tx | tx ∈ txs}) :
    SortedOnce txs (addTransactions ∅ txs).1.getAll := by
  have hhash : ∀ x ∈ (addTransactions ∅ txs).1.toList, x.1 = x.2.hash.text := by
    intro x hx
    rw [Std.ExtTreeMap.mem_toList_iff_getElem?_eq_some, getElem?_of_injOn h] at hx
    exact hx.2.symm
  constructor
  · unfold getAll
    rw [List.pairwise_map]
    refine List.Pairwise.imp_of_mem ?_ Std.ExtTreeMap.ordered_keys_toList
    intro x y hx hy hlt
    rw [← hhash x hx, ← hhash y hy]
    exact compare_lt_iff_lt.mp hlt
  · intro tx
    unfold getAll
    rw [List.mem_map]
    constructor
    · rintro ⟨⟨hash, t⟩, hx, rfl⟩
      rw [Std.ExtTreeMap.mem_toList_iff_getElem?_eq_some, getElem?_of_injOn h] at hx
      exact hx.1
    · intro htx
      refine ⟨(tx.hash.text, tx), ?_, rfl⟩
      rw [Std.ExtTreeMap.mem_toList_iff_getElem?_eq_some, getElem?_of_injOn h]
      exact ⟨htx, rfl⟩

theorem reportedOnce (txs : List Transaction) : ReportedOnce txs (addTransactions ∅ txs).2 := by
  have hcount := count_addTransactions ∅ txs
  constructor
  · intro tx htx
    rw [hcount, if_pos ⟨Std.ExtTreeMap.getElem?_empty, fun hnone => lastWith_eq_none.mp hnone tx htx rfl⟩]
  · intro hash hmem
    have hpos := List.count_pos_iff.mpr hmem
    rw [hcount] at hpos
    by_contra hno
    have hlast : lastWith hash txs = none := lastWith_eq_none.mpr fun tx htx heq => hno ⟨tx, htx, heq⟩
    rw [if_neg fun h => h.2 hlast] at hpos
    exact Nat.lt_irrefl 0 hpos

/-- **Pools converge.**  Two empty pools are given the same transactions, in which equal hashes mean equal transactions,
in any order, with any repetitions, and split in any way into calls: then `get_all` gives the same list for both, these
transactions in the order of their hashes, each once, and each pool has reported every hash once. -/
theorem pools_converge {calls calls' : List Call} (hsame : ∀ tx, tx ∈ received calls ↔ tx ∈ received calls')
    (hinj : Set.InjOn Transaction.hash {tx | tx ∈ received calls}) :
    (run ∅ calls).1.getAll = (run ∅ calls').1.getAll ∧ SortedOnce (received calls) (run ∅ calls).1.getAll ∧
      ReportedOnce (received calls) (run ∅ calls).2 ∧ ReportedOnce (received calls) (run ∅ calls').2 := by
  have hinj' : Set.InjOn Transaction.hash {tx | tx ∈ received calls'} := by
    intro x hx y hy
    exact hinj ((hsame x).2 hx) ((hsame y).2 hy)
  have heq : (run ∅ calls).1 = (run ∅ calls').1 := by
    rw [run_eq, run_eq]
    refine Std.ExtTreeMap.ext_getElem? fun hash => Option.ext fun tx => ?_
    rw [getElem?_of_injOn hinj, getElem?_of_injOn hinj', hsame]
  refine ⟨by rw [heq], ?_, ?_, ?_⟩
  · rw [run_eq]
    exact sortedOnce_getAll hinj
  · rw [run_eq]
    exact reportedOnce _
  · have h' := reportedOnce (received calls')
    rw [run_eq]
    refine ⟨fun tx htx => h'.once tx ((hsame tx).1 htx), fun hash hmem => ?_⟩
    obtain ⟨tx, htx, hhash⟩ := h'.only hash hmem
    exact ⟨tx, (hsame tx).2 htx, hhash⟩

/-- A transaction with this hash and value. -/
def pay (hash : Str) (value : UInt64) : Transaction := ⟨hash, .empty, .empty, value, 0⟩

def payA : Transaction := pay ⟨"a", by decide⟩ 1

def payB : Transaction := pay ⟨"b", by decide⟩ 2

/-- Two transactions, one of them twice. -/
theorem pools_converge_two :
    (run ∅ [.addTransactions [payB, payA], .addTransaction payA]).1.getAll =
      (run ∅ [.addTransaction payA, .addTransactions [payB]]).1.getAll := by
  refine (pools_converge ?_ ?_).1
  · intro tx
    simp only [received, List.flatMap_cons, List.flatMap_nil, Call.transactions, List.mem_append, List.mem_cons,
      List.not_mem_nil, or_false]
    tauto
  · intro x hx y hy hhash
    have hmem : ∀ z ∈ received [.addTransactions [payB, payA], .addTransaction payA], z = payA ∨ z = payB := by
      intro z hz
      simp only [received, List.flatMap_cons, List.flatMap_nil, Call.transactions, List.mem_append, List.mem_cons,
        List.not_mem_nil, or_false] at hz
      tauto
    rcases hmem x hx with rfl | rfl <;> rcases hmem y hy with rfl | rfl
    · rfl
    · exact absurd (congrArg Str.text hhash) (by decide)
    · exact absurd (congrArg Str.text hhash) (by decide)
    · rfl

/-! ## Transactions that are replaced -/

/-- Every entry that was there is unchanged, and of the transactions with a new hash the first one is kept. -/
structure NeverReplaced (pool pool' : PoolTx) (txs : List Transaction) : Prop where
  known : ∀ (hash : String) (tx : Transaction), pool[hash]? = some tx → pool'[hash]? = some tx
  first : ∀ hash : String, pool[hash]? = none → pool'[hash]? = firstWith hash txs

theorem neverReplaced_iff_or {pool' : PoolTx} :
    NeverReplaced pool pool' txs ↔ ∀ hash : String, pool'[hash]? = pool[hash]?.or (firstWith hash txs) := by
  constructor
  · rintro ⟨hknown, hfirst⟩ hash
    cases hp : pool[hash]? with
    | none => rw [hfirst hash hp, Option.none_or]
    | some tx => rw [hknown hash tx hp, Option.some_or]
  · intro h
    refine ⟨fun hash tx hp => ?_, fun hash hp => ?_⟩
    · rw [h, hp, Option.some_or]
    · rw [h, hp, Option.none_or]

/-- A hash that no transaction carries has no first and no last one. -/
theorem firstWith_eq_none : firstWith hash txs = none ↔ ∀ tx ∈ txs, tx.hash.text ≠ hash := by
  unfold firstWith
  simp

/-- The entries after a batch, where it is enough to look at the hashes of the batch. -/
theorem addTransactions_eq_iff {g : String → Option Transaction}
    (hg : ∀ hash, (∀ tx ∈ txs, tx.hash.text ≠ hash) → g hash = pool[hash]?) :
    (∀ hash, (pool.addTransactions txs).1[hash]? = g hash) ↔
      ∀ tx ∈ txs, lastWith tx.hash.text txs = g tx.hash.text := by
  constructor
  · intro h tx htx
    have heq := h tx.hash.text
    rw [getElem?_addTransactions] at heq
    cases hlast : lastWith tx.hash.text txs with
    | none => exact absurd rfl (lastWith_eq_none.mp hlast tx htx)
    | some t =>
      rw [hlast, Option.some_or] at heq
      exact heq
  · intro h hash
    rw [getElem?_addTransactions]
    cases hlast : lastWith hash txs with
    | none => rw [hg hash (lastWith_eq_none.mp hlast), Option.none_or]
    | some t =>
      obtain ⟨ht, rfl⟩ := mem_of_lastWith hlast
      rw [← h t ht, hlast, Option.some_or]

/-- **When no transaction is replaced.**  `add_transaction` leaves what is in the pool as it was exactly if the pool has
nothing else under the hash.  `add_transactions` leaves it as it was, and keeps the first transaction with each new
hash, exactly if the last transaction of the batch with a hash is the one in the pool or, where there is none, the
first one of the batch. -/
theorem never_replaced_iff (pool : PoolTx) :
    (∀ tx : Transaction, NeverReplaced pool (pool.addTransaction tx).1 [tx] ↔
        ∀ t, pool[tx.hash.text]? = some t → t = tx) ∧
      ∀ txs, NeverReplaced pool (pool.addTransactions txs).1 txs ↔
        ∀ tx ∈ txs, lastWith tx.hash.text txs = pool[tx.hash.text]?.or (firstWith tx.hash.text txs) := by
  have hbatch : ∀ txs, NeverReplaced pool (pool.addTransactions txs).1 txs ↔
      ∀ tx ∈ txs, lastWith tx.hash.text txs = pool[tx.hash.text]?.or (firstWith tx.hash.text txs) := by
    intro txs
    refine neverReplaced_iff_or.trans (addTransactions_eq_iff fun hash hno => ?_)
    rw [firstWith_eq_none.mpr hno, Option.or_none]
  refine ⟨fun tx => ?_, hbatch⟩
  have hone := hbatch [tx]
  have hfirst : firstWith tx.hash.text [tx] = some tx := List.find?_cons_of_pos (decide_eq_true rfl)
  have hlast : lastWith tx.hash.text [tx] = some tx := hfirst
  rw [addTransaction_eq, List.forall_mem_singleton, hlast, hfirst] at hone
  rw [hone]
  cases pool[tx.hash.text]? with
  | none => simp
  | some t => simp [eq_comm]

/-- The pool has a transaction, and another one with the same hash takes its place, though no hash is reported.  In a
batch, the second transaction with a new hash takes the place of the first. -/
theorem known_hash_replaced :
    (addTransaction (addTransaction ∅ payA).1 (pay payA.hash 9)).2 = none ∧
      (addTransaction (addTransaction ∅ payA).1 (pay payA.hash 9)).1[payA.hash.text]? = some (pay payA.hash 9) ∧
      ¬ NeverReplaced (addTransaction ∅ payA).1 (addTransaction (addTransaction ∅ payA).1 (pay payA.hash 9)).1
        [pay payA.hash 9] ∧
      ¬ NeverReplaced ∅ (addTransactions ∅ [payA, pay payA.hash 9]).1 [payA, pay payA.hash 9] := by
  have hpool : (addTransaction ∅ payA).1[payA.hash.text]? = some payA := Table.getElem?_insert_self _ _ _
  have hnew : (addTransaction (addTransaction ∅ payA).1 (pay payA.hash 9)).1[payA.hash.text]? =
      some (pay payA.hash 9) := Table.getElem?_insert_self _ _ _
  have hne : pay payA.hash 9 ≠ payA := by decide
  refine ⟨?_, hnew, fun h => ?_, fun h => ?_⟩
  · show (if (addTransaction ∅ payA).1[payA.hash.text]?.isNone then some payA.hash.text else none) = none
    rw [hpool]
    rfl
  · exact hne (Option.some.inj (hnew.symm.trans (h.known _ _ hpool)))
  · have hfirst := h.first payA.hash.text Std.ExtTreeMap.getElem?_empty
    rw [getElem?_addTransactions] at hfirst
    exact hne (Option.some.inj hfirst)

/-! ## A broadcast that fails -/

/-- If the call fails, the pool is as it was, and the call can be made again with the same effect. -/
def Restores (pool : PoolTx) (txs : List Transaction) (outcome : RequestResponse Unit) : Prop :=
  ∀ e, (pool.addTransactionsAndBroadcast txs outcome).result = .error e →
    (pool.addTransactionsAndBroadcast txs outcome).pool = pool ∧
      ∀ outcome', ((pool.addTransactionsAndBroadcast txs outcome).pool.addTransactionsAndBroadcast txs
        outcome').broadcast = (pool.addTransactionsAndBroadcast txs outcome).broadcast

/-- **When a failed broadcast strands no transaction.**  A call that fails leaves the pool as it was, so that calling
again broadcasts the same transactions, exactly if the broadcast did not fail or the batch changes nothing: the last
transaction of the batch with a hash is the one in the pool. -/
theorem restores_iff (pool : PoolTx) (txs : List Transaction) (outcome : RequestResponse Unit) :
    Restores pool txs outcome ↔
      outcome = .ok () ∨ ∀ tx ∈ txs, lastWith tx.hash.text txs = pool[tx.hash.text]? := by
  have hsame : (pool.addTransactions txs).1 = pool ↔ ∀ tx ∈ txs, lastWith tx.hash.text txs = pool[tx.hash.text]? := by
    rw [← addTransactions_eq_iff fun hash _ => rfl]
    exact ⟨fun h hash => by rw [h], Std.ExtTreeMap.ext_getElem?⟩
  cases outcome with
  | ok u =>
    refine ⟨fun _ => .inl rfl, fun _ e he => ?_⟩
    cases he
  | error e =>
    rw [← hsame]
    constructor
    · intro h
      exact .inr (h e rfl).1
    · rintro (⟨⟨⟩⟩ | h) e' -
      refine ⟨h, fun outcome' => ?_⟩
      show (addTransactionsAndBroadcast (pool.addTransactions txs).1 txs outcome').broadcast = _
      rw [h]
      rfl

theorem broadcast_singleton (pool : PoolTx) (tx : Transaction) (outcome : RequestResponse Unit) :
    (pool.addTransactionsAndBroadcast [tx] outcome).broadcast = if pool[tx.hash.text]? = none then [tx] else [] := by
  unfold addTransactionsAndBroadcast
  rw [addTransaction_eq]
  unfold addTransaction
  cases pool[tx.hash.text]? with
  | none => simp
  | some t => simp

/-- The broadcast of a new transaction fails.  It stays in the pool, and a second call broadcasts nothing. -/
theorem failed_broadcast_strands :
    (addTransactionsAndBroadcast ∅ [payA] (.error .publishError)).result = .error .publishError ∧
      (addTransactionsAndBroadcast ∅ [payA] (.error .publishError)).broadcast = [payA] ∧
      ((addTransactionsAndBroadcast ∅ [payA] (.error .publishError)).pool.addTransactionsAndBroadcast [payA]
        (.ok ())).broadcast = [] ∧
      ¬ Restores ∅ [payA] (.error .publishError) := by
  have hempty : (∅ : PoolTx)[payA.hash.text]? = none := Std.ExtTreeMap.getElem?_empty
  have hfirst : (addTransactionsAndBroadcast ∅ [payA] (.error .publishError)).broadcast = [payA] := by
    rw [broadcast_singleton, if_pos hempty]
  have hsecond : ((addTransactionsAndBroadcast ∅ [payA] (.error .publishError)).pool.addTransactionsAndBroadcast [payA]
      (.ok ())).broadcast = [] := by
    have hpool : (addTransactions ∅ [payA]).1[payA.hash.text]? = some payA := by
      rw [getElem?_addTransactions]
      rfl
    rw [broadcast_singleton, if_neg]
    intro hnone
    cases hpool.symm.trans hnone
  refine ⟨rfl, hfirst, hsecond, fun h => ?_⟩
  have hagain := (h _ rfl).2 (.ok ())
  rw [hsecond, hfirst] at hagain
  cases hagain

/-! ## What is broadcast -/

/-- The hashes of a batch. -/
def hashes (txs : List Transaction) : List String := txs.map fun tx => tx.hash.text

@[simp] theorem hashes_nil : hashes [] = [] := rfl

@[simp] theorem hashes_cons (tx : Transaction) (txs : List Transaction) :
    hashes (tx :: txs) = tx.hash.text :: hashes txs := rfl

theorem mem_hashes {hash : String} : hash ∈ hashes txs ↔ ∃ tx ∈ txs, tx.hash.text = hash := List.mem_map

/-- One transaction is broadcast for each hash of `added`, in this order, and it is the one that the pool has. -/
structure Added.BroadcastsEach (a : Added) (added : List String) : Prop where
  hashes : hashes a.broadcast = added
  stored : ∀ tx ∈ a.broadcast, a.pool[tx.hash.text]? = some tx

/-- No hash that is new to the pool occurs twice. -/
def NewOnce (pool : PoolTx) (txs : List Transaction) : Prop :=
  ∀ hash : String, pool[hash]? = none → (hashes txs).count hash ≤ 1

theorem mem_addTransactions {hash : String} :
    hash ∈ (pool.addTransactions txs).2 ↔ pool[hash]? = none ∧ hash ∈ hashes txs := by
  have hlast : hash ∈ hashes txs ↔ lastWith hash txs ≠ none := by
    rw [mem_hashes, Ne, lastWith_eq_none]
    simp
  rw [← List.count_pos_iff, count_addTransactions, hlast]
  split
  · simp_all
  · simp_all

/-- The filter keeps what is new to the pool. -/
theorem broadcast_eq (pool : PoolTx) (txs : List Transaction) (outcome : RequestResponse Unit) :
    (pool.addTransactionsAndBroadcast txs outcome).broadcast = txs.filter fun tx => pool[tx.hash.text]? = none := by
  refine List.filter_congr fun tx htx => ?_
  rw [decide_eq_decide, mem_addTransactions]
  exact and_iff_left (mem_hashes.mpr ⟨tx, htx, rfl⟩)

theorem hashes_broadcast (pool : PoolTx) (txs : List Transaction) (outcome : RequestResponse Unit) :
    hashes (pool.addTransactionsAndBroadcast txs outcome).broadcast =
      (hashes txs).filter fun hash => pool[hash]? = none := by
  unfold hashes
  rw [broadcast_eq, List.filter_map]
  rfl

theorem NewOnce.rest (h : NewOnce pool (tx :: txs)) : NewOnce (pool.insert tx.hash.text tx) txs := by
  intro hash hnone
  by_cases heq : hash = tx.hash.text
  · subst heq
    rw [Table.getElem?_insert_self] at hnone
    simp at hnone
  · rw [Table.getElem?_insert_of_ne _ _ heq] at hnone
    exact List.count_le_count_cons.trans (h hash hnone)

theorem not_mem_of_count {hash : String} (h : (hash :: hashes txs).count hash ≤ 1) : hash ∉ hashes txs := by
  rw [List.count_cons_self] at h
  rw [← List.count_eq_zero]
  omega

/-- What is reported of a batch that brings no new hash twice. -/
theorem addTransactions_of_newOnce (h : NewOnce pool txs) :
    (pool.addTransactions txs).2 = (hashes txs).filter fun hash => pool[hash]? = none := by
  induction txs generalizing pool with
  | nil => rfl
  | cons tx txs ih =>
    have hrest := ih h.rest
    -- after `tx`, what is new is what was new before
    have hsame : ((hashes txs).filter fun hash => (pool.insert tx.hash.text tx)[hash]? = none) =
        (hashes txs).filter fun hash => pool[hash]? = none := by
      refine List.filter_congr fun hash hmem => ?_
      by_cases heq : hash = tx.hash.text
      · subst heq
        have hknown : pool[tx.hash.text]? ≠ none := fun hnew => not_mem_of_count (h _ hnew) hmem
        rw [Table.getElem?_insert_self, decide_eq_decide]
        simpa using hknown
      · rw [Table.getElem?_insert_of_ne _ _ heq]
    rw [hsame] at hrest
    simp only [addTransactions, hrest, hashes_cons, List.filter_cons, decide_eq_true_eq, Option.isNone_iff_eq_none]
    split
    · rfl
    · rfl

theorem lastWith_of_count (htx : tx ∈ txs) (hcount : (hashes txs).count tx.hash.text ≤ 1) :
    lastWith tx.hash.text txs = some tx := by
  induction txs with
  | nil => simp at htx
  | cons t txs ih =>
    rw [lastWith_cons]
    rcases List.mem_cons.mp htx with rfl | hmem
    · have hnone : lastWith tx.hash.text txs = none := by
        rw [lastWith_eq_none]
        intro t ht heq
        exact not_mem_of_count hcount (mem_hashes.mpr ⟨t, ht, heq⟩)
      simp [hnone]
    · rw [ih hmem (List.count_le_count_cons.trans hcount), Option.some_or]

/-- **When exactly the new transactions are broadcast.**  The answer of `add_transactions_and_broadcast` is the list of
the hashes that `add_transactions` reports.  One transaction is broadcast for each of them, in the same order, and it is
the one that is now in the pool, exactly if the batch brings no hash twice that is new to the pool. -/
theorem broadcastsEach_iff (pool : PoolTx) (txs : List Transaction) (outcome : RequestResponse Unit) :
    (pool.addTransactionsAndBroadcast txs outcome).result = outcome.map (fun _ => (pool.addTransactions txs).2) ∧
      ((pool.addTransactionsAndBroadcast txs outcome).BroadcastsEach (pool.addTransactions txs).2 ↔
        NewOnce pool txs) := by
  refine ⟨rfl, fun h hash hnew => ?_, fun h => ⟨?_, fun tx htx => ?_⟩⟩
  · -- the filter keeps every occurrence of a new hash, and the report has it once at most
    have hcount := count_addTransactions pool txs hash
    rw [← h.hashes, hashes_broadcast, List.count_filter (by simpa using hnew)] at hcount
    rw [hcount]
    split
    · exact le_rfl
    · exact Nat.zero_le 1
  · rw [hashes_broadcast, addTransactions_of_newOnce h]
  · rw [broadcast_eq, List.mem_filter, decide_eq_true_eq] at htx
    show (pool.addTransactions txs).1[tx.hash.text]? = some tx
    rw [getElem?_addTransactions, lastWith_of_count htx.1 (h _ htx.2), Option.some_or]

/-- Two transactions with one new hash in a batch: one hash is reported, and both are broadcast, also the one that the
pool no longer has. -/
theorem new_hash_twice :
    (addTransactionsAndBroadcast ∅ [payA, pay payA.hash 9] (.ok ())).result = .ok [payA.hash.text] ∧
      (addTransactionsAndBroadcast ∅ [payA, pay payA.hash 9] (.ok ())).broadcast = [payA, pay payA.hash 9] ∧
      (addTransactionsAndBroadcast ∅ [payA, pay payA.hash 9] (.ok ())).pool[payA.hash.text]? =
        some (pay payA.hash 9) ∧
      ¬ (addTransactionsAndBroadcast ∅ [payA, pay payA.hash 9] (.ok ())).BroadcastsEach [payA.hash.text] := by
  have hempty : (∅ : PoolTx)[payA.hash.text]? = none := Std.ExtTreeMap.getElem?_empty
  have hsame : (pay payA.hash 9).hash.text = payA.hash.text := rfl
  have hadded : (addTransactions ∅ [payA, pay payA.hash 9]).2 = [payA.hash.text] := by
    simp only [addTransactions, hempty, hsame, Table.getElem?_insert_self]
    rfl
  have hbroadcast : (addTransactionsAndBroadcast ∅ [payA, pay payA.hash 9] (.ok ())).broadcast =
      [payA, pay payA.hash 9] := by
    rw [broadcast_eq]
    simp
  refine ⟨congrArg Except.ok hadded, hbroadcast, ?_, fun h => ?_⟩
  · show (addTransactions ∅ [payA, pay payA.hash 9]).1[payA.hash.text]? = _
    rw [getElem?_addTransactions]
    rfl
  · have hhashes := h.hashes
    rw [hbroadcast] at hhashes
    simp at hhashes

end Simb.PoolTx
