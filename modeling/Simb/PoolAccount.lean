import Simb.PoolSpec

/-!
# What goes into the pool comes out once

An `Account` keeps, over a run of calls, the hashes that were reported as added and the transactions that `next`
returned.  It is balanced (`Balanced`): each hash was reported as often as it was returned, and once more if it is in
the pool.  The report of a call is what makes it so: a hash that is known is not reported again as long as it is in the
pool, and it is once it has been taken out.
-/

namespace Simb.PoolTx

open Simb.Lib

/-- A call that adds to the pool, or takes out of it. -/
inductive Step where
  | add (call : Call)
  | next

/-- A run so far. -/
structure Account where
  pool : PoolTx
  /-- The hashes that were reported as added. -/
  reported : List String
  /-- What `next` returned. -/
  taken : List Transaction

namespace Account

/-- A new pool. -/
def empty : Account := ⟨∅, [], []⟩

def apply (a : Account) : Step → Account
  | .add call =>
    let (pool, added) := call.apply a.pool
    { a with pool, reported := a.reported ++ added }
  | .next =>
    let (pool, tx) := a.pool.next
    { a with pool, taken := a.taken ++ tx.toList }

/-- The account after some calls. -/
def after (a : Account) (steps : List Step) : Account := steps.foldl apply a

/-- The pool has a transaction under its own hash only, and each hash was reported as often as it was returned, and once
more if it is in the pool. -/
structure Balanced (a : Account) : Prop where
  keyed : ∀ (hash : String) (tx : Transaction), a.pool[hash]? = some tx → tx.hash.text = hash
  count : ∀ hash : String,
    a.reported.count hash = (hashes a.taken).count hash + if a.pool[hash]? = none then 0 else 1

variable {a : Account}

/-! ## The calls -/

theorem balanced_empty : empty.Balanced where
  keyed hash tx h := by
    change (∅ : PoolTx)[hash]? = some tx at h
    simp at h
  count hash := by simp [empty]

/-- A hash is reported if it was not in the pool, and now it is. -/
theorem Balanced.add (h : a.Balanced) (call : Call) : (a.apply (.add call)).Balanced := by
  have hpool := getElem?_addTransactions a.pool call.transactions
  have hadded := count_addTransactions a.pool call.transactions
  rw [← call.apply_eq] at hpool hadded
  constructor
  · intro hash tx htx
    change (call.apply a.pool).1[hash]? = some tx at htx
    rw [hpool, Option.or_eq_some_iff] at htx
    rcases htx with hlast | ⟨-, hold⟩
    · exact (mem_of_lastWith hlast).2
    · exact h.keyed hash tx hold
  · intro hash
    have hcount := h.count hash
    show (a.reported ++ (call.apply a.pool).2).count hash =
      (hashes a.taken).count hash + if (call.apply a.pool).1[hash]? = none then 0 else 1
    simp only [List.count_append, hadded, hpool, hcount, Option.or_eq_none_iff]
    by_cases hnew : a.pool[hash]? = none
    · by_cases hlast : lastWith hash call.transactions = none
      · simp [hnew, hlast]
      · simp [hnew, hlast]
    · simp [hnew]

/-- What `next` finds in a pool that is not empty, and in one that is. -/
theorem next_cases (h : a.Balanced) :
    (a.pool.next = (a.pool, none) ∧ ∀ hash : String, a.pool[hash]? = none) ∨
      ∃ tx, a.pool[tx.hash.text]? = some tx ∧ (∀ hash : String, a.pool[hash]? ≠ none → tx.hash.text ≤ hash) ∧
        a.pool.next = (a.pool.erase tx.hash.text, some tx) := by
  by_cases hempty : ∀ hash : String, a.pool[hash]? = none
  · left
    refine ⟨?_, hempty⟩
    unfold next
    rw [Table.popFirst_of_empty hempty]
    rfl
  · right
    obtain ⟨hash, hhash⟩ := not_forall.mp hempty
    obtain ⟨k, tx, hk, hmin, hpop⟩ := Table.exists_popFirst hhash
    obtain rfl := h.keyed k tx hk
    refine ⟨tx, hk, fun i hi => ?_, ?_⟩
    · rw [← compare_le_iff_le]
      exact Ordering.isLE_iff_ne_gt.mp (hmin i hi)
    unfold next
    rw [hpop]
    rfl

/-- What is taken out leaves the pool. -/
theorem Balanced.next (h : a.Balanced) : (a.apply .next).Balanced := by
  rcases next_cases h with ⟨hnext, -⟩ | ⟨tx, htx, -, hnext⟩
  · have hsame : a.apply .next = a := by
      unfold apply
      simp [hnext]
    rw [hsame]
    exact h
  · have hafter : a.apply .next = { a with pool := a.pool.erase tx.hash.text, taken := a.taken ++ [tx] } := by
      unfold apply
      simp [hnext]
    rw [hafter]
    constructor
    · intro hash t ht
      change (a.pool.erase tx.hash.text)[hash]? = some t at ht
      by_cases heq : hash = tx.hash.text
      · subst heq
        rw [Table.getElem?_erase_self] at ht
        simp at ht
      · rw [Table.getElem?_erase_of_ne _ heq] at ht
        exact h.keyed hash t ht
    · intro hash
      have hcount := h.count hash
      show a.reported.count hash = (hashes (a.taken ++ [tx])).count hash +
        if (a.pool.erase tx.hash.text)[hash]? = none then 0 else 1
      rw [hcount]
      unfold hashes
      rw [List.map_append, List.count_append]
      by_cases heq : hash = tx.hash.text
      · subst heq
        rw [Table.getElem?_erase_self, htx]
        simp
      · rw [Table.getElem?_erase_of_ne _ heq]
        simp [Ne.symm heq]

/-! ## Runs -/

theorem Balanced.apply (h : a.Balanced) (step : Step) : (a.apply step).Balanced := by
  cases step with
  | add call => exact h.add call
  | next => exact h.next

theorem Balanced.after (h : a.Balanced) (steps : List Step) : (a.after steps).Balanced := by
  induction steps generalizing a with
  | nil => exact h
  | cons step steps ih => exact ih (h.apply step)

/-- The hashes in the pool, as often as they are found. -/
theorem count_keys (pool : PoolTx) (hash : String) : pool.keys.count hash = if pool[hash]? = none then 0 else 1 := by
  have hmem : hash ∈ pool.keys ↔ pool[hash]? ≠ none := by
    rw [Std.ExtTreeMap.mem_keys, Std.ExtTreeMap.mem_iff_isSome_getElem?, Option.isSome_iff_ne_none]
  rw [List.Nodup.count Std.ExtTreeMap.nodup_keys]
  simp only [hmem]
  split
  · simp_all
  · simp_all

/-- Everything that was reported is returned or in the pool. -/
theorem Balanced.perm (h : a.Balanced) : a.reported.Perm (hashes a.taken ++ a.pool.keys) := by
  rw [List.perm_iff_count]
  intro hash
  rw [List.count_append, count_keys]
  exact h.count hash

/-- Nothing is in the pool exactly if everything that was reported is returned. -/
theorem Balanced.empty_iff (h : a.Balanced) :
    (∀ hash : String, a.pool[hash]? = none) ↔ a.reported.Perm (hashes a.taken) := by
  rw [List.perm_iff_count]
  refine forall_congr' fun hash => ?_
  rw [h.count hash]
  split
  · simp_all
  · simp_all

end Account

/-- **The pool conserves transactions.**  After any calls of `add_transaction`, `add_transactions` and `next` on a new
pool, in any order, the hashes that were reported as added are those of the transactions that `next` returned and those
in the pool, each as often.  A further `next` returns a transaction exactly if it is in the pool and no hash there is
less than its own, which takes it out, and it returns none exactly if every report has been returned. -/
theorem pool_conserves (steps : List Step) :
    let a := Account.empty.after steps
    a.reported.Perm (hashes a.taken ++ a.pool.keys) ∧ a.pool.keys.Nodup ∧
      (∀ tx, a.pool.next.2 = some tx ↔
        a.pool[tx.hash.text]? = some tx ∧ ∀ hash : String, a.pool[hash]? ≠ none → tx.hash.text ≤ hash) ∧
      (∀ tx, a.pool.next.2 = some tx → a.pool.next.1 = a.pool.erase tx.hash.text) ∧
      (a.pool.next.2 = none ↔ a.reported.Perm (hashes a.taken)) := by
  intro a
  have h : a.Balanced := Account.balanced_empty.after steps
  refine ⟨h.perm, Std.ExtTreeMap.nodup_keys, ?_⟩
  rw [← h.empty_iff]
  rcases Account.next_cases h with ⟨hnext, hempty⟩ | ⟨t, ht, hmin, hnext⟩
  · rw [hnext]
    simp_all
  · rw [hnext]
    refine ⟨fun tx => ?_, ?_, ?_⟩
    · constructor
      · rintro ⟨⟩
        exact ⟨ht, hmin⟩
      · rintro ⟨htx, hleast⟩
        have heq : tx.hash.text = t.hash.text :=
          le_antisymm (hleast _ (by simp [ht])) (hmin _ (by simp [htx]))
        rw [heq, ht] at htx
        exact htx
    · rintro _ ⟨⟩
      rfl
    · refine iff_of_false (by simp) fun hempty => ?_
      rw [hempty] at ht
      simp at ht

end Simb.PoolTx
