import Mathlib

/-!
# Programs of atomic transactions on a shared store

A method that locks a store several times is, for the other users of the store, a sequence of atomic
transactions.  `Prog σ α` keeps that sequence, and has two readings:

* `Prog.run`: nobody else touches the store, so the transactions happen one after the other;
* `Pool.act`: any number of programs run at once, and between two transactions of one of them the
  others may commit theirs.
-/

namespace Simb.Lib

/-- A program on a store `σ`: finished with a result, or one transaction, that commits a new store and
goes on from what it read. -/
inductive Prog (σ α : Type) where
  | done (a : α)
  | txn (commit : σ → σ) (next : σ → Prog σ α)

namespace Prog

variable {σ α β ε : Type}

/-- Sequential composition. -/
def bind : Prog σ α → (α → Prog σ β) → Prog σ β
  | done a, f => f a
  | txn c k, f => txn c fun s => (k s).bind f

instance : Monad (Prog σ) where
  pure := done
  bind := bind

/-- The transaction that reads `f` and leaves the store alone. -/
def read (f : σ → α) : Prog σ α := txn id fun s => done (f s)

/-- The transaction that replaces the store. -/
def write (f : σ → σ) : Prog σ Unit := txn f fun _ => done ()

/-- The program alone on the store: its result and the store it leaves. -/
def run : Prog σ α → σ → α × σ
  | done a, s => (a, s)
  | txn c k, s => (k s).run (c s)

/-- The result of a run. -/
def eval (p : Prog σ α) (s : σ) : α := (p.run s).1

/-- The store after a run. -/
def exec (p : Prog σ α) (s : σ) : σ := (p.run s).2

/-- What is left of a program after its first transaction, on the store `s`. -/
def after : Prog σ α → σ → Prog σ α
  | done a, _ => done a
  | txn _ k, s => k s

theorem run_bind (p : Prog σ α) (f : α → Prog σ β) (s : σ) :
    (p >>= f).run s = (f (p.run s).1).run (p.run s).2 := by
  show (p.bind f).run s = _
  induction p generalizing s with
  | done a => rfl
  | txn c k ih => exact ih s (c s)

/-- A run of a fallible program goes on only after a success. -/
theorem run_exceptT_bind (x : ExceptT ε (Prog σ) α) (f : α → ExceptT ε (Prog σ) β) (s : σ) :
    Prog.run (x >>= f : ExceptT ε (Prog σ) β).run s =
      match Prog.run x.run s with
      | (.ok a, s') => Prog.run (f a).run s'
      | (.error e, s') => (.error e, s') := by
  rw [ExceptT.run_bind, run_bind]
  rcases h : Prog.run x.run s with ⟨_ | a, s'⟩ <;> rfl

end Prog

/-! ## Interleaving -/

/-- In a list with entry `k` replaced, an entry is the new one or an old one elsewhere. -/
theorem getElem?_set_cases {α : Type} {xs : List α} {a x : α} {i k : ℕ} (hx : (xs.set k a)[i]? = some x) :
    (i = k ∧ x = a) ∨ (i ≠ k ∧ xs[i]? = some x) := by
  rw [List.getElem?_set] at hx
  by_cases hik : k = i
  · rw [if_pos hik] at hx
    split at hx
    · exact .inl ⟨hik.symm, (Option.some.inj hx).symm⟩
    · cases hx
  · rw [if_neg hik] at hx
    exact .inr ⟨Ne.symm hik, hx⟩

/-- A store and the programs at work on it, each with the call `ι` it was started by. -/
structure Pool (σ ι α : Type) where
  store : σ
  threads : List (ι × Prog σ α)

/-- What can happen next in a pool: a new call starts, or thread `k` makes its next transaction. -/
inductive Act (ι : Type) where
  | call (i : ι)
  | exec (k : ℕ)

namespace Pool

variable {σ ι α : Type}

/-- One step of a pool.  A thread that has finished, or does not exist, does nothing. -/
def act (body : ι → Prog σ α) (c : Pool σ ι α) : Act ι → Pool σ ι α
  | .call i => ⟨c.store, c.threads ++ [(i, body i)]⟩
  | .exec k =>
    match c.threads[k]? with
    | some (i, .txn commit next) => ⟨commit c.store, c.threads.set k (i, next c.store)⟩
    | _ => c

variable {body : ι → Prog σ α} {c : Pool σ ι α} {k : ℕ} {i : ι}

theorem act_exec_txn {commit : σ → σ} {next : σ → Prog σ α}
    (h : c.threads[k]? = some (i, .txn commit next)) :
    c.act body (.exec k) = ⟨commit c.store, c.threads.set k (i, next c.store)⟩ := by
  simp only [act, h]

theorem act_exec_done {a : α} (h : c.threads[k]? = some (i, .done a)) : c.act body (.exec k) = c := by
  simp only [act, h]

theorem act_exec_none (h : c.threads[k]? = none) : c.act body (.exec k) = c := by
  simp only [act, h]

end Pool

end Simb.Lib
