import Simb.Lib.Run
import Simb.Lib.Txn

/-!
# Programs that rely on each other

Programs on a shared store can keep an accord: each of their transactions keeps an invariant and lets the store grow.  Then
each of them may rely on that whatever the others commit in between.  `Prog.Safe A Q p s` says that the program `p`, at a
point where the store is `s`, keeps the accord `A` to its end, and that its result meets `Q` from then on.  The rules follow
the construction of programs (`Safe.read`, `Safe.write`, `Safe.bind`).

Programs that are safe one by one are safe together, in any interleaving, and also when the whole pool is lost and the store
recovered (`Pool.Kept.step`).
-/

namespace Simb.Lib

/-- What the programs on a store agree to keep. -/
structure Accord (σ : Type) where
  /-- What holds of the store. -/
  inv : σ → Prop
  /-- Where transactions are made. -/
  guard : σ → Prop
  /-- How the store changes. -/
  grows : σ → σ → Prop
  refl : ∀ s, grows s s
  trans : ∀ {s t u}, grows s t → grows t u → grows s u

namespace Prog

variable {σ α β ε : Type} {A : Accord σ} {Q : σ → α → Prop} {R : σ → β → Prop} {p : Prog σ α} {s t : σ}

/-- The program keeps the accord, and its result meets `Q` from then on. -/
def Safe (A : Accord σ) (Q : σ → α → Prop) : Prog σ α → σ → Prop
  | done a, s => ∀ t, A.inv t → A.grows s t → Q t a
  | txn commit next, s => ∀ t, A.inv t → A.guard t → A.grows s t →
      A.inv (commit t) ∧ A.grows t (commit t) ∧ Safe A Q (next t) (commit t)

/-- Others may interfere. -/
theorem Safe.grow (h : p.Safe A Q s) (hst : A.grows s t) : p.Safe A Q t := by
  cases p with
  | done a => exact fun u hu htu => h u hu (A.trans hst htu)
  | txn commit next => exact fun u hu hguard htu => h u hu hguard (A.trans hst htu)

theorem Safe.mono {R : σ → α → Prop} (h : p.Safe A Q s) (hR : ∀ t a, A.inv t → Q t a → R t a) : p.Safe A R s := by
  induction p generalizing s with
  | done a => exact fun t ht hst => hR t a ht (h t ht hst)
  | txn commit next ih =>
    intro t ht hguard hst
    obtain ⟨hinv, hgrows, hnext⟩ := h t ht hguard hst
    exact ⟨hinv, hgrows, ih t hnext⟩

theorem Safe.done {a : α} (h : ∀ t, A.inv t → A.grows s t → Q t a) : (Prog.done a).Safe A Q s := h

/-- A read changes nothing. -/
theorem Safe.read {f : σ → α}
    (h : ∀ t, A.inv t → A.guard t → A.grows s t → ∀ u, A.inv u → A.grows t u → Q u (f t)) :
    (Prog.read f).Safe A Q s := fun t ht hguard hst => ⟨ht, A.refl t, h t ht hguard hst⟩

theorem Safe.write {f : σ → σ} {Q : σ → Unit → Prop} (h : ∀ t, A.inv t → A.guard t → A.grows s t →
    A.inv (f t) ∧ A.grows t (f t) ∧ ∀ u, A.inv u → A.grows (f t) u → Q u ()) : (Prog.write f).Safe A Q s := h

theorem Safe.bind {f : α → Prog σ β} (h : p.Safe A Q s) (hs : A.inv s)
    (hf : ∀ t a, A.inv t → A.grows s t → Q t a → (f a).Safe A R t) : (p >>= f).Safe A R s := by
  show (p.bind f).Safe A R s
  induction p generalizing s with
  | done a => exact hf s a hs (A.refl s) (h s hs (A.refl s))
  | txn commit next ih =>
    intro t ht hguard hst
    obtain ⟨hinv, hgrows, hnext⟩ := h t ht hguard hst
    refine ⟨hinv, hgrows, ih t hnext hinv fun u a hu htu ha => hf u a hu ?_ ha⟩
    exact A.trans hst (A.trans hgrows htu)

/-- The result meets `Q` from then on. -/
theorem Safe.always (h : p.Safe A Q s) : p.Safe A (fun t a => ∀ u, A.inv u → A.grows t u → Q u a) s := by
  induction p generalizing s with
  | done a => exact fun t ht hst u hu htu => h u hu (A.trans hst htu)
  | txn commit next ih =>
    intro t ht hguard hst
    obtain ⟨hinv, hgrows, hnext⟩ := h t ht hguard hst
    exact ⟨hinv, hgrows, ih t hnext⟩

/-- A fallible program goes on only after a success. -/
theorem Safe.bindExcept {x : ExceptT ε (Prog σ) α} {f : α → ExceptT ε (Prog σ) β} {Q : σ → Except ε α → Prop}
    {R : σ → Except ε β → Prop} (h : Prog.Safe A Q x.run s) (hs : A.inv s)
    (hok : ∀ t a, A.inv t → A.grows s t → Q t (.ok a) → Prog.Safe A R (f a).run t)
    (herror : ∀ t e, A.inv t → A.grows s t → Q t (.error e) → R t (.error e)) :
    Prog.Safe A R (x >>= f : ExceptT ε (Prog σ) β).run s := by
  rw [ExceptT.run_bind]
  refine h.always.bind hs fun t r ht hst hr => ?_
  cases r with
  | ok a => exact hok t a ht hst (hr t ht (A.refl t))
  | error e => exact fun u hu htu => herror u e hu (A.trans hst htu) (hr u hu htu)

end Prog

/-! ## Programs together -/

/-- What can happen next in a pool that may be lost. -/
inductive Fault (ι : Type) where
  | act (x : Act ι)
  | crash

namespace Pool

variable {σ ι α : Type} {body : ι → Prog σ α} {recover : σ → σ} {A : Accord σ} {Q : ι → σ → α → Prop} {c : Pool σ ι α}
  {i : ι}

/-- One step of a pool.  In a crash all threads are lost, and the store is recovered. -/
def fault (body : ι → Prog σ α) (recover : σ → σ) (c : Pool σ ι α) : Fault ι → Pool σ ι α
  | .act x => c.act body x
  | .crash => ⟨recover c.store, []⟩

/-- All threads keep the accord. -/
structure Kept (A : Accord σ) (Q : ι → σ → α → Prop) (c : Pool σ ι α) : Prop where
  inv : A.inv c.store
  safe : ∀ x ∈ c.threads, x.2.Safe A (Q x.1) c.store

/-- The result of a thread that has finished meets what it should. -/
theorem Kept.result (h : c.Kept A Q) {a : α} (hx : (i, .done a) ∈ c.threads) : Q i c.store a :=
  h.safe _ hx c.store h.inv (A.refl c.store)

/-- **Programs that are safe one by one are safe together.** -/
theorem Kept.step (h : c.Kept A Q) (hbody : ∀ i s, A.inv s → (body i).Safe A (Q i) s)
    (hrecover : ∀ s, A.inv s → A.guard s → A.inv (recover s) ∧ A.grows s (recover s)) (hguard : A.guard c.store)
    (x : Fault ι) : (c.fault body recover x).Kept A Q ∧ A.grows c.store (c.fault body recover x).store := by
  cases x with
  | crash =>
    obtain ⟨hinv, hgrows⟩ := hrecover c.store h.inv hguard
    exact ⟨⟨hinv, fun _ hx => absurd hx List.not_mem_nil⟩, hgrows⟩
  | act x =>
    show (c.act body x).Kept A Q ∧ A.grows c.store (c.act body x).store
    cases x with
    | call i =>
      refine ⟨⟨h.inv, fun x hx => ?_⟩, A.refl c.store⟩
      rcases List.mem_append.mp hx with hx | hx
      · exact h.safe x hx
      · rw [List.mem_singleton.mp hx]
        exact hbody i c.store h.inv
    | exec k =>
      cases hk : c.threads[k]? with
      | none =>
        rw [act_exec_none hk]
        exact ⟨h, A.refl c.store⟩
      | some x =>
        obtain ⟨i, p⟩ := x
        cases p with
        | done a =>
          rw [act_exec_done hk]
          exact ⟨h, A.refl c.store⟩
        | txn commit next =>
          obtain ⟨hinv, hgrows, hnext⟩ :=
            h.safe _ (List.mem_of_getElem? hk) c.store h.inv hguard (A.refl c.store)
          rw [act_exec_txn hk]
          refine ⟨⟨hinv, fun x hx => ?_⟩, hgrows⟩
          rcases List.mem_or_eq_of_mem_set hx with hx | rfl
          · exact (h.safe x hx).grow hgrows
          · exact hnext

/-- In every state of a run, the threads keep the accord, as long as transactions are made only where they may. -/
theorem Kept.everyState (h : c.Kept A Q) (hbody : ∀ i s, A.inv s → (body i).Safe A (Q i) s)
    (hrecover : ∀ s, A.inv s → A.guard s → A.inv (recover s) ∧ A.grows s (recover s)) {steps : List (Fault ι)}
    (hguard : EveryStep (fault body recover) (fun c _ => A.guard c.store) c steps) :
    EveryState (fault body recover) (Kept A Q) c steps :=
  everyState_of_everyStep (fun _ x hc hg => (hc.step hbody hrecover hg x).1) h hguard

end Pool

end Simb.Lib
