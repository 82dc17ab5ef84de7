import Mathlib

/-!
# Runs of a step function

A run of `f : σ → α → σ` from `s` is a list of inputs.  `EveryState f I s as` says that `I` holds in every
state of the run, the first and the last included, and `EveryStep f C s as` that every step of it meets
`C`, a condition on the state before the step and its input.
-/

namespace Simb.Lib

/-- A step that may fail, and did not. -/
theorem exists_of_bind_eq_ok {ε α β : Type} {x : Except ε α} {f : α → Except ε β} {b : β} (h : (x >>= f) = .ok b) :
    ∃ a, x = .ok a ∧ f a = .ok b := by
  cases x with
  | error e => cases h
  | ok a => exact ⟨a, rfl, h⟩

/-- A step whose errors are renamed. -/
theorem mapError_eq_ok_iff {ε ε' α : Type} {x : Except ε α} {f : ε → ε'} {a : α} : x.mapError f = .ok a ↔ x = .ok a := by
  cases x with
  | error e => simp [Except.mapError]
  | ok b => simp [Except.mapError]

/-- A sequence of two steps that failed: the first did, or the second. -/
theorem bind_eq_error_iff {ε α β : Type} {x : Except ε α} {f : α → Except ε β} {e : ε} :
    (x >>= f) = .error e ↔ x = .error e ∨ ∃ a, x = .ok a ∧ f a = .error e := by
  cases x with
  | error e' =>
    show Except.error e' = _ ↔ _
    simp
  | ok a =>
    show f a = _ ↔ _
    simp

variable {σ α : Type*} {f : σ → α → σ} {I J : σ → Prop} {C D : σ → α → Prop} {s : σ} {as : List α}

/-- `I` holds in every state of the run. -/
def EveryState (f : σ → α → σ) (I : σ → Prop) : σ → List α → Prop
  | s, [] => I s
  | s, a :: as => I s ∧ EveryState f I (f s a) as

/-- Every step of the run meets `C`. -/
def EveryStep (f : σ → α → σ) (C : σ → α → Prop) : σ → List α → Prop
  | _, [] => True
  | s, a :: as => C s a ∧ EveryStep f C (f s a) as

theorem EveryState.head (h : EveryState f I s as) : I s := by
  cases as with
  | nil => exact h
  | cons a as => exact h.1

/-- **Guarded invariant.**  What every step that meets `C` preserves holds all along a run of such steps. -/
theorem everyState_of_everyStep (hI : ∀ s a, I s → C s a → I (f s a)) (h0 : I s) (h : EveryStep f C s as) :
    EveryState f I s as := by
  induction as generalizing s with
  | nil => exact h0
  | cons a as ih => exact ⟨h0, ih (hI s a h0 h.1) h.2⟩

/-- What follows from a guarded invariant for every step. -/
theorem EveryStep.of_invariant (hI : ∀ s a, I s → C s a → I (f s a)) (hD : ∀ s a, I s → C s a → D s a) (h0 : I s)
    (h : EveryStep f C s as) : EveryStep f D s as := by
  induction as generalizing s with
  | nil => trivial
  | cons a as ih => exact ⟨hD s a h0 h.1, ih (hI s a h0 h.1) h.2⟩

theorem EveryStep.and_mem {E : α → Prop} (h : EveryStep f C s as) (hE : ∀ a ∈ as, E a) :
    EveryStep f (fun s a => C s a ∧ E a) s as := by
  induction as generalizing s with
  | nil => trivial
  | cons a as ih =>
    exact ⟨⟨h.1, hE a List.mem_cons_self⟩, ih h.2 fun b hb => hE b (List.mem_cons_of_mem a hb)⟩

theorem EveryState.mono (h : EveryState f I s as) (hIJ : ∀ s, I s → J s) : EveryState f J s as := by
  induction as generalizing s with
  | nil => exact hIJ s h
  | cons a as ih => exact ⟨hIJ s h.1, ih h.2⟩

theorem everyStep_append {bs : List α} :
    EveryStep f C s (as ++ bs) ↔ EveryStep f C s as ∧ EveryStep f C (as.foldl f s) bs := by
  induction as generalizing s with
  | nil => simp [EveryStep]
  | cons a as ih => simp [EveryStep, ih, and_assoc]

theorem everyStep_true (f : σ → α → σ) (s : σ) (as : List α) : EveryStep f (fun _ _ => True) s as := by
  induction as generalizing s with
  | nil => trivial
  | cons a as ih => exact ⟨trivial, ih (f s a)⟩

/-- **Simulation.**  If every step that meets `C` is matched by some steps of `g` that meet `D`, a run of such steps is
matched by a run of `g`. -/
theorem EveryStep.exists_run {τ β : Type*} {g : τ → β → τ} {D : τ → β → Prop} {R : σ → τ → Prop} {t : τ}
    (hR : ∀ s t a, R s t → C s a → ∃ bs, EveryStep g D t bs ∧ R (f s a) (bs.foldl g t)) (h0 : R s t)
    (h : EveryStep f C s as) : ∃ bs, EveryStep g D t bs ∧ R (as.foldl f s) (bs.foldl g t) := by
  induction as generalizing s t with
  | nil => exact ⟨[], trivial, h0⟩
  | cons a as ih =>
    obtain ⟨bs, hbs, hnext⟩ := hR s t a h0 h.1
    obtain ⟨bs', hbs', hlast⟩ := ih hnext h.2
    refine ⟨bs ++ bs', everyStep_append.mpr ⟨hbs, hbs'⟩, ?_⟩
    rw [List.foldl_append]
    exact hlast

/-- **Exact condition, in runs of a kind.**  In a run whose steps all meet `D`, when a step from a state where `I`
holds leads to one where it holds exactly if it meets `C`, `I` holds all along the run exactly if every step of it
meets `C`.  `J` is what is known of every state anyway. -/
theorem EveryStep.everyState_iff (hJ : ∀ s a, J s → D s a → J (f s a))
    (hstep : ∀ s a, J s → D s a → I s → (I (f s a) ↔ C s a)) (hJ0 : J s) (hI0 : I s) (hD : EveryStep f D s as) :
    EveryState f I s as ↔ EveryStep f C s as := by
  induction as generalizing s with
  | nil => simp [EveryState, EveryStep, hI0]
  | cons a as ih =>
    have hs := hstep s a hJ0 hD.1 hI0
    constructor
    · rintro ⟨-, h⟩
      have h1 := h.head
      exact ⟨hs.1 h1, (ih (hJ s a hJ0 hD.1) h1 hD.2).1 h⟩
    · rintro ⟨hc, h⟩
      have h1 := hs.2 hc
      exact ⟨hI0, (ih (hJ s a hJ0 hD.1) h1 hD.2).2 h⟩

/-- **Exact condition.**  The same for all runs. -/
theorem everyState_iff_everyStep (hJ : ∀ s a, J s → J (f s a))
    (hstep : ∀ s a, J s → I s → (I (f s a) ↔ C s a)) (hJ0 : J s) (hI0 : I s) :
    EveryState f I s as ↔ EveryStep f C s as :=
  (everyStep_true f s as).everyState_iff (fun s a h _ => hJ s a h) (fun s a h _ => hstep s a h) hJ0 hI0

end Simb.Lib
