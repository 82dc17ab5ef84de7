import Mathlib

/-!
# Consecutive ranges

`Span start len a l b`: the items of `l` stand for non-empty ranges of numbers that follow each other, in the
order of `l`, from `a` to `b` (exclusive).  Read out in that order the ranges give the numbers from `a` to
`b`, and they do so in no other order (`Span.numbers_eq_iff`).
-/

namespace Simb.Lib

variable {α : Type*} {start len : α → ℕ} {a b : ℕ} {x : α} {l m : List α}

/-- The ranges of `l` follow each other from `a` to `b`. -/
def Span (start len : α → ℕ) : ℕ → List α → ℕ → Prop
  | a, [], b => a = b
  | a, x :: l, b => start x = a ∧ 0 < len x ∧ Span start len (a + len x) l b

/-- The numbers of the ranges of `l`, in the order of `l`. -/
def numbers (start len : α → ℕ) (l : List α) : List ℕ := l.flatMap fun x => List.range' (start x) (len x)

namespace Span

theorem append_singleton (h : Span start len a l b) (hx : start x = b) (hlen : 0 < len x) :
    Span start len a (l ++ [x]) (b + len x) := by
  induction l generalizing a with
  | nil =>
    cases h
    exact ⟨hx, hlen, rfl⟩
  | cons y l ih => exact ⟨h.1, h.2.1, ih h.2.2⟩

theorem le (h : Span start len a l b) : a ≤ b := by
  induction l generalizing a with
  | nil => exact h.le
  | cons y l ih =>
    have := ih h.2.2
    omega

theorem len_pos (h : Span start len a l b) (hx : x ∈ l) : 0 < len x := by
  induction l generalizing a with
  | nil => cases hx
  | cons y l ih =>
    rcases List.mem_cons.mp hx with rfl | hx
    · exact h.2.1
    · exact ih h.2.2 hx

theorem le_start (h : Span start len a l b) (hx : x ∈ l) : a ≤ start x := by
  induction l generalizing a with
  | nil => cases hx
  | cons y l ih =>
    rcases List.mem_cons.mp hx with rfl | hx
    · exact h.1.ge
    · have := ih h.2.2 hx
      omega

theorem pairwise (h : Span start len a l b) : l.Pairwise fun x y => start x < start y := by
  induction l generalizing a with
  | nil => exact .nil
  | cons y l ih =>
    obtain ⟨hy, hpos, hl⟩ := h
    refine .cons (fun x hx => ?_) (ih hl)
    have := hl.le_start hx
    omega

theorem numbers_eq (h : Span start len a l b) : numbers start len l = List.range' a (b - a) := by
  induction l generalizing a with
  | nil =>
    cases h
    simp [numbers]
  | cons y l ih =>
    obtain ⟨hy, -, hl⟩ := h
    have hle := hl.le
    have hsplit : b - a = len y + (b - (a + len y)) := by omega
    show List.range' (start y) (len y) ++ numbers start len l = _
    rw [ih hl, hy, hsplit, ← List.range'_append_1]

/-- In any other order, the ranges do not give the numbers from `a` to `b`. -/
theorem numbers_eq_iff (h : Span start len a l b) (hp : l.Perm m) :
    numbers start len m = List.range' a (b - a) ↔ m = l := by
  constructor
  · intro hm
    have hsorted : (numbers start len m).Pairwise (· < ·) := by
      rw [hm]
      exact List.pairwise_lt_range'
    have hstart : m.Pairwise fun x y => start x < start y := by
      refine (List.pairwise_flatMap.mp hsorted).2.imp_of_mem fun {x y} hx hy hxy => ?_
      have hx0 := h.len_pos (hp.mem_iff.mpr hx)
      have hy0 := h.len_pos (hp.mem_iff.mpr hy)
      exact hxy _ (List.mem_range'_1.mpr ⟨le_rfl, by omega⟩) _ (List.mem_range'_1.mpr ⟨le_rfl, by omega⟩)
    refine List.Perm.eq_of_pairwise (fun x y _ _ hxy hyx => ?_) hstart h.pairwise hp.symm
    exact absurd hyx (Nat.lt_asymm hxy)
  · rintro rfl
    exact h.numbers_eq

end Span

end Simb.Lib
