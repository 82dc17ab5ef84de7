import Mathlib

/-!
# Ledgers: lists of blocks that are written by height

A ledger is a list of blocks, the block of height `n` at position `n`.  `put` stores a block at its
height, whatever stands there.  Three notions on ledgers, over arbitrary blocks:

* `Numbered`: every block stands at its own height;
* `Linked`: every block names the hash of the block below it;
* `Indexed`: a map from hashes to heights finds exactly the blocks of the ledger.

`put` keeps the first; `linked_put_iff` and `indexed_put_iff` say exactly when it keeps the others.
-/

namespace Simb.Lib

variable {β η : Type*} {height : β → ℕ} {L M : List β} {b : β}

/-- Every block stands at its own height. -/
def Numbered (height : β → ℕ) (L : List β) : Prop := ∀ i b, L[i]? = some b → height b = i

/-- Store `b` at its height: over the block that is there, or as a new last block. -/
def put (height : β → ℕ) (L : List β) (b : β) : List β :=
  if height b < L.length then L.set (height b) b else L ++ [b]

/-- Every block names the hash of the block below it as its parent. -/
def Linked (hash parent : β → η) (L : List β) : Prop :=
  ∀ i p b, L[i]? = some p → L[i + 1]? = some b → parent b = hash p

/-- The index `idx` sends a hash to a height exactly when the block there has that hash. -/
def Indexed (hash : β → η) (L : List β) (idx : η → Option ℕ) : Prop :=
  (∀ s n, idx s = some n → ∃ b, L[n]? = some b ∧ hash b = s) ∧
    ∀ n b, L[n]? = some b → idx (hash b) = some n

/-! ## What `put` stores -/

theorem getElem?_put (hb : height b ≤ L.length) (n : ℕ) :
    (put height L b)[n]? = if n = height b then some b else L[n]? := by
  unfold put
  split
  · rename_i hlt
    rw [List.getElem?_set]
    by_cases hn : n = height b
    · subst hn; simp [hlt]
    · rw [if_neg (Ne.symm hn), if_neg hn]
  · have hlen : height b = L.length := by omega
    by_cases hn : n = height b
    · subst hn; simp [hlen]
    · rw [if_neg hn]
      rcases Nat.lt_or_ge n L.length with h | h
      · rw [List.getElem?_append_left h]
      · rw [List.getElem?_eq_none h, List.getElem?_eq_none (by simp; omega)]

theorem length_put (hb : height b ≤ L.length) :
    (put height L b).length = max L.length (height b + 1) := by
  unfold put
  split
  · rw [List.length_set]; omega
  · rw [List.length_append, List.length_singleton]; omega

theorem put_ne_nil (hL : L ≠ []) : put height L b ≠ [] := by
  unfold put
  split
  · simpa using hL
  · simp

theorem Numbered.put (h : Numbered height L) (hb : height b ≤ L.length) :
    Numbered height (put height L b) := by
  intro i c hc
  rw [getElem?_put hb] at hc
  split at hc
  · cases hc; omega
  · exact h i c hc

/-- Storing a block that is already there changes nothing. -/
theorem put_eq_self (hb : L[height b]? = some b) : put height L b = L := by
  obtain ⟨hlt, hget⟩ := List.getElem?_eq_some_iff.mp hb
  unfold put
  rw [if_pos hlt]
  exact List.ext_getElem (by simp) fun i h1 h2 => by
    rw [List.getElem_set]
    split
    · rename_i hi; subst hi; exact hget.symm
    · rfl

/-! ## Links -/

variable {hash parent : β → η}

/-- A block that names the block below it keeps a linked ledger linked exactly when the block above,
if any, names it. -/
theorem linked_put_iff (hL : Linked hash parent L) (hb : height b ≤ L.length)
    (hp : ∀ p, 0 < height b → L[height b - 1]? = some p → parent b = hash p) :
    Linked hash parent (put height L b) ↔ ∀ c, L[height b + 1]? = some c → parent c = hash b := by
  constructor
  · intro h c hc
    refine h (height b) b c ?_ ?_
    · rw [getElem?_put hb, if_pos rfl]
    · rw [getElem?_put hb, if_neg (by omega), hc]
  · intro h i p c hi hc
    rw [getElem?_put hb] at hi hc
    by_cases h1 : i = height b
    · rw [if_pos h1] at hi
      rw [if_neg (by omega), h1] at hc
      cases hi
      exact h c hc
    · rw [if_neg h1] at hi
      by_cases h2 : i + 1 = height b
      · rw [if_pos h2] at hc
        cases hc
        exact hp p (by omega) (by rw [← h2]; exact hi)
      · rw [if_neg h2] at hc
        exact hL i p c hi hc

/-! ## The index -/

/-- Recording a stored block keeps the index right exactly when the block replaces none of another
hash, and its hash was not recorded for another height. -/
theorem indexed_put_iff [DecidableEq η] {idx : η → Option ℕ} (h : Indexed hash L idx)
    (hb : height b ≤ L.length) :
    Indexed hash (put height L b) (Function.update idx (hash b) (some (height b))) ↔
      (∀ c, L[height b]? = some c → hash c = hash b) ∧
        ∀ n, idx (hash b) = some n → n = height b := by
  obtain ⟨hidx, hall⟩ := h
  constructor
  · rintro ⟨h1, h2⟩
    constructor
    · intro c hc
      by_contra hne
      -- the entry of the replaced block is still there, and finds `b`
      obtain ⟨d, hd, hds⟩ := h1 (hash c) (height b) (by
        rw [Function.update_of_ne hne]; exact hall _ _ hc)
      rw [getElem?_put hb, if_pos rfl] at hd
      cases hd
      exact hne hds.symm
    · intro n hn
      by_contra hne
      -- the other block of this hash is still there, and the entry now finds `b`
      obtain ⟨d, hd, hds⟩ := hidx _ _ hn
      have := h2 n d (by rw [getElem?_put hb, if_neg hne, hd])
      rw [hds, Function.update_self] at this
      exact hne (Option.some.inj this).symm
  · rintro ⟨h1, h2⟩
    constructor
    · intro s n hs
      rw [getElem?_put hb]
      by_cases hsb : s = hash b
      · subst hsb
        rw [Function.update_self] at hs
        cases hs
        exact ⟨b, if_pos rfl, rfl⟩
      · rw [Function.update_of_ne hsb] at hs
        obtain ⟨c, hc, hcs⟩ := hidx s n hs
        refine ⟨c, ?_, hcs⟩
        rw [if_neg ?_, hc]
        rintro rfl
        exact hsb (by rw [← hcs, h1 c hc])
    · intro n c hc
      rw [getElem?_put hb] at hc
      split at hc
      · rename_i hn
        cases hc
        rw [Function.update_self, hn]
      · rename_i hn
        rw [Function.update_of_ne, hall n c hc]
        intro hcb
        exact hn (h2 n (by rw [← hcb]; exact hall n c hc))

/-! ## Prefixes -/

theorem put_isPrefix (h : L <+: M) (hM : M[height b]? = some b) (hb : height b ≤ L.length) :
    put height L b <+: M := by
  rw [List.prefix_iff_getElem?]
  intro i hi
  rw [← List.getElem?_eq_getElem hi, getElem?_put hb]
  split
  · rename_i h1; rw [h1, hM]
  · rename_i h1
    rw [length_put hb] at hi
    have hlt : i < L.length := by omega
    rw [List.prefix_iff_getElem?] at h
    rw [h i hlt, List.getElem?_eq_getElem hlt]

theorem prefix_put_of_length_le (h : L <+: M) (hb : M.length ≤ height b) :
    L <+: put height M b := by
  unfold put
  rw [if_neg (by omega)]
  exact h.trans (List.prefix_append M [b])

end Simb.Lib
