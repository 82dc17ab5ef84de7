import Simb.BlockTree.Links

/-!
# The answers of `try_add_block_header`

The answer is found by looking up the parent and by reading the tip twice.  On a ledger this comes to comparing the
number of the header with the length, and its parent hash with the block below: `classifies` says for every header
above genesis which answer it gets.
-/

namespace Simb.BlockTree

open Simb.Lib

variable {P : Platform} {db : Db} {L : List Header} {header t : Header}

/-- What `try_add_block_header` does with a header, on a chain with tip `t`. -/
structure Classifies (P : Platform) (db : Db) (t header : Header) : Prop where
  extendTip : (Chain.tryAddBlockHeader P header).eval db = .ok .extendTip ↔
    header.number = t.number + 1 ∧ header.parentHash = t.hash
  extended : (Chain.tryAddBlockHeader P header).eval db = .ok .extendTip →
    (Chain.tip P).eval ((Chain.tryAddBlockHeader P header).exec db) = .ok header ∧
      ∀ n ≤ t.number, ((Chain.tryAddBlockHeader P header).exec db).header[n]? = db.header[n]?
  notFound : (Chain.tryAddBlockHeader P header).eval db = .error (.error .blockHeaderNotFound) ↔
    t.number + 1 < header.number
  invalid : (Chain.tryAddBlockHeader P header).eval db = .error (.error .invalid) ↔
    header.number ≤ t.number + 1 ∧
      ∃ p, (Chain.getHeaderByBlockNumber P (header.number - 1)).eval db = .ok p ∧ p.hash ≠ header.parentHash
  unchanged : ∀ e, (Chain.tryAddBlockHeader P header).eval db = .error (.error e) →
    ((Chain.tryAddBlockHeader P header).exec db).header = db.header ∧
      ((Chain.tryAddBlockHeader P header).exec db).hash = db.hash

/-! ## On the ledger -/

theorem validate_eq_ok_iff (hn : header.number ≠ 0) :
    validate P L header = .ok () ↔ ∃ p, L[height header - 1]? = some p ∧ p.hash = header.parentHash := by
  rw [validate_of_ne_zero hn]
  cases L[height header - 1]? with
  | none => simp
  | some p => by_cases hh : p.hash = header.parentHash <;> simp [hh]

theorem validate_eq_notFound_iff (hn : header.number ≠ 0) :
    validate P L header = .error (.error .blockHeaderNotFound) ↔ L.length < height header := by
  have hpos := height_pos_iff.mpr hn
  rw [validate_of_ne_zero hn]
  cases hp : L[height header - 1]? with
  | none =>
    have hge := List.getElem?_eq_none_iff.mp hp
    simp only [true_iff]
    omega
  | some p =>
    obtain ⟨hlt, -⟩ := List.getElem?_eq_some_iff.mp hp
    by_cases hh : p.hash = header.parentHash
    · simp only [hh, if_true, reduceCtorEq, false_iff]
      omega
    · simp only [hh, if_false, Except.error.injEq, Fail.error.injEq, reduceCtorEq, false_iff]
      omega

theorem validate_eq_invalid_iff (hn : header.number ≠ 0) :
    validate P L header = .error (.error .invalid) ↔
      ∃ p, L[height header - 1]? = some p ∧ p.hash ≠ header.parentHash := by
  rw [validate_of_ne_zero hn]
  cases L[height header - 1]? with
  | none => simp
  | some p => by_cases hh : p.hash = header.parentHash <;> simp [hh]

theorem eval_extendTip_iff (h : db.Stores P L) :
    (Chain.tryAddBlockHeader P header).eval db = .ok .extendTip ↔
      validate P L header = .ok () ∧ height header = L.length := by
  rw [eval_tryAddBlockHeader h]
  cases hv : validate P L header with
  | error e => simp
  | ok u =>
    have hle := height_le_of_validate hv
    by_cases hlt : height header < L.length
    · simp [hlt, hlt.ne]
    · simp [show height header = L.length by omega]

theorem eval_eq_error_iff (h : db.Stores P L) {e : Fail} :
    (Chain.tryAddBlockHeader P header).eval db = .error e ↔ validate P L header = .error e := by
  rw [eval_tryAddBlockHeader h]
  cases validate P L header <;> simp

/-- The headers below the one that is written stay. -/
theorem header_insertHeader_of_lt {n : UInt64} (hn : n < header.number) :
    (Chain.insertHeader P header db).header[n]? = db.header[n]? :=
  Table.getElem?_insert_of_ne _ _ (UInt64.ne_of_lt hn)

theorem getLast_put_of_eq (hheight : height header = L.length) (hne : put height L header ≠ []) :
    (put height L header).getLast hne = header := by
  have hget : (put height L header)[height header]? = some header := by
    rw [getElem?_put hheight.le, if_pos rfl]
  have hlen : (put height L header).length = L.length + 1 := by
    rw [length_put hheight.le]
    omega
  rw [List.getLast_eq_getElem]
  exact (List.getElem?_eq_some_iff.mp (by rw [hlen, Nat.add_sub_cancel, ← hheight]; exact hget)).2

/-! ## The classification -/

section Tip

variable (h : db.Stores P L) (hb : L.length < 2 ^ 64)
include hb

theorem number_eq_tip_add_one_iff : header.number = (L.getLast h.ne_nil).number + 1 ↔ height header = L.length := by
  rw [← UInt64.toNat_inj, h.toNat_tip_add_one hb]
  rfl

theorem tip_add_one_lt_iff : (L.getLast h.ne_nil).number + 1 < header.number ↔ L.length < height header := by
  rw [UInt64.lt_iff_toNat_lt, h.toNat_tip_add_one hb]
  rfl

theorem le_tip_add_one_iff : header.number ≤ (L.getLast h.ne_nil).number + 1 ↔ height header ≤ L.length := by
  rw [UInt64.le_iff_toNat_le, h.toNat_tip_add_one hb]
  rfl

end Tip

/-- **The answers of `try_add_block_header`.**  On every reachable chain whose tip is below the last number, a header
above genesis extends the tip exactly if it is the next one and names the tip; its parent is missing exactly if it is
further ahead; it is invalid exactly if it names another parent than the one stored; and neither error writes. -/
theorem classifies (h : Reachable P db) (ht : (Chain.tip P).eval db = .ok t) (hmax : t.number.toNat < 2 ^ 64 - 1)
    (hpos : 1 ≤ header.number) : Classifies P db t header := by
  obtain ⟨L, hL⟩ := h.stores
  rw [eval_tip_eq_ok hL] at ht
  subst ht
  have hnum := hL.number_getLast
  have hlen := hL.length_pos
  have hb : L.length < 2 ^ 64 := by omega
  have hn := ne_zero_of_one_le hpos
  constructor
  case extendTip =>
    rw [eval_extendTip_iff hL, validate_eq_ok_iff hn, number_eq_tip_add_one_iff hL hb, and_comm]
    refine and_congr_right fun hheight => ?_
    rw [hheight, hL.getElem?_getLast]
    simp [eq_comm]
  case extended =>
    intro hext
    obtain ⟨hv, hheight⟩ := (eval_extendTip_iff hL).1 hext
    rw [exec_tryAddBlockHeader hL, if_pos hv]
    constructor
    · rw [eval_tip_eq_ok (hL.insertHeader hheight.le), getLast_put_of_eq hheight]
    · intro n hle
      refine header_insertHeader_of_lt ?_
      rw [UInt64.le_iff_toNat_le, hnum] at hle
      rw [UInt64.lt_iff_toNat_lt]
      unfold height at hheight
      omega
  case notFound =>
    rw [eval_eq_error_iff hL, validate_eq_notFound_iff hn, tip_add_one_lt_iff hL hb]
  case invalid =>
    rw [eval_eq_error_iff hL, validate_eq_invalid_iff hn, le_tip_add_one_iff hL hb]
    simp only [eval_getHeaderByBlockNumber_eq_ok hL, toNat_sub_one hn]
    constructor
    · rintro ⟨p, hp, hne⟩
      obtain ⟨hlt, -⟩ := List.getElem?_eq_some_iff.mp hp
      exact ⟨by omega, p, hp, hne⟩
    · rintro ⟨-, hparent⟩
      exact hparent
  case unchanged =>
    intro e he
    have hv := (eval_eq_error_iff hL).1 he
    rw [exec_tryAddBlockHeader hL, if_neg (by rw [hv]; simp)]
    exact ⟨rfl, rfl⟩

/-- A first block on a fresh chain. -/
theorem classifies_firstBlock :
    Classifies (sample true) (Chain.new (sample true) Db.empty) (Chain.genesis (sample true))
      (firstBlock (sample true)) :=
  classifies .new ((eval_tip_eq_ok (stores_new _)).2 rfl) (by decide) (by decide)

end Simb.BlockTree
