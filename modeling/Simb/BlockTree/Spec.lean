import Simb.BlockTree.Defs
import Simb.Lib.Ledger

/-!
# A chain database holds a ledger

`Db.Stores P db L`: the `HEADER` table of `db` is the list of headers `L`, the header of number `n` at
position `n`, and the `HASH` table names no height above it.  Every method is specified once, by what it
does to `L`:

* `runOn_getHeaderByBlockNumber`, `runOn_tip`, `runOn_validate`: the reads;
* `runOn_tryAddBlockHeader`: a header that passes `validate` is written at its height, whatever stands
  there, and the answer only tells whether the ledger got longer.
-/

namespace Simb.BlockTree

open Simb.Lib

/-! ## Running a method alone -/

namespace ChainM

variable {α β : Type}

theorem eval_eq (x : ChainM α) (db : Db) : x.eval db = (x.runOn db).1 := rfl
theorem exec_eq (x : ChainM α) (db : Db) : x.exec db = (x.runOn db).2 := rfl

@[simp] theorem runOn_pure (a : α) (db : Db) : (pure a : ChainM α).runOn db = (.ok a, db) := rfl
@[simp] theorem runOn_throw (e : Fail) (db : Db) : (throw e : ChainM α).runOn db = (.error e, db) := rfl
@[simp] theorem runOn_read (f : Db → Except Fail α) (db : Db) : (read f).runOn db = (f db, db) := rfl
@[simp] theorem runOn_write (f : Db → Db) (db : Db) : (write f).runOn db = (.ok (), f db) := rfl

theorem runOn_bind (x : ChainM α) (f : α → ChainM β) (db : Db) :
    (x >>= f).runOn db =
      match x.runOn db with
      | (.ok a, db') => (f a).runOn db'
      | (.error e, db') => (.error e, db') := by
  unfold runOn
  rw [Prog.run_exceptT_bind]
  rcases Prog.run x.run db with ⟨_ | a, db'⟩ <;> rfl

theorem runOn_bind_ok {x : ChainM α} {f : α → ChainM β} {db db' : Db} {a : α}
    (h : x.runOn db = (.ok a, db')) : (x >>= f).runOn db = (f a).runOn db' := by
  rw [runOn_bind, h]

theorem runOn_bind_error {x : ChainM α} {f : α → ChainM β} {db db' : Db} {e : Fail}
    (h : x.runOn db = (.error e, db')) : (x >>= f).runOn db = (.error e, db') := by
  rw [runOn_bind, h]

theorem runOn_orPanic (x : ChainM α) (p : Error → Panic) (db : Db) :
    (x.orPanic p).runOn db =
      match x.runOn db with
      | (.error (.error e), db') => (.error (.panic (p e)), db')
      | r => r := by
  show Prog.run (x.run >>= _) db = _
  rw [Prog.run_bind]
  rcases h : x.runOn db with ⟨(_ | _) | a, db'⟩ <;> (unfold runOn at h; rw [h]; rfl)

end ChainM

/-! ## The ledger of a database -/

/-- The position of a header in a ledger. -/
def height (h : Header) : ℕ := h.number.toNat

/-- The `HEADER` table of `db` is the ledger `L`, and the `HASH` table points into it. -/
structure Db.Stores (P : Platform) (db : Db) (L : List Header) : Prop where
  ne_nil : L ≠ []
  numbered : Numbered height L
  header : ∀ n : UInt64, db.header[n]? = L[n.toNat]?.map P.headers.encode
  hash : ∀ (s : String) (n : UInt64), db.hash[s]? = some n → n.toNat < L.length

namespace Db.Stores

variable {P : Platform} {db : Db} {L : List Header}

theorem length_pos (h : db.Stores P L) : 0 < L.length := List.length_pos_iff.mpr h.ne_nil

theorem number_toNat (h : db.Stores P L) {i : ℕ} {b : Header} (hb : L[i]? = some b) :
    b.number.toNat = i := h.numbered i b hb

theorem getElem?_getLast (h : db.Stores P L) : L[L.length - 1]? = some (L.getLast h.ne_nil) := by
  rw [← List.getLast?_eq_getElem?, List.getLast?_eq_some_getLast h.ne_nil]

theorem number_getLast (h : db.Stores P L) : (L.getLast h.ne_nil).number.toNat = L.length - 1 :=
  h.number_toNat h.getElem?_getLast

/-- The two tables of a ledger that gets a header at a height it has, or just above. -/
theorem insertHeader (h : db.Stores P L) {b : Header} (hb : height b ≤ L.length) :
    (Chain.insertHeader P b db).Stores P (put height L b) where
  ne_nil := put_ne_nil h.ne_nil
  numbered := h.numbered.put hb
  header n := by
    rw [getElem?_put hb]
    show (db.header.insert b.number (P.headers.encode b))[n]? = _
    by_cases hn : n = b.number
    · subst hn
      rw [Table.getElem?_insert_self, if_pos (show b.number.toNat = height b from rfl), Option.map_some]
    · have hne : n.toNat ≠ height b := fun hc => hn (UInt64.toNat_inj.mp hc)
      rw [Table.getElem?_insert_of_ne _ _ hn, h.header, if_neg hne]
  hash s n hs := by
    rw [length_put hb]
    change (db.hash.insert b.hash.text b.number)[s]? = some n at hs
    by_cases hsb : s = b.hash.text
    · subst hsb
      rw [Table.getElem?_insert_self] at hs
      cases hs
      unfold height
      omega
    · rw [Table.getElem?_insert_of_ne _ _ hsb] at hs
      have := h.hash s n hs
      omega

end Db.Stores

/-! ## The reads -/

section

variable {P : Platform} {db : Db} {L : List Header}

theorem decodeHeader_encode (P : Platform) (h : Header) :
    Chain.decodeHeader P (P.headers.encode h) = .ok h := by
  unfold Chain.decodeHeader
  rw [P.headers.decode_encode_self]

theorem findHeader_eq (h : db.Stores P L) (n : UInt64) :
    Chain.findHeader P n db =
      match L[n.toNat]? with
      | some b => .ok b
      | none => .error (.error .blockHeaderNotFound) := by
  unfold Chain.findHeader
  rw [h.header]
  cases L[n.toNat]? with
  | none => rfl
  | some b => simp only [Option.map_some, decodeHeader_encode]

theorem runOn_getHeaderByBlockNumber (h : db.Stores P L) (n : UInt64) :
    (Chain.getHeaderByBlockNumber P n).runOn db =
      (match L[n.toNat]? with
        | some b => .ok b
        | none => .error (.error .blockHeaderNotFound), db) := by
  unfold Chain.getHeaderByBlockNumber
  rw [ChainM.runOn_read, findHeader_eq h]

theorem eval_getHeaderByBlockNumber_eq_ok (h : db.Stores P L) {n : UInt64} {b : Header} :
    (Chain.getHeaderByBlockNumber P n).eval db = .ok b ↔ L[n.toNat]? = some b := by
  rw [ChainM.eval_eq, runOn_getHeaderByBlockNumber h]
  cases L[n.toNat]? <;> simp

theorem runOn_tip (h : db.Stores P L) : (Chain.tip P).runOn db = (.ok (L.getLast h.ne_nil), db) := by
  have hlast : db.header.last = some ((L.getLast h.ne_nil).number, P.headers.encode (L.getLast h.ne_nil)) := by
    have hnum := h.number_getLast
    refine Table.last_eq_some ?_ fun j hj => ?_
    · rw [h.header, hnum, h.getElem?_getLast, Option.map_some]
    · rw [h.header, Option.isSome_map, Option.isSome_iff_exists] at hj
      obtain ⟨b, hb⟩ := hj
      obtain ⟨hlt, -⟩ := List.getElem?_eq_some_iff.mp hb
      rw [UInt64.le_iff_toNat_le, hnum]
      omega
  unfold Chain.tip
  rw [ChainM.runOn_read, hlast]
  simp only [decodeHeader_encode]

theorem eval_tip_eq_ok (h : db.Stores P L) {t : Header} :
    (Chain.tip P).eval db = .ok t ↔ t = L.getLast h.ne_nil := by
  rw [ChainM.eval_eq, runOn_tip h]
  simp [eq_comm]

theorem eval_getHeaderByHash_eq_ok (h : db.Stores P L) {s : String} {b : Header} :
    (Chain.getHeaderByHash P s).eval db = .ok b ↔ ∃ n, db.hash[s]? = some n ∧ L[n.toNat]? = some b := by
  unfold Chain.getHeaderByHash
  rw [ChainM.eval_eq, ChainM.runOn_read]
  cases hs : db.hash[s]? with
  | none => simp
  | some n =>
    simp only [findHeader_eq h, Option.some.injEq, exists_eq_left']
    cases hb : L[n.toNat]? <;> simp

/-! ## Validation -/

/-- What `validate_adjacent_block_header` answers on a ledger. -/
def validate (P : Platform) (L : List Header) (header : Header) : Except Fail Unit :=
  if header = Chain.genesis P then .ok ()
  else if P.overflowChecks ∧ header.number = 0 then .error (.panic .overflow)
  else match L[(header.number - 1).toNat]? with
    | none => .error (.error .blockHeaderNotFound)
    | some p => if p.hash = header.parentHash then .ok () else .error (.error .invalid)

theorem toNat_add_one_of_lt {n : UInt64} (h : n.toNat + 1 < 2 ^ 64) : (n + 1).toNat = n.toNat + 1 := by
  rw [UInt64.toNat_add]
  exact Nat.mod_eq_of_lt h

theorem toNat_sub_one {n : UInt64} (h : n ≠ 0) : (n - 1).toNat = n.toNat - 1 := by
  have hpos : n.toNat ≠ 0 := fun h0 => h (UInt64.toNat_inj.mp (by rw [h0]; rfl))
  rw [UInt64.toNat_sub_of_le]
  · rfl
  · rw [UInt64.le_iff_toNat_le]
    show 1 ≤ n.toNat
    omega

theorem runOn_validate (h : db.Stores P L) (header : Header) :
    (Chain.validateAdjacentBlockHeader P header).runOn db = (validate P L header, db) := by
  unfold Chain.validateAdjacentBlockHeader validate
  by_cases hg : header = Chain.genesis P
  · simp [hg]
  simp only [hg, if_false]
  by_cases hov : P.overflowChecks ∧ header.number = 0
  · have hsub : (P.sub header.number 1).runOn db = (.error (.panic .overflow), db) := by
      unfold Platform.sub
      rw [if_pos ⟨hov.1, by rw [hov.2]; decide⟩]
      rfl
    rw [if_pos hov, ChainM.runOn_bind_error hsub]
  have hsub : (P.sub header.number 1).runOn db = (.ok (header.number - 1), db) := by
    unfold Platform.sub
    rw [if_neg]
    · rfl
    rintro ⟨h1, h2⟩
    refine hov ⟨h1, ?_⟩
    rw [UInt64.lt_iff_toNat_lt] at h2
    exact UInt64.toNat_inj.mp (by simpa using h2)
  rw [if_neg hov, ChainM.runOn_bind_ok hsub]
  cases hp : L[(header.number - 1).toNat]? with
  | none =>
    have hget := runOn_getHeaderByBlockNumber h (header.number - 1)
    rw [hp] at hget
    rw [ChainM.runOn_bind_error hget]
  | some p =>
    have hget := runOn_getHeaderByBlockNumber h (header.number - 1)
    rw [hp] at hget
    rw [ChainM.runOn_bind_ok hget]
    by_cases hh : p.hash = header.parentHash
    · -- the parent is numbered by its position, so its number is one less
      have hnum : p.number = header.number - 1 := UInt64.toNat_inj.mp (h.number_toNat hp)
      have hadd : (P.add p.number 1).runOn db = (.ok header.number, db) := by
        unfold Platform.add
        rw [hnum, UInt64.sub_add_cancel, if_neg]
        · rfl
        rintro ⟨h1, h2⟩
        refine hov ⟨h1, ?_⟩
        by_contra h0
        rw [UInt64.lt_iff_toNat_lt, toNat_sub_one h0] at h2
        omega
      simp [hh, ChainM.runOn_bind_ok hadd]
    · simp [hh, ChainM.runOn_bind_error (ChainM.runOn_throw _ db)]

/-- A header that passes is the genesis block, or the number before its own is in the ledger. -/
theorem validate_eq_ok {header : Header} (hv : validate P L header = .ok ()) :
    header = Chain.genesis P ∨ (header.number - 1).toNat < L.length := by
  unfold validate at hv
  split at hv
  · rename_i hg
    exact .inl hg
  split at hv
  · simp at hv
  split at hv
  · simp at hv
  · rename_i p hp
    exact .inr (List.getElem?_eq_some_iff.mp hp).1

/-- A header that passes has a parent in the ledger, so its height is at most one too high. -/
theorem height_le_of_validate {header : Header} (hv : validate P L header = .ok ()) :
    height header ≤ L.length := by
  rcases validate_eq_ok hv with rfl | hlt
  · exact Nat.zero_le _
  · by_cases h0 : header.number = 0
    · unfold height
      rw [h0]
      exact Nat.zero_le _
    · rw [toNat_sub_one h0] at hlt
      unfold height
      omega

/-! ## Adding a header -/

theorem runOn_tryAddBlockHeader (h : db.Stores P L) (header : Header) :
    (Chain.tryAddBlockHeader P header).runOn db =
      match validate P L header with
      | .error e => (.error e, db)
      | .ok () => (.ok (if height header < L.length then .alreadyInChain else .extendTip),
          Chain.insertHeader P header db) := by
  unfold Chain.tryAddBlockHeader
  cases hv : validate P L header with
  | error e => rw [ChainM.runOn_bind_error (by rw [runOn_validate h, hv])]
  | ok u =>
    have hle := height_le_of_validate hv
    have h' := h.insertHeader hle
    rw [ChainM.runOn_bind_ok (by rw [runOn_validate h, hv]), ChainM.runOn_bind_ok (runOn_tip h),
      ChainM.runOn_bind_ok (ChainM.runOn_write _ _), ChainM.runOn_bind_ok (runOn_tip h')]
    have h1 := h.number_getLast
    have h2 := h'.number_getLast
    have h3 := h.length_pos
    rw [length_put hle] at h2
    simp only [UInt64.lt_iff_toNat_lt, h1, h2]
    by_cases hlt : height header < L.length
    · rw [if_neg (by omega), if_pos hlt]; rfl
    · rw [if_pos (by omega), if_neg hlt]; rfl

/-- The ledger after `try_add_block_header`. -/
def addHeader (P : Platform) (L : List Header) (header : Header) : List Header :=
  if validate P L header = .ok () then put height L header else L

theorem exec_tryAddBlockHeader (h : db.Stores P L) (header : Header) :
    (Chain.tryAddBlockHeader P header).exec db =
      if validate P L header = .ok () then Chain.insertHeader P header db else db := by
  rw [ChainM.exec_eq, runOn_tryAddBlockHeader h]
  cases validate P L header with
  | error e => simp
  | ok u => simp

theorem eval_tryAddBlockHeader (h : db.Stores P L) (header : Header) :
    (Chain.tryAddBlockHeader P header).eval db =
      match validate P L header with
      | .error e => .error e
      | .ok () => .ok (if height header < L.length then .alreadyInChain else .extendTip) := by
  rw [ChainM.eval_eq, runOn_tryAddBlockHeader h]
  cases validate P L header <;> rfl

/-- **Adding a header refines `addHeader`.** -/
theorem Db.Stores.tryAdd (h : db.Stores P L) (header : Header) :
    ((Chain.tryAddBlockHeader P header).exec db).Stores P (addHeader P L header) := by
  rw [exec_tryAddBlockHeader h]
  unfold addHeader
  split
  · rename_i hv
    exact h.insertHeader (height_le_of_validate hv)
  · exact h

/-- A fresh database holds the genesis block alone. -/
theorem stores_new (P : Platform) : (Chain.new P Db.empty).Stores P [Chain.genesis P] where
  ne_nil := by simp
  numbered := by
    intro i b hb
    rcases i with _ | i
    · simp only [List.getElem?_cons_zero, Option.some.injEq] at hb
      subst hb; rfl
    · simp at hb
  header n := by
    show ((∅ : Table UInt64 (List UInt8)).insert _ _)[n]? = _
    by_cases hn : n = (Chain.genesis P).number
    · subst hn
      rw [Table.getElem?_insert_self]; rfl
    · have h0 : n.toNat ≠ 0 := fun h0 => hn (UInt64.toNat_inj.mp h0)
      rw [Table.getElem?_insert_of_ne _ _ hn]
      obtain ⟨k, hk⟩ := Nat.exists_eq_succ_of_ne_zero h0
      simp [hk]
  hash s n hs := by
    change ((∅ : Table String UInt64).insert _ _)[s]? = some n at hs
    by_cases hsg : s = (Chain.genesis P).hash.text
    · subst hsg
      rw [Table.getElem?_insert_self] at hs
      cases hs
      exact Nat.zero_lt_one
    · rw [Table.getElem?_insert_of_ne _ _ hsg] at hs
      simp at hs

end

end Simb.BlockTree
