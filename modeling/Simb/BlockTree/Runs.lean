import Simb.BlockTree.Spec
import Simb.Lib.Run

/-!
# Runs of a chain

The operations of one node on its chain: adding a header, mining, and closing and re-opening the database.
`Reaches P G db` says that `db` is reached from a fresh database by operations that each meet `G` in the
state before it.  Every reachable database holds a ledger (`Reaches.stores`); as long as the tip stays
below the last `u64`, the ledger starts with the genesis block, the tip never goes down, and re-opening
changes no header (`contiguous_of_reaches`).
-/

namespace Simb.BlockTree

open Simb.Lib

/-! ## Operations -/

/-- An operation on a chain. -/
inductive Op where
  | add (header : Header)
  | mine (draws : Chain.Draws)
  | reopen

/-- The database after an operation. -/
def Op.apply (P : Platform) : Op → Db → Db
  | add header, db => (Chain.tryAddBlockHeader P header).exec db
  | mine draws, db => (Chain.mineBlock P draws).exec db
  | reopen, db => Chain.new P db

/-- `db` is reached from a fresh database by operations that meet `G`. -/
inductive Reaches (P : Platform) (G : Db → Op → Prop) : Db → Prop
  | new : Reaches P G (Chain.new P Db.empty)
  | step {db : Db} (op : Op) : Reaches P G db → G db op → Reaches P G (op.apply P db)

/-- `db` is reached from a fresh database. -/
abbrev Reachable (P : Platform) : Db → Prop := Reaches P fun _ _ => True

variable {P : Platform} {db : Db} {L : List Header}

/-! ## Mining, on the ledger -/

/-- The block that is mined on the tip `t`. -/
def minedOn (P : Platform) (draws : Chain.Draws) (t : Header) : Header :=
  Chain.minedHeader P draws t (t.number + 1)

theorem runOn_add (P : Platform) (a : UInt64) (db : Db) :
    (P.add a 1).runOn db =
      if P.overflowChecks ∧ a + 1 < a then (.error (.panic .overflow), db) else (.ok (a + 1), db) := by
  unfold Platform.add
  split <;> rfl

theorem runOn_mineOn (P : Platform) (draws : Chain.Draws) (prev : Header) (db : Db) :
    (Chain.mineOn P draws prev).runOn db =
      if P.overflowChecks ∧ prev.number + 1 < prev.number then (.error (.panic .overflow), db)
      else match (Chain.tryAddBlockHeader P (minedOn P draws prev)).runOn db with
        | (.ok .alreadyInChain, db') => (.ok .blockFallingBehind, db')
        | (.ok .extendTip, db') => (.ok (.mined (minedOn P draws prev)), db')
        | (.error (.error e), db') => (.error (.panic (.miningFailed e)), db')
        | (.error (.panic p), db') => (.error (.panic p), db') := by
  have hadd := runOn_add P prev.number db
  unfold Chain.mineOn
  by_cases hov : P.overflowChecks ∧ prev.number + 1 < prev.number
  · rw [if_pos hov] at hadd ⊢
    rw [ChainM.runOn_bind_error hadd]
  · rw [if_neg hov] at hadd ⊢
    rw [ChainM.runOn_bind_ok hadd]
    have hpanic := ChainM.runOn_orPanic (Chain.tryAddBlockHeader P (minedOn P draws prev)) .miningFailed db
    change ((Chain.tryAddBlockHeader P (minedOn P draws prev)).orPanic .miningFailed >>= _).runOn db = _
    rcases hr : (Chain.tryAddBlockHeader P (minedOn P draws prev)).runOn db with ⟨(e | p) | (_ | _), db'⟩
    all_goals rw [hr] at hpanic
    · rw [ChainM.runOn_bind_error hpanic]
    · rw [ChainM.runOn_bind_error hpanic]
    · rw [ChainM.runOn_bind_ok hpanic]
      rfl
    · rw [ChainM.runOn_bind_ok hpanic]
      rfl

theorem exec_mineOn (P : Platform) (draws : Chain.Draws) (prev : Header) (db : Db) :
    (Chain.mineOn P draws prev).exec db =
      if P.overflowChecks ∧ prev.number + 1 < prev.number then db
      else (Chain.tryAddBlockHeader P (minedOn P draws prev)).exec db := by
  rw [ChainM.exec_eq, runOn_mineOn]
  split
  · rfl
  · rw [ChainM.exec_eq]
    rcases (Chain.tryAddBlockHeader P (minedOn P draws prev)).runOn db with ⟨(e | p) | (_ | _), db'⟩ <;> rfl

theorem runOn_mineBlock (h : db.Stores P L) (draws : Chain.Draws) :
    (Chain.mineBlock P draws).runOn db = (Chain.mineOn P draws (L.getLast h.ne_nil)).runOn db := by
  unfold Chain.mineBlock
  have htip := ChainM.runOn_orPanic (Chain.tip P) .tipUnwrap db
  rw [runOn_tip h] at htip
  rw [ChainM.runOn_bind_ok htip]

theorem exec_mineBlock (h : db.Stores P L) (draws : Chain.Draws) :
    (Chain.mineBlock P draws).exec db = (Chain.mineOn P draws (L.getLast h.ne_nil)).exec db := by
  rw [ChainM.exec_eq, runOn_mineBlock h, ChainM.exec_eq]

/-- An operation is the adding of a header, the genesis block when the database is re-opened, or nothing. -/
theorem Op.apply_cases (h : db.Stores P L) (op : Op) :
    op.apply P db = db ∨ op.apply P db = Chain.insertHeader P (Chain.genesis P) db ∨
      ∃ header, op.apply P db = (Chain.tryAddBlockHeader P header).exec db ∧
        (op = .add header ∨ header.number = (L.getLast h.ne_nil).number + 1) := by
  cases op with
  | add header => exact .inr (.inr ⟨header, rfl, .inl rfl⟩)
  | mine draws =>
    have he := exec_mineBlock h draws
    rw [exec_mineOn] at he
    split at he
    · exact .inl he
    · exact .inr (.inr ⟨_, he, .inr rfl⟩)
  | reopen => exact .inr (.inl rfl)

theorem height_genesis_le (P : Platform) (L : List Header) : height (Chain.genesis P) ≤ L.length :=
  Nat.zero_le _

theorem length_le_addHeader (L : List Header) (header : Header) :
    L.length ≤ (addHeader P L header).length := by
  unfold addHeader
  split
  · rename_i hv
    rw [length_put (height_le_of_validate hv)]
    omega
  · exact le_rfl

/-- After an operation there is a ledger again, and it is not shorter. -/
theorem Op.grows (h : db.Stores P L) (op : Op) : ∃ L', (op.apply P db).Stores P L' ∧ L.length ≤ L'.length := by
  rcases op.apply_cases h with he | he | ⟨header, he, -⟩
  · exact ⟨L, by rw [he]; exact h, le_rfl⟩
  · have hle := height_genesis_le P L
    exact ⟨_, by rw [he]; exact h.insertHeader hle, by rw [length_put hle]; omega⟩
  · exact ⟨_, by rw [he]; exact h.tryAdd header, length_le_addHeader L header⟩

theorem Op.stores (h : db.Stores P L) (op : Op) : ∃ L', (op.apply P db).Stores P L' := by
  obtain ⟨L', hL', -⟩ := op.grows h
  exact ⟨L', hL'⟩

theorem Reaches.stores {G : Db → Op → Prop} (h : Reaches P G db) : ∃ L, db.Stores P L := by
  induction h with
  | new => exact ⟨_, stores_new P⟩
  | step op _ _ ih =>
    obtain ⟨L, hL⟩ := ih
    exact op.stores hL

/-! ## The contiguous store -/

/-- The tip is below the last number. -/
def Below (P : Platform) (db : Db) : Prop :=
  ∀ t, (Chain.tip P).eval db = .ok t → t.number.toNat < 2 ^ 64 - 1

/-- The keys of the `HEADER` table are the numbers up to the tip, each header is stored under its number,
and the first one is the genesis block. -/
structure Contiguous (P : Platform) (db : Db) : Prop where
  keys : ∃ t, (Chain.tip P).eval db = .ok t ∧ ∀ n : UInt64, db.header[n]?.isSome ↔ n ≤ t.number
  numbered : ∀ (n : UInt64) (b : Header), (Chain.getHeaderByBlockNumber P n).eval db = .ok b → b.number = n
  genesis : (Chain.getHeaderByBlockNumber P 0).eval db = .ok (Chain.genesis P)

/-- The tip of `db'` is at least as high as the tip of `db`. -/
def TipLe (P : Platform) (db db' : Db) : Prop :=
  ∃ t t', (Chain.tip P).eval db = .ok t ∧ (Chain.tip P).eval db' = .ok t' ∧ t.number ≤ t'.number

theorem below_iff (h : db.Stores P L) : Below P db ↔ L.length < 2 ^ 64 := by
  have hnum := h.number_getLast
  have hpos := h.length_pos
  constructor
  · intro hb
    have := hb _ ((eval_tip_eq_ok h).2 rfl)
    omega
  · intro hlt t ht
    rw [eval_tip_eq_ok h] at ht
    subst ht
    omega

/-- Below the last number, the number above the tip is the length of the ledger. -/
theorem Db.Stores.toNat_tip_add_one (h : db.Stores P L) (hb : L.length < 2 ^ 64) :
    ((L.getLast h.ne_nil).number + 1).toNat = L.length := by
  have hnum := h.number_getLast
  have hpos := h.length_pos
  rw [toNat_add_one_of_lt (by omega)]
  omega

theorem Db.Stores.contiguous (h : db.Stores P L) (hg : L[0]? = some (Chain.genesis P)) :
    Contiguous P db where
  keys := by
    refine ⟨_, (eval_tip_eq_ok h).2 rfl, ?_⟩
    intro n
    have hnum := h.number_getLast
    have hpos := h.length_pos
    rw [h.header, Option.isSome_map, Option.isSome_iff_exists, UInt64.le_iff_toNat_le, hnum]
    constructor
    · rintro ⟨b, hb⟩
      obtain ⟨hlt, -⟩ := List.getElem?_eq_some_iff.mp hb
      omega
    · intro hle
      exact ⟨_, List.getElem?_eq_getElem (by omega)⟩
  numbered n b hb := by
    rw [eval_getHeaderByBlockNumber_eq_ok h] at hb
    exact UInt64.toNat_inj.mp (h.number_toNat hb)
  genesis := (eval_getHeaderByBlockNumber_eq_ok h).2 hg

/-- Below the last number only the genesis block itself can be written at height `0`: another header of
number `0` looks for its parent at the last number. -/
theorem pos_of_validate (hb : L.length < 2 ^ 64) {header : Header} (hv : validate P L header = .ok ())
    (hne : header ≠ Chain.genesis P) : 0 < height header := by
  have hlt := (validate_eq_ok hv).resolve_left hne
  by_contra h0
  have hz : header.number = 0 := UInt64.toNat_inj.mp (by unfold height at h0; simpa using h0)
  rw [hz] at hlt
  have : (0 - 1 : UInt64).toNat = 2 ^ 64 - 1 := by decide
  omega

/-- The genesis block stays at height `0`. -/
theorem genesis_put (hg : L[0]? = some (Chain.genesis P)) {header : Header} (hle : height header ≤ L.length)
    (hpos : header ≠ Chain.genesis P → 0 < height header) :
    (put height L header)[0]? = some (Chain.genesis P) := by
  rw [getElem?_put hle]
  split
  · rename_i h0
    by_cases hh : header = Chain.genesis P
    · rw [hh]
    · have := hpos hh
      omega
  · exact hg

theorem genesis_addHeader (hg : L[0]? = some (Chain.genesis P)) (hb : L.length < 2 ^ 64) (header : Header) :
    (addHeader P L header)[0]? = some (Chain.genesis P) := by
  unfold addHeader
  split
  · rename_i hv
    exact genesis_put hg (height_le_of_validate hv) (pos_of_validate hb hv)
  · exact hg

theorem insert_genesis_header (h : db.Stores P L) (hg : L[0]? = some (Chain.genesis P)) :
    (Chain.insertHeader P (Chain.genesis P) db).header = db.header := by
  refine Table.insert_eq_self ?_
  rw [h.header, show (Chain.genesis P).number.toNat = 0 from rfl, hg, Option.map_some]

/-- A database that is reached below the last number holds a ledger that starts with the genesis block. -/
theorem Reaches.genesis (h : Reaches P (fun db _ => Below P db) db) :
    ∃ L, db.Stores P L ∧ L[0]? = some (Chain.genesis P) := by
  induction h with
  | new => exact ⟨_, stores_new P, rfl⟩
  | @step db op _ hb ih =>
    obtain ⟨L, hL, hg⟩ := ih
    rw [below_iff hL] at hb
    rcases op.apply_cases hL with he | he | ⟨header, he, -⟩
    · exact ⟨L, by rw [he]; exact hL, hg⟩
    · have hle := height_genesis_le P L
      exact ⟨_, by rw [he]; exact hL.insertHeader hle, genesis_put hg hle fun h => absurd rfl h⟩
    · exact ⟨_, by rw [he]; exact hL.tryAdd header, genesis_addHeader hg hb header⟩

theorem tipLe_of_length_le {db' : Db} {L' : List Header} (h : db.Stores P L) (h' : db'.Stores P L')
    (hle : L.length ≤ L'.length) : TipLe P db db' := by
  refine ⟨_, _, (eval_tip_eq_ok h).2 rfl, (eval_tip_eq_ok h').2 rfl, ?_⟩
  rw [UInt64.le_iff_toNat_le, h.number_getLast, h'.number_getLast]
  omega

/-- No operation lowers the tip. -/
theorem Op.tipLe (h : db.Stores P L) (op : Op) : TipLe P db (op.apply P db) := by
  obtain ⟨L', hL', hle⟩ := op.grows h
  exact tipLe_of_length_le h hL' hle

/-- **The store is contiguous.**  In every state reached with the tip below the last number, the keys of
the `HEADER` table are `0` to the tip's number, every header is stored under its number, the genesis block
under `0`; no operation lowers the tip, and re-opening the database leaves the `HEADER` table as it is. -/
theorem contiguous_of_reaches (h : Reaches P (fun db _ => Below P db) db) :
    Contiguous P db ∧ (∀ op : Op, TipLe P db (op.apply P db)) ∧
      (Op.reopen.apply P db).header = db.header := by
  obtain ⟨L, hL, hg⟩ := h.genesis
  exact ⟨hL.contiguous hg, fun op => op.tipLe hL, insert_genesis_header hL hg⟩

/-! ## A concrete platform -/

/-- SHA-256 on the texts of the genesis block and of a first block mined at time `0` with all draws `0`. -/
def sampleSha256 (bs : List UInt8) : Vector UInt8 32 :=
  if bs = (hashedText 0 1705551177 "genesis" "0x" "0x" 17012).toUTF8.data.toList then
    #v[0x13, 0x6a, 0x0f, 0xb5, 0xd8, 0x6d, 0x21, 0x75, 0xd7, 0x40, 0x62, 0xcb, 0x38, 0x32, 0x4f, 0x88,
    0xcc, 0x44, 0x37, 0xdf, 0x61, 0x45, 0xd8, 0x41, 0x40, 0xb9, 0x06, 0xe0, 0x92, 0xd9, 0x4a, 0x51]
  else if bs = List.replicate 32 0 then
    #v[0x66, 0x68, 0x7a, 0xad, 0xf8, 0x62, 0xbd, 0x77, 0x6c, 0x8f, 0xc1, 0x8b, 0x8e, 0x9f, 0x8e, 0x20,
    0x08, 0x97, 0x14, 0x85, 0x6e, 0xe2, 0x33, 0xb3, 0x90, 0x2a, 0x59, 0x1d, 0x0d, 0x5f, 0x29, 0x25]
  else
    #v[0xa2, 0x48, 0xfb, 0x72, 0x55, 0x84, 0x0a, 0xb8, 0xae, 0xbd, 0x35, 0x63, 0xf7, 0x91, 0x89, 0x2b,
    0xa5, 0x1e, 0x0e, 0x42, 0xb9, 0xff, 0xda, 0x5d, 0x80, 0xcf, 0x0d, 0x37, 0x5f, 0xbb, 0xe8, 0x48]

/-- A debug or a release build, on the genuine wire format. -/
def sample (overflowChecks : Bool) : Platform := ⟨overflowChecks, sampleSha256, Header.rlp⟩

/-- A fresh chain that was re-opened: the genesis block alone. -/
theorem contiguous_reopened :
    Contiguous (sample true) (Op.reopen.apply (sample true) (Chain.new (sample true) Db.empty)) := by
  have hb : Below (sample true) (Chain.new (sample true) Db.empty) :=
    (below_iff (stores_new _)).2 (by decide)
  exact (contiguous_of_reaches (.step .reopen .new hb)).1

end Simb.BlockTree
