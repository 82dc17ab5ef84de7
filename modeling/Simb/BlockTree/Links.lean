import Simb.BlockTree.Runs

/-!
# What an accepted header can break

`try_add_block_header` checks the link of a header to its parent only, and then writes the header at its
height, over whatever is there.  A rival of a stored header, with the same number and parent, is therefore
accepted, and three things can go wrong:

* the block above the rival no longer names it (`everyState_linkedChain_iff`);
* the `HASH` entry of the replaced header finds the rival, or, if two heights have headers of one hash, only
  one of them is found (`everyState_indexConsistent_iff`);
* the call answers `AlreadyInChain` for a header that was not in the chain (`alreadyInChain_iff`).

For each, the condition under which a call does no harm is exact.
-/

namespace Simb.BlockTree

open Simb.Lib

variable {P : Platform} {db : Db} {L : List Header} {header : Header}

/-- The database after one call of `try_add_block_header`. -/
def addTo (P : Platform) (db : Db) (header : Header) : Db := (Chain.tryAddBlockHeader P header).exec db

/-- The database after calls of `try_add_block_header` on a fresh chain. -/
def addAll (P : Platform) (headers : List Header) : Db :=
  headers.foldl (addTo P) (Chain.new P Db.empty)

theorem Db.Stores.addTo (h : db.Stores P L) (header : Header) :
    (addTo P db header).Stores P (addHeader P L header) := h.tryAdd header

theorem exists_stores_addTo (h : ∃ L, db.Stores P L) : ∃ L, (addTo P db header).Stores P L := by
  obtain ⟨L, hL⟩ := h
  exact ⟨_, hL.addTo header⟩

/-- Adding headers never makes a ledger shorter. -/
theorem Db.Stores.foldl_addTo (h : db.Stores P L) (added : List Header) :
    ∃ L', (added.foldl (BlockTree.addTo P) db).Stores P L' ∧ L.length ≤ L'.length := by
  induction added generalizing db L with
  | nil => exact ⟨L, h, le_rfl⟩
  | cons header added ih =>
    obtain ⟨L', hL', hle⟩ := ih (h.addTo header)
    exact ⟨L', hL', (length_le_addHeader L header).trans hle⟩

theorem addTo_of_ok (h : db.Stores P L) (hv : validate P L header = .ok ()) :
    addTo P db header = Chain.insertHeader P header db := by
  unfold addTo
  rw [exec_tryAddBlockHeader h, if_pos hv]

theorem addTo_of_not_ok (h : db.Stores P L) (hv : validate P L header ≠ .ok ()) : addTo P db header = db := by
  unfold addTo
  rw [exec_tryAddBlockHeader h, if_neg hv]

theorem eval_validate (h : db.Stores P L) :
    (Chain.validateAdjacentBlockHeader P header).eval db = validate P L header := by
  rw [ChainM.eval_eq, runOn_validate h]

theorem height_pos_iff : 0 < height header ↔ header.number ≠ 0 := by
  unfold height
  rw [Nat.pos_iff_ne_zero, not_iff_not]
  exact ⟨fun h0 => UInt64.toNat_inj.mp h0, fun h0 => by rw [h0]; rfl⟩

/-- What validation answers above height `0`. -/
theorem validate_of_ne_zero (hn : header.number ≠ 0) :
    validate P L header =
      match L[height header - 1]? with
      | none => .error (.error .blockHeaderNotFound)
      | some p => if p.hash = header.parentHash then .ok () else .error (.error .invalid) := by
  have hne : header ≠ Chain.genesis P := fun h => hn (by rw [h]; rfl)
  unfold validate
  rw [if_neg hne, if_neg fun h => hn h.2, toNat_sub_one hn]
  rfl

/-- A header with a parent in the ledger passes. -/
theorem validate_of_parent (hn : header.number ≠ 0) {p : Header} (hp : L[height header - 1]? = some p)
    (hh : p.hash = header.parentHash) : validate P L header = .ok () := by
  rw [validate_of_ne_zero hn, hp]
  exact if_pos hh

/-- A header that passes names the block below it. -/
theorem parent_of_validate (hv : validate P L header = .ok ()) (hpos : 0 < height header) {p : Header}
    (hp : L[height header - 1]? = some p) : header.parentHash = p.hash := by
  rw [validate_of_ne_zero (height_pos_iff.mp hpos), hp] at hv
  by_contra hc
  simp [Ne.symm hc] at hv

/-! ## Links -/

/-- Every stored header up to the tip names the hash of the header below it. -/
def LinkedChain (P : Platform) (db : Db) : Prop :=
  ∀ t, (Chain.tip P).eval db = .ok t → ∀ n : UInt64, 1 ≤ n → n ≤ t.number →
    ∃ c p, (Chain.getHeaderByBlockNumber P n).eval db = .ok c ∧
      (Chain.getHeaderByBlockNumber P (n - 1)).eval db = .ok p ∧ c.parentHash = p.hash

/-- If `header` is accepted below the tip, the stored header above it names it. -/
def KeepsLink (P : Platform) (db : Db) (header : Header) : Prop :=
  (Chain.validateAdjacentBlockHeader P header).eval db = .ok () →
    ∀ t c, (Chain.tip P).eval db = .ok t → header.number < t.number →
      (Chain.getHeaderByBlockNumber P (header.number + 1)).eval db = .ok c → c.parentHash = header.hash

theorem toNat_add_one {n m : UInt64} (h : n < m) : (n + 1).toNat = n.toNat + 1 := by
  rw [UInt64.lt_iff_toNat_lt] at h
  have := m.toNat_lt
  exact toNat_add_one_of_lt (by omega)

theorem ne_zero_of_one_le {n : UInt64} (h : 1 ≤ n) : n ≠ 0 := by
  rintro rfl
  exact absurd h (by decide)

theorem linkedChain_iff (h : db.Stores P L) : LinkedChain P db ↔ Linked Header.hash Header.parentHash L := by
  have hnum := h.number_getLast
  constructor
  · intro hl i p b hi hb
    obtain ⟨hlt, -⟩ := List.getElem?_eq_some_iff.mp hb
    have hbn : b.number.toNat = i + 1 := h.number_toNat hb
    have h1 : 1 ≤ b.number := by
      rw [UInt64.le_iff_toNat_le, hbn]
      show 1 ≤ i + 1
      omega
    obtain ⟨c, q, hc, hq, hcq⟩ := hl _ ((eval_tip_eq_ok h).2 rfl) b.number h1
      (by rw [UInt64.le_iff_toNat_le, hnum, hbn]; omega)
    rw [eval_getHeaderByBlockNumber_eq_ok h, hbn, hb] at hc
    rw [eval_getHeaderByBlockNumber_eq_ok h, toNat_sub_one (ne_zero_of_one_le h1), hbn, Nat.add_sub_cancel,
      hi] at hq
    cases hc
    cases hq
    exact hcq
  · intro hl t ht n h1 hn
    rw [eval_tip_eq_ok h] at ht
    subst ht
    have h0 := ne_zero_of_one_le h1
    have hpos : n.toNat ≠ 0 := fun hc => h0 (UInt64.toNat_inj.mp hc)
    have hlen := h.length_pos
    rw [UInt64.le_iff_toNat_le, hnum] at hn
    have hlt : n.toNat < L.length := by omega
    have hlt' : n.toNat - 1 < L.length := by omega
    refine ⟨L[n.toNat], L[n.toNat - 1], ?_, ?_, ?_⟩
    · rw [eval_getHeaderByBlockNumber_eq_ok h, List.getElem?_eq_getElem hlt]
    · rw [eval_getHeaderByBlockNumber_eq_ok h, toNat_sub_one h0, List.getElem?_eq_getElem hlt']
    · refine hl (n.toNat - 1) _ _ (List.getElem?_eq_getElem hlt') ?_
      rw [show n.toNat - 1 + 1 = n.toNat by omega, List.getElem?_eq_getElem hlt]

theorem keepsLink_iff (h : db.Stores P L) :
    KeepsLink P db header ↔
      (validate P L header = .ok () → ∀ c, L[height header + 1]? = some c → c.parentHash = header.hash) := by
  have hnum := h.number_getLast
  unfold KeepsLink
  rw [eval_validate h]
  refine imp_congr_right fun _ => ?_
  constructor
  · intro hk c hc
    obtain ⟨hlt, -⟩ := List.getElem?_eq_some_iff.mp hc
    have hn : header.number < (L.getLast h.ne_nil).number := by
      rw [UInt64.lt_iff_toNat_lt, hnum]
      unfold height at hlt
      omega
    refine hk _ c ((eval_tip_eq_ok h).2 rfl) hn ?_
    rw [eval_getHeaderByBlockNumber_eq_ok h, toNat_add_one hn]
    exact hc
  · intro hk t c _ hn hc
    rw [eval_getHeaderByBlockNumber_eq_ok h, toNat_add_one hn] at hc
    exact hk c hc

theorem linkedChain_addTo_iff (h : ∃ L, db.Stores P L) (hl : LinkedChain P db) :
    LinkedChain P (addTo P db header) ↔ KeepsLink P db header := by
  obtain ⟨L, hL⟩ := h
  rw [linkedChain_iff (hL.addTo header), keepsLink_iff hL]
  rw [linkedChain_iff hL] at hl
  unfold addHeader
  by_cases hv : validate P L header = .ok ()
  · rw [if_pos hv, linked_put_iff hl (height_le_of_validate hv) fun p hpos hp => parent_of_validate hv hpos hp]
    exact ⟨fun h _ => h, fun h => h hv⟩
  · rw [if_neg hv]
    exact ⟨fun _ h => absurd h hv, fun _ => hl⟩

theorem linkedChain_new (P : Platform) : LinkedChain P (Chain.new P Db.empty) := by
  rw [linkedChain_iff (stores_new P)]
  intro i p b _ hb
  simp at hb

/-- **When the chain stays linked.**  In a run of `try_add_block_header` calls on a fresh chain, the chain is
linked in every state exactly if no accepted header is written below the tip that the header above does not
name. -/
theorem everyState_linkedChain_iff (P : Platform) (headers : List Header) :
    EveryState (addTo P) (LinkedChain P) (Chain.new P Db.empty) headers ↔
      EveryStep (addTo P) (KeepsLink P) (Chain.new P Db.empty) headers :=
  everyState_iff_everyStep (fun _ _ => exists_stores_addTo) (fun _ _ => linkedChain_addTo_iff)
    ⟨_, stores_new P⟩ (linkedChain_new P)

/-! ### A rival of block 1 -/

/-- A header of the given number, hash and parent. -/
def plain (number : UInt64) (hash parentHash : Str) : Header :=
  ⟨number, parentHash, ⟨"root", by decide⟩, 0, 0, hash⟩

section Rival

variable (P : Platform)

def firstBlock : Header := plain 1 ⟨"a1", by decide⟩ (Chain.genesis P).hash
def secondBlock : Header := plain 2 ⟨"a2", by decide⟩ ⟨"a1", by decide⟩
def rivalBlock : Header := plain 1 ⟨"b1", by decide⟩ (Chain.genesis P).hash

theorem validate_firstBlock (L : List Header) : validate P (Chain.genesis P :: L) (firstBlock P) = .ok () :=
  validate_of_parent (show (1 : UInt64) ≠ 0 by decide) rfl rfl

theorem stores_firstBlock : (addAll P [firstBlock P]).Stores P [Chain.genesis P, firstBlock P] := by
  have h := (stores_new P).addTo (firstBlock P)
  rw [addHeader, if_pos (validate_firstBlock P [])] at h
  exact h

theorem stores_secondBlock :
    (addAll P [firstBlock P, secondBlock]).Stores P [Chain.genesis P, firstBlock P, secondBlock] := by
  have h := (stores_firstBlock P).addTo secondBlock
  have hv : validate P [Chain.genesis P, firstBlock P] secondBlock = .ok () :=
    validate_of_parent (show (2 : UInt64) ≠ 0 by decide) rfl rfl
  rw [addHeader, if_pos hv] at h
  exact h

theorem validate_rivalBlock (L : List Header) : validate P (Chain.genesis P :: L) (rivalBlock P) = .ok () :=
  validate_of_parent (show (1 : UInt64) ≠ 0 by decide) rfl rfl

theorem stores_replaced :
    (addAll P [firstBlock P, rivalBlock P]).Stores P [Chain.genesis P, rivalBlock P] := by
  have h := (stores_firstBlock P).addTo (rivalBlock P)
  rw [addHeader, if_pos (validate_rivalBlock P _)] at h
  exact h

theorem stores_rivalBlock :
    (addAll P [firstBlock P, secondBlock, rivalBlock P]).Stores P
      [Chain.genesis P, rivalBlock P, secondBlock] := by
  have h := (stores_secondBlock P).addTo (rivalBlock P)
  rw [addHeader, if_pos (validate_rivalBlock P _)] at h
  exact h

end Rival

/-- Blocks `1` and `2`, then a rival of block `1`: block `2` still names the block that was replaced. -/
theorem rival_unlinks :
    ¬ LinkedChain (sample true)
      (addAll (sample true) [firstBlock (sample true), secondBlock, rivalBlock (sample true)]) := by
  rw [linkedChain_iff (stores_rivalBlock _)]
  intro h
  exact absurd (h 1 _ _ rfl rfl) (by decide)

/-! ## The hash index -/

/-- Whatever is found by hash has that hash, and every stored header is found by its hash. -/
def IndexConsistent (P : Platform) (db : Db) : Prop :=
  (∀ (s : String) (b : Header), (Chain.getHeaderByHash P s).eval db = .ok b → b.hash.text = s) ∧
    ∀ (n : UInt64) (b : Header), (Chain.getHeaderByBlockNumber P n).eval db = .ok b →
      (Chain.getHeaderByHash P b.hash.text).eval db = .ok b

/-- If `header` is accepted, it replaces no header of another hash, and its hash finds no header of another
number. -/
def KeepsIndex (P : Platform) (db : Db) (header : Header) : Prop :=
  (Chain.validateAdjacentBlockHeader P header).eval db = .ok () →
    (∀ c, (Chain.getHeaderByBlockNumber P header.number).eval db = .ok c → c.hash = header.hash) ∧
      ∀ c, (Chain.getHeaderByHash P header.hash.text).eval db = .ok c → c.number = header.number

/-- The `HASH` table as a map to heights. -/
def index (db : Db) (s : String) : Option ℕ := db.hash[s]?.map UInt64.toNat

/-- The text of a header's hash. -/
def hashText (b : Header) : String := b.hash.text

theorem index_eq_some {s : String} {n : ℕ} : index db s = some n ↔ ∃ m, db.hash[s]? = some m ∧ m.toNat = n := by
  unfold index
  rw [Option.map_eq_some_iff]

theorem index_insertHeader (P : Platform) (db : Db) (header : Header) :
    index (Chain.insertHeader P header db) =
      Function.update (index db) (hashText header) (some (height header)) := by
  funext s
  unfold index
  show ((db.hash.insert (hashText header) header.number)[s]?).map UInt64.toNat = _
  by_cases hs : s = hashText header
  · rw [hs, Function.update_self, Table.getElem?_insert_self]
    rfl
  · rw [Function.update_of_ne hs, Table.getElem?_insert_of_ne _ _ hs]

theorem indexConsistent_iff (h : db.Stores P L) : IndexConsistent P db ↔ Indexed hashText L (index db) := by
  constructor
  · rintro ⟨h1, h2⟩
    constructor
    · intro s n hs
      obtain ⟨m, hm, rfl⟩ := index_eq_some.mp hs
      have hlt := h.hash s m hm
      have hget : L[m.toNat]? = some L[m.toNat] := List.getElem?_eq_getElem hlt
      exact ⟨_, hget, h1 s _ ((eval_getHeaderByHash_eq_ok h).2 ⟨m, hm, hget⟩)⟩
    · intro n b hb
      have hn := h.number_toNat hb
      have hfound := h2 b.number b ((eval_getHeaderByBlockNumber_eq_ok h).2 (by rw [hn, hb]))
      obtain ⟨m, hm, hmb⟩ := (eval_getHeaderByHash_eq_ok h).1 hfound
      have := h.number_toNat hmb
      exact index_eq_some.mpr ⟨m, hm, by omega⟩
  · rintro ⟨h1, h2⟩
    constructor
    · intro s b hb
      obtain ⟨m, hm, hmb⟩ := (eval_getHeaderByHash_eq_ok h).1 hb
      obtain ⟨c, hc, hcs⟩ := h1 s m.toNat (index_eq_some.mpr ⟨m, hm, rfl⟩)
      rw [hmb] at hc
      cases hc
      exact hcs
    · intro n b hb
      rw [eval_getHeaderByBlockNumber_eq_ok h] at hb
      obtain ⟨m, hm, hmn⟩ := index_eq_some.mp (h2 n.toNat b hb)
      exact (eval_getHeaderByHash_eq_ok h).2 ⟨m, hm, by rw [hmn, hb]⟩

theorem keepsIndex_iff (h : db.Stores P L) :
    KeepsIndex P db header ↔
      (validate P L header = .ok () →
        (∀ c, L[height header]? = some c → hashText c = hashText header) ∧
          ∀ n, index db (hashText header) = some n → n = height header) := by
  unfold KeepsIndex
  rw [eval_validate h]
  refine imp_congr_right fun _ => and_congr ?_ ?_
  · refine forall_congr' fun c => ?_
    rw [eval_getHeaderByBlockNumber_eq_ok h, Str.ext_iff]
    rfl
  · constructor
    · intro hk n hn
      obtain ⟨m, hm, rfl⟩ := index_eq_some.mp hn
      have hlt := h.hash _ m hm
      have hget : L[m.toNat]? = some L[m.toNat] := List.getElem?_eq_getElem hlt
      have hc := hk _ ((eval_getHeaderByHash_eq_ok h).2 ⟨m, hm, hget⟩)
      rw [← h.number_toNat hget, hc]
      rfl
    · intro hk c hc
      obtain ⟨m, hm, hmc⟩ := (eval_getHeaderByHash_eq_ok h).1 hc
      have := hk m.toNat (index_eq_some.mpr ⟨m, hm, rfl⟩)
      rw [← h.number_toNat hmc] at this
      exact UInt64.toNat_inj.mp this

theorem indexConsistent_addTo_iff (h : ∃ L, db.Stores P L) (hi : IndexConsistent P db) :
    IndexConsistent P (addTo P db header) ↔ KeepsIndex P db header := by
  obtain ⟨L, hL⟩ := h
  have h' := hL.addTo header
  rw [indexConsistent_iff h', keepsIndex_iff hL]
  rw [indexConsistent_iff hL] at hi
  by_cases hv : validate P L header = .ok ()
  · rw [addTo_of_ok hL hv, index_insertHeader, addHeader, if_pos hv,
      indexed_put_iff hi (height_le_of_validate hv)]
    exact ⟨fun h _ => h, fun h => h hv⟩
  · rw [addTo_of_not_ok hL hv, addHeader, if_neg hv]
    exact ⟨fun _ h => absurd h hv, fun _ => hi⟩

theorem indexConsistent_new (P : Platform) : IndexConsistent P (Chain.new P Db.empty) := by
  rw [indexConsistent_iff (stores_new P)]
  have hidx : index (Chain.new P Db.empty) =
      Function.update (index Db.empty) (hashText (Chain.genesis P)) (some 0) :=
    index_insertHeader P Db.empty (Chain.genesis P)
  rw [hidx]
  constructor
  · intro s n hs
    by_cases hsg : s = hashText (Chain.genesis P)
    · rw [hsg, Function.update_self] at hs
      cases hs
      exact ⟨_, rfl, hsg.symm⟩
    · rw [Function.update_of_ne hsg] at hs
      obtain ⟨m, hm, -⟩ := index_eq_some.mp hs
      simp [Db.empty] at hm
  · intro n b hb
    rcases n with _ | n
    · cases hb
      rw [Function.update_self]
    · simp at hb

/-- **When the hash index stays right.**  In a run of `try_add_block_header` calls on a fresh chain, the two
tables agree in every state exactly if no accepted header replaces one of another hash, or carries the hash
of a header of another number. -/
theorem everyState_indexConsistent_iff (P : Platform) (headers : List Header) :
    EveryState (addTo P) (IndexConsistent P) (Chain.new P Db.empty) headers ↔
      EveryStep (addTo P) (KeepsIndex P) (Chain.new P Db.empty) headers :=
  everyState_iff_everyStep (fun _ _ => exists_stores_addTo) (fun _ _ => indexConsistent_addTo_iff)
    ⟨_, stores_new P⟩ (indexConsistent_new P)

/-- After block `1` and a rival of it, the hash of block `1` still finds a header: the rival. -/
theorem rival_breaks_index :
    ¬ IndexConsistent (sample true)
      (addAll (sample true) [firstBlock (sample true), rivalBlock (sample true)]) := by
  rw [indexConsistent_iff (stores_replaced _)]
  rintro ⟨h, -⟩
  have hfirst : index (addAll (sample true) [firstBlock (sample true)]) "a1" = some 1 := by
    show index (addTo (sample true) (Chain.new (sample true) Db.empty) (firstBlock (sample true))) "a1" = _
    rw [addTo_of_ok (stores_new _) (validate_firstBlock _ []), index_insertHeader]
    exact Function.update_self _ _ _
  have hone : index (addAll (sample true) [firstBlock (sample true), rivalBlock (sample true)]) "a1" = some 1 := by
    show index (addTo _ (addAll (sample true) [firstBlock (sample true)]) (rivalBlock (sample true))) "a1" = _
    rw [addTo_of_ok (stores_firstBlock _) (validate_rivalBlock _ _), index_insertHeader,
      Function.update_of_ne (by decide), hfirst]
  obtain ⟨b, hb, hbs⟩ := h "a1" 1 hone
  cases hb
  exact absurd hbs (by decide)

/-! ## The answer `AlreadyInChain` -/

/-- What `AlreadyInChain` promises of a call, and that the call replaces no stored header. -/
structure AnswersTruly (P : Platform) (db : Db) (header : Header) : Prop where
  already : (Chain.tryAddBlockHeader P header).eval db = .ok .alreadyInChain →
    (Chain.getHeaderByBlockNumber P header.number).eval db = .ok header ∧
      (addTo P db header).header = db.header ∧ (addTo P db header).hash = db.hash
  keeps : ∀ (n : UInt64) (b : Header), (Chain.getHeaderByBlockNumber P n).eval db = .ok b →
    (Chain.getHeaderByBlockNumber P n).eval (addTo P db header) = .ok b

/-- If `header` is accepted at or below the tip, it is the header stored there, and the one its hash finds. -/
def NoRival (P : Platform) (db : Db) (header : Header) : Prop :=
  (Chain.validateAdjacentBlockHeader P header).eval db = .ok () →
    ∀ t, (Chain.tip P).eval db = .ok t → header.number ≤ t.number →
      (Chain.getHeaderByBlockNumber P header.number).eval db = .ok header ∧
        (Chain.getHeaderByHash P header.hash.text).eval db = .ok header

/-- What `NoRival` asks of the header that an operation writes.  Re-opening the database writes the genesis
block. -/
def Op.NoRival (P : Platform) (db : Db) : Op → Prop
  | .add header => BlockTree.NoRival P db header
  | .mine draws => ∀ t, (Chain.tip P).eval db = .ok t → BlockTree.NoRival P db (minedOn P draws t)
  | .reopen => (Chain.getHeaderByBlockNumber P 0).eval db = .ok (Chain.genesis P)

theorem number_le_tip_iff (h : db.Stores P L) {n : UInt64} :
    n ≤ (L.getLast h.ne_nil).number ↔ n.toNat < L.length := by
  have := h.length_pos
  rw [UInt64.le_iff_toNat_le, h.number_getLast]
  omega

/-- A header is stored under its number and found by its hash. -/
theorem stored_iff (h : db.Stores P L) :
    (Chain.getHeaderByBlockNumber P header.number).eval db = .ok header ∧
        (Chain.getHeaderByHash P header.hash.text).eval db = .ok header ↔
      L[height header]? = some header ∧ db.hash[header.hash.text]? = some header.number := by
  constructor
  · rintro ⟨hb, hf⟩
    obtain ⟨m, hm, hmb⟩ := (eval_getHeaderByHash_eq_ok h).1 hf
    have hmn : m = header.number := UInt64.toNat_inj.mp (h.number_toNat hmb).symm
    exact ⟨(eval_getHeaderByBlockNumber_eq_ok h).1 hb, by rw [hm, hmn]⟩
  · rintro ⟨hb, hf⟩
    exact ⟨(eval_getHeaderByBlockNumber_eq_ok h).2 hb, (eval_getHeaderByHash_eq_ok h).2 ⟨_, hf, hb⟩⟩

theorem noRival_iff (h : db.Stores P L) :
    NoRival P db header ↔
      (validate P L header = .ok () → height header < L.length →
        L[height header]? = some header ∧ db.hash[header.hash.text]? = some header.number) := by
  unfold NoRival
  rw [eval_validate h, stored_iff h]
  refine imp_congr_right fun _ => ?_
  constructor
  · intro hk hlt
    exact hk _ ((eval_tip_eq_ok h).2 rfl) ((number_le_tip_iff h).2 hlt)
  · intro hk t ht hn
    rw [eval_tip_eq_ok h] at ht
    subst ht
    exact hk ((number_le_tip_iff h).1 hn)

/-- A header that is stored and indexed is written over itself. -/
theorem insertHeader_eq_self (h : db.Stores P L) (hb : L[height header]? = some header)
    (hi : db.hash[header.hash.text]? = some header.number) : Chain.insertHeader P header db = db := by
  unfold Chain.insertHeader
  rw [Table.insert_eq_self hi, Table.insert_eq_self (by
    rw [h.header, show L[header.number.toNat]? = some header from hb, Option.map_some])]

theorem eval_alreadyInChain_iff (h : db.Stores P L) :
    (Chain.tryAddBlockHeader P header).eval db = .ok .alreadyInChain ↔
      validate P L header = .ok () ∧ height header < L.length := by
  rw [eval_tryAddBlockHeader h]
  cases validate P L header with
  | error e => simp
  | ok u => by_cases hlt : height header < L.length <;> simp [hlt]

/-- A write at a height where the same header stands, or none, replaces no header. -/
theorem getElem?_put_of_some (hle : height header ≤ L.length)
    (hsame : height header < L.length → L[height header]? = some header) {i : ℕ} {b : Header}
    (hb : L[i]? = some b) : (put height L header)[i]? = some b := by
  rw [getElem?_put hle]
  split
  · rename_i hi
    obtain ⟨hlt, -⟩ := List.getElem?_eq_some_iff.mp hb
    rw [← hb, hi, hsame (by omega)]
  · exact hb

theorem getElem?_addHeader (h : db.Stores P L) (hno : NoRival P db header) {i : ℕ} {b : Header}
    (hb : L[i]? = some b) : (addHeader P L header)[i]? = some b := by
  unfold addHeader
  split
  · rename_i hv
    exact getElem?_put_of_some (height_le_of_validate hv) (fun hlt => ((noRival_iff h).1 hno hv hlt).1) hb
  · exact hb

theorem answersTruly_iff (h : db.Stores P L) : AnswersTruly P db header ↔ NoRival P db header := by
  constructor
  · rintro ⟨halready, -⟩
    rw [noRival_iff h]
    intro hv hlt
    obtain ⟨hb, -, hhash⟩ := halready ((eval_alreadyInChain_iff h).2 ⟨hv, hlt⟩)
    rw [addTo_of_ok h hv] at hhash
    exact ⟨(eval_getHeaderByBlockNumber_eq_ok h).1 hb, Table.insert_eq_self_iff.mp hhash⟩
  · intro hno
    constructor
    · intro halready
      obtain ⟨hv, hlt⟩ := (eval_alreadyInChain_iff h).1 halready
      obtain ⟨hb, hi⟩ := (noRival_iff h).1 hno hv hlt
      rw [addTo_of_ok h hv, insertHeader_eq_self h hb hi]
      exact ⟨(eval_getHeaderByBlockNumber_eq_ok h).2 hb, rfl, rfl⟩
    · intro n b hb
      rw [eval_getHeaderByBlockNumber_eq_ok h] at hb
      rw [eval_getHeaderByBlockNumber_eq_ok (h.addTo header)]
      exact getElem?_addHeader h hno hb

/-- An operation without a rival keeps every stored header. -/
theorem Op.NoRival.keeps {op : Op} (h : db.Stores P L) (hop : op.NoRival P db) {n : UInt64} {b : Header}
    (hb : (Chain.getHeaderByBlockNumber P n).eval db = .ok b) :
    (Chain.getHeaderByBlockNumber P n).eval (op.apply P db) = .ok b := by
  cases op with
  | add header => exact ((answersTruly_iff h).2 hop).keeps n b hb
  | mine draws =>
    have he := exec_mineBlock h draws
    rw [exec_mineOn] at he
    show (Chain.getHeaderByBlockNumber P n).eval ((Chain.mineBlock P draws).exec db) = .ok b
    rw [he]
    split
    · exact hb
    · exact ((answersTruly_iff h).2 (hop _ ((eval_tip_eq_ok h).2 rfl))).keeps n b hb
  | reopen =>
    have hg : L[0]? = some (Chain.genesis P) := (eval_getHeaderByBlockNumber_eq_ok h).1 hop
    have hle := height_genesis_le P L
    rw [eval_getHeaderByBlockNumber_eq_ok h] at hb
    show (Chain.getHeaderByBlockNumber P n).eval (Chain.insertHeader P (Chain.genesis P) db) = .ok b
    rw [eval_getHeaderByBlockNumber_eq_ok (h.insertHeader hle)]
    exact getElem?_put_of_some hle (fun _ => hg) hb

theorem keeps_run (h : ∃ L, db.Stores P L) {ops : List Op} {n : UInt64} {b : Header}
    (hops : EveryStep (fun db op => op.apply P db) (Op.NoRival P) db ops)
    (hb : (Chain.getHeaderByBlockNumber P n).eval db = .ok b) :
    (Chain.getHeaderByBlockNumber P n).eval (ops.foldl (fun db op => op.apply P db) db) = .ok b := by
  induction ops generalizing db with
  | nil => exact hb
  | cons op ops ih =>
    obtain ⟨L, hL⟩ := h
    exact ih (op.stores hL) hops.2 (hops.1.keeps hL hb)

/-- **When `AlreadyInChain` is true.**  On every reachable database, a call answers truly exactly if its
header, when it is accepted at or below the tip, is the one that is stored and indexed there; and a run of
operations that write no rival replaces no header. -/
theorem alreadyInChain_iff (h : Reachable P db) :
    (∀ header, AnswersTruly P db header ↔ NoRival P db header) ∧
      ∀ ops : List Op, EveryStep (fun db op => op.apply P db) (Op.NoRival P) db ops →
        ∀ (n : UInt64) (b : Header), (Chain.getHeaderByBlockNumber P n).eval db = .ok b →
          (Chain.getHeaderByBlockNumber P n).eval (ops.foldl (fun db op => op.apply P db) db) = .ok b := by
  obtain ⟨L, hL⟩ := h.stores
  exact ⟨fun header => answersTruly_iff hL, fun ops hops n b hb => keeps_run ⟨L, hL⟩ hops hb⟩

/-- A first block on a fresh chain is no rival of anything, and the genesis block stays. -/
theorem firstBlock_keeps_genesis :
    AnswersTruly (sample true) (Chain.new (sample true) Db.empty) (firstBlock (sample true)) ∧
      (Chain.getHeaderByBlockNumber (sample true) 0).eval
        ([Op.add (firstBlock (sample true))].foldl (fun db op => op.apply (sample true) db)
          (Chain.new (sample true) Db.empty)) = .ok (Chain.genesis (sample true)) := by
  have hno : NoRival (sample true) (Chain.new (sample true) Db.empty) (firstBlock (sample true)) := by
    rw [noRival_iff (stores_new _)]
    intro _ hlt
    exact absurd hlt (by decide)
  have h := alreadyInChain_iff (P := sample true) .new
  exact ⟨(h.1 _).2 hno, h.2 [.add _] ⟨hno, trivial⟩ 0 _
    ((eval_getHeaderByBlockNumber_eq_ok (stores_new _)).2 rfl)⟩

/-- A rival of block `1` is said to be in the chain already, and takes the place of block `1`. -/
theorem rival_alreadyInChain :
    Reachable (sample true) (addAll (sample true) [firstBlock (sample true)]) ∧
      (Chain.tryAddBlockHeader (sample true) (rivalBlock (sample true))).eval
        (addAll (sample true) [firstBlock (sample true)]) = .ok .alreadyInChain ∧
      (Chain.getHeaderByBlockNumber (sample true) 1).eval
        (addAll (sample true) [firstBlock (sample true)]) = .ok (firstBlock (sample true)) ∧
      (Chain.getHeaderByBlockNumber (sample true) 1).eval
        (addAll (sample true) [firstBlock (sample true), rivalBlock (sample true)]) =
          .ok (rivalBlock (sample true)) ∧
      firstBlock (sample true) ≠ rivalBlock (sample true) := by
  have hfirst := stores_firstBlock (sample true)
  have hv := validate_rivalBlock (sample true) [firstBlock (sample true)]
  refine ⟨.step (.add _) .new trivial, (eval_alreadyInChain_iff hfirst).2 ⟨hv, by decide⟩,
    (eval_getHeaderByBlockNumber_eq_ok hfirst).2 rfl,
    (eval_getHeaderByBlockNumber_eq_ok (stores_replaced _)).2 rfl, ?_⟩
  intro h
  exact absurd (congrArg (fun b => b.hash.text) h) (by decide)

end Simb.BlockTree
