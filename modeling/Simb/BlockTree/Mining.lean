import Simb.BlockTree.Links

/-!
# Mining while other clones add headers

`mine_block` reads the tip in one transaction and adds the block it built on it in later ones.  In between,
other clones of the chain may have added any headers.  If the tip was replaced, validation fails and the
miner panics; if it was extended, the block is written over the header that extended it, and the answer is
still `BlockFallingBehind`.  `minesCleanly_iff` says exactly when neither happens.
-/

namespace Simb.BlockTree

open Simb.Lib

variable {P : Platform} {db db' : Db} {L : List Header} {draws : Chain.Draws} {t : Header}

/-- `mine_block` once it has read the tip of `db`. -/
def afterTip (P : Platform) (draws : Chain.Draws) (db : Db) : ChainM MineBlockResult :=
  Prog.after (Chain.mineBlock P draws) db

/-- The rest of `mine_block`, on `db'` after the tip was read from `db`, does not panic, and adds nothing if
it answers `BlockFallingBehind`. -/
structure MinesCleanly (P : Platform) (draws : Chain.Draws) (db db' : Db) : Prop where
  no_panic : ∀ p, (afterTip P draws db).eval db' ≠ .error (.panic p)
  behind : (afterTip P draws db).eval db' = .ok .blockFallingBehind →
    ((afterTip P draws db).exec db').header = db'.header ∧ ((afterTip P draws db).exec db').hash = db'.hash

/-- `db'` can take the block that is mined on `t`: its number is a `u64`, the header at the height of `t` still
has the hash of `t`, and if there is a header above it, it is the mined one and found by its hash. -/
structure TakesMined (P : Platform) (draws : Chain.Draws) (t : Header) (db' : Db) : Prop where
  number : P.overflowChecks → t.number + 1 ≠ 0
  parent : ∀ c, (Chain.getHeaderByBlockNumber P t.number).eval db' = .ok c → c.hash = t.hash
  above : ∀ c, (Chain.getHeaderByBlockNumber P (t.number + 1)).eval db' = .ok c →
    c = minedOn P draws t ∧
      (Chain.getHeaderByHash P (minedOn P draws t).hash.text).eval db' = .ok (minedOn P draws t)

/-! ## The steps of `mine_block` -/

theorem afterTip_eq (ht : (Chain.tip P).eval db = .ok t) : afterTip P draws db = Chain.mineOn P draws t := by
  have hrest : afterTip P draws db =
      ChainM.orPanic (ExceptT.mk (.done ((Chain.tip P).eval db))) .tipUnwrap >>= Chain.mineOn P draws := rfl
  rw [hrest, ht]
  rfl

theorem add_one_lt_iff (n : UInt64) : n + 1 < n ↔ n + 1 = 0 := by
  have hn := n.toNat_lt
  rw [UInt64.lt_iff_toNat_lt, ← UInt64.toNat_inj, UInt64.toNat_add]
  show (n.toNat + 1) % 2 ^ 64 < n.toNat ↔ (n.toNat + 1) % 2 ^ 64 = 0
  omega

/-- What validation answers for a mined block: it only looks at the header at the height of the tip. -/
theorem validate_minedOn (L : List Header) (draws : Chain.Draws) (hov : ¬ (P.overflowChecks ∧ t.number + 1 = 0)) :
    validate P L (minedOn P draws t) =
      match L[height t]? with
      | none => .error (.error .blockHeaderNotFound)
      | some p => if p.hash = t.hash then .ok () else .error (.error .invalid) := by
  have hne : minedOn P draws t ≠ Chain.genesis P := fun h =>
    absurd (congrArg Header.timestamp h) (show (0 : UInt64) ≠ 1705551177 by decide)
  unfold validate
  rw [if_neg hne]
  show (if P.overflowChecks ∧ t.number + 1 = 0 then _ else match L[(t.number + 1 - 1).toNat]? with
    | none => _ | some p => if p.hash = t.hash then _ else _) = _
  rw [if_neg hov, UInt64.add_sub_cancel]
  rfl

/-- The rest of `mine_block`, on a ledger. -/
theorem runOn_mineOn_stores (draws : Chain.Draws) (h : db.Stores P L) (hlt : height t < L.length) :
    (Chain.mineOn P draws t).runOn db =
      if P.overflowChecks ∧ t.number + 1 = 0 then (.error (.panic .overflow), db)
      else if L[height t].hash = t.hash then
        (.ok (if height (minedOn P draws t) < L.length then .blockFallingBehind else .mined (minedOn P draws t)),
          Chain.insertHeader P (minedOn P draws t) db)
      else (.error (.panic (.miningFailed .invalid)), db) := by
  have hiff : P.overflowChecks ∧ t.number + 1 < t.number ↔ P.overflowChecks ∧ t.number + 1 = 0 :=
    and_congr_right fun _ => add_one_lt_iff t.number
  rw [runOn_mineOn]
  by_cases hov : P.overflowChecks ∧ t.number + 1 = 0
  · rw [if_pos hov, if_pos (hiff.2 hov)]
  · have hv := validate_minedOn L draws hov
    have hadd := runOn_tryAddBlockHeader h (minedOn P draws t)
    rw [List.getElem?_eq_getElem hlt] at hv
    rw [if_neg hov, if_neg fun hc => hov (hiff.1 hc)]
    by_cases hh : L[height t].hash = t.hash
    · simp only [hh, if_true] at hv ⊢
      rw [hadd, hv]
      by_cases hm : height (minedOn P draws t) < L.length <;> simp [hm]
    · simp only [hh, if_false] at hv ⊢
      rw [hadd, hv]

theorem height_minedOn_getLast (h : db.Stores P L) (hb : L.length < 2 ^ 64) (draws : Chain.Draws) :
    height (minedOn P draws (L.getLast h.ne_nil)) = L.length :=
  h.toNat_tip_add_one hb

/-- Below the last number, the mined block extends the ledger. -/
theorem runOn_mineBlock_below (h : db.Stores P L) (hb : L.length < 2 ^ 64) (draws : Chain.Draws) :
    (Chain.mineBlock P draws).runOn db =
      (.ok (.mined (minedOn P draws (L.getLast h.ne_nil))),
        Chain.insertHeader P (minedOn P draws (L.getLast h.ne_nil)) db) := by
  have hheight := height_minedOn_getLast h hb draws
  have hpos := h.length_pos
  have htip : L[height (L.getLast h.ne_nil)]? = some (L.getLast h.ne_nil) := by
    unfold height
    rw [h.number_getLast, h.getElem?_getLast]
  obtain ⟨hlt, hlast⟩ := List.getElem?_eq_some_iff.mp htip
  have hov : ¬ (P.overflowChecks ∧ (L.getLast h.ne_nil).number + 1 = 0) := by
    rintro ⟨-, h0⟩
    have hz : height (minedOn P draws (L.getLast h.ne_nil)) = 0 := congrArg UInt64.toNat h0
    omega
  rw [runOn_mineBlock h, runOn_mineOn_stores draws h hlt, if_neg hov, if_pos (by rw [hlast]), if_neg (by omega)]

/-- A block that was mined stands just above the tip it was mined on. -/
theorem runOn_mineBlock_mined (h : db.Stores P L) {header : Header}
    (he : (Chain.mineBlock P draws).eval db = .ok (.mined header)) :
    header = minedOn P draws (L.getLast h.ne_nil) ∧ height header = L.length ∧
      (Chain.mineBlock P draws).exec db = Chain.insertHeader P header db := by
  have hnum := h.number_getLast
  have hpos := h.length_pos
  have hlt : height (L.getLast h.ne_nil) < L.length := by
    unfold height
    omega
  have hrun := runOn_mineOn_stores draws h hlt
  rw [← runOn_mineBlock h] at hrun
  rw [ChainM.eval_eq, hrun] at he
  rw [ChainM.exec_eq, hrun]
  split at he
  · cases he
  rename_i hov
  split at he
  · rename_i hh
    rw [if_neg hov, if_pos hh]
    split at he
    · cases he
    · rename_i hm
      cases he
      refine ⟨rfl, ?_, rfl⟩
      -- a number that wraps around is `0`, and that is no new height
      have hle : height (minedOn P draws (L.getLast h.ne_nil)) ≤ (L.getLast h.ne_nil).number.toNat + 1 := by
        show ((L.getLast h.ne_nil).number + 1).toNat ≤ _
        rw [UInt64.toNat_add]
        exact Nat.mod_le _ _
      omega
  · cases he

/-- Writing a header over another one changes the tables, unless they are the same. -/
theorem insertHeader_unchanged_iff (h : db.Stores P L) {m : Header} (hlt : height m < L.length) :
    (Chain.insertHeader P m db).header = db.header ∧ (Chain.insertHeader P m db).hash = db.hash ↔
      L[height m]? = some m ∧ db.hash[m.hash.text]? = some m.number := by
  have hget : L[height m]? = some L[height m] := List.getElem?_eq_getElem hlt
  refine and_congr ?_ Table.insert_eq_self_iff
  show db.header.insert m.number (P.headers.encode m) = db.header ↔ _
  rw [Table.insert_eq_self_iff, h.header, show L[m.number.toNat]? = _ from hget, hget, Option.map_some,
    Option.some.injEq, Option.some.injEq]
  exact ⟨fun he => P.headers.encode_injective he, fun he => by rw [he]⟩

/-! ## When mining is clean -/

theorem takesMined_iff (h : db.Stores P L) (hlt : height t < L.length) :
    TakesMined P draws t db ↔
      ¬ (P.overflowChecks ∧ t.number + 1 = 0) ∧ L[height t].hash = t.hash ∧
        (height (minedOn P draws t) < L.length →
          L[height (minedOn P draws t)]? = some (minedOn P draws t) ∧
            db.hash[(minedOn P draws t).hash.text]? = some (minedOn P draws t).number) := by
  have hget : L[height t]? = some L[height t] := List.getElem?_eq_getElem hlt
  rw [← stored_iff h]
  constructor
  · rintro ⟨h1, h2, h3⟩
    refine ⟨fun hov => h1 hov.1 hov.2, h2 _ ((eval_getHeaderByBlockNumber_eq_ok h).2 hget), ?_⟩
    intro hm
    have hc := (eval_getHeaderByBlockNumber_eq_ok h).2 (List.getElem?_eq_getElem hm)
    obtain ⟨he, hf⟩ := h3 _ hc
    exact ⟨hc.trans (congrArg Except.ok he), hf⟩
  · rintro ⟨h1, h2, h3⟩
    refine ⟨fun ho hz => h1 ⟨ho, hz⟩, ?_, ?_⟩
    · intro c hc
      rw [eval_getHeaderByBlockNumber_eq_ok h, show L[t.number.toNat]? = _ from hget] at hc
      cases hc
      exact h2
    · intro c hc
      obtain ⟨hm, -⟩ := List.getElem?_eq_some_iff.mp ((eval_getHeaderByBlockNumber_eq_ok h).1 hc)
      obtain ⟨hs, hf⟩ := h3 hm
      exact ⟨Except.ok.inj (hc.symm.trans hs), hf⟩

theorem minesCleanly_iff_takesMined (ht : (Chain.tip P).eval db = .ok t) (h : db'.Stores P L)
    (hlt : height t < L.length) : MinesCleanly P draws db db' ↔ TakesMined P draws t db' := by
  have hrun := runOn_mineOn_stores draws h hlt
  have heval : (afterTip P draws db).eval db' = ((Chain.mineOn P draws t).runOn db').1 := by
    rw [afterTip_eq ht, ChainM.eval_eq]
  have hexec : (afterTip P draws db).exec db' = ((Chain.mineOn P draws t).runOn db').2 := by
    rw [afterTip_eq ht, ChainM.exec_eq]
  rw [takesMined_iff h hlt]
  constructor
  · rintro ⟨hpanic, hbehind⟩
    rw [heval, hrun] at hpanic
    have hov : ¬ (P.overflowChecks ∧ t.number + 1 = 0) := by
      intro hov
      rw [if_pos hov] at hpanic
      exact hpanic _ rfl
    have hh : L[height t].hash = t.hash := by
      by_contra hh
      rw [if_neg hov, if_neg hh] at hpanic
      exact hpanic _ rfl
    refine ⟨hov, hh, fun hm => (insertHeader_unchanged_iff h hm).1 ?_⟩
    rw [heval, hexec, hrun, if_neg hov, if_pos hh, if_pos hm] at hbehind
    exact hbehind rfl
  · rintro ⟨hov, hh, habove⟩
    rw [if_neg hov, if_pos hh] at hrun
    constructor
    · intro p hp
      rw [heval, hrun] at hp
      cases hp
    · intro hb
      rw [heval, hrun] at hb
      rw [hexec, hrun]
      by_cases hm : height (minedOn P draws t) < L.length
      · exact (insertHeader_unchanged_iff h hm).2 (habove hm)
      · rw [if_neg hm] at hb
        cases hb

/-- **When mining that falls behind is harmless.**  `mine_block` reads the tip `t` of a reachable database, and
other clones then add `headers`: the rest of `mine_block` does not panic, and adds nothing if it falls behind,
exactly if the database it finds still has the hash of `t` at the height of `t`, and above it no header other
than the mined one. -/
theorem minesCleanly_iff (h : Reachable P db) (ht : (Chain.tip P).eval db = .ok t) (headers : List Header)
    (draws : Chain.Draws) :
    MinesCleanly P draws db (headers.foldl (addTo P) db) ↔
      TakesMined P draws t (headers.foldl (addTo P) db) := by
  obtain ⟨L, hL⟩ := h.stores
  obtain ⟨L', hL', hle⟩ := hL.foldl_addTo headers
  refine minesCleanly_iff_takesMined ht hL' ?_
  rw [eval_tip_eq_ok hL] at ht
  have hnum := hL.number_getLast
  have hpos := hL.length_pos
  rw [← ht] at hnum
  unfold height
  omega

/-- A call at time `0` that draws zeros. -/
def zeroDraws : Chain.Draws := ⟨0, Vector.replicate 32 0, 0⟩

theorem tip_new (P : Platform) : (Chain.tip P).eval (Chain.new P Db.empty) = .ok (Chain.genesis P) :=
  (eval_tip_eq_ok (stores_new P)).2 rfl

theorem tip_firstBlock (P : Platform) : (Chain.tip P).eval (addAll P [firstBlock P]) = .ok (firstBlock P) :=
  (eval_tip_eq_ok (stores_firstBlock P)).2 rfl

/-- Mining the first block undisturbed. -/
theorem minesCleanly_fresh :
    MinesCleanly (sample true) zeroDraws (Chain.new (sample true) Db.empty)
      (Chain.new (sample true) Db.empty) := by
  refine (minesCleanly_iff .new (tip_new _) [] zeroDraws).2 ?_
  refine (takesMined_iff (stores_new _) (by decide)).2 ⟨fun hov => absurd hov.2 (by decide), rfl, fun hm => ?_⟩
  exact absurd hm (by decide)

/-- Block `1` is there already when the miner adds its own: it is overwritten. -/
theorem mineOn_genesis_behind (P : Platform) (draws : Chain.Draws) :
    (Chain.mineOn P draws (Chain.genesis P)).runOn (addAll P [firstBlock P]) =
      (.ok .blockFallingBehind,
        Chain.insertHeader P (minedOn P draws (Chain.genesis P)) (addAll P [firstBlock P])) := by
  have hlt : height (Chain.genesis P) < [Chain.genesis P, firstBlock P].length := Nat.zero_lt_two
  have hh : [Chain.genesis P, firstBlock P][height (Chain.genesis P)].hash = (Chain.genesis P).hash := rfl
  have hone : height (minedOn P draws (Chain.genesis P)) < [Chain.genesis P, firstBlock P].length :=
    Nat.one_lt_two
  have hov : ¬ (P.overflowChecks ∧ (Chain.genesis P).number + 1 = 0) := fun hov =>
    absurd hov.2 (show (0 : UInt64) + 1 ≠ 0 by decide)
  rw [runOn_mineOn_stores draws (stores_firstBlock P) hlt, if_neg hov, if_pos hh, if_pos hone]

/-- Block `1` was replaced after the miner read it: the mined block has no parent. -/
theorem mineOn_firstBlock_replaced :
    (Chain.mineOn (sample true) zeroDraws (firstBlock (sample true))).runOn
        (addAll (sample true) [firstBlock (sample true), rivalBlock (sample true)]) =
      (.error (.panic (.miningFailed .invalid)),
        addAll (sample true) [firstBlock (sample true), rivalBlock (sample true)]) := by
  have hlt : height (firstBlock (sample true)) <
    [Chain.genesis (sample true), rivalBlock (sample true)].length := by decide
  have hh : [Chain.genesis (sample true), rivalBlock (sample true)][height (firstBlock (sample true))].hash ≠
    (firstBlock (sample true)).hash := show (rivalBlock (sample true)).hash ≠ _ by decide
  rw [runOn_mineOn_stores zeroDraws (stores_replaced _) hlt, if_neg fun hov => absurd hov.2 (by decide),
    if_neg hh]

/-- Another clone adds block `1` first: the miner is told that it fell behind, and block `1` is gone.  Another
clone replaces the tip: the miner panics. -/
theorem mining_behind_overwrites :
    (afterTip (sample true) zeroDraws (Chain.new (sample true) Db.empty)).eval
        (addAll (sample true) [firstBlock (sample true)]) = .ok .blockFallingBehind ∧
      (Chain.getHeaderByBlockNumber (sample true) 1).eval
        (addAll (sample true) [firstBlock (sample true)]) = .ok (firstBlock (sample true)) ∧
      (Chain.getHeaderByBlockNumber (sample true) 1).eval
        ((afterTip (sample true) zeroDraws (Chain.new (sample true) Db.empty)).exec
          (addAll (sample true) [firstBlock (sample true)])) ≠ .ok (firstBlock (sample true)) ∧
      (afterTip (sample true) zeroDraws (addAll (sample true) [firstBlock (sample true)])).eval
        (addAll (sample true) [firstBlock (sample true), rivalBlock (sample true)]) =
          .error (.panic (.miningFailed .invalid)) := by
  have hfirst := stores_firstBlock (sample true)
  rw [afterTip_eq (tip_new _), afterTip_eq (tip_firstBlock _), ChainM.eval_eq, ChainM.exec_eq,
    mineOn_genesis_behind, ChainM.eval_eq, ChainM.eval_eq, ChainM.eval_eq, mineOn_firstBlock_replaced]
  refine ⟨rfl, (eval_getHeaderByBlockNumber_eq_ok hfirst).2 rfl, ?_, rfl⟩
  have hm : height (minedOn (sample true) zeroDraws (Chain.genesis (sample true))) ≤
    [Chain.genesis (sample true), firstBlock (sample true)].length := by decide
  rw [Ne, ← ChainM.eval_eq, eval_getHeaderByBlockNumber_eq_ok (hfirst.insertHeader hm), getElem?_put hm,
    if_pos (by decide)]
  intro hc
  exact absurd (congrArg (fun b => b.stateRoot.text) (Option.some.inj hc)) (by decide)

end Simb.BlockTree
