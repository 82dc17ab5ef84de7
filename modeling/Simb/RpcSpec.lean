import Simb.Rpc
import Simb.BlockTree.Links

/-!
# Block numbers in requests

`eth_getBlockByNumber` should take `0x` and the hexadecimal numeral of a `u64` (`IsBlockNumber`).  It drops the first two
bytes unseen and leaves the rest to `from_str_radix`, which also takes a plus sign.  So it panics on a parameter that
cannot be cut after two bytes, and looks up a number for others that do not start with `0x`, or have a sign.  On all
other parameters it does what it should (`followsGrammar_iff`).

The numbers in the answers are of the right form, so they can be sent back as they are (`blockNumber_roundTrip`), also
those in the answers of `eth_getBlockByHash` (`ethGetBlockByNumber_of_hash`).
-/

namespace Simb.Rpc

open Simb.Lib Simb.BlockTree

/-- `s` is `0x` and the hexadecimal numeral of `n`. -/
def IsBlockNumber (s : String) (n : UInt64) : Prop := ∃ ds, s.toList = '0' :: 'x' :: ds ∧ Hex.Numeral ds n.toNat

/-- The error for a parameter that is no block number. -/
def invalidParams : ErrorObject := ⟨invalidParamsCode, "Number should be in hex string format"⟩

/-- The answer to the parameter `s` is what the block tree has at `n`, whatever the block tree. -/
def LooksUp (s : String) (n : UInt64) : Prop :=
  ∀ chain, ethGetBlockByNumber chain s =
    answer (chain.getHeaderByBlockNumber n) (fun _ => "Block not found at " ++ s) blockOf

/-- `eth_getBlockByNumber` does what it should on the parameter `s`. -/
structure FollowsGrammar (s : String) : Prop where
  looksUp : ∀ n, LooksUp s n ↔ IsBlockNumber s n
  invalid : (∀ n, ¬ IsBlockNumber s n) → ∀ chain, ethGetBlockByNumber chain s = .error (.error invalidParams)
  noPanic : ∀ chain : Rpc.BlockTree, (∀ n p, chain.getHeaderByBlockNumber n ≠ .error (.panic p)) →
    ∀ p, ethGetBlockByNumber chain s ≠ .error (.panic p)

/-- `ds` is the hexadecimal numeral of a `u64`. -/
def Fits (ds : List Char) : Prop := ∃ n : UInt64, Hex.Numeral ds n.toNat

/-- The first two bytes of `s` are characters.  If a numeral of a `u64` follows, they are `0x`, and no plus sign and such
a numeral follow. -/
def Plain (s : String) : Prop :=
  ∃ front rest, s.toList = front ++ rest ∧ Hex.bytes front = 2 ∧ (Fits rest → front = ['0', 'x']) ∧
    ∀ ds, rest = '+' :: ds → ¬ Fits ds

variable {s : String} {n : UInt64} {chain : Rpc.BlockTree}

/-! ## The parameter -/

theorem parseBlockNumber_of_append {front rest : List Char} (hs : s.toList = front ++ rest)
    (hfront : Hex.bytes front = 2) :
    parseBlockNumber s =
      match Hex.fromHex rest with
      | some n => .ok n
      | none => .error (.error invalidParams) := by
  unfold parseBlockNumber
  rw [hs, Hex.sliceFrom_append hfront]
  rfl

theorem parseBlockNumber_eq_ok {front rest : List Char} (hs : s.toList = front ++ rest)
    (hfront : Hex.bytes front = 2) :
    parseBlockNumber s = .ok n ↔ ∃ ds, (rest = ds ∨ rest = '+' :: ds) ∧ Hex.Numeral ds n.toNat := by
  rw [parseBlockNumber_of_append hs hfront, ← Hex.fromHex_eq_some]
  cases Hex.fromHex rest with
  | none => simp
  | some m => simp

/-- What is cut is read, or refused. -/
theorem parseBlockNumber_cases {front rest : List Char} (hs : s.toList = front ++ rest)
    (hfront : Hex.bytes front = 2) :
    (∃ n, parseBlockNumber s = .ok n) ∨ parseBlockNumber s = .error (.error invalidParams) := by
  rw [parseBlockNumber_of_append hs hfront]
  split
  · exact .inl ⟨_, rfl⟩
  · exact .inr rfl

/-- What cannot be cut after two bytes panics. -/
theorem parseBlockNumber_of_not_append (h : ∀ front rest, s.toList = front ++ rest → Hex.bytes front ≠ 2) :
    parseBlockNumber s = .error (.panic .slice) := by
  have hslice : Hex.sliceFrom 2 s.toList = none := by
    rw [Option.eq_none_iff_forall_ne_some]
    intro rest hrest
    obtain ⟨front, hs, hfront⟩ := Hex.sliceFrom_eq_some.mp hrest
    exact h front rest hs hfront
  unfold parseBlockNumber
  rw [hslice]

/-- The two bytes that are dropped from a block number. -/
theorem bytes_prefix : Hex.bytes ['0', 'x'] = 2 := by decide

theorem IsBlockNumber.parse (h : IsBlockNumber s n) : parseBlockNumber s = .ok n := by
  obtain ⟨ds, hs, hnum⟩ := h
  have hcut : s.toList = ['0', 'x'] ++ ds := hs
  exact (parseBlockNumber_eq_ok hcut bytes_prefix).mpr ⟨ds, .inl rfl, hnum⟩

/-- A text is cut in one way. -/
theorem append_inj_of_bytes {front front' rest rest' : List Char} (h : front ++ rest = front' ++ rest')
    (hbytes : Hex.bytes front = Hex.bytes front') : front = front' ∧ rest = rest' := by
  have hslice : Hex.sliceFrom _ (front ++ rest) = some rest := Hex.sliceFrom_append hbytes
  rw [h, Hex.sliceFrom_append rfl, Option.some.injEq] at hslice
  subst hslice
  exact ⟨List.append_cancel_right h, rfl⟩

theorem IsBlockNumber.cut {front rest : List Char} (h : IsBlockNumber s n) (hs : s.toList = front ++ rest)
    (hfront : Hex.bytes front = 2) : front = ['0', 'x'] ∧ Hex.Numeral rest n.toNat := by
  obtain ⟨ds, hds, hnum⟩ := h
  have heq : front ++ rest = ['0', 'x'] ++ ds := hs.symm.trans hds
  obtain ⟨rfl, rfl⟩ := append_inj_of_bytes heq (hfront.trans bytes_prefix.symm)
  exact ⟨rfl, hnum⟩

/-! ## The handler -/

theorem ethGetBlockByNumber_of_ok (chain : Rpc.BlockTree) (h : parseBlockNumber s = .ok n) :
    ethGetBlockByNumber chain s =
      answer (chain.getHeaderByBlockNumber n) (fun _ => "Block not found at " ++ s) blockOf := by
  unfold ethGetBlockByNumber
  rw [h]
  rfl

theorem ethGetBlockByNumber_of_error {e : Rpc.Fail} (h : parseBlockNumber s = .error e) :
    ethGetBlockByNumber chain s = .error e := by
  unfold ethGetBlockByNumber
  rw [h]
  rfl

/-- A block tree that has a header at `n`, with this number in it, and no other. -/
def single (n : UInt64) : Rpc.BlockTree where
  getHeaderByBlockNumber m := if m = n then .ok ⟨n, .empty, .empty, 0, 0, .empty⟩ else .error (.error .blockHeaderNotFound)
  getHeaderByHash _ := .error (.error .blockHeaderNotFound)
  getBalance _ := .ok 0

theorem single_ne_panic (m n : UInt64) (p : BlockTree.Panic) :
    (single m).getHeaderByBlockNumber n ≠ .error (.panic p) := by
  unfold single
  simp only
  split
  · simp
  · simp

/-- The number that is looked up is the one that the parameter is read as. -/
theorem looksUp_iff : LooksUp s n ↔ parseBlockNumber s = .ok n := by
  refine ⟨fun h => ?_, fun h chain => ethGetBlockByNumber_of_ok chain h⟩
  have hsingle := h (single n)
  cases hp : parseBlockNumber s with
  | error e =>
    rw [ethGetBlockByNumber_of_error hp] at hsingle
    simp [single, answer] at hsingle
  | ok m =>
    rw [ethGetBlockByNumber_of_ok _ hp] at hsingle
    by_cases hm : m = n
    · rw [hm]
    · simp [single, answer, hm] at hsingle

theorem answer_ne_panic {α β : Type} {result : Except BlockTree.Fail α} {message : BlockTree.Error → String} {ok : α → β}
    (h : ∀ p, result ≠ .error (.panic p)) (p : Rpc.Panic) : answer result message ok ≠ .error (.panic p) := by
  unfold answer
  split
  · simp
  · simp
  · rename_i q
    exact absurd rfl (h q)

/-- **When block numbers are read right.**  `eth_getBlockByNumber` looks up exactly the numbers in parameters that are
`0x` and the hexadecimal numeral of a `u64`, refuses all other parameters and does not panic, exactly if two bytes of the
parameter can be dropped, nothing but `0x` comes before the numeral of a `u64`, and no plus sign does. -/
theorem followsGrammar_iff (s : String) : FollowsGrammar s ↔ Plain s := by
  constructor
  · intro h
    by_cases hcut : ∃ front rest, s.toList = front ++ rest ∧ Hex.bytes front = 2
    · obtain ⟨front, rest, hs, hfront⟩ := hcut
      have hread : ∀ (n : UInt64) ds, rest = ds ∨ rest = '+' :: ds → Hex.Numeral ds n.toNat →
          front = ['0', 'x'] ∧ Hex.Numeral rest n.toNat := by
        intro n ds hrest hnum
        have hn := looksUp_iff.mpr ((parseBlockNumber_eq_ok hs hfront).mpr ⟨ds, hrest, hnum⟩)
        exact ((h.looksUp n).mp hn).cut hs hfront
      refine ⟨front, rest, hs, hfront, ?_, ?_⟩
      · rintro ⟨n, hnum⟩
        exact (hread n rest (.inl rfl) hnum).1
      · rintro ds rfl ⟨n, hnum⟩
        exact (hread n ds (.inr rfl) hnum).2.head_ne.1 rfl
    · have hparse := parseBlockNumber_of_not_append fun front rest hs hfront => hcut ⟨front, rest, hs, hfront⟩
      exact absurd (ethGetBlockByNumber_of_error hparse) (h.noPanic (single 0) (single_ne_panic 0) .slice)
  · rintro ⟨front, rest, hs, hfront, hplain, hsign⟩
    have hok : ∀ n, parseBlockNumber s = .ok n ↔ IsBlockNumber s n := by
      refine fun n => ⟨fun h => ?_, IsBlockNumber.parse⟩
      obtain ⟨ds, rfl | rfl, hnum⟩ := (parseBlockNumber_eq_ok hs hfront).mp h
      · obtain rfl := hplain ⟨n, hnum⟩
        exact ⟨_, hs, hnum⟩
      · exact absurd ⟨n, hnum⟩ (hsign ds rfl)
    refine ⟨fun n => looksUp_iff.trans (hok n), fun hno chain => ?_, fun chain hchain p => ?_⟩
    · rcases parseBlockNumber_cases hs hfront with ⟨n, hn⟩ | hinvalid
      · exact absurd ((hok n).mp hn) (hno n)
      · exact ethGetBlockByNumber_of_error hinvalid
    · rcases parseBlockNumber_cases hs hfront with ⟨n, hn⟩ | hinvalid
      · rw [ethGetBlockByNumber_of_ok _ hn]
        exact answer_ne_panic (hchain n) p
      · rw [ethGetBlockByNumber_of_error hinvalid]
        simp

/-- The parameter `0` makes the handler panic, and `zz12` and `0x+12` make it look up block 18. -/
theorem bad_block_numbers :
    (∀ chain, ethGetBlockByNumber chain "0" = .error (.panic .slice)) ∧ LooksUp "zz12" 18 ∧ LooksUp "0x+12" 18 ∧
      ¬ FollowsGrammar "0" ∧ ¬ FollowsGrammar "zz12" ∧ ¬ FollowsGrammar "0x+12" := by
  have hpanic : ∀ chain, ethGetBlockByNumber chain "0" = .error (.panic .slice) :=
    fun chain => ethGetBlockByNumber_of_error rfl
  have hprefix : LooksUp "zz12" 18 := looksUp_iff.mpr rfl
  have hsign : LooksUp "0x+12" 18 := looksUp_iff.mpr rfl
  refine ⟨hpanic, hprefix, hsign, fun h => ?_, fun h => ?_, fun h => ?_⟩
  · exact h.noPanic (single 0) (single_ne_panic 0) .slice (hpanic _)
  · obtain ⟨ds, hs, -⟩ := (h.looksUp 18).mp hprefix
    simp at hs
  · obtain ⟨ds, hs, hnum⟩ := (h.looksUp 18).mp hsign
    simp at hs
    subst hs
    exact hnum.head_ne.1 rfl

/-! ## Numbers in answers -/

theorem isBlockNumber_hexNumber (n : UInt64) : IsBlockNumber (hexNumber n) n := by
  refine ⟨Nat.toDigits 16 n.toNat, ?_, Hex.numeral_toDigits n.toNat⟩
  simp [hexNumber, Hex.format, String.toList_append]

/-- **Block numbers go round.**  On any reachable chain, `eth_getBlockByNumber` finds a block for a number as it is
written in the answers exactly if the number is not above the tip.  Then the answer has the same text for the number, and
the hash, the state root and the parent hash of the header that is stored under the number. -/
theorem blockNumber_roundTrip {P : Platform} {db : Db} (h : Reachable P db) (random n : UInt64) :
    ∃ t, (Chain.tip P).eval db = .ok t ∧
      ((∃ block, ethGetBlockByNumber (Chain.blockTree P db random) (hexNumber n) = .ok block) ↔ n ≤ t.number) ∧
      ∀ block, ethGetBlockByNumber (Chain.blockTree P db random) (hexNumber n) = .ok block →
        block.blockNumber = hexNumber n ∧ ∃ header, db.header[n]? = some (P.headers.encode header) ∧
          header.number = n ∧ block.blockHash = header.hash.text ∧ block.stateRoot = header.stateRoot.text ∧
          block.parentRoot = header.parentHash.text := by
  obtain ⟨L, hL⟩ := h.stores
  have hcall := ethGetBlockByNumber_of_ok (Chain.blockTree P db random) (isBlockNumber_hexNumber n).parse
  have hfind : (Chain.blockTree P db random).getHeaderByBlockNumber n = (Chain.getHeaderByBlockNumber P n).eval db := rfl
  rw [hfind, ChainM.eval_eq, runOn_getHeaderByBlockNumber hL] at hcall
  refine ⟨_, (eval_tip_eq_ok hL).mpr rfl, ?_⟩
  rw [number_le_tip_iff hL, hcall]
  cases hb : L[n.toNat]? with
  | none =>
    have hge := List.getElem?_eq_none_iff.mp hb
    refine ⟨iff_of_false (by simp [answer]) (by omega), fun block hblock => ?_⟩
    simp [answer] at hblock
  | some b =>
    obtain ⟨hlt, -⟩ := List.getElem?_eq_some_iff.mp hb
    have hnumber : b.number = n := UInt64.toNat_inj.mp (hL.number_toNat hb)
    refine ⟨iff_of_true ⟨_, rfl⟩ hlt, ?_⟩
    rintro _ ⟨⟩
    refine ⟨congrArg hexNumber hnumber, b, ?_, hnumber, rfl, rfl, rfl⟩
    rw [hL.header, hb, Option.map_some]

/-- The genesis block of a new chain. -/
theorem blockNumber_roundTrip_genesis : ∃ block,
    ethGetBlockByNumber (Chain.blockTree (sample true) (Chain.new (sample true) Db.empty) 0) (hexNumber 0) =
      .ok block := by
  obtain ⟨t, -, hfound, -⟩ := blockNumber_roundTrip (P := sample true) .new 0 0
  exact hfound.mpr UInt64.zero_le

theorem answer_eq_ok {α β : Type} {result : Except BlockTree.Fail α} {message : BlockTree.Error → String} {ok : α → β}
    {b : β} (h : answer result message ok = .ok b) : ∃ a, result = .ok a ∧ ok a = b := by
  unfold answer at h
  split at h
  · exact ⟨_, rfl, Except.ok.inj h⟩
  · simp at h
  · simp at h

/-- **The two lookups agree.**  On any reachable chain, the number in the answer to a hash finds the same block. -/
theorem ethGetBlockByNumber_of_hash {P : Platform} {db : Db} (h : Reachable P db) {random : UInt64} {hash : String}
    {block : Block} (hblock : ethGetBlockByHash (Chain.blockTree P db random) hash = .ok block) :
    ethGetBlockByNumber (Chain.blockTree P db random) block.blockNumber = .ok block := by
  obtain ⟨L, hL⟩ := h.stores
  obtain ⟨b, hb, rfl⟩ := answer_eq_ok hblock
  obtain ⟨n, -, hn⟩ := (eval_getHeaderByHash_eq_ok hL).mp hb
  have hnumber := hL.number_toNat hn
  have hfind : (Chain.blockTree P db random).getHeaderByBlockNumber b.number = .ok b :=
    (eval_getHeaderByBlockNumber_eq_ok hL).mpr (by rw [hnumber, hn])
  show ethGetBlockByNumber _ (hexNumber b.number) = _
  rw [ethGetBlockByNumber_of_ok _ (isBlockNumber_hexNumber b.number).parse, hfind]
  rfl

end Simb.Rpc
