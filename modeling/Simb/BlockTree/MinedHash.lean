import Simb.BlockTree.Mining

/-!
# The hash of a mined block

The genesis block is hashed with the fields it has.  `mine_block` hashes a block with the time and a state root, and
then builds a header with neither.  What was hashed and what the header says are therefore different texts, whatever
was drawn (`minedText_ne_ownText`), and the hash of a mined block is not the hash of its own fields
(`mined_hash_never_own`), unless SHA-256 collides on the two.
-/

namespace Simb.BlockTree

open Simb.Lib

variable {P : Platform} {db : Db} {L : List Header} {draws : Chain.Draws} {header t : Header}

/-- The hash of a header is computed from its own fields. -/
def OwnHash (P : Platform) (header : Header) : Prop :=
  header.hash = hexDigest (calculateHash P header.number header.timestamp header.parentHash.text header.stateRoot.text
    "a block data" header.nonce)

/-- What is hashed for a header with these fields. -/
def ownText (header : Header) : String :=
  hashedText header.number header.timestamp header.parentHash.text header.stateRoot.text "a block data" header.nonce

/-- What is hashed for the block that is mined on `t`. -/
def minedText (P : Platform) (draws : Chain.Draws) (t : Header) : String :=
  hashedText (t.number + 1) draws.timestamp t.hash.text (hexDigest (P.sha256 draws.randomBytes.toList)).text
    "a block data" draws.nonce

/-- SHA-256 does not collide on two texts. -/
def Platform.Separates (P : Platform) (s s' : String) : Prop :=
  P.sha256 s.toUTF8.data.toList = P.sha256 s'.toUTF8.data.toList → s = s'

/-- The database after calls of `mine_block` on a fresh chain. -/
def mineAll (P : Platform) (calls : List Chain.Draws) : Db :=
  calls.foldl (fun db draws => (Op.mine draws).apply P db) (Chain.new P Db.empty)

/-! ## The two texts -/

theorem utf8_injective {s s' : String} (h : s.toUTF8.data.toList = s'.toUTF8.data.toList) : s = s' :=
  String.toByteArray_inj.mp (ByteArray.ext (Array.toList_inj.mp h))

/-- The state root and the time stand at the end of the text. -/
theorem hashedText_eq (number : UInt64) (parentHash data : String) (nonce : UInt64) :
    ∃ front, ∀ timestamp stateRoot, hashedText number timestamp parentHash stateRoot data nonce =
      front ++ Json.quote stateRoot ++ "," ++ Json.quote "timestamp" ++ ":" ++ toString timestamp.toNat ++ "\x7d" := by
  refine ⟨"\x7b" ++ Json.quote "block_number" ++ ":" ++ toString number.toNat ++ "," ++
    Json.quote "data" ++ ":" ++ Json.quote data ++ "," ++ Json.quote "nonce" ++ ":" ++ toString nonce.toNat ++ "," ++
    Json.quote "parent_hash" ++ ":" ++ Json.quote parentHash ++ "," ++ Json.quote "state_root" ++ ":", ?_⟩
  intro timestamp stateRoot
  simp only [hashedText, Json.object, Json.Value.print, List.map_cons, List.map_nil, String.intercalate_cons_cons,
    String.intercalate_singleton, ← String.append_assoc]

/-- A block is hashed with a state root, of 64 characters, and its header has none. -/
theorem minedText_ne_ownText (P : Platform) (draws : Chain.Draws) (t : Header) :
    minedText P draws t ≠ ownText (minedOn P draws t) := by
  obtain ⟨front, hfront⟩ := hashedText_eq (t.number + 1) t.hash.text "a block data" draws.nonce
  have hown : ownText (minedOn P draws t) = hashedText (t.number + 1) 0 t.hash.text "" "a block data" draws.nonce := rfl
  have hquote := Json.length_le_length_quote (hexDigest (P.sha256 draws.randomBytes.toList)).text
  have hroot : (hexDigest (P.sha256 draws.randomBytes.toList)).text.length = 64 := by
    show (hexEncode _).length = 64
    rw [length_hexEncode, Vector.length_toList]
  intro heq
  rw [hown, minedText, hfront, hfront] at heq
  have hlen := congrArg String.length heq
  simp only [String.length_append] at hlen
  have hempty : (Json.quote "").length = 2 := by decide
  have hzero : (toString (0 : UInt64).toNat).length = 1 := by decide
  omega

theorem hexDigest_injective : Function.Injective hexDigest := by
  intro a b h
  exact Vector.toList_inj.mp (hexEncode_injective (congrArg Str.text h))

/-- The hash of a mined block is its own exactly if SHA-256 collides on the two texts. -/
theorem ownHash_minedOn_iff : OwnHash P (minedOn P draws t) ↔
    P.sha256 (minedText P draws t).toUTF8.data.toList = P.sha256 (ownText (minedOn P draws t)).toUTF8.data.toList :=
  hexDigest_injective.eq_iff

theorem not_ownHash_minedOn (hsep : P.Separates (minedText P draws t) (ownText (minedOn P draws t))) :
    ¬ OwnHash P (minedOn P draws t) := by
  rw [ownHash_minedOn_iff]
  exact fun hcollides => minedText_ne_ownText P draws t (hsep hcollides)

/-! ## Chains of mined blocks -/

/-- Above the genesis block, `mine_block` only writes blocks that are mined. -/
theorem mine_above_genesis (h : db.Stores P L) {Q : Header → Prop} (hmined : ∀ t, Q (minedOn P draws t))
    (hQ : ∀ i b, L[i + 1]? = some b → Q b) :
    ∃ L', ((Op.mine draws).apply P db).Stores P L' ∧ ∀ i b, L'[i + 1]? = some b → Q b := by
  have he := exec_mineBlock h draws
  rw [exec_mineOn] at he
  change (Op.mine draws).apply P db = _ at he
  rw [he]
  split
  · exact ⟨L, h, hQ⟩
  · refine ⟨_, h.tryAdd _, ?_⟩
    intro i b hb
    unfold addHeader at hb
    split at hb
    · rename_i hv
      rw [getElem?_put (height_le_of_validate hv)] at hb
      split at hb
      · cases hb
        exact hmined _
      · exact hQ i b hb
    · exact hQ i b hb

theorem mineAll_above_genesis (P : Platform) (calls : List Chain.Draws) :
    ∃ L, (mineAll P calls).Stores P L ∧
      ∀ i b, L[i + 1]? = some b → ∃ draws ∈ calls, ∃ t, b = minedOn P draws t := by
  -- the calls that are still to come are a suffix of `calls`
  suffices hrun : ∀ (rest : List Chain.Draws) (db : Db) (L : List Header), rest ⊆ calls → db.Stores P L →
      (∀ i b, L[i + 1]? = some b → ∃ draws ∈ calls, ∃ t, b = minedOn P draws t) →
      ∃ L', (rest.foldl (fun db draws => (Op.mine draws).apply P db) db).Stores P L' ∧
        ∀ i b, L'[i + 1]? = some b → ∃ draws ∈ calls, ∃ t, b = minedOn P draws t from
    hrun calls _ _ (List.Subset.refl _) (stores_new P) (by simp)
  intro rest
  induction rest with
  | nil => exact fun db L _ h hQ => ⟨L, h, hQ⟩
  | cons draws rest ih =>
    intro db L hsub h hQ
    obtain ⟨hmem, hsub⟩ := List.cons_subset.mp hsub
    obtain ⟨L', hL', hQ'⟩ := mine_above_genesis h (fun t => ⟨draws, hmem, t, rfl⟩) hQ
    exact ih _ L' hsub hL' hQ'

/-- **No mined block carries its own hash.**  The block that `mine_block` stores and returns, on any reachable chain and
with any draws, does not have the hash of its own fields; nor has any block above genesis, in a chain that is grown by
`mine_block`.  SHA-256 is only asked not to collide on the text that was hashed and the text of the header's fields. -/
theorem mined_hash_never_own (P : Platform) :
    (∀ db draws t header, Reachable P db → (Chain.tip P).eval db = .ok t →
        (Chain.mineBlock P draws).eval db = .ok (.mined header) →
        (Chain.getHeaderByBlockNumber P header.number).eval ((Chain.mineBlock P draws).exec db) = .ok header ∧
          (P.Separates (minedText P draws t) (ownText header) → ¬ OwnHash P header)) ∧
      ∀ (calls : List Chain.Draws) (n : UInt64) (b : Header), 1 ≤ n →
        (Chain.getHeaderByBlockNumber P n).eval (mineAll P calls) = .ok b →
        ∃ draws ∈ calls, ∃ t, b = minedOn P draws t ∧
          (P.Separates (minedText P draws t) (ownText b) → ¬ OwnHash P b) := by
  constructor
  · intro db draws t header h ht he
    obtain ⟨L, hL⟩ := h.stores
    obtain ⟨rfl, hheight, hexec⟩ := runOn_mineBlock_mined hL he
    rw [eval_tip_eq_ok hL] at ht
    subst ht
    constructor
    · rw [hexec, eval_getHeaderByBlockNumber_eq_ok (hL.insertHeader hheight.le), getElem?_put hheight.le]
      exact if_pos rfl
    · exact not_ownHash_minedOn
  · intro calls n b hn hb
    obtain ⟨L, hL, hmined⟩ := mineAll_above_genesis P calls
    rw [eval_getHeaderByBlockNumber_eq_ok hL] at hb
    obtain ⟨i, hi⟩ := Nat.exists_eq_succ_of_ne_zero fun h0 => ne_zero_of_one_le hn (UInt64.toNat_inj.mp h0)
    rw [hi] at hb
    obtain ⟨draws, hdraws, t, rfl⟩ := hmined i b hb
    exact ⟨draws, hdraws, t, rfl, not_ownHash_minedOn⟩

/-! ### The first block -/

/-- The text of the fields of the first block that is mined at time `0` with all draws `0`. -/
def firstOwnText : String := hashedText 1 0 (Chain.genesis (sample true)).hash.text "" "a block data" 0

/-- SHA-256 on the texts of `sampleSha256`, and on the one above. -/
def ownSha256 (bs : List UInt8) : Vector UInt8 32 :=
  if bs = firstOwnText.toUTF8.data.toList then
    #v[0xcf, 0x28, 0x7e, 0xfe, 0x54, 0x17, 0xf7, 0xd4, 0xef, 0xb3, 0x26, 0xd5, 0x6c, 0x49, 0x00, 0xeb,
    0xde, 0x7e, 0xc9, 0x14, 0x1c, 0x36, 0x31, 0xd9, 0x57, 0xf3, 0xea, 0xc3, 0x11, 0xd6, 0x33, 0x28]
  else sampleSha256 bs

theorem sampleSha256_ne (bs : List UInt8) : sampleSha256 bs ≠ ownSha256 firstOwnText.toUTF8.data.toList := by
  unfold sampleSha256 ownSha256
  rw [if_pos rfl]
  split_ifs <;> decide

theorem eq_of_ownSha256_eq {bs : List UInt8} (h : ownSha256 bs = ownSha256 firstOwnText.toUTF8.data.toList) :
    bs = firstOwnText.toUTF8.data.toList := by
  by_contra hne
  have hother : ownSha256 bs = sampleSha256 bs := if_neg hne
  exact sampleSha256_ne bs (hother.symm.trans h)

/-- A debug build in which the fields of the first block can be hashed. -/
def rehashed : Platform := ⟨true, ownSha256, Header.rlp⟩

theorem sha256_rehashed (bs : List UInt8) : rehashed.sha256 bs = ownSha256 bs := rfl

theorem genesis_rehashed : (Chain.genesis rehashed).hash.text = (Chain.genesis (sample true)).hash.text := by
  decide +kernel

theorem ownText_rehashed : ownText (minedOn rehashed zeroDraws (Chain.genesis rehashed)) = firstOwnText := by
  unfold firstOwnText
  rw [← genesis_rehashed]
  rfl

/-- The two texts of the first block have different hashes. -/
theorem separates_rehashed : rehashed.Separates (minedText rehashed zeroDraws (Chain.genesis rehashed))
    (ownText (minedOn rehashed zeroDraws (Chain.genesis rehashed))) := by
  rw [ownText_rehashed]
  intro hcollides
  rw [sha256_rehashed, sha256_rehashed] at hcollides
  exact utf8_injective (eq_of_ownSha256_eq hcollides)

theorem mine_rehashed : (Chain.mineBlock rehashed zeroDraws).eval (Chain.new rehashed Db.empty) =
    .ok (.mined (minedOn rehashed zeroDraws (Chain.genesis rehashed))) := by
  rw [ChainM.eval_eq, runOn_mineBlock_below (stores_new rehashed) (by decide)]
  rfl

/-- The first block, mined at time `0` with all draws `0`, does not carry its own hash. -/
theorem mined_hash_never_own_first :
    ¬ OwnHash rehashed (minedOn rehashed zeroDraws (Chain.genesis rehashed)) :=
  ((mined_hash_never_own rehashed).1 _ _ _ _ .new (tip_new _) mine_rehashed).2 separates_rehashed

/-- The first block, mined at time `0` with all draws `0`: the header that is returned has the hash `a248fb72...`, of a
text with a state root, and the hash of its own fields is `cf287efe...`. -/
theorem first_block_hash_not_own :
    Reachable rehashed (Chain.new rehashed Db.empty) ∧
      ∃ header, (Chain.mineBlock rehashed zeroDraws).eval (Chain.new rehashed Db.empty) = .ok (.mined header) ∧
        ¬ OwnHash rehashed header :=
  ⟨.new, _, mine_rehashed, not_ownHash_minedOn separates_rehashed⟩

end Simb.BlockTree
