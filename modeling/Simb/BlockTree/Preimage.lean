import Simb.BlockTree.MinedHash
import Simb.Lib.JsonText

/-!
# What is hashed says which block it is

The text that `calculate_hash` gives to SHA-256 is a JSON object with all that goes into the hash.  Such a text is
unambiguous, whatever the strings in it look like, so two blocks with the same hash have the same contents or are a
collision of SHA-256 (`preimage_unambiguous`).
-/

namespace Simb.BlockTree

open Simb.Lib

/-- What goes into the hash of a block. -/
structure Contents where
  blockNumber : UInt64
  timestamp : UInt64
  parentHash : String
  stateRoot : String
  data : String
  nonce : UInt64

namespace Contents

/-- The text that is hashed. -/
def text (b : Contents) : String := hashedText b.blockNumber b.timestamp b.parentHash b.stateRoot b.data b.nonce

/-- The hash that `mine_block` gives to a block. -/
def hash (P : Platform) (b : Contents) : Str :=
  (mineBlock P b.blockNumber b.timestamp b.parentHash b.stateRoot b.data b.nonce).2

theorem text_injective : Function.Injective text := by
  rintro ⟨n, t, p, s, d, k⟩ ⟨n', t', p', s', d', k'⟩ h
  have hmembers := Json.object_injective h
  simp only [List.cons.injEq, Prod.mk.injEq, Json.Value.num.injEq, Json.Value.str.injEq, true_and, and_true]
    at hmembers
  obtain ⟨rfl, rfl, rfl, rfl, rfl, rfl⟩ := hmembers
  rfl

theorem eq_of_hash_eq {P : Platform} {b b' : Contents} (hsep : P.Separates b.text b'.text)
    (h : b.hash P = b'.hash P) : b = b' := text_injective (hsep (hexDigest_injective h))

end Contents

/-- **The text that is hashed is unambiguous.**  It is the same for two blocks exactly if their numbers, times, parent
hashes, state roots, data and nonces are.  If SHA-256 does not collide on the two texts, blocks with the same hash have
the same contents. -/
theorem preimage_unambiguous (b b' : Contents) :
    (b.text = b'.text ↔ b.blockNumber = b'.blockNumber ∧ b.timestamp = b'.timestamp ∧ b.parentHash = b'.parentHash ∧
        b.stateRoot = b'.stateRoot ∧ b.data = b'.data ∧ b.nonce = b'.nonce) ∧
      ∀ P : Platform, P.Separates b.text b'.text → b.hash P = b'.hash P → b = b' := by
  refine ⟨?_, fun P => Contents.eq_of_hash_eq⟩
  rw [Contents.text_injective.eq_iff]
  cases b
  cases b'
  simp

/-- What goes into the hash of the block that is mined on `t`. -/
def minedContents (P : Platform) (draws : Chain.Draws) (t : Header) : Contents where
  blockNumber := t.number + 1
  timestamp := draws.timestamp
  parentHash := t.hash.text
  stateRoot := (hexDigest (P.sha256 draws.randomBytes.toList)).text
  data := "a block data"
  nonce := draws.nonce

/-- The contents that a header says. -/
def ownContents (header : Header) : Contents where
  blockNumber := header.number
  timestamp := header.timestamp
  parentHash := header.parentHash.text
  stateRoot := header.stateRoot.text
  data := "a block data"
  nonce := header.nonce

theorem text_minedContents (P : Platform) (draws : Chain.Draws) (t : Header) :
    (minedContents P draws t).text = minedText P draws t := rfl

theorem text_ownContents (header : Header) : (ownContents header).text = ownText header := rfl

/-- Two different contents on which SHA-256 does not collide: what is hashed for the first block, and what its header
says. -/
theorem preimage_unambiguous_first :
    (minedContents rehashed zeroDraws (Chain.genesis rehashed)).hash rehashed ≠
      (ownContents (minedOn rehashed zeroDraws (Chain.genesis rehashed))).hash rehashed := by
  intro h
  have hne := minedText_ne_ownText rehashed zeroDraws (Chain.genesis rehashed)
  have hsep := separates_rehashed
  rw [← text_minedContents, ← text_ownContents] at hne hsep
  exact hne (congrArg Contents.text ((preimage_unambiguous _ _).2 rehashed hsep h))

end Simb.BlockTree
