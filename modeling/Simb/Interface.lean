import Simb.Lib.Rlp

/-!
# The types shared by the components (`interface.rs`)

Headers, transactions and the requests of the network layer.  The texts of a header are `Str`, strings no
longer than an address space: with that, the RLP formats that `alloy_rlp` derives for `Header` and `Transaction`
are codecs (`Header.rlp`, `Transaction.rlp`), whatever the header or the transaction.
-/

namespace Simb

open Simb.Lib

/-- A Rust `String`.  No 64-bit target gives a process `2 ^ 57` bytes of memory, so no string is longer. -/
structure Str where
  text : String
  bound : text.utf8ByteSize < 2 ^ 57 := by decide
  deriving DecidableEq

/-- The default of a string. -/
def Str.empty : Str := ⟨"", by decide⟩

theorem Str.ext_iff {s t : Str} : s = t ↔ s.text = t.text := by
  cases s; cases t; simp

structure Header where
  number : UInt64
  parentHash : Str
  stateRoot : Str
  timestamp : UInt64
  nonce : UInt64
  hash : Str
  deriving DecidableEq

structure Transaction where
  hash : Str
  sender : Str
  recipient : Str
  value : UInt64
  nonce : UInt64
  deriving DecidableEq

/-- The identity of a peer. -/
structure PeerId where
  bytes : List UInt8
  deriving DecidableEq

/-- Request for block header. -/
structure HeadersRequest where
  limit : UInt64
  startBlock : UInt64
  deriving DecidableEq

/-- Error variants that can happen when sending requests to network manager.  What libp2p says about the
failure is never read, only that there was one. -/
inductive RequestError where
  | channelClosed (message : String)
  | timeout
  | outboundFailure
  | dialError
  | transportError
  | publishError
  deriving DecidableEq

abbrev RequestResponse (α : Type) := Except RequestError α

abbrev HeadersResponse := List Header

/-! ## The wire format of headers -/

namespace Str

def encode (s : Str) : List UInt8 := Rlp.encodeString s.text

/-- A text longer than the address space does not come out of a buffer. -/
def decode (buf : List UInt8) : Option (Str × List UInt8) :=
  match Rlp.decodeString buf with
  | some (s, r) => if h : s.utf8ByteSize < 2 ^ 57 then some (⟨s, h⟩, r) else none
  | none => none

theorem decode_encode (s : Str) (r : List UInt8) : decode (s.encode ++ r) = some (s, r) := by
  have hs := s.bound
  unfold decode encode
  rw [Rlp.decodeString_encodeString (by omega)]
  simp only [dif_pos hs]

theorem length_encode_le (s : Str) : s.encode.length ≤ 2 ^ 57 + 9 := by
  have hs := s.bound
  have := Rlp.length_encodeString_le (s := s.text) (by omega)
  unfold encode
  omega

end Str

namespace Header

/-- The fields of a header, one RLP item each, in the order of the struct. -/
def payload (h : Header) : List UInt8 :=
  Rlp.encodeUInt64 h.number ++ (h.parentHash.encode ++ (h.stateRoot.encode ++
    (Rlp.encodeUInt64 h.timestamp ++ (Rlp.encodeUInt64 h.nonce ++ h.hash.encode))))

def decodeFields (buf : List UInt8) : Option (Header × List UInt8) := do
  let (number, buf) ← Rlp.decodeUInt64 buf
  let (parentHash, buf) ← Str.decode buf
  let (stateRoot, buf) ← Str.decode buf
  let (timestamp, buf) ← Rlp.decodeUInt64 buf
  let (nonce, buf) ← Rlp.decodeUInt64 buf
  let (hash, buf) ← Str.decode buf
  some ({ number, parentHash, stateRoot, timestamp, nonce, hash }, buf)

theorem decodeFields_payload (h : Header) (r : List UInt8) : decodeFields (h.payload ++ r) = some (h, r) := by
  simp only [decodeFields, payload, List.append_assoc, Rlp.decodeUInt64_encodeUInt64, Str.decode_encode,
    Option.bind_eq_bind, Option.bind_some]

theorem length_payload_lt (h : Header) : h.payload.length < 2 ^ 64 := by
  have h1 := Rlp.length_encodeUInt64_le h.number
  have h2 := h.parentHash.length_encode_le
  have h3 := h.stateRoot.length_encode_le
  have h4 := Rlp.length_encodeUInt64_le h.timestamp
  have h5 := Rlp.length_encodeUInt64_le h.nonce
  have h6 := h.hash.length_encode_le
  simp only [payload, List.length_append]
  omega

/-- `RlpEncodable` and `RlpDecodable` as derived for `Header`: the RLP list of its fields. -/
def rlp : Codec Header where
  encode h := Rlp.encodeList h.payload
  decode := Rlp.decodeStruct decodeFields
  decode_encode h r := Rlp.decodeStruct_encodeList h.length_payload_lt (decodeFields_payload h r)

end Header

/-! ## The wire format of transactions -/

theorem Str.length_lt_of_decode {buf r : List UInt8} {s : Str} (h : Str.decode buf = some (s, r)) :
    r.length < buf.length := by
  unfold Str.decode at h
  split at h
  · rename_i hs
    split at h
    · cases h
      exact Rlp.length_lt_of_decodeString hs
    · cases h
  · cases h

namespace Transaction

/-- The fields of a transaction, one RLP item each, in the order of the struct. -/
def payload (t : Transaction) : List UInt8 :=
  t.hash.encode ++ (t.sender.encode ++ (t.recipient.encode ++ (Rlp.encodeUInt64 t.value ++ Rlp.encodeUInt64 t.nonce)))

def decodeFields (buf : List UInt8) : Option (Transaction × List UInt8) := do
  let (hash, buf) ← Str.decode buf
  let (sender, buf) ← Str.decode buf
  let (recipient, buf) ← Str.decode buf
  let (value, buf) ← Rlp.decodeUInt64 buf
  let (nonce, buf) ← Rlp.decodeUInt64 buf
  some ({ hash, sender, recipient, value, nonce }, buf)

theorem decodeFields_payload (t : Transaction) (r : List UInt8) : decodeFields (t.payload ++ r) = some (t, r) := by
  simp only [decodeFields, payload, List.append_assoc, Rlp.decodeUInt64_encodeUInt64, Str.decode_encode,
    Option.bind_eq_bind, Option.bind_some]

theorem length_payload_lt (t : Transaction) : t.payload.length < 2 ^ 64 := by
  have h1 := t.hash.length_encode_le
  have h2 := t.sender.length_encode_le
  have h3 := t.recipient.length_encode_le
  have h4 := Rlp.length_encodeUInt64_le t.value
  have h5 := Rlp.length_encodeUInt64_le t.nonce
  simp only [payload, List.length_append]
  omega

/-- `RlpEncodable` and `RlpDecodable` as derived for `Transaction`: the RLP list of its fields. -/
def rlp : Codec Transaction where
  encode t := Rlp.encodeList t.payload
  decode := Rlp.decodeStruct decodeFields
  decode_encode t r := Rlp.decodeStruct_encodeList t.length_payload_lt (decodeFields_payload t r)

theorem length_le_of_decodeFields {buf r : List UInt8} {t : Transaction} (h : decodeFields buf = some (t, r)) :
    r.length ≤ buf.length := by
  simp only [decodeFields, Option.bind_eq_bind, Option.bind_eq_some_iff] at h
  obtain ⟨x₁, h₁, x₂, h₂, x₃, h₃, x₄, h₄, x₅, h₅, h⟩ := h
  cases h
  have := Str.length_lt_of_decode h₁
  have := Str.length_lt_of_decode h₂
  have := Str.length_lt_of_decode h₃
  have := Rlp.length_lt_of_decodeUInt64 h₄
  have := Rlp.length_lt_of_decodeUInt64 h₅
  omega

/-- `Vec<Transaction>::encode`. -/
def encodeAll (transactions : List Transaction) : List UInt8 := Rlp.encodeVec rlp.encode transactions

/-- `Vec<Transaction>::decode`. -/
def decodeAll : List UInt8 → Option (List Transaction × List UInt8) := Rlp.decodeVec rlp.decode

/-- The loop of the decoder ends by itself: with any fuel from the length of the payload on it comes to the same. -/
theorem decodeItems_fuel {buf : List UInt8} {fuel : ℕ} (h : buf.length ≤ fuel) :
    Rlp.decodeItems rlp.decode fuel buf = Rlp.decodeItems rlp.decode buf.length buf :=
  Rlp.decodeItems_of_length_le
    (fun _ _ _ hd => Rlp.length_lt_of_decodeStruct (fun _ _ _ hf => length_le_of_decodeFields hf) hd) h le_rfl

end Transaction

end Simb
