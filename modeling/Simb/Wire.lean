import Simb.Interface
import Simb.Lib.RlpCanonical

/-!
# The wire formats are exact

A header or a list of transactions has one encoding, which is read back whatever follows it, and nothing else is
accepted: `Header.rlp_canonical` and `Transaction.eq_encodeAll_append` are the converses of the round trips.
-/

namespace Simb

open Simb.Lib

theorem Str.eq_encode_append {buf r : List UInt8} {s : Str} (h : Str.decode buf = some (s, r)) :
    buf = s.encode ++ r := by
  unfold Str.decode at h
  split at h
  · rename_i t r' ht
    split at h
    · cases h
      exact Rlp.eq_encodeString_append ht
    · cases h
  · cases h

/-! ## Headers -/

theorem Header.eq_payload_append {buf r : List UInt8} {h : Header} (hd : Header.decodeFields buf = some (h, r)) :
    buf = h.payload ++ r := by
  simp only [Header.decodeFields, Option.bind_eq_bind, Option.bind_eq_some_iff] at hd
  obtain ⟨x₁, h₁, x₂, h₂, x₃, h₃, x₄, h₄, x₅, h₅, x₆, h₆, hd⟩ := hd
  cases hd
  rw [Rlp.eq_encodeUInt64_append h₁, Str.eq_encode_append h₂, Str.eq_encode_append h₃, Rlp.eq_encodeUInt64_append h₄,
    Rlp.eq_encodeUInt64_append h₅, Str.eq_encode_append h₆]
  simp only [Header.payload, List.append_assoc]

/-- A header has one encoding. -/
theorem Header.rlp_canonical : Header.rlp.Canonical := fun _ _ _ h =>
  Rlp.eq_encodeList_append (fun _ _ _ hf => Header.eq_payload_append hf) h

/-! ## Transactions -/

namespace Transaction

theorem eq_payload_append {buf r : List UInt8} {t : Transaction} (hd : decodeFields buf = some (t, r)) :
    buf = t.payload ++ r := by
  simp only [decodeFields, Option.bind_eq_bind, Option.bind_eq_some_iff] at hd
  obtain ⟨x₁, h₁, x₂, h₂, x₃, h₃, x₄, h₄, x₅, h₅, hd⟩ := hd
  cases hd
  rw [Str.eq_encode_append h₁, Str.eq_encode_append h₂, Str.eq_encode_append h₃, Rlp.eq_encodeUInt64_append h₄,
    Rlp.eq_encodeUInt64_append h₅]
  simp only [payload, List.append_assoc]

/-- A transaction has one encoding. -/
theorem rlp_canonical : rlp.Canonical := fun _ _ _ h =>
  Rlp.eq_encodeList_append (fun _ _ _ hf => eq_payload_append hf) h

/-- A list of transactions has one encoding. -/
theorem eq_encodeAll_append {buf r : List UInt8} {transactions : List Transaction}
    (h : decodeAll buf = some (transactions, r)) : buf = encodeAll transactions ++ r :=
  Rlp.eq_encodeVec_append rlp_canonical h

theorem length_flatMap_lt_of_decodeAll {buf r : List UInt8} {transactions : List Transaction}
    (h : decodeAll buf = some (transactions, r)) : (transactions.flatMap rlp.encode).length < 2 ^ 64 :=
  Rlp.length_flatMap_lt_of_decodeVec rlp_canonical h

theorem decodeAll_encodeAll {transactions : List Transaction}
    (h : (transactions.flatMap rlp.encode).length < 2 ^ 64) (r : List UInt8) :
    decodeAll (encodeAll transactions ++ r) = some (transactions, r) :=
  Rlp.decodeVec_encodeVec rlp.decode_encode (fun t => Rlp.encodeList_ne_nil t.payload) h r

/-- The memory that a transaction takes up: three `String`s, two `u64`s, and the texts. -/
def size (t : Transaction) : ℕ :=
  88 + (t.hash.text.utf8ByteSize + t.sender.text.utf8ByteSize + t.recipient.text.utf8ByteSize)

/-- The encoding takes up no more. -/
theorem length_encode_le (t : Transaction) : (rlp.encode t).length ≤ t.size := by
  have hb₁ := t.hash.bound
  have hb₂ := t.sender.bound
  have hb₃ := t.recipient.bound
  have h₁ := Rlp.length_encodeString_le (s := t.hash.text) (by omega)
  have h₂ := Rlp.length_encodeString_le (s := t.sender.text) (by omega)
  have h₃ := Rlp.length_encodeString_le (s := t.recipient.text) (by omega)
  have h₄ := Rlp.length_encodeUInt64_le t.value
  have h₅ := Rlp.length_encodeUInt64_le t.nonce
  have hlist := Rlp.length_encodeList_le t.length_payload_lt
  have hpayload : t.payload.length = (Rlp.encodeString t.hash.text).length +
      ((Rlp.encodeString t.sender.text).length + ((Rlp.encodeString t.recipient.text).length +
        ((Rlp.encodeUInt64 t.value).length + (Rlp.encodeUInt64 t.nonce).length))) := by
    simp only [payload, Str.encode, List.length_append]
  show (Rlp.encodeList t.payload).length ≤ _
  unfold size
  omega

end Transaction

/-- A Rust `Vec<Transaction>`, in memory as a `Str` is. -/
structure TransactionVec where
  transactions : List Transaction
  bound : (transactions.map Transaction.size).sum < 2 ^ 57

theorem TransactionVec.length_flatMap_lt (ts : TransactionVec) :
    (ts.transactions.flatMap Transaction.rlp.encode).length < 2 ^ 64 := by
  have hle : (ts.transactions.flatMap Transaction.rlp.encode).length ≤ (ts.transactions.map Transaction.size).sum := by
    rw [List.length_flatMap]
    exact List.sum_le_sum fun t _ => t.length_encode_le
  have hb := ts.bound
  omega


end Simb
