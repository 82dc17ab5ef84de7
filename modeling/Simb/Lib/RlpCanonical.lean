import Simb.Lib.Rlp

/-!
# RLP is canonical

The converse of the round trips of `Rlp`: whatever a decoder accepts is the encoding of what it returns, followed by
the rest it leaves (`Codec.Canonical`).  So an item has one encoding only, and two buffers that decode to the same item
differ at most in what follows it.
-/

namespace Simb.Lib

/-- What is read from a buffer is written in it, and what is left follows. -/
def Codec.Canonical {α : Type} (C : Codec α) : Prop :=
  ∀ buf a r, C.decode buf = some (a, r) → buf = C.encode a ++ r

namespace Rlp

/-! ## Big-endian numbers -/

theorem beBytes_ofBe {bs : Bytes} (h : bs.head? ≠ some 0) : beBytes (ofBe bs) = bs := by
  have hlt : ∀ d ∈ bs.reverse.map UInt8.toNat, d < 256 := by
    intro d hd
    obtain ⟨b, -, rfl⟩ := List.mem_map.mp hd
    exact b.toNat_lt
  have hlast : ∀ hne : bs.reverse.map UInt8.toNat ≠ [], (bs.reverse.map UInt8.toNat).getLast hne ≠ 0 := by
    intro hne h0
    have hbs : bs.reverse ≠ [] := fun hnil => hne (by rw [hnil]; rfl)
    rw [List.getLast_map] at h0
    refine h ?_
    rw [← List.getLast?_reverse, List.getLast?_eq_some_getLast hbs]
    exact congrArg some (UInt8.toNat_inj.mp h0)
  unfold beBytes ofBe
  rw [Nat.digits_ofDigits 256 (by norm_num) _ hlt hlast, List.map_map]
  have hid : bs.reverse.map (UInt8.ofNat ∘ UInt8.toNat) = bs.reverse := by
    conv_rhs => rw [← List.map_id bs.reverse]
    exact List.map_congr_left fun b _ => UInt8.ofNat_toNat
  rw [hid, List.reverse_reverse]

theorem ofBe_lt {bs : Bytes} (h : bs.length ≤ 8) : ofBe bs < 2 ^ 64 := by
  have hlt : ofBe bs < 256 ^ bs.length := by
    have hdigits : ∀ d ∈ bs.reverse.map UInt8.toNat, d < 256 := by
      intro d hd
      obtain ⟨b, -, rfl⟩ := List.mem_map.mp hd
      exact b.toNat_lt
    have := Nat.ofDigits_lt_base_pow_length (b := 256) (by norm_num) hdigits
    rwa [List.length_map, List.length_reverse] at this
  calc ofBe bs < 256 ^ bs.length := hlt
    _ ≤ 256 ^ 8 := Nat.pow_le_pow_right (by norm_num) h
    _ = 2 ^ 64 := by norm_num

/-! ## Item prefixes -/

/-- The short prefix. -/
theorem encodeHead_short {isList : Bool} {b : UInt8} {len : ℕ} (hb : b.toNat = base isList + len) (hlen : len < 56) :
    encodeHead isList len = [b] := by
  unfold encodeHead
  rw [if_pos hlen, ← hb, UInt8.ofNat_toNat]

/-- The prefix with a length in `k` bytes. -/
theorem encodeHead_long {isList : Bool} {b : UInt8} {bs : Bytes} (hb : b.toNat = base isList + 55 + bs.length)
    (hzero : bs.head? ≠ some 0) (hlen : ¬ ofBe bs < 56) : encodeHead isList (ofBe bs) = b :: bs := by
  unfold encodeHead
  rw [if_neg hlen, beBytes_ofBe hzero, ← hb, UInt8.ofNat_toNat]

/-- What a prefix can be: a byte that is its own encoding, or a prefix as it is written. -/
theorem decodeHead_cases {buf r : Bytes} {isList : Bool} {len : ℕ} (h : decodeHead buf = some (isList, len, r)) :
    (isList = false ∧ len = 1 ∧ r = buf ∧ ∃ b rest, buf = b :: rest ∧ b.toNat < 0x80) ∨
      (buf = encodeHead isList len ++ r ∧ len ≤ r.length ∧
        (isList = false → len = 1 → ∀ c, r.head? = some c → 0x80 ≤ c.toNat)) := by
  rcases decodeHead_shapes h with
    hsingle | ⟨b, rfl, hb, hshort, hlen, hone⟩ | ⟨b, bs, rfl, hb, -, hzero, rfl, hbig, hlen⟩
  · exact .inl hsingle
  · refine .inr ⟨?_, hlen, hone⟩
    rw [encodeHead_short hb hshort]
    rfl
  · refine .inr ⟨?_, hlen, fun _ hlen => by omega⟩
    rw [encodeHead_long hb hzero (by omega)]
    rfl

/-- No prefix announces a longer payload than a `u64` can say. -/
theorem len_lt_of_decodeHead {buf r : Bytes} {isList : Bool} {len : ℕ} (h : decodeHead buf = some (isList, len, r)) :
    len < 2 ^ 64 := by
  rcases decodeHead_shapes h with ⟨-, rfl, -⟩ | ⟨b, -, -, hshort, -⟩ | ⟨b, bs, -, -, hbytes, -, rfl, -⟩
  · norm_num
  · omega
  · exact ofBe_lt hbytes

/-! ## Byte strings, integers and text -/

/-- The encoding of a string that is not a single small byte. -/
theorem encodeBytes_of_head {bs : Bytes} (hone : bs.length = 1 → ∀ c, bs.head? = some c → 0x80 ≤ c.toNat) :
    encodeBytes bs = encodeHead false bs.length ++ bs := by
  unfold encodeBytes
  split
  · rename_i b
    have hb := hone rfl b rfl
    rw [if_neg (by omega), List.length_singleton]
  · rfl

theorem eq_encodeBytes_append {buf bs r : Bytes} (h : decodeBytes buf = some (bs, r)) : buf = encodeBytes bs ++ r := by
  unfold decodeBytes at h
  split at h
  · rename_i len r' hhead
    cases h
    rcases decodeHead_cases hhead with ⟨-, rfl, rfl, b, rest, rfl, hb⟩ | ⟨hbuf, hlen, hone⟩
    · show b :: rest = encodeBytes [b] ++ rest
      simp only [encodeBytes, if_pos hb, List.singleton_append]
    · have htake : (r'.take len).length = len := by
        rw [List.length_take]
        omega
      rw [encodeBytes_of_head, htake, List.append_assoc, List.take_append_drop, hbuf]
      rw [htake]
      rintro rfl c hc
      refine hone rfl rfl c ?_
      rw [← hc, List.head?_take, if_neg (by omega)]
  · cases h

theorem eq_encodeUInt64_append {buf r : Bytes} {n : UInt64} (h : decodeUInt64 buf = some (n, r)) :
    buf = encodeUInt64 n ++ r := by
  unfold decodeUInt64 at h
  split at h
  · rename_i bs r' hbs
    split at h
    · cases h
    · rename_i hcanon
      cases h
      have h8 : bs.length ≤ 8 := by
        by_contra hlen
        exact hcanon (.inl (by omega))
      have hzero : bs.head? ≠ some 0 := fun h0 => hcanon (.inr h0)
      unfold encodeUInt64
      rw [UInt64.toNat_ofNat_of_lt' (ofBe_lt h8), beBytes_ofBe hzero]
      exact eq_encodeBytes_append hbs
  · cases h

theorem eq_encodeString_append {buf r : Bytes} {s : String} (h : decodeString buf = some (s, r)) :
    buf = encodeString s ++ r := by
  unfold decodeString at h
  split at h
  · rename_i bs r' hbs
    obtain ⟨t, ht, heq⟩ := Option.map_eq_some_iff.mp h
    cases heq
    have hutf8 : s.toUTF8.data.toList = bs := by
      unfold String.fromUTF8? at ht
      split at ht
      · cases ht
        rfl
      · cases ht
    unfold encodeString
    rw [hutf8]
    exact eq_encodeBytes_append hbs
  · cases h

/-! ## Lists -/

section

variable {α : Type} {buf r : Bytes} {a : α}

theorem eq_encodeList_append {fields : Bytes → Option (α × Bytes)} {payload : α → Bytes}
    (hfields : ∀ buf a r, fields buf = some (a, r) → buf = payload a ++ r)
    (h : decodeStruct fields buf = some (a, r)) : buf = encodeList (payload a) ++ r := by
  unfold decodeStruct at h
  split at h
  · rename_i len r' hhead
    split at h
    · rename_i a' r'' hf
      split at h
      · rename_i hlen
        cases h
        have hpayload := hfields _ _ _ hf
        rcases decodeHead_cases hhead with ⟨⟨⟩, -⟩ | ⟨hbuf, -, -⟩
        rw [hpayload, List.length_append, Nat.add_sub_cancel] at hlen
        unfold encodeList
        rw [hlen, List.append_assoc, ← hpayload, hbuf]
      · cases h
    · cases h
  · cases h

variable {item : Bytes → Option (α × Bytes)} {encode : α → Bytes}

theorem eq_flatMap_of_decodeItems (hitem : ∀ buf a r, item buf = some (a, r) → buf = encode a ++ r) {fuel : ℕ}
    {as : List α} (h : decodeItems item fuel buf = some as) : buf = as.flatMap encode := by
  induction fuel generalizing buf as with
  | zero =>
    cases buf with
    | nil =>
      cases h
      rfl
    | cons b buf => cases h
  | succ fuel ih =>
    cases buf with
    | nil =>
      cases h
      rfl
    | cons b buf =>
      simp only [decodeItems, Option.bind_eq_bind, Option.bind_eq_some_iff] at h
      obtain ⟨⟨a, r⟩, hfirst, as', hrest, heq⟩ := h
      cases heq
      rw [List.flatMap_cons, ← ih hrest]
      exact hitem _ _ _ hfirst

theorem eq_encodeVec_append (hitem : ∀ buf a r, item buf = some (a, r) → buf = encode a ++ r) {as : List α}
    (h : decodeVec item buf = some (as, r)) : buf = encodeVec encode as ++ r := by
  unfold decodeVec at h
  split at h
  · rename_i len r' hhead
    obtain ⟨as', has, heq⟩ := Option.map_eq_some_iff.mp h
    cases heq
    rcases decodeHead_cases hhead with ⟨⟨⟩, -⟩ | ⟨hbuf, hlen, -⟩
    have htake : (r'.take len).length = len := by
      rw [List.length_take]
      omega
    unfold encodeVec encodeList
    rw [← eq_flatMap_of_decodeItems hitem has, htake, List.append_assoc, List.take_append_drop, hbuf]
  · cases h

theorem length_flatMap_lt_of_decodeVec (hitem : ∀ buf a r, item buf = some (a, r) → buf = encode a ++ r) {as : List α}
    (h : decodeVec item buf = some (as, r)) : (as.flatMap encode).length < 2 ^ 64 := by
  unfold decodeVec at h
  split at h
  · rename_i len r' hhead
    obtain ⟨as', has, heq⟩ := Option.map_eq_some_iff.mp h
    cases heq
    have hlen := len_lt_of_decodeHead hhead
    rw [← eq_flatMap_of_decodeItems hitem has, List.length_take]
    omega
  · cases h

end

end Rlp

end Simb.Lib
