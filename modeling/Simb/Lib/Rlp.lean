import Mathlib

/-!
# Recursive Length Prefix (RLP)

The wire format of byte strings, unsigned integers and lists, and its decoder, which reads one item from
the front of a buffer and accepts canonical items only: no length or integer with a leading zero, no long
form for a short payload, no prefix on a single byte below `0x80`.

Every decoder returns the rest of the buffer.  For each kind of item, decoding an encoded item followed by
`r` gives the item and `r` (`decodeBytes_encodeBytes`, `decodeUInt64_encodeUInt64`,
`decodeStruct_encodeList`), as long as the payload has fewer than `2 ^ 64` bytes.
-/

namespace Simb.Lib

/-- A format for `α` that is read from the front of a buffer: what was written is read back, and what
follows it is left. -/
structure Codec (α : Type) where
  encode : α → List UInt8
  decode : List UInt8 → Option (α × List UInt8)
  decode_encode : ∀ a r, decode (encode a ++ r) = some (a, r)

theorem Codec.decode_encode_self {α : Type} (C : Codec α) (a : α) : C.decode (C.encode a) = some (a, []) := by
  simpa using C.decode_encode a []

theorem Codec.encode_injective {α : Type} (C : Codec α) : Function.Injective C.encode := by
  intro a b h
  have := C.decode_encode_self a
  rw [h, C.decode_encode_self b] at this
  exact (congrArg Prod.fst (Option.some.inj this)).symm

namespace Rlp

abbrev Bytes := List UInt8

/-! ## Big-endian numbers -/

/-- The big-endian bytes of `n`, none of them a leading zero. -/
def beBytes (n : ℕ) : Bytes := ((Nat.digits 256 n).map UInt8.ofNat).reverse

/-- The number with these big-endian bytes. -/
def ofBe (bs : Bytes) : ℕ := Nat.ofDigits 256 (bs.reverse.map UInt8.toNat)

theorem ofBe_beBytes (n : ℕ) : ofBe (beBytes n) = n := by
  unfold ofBe beBytes
  rw [List.reverse_reverse, List.map_map]
  have hd : (Nat.digits 256 n).map (UInt8.toNat ∘ UInt8.ofNat) = Nat.digits 256 n := by
    conv_rhs => rw [← List.map_id (Nat.digits 256 n)]
    refine List.map_congr_left fun d hd => ?_
    have : d < 256 := Nat.digits_lt_base (by norm_num) hd
    simp only [Function.comp, UInt8.toNat_ofNat', id]
    omega
  rw [hd, Nat.ofDigits_digits]

theorem length_beBytes_le {n : ℕ} (h : n < 2 ^ 64) : (beBytes n).length ≤ 8 := by
  unfold beBytes
  rw [List.length_reverse, List.length_map, Nat.digits_length_le_iff (by norm_num)]
  calc n < 2 ^ 64 := h
    _ = 256 ^ 8 := by norm_num

theorem length_beBytes_pos {n : ℕ} (h : n ≠ 0) : 0 < (beBytes n).length := by
  unfold beBytes
  rw [List.length_reverse, List.length_map, List.length_pos_iff]
  exact Nat.digits_ne_nil_iff_ne_zero.mpr h

theorem head?_beBytes_ne_zero (n : ℕ) : (beBytes n).head? ≠ some 0 := by
  unfold beBytes
  rw [List.head?_reverse]
  rcases Nat.eq_zero_or_pos n with rfl | hn
  · simp
  · have hne : Nat.digits 256 n ≠ [] := Nat.digits_ne_nil_iff_ne_zero.mpr (by omega)
    have hlast := Nat.getLast_digit_ne_zero 256 (m := n) (by omega)
    have hlt : (Nat.digits 256 n).getLast hne < 256 :=
      Nat.digits_lt_base (by norm_num) (List.getLast_mem hne)
    rw [List.getLast?_map, List.getLast?_eq_some_getLast hne]
    intro h
    have := congrArg UInt8.toNat (Option.some.inj h)
    simp only [UInt8.toNat_ofNat', UInt8.toNat_zero] at this
    omega

/-! ## Item prefixes -/

/-- The first byte of the short form: of strings, of lists. -/
def base (isList : Bool) : ℕ := if isList then 0xC0 else 0x80

/-- The prefix of an item with `len` bytes of payload. -/
def encodeHead (isList : Bool) (len : ℕ) : Bytes :=
  if len < 56 then [UInt8.ofNat (base isList + len)]
  else UInt8.ofNat (base isList + 55 + (beBytes len).length) :: beBytes len

/-- The prefix of the item at the front of a buffer: whether it is a list, the length of its payload, and
the buffer from the payload on. -/
def decodeHead : Bytes → Option (Bool × ℕ × Bytes)
  | [] => none
  | b :: r =>
    let n := b.toNat
    if n < 0x80 then some (false, 1, b :: r)
    else if n < 0xB8 then
      -- a single byte below `0x80` is its own encoding
      if n = 0x81 ∧ r.head?.any (·.toNat < 0x80) then none
      else if r.length < n - 0x80 then none
      else some (false, n - 0x80, r)
    else if 0xC0 ≤ n ∧ n < 0xF8 then
      if r.length < n - 0xC0 then none else some (true, n - 0xC0, r)
    else
      let isList : Bool := 0xF8 ≤ n
      let k := n - (base isList + 55)
      if r.length < k then none
      else if (r.take k).head? = some 0 then none
      else if ofBe (r.take k) < 56 then none
      else if (r.drop k).length < ofBe (r.take k) then none
      else some (isList, ofBe (r.take k), r.drop k)

theorem decodeHead_encodeHead (isList : Bool) {len : ℕ} {r : Bytes} (hlen : len < 2 ^ 64)
    (hr : len ≤ r.length)
    (hone : isList = false → len = 1 → ∀ c, r.head? = some c → 0x80 ≤ c.toNat) :
    decodeHead (encodeHead isList len ++ r) = some (isList, len, r) := by
  unfold encodeHead
  by_cases h56 : len < 56
  · rw [if_pos h56, List.singleton_append]
    have hb : (UInt8.ofNat (base isList + len)).toNat = base isList + len := by
      rw [UInt8.toNat_ofNat']; unfold base; split <;> omega
    unfold decodeHead
    simp only [hb]
    cases isList with
    | false =>
      have hns : ¬ (base false + len = 0x81 ∧ r.head?.any (fun c => decide (c.toNat < 0x80)) = true) := by
        rintro ⟨h1, h2⟩
        have hl : len = 1 := by simp [base] at h1; omega
        rcases hh : r.head? with _ | c
        · simp [hh] at h2
        · have := hone rfl hl c hh
          simp only [hh, Option.any_some, decide_eq_true_eq] at h2
          omega
      have e : base false + len - 0x80 = len := by simp [base]
      have h80 : ¬ base false + len < 0x80 := by simp [base]
      have hB8 : base false + len < 0xB8 := by simp [base]; omega
      rw [if_neg h80, if_pos hB8, if_neg hns, if_neg (by rw [e]; omega), e]
    | true =>
      have e : base true + len - 0xC0 = len := by simp [base]
      rw [if_neg (by simp [base]; omega), if_neg (by simp [base]; omega),
        if_pos (by simp [base]; omega), if_neg (by rw [e]; omega), e]
  · -- the long form: the length follows as a big-endian number of `1` to `8` bytes
    rw [if_neg h56, List.cons_append]
    have h8 := length_beBytes_le hlen
    have h1 := length_beBytes_pos (n := len) (by omega)
    set k := (beBytes len).length with hk
    have hb : (UInt8.ofNat (base isList + 55 + k)).toNat = base isList + 55 + k := by
      rw [UInt8.toNat_ofNat']; unfold base; split <;> omega
    have hlist : decide (0xF8 ≤ base isList + 55 + k) = isList := by
      cases isList <;> simp [base] <;> omega
    have htake : (beBytes len ++ r).take k = beBytes len := List.take_left' hk.symm
    have hdrop : (beBytes len ++ r).drop k = r := List.drop_left' hk.symm
    have hlt : ¬ base isList + 55 + k < 0xB8 := by unfold base; split <;> omega
    have hmid : ¬ (0xC0 ≤ base isList + 55 + k ∧ base isList + 55 + k < 0xF8) := by
      unfold base; split <;> omega
    unfold decodeHead
    simp only [hb, hlist, Nat.add_sub_cancel_left, htake, hdrop, ofBe_beBytes]
    rw [if_neg (by unfold base; split <;> omega), if_neg hlt, if_neg hmid,
      if_neg (by rw [List.length_append]; omega), if_neg (head?_beBytes_ne_zero len), if_neg h56,
      if_neg (by omega)]

/-! ## Byte strings -/

def encodeBytes (bs : Bytes) : Bytes :=
  match bs with
  | [b] => if b.toNat < 0x80 then [b] else encodeHead false 1 ++ [b]
  | bs => encodeHead false bs.length ++ bs

def decodeBytes (buf : Bytes) : Option (Bytes × Bytes) :=
  match decodeHead buf with
  | some (false, len, r) => some (r.take len, r.drop len)
  | _ => none

theorem decodeBytes_encodeBytes {bs : Bytes} (h : bs.length < 2 ^ 64) (r : Bytes) :
    decodeBytes (encodeBytes bs ++ r) = some (bs, r) := by
  have key : (bs.length = 1 → ∀ c, (bs ++ r).head? = some c → 0x80 ≤ c.toNat) →
      decodeBytes (encodeHead false bs.length ++ bs ++ r) = some (bs, r) := by
    intro hone
    unfold decodeBytes
    rw [List.append_assoc, decodeHead_encodeHead false h (by simp) (fun _ => hone)]
    simp
  unfold encodeBytes
  split
  · rename_i b
    split
    · rename_i hb
      simp [decodeBytes, decodeHead, hb]
    · rename_i hb
      refine key fun _ c hc => ?_
      simp only [List.cons_append, List.head?_cons, Option.some.injEq] at hc
      subst hc
      omega
  · rename_i hne
    refine key fun hlen => ?_
    obtain ⟨b, rfl⟩ := List.length_eq_one_iff.mp hlen
    exact absurd rfl (hne b)

theorem length_encodeHead_le (isList : Bool) {n : ℕ} (hn : n < 2 ^ 64) : (encodeHead isList n).length ≤ 9 := by
  have := length_beBytes_le hn
  unfold encodeHead
  split
  · simp
  · rw [List.length_cons]
    omega

/-- An item is at most nine bytes longer than its payload. -/
theorem length_encodeBytes_le {bs : Bytes} (h : bs.length < 2 ^ 64) :
    (encodeBytes bs).length ≤ bs.length + 9 := by
  unfold encodeBytes
  split
  · split
    · simp
    · have := length_encodeHead_le false (n := 1) (by norm_num)
      simp only [List.length_append, List.length_singleton]
      omega
  · have := length_encodeHead_le false h
    rw [List.length_append]
    omega

/-! ## Unsigned integers and text -/

def encodeUInt64 (n : UInt64) : Bytes := encodeBytes (beBytes n.toNat)

def decodeUInt64 (buf : Bytes) : Option (UInt64 × Bytes) :=
  match decodeBytes buf with
  | some (bs, r) =>
    if 8 < bs.length ∨ bs.head? = some 0 then none else some (UInt64.ofNat (ofBe bs), r)
  | none => none

theorem decodeUInt64_encodeUInt64 (n : UInt64) (r : Bytes) :
    decodeUInt64 (encodeUInt64 n ++ r) = some (n, r) := by
  have h8 := length_beBytes_le n.toNat_lt
  unfold decodeUInt64 encodeUInt64
  rw [decodeBytes_encodeBytes (by omega)]
  simp only
  rw [if_neg (by rintro (h | h); exacts [by omega, head?_beBytes_ne_zero _ h]), ofBe_beBytes,
    UInt64.ofNat_toNat]

theorem length_encodeUInt64_le (n : UInt64) : (encodeUInt64 n).length ≤ 17 := by
  have h8 := length_beBytes_le n.toNat_lt
  have : (encodeUInt64 n).length ≤ (beBytes n.toNat).length + 9 := length_encodeBytes_le (by omega)
  omega

def encodeString (s : String) : Bytes := encodeBytes s.toUTF8.data.toList

def decodeString (buf : Bytes) : Option (String × Bytes) :=
  match decodeBytes buf with
  | some (bs, r) => (String.fromUTF8? ⟨bs.toArray⟩).map (·, r)
  | none => none

theorem length_utf8 (s : String) : s.toUTF8.data.toList.length = s.utf8ByteSize := rfl

theorem decodeString_encodeString {s : String} (h : s.utf8ByteSize < 2 ^ 64) (r : Bytes) :
    decodeString (encodeString s ++ r) = some (s, r) := by
  unfold decodeString encodeString
  rw [decodeBytes_encodeBytes (by rw [length_utf8]; exact h)]
  have hs : String.fromUTF8? ⟨s.toUTF8.data.toList.toArray⟩ = some s := by
    unfold String.fromUTF8?
    exact dif_pos s.isValidUTF8
  simp only [hs, Option.map_some]

theorem length_encodeString_le {s : String} (h : s.utf8ByteSize < 2 ^ 64) :
    (encodeString s).length ≤ s.utf8ByteSize + 9 :=
  length_encodeBytes_le (by rw [length_utf8]; exact h)

/-! ## Lists -/

def encodeList (payload : Bytes) : Bytes := encodeHead true payload.length ++ payload

theorem length_encodeList_le {payload : Bytes} (h : payload.length < 2 ^ 64) :
    (encodeList payload).length ≤ payload.length + 9 := by
  have := length_encodeHead_le true h
  unfold encodeList
  rw [List.length_append]
  omega

theorem encodeHead_ne_nil (isList : Bool) (len : ℕ) : encodeHead isList len ≠ [] := by
  unfold encodeHead
  split
  · exact List.cons_ne_nil _ _
  · exact List.cons_ne_nil _ _

theorem encodeList_ne_nil (payload : Bytes) : encodeList payload ≠ [] :=
  List.append_ne_nil_of_left_ne_nil (encodeHead_ne_nil true _) _

/-- A list whose items are read one after the other by `fields`, which must use up its payload exactly. -/
def decodeStruct {α : Type} (fields : Bytes → Option (α × Bytes)) (buf : Bytes) : Option (α × Bytes) :=
  match decodeHead buf with
  | some (true, len, r) =>
    match fields r with
    | some (a, r') => if r.length - r'.length = len then some (a, r') else none
    | none => none
  | _ => none

theorem decodeStruct_encodeList {α : Type} {fields : Bytes → Option (α × Bytes)} {payload : Bytes} {a : α}
    {r : Bytes} (hlen : payload.length < 2 ^ 64) (h : fields (payload ++ r) = some (a, r)) :
    decodeStruct fields (encodeList payload ++ r) = some (a, r) := by
  unfold decodeStruct encodeList
  rw [List.append_assoc, decodeHead_encodeHead true hlen (by simp) (fun h => by cases h)]
  simp only [h, List.length_append, Nat.add_sub_cancel, if_true]

/-! ## Sequences -/

/-- The items of a payload, one after the other until it is used up, with fuel for their number. -/
def decodeItems {α : Type} (item : Bytes → Option (α × Bytes)) : ℕ → Bytes → Option (List α)
  | _, [] => some []
  | 0, _ :: _ => none
  | fuel + 1, b :: buf => do
    let (a, buf) ← item (b :: buf)
    let as ← decodeItems item fuel buf
    some (a :: as)

/-- A list of any number of items of one kind.  Each takes up a byte at least, so the length of the payload is fuel
enough (`decodeItems_of_length_le`). -/
def decodeVec {α : Type} (item : Bytes → Option (α × Bytes)) (buf : Bytes) : Option (List α × Bytes) :=
  match decodeHead buf with
  | some (true, len, r) => (decodeItems item len (r.take len)).map (·, r.drop len)
  | _ => none

def encodeVec {α : Type} (item : α → Bytes) (as : List α) : Bytes := encodeList (as.flatMap item)

@[simp] theorem decodeItems_nil {α : Type} (item : Bytes → Option (α × Bytes)) (fuel : ℕ) :
    decodeItems item fuel [] = some [] := by
  cases fuel <;> rfl

/-- More fuel than bytes changes nothing. -/
theorem decodeItems_of_length_le {α : Type} {item : Bytes → Option (α × Bytes)}
    (hitem : ∀ buf a r, item buf = some (a, r) → r.length < buf.length) {fuel fuel' : ℕ} {buf : Bytes}
    (hfuel : buf.length ≤ fuel) (hfuel' : buf.length ≤ fuel') :
    decodeItems item fuel buf = decodeItems item fuel' buf := by
  induction fuel generalizing fuel' buf with
  | zero =>
    obtain rfl : buf = [] := List.length_eq_zero_iff.mp (by omega)
    simp only [decodeItems_nil]
  | succ fuel ih =>
    cases buf with
    | nil => simp only [decodeItems_nil]
    | cons b buf =>
      obtain ⟨fuel', rfl⟩ : ∃ k, fuel' = k + 1 := ⟨fuel' - 1, by simp only [List.length_cons] at hfuel'; omega⟩
      simp only [decodeItems]
      cases hb : item (b :: buf) with
      | none => rfl
      | some x =>
        obtain ⟨a, r⟩ := x
        have hlt := hitem _ _ _ hb
        simp only [List.length_cons] at hfuel hfuel' hlt
        simp only [Option.bind_eq_bind, Option.bind_some]
        have hrest : decodeItems item fuel r = decodeItems item fuel' r := ih (by omega) (by omega)
        rw [hrest]

/-- The items that were written are read back, with a byte of fuel at least for each. -/
theorem decodeItems_flatMap {α : Type} {item : Bytes → Option (α × Bytes)} {encode : α → Bytes}
    (hitem : ∀ a r, item (encode a ++ r) = some (a, r)) (hne : ∀ a, encode a ≠ []) (as : List α) {fuel : ℕ}
    (hfuel : (as.flatMap encode).length ≤ fuel) : decodeItems item fuel (as.flatMap encode) = some as := by
  induction as generalizing fuel with
  | nil => exact decodeItems_nil item fuel
  | cons a as ih =>
    obtain ⟨b, bs, hb⟩ := List.exists_cons_of_ne_nil (hne a)
    rw [List.flatMap_cons, hb, List.cons_append, List.length_cons, List.length_append] at hfuel
    obtain ⟨fuel, rfl⟩ : ∃ k, fuel = k + 1 := ⟨fuel - 1, by omega⟩
    have hfirst := hitem a (as.flatMap encode)
    rw [hb, List.cons_append] at hfirst
    have hrest : decodeItems item fuel (as.flatMap encode) = some as := ih (by omega)
    rw [List.flatMap_cons, hb, List.cons_append]
    simp only [decodeItems, hfirst, hrest, Option.bind_eq_bind, Option.bind_some]

theorem decodeVec_encodeVec {α : Type} {item : Bytes → Option (α × Bytes)} {encode : α → Bytes}
    (hitem : ∀ a r, item (encode a ++ r) = some (a, r)) (hne : ∀ a, encode a ≠ []) {as : List α}
    (hlen : (as.flatMap encode).length < 2 ^ 64) (r : Bytes) :
    decodeVec item (encodeVec encode as ++ r) = some (as, r) := by
  unfold decodeVec encodeVec encodeList
  rw [List.append_assoc, decodeHead_encodeHead true hlen (by simp) (fun h => by cases h)]
  simp only [List.take_left', List.drop_left', decodeItems_flatMap hitem hne as le_rfl, Option.map_some]

/-! ## Decoders use up their input -/

theorem base_false : base false = 0x80 := rfl

theorem base_true : base true = 0xC0 := rfl

/-- What a prefix can be: a byte that is its own encoding, a prefix with the length in it, or one with the length in the
bytes `bs` after it. -/
theorem decodeHead_shapes {buf r : Bytes} {isList : Bool} {len : ℕ} (h : decodeHead buf = some (isList, len, r)) :
    (isList = false ∧ len = 1 ∧ r = buf ∧ ∃ b rest, buf = b :: rest ∧ b.toNat < 0x80) ∨
      (∃ b, buf = b :: r ∧ b.toNat = base isList + len ∧ len < 56 ∧ len ≤ r.length ∧
        (isList = false → len = 1 → ∀ c, r.head? = some c → 0x80 ≤ c.toNat)) ∨
      ∃ b bs, buf = b :: (bs ++ r) ∧ b.toNat = base isList + 55 + bs.length ∧ bs.length ≤ 8 ∧ bs.head? ≠ some 0 ∧
        len = ofBe bs ∧ 56 ≤ len ∧ len ≤ r.length := by
  cases buf with
  | nil => cases h
  | cons b buf =>
    have hb := b.toNat_lt
    unfold decodeHead at h
    simp only at h
    split at h
    · rename_i hsingle
      simp only [Option.some.injEq, Prod.mk.injEq] at h
      obtain ⟨rfl, rfl, rfl⟩ := h
      exact .inl ⟨rfl, rfl, rfl, b, buf, rfl, hsingle⟩
    split at h
    · rename_i hge hlt
      split at h
      · simp at h
      rename_i hone
      split at h
      · simp at h
      rename_i hroom
      simp only [Option.some.injEq, Prod.mk.injEq] at h
      obtain ⟨rfl, rfl, rfl⟩ := h
      refine .inr (.inl ⟨b, rfl, ?_, by omega, by omega, ?_⟩)
      · rw [base_false]
        omega
      · intro _ hlen c hc
        by_contra hsmall
        refine hone ⟨by omega, ?_⟩
        rw [hc, Option.any_some, decide_eq_true_eq]
        omega
    split at h
    · rename_i hlist
      split at h
      · simp at h
      rename_i hroom
      simp only [Option.some.injEq, Prod.mk.injEq] at h
      obtain ⟨rfl, rfl, rfl⟩ := h
      refine .inr (.inl ⟨b, rfl, ?_, by omega, by omega, fun hf => by simp at hf⟩)
      rw [base_true]
      omega
    rename_i hshort hlt hlist
    -- the long form: `k` bytes of length follow
    set long : Bool := decide (0xF8 ≤ b.toNat) with hlong
    set k := b.toNat - (base long + 55) with hk
    have hbase : b.toNat = base long + 55 + k ∧ k ≤ 8 := by
      by_cases hF8 : 0xF8 ≤ b.toNat
      · rw [hk, hlong, decide_eq_true hF8, base_true]
        omega
      · rw [hk, hlong, decide_eq_false hF8, base_false]
        omega
    split at h
    · simp at h
    rename_i hroom
    split at h
    · simp at h
    rename_i hzero
    split at h
    · simp at h
    rename_i hbig
    split at h
    · simp at h
    rename_i hpayload
    simp only [Option.some.injEq, Prod.mk.injEq] at h
    obtain ⟨rfl, rfl, rfl⟩ := h
    have htake : (buf.take k).length = k := by
      rw [List.length_take]
      omega
    refine .inr (.inr ⟨b, buf.take k, ?_, ?_, ?_, hzero, rfl, by omega, by omega⟩)
    · rw [List.take_append_drop]
    · rw [htake]
      exact hbase.1
    · rw [htake]
      exact hbase.2

/-- The payload is in the buffer, and what is left of the buffer is shorter, but for a byte that is its own
encoding. -/
theorem length_of_decodeHead {buf r : Bytes} {isList : Bool} {len : ℕ} (h : decodeHead buf = some (isList, len, r)) :
    len ≤ r.length ∧ (r.length < buf.length ∨ isList = false ∧ 0 < len ∧ r.length = buf.length) := by
  rcases decodeHead_shapes h with
    ⟨rfl, rfl, rfl, b, rest, rfl, -⟩ | ⟨b, rfl, -, -, hlen, -⟩ | ⟨b, bs, rfl, -, -, -, -, -, hlen⟩
  · exact ⟨by simp, .inr ⟨rfl, by omega, rfl⟩⟩
  · exact ⟨hlen, .inl (by simp)⟩
  · refine ⟨hlen, .inl ?_⟩
    simp only [List.length_cons, List.length_append]
    omega

theorem length_lt_of_decodeBytes {buf bs r : Bytes} (h : decodeBytes buf = some (bs, r)) : r.length < buf.length := by
  unfold decodeBytes at h
  split at h
  · rename_i hh
    have hlen := length_of_decodeHead hh
    cases h
    rw [List.length_drop]
    omega
  · cases h

theorem length_lt_of_decodeUInt64 {buf r : Bytes} {n : UInt64} (h : decodeUInt64 buf = some (n, r)) :
    r.length < buf.length := by
  unfold decodeUInt64 at h
  split at h
  · rename_i hb
    split at h
    · cases h
    · cases h
      exact length_lt_of_decodeBytes hb
  · cases h

theorem length_lt_of_decodeString {buf r : Bytes} {s : String} (h : decodeString buf = some (s, r)) :
    r.length < buf.length := by
  unfold decodeString at h
  split at h
  · rename_i hb
    obtain ⟨t, -, ht⟩ := Option.map_eq_some_iff.mp h
    cases ht
    exact length_lt_of_decodeBytes hb
  · cases h

theorem length_lt_of_decodeStruct {α : Type} {fields : Bytes → Option (α × Bytes)}
    (hfields : ∀ buf a r, fields buf = some (a, r) → r.length ≤ buf.length) {buf r : Bytes} {a : α}
    (h : decodeStruct fields buf = some (a, r)) : r.length < buf.length := by
  unfold decodeStruct at h
  split at h
  · rename_i hh
    have hlen := length_of_decodeHead hh
    split at h
    · rename_i hf
      have hle := hfields _ _ _ hf
      split at h
      · cases h
        rcases hlen.2 with hlt | ⟨⟨⟩, -⟩
        omega
      · cases h
    · cases h
  · cases h

end Rlp

end Simb.Lib
