import Mathlib

/-!
# Hexadecimal numbers in a text

`&s[n..]`, `u64::from_str_radix(s, 16)` and `format!("{:x}", n)`, on the characters of a text.

A numeral is one digit or more, in upper or lower case (`Numeral`).  What `from_str_radix` accepts is a numeral below
`2 ^ 64`, with a plus sign or without (`fromHex_eq_some`), and what `{:x}` writes is one (`numeral_toDigits`).
-/

namespace Simb.Lib.Hex

/-- `&s[n..]`, the text from byte `n` on.  There is none if `n` is behind the end, or inside of a character. -/
def sliceFrom : ℕ → List Char → Option (List Char)
  | 0, cs => some cs
  | _ + 1, [] => none
  | n + 1, c :: cs => if c.utf8Size ≤ n + 1 then sliceFrom (n + 1 - c.utf8Size) cs else none

/-- `char::to_digit(16)`. -/
def digit (c : Char) : Option ℕ :=
  if '0' ≤ c ∧ c ≤ '9' then some (c.toNat - '0'.toNat)
  else if 'a' ≤ c ∧ c ≤ 'f' then some (c.toNat - 'a'.toNat + 10)
  else if 'A' ≤ c ∧ c ≤ 'F' then some (c.toNat - 'A'.toNat + 10)
  else none

/-- The loop over the digits, with the number so far, up to a character that is no digit or an overflow of `u64`. -/
def readDigits : ℕ → List Char → Option ℕ
  | n, [] => some n
  | n, c :: cs =>
    match digit c with
    | some d => if 16 * n + d < 2 ^ 64 then readDigits (16 * n + d) cs else none
    | none => none

/-- `u64::from_str_radix(s, 16)`, if it is `Ok`. -/
def fromHex : List Char → Option UInt64
  | [] => none
  | ['+'] => none
  | ['-'] => none
  | '+' :: cs => (readDigits 0 cs).map UInt64.ofNat
  | cs => (readDigits 0 cs).map UInt64.ofNat

/-- `format!("{:x}", n)`. -/
def format (n : UInt64) : String := String.ofList (Nat.toDigits 16 n.toNat)

/-! ## Slices -/

/-- The number of bytes of a text. -/
def bytes (cs : List Char) : ℕ := (cs.map Char.utf8Size).sum

@[simp] theorem bytes_nil : bytes [] = 0 := rfl

@[simp] theorem bytes_cons (c : Char) (cs : List Char) : bytes (c :: cs) = c.utf8Size + bytes cs := rfl

variable {n m : ℕ} {cs front rest : List Char}

/-- A slice drops whole characters. -/
theorem sliceFrom_eq_some : sliceFrom n cs = some rest ↔ ∃ front, cs = front ++ rest ∧ bytes front = n := by
  induction cs generalizing n with
  | nil =>
    cases n with
    | zero => simp [sliceFrom, eq_comm]
    | succ n => simp [sliceFrom]
  | cons c cs ih =>
    have hpos := c.utf8Size_pos
    cases n with
    | zero =>
      simp only [sliceFrom, Option.some.injEq]
      constructor
      · rintro rfl
        exact ⟨[], rfl, rfl⟩
      · rintro ⟨front, heq, hzero⟩
        cases front with
        | nil => exact heq
        | cons d front =>
          have := d.utf8Size_pos
          simp only [bytes_cons] at hzero
          omega
    | succ n =>
      unfold sliceFrom
      constructor
      · intro h
        split at h
        · rename_i hle
          obtain ⟨front, rfl, hfront⟩ := ih.mp h
          refine ⟨c :: front, rfl, ?_⟩
          simp only [bytes_cons]
          omega
        · simp at h
      · rintro ⟨front, heq, hn⟩
        cases front with
        | nil => simp at hn
        | cons d front =>
          simp only [List.cons_append, List.cons.injEq] at heq
          obtain ⟨rfl, rfl⟩ := heq
          simp only [bytes_cons] at hn
          rw [if_pos (by omega), ih]
          exact ⟨front, rfl, by omega⟩

/-- There is one way to drop a number of bytes. -/
theorem sliceFrom_append (h : bytes front = n) : sliceFrom n (front ++ rest) = some rest :=
  sliceFrom_eq_some.mpr ⟨front, rfl, h⟩

/-! ## Numerals -/

/-- The number that digits stand for, after those of `n`. -/
def value (n : ℕ) (cs : List Char) : ℕ := cs.foldl (fun n c => 16 * n + (digit c).getD 0) n

@[simp] theorem value_nil (n : ℕ) : value n [] = n := rfl

@[simp] theorem value_cons (n : ℕ) (c : Char) (cs : List Char) :
    value n (c :: cs) = value (16 * n + (digit c).getD 0) cs := rfl

theorem le_value (n : ℕ) (cs : List Char) : n ≤ value n cs := by
  induction cs generalizing n with
  | nil => exact le_rfl
  | cons c cs ih =>
    have := ih (16 * n + (digit c).getD 0)
    simp only [value_cons]
    omega

/-- `cs` are the digits of `n`, one at least. -/
structure Numeral (cs : List Char) (n : ℕ) : Prop where
  ne_nil : cs ≠ []
  digits : ∀ c ∈ cs, (digit c).isSome
  value : Nat.ofDigits 16 (cs.reverse.map fun c => (digit c).getD 0) = n

theorem value_eq_ofDigits (cs : List Char) :
    value 0 cs = Nat.ofDigits 16 (cs.reverse.map fun c => (digit c).getD 0) := by
  rw [Nat.ofDigits_eq_foldr, List.foldr_map, List.foldr_reverse]
  unfold value
  congr 1
  funext n c
  simp [Nat.add_comm]

theorem readDigits_eq_some (hn : n < 2 ^ 64) :
    readDigits n cs = some m ↔ (∀ c ∈ cs, (digit c).isSome) ∧ value n cs = m ∧ m < 2 ^ 64 := by
  induction cs generalizing n with
  | nil =>
    simp only [readDigits, Option.some.injEq, value_nil]
    constructor
    · rintro rfl
      exact ⟨by simp, rfl, hn⟩
    · rintro ⟨-, rfl, -⟩
      rfl
  | cons c cs ih =>
    unfold readDigits
    cases hd : digit c with
    | none => simp [hd]
    | some d =>
      simp only [value_cons, hd, Option.getD_some, List.forall_mem_cons, Option.isSome_some, true_and]
      split
      · rename_i hlt
        exact ih hlt
      · rename_i hge
        refine iff_of_false (by simp) ?_
        rintro ⟨-, rfl, hlt⟩
        exact hge ((le_value _ cs).trans_lt hlt)

theorem readDigits_zero_eq_some (hcs : cs ≠ []) : readDigits 0 cs = some m ↔ Numeral cs m ∧ m < 2 ^ 64 := by
  rw [readDigits_eq_some (by decide), value_eq_ofDigits]
  constructor
  · rintro ⟨hdigits, hvalue, hlt⟩
    exact ⟨⟨hcs, hdigits, hvalue⟩, hlt⟩
  · rintro ⟨hnum, hlt⟩
    exact ⟨hnum.digits, hnum.value, hlt⟩

/-- A numeral has no sign. -/
theorem Numeral.head_ne {c : Char} (h : Numeral (c :: cs) m) : c ≠ '+' ∧ c ≠ '-' := by
  have hsome := h.digits c (by simp)
  refine ⟨?_, ?_⟩
  · rintro rfl
    simp [digit] at hsome
  · rintro rfl
    simp [digit] at hsome

/-- **What `from_str_radix` accepts.** -/
theorem fromHex_eq_some {n : UInt64} :
    fromHex cs = some n ↔ ∃ ds, (cs = ds ∨ cs = '+' :: ds) ∧ Numeral ds n.toNat := by
  have hmap : ∀ ds : List Char, ds ≠ [] → ((readDigits 0 ds).map UInt64.ofNat = some n ↔ Numeral ds n.toNat) := by
    intro ds hds
    rw [Option.map_eq_some_iff]
    constructor
    · rintro ⟨m, hm, rfl⟩
      obtain ⟨hnum, hlt⟩ := (readDigits_zero_eq_some hds).mp hm
      rw [UInt64.toNat_ofNat_of_lt' hlt]
      exact hnum
    · intro hnum
      exact ⟨n.toNat, (readDigits_zero_eq_some hds).mpr ⟨hnum, n.toNat_lt⟩, UInt64.ofNat_toNat⟩
  unfold fromHex
  split
  · refine iff_of_false (by simp) ?_
    rintro ⟨ds, rfl | h, hnum⟩
    · exact hnum.ne_nil rfl
    · simp at h
  · refine iff_of_false (by simp) ?_
    rintro ⟨ds, rfl | h, hnum⟩
    · exact hnum.head_ne.1 rfl
    · simp only [List.cons.injEq, true_and] at h
      exact hnum.ne_nil h.symm
  · refine iff_of_false (by simp) ?_
    rintro ⟨ds, rfl | h, hnum⟩
    · exact hnum.head_ne.2 rfl
    · simp at h
  · rename_i ds hplus
    have hds : ds ≠ [] := by
      rintro rfl
      exact hplus rfl
    rw [hmap ds hds]
    constructor
    · exact fun hnum => ⟨ds, .inr rfl, hnum⟩
    · rintro ⟨ds', rfl | h, hnum⟩
      · exact absurd rfl hnum.head_ne.1
      · simp only [List.cons.injEq, true_and] at h
        rwa [h]
  · rename_i hnil _ _ hplus
    rw [hmap cs (by rintro rfl; exact hnil rfl)]
    constructor
    · exact fun hnum => ⟨cs, .inl rfl, hnum⟩
    · rintro ⟨ds, rfl | h, hnum⟩
      · exact hnum
      · exact absurd h (hplus ds)

/-! ## Formatting -/

theorem digit_digitChar {d : ℕ} (h : d < 16) : digit (Nat.digitChar d) = some d := by
  interval_cases d <;> rfl

theorem numeral_digitChar {d : ℕ} (h : d < 16) : Numeral [Nat.digitChar d] d where
  ne_nil := by simp
  digits := by simp [digit_digitChar h]
  value := by simp [digit_digitChar h]

theorem Numeral.append_digit {d : ℕ} (h : Numeral cs n) (hd : d < 16) :
    Numeral (cs ++ [Nat.digitChar d]) (16 * n + d) where
  ne_nil := by simp
  digits := by
    intro c hc
    rcases List.mem_append.mp hc with hc | hc
    · exact h.digits c hc
    · obtain rfl := List.mem_singleton.mp hc
      simp [digit_digitChar hd]
  value := by
    rw [List.reverse_append, List.reverse_singleton, List.singleton_append, List.map_cons, Nat.ofDigits_cons, h.value,
      digit_digitChar hd]
    simp [Nat.add_comm]

/-- **What `{:x}` writes is a numeral of the number.** -/
theorem numeral_toDigits (n : ℕ) : Numeral (Nat.toDigits 16 n) n := by
  induction n using Nat.strong_induction_on with
  | _ n ih =>
    by_cases h : n < 16
    · rw [Nat.toDigits_of_lt_base h]
      exact numeral_digitChar h
    · have hrest := (ih (n / 16) (by omega)).append_digit (Nat.mod_lt n (by decide : 0 < 16))
      rw [Nat.toDigits_of_base_le (by decide) (by omega)]
      rwa [Nat.div_add_mod] at hrest

end Simb.Lib.Hex
