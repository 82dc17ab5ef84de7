import Mathlib

/-!
# Text: lowercase hexadecimal, and flat JSON objects

`hexEncode` writes a byte string with two digits a byte.  `Json.object` prints a flat object of numbers
and strings without blanks, its strings with the standard escapes.
-/

namespace Simb.Lib

/-! ## Hexadecimal -/

/-- The two digits of a byte. -/
def hexByte (b : UInt8) : List Char := [Nat.digitChar (b.toNat / 16), Nat.digitChar (b.toNat % 16)]

def hexEncode (bs : List UInt8) : String := String.ofList (bs.flatMap hexByte)

theorem utf8ByteSize_ofList (l : List Char) :
    (String.ofList l).utf8ByteSize = (l.map Char.utf8Size).sum := by
  induction l with
  | nil => rfl
  | cons c l ih =>
    rw [show c :: l = [c] ++ l from rfl, String.ofList_append, String.utf8ByteSize_append, ih]
    simp

theorem utf8Size_digitChar {d : ℕ} (h : d < 16) : (Nat.digitChar d).utf8Size = 1 := by
  interval_cases d <;> decide

theorem utf8ByteSize_hexEncode (bs : List UInt8) : (hexEncode bs).utf8ByteSize = 2 * bs.length := by
  unfold hexEncode
  rw [utf8ByteSize_ofList]
  induction bs with
  | nil => rfl
  | cons b bs ih =>
    have h1 := utf8Size_digitChar (d := b.toNat / 16) (by have := b.toNat_lt; omega)
    have h2 := utf8Size_digitChar (d := b.toNat % 16) (by omega)
    rw [List.flatMap_cons, List.map_append, List.sum_append, ih]
    simp only [hexByte, List.map_cons, List.map_nil, List.sum_cons, List.sum_nil, h1, h2,
      List.length_cons]
    omega

theorem digitChar_injOn {d e : ℕ} (hd : d < 16) (he : e < 16) (h : Nat.digitChar d = Nat.digitChar e) : d = e := by
  have hall : ∀ d e : Fin 16, Nat.digitChar d = Nat.digitChar e → d = e := by decide
  exact congrArg Fin.val (hall ⟨d, hd⟩ ⟨e, he⟩ h)

theorem hexByte_injective : Function.Injective hexByte := by
  intro a b h
  have ha := a.toNat_lt
  have hb := b.toNat_lt
  simp only [hexByte, List.cons.injEq, and_true] at h
  have h1 := digitChar_injOn (by omega) (by omega) h.1
  have h2 := digitChar_injOn (by omega) (by omega) h.2
  exact UInt8.toNat_inj.mp (by omega)

theorem hexEncode_injective : Function.Injective hexEncode := by
  intro as bs heq
  have h := String.ofList_injective heq
  clear heq
  induction as generalizing bs with
  | nil =>
    cases bs with
    | nil => rfl
    | cons b bs => cases h
  | cons a as ih =>
    cases bs with
    | nil => cases h
    | cons b bs =>
      rw [List.flatMap_cons, List.flatMap_cons] at h
      obtain ⟨hab, hrest⟩ := List.append_inj h rfl
      rw [hexByte_injective hab, ih hrest]

theorem length_hexEncode (bs : List UInt8) : (hexEncode bs).length = 2 * bs.length := by
  unfold hexEncode
  rw [String.length_ofList, List.length_flatMap]
  simp [hexByte, Nat.mul_comm]

/-! ## JSON -/

namespace Json

/-- A character inside a JSON string. -/
def escapeChar (c : Char) : String :=
  if c = '"' then "\\\""
  else if c = '\\' then "\\\\"
  else if c = '\x08' then "\\b"
  else if c = '\x0c' then "\\f"
  else if c = '\n' then "\\n"
  else if c = '\r' then "\\r"
  else if c = '\t' then "\\t"
  else if c.toNat < 0x20 then "\\u00" ++ String.ofList (hexByte (UInt8.ofNat c.toNat))
  else String.singleton c

/-- A string between quotes. -/
def quote (s : String) : String := "\"" ++ String.join (s.toList.map escapeChar) ++ "\""

theorem length_escapeChar_pos (c : Char) : 1 ≤ (escapeChar c).length := by
  unfold escapeChar
  split_ifs
  iterate 7 decide
  · rw [String.length_append]
    exact Nat.le_add_right_of_le (by decide)
  · rw [String.length_singleton]

/-- No character is lost. -/
theorem length_le_length_quote (s : String) : s.length ≤ (quote s).length := by
  have hsum : s.toList.length ≤ ((s.toList.map escapeChar).map String.length).sum := by
    induction s.toList with
    | nil => exact Nat.zero_le _
    | cons c cs ih =>
      have hc := length_escapeChar_pos c
      simp only [List.length_cons, List.map_cons, List.sum_cons]
      omega
  unfold quote
  rw [String.length_append, String.length_append, String.length_join, ← String.length_toList]
  omega

inductive Value where
  | num (n : UInt64)
  | str (s : String)

def Value.print : Value → String
  | num n => toString n.toNat
  | str s => quote s

/-- An object, its members in the order given. -/
def object (members : List (String × Value)) : String :=
  "\x7b" ++ ",".intercalate (members.map fun m => quote m.1 ++ ":" ++ m.2.print) ++ "\x7d"

end Json

end Simb.Lib
