import Simb.Lib.Text

/-!
# The text of a JSON object is unambiguous

Two flat objects with the same text are the same object (`Json.object_injective`), whatever characters their strings
have.  Everything that is printed ends where it says: an escaped character is read back together with what follows it
(`readChar_escapeChar`), so a string ends at the first quote that is not escaped (`quote_append_inj`), and a number
ends before the first character that is not a digit (`num_append_inj`).
-/

namespace Simb.Lib.Json

variable {c c' : Char} {r r' : List Char}

/-! ## Strings -/

/-- The value of a hexadecimal digit in lower case. -/
def hexValue (c : Char) : ℕ := if c.isDigit then c.toNat - '0'.toNat else c.toNat - 'a'.toNat + 10

/-- The character that is meant after a backslash. -/
def unescaped (c : Char) : Char :=
  if c = 'b' then '\x08'
  else if c = 'f' then '\x0c'
  else if c = 'n' then '\n'
  else if c = 'r' then '\r'
  else if c = 't' then '\t'
  else c

/-- Read one character inside of a string, up to the quote that ends the string. -/
def readChar : List Char → Option (Char × List Char)
  | '"' :: _ => none
  | '\\' :: 'u' :: '0' :: '0' :: h :: l :: r => some (Char.ofNat (16 * hexValue h + hexValue l), r)
  | '\\' :: c :: r => some (unescaped c, r)
  | c :: r => some (c, r)
  | [] => none

/-- The control characters are read back. -/
theorem readChar_control {n : ℕ} (h : n < 0x20) (r : List Char) :
    readChar ('\\' :: 'u' :: '0' :: '0' :: hexByte (UInt8.ofNat n) ++ r) = some (Char.ofNat n, r) := by
  interval_cases n <;> rfl

/-- A character that is not escaped. -/
theorem readChar_plain (hquote : c ≠ '"') (hslash : c ≠ '\\') (r : List Char) : readChar (c :: r) = some (c, r) := by
  unfold readChar
  split
  · simp_all
  · simp_all
  · simp_all
  · simp_all
  · simp_all

/-- Every character is read back, with what follows it. -/
theorem readChar_escapeChar (c : Char) (r : List Char) : readChar ((escapeChar c).toList ++ r) = some (c, r) := by
  unfold escapeChar
  split_ifs with h1 h2 h3 h4 h5 h6 h7 h8
  · subst h1; rfl
  · subst h2; rfl
  · subst h3; rfl
  · subst h4; rfl
  · subst h5; rfl
  · subst h6; rfl
  · subst h7; rfl
  · have hread := readChar_control h8 r
    rw [Char.ofNat_toNat] at hread
    simpa [String.toList_append] using hread
  · simpa using readChar_plain h1 h2 r

theorem escaped_append_inj {s t : List Char}
    (h : (s.flatMap fun c => (escapeChar c).toList) ++ '"' :: r =
      (t.flatMap fun c => (escapeChar c).toList) ++ '"' :: r') : s = t ∧ r = r' := by
  induction s generalizing t with
  | nil =>
    cases t with
    | nil => simpa using h
    | cons d t =>
      have hread := congrArg readChar h
      rw [List.flatMap_cons, List.append_assoc, readChar_escapeChar] at hread
      simp [readChar] at hread
  | cons c s ih =>
    cases t with
    | nil =>
      have hread := congrArg readChar h
      rw [List.flatMap_cons, List.append_assoc, readChar_escapeChar] at hread
      simp [readChar] at hread
    | cons d t =>
      have hread := congrArg readChar h
      rw [List.flatMap_cons, List.flatMap_cons, List.append_assoc, List.append_assoc, readChar_escapeChar,
        readChar_escapeChar] at hread
      simp only [Option.some.injEq, Prod.mk.injEq] at hread
      obtain ⟨rfl, hrest⟩ := hread
      obtain ⟨rfl, rfl⟩ := ih hrest
      exact ⟨rfl, rfl⟩

theorem toList_quote (s : String) :
    (quote s).toList = '"' :: ((s.toList.flatMap fun c => (escapeChar c).toList) ++ ['"']) := by
  have hjoin : (String.join (s.toList.map escapeChar)).toList = s.toList.flatMap fun c => (escapeChar c).toList := by
    induction s.toList with
    | nil => rfl
    | cons c cs ih => simp [String.join_cons, ih]
  simp [quote, String.toList_append, hjoin]

/-- A string ends at its quote. -/
theorem quote_append_inj {s t : String} (h : (quote s).toList ++ r = (quote t).toList ++ r') : s = t ∧ r = r' := by
  rw [toList_quote, toList_quote] at h
  simp only [List.cons_append, List.append_assoc, List.cons.injEq, true_and, List.nil_append] at h
  obtain ⟨hchars, hrest⟩ := escaped_append_inj h
  exact ⟨String.toList_injective hchars, hrest⟩

/-! ## Numbers and values -/

theorem takeWhile_digits {n : ℕ} (hc : c.isDigit = false) :
    (Nat.toDigits 10 n ++ c :: r).takeWhile Char.isDigit = Nat.toDigits 10 n := by
  rw [List.takeWhile_append_of_pos fun d hd => Nat.isDigit_of_mem_toDigits (by decide) (by decide) hd]
  simp [hc]

/-- A number ends before what is not a digit. -/
theorem num_append_inj {n m : ℕ} (hc : c.isDigit = false) (hc' : c'.isDigit = false)
    (h : Nat.toDigits 10 n ++ c :: r = Nat.toDigits 10 m ++ c' :: r') : n = m ∧ c :: r = c' :: r' := by
  have hdigits : Nat.toDigits 10 n = Nat.toDigits 10 m := by
    rw [← takeWhile_digits (n := n) (r := r) hc, h, takeWhile_digits hc']
  have hnum : n = m := by
    rw [← Nat.ofDigitChars_ten_toDigits (n := n), hdigits, Nat.ofDigitChars_ten_toDigits]
  rw [hdigits] at h
  exact ⟨hnum, List.append_cancel_left h⟩

/-- No number is a string. -/
theorem num_ne_quote {n : ℕ} {s : String} (hc : c.isDigit = false) :
    Nat.toDigits 10 n ++ c :: r ≠ (quote s).toList ++ r' := by
  intro h
  have hdigits := congrArg (List.takeWhile Char.isDigit) h
  rw [takeWhile_digits hc, toList_quote] at hdigits
  exact Nat.toDigits_ne_nil hdigits

/-- A value ends before what is not a digit. -/
theorem print_append_inj {v v' : Value} (hc : c.isDigit = false) (hc' : c'.isDigit = false)
    (h : v.print.toList ++ c :: r = v'.print.toList ++ c' :: r') : v = v' ∧ c :: r = c' :: r' := by
  cases v with
  | num n =>
    cases v' with
    | num m =>
      simp only [Value.print, Nat.toString_eq_ofList_toDigits, String.toList_ofList] at h
      obtain ⟨hnum, hrest⟩ := num_append_inj hc hc' h
      exact ⟨congrArg Value.num (UInt64.toNat_inj.mp hnum), hrest⟩
    | str t =>
      simp only [Value.print, Nat.toString_eq_ofList_toDigits, String.toList_ofList] at h
      exact absurd h (num_ne_quote hc)
  | str s =>
    cases v' with
    | num m =>
      simp only [Value.print, Nat.toString_eq_ofList_toDigits, String.toList_ofList] at h
      exact absurd h.symm (num_ne_quote hc')
    | str t =>
      obtain ⟨rfl, hrest⟩ := quote_append_inj h
      exact ⟨rfl, hrest⟩

/-! ## Objects -/

/-- A member of an object, and what follows it. -/
def memberThen (m : String × Value) (r : List Char) : List Char :=
  (quote m.1).toList ++ ':' :: (m.2.print.toList ++ r)

/-- What follows a member of an object. -/
def membersTail : List (String × Value) → List Char
  | [] => ['\x7d']
  | m :: ms => ',' :: memberThen m (membersTail ms)

theorem membersTail_eq_cons (ms : List (String × Value)) :
    ∃ c r, membersTail ms = c :: r ∧ c.isDigit = false := by
  cases ms with
  | nil => exact ⟨_, _, rfl, rfl⟩
  | cons m ms => exact ⟨_, _, rfl, rfl⟩

theorem toList_object_nil : (object []).toList = ['\x7b', '\x7d'] := rfl

theorem toList_object_cons (m : String × Value) (ms : List (String × Value)) :
    (object (m :: ms)).toList = '\x7b' :: memberThen m (membersTail ms) := by
  have hmembers : ∀ m : String × Value, (",".intercalate ((m :: ms).map fun m => quote m.1 ++ ":" ++ m.2.print)).toList ++
      ['\x7d'] = memberThen m (membersTail ms) := by
    induction ms with
    | nil => simp [memberThen, membersTail, String.toList_append]
    | cons m' ms ih =>
      intro m
      have hrest := ih m'
      simp only [List.map_cons] at hrest
      simp only [List.map_cons, String.intercalate_cons_cons, String.toList_append, List.append_assoc, hrest]
      simp [memberThen, membersTail]
  simp only [object, String.toList_append]
  exact congrArg ('\x7b' :: ·) (hmembers m)

theorem memberThen_inj {m m' : String × Value} {ms ms' : List (String × Value)}
    (h : memberThen m (membersTail ms) = memberThen m' (membersTail ms')) :
    m = m' ∧ membersTail ms = membersTail ms' := by
  obtain ⟨c, r, heq, hc⟩ := membersTail_eq_cons ms
  obtain ⟨c', r', heq', hc'⟩ := membersTail_eq_cons ms'
  rw [heq, heq'] at h ⊢
  obtain ⟨hkey, hvalue⟩ := quote_append_inj h
  simp only [List.cons.injEq, true_and] at hvalue
  obtain ⟨hval, hrest⟩ := print_append_inj hc hc' hvalue
  exact ⟨Prod.ext hkey hval, hrest⟩

theorem membersTail_injective : Function.Injective membersTail := by
  intro ms ms' h
  induction ms generalizing ms' with
  | nil =>
    cases ms' with
    | nil => rfl
    | cons m' ms' => simp [membersTail] at h
  | cons m ms ih =>
    cases ms' with
    | nil => simp [membersTail] at h
    | cons m' ms' =>
      simp only [membersTail, List.cons.injEq, true_and] at h
      obtain ⟨rfl, hrest⟩ := memberThen_inj h
      rw [ih hrest]

/-- **Objects with the same text are the same.** -/
theorem object_injective : Function.Injective object := by
  intro ms ms' heq
  have h := congrArg String.toList heq
  cases ms with
  | nil =>
    cases ms' with
    | nil => rfl
    | cons m' ms' =>
      rw [toList_object_nil, toList_object_cons] at h
      simp [memberThen, toList_quote] at h
  | cons m ms =>
    cases ms' with
    | nil =>
      rw [toList_object_nil, toList_object_cons] at h
      simp [memberThen, toList_quote] at h
    | cons m' ms' =>
      rw [toList_object_cons, toList_object_cons, List.cons.injEq] at h
      obtain ⟨rfl, hrest⟩ := memberThen_inj h.2
      rw [membersTail_injective hrest]

end Simb.Lib.Json
