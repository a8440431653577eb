import Mathlib.Data.String.Basic
import Mathlib.Data.List.Basic

/-!
Text as a program handles it: the bytes of a string, the pieces between separators, a
stripped beginning, a replaced character, a decimal number.

The operations work on the characters of a string; each has the rule a reader of a
message needs, that what was put together comes apart again.
-/

namespace Barnabas.Lib.Text

/-- The bytes of a string. -/
def utf8 (s : String) : List UInt8 := s.toUTF8.data.toList

/-- The string these bytes are the text of, if they are one's. -/
def fromUtf8 (bytes : List UInt8) : Option String := String.fromUTF8? ⟨bytes.toArray⟩

@[simp] theorem fromUtf8_utf8 (s : String) : fromUtf8 (utf8 s) = some s := by
  have hbytes : (⟨(utf8 s).toArray⟩ : ByteArray) = s.toUTF8 := by
    simp [utf8]
  rw [fromUtf8, hbytes, String.fromUTF8?, String.toUTF8_eq_toByteArray, dif_pos s.isValidUTF8]
  rfl

/-- The byte a character of the lower half of a byte is written as. -/
def ascii (c : Char) : UInt8 := c.toNat.toUInt8

theorem toNat_ascii {c : Char} (h : c.toNat < 128) : (ascii c).toNat = c.toNat := by
  rw [ascii, Nat.toUInt8_eq, UInt8.toNat_ofNat']
  omega

/-- Characters of one byte are told apart by it. -/
theorem ascii_inj {c c' : Char} (hc : c.toNat < 128) (hc' : c'.toNat < 128)
    (h : ascii c = ascii c') : c = c' := by
  apply Char.toNat_inj.mp
  rw [← toNat_ascii hc, ← toNat_ascii hc', h]

theorem utf8EncodeChar_ascii {c : Char} (h : c.toNat < 128) : String.utf8EncodeChar c = [ascii c] := by
  have hval : c.val ≤ 0x7f := by
    rw [UInt32.le_iff_toNat_le]
    change c.toNat ≤ 127
    omega
  rw [String.utf8EncodeChar_eq_singleton (by simp [Char.utf8Size, hval])]
  rfl

/-- Plain text is one byte to a character. -/
theorem utf8_ofList {chars : List Char} (h : ∀ c ∈ chars, c.toNat < 128) :
    utf8 (String.ofList chars) = chars.map ascii := by
  rw [utf8, String.toUTF8_eq_toByteArray, String.toByteArray_ofList, List.utf8Encode,
    List.data_toByteArray, ← List.flatMap_pure_eq_map]
  exact List.flatMap_congr fun c hc => utf8EncodeChar_ascii (h c hc)

/-- The pieces between the separators, empty ones too. -/
def split (s : String) (sep : Char) : List String := (s.toList.splitOn sep).map String.ofList

/-- What follows this beginning, if the string begins so. -/
def stripPrefix (s beginning : String) : Option String :=
  (s.toList.dropPrefix? beginning.toList).map String.ofList

@[simp] theorem stripPrefix_append (beginning rest : String) :
    stripPrefix (beginning ++ rest) beginning = some rest := by
  rw [stripPrefix, String.toList_append, List.dropPrefix?_append_of_beq _ (beq_self_eq_true _),
    Option.map_some, String.ofList_toList]

/-- Every occurrence of a character replaced. -/
def replace (s : String) (c : Char) (replacement : String) : String :=
  String.ofList (s.toList.flatMap fun d => if d = c then replacement.toList else [d])

/-- The pieces with the separator between them. -/
def join (sep : Char) (pieces : List String) : String :=
  String.ofList ([sep].intercalate (pieces.map String.toList))

/-- Pieces without the separator come apart as they were put together. -/
theorem split_join {sep : Char} {pieces : List String} (hsep : ∀ piece ∈ pieces, sep ∉ piece.toList)
    (hne : pieces ≠ []) : split (join sep pieces) sep = pieces := by
  rw [split, join, String.toList_ofList, List.splitOn_intercalate]
  · rw [List.map_map]
    exact List.map_id'' (fun s => String.ofList_toList) pieces
  · intro piece hpiece
    obtain ⟨s, hs, rfl⟩ := List.mem_map.mp hpiece
    exact hsep s hs
  · simpa using hne

/-- The first piece of a text ends at the first separator. -/
theorem split_append {before rest : String} {sep : Char} (h : sep ∉ before.toList) :
    split (before ++ String.ofList [sep] ++ rest) sep = before :: split rest sep := by
  rw [split, String.toList_append, String.toList_append, String.toList_ofList, List.append_assoc,
    List.singleton_append, List.splitOn_append_cons_self_of_not_mem h]
  rw [List.map_cons, String.ofList_toList, split]

/-- The value of a text as an unsigned number of 32 bits: decimal digits, a plus sign
allowed before them. -/
def parseU32 (s : String) : Option ℕ :=
  let digits := match s.toList with
    | '+' :: rest => rest
    | chars => chars
  if digits ≠ [] ∧ digits.all Char.isDigit ∧ Nat.ofDigitChars 10 digits 0 < 2 ^ 32 then
    some (Nat.ofDigitChars 10 digits 0)
  else none

/-- A number written in decimal is read back exactly if it fits. -/
theorem parseU32_repr (n : ℕ) : parseU32 n.repr = if n < 2 ^ 32 then some n else none := by
  have hdigits : ∀ c ∈ Nat.toDigits 10 n, c.isDigit := fun c hc =>
    Nat.isDigit_of_mem_toDigits (by decide) (by decide) hc
  have hunsigned : (match Nat.toDigits 10 n with
      | '+' :: rest => rest
      | chars => chars) = Nat.toDigits 10 n := by
    split
    · next rest hplus =>
        have hdigit := hdigits '+' (by rw [hplus]; exact List.mem_cons_self)
        cases hdigit
    · rfl
  rw [parseU32, Nat.toList_repr, hunsigned, Nat.ofDigitChars_ten_toDigits]
  have hshape : Nat.toDigits 10 n ≠ [] ∧ (Nat.toDigits 10 n).all Char.isDigit :=
    ⟨Nat.toDigits_ne_nil, List.all_eq_true.mpr hdigits⟩
  simp only [hshape, true_and, ne_eq, not_false_eq_true]

end Barnabas.Lib.Text
