import Mathlib.Data.List.GetD
import Mathlib.Data.List.Nodup

/-!
Base64 with the standard alphabet and padding.

Three bytes are four characters of six bits each. A last group of one or two bytes is
filled up with zero bits and with padding characters. The decoder here is the strict one:
whole groups, padding only at the end and never missing, and no stray bits under it.
-/

namespace Barnabas.Lib.Base64

/-- The characters of the values from 0 to 63. -/
def alphabet : List Char :=
  "ABCDEFGHIJKLMNOPQRSTUVWXYZabcdefghijklmnopqrstuvwxyz0123456789+/".toList

def digit (value : ℕ) : Char := alphabet.getD value 'A'

def value? (c : Char) : Option ℕ := alphabet.idxOf? c

def encode : List UInt8 → List Char
  | [] => []
  | [a] => [digit (a.toNat / 4), digit (a.toNat % 4 * 16), '=', '=']
  | [a, b] =>
      [digit (a.toNat / 4), digit (a.toNat % 4 * 16 + b.toNat / 16), digit (b.toNat % 16 * 4), '=']
  | a :: b :: c :: rest =>
      digit (a.toNat / 4) :: digit (a.toNat % 4 * 16 + b.toNat / 16) ::
        digit (b.toNat % 16 * 4 + c.toNat / 64) :: digit (c.toNat % 64) :: encode rest

/-- The bytes of a text, if it is one that `encode` could have written. -/
def decode : List Char → Option (List UInt8)
  | [] => some []
  | p :: q :: r :: s :: rest => do
      let p ← value? p
      let q ← value? q
      if rest = [] ∧ r = '=' ∧ s = '=' then
        if q % 16 = 0 then return [UInt8.ofNat (p * 4 + q / 16)] else none
      else
        let r ← value? r
        if rest = [] ∧ s = '=' then
          if r % 4 = 0 then
            return [UInt8.ofNat (p * 4 + q / 16), UInt8.ofNat (q % 16 * 16 + r / 4)]
          else none
        else
          let s ← value? s
          let bytes ← decode rest
          return UInt8.ofNat (p * 4 + q / 16) :: UInt8.ofNat (q % 16 * 16 + r / 4) ::
            UInt8.ofNat (r % 4 * 64 + s) :: bytes
  | _ => none

/-- The digits by their codes: the capitals, the small letters, the figures and two more. -/
theorem alphabet_codes : alphabet.map Char.toNat =
    List.range' 65 26 ++ (List.range' 97 26 ++ (List.range' 48 10 ++ [43, 47])) :=
  congrArg (List.map Char.toNat) String.toList_ofList

theorem alphabet_length : alphabet.length = 64 := by
  simpa using congrArg List.length alphabet_codes

theorem alphabet_nodup : alphabet.Nodup := by
  apply List.Nodup.of_map Char.toNat
  rw [alphabet_codes]
  refine List.nodup_append.mpr ⟨List.nodup_range', List.nodup_append.mpr ⟨List.nodup_range',
    List.nodup_append.mpr ⟨List.nodup_range', by decide, ?_⟩, ?_⟩, ?_⟩
  all_goals
    intro a ha b hb
    simp only [List.mem_append, List.mem_range'_1, List.mem_cons, List.not_mem_nil, or_false]
      at ha hb
    omega

theorem digit_eq_getElem {value : ℕ} (h : value < alphabet.length) :
    digit value = alphabet[value] := List.getD_eq_getElem alphabet 'A' h

theorem value?_digit {value : ℕ} (h : value < 64) : value? (digit value) = some value := by
  have hlength : value < alphabet.length := by rwa [alphabet_length]
  rw [value?, List.idxOf?_eq_some_iff, digit_eq_getElem hlength]
  refine ⟨hlength, rfl, fun j hj heq => ?_⟩
  have := alphabet_nodup.getElem_inj_iff.mp heq
  omega

theorem digit_inj {value value' : ℕ} (h : value < 64) (h' : value' < 64)
    (heq : digit value = digit value') : value = value' := by
  have hvalues := congrArg value? heq
  rw [value?_digit h, value?_digit h'] at hvalues
  exact Option.some.inj hvalues

/-- A digit is a character of one byte, and neither the comma nor the padding. -/
theorem code_digit {value : ℕ} (h : value < 64) :
    (digit value).toNat < 128 ∧ (digit value).toNat ≠ 44 ∧ (digit value).toNat ≠ 61 := by
  have hlength : value < alphabet.length := by rwa [alphabet_length]
  have hmem : (digit value).toNat ∈ alphabet.map Char.toNat := by
    rw [digit_eq_getElem hlength]
    exact List.mem_map_of_mem (List.getElem_mem hlength)
  rw [alphabet_codes] at hmem
  simp only [List.mem_append, List.mem_range'_1, List.mem_cons, List.not_mem_nil, or_false] at hmem
  omega

theorem digit_ne_pad {value : ℕ} (h : value < 64) : digit value ≠ '=' := by
  intro hpad
  exact (code_digit h).2.2 (congrArg Char.toNat hpad)

/-- What holds of the digits and of the padding holds of every character written. -/
theorem forall_mem_encode {P : Char → Prop} (hdigit : ∀ value < 64, P (digit value)) (hpad : P '=')
    (bytes : List UInt8) : ∀ c ∈ encode bytes, P c := by
  have hbyte : ∀ a : UInt8, a.toNat < 256 := UInt8.toNat_lt
  induction bytes using encode.induct with
  | case1 => simp [encode]
  | case2 a =>
      have ha := hbyte a
      simp only [encode, List.forall_mem_cons]
      exact ⟨hdigit _ (by omega), hdigit _ (by omega), hpad, hpad, List.forall_mem_nil _⟩
  | case3 a b =>
      have ha := hbyte a
      have hb := hbyte b
      simp only [encode, List.forall_mem_cons]
      exact ⟨hdigit _ (by omega), hdigit _ (by omega), hdigit _ (by omega), hpad,
        List.forall_mem_nil _⟩
  | case4 a b c rest ih =>
      have ha := hbyte a
      have hb := hbyte b
      have hc := hbyte c
      simp only [encode, List.forall_mem_cons]
      exact ⟨hdigit _ (by omega), hdigit _ (by omega), hdigit _ (by omega), hdigit _ (by omega), ih⟩

theorem ofNat_eq {a : UInt8} {n : ℕ} (h : n = a.toNat) : UInt8.ofNat n = a := by
  rw [h, UInt8.ofNat_toNat]

/-- Bytes written are read back. -/
theorem decode_encode (bytes : List UInt8) : decode (encode bytes) = some bytes := by
  have hbyte : ∀ a : UInt8, a.toNat < 256 := UInt8.toNat_lt
  induction bytes using encode.induct with
  | case1 => rfl
  | case2 a =>
      have ha := hbyte a
      have hstray : a.toNat % 4 * 16 % 16 = 0 := by omega
      have hfirst : UInt8.ofNat (a.toNat / 4 * 4 + a.toNat % 4 * 16 / 16) = a := ofNat_eq (by omega)
      rw [encode, decode, value?_digit (by omega), value?_digit (by omega)]
      simp only [Option.bind_eq_bind, Option.bind_some, Option.pure_def, and_self,
        if_true, hstray, hfirst]
  | case3 a b =>
      have ha := hbyte a
      have hb := hbyte b
      have hstray : b.toNat % 16 * 4 % 4 = 0 := by omega
      have hfirst : UInt8.ofNat (a.toNat / 4 * 4 + (a.toNat % 4 * 16 + b.toNat / 16) / 16) = a :=
        ofNat_eq (by omega)
      have hsecond : UInt8.ofNat ((a.toNat % 4 * 16 + b.toNat / 16) % 16 * 16 + b.toNat % 16 * 4 / 4) =
          b := ofNat_eq (by omega)
      have hmore : digit (b.toNat % 16 * 4) ≠ '=' := digit_ne_pad (by omega)
      rw [encode, decode, value?_digit (by omega), value?_digit (by omega), value?_digit (by omega)]
      simp only [Option.bind_eq_bind, Option.bind_some, Option.pure_def, and_self, and_true,
        and_false, if_true, if_false, hmore, hstray, hfirst, hsecond]
  | case4 a b c rest ih =>
      have ha := hbyte a
      have hb := hbyte b
      have hc := hbyte c
      have hfirst : UInt8.ofNat (a.toNat / 4 * 4 + (a.toNat % 4 * 16 + b.toNat / 16) / 16) = a :=
        ofNat_eq (by omega)
      have hsecond : UInt8.ofNat ((a.toNat % 4 * 16 + b.toNat / 16) % 16 * 16 +
          (b.toNat % 16 * 4 + c.toNat / 64) / 4) = b := ofNat_eq (by omega)
      have hthird : UInt8.ofNat ((b.toNat % 16 * 4 + c.toNat / 64) % 4 * 64 + c.toNat % 64) = c :=
        ofNat_eq (by omega)
      have hmore : digit (c.toNat % 64) ≠ '=' := digit_ne_pad (by omega)
      rw [encode, decode, value?_digit (by omega), value?_digit (by omega), value?_digit (by omega),
        value?_digit (by omega), ih]
      simp only [Option.bind_eq_bind, Option.bind_some, Option.pure_def, and_false, if_false,
        hmore, hfirst, hsecond, hthird]

end Barnabas.Lib.Base64
