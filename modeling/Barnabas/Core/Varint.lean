import Barnabas.Core.Integers
import Mathlib.Tactic.Ring

/-!
The variable-length integers inside a record batch: zigzag, then seven bits to a
byte, the lowest first, and every byte but the last with its high bit set.

What a reader finds depends only on the bytes from its position on; `Holds` says
what these begin with, and the reader's own rule is stated in terms of it. The
loop has ten rounds, so the last group it reads has one bit left of the 64.
-/

namespace Barnabas.Core

open Barnabas.Lib

/-- The buffer has these bytes at this position. -/
def Holds (buf : Bytes) (pos : ℕ) (bytes : Bytes) : Prop := bytes <+: buf.drop pos

theorem holds_append {buf : Bytes} {pos : ℕ} {first second : Bytes} :
    Holds buf pos (first ++ second) ↔
      Holds buf pos first ∧ Holds buf (pos + first.length) second := by
  constructor
  · rintro ⟨rest, hrest⟩
    refine ⟨⟨second ++ rest, by rw [← List.append_assoc, hrest]⟩, rest, ?_⟩
    rw [← List.drop_drop, ← hrest, List.append_assoc, List.drop_left]
  · rintro ⟨⟨rest, hrest⟩, rest', hrest'⟩
    refine ⟨rest', ?_⟩
    rw [← List.drop_drop, ← hrest, List.drop_left] at hrest'
    rw [List.append_assoc, hrest', hrest]

theorem Holds.getElem? {buf : Bytes} {pos : ℕ} {b : UInt8} {bytes : Bytes}
    (h : Holds buf pos (b :: bytes)) : buf[pos]? = some b := by
  obtain ⟨rest, hrest⟩ := h
  have hhead := congrArg (·[0]?) hrest
  simpa using hhead.symm

theorem holds_singleton {buf : Bytes} {pos : ℕ} {b : UInt8} :
    Holds buf pos [b] ↔ buf[pos]? = some b := by
  constructor
  · exact Holds.getElem?
  · intro hbyte
    obtain ⟨hlt, hget⟩ := List.getElem?_eq_some_iff.mp hbyte
    refine ⟨buf.drop (pos + 1), ?_⟩
    rw [List.drop_eq_getElem_cons hlt, hget]
    rfl

theorem holds_cons {buf : Bytes} {pos : ℕ} {b : UInt8} {bytes : Bytes} :
    Holds buf pos (b :: bytes) ↔ buf[pos]? = some b ∧ Holds buf (pos + 1) bytes := by
  rw [← holds_singleton]
  exact @holds_append buf pos [b] bytes

theorem Holds.take_drop {buf : Bytes} {pos : ℕ} {bytes : Bytes} (h : Holds buf pos bytes) :
    (buf.drop pos).take bytes.length = bytes := by
  obtain ⟨rest, hrest⟩ := h
  rw [← hrest, List.take_left]

theorem Holds.length_le {buf : Bytes} {pos : ℕ} {bytes : Bytes} (h : Holds buf pos bytes)
    (hpos : pos ≤ buf.length) : pos + bytes.length ≤ buf.length := by
  have hle := List.IsPrefix.length_le h
  rw [List.length_drop] at hle
  omega

/-! ### Writing -/

/-- The groups of a number of at most `fuel` groups. -/
def groups : ℕ → ℕ → Bytes
  | 0, _ => []
  | fuel + 1, n =>
      if n < 128 then [UInt8.ofNat n] else UInt8.ofNat (n % 128 + 128) :: groups fuel (n / 128)

def zigzag (x : ℤ) : ℕ := if 0 ≤ x then (2 * x).toNat else (-2 * x - 1).toNat

/-- A variable-length integer: ten groups are enough for 64 bits. -/
def varintBytes (x : ℤ) : Bytes := groups 10 (zigzag x)

/-! ### Group sequences -/

/-- A complete group sequence: the high bit is set on every byte but the last. -/
def Leb128 (bytes : Bytes) : Prop :=
  ∃ init last, bytes = init ++ [last] ∧ (∀ b ∈ init, 128 ≤ b.toNat) ∧ last.toNat < 128

/-- The number that groups of seven bits stand for, the lowest first. -/
def leb128 : Bytes → ℕ
  | [] => 0
  | b :: bytes => b.toNat % 128 + 128 * leb128 bytes

theorem leb128_cons_iff {b : UInt8} {bytes : Bytes} :
    Leb128 (b :: bytes) ↔
      b.toNat < 128 ∧ bytes = [] ∨ 128 ≤ b.toNat ∧ Leb128 bytes := by
  constructor
  · rintro ⟨_ | ⟨b', init⟩, last, heq, hinit, hlast⟩
    · obtain ⟨rfl, rfl⟩ := List.cons.inj heq
      exact .inl ⟨hlast, rfl⟩
    · obtain ⟨rfl, rfl⟩ := List.cons.inj heq
      obtain ⟨hb, hinit⟩ := List.forall_mem_cons.mp hinit
      exact .inr ⟨hb, init, last, rfl, hinit, hlast⟩
  · rintro (⟨hb, rfl⟩ | ⟨hb, init, last, rfl, hinit, hlast⟩)
    · exact ⟨[], b, rfl, by simp, hb⟩
    · exact ⟨b :: init, last, rfl, List.forall_mem_cons.mpr ⟨hb, hinit⟩, hlast⟩

theorem leb128_append (init bytes : Bytes) :
    leb128 (init ++ bytes) = leb128 init + 128 ^ init.length * leb128 bytes := by
  induction init with
  | nil => simp [leb128]
  | cons b init ih =>
      rw [List.cons_append, leb128, leb128, ih, List.length_cons, pow_succ]
      ring

theorem leb128_lt (bytes : Bytes) : leb128 bytes < 128 ^ bytes.length := by
  induction bytes with
  | nil => simp [leb128]
  | cons b bytes ih =>
      rw [leb128, List.length_cons, pow_succ]
      omega

/-- What is written is a complete sequence that stands for the number. -/
structure StandsFor (bytes : Bytes) (n : ℕ) : Prop where
  complete : Leb128 bytes
  value : leb128 bytes = n

theorem standsFor_singleton {n : ℕ} (hn : n < 128) : StandsFor [UInt8.ofNat n] n := by
  have hb : (UInt8.ofNat n).toNat = n := by
    simp
    omega
  constructor
  · exact leb128_cons_iff.mpr (.inl ⟨by omega, rfl⟩)
  · rw [leb128, leb128, hb]
    omega

theorem StandsFor.cons {bytes : Bytes} {n : ℕ} (h : StandsFor bytes (n / 128)) :
    StandsFor (UInt8.ofNat (n % 128 + 128) :: bytes) n := by
  have hb : (UInt8.ofNat (n % 128 + 128)).toNat = n % 128 + 128 := by
    simp
    omega
  constructor
  · exact leb128_cons_iff.mpr (.inr ⟨by omega, h.complete⟩)
  · rw [leb128, h.value, hb]
    omega

theorem standsFor_groups (fuel : ℕ) {n : ℕ} (hn : n < 128 ^ (fuel + 1)) :
    StandsFor (groups (fuel + 1) n) n := by
  induction fuel generalizing n with
  | zero =>
      have hsmall : n < 128 := by simpa using hn
      rw [groups, if_pos hsmall]
      exact standsFor_singleton hsmall
  | succ fuel ih =>
      rw [groups]
      split
      · next hsmall => exact standsFor_singleton hsmall
      · apply StandsFor.cons
        apply ih
        rw [pow_succ] at hn
        exact Nat.div_lt_of_lt_mul (by omega)

theorem groups_length_le (fuel n : ℕ) : (groups fuel n).length ≤ fuel := by
  induction fuel generalizing n with
  | zero => exact le_refl 0
  | succ fuel ih =>
      rw [groups]
      split
      · simp
      · exact Nat.succ_le_succ (ih (n / 128))

/-! ### Reading -/

/-- The integer a zigzag number stands for. -/
def unzigzag (n : ℕ) : ℤ := if n % 2 = 0 then (n / 2 : ℕ) else -(n / 2 : ℕ) - 1

theorem unzigzag_zigzag (x : ℤ) : unzigzag (zigzag x) = x := by
  rw [unzigzag, zigzag]
  split <;> split <;> omega

theorem zigzag_lt {x : ℤ} (hx : Fits 64 x) : zigzag x < 2 ^ 64 := by
  obtain ⟨hlow, hhigh⟩ := hx
  norm_num at hlow hhigh ⊢
  rw [zigzag]
  split <;> omega

theorem toNat_low (b : UInt8) : (b &&& 0x7f).toUInt64.toNat = b.toNat % 128 := by
  have hmod := Nat.and_two_pow_sub_one_eq_mod b.toNat 7
  simpa using hmod

theorem high_eq_zero_iff (b : UInt8) : b &&& 0x80 = 0 ↔ b.toNat < 128 := by
  have hall : ∀ v : BitVec 8, v &&& 0x80#8 = 0#8 ↔ v.toNat < 128 := by decide
  rw [← UInt8.toBitVec_inj]
  exact hall b.toBitVec

/-- A further group goes above what was read before; what passes 64 bits is
dropped. -/
theorem toNat_or_shift {raw group : UInt64} {shift : ℕ} (hshift : shift < 64)
    (hraw : raw.toNat < 2 ^ shift) :
    (raw ||| (group <<< UInt64.ofNat shift)).toNat =
      (raw.toNat + group.toNat * 2 ^ shift) % 2 ^ 64 := by
  have hamount : (UInt64.ofNat shift).toNat % 64 = shift := by
    simp
    omega
  have hwidth : 2 ^ 64 = 2 ^ (64 - shift) * 2 ^ shift := by
    rw [← pow_add, show 64 - shift + shift = 64 by omega]
  have hkept : group.toNat * 2 ^ shift % 2 ^ 64 =
      2 ^ shift * (group.toNat % 2 ^ (64 - shift)) := by
    rw [hwidth, Nat.mul_mod_mul_right, Nat.mul_comm]
  have hlt : 2 ^ shift * (group.toNat % 2 ^ (64 - shift)) + raw.toNat < 2 ^ 64 := by
    have hgroup : group.toNat % 2 ^ (64 - shift) + 1 ≤ 2 ^ (64 - shift) :=
      Nat.mod_lt _ (Nat.two_pow_pos _)
    have hmul := Nat.mul_le_mul_left (2 ^ shift) hgroup
    rw [Nat.mul_comm (2 ^ shift) (2 ^ (64 - shift)), ← hwidth, Nat.mul_add_one] at hmul
    omega
  have hmod : (raw.toNat + group.toNat * 2 ^ shift) % 2 ^ 64 =
      2 ^ shift * (group.toNat % 2 ^ (64 - shift)) + raw.toNat := by
    rw [Nat.add_mod, hkept, Nat.mod_eq_of_lt raw.toNat_lt, Nat.add_comm raw.toNat,
      Nat.mod_eq_of_lt hlt]
  rw [hmod, UInt64.toNat_or, UInt64.toNat_shiftLeft, hamount, Nat.shiftLeft_eq, hkept,
    Nat.or_comm, ← Nat.two_pow_add_eq_or_of_lt hraw]

theorem finish_eq (raw : UInt64) :
    (if raw &&& 1 = 0 then ((raw >>> 1).toNat : ℤ) else -(raw >>> 1).toNat - 1) =
      unzigzag raw.toNat := by
  have hhalf : (raw >>> 1).toNat = raw.toNat / 2 := by
    rw [UInt64.toNat_shiftRight, Nat.shiftRight_eq_div_pow]
    rfl
  have hparity : raw &&& 1 = 0 ↔ raw.toNat % 2 = 0 := by
    rw [← UInt64.toNat_inj, UInt64.toNat_and]
    change raw.toNat &&& 1 = 0 ↔ _
    rw [Nat.and_one_is_mod]
  rw [hhalf, unzigzag]
  simp only [hparity]

section Loop

variable {buf : Bytes} {pos shift : ℕ} {raw : UInt64} {b : UInt8}

/-- One round of the loop. -/
theorem varintLoop_step (fuel : ℕ) (hshift : shift < 64) (hraw : raw.toNat < 2 ^ shift)
    (hbyte : buf[pos]? = some b) :
    ∃ raw' : UInt64, raw'.toNat = (raw.toNat + b.toNat % 128 * 2 ^ shift) % 2 ^ 64 ∧
      varintLoop buf (fuel + 1) pos shift raw =
        if b.toNat < 128 then some (unzigzag raw'.toNat, pos + 1)
        else varintLoop buf fuel (pos + 1) (shift + 7) raw' := by
  refine ⟨raw ||| ((b &&& 0x7f).toUInt64 <<< UInt64.ofNat shift), ?_, ?_⟩
  · rw [toNat_or_shift hshift hraw, toNat_low]
  · rw [varintLoop, hbyte]
    simp only [high_eq_zero_iff, finish_eq]

/-- Where the buffer has a byte, a complete sequence begins with it. -/
theorem Holds.uncons {bytes : Bytes} (hholds : Holds buf pos bytes) (hleb : Leb128 bytes)
    (hbyte : buf[pos]? = some b) :
    ∃ rest, bytes = b :: rest ∧ Holds buf (pos + 1) rest ∧
      (b.toNat < 128 ∧ rest = [] ∨ 128 ≤ b.toNat ∧ Leb128 rest) := by
  cases bytes with
  | nil =>
      obtain ⟨init, last, heq, -⟩ := hleb
      simp at heq
  | cons b' rest =>
      obtain ⟨hbyte', hrest⟩ := holds_cons.mp hholds
      rw [hbyte, Option.some.injEq] at hbyte'
      subst hbyte'
      exact ⟨rest, rfl, hrest, leb128_cons_iff.mp hleb⟩

/-- The loop reads a complete sequence of at most as many groups as it has rounds
left, and keeps 64 bits of its value. -/
theorem varintLoop_eq_some_iff (fuel : ℕ) (hshift : shift + 7 * fuel = 70)
    (hraw : raw.toNat < 2 ^ shift) (v : ℤ) (pos' : ℕ) :
    varintLoop buf fuel pos shift raw = some (v, pos') ↔
      ∃ bytes, Holds buf pos bytes ∧ Leb128 bytes ∧ bytes.length ≤ fuel ∧
        v = unzigzag ((raw.toNat + leb128 bytes * 2 ^ shift) % 2 ^ 64) ∧
        pos' = pos + bytes.length := by
  induction fuel generalizing pos shift raw with
  | zero =>
      constructor
      · intro h
        cases h
      · rintro ⟨bytes, -, ⟨init, last, rfl, -⟩, hlen, -⟩
        simp at hlen
  | succ fuel ih =>
      cases hbyte : buf[pos]? with
      | none =>
          constructor
          · intro h
            rw [varintLoop, hbyte] at h
            cases h
          · rintro ⟨_ | ⟨b, bytes⟩, hholds, ⟨init, last, heq, -⟩, -⟩
            · simp at heq
            · rw [hholds.getElem?] at hbyte
              cases hbyte
      | some b =>
          obtain ⟨raw', hraw', heq⟩ := varintLoop_step fuel (by omega) hraw hbyte
          rw [heq]
          by_cases hb : b.toNat < 128
          · have hvalue : (raw.toNat + leb128 [b] * 2 ^ shift) % 2 ^ 64 = raw'.toNat := by
              rw [hraw', leb128, leb128, Nat.mul_zero, Nat.add_zero]
            rw [if_pos hb]
            constructor
            · intro h
              obtain ⟨rfl, rfl⟩ := Prod.mk.inj (Option.some.inj h)
              refine ⟨[b], holds_singleton.mpr hbyte, leb128_cons_iff.mpr (.inl ⟨hb, rfl⟩),
                by simp, ?_, rfl⟩
              rw [hvalue]
            · rintro ⟨bytes, hholds, hleb, -, rfl, rfl⟩
              obtain ⟨rest, rfl, -, ⟨-, rfl⟩ | ⟨hhigh, -⟩⟩ := hholds.uncons hleb hbyte
              · rw [hvalue, List.length_singleton]
              · omega
          · have hmore : raw'.toNat < 2 ^ (shift + 7) := by
              have hgroup : b.toNat % 128 + 1 ≤ 128 := by omega
              have hmul := Nat.mul_le_mul_right (2 ^ shift) hgroup
              have hmod := Nat.mod_le (raw.toNat + b.toNat % 128 * 2 ^ shift) (2 ^ 64)
              rw [Nat.add_one_mul] at hmul
              rw [pow_add, hraw']
              omega
            have hvalue (rest : Bytes) :
                (raw'.toNat + leb128 rest * 2 ^ (shift + 7)) % 2 ^ 64 =
                  (raw.toNat + leb128 (b :: rest) * 2 ^ shift) % 2 ^ 64 := by
              rw [hraw', Nat.mod_add_mod, leb128, pow_add]
              congr 1
              ring
            rw [if_neg hb, ih (by omega) hmore]
            constructor
            · rintro ⟨rest, hholds, hleb, hlen, rfl, rfl⟩
              refine ⟨b :: rest, holds_cons.mpr ⟨hbyte, hholds⟩,
                leb128_cons_iff.mpr (.inr ⟨by omega, hleb⟩), by simpa using hlen, ?_, ?_⟩
              · rw [hvalue]
              · rw [List.length_cons]
                omega
            · rintro ⟨bytes, hholds, hleb, hlen, rfl, rfl⟩
              obtain ⟨rest, rfl, hrest, ⟨hlow, -⟩ | ⟨-, hleb⟩⟩ := hholds.uncons hleb hbyte
              · omega
              · refine ⟨rest, hrest, hleb, by simpa using hlen, ?_, ?_⟩
                · rw [hvalue]
                · rw [List.length_cons]
                  omega

end Loop

/-- What `varint` reads, whatever the buffer: a complete sequence of at most ten
groups, of whose value it keeps 64 bits. -/
theorem varint_eq_some_iff {buf : Bytes} {pos : ℕ} {v : ℤ} {pos' : ℕ} :
    varint buf pos = some (v, pos') ↔
      ∃ bytes, Holds buf pos bytes ∧ Leb128 bytes ∧ bytes.length ≤ 10 ∧
        v = unzigzag (leb128 bytes % 2 ^ 64) ∧ pos' = pos + bytes.length := by
  have hloop := @varintLoop_eq_some_iff buf pos 0 0 10 rfl (by decide) v pos'
  simpa [varint] using hloop

/-- A variable-length integer is read back. -/
theorem varint_varintBytes {buf : Bytes} {pos : ℕ} {x : ℤ} (hx : Fits 64 x)
    (hholds : Holds buf pos (varintBytes x)) :
    varint buf pos = some (x, pos + (varintBytes x).length) := by
  have hlt := zigzag_lt hx
  have hgroups := standsFor_groups 9 (lt_of_lt_of_le hlt (by norm_num))
  apply varint_eq_some_iff.mpr
  refine ⟨varintBytes x, hholds, hgroups.complete, groups_length_le 10 _, ?_, rfl⟩
  rw [varintBytes, hgroups.value, Nat.mod_eq_of_lt hlt, unzigzag_zigzag]

theorem varintOr_varintBytes (what : String) {buf : Bytes} {pos : ℕ} {x : ℤ} (hx : Fits 64 x)
    (hholds : Holds buf pos (varintBytes x)) :
    varintOr what buf pos = .ok (x, pos + (varintBytes x).length) := by
  rw [varintOr, varint_varintBytes hx hholds]

theorem varintBytes_length_pos (x : ℤ) : 0 < (varintBytes x).length := by
  rw [varintBytes, groups]
  split <;> simp

/-! ### The tenth byte -/

/-- Ten groups of which the last, where one bit is left of the 64, has more. -/
def Overfull (buf : Bytes) (pos : ℕ) : Prop :=
  ∃ init last, Holds buf pos (init ++ [last]) ∧ init.length = 9 ∧ (∀ b ∈ init, 128 ≤ b.toNat) ∧
    2 ≤ last.toNat ∧ last.toNat < 128

/-- The bytes from the position on are read as the encoding of 64 bits they are:
a complete sequence of at most ten groups whose value fits, or nothing. -/
structure VarintExact (buf : Bytes) (pos : ℕ) : Prop where
  accepts : ∀ v pos', varint buf pos = some (v, pos') ↔
    ∃ bytes, Holds buf pos bytes ∧ Leb128 bytes ∧ bytes.length ≤ 10 ∧ leb128 bytes < 2 ^ 64 ∧
      v = unzigzag (leb128 bytes) ∧ pos' = pos + bytes.length
  standard : ∀ x, Fits 64 x → Holds buf pos (varintBytes x) →
    varint buf pos = some (x, pos + (varintBytes x).length)

/-- A sequence of ten groups fits in 64 bits if the last is 0 or 1. -/
theorem leb128_ten_lt_iff {init : Bytes} {last : UInt8} (hlen : init.length = 9)
    (hlast : last.toNat < 128) : leb128 (init ++ [last]) < 2 ^ 64 ↔ last.toNat < 2 := by
  have hinit := leb128_lt init
  rw [leb128_append, hlen, leb128, leb128, Nat.mod_eq_of_lt hlast]
  rw [hlen] at hinit
  omega

/-- The value of an overfull sequence is cut, and the sequence accepted. -/
theorem Overfull.accepted {buf : Bytes} {pos : ℕ} (h : Overfull buf pos) :
    ∃ bytes, Holds buf pos bytes ∧ bytes.length = 10 ∧ 2 ^ 64 ≤ leb128 bytes ∧
      varint buf pos = some (unzigzag (leb128 bytes % 2 ^ 64), pos + 10) := by
  obtain ⟨init, last, hholds, hlen, hinit, hlow, hlast⟩ := h
  have hten : (init ++ [last]).length = 10 := by simp [hlen]
  have hvalue := (leb128_ten_lt_iff hlen hlast).not
  refine ⟨init ++ [last], hholds, hten, by omega, ?_⟩
  apply varint_eq_some_iff.mpr
  exact ⟨init ++ [last], hholds, ⟨init, last, rfl, hinit, hlast⟩, by omega, rfl, by rw [hten]⟩

theorem Overfull.not_exact {buf : Bytes} {pos : ℕ} (h : Overfull buf pos) :
    ¬ VarintExact buf pos := by
  intro hexact
  obtain ⟨bytes, hholds, hten, hvalue, hread⟩ := h.accepted
  obtain ⟨bytes', hholds', -, -, hfits, -, hpos⟩ := (hexact.accepts _ _).mp hread
  have hlen : bytes'.length = bytes.length := by omega
  have heq : bytes' = bytes := by
    rw [← hholds'.take_drop, ← hholds.take_drop, hlen]
  subst heq
  omega

/-- A sequence of at most ten groups is overfull or fits. -/
theorem leb128_lt_or_overfull {buf : Bytes} {pos : ℕ} {bytes : Bytes}
    (hholds : Holds buf pos bytes) (hleb : Leb128 bytes) (hlen : bytes.length ≤ 10) :
    leb128 bytes < 2 ^ 64 ∨ Overfull buf pos := by
  obtain ⟨init, last, rfl, hinit, hlast⟩ := hleb
  rw [List.length_append, List.length_singleton] at hlen
  by_cases hnine : init.length = 9
  · have hiff := leb128_ten_lt_iff hnine hlast
    by_cases hlow : last.toNat < 2
    · exact .inl (hiff.mpr hlow)
    · exact .inr ⟨init, last, hholds, hnine, hinit, by omega, hlast⟩
  · left
    calc leb128 (init ++ [last])
      _ < 128 ^ (init ++ [last]).length := leb128_lt _
      _ ≤ 128 ^ 9 := by
          apply Nat.pow_le_pow_right (by omega)
          rw [List.length_append, List.length_singleton]
          omega
      _ < 2 ^ 64 := by norm_num

/-- `varint` accepts exactly the encodings of 64 bits, except that it also takes
ten groups whose last has more than the one bit that is left. -/
theorem varintExact_iff (buf : Bytes) (pos : ℕ) :
    VarintExact buf pos ↔ ¬ Overfull buf pos := by
  constructor
  · intro hexact hover
    exact hover.not_exact hexact
  · intro hnot
    have hfits {bytes : Bytes} (hholds : Holds buf pos bytes) (hleb : Leb128 bytes)
        (hlen : bytes.length ≤ 10) : leb128 bytes < 2 ^ 64 :=
      (leb128_lt_or_overfull hholds hleb hlen).resolve_right hnot
    constructor
    · intro v pos'
      rw [varint_eq_some_iff]
      constructor
      · rintro ⟨bytes, hholds, hleb, hlen, hv, hpos⟩
        have hlt := hfits hholds hleb hlen
        rw [Nat.mod_eq_of_lt hlt] at hv
        exact ⟨bytes, hholds, hleb, hlen, hlt, hv, hpos⟩
      · rintro ⟨bytes, hholds, hleb, hlen, hlt, hv, hpos⟩
        rw [← Nat.mod_eq_of_lt hlt] at hv
        exact ⟨bytes, hholds, hleb, hlen, hv, hpos⟩
    · exact fun x hx hholds => varint_varintBytes hx hholds

/-- Nine bytes `0x80` and then `0x02` stand for `2 ^ 64` and are read as zero. -/
theorem tenth_byte_cut :
    let buf : Bytes := List.replicate 9 0x80 ++ [0x02]
    leb128 buf = 2 ^ 64 ∧ varint buf 0 = some (0, 10) ∧ ¬ VarintExact buf 0 := by
  refine ⟨by decide, by decide, ?_⟩
  have hhigh : ∀ b ∈ List.replicate 9 (0x80 : UInt8), 128 ≤ b.toNat := by
    intro b hb
    rw [List.eq_of_mem_replicate hb]
    decide
  apply Overfull.not_exact
  exact ⟨List.replicate 9 0x80, 0x02, ⟨[], rfl⟩, rfl, hhigh, by decide, by decide⟩

end Barnabas.Core
