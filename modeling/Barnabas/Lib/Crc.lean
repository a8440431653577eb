import Mathlib

/-!
Cyclic redundancy checks as division of polynomials.

A string of bits is read as a polynomial over the field of two elements, the first bit
having the highest power. A reflected register is read from its least significant bit on.
Shifting it by one bit, with the generator's lower terms taken off when the bit that
leaves is set, is multiplication by `X` modulo the generator.
-/

namespace Barnabas.Lib

open Polynomial

/-- A bit as an element of the field. -/
def bitValue (b : Bool) : ZMod 2 := if b then 1 else 0

@[simp] theorem bitValue_false : bitValue false = 0 := rfl

@[simp] theorem bitValue_true : bitValue true = 1 := rfl

theorem bitValue_xor (a b : Bool) : bitValue (a ^^ b) = bitValue a + bitValue b := by
  cases a <;> cases b <;> decide

theorem bitValue_eq_one_iff (b : Bool) : bitValue b = 1 ↔ b = true := by
  cases b <;> decide

/-! ### Strings of bits -/

/-- The polynomial of a string of bits. -/
noncomputable def bitsPoly (bits : List Bool) : (ZMod 2)[X] :=
  bits.foldl (fun p b => p * X + C (bitValue b)) 0

@[simp] theorem bitsPoly_nil : bitsPoly [] = 0 := rfl

@[simp] theorem bitsPoly_concat (bits : List Bool) (b : Bool) :
    bitsPoly (bits ++ [b]) = bitsPoly bits * X + C (bitValue b) := by
  rw [bitsPoly, List.foldl_append]
  rfl

theorem bitsPoly_append (bits bits' : List Bool) :
    bitsPoly (bits ++ bits') = bitsPoly bits * X ^ bits'.length + bitsPoly bits' := by
  induction bits' using List.reverseRecOn with
  | nil => simp
  | append_singleton bits' b ih =>
      rw [← List.append_assoc, bitsPoly_concat, bitsPoly_concat, ih, List.length_append,
        List.length_singleton]
      ring

theorem bitsPoly_cons (b : Bool) (bits : List Bool) :
    bitsPoly (b :: bits) = C (bitValue b) * X ^ bits.length + bitsPoly bits := by
  have happend := bitsPoly_append [b] bits
  have hsingle : bitsPoly [b] = C (bitValue b) := by
    simpa using bitsPoly_concat [] b
  rwa [List.singleton_append, hsingle] at happend

theorem degree_bitsPoly_lt (bits : List Bool) : (bitsPoly bits).degree < bits.length := by
  rw [degree_lt_iff_coeff_zero]
  induction bits using List.reverseRecOn with
  | nil => simp
  | append_singleton bits b ih =>
      intro m hm
      rw [List.length_append, List.length_singleton] at hm
      obtain ⟨m, rfl⟩ := Nat.exists_eq_add_one.mpr (Nat.zero_lt_of_lt hm)
      rw [bitsPoly_concat, coeff_add, coeff_mul_X, ih m (by omega), coeff_C_succ, add_zero]

/-- The bits that `f` gives, from the first one on. -/
noncomputable def polyOf (f : ℕ → Bool) (n : ℕ) : (ZMod 2)[X] := bitsPoly ((List.range n).map f)

theorem polyOf_succ (f : ℕ → Bool) (n : ℕ) :
    polyOf f (n + 1) = polyOf f n * X + C (bitValue (f n)) := by
  rw [polyOf, List.range_succ, List.map_append, List.map_singleton, bitsPoly_concat]
  rfl

theorem polyOf_succ' (f : ℕ → Bool) (n : ℕ) :
    polyOf f (n + 1) = C (bitValue (f 0)) * X ^ n + polyOf (fun i => f (i + 1)) n := by
  rw [polyOf, List.range_succ_eq_map, List.map_cons, List.map_map, bitsPoly_cons, List.length_map,
    List.length_range]
  rfl

theorem polyOf_false (n : ℕ) : polyOf (fun _ => false) n = 0 := by
  induction n with
  | zero => rfl
  | succ n ih => rw [polyOf_succ, ih]; simp

theorem polyOf_xor (f g : ℕ → Bool) (n : ℕ) :
    polyOf (fun i => f i ^^ g i) n = polyOf f n + polyOf g n := by
  induction n with
  | zero => simp [polyOf]
  | succ n ih =>
      rw [polyOf_succ, polyOf_succ, polyOf_succ, ih, bitValue_xor, C_add]
      ring

/-- Bits that are not set at the end only shift the rest. -/
theorem polyOf_add {f : ℕ → Bool} {n : ℕ} (hf : ∀ i, n ≤ i → f i = false) (m : ℕ) :
    polyOf f (n + m) = polyOf f n * X ^ m := by
  induction m with
  | zero => simp
  | succ m ih =>
      rw [← Nat.add_assoc, polyOf_succ, ih, hf (n + m) (by omega), pow_succ]
      simp only [bitValue_false, C_0, add_zero]
      ring

theorem coeff_polyOf (f : ℕ → Bool) {n i : ℕ} (hi : i < n) :
    (polyOf f n).coeff (n - 1 - i) = bitValue (f i) := by
  induction n generalizing i with
  | zero => omega
  | succ n ih =>
      rw [polyOf_succ]
      by_cases hlast : i = n
      · subst hlast
        simp
      · have hsub : n + 1 - 1 - i = (n - 1 - i) + 1 := by omega
        rw [hsub, coeff_add, coeff_mul_X, ih (by omega), coeff_C_succ, add_zero]

/-! ### The register -/

section Register

variable {w : ℕ}

/-- The polynomial of a reflected register. -/
noncomputable def registerPoly (r : BitVec w) : (ZMod 2)[X] := polyOf r.getLsbD w

/-- The register of a polynomial. -/
noncomputable def reflect (w : ℕ) (p : (ZMod 2)[X]) : BitVec w :=
  (BitVec.ofBoolListLE ((List.range w).map fun i => decide (p.coeff (w - 1 - i) = 1))).setWidth w

theorem reflect_registerPoly (r : BitVec w) : reflect w (registerPoly r) = r := by
  apply BitVec.eq_of_getLsbD_eq
  intro i hi
  rw [reflect, BitVec.getLsbD_setWidth, BitVec.getLsbD_ofBoolListLE, registerPoly]
  simp [coeff_polyOf _ hi, bitValue_eq_one_iff, hi]

theorem registerPoly_xor (r r' : BitVec w) :
    registerPoly (r ^^^ r') = registerPoly r + registerPoly r' := by
  have hbits : (r ^^^ r').getLsbD = fun i => r.getLsbD i ^^ r'.getLsbD i := by
    ext i
    exact BitVec.getLsbD_xor
  rw [registerPoly, hbits, polyOf_xor]
  rfl

/-- One bit of the division: the generator is given by its terms below `X ^ w`. -/
def shiftStep (taps r : BitVec w) : BitVec w :=
  (r >>> 1) ^^^ (if r.getLsbD 0 then taps else 0)

noncomputable def generator (taps : BitVec w) : (ZMod 2)[X] := X ^ w + registerPoly taps

theorem monic_generator (taps : BitVec w) : (generator taps).Monic := by
  apply monic_X_pow_add
  simpa [registerPoly, polyOf] using degree_bitsPoly_lt ((List.range w).map taps.getLsbD)

theorem degree_registerPoly_lt (taps r : BitVec w) :
    (registerPoly r).degree < (generator taps).degree := by
  have hregister : ∀ r : BitVec w, (registerPoly r).degree < w := by
    intro r
    simpa [registerPoly, polyOf] using degree_bitsPoly_lt ((List.range w).map r.getLsbD)
  have hgenerator : (generator taps).degree = w := by
    rw [generator, degree_add_eq_left_of_degree_lt, degree_X_pow]
    rw [degree_X_pow]
    exact hregister taps
  rw [hgenerator]
  exact hregister r

/-- A bit leaves the register at the top, and the generator is taken off if it is set. -/
theorem X_mul_registerPoly (taps r : BitVec w) :
    X * registerPoly r =
      registerPoly (shiftStep taps r) + C (bitValue (r.getLsbD 0)) * generator taps := by
  have htaps : registerPoly (if r.getLsbD 0 then taps else 0) =
      C (bitValue (r.getLsbD 0)) * registerPoly taps := by
    cases r.getLsbD 0
    · have hzero : (0 : BitVec w).getLsbD = fun _ => false := by
        ext i
        exact BitVec.getLsbD_zero
      rw [if_neg (by simp), registerPoly, hzero, polyOf_false]
      simp
    · simp
  have hshift : X * registerPoly r =
      C (bitValue (r.getLsbD 0)) * X ^ w + registerPoly (r >>> 1) := by
    cases w with
    | zero => simp [registerPoly, polyOf, BitVec.of_length_zero]
    | succ v =>
        have hbits : (r >>> 1).getLsbD = fun i => r.getLsbD (i + 1) := by
          ext i
          rw [BitVec.getLsbD_ushiftRight]
          exact congrArg r.getLsbD (Nat.add_comm 1 i)
        have hlast : r.getLsbD (v + 1) = false := BitVec.getLsbD_of_ge r (v + 1) le_rfl
        rw [registerPoly, registerPoly, hbits, polyOf_succ', polyOf_succ, hlast, bitValue_false,
          C_0]
        ring
  rw [shiftStep, registerPoly_xor, htaps, hshift, generator, mul_add, add_assoc]
  have hcancel : C (bitValue (r.getLsbD 0)) * registerPoly taps +
      (C (bitValue (r.getLsbD 0)) * X ^ w + C (bitValue (r.getLsbD 0)) * registerPoly taps) =
      C (bitValue (r.getLsbD 0)) * X ^ w := by
    rw [add_comm, add_assoc, CharTwo.add_self_eq_zero, add_zero]
  rw [hcancel, add_comm]

theorem dvd_shiftStep (taps r : BitVec w) :
    generator taps ∣ X * registerPoly r - registerPoly (shiftStep taps r) := by
  rw [X_mul_registerPoly taps r, add_sub_cancel_left]
  exact dvd_mul_left _ _

theorem dvd_iterate_shiftStep (taps r : BitVec w) (n : ℕ) :
    generator taps ∣ X ^ n * registerPoly r - registerPoly ((shiftStep taps)^[n] r) := by
  induction n generalizing r with
  | zero => simp
  | succ n ih =>
      have hsplit : X ^ (n + 1) * registerPoly r - registerPoly ((shiftStep taps)^[n + 1] r) =
          X ^ n * (X * registerPoly r - registerPoly (shiftStep taps r)) +
            (X ^ n * registerPoly (shiftStep taps r) -
              registerPoly ((shiftStep taps)^[n] (shiftStep taps r))) := by
        rw [Function.iterate_succ_apply]
        ring
      rw [hsplit]
      exact dvd_add ((dvd_shiftStep taps r).mul_left _) (ih (shiftStep taps r))

/-! ### Whole messages -/

/-- Take in the `n` lower bits of a chunk. -/
def absorb (taps : BitVec w) (n : ℕ) (r chunk : BitVec w) : BitVec w :=
  (shiftStep taps)^[n] (r ^^^ chunk)

theorem dvd_absorb (taps r : BitVec w) {n : ℕ} (hn : n ≤ w) {chunk : BitVec w}
    (hchunk : ∀ i, n ≤ i → chunk.getLsbD i = false) :
    generator taps ∣ (X ^ n * registerPoly r + X ^ w * polyOf chunk.getLsbD n) -
      registerPoly (absorb taps n r chunk) := by
  have hregister : X ^ n * registerPoly chunk = X ^ w * polyOf chunk.getLsbD n := by
    have hpow : (X : (ZMod 2)[X]) ^ w = X ^ n * X ^ (w - n) := by
      rw [← pow_add, Nat.add_sub_cancel' hn]
    have hbits := polyOf_add hchunk (w - n)
    rw [Nat.add_sub_cancel' hn] at hbits
    rw [hpow, registerPoly, hbits]
    ring
  have h := dvd_iterate_shiftStep taps (r ^^^ chunk) n
  rwa [registerPoly_xor, mul_add, hregister] at h

/-- The bits of a message of chunks, each with its least significant bit first. -/
def messageBits (n : ℕ) (chunks : List (BitVec w)) : List Bool :=
  chunks.flatMap fun chunk => (List.range n).map chunk.getLsbD

theorem dvd_foldl_absorb (taps r : BitVec w) {n : ℕ} (hn : n ≤ w) {chunks : List (BitVec w)}
    (hchunks : ∀ chunk ∈ chunks, ∀ i, n ≤ i → chunk.getLsbD i = false) :
    generator taps ∣ (bitsPoly (messageBits n chunks) * X ^ w +
        registerPoly r * X ^ (n * chunks.length)) -
      registerPoly (chunks.foldl (absorb taps n) r) := by
  induction chunks using List.reverseRecOn with
  | nil => simp [messageBits]
  | append_singleton chunks chunk ih =>
      have hlast := dvd_absorb taps (chunks.foldl (absorb taps n) r) hn
        (hchunks chunk (by simp))
      have hrest := ih fun c hc => hchunks c (List.mem_append_left _ hc)
      have hbits : bitsPoly (messageBits n (chunks ++ [chunk])) =
          bitsPoly (messageBits n chunks) * X ^ n + polyOf chunk.getLsbD n := by
        rw [messageBits, List.flatMap_append, List.flatMap_singleton, bitsPoly_append,
          List.length_map, List.length_range]
        rfl
      have hsplit : (bitsPoly (messageBits n (chunks ++ [chunk])) * X ^ w +
            registerPoly r * X ^ (n * (chunks ++ [chunk]).length)) -
          registerPoly ((chunks ++ [chunk]).foldl (absorb taps n) r) =
          X ^ n * ((bitsPoly (messageBits n chunks) * X ^ w +
              registerPoly r * X ^ (n * chunks.length)) -
            registerPoly (chunks.foldl (absorb taps n) r)) +
          ((X ^ n * registerPoly (chunks.foldl (absorb taps n) r) +
              X ^ w * polyOf chunk.getLsbD n) -
            registerPoly (absorb taps n (chunks.foldl (absorb taps n) r) chunk)) := by
        rw [hbits, List.foldl_append, List.length_append, List.length_singleton, mul_add, pow_add,
          mul_one]
        simp only [List.foldl_cons, List.foldl_nil]
        ring
      rw [hsplit]
      exact dvd_add (hrest.mul_left _) hlast

/-- **The register holds the remainder.** -/
theorem registerPoly_foldl_absorb (taps r : BitVec w) {n : ℕ} (hn : n ≤ w)
    {chunks : List (BitVec w)}
    (hchunks : ∀ chunk ∈ chunks, ∀ i, n ≤ i → chunk.getLsbD i = false) :
    registerPoly (chunks.foldl (absorb taps n) r) =
      (bitsPoly (messageBits n chunks) * X ^ w + registerPoly r * X ^ (n * chunks.length)) %ₘ
        generator taps := by
  rw [modByMonic_eq_of_dvd_sub (monic_generator taps) (dvd_foldl_absorb taps r hn hchunks)]
  exact ((modByMonic_eq_self_iff (monic_generator taps)).mpr
    (degree_registerPoly_lt taps _)).symm

end Register

end Barnabas.Lib
