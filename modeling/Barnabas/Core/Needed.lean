import Barnabas.Core.Conn

/-!
How much a reader asks for (`barnabas-core/src/frame.rs`, `barnabas-core/src/conn.rs`
and `Broker::recv` of `barnabas-client/src/cluster.rs`).

`needed` and `next_frame` each read the length prefix for themselves, and take a negative
or an oversized one differently. They agree all the same: the decoder waits exactly
as long as something is needed and the prefix is not refused.
-/

namespace Barnabas.Core

open Barnabas.Lib Barnabas.Lib.Act

namespace FrameDecoder

/-- How many more bytes are needed before `nextFrame` can return. -/
def needed (decoder : FrameDecoder) : ℕ :=
  match i32At decoder.buf 0 with
  -- The prefix itself is incomplete.
  | none => 4 - decoder.buf.length
  -- A negative length counts as zero, and a length above the limit as the limit.
  | some len => (4 + min len.toNat decoder.maxFrame) - decoder.buf.length

theorem i32At_eq_none_iff {buf : Bytes} : i32At buf 0 = none ↔ buf.length < 4 := by
  rw [i32At, intAt, Option.map_eq_none_iff, getRange]
  split <;> simp <;> omega

theorem i32At_push {decoder : FrameDecoder} {len : ℤ} (h : i32At decoder.buf 0 = some len)
    (bytes : Bytes) : i32At (decoder.push bytes).buf 0 = some len := by
  have hlong : ¬decoder.buf.length < 4 := by
    rw [← i32At_eq_none_iff, h]
    simp
  rw [push, i32At, intAt_append (by omega)]
  exact h

/-- The decoder waits as long as something is needed and the prefix is not refused. -/
theorem nextFrame_eq_none_iff (decoder : FrameDecoder) :
    (nextFrame decoder).1 = .ok none ↔ ¬decoder.Refuses ∧ 0 < decoder.needed := by
  rw [nextFrame, bind_of_ok (get_apply decoder), needed]
  cases hlen : i32At decoder.buf 0 with
  | none =>
      have hshort := i32At_eq_none_iff.mp hlen
      have htakes : ¬decoder.Refuses := by
        rintro ⟨len, hsome, -⟩
        rw [hlen] at hsome
        cases hsome
      exact iff_of_true rfl ⟨htakes, by dsimp only; omega⟩
  | some len =>
      have hrefuses : decoder.Refuses ↔ len < 0 ∨ (decoder.maxFrame : ℤ) < len := by
        simp [Refuses, hlen]
      rw [hrefuses]
      dsimp only
      by_cases hneg : len < 0
      · rw [if_pos hneg]
        exact iff_of_false (fun h => by cases h) (fun h => h.1 (.inl hneg))
      · rw [if_neg hneg]
        by_cases hmax : decoder.maxFrame < len.toNat
        · rw [if_pos hmax]
          exact iff_of_false (fun h => by cases h) (fun h => h.1 (.inr (by omega)))
        · rw [if_neg hmax]
          by_cases hshort : decoder.buf.length < 4 + len.toNat
          · rw [if_pos hshort]
            exact iff_of_true rfl ⟨by omega, by omega⟩
          · rw [if_neg hshort]
            exact iff_of_false (fun h => by cases h) (fun h => by omega)

/-- What is pushed is no longer needed. -/
theorem needed_push {decoder : FrameDecoder} {len : ℤ} (h : i32At decoder.buf 0 = some len)
    (bytes : Bytes) : (decoder.push bytes).needed = decoder.needed - bytes.length := by
  rw [needed, needed, i32At_push h, h]
  simp only [push, List.length_append]
  omega

theorem refuses_push {decoder : FrameDecoder} {len : ℤ} (h : i32At decoder.buf 0 = some len)
    (bytes : Bytes) : (decoder.push bytes).Refuses ↔ decoder.Refuses := by
  rw [Refuses, Refuses, i32At_push h, h]
  exact Iff.rfl

/-- A decoder that waits goes on waiting until it has what it needs. -/
theorem nextFrame_push_of_lt {decoder : FrameDecoder} (h : (nextFrame decoder).1 = .ok none)
    {bytes : Bytes} (hlt : bytes.length < decoder.needed) :
    (nextFrame (decoder.push bytes)).1 = .ok none := by
  obtain ⟨htakes, -⟩ := (nextFrame_eq_none_iff decoder).mp h
  apply (nextFrame_eq_none_iff _).mpr
  cases hlen : i32At decoder.buf 0 with
  | none =>
      rw [needed, hlen] at hlt
      dsimp only at hlt
      have hshort : (decoder.push bytes).buf.length < 4 := by
        rw [push, List.length_append]
        omega
      have hnone := i32At_eq_none_iff.mpr hshort
      constructor
      · rintro ⟨len, hsome, -⟩
        rw [hnone] at hsome
        cases hsome
      · rw [needed, hnone]
        dsimp only
        omega
  | some len =>
      rw [refuses_push hlen, needed_push hlen]
      exact ⟨htakes, by omega⟩

/-- With a legal prefix, what is needed completes the frame. -/
theorem nextFrame_push_needed {decoder : FrameDecoder} {len : ℤ}
    (hlen : i32At decoder.buf 0 = some len) (hnonneg : 0 ≤ len) (hmax : len ≤ decoder.maxFrame)
    {bytes : Bytes} (hbytes : bytes.length = decoder.needed) :
    ∃ body, (nextFrame (decoder.push bytes)).1 = .ok (some body) := by
  have htakes : ¬(decoder.push bytes).Refuses := by
    rw [refuses_push hlen]
    rintro ⟨len', hlen', hrefused⟩
    rw [hlen, Option.some.injEq] at hlen'
    omega
  have hdone : ¬0 < (decoder.push bytes).needed := by
    rw [needed_push hlen]
    omega
  rcases nextFrame_cases (decoder.push bytes) with
    ⟨-, hnext, -⟩ | ⟨hrefuses, -⟩ | ⟨-, body, rest, -, -, hnext⟩
  · exact absurd ((nextFrame_eq_none_iff _).mp (by rw [hnext])).2 hdone
  · exact absurd hrefuses htakes
  · exact ⟨body, by rw [hnext]⟩

end FrameDecoder

/-- `MAX_READ`, the largest single read. -/
def maxRead : ℕ := 1024 * 1024

namespace Connection

variable {κ : Type}

/-- How many more bytes the next response needs. -/
def needed (conn : Connection κ) : ℕ := conn.decoder.needed

/-- How many bytes `Broker::recv` asks for: `needed().clamp(16 * 1024, MAX_READ)`. -/
def want (conn : Connection κ) : ℕ := min (max conn.needed (16 * 1024)) maxRead

theorem want_pos (conn : Connection κ) : 0 < conn.want := by
  rw [want, maxRead]
  omega

/-- Where no response is there yet, the connection is as it was and waits for bytes. -/
theorem needed_pos_of_nextResponse (P : Protocol κ) {conn : Connection κ}
    (h : (nextResponse P conn).1 = .ok none) :
    (nextResponse P conn).2 = conn ∧ 0 < conn.needed := by
  rcases FrameDecoder.nextFrame_cases conn.decoder with
    ⟨-, hnext, -⟩ | ⟨-, e, hnext⟩ | ⟨-, body, rest, -, -, hnext⟩
  · have hwaits := (FrameDecoder.nextFrame_eq_none_iff conn.decoder).mp (by rw [hnext])
    rw [nextResponse_none P hnext]
    exact ⟨rfl, hwaits.2⟩
  · rw [nextResponse_error P hnext] at h
    cases h
  · rcases matchOldest_cases P body { conn with decoder := { conn.decoder with buf := rest } } with
      ⟨e, hmatch⟩ | ⟨pending, more, body', -, hmatch⟩
    · rw [nextResponse_unmatched P hnext hmatch] at h
      cases h
    · rw [nextResponse_some P hnext hmatch] at h
      cases h

end Connection

namespace FrameRun

/-- After any pushes and reads, `needed` is what a waiting decoder still needs, no byte
less and, once the length is known, no byte more; the receive loop never asks for none. -/
theorem needed_exact (maxFrame : ℕ) (ops : List FrameOp) :
    let decoder := (run FrameRun.step (.start maxFrame) ops).decoder
    ((FrameDecoder.nextFrame decoder).1 = .ok none → 1 ≤ decoder.needed ∧
      ∀ bytes : Bytes, bytes.length < decoder.needed →
        (FrameDecoder.nextFrame (decoder.push bytes)).1 = .ok none) ∧
    (∀ len, i32At decoder.buf 0 = some len → 0 ≤ len → len ≤ maxFrame →
      ∀ bytes : Bytes, bytes.length = decoder.needed →
        ∃ body, (FrameDecoder.nextFrame (decoder.push bytes)).1 = .ok (some body)) ∧
    (decoder.needed = 0 → (FrameDecoder.nextFrame decoder).1 ≠ .ok none) ∧
    ∀ {κ : Type} (P : Protocol κ) (conn : Connection κ), conn.decoder = decoder →
      (Connection.nextResponse P conn).1 = .ok none →
        1 ≤ (Connection.nextResponse P conn).2.needed ∧
          1 ≤ (Connection.nextResponse P conn).2.want := by
  have hsound : Sound maxFrame (run FrameRun.step (.start maxFrame) ops) :=
    run_induction (sound_start maxFrame) (fun _ op h => h.step op) ops
  intro decoder
  have hlimit : decoder.maxFrame = maxFrame := hsound.limit
  refine ⟨fun hwaits => ⟨?_, ?_⟩, ?_, ?_, ?_⟩
  · exact ((FrameDecoder.nextFrame_eq_none_iff decoder).mp hwaits).2
  · exact fun bytes hlt => FrameDecoder.nextFrame_push_of_lt hwaits hlt
  · intro len hlen hnonneg hmax bytes hbytes
    exact FrameDecoder.nextFrame_push_needed hlen hnonneg (hlimit ▸ hmax) hbytes
  · intro hzero hwaits
    have hpos := ((FrameDecoder.nextFrame_eq_none_iff decoder).mp hwaits).2
    omega
  · intro κ P conn hconn hwaits
    obtain ⟨hsame, hpos⟩ := Connection.needed_pos_of_nextResponse P hwaits
    rw [hsame]
    exact ⟨hpos, conn.want_pos⟩

end FrameRun

end Barnabas.Core
