import Barnabas.Core.Records
import Mathlib.Logic.Function.Iterate

/-!
Choosing a partition for a keyed record (`barnabas-core/src/partitioner.rs`).
The two hashes work on `u32`; the round-robin counter for null keys is a `u32`
that wraps.
-/

namespace Barnabas.Core

open Barnabas.Lib

/-- Which hash decides a keyed record's partition. -/
inductive Partitioner
  | crc32
  | murmur2
  deriving DecidableEq, Repr

/-- One bit of the reflected division. -/
def crc32Bit (crc : UInt32) : UInt32 := (crc >>> 1) ^^^ (0xEDB88320 &&& (-(crc &&& 1)))

/-- CRC-32 (IEEE 802.3, reflected). -/
def crc32 (data : Bytes) : UInt32 :=
  ~~~(data.foldl (fun crc byte => crc32Bit^[8] (crc ^^^ byte.toUInt32)) 0xFFFFFFFF)

/-- The multiplier `M` of murmur2. -/
def murmurM : UInt32 := 0x5bd1e995

/-- The blocks of four bytes, and then the tail with Java's fall-through. -/
def murmurLoop : Bytes → UInt32 → UInt32
  | a :: b :: c :: d :: rest, h =>
      let k := a.toUInt32 ||| (b.toUInt32 <<< 8) ||| (c.toUInt32 <<< 16) ||| (d.toUInt32 <<< 24)
      let k := k * murmurM
      let k := k ^^^ (k >>> 24)
      let k := k * murmurM
      murmurLoop rest ((h * murmurM) ^^^ k)
  | [a, b, c], h =>
      (h ^^^ (c.toUInt32 <<< 16) ^^^ (b.toUInt32 <<< 8) ^^^ a.toUInt32) * murmurM
  | [a, b], h => (h ^^^ (b.toUInt32 <<< 8) ^^^ a.toUInt32) * murmurM
  | [a], h => (h ^^^ a.toUInt32) * murmurM
  | [], h => h

/-- murmur2 as Kafka's `Utils.murmur2` computes it. -/
def murmur2 (data : Bytes) : ℤ :=
  let h := murmurLoop data (0x9747b28c ^^^ UInt32.ofNat data.length)
  let h := h ^^^ (h >>> 13)
  let h := h * murmurM
  let h := h ^^^ (h >>> 15)
  wrap 32 h.toNat

/-- The sign bit of an `i32` masked off. -/
def toPositive (h : ℤ) : ℕ := (h % 2 ^ 31).toNat

/-- The partition for a key, and the round-robin counter after the choice. There
is none if the partition count is not positive. -/
def Partitioner.partitionFor (partitioner : Partitioner) (key : Option Bytes)
    (partitionCount : ℤ) (next : ℕ) : Option ℤ × ℕ :=
  if partitionCount ≤ 0 then (none, next)
  else
    let count := partitionCount.toNat
    match key with
    | none => (some ((next % count : ℕ) : ℤ), (next + 1) % 2 ^ 32)
    | some key =>
        let slot := match partitioner with
          | .crc32 => (Core.crc32 key).toNat % count
          | .murmur2 => toPositive (Core.murmur2 key) % count
        (some (slot : ℤ), next)

end Barnabas.Core
