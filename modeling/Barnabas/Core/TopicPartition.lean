import Mathlib.Data.String.Basic
import Std.Data.TreeMap
import Std.Data.TreeSet

/-!
A topic and one of its partitions: the key of every per-partition map of the
client. The source writes it sometimes as the struct `TopicPartition` and
sometimes as the pair `(String, i32)`; both are ordered by topic and then by
partition, and both are this type here.
-/

namespace Barnabas.Core

/-- A topic and one of its partitions. -/
structure TopicPartition where
  topic : String
  partition : ℤ
  deriving DecidableEq, Repr, Inhabited

namespace TopicPartition

instance : Ord TopicPartition :=
  ⟨compareLex (compareOn TopicPartition.topic) (compareOn TopicPartition.partition)⟩

instance : Std.TransOrd TopicPartition :=
  inferInstanceAs (Std.TransCmp
    (compareLex (compareOn TopicPartition.topic) (compareOn TopicPartition.partition)))

instance : Std.LawfulEqOrd TopicPartition where
  eq_of_compare := by
    intro a b h
    have h' := compareLex_eq_eq.mp h
    cases a
    cases b
    simp only [compareOn, Std.LawfulEqCmp.compare_eq_iff_eq] at h'
    simp [h'.1, h'.2]

end TopicPartition

/-- A `BTreeMap` (or `HashMap`, where no iteration order is observed) keyed by
partition. -/
abbrev PartitionMap (α : Type) := Std.TreeMap TopicPartition α

end Barnabas.Core
