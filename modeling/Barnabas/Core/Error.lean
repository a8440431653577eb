import Mathlib.Data.Int.Notation
import Mathlib.Data.Nat.Notation
import Mathlib.Tactic.ByContra
import Mathlib.Tactic.SplitIfs

/-!
What can go wrong in the core, and the classification of broker error codes
(`barnabas-core/src/lib.rs`).
-/

namespace Barnabas.Core

/-- Everything that can go wrong in the core. -/
inductive Error
  | codec (message : String)
  | correlation (got expected : ℤ)
  | unsolicited
  | frameTooLarge (len limit : ℕ)
  deriving DecidableEq, Repr

/-- A broker error code. -/
structure ErrorCode where
  code : ℤ
  deriving DecidableEq, Repr

/-- What a caller should do about an error code. -/
inductive Disposition
  | ok
  | retry
  | refreshMetadata
  | findCoordinator
  | fatal
  deriving DecidableEq, Repr

namespace ErrorCode

def none : ErrorCode := ⟨0⟩
def unknownTopicOrPartition : ErrorCode := ⟨3⟩
def leaderNotAvailable : ErrorCode := ⟨5⟩
def notLeaderOrFollower : ErrorCode := ⟨6⟩
def requestTimedOut : ErrorCode := ⟨7⟩
def coordinatorLoadInProgress : ErrorCode := ⟨14⟩
def coordinatorNotAvailable : ErrorCode := ⟨15⟩
def notCoordinator : ErrorCode := ⟨16⟩
def outOfOrderSequenceNumber : ErrorCode := ⟨45⟩
def duplicateSequenceNumber : ErrorCode := ⟨46⟩
def invalidProducerEpoch : ErrorCode := ⟨47⟩
def concurrentTransactions : ErrorCode := ⟨51⟩
def producerFenced : ErrorCode := ⟨90⟩

def isOk (code : ErrorCode) : Bool := code == none

/-- How to react. Unknown codes are fatal on purpose. -/
def disposition (code : ErrorCode) : Disposition :=
  if code = none then .ok
  else if code = leaderNotAvailable ∨ code = notLeaderOrFollower ∨
      code = unknownTopicOrPartition then .refreshMetadata
  else if code = coordinatorLoadInProgress ∨ code = coordinatorNotAvailable then .retry
  else if code = notCoordinator then .findCoordinator
  else if code = requestTimedOut ∨ code = concurrentTransactions then .retry
  else .fatal

/-- The codes that say the producer itself is fenced or out of sequence. -/
def Faults (code : ErrorCode) : Prop :=
  code = outOfOrderSequenceNumber ∨ code = duplicateSequenceNumber ∨
    code = invalidProducerEpoch ∨ code = producerFenced

@[simp] theorem isOk_iff {code : ErrorCode} : code.isOk = true ↔ code = none := by
  simp [isOk]

theorem disposition_eq_ok_iff {code : ErrorCode} : code.disposition = .ok ↔ code = none := by
  constructor
  · intro h
    by_contra hne
    rw [disposition, if_neg hne] at h
    split_ifs at h
  · rintro rfl
    rfl

end ErrorCode

end Barnabas.Core
