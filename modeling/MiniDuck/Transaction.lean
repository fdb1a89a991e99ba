import Mathlib

/-!
# Transaction identifiers and snapshot views

The one number line shared by start times, commit ids and transaction
ids: commit ids stay below `transactionIdStart`, ids of running
transactions start there. A `VisibilityBound` is an exclusive bound on
that line, and a `SnapshotView` adds the reader's own id.
-/

namespace MiniDuck

def transactionIdStart : Nat := 4611686018427388000

def maxCommitId : Nat := transactionIdStart - 1

/-- `MAX_TRANSACTION_ID`, the largest 64-bit value. -/
def maxTransactionId : Nat := 2 ^ 64 - 1

def notDeletedId : Nat := 2 ^ 64 - 2

def systemTransactionTimestamp : Nat := 1

/-- An exclusive bound: timestamps below `value` are visible. -/
structure VisibilityBound where
  value : Nat
  deriving Repr, DecidableEq

namespace VisibilityBound

def through (timestamp : Nat) : VisibilityBound := ⟨timestamp + 1⟩

def before (timestamp : Nat) : VisibilityBound := ⟨timestamp⟩

def allCommitted : VisibilityBound := through maxCommitId

def includingUncommitted : VisibilityBound := ⟨maxTransactionId⟩

def min (a b : VisibilityBound) : VisibilityBound :=
  if a.value < b.value then a else b

@[simp] theorem before_value (t : Nat) : (before t).value = t := rfl

@[simp] theorem allCommitted_value : allCommitted.value = transactionIdStart := rfl

theorem min_value (a b : VisibilityBound) :
    (min a b).value = Min.min a.value b.value := by
  unfold min
  split <;> simp <;> omega

end VisibilityBound

/-- What a reader sees: commits below the bound, and its own writes. -/
structure SnapshotView where
  transactionId : Nat
  visibilityBound : VisibilityBound
  deriving Repr, DecidableEq

def SnapshotView.sees (v : SnapshotView) (timestamp : Nat) : Bool :=
  decide (timestamp < v.visibilityBound.value) || timestamp == v.transactionId

theorem SnapshotView.sees_iff {v : SnapshotView} {ts : Nat} :
    v.sees ts = true ↔ ts < v.visibilityBound.value ∨ ts = v.transactionId := by
  simp [SnapshotView.sees]

end MiniDuck
