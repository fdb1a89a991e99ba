import Mathlib

/-!
# Sequences and their differences

A sequence in a commutative group is stored as a first value and the
differences of its neighbours. `partialSum` is what they stand for
(`partialSum_differences`). `runningSums` restores a stretch of the
sequence from the value before it, and its last value is the one to go on
from (`runningSums_map`, `getLast_runningSums`), so a sequence can be
restored in pieces of any lengths.
-/

namespace MiniDuck

universe u

variable {α : Type u}

/-- The sum of `start` and the first `n` differences. -/
def partialSum [Add α] (start : α) (d : Nat → α) : Nat → α
  | 0 => start
  | n + 1 => partialSum start d n + d n

def runningSums [Add α] : α → List α → List α
  | _, [] => []
  | a, x :: xs => (a + x) :: runningSums (a + x) xs

section Sums

variable [Add α]

theorem runningSums_map (start : α) (d : Nat → α) (p n : Nat) :
    runningSums (partialSum start d p) ((List.range' p n).map d) =
      (List.range' p n).map fun i => partialSum start d (i + 1) := by
  induction n generalizing p with
  | zero => rfl
  | succ n ih =>
      rw [List.range'_succ, List.map_cons, List.map_cons, runningSums]
      exact congrArg _ (ih (p + 1))

theorem getLast_runningSums (start : α) (d : Nat → α) (p n : Nat) :
    (runningSums (partialSum start d p) ((List.range' p n).map d)).getLastD
      (partialSum start d p) = partialSum start d (p + n) := by
  rw [runningSums_map]
  cases n with
  | zero => rfl
  | succ n =>
      rw [List.range'_1_concat, List.map_append, List.map_singleton, List.getLastD_concat]
      rfl

end Sums

theorem partialSum_differences [AddCommGroup α] {f d : Nat → α} {n : Nat}
    (h : ∀ i < n, d i = f (i + 1) - f i) : partialSum (f 0) d n = f n := by
  induction n with
  | zero => rfl
  | succ n ih =>
      rw [partialSum, ih fun i hi => h i (Nat.lt_succ_of_lt hi), h n (Nat.lt_succ_self n)]
      exact add_sub_cancel _ _

end MiniDuck
