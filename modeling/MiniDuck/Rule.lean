import MiniDuck.StatisticsPropagator

/-!
# Rules of the expression rewriter

What the rules share: the operator that an expression belongs to, and
comparisons turned around.
-/

namespace MiniDuck

inductive LogicalOperatorType
  | filter
  | anyJoin
  | other
  deriving Repr, DecidableEq

theorem holds_flipComparisonExpression (comparison : ComparisonType) (o : Ordering) :
    (flipComparisonExpression comparison).holds o = comparison.holds o.swap := by
  cases comparison <;> cases o <;> rfl

variable {κ ρ : Type} [LinearOrder κ]

theorem compareValues_flipComparisonExpression (comparison : ComparisonType)
    (x y : Option (Value κ ρ)) :
    compareValues (flipComparisonExpression comparison) x y = compareValues comparison y x := by
  cases x with
  | none => cases y <;> cases comparison <;> rfl
  | some x =>
      cases y with
      | none => cases comparison <;> rfl
      | some y =>
          simp only [compareValues]
          rw [holds_flipComparisonExpression, ← Std.OrientedCmp.eq_swap]

theorem compare_integer (a b : Int) :
    compare (Key.integer a : Key κ) (.integer b) = compare a b := by
  rcases lt_trichotomy a b with h | rfl | h
  · rw [compare_lt_iff_lt.mpr h, compare_lt_iff_lt, lt_iff_not_ge, Key.integer_le]
    exact not_le.mpr h
  · exact (compare_eq_iff_eq.mpr rfl).trans (compare_eq_iff_eq.mpr rfl).symm
  · rw [compare_gt_iff_gt.mpr h, compare_gt_iff_gt, lt_iff_not_ge, Key.integer_le]
    exact not_le.mpr h

end MiniDuck
