import Mathlib

/-!
# Three-valued conjunctions

A truth value is `some b` or unknown. `join u` is the conjunction whose
unit is `u`: AND for `true`, OR for `false`; `!u` absorbs everything and
`none` everything but `!u`. `joinAll` is the conjunction of a list. Its
value is fixed by two questions, whether some member absorbs it
(`joinAll_eq_absorbing_iff`) and whether all members are units
(`joinAll_eq_unit_iff`), so it does not depend on the order.
-/

namespace MiniDuck

namespace Kleene

def join (u : Bool) (a b : Option Bool) : Option Bool :=
  if a = some (!u) ∨ b = some (!u) then some (!u)
  else if a = none ∨ b = none then none
  else some u

theorem join_comm : ∀ u a b, join u a b = join u b a := by decide

theorem join_assoc : ∀ u a b c, join u (join u a b) c = join u a (join u b c) := by decide

@[simp] theorem join_unit : ∀ u a, join u (some u) a = a := by decide

@[simp] theorem join_absorbing : ∀ u a, join u (some !u) a = some !u := by decide

theorem join_eq_unit_iff : ∀ u a b, join u a b = some u ↔ a = some u ∧ b = some u := by decide

theorem join_eq_absorbing_iff :
    ∀ u a b, join u a b = some (!u) ↔ a = some (!u) ∨ b = some (!u) := by decide

/-- An unknown member changes nothing in a conjunction that is not the unit. -/
theorem join_none : ∀ u a, a ≠ some u → join u none a = a := by decide

def joinAll (u : Bool) (values : List (Option Bool)) : Option Bool :=
  values.foldr (join u) (some u)

@[simp] theorem joinAll_nil (u : Bool) : joinAll u [] = some u := rfl

@[simp] theorem joinAll_cons (u : Bool) (a : Option Bool) (values : List (Option Bool)) :
    joinAll u (a :: values) = join u a (joinAll u values) := rfl

theorem joinAll_singleton (u : Bool) (a : Option Bool) : joinAll u [a] = a := by
  rw [joinAll_cons, joinAll_nil, join_comm, join_unit]

theorem joinAll_append (u : Bool) (xs ys : List (Option Bool)) :
    joinAll u (xs ++ ys) = join u (joinAll u xs) (joinAll u ys) := by
  induction xs with
  | nil => rw [List.nil_append, joinAll_nil, join_unit]
  | cons a xs ih => rw [List.cons_append, joinAll_cons, joinAll_cons, ih, join_assoc]

theorem joinAll_eq_unit_iff (u : Bool) (values : List (Option Bool)) :
    joinAll u values = some u ↔ ∀ a ∈ values, a = some u := by
  induction values with
  | nil => simp
  | cons a values ih => rw [joinAll_cons, join_eq_unit_iff, ih, List.forall_mem_cons]

theorem joinAll_eq_absorbing_iff (u : Bool) (values : List (Option Bool)) :
    joinAll u values = some (!u) ↔ some (!u) ∈ values := by
  induction values with
  | nil => cases u <;> simp
  | cons a values ih => rw [joinAll_cons, join_eq_absorbing_iff, ih, List.mem_cons, eq_comm]

theorem joinAll_perm (u : Bool) {xs ys : List (Option Bool)} (h : xs.Perm ys) :
    joinAll u xs = joinAll u ys := by
  induction h with
  | nil => rfl
  | cons a _ ih => rw [joinAll_cons, joinAll_cons, ih]
  | swap a b xs =>
      rw [joinAll_cons, joinAll_cons, joinAll_cons, joinAll_cons, ← join_assoc, ← join_assoc,
        join_comm u a b]
  | trans _ _ ih ih' => exact ih.trans ih'

/-- An unknown member can be left out beside one that is not the unit. -/
theorem joinAll_remove_none {u : Bool} {xs ys : List (Option Bool)}
    (h : ∃ a ∈ xs ++ ys, a ≠ some u) :
    joinAll u (xs ++ none :: ys) = joinAll u (xs ++ ys) := by
  obtain ⟨a, ha, hne⟩ := h
  rw [joinAll_perm u List.perm_middle, joinAll_cons]
  exact join_none u _ fun hunit => hne ((joinAll_eq_unit_iff u _).mp hunit a ha)

theorem joinAll_remove_unit (u : Bool) (xs ys : List (Option Bool)) :
    joinAll u (xs ++ some u :: ys) = joinAll u (xs ++ ys) := by
  rw [joinAll_perm u List.perm_middle, joinAll_cons, join_unit]

end Kleene

end MiniDuck
