import Mathlib

/-!
# Integer types

The signed and unsigned integer types of 8 to 128 bits, as ranges of
integers.
-/

namespace MiniDuck

inductive IntWidth
  | w8
  | w16
  | w32
  | w64
  | w128
  deriving Repr, DecidableEq

/-- `sizeof`. -/
def IntWidth.bytes : IntWidth → Nat
  | .w8 => 1
  | .w16 => 2
  | .w32 => 4
  | .w64 => 8
  | .w128 => 16

/-- The bounds of a type of `n` bytes. -/
def IntBounds (signed : Bool) (n : Nat) (v : Int) : Prop :=
  if signed then -(2 ^ (8 * n - 1)) ≤ v ∧ v < 2 ^ (8 * n - 1) else 0 ≤ v ∧ v < 2 ^ (8 * n)

instance (signed : Bool) (n : Nat) (v : Int) : Decidable (IntBounds signed n v) :=
  match signed with
  | true => inferInstanceAs (Decidable (_ ∧ _))
  | false => inferInstanceAs (Decidable (_ ∧ _))

def IntValue (signed : Bool) (width : IntWidth) : Type :=
  { v : Int // IntBounds signed width.bytes v }

instance (signed : Bool) (width : IntWidth) : LinearOrder (IntValue signed width) :=
  inferInstanceAs (LinearOrder (Subtype _))

/-- `NumericLimits<T>::Minimum` and `NumericLimits<T>::Maximum`. -/
def intMinimum (signed : Bool) (width : IntWidth) : Int :=
  if signed then -(2 ^ (8 * width.bytes - 1)) else 0

def intMaximum (signed : Bool) (width : IntWidth) : Int :=
  if signed then 2 ^ (8 * width.bytes - 1) - 1 else 2 ^ (8 * width.bytes) - 1

instance (signed : Bool) (width : IntWidth) : BoundedOrder (IntValue signed width) where
  bot := ⟨intMinimum signed width, by cases signed <;> cases width <;> exact ⟨by decide, by decide⟩⟩
  top := ⟨intMaximum signed width, by cases signed <;> cases width <;> exact ⟨by decide, by decide⟩⟩
  bot_le v := by
    cases signed with
    | true => exact v.2.1
    | false => exact v.2.1
  le_top v := by
    cases signed with
    | true => exact Int.le_sub_one_of_lt v.2.2
    | false => exact Int.le_sub_one_of_lt v.2.2

end MiniDuck
