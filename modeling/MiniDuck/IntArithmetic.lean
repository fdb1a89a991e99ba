import MiniDuck.IntTypes

/-!
# Arithmetic that may overflow

The result of an operation is computed exactly and must be a value of
its type: the overflow of a signed type is undefined, so that an
operation is `none` there. Division truncates; a carry that is borrowed
where the remainder is negative gives the floored division
(`floor_of_carry`).
-/

namespace MiniDuck

def intResult (signed : Bool) (width : IntWidth) (v : Int) : Option Int :=
  if intMinimum signed width ≤ v ∧ v ≤ intMaximum signed width then some v else none

def int32 (v : Int) : Option Int := intResult true .w32 v

def int64 (v : Int) : Option Int := intResult true .w64 v

theorem intResult_ok {signed : Bool} {width : IntWidth} {v : Int}
    (hmin : intMinimum signed width ≤ v) (hmax : v ≤ intMaximum signed width) :
    intResult signed width v = some v := if_pos ⟨hmin, hmax⟩

theorem int64_ok {v : Int} (hmin : -9223372036854775808 ≤ v) (hmax : v ≤ 9223372036854775807) :
    int64 v = some v := intResult_ok hmin hmax

theorem intResult_eq_some {signed : Bool} {width : IntWidth} {v w : Int} :
    intResult signed width v = some w ↔
      v = w ∧ intMinimum signed width ≤ v ∧ v ≤ intMaximum signed width := by
  rw [intResult]
  split <;> rename_i h
  · exact ⟨fun heq => ⟨Option.some.inj heq, h⟩, fun heq => congrArg some heq.1⟩
  · exact ⟨nofun, fun heq => absurd heq.2 h⟩

def IntValue.ofInt (signed : Bool) (width : IntWidth) (v : Int) :
    Option (IntValue signed width) :=
  if h : IntBounds signed width.bytes v then some ⟨v, h⟩ else none

theorem IntValue.ofInt_ok {signed : Bool} {width : IntWidth} {v : Int}
    (h : IntBounds signed width.bytes v) : IntValue.ofInt signed width v = some ⟨v, h⟩ :=
  dif_pos h

/-- Truncated division leaves a remainder on the side of the dividend. -/
theorem tdiv_remainder {a b : Int} (hb : 0 < b) :
    (0 ≤ a ∧ 0 ≤ a - a.tdiv b * b ∧ a - a.tdiv b * b < b) ∨
      (a < 0 ∧ -b < a - a.tdiv b * b ∧ a - a.tdiv b * b ≤ 0) := by
  have hdiv : a - a.tdiv b * b = a.tmod b := by
    rw [Int.mul_comm]
    exact Int.sub_eq_iff_eq_add'.mpr (Int.mul_tdiv_add_tmod a b).symm
  rw [hdiv]
  by_cases ha : 0 ≤ a
  · exact Or.inl ⟨ha, Int.tmod_nonneg b ha, Int.tmod_lt_of_pos a hb⟩
  · refine Or.inr ⟨by omega, ?_⟩
    have hnonneg := Int.tmod_nonneg b (by omega : 0 ≤ -a)
    have hlt := Int.tmod_lt_of_pos (-a) hb
    rw [Int.neg_tmod] at hnonneg hlt
    omega

theorem floor_of_carry {a b : Int} (hb : 0 < b) :
    (a - a.tdiv b * b < 0 → a.tdiv b - 1 = a / b ∧ a - a.tdiv b * b + b = a % b) ∧
      (0 ≤ a - a.tdiv b * b → a.tdiv b = a / b ∧ a - a.tdiv b * b = a % b) := by
  have hside := tdiv_remainder (a := a) hb
  refine ⟨fun hneg => ?_, fun hnonneg => ?_⟩
  · have hunique : a / b = a.tdiv b - 1 ∧ a % b = a - a.tdiv b * b + b := by
      refine (Int.ediv_emod_unique hb).mpr ⟨?_, by omega, by omega⟩
      rw [Int.mul_sub, Int.mul_one, Int.mul_comm]
      omega
    exact ⟨hunique.1.symm, hunique.2.symm⟩
  · have hunique : a / b = a.tdiv b ∧ a % b = a - a.tdiv b * b := by
      refine (Int.ediv_emod_unique hb).mpr ⟨?_, by omega, by omega⟩
      rw [Int.mul_comm]
      omega
    exact ⟨hunique.1.symm, hunique.2.symm⟩

end MiniDuck
