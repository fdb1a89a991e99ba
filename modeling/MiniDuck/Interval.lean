import MiniDuck.IntArithmetic

/-!
# Intervals

An interval has months, days and microseconds, each of its own sign. For
comparison a month is 30 days and a day 24 hours, so that an interval is
a number of microseconds (`Interval.value`).

The comparisons normalize to fields of 64 bits, carrying left: these are
the digits of that number (`normalizeFields_ok`), and all of them follow
its order. `Normalize` puts what the narrower fields cannot hold into the
fields to the right, and saturates near the ends of the range. It depends
on the number only, which it keeps where it does not saturate
(`normalize_ok`).
-/

namespace MiniDuck

def daysPerMonth : Int := 30

def microsPerDay : Int := 86400000000

structure Interval where
  months : IntValue true .w32
  days : IntValue true .w32
  micros : IntValue true .w64

namespace Interval

/-! ## Normalizing -/

/-- A field and its carry. A remainder that is negative is borrowed for. -/
def carryLeft (field unit : Int) : Option (Int × Int) := do
  let carry := field.tdiv unit
  let field ← int64 (field - (← int64 (carry * unit)))
  if field < 0 then
    let carry ← int64 (carry - 1)
    let field ← int64 (field + unit)
    return (carry, field)
  else return (carry, field)

/-- `Normalize` for comparison, with the months, days and microseconds. -/
def normalizeFields (input : Interval) : Option (Int × Int × Int) := do
  let (carryDays, micros) ← carryLeft input.micros.1 microsPerDay
  let (carryMonths, days) ← carryLeft (← int64 (input.days.1 + carryDays)) daysPerMonth
  let months ← int64 (input.months.1 + carryMonths)
  return (months, days, micros)

/-- `Borrow`, with the new `lsf` and `f`. -/
def borrow (msf lsf scale : Int) : Option (Int × Int) := do
  if msf ≤ intMaximum true .w32 ∧ intMinimum true .w32 ≤ msf then return (lsf, msf)
  let f := if msf > intMaximum true .w32 then intMaximum true .w32 else intMinimum true .w32
  let remainder ← int64 (msf - f)
  let maxUnits ← int64 ((intMaximum true .w64).tdiv scale - 1)
  if remainder > maxUnits then return (intMaximum true .w64, f)
  else if remainder < -maxUnits then return (intMinimum true .w64, f)
  else
    let lsf ← int64 (lsf + (← int64 (remainder * scale)))
    return (lsf, f)

def borrowFields (fields : Int × Int × Int) : Option Interval := do
  let (days, months) ← borrow fields.1 fields.2.1 daysPerMonth
  let (micros, days) ← borrow days fields.2.2 microsPerDay
  let months ← IntValue.ofInt true .w32 months
  let days ← IntValue.ofInt true .w32 days
  let micros ← IntValue.ofInt true .w64 micros
  return ⟨months, days, micros⟩

def normalize (input : Interval) : Option Interval := do
  borrowFields (← input.normalizeFields)

/-! ## Comparing -/

def equals (left right : Interval) : Option Bool := do
  if left.months = right.months ∧ left.days = right.days ∧ left.micros = right.micros then
    return true
  let (lmonths, ldays, lmicros) ← left.normalizeFields
  let (rmonths, rdays, rmicros) ← right.normalizeFields
  return lmonths = rmonths ∧ ldays = rdays ∧ lmicros = rmicros

def greaterThan (left right : Interval) : Option Bool := do
  let (lmonths, ldays, lmicros) ← left.normalizeFields
  let (rmonths, rdays, rmicros) ← right.normalizeFields
  if lmonths > rmonths then return true
  else if lmonths < rmonths then return false
  else if ldays > rdays then return true
  else if ldays < rdays then return false
  else return lmicros > rmicros

def lessThan (left right : Interval) : Option Bool := right.greaterThan left

def greaterThanEquals (left right : Interval) : Option Bool := do
  return !(← left.lessThan right)

/-! ## The number of microseconds -/

def value (i : Interval) : Int := i.micros.1 + microsPerDay * (i.days.1 + daysPerMonth * i.months.1)

theorem months_bounds (i : Interval) : -2147483648 ≤ i.months.1 ∧ i.months.1 ≤ 2147483647 := by
  obtain ⟨hmin, hmax⟩ := i.months.2
  exact ⟨hmin, by simp only [IntWidth.bytes] at hmax; omega⟩

theorem days_bounds (i : Interval) : -2147483648 ≤ i.days.1 ∧ i.days.1 ≤ 2147483647 := by
  obtain ⟨hmin, hmax⟩ := i.days.2
  exact ⟨hmin, by simp only [IntWidth.bytes] at hmax; omega⟩

theorem micros_bounds (i : Interval) :
    -9223372036854775808 ≤ i.micros.1 ∧ i.micros.1 ≤ 9223372036854775807 := by
  obtain ⟨hmin, hmax⟩ := i.micros.2
  exact ⟨hmin, by simp only [IntWidth.bytes] at hmax; omega⟩

theorem carryLeft_ok (field : Int) {unit : Int} (hunit : 1 < unit)
    (hsmall : unit ≤ 86400000000)
    (hmin : -9223372036854775808 ≤ field) (hmax : field ≤ 9223372036854775807) :
    carryLeft field unit = some (field / unit, field % unit) := by
  have hside := tdiv_remainder (a := field) (by omega : 0 < unit)
  obtain ⟨hneg, hnonneg⟩ := floor_of_carry (a := field) (by omega : 0 < unit)
  have hproduct : int64 (field.tdiv unit * unit) = some (field.tdiv unit * unit) :=
    int64_ok (by omega) (by omega)
  have hfield : int64 (field - field.tdiv unit * unit) = some (field - field.tdiv unit * unit) :=
    int64_ok (by omega) (by omega)
  simp only [carryLeft, hproduct, hfield, bind, Option.bind, pure]
  by_cases hlt : field - field.tdiv unit * unit < 0
  · obtain ⟨hcarry, hrest⟩ := hneg hlt
    have hlower : -9223372036854775808 ≤ field / unit :=
      Int.le_ediv_of_mul_le (by omega) (by omega)
    have hupper : field / unit < 0 := Int.ediv_neg_of_neg_of_pos (by omega) (by omega)
    rw [if_pos hlt, hcarry, hrest, int64_ok hlower (by omega), int64_ok (by omega) (by omega)]
  · obtain ⟨hcarry, hrest⟩ := hnonneg (by omega)
    rw [if_neg hlt, hrest, hcarry]

def digits (value : Int) : Int × Int × Int :=
  (value / microsPerDay / daysPerMonth, value / microsPerDay % daysPerMonth, value % microsPerDay)

theorem normalizeFields_ok (i : Interval) : i.normalizeFields = some (digits i.value) := by
  obtain ⟨hmonths, hmonths'⟩ := i.months_bounds
  obtain ⟨hdays, hdays'⟩ := i.days_bounds
  obtain ⟨hmicros, hmicros'⟩ := i.micros_bounds
  have hdiv : i.value / 86400000000 =
      i.micros.1 / 86400000000 + (i.days.1 + 30 * i.months.1) := by
    simp only [value, microsPerDay, daysPerMonth]
    omega
  have hmod : i.value % 86400000000 = i.micros.1 % 86400000000 := by
    simp only [value, microsPerDay, daysPerMonth]
    omega
  simp only [normalizeFields, microsPerDay, daysPerMonth, bind, Option.bind, pure, digits,
    carryLeft_ok i.micros.1 (by omega : (1 : Int) < 86400000000) (by omega) hmicros
      hmicros', int64_ok (v := i.days.1 + i.micros.1 / 86400000000) (by omega) (by omega),
    carryLeft_ok (i.days.1 + i.micros.1 / 86400000000) (by omega : (1 : Int) < 30)
      (by omega) (by omega) (by omega),
    int64_ok (v := i.months.1 + (i.days.1 + i.micros.1 / 86400000000) / 30) (by omega) (by omega)]
  refine congrArg some (Prod.ext ?_ (Prod.ext ?_ ?_))
  · simp only [hdiv]
    omega
  · simp only [hdiv]
    omega
  · exact hmod.symm

theorem digits_inj {v w : Int} (h : digits v = digits w) : v = w := by
  simp only [digits, microsPerDay, daysPerMonth, Prod.mk.injEq] at h
  omega

theorem equals_ok (l r : Interval) : l.equals r = some (decide (l.value = r.value)) := by
  simp only [equals, normalizeFields_ok, bind, Option.bind, pure]
  split_ifs with hfields
  · obtain ⟨hmonths, hdays, hmicros⟩ := hfields
    simp [value, hmonths, hdays, hmicros]
  · refine congrArg some (decide_eq_decide.mpr ⟨fun h => digits_inj ?_, fun h => ?_⟩)
    · exact Prod.ext h.1 (Prod.ext h.2.1 h.2.2)
    · rw [h]
      exact ⟨rfl, rfl, rfl⟩

theorem greaterThan_ok (l r : Interval) :
    l.greaterThan r = some (decide (r.value < l.value)) := by
  simp only [greaterThan, normalizeFields_ok, bind, Option.bind, pure, digits, microsPerDay,
    daysPerMonth]
  split_ifs
  · exact congrArg some (decide_eq_true (by omega)).symm
  · exact congrArg some (decide_eq_false (by omega)).symm
  · exact congrArg some (decide_eq_true (by omega)).symm
  · exact congrArg some (decide_eq_false (by omega)).symm
  · exact congrArg some (decide_eq_decide.mpr (by omega))

theorem greaterThanEquals_ok (l r : Interval) :
    l.greaterThanEquals r = some (decide (r.value ≤ l.value)) := by
  simp only [greaterThanEquals, lessThan, greaterThan_ok, bind, Option.bind, pure, ← decide_not,
    Int.not_lt]

/-! ## Saturating -/

def largest : Interval :=
  ⟨⟨2147483647, by decide⟩, ⟨2147483647, by decide⟩, ⟨9223372036854775807, by decide⟩⟩

def smallest : Interval :=
  ⟨⟨-2147483648, by decide⟩, ⟨-2147483648, by decide⟩, ⟨-9223372036854775808, by decide⟩⟩

/-- The intervals in the last part of a day, and in the first day and part of a day, of the range:
the headroom of `Borrow` leaves them out. -/
def saturatedFrom : Int := microsPerDay * (106751991 + 2147483647 + daysPerMonth * 2147483647)

def saturatedBelow : Int := microsPerDay * (-106751990 - 2147483648 - daysPerMonth * 2147483648)

/-- The field is what fits of the one on its left, and the rest is in this one unless it
saturates. -/
structure Borrowed (msf lsf scale lsf' f : Int) : Prop where
  clamped : f = msf ∨ (f = 2147483647 ∧ f < msf) ∨ (f = -2147483648 ∧ msf < f)
  fits : -2147483648 ≤ f ∧ f ≤ 2147483647
  rest : -9223372036854775808 ≤ lsf' ∧ lsf' ≤ 9223372036854775807
  kept : (lsf' = lsf + (msf - f) * scale ∧
      -(9223372036854775807 / scale - 1) ≤ msf - f ∧ msf - f ≤ 9223372036854775807 / scale - 1) ∨
    (lsf' = 9223372036854775807 ∧ 9223372036854775807 / scale - 1 < msf - f) ∨
    (lsf' = -9223372036854775808 ∧ msf - f < -(9223372036854775807 / scale - 1))

theorem borrow_ok {msf lsf scale : Int} (hscale : 0 < scale) (hsmall : scale ≤ 86400000000)
    (hlsf : 0 ≤ lsf) (hlsf' : lsf < scale) (hmin : -4294967296 ≤ msf) (hmax : msf ≤ 4294967296) :
    ∃ lsf' f, borrow msf lsf scale = some (lsf', f) ∧ Borrowed msf lsf scale lsf' f := by
  have hmax32 : intMaximum true .w32 = 2147483647 := rfl
  have hmin32 : intMinimum true .w32 = -2147483648 := rfl
  have hmax64 : intMaximum true .w64 = 9223372036854775807 := rfl
  have hmin64 : intMinimum true .w64 = -9223372036854775808 := rfl
  have hdiv : Int.tdiv 9223372036854775807 scale = 9223372036854775807 / scale :=
    Int.tdiv_eq_ediv_of_nonneg (by omega)
  have hpos : 1 ≤ 9223372036854775807 / scale := Int.le_ediv_of_mul_le hscale (by omega)
  have hle : 9223372036854775807 / scale * scale ≤ 9223372036854775807 :=
    Int.ediv_mul_le _ (by omega)
  have hupper : 9223372036854775807 / scale ≤ 9223372036854775807 :=
    Int.ediv_le_self _ (by omega)
  simp only [borrow, hmax32, hmin32, hmax64, hmin64, hdiv, bind, Option.bind, pure]
  by_cases hfits : msf ≤ 2147483647 ∧ -2147483648 ≤ msf
  · rw [if_pos hfits]
    exact ⟨lsf, msf, rfl, Or.inl rfl, ⟨hfits.2, hfits.1⟩, by omega,
      Or.inl ⟨by rw [Int.sub_self, Int.zero_mul, Int.add_zero], by omega, by omega⟩⟩
  rw [if_neg hfits]
  obtain ⟨f, hf, hclamped, hfit⟩ : ∃ f, f = (if msf > 2147483647 then 2147483647 else -2147483648) ∧
      ((f = 2147483647 ∧ f < msf) ∨ (f = -2147483648 ∧ msf < f)) ∧
      -2147483648 ≤ f ∧ f ≤ 2147483647 := by
    split_ifs with hmore
    · exact ⟨2147483647, rfl, by omega⟩
    · exact ⟨-2147483648, rfl, by omega⟩
  rw [← hf, int64_ok (by omega) (by omega), int64_ok (by omega) (by omega)]
  simp only
  by_cases habove : msf - f > 9223372036854775807 / scale - 1
  · rw [if_pos habove]
    exact ⟨_, f, rfl, Or.inr hclamped, hfit, by omega, Or.inr (Or.inl ⟨rfl, habove⟩)⟩
  rw [if_neg habove]
  by_cases hbelow : msf - f < -(9223372036854775807 / scale - 1)
  · rw [if_pos hbelow]
    exact ⟨_, f, rfl, Or.inr hclamped, hfit, by omega, Or.inr (Or.inr ⟨rfl, hbelow⟩)⟩
  rw [if_neg hbelow]
  have hlow : -(9223372036854775807 / scale - 1) * scale ≤ (msf - f) * scale :=
    Int.mul_le_mul_of_nonneg_right (by omega) (by omega)
  have hhigh : (msf - f) * scale ≤ (9223372036854775807 / scale - 1) * scale :=
    Int.mul_le_mul_of_nonneg_right (by omega) (by omega)
  rw [Int.neg_mul, Int.sub_mul, Int.one_mul] at hlow
  rw [Int.sub_mul _ 1, Int.one_mul] at hhigh
  rw [int64_ok (by omega) (by omega)]
  simp only
  rw [int64_ok (by omega) (by omega)]
  exact ⟨_, f, rfl, Or.inr hclamped, hfit, by omega, Or.inl ⟨rfl, by omega, by omega⟩⟩

theorem normalize_eq (i : Interval) : i.normalize = borrowFields (digits i.value) := by
  simp only [normalize, normalizeFields_ok, bind, Option.bind]

theorem normalize_congr {i j : Interval} (h : i.value = j.value) : i.normalize = j.normalize := by
  rw [normalize_eq, normalize_eq, h]

theorem value_bounds (i : Interval) :
    -5761043574840054775808 ≤ i.value ∧ i.value ≤ 5761043572161654775807 := by
  obtain ⟨hmonths, hmonths'⟩ := i.months_bounds
  obtain ⟨hdays, hdays'⟩ := i.days_bounds
  obtain ⟨hmicros, hmicros'⟩ := i.micros_bounds
  simp only [value, microsPerDay, daysPerMonth]
  omega

/-- Months always fit into the days; the days may not fit into the microseconds. -/
theorem borrowFields_ok {v : Int} (hmin : -5761043574840054775808 ≤ v)
    (hmax : v ≤ 5761043572161654775807) : ∃ n, borrowFields (digits v) = some n ∧
      (saturatedBelow ≤ v ∧ v < saturatedFrom → n.value = v) ∧
      (saturatedFrom ≤ v → n = largest) ∧ (v < saturatedBelow → n = smallest) := by
  simp only [digits, borrowFields, saturatedBelow, saturatedFrom, microsPerDay, daysPerMonth]
  obtain ⟨days, months, hborrow, hmonths⟩ : ∃ lsf' f, borrow (v / 86400000000 / 30)
      (v / 86400000000 % 30) 30 = some (lsf', f) ∧
        Borrowed (v / 86400000000 / 30) (v / 86400000000 % 30) 30 lsf' f :=
    borrow_ok (by omega) (by omega) (by omega) (by omega) (by omega) (by omega)
  obtain ⟨hclamped, hmonthsFit, -, hkept⟩ := hmonths
  have hdays : days = v / 86400000000 - 30 * months := by omega
  obtain ⟨micros, days', hborrow', hdays'⟩ : ∃ lsf' f, borrow days (v % 86400000000) 86400000000 =
      some (lsf', f) ∧ Borrowed days (v % 86400000000) 86400000000 lsf' f :=
    borrow_ok (by omega) (by omega) (by omega) (by omega) (by omega) (by omega)
  obtain ⟨hclamped', hdaysFit, hmicrosFit, hkept'⟩ := hdays'
  have hmonthsBounds : IntBounds true IntWidth.w32.bytes months :=
    ⟨hmonthsFit.1, Int.lt_of_le_sub_one hmonthsFit.2⟩
  have hdaysBounds : IntBounds true IntWidth.w32.bytes days' :=
    ⟨hdaysFit.1, Int.lt_of_le_sub_one hdaysFit.2⟩
  have hmicrosBounds : IntBounds true IntWidth.w64.bytes micros :=
    ⟨hmicrosFit.1, Int.lt_of_le_sub_one hmicrosFit.2⟩
  simp only [hborrow, hborrow', bind, Option.bind, pure, IntValue.ofInt_ok hmonthsBounds,
    IntValue.ofInt_ok hdaysBounds, IntValue.ofInt_ok hmicrosBounds]
  refine ⟨_, rfl, fun h => ?_, fun h => ?_, fun h => ?_⟩
  · simp only [value, microsPerDay, daysPerMonth]
    omega
  · obtain ⟨rfl, rfl, rfl⟩ :
        months = 2147483647 ∧ days' = 2147483647 ∧ micros = 9223372036854775807 := by omega
    rfl
  · obtain ⟨rfl, rfl, rfl⟩ :
        months = -2147483648 ∧ days' = -2147483648 ∧ micros = -9223372036854775808 := by omega
    rfl

theorem normalize_ok (i : Interval) : ∃ n, i.normalize = some n ∧
    (saturatedBelow ≤ i.value ∧ i.value < saturatedFrom → n.value = i.value) ∧
    (saturatedFrom ≤ i.value → n = largest) ∧ (i.value < saturatedBelow → n = smallest) := by
  rw [normalize_eq]
  exact borrowFields_ok i.value_bounds.1 i.value_bounds.2

/-- Whether the number is saturated, and so lost: it is out of the reach of `Borrow`, but not the
end of the range. -/
def Saturates (i : Interval) : Prop :=
  (i.value < saturatedBelow ∧ i.value ≠ smallest.value) ∨
    (saturatedFrom ≤ i.value ∧ i.value ≠ largest.value)

theorem value_normalize {i n : Interval} (hn : i.normalize = some n) (h : ¬ i.Saturates) :
    n.value = i.value := by
  obtain ⟨n', hn', hkept, habove, hbelow⟩ := i.normalize_ok
  obtain rfl : n = n' := Option.some.inj (hn.symm.trans hn')
  rw [Saturates, not_or, not_and_not_right, not_and_not_right] at h
  by_cases hlow : i.value < saturatedBelow
  · rw [hbelow hlow, h.1 hlow]
  · by_cases hhigh : saturatedFrom ≤ i.value
    · rw [habove hhigh, h.2 hhigh]
    · exact hkept ⟨by omega, by omega⟩

theorem normalize_idempotent (i : Interval) :
    ∃ n, i.normalize = some n ∧ n.normalize = some n := by
  obtain ⟨n, hn, hkept, habove, hbelow⟩ := i.normalize_ok
  refine ⟨n, hn, ?_⟩
  by_cases hlow : i.value < saturatedBelow
  · rw [hbelow hlow]
    rfl
  · by_cases hhigh : saturatedFrom ≤ i.value
    · rw [habove hhigh]
      rfl
    · rw [normalize_congr (hkept ⟨by omega, by omega⟩), hn]

end Interval

/-- Comparison is the order of the numbers. Normalizing never overflows, is idempotent and, unless
it saturates, gives equal intervals one form that is equal to them. -/
theorem interval_comparison (l r : Interval) :
    (l.equals r = some (decide (l.value = r.value)) ∧
      l.greaterThan r = some (decide (r.value < l.value)) ∧
      l.greaterThanEquals r = some (decide (r.value ≤ l.value))) ∧
    (∃ n, l.normalize = some n ∧ n.normalize = some n ∧
      (¬ l.Saturates → n.equals l = some true) ∧
      (l.Saturates → n = if l.value < 0 then Interval.smallest else Interval.largest)) ∧
    (l.equals r = some true → l.normalize = r.normalize) ∧
    (¬ l.Saturates → ¬ r.Saturates → l.normalize = r.normalize → l.equals r = some true) := by
  refine ⟨⟨l.equals_ok r, l.greaterThan_ok r, l.greaterThanEquals_ok r⟩, ?_, fun h => ?_,
    fun hl hr h => ?_⟩
  · obtain ⟨n, hn, hidem⟩ := l.normalize_idempotent
    refine ⟨n, hn, hidem, fun h => ?_, fun h => ?_⟩
    · rw [Interval.equals_ok, Interval.value_normalize hn h, decide_eq_true rfl]
    · obtain ⟨n', hn', -, habove, hbelow⟩ := l.normalize_ok
      obtain rfl : n = n' := Option.some.inj (hn.symm.trans hn')
      rcases h with ⟨hlow, -⟩ | ⟨hhigh, -⟩
      · rw [if_pos (hlow.trans (by decide)), hbelow hlow]
      · rw [if_neg (Int.not_lt.mpr (Int.le_trans (by decide) hhigh)), habove hhigh]
  · rw [Interval.equals_ok, Option.some.injEq, decide_eq_true_iff] at h
    exact Interval.normalize_congr h
  · obtain ⟨n, hn, -⟩ := l.normalize_ok
    rw [Interval.equals_ok, ← Interval.value_normalize hn hl,
      ← Interval.value_normalize (h ▸ hn) hr, decide_eq_true rfl]

/-- A microsecond from the end of the range. -/
theorem interval_saturates :
    Interval.normalize ⟨⟨-2147483648, by decide⟩, ⟨-2147483648, by decide⟩,
      ⟨-9223372036854775807, by decide⟩⟩ = some Interval.smallest ∧
    Interval.smallest.equals ⟨⟨-2147483648, by decide⟩, ⟨-2147483648, by decide⟩,
      ⟨-9223372036854775807, by decide⟩⟩ = some false :=
  ⟨rfl, rfl⟩

end MiniDuck
