import MiniDuck.Interval

/-!
# Casts between numbers, dates and timestamps

Values are the integers that store them: a DECIMAL counts units of its
last digit, a DATE days and a TIMESTAMP microseconds since the epoch.
`tryCast` is `none` where a cast raises an error.

`getDate_eq` and `getTime_eq` say that a finite timestamp is split into a
day and a time of that day. The least integer is a timestamp too; it is
finite, and below negative infinity.
-/

namespace MiniDuck

/-! ## Types -/

structure DecimalType where
  width : Nat
  scale : Nat
  width_pos : 1 ≤ width
  width_le : width ≤ 38
  scale_le : scale ≤ width
  deriving Repr, DecidableEq

/-- The width of the decimals that stand for an integral type. -/
def decimalWidth (signed : Bool) : IntWidth → Int
  | .w8 => 3
  | .w16 => 5
  | .w32 => 10
  | .w64 => if signed then 19 else 20
  | .w128 => 38

inductive LogicalType
  | integral (signed : Bool) (width : IntWidth)
  | decimal (type : DecimalType)
  | date
  | timestamp
  deriving Repr, DecidableEq

namespace LogicalType

def isIntegral : LogicalType → Bool
  | .integral _ _ => true
  | _ => false

def isSigned : LogicalType → Bool
  | .integral signed _ => signed
  | _ => false

def isUnsigned : LogicalType → Bool
  | .integral signed _ => !signed
  | _ => false

def isDecimal : LogicalType → Bool
  | .decimal _ => true
  | _ => false

def isHuge : LogicalType → Bool
  | .integral _ width => width = .w128
  | _ => false

/-- `GetTypeIdSize(InternalType())`, for the integral types. -/
def size : LogicalType → Nat
  | .integral _ width => width.bytes
  | _ => 0

/-- `GetDecimalProperties`, the width and the scale. -/
def getDecimalProperties : LogicalType → Option (Int × Int)
  | .integral signed width => some (decimalWidth signed width, 0)
  | .decimal type => some (type.width, type.scale)
  | .date | .timestamp => none

def InRange : LogicalType → Int → Prop
  | .integral signed width, v => IntBounds signed width.bytes v
  | .decimal type, v => -10 ^ type.width < v ∧ v < 10 ^ type.width
  | .date, v => IntBounds true 4 v
  | .timestamp, v => IntBounds true 8 v

end LogicalType

/-! ## Dates and timestamps -/

/-- `date_t::infinity` and `date_t::ninfinity` -/
def dateInfinity : Int := 2147483647

def dateNinfinity : Int := -2147483647

/-- `timestamp_t::infinity` and `timestamp_t::ninfinity` -/
def timestampInfinity : Int := 9223372036854775807

def timestampNinfinity : Int := -9223372036854775807

/-- `timestamp_t::IsFinite` -/
def timestampIsFinite (timestamp : Int) : Bool :=
  timestamp ≠ timestampInfinity && timestamp ≠ timestampNinfinity

def tryFromDatetime (date time : Int) : Option Int :=
  if ¬ IntBounds true 8 (date * microsPerDay) then none
  else if ¬ IntBounds true 8 (date * microsPerDay + time) then none
  else if timestampIsFinite (date * microsPerDay + time) then some (date * microsPerDay + time)
  else none

def getDate (timestamp : Int) : Int :=
  if timestamp = timestampInfinity then dateInfinity
  else if timestamp = timestampNinfinity then dateNinfinity
  else
    let negative : Int := if timestamp < 0 then 1 else 0
    (timestamp + negative).tdiv microsPerDay - negative

/-- `Timestamp::GetTime` of a finite timestamp. -/
def getTime (timestamp : Int) : Int :=
  let micros := timestamp.tmod microsPerDay
  if micros < 0 then micros + microsPerDay else micros

theorem timestampIsFinite_iff {timestamp : Int} :
    timestampIsFinite timestamp = true ↔
      timestamp ≠ timestampInfinity ∧ timestamp ≠ timestampNinfinity := by
  rw [timestampIsFinite, Bool.and_eq_true, decide_eq_true_eq, decide_eq_true_eq]

theorem getDate_eq {timestamp : Int} (h : timestampIsFinite timestamp = true) :
    getDate timestamp = timestamp / microsPerDay := by
  rw [timestampIsFinite_iff] at h
  rw [getDate, if_neg h.1, if_neg h.2, microsPerDay]
  by_cases hneg : timestamp < 0
  · have hdiv : (timestamp + 1).tdiv 86400000000 = -((-(timestamp + 1)) / 86400000000) := by
      rw [← Int.tdiv_eq_ediv_of_nonneg (by omega), Int.neg_tdiv, neg_neg]
    simp only [if_pos hneg, hdiv]
    omega
  · simp only [if_neg hneg, add_zero]
    rw [Int.tdiv_eq_ediv_of_nonneg (by omega)]
    omega

theorem getTime_eq (timestamp : Int) : getTime timestamp = timestamp % microsPerDay := by
  have hpos : (0 : Int) < microsPerDay := by decide
  have hmod := Int.emod_nonneg timestamp hpos.ne'
  have hlt := Int.emod_lt_of_pos timestamp hpos
  rw [getTime, Int.tmod_eq_emod]
  split_ifs <;> simp only [microsPerDay] at * <;> omega

/-! ## Decimals -/

/-- `StandardNumericToDecimalCast`, and its siblings for HUGEINT and UHUGEINT. -/
def numericToDecimalCast (type : DecimalType) (input : Int) : Option Int :=
  let maxWidth : Int := 10 ^ (type.width - type.scale)
  if input ≥ maxWidth ∨ input ≤ -maxWidth then none else some (input * 10 ^ type.scale)

/-- The rounding of `TryCastDecimalToNumeric`, away from zero. -/
def roundDecimal (scale : Nat) (input : Int) : Int :=
  let power : Int := 10 ^ scale
  let rounding := (if input < 0 then -power else power).tdiv 2
  (input + rounding).tdiv power

def decimalScaleUp (source result : DecimalType) (input : Int) : Option Int :=
  let scaleDifference := result.scale - source.scale
  let targetWidth := result.width - scaleDifference
  let limit : Int := 10 ^ targetWidth
  if source.width < targetWidth then some (input * 10 ^ scaleDifference)
  else if input ≥ limit ∨ input ≤ -limit then none
  else some (input * 10 ^ scaleDifference)

def canScaleDownDecimal (divisor limit input : Int) : Bool :=
  let value := if input < 0 then -input.tmod divisor else input.tmod divisor
  let roundedInput := if input < 0 then -input else input
  let roundedInput := if value ≥ divisor.tdiv 2 then roundedInput + divisor else roundedInput
  roundedInput < limit && roundedInput > -limit

def scaleDownOperator (factor input : Int) : Int :=
  let input := input.tdiv (factor.tdiv 2)
  (if input < 0 then input - 1 else input + 1).tdiv 2

def decimalScaleDown (source result : DecimalType) (input : Int) : Option Int :=
  let scaleDifference := source.scale - result.scale
  let targetWidth := result.width + scaleDifference
  let divideFactor : Int := 10 ^ scaleDifference
  if source.width < targetWidth then some (scaleDownOperator divideFactor input)
  else if canScaleDownDecimal divideFactor (10 ^ targetWidth) input then
    some (scaleDownOperator divideFactor input)
  else none

/-! ## Casts -/

def integralCast (signed : Bool) (width : IntWidth) (input : Int) : Option Int :=
  if IntBounds signed width.bytes input then some input else none

/-- `Value::TryCastAs` of a value that is not NULL, and the cast of a column. -/
def tryCast (source target : LogicalType) (input : Int) : Option Int :=
  if source = target then some input
  else
    match source, target with
    | .integral _ _, .integral signed width => integralCast signed width input
    | .integral _ _, .decimal result => numericToDecimalCast result input
    | .decimal type, .integral signed width =>
        integralCast signed width (roundDecimal type.scale input)
    | .decimal type, .decimal result =>
        if result.scale ≥ type.scale then decimalScaleUp type result input
        else decimalScaleDown type result input
    | .date, .timestamp =>
        if input = dateInfinity then some timestampInfinity
        else if input = dateNinfinity then some timestampNinfinity
        else tryFromDatetime input 0
    | .timestamp, .date => some (getDate input)
    -- there is no cast, and only NULL passes `TryVectorNullCast`
    | _, _ => none

theorem tryCast_self (type : LogicalType) (input : Int) :
    tryCast type type input = some input := by
  cases type <;> exact if_pos rfl

theorem integralCast_some {signed : Bool} {width : IntWidth} {input v : Int}
    (h : integralCast signed width input = some v) : v = input := by
  unfold integralCast at h
  split_ifs at h
  exact (Option.some.inj h).symm

theorem numericToDecimalCast_some {type : DecimalType} {input v : Int}
    (h : numericToDecimalCast type input = some v) : v = input * 10 ^ type.scale := by
  simp only [numericToDecimalCast] at h
  split_ifs at h
  exact (Option.some.inj h).symm

theorem decimalScaleUp_some {source result : DecimalType} {input v : Int}
    (h : decimalScaleUp source result input = some v) :
    v = input * 10 ^ (result.scale - source.scale) := by
  simp only [decimalScaleUp] at h
  split_ifs at h
  · exact (Option.some.inj h).symm
  · exact (Option.some.inj h).symm

theorem roundDecimal_zero (input : Int) : roundDecimal 0 input = input := by
  have hrounding : (if input < 0 then -(10 ^ 0 : Int) else 10 ^ 0).tdiv 2 = 0 := by
    split_ifs
    · decide
    · decide
  simp only [roundDecimal, hrounding]
  rw [pow_zero, Int.tdiv_one, add_zero]

/-- A cast of a date to a timestamp that does not fail. -/
theorem tryCast_date_some {date v : Int} (h : tryCast .date .timestamp date = some v) :
    (date = dateInfinity ∧ v = timestampInfinity) ∨
      (date = dateNinfinity ∧ v = timestampNinfinity) ∨
      (v = date * microsPerDay ∧ IntBounds true 8 v ∧ timestampIsFinite v = true) := by
  rw [tryCast, if_neg (by decide)] at h
  simp only [tryFromDatetime, add_zero] at h
  split_ifs at h with hinf hninf hbounds hfinite
  · exact Or.inl ⟨hinf, (Option.some.inj h).symm⟩
  · exact Or.inr (Or.inl ⟨hninf, (Option.some.inj h).symm⟩)
  · obtain rfl := Option.some.inj h
    exact Or.inr (Or.inr ⟨rfl, hbounds, hfinite⟩)

end MiniDuck
