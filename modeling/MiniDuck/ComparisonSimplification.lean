import MiniDuck.Casts
import MiniDuck.Rule

/-!
# Removing a cast from a comparison

`ComparisonSimplificationRule.apply` compares `CAST(x AS T)` with a
constant of type `T` by comparing `x` with the constant cast to the type
of `x`. A cast that `castIsInvertible` accepts is strictly increasing
(`tryCast_compare`), so that a constant that is the cast of some value
can be moved. A date is never equal to a timestamp within a day, and is
compared with the day before or after it (`compare_day`).

The least timestamp lies below negative infinity, but its day does not
(`comparison_simplification`).
-/

namespace MiniDuck

/-! ## The rule -/

def castIsInvertible (source target : LogicalType) : Bool :=
  if source.isDecimal || target.isDecimal then
    match source.getDecimalProperties, target.getDecimalProperties with
    | some (sourceWidth, sourceScale), some (targetWidth, targetScale) =>
        if targetScale < sourceScale then false
        else if target.isUnsigned then false
        else
          let sourceDigits := sourceWidth - sourceScale + if source.isHuge then 1 else 0
          let targetDigits := targetWidth - targetScale - if target.isDecimal then 0 else 1
          sourceDigits ≤ targetDigits
    | _, _ => false
  else if source = .timestamp ∧ target = .timestamp then true
  else if source = .timestamp ∧ target = .date then false
  else if source.isSigned && target.isUnsigned then false
  else if source.isIntegral && target.isIntegral then
    if source.isUnsigned && target.isSigned then source.size < target.size
    else source.size ≤ target.size
  -- everything else, whether or not there is a cast
  else true

def LogicalType.valueType : LogicalType → ValueType
  | .integral _ _ | .decimal _ => .bounded true
  | .date | .timestamp => .bounded false

/-- The side of a comparison that is not the constant. -/
inductive ColumnRef (ι κ ρ : Type)
  | cast (source : LogicalType) (child : Expr ι κ ρ)
  | other (expr : Expr ι κ ρ)

/-- A comparison between values of a type, one of them a constant. -/
structure ConstantComparison (ι κ ρ : Type) where
  comparison : ComparisonType
  columnRefLeft : Bool
  columnRef : ColumnRef ι κ ρ
  type : LogicalType
  constantValue : Option Int

variable {ι κ ρ : Type}

def booleanConstant (b : Option Bool) : Expr ι κ ρ := .constant (.bounded false) (b.map .boolean)

/-- A comparison with its operands in the order they are written in. -/
def operandComparison (comparison : ComparisonType) (columnRefLeft : Bool)
    (column constant : Expr ι κ ρ) : Expr ι κ ρ :=
  if columnRefLeft then .comparison comparison column constant
  else .comparison comparison constant column

/-- What a comparison of a date with a constant comes to. -/
inductive Inverted (ι κ ρ : Type)
  | replacement (expr : Expr ι κ ρ)
  | constant (value : Option Int)

def dateTimestampComparisonIsInvertible (comparison : ComparisonType) (columnRefLeft : Bool)
    (child : Expr ι κ ρ) (timestamp castConstant : Int) : Option (Inverted ι κ ρ) :=
  if !timestampIsFinite timestamp then none
  else if getTime timestamp = 0 then some (.constant (some castConstant))
  else
    let day (addOneDay : Bool) :=
      Inverted.constant (some (if addOneDay then castConstant + 1 else castConstant))
    match comparison with
    | .equal =>
        some (.replacement (.constantOrNull (.bounded false) (some (.boolean false)) [child]))
    | .notEqual =>
        some (.replacement (.constantOrNull (.bounded false) (some (.boolean true)) [child]))
    | .distinctFrom => some (.replacement (booleanConstant (some true)))
    | .notDistinctFrom => some (.replacement (booleanConstant (some false)))
    | .lessThan => some (day columnRefLeft)
    | .greaterThanOrEqualTo => some (day columnRefLeft)
    | .lessThanOrEqualTo => some (day !columnRefLeft)
    | .greaterThan => some (day !columnRefLeft)

/-- `ConstantCastIsInvertible` of a constant that is not NULL. -/
def constantCastIsInvertible (comparison : ComparisonType) (columnRefLeft : Bool)
    (child : Expr ι κ ρ) (returnType targetType : LogicalType) (constantValue castConstant : Int) :
    Option (Inverted ι κ ρ) :=
  if castIsInvertible returnType targetType then some (.constant (some castConstant))
  else if returnType.isIntegral && targetType.isIntegral then some (.constant (some castConstant))
  else if targetType.isDecimal && returnType.isDecimal then
    if tryCast targetType returnType castConstant = some constantValue then
      some (.constant (some castConstant))
    else none
  else if targetType ≠ .date ∨ returnType ≠ .timestamp then none
  else
    dateTimestampComparisonIsInvertible comparison columnRefLeft child constantValue castConstant

/-- The comparison of the column with the constant, or what replaces it. -/
def Inverted.expr (comparison : ComparisonType) (left : Bool) (child : Expr ι κ ρ)
    (type : ValueType) : Inverted ι κ ρ → Expr ι κ ρ
  | .replacement expr => expr
  | .constant value =>
      operandComparison comparison left child (.constant type (value.map .integer))

/-- The branch of `ComparisonSimplificationRule::Apply` for casts. -/
def simplifyCast (comparison : ComparisonType) (columnRefLeft : Bool) (child : Expr ι κ ρ)
    (sourceType returnType : LogicalType) (constantValue : Option Int) : Option (Expr ι κ ρ) :=
  if !castIsInvertible sourceType returnType then none
  else do
    let inverted ←
      match constantValue with
      | none => some (.constant none)
      | some constant => do
          let castConstant ← tryCast returnType sourceType constant
          constantCastIsInvertible comparison columnRefLeft child returnType sourceType constant
            castConstant
    some (inverted.expr comparison columnRefLeft child sourceType.valueType)

/-- `ComparisonSimplificationRule::Apply`, `none` where it leaves the expression as it is. -/
def ComparisonSimplificationRule.apply (c : ConstantComparison ι κ ρ) : Option (Expr ι κ ρ) :=
  match c.constantValue, c.comparison, c.columnRef with
  | none, .notDistinctFrom, .other (.column column) => some (.isNull false (.column column))
  | none, .distinctFrom, .other (.column column) => some (.isNull true (.column column))
  | none, .notDistinctFrom, .cast source child =>
      simplifyCast .notDistinctFrom c.columnRefLeft child source c.type none
  | none, .distinctFrom, .cast source child =>
      simplifyCast .distinctFrom c.columnRefLeft child source c.type none
  | none, .notDistinctFrom, .other _ => none
  | none, .distinctFrom, .other _ => none
  | none, _, _ => some (booleanConstant none)
  | some constant, comparison, .cast source child =>
      simplifyCast comparison c.columnRefLeft child source c.type (some constant)
  | some _, _, .other _ => none

/-! ## Invertible casts -/

theorem castIsInvertible_decimal {source target : DecimalType}
    (h : castIsInvertible (.decimal source) (.decimal target) = true) :
    source.scale ≤ target.scale ∧
      (source.width : Int) - source.scale ≤ (target.width : Int) - target.scale := by
  simpa [castIsInvertible, LogicalType.isDecimal, LogicalType.getDecimalProperties,
    LogicalType.isUnsigned, LogicalType.isHuge] using h

theorem castIsInvertible_toIntegral {source : DecimalType} {signed : Bool} {width : IntWidth}
    (h : castIsInvertible (.decimal source) (.integral signed width) = true) :
    source.scale = 0 ∧ (source.width : Int) ≤ decimalWidth signed width - 1 := by
  simp only [castIsInvertible, LogicalType.getDecimalProperties, LogicalType.isDecimal,
    LogicalType.isHuge, Bool.true_or, if_true, Bool.false_eq_true, if_false] at h
  split_ifs at h with hscale
  have hzero : source.scale = 0 := by omega
  rw [hzero, decide_eq_true_eq] at h
  exact ⟨hzero, by omega⟩

theorem castIsInvertible_toDecimal {signed : Bool} {width : IntWidth} {target : DecimalType}
    (h : castIsInvertible (.integral signed width) (.decimal target) = true) :
    decimalWidth signed width ≤ (target.width : Int) - target.scale := by
  simp only [castIsInvertible, LogicalType.getDecimalProperties, LogicalType.isDecimal,
    LogicalType.isUnsigned, Bool.or_true, if_true, Bool.false_eq_true, if_false] at h
  split_ifs at h with hscale hhuge
  all_goals
    rw [decide_eq_true_eq] at h
    omega

theorem compare_mul {a b k : Int} (hk : 0 < k) : compare (a * k) (b * k) = compare a b := by
  rcases lt_trichotomy a b with h | rfl | h
  · rw [compare_lt_iff_lt.mpr h, compare_lt_iff_lt.mpr (mul_lt_mul_of_pos_right h hk)]
  · rw [compare_eq_iff_eq.mpr rfl, compare_eq_iff_eq.mpr rfl]
  · rw [compare_gt_iff_gt.mpr h, compare_gt_iff_gt.mpr (mul_lt_mul_of_pos_right h hk)]

theorem pow_ten_pos (n : Nat) : (0 : Int) < 10 ^ n := by positivity

/-- A cast of a date is a whole day, or infinite, where it does not fail. -/
theorem compare_date {x y a b : Int} (hx : tryCast .date .timestamp x = some a)
    (hy : tryCast .date .timestamp y = some b) : compare a b = compare x y := by
  have horder : ∀ {x y a b : Int}, tryCast .date .timestamp x = some a →
      tryCast .date .timestamp y = some b → x < y → a < b := by
    intro x y a b hx hy hlt
    rcases tryCast_date_some hx with ⟨rfl, rfl⟩ | ⟨rfl, rfl⟩ | ⟨rfl, hbounds, hfinite⟩ <;>
      rcases tryCast_date_some hy with ⟨rfl, rfl⟩ | ⟨rfl, rfl⟩ | ⟨rfl, hbounds', hfinite'⟩ <;>
      simp only [IntBounds, timestampIsFinite_iff, microsPerDay, dateInfinity, dateNinfinity,
        timestampInfinity, timestampNinfinity, if_true, ne_eq] at * <;>
      omega
  rcases lt_trichotomy x y with h | rfl | h
  · rw [compare_lt_iff_lt.mpr h, compare_lt_iff_lt.mpr (horder hx hy h)]
  · obtain rfl := Option.some.inj (hx.symm.trans hy)
    rw [compare_eq_iff_eq.mpr rfl, compare_eq_iff_eq.mpr rfl]
  · rw [compare_gt_iff_gt.mpr h, compare_gt_iff_gt.mpr (horder hy hx h)]

/-- A cast that `CastIsInvertible` accepts keeps the order of the values that it does not fail
for. -/
theorem tryCast_compare {source target : LogicalType}
    (h : castIsInvertible source target = true) {x y a b : Int}
    (hx : tryCast source target x = some a) (hy : tryCast source target y = some b) :
    compare a b = compare x y := by
  by_cases hsame : source = target
  · subst hsame
    rw [tryCast_self] at hx hy
    rw [Option.some.inj hx, Option.some.inj hy]
  · cases source with
    | integral signed width =>
        cases target with
        | integral signed' width' =>
            rw [tryCast, if_neg hsame] at hx hy
            rw [integralCast_some hx, integralCast_some hy]
        | decimal target =>
            rw [tryCast, if_neg hsame] at hx hy
            rw [numericToDecimalCast_some hx, numericToDecimalCast_some hy,
              compare_mul (pow_ten_pos _)]
        | date | timestamp => simp [tryCast] at hx
    | decimal source =>
        cases target with
        | integral signed width =>
            rw [tryCast, if_neg hsame] at hx hy
            obtain ⟨hscale, -⟩ := castIsInvertible_toIntegral h
            rw [integralCast_some hx, integralCast_some hy, hscale, roundDecimal_zero,
              roundDecimal_zero]
        | decimal target =>
            have hscale := (castIsInvertible_decimal h).1
            simp only [tryCast, if_neg hsame, ge_iff_le, if_pos hscale] at hx hy
            rw [decimalScaleUp_some hx, decimalScaleUp_some hy, compare_mul (pow_ten_pos _)]
        | date | timestamp => simp [tryCast] at hx
    | date =>
        cases target with
        | timestamp => exact compare_date hx hy
        | date => exact absurd rfl hsame
        | integral | decimal => simp [tryCast] at hx
    | timestamp =>
        cases target with
        | timestamp => exact absurd rfl hsame
        | date => exact absurd h (by decide)
        | integral | decimal => simp [tryCast] at hx

/-! ## Constants -/

variable {child : Expr ι κ ρ}

/-- What the rule does with a constant: it is the cast of a value, or a timestamp within a day. -/
theorem constantCastIsInvertible_some {source target : LogicalType} {comparison : ComparisonType}
    {left : Bool} {c n : Int} {inverted : Inverted ι κ ρ}
    (hcast : castIsInvertible source target = true) (hc : target.InRange c)
    (hn : tryCast target source c = some n)
    (h : constantCastIsInvertible comparison left child target source c n = some inverted) :
    (inverted = .constant (some n) ∧ tryCast source target n = some c) ∨
      (source = .date ∧ target = .timestamp ∧
        dateTimestampComparisonIsInvertible comparison left child c (getDate c) =
          some inverted) := by
  by_cases hsame : source = target
  · subst hsame
    obtain rfl := Option.some.inj ((tryCast_self source c).symm.trans hn)
    rw [constantCastIsInvertible, if_pos hcast] at h
    exact Or.inl ⟨(Option.some.inj h).symm, tryCast_self source c⟩
  · cases source with
    | integral signed width =>
        cases target with
        | integral signed' width' =>
            have hn' := hn
            rw [tryCast, if_neg (Ne.symm hsame)] at hn'
            obtain rfl := integralCast_some hn'
            refine Or.inl ⟨?_, by rw [tryCast, if_neg hsame]; exact if_pos hc⟩
            simp only [constantCastIsInvertible, LogicalType.isIntegral, Bool.and_self, if_true,
              ite_self] at h
            exact (Option.some.inj h).symm
        | decimal type =>
            have hforward := castIsInvertible_toDecimal hcast
            by_cases hback : castIsInvertible (.decimal type) (.integral signed width) = true
            · have hbackward := castIsInvertible_toIntegral hback
              omega
            · simp [constantCastIsInvertible, hback, LogicalType.isIntegral,
                LogicalType.isDecimal] at h
        | date | timestamp => simp [tryCast] at hn
    | decimal type =>
        cases target with
        | integral signed width =>
            have hforward := castIsInvertible_toIntegral hcast
            by_cases hback : castIsInvertible (.integral signed width) (.decimal type) = true
            · have hbackward := castIsInvertible_toDecimal hback
              omega
            · simp [constantCastIsInvertible, hback, LogicalType.isIntegral,
                LogicalType.isDecimal] at h
        | decimal type' =>
            by_cases hback : castIsInvertible (.decimal type') (.decimal type) = true
            · obtain ⟨hscale, hdigits⟩ := castIsInvertible_decimal hcast
              obtain ⟨hscale', hdigits'⟩ := castIsInvertible_decimal hback
              have heq : type = type' := by
                cases type
                cases type'
                simp only [DecimalType.mk.injEq]
                simp only at hscale hscale' hdigits hdigits'
                omega
              exact absurd (congrArg LogicalType.decimal heq) hsame
            · simp only [constantCastIsInvertible, hback, LogicalType.isIntegral,
                LogicalType.isDecimal, Bool.false_eq_true, Bool.and_self, if_false, if_true] at h
              split_ifs at h with hround
              exact Or.inl ⟨(Option.some.inj h).symm, hround⟩
        | date | timestamp => simp [tryCast] at hn
    | date =>
        cases target with
        | date => exact absurd rfl hsame
        | timestamp =>
            rw [tryCast, if_neg (by decide)] at hn
            obtain rfl := Option.some.inj hn
            exact Or.inr ⟨rfl, rfl, h⟩
        | integral | decimal => simp [tryCast] at hn
    | timestamp =>
        cases target with
        | timestamp => exact absurd rfl hsame
        | date => exact absurd hcast (by decide)
        | integral | decimal => simp [tryCast] at hn

theorem tryCast_midnight {c : Int} (hc : IntBounds true 8 c) (hfinite : timestampIsFinite c = true)
    (hmidnight : getTime c = 0) : tryCast .date .timestamp (getDate c) = some c := by
  rw [getTime_eq] at hmidnight
  rw [tryCast, if_neg (by decide), getDate_eq hfinite]
  have hday : c / microsPerDay * microsPerDay = c := Int.ediv_mul_cancel_of_emod_eq_zero hmidnight
  simp only [tryFromDatetime, add_zero, hday]
  have hpos : c / microsPerDay ≠ dateInfinity := by
    simp only [IntBounds, if_true, microsPerDay, dateInfinity] at *
    omega
  have hneg : c / microsPerDay ≠ dateNinfinity := by
    simp only [IntBounds, if_true, microsPerDay, dateNinfinity] at *
    omega
  rw [if_neg hpos, if_neg hneg, if_neg (not_not.mpr hc), if_neg (not_not.mpr hc), if_pos hfinite]

/-- `-9223372036854775808` microseconds, the least timestamp. -/
def leastTimestamp : Int := -9223372036854775808

theorem leastTimestamp_ne {date c : Int} (h : tryCast .date .timestamp date = some c) :
    c ≠ leastTimestamp := by
  rcases tryCast_date_some h with ⟨-, rfl⟩ | ⟨-, rfl⟩ | ⟨rfl, -⟩
  · decide
  · decide
  · simp only [microsPerDay, leastTimestamp]
    omega

/-- A timestamp within a day lies between the day and the next one. -/
theorem compare_day {x w c : Int} (hx : tryCast .date .timestamp x = some w)
    (hc : IntBounds true 8 c) (hfinite : timestampIsFinite c = true) (htime : getTime c ≠ 0) :
    (x ≤ getDate c ∧ (w < c ↔ ¬ (c = leastTimestamp ∧ x = dateNinfinity)) ∧ w ≠ c) ∨
      (getDate c + 1 ≤ x ∧ c < w ∧ ¬ (c = leastTimestamp ∧ x = dateNinfinity)) := by
  rw [getTime_eq] at htime
  rw [getDate_eq hfinite]
  rcases tryCast_date_some hx with ⟨rfl, rfl⟩ | ⟨rfl, rfl⟩ | ⟨rfl, hbounds, hfinite'⟩ <;>
    simp only [IntBounds, timestampIsFinite_iff, microsPerDay, dateInfinity, dateNinfinity,
      timestampInfinity, timestampNinfinity, leastTimestamp, if_true, ne_eq, and_true] at * <;>
    omega

/-! ## The rewritten comparison -/

variable [LinearOrder κ] {row : ι → Option (Value κ ρ)}

def compareOperands (comparison : ComparisonType) (columnRefLeft : Bool)
    (column constant : Option (Value κ ρ)) : Option Bool :=
  if columnRefLeft then compareValues comparison column constant
  else compareValues comparison constant column

def columnComparison (comparison : ComparisonType) (columnRefLeft : Bool) : ComparisonType :=
  if columnRefLeft then comparison else flipComparisonExpression comparison

theorem compareOperands_eq (comparison : ComparisonType) (left : Bool)
    (x c : Option (Value κ ρ)) :
    compareOperands comparison left x c = compareValues (columnComparison comparison left) x c := by
  cases left with
  | true => rfl
  | false => exact (compareValues_flipComparisonExpression comparison x c).symm

theorem compareValues_integer (comparison : ComparisonType) (a b : Int) :
    compareValues comparison (some (.integer a : Value κ ρ)) (some (.integer b)) =
      some (comparison.holds (compare a b)) := by
  show some (comparison.holds (compare (Key.integer a : Key κ) (.integer b))) = _
  rw [compare_integer]

/-- Nothing but the kind of a comparison with NULL decides it. -/
theorem compareOperands_none (comparison : ComparisonType) (left : Bool) (c d : Value κ ρ) :
    compareOperands comparison left none (some c) =
      compareOperands comparison left none (some d) := by
  cases left <;> cases comparison <;> rfl

theorem eval_operandComparison {comparison : ComparisonType} {left : Bool} {type : ValueType}
    {x c : Option (Value κ ρ)} (hx : eval row child = .ok x) :
    eval row (operandComparison comparison left child (.constant type c)) =
      .ok ((compareOperands comparison left x c).map .boolean) := by
  cases left with
  | true => exact eval_comparison.mpr ⟨x, c, hx, rfl, rfl⟩
  | false => exact eval_comparison.mpr ⟨c, x, rfl, hx, rfl⟩

theorem eval_constantOrNull_child {child : Expr ι κ ρ} {x : Option (Value κ ρ)} {b : Bool}
    (hx : eval row child = .ok x) :
    eval row (.constantOrNull (.bounded false) (some (.boolean b)) [child]) =
      .ok ((x.map fun _ => b).map .boolean) := by
  refine eval_constantOrNull.mpr ⟨[x], evalAll_eq_ok.mpr (.cons hx .nil), ?_⟩
  cases x <;> rfl

def ComparisonType.isOrder : ComparisonType → Bool
  | .lessThan | .lessThanOrEqualTo | .greaterThan | .greaterThanOrEqualTo => true
  | _ => false

def castColumn (source target : LogicalType) : Option Int → Option (Option Int)
  | none => some none
  | some v => (tryCast source target v).map some

section Eval

variable {child : Expr ι κ ρ} {source : LogicalType} {comparison : ComparisonType} {left : Bool}
  {x y : Option Int} {c n : Int}

def LeastBelowInfinity (comparison : ComparisonType) (source target : LogicalType)
    (x constant : Option Int) : Prop :=
  source = .date ∧ target = .timestamp ∧ constant = some leastTimestamp ∧
    x = some dateNinfinity ∧ comparison.isOrder = true

theorem isOrder_columnComparison (comparison : ComparisonType) (left : Bool) :
    (columnComparison comparison left).isOrder = comparison.isOrder := by
  cases left <;> cases comparison <;> rfl

/-- A constant that is the cast of a value is moved. -/
theorem compareOperands_cast {target : LogicalType} (h : castIsInvertible source target = true)
    (hn : tryCast source target n = some c) (hy : castColumn source target x = some y) :
    compareOperands comparison left (x.map .integer : Option (Value κ ρ)) (some (.integer n)) =
      compareOperands comparison left (y.map .integer : Option (Value κ ρ))
        (some (.integer c)) := by
  cases x with
  | none =>
      obtain rfl := Option.some.inj hy
      exact compareOperands_none comparison left _ _
  | some x =>
      obtain ⟨w, hw, rfl⟩ := Option.map_eq_some_iff.mp hy
      rw [compareOperands_eq, compareOperands_eq]
      exact (compareValues_integer _ x n).trans
        ((congrArg (fun o => some (ComparisonType.holds _ o)) (tryCast_compare h hw hn).symm).trans
          (compareValues_integer _ w c).symm)

def boundDay (comparison : ComparisonType) (day : Int) : Int :=
  match comparison with
  | .lessThan | .greaterThanOrEqualTo => day + 1
  | _ => day

/-- The day is on the right side of the timestamp, unless negative infinity is not below it. -/
theorem holds_boundDay {w x : Int} (hx : tryCast .date .timestamp x = some w)
    (hc : IntBounds true 8 c) (hfinite : timestampIsFinite c = true) (htime : getTime c ≠ 0)
    (horder : comparison.isOrder = true) :
    comparison.holds (compare x (boundDay comparison (getDate c))) =
        comparison.holds (compare w c) ↔
      ¬ (c = leastTimestamp ∧ x = dateNinfinity) := by
  rcases compare_day hx hc hfinite htime with ⟨hle, hlt, hne⟩ | ⟨hle, hlt, hsafe⟩
  · have hnext : compare x (getDate c + 1) = .lt := compare_lt_iff_lt.mpr (by omega)
    have hday : compare x (getDate c) ≠ .gt := compare_le_iff_le.mpr hle
    rw [← hlt]
    by_cases hlt : w < c
    · have hcompare : compare w c = .lt := compare_lt_iff_lt.mpr hlt
      cases comparison <;> first
        | exact absurd horder (by decide)
        | simp [ComparisonType.holds, boundDay, hcompare, hnext, hday, hlt]
    · have hcompare : compare w c = .gt := compare_gt_iff_gt.mpr (by omega)
      cases comparison <;> first
        | exact absurd horder (by decide)
        | simp [ComparisonType.holds, boundDay, hcompare, hnext, hday, hlt]
  · have hcompare : compare w c = .gt := compare_gt_iff_gt.mpr hlt
    have hnext : compare x (getDate c + 1) ≠ .lt := by
      rw [ne_eq, compare_lt_iff_lt]
      omega
    have hday : compare x (getDate c) = .gt := compare_gt_iff_gt.mpr (by omega)
    cases comparison <;> first
      | exact absurd horder (by decide)
      | simp [ComparisonType.holds, boundDay, hcompare, hnext, hday, hsafe]

omit [LinearOrder κ] in
theorem dateTimestampComparisonIsInvertible_order (child : Expr ι κ ρ) (day : Int)
    (hfinite : timestampIsFinite c = true) (htime : getTime c ≠ 0)
    (horder : comparison.isOrder = true) :
    dateTimestampComparisonIsInvertible comparison left child c day =
      some (.constant (some (boundDay (columnComparison comparison left) day))) := by
  rw [dateTimestampComparisonIsInvertible, hfinite, if_neg (by decide), if_neg htime]
  cases left <;> cases comparison <;> first
    | rfl
    | exact absurd horder (by decide)

/-- A date is different from a timestamp within a day. -/
theorem compareOperands_day (left : Bool) (hy : castColumn .date .timestamp x = some y)
    (hc : IntBounds true 8 c) (hfinite : timestampIsFinite c = true) (htime : getTime c ≠ 0) :
    compareOperands .equal left (y.map .integer : Option (Value κ ρ)) (some (.integer c)) =
        x.map (fun _ => false) ∧
      compareOperands .notEqual left (y.map .integer : Option (Value κ ρ))
        (some (.integer c)) = x.map (fun _ => true) ∧
      compareOperands .notDistinctFrom left (y.map .integer : Option (Value κ ρ))
        (some (.integer c)) = some false ∧
      compareOperands .distinctFrom left (y.map .integer : Option (Value κ ρ))
        (some (.integer c)) = some true := by
  cases x with
  | none =>
      obtain rfl := Option.some.inj hy
      cases left <;> exact ⟨rfl, rfl, rfl, rfl⟩
  | some x =>
      obtain ⟨w, hw, rfl⟩ := Option.map_eq_some_iff.mp hy
      have hne : compare w c ≠ .eq := by
        rw [ne_eq, compare_eq_iff_eq]
        rcases compare_day hw hc hfinite htime with ⟨-, -, hne⟩ | ⟨-, hlt, -⟩
        · exact hne
        · exact hlt.ne'
      have hvalues : ∀ comparison, compareOperands comparison left
          ((some w).map .integer : Option (Value κ ρ)) (some (.integer c)) =
            some ((columnComparison comparison left).holds (compare w c)) := fun comparison =>
        (compareOperands_eq comparison left _ _).trans (compareValues_integer _ w c)
      simp only [hvalues]
      cases left <;> simp [columnComparison, flipComparisonExpression, ComparisonType.holds, hne]

theorem eval_day {inverted : Inverted ι κ ρ} {type : ValueType}
    (hx : eval row child = .ok (x.map .integer)) (hy : castColumn .date .timestamp x = some y)
    (hc : IntBounds true 8 c) (htime : getTime c ≠ 0) (hfinite : timestampIsFinite c = true)
    (h : dateTimestampComparisonIsInvertible comparison left child c (getDate c) =
      some inverted) :
    eval row (inverted.expr comparison left child type) =
        .ok ((compareOperands comparison left (y.map .integer : Option (Value κ ρ))
          (some (.integer c))).map .boolean) ↔
      ¬ (c = leastTimestamp ∧ x = some dateNinfinity ∧ comparison.isOrder = true) := by
  obtain ⟨hequal, hnotEqual, hnotDistinct, hdistinct⟩ :=
    compareOperands_day (κ := κ) (ρ := ρ) left hy hc hfinite htime
  by_cases horder : comparison.isOrder = true
  · rw [dateTimestampComparisonIsInvertible_order child (getDate c) hfinite htime horder] at h
    obtain rfl := Option.some.inj h
    rw [Inverted.expr, eval_operandComparison hx, compareOperands_eq, compareOperands_eq]
    cases x with
    | none =>
        obtain rfl := Option.some.inj hy
        refine iff_of_true ?_ fun h => by cases h.2.1
        cases columnComparison comparison left <;> rfl
    | some x =>
        obtain ⟨w, hw, rfl⟩ := Option.map_eq_some_iff.mp hy
        have hbound := holds_boundDay hw hc hfinite htime
          ((isOrder_columnComparison comparison left).trans horder)
        simp only [Option.map_some, compareValues_integer, Except.ok.injEq, Option.some.injEq,
          Value.boolean.injEq, hbound, horder, and_true]
  · refine iff_of_true ?_ fun h => horder h.2.2
    rw [dateTimestampComparisonIsInvertible, hfinite, if_neg (by decide), if_neg htime] at h
    cases comparison with
    | equal =>
        obtain rfl := Option.some.inj h
        rw [hequal]
        refine (eval_constantOrNull_child hx).trans ?_
        cases x <;> rfl
    | notEqual =>
        obtain rfl := Option.some.inj h
        rw [hnotEqual]
        refine (eval_constantOrNull_child hx).trans ?_
        cases x <;> rfl
    | notDistinctFrom =>
        obtain rfl := Option.some.inj h
        rw [hnotDistinct]
        rfl
    | distinctFrom =>
        obtain rfl := Option.some.inj h
        rw [hdistinct]
        rfl
    | _ => exact absurd rfl horder

/-- A constant that is moved, and a comparison with NULL. -/
theorem simplifyCast_eval {target : LogicalType} {constant : Option Int} {e : Expr ι κ ρ}
    (h : simplifyCast comparison left child source target constant = some e)
    (hx : eval row child = .ok (x.map .integer)) (hy : castColumn source target x = some y)
    (hrange : ∀ c ∈ constant, target.InRange c) :
    eval row e = .ok ((compareOperands comparison left (y.map .integer : Option (Value κ ρ))
        (constant.map .integer)).map .boolean) ↔
      ¬ LeastBelowInfinity comparison source target x constant := by
  unfold simplifyCast at h
  split_ifs at h with hcast
  rw [Bool.not_eq_true', Bool.not_eq_false] at hcast
  cases constant with
  | none =>
      obtain rfl := Option.some.inj h
      refine iff_of_true ?_ fun h => by cases h.2.2.1
      rw [Inverted.expr, eval_operandComparison hx]
      cases x with
      | none =>
          obtain rfl := Option.some.inj hy
          rfl
      | some x =>
          obtain ⟨w, hw, rfl⟩ := Option.map_eq_some_iff.mp hy
          cases left <;> cases comparison <;> rfl
  | some c =>
      obtain ⟨n, hn, h⟩ := Option.bind_eq_some_iff.mp h
      obtain ⟨inverted, hconstant, he⟩ := Option.bind_eq_some_iff.mp h
      obtain rfl := Option.some.inj he
      have hc := hrange c rfl
      have hmoved : tryCast source target n = some c →
          (eval row ((Inverted.constant (some n)).expr comparison left child source.valueType) =
            .ok ((compareOperands comparison left (y.map .integer : Option (Value κ ρ))
              (some (.integer c))).map .boolean) ↔
            ¬ LeastBelowInfinity comparison source target x (some c)) := by
        intro hround
        refine iff_of_true ?_ ?_
        · rw [Inverted.expr, eval_operandComparison hx]
          exact congrArg (fun b => Except.ok (Option.map Value.boolean b))
            (compareOperands_cast hcast hround hy)
        · rintro ⟨rfl, rfl, hleast, -⟩
          exact leastTimestamp_ne hround (Option.some.inj hleast)
      rcases constantCastIsInvertible_some hcast hc hn hconstant with
        ⟨rfl, hround⟩ | ⟨rfl, rfl, hday⟩
      · exact hmoved hround
      · have hfinite : timestampIsFinite c = true := by
          by_contra hnot
          rw [dateTimestampComparisonIsInvertible, if_pos (by simpa using hnot)] at hday
          cases hday
        by_cases htime : getTime c = 0
        · have hcopy := hday
          rw [dateTimestampComparisonIsInvertible, hfinite, if_neg (by decide),
            if_pos htime] at hcopy
          obtain rfl := Option.some.inj hcopy
          rw [tryCast, if_neg (by decide)] at hn
          obtain rfl := Option.some.inj hn
          exact hmoved (tryCast_midnight hc hfinite htime)
        · refine (eval_day hx hy hc htime hfinite hday).trans (not_congr ?_)
          simp [LeastBelowInfinity]

end Eval

/-- A cast that is accepted is strictly increasing, and the rewritten comparison has the value of
the original one, with the one exception of negative infinity and the least timestamp. -/
theorem comparison_simplification (row : ι → Option (Value κ ρ)) :
    (∀ source target x y a b, castIsInvertible source target = true →
      tryCast source target x = some a → tryCast source target y = some b → x < y → a < b) ∧
    ∀ (c : ConstantComparison ι κ ρ) source child e x y, c.columnRef = .cast source child →
      ComparisonSimplificationRule.apply c = some e →
      (∀ v ∈ c.constantValue, c.type.InRange v) →
      eval row child = .ok (x.map .integer) → castColumn source c.type x = some y →
      (eval row e = .ok ((compareOperands c.comparison c.columnRefLeft
            (y.map .integer : Option (Value κ ρ)) (c.constantValue.map .integer)).map .boolean) ↔
        ¬ LeastBelowInfinity c.comparison source c.type x c.constantValue) := by
  refine ⟨fun source target x y a b hcast hx hy hlt => ?_, ?_⟩
  · rw [← compare_lt_iff_lt, tryCast_compare hcast hx hy]
    exact compare_lt_iff_lt.mpr hlt
  · rintro ⟨comparison, left, columnRef, type, constant⟩ source child e x y rfl h hrange hx hy
    cases constant with
    | some constant => exact simplifyCast_eval h hx hy hrange
    | none =>
        cases comparison with
        | distinctFrom | notDistinctFrom => exact simplifyCast_eval h hx hy hrange
        | _ =>
            obtain rfl := Option.some.inj h
            refine iff_of_true ?_ fun h => by cases h.2.2.1
            cases y <;> cases left <;> rfl

/-- `CAST(d AS TIMESTAMP) < make_timestamp(c)` -/
def dateBefore (c : Int) : ConstantComparison Unit Unit Unit where
  comparison := .lessThan
  columnRefLeft := true
  columnRef := .cast .date (.column ())
  type := .timestamp
  constantValue := some c

/-- The first microsecond after the epoch, at the epoch. -/
theorem comparison_simplification_epoch :
    eval (fun _ => some (.integer 0 : Value Unit Unit)) (.comparison .lessThan (.column ())
      (.constant (.bounded false) (some (.integer 1)))) =
      .ok ((compareOperands .lessThan true (some (.integer 0 : Value Unit Unit))
        (some (.integer 1))).map .boolean) :=
  ((comparison_simplification (fun _ => some (.integer 0 : Value Unit Unit))).2 (dateBefore 1)
    .date (.column ()) _ (some 0) (some 0) rfl rfl
    (fun _ hv => Option.some.inj hv ▸ (by decide : IntBounds true 8 1)) rfl rfl).mpr
    fun h => absurd (Option.some.inj h.2.2.1) (by decide)

/-- Negative infinity is not below `make_timestamp(-9223372036854775808)`, but before its day. -/
theorem comparison_simplification_least :
    ∃ e, ComparisonSimplificationRule.apply (dateBefore leastTimestamp) = some e ∧
      castColumn .date .timestamp (some dateNinfinity) = some (some timestampNinfinity) ∧
      eval (fun _ => some (.integer dateNinfinity)) e = .ok (some (.boolean true)) ∧
      compareOperands .lessThan true (some (.integer timestampNinfinity : Value Unit Unit))
        (some (.integer leastTimestamp)) = some false := by
  exact ⟨_, rfl, rfl, rfl, rfl⟩

end MiniDuck
