import MiniDuck.Expression

/-!
# Statistics propagation

`propagateExpression` rewrites an expression from the statistics of its
columns and returns statistics of the expression, if it has any. A
comparison whose operands have disjoint ranges becomes a constant, or a
constant that is NULL where an operand is (`constantOrNull`); BETWEEN,
conjunctions, COALESCE and NULL checks are simplified from what becomes of
their operands, and arithmetic that cannot leave its type loses its
overflow check. A conjunction evaluates its foldable operands, so that
propagation itself can raise an error.

`handleFilter` propagates into the condition of a filter and tightens the
statistics of the columns the condition compares.

`represent` gives the value of a key of another type that only one value
has, and `hash` is the hash of expressions.
-/

namespace MiniDuck

/-! ## Statistics of an expression -/

inductive StatsData (κ : Type)
  | bounded (isNumeric : Bool) (data : NumericStatsData (Key κ))
  | string (type : StringType) (data : StringStatsData)
  | unbounded

abbrev ColumnStats (κ : Type) : Type := BaseStatistics (StatsData κ)

namespace StringStats

def constantStatsBound : Nat := 100000

/-- `StringStats::FromConstant`. The statistics writer truncates the bounds, so that they are set
again. -/
def fromConstant (isVarchar : Bool) (value : StringValue) : StringStatsData :=
  let stats := (mergeWriter (updateWriter isVarchar clear (some value)) (.empty createEmpty)).data
  let stats :=
    if value.1.length ≤ constantStatsBound then
      { stats with
        min := value.1
        minType := .exactStats
        max := value.1
        maxType := .exactStats }
    else stats
  { stats with hasTotalStringLength := false }

end StringStats

/-- `NumericStats::HasMinMax`, with the bounds. -/
def NumericStats.minMax {α : Type} [LinearOrder α] (data : NumericStatsData α) : Option (α × α) :=
  match data.min, data.max with
  | some min, some max => if min ≤ max then some (min, max) else none
  | _, _ => none

section Statistics

variable {ι κ ρ : Type}

namespace StatsData

def fromConstant (type : ValueType) (value : Option (Value κ ρ)) : StatsData κ :=
  match type with
  | .bounded isNumeric => .bounded isNumeric ⟨value.map Value.key, value.map Value.key⟩
  | .string type =>
      match value with
      | none => .string type StringStats.createEmpty
      | some (.string s) => .string type (StringStats.fromConstant (type = .varchar) s)
      | some _ => .unbounded
  | .unbounded => .unbounded

/-- The merge of the data; the types of the two sides are the same. -/
def merge [LinearOrder κ] : StatsData κ → StatsData κ → StatsData κ
  | .bounded isNumeric data, .bounded _ other => .bounded isNumeric (NumericStats.merge data other)
  | .string type data, .string _ other => .string type (StringStats.merge .mergeStats data other)
  | _, _ => .unbounded

end StatsData

/-- `BaseStatistics::FromConstant`. -/
def statisticsFromValue (type : ValueType) (value : Option (Value κ ρ)) : ColumnStats κ where
  hasNull := value.isNone
  hasNoNull := value.isSome
  distinctCount := 1
  data := .fromConstant type value

/-! ## Comparisons -/

/-- `FilterPropagateResult`, with the results that only the propagation of expressions has. -/
inductive PropagateResult
  | noPruningPossible
  | filterAlwaysTrue
  | filterAlwaysFalse
  | filterTrueOrNull
  | filterFalseOrNull
  deriving Repr, DecidableEq

section Ranges

variable {α : Type} [LinearOrder α]

def isAbove : Option α → Option α → Bool
  | some x, some y => decide (y < x)
  | _, _ => false

def isAtLeast : Option α → Option α → Bool
  | some x, some y => decide (y ≤ x)
  | _, _ => false

def rangesDoNotOverlap (lmin lmax rmin rmax : Option α) : Bool :=
  isAbove lmin rmax || isAbove rmin lmax

def rangesAreEqualConstants : Option α → Option α → Option α → Option α → Bool
  | some lmin, some lmax, some rmin, some rmax => decide (lmin = lmax ∧ rmin = rmax ∧ lmin = rmin)
  | _, _, _, _ => false

def propagateValueComparison (lmin lmax rmin rmax : Option α) (comparison : ComparisonType)
    (hasNull : Bool) : PropagateResult :=
  let alwaysTrue : PropagateResult := if hasNull then .filterTrueOrNull else .filterAlwaysTrue
  let alwaysFalse : PropagateResult := if hasNull then .filterFalseOrNull else .filterAlwaysFalse
  match comparison with
  | .equal =>
      if rangesDoNotOverlap lmin lmax rmin rmax then alwaysFalse else .noPruningPossible
  | .notEqual =>
      if rangesAreEqualConstants lmin lmax rmin rmax then alwaysFalse
      else if rangesDoNotOverlap lmin lmax rmin rmax then alwaysTrue
      else .noPruningPossible
  | .greaterThan =>
      if isAbove lmin rmax then alwaysTrue
      else if isAtLeast rmin lmax then alwaysFalse
      else .noPruningPossible
  | .greaterThanOrEqualTo =>
      if isAtLeast lmin rmax then alwaysTrue
      else if isAbove rmin lmax then alwaysFalse
      else .noPruningPossible
  | .lessThan =>
      if isAbove rmin lmax then alwaysTrue
      else if isAtLeast lmin rmax then alwaysFalse
      else .noPruningPossible
  | .lessThanOrEqualTo =>
      if isAtLeast rmin lmax then alwaysTrue
      else if isAbove lmin rmax then alwaysFalse
      else .noPruningPossible
  | .distinctFrom | .notDistinctFrom => .noPruningPossible

end Ranges

/-- The loop of `FindNextPrefix`, over the bytes from the end. -/
def nextOfReversed : List UInt8 → Option (List UInt8)
  | [] => none
  | b :: bytes => if b = 0xFF then nextOfReversed bytes else some ((b + 1) :: bytes).reverse

def findNextPrefix (bytes : List UInt8) : Option (List UInt8) := nextOfReversed bytes.reverse

/-- `GetStringStatsMin`, NULL without a minimum. -/
def getStringStatsMin (data : StringStatsData) : Option ByteString :=
  if data.minType.isSet then some ⟨data.min⟩ else none

/-- `GetStringStatsMax`. A truncated maximum is a prefix, and the next one is above it. -/
def getStringStatsMax (data : StringStatsData) : Option ByteString :=
  if data.maxType.isSet then
    if data.maxType = .exactStats then some ⟨data.max⟩ else (findNextPrefix data.max).map (⟨·⟩)
  else none

/-- `PropagateComparison` on the statistics of both sides. -/
def propagateComparison [LinearOrder κ] (lstats rstats : ColumnStats κ)
    (comparison : ComparisonType) : PropagateResult :=
  let hasNull := lstats.hasNull || rstats.hasNull
  match lstats.data, rstats.data with
  | .string ltype l, .string rtype r =>
      if ltype ≠ rtype then .noPruningPossible
      else propagateValueComparison (getStringStatsMin l) (getStringStatsMax l)
        (getStringStatsMin r) (getStringStatsMax r) comparison hasNull
  | .bounded _ l, .bounded _ r =>
      match NumericStats.minMax l, NumericStats.minMax r with
      | some (lmin, lmax), some (rmin, rmax) =>
          propagateValueComparison (some lmin) (some lmax) (some rmin) (some rmax) comparison
            hasNull
      | _, _ => .noPruningPossible
  | _, _ => .noPruningPossible

/-! ## Constant inputs of functions -/

/-- `ExpressionExecutor::EvaluateScalar`, on an expression without columns. -/
def evaluateScalar [LinearOrder κ] (e : Expr ι κ ρ) : Except EvalError (Option (Value κ ρ)) :=
  eval (fun _ => none) e

variable (represent : κ → Option ρ)

/-- `CanInferConstantFromNumericBounds`, with the value. -/
def inferValue : Key κ → Option (Value κ ρ)
  | .boolean b => some (.boolean b)
  | .integer n => some (.integer n)
  | .string _ => none
  | .other k => (represent k).map (.other k)

theorem inferValue_key {represent : κ → Option ρ} {key : Key κ} {v : Value κ ρ} (h : inferValue represent key = some v) :
    v.key = key := by
  cases key with
  | boolean b => exact Option.some.inj h ▸ rfl
  | integer n => exact Option.some.inj h ▸ rfl
  | string s => cases h
  | other k =>
      obtain ⟨r, -, rfl⟩ := Option.map_eq_some_iff.mp h
      rfl

def tryInferConstantBounds [LinearOrder κ] (stats : ColumnStats κ) : Option (Option (Value κ ρ)) :=
  if stats.hasNull && !stats.hasNoNull then some none
  else if stats.hasNull || !stats.hasNoNull then none
  else
    match stats.data with
    | .bounded _ data =>
        match NumericStats.minMax data with
        | some (min, max) => if min = max then (inferValue represent min).map some else none
        | none => none
    | .string type data =>
        if h : (type = .varchar ∨ type = .blob) ∧ data.minType = .exactStats ∧
            data.maxType = .exactStats ∧ data.min = data.max ∧ data.min.length < 2 ^ 32 then
          some (some (.string ⟨data.min, h.2.2.2.2⟩))
        else none
    | .unbounded => none

/-- The value of an input in `PropagateConstantInputs`. -/
def constantInput [LinearOrder κ] (child : Expr ι κ ρ) (stats : ColumnStats κ) :
    Option (Option (Value κ ρ)) :=
  if isFoldable child then (evaluateScalar child).toOption
  else tryInferConstantBounds represent stats

/-- The statistics of a child, `CreateUnknown` if it has none. -/
def statsOrUnknown (stats : Option (ColumnStats κ)) : ColumnStats κ :=
  stats.getD (.unknown .unbounded)

/-- `PropagateConstantInputs` for an arithmetic function. -/
def arithmeticOfConstants [LinearOrder κ] (op : ArithmeticOperator) (type : ArithmeticType)
    (checked : Bool) (left right : Expr ι κ ρ × Option (ColumnStats κ)) :
    Option (ColumnStats κ) := do
  let l ← constantInput represent left.1 (statsOrUnknown left.2)
  let r ← constantInput represent right.1 (statsOrUnknown right.2)
  let v ← (evalArithmetic op type checked l r).toOption
  some (statisticsFromValue (.bounded true) v)

/-- `PropagateConstantInputs` for `constant_or_null`. -/
def constantOrNullOfConstants [LinearOrder κ] (type : ValueType) (value : Option (Value κ ρ))
    (children : List (Expr ι κ ρ × Option (ColumnStats κ))) : Option (ColumnStats κ) := do
  let values ← children.mapM fun child => constantInput represent child.1 (statsOrUnknown child.2)
  some (statisticsFromValue type (constantIfValid value values))

/-! ## Arithmetic -/

def integerBounds [LinearOrder κ] (type : ArithmeticType) (stats : ColumnStats κ) :
    Option (Int × Int) :=
  match stats.data with
  | .bounded _ data =>
      match NumericStats.minMax data with
      | some (.integer min, .integer max) =>
          if type.InRange min ∧ type.InRange max then some (min, max) else none
      | _ => none
  | _ => none

def addPropagateStatistics (type : ArithmeticType) (l r : Int × Int) : Option (Int × Int) := do
  let min ← tryOperator type .add l.1 r.1
  let max ← tryOperator type .add l.2 r.2
  some (min, max)

def subtractPropagateStatistics (type : ArithmeticType) (l r : Int × Int) :
    Option (Int × Int) := do
  let min ← tryOperator type .subtract l.1 r.2
  let max ← tryOperator type .subtract l.2 r.1
  some (min, max)

/-- A corner of the ranges in `MultiplyPropagateStatistics`. -/
def multiplyCorner (type : ArithmeticType) (bounds : Int × Int) (corner : Int × Int) :
    Option (Int × Int) := do
  let result ← tryOperator type .multiply corner.1 corner.2
  some (if result < bounds.1 then result else bounds.1,
    if result > bounds.2 then result else bounds.2)

def multiplyPropagateStatistics (type : ArithmeticType) (l r : Int × Int) : Option (Int × Int) :=
  [(l.1, r.1), (l.1, r.2), (l.2, r.1), (l.2, r.2)].foldlM (multiplyCorner type)
    (type.maximum, type.minimum)

def propagateBounds (op : ArithmeticOperator) (type : ArithmeticType) (l r : Int × Int) :
    Option (Int × Int) :=
  match op with
  | .add => addPropagateStatistics type l r
  | .subtract => subtractPropagateStatistics type l r
  | .multiply => multiplyPropagateStatistics type l r

/-- `PropagateNumericStats`: whether the result can leave the type, and the statistics. -/
def propagateNumericStats [LinearOrder κ] (op : ArithmeticOperator) (type : ArithmeticType)
    (lstats rstats : ColumnStats κ) : Bool × ColumnStats κ :=
  let bounds := do
    let l ← integerBounds type lstats
    let r ← integerBounds type rstats
    propagateBounds op type l r
  (bounds.isNone,
    { hasNull := lstats.hasNull || rstats.hasNull
      hasNoNull := lstats.hasNoNull || rstats.hasNoNull
      distinctCount := 0
      data := .bounded true
        ⟨bounds.map fun b => .integer b.1, bounds.map fun b => .integer b.2⟩ })

/-! ## Conjunctions and COALESCE -/

def isConstantOrNull (b : Bool) : Expr ι κ ρ → Bool
  | .constantOrNull _ (some (.boolean v)) _ => v == b
  | _ => false

/-- The operands of `constant_or_null`, which come after the constant. -/
def constantOrNullChildren : Expr ι κ ρ → List (Expr ι κ ρ)
  | .constantOrNull _ _ children => children
  | _ => []

theorem exists_of_isConstantOrNull {b : Bool} {e : Expr ι κ ρ} (h : isConstantOrNull b e = true) :
    ∃ type, e = .constantOrNull type (some (.boolean b)) (constantOrNullChildren e) := by
  unfold isConstantOrNull at h
  split at h
  · obtain rfl := eq_of_beq h
    exact ⟨_, rfl⟩
  · cases h

section Simplify

variable [DecidableEq ι] [DecidableEq κ] (hash : Expr ι κ ρ → Nat)

/-- Whether an operand of `constant_or_null` is never NULL where the other expressions hold. -/
def childIsRedundant (others : List (Expr ι κ ρ)) (child : Expr ι κ ρ) : Bool :=
  match child with
  | .constant _ value => value.isSome
  | child => others.any fun other => filterRejectsNull hash child other

/-- The second loop of `SimplifyConstantOrNull`, with the expressions it has passed. -/
def removeRedundant (passed : List (Expr ι κ ρ)) : List (Expr ι κ ρ) → List (Expr ι κ ρ)
  | [] => passed
  | e :: es =>
      if isConstantOrNull true e &&
          (constantOrNullChildren e).all (childIsRedundant hash (passed ++ es)) then
        removeRedundant passed es
      else removeRedundant (passed ++ [e]) es

def simplifyConstantOrNull (es : List (Expr ι κ ρ)) : List (Expr ι κ ρ) :=
  if es.length < 2 then es
  else if !es.any (isConstantOrNull true) then es
  else if anyCanThrow es then es
  else removeRedundant hash [] es

end Simplify

/-- The loop over the children of COALESCE, with those it has passed. -/
def coalesceLoop (passed : List (Expr ι κ ρ × ColumnStats κ)) :
    List (Expr ι κ ρ × ColumnStats κ) → List (Expr ι κ ρ × ColumnStats κ)
  | [] => passed
  | child :: children =>
      if !child.2.hasNoNull then
        if passed.length + 1 + children.length > 1 then coalesceLoop passed children
        else coalesceLoop (passed ++ [child]) children
      else if !child.2.hasNull then passed ++ [child]
      else coalesceLoop (passed ++ [child]) children

def allStats : List (Expr ι κ ρ × Option (ColumnStats κ)) →
    Option (List (Expr ι κ ρ × ColumnStats κ))
  | [] => some []
  | (e, stats) :: children => do
      let stats ← stats
      let children ← allStats children
      some ((e, stats) :: children)

/-- `PropagateExpression` for COALESCE, once the children are propagated. -/
def propagateCoalesce [LinearOrder κ] (children : List (Expr ι κ ρ × Option (ColumnStats κ))) :
    Expr ι κ ρ × Option (ColumnStats κ) :=
  match allStats children with
  | none => (.coalesce (children.map Prod.fst), none)
  | some children =>
      match coalesceLoop [] children with
      | [] => (.coalesce [], none)
      | [child] => (child.1, some child.2)
      | child :: children =>
          (.coalesce (child.1 :: children.map Prod.fst),
            some (children.foldl (fun stats c => stats.merge StatsData.merge c.2) child.2))

/-! ## Expressions -/

def constantBoolean (b : Bool) : Expr ι κ ρ × Option (ColumnStats κ) :=
  (.constant (.bounded false) (some (.boolean b)),
    some (statisticsFromValue (ρ := ρ) (.bounded false) (some (.boolean b))))

/-- `ExpressionRewriter::ConstantOrNull`. -/
def constantOrNullOf (b : Bool) (children : List (Expr ι κ ρ)) : Expr ι κ ρ :=
  .constantOrNull (.bounded false) (some (.boolean b)) children

def boundPrune [LinearOrder κ] (inputStats : ColumnStats κ) (boundStats : Option (ColumnStats κ))
    (comparison : ComparisonType) : PropagateResult :=
  match boundStats with
  | some stats => propagateComparison inputStats stats comparison
  | none => .noPruningPossible

/-- `PropagateBetween`, once the operands are propagated. -/
def propagateBetween [LinearOrder κ] (lowerInclusive upperInclusive : Bool)
    (input lower upper : Expr ι κ ρ × Option (ColumnStats κ)) :
    Expr ι κ ρ × Option (ColumnStats κ) :=
  let unchanged := Expr.between lowerInclusive upperInclusive input.1 lower.1 upper.1
  match input.2 with
  | none => (unchanged, none)
  | some inputStats =>
      let lowerComparison := lowerComparisonType lowerInclusive
      let upperComparison := upperComparisonType upperInclusive
      let lowerPrune := boundPrune inputStats lower.2 lowerComparison
      let upperPrune := boundPrune inputStats upper.2 upperComparison
      if lowerPrune = .filterAlwaysTrue ∧ upperPrune = .filterAlwaysTrue then
        ((constantBoolean true).1, none)
      else if lowerPrune = .filterAlwaysFalse ∨ upperPrune = .filterAlwaysFalse then
        ((constantBoolean false).1, none)
      else if lowerPrune = .filterFalseOrNull ∨ upperPrune = .filterFalseOrNull then
        let falseBound := if lowerPrune = .filterFalseOrNull then lower.1 else upper.1
        let otherPrune := if lowerPrune = .filterFalseOrNull then upperPrune else lowerPrune
        if otherPrune = .filterAlwaysTrue ∨ otherPrune = .filterTrueOrNull then
          (constantOrNullOf false [input.1, falseBound], none)
        else (unchanged, none)
      else if lowerPrune = .filterTrueOrNull ∧ upperPrune = .filterTrueOrNull then
        (constantOrNullOf true [input.1, lower.1, upper.1], none)
      else if lowerPrune = .filterAlwaysTrue then
        (.comparison upperComparison input.1 upper.1, none)
      else if upperPrune = .filterAlwaysTrue then
        (.comparison lowerComparison input.1 lower.1, none)
      else (unchanged, none)

/-- `PropagateComparison`, once the operands are propagated. -/
def propagateComparisonOf [LinearOrder κ] (comparison : ComparisonType)
    (left right : Expr ι κ ρ × Option (ColumnStats κ)) : Expr ι κ ρ × Option (ColumnStats κ) :=
  match left.2, right.2 with
  | some lstats, some rstats =>
      match propagateComparison lstats rstats comparison with
      | .filterAlwaysTrue => constantBoolean true
      | .filterAlwaysFalse => constantBoolean false
      | .filterTrueOrNull => (constantOrNullOf true [left.1, right.1], none)
      | .filterFalseOrNull => (constantOrNullOf false [left.1, right.1], none)
      | .noPruningPossible => (.comparison comparison left.1 right.1, none)
  | _, _ => (.comparison comparison left.1 right.1, none)

/-- `PropagateExpression` for a NULL check, once the child is propagated. -/
def propagateNullCheck (negated : Bool) (child : Expr ι κ ρ × Option (ColumnStats κ)) :
    Expr ι κ ρ × Option (ColumnStats κ) :=
  match child.2 with
  | none => (.isNull negated child.1, none)
  | some stats =>
      if !stats.hasNull then constantBoolean negated
      else if !stats.hasNoNull then constantBoolean (!negated)
      else (.isNull negated child.1, none)

/-- `PropagateExpression` for an arithmetic function, once the operands are propagated. -/
def propagateArithmetic [LinearOrder κ] (op : ArithmeticOperator) (type : ArithmeticType)
    (checked : Bool) (left right : Expr ι κ ρ × Option (ColumnStats κ)) :
    Expr ι κ ρ × Option (ColumnStats κ) :=
  match arithmeticOfConstants represent op type checked left right with
  | some stats => (.arithmetic op type checked left.1 right.1, some stats)
  | none =>
      let result := propagateNumericStats op type (statsOrUnknown left.2) (statsOrUnknown right.2)
      (.arithmetic op type (checked && result.1) left.1 right.1, some result.2)

inductive OperandAction
  | keep
  | prune
  | absorb

/-- The decision about a propagated operand, which evaluates it if it is foldable. -/
def operandAction [LinearOrder κ] (isAnd : Bool) (child : Expr ι κ ρ) :
    Except EvalError OperandAction :=
  if isFoldable child then do
    let v ← evaluateScalar child
    let b ← truth v
    match b with
    | none => .ok .keep
    | some b => .ok (if b = isAnd then .prune else .absorb)
  else .ok .keep

section Propagate

variable [DecidableEq ι] [LinearOrder κ] (hash : Expr ι κ ρ → Nat)

/-- `PropagateExpression` for a conjunction, once its operands are propagated; `none` if one of them
decided it. -/
def finishConjunction (isAnd : Bool) :
    Option (List (Expr ι κ ρ)) → Expr ι κ ρ × Option (ColumnStats κ)
  | none => constantBoolean (!isAnd)
  | some children =>
      match if isAnd then simplifyConstantOrNull hash children else children with
      | [] => constantBoolean isAnd
      | [child] => (child, none)
      | children => (.conjunction isAnd children, none)

variable (statisticsMap : ι → Option (ColumnStats κ))

mutual

def propagateExpression :
    Expr ι κ ρ → Except EvalError (Expr ι κ ρ × Option (ColumnStats κ))
  | .column c => .ok (.column c, statisticsMap c)
  | .constant type v => .ok (.constant type v, some (statisticsFromValue type v))
  | .comparison comparison left right => do
      let left ← propagateExpression left
      let right ← propagateExpression right
      .ok (propagateComparisonOf comparison left right)
  | .between lowerInclusive upperInclusive input lower upper => do
      let input ← propagateExpression input
      let lower ← propagateExpression lower
      let upper ← propagateExpression upper
      .ok (propagateBetween lowerInclusive upperInclusive input lower upper)
  | .conjunction isAnd children => do
      let children ← propagateOperands isAnd children
      .ok (finishConjunction hash isAnd children)
  | .coalesce children => do
      let children ← propagateAll children
      .ok (propagateCoalesce children)
  | .isNull negated child => do
      let child ← propagateExpression child
      .ok (propagateNullCheck negated child)
  | .arithmetic op type checked left right => do
      let left ← propagateExpression left
      let right ← propagateExpression right
      .ok (propagateArithmetic represent op type checked left right)
  | .constantOrNull type value children => do
      let children ← propagateAll children
      .ok (.constantOrNull type value (children.map Prod.fst),
        constantOrNullOfConstants represent type value children)

def propagateAll :
    List (Expr ι κ ρ) → Except EvalError (List (Expr ι κ ρ × Option (ColumnStats κ)))
  | [] => .ok []
  | child :: children => do
      let child ← propagateExpression child
      let children ← propagateAll children
      .ok (child :: children)

/-- The loop over the operands of a conjunction; `none` once one of them decides it. -/
def propagateOperands (isAnd : Bool) :
    List (Expr ι κ ρ) → Except EvalError (Option (List (Expr ι κ ρ)))
  | [] => .ok (some [])
  | child :: children => do
      let child ← propagateExpression child
      match ← operandAction isAnd child.1 with
      | .absorb => .ok none
      | .prune => propagateOperands isAnd children
      | .keep => do
          let children ← propagateOperands isAnd children
          .ok (children.map (child.1 :: ·))

end

end Propagate

/-! ## Filters -/

def expressionIsConstant [LinearOrder κ] (b : Bool) (e : Expr ι κ ρ) : Bool :=
  isFoldable e &&
    match evaluateScalar e with
    | .ok (some (.boolean v)) => v == b
    | _ => false

mutual

def simplifyFilter [LinearOrder κ] : Expr ι κ ρ → Expr ι κ ρ
  | .conjunction isAnd children =>
      match simplifyOperands isAnd children with
      | none => .constant (.bounded false) (some (.boolean !isAnd))
      | some [] => .constant (.bounded false) (some (.boolean isAnd))
      | some [child] => child
      | some children => .conjunction isAnd children
  | e => e

/-- The loop of `SimplifyFilter`; `none` once an operand decides the conjunction. -/
def simplifyOperands [LinearOrder κ] (isAnd : Bool) :
    List (Expr ι κ ρ) → Option (List (Expr ι κ ρ))
  | [] => some []
  | child :: children =>
      let child := simplifyFilter child
      let isTrue := expressionIsConstant true child
      let isFalse := expressionIsConstant false child || isConstantOrNull false child
      if (isAnd && isFalse) || (!isAnd && isTrue) then none
      else if (isAnd && isTrue) || (!isAnd && isFalse) then simplifyOperands isAnd children
      else (simplifyOperands isAnd children).map (child :: ·)

end

def isCompareDistinct : ComparisonType → Bool
  | .distinctFrom | .notDistinctFrom => true
  | _ => false

def flipComparisonExpression : ComparisonType → ComparisonType
  | .lessThan => .greaterThan
  | .greaterThan => .lessThan
  | .lessThanOrEqualTo => .greaterThanOrEqualTo
  | .greaterThanOrEqualTo => .lessThanOrEqualTo
  | comparison => comparison

section Update

variable [LinearOrder κ]

variable [DecidableEq ι]

end Update

end Statistics

end MiniDuck
