import MiniDuck.Bisection
import MiniDuck.Rule

/-!
# Preimages of monotone functions

A comparison between a monotone function of a column and a constant says
that the column lies in an interval. `MonotonePreimageRule` finds the
interval by bisection over the values of the column's type, and replaces
the comparison by bounds of the column.

`preimage_cases` is the search: the ten cases of operator and direction
all come out as the interval of the values that the comparison selects.
`makeFilter_eval` is the other half: whatever bounds are dropped or
written against an infinity, the result selects that interval.

Dates and timestamps compare as integers, with the infinities at both
ends, except that the least integer is no infinity either and lies below
them. The bounds never select it.
-/

namespace MiniDuck

inductive Monotonicity
  | unknown
  | constant
  | nonDecreasing
  | strictlyIncreasing
  | nonIncreasing
  | strictlyDecreasing
  deriving Repr, DecidableEq

def Monotonicity.isMonotonicIncreasing (m : Monotonicity) : Bool :=
  m = .nonDecreasing || m = .strictlyIncreasing

def Monotonicity.isKnownMonotonic (m : Monotonicity) : Bool := m ≠ .unknown

inductive FunctionStability
  | consistent
  | volatile
  | consistentWithinQuery
  deriving Repr, DecidableEq

/-- The column types that the rule tells apart. -/
inductive ColumnType
  | tinyint
  | smallint
  | integer
  | date
  | timestamp
  | timestampTz
  | other
  deriving Repr, DecidableEq

namespace ColumnType

def physical : ColumnType → IntWidth
  | .tinyint => .w8
  | .smallint => .w16
  | .integer | .date => .w32
  | .timestamp | .timestampTz | .other => .w64

/-- `Value::Infinity`, which only dates and timestamps have. -/
def infinity (type : ColumnType) : Int := intMaximum true type.physical

def negativeInfinity (type : ColumnType) : Int := -type.infinity

def valueType : ColumnType → ValueType
  | .tinyint | .smallint | .integer => .bounded true
  | .date | .timestamp | .timestampTz => .bounded false
  | .other => .unbounded

def InRange (type : ColumnType) (v : Int) : Prop :=
  intMinimum true type.physical ≤ v ∧ v ≤ intMaximum true type.physical

end ColumnType

/-- The values that a function is evaluated at. -/
structure FiniteDomain where
  lo : Int
  hi : Int
  hasInfinity : Bool
  deriving Repr, DecidableEq

def getFiniteDomain : ColumnType → Option FiniteDomain
  | .tinyint => some ⟨intMinimum true .w8, intMaximum true .w8, false⟩
  | .smallint => some ⟨intMinimum true .w16, intMaximum true .w16, false⟩
  | .integer => some ⟨intMinimum true .w32, intMaximum true .w32, false⟩
  | .date =>
      some ⟨ColumnType.date.negativeInfinity + 1, ColumnType.date.infinity - 1, true⟩
  | .timestamp | .timestampTz =>
      some ⟨ColumnType.timestamp.negativeInfinity + 1, ColumnType.timestamp.infinity - 1, true⟩
  | .other => none

/-- `Value::MinimumValue` of a timestamp, the midnight of 290309-12-22 (BC). -/
def minimumTimestamp : Int := -106751991 * 86400000000

def isRenderableBound (type : ColumnType) (bound : Int) : Bool :=
  match type with
  | .timestamp | .timestampTz => minimumTimestamp ≤ bound
  | _ => true

section Preimage

open Bisection

/-- The interval of the column between its ends, which are not in order if it is empty. -/
def preimage (increasing : Bool) (comparison : ComparisonType) (ge gt : Int → Option Bool)
    (lo hi : Int) : Except Stop (Int × Int) :=
  if increasing then
    match comparison with
    | .greaterThanOrEqualTo => do
        let xGe ← firstTrueSuffix ge lo hi
        return (xGe, hi)
    | .greaterThan => do
        let xGt ← firstTrueSuffix gt lo hi
        return (xGt, hi)
    | .lessThan => do
        let xGe ← firstTrueSuffix ge lo hi
        return (lo, ← signed (xGe - 1))
    | .lessThanOrEqualTo => do
        let xGt ← firstTrueSuffix gt lo hi
        return (lo, ← signed (xGt - 1))
    | _ => do
        let xGe ← firstTrueSuffix ge lo hi
        let xGt ← firstTrueSuffix gt lo hi
        return (xGe, ← signed (xGt - 1))
  else
    match comparison with
    | .greaterThanOrEqualTo => do
        let yGe ← lastTruePrefix ge lo hi
        return (lo, yGe)
    | .greaterThan => do
        let yGt ← lastTruePrefix gt lo hi
        return (lo, yGt)
    | .lessThan => do
        let yGe ← lastTruePrefix ge lo hi
        return (← signed (yGe + 1), hi)
    | .lessThanOrEqualTo => do
        let yGt ← lastTruePrefix gt lo hi
        return (← signed (yGt + 1), hi)
    | _ => do
        let yGe ← lastTruePrefix ge lo hi
        let yGt ← lastTruePrefix gt lo hi
        return (← signed (yGt + 1), yGe)

def isRewritten : ComparisonType → Bool
  | .equal | .lessThan | .lessThanOrEqualTo | .greaterThan | .greaterThanOrEqualTo => true
  | _ => false

/-- What a comparison says in terms of the two predicates of the search. -/
def Selects (comparison : ComparisonType) (ge gt : Option Bool) : Prop :=
  match comparison with
  | .greaterThanOrEqualTo => ge = some true
  | .greaterThan => gt = some true
  | .lessThan => ¬ ge = some true
  | .lessThanOrEqualTo => ¬ gt = some true
  | _ => ge = some true ∧ ¬ gt = some true

/-- A predicate holds on a suffix if the function increases, and on a prefix if it decreases. -/
def Steps (increasing : Bool) (pred : Int → Option Bool) (lo hi : Int) : Prop :=
  match increasing with
  | true => ∀ i j, lo ≤ i → i ≤ j → j ≤ hi → pred i = some true → pred j = some true
  | false => ∀ i j, lo ≤ i → i ≤ j → j ≤ hi → pred j = some true → pred i = some true

variable {increasing : Bool} {comparison : ComparisonType} {ge gt : Int → Option Bool}
  {lo hi : Int}

def IsPreimage (increasing : Bool) (comparison : ComparisonType) (ge gt : Int → Option Bool)
    (lo hi : Int) (ends : Int × Int) : Prop :=
  Steps increasing ge lo hi → Steps increasing gt lo hi →
    ∀ i, lo ≤ i → i ≤ hi → (Selects comparison (ge i) (gt i) ↔ ends.1 ≤ i ∧ i ≤ ends.2)

/-- The search ends in an interval, or at a probe that cannot be evaluated. -/
def Bounded (increasing : Bool) (comparison : ComparisonType) (ge gt : Int → Option Bool)
    (lo hi : Int) : Prop :=
  (∃ ends, preimage increasing comparison ge gt lo hi = .ok ends ∧
      IsPreimage increasing comparison ge gt lo hi ends) ∨
    (preimage increasing comparison ge gt lo hi = .error .probe ∧
      ∃ i, lo ≤ i ∧ i ≤ hi ∧ (ge i = none ∨ gt i = none))

theorem Bounded.ends {a b : Int} (hok : preimage increasing comparison ge gt lo hi = .ok (a, b))
    (hiff : IsPreimage increasing comparison ge gt lo hi (a, b)) :
    Bounded increasing comparison ge gt lo hi :=
  Or.inl ⟨(a, b), hok, hiff⟩

theorem Bounded.fails (hfail : preimage increasing comparison ge gt lo hi = .error .probe)
    {i : Int} (hlo : lo ≤ i) (hhi : i ≤ hi) (hnone : ge i = none ∨ gt i = none) :
    Bounded increasing comparison ge gt lo hi :=
  Or.inr ⟨hfail, i, hlo, hhi, hnone⟩

theorem preimage_increasing (hmin : -9223372036854775808 < lo) (hle : lo ≤ hi)
    (hmax : hi < 9223372036854775807) : Bounded true comparison ge gt lo hi := by
  have hge := firstTrueSuffix_cases ge (by omega) hle hmax
  have hgt := firstTrueSuffix_cases gt (by omega) hle hmax
  cases comparison with
  | greaterThanOrEqualTo =>
      rcases hge with ⟨x, hx, hlo, hhi, hiff⟩ | ⟨hx, i, hi, hi', hnone⟩
      · refine Bounded.ends (by simp only [preimage, hx]; rfl) fun hsteps _ i hi hi' => ?_
        rw [Selects, hiff hsteps i hi hi']
        omega
      · exact Bounded.fails (by simp only [preimage, hx]; rfl) hi hi' (Or.inl hnone)
  | greaterThan =>
      rcases hgt with ⟨x, hx, hlo, hhi, hiff⟩ | ⟨hx, i, hi, hi', hnone⟩
      · refine Bounded.ends (by simp only [preimage, hx]; rfl) fun _ hsteps i hi hi' => ?_
        rw [Selects, hiff hsteps i hi hi']
        omega
      · exact Bounded.fails (by simp only [preimage, hx]; rfl) hi hi' (Or.inr hnone)
  | lessThan =>
      rcases hge with ⟨x, hx, hlo, hhi, hiff⟩ | ⟨hx, i, hi, hi', hnone⟩
      · have hpred := signed_ok (v := x - 1) (by omega) (by omega)
        refine Bounded.ends (by simp only [preimage, hx, bind, Except.bind, hpred]; rfl)
          fun hsteps _ i hi hi' => ?_
        rw [Selects, hiff hsteps i hi hi']
        omega
      · exact Bounded.fails (by simp only [preimage, hx]; rfl) hi hi' (Or.inl hnone)
  | lessThanOrEqualTo =>
      rcases hgt with ⟨x, hx, hlo, hhi, hiff⟩ | ⟨hx, i, hi, hi', hnone⟩
      · have hpred := signed_ok (v := x - 1) (by omega) (by omega)
        refine Bounded.ends (by simp only [preimage, hx, bind, Except.bind, hpred]; rfl)
          fun _ hsteps i hi hi' => ?_
        rw [Selects, hiff hsteps i hi hi']
        omega
      · exact Bounded.fails (by simp only [preimage, hx]; rfl) hi hi' (Or.inr hnone)
  | equal | notDistinctFrom | notEqual | distinctFrom =>
      rcases hge with ⟨x, hx, hlo, hhi, hiff⟩ | ⟨hx, i, hi, hi', hnone⟩
      · rcases hgt with ⟨y, hy, hlo', hhi', hiff'⟩ | ⟨hy, i, hi, hi', hnone⟩
        · have hpred := signed_ok (v := y - 1) (by omega) (by omega)
          refine Bounded.ends (by simp only [preimage, hx, hy, bind, Except.bind, hpred]; rfl)
            fun hsteps hsteps' i hi hi' => ?_
          show (ge i = some true ∧ ¬ gt i = some true) ↔ _
          rw [hiff hsteps i hi hi', hiff' hsteps' i hi hi']
          omega
        · exact Bounded.fails (by simp only [preimage, hx, hy]; rfl) hi hi' (Or.inr hnone)
      · exact Bounded.fails (by simp only [preimage, hx]; rfl) hi hi' (Or.inl hnone)

theorem preimage_decreasing (hmin : -9223372036854775808 < lo) (hle : lo ≤ hi)
    (hmax : hi < 9223372036854775807) : Bounded false comparison ge gt lo hi := by
  have hge := lastTruePrefix_cases ge hmin hle (by omega)
  have hgt := lastTruePrefix_cases gt hmin hle (by omega)
  cases comparison with
  | greaterThanOrEqualTo =>
      rcases hge with ⟨x, hx, hlo, hhi, hiff⟩ | ⟨hx, i, hi, hi', hnone⟩
      · refine Bounded.ends (by simp only [preimage, hx]; rfl) fun hsteps _ i hi hi' => ?_
        rw [Selects, hiff hsteps i hi hi']
        omega
      · exact Bounded.fails (by simp only [preimage, hx]; rfl) hi hi' (Or.inl hnone)
  | greaterThan =>
      rcases hgt with ⟨x, hx, hlo, hhi, hiff⟩ | ⟨hx, i, hi, hi', hnone⟩
      · refine Bounded.ends (by simp only [preimage, hx]; rfl) fun _ hsteps i hi hi' => ?_
        rw [Selects, hiff hsteps i hi hi']
        omega
      · exact Bounded.fails (by simp only [preimage, hx]; rfl) hi hi' (Or.inr hnone)
  | lessThan =>
      rcases hge with ⟨x, hx, hlo, hhi, hiff⟩ | ⟨hx, i, hi, hi', hnone⟩
      · have hnext := signed_ok (v := x + 1) (by omega) (by omega)
        refine Bounded.ends (by simp only [preimage, hx, bind, Except.bind, hnext]; rfl)
          fun hsteps _ i hi hi' => ?_
        rw [Selects, hiff hsteps i hi hi']
        omega
      · exact Bounded.fails (by simp only [preimage, hx]; rfl) hi hi' (Or.inl hnone)
  | lessThanOrEqualTo =>
      rcases hgt with ⟨x, hx, hlo, hhi, hiff⟩ | ⟨hx, i, hi, hi', hnone⟩
      · have hnext := signed_ok (v := x + 1) (by omega) (by omega)
        refine Bounded.ends (by simp only [preimage, hx, bind, Except.bind, hnext]; rfl)
          fun _ hsteps i hi hi' => ?_
        rw [Selects, hiff hsteps i hi hi']
        omega
      · exact Bounded.fails (by simp only [preimage, hx]; rfl) hi hi' (Or.inr hnone)
  | equal | notDistinctFrom | notEqual | distinctFrom =>
      rcases hge with ⟨x, hx, hlo, hhi, hiff⟩ | ⟨hx, i, hi, hi', hnone⟩
      · rcases hgt with ⟨y, hy, hlo', hhi', hiff'⟩ | ⟨hy, i, hi, hi', hnone⟩
        · have hnext := signed_ok (v := y + 1) (by omega) (by omega)
          refine Bounded.ends (by simp only [preimage, hx, hy, bind, Except.bind, hnext]; rfl)
            fun hsteps hsteps' i hi hi' => ?_
          show (ge i = some true ∧ ¬ gt i = some true) ↔ _
          rw [hiff hsteps i hi hi', hiff' hsteps' i hi hi']
          omega
        · exact Bounded.fails (by simp only [preimage, hx, hy]; rfl) hi hi' (Or.inr hnone)
      · exact Bounded.fails (by simp only [preimage, hx]; rfl) hi hi' (Or.inl hnone)

theorem preimage_cases (hmin : -9223372036854775808 < lo) (hle : lo ≤ hi)
    (hmax : hi < 9223372036854775807) : Bounded increasing comparison ge gt lo hi := by
  cases increasing with
  | true => exact preimage_increasing hmin hle hmax
  | false => exact preimage_decreasing hmin hle hmax

end Preimage

/-! ## The bounds of the column -/

section Filter

variable {ι κ ρ : Type}

def compareWithBound (comparison : ComparisonType) (column : ι) (type : ColumnType) (bound : Int) :
    Expr ι κ ρ :=
  .comparison comparison (.column column) (.constant type.valueType (some (.integer bound)))

def makeColBound (lower : Bool) (column : ι) (type : ColumnType) (bound edge : Int)
    (hasInfinity : Bool) : Option (Expr ι κ ρ) :=
  if hasInfinity ∧ bound = edge then
    if lower then some (compareWithBound .greaterThan column type type.negativeInfinity)
    else some (compareWithBound .lessThan column type type.infinity)
  else if !isRenderableBound type bound then none
  else
    some (compareWithBound (if lower then .greaterThanOrEqualTo else .lessThanOrEqualTo) column type
      bound)

def makeFilter (column : ι) (type : ColumnType) (domain : FiniteDomain) (a b : Int) :
    Option (Expr ι κ ρ) :=
  let a := max a domain.lo
  let b := min b domain.hi
  if a > b then
    if domain.hasInfinity then none
    else some (.constantOrNull (.bounded false) (some (.boolean false)) [.column column])
  else
    let needLower := decide (a > domain.lo) || domain.hasInfinity
    let needUpper := decide (b < domain.hi) || domain.hasInfinity
    match needLower, needUpper with
    | false, false => none
    | true, false => makeColBound true column type a domain.lo domain.hasInfinity
    | false, true => makeColBound false column type b domain.hi domain.hasInfinity
    | true, true => do
        let lower ← makeColBound true column type a domain.lo domain.hasInfinity
        let upper ← makeColBound false column type b domain.hi domain.hasInfinity
        return .conjunction true [lower, upper]

variable {domain : FiniteDomain}

/-- The edges of the domain are next to the infinities or to the ends of the type. -/
theorem getFiniteDomain_edges {type : ColumnType} (h : getFiniteDomain type = some domain) :
    -9223372036854775808 < domain.lo ∧ domain.lo ≤ domain.hi ∧
      domain.hi < 9223372036854775807 ∧
      if domain.hasInfinity then
        domain.lo = type.negativeInfinity + 1 ∧ domain.hi = type.infinity - 1
      else domain.lo = intMinimum true type.physical ∧ domain.hi = intMaximum true type.physical := by
  cases type <;> cases h <;> decide

variable {row : ι → Option (Value κ ρ)} {column : ι} {type : ColumnType} {x : Option Int}

theorem ok_congr {p q : Int → Bool} (h : ∀ i ∈ x, p i = q i) :
    (Except.ok ((x.map p).map .boolean) : Except EvalError (Option (Value κ ρ))) =
      .ok ((x.map q).map .boolean) :=
  congrArg (fun b => Except.ok (Option.map Value.boolean b)) (Option.map_congr h)

variable [LinearOrder κ]

theorem compareWithBound_eval (hx : row column = x.map .integer) {comparison : ComparisonType}
    (hdistinct : comparison ≠ .distinctFrom) (hnot : comparison ≠ .notDistinctFrom)
    (bound : Int) :
    eval row (compareWithBound comparison column type bound) =
      .ok ((x.map fun i => comparison.holds (compare i bound)).map .boolean) := by
  rw [compareWithBound, eval_comparison]
  refine ⟨_, _, rfl, rfl, ?_⟩
  rw [hx]
  cases x with
  | none => cases comparison <;> first | rfl | contradiction
  | some i =>
      simp only [Option.map_some, compareValues, Value.key, compare_integer]

theorem makeColBound_lower (hx : row column = x.map .integer)
    (hdomain : getFiniteDomain type = some domain) {bound : Int} {e : Expr ι κ ρ}
    (h : makeColBound true column type bound domain.lo domain.hasInfinity = some e) :
    eval row e = .ok ((x.map fun i => decide (bound ≤ i)).map .boolean) := by
  obtain ⟨-, -, -, hedge⟩ := getFiniteDomain_edges hdomain
  unfold makeColBound at h
  split at h
  · rename_i hinf
    rw [if_pos hinf.1] at hedge
    obtain rfl := Option.some.inj h
    rw [compareWithBound_eval hx (by decide) (by decide)]
    refine ok_congr fun i _ => ?_
    rw [Bool.eq_iff_iff, decide_eq_true_iff, ComparisonType.holds, decide_eq_true_iff,
      compare_gt_iff_gt, hinf.2]
    omega
  · split at h
    · cases h
    · obtain rfl := Option.some.inj h
      rw [if_pos rfl, compareWithBound_eval hx (by decide) (by decide)]
      refine ok_congr fun i _ => ?_
      rw [Bool.eq_iff_iff, decide_eq_true_iff, ComparisonType.holds, decide_eq_true_iff,
        ne_eq, compare_lt_iff_lt, not_lt]

theorem makeColBound_upper (hx : row column = x.map .integer)
    (hdomain : getFiniteDomain type = some domain) {bound : Int} {e : Expr ι κ ρ}
    (h : makeColBound false column type bound domain.hi domain.hasInfinity = some e) :
    eval row e = .ok ((x.map fun i => decide (i ≤ bound)).map .boolean) := by
  obtain ⟨-, -, -, hedge⟩ := getFiniteDomain_edges hdomain
  unfold makeColBound at h
  split at h
  · rename_i hinf
    rw [if_pos hinf.1] at hedge
    obtain rfl := Option.some.inj h
    rw [compareWithBound_eval hx (by decide) (by decide)]
    refine ok_congr fun i _ => ?_
    rw [Bool.eq_iff_iff, decide_eq_true_iff, ComparisonType.holds, decide_eq_true_iff,
      compare_lt_iff_lt, hinf.2]
    omega
  · split at h
    · cases h
    · obtain rfl := Option.some.inj h
      rw [if_neg (by decide), compareWithBound_eval hx (by decide) (by decide)]
      refine ok_congr fun i _ => ?_
      rw [Bool.eq_iff_iff, decide_eq_true_iff, ComparisonType.holds, decide_eq_true_iff,
        ne_eq, compare_gt_iff_gt, not_lt]

theorem eval_and {l u : Expr ι κ ρ} {p q : Int → Bool}
    (hl : eval row l = .ok ((x.map p).map .boolean))
    (hu : eval row u = .ok ((x.map q).map .boolean)) :
    eval row (.conjunction true [l, u]) = .ok ((x.map fun i => p i && q i).map .boolean) := by
  rw [eval_conjunction]
  refine ⟨[x.map p, x.map q], ?_, ?_⟩
  · rw [evalTruths_eq_ok]
    exact List.Forall₂.cons hl (List.Forall₂.cons hu List.Forall₂.nil)
  · cases x with
    | none => rfl
    | some i =>
        simp only [Option.map_some]
        cases p i <;> cases q i <;> rfl

/-- The expression selects the values of the interval that lie in the domain. -/
theorem makeFilter_eval (hx : row column = x.map .integer) (hrange : ∀ i ∈ x, type.InRange i)
    (hdomain : getFiniteDomain type = some domain) {a b : Int} {e : Expr ι κ ρ}
    (h : makeFilter column type domain a b = some e) : eval row e = .ok ((x.map fun i =>
      decide ((a ≤ i ∧ domain.lo ≤ i) ∧ (i ≤ b ∧ i ≤ domain.hi))).map .boolean) := by
  obtain ⟨-, -, -, hedge⟩ := getFiniteDomain_edges hdomain
  unfold makeFilter at h
  simp only at h
  split at h
  · rename_i hempty
    split at h
    · cases h
    · obtain rfl := Option.some.inj h
      rw [eval_constantOrNull]
      refine ⟨[row column], by simp [evalAll, eval, bind, Except.bind], ?_⟩
      rw [hx]
      cases x with
      | none => rfl
      | some i =>
          refine congrArg (fun c => some (Value.boolean c)) ?_
          rw [decide_eq_false_iff_not]
          omega
  · split at h
    · cases h
    · rename_i hl hu
      rw [Bool.or_eq_true, decide_eq_true_iff] at hl
      rw [Bool.or_eq_false_iff, decide_eq_false_iff_not] at hu
      rw [if_neg (by simp [hu.2])] at hedge
      rw [makeColBound_lower hx hdomain h]
      refine ok_congr fun i hi => decide_eq_decide.mpr ?_
      have hin := hrange i hi
      rw [ColumnType.InRange] at hin
      omega
    · rename_i hl hu
      rw [Bool.or_eq_false_iff, decide_eq_false_iff_not] at hl
      rw [if_neg (by simp [hl.2])] at hedge
      rw [makeColBound_upper hx hdomain h]
      refine ok_congr fun i hi => decide_eq_decide.mpr ?_
      have hin := hrange i hi
      rw [ColumnType.InRange] at hin
      omega
    · simp only [bind, Option.bind_eq_some_iff, pure, Option.some.injEq] at h
      obtain ⟨lower, hlower, upper, hupper, rfl⟩ := h
      rw [eval_and (makeColBound_lower hx hdomain hlower) (makeColBound_upper hx hdomain hupper)]
      refine ok_congr fun i _ => ?_
      rw [← Bool.decide_and]
      refine decide_eq_decide.mpr ?_
      omega

end Filter

/-! ## The rule -/

structure BoundFunction (ι κ ρ τ : Type) where
  children : List (Expr ι κ ρ)
  /-- `GetArgProperties(0)`, if there are argument properties. -/
  monotonicity : Option Monotonicity
  stability : FunctionStability
  returnType : τ
  /-- The value at an argument that is not NULL. At NULL it is NULL. -/
  call : Int → Except EvalError (Option (Value κ ρ))

/-- What the rule matches: a function and an expression that can be folded to a constant. -/
structure FunctionComparison (ι κ ρ τ : Type) where
  comparison : ComparisonType
  funcIsLeft : Bool
  func : BoundFunction ι κ ρ τ
  constant : Except EvalError (Option (Value κ ρ))
  constantType : τ

section Rule

open Bisection

variable {ι κ ρ τ : Type}

def BoundFunction.evalFunc (f : BoundFunction ι κ ρ τ) (i : Int) : Option (Value κ ρ) :=
  match f.call i with
  | .ok v => v
  | .error _ => none

def FunctionComparison.comparand [DecidableEq τ] (c : FunctionComparison ι κ ρ τ)
    (tryCast : τ → Value κ ρ → Option (Value κ ρ)) : Option (Value κ ρ) :=
  match c.constant with
  | .ok (some v) =>
      if c.constantType = c.func.returnType then some v else tryCast c.func.returnType v
  | _ => none

def FunctionComparison.normalized (c : FunctionComparison ι κ ρ τ) : ComparisonType :=
  if c.funcIsLeft then c.comparison else flipComparisonExpression c.comparison

variable [LinearOrder κ]

/-- The predicates `ge` and `gt`. -/
def BoundFunction.compareAt (f : BoundFunction ι κ ρ τ) (comparison : ComparisonType)
    (constant : Value κ ρ) (i : Int) : Option Bool :=
  (f.evalFunc i).map fun v => comparison.holds (compare v.key constant.key)

def MonotonePreimageRule.apply [DecidableEq τ] (tryCast : τ → Value κ ρ → Option (Value κ ρ))
    (columnType : ι → ColumnType) (op : LogicalOperatorType) (isRoot : Bool)
    (c : FunctionComparison ι κ ρ τ) : Except Stop (Option (Expr ι κ ρ)) :=
  match c.func.children, c.func.monotonicity with
  | [.column column], some m =>
      if c.func.stability ≠ .consistent then .ok none
      else if !m.isKnownMonotonic || m = .constant then .ok none
      else
        match getFiniteDomain (columnType column) with
        | none => .ok none
        | some domain =>
            -- a comparison that is NULL at an infinity is false after the rewrite
            if domain.hasInfinity && (!isRoot || op ≠ .filter) then .ok none
            else
              match c.comparand tryCast with
              | none => .ok none
              | some constant =>
                  if !isRewritten c.normalized then .ok none
                  else
                    match preimage m.isMonotonicIncreasing c.normalized
                      (c.func.compareAt .greaterThanOrEqualTo constant)
                      (c.func.compareAt .greaterThan constant) domain.lo domain.hi with
                    | .error .probe => .ok none
                    | .error .overflow => .error .overflow
                    | .ok (a, b) => .ok (makeFilter column (columnType column) domain a b)
  | _, _ => .ok none

def FunctionComparison.eval (c : FunctionComparison ι κ ρ τ) (constant : Value κ ρ)
    (x : Option Int) : Except EvalError (Option Bool) := do
  let v ← match x with
    | some i => c.func.call i
    | none => .ok none
  return if c.funcIsLeft then compareValues c.comparison v (some constant)
    else compareValues c.comparison (some constant) v

/-- The function has values in the domain, in the order it declares, and none at the
infinities. -/
structure BoundFunction.MonotoneOn (f : BoundFunction ι κ ρ τ) (type : ColumnType)
    (domain : FiniteDomain) : Prop where
  total : ∀ i, domain.lo ≤ i → i ≤ domain.hi → ∃ v, f.call i = .ok (some v)
  monotone : ∀ m, f.monotonicity = some m → ∀ i j v w, domain.lo ≤ i → i ≤ j → j ≤ domain.hi →
    f.call i = .ok (some v) → f.call j = .ok (some w) →
    if m.isMonotonicIncreasing then v.key ≤ w.key else w.key ≤ v.key
  infinite : domain.hasInfinity = true →
    f.call type.infinity = .ok none ∧ f.call type.negativeInfinity = .ok none

/-- The least value of a type with infinities is none of them and lies below both. -/
def BelowInfinity (type : ColumnType) (domain : FiniteDomain) (x : Option Int) : Prop :=
  domain.hasInfinity = true ∧ x = some (intMinimum true type.physical)

theorem FunctionComparison.eval_some (c : FunctionComparison ι κ ρ τ) (constant : Value κ ρ)
    {i : Int} {v : Option (Value κ ρ)} (h : c.func.call i = .ok v) :
    c.eval constant (some i) = .ok (compareValues c.normalized v (some constant)) := by
  simp only [eval, h, bind, Except.bind, pure, Except.pure, normalized]
  split
  · rfl
  · rw [compareValues_flipComparisonExpression]

theorem FunctionComparison.eval_none (c : FunctionComparison ι κ ρ τ) (constant : Value κ ρ)
    (h : isRewritten c.normalized = true) : c.eval constant none = .ok none := by
  have hnone : compareValues c.normalized none (some constant) = none := by
    cases hc : c.normalized <;> rw [hc] at h <;> first | rfl | cases h
  simp only [normalized] at hnone
  simp only [eval, bind, Except.bind, pure, Except.pure]
  split
  · rename_i hleft
    rw [if_pos hleft] at hnone
    rw [hnone]
  · rename_i hleft
    rw [if_neg hleft, compareValues_flipComparisonExpression] at hnone
    rw [hnone]

theorem holds_greaterThanOrEqualTo {α : Type} [LinearOrder α] {a c : α} :
    ComparisonType.greaterThanOrEqualTo.holds (compare a c) = true ↔ c ≤ a := by
  rw [ComparisonType.holds, decide_eq_true_iff, ne_eq, compare_lt_iff_lt, not_lt]

theorem holds_greaterThan {α : Type} [LinearOrder α] {a c : α} :
    ComparisonType.greaterThan.holds (compare a c) = true ↔ c < a := by
  rw [ComparisonType.holds, decide_eq_true_iff, compare_gt_iff_gt]

theorem selects_iff {comparison : ComparisonType} (h : isRewritten comparison = true)
    (o : Ordering) :
    Selects comparison (some (ComparisonType.greaterThanOrEqualTo.holds o))
      (some (ComparisonType.greaterThan.holds o)) ↔ comparison.holds o = true := by
  cases comparison <;> cases o <;> simp_all [Selects, ComparisonType.holds, isRewritten]

theorem minimum_eq (type : ColumnType) :
    intMinimum true type.physical = type.negativeInfinity - 1 := by
  cases type <;> decide

variable {c : FunctionComparison ι κ ρ τ} {type : ColumnType} {domain : FiniteDomain}
  {constant : Value κ ρ}

theorem BoundFunction.compareAt_eq {f : BoundFunction ι κ ρ τ} {i : Int} {v : Value κ ρ}
    (h : f.call i = .ok (some v)) (comparison : ComparisonType) (constant : Value κ ρ) :
    f.compareAt comparison constant i = some (comparison.holds (compare v.key constant.key)) := by
  simp only [compareAt, evalFunc, h, Option.map_some]

/-- The predicates of the search follow the order of the function. -/
theorem BoundFunction.MonotoneOn.steps {f : BoundFunction ι κ ρ τ} (hf : f.MonotoneOn type domain)
    {m : Monotonicity} (hm : f.monotonicity = some m) {comparison : ComparisonType}
    (hcomparison : comparison = .greaterThanOrEqualTo ∨ comparison = .greaterThan) :
    Steps m.isMonotonicIncreasing (f.compareAt comparison constant) domain.lo domain.hi := by
  have hmono {a b : Key κ} (hab : a ≤ b) (ha : comparison.holds (compare a constant.key) = true) :
      comparison.holds (compare b constant.key) = true := by
    rcases hcomparison with rfl | rfl
    · rw [holds_greaterThanOrEqualTo] at ha ⊢
      exact ha.trans hab
    · rw [holds_greaterThan] at ha ⊢
      exact lt_of_lt_of_le ha hab
  have horder (i j : Int) (hi : domain.lo ≤ i) (hij : i ≤ j) (hj : j ≤ domain.hi) :
      ∃ v w, f.call i = .ok (some v) ∧ f.call j = .ok (some w) ∧
        if m.isMonotonicIncreasing then v.key ≤ w.key else w.key ≤ v.key := by
    obtain ⟨v, hv⟩ := hf.total i hi (by omega)
    obtain ⟨w, hw⟩ := hf.total j (by omega) hj
    exact ⟨v, w, hv, hw, hf.monotone m hm i j v w hi hij hj hv hw⟩
  cases hinc : m.isMonotonicIncreasing with
  | true =>
      intro i j hi hij hj htrue
      obtain ⟨v, w, hv, hw, hle⟩ := horder i j hi hij hj
      rw [if_pos hinc] at hle
      rw [f.compareAt_eq hv, Option.some.injEq] at htrue
      rw [f.compareAt_eq hw, hmono hle htrue]
  | false =>
      intro i j hi hij hj htrue
      obtain ⟨v, w, hv, hw, hle⟩ := horder i j hi hij hj
      rw [if_neg (by simp [hinc])] at hle
      rw [f.compareAt_eq hw, Option.some.injEq] at htrue
      rw [f.compareAt_eq hv, hmono hle htrue]

variable [DecidableEq τ] {tryCast : τ → Value κ ρ → Option (Value κ ρ)}
  {columnType : ι → ColumnType} {op : LogicalOperatorType} {isRoot : Bool}

theorem MonotonePreimageRule.apply_ok (tryCast : τ → Value κ ρ → Option (Value κ ρ))
    (columnType : ι → ColumnType) (op : LogicalOperatorType) (isRoot : Bool)
    (c : FunctionComparison ι κ ρ τ) :
    ∃ result, apply tryCast columnType op isRoot c = .ok result := by
  unfold apply
  split
  · split
    · exact ⟨none, rfl⟩
    · split
      · exact ⟨none, rfl⟩
      · split
        · exact ⟨none, rfl⟩
        · rename_i domain hdomain
          split
          · exact ⟨none, rfl⟩
          · split
            · exact ⟨none, rfl⟩
            · split
              · exact ⟨none, rfl⟩
              · split
                · exact ⟨none, rfl⟩
                · rename_i hoverflow
                  obtain ⟨hmin, hle, hmax, -⟩ := getFiniteDomain_edges hdomain
                  rcases preimage_cases hmin hle hmax with ⟨ends, hends, -⟩ | ⟨hprobe, -⟩
                  · cases hends.symm.trans hoverflow
                  · cases hprobe.symm.trans hoverflow
                · exact ⟨_, rfl⟩
  · exact ⟨none, rfl⟩

/-- What the rule has found out where it returns an expression. -/
theorem MonotonePreimageRule.apply_some {column : ι} {e : Expr ι κ ρ}
    (hcolumn : c.func.children = [.column column])
    (hdomain : getFiniteDomain (columnType column) = some domain)
    (hconstant : c.comparand tryCast = some constant)
    (h : apply tryCast columnType op isRoot c = .ok (some e)) :
    ∃ m a b, c.func.monotonicity = some m ∧ isRewritten c.normalized = true ∧
      preimage m.isMonotonicIncreasing c.normalized
        (c.func.compareAt .greaterThanOrEqualTo constant)
        (c.func.compareAt .greaterThan constant) domain.lo domain.hi = .ok (a, b) ∧
      makeFilter column (columnType column) domain a b = some e := by
  unfold apply at h
  split at h
  · rename_i column' m hcolumn' hm
    obtain rfl : column = column' := by simpa using hcolumn.symm.trans hcolumn'
    split at h
    · cases h
    · split at h
      · cases h
      · simp only [hdomain] at h
        split at h
        · cases h
        · simp only [hconstant] at h
          split at h
          · cases h
          · rename_i hrewritten
            split at h
            · cases h
            · cases h
            · rename_i a b hends
              exact ⟨m, a, b, hm, by simpa using hrewritten, hends, Except.ok.inj h⟩
  · cases h

/-- Where the comparison is a value, the expression is that value, except below the infinities. -/
theorem monotone_preimage_exact {column : ι} {e : Expr ι κ ρ}
    (hcolumn : c.func.children = [.column column])
    (hdomain : getFiniteDomain (columnType column) = some domain)
    (hconstant : c.comparand tryCast = some constant)
    (hf : c.func.MonotoneOn (columnType column) domain)
    (h : MonotonePreimageRule.apply tryCast columnType op isRoot c = .ok (some e))
    {row : ι → Option (Value κ ρ)} {x : Option Int} (hx : row column = x.map .integer)
    (hrange : ∀ i ∈ x, (columnType column).InRange i) :
    (x = none ∧ eval row e = .ok none ∧ c.eval constant x = .ok none) ∨
      (∃ b, eval row e = .ok (some (.boolean b)) ∧ c.eval constant x = .ok (some b) ∧
        ¬ BelowInfinity (columnType column) domain x) ∨
      (domain.hasInfinity = true ∧ eval row e = .ok (some (.boolean false)) ∧
        (c.eval constant x = .ok none ∨ BelowInfinity (columnType column) domain x)) := by
  obtain ⟨m, a, b, hm, hrewritten, hends, hfilter⟩ :=
    MonotonePreimageRule.apply_some hcolumn hdomain hconstant h
  obtain ⟨hmin, hle, hmax, hedge⟩ := getFiniteDomain_edges hdomain
  have heval := makeFilter_eval hx hrange hdomain hfilter
  cases x with
  | none => exact Or.inl ⟨rfl, heval, c.eval_none constant hrewritten⟩
  | some i =>
      have hin := hrange i rfl
      rw [ColumnType.InRange] at hin
      by_cases hfinite : domain.lo ≤ i ∧ i ≤ domain.hi
      · obtain ⟨v, hv⟩ := hf.total i hfinite.1 hfinite.2
        refine Or.inr (Or.inl ⟨c.normalized.holds (compare v.key constant.key), ?_,
          c.eval_some constant hv, ?_⟩)
        · rcases preimage_cases hmin hle hmax with ⟨ends, hends', hiff⟩ | ⟨hprobe, -⟩
          · obtain rfl := Except.ok.inj (hends.symm.trans hends')
            have hselects := hiff (hf.steps hm (Or.inl rfl)) (hf.steps hm (Or.inr rfl)) i
              hfinite.1 hfinite.2
            rw [c.func.compareAt_eq hv, c.func.compareAt_eq hv, selects_iff hrewritten] at hselects
            rw [heval]
            refine congrArg (fun b => Except.ok (some (Value.boolean b))) ?_
            rw [Bool.eq_iff_iff, decide_eq_true_iff, hselects]
            exact ⟨fun hi => ⟨hi.1.1, hi.2.1⟩, fun hi => ⟨⟨hi.1, hfinite.1⟩, hi.2, hfinite.2⟩⟩
          · cases hends.symm.trans hprobe
        · rintro ⟨hinf, hleast⟩
          rw [if_pos hinf] at hedge
          have hi := Option.some.inj hleast
          rw [minimum_eq] at hi
          omega
      · -- outside of the domain there are the infinities and the least value
        have hinf : domain.hasInfinity = true := by
          by_contra hno
          rw [if_neg hno] at hedge
          omega
        rw [if_pos hinf] at hedge
        refine Or.inr (Or.inr ⟨hinf, ?_, ?_⟩)
        · rw [heval]
          refine congrArg (fun b => Except.ok (some (Value.boolean b))) ?_
          rw [decide_eq_false_iff_not]
          omega
        · obtain ⟨hpos, hneg⟩ := hf.infinite hinf
          have hminimum := minimum_eq (columnType column)
          have hinfinity : intMaximum true (columnType column).physical =
              (columnType column).infinity := rfl
          rcases (by omega : i = (columnType column).infinity ∨
            i = (columnType column).negativeInfinity ∨
            i = intMinimum true (columnType column).physical) with rfl | rfl | rfl
          · refine Or.inl ((c.eval_some constant hpos).trans ?_)
            cases hc : c.normalized <;> rw [hc] at hrewritten <;> first | rfl | cases hrewritten
          · refine Or.inl ((c.eval_some constant hneg).trans ?_)
            cases hc : c.normalized <;> rw [hc] at hrewritten <;> first | rfl | cases hrewritten
          · exact Or.inr ⟨hinf, rfl⟩

end Rule

/-- Nothing overflows and the searches end. The expression that is returned is true where the
comparison is, unless the comparison is true of the value below the infinities; of a type without
infinities it has the comparison's value. -/
theorem monotone_preimage {ι κ ρ τ : Type} [LinearOrder κ] [DecidableEq τ]
    (tryCast : τ → Value κ ρ → Option (Value κ ρ)) (columnType : ι → ColumnType)
    (op : LogicalOperatorType) (isRoot : Bool) (c : FunctionComparison ι κ ρ τ) :
    (∃ result, MonotonePreimageRule.apply tryCast columnType op isRoot c = .ok result) ∧
    ∀ column domain constant e, c.func.children = [.column column] →
      getFiniteDomain (columnType column) = some domain →
      c.comparand tryCast = some constant →
      c.func.MonotoneOn (columnType column) domain →
      MonotonePreimageRule.apply tryCast columnType op isRoot c = .ok (some e) →
      ∀ row x, row column = x.map .integer → (∀ i ∈ x, (columnType column).InRange i) →
        ((eval row e = .ok (some (.boolean true)) ↔ c.eval constant x = .ok (some true)) ↔
          ¬ (BelowInfinity (columnType column) domain x ∧
            c.eval constant x = .ok (some true))) ∧
        (domain.hasInfinity = false →
          ∃ b, eval row e = .ok (b.map .boolean) ∧ c.eval constant x = .ok b) := by
  refine ⟨MonotonePreimageRule.apply_ok tryCast columnType op isRoot c, ?_⟩
  intro column domain constant e hcolumn hdomain hconstant hf h row x hx hrange
  rcases monotone_preimage_exact hcolumn hdomain hconstant hf h hx hrange with
    ⟨rfl, he, hc⟩ | ⟨b, he, hc, hnot⟩ | ⟨hinf, he, hc⟩
  · exact ⟨by simp [he, hc], fun _ => ⟨none, he, hc⟩⟩
  · refine ⟨iff_of_true ?_ fun h => hnot h.1, fun _ => ⟨some b, he, hc⟩⟩
    rw [he, hc]
    simp
  · refine ⟨?_, fun hno => absurd hinf (by simp [hno])⟩
    rcases hc with hc | hbelow
    · simp [he, hc]
    · simp [he, hbelow]

/-! ## The value below the infinities -/

/-- `epoch_us(t) <= 9223372036854775806` -/
def epochUsAtMost : FunctionComparison Unit Unit Unit Unit where
  comparison := .lessThanOrEqualTo
  funcIsLeft := true
  func :=
    { children := [.column ()]
      monotonicity := some .nonDecreasing
      stability := .consistent
      returnType := ()
      call := fun i =>
        if i = ColumnType.timestamp.infinity ∨ i = ColumnType.timestamp.negativeInfinity then .ok none
        else .ok (some (.integer i)) }
  constant := .ok (some (.integer 9223372036854775806))
  constantType := ()

theorem epochUs_monotoneOn : epochUsAtMost.func.MonotoneOn .timestamp
    ⟨ColumnType.timestamp.negativeInfinity + 1, ColumnType.timestamp.infinity - 1, true⟩ where
  total i hlo hhi := ⟨.integer i, if_neg (by simp only at hlo hhi; omega)⟩
  monotone m hm i j v w hlo hij hhi hv hw := by
    obtain rfl := Option.some.inj hm
    simp only at hlo hhi
    simp only [epochUsAtMost] at hv hw
    rw [if_neg (by omega)] at hv hw
    obtain rfl := Option.some.inj (Except.ok.inj hv)
    obtain rfl := Option.some.inj (Except.ok.inj hw)
    exact Key.integer_le.mpr hij
  infinite _ := ⟨rfl, rfl⟩

def aboveNegativeInfinity : Expr Unit Unit Unit :=
  .conjunction true
    [compareWithBound .greaterThan () .timestamp ColumnType.timestamp.negativeInfinity,
      compareWithBound .lessThan () .timestamp ColumnType.timestamp.infinity]

theorem epochUs_rewritten :
    MonotonePreimageRule.apply (fun _ => some) (fun _ => .timestamp) .filter true epochUsAtMost =
      .ok (some aboveNegativeInfinity) := rfl

theorem monotone_preimage_epoch :
    (eval (fun _ => some (.integer 0)) aboveNegativeInfinity = .ok (some (.boolean true)) ↔
      epochUsAtMost.eval (.integer 9223372036854775806) (some 0) = .ok (some true)) := by
  refine (((monotone_preimage (fun _ => some) (fun _ => .timestamp) .filter true
    epochUsAtMost).2 () _ _ _ rfl rfl rfl epochUs_monotoneOn epochUs_rewritten
    (fun _ => some (.integer 0)) (some 0) rfl ?_).1).mpr ?_
  · rintro i ⟨⟩
    exact ⟨by decide, by decide⟩
  · rintro ⟨⟨-, h⟩, -⟩
    exact absurd (Option.some.inj h) (by decide)

/-- `make_timestamp(-9223372036854775808)` is lost. -/
theorem monotone_preimage_drops_minimum :
    MonotonePreimageRule.apply (fun _ => some) (fun _ => .timestamp) .filter true epochUsAtMost =
      .ok (some aboveNegativeInfinity) ∧
    eval (fun _ => some (.integer (-9223372036854775808))) aboveNegativeInfinity =
      .ok (some (.boolean false)) ∧
    epochUsAtMost.eval (.integer 9223372036854775806) (some (-9223372036854775808)) =
      .ok (some true) := by
  refine ⟨rfl, ?_, ?_⟩
  · rfl
  · rfl

end MiniDuck
