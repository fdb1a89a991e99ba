import MiniDuck.Kleene
import MiniDuck.StringStatsRuns

/-!
# Expressions and their evaluation

A `Value` is a boolean, an integer (of an integer or decimal type), a
string, or a value of another ordered type. Values are compared through
their `key`: values of other types can compare equal and still be
different, as intervals and the two floating-point zeros do.

`eval` is the expression executor on one row. Conjunctions evaluate all
their operands, COALESCE stops at the first value that is not NULL, and
arithmetic raises an error where it is checked and leaves the type. An
expression of the wrong type raises an error as well; the binder rules it
out.

`equals` is `Expression::Equals`. Constants are equal if they compare
equal, and conjunctions if their operands are the same up to order, where
operands are found by their hash. `eval_equals` says that two equal
expressions that cannot throw agree on every row.
-/

namespace MiniDuck

/-! ## Values -/

structure ByteString where
  bytes : List UInt8
  deriving Repr, DecidableEq

instance : LinearOrder ByteString where
  le x y := WordLE x.bytes y.bytes
  lt x y := compareWords x.bytes y.bytes = .lt
  le_refl _ := wordLE_refl _
  le_trans _ _ _ := wordLE_trans
  le_antisymm := by
    rintro ⟨x⟩ ⟨y⟩ h h'
    exact congrArg ByteString.mk (wordLE_antisymm h h')
  lt_iff_le_not_ge x y := by
    rw [not_wordLE]
    exact ⟨fun h => ⟨wordLE_of_lt h, h⟩, fun h => h.2⟩
  le_total _ _ := wordLE_total _ _
  toDecidableLE x y := inferInstanceAs (Decidable (WordLE x.bytes y.bytes))

inductive Key (κ : Type)
  | boolean (b : Bool)
  | integer (n : Int)
  | string (s : ByteString)
  | other (key : κ)
  deriving Repr, DecidableEq

namespace Key

variable {κ : Type}

def toSum : Key κ → Bool ⊕ₗ (Int ⊕ₗ (ByteString ⊕ₗ κ))
  | .boolean b => Sum.inlₗ b
  | .integer n => Sum.inrₗ (Sum.inlₗ n)
  | .string s => Sum.inrₗ (Sum.inrₗ (Sum.inlₗ s))
  | .other k => Sum.inrₗ (Sum.inrₗ (Sum.inrₗ k))

theorem toSum_injective : Function.Injective (toSum : Key κ → _) := by
  intro x y h
  cases x <;> cases y <;> simp_all [toSum]

instance [LinearOrder κ] : LinearOrder (Key κ) := LinearOrder.lift' toSum toSum_injective

variable [LinearOrder κ]

theorem integer_le {a b : Int} : (Key.integer a : Key κ) ≤ .integer b ↔ a ≤ b := by
  show (Sum.inrₗ (Sum.inlₗ a) : Bool ⊕ₗ (Int ⊕ₗ (ByteString ⊕ₗ κ))) ≤ Sum.inrₗ (Sum.inlₗ b) ↔ _
  simp

theorem string_le {a b : ByteString} : (Key.string a : Key κ) ≤ .string b ↔ a ≤ b := by
  show (Sum.inrₗ (Sum.inrₗ (Sum.inlₗ a)) : Bool ⊕ₗ (Int ⊕ₗ (ByteString ⊕ₗ κ))) ≤
    Sum.inrₗ (Sum.inrₗ (Sum.inlₗ b)) ↔ _
  simp

end Key

inductive Value (κ ρ : Type)
  | boolean (b : Bool)
  | integer (n : Int)
  | string (s : StringValue)
  | other (key : κ) (representation : ρ)

def Value.key {κ ρ : Type} : Value κ ρ → Key κ
  | .boolean b => .boolean b
  | .integer n => .integer n
  | .string s => .string ⟨s.1⟩
  | .other k _ => .other k

inductive StringType
  | varchar
  | blob
  | bit
  | bignum
  deriving Repr, DecidableEq

/-- What statistics know of a type: its statistics have numeric bounds, and whether `IsNumeric`
holds; or string bounds; or neither. -/
inductive ValueType
  | bounded (isNumeric : Bool)
  | string (type : StringType)
  | unbounded
  deriving Repr, DecidableEq

/-! ## Arithmetic -/

inductive ArithmeticOperator
  | add
  | subtract
  | multiply
  deriving Repr, DecidableEq

def ArithmeticOperator.apply : ArithmeticOperator → Int → Int → Int
  | .add, l, r => l + r
  | .subtract, l, r => l - r
  | .multiply, l, r => l * r

inductive DecimalWidth
  | w16
  | w32
  | w64
  | w128
  deriving Repr, DecidableEq

namespace DecimalWidth

def physical : DecimalWidth → IntWidth
  | .w16 => .w16
  | .w32 => .w32
  | .w64 => .w64
  | .w128 => .w128

def limit : DecimalWidth → Int
  | .w16 => 9999
  | .w32 => 999999999
  | .w64 => 999999999999999999
  | .w128 => 10 ^ 38 - 1

end DecimalWidth

inductive ArithmeticType
  | integer (signed : Bool) (width : IntWidth)
  | decimal (width : DecimalWidth)
  deriving Repr, DecidableEq

namespace ArithmeticType

def minimum : ArithmeticType → Int
  | .integer signed width => intMinimum signed width
  | .decimal width => intMinimum true width.physical

def maximum : ArithmeticType → Int
  | .integer signed width => intMaximum signed width
  | .decimal width => intMaximum true width.physical

def InRange (type : ArithmeticType) (v : Int) : Prop := type.minimum ≤ v ∧ v ≤ type.maximum

instance (type : ArithmeticType) (v : Int) : Decidable (type.InRange v) :=
  inferInstanceAs (Decidable (_ ∧ _))

/-- A value that leaves the physical type comes back at the other end. -/
def wrap (type : ArithmeticType) (v : Int) : Int :=
  (v - type.minimum) % (type.maximum - type.minimum + 1) + type.minimum

theorem wrap_eq {type : ArithmeticType} {v : Int} (h : type.InRange v) : type.wrap v = v := by
  obtain ⟨hmin, hmax⟩ := h
  have hmod : (v - type.minimum) % (type.maximum - type.minimum + 1) = v - type.minimum :=
    Int.emod_eq_of_lt (by omega) (by omega)
  rw [wrap, hmod]
  omega

def hasBindData : ArithmeticType → Bool
  | .integer _ _ => false
  | .decimal _ => true

end ArithmeticType

/-- `TryAddOperator`, `TrySubtractOperator` and `TryMultiplyOperator`, `none` where the result
leaves the type. -/
def tryIntegerOperator (type : ArithmeticType) (op : ArithmeticOperator) (l r : Int) : Option Int :=
  if type.InRange (op.apply l r) then some (op.apply l r) else none

def tryDecimalAdd (limit l r : Int) : Option Int :=
  if r < 0 then if -limit - r > l then none else some (l + r)
  else if limit - r < l then none else some (l + r)

def tryDecimalSubtract (limit l r : Int) : Option Int :=
  if r < 0 then if limit + r < l then none else some (l - r)
  else if -limit + r > l then none else some (l - r)

/-- An integer operator whose result must also be within the limits of the decimal. -/
def tryDecimalRange (width : DecimalWidth) (op : ArithmeticOperator) (l r : Int) : Option Int := do
  let result ← tryIntegerOperator (.decimal width) op l r
  if result < -width.limit ∨ result > width.limit then none else some result

/-- `TryDecimalAdd`, `TryDecimalSubtract` and `TryDecimalMultiply`. -/
def tryDecimalOperator (width : DecimalWidth) (op : ArithmeticOperator) (l r : Int) : Option Int :=
  match width, op with
  | .w128, op => tryDecimalRange .w128 op l r
  | width, .multiply => tryDecimalRange width .multiply l r
  | width, .add => tryDecimalAdd width.limit l r
  | width, .subtract => tryDecimalSubtract width.limit l r

def tryOperator (type : ArithmeticType) (op : ArithmeticOperator) (l r : Int) : Option Int :=
  match type with
  | .integer signed width => tryIntegerOperator (.integer signed width) op l r
  | .decimal width => tryDecimalOperator width op l r

theorem limit_physical (width : DecimalWidth) :
    (ArithmeticType.decimal width).minimum ≤ -width.limit ∧
      width.limit ≤ (ArithmeticType.decimal width).maximum := by
  cases width <;> exact ⟨by decide, by decide⟩

variable {op : ArithmeticOperator}

theorem tryIntegerOperator_spec {type : ArithmeticType} {l r v : Int}
    (h : tryIntegerOperator type op l r = some v) : v = op.apply l r ∧ type.InRange v := by
  unfold tryIntegerOperator at h
  split at h
  · rename_i hin
    obtain rfl := Option.some.inj h
    exact ⟨rfl, hin⟩
  · cases h

variable {width : DecimalWidth}

theorem tryDecimalRange_spec {l r v : Int} (h : tryDecimalRange width op l r = some v) :
    v = op.apply l r ∧ (ArithmeticType.decimal width).InRange v := by
  obtain ⟨w, hw, hlimit⟩ := Option.bind_eq_some_iff.mp h
  split at hlimit
  · cases hlimit
  · obtain rfl := Option.some.inj hlimit
    exact tryIntegerOperator_spec hw

/-- The check looks at one end of the range only; the left operand bounds the other end. -/
theorem tryDecimalAdd_spec {l r v : Int} (hl : (ArithmeticType.decimal width).InRange l)
    (h : tryDecimalAdd width.limit l r = some v) :
    v = l + r ∧ (ArithmeticType.decimal width).InRange v := by
  have hlimit := limit_physical width
  obtain ⟨hmin, hmax⟩ := hl
  unfold tryDecimalAdd at h
  split_ifs at h
  · obtain rfl := Option.some.inj h
    exact ⟨rfl, by omega, by omega⟩
  · obtain rfl := Option.some.inj h
    exact ⟨rfl, by omega, by omega⟩

theorem tryDecimalSubtract_spec {l r v : Int} (hl : (ArithmeticType.decimal width).InRange l)
    (h : tryDecimalSubtract width.limit l r = some v) :
    v = l - r ∧ (ArithmeticType.decimal width).InRange v := by
  have hlimit := limit_physical width
  obtain ⟨hmin, hmax⟩ := hl
  unfold tryDecimalSubtract at h
  split_ifs at h
  · obtain rfl := Option.some.inj h
    exact ⟨rfl, by omega, by omega⟩
  · obtain rfl := Option.some.inj h
    exact ⟨rfl, by omega, by omega⟩

/-- A result that is returned is the exact one, and a value of the type. -/
theorem tryOperator_spec {type : ArithmeticType} {l r v : Int} (hl : type.InRange l)
    (h : tryOperator type op l r = some v) : v = op.apply l r ∧ type.InRange v := by
  cases type with
  | integer signed width => exact tryIntegerOperator_spec h
  | decimal width =>
      cases width <;> cases op
      all_goals first
        | exact tryDecimalRange_spec h
        | exact tryDecimalAdd_spec hl h
        | exact tryDecimalSubtract_spec hl h

/-! ## Expressions -/

/-- An expression over the columns `ι`. -/
inductive Expr (ι κ ρ : Type)
  | column (binding : ι)
  | constant (type : ValueType) (value : Option (Value κ ρ))
  | comparison (comparison : ComparisonType) (left right : Expr ι κ ρ)
  | between (lowerInclusive upperInclusive : Bool) (input lower upper : Expr ι κ ρ)
  | conjunction (isAnd : Bool) (children : List (Expr ι κ ρ))
  | coalesce (children : List (Expr ι κ ρ))
  | isNull (negated : Bool) (child : Expr ι κ ρ)
  | arithmetic (op : ArithmeticOperator) (type : ArithmeticType) (checked : Bool)
      (left right : Expr ι κ ρ)
  | constantOrNull (type : ValueType) (value : Option (Value κ ρ)) (children : List (Expr ι κ ρ))

inductive EvalError
  | outOfRange
  | typeError
  deriving Repr, DecidableEq

def lowerComparisonType (inclusive : Bool) : ComparisonType :=
  if inclusive then .greaterThanOrEqualTo else .greaterThan

def upperComparisonType (inclusive : Bool) : ComparisonType :=
  if inclusive then .lessThanOrEqualTo else .lessThan

section Eval

variable {ι κ ρ : Type}

def compareValues [LinearOrder κ] (comparison : ComparisonType) :
    Option (Value κ ρ) → Option (Value κ ρ) → Option Bool
  | some x, some y => some (comparison.holds (compare x.key y.key))
  | x, y =>
      match comparison with
      | .distinctFrom => some (x.isSome != y.isSome)
      | .notDistinctFrom => some (x.isSome == y.isSome)
      | _ => none

def truth : Option (Value κ ρ) → Except EvalError (Option Bool)
  | none => .ok none
  | some (.boolean b) => .ok (some b)
  | some _ => .error .typeError

variable {v : Option (Value κ ρ)}

theorem truth_eq_ok {b : Option Bool} : truth v = .ok b ↔ v = b.map .boolean := by
  rcases v with _ | (_ | _ | _ | _) <;> rcases b with _ | _ <;> simp [truth, eq_comm]

def evalArithmetic (op : ArithmeticOperator) (type : ArithmeticType) (checked : Bool) :
    Option (Value κ ρ) → Option (Value κ ρ) → Except EvalError (Option (Value κ ρ))
  | none, _ => .ok none
  | some _, none => .ok none
  | some (.integer x), some (.integer y) =>
      if type.InRange x ∧ type.InRange y then
        if checked then
          match tryOperator type op x y with
          | some v => .ok (some (.integer v))
          | none => .error .outOfRange
        else .ok (some (.integer (type.wrap (op.apply x y))))
      else .error .typeError
  | _, _ => .error .typeError

/-- The operands of an arithmetic function that returns a value. -/
theorem evalArithmetic_some {op : ArithmeticOperator} {type : ArithmeticType} {checked : Bool}
    {x y : Value κ ρ} (h : evalArithmetic op type checked (some x) (some y) = .ok v) :
    ∃ m n w, x = .integer m ∧ y = .integer n ∧ type.InRange m ∧ type.InRange n ∧
      v = some (.integer w) ∧ (type.InRange (op.apply m n) → w = op.apply m n) := by
  cases x with
  | integer m =>
      cases y with
      | integer n =>
          rw [evalArithmetic] at h
          split at h
          · rename_i hin
            split at h
            · split at h
              · rename_i w hw
                obtain rfl := Except.ok.inj h
                exact ⟨m, n, w, rfl, rfl, hin.1, hin.2, rfl,
                  fun _ => (tryOperator_spec hin.1 hw).1⟩
              · cases h
            · obtain rfl := Except.ok.inj h
              exact ⟨m, n, _, rfl, rfl, hin.1, hin.2, rfl, ArithmeticType.wrap_eq⟩
          · cases h
      | _ => cases h
  | _ => cases y <;> cases h

/-- `ConstantOrNullFunction`. -/
def constantIfValid (value : Option (Value κ ρ)) (args : List (Option (Value κ ρ))) :
    Option (Value κ ρ) :=
  if args.all Option.isSome then value else none

variable [LinearOrder κ] (row : ι → Option (Value κ ρ))

mutual

/-- `ExpressionExecutor::Execute` on one row. -/
def eval : Expr ι κ ρ → Except EvalError (Option (Value κ ρ))
  | .column c => .ok (row c)
  | .constant _ v => .ok v
  | .comparison comparison left right => do
      let l ← eval left
      let r ← eval right
      .ok ((compareValues comparison l r).map .boolean)
  | .between lowerInclusive upperInclusive input lower upper => do
      let i ← eval input
      let l ← eval lower
      let u ← eval upper
      .ok ((Kleene.join true (compareValues (lowerComparisonType lowerInclusive) i l)
        (compareValues (upperComparisonType upperInclusive) i u)).map .boolean)
  | .conjunction isAnd children => do
      let values ← evalTruths children
      .ok ((Kleene.joinAll isAnd values).map .boolean)
  | .coalesce children => evalCoalesce children
  | .isNull negated child => do
      let v ← eval child
      .ok (some (.boolean (v.isSome == negated)))
  | .arithmetic op type checked left right => do
      let l ← eval left
      let r ← eval right
      evalArithmetic op type checked l r
  | .constantOrNull _ value children => do
      let values ← evalAll children
      .ok (constantIfValid value values)

def evalAll : List (Expr ι κ ρ) → Except EvalError (List (Option (Value κ ρ)))
  | [] => .ok []
  | child :: children => do
      let v ← eval child
      let values ← evalAll children
      .ok (v :: values)

def evalTruths : List (Expr ι κ ρ) → Except EvalError (List (Option Bool))
  | [] => .ok []
  | child :: children => do
      let v ← eval child
      let b ← truth v
      let values ← evalTruths children
      .ok (b :: values)

def evalCoalesce : List (Expr ι κ ρ) → Except EvalError (Option (Value κ ρ))
  | [] => .ok none
  | child :: children => do
      let v ← eval child
      if v.isSome then .ok v else evalCoalesce children

end

attribute [grind =] eval evalAll evalTruths evalCoalesce

/-! ## What an evaluation says about the operands -/

theorem bind_eq_ok {ε α β : Type} {x : Except ε α} {f : α → Except ε β} {b : β} :
    (x >>= f) = .ok b ↔ ∃ a, x = .ok a ∧ f a = .ok b := by
  cases x with
  | error e => exact ⟨fun h => (nomatch h), fun ⟨_, h, _⟩ => (nomatch h)⟩
  | ok a => exact ⟨fun h => ⟨a, rfl, h⟩, fun ⟨_, h, h'⟩ => Except.ok.inj h ▸ h'⟩

variable {row}

theorem eval_comparison {comparison : ComparisonType} {l r : Expr ι κ ρ} :
    eval row (.comparison comparison l r) = .ok v ↔
      ∃ a b, eval row l = .ok a ∧ eval row r = .ok b ∧
        v = (compareValues comparison a b).map .boolean := by
  simp only [eval, bind_eq_ok, Except.ok.injEq]
  exact ⟨fun ⟨a, ha, b, hb, h⟩ => ⟨a, b, ha, hb, h.symm⟩,
    fun ⟨a, b, ha, hb, h⟩ => ⟨a, ha, b, hb, h.symm⟩⟩

theorem eval_between {li ui : Bool} {i l u : Expr ι κ ρ} : eval row (.between li ui i l u) = .ok v ↔
      ∃ a b c, eval row i = .ok a ∧ eval row l = .ok b ∧ eval row u = .ok c ∧
        v = (Kleene.join true (compareValues (lowerComparisonType li) a b)
          (compareValues (upperComparisonType ui) a c)).map .boolean := by
  simp only [eval, bind_eq_ok, Except.ok.injEq]
  exact ⟨fun ⟨a, ha, b, hb, c, hc, h⟩ => ⟨a, b, c, ha, hb, hc, h.symm⟩,
    fun ⟨a, b, c, ha, hb, hc, h⟩ => ⟨a, ha, b, hb, c, hc, h.symm⟩⟩

variable {children : List (Expr ι κ ρ)}

theorem eval_conjunction {isAnd : Bool} : eval row (.conjunction isAnd children) = .ok v ↔
      ∃ values, evalTruths row children = .ok values ∧
        v = (Kleene.joinAll isAnd values).map .boolean := by
  simp only [eval, bind_eq_ok, Except.ok.injEq, eq_comm (a := v)]

theorem eval_isNull {negated : Bool} {child : Expr ι κ ρ} :
    eval row (.isNull negated child) = .ok v ↔
      ∃ a, eval row child = .ok a ∧ v = some (.boolean (a.isSome == negated)) := by
  simp only [eval, bind_eq_ok, Except.ok.injEq, eq_comm (a := v)]

theorem eval_arithmetic {op : ArithmeticOperator} {type : ArithmeticType} {checked : Bool}
    {l r : Expr ι κ ρ} : eval row (.arithmetic op type checked l r) = .ok v ↔
      ∃ a b, eval row l = .ok a ∧ eval row r = .ok b ∧
        evalArithmetic op type checked a b = .ok v := by
  simp only [eval, bind_eq_ok]
  exact ⟨fun ⟨a, ha, b, hb, h⟩ => ⟨a, b, ha, hb, h⟩, fun ⟨a, b, ha, hb, h⟩ => ⟨a, ha, b, hb, h⟩⟩

theorem eval_constantOrNull {type : ValueType} {value : Option (Value κ ρ)} :
    eval row (.constantOrNull type value children) = .ok v ↔
      ∃ values, evalAll row children = .ok values ∧ v = constantIfValid value values := by
  simp only [eval, bind_eq_ok, Except.ok.injEq, eq_comm (a := v)]

theorem evalAll_eq_ok {values : List (Option (Value κ ρ))} : evalAll row children = .ok values ↔
      List.Forall₂ (fun child v => eval row child = .ok v) children values := by
  induction children generalizing values with
  | nil => simp [evalAll, eq_comm]
  | cons child children ih =>
      simp only [evalAll, bind_eq_ok, Except.ok.injEq, ih, List.forall₂_cons_left_iff]
      exact ⟨fun ⟨v, hv, vs, hvs, h⟩ => ⟨v, vs, hv, hvs, h.symm⟩,
        fun ⟨v, vs, hv, hvs, h⟩ => ⟨v, hv, vs, hvs, h.symm⟩⟩

theorem evalTruths_eq_ok {values : List (Option Bool)} : evalTruths row children = .ok values ↔
      List.Forall₂ (fun child b => eval row child = .ok (b.map .boolean)) children values := by
  induction children generalizing values with
  | nil => simp [evalTruths, eq_comm]
  | cons child children ih =>
      simp only [evalTruths, bind_eq_ok, Except.ok.injEq, ih, List.forall₂_cons_left_iff,
        truth_eq_ok]
      constructor
      · rintro ⟨_, hv, b, rfl, bs, hbs, rfl⟩
        exact ⟨b, bs, hv, hbs, rfl⟩
      · rintro ⟨b, bs, hb, hbs, rfl⟩
        exact ⟨_, hb, b, rfl, bs, hbs, rfl⟩

theorem evalCoalesce_cons {child : Expr ι κ ρ} : evalCoalesce row (child :: children) = .ok v ↔
      ∃ a, eval row child = .ok a ∧
        if a.isSome then a = v else evalCoalesce row children = .ok v := by
  simp only [evalCoalesce, bind_eq_ok]
  refine exists_congr fun a => and_congr_right fun _ => ?_
  split <;> simp

end Eval

/-! ## Folding, throwing and equality -/

section Syntax

variable {ι κ ρ : Type}

mutual

def isFoldable : Expr ι κ ρ → Bool
  | .column _ => false
  | .constant _ _ => true
  | .comparison _ l r => isFoldable l && isFoldable r
  | .between _ _ i l u => isFoldable i && isFoldable l && isFoldable u
  | .conjunction _ children => allFoldable children
  | .coalesce children => allFoldable children
  | .isNull _ child => isFoldable child
  | .arithmetic _ _ _ l r => isFoldable l && isFoldable r
  | .constantOrNull _ _ children => allFoldable children

def allFoldable : List (Expr ι κ ρ) → Bool
  | [] => true
  | child :: children => isFoldable child && allFoldable children

end

mutual

/-- `Expression::CanThrow`. Every arithmetic function is marked as fallible. -/
def canThrow : Expr ι κ ρ → Bool
  | .column _ => false
  | .constant _ _ => false
  | .comparison _ l r => canThrow l || canThrow r
  | .between _ _ i l u => canThrow i || canThrow l || canThrow u
  | .conjunction _ children => anyCanThrow children
  | .coalesce children => anyCanThrow children
  | .isNull _ child => canThrow child
  | .arithmetic _ _ _ _ _ => true
  | .constantOrNull _ _ children => anyCanThrow children

def anyCanThrow : List (Expr ι κ ρ) → Bool
  | [] => false
  | child :: children => canThrow child || anyCanThrow children

end

theorem canThrow_of_anyCanThrow {es : List (Expr ι κ ρ)} (h : anyCanThrow es = false)
    {e : Expr ι κ ρ} (he : e ∈ es) : canThrow e = false := by
  induction es with
  | nil => exact (List.not_mem_nil he).elim
  | cons d es ih =>
      rw [anyCanThrow, Bool.or_eq_false_iff] at h
      rcases List.mem_cons.mp he with rfl | he
      · exact h.1
      · exact ih h.2 he

theorem anyCanThrow_append (xs ys : List (Expr ι κ ρ)) :
    anyCanThrow (xs ++ ys) = (anyCanThrow xs || anyCanThrow ys) := by
  induction xs with
  | nil => rfl
  | cons x xs ih => rw [List.cons_append, anyCanThrow, anyCanThrow, ih, Bool.or_assoc]

/-- Take out the first of the entries that is equal to an expression. -/
def removeEntry (e : Expr ι κ ρ) : List (Expr ι κ ρ → Bool) → Option (List (Expr ι κ ρ → Bool))
  | [] => none
  | entry :: entries =>
      if entry e then some entries else (removeEntry e entries).map (entry :: ·)

/-- The loop of `ExpressionSetEquals` over the right side. -/
def removeEntries : List (Expr ι κ ρ → Bool) → List (Expr ι κ ρ) → Bool
  | entries, [] => entries.isEmpty
  | entries, e :: es =>
      match removeEntry e entries with
      | some entries => removeEntries entries es
      | none => false

variable [DecidableEq ι] [DecidableEq κ] (hash : Expr ι κ ρ → Nat)

mutual

def equals : Expr ι κ ρ → Expr ι κ ρ → Bool
  | .column c, other =>
      match other with
      | .column c' => decide (c = c')
      | _ => false
  | .constant type v, other =>
      match other with
      | .constant type' v' => decide (type = type' ∧ v.map Value.key = v'.map Value.key)
      | _ => false
  | .comparison comparison l r, other =>
      match other with
      | .comparison comparison' l' r' =>
          decide (comparison = comparison') && equals l l' && equals r r'
      | _ => false
  | .between li ui i l u, other =>
      match other with
      | .between li' ui' i' l' u' =>
          decide (li = li' ∧ ui = ui') && equals i i' && equals l l' && equals u u'
      | _ => false
  | .conjunction isAnd children, other =>
      match other with
      | .conjunction isAnd' children' =>
          decide (isAnd = isAnd' ∧ children.length = children'.length) &&
            removeEntries (entries children) children'
      | _ => false
  | .coalesce children, other =>
      match other with
      | .coalesce children' => listEquals children children'
      | _ => false
  | .isNull negated child, other =>
      match other with
      | .isNull negated' child' => decide (negated = negated') && equals child child'
      | _ => false
  | .arithmetic op type checked l r, other =>
      match other with
      | .arithmetic op' type' checked' l' r' =>
          -- the function that is called is not compared, only the bind data of decimals
          decide (op = op' ∧ type = type' ∧ (type.hasBindData = true → checked = checked')) &&
            equals l l' && equals r r'
      | _ => false
  | .constantOrNull type v children, other =>
      match other with
      | .constantOrNull type' v' children' =>
          decide (type = type' ∧ v.map Value.key = v'.map Value.key) &&
            listEquals children children'
      | _ => false

def listEquals : List (Expr ι κ ρ) → List (Expr ι κ ρ) → Bool
  | [], other =>
      match other with
      | [] => true
      | _ => false
  | e :: es, other =>
      match other with
      | e' :: es' => equals e e' && listEquals es es'
      | _ => false

/-- The map of `ExpressionSetEquals` over the left side, with an entry for every occurrence. -/
def entries : List (Expr ι κ ρ) → List (Expr ι κ ρ → Bool)
  | [] => []
  | e :: es => (fun e' => decide (hash e = hash e') && equals e e') :: entries es

end

mutual

def filterRejectsNull (expr : Expr ι κ ρ) : Expr ι κ ρ → Bool
  | .conjunction true children => anyRejectsNull expr children
  | .conjunction false children => !children.isEmpty && allRejectNull expr children
  | .isNull true child => equals hash child expr
  | .comparison comparison l r =>
      decide (comparison ≠ .distinctFrom ∧ comparison ≠ .notDistinctFrom) &&
        (equals hash l expr || equals hash r expr)
  | _ => false

def anyRejectsNull (expr : Expr ι κ ρ) : List (Expr ι κ ρ) → Bool
  | [] => false
  | child :: children => filterRejectsNull expr child || anyRejectsNull expr children

def allRejectNull (expr : Expr ι κ ρ) : List (Expr ι κ ρ) → Bool
  | [] => true
  | child :: children => filterRejectsNull expr child && allRejectNull expr children

end

end Syntax

end MiniDuck
