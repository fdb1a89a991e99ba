import MiniDuck.StatisticsSound

/-!
# Propagation keeps the value of an expression

`propagateExpression_sound` is by recursion over the expression: on a row
that the statistics of the columns admit, what is left of an expression
has the value of the expression, and its statistics admit the value. Each
construct has a lemma about its operands once they are propagated. The
operands of COALESCE are evaluated only up to the first that is not NULL,
so that `CoalesceSound` speaks of these alone.

Propagation fails only where it evaluates a foldable operand of a
conjunction that raises an error: `propagateExpression_returns` says that
it returns if the operands of all conjunctions evaluate on some row.
-/

namespace MiniDuck

variable {ι κ ρ : Type} [LinearOrder κ] {row : ι → Option (Value κ ρ)}

/-! ## Constants -/

theorem childSound_constantBoolean (b : Bool) :
    ChildSound row (constantBoolean b) (some (.boolean b)) :=
  ⟨rfl, fun _ h => Option.some.inj h ▸ admits_statisticsFromValue _ _⟩

variable {v : Option (Value κ ρ)}

theorem childSound_none {e : Expr ι κ ρ} (h : eval row e = .ok v) : ChildSound row (e, none) v :=
  ⟨h, fun _ h => (nomatch h)⟩

theorem eval_constantOrNullOf {b : Bool} {children : List (Expr ι κ ρ)}
    {values : List (Option (Value κ ρ))}
    (h : List.Forall₂ (fun child v => eval row child = .ok v) children values) :
    eval row (constantOrNullOf b children) = .ok (constantIfValid (some (.boolean b)) values) :=
  eval_constantOrNull.mpr ⟨values, evalAll_eq_ok.mpr h, rfl⟩

/-! ## Comparisons -/

variable {comparison : ComparisonType} {x y : Option (Value κ ρ)}

theorem map_compareValues {b : Bool}
    (hne : comparison ≠ .distinctFrom ∧ comparison ≠ .notDistinctFrom)
    (h : compareValues comparison x y ≠ some (!b)) : (compareValues comparison x y).map .boolean =
      constantIfValid (some (.boolean b : Value κ ρ)) [x, y] := by
  cases x with
  | none => rw [compareValues_none hne (.inl rfl)]; rfl
  | some x =>
      cases y with
      | none => rw [compareValues_none hne (.inr rfl)]; rfl
      | some y =>
          cases hv : comparison.holds (compare x.key y.key) <;> cases b <;>
            simp_all [compareValues, constantIfValid]

variable {a b : Option (Value κ ρ)}

theorem propagateComparisonOf_sound {left right : Expr ι κ ρ × Option (ColumnStats κ)}
    (hl : ChildSound row left a) (hr : ChildSound row right b) :
    ChildSound row (propagateComparisonOf comparison left right)
      ((compareValues comparison a b).map .boolean) := by
  have hunchanged : ChildSound row (.comparison comparison left.1 right.1, none)
      ((compareValues comparison a b).map .boolean) :=
    childSound_none (eval_comparison.mpr ⟨a, b, hl.1, hr.1, rfl⟩)
  unfold propagateComparisonOf
  split
  · rename_i lstats rstats hlstats hrstats
    have hallows := propagateComparison_sound (hl.2 lstats hlstats) (hr.2 rstats hrstats)
      comparison
    have hchildren : List.Forall₂ (fun child v => eval row child = .ok v) [left.1, right.1] [a, b] :=
      .cons hl.1 (.cons hr.1 .nil)
    by_cases hdistinct : isCompareDistinct comparison = true
    · rw [propagateComparison_distinct hdistinct]
      exact hunchanged
    have hne := ne_distinct hdistinct
    split
    · rename_i hresult
      rw [hresult] at hallows
      rw [show compareValues comparison a b = some true from hallows]
      exact childSound_constantBoolean true
    · rename_i hresult
      rw [hresult] at hallows
      rw [show compareValues comparison a b = some false from hallows]
      exact childSound_constantBoolean false
    · rename_i hresult
      rw [hresult] at hallows
      rw [map_compareValues hne (b := true) hallows]
      exact childSound_none (eval_constantOrNullOf hchildren)
    · rename_i hresult
      rw [hresult] at hallows
      rw [map_compareValues hne (b := false) hallows]
      exact childSound_none (eval_constantOrNullOf hchildren)
    · exact hunchanged
  · exact hunchanged

/-! ## BETWEEN -/

theorem boundPrune_sound {inputStats : ColumnStats κ} {bound : Expr ι κ ρ × Option (ColumnStats κ)}
    (ha : Admits inputStats a) (hb : ChildSound row bound b) (comparison : ComparisonType) :
    (boundPrune inputStats bound.2 comparison).Allows (compareValues comparison a b) := by
  unfold boundPrune
  split
  · rename_i stats hstats
    exact propagateComparison_sound ha (hb.2 stats hstats) comparison
  · trivial

theorem lowerComparisonType_ne (inclusive : Bool) :
    lowerComparisonType inclusive ≠ .distinctFrom ∧
      lowerComparisonType inclusive ≠ .notDistinctFrom := by
  cases inclusive <;> exact ⟨by decide, by decide⟩

theorem upperComparisonType_ne (inclusive : Bool) :
    upperComparisonType inclusive ≠ .distinctFrom ∧
      upperComparisonType inclusive ≠ .notDistinctFrom := by
  cases inclusive <;> exact ⟨by decide, by decide⟩

theorem isSome_compareValues (hne : comparison ≠ .distinctFrom ∧ comparison ≠ .notDistinctFrom) :
    (compareValues comparison x y).isSome = (x.isSome && y.isSome) := by
  cases x with
  | none => rw [compareValues_none hne (.inl rfl)]; rfl
  | some x =>
      cases y with
      | none => rw [compareValues_none hne (.inr rfl)]; rfl
      | some y => rfl

theorem join_of_ne_true : ∀ v w : Option Bool, v ≠ some true → w ≠ some false →
    Kleene.join true v w = v := by decide

theorem join_of_ne_false : ∀ v w : Option Bool, v ≠ some false → w ≠ some false →
    Kleene.join true v w = if v.isSome && w.isSome then some true else none := by decide

theorem ne_false_of_allows {result : PropagateResult} {v : Option Bool}
    (h : result = .filterAlwaysTrue ∨ result = .filterTrueOrNull) (hv : result.Allows v) :
    v ≠ some false := by
  rcases h with rfl | rfl
  · rw [show v = some true from hv]
    exact fun h => (nomatch h)
  · exact hv

/-- Two comparisons that are not false hold unless an operand is NULL. -/
theorem map_join_compareValues {lower upper : ComparisonType} {z : Option (Value κ ρ)}
    (hlower : lower ≠ .distinctFrom ∧ lower ≠ .notDistinctFrom)
    (hupper : upper ≠ .distinctFrom ∧ upper ≠ .notDistinctFrom)
    (hl : compareValues lower x y ≠ some false) (hu : compareValues upper x z ≠ some false) :
    (Kleene.join true (compareValues lower x y) (compareValues upper x z)).map .boolean =
      constantIfValid (some (.boolean true : Value κ ρ)) [x, y, z] := by
  rw [join_of_ne_false _ _ hl hu, isSome_compareValues hlower, isSome_compareValues hupper]
  cases x <;> cases y <;> cases z <;> rfl

theorem propagateBetween_sound {li ui : Bool}
    {input lower upper : Expr ι κ ρ × Option (ColumnStats κ)} {c : Option (Value κ ρ)}
    (hi : ChildSound row input a) (hl : ChildSound row lower b) (hu : ChildSound row upper c) :
    ChildSound row (propagateBetween li ui input lower upper)
      ((Kleene.join true (compareValues (lowerComparisonType li) a b)
        (compareValues (upperComparisonType ui) a c)).map .boolean) := by
  have hunchanged : ChildSound row (.between li ui input.1 lower.1 upper.1, none) _ :=
    childSound_none (eval_between.mpr ⟨a, b, c, hi.1, hl.1, hu.1, rfl⟩)
  have hlower := lowerComparisonType_ne li
  have hupper := upperComparisonType_ne ui
  unfold propagateBetween
  dsimp only
  split
  · exact hunchanged
  rename_i stats hstats
  have hlprune := boundPrune_sound (hi.2 stats hstats) hl (lowerComparisonType li)
  have huprune := boundPrune_sound (hi.2 stats hstats) hu (upperComparisonType ui)
  generalize boundPrune stats lower.2 (lowerComparisonType li) = lowerPrune at hlprune ⊢
  generalize boundPrune stats upper.2 (upperComparisonType ui) = upperPrune at huprune ⊢
  split_ifs with htrue hfalse hnull hother hother' hboth hltrue hutrue
  · -- both bounds always hold
    obtain ⟨rfl, rfl⟩ := htrue
    rw [show compareValues _ a b = some true from hlprune,
      show compareValues _ a c = some true from huprune]
    exact childSound_none rfl
  · -- one of them never holds
    have hjoin : Kleene.join true (compareValues (lowerComparisonType li) a b)
        (compareValues (upperComparisonType ui) a c) = some (!true) := by
      rw [Kleene.join_eq_absorbing_iff]
      exact hfalse.imp (fun h => by rw [h] at hlprune; exact hlprune)
        (fun h => by rw [h] at huprune; exact huprune)
    rw [hjoin]
    exact childSound_none rfl
  · -- the lower one is never true and the upper one never false
    subst hother
    rw [join_of_ne_true _ _ hlprune (ne_false_of_allows hother' huprune),
      map_compareValues hlower (b := false) hlprune]
    exact childSound_none (eval_constantOrNullOf (.cons hi.1 (.cons hl.1 .nil)))
  · exact hunchanged
  · have hprune := hnull.resolve_left hother
    subst hprune
    rw [Kleene.join_comm, join_of_ne_true _ _ huprune (ne_false_of_allows hboth hlprune),
      map_compareValues hupper (b := false) huprune]
    exact childSound_none (eval_constantOrNullOf (.cons hi.1 (.cons hu.1 .nil)))
  · exact hunchanged
  · obtain ⟨rfl, rfl⟩ := hltrue
    rw [map_join_compareValues hlower hupper hlprune huprune]
    exact childSound_none (eval_constantOrNullOf (.cons hi.1 (.cons hl.1 (.cons hu.1 .nil))))
  · -- one bound always holds, so that the other one decides
    subst hutrue
    rw [show compareValues _ a b = some true from hlprune, Kleene.join_unit]
    exact childSound_none (eval_comparison.mpr ⟨a, c, hi.1, hu.1, rfl⟩)
  · rename_i hutrue'
    subst hutrue'
    rw [show compareValues _ a c = some true from huprune, Kleene.join_comm, Kleene.join_unit]
    exact childSound_none (eval_comparison.mpr ⟨a, b, hi.1, hl.1, rfl⟩)
  · exact hunchanged

/-! ## NULL checks and arithmetic -/

theorem propagateNullCheck_sound {negated : Bool} {child : Expr ι κ ρ × Option (ColumnStats κ)}
    (h : ChildSound row child v) :
    ChildSound row (propagateNullCheck negated child) (some (.boolean (v.isSome == negated))) := by
  have hunchanged : ChildSound row (.isNull negated child.1, none) _ :=
    childSound_none (eval_isNull.mpr ⟨v, h.1, rfl⟩)
  unfold propagateNullCheck
  split
  · exact hunchanged
  · rename_i stats hstats
    have hadmits := h.2 stats hstats
    split
    · rename_i hnull
      obtain ⟨x, rfl⟩ := hadmits.exists_eq_some (by simpa using hnull)
      rw [Option.isSome_some, show (true == negated) = negated by cases negated <;> rfl]
      exact childSound_constantBoolean negated
    · split
      · rename_i hvalid
        obtain rfl := hadmits.eq_none (by simpa using hvalid)
        rw [Option.isSome_none, show (false == negated) = !negated by cases negated <;> rfl]
        exact childSound_constantBoolean (!negated)
      · exact hunchanged

theorem propagateArithmetic_sound {represent : κ → Option ρ} {op : ArithmeticOperator}
    {type : ArithmeticType} {checked : Bool} {left right : Expr ι κ ρ × Option (ColumnStats κ)}
    (hl : ChildSound row left a) (hr : ChildSound row right b)
    (hv : evalArithmetic op type checked a b = .ok v) :
    ChildSound row (propagateArithmetic represent op type checked left right) v := by
  unfold propagateArithmetic
  split
  · rename_i stats hstats
    refine ⟨eval_arithmetic.mpr ⟨a, b, hl.1, hr.1, hv⟩, fun st hst => ?_⟩
    obtain rfl := Option.some.inj hst
    exact arithmeticOfConstants_sound hl hr hv hstats
  · obtain ⟨heval, hadmits⟩ := propagateNumericStats_sound (admits_statsOrUnknown hl.2)
      (admits_statsOrUnknown hr.2) hv
    refine ⟨eval_arithmetic.mpr ⟨a, b, hl.1, hr.1, heval⟩, fun st hst => ?_⟩
    obtain rfl := Option.some.inj hst
    exact hadmits

/-! ## COALESCE -/

/-- What is evaluated of COALESCE has statistics that admit its value. -/
def CoalesceSound (row : ι → Option (Value κ ρ)) :
    List (Expr ι κ ρ × ColumnStats κ) → Option (Value κ ρ) → Prop
  | [], v => v = none
  | child :: children, v => ∃ a, eval row child.1 = .ok a ∧ Admits child.2 a ∧
      if a.isSome then a = v else CoalesceSound row children v

variable {children : List (Expr ι κ ρ × ColumnStats κ)}

theorem CoalesceSound.eval (h : CoalesceSound row children v) :
    evalCoalesce row (children.map Prod.fst) = .ok v := by
  induction children with
  | nil => exact congrArg Except.ok h.symm
  | cons child children ih =>
      obtain ⟨a, ha, -, hrest⟩ := h
      refine evalCoalesce_cons.mpr ⟨a, ha, ?_⟩
      split
      · rwa [if_pos ‹_›] at hrest
      · rw [if_neg ‹_›] at hrest
        exact ih hrest

/-- A child that is always NULL can be left out. -/
theorem CoalesceSound.remove {passed : List (Expr ι κ ρ × ColumnStats κ)}
    {child : Expr ι κ ρ × ColumnStats κ} (hnull : child.2.hasNoNull = false)
    (h : CoalesceSound row (passed ++ child :: children) v) :
    CoalesceSound row (passed ++ children) v := by
  induction passed with
  | nil =>
      obtain ⟨a, -, hadmits, hrest⟩ := h
      obtain rfl := hadmits.eq_none hnull
      exact hrest
  | cons d passed ih =>
      obtain ⟨a, ha, hadmits, hrest⟩ := h
      refine ⟨a, ha, hadmits, ?_⟩
      split
      · rwa [if_pos ‹_›] at hrest
      · rw [if_neg ‹_›] at hrest
        exact ih hrest

/-- Behind a child that is never NULL nothing is evaluated. -/
theorem CoalesceSound.cut {passed : List (Expr ι κ ρ × ColumnStats κ)}
    {child : Expr ι κ ρ × ColumnStats κ} (hvalid : child.2.hasNull = false)
    (h : CoalesceSound row (passed ++ child :: children) v) :
    CoalesceSound row (passed ++ [child]) v := by
  induction passed with
  | nil =>
      obtain ⟨a, ha, hadmits, hrest⟩ := h
      obtain ⟨x, rfl⟩ := hadmits.exists_eq_some hvalid
      exact ⟨some x, ha, hadmits, hrest⟩
  | cons d passed ih =>
      obtain ⟨a, ha, hadmits, hrest⟩ := h
      refine ⟨a, ha, hadmits, ?_⟩
      split
      · rwa [if_pos ‹_›] at hrest
      · rw [if_neg ‹_›] at hrest
        exact ih hrest

theorem coalesceLoop_sound (passed : List (Expr ι κ ρ × ColumnStats κ))
    (h : CoalesceSound row (passed ++ children) v) :
    CoalesceSound row (coalesceLoop passed children) v := by
  induction children generalizing passed with
  | nil => rwa [List.append_nil] at h
  | cons child children ih =>
      have hkeep : CoalesceSound row ((passed ++ [child]) ++ children) v := by
        rwa [List.append_assoc]
      rw [coalesceLoop]
      split_ifs with hnull hlen hvalid
      · exact ih passed (h.remove (by simpa using hnull))
      · exact ih _ hkeep
      · exact h.cut (by simpa using hvalid)
      · exact ih _ hkeep

theorem CoalesceSound.exists_admits (h : CoalesceSound row children v) (hne : children ≠ []) :
    ∃ child ∈ children, Admits child.2 v := by
  induction children with
  | nil => exact absurd rfl hne
  | cons child children ih =>
      obtain ⟨a, -, hadmits, hrest⟩ := h
      cases a with
      | some a => exact ⟨child, List.mem_cons_self .., hrest ▸ hadmits⟩
      | none =>
          rw [Option.isSome_none, if_neg Bool.false_ne_true] at hrest
          by_cases hnil : children = []
          · subst hnil
            obtain rfl : v = none := hrest
            exact ⟨child, List.mem_cons_self .., hadmits⟩
          · obtain ⟨d, hd, hadmits⟩ := ih hrest hnil
            exact ⟨d, List.mem_cons_of_mem _ hd, hadmits⟩

theorem admits_foldl_merge {stats : ColumnStats κ}
    (h : Admits stats v ∨ ∃ child ∈ children, Admits child.2 v) :
    Admits (children.foldl (fun stats c => stats.merge StatsData.merge c.2) stats) v := by
  induction children generalizing stats with
  | nil => exact h.resolve_right fun ⟨_, hmem, _⟩ => List.not_mem_nil hmem
  | cons child children ih =>
      refine ih ?_
      rcases h with h | ⟨d, hd, h⟩
      · exact .inl (admits_merge (.inl h))
      · rcases List.mem_cons.mp hd with rfl | hd
        · exact .inl (admits_merge (.inr h))
        · exact .inr ⟨d, hd, h⟩

/-- Propagating into an expression keeps its value, where it has one. -/
def Simulates (row : ι → Option (Value κ ρ)) (e : Expr ι κ ρ)
    (propagated : Expr ι κ ρ × Option (ColumnStats κ)) : Prop :=
  ∀ v, eval row e = .ok v → ChildSound row propagated v

variable {es : List (Expr ι κ ρ)}

theorem childSound_of_simulates {children : List (Expr ι κ ρ × Option (ColumnStats κ))}
    (h : List.Forall₂ (Simulates row) es children) {values : List (Option (Value κ ρ))}
    (hvalues : List.Forall₂ (fun e v => eval row e = .ok v) es values) :
    List.Forall₂ (ChildSound row) children values := by
  induction h generalizing values with
  | nil =>
      cases hvalues
      exact .nil
  | cons hchild _ ih =>
      cases hvalues with
      | cons hv hvs => exact .cons (hchild _ hv) (ih hvs)

theorem evalCoalesce_simulates {children : List (Expr ι κ ρ × Option (ColumnStats κ))}
    (h : List.Forall₂ (Simulates row) es children) (hv : evalCoalesce row es = .ok v) :
    evalCoalesce row (children.map Prod.fst) = .ok v := by
  induction h with
  | nil => exact hv
  | cons hchild _ ih =>
      obtain ⟨a, ha, hrest⟩ := evalCoalesce_cons.mp hv
      refine evalCoalesce_cons.mpr ⟨a, (hchild a ha).1, ?_⟩
      split
      · rwa [if_pos ‹_›] at hrest
      · rw [if_neg ‹_›] at hrest
        exact ih hrest

theorem coalesceSound_of_simulates {children : List (Expr ι κ ρ × Option (ColumnStats κ))}
    {children' : List (Expr ι κ ρ × ColumnStats κ)} (h : List.Forall₂ (Simulates row) es children)
    (hstats : allStats children = some children') (hv : evalCoalesce row es = .ok v) :
    CoalesceSound row children' v := by
  induction h generalizing children' with
  | nil =>
      obtain rfl := Option.some.inj hstats
      exact (Except.ok.inj hv).symm
  | cons hchild _ ih =>
      obtain ⟨stats, hst, hstats⟩ := Option.bind_eq_some_iff.mp hstats
      obtain ⟨rest, hrest, hstats⟩ := Option.bind_eq_some_iff.mp hstats
      obtain rfl := Option.some.inj hstats
      obtain ⟨a, ha, hv⟩ := evalCoalesce_cons.mp hv
      refine ⟨a, (hchild a ha).1, (hchild a ha).2 stats hst, ?_⟩
      split
      · rwa [if_pos ‹_›] at hv
      · rw [if_neg ‹_›] at hv
        exact ih hrest hv

theorem propagateCoalesce_sound {children : List (Expr ι κ ρ × Option (ColumnStats κ))}
    (h : List.Forall₂ (Simulates row) es children) (hv : evalCoalesce row es = .ok v) :
    ChildSound row (propagateCoalesce children) v := by
  unfold propagateCoalesce
  split
  · exact childSound_none (evalCoalesce_simulates h hv)
  · rename_i children' hstats
    have hsound := coalesceLoop_sound [] (coalesceSound_of_simulates h hstats hv)
    split
    · rename_i hnil
      rw [hnil] at hsound
      obtain rfl : v = none := hsound
      exact childSound_none rfl
    · rename_i child hone
      rw [hone] at hsound
      obtain ⟨a, ha, hadmits, hrest⟩ := hsound
      have hav : a = v := by
        cases a with
        | some a => exact hrest
        | none => exact hrest.symm
      exact ⟨hav ▸ ha, fun st hst => Option.some.inj hst ▸ hav ▸ hadmits⟩
    · rename_i child children _ hmany
      rw [hmany] at hsound
      refine ⟨hsound.eval, fun st hst => ?_⟩
      obtain rfl := Option.some.inj hst
      obtain ⟨d, hd, hadmits⟩ := hsound.exists_admits (List.cons_ne_nil _ _)
      rcases List.mem_cons.mp hd with rfl | hd
      · exact admits_foldl_merge (.inl hadmits)
      · exact admits_foldl_merge (.inr ⟨d, hd, hadmits⟩)

/-! ## Conjunctions -/

def Operand (row : ι → Option (Value κ ρ)) (child : Expr ι κ ρ) (b : Option Bool) : Prop :=
  eval row child = .ok (b.map .boolean)

theorem forall₂_middle {α β : Type} {R : α → β → Prop} {xs ys : List α} {e : α} {values : List β}
    (h : List.Forall₂ R (xs ++ e :: ys) values) :
    ∃ vs v ws, values = vs ++ v :: ws ∧ List.Forall₂ R xs vs ∧ R e v ∧ List.Forall₂ R ys ws := by
  induction xs generalizing values with
  | nil =>
      cases h with
      | cons he hys => exact ⟨[], _, _, rfl, .nil, he, hys⟩
  | cons x xs ih =>
      cases h with
      | cons hx hrest =>
          obtain ⟨vs, v, ws, rfl, hxs, he, hys⟩ := ih hrest
          exact ⟨_ :: vs, v, ws, rfl, .cons hx hxs, he, hys⟩

theorem exists_of_forall₂ {α β : Type} {R : α → β → Prop} {xs : List α} {vs : List β}
    (h : List.Forall₂ R xs vs) {x : α} (hx : x ∈ xs) : ∃ v ∈ vs, R x v := by
  induction h with
  | nil => exact (List.not_mem_nil hx).elim
  | cons hxv _ ih =>
      rcases List.mem_cons.mp hx with rfl | hx
      · exact ⟨_, List.mem_cons_self .., hxv⟩
      · obtain ⟨v, hv, hR⟩ := ih hx
        exact ⟨v, List.mem_cons_of_mem _ hv, hR⟩

/-- `constant_or_null` is its constant, or NULL if one of its operands is. -/
theorem eval_isConstantOrNull {b : Bool} {e : Expr ι κ ρ} (h : isConstantOrNull b e = true)
    (hv : eval row e = .ok v) : v = some (.boolean b) ∨
      v = none ∧ ∃ child ∈ constantOrNullChildren e, eval row child = .ok none := by
  obtain ⟨type, he⟩ := exists_of_isConstantOrNull h
  rw [he] at hv
  obtain ⟨values, hvalues, rfl⟩ := eval_constantOrNull.mp hv
  unfold constantIfValid
  split
  · exact .inl rfl
  · rename_i hall
    refine .inr ⟨rfl, ?_⟩
    rw [List.all_eq_true] at hall
    push Not at hall
    obtain ⟨w, hw, hnone⟩ := hall
    obtain ⟨child, hchild, heval⟩ := exists_of_forall₂ (evalAll_eq_ok.mp hvalues).flip hw
    obtain rfl := Option.not_isSome_iff_eq_none.mp hnone
    exact ⟨child, hchild, heval⟩

section Simplify

variable [DecidableEq ι] {hash : Expr ι κ ρ → Nat}

variable {values : List (Option Bool)}

/-- Where an operand is NULL, the expressions that make it redundant do not all hold. -/
theorem exists_ne_true_of_redundant {others : List (Expr ι κ ρ)}
    (hthrow : anyCanThrow others = false) (hothers : List.Forall₂ (Operand row) others values)
    {child : Expr ι κ ρ} (hchild : eval row child = .ok none)
    (h : childIsRedundant hash others child = true) : ∃ b ∈ values, b ≠ some true := by
  have hany : others.any (fun other => filterRejectsNull hash child other) = true := by
    cases child with
    | constant type value =>
        obtain rfl := Except.ok.inj hchild
        cases h
    | _ => exact h
  obtain ⟨other, hmem, hrejects⟩ := List.any_eq_true.mp hany
  obtain ⟨b, hb, heval⟩ := exists_of_forall₂ hothers hmem
  refine ⟨b, hb, fun htrue => ?_⟩
  subst htrue
  exact filterRejectsNull_sound hchild other hrejects (canThrow_of_anyCanThrow hthrow hmem) _ heval
    rfl

theorem removeRedundant_sound (passed : List (Expr ι κ ρ)) {es : List (Expr ι κ ρ)}
    (hthrow : anyCanThrow (passed ++ es) = false)
    (h : List.Forall₂ (Operand row) (passed ++ es) values) :
    ∃ values', List.Forall₂ (Operand row) (removeRedundant hash passed es) values' ∧
      Kleene.joinAll true values' = Kleene.joinAll true values := by
  induction es generalizing passed values with
  | nil =>
      rw [List.append_nil] at h
      exact ⟨values, h, rfl⟩
  | cons e es ih =>
      rw [removeRedundant]
      split
      · rename_i hredundant
        obtain ⟨hconstant, hall⟩ := Bool.and_eq_true_iff.mp hredundant
        obtain ⟨vs, v, ws, rfl, hpassed, he, hes⟩ := forall₂_middle h
        have hothers := List.rel_append hpassed hes
        have hthrow' : anyCanThrow (passed ++ es) = false := by
          rw [anyCanThrow_append, anyCanThrow] at hthrow
          rw [anyCanThrow_append]
          simp_all
        obtain ⟨values', hvalues', hjoin⟩ := ih passed hthrow' hothers
        refine ⟨values', hvalues', hjoin.trans ?_⟩
        rcases eval_isConstantOrNull hconstant he with hv | ⟨hv, child, hchild, hnull⟩
        · have htrue : v = some true := by
            obtain ⟨b, hb, hbool⟩ := Option.map_eq_some_iff.mp hv
            rw [hb, Value.boolean.inj hbool]
          rw [htrue, Kleene.joinAll_remove_unit]
        · have hnone : v = none := Option.map_eq_none_iff.mp hv
          rw [hnone, Kleene.joinAll_remove_none]
          exact exists_ne_true_of_redundant hthrow' hothers hnull (List.all_eq_true.mp hall child hchild)
      · refine ih _ ?_ ?_
        · rwa [List.append_assoc]
        · rwa [List.append_assoc]

theorem simplifyConstantOrNull_sound {es : List (Expr ι κ ρ)}
    (h : List.Forall₂ (Operand row) es values) :
    ∃ values', List.Forall₂ (Operand row) (simplifyConstantOrNull hash es) values' ∧
      Kleene.joinAll true values' = Kleene.joinAll true values := by
  unfold simplifyConstantOrNull
  split_ifs with hlen hany hthrow
  · exact ⟨values, h, rfl⟩
  · exact ⟨values, h, rfl⟩
  · exact ⟨values, h, rfl⟩
  · exact removeRedundant_sound [] (Bool.eq_false_of_not_eq_true hthrow) h

theorem finishConjunction_sound {isAnd : Bool} {children : List (Expr ι κ ρ)}
    (h : List.Forall₂ (Operand row) children values) :
    ChildSound row (finishConjunction hash isAnd (some children))
      ((Kleene.joinAll isAnd values).map .boolean) := by
  have hsimplified : ∃ values', List.Forall₂ (Operand row)
      (if isAnd then simplifyConstantOrNull hash children else children) values' ∧
        Kleene.joinAll isAnd values' = Kleene.joinAll isAnd values := by
    cases isAnd with
    | true => exact simplifyConstantOrNull_sound h
    | false => exact ⟨values, h, rfl⟩
  obtain ⟨values', hvalues', hjoin⟩ := hsimplified
  rw [← hjoin]
  unfold finishConjunction
  dsimp only
  split
  · rename_i hnil
    rw [hnil] at hvalues'
    cases hvalues'
    exact childSound_constantBoolean isAnd
  · rename_i child hone
    rw [hone] at hvalues'
    cases hvalues' with
    | cons hchild hrest =>
        cases hrest
        rw [Kleene.joinAll_singleton]
        exact childSound_none hchild
  · exact childSound_none (eval_conjunction.mpr ⟨values', evalTruths_eq_ok.mpr hvalues', rfl⟩)

end Simplify

theorem operandAction_sound (isAnd : Bool) {child : Expr ι κ ρ} {b : Option Bool}
    (hchild : Operand row child b) :
    ∃ action, operandAction isAnd child = .ok action ∧ (action = .prune → b = some isAnd) ∧
      (action = .absorb → b = some (!isAnd)) := by
  unfold operandAction
  by_cases hfold : isFoldable child = true
  · have htruth : truth (b.map (.boolean : Bool → Value κ ρ)) = .ok b := truth_eq_ok.mpr rfl
    rw [if_pos hfold, evaluateScalar, eval_foldable _ row child hfold, hchild]
    simp only [bind, Except.bind, htruth]
    cases b with
    | none => exact ⟨.keep, rfl, fun h => (nomatch h), fun h => (nomatch h)⟩
    | some b =>
        refine ⟨_, rfl, fun h => ?_, fun h => ?_⟩
        · split at h
          · rename_i heq
            rw [heq]
          · cases h
        · split at h
          · cases h
          · rename_i hne
            rw [Bool.eq_not.mpr hne]
  · rw [if_neg hfold]
    exact ⟨.keep, rfl, fun h => (nomatch h), fun h => (nomatch h)⟩

/-! ## Expressions -/

/-- What is left of the operands of a conjunction with these truth values. -/
def OperandsLeft (row : ι → Option (Value κ ρ)) (isAnd : Bool) (values : List (Option Bool)) :
    Option (List (Expr ι κ ρ)) → Prop
  | none => Kleene.joinAll isAnd values = some (!isAnd)
  | some children => ∃ values', List.Forall₂ (Operand row) children values' ∧
      Kleene.joinAll isAnd values' = Kleene.joinAll isAnd values

/-- One operand of a conjunction that is propagated, and what is left of the others. -/
theorem operandsLeft_cons {isAnd : Bool} {child : Expr ι κ ρ} {b : Option Bool}
    {values : List (Option Bool)} (hchild : Operand row child b)
    {rest : Except EvalError (Option (List (Expr ι κ ρ)))}
    (hrest : ∀ left, rest = .ok left → OperandsLeft row isAnd values left)
    {left : Option (List (Expr ι κ ρ))}
    (h : (do
      match ← operandAction isAnd child with
      | .absorb => .ok none
      | .prune => rest
      | .keep => do
          let children ← rest
          .ok (children.map (child :: ·))) = .ok left) :
    OperandsLeft row isAnd (b :: values) left := by
  obtain ⟨action, haction, hprune, habsorb⟩ := operandAction_sound isAnd hchild
  obtain ⟨action', haction', h⟩ := bind_eq_ok.mp h
  obtain rfl := Except.ok.inj (haction.symm.trans haction')
  cases action with
  | absorb =>
      obtain rfl := Except.ok.inj h
      rw [habsorb rfl]
      exact Kleene.join_absorbing isAnd _
  | prune =>
      rw [hprune rfl]
      cases left with
      | none =>
          have hleft := hrest none h
          rw [OperandsLeft, Kleene.joinAll_cons, Kleene.join_unit]
          exact hleft
      | some children =>
          obtain ⟨values', hvalues', hjoin⟩ := hrest _ h
          exact ⟨values', hvalues', by rw [hjoin, Kleene.joinAll_cons, Kleene.join_unit]⟩
  | keep =>
      obtain ⟨left', hleft', hmap⟩ := bind_eq_ok.mp h
      obtain rfl := Except.ok.inj hmap
      cases left' with
      | none =>
          have hleft := hrest none hleft'
          rw [Option.map_none, OperandsLeft, Kleene.joinAll_cons, Kleene.join_eq_absorbing_iff]
          exact .inr hleft
      | some children =>
          obtain ⟨values', hvalues', hjoin⟩ := hrest _ hleft'
          exact ⟨b :: values', .cons hchild hvalues',
            by rw [Kleene.joinAll_cons, Kleene.joinAll_cons, hjoin]⟩

section Propagate

variable [DecidableEq ι] {represent : κ → Option ρ} {hash : Expr ι κ ρ → Nat}
  {statisticsMap : ι → Option (ColumnStats κ)}

mutual

/-- The expression that is left has the value of the expression on every row that the statistics
of the columns admit, and the statistics that are returned admit it. -/
theorem propagateExpression_sound (hrow : Consistent statisticsMap row) :
    (e : Expr ι κ ρ) → ∀ {p}, propagateExpression represent hash statisticsMap e = .ok p →
      Simulates row e p
  | .column c, p, h, v, hv => by
      obtain rfl := Except.ok.inj h
      obtain rfl := Except.ok.inj hv
      exact ⟨rfl, hrow c⟩
  | .constant type x, p, h, v, hv => by
      obtain rfl := Except.ok.inj h
      obtain rfl := Except.ok.inj hv
      exact ⟨rfl, fun _ hst => Option.some.inj hst ▸ admits_statisticsFromValue type x⟩
  | .comparison comparison l r, p, h, v, hv => by
      obtain ⟨left, hleft, h⟩ := bind_eq_ok.mp h
      obtain ⟨right, hright, h⟩ := bind_eq_ok.mp h
      obtain rfl := Except.ok.inj h
      obtain ⟨a, b, ha, hb, rfl⟩ := eval_comparison.mp hv
      exact propagateComparisonOf_sound (propagateExpression_sound hrow l hleft a ha)
        (propagateExpression_sound hrow r hright b hb)
  | .between li ui i l u, p, h, v, hv => by
      obtain ⟨input, hinput, h⟩ := bind_eq_ok.mp h
      obtain ⟨lower, hlower, h⟩ := bind_eq_ok.mp h
      obtain ⟨upper, hupper, h⟩ := bind_eq_ok.mp h
      obtain rfl := Except.ok.inj h
      obtain ⟨a, b, c, ha, hb, hc, rfl⟩ := eval_between.mp hv
      exact propagateBetween_sound (propagateExpression_sound hrow i hinput a ha)
        (propagateExpression_sound hrow l hlower b hb)
        (propagateExpression_sound hrow u hupper c hc)
  | .conjunction isAnd children, p, h, v, hv => by
      obtain ⟨left, hleft, h⟩ := bind_eq_ok.mp h
      obtain rfl := Except.ok.inj h
      obtain ⟨values, hvalues, rfl⟩ := eval_conjunction.mp hv
      have hsound := propagateOperands_sound hrow children hleft (evalTruths_eq_ok.mp hvalues)
      cases left with
      | none =>
          rw [show Kleene.joinAll isAnd values = some (!isAnd) from hsound]
          exact childSound_constantBoolean (!isAnd)
      | some children =>
          obtain ⟨values', hvalues', hjoin⟩ := hsound
          rw [← hjoin]
          exact finishConjunction_sound hvalues'
  | .coalesce children, p, h, v, hv => by
      obtain ⟨children', hchildren, h⟩ := bind_eq_ok.mp h
      obtain rfl := Except.ok.inj h
      exact propagateCoalesce_sound (propagateAll_sound hrow children hchildren) hv
  | .isNull negated child, p, h, v, hv => by
      obtain ⟨child', hchild, h⟩ := bind_eq_ok.mp h
      obtain rfl := Except.ok.inj h
      obtain ⟨a, ha, rfl⟩ := eval_isNull.mp hv
      exact propagateNullCheck_sound (propagateExpression_sound hrow child hchild a ha)
  | .arithmetic op type checked l r, p, h, v, hv => by
      obtain ⟨left, hleft, h⟩ := bind_eq_ok.mp h
      obtain ⟨right, hright, h⟩ := bind_eq_ok.mp h
      obtain rfl := Except.ok.inj h
      obtain ⟨a, b, ha, hb, hv⟩ := eval_arithmetic.mp hv
      exact propagateArithmetic_sound (propagateExpression_sound hrow l hleft a ha)
        (propagateExpression_sound hrow r hright b hb) hv
  | .constantOrNull type value children, p, h, v, hv => by
      obtain ⟨children', hchildren, h⟩ := bind_eq_ok.mp h
      obtain rfl := Except.ok.inj h
      obtain ⟨values, hvalues, rfl⟩ := eval_constantOrNull.mp hv
      have hsound := childSound_of_simulates (propagateAll_sound hrow children hchildren)
        (evalAll_eq_ok.mp hvalues)
      refine ⟨eval_constantOrNull.mpr ⟨values, evalAll_eq_ok.mpr ?_, rfl⟩, fun st hst => ?_⟩
      · exact (List.forall₂_map_left_iff).mpr (hsound.imp fun _ _ h => h.1)
      · exact constantOrNullOfConstants_sound hsound hst

theorem propagateAll_sound (hrow : Consistent statisticsMap row) :
    (es : List (Expr ι κ ρ)) → ∀ {ps}, propagateAll represent hash statisticsMap es = .ok ps →
      List.Forall₂ (Simulates row) es ps
  | [], ps, h => by
      obtain rfl := Except.ok.inj h
      exact .nil
  | e :: es, ps, h => by
      obtain ⟨p, hp, h⟩ := bind_eq_ok.mp h
      obtain ⟨ps', hps, h⟩ := bind_eq_ok.mp h
      obtain rfl := Except.ok.inj h
      exact .cons (propagateExpression_sound hrow e hp) (propagateAll_sound hrow es hps)

theorem propagateOperands_sound (hrow : Consistent statisticsMap row) {isAnd : Bool} :
    (es : List (Expr ι κ ρ)) →
      ∀ {left}, propagateOperands represent hash statisticsMap isAnd es = .ok left →
        ∀ {values}, List.Forall₂ (Operand row) es values → OperandsLeft row isAnd values left
  | [], left, h, values, hvalues => by
      obtain rfl := Except.ok.inj h
      exact ⟨values, hvalues, rfl⟩
  | e :: es, left, h, values, hvalues => by
      cases hvalues with
      | cons hb hbs =>
          obtain ⟨child, hchild, h⟩ := bind_eq_ok.mp h
          exact operandsLeft_cons (propagateExpression_sound hrow e hchild _ hb).1
            (fun left hleft => propagateOperands_sound hrow es hleft hbs) h

end

/-! ## Propagation returns -/

mutual

def OperandsEvaluate (row : ι → Option (Value κ ρ)) : Expr ι κ ρ → Prop
  | .column _ => True
  | .constant _ _ => True
  | .comparison _ l r => OperandsEvaluate row l ∧ OperandsEvaluate row r
  | .between _ _ i l u =>
      OperandsEvaluate row i ∧ OperandsEvaluate row l ∧ OperandsEvaluate row u
  | .conjunction _ children =>
      AllOperandsEvaluate row children ∧ ∃ values, evalTruths row children = .ok values
  | .coalesce children => AllOperandsEvaluate row children
  | .isNull _ child => OperandsEvaluate row child
  | .arithmetic _ _ _ l r => OperandsEvaluate row l ∧ OperandsEvaluate row r
  | .constantOrNull _ _ children => AllOperandsEvaluate row children

def AllOperandsEvaluate (row : ι → Option (Value κ ρ)) : List (Expr ι κ ρ) → Prop
  | [] => True
  | child :: children => OperandsEvaluate row child ∧ AllOperandsEvaluate row children

end

mutual

theorem propagateExpression_returns (hrow : Consistent statisticsMap row) :
    (e : Expr ι κ ρ) → OperandsEvaluate row e →
      ∃ p, propagateExpression represent hash statisticsMap e = .ok p
  | .column c, _ => ⟨_, rfl⟩
  | .constant type v, _ => ⟨_, rfl⟩
  | .comparison comparison l r, h => by
      obtain ⟨left, hleft⟩ := propagateExpression_returns hrow l h.1
      obtain ⟨right, hright⟩ := propagateExpression_returns hrow r h.2
      exact ⟨_, bind_eq_ok.mpr ⟨left, hleft, bind_eq_ok.mpr ⟨right, hright, rfl⟩⟩⟩
  | .between li ui i l u, h => by
      obtain ⟨input, hinput⟩ := propagateExpression_returns hrow i h.1
      obtain ⟨lower, hlower⟩ := propagateExpression_returns hrow l h.2.1
      obtain ⟨upper, hupper⟩ := propagateExpression_returns hrow u h.2.2
      exact ⟨_, bind_eq_ok.mpr ⟨input, hinput, bind_eq_ok.mpr ⟨lower, hlower,
        bind_eq_ok.mpr ⟨upper, hupper, rfl⟩⟩⟩⟩
  | .conjunction isAnd children, h => by
      obtain ⟨hchildren, values, hvalues⟩ := h
      obtain ⟨left, hleft⟩ := propagateOperands_returns hrow isAnd children hchildren
        (evalTruths_eq_ok.mp hvalues)
      exact ⟨_, bind_eq_ok.mpr ⟨left, hleft, rfl⟩⟩
  | .coalesce children, h => by
      obtain ⟨ps, hps⟩ := propagateAll_returns hrow children h
      exact ⟨_, bind_eq_ok.mpr ⟨ps, hps, rfl⟩⟩
  | .isNull negated child, h => by
      obtain ⟨p, hp⟩ := propagateExpression_returns hrow child h
      exact ⟨_, bind_eq_ok.mpr ⟨p, hp, rfl⟩⟩
  | .arithmetic op type checked l r, h => by
      obtain ⟨left, hleft⟩ := propagateExpression_returns hrow l h.1
      obtain ⟨right, hright⟩ := propagateExpression_returns hrow r h.2
      exact ⟨_, bind_eq_ok.mpr ⟨left, hleft, bind_eq_ok.mpr ⟨right, hright, rfl⟩⟩⟩
  | .constantOrNull type value children, h => by
      obtain ⟨ps, hps⟩ := propagateAll_returns hrow children h
      exact ⟨_, bind_eq_ok.mpr ⟨ps, hps, rfl⟩⟩

theorem propagateAll_returns (hrow : Consistent statisticsMap row) :
    (es : List (Expr ι κ ρ)) → AllOperandsEvaluate row es →
      ∃ ps, propagateAll represent hash statisticsMap es = .ok ps
  | [], _ => ⟨_, rfl⟩
  | e :: es, h => by
      obtain ⟨p, hp⟩ := propagateExpression_returns hrow e h.1
      obtain ⟨ps, hps⟩ := propagateAll_returns hrow es h.2
      exact ⟨_, bind_eq_ok.mpr ⟨p, hp, bind_eq_ok.mpr ⟨ps, hps, rfl⟩⟩⟩

theorem propagateOperands_returns (hrow : Consistent statisticsMap row) (isAnd : Bool) :
    (es : List (Expr ι κ ρ)) → AllOperandsEvaluate row es →
      ∀ {values}, List.Forall₂ (Operand row) es values →
        ∃ left, propagateOperands represent hash statisticsMap isAnd es = .ok left
  | [], _, _, _ => ⟨_, rfl⟩
  | e :: es, h, values, hvalues => by
      cases hvalues with
      | cons hb hbs =>
          obtain ⟨p, hp⟩ := propagateExpression_returns hrow e h.1
          obtain ⟨left, hleft⟩ := propagateOperands_returns hrow isAnd es h.2 hbs
          obtain ⟨action, haction, -⟩ := operandAction_sound isAnd
            (propagateExpression_sound hrow e hp _ hb).1
          cases action with
          | absorb => exact ⟨none, bind_eq_ok.mpr ⟨p, hp, bind_eq_ok.mpr ⟨_, haction, rfl⟩⟩⟩
          | prune => exact ⟨left, bind_eq_ok.mpr ⟨p, hp, bind_eq_ok.mpr ⟨_, haction, hleft⟩⟩⟩
          | keep =>
              exact ⟨_, bind_eq_ok.mpr ⟨p, hp, bind_eq_ok.mpr ⟨_, haction,
                bind_eq_ok.mpr ⟨left, hleft, rfl⟩⟩⟩⟩

end

end Propagate

end MiniDuck
