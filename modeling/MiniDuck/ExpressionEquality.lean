import MiniDuck.Expression

/-!
# Foldable and equal expressions

A foldable expression has the same value on every row (`eval_foldable`).
Equal expressions that cannot throw agree on every row up to values that
compare equal (`eval_equals`), and so do any that both have a value
(`equals_agree`); for conjunctions the operands are matched
one to one (`exists_perm_of_removeEntries`). So a filter that rejects NULL
for an expression is not true where the expression is NULL
(`filterRejectsNull_sound`).
-/

namespace MiniDuck

variable {ι κ ρ : Type}

/-! ## Foldable expressions -/

section Folding

variable [LinearOrder κ]

mutual

theorem eval_foldable (row row' : ι → Option (Value κ ρ)) :
    (e : Expr ι κ ρ) → isFoldable e = true → eval row e = eval row' e
  | .column _, h => (nomatch h)
  | .constant _ _, _ => rfl
  | .comparison _ l r, h => by
      obtain ⟨hl, hr⟩ := Bool.and_eq_true_iff.mp h
      simp only [eval, eval_foldable row row' l hl, eval_foldable row row' r hr]
  | .between _ _ i l u, h => by
      obtain ⟨hil, hu⟩ := Bool.and_eq_true_iff.mp h
      obtain ⟨hi, hl⟩ := Bool.and_eq_true_iff.mp hil
      simp only [eval, eval_foldable row row' i hi, eval_foldable row row' l hl, eval_foldable row row' u hu]
  | .conjunction _ children, h => by
      simp only [eval, (evalAll_foldable row row' children h).2.1]
  | .coalesce children, h => by
      simp only [eval, (evalAll_foldable row row' children h).2.2]
  | .isNull _ child, h => by
      have h : isFoldable child = true := h
      simp only [eval, eval_foldable row row' child h]
  | .arithmetic _ _ _ l r, h => by
      obtain ⟨hl, hr⟩ := Bool.and_eq_true_iff.mp h
      simp only [eval, eval_foldable row row' l hl, eval_foldable row row' r hr]
  | .constantOrNull _ _ children, h => by
      simp only [eval, (evalAll_foldable row row' children h).1]

theorem evalAll_foldable (row row' : ι → Option (Value κ ρ)) :
    (es : List (Expr ι κ ρ)) → allFoldable es = true →
      evalAll row es = evalAll row' es ∧ evalTruths row es = evalTruths row' es ∧
        evalCoalesce row es = evalCoalesce row' es
  | [], _ => ⟨rfl, rfl, rfl⟩
  | e :: es, h => by
      obtain ⟨he, hes⟩ := Bool.and_eq_true_iff.mp h
      obtain ⟨hall, htruths, hcoalesce⟩ := evalAll_foldable row row' es hes
      simp only [evalAll, evalTruths, evalCoalesce, eval_foldable row row' e he, hall, htruths, hcoalesce,
        and_self]

end

end Folding

/-! ## Values that compare equal -/

def SameKey (x y : Option (Value κ ρ)) : Prop := x.map Value.key = y.map Value.key

variable {x y : Option (Value κ ρ)}

theorem SameKey.isSome (h : SameKey x y) : x.isSome = y.isSome := by
  have := congrArg Option.isSome h
  rwa [Option.isSome_map, Option.isSome_map] at this

theorem compareValues_congr [LinearOrder κ] {comparison : ComparisonType}
    {x' y' : Option (Value κ ρ)} (hx : SameKey x x') (hy : SameKey y y') :
    compareValues comparison x y = compareValues comparison x' y' := by
  unfold SameKey at hx hy
  cases x <;> cases y <;> cases x' <;> cases y' <;> simp_all [compareValues]

/-- A comparison of NULL, other than with `IS [NOT] DISTINCT FROM`, is unknown. -/
theorem compareValues_none [LinearOrder κ] {comparison : ComparisonType}
    (hne : comparison ≠ .distinctFrom ∧ comparison ≠ .notDistinctFrom) (h : x = none ∨ y = none) :
    compareValues comparison x y = none := by
  cases x with
  | none => cases comparison <;> simp_all [compareValues]
  | some x =>
      obtain rfl := h.resolve_left fun h => (nomatch h)
      cases comparison <;> simp_all [compareValues]

theorem eq_boolean_of_sameKey {v : Option (Value κ ρ)} {b : Option Bool}
    (h : SameKey (b.map .boolean) v) : v = b.map .boolean := by
  unfold SameKey at h
  rcases v with _ | (_ | _ | _ | _) <;> rcases b with _ | _ <;> simp_all [Value.key]

theorem map_boolean_injective :
    Function.Injective (Option.map (Value.boolean : Bool → Value κ ρ)) :=
  Option.map_injective fun _ _ => Value.boolean.inj

theorem evalArithmetic_congr {op : ArithmeticOperator} {type : ArithmeticType} {checked : Bool}
    {x' y' : Option (Value κ ρ)} (hx : SameKey x x') (hy : SameKey y y') :
    evalArithmetic op type checked x y = evalArithmetic op type checked x' y' := by
  unfold SameKey at hx hy
  rcases x with _ | (_ | _ | _ | _) <;> rcases x' with _ | (_ | _ | _ | _) <;>
    rcases y with _ | (_ | _ | _ | _) <;> rcases y' with _ | (_ | _ | _ | _) <;>
    simp_all [evalArithmetic, Value.key]

theorem all_isSome_of_sameKey {args args' : List (Option (Value κ ρ))}
    (h : List.Forall₂ SameKey args args') : args.all Option.isSome = args'.all Option.isSome := by
  induction h with
  | nil => rfl
  | cons h _ ih => rw [List.all_cons, List.all_cons, h.isSome, ih]

theorem constantIfValid_congr {value value' : Option (Value κ ρ)}
    {args args' : List (Option (Value κ ρ))} (hv : SameKey value value')
    (hargs : List.Forall₂ SameKey args args') :
    SameKey (constantIfValid value args) (constantIfValid value' args') := by
  unfold constantIfValid
  rw [all_isSome_of_sameKey hargs]
  split
  · exact hv
  · rfl

/-! ## Equal conjunctions -/

theorem removeEntry_map {test : Expr ι κ ρ → Expr ι κ ρ → Bool} {e' : Expr ι κ ρ}
    {es : List (Expr ι κ ρ)} {rest : List (Expr ι κ ρ → Bool)}
    (h : removeEntry e' (es.map test) = some rest) :
    ∃ e es', es.Perm (e :: es') ∧ test e e' = true ∧ rest = es'.map test := by
  induction es generalizing rest with
  | nil => cases h
  | cons e es ih =>
      rw [List.map_cons, removeEntry] at h
      split at h
      · rename_i htest
        exact ⟨e, es, .refl _, htest, (Option.some.inj h).symm⟩
      · obtain ⟨rest', hrest, rfl⟩ := Option.map_eq_some_iff.mp h
        obtain ⟨d, es', hperm, htest, rfl⟩ := ih hrest
        exact ⟨d, e :: es', (hperm.cons e).trans (.swap d e es'), htest, rfl⟩

theorem exists_perm_of_removeEntries {test : Expr ι κ ρ → Expr ι κ ρ → Bool}
    {es es' : List (Expr ι κ ρ)} (h : removeEntries (es.map test) es' = true) :
    ∃ ds, es.Perm ds ∧ List.Forall₂ (fun d e' => test d e' = true) ds es' := by
  induction es' generalizing es with
  | nil =>
      rw [removeEntries, List.isEmpty_map, List.isEmpty_iff] at h
      exact ⟨[], .of_eq h, .nil⟩
  | cons e' es' ih =>
      rw [removeEntries] at h
      cases hrest : removeEntry e' (es.map test) with
      | none => rw [hrest] at h; cases h
      | some rest =>
          rw [hrest] at h
          obtain ⟨e, es₁, hperm, htest, rfl⟩ := removeEntry_map hrest
          obtain ⟨ds, hperm', hds⟩ := ih h
          exact ⟨e :: ds, hperm.trans (hperm'.cons e), .cons htest hds⟩

section Cases

variable [DecidableEq ι] [DecidableEq κ] {hash : Expr ι κ ρ → Nat}

/-- What two equal expressions have in common. -/
inductive Equals (hash : Expr ι κ ρ → Nat) : Expr ι κ ρ → Expr ι κ ρ → Prop
  | column : Equals hash (.column c) (.column c)
  | constant : SameKey v v' → Equals hash (.constant type v) (.constant type v')
  | comparison : equals hash l l' = true → equals hash r r' = true →
      Equals hash (.comparison comparison l r) (.comparison comparison l' r')
  | between : equals hash i i' = true → equals hash l l' = true → equals hash u u' = true →
      Equals hash (.between li ui i l u) (.between li ui i' l' u')
  | conjunction : es.length = es'.length → removeEntries (entries hash es) es' = true →
      Equals hash (.conjunction isAnd es) (.conjunction isAnd es')
  | coalesce : listEquals hash es es' = true → Equals hash (.coalesce es) (.coalesce es')
  | isNull : equals hash e e' = true → Equals hash (.isNull negated e) (.isNull negated e')
  | arithmetic : (type.hasBindData = true → checked = checked') → equals hash l l' = true →
      equals hash r r' = true →
      Equals hash (.arithmetic op type checked l r) (.arithmetic op type checked' l' r')
  | constantOrNull : SameKey v v' → listEquals hash es es' = true →
      Equals hash (.constantOrNull type v es) (.constantOrNull type v' es')

theorem equals_iff {e e' : Expr ι κ ρ} : equals hash e e' = true ↔ Equals hash e e' := by
  constructor
  · intro h
    cases e <;> cases e' <;> try cases h
    all_goals simp only [equals, Bool.and_eq_true, decide_eq_true_eq] at h
    · obtain rfl := h
      exact .column
    · obtain ⟨rfl, hv⟩ := h
      exact .constant hv
    · obtain ⟨⟨rfl, hl⟩, hr⟩ := h
      exact .comparison hl hr
    · obtain ⟨⟨⟨⟨rfl, rfl⟩, hi⟩, hl⟩, hu⟩ := h
      exact .between hi hl hu
    · obtain ⟨⟨rfl, hlength⟩, hset⟩ := h
      exact .conjunction hlength hset
    · exact .coalesce h
    · obtain ⟨rfl, he⟩ := h
      exact .isNull he
    · obtain ⟨⟨⟨rfl, rfl, hchecked⟩, hl⟩, hr⟩ := h
      exact .arithmetic hchecked hl hr
    · obtain ⟨⟨rfl, hv⟩, hes⟩ := h
      exact .constantOrNull hv hes
  · intro h
    cases h <;> simp_all [equals, SameKey]

end Cases

section Equality

variable [LinearOrder κ] {row : ι → Option (Value κ ρ)}

/-- Operands that agree one to one with those of a conjunction have the same conjunction. -/
theorem evalTruths_of_perm (isAnd : Bool) {es ds es' : List (Expr ι κ ρ)}
    {values : List (Option Bool)} (hperm : es.Perm ds)
    (hes : evalTruths row es = .ok values)
    (hagree : List.Forall₂ (fun d e' => d ∈ es → ∀ v, eval row d = .ok v →
      ∃ v', eval row e' = .ok v' ∧ SameKey v v') ds es') :
    ∃ values', evalTruths row es' = .ok values' ∧
      Kleene.joinAll isAnd values' = Kleene.joinAll isAnd values := by
  obtain ⟨values', hds, hperm'⟩ := List.perm_comp_forall₂ hperm.symm (evalTruths_eq_ok.mp hes)
  refine ⟨values', evalTruths_eq_ok.mpr ?_, Kleene.joinAll_perm isAnd hperm'⟩
  have hmem : ∀ d ∈ ds, d ∈ es := fun d => hperm.mem_iff.mpr
  clear hes hperm hperm'
  induction hds generalizing es' with
  | nil =>
      cases hagree
      exact .nil
  | cons hd _ ih =>
      cases hagree with
      | cons hagree hrest =>
          obtain ⟨v', hv', hkey⟩ := hagree (hmem _ (List.mem_cons_self ..)) _ hd
          rw [eq_boolean_of_sameKey hkey] at hv'
          exact .cons hv' (ih hrest fun d hd => hmem d (List.mem_cons_of_mem _ hd))

variable [DecidableEq ι] {hash : Expr ι κ ρ → Nat}

theorem entries_eq (es : List (Expr ι κ ρ)) :
    entries hash es = es.map fun e e' => decide (hash e = hash e') && equals hash e e' := by
  induction es with
  | nil => rfl
  | cons e es ih => rw [entries, ih, List.map_cons]

mutual

/-- Equal expressions that cannot throw have values that compare equal. -/
theorem eval_equals : (e e' : Expr ι κ ρ) → equals hash e e' = true → canThrow e = false →
    ∀ v, eval row e = .ok v → ∃ v', eval row e' = .ok v' ∧ SameKey v v'
  | .column c, _, h, _, v, hv => by
      cases equals_iff.mp h with
      | column => exact ⟨v, hv, rfl⟩
  | .constant type x, _, h, _, v, hv => by
      cases equals_iff.mp h with
      | constant hkey =>
          obtain rfl := Except.ok.inj hv
          exact ⟨_, rfl, hkey⟩
  | .comparison comparison l r, _, h, ht, v, hv => by
      cases equals_iff.mp h with
      | comparison hl hr =>
          rw [canThrow, Bool.or_eq_false_iff] at ht
          obtain ⟨a, b, ha, hb, rfl⟩ := eval_comparison.mp hv
          obtain ⟨a', ha', hkey⟩ := eval_equals l _ hl ht.1 a ha
          obtain ⟨b', hb', hkey'⟩ := eval_equals r _ hr ht.2 b hb
          exact ⟨_, eval_comparison.mpr ⟨a', b', ha', hb', rfl⟩,
            congrArg _ (congrArg _ (compareValues_congr hkey hkey'))⟩
  | .between li ui i l u, _, h, ht, v, hv => by
      cases equals_iff.mp h with
      | between hi hl hu =>
          rw [canThrow, Bool.or_eq_false_iff, Bool.or_eq_false_iff] at ht
          obtain ⟨a, b, c, ha, hb, hc, rfl⟩ := eval_between.mp hv
          obtain ⟨a', ha', hkey⟩ := eval_equals i _ hi ht.1.1 a ha
          obtain ⟨b', hb', hkey'⟩ := eval_equals l _ hl ht.1.2 b hb
          obtain ⟨c', hc', hkey''⟩ := eval_equals u _ hu ht.2 c hc
          refine ⟨_, eval_between.mpr ⟨a', b', c', ha', hb', hc', rfl⟩, ?_⟩
          rw [compareValues_congr hkey hkey', compareValues_congr hkey hkey'']
          rfl
  | .conjunction isAnd es, _, h, ht, v, hv => by
      cases equals_iff.mp h with
      | conjunction _ hset =>
          rw [entries_eq] at hset
          obtain ⟨ds, hperm, hds⟩ := exists_perm_of_removeEntries hset
          obtain ⟨values, hvalues, rfl⟩ := eval_conjunction.mp hv
          have hagree := hds.imp fun d e' hd hmem =>
            eval_equals_mem es ht d hmem e' (Bool.and_eq_true_iff.mp hd).2
          obtain ⟨values', hvalues', hjoin⟩ := evalTruths_of_perm isAnd hperm hvalues
            hagree
          exact ⟨_, eval_conjunction.mpr ⟨values', hvalues', rfl⟩, by rw [hjoin]; rfl⟩
  | .coalesce es, _, h, ht, v, hv => by
      cases equals_iff.mp h with
      | coalesce hes => exact (evalAll_equals es _ hes ht).2 v hv
  | .isNull negated child, _, h, ht, v, hv => by
      cases equals_iff.mp h with
      | isNull hchild =>
          obtain ⟨a, ha, rfl⟩ := eval_isNull.mp hv
          obtain ⟨a', ha', hkey⟩ := eval_equals child _ hchild ht a ha
          exact ⟨_, eval_isNull.mpr ⟨a', ha', rfl⟩, by rw [hkey.isSome]; rfl⟩
  | .arithmetic _ _ _ _ _, _, _, ht, _, _ => (nomatch ht)
  | .constantOrNull type value es, _, h, ht, v, hv => by
      cases equals_iff.mp h with
      | constantOrNull hvalue hes =>
          obtain ⟨values, hvalues, rfl⟩ := eval_constantOrNull.mp hv
          obtain ⟨values', hvalues', hkeys⟩ := (evalAll_equals es _ hes ht).1 values hvalues
          exact ⟨_, eval_constantOrNull.mpr ⟨values', hvalues', rfl⟩,
            constantIfValid_congr hvalue hkeys⟩

theorem evalAll_equals : (es es' : List (Expr ι κ ρ)) → listEquals hash es es' = true →
    anyCanThrow es = false →
      (∀ vs, evalAll row es = .ok vs → ∃ vs', evalAll row es' = .ok vs' ∧
        List.Forall₂ SameKey vs vs') ∧
      ∀ v, evalCoalesce row es = .ok v → ∃ v', evalCoalesce row es' = .ok v' ∧ SameKey v v'
  | [], es', h, _ => by
      cases es' with
      | nil =>
          refine ⟨fun vs hvs => ?_, fun v hv => ⟨v, hv, rfl⟩⟩
          obtain rfl := Except.ok.inj hvs
          exact ⟨[], rfl, .nil⟩
      | cons => cases h
  | e :: es, es', h, ht => by
      cases es' with
      | nil => cases h
      | cons e' es' =>
          rw [listEquals, Bool.and_eq_true_iff] at h
          rw [anyCanThrow, Bool.or_eq_false_iff] at ht
          obtain ⟨hall, hcoalesce⟩ := evalAll_equals es es' h.2 ht.2
          refine ⟨fun vs hvs => ?_, fun v hv => ?_⟩
          · cases evalAll_eq_ok.mp hvs with
            | cons ha has =>
                obtain ⟨a', ha', hkey⟩ := eval_equals e e' h.1 ht.1 _ ha
                obtain ⟨as', has', hkeys⟩ := hall _ (evalAll_eq_ok.mpr has)
                exact ⟨a' :: as', evalAll_eq_ok.mpr (.cons ha' (evalAll_eq_ok.mp has')),
                  .cons hkey hkeys⟩
          · obtain ⟨a, ha, hrest⟩ := evalCoalesce_cons.mp hv
            obtain ⟨a', ha', hkey⟩ := eval_equals e e' h.1 ht.1 a ha
            cases hsome : a.isSome with
            | true =>
                rw [hsome, if_pos rfl] at hrest
                subst hrest
                refine ⟨a', evalCoalesce_cons.mpr ⟨a', ha', ?_⟩, hkey⟩
                rw [if_pos (hkey.isSome ▸ hsome)]
            | false =>
                rw [hsome, if_neg Bool.false_ne_true] at hrest
                obtain ⟨v', hv', hkey'⟩ := hcoalesce v hrest
                refine ⟨v', evalCoalesce_cons.mpr ⟨a', ha', ?_⟩, hkey'⟩
                rw [← hkey.isSome, hsome, if_neg Bool.false_ne_true]
                exact hv'

theorem eval_equals_mem : (es : List (Expr ι κ ρ)) → anyCanThrow es = false → ∀ e ∈ es,
    ∀ e', equals hash e e' = true →
      ∀ v, eval row e = .ok v → ∃ v', eval row e' = .ok v' ∧ SameKey v v'
  | [], _, _, hmem => (List.not_mem_nil hmem).elim
  | d :: es, ht, e, hmem => by
      rw [anyCanThrow, Bool.or_eq_false_iff] at ht
      rcases List.mem_cons.mp hmem with heq | hmem
      · rw [heq]
        exact fun e' h => eval_equals d e' h ht.1
      · exact eval_equals_mem es ht.2 e hmem

end

/-! ## Equal expressions with values -/

omit [LinearOrder κ] in
/-- A value that an arithmetic function returns is returned without its check as well. -/
theorem evalArithmetic_unchecked {op : ArithmeticOperator} {type : ArithmeticType} {checked : Bool}
    {x y v : Option (Value κ ρ)} (h : evalArithmetic op type checked x y = .ok v) :
    evalArithmetic op type false x y = .ok v := by
  cases checked with
  | false => exact h
  | true =>
      cases x with
      | none => exact h
      | some x =>
          cases y with
          | none => exact h
          | some y =>
              obtain ⟨m, n, w, rfl, rfl, hm, hn, rfl, -⟩ := evalArithmetic_some h
              rw [evalArithmetic, if_pos ⟨hm, hn⟩, if_pos rfl] at h
              rw [evalArithmetic, if_pos ⟨hm, hn⟩, if_neg Bool.false_ne_true]
              cases hw : tryOperator type op m n with
              | none => rw [hw] at h; cases h
              | some w' =>
                  obtain ⟨rfl, hin⟩ := tryOperator_spec hm hw
                  rw [hw] at h
                  rw [ArithmeticType.wrap_eq hin, ← h]

omit [LinearOrder κ] in
theorem evalArithmetic_agree {op : ArithmeticOperator} {type : ArithmeticType}
    {checked checked' : Bool} {x y v v' : Option (Value κ ρ)}
    (h : evalArithmetic op type checked x y = .ok v)
    (h' : evalArithmetic op type checked' x y = .ok v') : v = v' :=
  Except.ok.inj ((evalArithmetic_unchecked h).symm.trans (evalArithmetic_unchecked h'))

omit [DecidableEq ι] in
/-- Operands of equal conjunctions that agree have the same conjunction. -/
theorem joinAll_of_agree (isAnd : Bool) {es ds es' : List (Expr ι κ ρ)}
    {values values' : List (Option Bool)} (hperm : es.Perm ds)
    (hes : evalTruths row es = .ok values) (hes' : evalTruths row es' = .ok values')
    (hagree : List.Forall₂ (fun d e' => d ∈ es → ∀ v v', eval row d = .ok v →
      eval row e' = .ok v' → SameKey v v') ds es') :
    Kleene.joinAll isAnd values = Kleene.joinAll isAnd values' := by
  obtain ⟨values'', hds, hperm'⟩ := List.perm_comp_forall₂ hperm.symm (evalTruths_eq_ok.mp hes)
  have hsame : values'' = values' := by
    replace hes' := evalTruths_eq_ok.mp hes'
    have hmem : ∀ d ∈ ds, d ∈ es := fun d => hperm.mem_iff.mpr
    clear hes hperm hperm'
    induction hds generalizing es' values' with
    | nil =>
        cases hagree
        cases hes'
        rfl
    | cons hd _ ih =>
        cases hagree with
        | cons hagree hrest =>
            cases hes' with
            | cons he' hes' =>
                have hkey := hagree (hmem _ (List.mem_cons_self ..)) _ _ hd he'
                have hvalue := map_boolean_injective (eq_boolean_of_sameKey hkey)
                rw [hvalue, ih hrest hes' fun d hd => hmem d (List.mem_cons_of_mem _ hd)]
  rw [← hsame, Kleene.joinAll_perm isAnd hperm']

mutual

/-- Two equal expressions that both have a value have values that compare equal. -/
theorem equals_agree : (e e' : Expr ι κ ρ) → equals hash e e' = true →
    ∀ v v', eval row e = .ok v → eval row e' = .ok v' → SameKey v v'
  | .column c, _, h, v, v', hv, hv' => by
      cases equals_iff.mp h with
      | column =>
          obtain rfl := Except.ok.inj (hv.symm.trans hv')
          rfl
  | .constant type x, _, h, v, v', hv, hv' => by
      cases equals_iff.mp h with
      | constant hkey =>
          obtain rfl := Except.ok.inj hv
          obtain rfl := Except.ok.inj hv'
          exact hkey
  | .comparison comparison l r, _, h, v, v', hv, hv' => by
      cases equals_iff.mp h with
      | comparison hl hr =>
          obtain ⟨a, b, ha, hb, rfl⟩ := eval_comparison.mp hv
          obtain ⟨a', b', ha', hb', rfl⟩ := eval_comparison.mp hv'
          rw [compareValues_congr (equals_agree l _ hl a a' ha ha')
            (equals_agree r _ hr b b' hb hb')]
          rfl
  | .between li ui i l u, _, h, v, v', hv, hv' => by
      cases equals_iff.mp h with
      | between hi hl hu =>
          obtain ⟨a, b, c, ha, hb, hc, rfl⟩ := eval_between.mp hv
          obtain ⟨a', b', c', ha', hb', hc', rfl⟩ := eval_between.mp hv'
          have hinput := equals_agree i _ hi a a' ha ha'
          rw [compareValues_congr hinput (equals_agree l _ hl b b' hb hb'),
            compareValues_congr hinput (equals_agree u _ hu c c' hc hc')]
          rfl
  | .conjunction isAnd es, _, h, v, v', hv, hv' => by
      cases equals_iff.mp h with
      | conjunction _ hset =>
          rw [entries_eq] at hset
          obtain ⟨ds, hperm, hds⟩ := exists_perm_of_removeEntries hset
          obtain ⟨values, hvalues, rfl⟩ := eval_conjunction.mp hv
          obtain ⟨values', hvalues', rfl⟩ := eval_conjunction.mp hv'
          have hagree := hds.imp fun d e' hd hmem =>
            equals_agree_mem es d hmem e' (Bool.and_eq_true_iff.mp hd).2
          rw [joinAll_of_agree isAnd hperm hvalues hvalues' hagree]
          rfl
  | .coalesce es, _, h, v, v', hv, hv' => by
      cases equals_iff.mp h with
      | coalesce hes => exact (listEquals_agree es _ hes).2 v v' hv hv'
  | .isNull negated child, _, h, v, v', hv, hv' => by
      cases equals_iff.mp h with
      | isNull hchild =>
          obtain ⟨a, ha, rfl⟩ := eval_isNull.mp hv
          obtain ⟨a', ha', rfl⟩ := eval_isNull.mp hv'
          rw [(equals_agree child _ hchild a a' ha ha').isSome]
          rfl
  | .arithmetic op type checked l r, _, h, v, v', hv, hv' => by
      cases equals_iff.mp h with
      | arithmetic _ hl hr =>
          obtain ⟨a, b, ha, hb, hresult⟩ := eval_arithmetic.mp hv
          obtain ⟨a', b', ha', hb', hresult'⟩ := eval_arithmetic.mp hv'
          rw [evalArithmetic_congr (equals_agree l _ hl a a' ha ha')
            (equals_agree r _ hr b b' hb hb')] at hresult
          rw [evalArithmetic_agree hresult hresult']
          rfl
  | .constantOrNull type value es, _, h, v, v', hv, hv' => by
      cases equals_iff.mp h with
      | constantOrNull hvalue hes =>
          obtain ⟨values, hvalues, rfl⟩ := eval_constantOrNull.mp hv
          obtain ⟨values', hvalues', rfl⟩ := eval_constantOrNull.mp hv'
          exact constantIfValid_congr hvalue
            ((listEquals_agree es _ hes).1 values values' hvalues hvalues')

theorem listEquals_agree : (es es' : List (Expr ι κ ρ)) → listEquals hash es es' = true →
    (∀ vs vs', evalAll row es = .ok vs → evalAll row es' = .ok vs' →
        List.Forall₂ SameKey vs vs') ∧
      ∀ v v', evalCoalesce row es = .ok v → evalCoalesce row es' = .ok v' → SameKey v v'
  | [], es', h => by
      cases es' with
      | nil =>
          refine ⟨fun vs vs' hvs hvs' => ?_, fun v v' hv hv' => ?_⟩
          · obtain rfl := Except.ok.inj hvs
            obtain rfl := Except.ok.inj hvs'
            exact .nil
          · obtain rfl := Except.ok.inj (hv.symm.trans hv')
            rfl
      | cons => cases h
  | e :: es, es', h => by
      cases es' with
      | nil => cases h
      | cons e' es' =>
          rw [listEquals, Bool.and_eq_true_iff] at h
          obtain ⟨hall, hcoalesce⟩ := listEquals_agree es es' h.2
          refine ⟨fun vs vs' hvs hvs' => ?_, fun v v' hv hv' => ?_⟩
          · cases evalAll_eq_ok.mp hvs with
            | cons ha has =>
                cases evalAll_eq_ok.mp hvs' with
                | cons ha' has' =>
                    exact .cons (equals_agree e e' h.1 _ _ ha ha')
                      (hall _ _ (evalAll_eq_ok.mpr has) (evalAll_eq_ok.mpr has'))
          · obtain ⟨a, ha, hrest⟩ := evalCoalesce_cons.mp hv
            obtain ⟨a', ha', hrest'⟩ := evalCoalesce_cons.mp hv'
            have hkey := equals_agree e e' h.1 a a' ha ha'
            cases hsome : a.isSome with
            | true =>
                rw [hsome, if_pos rfl] at hrest
                rw [← hkey.isSome, hsome, if_pos rfl] at hrest'
                rwa [← hrest, ← hrest']
            | false =>
                rw [hsome, if_neg Bool.false_ne_true] at hrest
                rw [← hkey.isSome, hsome, if_neg Bool.false_ne_true] at hrest'
                exact hcoalesce v v' hrest hrest'

theorem equals_agree_mem : (es : List (Expr ι κ ρ)) → ∀ e ∈ es, ∀ e',
    equals hash e e' = true → ∀ v v', eval row e = .ok v → eval row e' = .ok v' → SameKey v v'
  | [], _, hmem => (List.not_mem_nil hmem).elim
  | d :: es, e, hmem => by
      rcases List.mem_cons.mp hmem with heq | hmem
      · rw [heq]
        exact equals_agree d
      · exact equals_agree_mem es e hmem

end

/-! ## Filters that reject NULL -/

/-- An operand that is equal to an expression is NULL where the expression is. -/
theorem eq_none_of_equals {e expr : Expr ι κ ρ} (hexpr : eval row expr = .ok none)
    (h : equals hash e expr = true) (ht : canThrow e = false) {v : Option (Value κ ρ)}
    (hv : eval row e = .ok v) : v = none := by
  obtain ⟨v', hv', hkey⟩ := eval_equals e expr h ht v hv
  obtain rfl := Except.ok.inj (hexpr.symm.trans hv')
  exact Option.map_eq_none_iff.mp hkey

mutual

theorem filterRejectsNull_sound {expr : Expr ι κ ρ} (hexpr : eval row expr = .ok none) :
    (filter : Expr ι κ ρ) → filterRejectsNull hash expr filter = true → canThrow filter = false →
      ∀ v, eval row filter = .ok v → v ≠ some (.boolean true)
  | .column _, h, _, _, _ => (nomatch h)
  | .constant _ _, h, _, _, _ => (nomatch h)
  | .comparison comparison l r, h, ht, v, hv => by
      obtain ⟨hcomparison, hequals⟩ := Bool.and_eq_true_iff.mp h
      replace hcomparison := of_decide_eq_true hcomparison
      replace hequals := Bool.or_eq_true_iff.mp hequals
      rw [canThrow, Bool.or_eq_false_iff] at ht
      obtain ⟨a, b, ha, hb, rfl⟩ := eval_comparison.mp hv
      have hnull : a = none ∨ b = none :=
        hequals.imp (fun h => eq_none_of_equals hexpr h ht.1 ha)
          (fun h => eq_none_of_equals hexpr h ht.2 hb)
      rw [compareValues_none hcomparison hnull]
      exact fun h => (nomatch h)
  | .between _ _ _ _ _, h, _, _, _ => (nomatch h)
  | .conjunction true children, h, ht, v, hv => by
      obtain ⟨values, hvalues, rfl⟩ := eval_conjunction.mp hv
      obtain ⟨b, hb, hne⟩ := anyRejectsNull_sound hexpr children h ht values
        (evalTruths_eq_ok.mp hvalues)
      intro htrue
      have hunit : Kleene.joinAll true values = some true := by
        obtain ⟨_, hjoin, hbool⟩ := Option.map_eq_some_iff.mp htrue
        rw [hjoin, Value.boolean.inj hbool]
      exact hne ((Kleene.joinAll_eq_unit_iff true values).mp hunit b hb)
  | .conjunction false children, h, ht, v, hv => by
      obtain ⟨-, hchildren⟩ := Bool.and_eq_true_iff.mp h
      obtain ⟨values, hvalues, rfl⟩ := eval_conjunction.mp hv
      have hall := allRejectNull_sound hexpr children hchildren ht values (evalTruths_eq_ok.mp hvalues)
      intro htrue
      have habsorb : Kleene.joinAll false values = some (!false) := by
        obtain ⟨_, hjoin, hbool⟩ := Option.map_eq_some_iff.mp htrue
        rw [hjoin, Value.boolean.inj hbool]
        rfl
      exact hall _ ((Kleene.joinAll_eq_absorbing_iff false values).mp habsorb) rfl
  | .coalesce _, h, _, _, _ => (nomatch h)
  | .isNull true child, h, ht, v, hv => by
      obtain ⟨a, ha, rfl⟩ := eval_isNull.mp hv
      rw [eq_none_of_equals hexpr h ht ha]
      exact fun h => (nomatch Value.boolean.inj (Option.some.inj h))
  | .isNull false _, h, _, _, _ => (nomatch h)
  | .arithmetic _ _ _ _ _, h, _, _, _ => (nomatch h)
  | .constantOrNull _ _ _, h, _, _, _ => (nomatch h)

theorem anyRejectsNull_sound {expr : Expr ι κ ρ} (hexpr : eval row expr = .ok none) :
    (children : List (Expr ι κ ρ)) → anyRejectsNull hash expr children = true →
      anyCanThrow children = false → ∀ values : List (Option Bool),
        List.Forall₂ (fun child b => eval row child = .ok (b.map .boolean)) children values →
          ∃ b ∈ values, b ≠ some true
  | [], h, _, _, _ => (nomatch h)
  | child :: children, h, ht, values, hvalues => by
      rw [anyCanThrow, Bool.or_eq_false_iff] at ht
      cases hvalues with
      | cons hb hbs =>
          rcases Bool.or_eq_true_iff.mp h with h | h
          · refine ⟨_, List.mem_cons_self .., fun heq => ?_⟩
            exact filterRejectsNull_sound hexpr child h ht.1 _ hb (heq ▸ rfl)
          · obtain ⟨b, hb, hne⟩ := anyRejectsNull_sound hexpr children h ht.2 _ hbs
            exact ⟨b, List.mem_cons_of_mem _ hb, hne⟩

theorem allRejectNull_sound {expr : Expr ι κ ρ} (hexpr : eval row expr = .ok none) :
    (children : List (Expr ι κ ρ)) → allRejectNull hash expr children = true →
      anyCanThrow children = false → ∀ values : List (Option Bool),
        List.Forall₂ (fun child b => eval row child = .ok (b.map .boolean)) children values →
          ∀ b ∈ values, b ≠ some true
  | [], _, _, _, hvalues => by
      cases hvalues
      exact fun _ hb => (List.not_mem_nil hb).elim
  | child :: children, h, ht, values, hvalues => by
      rw [anyCanThrow, Bool.or_eq_false_iff] at ht
      obtain ⟨hchild, hrest⟩ := Bool.and_eq_true_iff.mp h
      cases hvalues with
      | cons hb hbs =>
          refine List.forall_mem_cons.mpr ⟨fun heq => ?_, ?_⟩
          · exact filterRejectsNull_sound hexpr child hchild ht.1 _ hb (heq ▸ rfl)
          · exact allRejectNull_sound hexpr children hrest ht.2 _ hbs

end

end Equality

end MiniDuck
