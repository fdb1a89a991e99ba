import MiniDuck.Distributivity
import MiniDuck.Rule

/-!
# Predicate factoring

`PredicateFactoringRule.apply` derives a filter on single columns from a
top-level OR: for each column that every branch has a predicate on, the OR
of these predicates. The derived filter is added to the original one, so the
result can be TRUE only where the original is; and where a branch is TRUE,
so are all the predicates taken from it (`Implied`), hence every OR of the
derived filter (`BindingMap.Covered`).
-/

namespace MiniDuck

variable {ι κ ρ : Type}

/-! ## The rule -/

def expressionIsDisjunction : Expr ι κ ρ → Bool
  | .conjunction false _ => true
  | _ => false

mutual

def disjunctedChildren : Expr ι κ ρ → List (Expr ι κ ρ)
  | .conjunction false children => allDisjunctedChildren children
  | expr => [expr]

def allDisjunctedChildren : List (Expr ι κ ρ) → List (Expr ι κ ρ)
  | [] => []
  | child :: children => disjunctedChildren child ++ allDisjunctedChildren children

end

mutual

/-- The column references of an expression, in the order of `VisitExpression`. -/
def columnRefs : Expr ι κ ρ → List ι
  | .column c => [c]
  | .constant _ _ => []
  | .comparison _ l r => columnRefs l ++ columnRefs r
  | .between _ _ i l u => columnRefs i ++ columnRefs l ++ columnRefs u
  | .conjunction _ children => allColumnRefs children
  | .coalesce children => allColumnRefs children
  | .isNull _ child => columnRefs child
  | .arithmetic _ _ _ l r => columnRefs l ++ columnRefs r
  | .constantOrNull _ _ children => allColumnRefs children

def allColumnRefs : List (Expr ι κ ρ) → List ι
  | [] => []
  | child :: children => columnRefs child ++ allColumnRefs children

end

abbrev BindingMap (ι κ ρ : Type) := List (ι × List (Expr ι κ ρ))

section Rule

variable [DecidableEq ι] [DecidableEq κ] (hash : Expr ι κ ρ → Nat)
  (columnBindingIsValid : ι → Bool)

omit [DecidableEq κ] in
/-- `GetSingleColumnBinding`, where `none` stands for the invalid binding that it starts from. No
expression of the model is volatile. -/
def getSingleColumnBinding (expr : Expr ι κ ρ) : Option ι :=
  let (binding, foundMultiple) := (columnRefs expr).foldl (fun (binding, foundMultiple) c =>
    if !binding.any columnBindingIsValid then (some c, foundMultiple)
    else if binding ≠ some c then (binding, true)
    else (binding, foundMultiple)) ((none, false) : Option ι × Bool)
  if binding.any columnBindingIsValid && !foundMultiple then binding else none

omit [DecidableEq κ] in
/-- `binding_map[binding].push_back(expr)`. -/
def BindingMap.push (binding : ι) (expr : Expr ι κ ρ) : BindingMap ι κ ρ → BindingMap ι κ ρ
  | [] => [(binding, [expr])]
  | (c, predicates) :: map =>
      if c = binding then (c, predicates ++ [expr]) :: map
      else (c, predicates) :: BindingMap.push binding expr map

omit [DecidableEq κ] in
def addSinglePredicate (expr : Expr ι κ ρ) (map : BindingMap ι κ ρ) : BindingMap ι κ ρ :=
  match getSingleColumnBinding columnBindingIsValid expr with
  | some binding => map.push binding expr
  | none => map

mutual

/-- The predicates of a branch, which is taken apart where it is an AND. -/
def extractDisjunctedPredicates : Expr ι κ ρ → BindingMap ι κ ρ → BindingMap ι κ ρ
  | .conjunction true children, map => extractConjunctedPredicates children map
  | expr, map => addSinglePredicate columnBindingIsValid expr map

def extractConjunctedPredicates : List (Expr ι κ ρ) → BindingMap ι κ ρ → BindingMap ι κ ρ
  | [], map => map
  | child :: children, map =>
      extractConjunctedPredicates children (extractDisjunctedPredicates child map)

end

/-- A predicate of the next branch, unless it is already there. -/
def mergePredicate (existing : List (Expr ι κ ρ)) (predicate : Expr ι κ ρ) : List (Expr ι κ ρ) :=
  if existing.any fun e => equals hash predicate e then existing else existing ++ [predicate]

def intersectBindings (remaining : BindingMap ι κ ρ) (child : Expr ι κ ρ) : BindingMap ι κ ρ :=
  let childMap := extractDisjunctedPredicates columnBindingIsValid child []
  remaining.filterMap fun (binding, predicates) =>
    (childMap.lookup binding).map fun new => (binding, new.foldl (mergePredicate hash) predicates)

/-- `GetDisjunctedPredicateMap`; `none` is an OR without branches. -/
def getDisjunctedPredicateMap (expr : Expr ι κ ρ) : Option (BindingMap ι κ ρ) :=
  match disjunctedChildren expr with
  | [] => none
  | first :: rest =>
      some (rest.foldl (intersectBindings hash columnBindingIsValid)
        (extractDisjunctedPredicates columnBindingIsValid first []))

omit [DecidableEq ι] [DecidableEq κ] in
def columnFilter : List (Expr ι κ ρ) → Option (Expr ι κ ρ)
  | [] => none
  | expr :: exprs =>
      some (exprs.foldl (fun filter expr => .conjunction false [filter, expr]) expr)

omit [DecidableEq ι] [DecidableEq κ] in
def derivedFilter : BindingMap ι κ ρ → Option (Expr ι κ ρ)
  | [] => none
  | (_, predicates) :: map => do
      let first ← columnFilter predicates
      map.foldlM (fun derived (_, predicates) => do
        let filter ← columnFilter predicates
        some (.conjunction true [filter, derived])) first

/-- `PredicateFactoringRule::Apply`, where `order` is the order in which the columns are visited.
The outer `none` is an access to a branch or a filter that is not there; the inner `none` is the
null pointer that leaves the expression as it is. -/
def PredicateFactoringRule.apply (order : BindingMap ι κ ρ → BindingMap ι κ ρ)
    (op : LogicalOperatorType) (isRoot : Bool) (expr : Expr ι κ ρ) :
    Option (Option (Expr ι κ ρ)) :=
  if (op ≠ .filter ∧ op ≠ .anyJoin) ∨ !isRoot then some none
  else if !expressionIsDisjunction expr then some none
  else if (getSingleColumnBinding columnBindingIsValid expr).isSome then some none
  else do
    let map ← getDisjunctedPredicateMap hash columnBindingIsValid expr
    if map.isEmpty then some none
    else do
      let derived ← derivedFilter (order map)
      some (some (.conjunction true [expr, derived]))

end Rule

/-! ## The predicates of a branch -/

section Predicates

variable [LinearOrder κ] {row : ι → Option (Value κ ρ)}

mutual

/-- The OR of the branches has the value of the expression. -/
theorem disjunctedChildren_hasTruth : (expr : Expr ι κ ρ) → (b : Option Bool) →
    HasTruth row expr b → ∃ bs, List.Forall₂ (HasTruth row) (disjunctedChildren expr) bs ∧
      b = Kleene.joinAll false bs
  | .conjunction false children, b, h => by
      obtain ⟨bs, hbs, rfl⟩ := hasTruth_conjunction_inv h
      exact allDisjunctedChildren_hasTruth children bs hbs
  | .conjunction true _, b, h => ⟨[b], .cons h .nil, (Kleene.joinAll_singleton false b).symm⟩
  | .column _, b, h => ⟨[b], .cons h .nil, (Kleene.joinAll_singleton false b).symm⟩
  | .constant _ _, b, h => ⟨[b], .cons h .nil, (Kleene.joinAll_singleton false b).symm⟩
  | .comparison _ _ _, b, h => ⟨[b], .cons h .nil, (Kleene.joinAll_singleton false b).symm⟩
  | .between _ _ _ _ _, b, h => ⟨[b], .cons h .nil, (Kleene.joinAll_singleton false b).symm⟩
  | .coalesce _, b, h => ⟨[b], .cons h .nil, (Kleene.joinAll_singleton false b).symm⟩
  | .isNull _ _, b, h => ⟨[b], .cons h .nil, (Kleene.joinAll_singleton false b).symm⟩
  | .arithmetic _ _ _ _ _, b, h => ⟨[b], .cons h .nil, (Kleene.joinAll_singleton false b).symm⟩
  | .constantOrNull _ _ _, b, h => ⟨[b], .cons h .nil, (Kleene.joinAll_singleton false b).symm⟩

theorem allDisjunctedChildren_hasTruth : (children : List (Expr ι κ ρ)) →
    (bs : List (Option Bool)) → List.Forall₂ (HasTruth row) children bs →
      ∃ bs', List.Forall₂ (HasTruth row) (allDisjunctedChildren children) bs' ∧
        Kleene.joinAll false bs = Kleene.joinAll false bs'
  | [], _, .nil => ⟨[], .nil, rfl⟩
  | child :: children, b :: bs, .cons h hrest => by
      obtain ⟨cs, hcs, rfl⟩ := disjunctedChildren_hasTruth child b h
      obtain ⟨bs', hbs', heq⟩ := allDisjunctedChildren_hasTruth children bs hrest
      exact ⟨cs ++ bs', List.rel_append hcs hbs', by
        rw [Kleene.joinAll_cons, Kleene.joinAll_append, heq]⟩

end

/-- A predicate that is TRUE where a branch of value `b` is. -/
def Implied (row : ι → Option (Value κ ρ)) (b : Option Bool) (predicate : Expr ι κ ρ) : Prop :=
  ∃ p, HasTruth row predicate p ∧ (b = some true → p = some true)

/-- All predicates of a map are TRUE where the branch is, and each column has one. -/
def BindingMap.Implied (row : ι → Option (Value κ ρ)) (b : Option Bool)
    (map : BindingMap ι κ ρ) : Prop :=
  ∀ entry ∈ map, entry.2 ≠ [] ∧ ∀ predicate ∈ entry.2, MiniDuck.Implied row b predicate

variable [DecidableEq ι] {columnBindingIsValid : ι → Bool}

variable {b : Option Bool} {map : BindingMap ι κ ρ} {expr : Expr ι κ ρ}

theorem BindingMap.Implied.push (h : map.Implied row b) (hexpr : MiniDuck.Implied row b expr)
    (binding : ι) : (map.push binding expr).Implied row b := by
  induction map with
  | nil =>
      intro entry hentry
      rw [List.mem_singleton.mp hentry]
      exact ⟨List.cons_ne_nil _ _, fun p hp => List.mem_singleton.mp hp ▸ hexpr⟩
  | cons entry map ih =>
      obtain ⟨c, predicates⟩ := entry
      obtain ⟨hentry, hmap⟩ := List.forall_mem_cons.mp h
      rw [BindingMap.push]
      split
      · refine List.forall_mem_cons.mpr ⟨⟨List.concat_ne_nil _ _, fun p hp => ?_⟩, hmap⟩
        rcases List.mem_append.mp hp with hp | hp
        · exact hentry.2 p hp
        · exact List.mem_singleton.mp hp ▸ hexpr
      · exact List.forall_mem_cons.mpr ⟨hentry, ih hmap⟩

theorem BindingMap.Implied.addSingle (h : map.Implied row b) (columnBindingIsValid : ι → Bool)
    (hexpr : MiniDuck.Implied row b expr) :
    (addSinglePredicate columnBindingIsValid expr map).Implied row b := by
  unfold addSinglePredicate
  split
  · exact h.push hexpr _
  · exact h

mutual

theorem extractDisjunctedPredicates_implied {b : Option Bool} {map : BindingMap ι κ ρ}
    (hmap : map.Implied row b) : (expr : Expr ι κ ρ) → MiniDuck.Implied row b expr →
      (extractDisjunctedPredicates columnBindingIsValid expr map).Implied row b
  | .conjunction true children, hexpr => by
      obtain ⟨p, hp, himp⟩ := hexpr
      obtain ⟨bs, hbs, rfl⟩ := hasTruth_conjunction_inv hp
      refine extractConjunctedPredicates_implied hmap children fun child hchild => ?_
      obtain ⟨q, hq, hchildq⟩ := exists_right_of_mem hbs hchild
      exact ⟨q, hchildq, fun hb => (Kleene.joinAll_eq_unit_iff true bs).mp (himp hb) q hq⟩
  | .conjunction false _, hexpr => hmap.addSingle _ hexpr
  | .column _, hexpr => hmap.addSingle _ hexpr
  | .constant _ _, hexpr => hmap.addSingle columnBindingIsValid hexpr
  | .comparison _ _ _, hexpr => hmap.addSingle _ hexpr
  | .between _ _ _ _ _, hexpr => hmap.addSingle _ hexpr
  | .coalesce _, hexpr => hmap.addSingle _ hexpr
  | .isNull _ _, hexpr => hmap.addSingle _ hexpr
  | .arithmetic _ _ _ _ _, hexpr => hmap.addSingle _ hexpr
  | .constantOrNull _ _ _, hexpr => hmap.addSingle _ hexpr

theorem extractConjunctedPredicates_implied {b : Option Bool} {map : BindingMap ι κ ρ}
    (hmap : map.Implied row b) : (children : List (Expr ι κ ρ)) →
      (∀ child ∈ children, MiniDuck.Implied row b child) →
        (extractConjunctedPredicates columnBindingIsValid children map).Implied row b
  | [], _ => hmap
  | child :: children, hchildren =>
      extractConjunctedPredicates_implied
        (extractDisjunctedPredicates_implied hmap child (List.forall_mem_cons.mp hchildren).1)
        children (List.forall_mem_cons.mp hchildren).2

end

/-- The predicates of a branch have values, and are TRUE where the branch is. -/
theorem branch_implied (h : HasTruth row expr b) :
    (extractDisjunctedPredicates columnBindingIsValid expr []).Implied row b :=
  extractDisjunctedPredicates_implied (fun _ hentry => absurd hentry List.not_mem_nil) expr
    ⟨b, h, id⟩

/-! ## The predicates of all branches -/

variable {hash : Expr ι κ ρ → Nat}

variable {existing : List (Expr ι κ ρ)}

theorem mergePredicate_spec (hash : Expr ι κ ρ → Nat) {predicate : Expr ι κ ρ} {p : Option Bool}
    (hexisting : ∀ e ∈ existing, ∃ q, HasTruth row e q) (hp : HasTruth row predicate p) :
    existing ⊆ mergePredicate hash existing predicate ∧
      (∀ e ∈ mergePredicate hash existing predicate, ∃ q, HasTruth row e q) ∧
      ∃ e ∈ mergePredicate hash existing predicate, HasTruth row e p := by
  unfold mergePredicate
  split
  · rename_i hfound
    obtain ⟨e, he, hequal⟩ := List.any_eq_true.mp hfound
    obtain ⟨q, hq⟩ := hexisting e he
    exact ⟨List.Subset.refl _, hexisting, e, he, (hp.agree hq hequal) ▸ hq⟩
  · refine ⟨List.subset_append_left _ _, fun e he => ?_, predicate, List.mem_concat_self, hp⟩
    rcases List.mem_append.mp he with he | he
    · exact hexisting e he
    · exact ⟨p, List.mem_singleton.mp he ▸ hp⟩

theorem mergePredicates_spec (hash : Expr ι κ ρ → Nat) {new : List (Expr ι κ ρ)}
    (hexisting : ∀ e ∈ existing, ∃ q, HasTruth row e q) (hnew : ∀ e ∈ new, ∃ q, HasTruth row e q) :
    existing ⊆ new.foldl (mergePredicate hash) existing ∧
      (∀ e ∈ new.foldl (mergePredicate hash) existing, ∃ q, HasTruth row e q) ∧
      ∀ predicate ∈ new, ∀ p, HasTruth row predicate p →
        ∃ e ∈ new.foldl (mergePredicate hash) existing, HasTruth row e p := by
  induction new generalizing existing with
  | nil => exact ⟨List.Subset.refl _, hexisting, fun _ h => absurd h List.not_mem_nil⟩
  | cons predicate new ih =>
      obtain ⟨⟨p, hp⟩, hrest⟩ := List.forall_mem_cons.mp hnew
      obtain ⟨hsub, hall, e, he, hep⟩ := mergePredicate_spec hash hexisting hp
      obtain ⟨hsub', hall', hfound⟩ := ih hall hrest
      refine ⟨List.Subset.trans hsub hsub', hall', List.forall_mem_cons.mpr ⟨fun q hq => ?_, hfound⟩⟩
      rw [hq.unique hp]
      exact ⟨e, hsub' he, hep⟩

/-- The predicates have values, and one of them is TRUE if `b` is. -/
structure CoveringPredicates (row : ι → Option (Value κ ρ)) (b : Option Bool)
    (predicates : List (Expr ι κ ρ)) : Prop where
  ne_nil : predicates ≠ []
  hasTruth : ∀ predicate ∈ predicates, ∃ p, HasTruth row predicate p
  exists_true : b = some true → ∃ predicate ∈ predicates, HasTruth row predicate (some true)

omit [DecidableEq ι] in
theorem covered_of_implied {b : Option Bool} {predicates : List (Expr ι κ ρ)}
    (hne : predicates ≠ []) (h : ∀ predicate ∈ predicates, Implied row b predicate) :
    CoveringPredicates row b predicates := by
  refine ⟨hne, fun predicate hp => ?_, fun hb => ?_⟩
  · obtain ⟨p, hvalue, -⟩ := h predicate hp
    exact ⟨p, hvalue⟩
  · obtain ⟨predicate, hp⟩ := List.exists_mem_of_ne_nil predicates hne
    obtain ⟨p, hvalue, himp⟩ := h predicate hp
    exact ⟨predicate, hp, himp hb ▸ hvalue⟩

theorem CoveringPredicates.merge {new : List (Expr ι κ ρ)} {c : Option Bool}
    (h : CoveringPredicates row b existing) (hnew : CoveringPredicates row c new) :
    CoveringPredicates row (Kleene.join false b c) (new.foldl (mergePredicate hash) existing) := by
  obtain ⟨hsub, hall, hfound⟩ := mergePredicates_spec hash h.hasTruth hnew.hasTruth
  refine ⟨fun hnil => h.ne_nil (List.subset_nil.mp (hnil ▸ hsub)), hall, fun htrue => ?_⟩
  rcases (Kleene.join_eq_absorbing_iff false b c).mp htrue with hb | hc
  · obtain ⟨e, he, hvalue⟩ := h.exists_true hb
    exact ⟨e, hsub he, hvalue⟩
  · obtain ⟨e, he, hvalue⟩ := hnew.exists_true hc
    exact hfound e he _ hvalue

/-- Each column has a predicate that is TRUE if `b` is. -/
def BindingMap.Covered (row : ι → Option (Value κ ρ)) (b : Option Bool)
    (map : BindingMap ι κ ρ) : Prop :=
  ∀ entry ∈ map, CoveringPredicates row b entry.2

theorem branch_covered (columnBindingIsValid : ι → Bool) (h : HasTruth row expr b) :
    (extractDisjunctedPredicates columnBindingIsValid expr []).Covered row b := by
  intro entry hentry
  obtain ⟨hne, hall⟩ := branch_implied h entry hentry
  exact covered_of_implied hne hall

theorem intersectBindings_covered {remaining : BindingMap ι κ ρ} {child : Expr ι κ ρ}
    {c : Option Bool} (h : remaining.Covered row b) (hchild : HasTruth row child c) :
    (intersectBindings hash columnBindingIsValid remaining child).Covered row
      (Kleene.join false b c) := by
  intro entry hentry
  obtain ⟨⟨binding, predicates⟩, hmem, hmap⟩ := List.mem_filterMap.mp hentry
  obtain ⟨new, hnew, rfl⟩ := Option.map_eq_some_iff.mp hmap
  obtain ⟨before, after, hlookup, -⟩ := List.lookup_eq_some_iff.mp hnew
  have hchildMap := branch_covered columnBindingIsValid hchild
  rw [hlookup] at hchildMap
  exact (h _ hmem).merge (hchildMap (binding, new) List.mem_append_cons_self)

theorem foldl_intersectBindings_covered {remaining : BindingMap ι κ ρ}
    {children : List (Expr ι κ ρ)} {bs : List (Option Bool)} (h : remaining.Covered row b)
    (hchildren : List.Forall₂ (HasTruth row) children bs) :
    (children.foldl (intersectBindings hash columnBindingIsValid) remaining).Covered row
      (Kleene.join false b (Kleene.joinAll false bs)) := by
  induction hchildren generalizing remaining b with
  | nil => rwa [Kleene.joinAll_nil, Kleene.join_comm, Kleene.join_unit]
  | cons hchild _ ih =>
      rw [Kleene.joinAll_cons, ← Kleene.join_assoc]
      exact ih (intersectBindings_covered h hchild)

theorem getDisjunctedPredicateMap_covered (h : HasTruth row expr b)
    (hmap : getDisjunctedPredicateMap hash columnBindingIsValid expr = some map) :
    map.Covered row b := by
  obtain ⟨bs, hbs, rfl⟩ := disjunctedChildren_hasTruth expr b h
  unfold getDisjunctedPredicateMap at hmap
  cases hchildren : disjunctedChildren expr with
  | nil => rw [hchildren] at hmap; cases hmap
  | cons first rest =>
      rw [hchildren] at hmap hbs
      obtain rfl := Option.some.inj hmap
      cases hbs with
      | cons hfirst hrest =>
          exact foldl_intersectBindings_covered (branch_covered columnBindingIsValid hfirst) hrest

/-! ## The derived filter -/

omit [DecidableEq ι] in
theorem foldl_or_hasTruth {expr : Expr ι κ ρ} {exprs : List (Expr ι κ ρ)} {p : Option Bool}
    {ps : List (Option Bool)} (h : HasTruth row expr p)
    (hexprs : List.Forall₂ (HasTruth row) exprs ps) :
    HasTruth row (exprs.foldl (fun filter expr => .conjunction false [filter, expr]) expr)
      (Kleene.joinAll false (p :: ps)) := by
  induction hexprs generalizing expr p with
  | nil => rwa [Kleene.joinAll_singleton]
  | @cons e q exprs ps hq _ ih =>
      have hpair : HasTruth row (.conjunction false [expr, e]) (Kleene.joinAll false [p, q]) :=
        hasTruth_conjunction (.cons h (.cons hq .nil))
      have hor := ih hpair
      rw [Kleene.joinAll_cons, ← Kleene.joinAll_append] at hor
      exact hor

omit [DecidableEq ι] in
theorem Implied.and {b : Option Bool} {filter derived : Expr ι κ ρ} (h : Implied row b filter)
    (hderived : Implied row b derived) : Implied row b (.conjunction true [filter, derived]) := by
  obtain ⟨p, hp, himp⟩ := h
  obtain ⟨q, hq, himp'⟩ := hderived
  refine ⟨_, hasTruth_conjunction (.cons hp (.cons hq .nil)), fun hb => ?_⟩
  rw [himp hb, himp' hb]
  rfl

omit [DecidableEq ι] in
/-- The OR of the predicates is TRUE if one of them is. -/
theorem columnFilter_implied {predicates : List (Expr ι κ ρ)} {b : Option Bool}
    (h : CoveringPredicates row b predicates) :
    ∃ filter, columnFilter predicates = some filter ∧ Implied row b filter := by
  cases predicates with
  | nil => exact absurd rfl h.ne_nil
  | cons expr exprs =>
      obtain ⟨ps, hps⟩ := exists_forall₂ h.hasTruth
      cases hps with
      | @cons _ p _ ps hp hps =>
          refine ⟨_, rfl, _, foldl_or_hasTruth hp hps, fun hb => ?_⟩
          obtain ⟨predicate, hpredicate, htrue⟩ := h.exists_true hb
          obtain ⟨q, hq, hvalue⟩ := exists_right_of_mem (List.Forall₂.cons hp hps) hpredicate
          obtain rfl := htrue.unique hvalue
          exact (Kleene.joinAll_eq_absorbing_iff false (p :: ps)).mpr hq

omit [DecidableEq ι] in
theorem derivedFilter_implied {map : BindingMap ι κ ρ} {b : Option Bool} (hne : map ≠ [])
    (h : map.Covered row b) :
    ∃ derived, derivedFilter map = some derived ∧ Implied row b derived := by
  obtain ⟨entry, map, rfl⟩ := List.exists_cons_of_ne_nil hne
  obtain ⟨hentry, hmap⟩ := List.forall_mem_cons.mp h
  obtain ⟨first, hfirst, hfirstImplied⟩ := columnFilter_implied hentry
  suffices hfold : ∀ (map : BindingMap ι κ ρ) (first : Expr ι κ ρ), map.Covered row b →
      Implied row b first → ∃ derived, map.foldlM (fun derived entry => do
        let filter ← columnFilter entry.2
        some (.conjunction true [filter, derived])) first = some derived ∧
          Implied row b derived by
    obtain ⟨derived, hderived, himplied⟩ := hfold map first hmap hfirstImplied
    refine ⟨derived, ?_, himplied⟩
    rw [derivedFilter, hfirst]
    exact hderived
  clear hfirst hfirstImplied h hne hmap hentry entry map first
  intro map
  induction map with
  | nil => exact fun first _ hfirst => ⟨first, rfl, hfirst⟩
  | cons entry map ih =>
      intro first h hfirst
      obtain ⟨hentry, hmap⟩ := List.forall_mem_cons.mp h
      obtain ⟨filter, hfilter, hfilterImplied⟩ := columnFilter_implied hentry
      rw [List.foldlM_cons, hfilter]
      exact ih _ hmap (hfilterImplied.and hfirst)

omit [LinearOrder κ] in
theorem getDisjunctedPredicateMap_some [DecidableEq κ] (hash : Expr ι κ ρ → Nat)
    (columnBindingIsValid : ι → Bool) {expr : Expr ι κ ρ} (h : disjunctedChildren expr ≠ []) :
    ∃ map, getDisjunctedPredicateMap hash columnBindingIsValid expr = some map := by
  unfold getDisjunctedPredicateMap
  cases hchildren : disjunctedChildren expr with
  | nil => exact absurd hchildren h
  | cons first rest => exact ⟨_, rfl⟩

omit [DecidableEq ι] in
theorem truth_of_disjunction {expr : Expr ι κ ρ} {v : Option (Value κ ρ)}
    (h : ¬ (!expressionIsDisjunction expr) = true) (hv : eval row expr = .ok v) :
    ∃ b, HasTruth row expr b ∧ v = b.map .boolean := by
  cases expr with
  | conjunction isAnd children =>
      obtain ⟨bs, -, rfl⟩ := eval_conjunction.mp hv
      exact ⟨_, hv, rfl⟩
  | _ => exact absurd rfl h

omit [LinearOrder κ] [DecidableEq ι] in
theorem map_boolean_true_iff {b : Option Bool} :
    b.map Value.boolean = some (.boolean true : Value κ ρ) ↔ b = some true :=
  map_boolean_injective.eq_iff (b := some true)

theorem predicate_factoring (hash : Expr ι κ ρ → Nat) (columnBindingIsValid : ι → Bool)
    (order : BindingMap ι κ ρ → BindingMap ι κ ρ) (horder : ∀ map, (order map).Perm map)
    (op : LogicalOperatorType) (isRoot : Bool) {filter : Expr ι κ ρ}
    (hbranches : disjunctedChildren filter ≠ []) {v : Option (Value κ ρ)}
    (hv : eval row filter = .ok v) :
    ∃ result, PredicateFactoringRule.apply hash columnBindingIsValid order op isRoot filter =
        some result ∧
      ∀ e ∈ result, ∃ v', eval row e = .ok v' ∧
        (v' = some (.boolean true) ↔ v = some (.boolean true)) := by
  unfold PredicateFactoringRule.apply
  split
  · exact ⟨none, rfl, fun e he => nomatch he⟩
  split
  · exact ⟨none, rfl, fun e he => nomatch he⟩
  rename_i hdisjunction
  split
  · exact ⟨none, rfl, fun e he => nomatch he⟩
  obtain ⟨map, hmap⟩ := getDisjunctedPredicateMap_some hash columnBindingIsValid hbranches
  rw [hmap]
  simp only [Option.bind_eq_bind, Option.bind_some]
  split
  · exact ⟨none, rfl, fun e he => nomatch he⟩
  · rename_i hempty
    obtain ⟨b, hb, rfl⟩ := truth_of_disjunction hdisjunction hv
    have hcovered := getDisjunctedPredicateMap_covered hb hmap
    have hne : order map ≠ [] := by
      intro hnil
      exact hempty (List.isEmpty_iff.mpr ((hnil ▸ horder map).nil_eq.symm))
    obtain ⟨derived, hderived, d, hd, himp⟩ := derivedFilter_implied hne
      fun entry hentry => hcovered entry ((horder map).mem_iff.mp hentry)
    refine ⟨some (.conjunction true [filter, derived]), by rw [hderived]; rfl, fun e he => ?_⟩
    obtain rfl := Option.some.inj he
    refine ⟨_, hasTruth_conjunction (.cons hb (.cons hd .nil)), ?_⟩
    rw [map_boolean_true_iff, map_boolean_true_iff, Kleene.joinAll_cons, Kleene.joinAll_singleton,
      Kleene.join_eq_unit_iff]
    exact ⟨fun h => h.1, fun h => ⟨h, himp h⟩⟩

/-- Both rules keep the truth of the conditions that they rewrite. -/
theorem boolean_factoring (hash : Expr ι κ ρ → Nat) (columnBindingIsValid : ι → Bool)
    (candidateOrder : List (Expr ι κ ρ) → List (Expr ι κ ρ))
    (hcandidates : ∀ set, (candidateOrder set).Perm set)
    (bindingOrder : BindingMap ι κ ρ → BindingMap ι κ ρ)
    (hbindings : ∀ map, (bindingOrder map).Perm map) (row : ι → Option (Value κ ρ)) :
    (∀ first rest v, eval row (.conjunction false (first :: rest)) = .ok v →
      ∃ result, DistributivityRule.apply hash candidateOrder (first :: rest) = some result ∧
        ∀ e ∈ result, eval row e = .ok v) ∧
    ∀ op isRoot filter v, disjunctedChildren filter ≠ [] → eval row filter = .ok v →
      ∃ result, PredicateFactoringRule.apply hash columnBindingIsValid bindingOrder op isRoot
          filter = some result ∧
        ∀ e ∈ result, ∃ v', eval row e = .ok v' ∧
          (v' = some (.boolean true) ↔ v = some (.boolean true)) :=
  ⟨fun _ _ _ hv => distributivity hash candidateOrder hcandidates hv,
    fun op isRoot _ _ hbranches hv =>
      predicate_factoring hash columnBindingIsValid bindingOrder hbindings op isRoot hbranches hv⟩

end Predicates

section Example

/-- `(a AND b) OR (a AND c)`. -/
def commonConjunct : List (Expr (Fin 3) Unit Unit) :=
  [.conjunction true [.column 0, .column 1], .conjunction true [.column 0, .column 2]]

/-- `a` is TRUE, `b` is NULL and `c` is FALSE. -/
def commonConjunctRow : Fin 3 → Option (Value Unit Unit) :=
  ![some (.boolean true), none, some (.boolean false)]

theorem boolean_factoring_common :
    eval commonConjunctRow (.conjunction true [.column 0, .conjunction false [.column 1, .column 2]])
        = .ok none ∧
      ∃ v, eval commonConjunctRow
        (.conjunction true [.conjunction false commonConjunct, .column 0]) = .ok v ∧
          v ≠ some (.boolean true) := by
  obtain ⟨hdistributivity, hfactoring⟩ := boolean_factoring (fun _ => 0) (fun _ => true)
    id (fun _ => .refl _) id (fun _ => .refl _) commonConjunctRow
  constructor
  · obtain ⟨result, hresult, hvalue⟩ := hdistributivity _ _ none
      (rfl : eval commonConjunctRow (.conjunction false commonConjunct) = .ok none)
    obtain rfl := Option.some.inj hresult
    exact hvalue _ rfl
  · obtain ⟨result, hresult, hvalue⟩ := hfactoring .filter true (.conjunction false commonConjunct)
      none (List.cons_ne_nil _ _) rfl
    obtain rfl := Option.some.inj hresult
    obtain ⟨v, hv, htrue⟩ := hvalue _ rfl
    exact ⟨v, hv, fun h => nomatch htrue.mp h⟩

end Example

end MiniDuck
