import MiniDuck.ExpressionClasses

/-!
# Distributivity of OR over AND

`DistributivityRule.apply` takes the conjuncts that all branches of an OR
have in common out of the branches. It moves one candidate at a time; a
branch that is left with one conjunct becomes that conjunct, and a branch
that is left with nothing becomes a null pointer (`none`).

`Shows slot conjuncts` says which conjuncts a branch still stands for, and
`Branch` that the remaining candidates cover them, so that each candidate is
found wherever it is looked for. One step (`extractCandidate_spec`) keeps
the value of the OR, as AND distributes over OR (`joinAll_distrib`). The
first branch can only be used up by the last candidate; the others are then
absorbed by it.
-/

namespace MiniDuck

namespace Kleene

theorem join_distrib : ∀ u a b c, join (!u) (join u a b) (join u a c) =
    join u a (join (!u) b c) := by decide

theorem join_absorb : ∀ u a b, join (!u) a (join u a b) = a := by decide

theorem joinAll_distrib {u : Bool} {a : Option Bool} {ts ts' : List (Option Bool)}
    (h : List.Forall₂ (fun t t' => t = join u a t') ts ts') :
    joinAll (!u) ts = join u a (joinAll (!u) ts') := by
  induction h with
  | nil => rw [joinAll_nil, join_comm, join_absorbing]
  | cons ht _ ih => rw [joinAll_cons, joinAll_cons, ht, ih, join_distrib]

theorem joinAll_absorb {u : Bool} {a : Option Bool} {ts : List (Option Bool)}
    (h : ∀ t ∈ ts, ∃ t', t = join u a t') : joinAll (!u) (a :: ts) = a := by
  induction ts with
  | nil => rw [joinAll_singleton]
  | cons t ts ih =>
      obtain ⟨t', rfl⟩ := h t (List.mem_cons_self ..)
      have hrest := ih fun t ht => h t (List.mem_cons_of_mem _ ht)
      rw [joinAll_cons] at hrest
      rw [joinAll_cons, joinAll_cons, ← join_assoc, join_absorb, hrest]

end Kleene

variable {ι κ ρ : Type}

/-! ## The rule -/

section Rule

variable [DecidableEq ι] [DecidableEq κ] (hash : Expr ι κ ρ → Nat)

/-- Insertion into an `expression_set_t`. -/
def insertExpression (set : List (Expr ι κ ρ)) (expr : Expr ι κ ρ) : List (Expr ι κ ρ) :=
  if set.any fun e => sameEntry hash e expr then set else set ++ [expr]

def addExpressionSet (expr : Expr ι κ ρ) (set : List (Expr ι κ ρ)) : List (Expr ι κ ρ) :=
  match expr with
  | .conjunction true children => children.foldl (insertExpression hash) set
  | expr => insertExpression hash set expr

def intersectCandidates (candidates : List (Expr ι κ ρ)) (child : Expr ι κ ρ) :
    List (Expr ι κ ρ) :=
  let next := addExpressionSet hash child []
  candidates.filter fun expr => next.any fun e => sameEntry hash e expr

def candidateSet (first : Expr ι κ ρ) (rest : List (Expr ι κ ρ)) : List (Expr ι κ ρ) :=
  rest.foldl (intersectCandidates hash) (addExpressionSet hash first [])

/-- The first operand that equals `expr`, and the others. -/
def extractOperand (expr : Expr ι κ ρ) :
    List (Expr ι κ ρ) → Option (Expr ι κ ρ × List (Expr ι κ ρ))
  | [] => none
  | child :: children =>
      if equals hash child expr then some (child, children)
      else (extractOperand expr children).map fun (result, rest) => (result, child :: rest)

omit [DecidableEq ι] [DecidableEq κ] in
def collapseAnd : List (Expr ι κ ρ) → Expr ι κ ρ
  | [child] => child
  | children => .conjunction true children

/-- What `ExtractExpression` returns for a branch, and what it leaves of it. -/
def extractExpression (expr : Expr ι κ ρ) : Expr ι κ ρ → Expr ι κ ρ × Option (Expr ι κ ρ)
  | .conjunction true children =>
      match extractOperand hash expr children with
      | some (result, rest) => (result, some (collapseAnd rest))
      | none => (collapseAnd children, none)
  | child => (child, none)

/-- A branch that is a null pointer has no conjunct to extract. -/
def extractCandidate (expr : Expr ι κ ρ) :
    List (Option (Expr ι κ ρ)) → Option (Expr ι κ ρ × List (Option (Expr ι κ ρ)))
  | some first :: rest => do
      let (result, slot) := extractExpression hash expr first
      let slots ← rest.mapM fun child => child.map fun child => (extractExpression hash result child).2
      some (result, slot :: slots)
  | _ => none

def extractCandidates : List (Expr ι κ ρ) → List (Expr ι κ ρ) → List (Option (Expr ι κ ρ)) →
    Option (List (Expr ι κ ρ) × List (Option (Expr ι κ ρ)))
  | [], newRoot, slots => some (newRoot, slots)
  | expr :: candidates, newRoot, slots => do
      let (result, slots') ← extractCandidate hash expr slots
      extractCandidates candidates (newRoot ++ [result]) slots'

omit [DecidableEq ι] [DecidableEq κ] in
def remainingOr : List (Expr ι κ ρ) → List (Expr ι κ ρ)
  | [] => []
  | [branch] => [branch]
  | branches => [.conjunction false branches]

omit [DecidableEq ι] [DecidableEq κ] in
/-- The conjunction of the extracted conjuncts and what is left of the OR, unless a branch is
used up. -/
def distributedRoot (newRoot : List (Expr ι κ ρ)) (slots : List (Option (Expr ι κ ρ))) :
    Option (Expr ι κ ρ) :=
  match slots.mapM id with
  | none => if newRoot.isEmpty then none else some (collapseAnd newRoot)
  | some branches => some (collapseAnd (newRoot ++ remainingOr branches))

/-- `DistributivityRule::Apply` for an OR of `children`, where `order` is the order in which the
candidates are visited. The outer `none` is an access to a branch or an operand that is not
there; the inner `none` is the null pointer that leaves the expression as it is. -/
def DistributivityRule.apply (order : List (Expr ι κ ρ) → List (Expr ι κ ρ))
    (children : List (Expr ι κ ρ)) : Option (Option (Expr ι κ ρ)) :=
  match children with
  | [] => none
  | first :: rest =>
      let candidates := candidateSet hash first rest
      if candidates.isEmpty then some none
      else do
        let (newRoot, slots) ← extractCandidates hash (order candidates) [] (children.map some)
        let root ← distributedRoot newRoot slots
        some (some root)

end Rule

/-! ## The candidates -/

/-- The operands of the AND that a branch is, or the branch alone. -/
def conjuncts : Expr ι κ ρ → List (Expr ι κ ρ)
  | .conjunction true children => children
  | expr => [expr]

section Candidates

variable [DecidableEq ι] [DecidableEq κ] {hash : Expr ι κ ρ → Nat}

theorem addExpressionSet_eq (expr : Expr ι κ ρ) (set : List (Expr ι κ ρ)) :
    addExpressionSet hash expr set = (conjuncts expr).foldl (insertExpression hash) set := by
  cases expr with
  | conjunction isAnd children => cases isAnd <;> rfl
  | _ => rfl

def Distinct (hash : Expr ι κ ρ → Nat) (set : List (Expr ι κ ρ)) : Prop :=
  set.Pairwise fun e e' => ¬ sameEntry hash e e' = true

theorem insertExpression_distinct {set : List (Expr ι κ ρ)} (h : Distinct hash set)
    (expr : Expr ι κ ρ) : Distinct hash (insertExpression hash set expr) := by
  unfold insertExpression
  split
  · exact h
  · rename_i hnew
    rw [List.any_eq_true] at hnew
    refine List.pairwise_append.mpr ⟨h, List.pairwise_singleton _ _, ?_⟩
    intro e he e' he' hsame
    rw [List.mem_singleton.mp he'] at hsame
    exact hnew ⟨e, he, hsame⟩

theorem insertExpression_subset {set : List (Expr ι κ ρ)} {expr e : Expr ι κ ρ}
    (h : e ∈ insertExpression hash set expr) : e ∈ set ∨ e = expr := by
  unfold insertExpression at h
  split at h
  · exact .inl h
  · exact (List.mem_append.mp h).imp_right List.mem_singleton.mp

theorem foldl_insertExpression (exprs : List (Expr ι κ ρ)) {set : List (Expr ι κ ρ)}
    (h : Distinct hash set) :
    Distinct hash (exprs.foldl (insertExpression hash) set) ∧
      ∀ e ∈ exprs.foldl (insertExpression hash) set, e ∈ set ∨ e ∈ exprs := by
  induction exprs generalizing set with
  | nil => exact ⟨h, fun _ he => .inl he⟩
  | cons expr exprs ih =>
      obtain ⟨hdistinct, hmem⟩ := ih (insertExpression_distinct h expr)
      refine ⟨hdistinct, fun e he => ?_⟩
      rcases hmem e he with he | he
      · rcases insertExpression_subset he with he | rfl
        · exact .inl he
        · exact .inr (List.mem_cons_self ..)
      · exact .inr (List.mem_cons_of_mem _ he)

theorem addExpressionSet_spec (hash : Expr ι κ ρ → Nat) (child : Expr ι κ ρ) :
    Distinct hash (addExpressionSet hash child []) ∧
      ∀ e ∈ addExpressionSet hash child [], e ∈ conjuncts child := by
  rw [addExpressionSet_eq]
  obtain ⟨hdistinct, hmem⟩ := foldl_insertExpression (conjuncts child)
    (List.Pairwise.nil : Distinct hash [])
  exact ⟨hdistinct, fun e he => (hmem e he).resolve_left List.not_mem_nil⟩

theorem candidateSet_spec (hash : Expr ι κ ρ → Nat) (first : Expr ι κ ρ) (rest : List (Expr ι κ ρ)) :
    Distinct hash (candidateSet hash first rest) ∧
      ∀ c ∈ candidateSet hash first rest, ∀ child ∈ first :: rest,
        ∃ e ∈ conjuncts child, sameEntry hash e c = true := by
  suffices h : ∀ (seen candidates : List (Expr ι κ ρ)), Distinct hash candidates →
      (∀ c ∈ candidates, ∀ child ∈ seen, ∃ e ∈ conjuncts child, sameEntry hash e c = true) →
      Distinct hash (rest.foldl (intersectCandidates hash) candidates) ∧
        ∀ c ∈ rest.foldl (intersectCandidates hash) candidates, ∀ child ∈ seen ++ rest,
          ∃ e ∈ conjuncts child, sameEntry hash e c = true by
    obtain ⟨hdistinct, hmem⟩ := addExpressionSet_spec hash first
    refine h [first] _ hdistinct fun c hc child hchild => ?_
    rw [List.mem_singleton.mp hchild]
    exact ⟨c, hmem c hc, sameEntry_refl c⟩
  clear first
  induction rest with
  | nil =>
      intro seen candidates hdistinct hseen
      rw [List.append_nil]
      exact ⟨hdistinct, hseen⟩
  | cons next rest ih =>
      intro seen candidates hdistinct hseen
      have hstep := ih (seen ++ [next]) (intersectCandidates hash candidates next)
        (hdistinct.sublist List.filter_sublist)
      rw [List.append_assoc] at hstep
      refine hstep fun c hc child hchild => ?_
      obtain ⟨hc, hnext⟩ := List.mem_filter.mp hc
      rcases List.mem_append.mp hchild with hchild | hchild
      · exact hseen c hc child hchild
      · obtain ⟨e, he, hsame⟩ := List.any_eq_true.mp hnext
        rw [List.mem_singleton.mp hchild]
        exact ⟨e, (addExpressionSet_spec hash next).2 e he, hsame⟩

end Candidates

/-! ## One extraction -/

section Extraction

variable [DecidableEq ι] [DecidableEq κ] {hash : Expr ι κ ρ → Nat}

theorem extractOperand_spec {expr d : Expr ι κ ρ} {es rest : List (Expr ι κ ρ)}
    (h : extractOperand hash expr es = some (d, rest)) :
    es.Perm (d :: rest) ∧ equals hash d expr = true := by
  induction es generalizing rest with
  | nil => cases h
  | cons e es ih =>
      rw [extractOperand] at h
      split at h
      · rename_i hequal
        cases h
        exact ⟨.refl _, hequal⟩
      · obtain ⟨⟨x, rest'⟩, hrest, heq⟩ := Option.map_eq_some_iff.mp h
        cases heq
        obtain ⟨hperm, hequal⟩ := ih hrest
        exact ⟨(hperm.cons e).trans (.swap d e rest'), hequal⟩

theorem extractOperand_isSome {expr : Expr ι κ ρ} {es : List (Expr ι κ ρ)}
    (h : ∃ e ∈ es, equals hash e expr = true) :
    ∃ d rest, extractOperand hash expr es = some (d, rest) := by
  induction es with
  | nil =>
      obtain ⟨e, he, -⟩ := h
      cases he
  | cons e es ih =>
      rw [extractOperand]
      by_cases hequal : equals hash e expr = true
      · exact ⟨e, es, if_pos hequal⟩
      · obtain ⟨e', he', hequal'⟩ := h
        rcases List.mem_cons.mp he' with rfl | he'
        · exact absurd hequal' hequal
        · obtain ⟨d, rest, hrest⟩ := ih ⟨e', he', hequal'⟩
          exact ⟨d, e :: rest, by rw [if_neg hequal, hrest]; rfl⟩

/-- What a slot of the OR still stands for: a conjunct alone, an AND of conjuncts, or nothing. -/
inductive Shows : Option (Expr ι κ ρ) → List (Expr ι κ ρ) → Prop
  | alone (e : Expr ι κ ρ) : Shows (some e) [e]
  | conjunction (es : List (Expr ι κ ρ)) : Shows (some (.conjunction true es)) es
  | erased : Shows none []

omit [DecidableEq ι] [DecidableEq κ] in
theorem shows_conjuncts (child : Expr ι κ ρ) : Shows (some child) (conjuncts child) := by
  cases child with
  | conjunction isAnd children =>
      cases isAnd with
      | false => exact .alone _
      | true => exact .conjunction _
  | _ => exact .alone _

omit [DecidableEq ι] [DecidableEq κ] in
theorem shows_collapseAnd (es : List (Expr ι κ ρ)) : Shows (some (collapseAnd es)) es :=
  match es with
  | [] => .conjunction []
  | [e] => .alone e
  | _ :: _ :: _ => .conjunction _

theorem extractExpression_operand {expr d : Expr ι κ ρ} {es rest : List (Expr ι κ ρ)}
    (h : extractOperand hash expr es = some (d, rest)) :
    ∃ slot, extractExpression hash expr (.conjunction true es) = (d, slot) ∧ Shows slot rest := by
  rw [extractExpression, h]
  exact ⟨_, rfl, shows_collapseAnd rest⟩

/-- A branch of the size of the conjunct is not searched for it but taken as a whole. -/
theorem extractExpression_alone {expr e : Expr ι κ ρ} (h : nodes e = nodes expr) :
    (extractExpression hash expr e).2 = none ∧
      ((extractExpression hash expr e).1 = e ∨
        ∃ es, (extractExpression hash expr e).1 = collapseAnd es ∧ e = .conjunction true es) := by
  cases e with
  | conjunction isAnd es =>
      cases isAnd with
      | false => exact ⟨rfl, .inl rfl⟩
      | true =>
          have hnone : extractOperand hash expr es = none := by
            rw [Option.eq_none_iff_forall_ne_some]
            rintro ⟨d, rest⟩ hsome
            obtain ⟨hperm, hequal⟩ := extractOperand_spec hsome
            have hle := nodes_le_of_mem (hperm.mem_iff.mpr (List.mem_cons_self ..))
            have hd := nodes_equals d expr hequal
            rw [nodes] at h
            omega
          rw [extractExpression, hnone]
          exact ⟨rfl, .inr ⟨es, rfl, rfl⟩⟩
  | _ => exact ⟨rfl, .inl rfl⟩

end Extraction

/-! ## The value of the OR -/

section Value

variable [LinearOrder κ]

/-- An operand of a conjunction has the truth value `b`. -/
def HasTruth (row : ι → Option (Value κ ρ)) (e : Expr ι κ ρ) (b : Option Bool) : Prop :=
  eval row e = .ok (b.map .boolean)

variable {row : ι → Option (Value κ ρ)}

theorem hasTruth_conjunction {isAnd : Bool} {es : List (Expr ι κ ρ)} {bs : List (Option Bool)}
    (h : List.Forall₂ (HasTruth row) es bs) :
    HasTruth row (.conjunction isAnd es) (Kleene.joinAll isAnd bs) :=
  eval_conjunction.mpr ⟨bs, evalTruths_eq_ok.mpr h, rfl⟩

theorem HasTruth.unique {e : Expr ι κ ρ} {b b' : Option Bool} (h : HasTruth row e b)
    (h' : HasTruth row e b') : b = b' :=
  map_boolean_injective (Except.ok.inj (h.symm.trans h'))

/-- A slot has the value of the AND of its conjuncts. -/
theorem Shows.hasTruth {e : Expr ι κ ρ} {es : List (Expr ι κ ρ)} {bs : List (Option Bool)}
    (h : Shows (some e) es) (hbs : List.Forall₂ (HasTruth row) es bs) :
    HasTruth row e (Kleene.joinAll true bs) := by
  cases h with
  | alone =>
      cases hbs with
      | cons hb hrest =>
          cases hrest
          rwa [Kleene.joinAll_singleton]
  | conjunction => exact hasTruth_conjunction hbs

theorem hasTruth_conjunction_inv {isAnd : Bool} {es : List (Expr ι κ ρ)} {b : Option Bool}
    (h : HasTruth row (.conjunction isAnd es) b) :
    ∃ bs, List.Forall₂ (HasTruth row) es bs ∧ b = Kleene.joinAll isAnd bs := by
  obtain ⟨bs, hbs, hb⟩ := eval_conjunction.mp h
  exact ⟨bs, evalTruths_eq_ok.mp hbs, map_boolean_injective hb⟩

variable [DecidableEq ι] {hash : Expr ι κ ρ → Nat}

theorem HasTruth.agree {e e' : Expr ι κ ρ} {b b' : Option Bool} (h : HasTruth row e b)
    (h' : HasTruth row e' b') (hequal : equals hash e e' = true) : b = b' :=
  (map_boolean_injective (eq_boolean_of_sameKey (equals_agree e e' hequal _ _ h h'))).symm

theorem extractExpression_value {expr e : Expr ι κ ρ} (h : nodes e = nodes expr)
    {b : Option Bool} (hb : HasTruth row e b) :
    HasTruth row (extractExpression hash expr e).1 b := by
  rcases (extractExpression_alone h).2 with heq | ⟨es, heq, rfl⟩
  · rwa [heq]
  · obtain ⟨bs, hbs, rfl⟩ := hasTruth_conjunction_inv hb
    rw [heq]
    exact (shows_collapseAnd es).hasTruth hbs

/-- A slot that still has the remaining candidates among its conjuncts, which are worth `t`
together. -/
def Branch (hash : Expr ι κ ρ → Nat) (row : ι → Option (Value κ ρ))
    (candidates : List (Expr ι κ ρ)) (slot : Option (Expr ι κ ρ)) (t : Option Bool) : Prop :=
  ∃ es bs, Shows slot es ∧ Covers (fun e c => equals hash e c = true) candidates es ∧
    List.Forall₂ (HasTruth row) es bs ∧ t = Kleene.joinAll true bs

namespace Branch

variable {c d e x : Expr ι κ ρ} {cs : List (Expr ι κ ρ)} {slot : Option (Expr ι κ ρ)}
  {t r : Option Bool}

theorem exists_some (h : Branch hash row (c :: cs) slot t) : ∃ e, slot = some e := by
  obtain ⟨es, bs, hshows, hcover, -⟩ := h
  cases hshows with
  | alone e => exact ⟨e, rfl⟩
  | conjunction es => exact ⟨_, rfl⟩
  | erased =>
      obtain ⟨d, hd, -⟩ := hcover.exists_mem
      cases hd

theorem hasTruth (h : Branch hash row cs (some e) t) : HasTruth row e t := by
  obtain ⟨es, bs, hshows, -, hbs, rfl⟩ := h
  exact hshows.hasTruth hbs

theorem erased_eq (h : Branch hash row cs none t) : t = some true := by
  obtain ⟨es, bs, hshows, -, hbs, rfl⟩ := h
  cases hshows
  cases hbs
  rfl

theorem erased (hash : Expr ι κ ρ → Nat) (row : ι → Option (Value κ ρ)) :
    Branch hash row [] none (some true) :=
  ⟨[], [], .erased, Covers.nil [], .nil, rfl⟩

theorem remove {es rest : List (Expr ι κ ρ)} {bs : List (Option Bool)}
    (hcover : Covers (fun e c => equals hash e c = true) (c :: cs) es)
    (hbs : List.Forall₂ (HasTruth row) es bs) (hperm : es.Perm (d :: rest))
    (hd : equals hash d c = true) (hshows : Shows slot rest) :
    ∃ b t', HasTruth row d b ∧ Branch hash row cs slot t' ∧
      Kleene.joinAll true bs = Kleene.join true b t' := by
  obtain ⟨bs', hbs', hperm'⟩ := List.perm_comp_forall₂ hperm.symm hbs
  cases hbs' with
  | @cons _ b _ bs' hb hrest =>
      refine ⟨b, Kleene.joinAll true bs', hb, ⟨rest, bs', hshows, ?_, hrest, rfl⟩, ?_⟩
      · exact hcover.erase equals_symm equals_trans hd hperm
      · rw [Kleene.joinAll_perm true hperm'.symm, Kleene.joinAll_cons]

/-- A branch that is one conjunct is used up by the last candidate. -/
theorem alone_eq (hcover : Covers (fun e c => equals hash e c = true) (c :: cs) [e]) :
    cs = [] ∧ equals hash e c = true := by
  have hlength := hcover.length_le
  obtain ⟨d, hd, hequal⟩ := hcover.exists_mem
  rw [List.mem_singleton.mp hd] at hequal
  rw [List.length_cons, List.length_singleton] at hlength
  exact ⟨List.length_eq_zero_iff.mp (by omega), hequal⟩

/-- A branch loses the conjunct `x` that was taken out of the first branch. -/
theorem extract (h : Branch hash row (c :: cs) (some e) t) (hx : equals hash x c = true)
    (hr : HasTruth row x r) :
    ∃ t', Branch hash row cs (extractExpression hash x e).2 t' ∧ t = Kleene.join true r t' := by
  obtain ⟨es, bs, hshows, hcover, hbs, rfl⟩ := h
  cases hshows with
  | alone =>
      obtain ⟨rfl, hequal⟩ := alone_eq hcover
      have hex : equals hash e x = true := equals_trans e c x hequal (equals_symm x c hx)
      rw [(extractExpression_alone (nodes_equals e x hex)).1]
      refine ⟨some true, erased hash row, ?_⟩
      have he : HasTruth row e (Kleene.joinAll true bs) := (Shows.alone e).hasTruth hbs
      rw [he.agree hr hex, Kleene.join_comm, Kleene.join_unit]
  | conjunction =>
      obtain ⟨d, hd, hdc⟩ := hcover.exists_mem
      have hdx : equals hash d x = true := equals_trans d c x hdc (equals_symm x c hx)
      obtain ⟨d', rest, hsome⟩ := extractOperand_isSome ⟨d, hd, hdx⟩
      obtain ⟨hperm, hd'x⟩ := extractOperand_spec hsome
      obtain ⟨slot, hslot, hshows⟩ := extractExpression_operand hsome
      obtain ⟨b, t', hb, hbranch, ht⟩ :=
        remove hcover hbs hperm (equals_trans d' x c hd'x hx) hshows
      rw [hb.agree hr hd'x] at ht
      rw [hslot]
      exact ⟨t', hbranch, ht⟩

/-- The first branch gives the conjunct `d` away; it may be used up by that. -/
theorem extract_first (h : Branch hash row (c :: cs) (some e) t) :
    ∃ d r, equals hash d c = true ∧ HasTruth row d r ∧
      HasTruth row (extractExpression hash c e).1 r ∧
      (((extractExpression hash c e).1 = d ∧
        ∃ t', Branch hash row cs (extractExpression hash c e).2 t' ∧ t = Kleene.join true r t') ∨
      (cs = [] ∧ (extractExpression hash c e).2 = none ∧ t = r)) := by
  obtain ⟨es, bs, hshows, hcover, hbs, rfl⟩ := h
  cases hshows with
  | alone =>
      obtain ⟨rfl, hequal⟩ := alone_eq hcover
      have hnodes := nodes_equals e c hequal
      have he : HasTruth row e (Kleene.joinAll true bs) := (Shows.alone e).hasTruth hbs
      refine ⟨e, _, hequal, he, extractExpression_value hnodes he, .inr ⟨rfl, ?_, rfl⟩⟩
      exact (extractExpression_alone hnodes).1
  | conjunction =>
      obtain ⟨d, rest, hsome⟩ := extractOperand_isSome hcover.exists_mem
      obtain ⟨hperm, hdc⟩ := extractOperand_spec hsome
      obtain ⟨slot, hslot, hshows⟩ := extractExpression_operand hsome
      obtain ⟨b, t', hb, hbranch, ht⟩ := remove hcover hbs hperm hdc hshows
      rw [hslot]
      exact ⟨d, b, hdc, hb, hb, .inl ⟨rfl, t', hbranch, ht⟩⟩

/-- The conjuncts of a branch include the one that was taken out of the first branch. -/
theorem absorbed (h : Branch hash row (c :: cs) slot t) (hx : equals hash x c = true)
    (hr : HasTruth row x r) : ∃ t', t = Kleene.join true r t' := by
  obtain ⟨es, bs, -, hcover, hbs, rfl⟩ := h
  obtain ⟨d, hd, hdc⟩ := hcover.exists_mem
  obtain ⟨before, after, rfl⟩ := List.append_of_mem hd
  obtain ⟨b, t', hb, -, ht⟩ :=
    remove hcover hbs List.perm_middle hdc (.conjunction (before ++ after))
  rw [hb.agree hr (equals_trans d c x hdc (equals_symm x c hx))] at ht
  exact ⟨t', ht⟩

end Branch

/-! ## The run over the candidates -/

/-- The extracted conjuncts and the slots are worth `V`: together, or, after the last candidate,
without a slot that is used up. -/
def Extracted (hash : Expr ι κ ρ → Nat) (row : ι → Option (Value κ ρ))
    (candidates newRoot : List (Expr ι κ ρ)) (slots : List (Option (Expr ι κ ρ)))
    (V : Option Bool) : Prop :=
  ∃ rs, List.Forall₂ (HasTruth row) newRoot rs ∧
    ((∃ ts, List.Forall₂ (Branch hash row candidates) slots ts ∧
      V = Kleene.join true (Kleene.joinAll true rs) (Kleene.joinAll false ts)) ∨
    (candidates = [] ∧ none ∈ slots ∧ V = Kleene.joinAll true rs))

omit [LinearOrder κ] [DecidableEq ι] in
theorem mapM_map_some {f : Expr ι κ ρ → Option (Expr ι κ ρ)} (es : List (Expr ι κ ρ)) :
    (es.map some).mapM (fun child => child.map f) = some (es.map f) := by
  induction es with
  | nil => rfl
  | cons e es ih => rw [List.map_cons, List.mapM_cons, ih]; rfl

theorem branches_some {c : Expr ι κ ρ} {cs : List (Expr ι κ ρ)}
    {slots : List (Option (Expr ι κ ρ))} {ts : List (Option Bool)}
    (h : List.Forall₂ (Branch hash row (c :: cs)) slots ts) :
    ∃ es : List (Expr ι κ ρ), slots = es.map some := by
  induction h with
  | nil => exact ⟨[], rfl⟩
  | cons hslot _ ih =>
      obtain ⟨e, rfl⟩ := hslot.exists_some
      obtain ⟨es, rfl⟩ := ih
      exact ⟨e :: es, rfl⟩

theorem branches_extract {c x : Expr ι κ ρ} {cs : List (Expr ι κ ρ)} {r : Option Bool}
    (hx : equals hash x c = true) (hr : HasTruth row x r) {es : List (Expr ι κ ρ)}
    {ts : List (Option Bool)}
    (h : List.Forall₂ (Branch hash row (c :: cs)) (es.map some) ts) :
    ∃ ts', List.Forall₂ (Branch hash row cs)
        (es.map fun child => (extractExpression hash x child).2) ts' ∧
      List.Forall₂ (fun t t' => t = Kleene.join true r t') ts ts' := by
  induction es generalizing ts with
  | nil =>
      cases h
      exact ⟨[], .nil, .nil⟩
  | cons e es ih =>
      cases h with
      | cons he hes =>
          obtain ⟨t', hbranch, ht⟩ := he.extract hx hr
          obtain ⟨ts', hbranches, hts⟩ := ih hes
          exact ⟨t' :: ts', .cons hbranch hbranches, .cons ht hts⟩

theorem branches_absorbed {c x : Expr ι κ ρ} {cs : List (Expr ι κ ρ)} {r : Option Bool}
    (hx : equals hash x c = true) (hr : HasTruth row x r) {slots : List (Option (Expr ι κ ρ))}
    {ts : List (Option Bool)} (h : List.Forall₂ (Branch hash row (c :: cs)) slots ts) :
    ∀ t ∈ ts, ∃ t', t = Kleene.join true r t' := by
  induction h with
  | nil => exact fun t ht => absurd ht List.not_mem_nil
  | cons hslot _ ih => exact List.forall_mem_cons.mpr ⟨hslot.absorbed hx hr, ih⟩

theorem extractCandidate_spec {c : Expr ι κ ρ} {cs newRoot : List (Expr ι κ ρ)}
    {slots : List (Option (Expr ι κ ρ))} {V : Option Bool} (hne : slots ≠ [])
    (h : Extracted hash row (c :: cs) newRoot slots V) :
    ∃ result slots', extractCandidate hash c slots = some (result, slots') ∧ slots' ≠ [] ∧
      Extracted hash row cs (newRoot ++ [result]) slots' V := by
  obtain ⟨rs, hrs, ⟨ts, hts, rfl⟩ | ⟨hnil, -, -⟩⟩ := h
  · obtain ⟨es, rfl⟩ := branches_some hts
    obtain ⟨e, es, rfl⟩ := List.exists_cons_of_ne_nil fun h => hne (congrArg (List.map some) h)
    cases hts with
    | @cons _ t _ ts hfirst hrest =>
        obtain ⟨d, r, hdc, hd, hx, hcase⟩ := hfirst.extract_first
        have hroot : List.Forall₂ (HasTruth row)
            (newRoot ++ [(extractExpression hash c e).1]) (rs ++ [r]) :=
          List.rel_append hrs (.cons hx .nil)
        have hstep : extractCandidate hash c ((e :: es).map some) =
            some ((extractExpression hash c e).1, (extractExpression hash c e).2 ::
              es.map fun child =>
                (extractExpression hash (extractExpression hash c e).1 child).2) := by
          rw [List.map_cons, extractCandidate]
          simp only [mapM_map_some]
          rfl
        refine ⟨_, _, hstep, List.cons_ne_nil _ _, rs ++ [r], hroot, ?_⟩
        rw [Kleene.joinAll_append, Kleene.joinAll_singleton]
        rcases hcase with ⟨rfl, t', hbranch, rfl⟩ | ⟨rfl, hslot, rfl⟩
        · obtain ⟨ts', hbranches, hts'⟩ := branches_extract hdc hx hrest
          refine .inl ⟨t' :: ts', .cons hbranch hbranches, ?_⟩
          have hdistrib := Kleene.joinAll_distrib
            (List.Forall₂.cons (Eq.refl (Kleene.join true r t')) hts')
          rw [Bool.not_true] at hdistrib
          rw [hdistrib, Kleene.join_assoc]
        · refine .inr ⟨rfl, hslot ▸ List.mem_cons_self .., ?_⟩
          have habsorb := Kleene.joinAll_absorb (branches_absorbed hdc hd hrest)
          rw [Bool.not_true] at habsorb
          rw [habsorb]
  · cases hnil

theorem extractCandidates_spec {cs newRoot : List (Expr ι κ ρ)}
    {slots : List (Option (Expr ι κ ρ))} {V : Option Bool} (hne : slots ≠ [])
    (h : Extracted hash row cs newRoot slots V) :
    ∃ result slots', extractCandidates hash cs newRoot slots = some (newRoot ++ result, slots') ∧
      result.length = cs.length ∧ slots' ≠ [] ∧
      Extracted hash row [] (newRoot ++ result) slots' V := by
  induction cs generalizing newRoot slots with
  | nil => exact ⟨[], slots, by rw [List.append_nil]; rfl, rfl, hne, by rwa [List.append_nil]⟩
  | cons c cs ih =>
      obtain ⟨x, slots₁, hstep, hne₁, h₁⟩ := extractCandidate_spec hne h
      obtain ⟨result, slots₂, hrun, hlength, hne₂, h₂⟩ := ih hne₁ h₁
      refine ⟨x :: result, slots₂, ?_, by rw [List.length_cons, hlength, List.length_cons], hne₂, ?_⟩
      · rw [extractCandidates, hstep]
        simp only [Option.bind_eq_bind, Option.bind_some]
        rw [hrun, List.append_assoc]
        rfl
      · rwa [List.append_assoc] at h₂

/-! ## The rewritten expression -/

omit [LinearOrder κ] [DecidableEq ι] in
theorem mapM_id_none {slots : List (Option (Expr ι κ ρ))} (h : slots.mapM id = none) :
    none ∈ slots := by
  induction slots with
  | nil => cases h
  | cons slot slots ih =>
      cases slot with
      | none => exact List.mem_cons_self ..
      | some e =>
          rw [List.mapM_cons] at h
          cases hrest : slots.mapM id with
          | none => exact List.mem_cons_of_mem _ (ih hrest)
          | some es => rw [hrest] at h; cases h

omit [LinearOrder κ] [DecidableEq ι] in
theorem mapM_id_some {slots : List (Option (Expr ι κ ρ))} {es : List (Expr ι κ ρ)}
    (h : slots.mapM id = some es) : slots = es.map some := by
  induction slots generalizing es with
  | nil => cases h; rfl
  | cons slot slots ih =>
      rw [List.mapM_cons] at h
      cases slot with
      | none => cases h
      | some e =>
          cases hrest : slots.mapM id with
          | none => rw [hrest] at h; cases h
          | some es' =>
              rw [hrest] at h
              rw [← Option.some.inj h, ih hrest]
              rfl

omit [DecidableEq ι] in
theorem remainingOr_hasTruth {branches : List (Expr ι κ ρ)} {ts : List (Option Bool)}
    (hne : branches ≠ []) (h : List.Forall₂ (HasTruth row) branches ts) :
    List.Forall₂ (HasTruth row) (remainingOr branches) [Kleene.joinAll false ts] := by
  match branches, h with
  | [], _ => exact absurd rfl hne
  | [_], .cons hb .nil => exact .cons (by rwa [Kleene.joinAll_singleton]) .nil
  | _ :: _ :: _, h => exact .cons (hasTruth_conjunction h) .nil

theorem branches_hasTruth {cs es : List (Expr ι κ ρ)} {ts : List (Option Bool)}
    (h : List.Forall₂ (Branch hash row cs) (es.map some) ts) :
    List.Forall₂ (HasTruth row) es ts := by
  rw [List.forall₂_map_left_iff] at h
  exact h.imp fun _ _ hbranch => hbranch.hasTruth

/-- A slot that is used up makes the rest of the OR true. -/
theorem joinAll_of_erased {cs : List (Expr ι κ ρ)} {slots : List (Option (Expr ι κ ρ))}
    {ts : List (Option Bool)} (hts : List.Forall₂ (Branch hash row cs) slots ts)
    (h : none ∈ slots) : Kleene.joinAll false ts = some true := by
  refine (Kleene.joinAll_eq_absorbing_iff false ts).mpr ?_
  induction hts with
  | nil => cases h
  | cons hslot _ ih =>
      rcases List.mem_cons.mp h with rfl | h
      · rw [hslot.erased_eq]
        exact List.mem_cons_self ..
      · exact List.mem_cons_of_mem _ (ih h)

theorem distributedRoot_spec {newRoot : List (Expr ι κ ρ)}
    {slots : List (Option (Expr ι κ ρ))} {V : Option Bool} (hroot : newRoot ≠ [])
    (hne : slots ≠ []) (h : Extracted hash row [] newRoot slots V) :
    ∃ root, distributedRoot newRoot slots = some root ∧ HasTruth row root V := by
  obtain ⟨rs, hrs, hcase⟩ := h
  unfold distributedRoot
  cases hslots : slots.mapM id with
  | none =>
      have hV : V = Kleene.joinAll true rs := by
        rcases hcase with ⟨ts, hts, rfl⟩ | ⟨-, -, rfl⟩
        · rw [joinAll_of_erased hts (mapM_id_none hslots), Kleene.join_comm, Kleene.join_unit]
        · rfl
      refine ⟨collapseAnd newRoot, ?_, hV ▸ (shows_collapseAnd newRoot).hasTruth hrs⟩
      exact if_neg fun hempty => hroot (List.isEmpty_iff.mp hempty)
  | some branches =>
      obtain rfl := mapM_id_some hslots
      rcases hcase with ⟨ts, hts, rfl⟩ | ⟨-, hnone, -⟩
      · have hbranches : branches ≠ [] := fun hnil => hne (congrArg (List.map some) hnil)
        have hor := remainingOr_hasTruth hbranches (branches_hasTruth hts)
        have hall := (shows_collapseAnd _).hasTruth (List.rel_append hrs hor)
        rw [Kleene.joinAll_append, Kleene.joinAll_singleton] at hall
        exact ⟨_, rfl, hall⟩
      · obtain ⟨e, -, he⟩ := List.mem_map.mp hnone
        cases he

omit [DecidableEq ι] in
theorem conjuncts_hasTruth {child : Expr ι κ ρ} {b : Option Bool} (h : HasTruth row child b) :
    ∃ bs, List.Forall₂ (HasTruth row) (conjuncts child) bs ∧ b = Kleene.joinAll true bs := by
  have halone : ∃ bs, List.Forall₂ (HasTruth row) [child] bs ∧ b = Kleene.joinAll true bs :=
    ⟨[b], .cons h .nil, (Kleene.joinAll_singleton true b).symm⟩
  cases child with
  | conjunction isAnd children =>
      cases isAnd with
      | false => exact halone
      | true => exact hasTruth_conjunction_inv h
  | _ => exact halone

theorem extracted_initial (hash : Expr ι κ ρ → Nat) {order : List (Expr ι κ ρ) → List (Expr ι κ ρ)}
    (horder : ∀ set, (order set).Perm set) {first : Expr ι κ ρ} {rest : List (Expr ι κ ρ)}
    {bs : List (Option Bool)} (hbs : List.Forall₂ (HasTruth row) (first :: rest) bs) :
    Extracted hash row (order (candidateSet hash first rest)) []
      ((first :: rest).map some) (Kleene.joinAll false bs) := by
  obtain ⟨hdistinct, hmem⟩ := candidateSet_spec hash first rest
  have hperm := horder (candidateSet hash first rest)
  have hpairwise : Distinct hash (order (candidateSet hash first rest)) :=
    (hperm.pairwise_iff fun {a b} hab h => hab (sameEntry_symm b a h)).mpr hdistinct
  refine ⟨[], .nil, .inl ⟨bs, ?_, by rw [Kleene.joinAll_nil, Kleene.join_unit]⟩⟩
  rw [List.forall₂_map_left_iff]
  have hbranch : ∀ child b, child ∈ first :: rest → HasTruth row child b →
      Branch hash row (order (candidateSet hash first rest)) (some child) b := by
    intro child b hchild hb
    obtain ⟨values, hvalues, rfl⟩ := conjuncts_hasTruth hb
    have hcover : Covers (fun a b => sameEntry hash a b = true)
        (order (candidateSet hash first rest)) (conjuncts child) :=
      Covers.of_pairwise sameEntry_symm sameEntry_trans hpairwise
        fun c hc => hmem c (hperm.mem_iff.mp hc) child hchild
    exact ⟨conjuncts child, values, shows_conjuncts child,
      hcover.mono fun a b hab => (sameEntry_iff.mp hab).2, hvalues, rfl⟩
  clear hmem hpairwise
  generalize first :: rest = children at hbs hbranch
  induction hbs with
  | nil => exact .nil
  | cons hb _ ih =>
      exact .cons (hbranch _ _ (List.mem_cons_self ..) hb)
        (ih fun child b hchild => hbranch child b (List.mem_cons_of_mem _ hchild))

/-- The rewritten expression has the value of the OR, TRUE, FALSE or NULL, and no operand of it is
missing. -/
theorem distributivity (hash : Expr ι κ ρ → Nat)
    (order : List (Expr ι κ ρ) → List (Expr ι κ ρ)) (horder : ∀ set, (order set).Perm set)
    {first : Expr ι κ ρ} {rest : List (Expr ι κ ρ)} {v : Option (Value κ ρ)}
    (hv : eval row (.conjunction false (first :: rest)) = .ok v) :
    ∃ result, DistributivityRule.apply hash order (first :: rest) = some result ∧
      ∀ e ∈ result, eval row e = .ok v := by
  obtain ⟨bs, hbs, rfl⟩ := eval_conjunction.mp hv
  have hinitial := extracted_initial hash horder (evalTruths_eq_ok.mp hbs)
  unfold DistributivityRule.apply
  simp only
  split
  · exact ⟨none, rfl, fun e he => nomatch he⟩
  · rename_i hsome
    have hchildren : (first :: rest).map some ≠ [] := List.cons_ne_nil _ _
    obtain ⟨newRoot, slots, hrun, hlength, hne, hdone⟩ :=
      extractCandidates_spec hchildren hinitial
    have hroot : newRoot ≠ [] := by
      intro hnil
      rw [hnil, (horder _).length_eq] at hlength
      exact hsome (List.isEmpty_iff.mpr (List.length_eq_zero_iff.mp hlength.symm))
    rw [List.nil_append] at hrun hdone
    obtain ⟨root, hresult, hvalue⟩ := distributedRoot_spec hroot hne hdone
    refine ⟨some root, ?_, fun e he => ?_⟩
    · rw [hrun]
      simp only [Option.bind_eq_bind, Option.bind_some, hresult]
    · obtain rfl := Option.some.inj he
      exact hvalue

end Value

end MiniDuck
