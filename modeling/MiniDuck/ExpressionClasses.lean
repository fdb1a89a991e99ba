import MiniDuck.Covering
import MiniDuck.ExpressionEquality

/-!
# Equality of expressions is an equivalence

`Expression::Equals` compares the operands of a conjunction as multisets,
with a greedy search that takes the first operand it finds equal. Equal
expressions have the same number of nodes (`nodes_equals`), so that the
equivalence of smaller expressions carries over to larger ones: for them
the search succeeds exactly if the operands cover each other
(`removeEntries_iff`).
-/

namespace MiniDuck

variable {ι κ ρ : Type}

mutual

def nodes : Expr ι κ ρ → Nat
  | .column _ => 1
  | .constant _ _ => 1
  | .comparison _ l r => nodes l + nodes r + 1
  | .between _ _ i l u => nodes i + nodes l + nodes u + 1
  | .conjunction _ children => allNodes children + 1
  | .coalesce children => allNodes children + 1
  | .isNull _ child => nodes child + 1
  | .arithmetic _ _ _ l r => nodes l + nodes r + 1
  | .constantOrNull _ _ children => allNodes children + 1

def allNodes : List (Expr ι κ ρ) → Nat
  | [] => 0
  | e :: es => nodes e + allNodes es

end

theorem allNodes_eq (es : List (Expr ι κ ρ)) : allNodes es = (es.map nodes).sum := by
  induction es with
  | nil => rfl
  | cons e es ih => rw [allNodes, ih, List.map_cons, List.sum_cons]

variable {es : List (Expr ι κ ρ)}

theorem nodes_le_of_mem {e : Expr ι κ ρ} (h : e ∈ es) : nodes e ≤ allNodes es := by
  rw [allNodes_eq]
  exact List.le_sum_of_mem (List.mem_map_of_mem h)

theorem nodes_lt_of_allNodes {n : Nat} (h : allNodes es < n) : ∀ e ∈ es, nodes e < n :=
  fun _ he => lt_of_le_of_lt (nodes_le_of_mem he) h

/-! ## The search for equal operands -/

theorem removeEntry_isSome {test : Expr ι κ ρ → Expr ι κ ρ → Bool} {e' : Expr ι κ ρ}
    (h : ∃ e ∈ es, test e e' = true) : ∃ rest, removeEntry e' (es.map test) = some rest := by
  induction es with
  | nil =>
      obtain ⟨e, he, -⟩ := h
      cases he
  | cons d es ih =>
      rw [List.map_cons, removeEntry]
      by_cases hd : test d e' = true
      · exact ⟨_, if_pos hd⟩
      · obtain ⟨e, he, htest⟩ := h
        rcases List.mem_cons.mp he with rfl | he
        · exact absurd htest hd
        · obtain ⟨rest, hrest⟩ := ih ⟨e, he, htest⟩
          exact ⟨test d :: rest, by rw [if_neg hd, hrest]; rfl⟩

theorem removeEntries_iff {test : Expr ι κ ρ → Expr ι κ ρ → Bool}
    (hsymm : ∀ a b, test a b = true → test b a = true)
    (htrans : ∀ a b c, test a b = true → test b c = true → test a c = true)
    {es' : List (Expr ι κ ρ)} (hlength : es.length = es'.length) :
    removeEntries (es.map test) es' = true ↔ Covers (fun a b => test a b = true) es' es := by
  refine ⟨fun h => ?_, fun h => ?_⟩
  · obtain ⟨ds, hperm, hds⟩ := exists_perm_of_removeEntries h
    exact ⟨ds, [], by rwa [List.append_nil], hds⟩
  · induction es' generalizing es with
    | nil => rw [List.length_nil, List.length_eq_zero_iff] at hlength; rw [hlength]; rfl
    | cons e' es' ih =>
        obtain ⟨rest, hrest⟩ := removeEntry_isSome h.exists_mem
        rw [removeEntries, hrest]
        obtain ⟨e, es₁, hperm, htest, rfl⟩ := removeEntry_map hrest
        refine ih ?_ (h.erase hsymm htrans htest hperm)
        have := hperm.length_eq
        simp only [List.length_cons] at this hlength
        omega

section Equality

variable [DecidableEq ι] [DecidableEq κ] {hash : Expr ι κ ρ → Nat}

/-- Two operands that `ExpressionSetEquals` takes for one. -/
def sameEntry (hash : Expr ι κ ρ → Nat) (e e' : Expr ι κ ρ) : Bool :=
  decide (hash e = hash e') && equals hash e e'

theorem entries_sameEntry (es : List (Expr ι κ ρ)) :
    entries hash es = es.map (sameEntry hash) := by
  induction es with
  | nil => rfl
  | cons e es ih => rw [entries, ih, List.map_cons]; rfl

theorem listEquals_iff {es es' : List (Expr ι κ ρ)} :
    listEquals hash es es' = true ↔
      List.Forall₂ (fun e e' => equals hash e e' = true) es es' := by
  induction es generalizing es' with
  | nil => cases es' <;> simp [listEquals]
  | cons e es ih =>
      cases es' with
      | nil => simp [listEquals]
      | cons e' es' => rw [listEquals, Bool.and_eq_true_iff, ih, List.forall₂_cons]

omit [DecidableEq ι] [DecidableEq κ] in
theorem map_eq_of_forall₂ {es ds es' : List (Expr ι κ ρ)}
    (h : List.Forall₂ (fun d e' => d ∈ es → nodes d = nodes e') ds es')
    (hmem : ∀ d ∈ ds, d ∈ es) : ds.map nodes = es'.map nodes := by
  induction h with
  | nil => rfl
  | cons hd _ ih =>
      rw [List.map_cons, List.map_cons, hd (hmem _ (List.mem_cons_self ..)),
        ih fun d hd => hmem d (List.mem_cons_of_mem _ hd)]

mutual

theorem nodes_equals : (e e' : Expr ι κ ρ) → equals hash e e' = true → nodes e = nodes e'
  | .column _, _, h => by
      cases equals_iff.mp h with
      | column => rfl
  | .constant _ _, _, h => by
      cases equals_iff.mp h with
      | constant => rfl
  | .comparison _ l r, _, h => by
      cases equals_iff.mp h with
      | comparison hl hr => rw [nodes, nodes, nodes_equals l _ hl, nodes_equals r _ hr]
  | .between _ _ i l u, _, h => by
      cases equals_iff.mp h with
      | between hi hl hu =>
          rw [nodes, nodes, nodes_equals i _ hi, nodes_equals l _ hl, nodes_equals u _ hu]
  | .conjunction _ es, _, h => by
      cases equals_iff.mp h with
      | conjunction _ hset =>
          rw [entries_sameEntry] at hset
          obtain ⟨ds, hperm, hds⟩ := exists_perm_of_removeEntries hset
          have hnodes := hds.imp fun d e' hd hmem =>
            nodes_equals_mem es d hmem e' (Bool.and_eq_true_iff.mp hd).2
          have hmap := map_eq_of_forall₂ hnodes fun d => hperm.mem_iff.mpr
          rw [nodes, nodes, allNodes_eq, allNodes_eq, (hperm.map nodes).sum_eq, hmap]
  | .coalesce es, _, h => by
      cases equals_iff.mp h with
      | coalesce hes => rw [nodes, nodes, allNodes_listEquals es _ hes]
  | .isNull _ child, _, h => by
      cases equals_iff.mp h with
      | isNull hchild => rw [nodes, nodes, nodes_equals child _ hchild]
  | .arithmetic _ _ _ l r, _, h => by
      cases equals_iff.mp h with
      | arithmetic _ hl hr => rw [nodes, nodes, nodes_equals l _ hl, nodes_equals r _ hr]
  | .constantOrNull _ _ es, _, h => by
      cases equals_iff.mp h with
      | constantOrNull _ hes => rw [nodes, nodes, allNodes_listEquals es _ hes]

theorem allNodes_listEquals : (es es' : List (Expr ι κ ρ)) → listEquals hash es es' = true →
    allNodes es = allNodes es'
  | [], es', h => by
      cases es' with
      | nil => rfl
      | cons => cases h
  | e :: es, es', h => by
      cases es' with
      | nil => cases h
      | cons e' es' =>
          rw [listEquals, Bool.and_eq_true_iff] at h
          rw [allNodes, allNodes, nodes_equals e e' h.1, allNodes_listEquals es es' h.2]

theorem nodes_equals_mem : (es : List (Expr ι κ ρ)) → ∀ e ∈ es, ∀ e',
    equals hash e e' = true → nodes e = nodes e'
  | [], _, hmem => (List.not_mem_nil hmem).elim
  | d :: es, e, hmem => by
      rcases List.mem_cons.mp hmem with heq | hmem
      · rw [heq]
        exact nodes_equals d
      · exact nodes_equals_mem es e hmem

end

/-! ## The equivalence -/

/-- Equality is an equivalence on expressions of fewer than `n` nodes. -/
structure EqualsBelow (hash : Expr ι κ ρ → Nat) (n : Nat) : Prop where
  refl : ∀ a, nodes a < n → equals hash a a = true
  symm : ∀ a b, nodes a < n → equals hash a b = true → equals hash b a = true
  trans : ∀ a b c, nodes a < n → equals hash a b = true → equals hash b c = true →
    equals hash a c = true

/-- Two operands of fewer than `n` nodes that are taken for one. -/
def sameBelow (hash : Expr ι κ ρ → Nat) (n : Nat) (e e' : Expr ι κ ρ) : Bool :=
  decide (nodes e < n) && sameEntry hash e e'

variable {n : Nat}

theorem sameBelow_iff {e e' : Expr ι κ ρ} :
    sameBelow hash n e e' = true ↔
      nodes e < n ∧ hash e = hash e' ∧ equals hash e e' = true := by
  rw [sameBelow, sameEntry, Bool.and_eq_true_iff, Bool.and_eq_true_iff, decide_eq_true_iff,
    decide_eq_true_iff]

namespace EqualsBelow

theorem symm_sameBelow (h : EqualsBelow hash n) (a b : Expr ι κ ρ)
    (hab : sameBelow hash n a b = true) : sameBelow hash n b a = true := by
  rw [sameBelow_iff] at hab ⊢
  obtain ⟨hn, hhash, hequal⟩ := hab
  exact ⟨nodes_equals a b hequal ▸ hn, hhash.symm, h.symm a b hn hequal⟩

theorem trans_sameBelow (h : EqualsBelow hash n) (a b c : Expr ι κ ρ)
    (hab : sameBelow hash n a b = true) (hbc : sameBelow hash n b c = true) :
    sameBelow hash n a c = true := by
  rw [sameBelow_iff] at hab hbc ⊢
  obtain ⟨hn, hhash, hequal⟩ := hab
  exact ⟨hn, hhash.trans hbc.2.1, h.trans a b c hn hequal hbc.2.2⟩

variable {es es' : List (Expr ι κ ρ)}

theorem conjunction_iff (h : EqualsBelow hash n) {isAnd isAnd' : Bool}
    {es es' : List (Expr ι κ ρ)} (hes : ∀ e ∈ es, nodes e < n) :
    equals hash (.conjunction isAnd es) (.conjunction isAnd' es') = true ↔
      (isAnd = isAnd' ∧ es.length = es'.length) ∧
        Covers (fun a b => sameBelow hash n a b = true) es' es := by
  have hsame : es.map (sameEntry hash) = es.map (sameBelow hash n) :=
    List.map_congr_left fun e he => funext fun e' => by
      rw [sameBelow, decide_eq_true (hes e he), Bool.true_and]
  rw [equals, Bool.and_eq_true_iff, decide_eq_true_iff, entries_sameEntry, hsame]
  exact and_congr_right fun hlength =>
    removeEntries_iff h.symm_sameBelow h.trans_sameBelow hlength.2

theorem forall₂_symm (h : EqualsBelow hash n) (hes : ∀ e ∈ es, nodes e < n)
    (hequal : List.Forall₂ (fun e e' => equals hash e e' = true) es es') :
    List.Forall₂ (fun e e' => equals hash e e' = true) es' es := by
  induction hequal with
  | nil => exact .nil
  | cons he _ ih =>
      exact .cons (h.symm _ _ (hes _ (List.mem_cons_self ..)) he)
        (ih fun e he => hes e (List.mem_cons_of_mem _ he))

theorem forall₂_trans (h : EqualsBelow hash n) {es'' : List (Expr ι κ ρ)}
    (hes : ∀ e ∈ es, nodes e < n)
    (hequal : List.Forall₂ (fun e e' => equals hash e e' = true) es es')
    (hequal' : List.Forall₂ (fun e e' => equals hash e e' = true) es' es'') :
    List.Forall₂ (fun e e' => equals hash e e' = true) es es'' := by
  induction hequal generalizing es'' with
  | nil => exact hequal'
  | cons he _ ih =>
      cases hequal' with
      | cons he' hrest =>
          exact .cons (h.trans _ _ _ (hes _ (List.mem_cons_self ..)) he he')
            (ih (fun e he => hes e (List.mem_cons_of_mem _ he)) hrest)

theorem step_refl (h : EqualsBelow hash n) (a : Expr ι κ ρ) (ha : nodes a < n + 1) :
    equals hash a a = true := by
  cases a with
  | column c => exact decide_eq_true rfl
  | constant type v => exact decide_eq_true ⟨rfl, rfl⟩
  | comparison comparison l r =>
      rw [nodes] at ha
      simp only [equals, h.refl l (by omega), h.refl r (by omega), decide_true, Bool.and_self]
  | between li ui i l u =>
      rw [nodes] at ha
      simp only [equals, h.refl i (by omega), h.refl l (by omega), h.refl u (by omega),
        and_self, decide_true, Bool.and_self]
  | conjunction isAnd es =>
      rw [nodes] at ha
      have hes : ∀ e ∈ es, nodes e < n := nodes_lt_of_allNodes (by omega)
      rw [h.conjunction_iff hes]
      refine ⟨⟨rfl, rfl⟩, Covers.refl fun e he => ?_⟩
      exact sameBelow_iff.mpr ⟨hes e he, rfl, h.refl e (hes e he)⟩
  | coalesce es =>
      rw [nodes] at ha
      rw [equals, listEquals_iff, List.forall₂_same]
      exact fun e he => h.refl e (nodes_lt_of_allNodes (by omega) e he)
  | isNull negated child =>
      rw [nodes] at ha
      simp only [equals, h.refl child (by omega), decide_true, Bool.and_self]
  | arithmetic op type checked l r =>
      rw [nodes] at ha
      simp only [equals, h.refl l (by omega), h.refl r (by omega), implies_true, and_self,
        decide_true, Bool.and_self]
  | constantOrNull type v es =>
      rw [nodes] at ha
      rw [equals, Bool.and_eq_true_iff, listEquals_iff, List.forall₂_same]
      exact ⟨decide_eq_true ⟨rfl, rfl⟩, fun e he => h.refl e (nodes_lt_of_allNodes (by omega) e he)⟩

theorem step_symm (h : EqualsBelow hash n) (a b : Expr ι κ ρ) (ha : nodes a < n + 1)
    (hab : equals hash a b = true) : equals hash b a = true := by
  have hsize := nodes_equals _ _ hab
  cases equals_iff.mp hab with
  | column => exact hab
  | constant hv => exact equals_iff.mpr (.constant hv.symm)
  | comparison hl hr =>
      rw [nodes] at ha
      exact equals_iff.mpr (.comparison (h.symm _ _ (by omega) hl) (h.symm _ _ (by omega) hr))
  | between hi hl hu =>
      rw [nodes] at ha
      exact equals_iff.mpr (.between (h.symm _ _ (by omega) hi) (h.symm _ _ (by omega) hl)
        (h.symm _ _ (by omega) hu))
  | conjunction =>
      rw [nodes] at ha
      rw [nodes, nodes] at hsize
      rw [h.conjunction_iff (nodes_lt_of_allNodes (by omega))] at hab ⊢
      exact ⟨⟨rfl, hab.1.2.symm⟩, hab.2.symm h.symm_sameBelow hab.1.2.symm⟩
  | coalesce hes =>
      rw [nodes] at ha
      rw [listEquals_iff] at hes
      have hes' := h.forall₂_symm (nodes_lt_of_allNodes (by omega)) hes
      exact equals_iff.mpr (.coalesce (listEquals_iff.mpr hes'))
  | isNull hchild =>
      rw [nodes] at ha
      exact equals_iff.mpr (.isNull (h.symm _ _ (by omega) hchild))
  | arithmetic hchecked hl hr =>
      rw [nodes] at ha
      exact equals_iff.mpr (.arithmetic (fun hdata => (hchecked hdata).symm)
        (h.symm _ _ (by omega) hl) (h.symm _ _ (by omega) hr))
  | constantOrNull hv hes =>
      rw [nodes] at ha
      rw [listEquals_iff] at hes
      have hes' := h.forall₂_symm (nodes_lt_of_allNodes (by omega)) hes
      exact equals_iff.mpr (.constantOrNull hv.symm (listEquals_iff.mpr hes'))

theorem step_trans (h : EqualsBelow hash n) (a b c : Expr ι κ ρ) (ha : nodes a < n + 1)
    (hab : equals hash a b = true) (hbc : equals hash b c = true) : equals hash a c = true := by
  have hsize := nodes_equals _ _ hab
  cases equals_iff.mp hab with
  | column => exact hbc
  | constant hv =>
      cases equals_iff.mp hbc with
      | constant hv' => exact equals_iff.mpr (.constant (hv.trans hv'))
  | comparison hl hr =>
      cases equals_iff.mp hbc with
      | comparison hl' hr' =>
          rw [nodes] at ha
          exact equals_iff.mpr (.comparison (h.trans _ _ _ (by omega) hl hl')
            (h.trans _ _ _ (by omega) hr hr'))
  | between hi hl hu =>
      cases equals_iff.mp hbc with
      | between hi' hl' hu' =>
          rw [nodes] at ha
          exact equals_iff.mpr (.between (h.trans _ _ _ (by omega) hi hi')
            (h.trans _ _ _ (by omega) hl hl') (h.trans _ _ _ (by omega) hu hu'))
  | conjunction =>
      cases equals_iff.mp hbc with
      | conjunction =>
          rw [nodes] at ha
          rw [nodes, nodes] at hsize
          rw [h.conjunction_iff (nodes_lt_of_allNodes (by omega))] at hab hbc ⊢
          exact ⟨⟨rfl, hab.1.2.trans hbc.1.2⟩, hbc.2.trans h.trans_sameBelow hab.2⟩
  | coalesce hes =>
      cases equals_iff.mp hbc with
      | coalesce hes' =>
          rw [nodes] at ha
          rw [listEquals_iff] at hes hes'
          have hes'' := h.forall₂_trans (nodes_lt_of_allNodes (by omega)) hes hes'
          exact equals_iff.mpr (.coalesce (listEquals_iff.mpr hes''))
  | isNull hchild =>
      cases equals_iff.mp hbc with
      | isNull hchild' =>
          rw [nodes] at ha
          exact equals_iff.mpr (.isNull (h.trans _ _ _ (by omega) hchild hchild'))
  | arithmetic hchecked hl hr =>
      cases equals_iff.mp hbc with
      | arithmetic hchecked' hl' hr' =>
          rw [nodes] at ha
          exact equals_iff.mpr (.arithmetic
            (fun hdata => (hchecked hdata).trans (hchecked' hdata))
            (h.trans _ _ _ (by omega) hl hl') (h.trans _ _ _ (by omega) hr hr'))
  | constantOrNull hv hes =>
      cases equals_iff.mp hbc with
      | constantOrNull hv' hes' =>
          rw [nodes] at ha
          rw [listEquals_iff] at hes hes'
          have hes'' := h.forall₂_trans (nodes_lt_of_allNodes (by omega)) hes hes'
          exact equals_iff.mpr (.constantOrNull (hv.trans hv') (listEquals_iff.mpr hes''))

end EqualsBelow

theorem equalsBelow (hash : Expr ι κ ρ → Nat) (n : Nat) : EqualsBelow hash n := by
  induction n with
  | zero => exact ⟨fun _ h => absurd h (Nat.not_lt_zero _),
      fun _ _ h => absurd h (Nat.not_lt_zero _), fun _ _ _ h => absurd h (Nat.not_lt_zero _)⟩
  | succ n ih => exact ⟨ih.step_refl, ih.step_symm, ih.step_trans⟩

theorem equals_refl (a : Expr ι κ ρ) : equals hash a a = true :=
  (equalsBelow hash _).refl a (Nat.lt_succ_self _)

theorem equals_symm (a b : Expr ι κ ρ) (h : equals hash a b = true) : equals hash b a = true :=
  (equalsBelow hash _).symm a b (Nat.lt_succ_self _) h

theorem equals_trans (a b c : Expr ι κ ρ) (h : equals hash a b = true)
    (h' : equals hash b c = true) : equals hash a c = true :=
  (equalsBelow hash _).trans a b c (Nat.lt_succ_self _) h h'

theorem sameEntry_iff {e e' : Expr ι κ ρ} :
    sameEntry hash e e' = true ↔ hash e = hash e' ∧ equals hash e e' = true := by
  rw [sameEntry, Bool.and_eq_true_iff, decide_eq_true_iff]

theorem sameEntry_refl (a : Expr ι κ ρ) : sameEntry hash a a = true :=
  sameEntry_iff.mpr ⟨rfl, equals_refl a⟩

theorem sameEntry_symm (a b : Expr ι κ ρ) (h : sameEntry hash a b = true) :
    sameEntry hash b a = true := by
  rw [sameEntry_iff] at h ⊢
  exact ⟨h.1.symm, equals_symm a b h.2⟩

theorem sameEntry_trans (a b c : Expr ι κ ρ) (h : sameEntry hash a b = true)
    (h' : sameEntry hash b c = true) : sameEntry hash a c = true := by
  rw [sameEntry_iff] at h h' ⊢
  exact ⟨h.1.trans h'.1, equals_trans a b c h.2 h'.2⟩

end Equality

end MiniDuck
