import Mathlib

/-!
# Association lists sorted by key

Lists of pairs whose keys increase strictly, as maps: `List.lookup`
reads them, and the lemmas say how a lookup goes through the splits and
merges of a sorted list. Nothing here depends on what the values are.
-/

namespace MiniDuck

universe u v

variable {K : Type u} {α : Type v} [LinearOrder K]

def SortedKeys (l : List (K × α)) : Prop := l.Pairwise fun x y => x.1 < y.1

instance (l : List (K × α)) : Decidable (SortedKeys l) :=
  inferInstanceAs (Decidable (l.Pairwise _))

theorem sortedKeys_nil : SortedKeys ([] : List (K × α)) := List.Pairwise.nil

theorem sortedKeys_cons {k : K} {v : α} {l : List (K × α)} :
    SortedKeys ((k, v) :: l) ↔ (∀ x ∈ l, k < x.1) ∧ SortedKeys l := List.pairwise_cons

theorem SortedKeys.nodup {l : List (K × α)} (h : SortedKeys l) : (l.map Prod.fst).Nodup := by
  rw [List.Nodup, List.pairwise_map]
  exact h.imp fun hlt => ne_of_lt hlt

@[simp] theorem lookup_cons_ite (r k : K) (v : α) (l : List (K × α)) :
    ((k, v) :: l).lookup r = if r = k then some v else l.lookup r := by
  rw [List.lookup_cons]
  by_cases h : r = k
  · simp [h]
  · simp [h, beq_eq_false_iff_ne.mpr h]

theorem mem_of_lookup {r : K} {v : α} : {l : List (K × α)} → l.lookup r = some v → (r, v) ∈ l
  | [], h => by simp at h
  | (k, w) :: l, h => by
      rw [lookup_cons_ite] at h
      split at h
      · subst r
        simp_all
      · exact List.mem_cons_of_mem _ (mem_of_lookup h)

theorem lookup_eq_none {r : K} : {l : List (K × α)} → (∀ x ∈ l, x.1 ≠ r) → l.lookup r = none
  | [], _ => rfl
  | (k, w) :: l, h => by
      have hk : r ≠ k := fun hrk => h (k, w) (by simp) hrk.symm
      rw [lookup_cons_ite, if_neg hk]
      exact lookup_eq_none fun x hx => h x (by simp [hx])

theorem lookup_ne_none {r : K} {v : α} {l : List (K × α)} (h : (r, v) ∈ l) :
    l.lookup r ≠ none := by
  induction l with
  | nil => simp at h
  | cons x l ih =>
      obtain ⟨k, w⟩ := x
      rw [lookup_cons_ite]
      split
      · simp
      · next hrk =>
          rcases List.mem_cons.mp h with h' | h'
          · exact absurd (congrArg Prod.fst h') hrk
          · exact ih h'

theorem lookup_eq_some {r : K} {v : α} : {l : List (K × α)} → SortedKeys l → (r, v) ∈ l →
    l.lookup r = some v
  | (k, w) :: l, hs, h => by
      rw [sortedKeys_cons] at hs
      rcases List.mem_cons.mp h with h' | h'
      · obtain ⟨rfl, rfl⟩ := Prod.ext_iff.mp h'
        simp
      · have hlt := hs.1 _ h'
        rw [lookup_cons_ite, if_neg (ne_of_gt hlt)]
        exact lookup_eq_some hs.2 h'

theorem lookup_ne_none_iff {r : K} {l : List (K × α)} :
    l.lookup r ≠ none ↔ r ∈ l.map Prod.fst := by
  constructor
  · intro h
    obtain ⟨v, hv⟩ := Option.ne_none_iff_exists'.mp h
    exact List.mem_map_of_mem (mem_of_lookup hv)
  · intro h
    obtain ⟨x, hx, rfl⟩ := List.mem_map.mp h
    exact lookup_ne_none (v := x.2) hx

theorem lookup_append (r : K) : (l₁ l₂ : List (K × α)) →
    (l₁ ++ l₂).lookup r = (l₁.lookup r).or (l₂.lookup r)
  | [], l₂ => by simp
  | (k, v) :: l₁, l₂ => by
      rw [List.cons_append, lookup_cons_ite, lookup_cons_ite, lookup_append r l₁ l₂]
      split <;> simp

/-! ## Splitting at a key -/

theorem SortedKeys.takeWhile {l : List (K × α)} (h : SortedKeys l) (p : K × α → Bool) :
    SortedKeys (l.takeWhile p) :=
  List.Pairwise.sublist (List.takeWhile_sublist p) h

theorem SortedKeys.dropWhile {l : List (K × α)} (h : SortedKeys l) (p : K × α → Bool) :
    SortedKeys (l.dropWhile p) :=
  List.Pairwise.sublist (List.dropWhile_sublist p) h

theorem SortedKeys.filter {l : List (K × α)} (h : SortedKeys l) (p : K × α → Bool) :
    SortedKeys (l.filter p) :=
  List.Pairwise.filter p h

theorem key_lt_of_mem_takeWhile {k : K} {l : List (K × α)} {x : K × α}
    (hx : x ∈ l.takeWhile fun y => decide (y.1 < k)) : x.1 < k := by
  simpa using List.mem_takeWhile_imp hx

theorem key_le_of_mem_dropWhile {k : K} : {l : List (K × α)} → SortedKeys l → {x : K × α} →
    x ∈ l.dropWhile (fun y => decide (y.1 < k)) → k ≤ x.1
  | [], _, x, hx => by simp at hx
  | (j, v) :: l, hs, x, hx => by
      rw [sortedKeys_cons] at hs
      by_cases hj : j < k
      · rw [List.dropWhile_cons_of_pos (by simpa using hj)] at hx
        exact key_le_of_mem_dropWhile hs.2 hx
      · rw [List.dropWhile_cons_of_neg (by simpa using hj)] at hx
        have hkj : k ≤ j := not_lt.mp hj
        rcases List.mem_cons.mp hx with rfl | hx'
        · exact hkj
        · exact hkj.trans (hs.1 x hx').le

/-- Dropping the keys below `k` does not change lookups from `k` on. -/
theorem lookup_dropWhile {k r : K} (hr : k ≤ r) : (l : List (K × α)) →
    (l.dropWhile fun y => decide (y.1 < k)).lookup r = l.lookup r
  | [] => rfl
  | (j, v) :: l => by
      by_cases hj : j < k
      · have hne : r ≠ j := (hj.trans_le hr).ne'
        rw [List.dropWhile_cons_of_pos (by simpa using hj), lookup_dropWhile hr l,
          lookup_cons_ite, if_neg hne]
      · rw [List.dropWhile_cons_of_neg (by simpa using hj)]

theorem lookup_filter {r : K} (p : K × α → Bool) : {l : List (K × α)} → SortedKeys l →
    (l.filter p).lookup r = (l.lookup r).filter fun v => p (r, v)
  | [], _ => rfl
  | (k, v) :: l, hs => by
      rw [sortedKeys_cons] at hs
      have ih := lookup_filter (r := r) p hs.2
      by_cases hk : r = k
      · subst hk
        have hnone : l.lookup r = none := lookup_eq_none fun x hx => (hs.1 x hx).ne'
        rw [hnone, Option.filter_none] at ih
        cases hp : p (r, v) <;> simp [hp, ih, Option.filter]
      · cases hp : p (k, v) <;> simp [hp, hk, ih]

theorem lookup_map_value {β : Type v} (f : K → α → β) (r : K) : (l : List (K × α)) →
    (l.map fun x => (x.1, f x.1 x.2)).lookup r = (l.lookup r).map (f r)
  | [] => rfl
  | (k, v) :: l => by
      rw [List.map_cons, lookup_cons_ite, lookup_cons_ite, lookup_map_value f r l]
      by_cases hk : r = k <;> simp [hk]

theorem SortedKeys.mapValue {β : Type v} {l : List (K × α)} (h : SortedKeys l) (f : K × α → β) :
    SortedKeys (l.map fun x => (x.1, f x)) := by
  rw [SortedKeys, List.pairwise_map]
  exact h

/-- A sorted list followed by one with larger keys is sorted. -/
theorem SortedKeys.append {l₁ l₂ : List (K × α)} (h₁ : SortedKeys l₁) (h₂ : SortedKeys l₂)
    (h : ∀ x ∈ l₁, ∀ y ∈ l₂, x.1 < y.1) : SortedKeys (l₁ ++ l₂) :=
  List.pairwise_append.mpr ⟨h₁, h₂, h⟩

/-- Sorted natural keys below `n` are at most `n` many. -/
theorem SortedKeys.length_le {n : Nat} {l : List (Nat × α)} (h : SortedKeys l)
    (hn : ∀ x ∈ l, x.1 < n) : l.length ≤ n := by
  have hsub : l.map Prod.fst ⊆ List.range n := by
    intro r hr
    obtain ⟨x, hx, rfl⟩ := List.mem_map.mp hr
    exact List.mem_range.mpr (hn x hx)
  simpa using (List.subperm_of_subset h.nodup hsub).length_le

end MiniDuck
