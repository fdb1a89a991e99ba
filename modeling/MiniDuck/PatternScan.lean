import Mathlib

/-!
# Scanning for a pattern

`marks` says which members of a text end an occurrence of a pattern, found
from left to right and without overlaps, and `values` what stands before
each of them. An automaton that reads the text need not remember all of it:
after `seen` only the `overlap` matters, the longest prefix of the pattern
at its end (`overlap_append`). So a step function that computes the overlap
finds every occurrence (`Tracks.marks`).
-/

namespace MiniDuck
namespace PatternScan

variable {α σ : Type} [DecidableEq α] (pattern : List α)

/-- Which members of the text end an occurrence, where `seen` was read since the last one. -/
def marks : List α → List α → List Bool
  | _, [] => []
  | seen, b :: text =>
      if pattern <:+ seen ++ [b] then true :: marks [] text else false :: marks (seen ++ [b]) text

def values : List α → List α → List (List α)
  | _, [] => []
  | seen, b :: text =>
      if pattern <:+ seen ++ [b] then
        (seen ++ [b]).take (seen.length + 1 - pattern.length) :: values [] text
      else values (seen ++ [b]) text

def run (step : σ → α → σ) : σ → List α → List σ
  | _, [] => []
  | s, b :: text => step s b :: run step (step s b) text

/-! ## The overlap -/

/-- The length of the longest prefix of the pattern that what was read ends with. -/
def overlap (seen : List α) : Nat :=
  Nat.findGreatest (fun k => pattern.take k <:+ seen) pattern.length

theorem overlap_suffix (seen : List α) : pattern.take (overlap pattern seen) <:+ seen :=
  Nat.findGreatest_spec (P := fun k => pattern.take k <:+ seen) (Nat.zero_le _)
    (by simp [List.take_zero])

variable {pattern}

theorem le_overlap {seen : List α} {k : Nat} (hk : k ≤ pattern.length)
    (h : pattern.take k <:+ seen) : k ≤ overlap pattern seen :=
  Nat.le_findGreatest hk h

theorem overlap_le (seen : List α) : overlap pattern seen ≤ pattern.length :=
  Nat.findGreatest_le _

theorem suffix_iff_overlap {seen : List α} :
    pattern <:+ seen ↔ overlap pattern seen = pattern.length := by
  constructor
  · intro h
    refine le_antisymm (overlap_le seen) (le_overlap (le_refl _) ?_)
    rwa [List.take_length]
  · intro h
    have hsuffix := overlap_suffix pattern seen
    rwa [h, List.take_length] at hsuffix

theorem overlap_nil (hne : pattern ≠ []) : overlap pattern [] = 0 := by
  have hsuffix := List.suffix_nil.mp (overlap_suffix pattern [])
  rcases List.take_eq_nil_iff.mp hsuffix with h | h
  · exact h
  · exact absurd h hne

omit [DecidableEq α] in
theorem suffix_append_singleton {xs seen : List α} {x b : α} :
    xs ++ [x] <:+ seen ++ [b] ↔ x = b ∧ xs <:+ seen := by
  rw [← List.reverse_prefix, ← List.reverse_prefix, List.reverse_append, List.reverse_append,
    List.reverse_singleton, List.reverse_singleton, List.singleton_append, List.singleton_append,
    List.cons_prefix_cons, List.reverse_prefix]

/-- Of what was read, the overlap is all that matters. -/
theorem overlap_append (seen : List α) (b : α) :
    overlap pattern (seen ++ [b]) =
      overlap pattern (pattern.take (overlap pattern seen) ++ [b]) := by
  have hiff : ∀ k ≤ pattern.length, (pattern.take k <:+ seen ++ [b] ↔
      pattern.take k <:+ pattern.take (overlap pattern seen) ++ [b]) := by
    intro k hk
    cases k with
    | zero => simp
    | succ k =>
        rw [List.take_succ_eq_append_getElem (by omega), suffix_append_singleton,
          suffix_append_singleton]
        refine and_congr_right fun _ => ⟨fun h => ?_, fun h => ?_⟩
        · refine List.suffix_of_suffix_length_le h (overlap_suffix pattern seen) ?_
          rw [List.length_take, List.length_take]
          have := le_overlap (by omega) h
          omega
        · exact h.trans (overlap_suffix pattern seen)
  refine le_antisymm ?_ ?_
  · exact le_overlap (overlap_le _) ((hiff _ (overlap_le _)).mp (overlap_suffix pattern _))
  · exact le_overlap (overlap_le _) ((hiff _ (overlap_le _)).mpr (overlap_suffix pattern _))

/-! ## Automata -/

/-- A step function whose states stand for overlaps: `Stands k s` for those of a text that does
not end in an occurrence. The state after an occurrence stands for the overlap 0. -/
structure Tracks (pattern : List α) (step : σ → α → σ) (allowed : α → Prop) (accepts : σ → Bool)
    (Stands : Nat → σ → Prop) : Prop where
  ne_nil : pattern ≠ []
  partly : ∀ k s b, k < pattern.length → Stands k s → allowed b →
    overlap pattern (pattern.take k ++ [b]) < pattern.length →
      accepts (step s b) = false ∧ Stands (overlap pattern (pattern.take k ++ [b])) (step s b)
  found : ∀ k s b, k < pattern.length → Stands k s → allowed b →
    overlap pattern (pattern.take k ++ [b]) = pattern.length →
      accepts (step s b) = true ∧ Stands 0 (step s b)

namespace Tracks

variable {step : σ → α → σ} {allowed : α → Prop} {accepts : σ → Bool} {Stands : Nat → σ → Prop}

theorem marks (h : Tracks pattern step allowed accepts Stands) {text : List α}
    (htext : ∀ b ∈ text, allowed b) {seen : List α} {s : σ}
    (hseen : overlap pattern seen < pattern.length) (hs : Stands (overlap pattern seen) s) :
    (run step s text).map accepts = PatternScan.marks pattern seen text := by
  induction text generalizing seen s with
  | nil => rfl
  | cons b text ih =>
      obtain ⟨hb, htext⟩ := List.forall_mem_cons.mp htext
      have hnext : overlap pattern (seen ++ [b]) =
          overlap pattern (pattern.take (overlap pattern seen) ++ [b]) := overlap_append seen b
      have hle : overlap pattern (seen ++ [b]) ≤ pattern.length := overlap_le _
      rw [PatternScan.marks, run, List.map_cons]
      rcases Nat.lt_or_eq_of_le hle with hlt | heq
      · rw [if_neg fun hsuffix => (suffix_iff_overlap.mp hsuffix).not_lt hlt]
        have hstep := h.partly _ s b hseen hs hb (hnext ▸ hlt)
        rw [← hnext] at hstep
        rw [hstep.1, ih htext hlt hstep.2]
      · rw [if_pos (suffix_iff_overlap.mpr heq)]
        have hstep := h.found _ s b hseen hs hb (hnext ▸ heq)
        have hnil : overlap pattern [] = 0 := overlap_nil h.ne_nil
        have hpos := List.length_pos_of_ne_nil h.ne_nil
        rw [hstep.1, ih htext (hnil ▸ hpos) (hnil ▸ hstep.2)]

end Tracks

end PatternScan

end MiniDuck
