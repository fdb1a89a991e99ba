import Mathlib

/-!
# Labelled transition systems and their inductive invariants

A program that takes step after step is an `Lts`: the states it may
start in, and the labelled steps between states. Two rules carry every
run argument:

- `Lts.Reachable.invariant`: what holds initially and is kept by each
  step holds in every reachable state. The step obligation may assume
  that the state before the step is reachable, so invariants stack.
- `Lts.Leads.invariant`: the same along a run from a given state, for
  properties that only hold from some state on.

`Lts.restrict` keeps the steps that meet a condition on the state
before the step and the label. Its reachable states are the states of
the runs whose steps all meet the condition.
-/

namespace MiniDuck

universe u v

/-- Initial states and labelled steps over an arbitrary state type. -/
structure Lts (S : Type u) (L : Type v) where
  init : S → Prop
  step : S → L → S → Prop

namespace Lts

variable {S : Type u} {L : Type v} {M : Lts S L} {s t : S}

/-- States of the runs that begin in an initial state. -/
inductive Reachable (M : Lts S L) : S → Prop
  | init {s : S} : M.init s → Reachable M s
  | step {s t : S} {l : L} : Reachable M s → M.step s l t → Reachable M t

/-- Some finite run leads from the first state to the second. -/
def Leads (M : Lts S L) : S → S → Prop :=
  Relation.ReflTransGen fun s t => ∃ l, M.step s l t

/-- The steps of `M` whose pre-state and label meet `C`. -/
def restrict (M : Lts S L) (C : S → L → Prop) : Lts S L where
  init := M.init
  step s l t := C s l ∧ M.step s l t

theorem Reachable.invariant {I : S → Prop}
    (hinit : ∀ s, M.init s → I s)
    (hstep : ∀ s l t, M.Reachable s → I s → M.step s l t → I t)
    (h : M.Reachable s) : I s := by
  induction h with
  | init h0 => exact hinit _ h0
  | step hr hs ih => exact hstep _ _ _ hr ih hs

/-- A run of the function that the steps come from. -/
theorem Reachable.of_foldlM {f : S → L → Option S}
    (hf : ∀ s l t, f s l = some t → M.step s l t) :
    (ls : List L) → {s t : S} → M.Reachable s → ls.foldlM f s = some t → M.Reachable t
  | [], _, _, h, hrun => by
      cases hrun
      exact h
  | _ :: ls, _, _, h, hrun => by
      obtain ⟨_, hstep, hrun⟩ := Option.bind_eq_some_iff.1 hrun
      exact of_foldlM hf ls (h.step (hf _ _ _ hstep)) hrun

/-- The invariant rule for the runs whose steps all meet `C`. -/
theorem Reachable.invariant_restrict {C : S → L → Prop} {I : S → Prop}
    (hinit : ∀ s, M.init s → I s)
    (hstep : ∀ s l t, C s l → I s → M.step s l t → I t)
    (h : (M.restrict C).Reachable s) : I s :=
  Reachable.invariant (M := M.restrict C) hinit
    (fun s l t _ hi hs => hstep s l t hs.1 hi hs.2) h

theorem Leads.refl : M.Leads s s := Relation.ReflTransGen.refl

theorem Leads.head {l : L} {r : S} (h : M.step r l s) (hl : M.Leads s t) :
    M.Leads r t :=
  Relation.ReflTransGen.head ⟨l, h⟩ hl

theorem Leads.invariant {I : S → Prop}
    (hstep : ∀ s l t, M.Reachable s → I s → M.step s l t → I t)
    (hr : M.Reachable s) (hs : I s) (h : M.Leads s t) : I t ∧ M.Reachable t := by
  induction h with
  | refl => exact ⟨hs, hr⟩
  | tail _ hbc ih =>
      obtain ⟨l, hl⟩ := hbc
      exact ⟨hstep _ _ _ ih.2 ih.1 hl, ih.2.step hl⟩

end Lts

end MiniDuck
