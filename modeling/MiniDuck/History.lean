import Mathlib

/-!
# Commit histories and snapshot values

What a multi-version store is for: transactions commit with increasing
ids, each with the keys it wrote, and a reader with an exclusive bound
is to see, for every key, the write of the last commit below its bound.

A history lists the commits newest first. `latestBelow` computes the
value of a key below a bound, `IsLatestBelow` says what that value is
without reference to the order of the list, and `latestBelow_spec`
connects them. `latestBelow_eq_of_gap` is how a store argues: where no
commit between two bounds wrote the key, both bounds read the same.
-/

namespace MiniDuck

universe u v

/-- A committed transaction with the values it wrote. -/
structure Commit (K : Type u) (V : Type v) where
  commitId : Nat
  writes : K → Option V

/-- Commit ids decrease along the list: the newest commit comes first. -/
def NewestFirst {K : Type u} {V : Type v} (h : List (Commit K V)) : Prop :=
  h.Pairwise fun c d => d.commitId < c.commitId

section

variable {K : Type u} {V : Type v} {h : List (Commit K V)} {bound bound' : Nat} {k : K}

/-- The value of the newest commit below the bound that wrote the key. -/
def latestBelow (h : List (Commit K V)) (bound : Nat) (k : K) : Option V :=
  h.findSome? fun c => if c.commitId < bound then c.writes k else none

/-- The value that a snapshot with the given bound assigns to the key: the write of the commit
with the largest id below the bound that wrote it, or nothing if no such commit did. -/
def IsLatestBelow (h : List (Commit K V)) (bound : Nat) (k : K) : Option V → Prop
  | some v => ∃ c ∈ h, c.commitId < bound ∧ c.writes k = some v ∧
      ∀ d ∈ h, d.commitId < bound → d.writes k ≠ none → d.commitId ≤ c.commitId
  | none => ∀ c ∈ h, c.commitId < bound → c.writes k = none

theorem latestBelow_cons (c : Commit K V) (h : List (Commit K V)) (bound : Nat) (k : K) :
    latestBelow (c :: h) bound k =
      (if c.commitId < bound then c.writes k else none).or (latestBelow h bound k) := by
  rw [latestBelow, List.findSome?_cons]
  cases hw : (if c.commitId < bound then c.writes k else none) with
  | none => rfl
  | some v => rfl

theorem latestBelow_cons_of_le {c : Commit K V} (hc : bound ≤ c.commitId) :
    latestBelow (c :: h) bound k = latestBelow h bound k := by
  rw [latestBelow_cons, if_neg (Nat.not_lt.mpr hc), Option.none_or]

theorem latestBelow_cons_of_none {c : Commit K V} (hc : c.writes k = none) :
    latestBelow (c :: h) bound k = latestBelow h bound k := by
  rw [latestBelow_cons]
  split
  · rw [hc, Option.none_or]
  · rw [Option.none_or]

theorem latestBelow_cons_of_some {c : Commit K V} {v : V} (hc : c.commitId < bound)
    (hw : c.writes k = some v) : latestBelow (c :: h) bound k = some v := by
  rw [latestBelow_cons, if_pos hc, hw, Option.some_or]

/-- Where no commit between two bounds wrote the key, both read the same value. -/
theorem latestBelow_eq_of_gap (hle : bound ≤ bound')
    (hgap : ∀ c ∈ h, bound ≤ c.commitId → c.commitId < bound' → c.writes k = none) :
    latestBelow h bound' k = latestBelow h bound k := by
  induction h with
  | nil => rfl
  | cons c h ih =>
      have ih' := ih fun d hd => hgap d (List.mem_cons_of_mem _ hd)
      rw [latestBelow_cons, latestBelow_cons, ih']
      by_cases hb : c.commitId < bound
      · rw [if_pos hb, if_pos (Nat.lt_of_lt_of_le hb hle)]
      · by_cases hb' : c.commitId < bound'
        · rw [if_pos hb', if_neg hb, hgap c List.mem_cons_self (Nat.not_lt.mp hb) hb']
        · rw [if_neg hb', if_neg hb]

theorem latestBelow_eq_none (hn : ∀ c ∈ h, c.commitId < bound → c.writes k = none) :
    latestBelow h bound k = none := by
  rw [latestBelow, List.findSome?_eq_none_iff]
  intro c hc
  split
  · next hb => exact hn c hc hb
  · rfl

theorem latestBelow_spec (hnf : NewestFirst h) :
    IsLatestBelow h bound k (latestBelow h bound k) := by
  induction h with
  | nil => simp [latestBelow, IsLatestBelow]
  | cons c h ih =>
      have hlt := (List.pairwise_cons.mp hnf).1
      have ih' := ih (List.pairwise_cons.mp hnf).2
      by_cases hb : c.commitId < bound
      · cases hw : c.writes k with
        | some v =>
            rw [latestBelow_cons_of_some hb hw]
            refine ⟨c, List.mem_cons_self, hb, hw, fun d hd _ _ => ?_⟩
            rcases List.mem_cons.mp hd with rfl | hd'
            · exact Nat.le_refl _
            · exact (hlt d hd').le
        | none =>
            rw [latestBelow_cons_of_none hw]
            exact isLatestBelow_cons (fun _ => hw) ih'
      · rw [latestBelow_cons_of_le (Nat.not_lt.mp hb)]
        exact isLatestBelow_cons (fun hb' => absurd hb' hb) ih'
where
  isLatestBelow_cons {c : Commit K V} {h : List (Commit K V)}
      (hc : c.commitId < bound → c.writes k = none) :
      {o : Option V} → IsLatestBelow h bound k o → IsLatestBelow (c :: h) bound k o
    | some v, ho => by
        obtain ⟨d, hd, hdb, hdw, hmax⟩ := ho
        refine ⟨d, List.mem_cons_of_mem _ hd, hdb, hdw, fun e he heb hew => ?_⟩
        rcases List.mem_cons.mp he with rfl | he'
        · exact absurd (hc heb) hew
        · exact hmax e he' heb hew
    | none, ho => by
        intro d hd hdb
        rcases List.mem_cons.mp hd with rfl | hd'
        · exact hc hdb
        · exact ho d hd' hdb

end

end MiniDuck
