import MiniDuck.IntArithmetic

/-!
# Bisection over an integer interval

The two searches evaluate a predicate at a few probes, where it may fail.
They share their loop: `bisect` keeps one value of the predicate at the
lower end and the other at the upper end until the ends are neighbours
(`bisect_cases`). Signed arithmetic is checked, distances are unsigned and
wrap, so that the loop terminates whatever its ends are.

Where the predicate is true on a suffix `firstTrueSuffix` finds where the
suffix begins, and `lastTruePrefix` where a prefix ends. The sentinels for
"never true" lie one past the interval, which is why it has to leave one
value free on that side.
-/

namespace MiniDuck

namespace Bisection

/-- Why a search has no result: a probe cannot be evaluated, or a signed operation overflows. -/
inductive Stop
  | probe
  | overflow
  deriving Repr, DecidableEq

def signed (v : Int) : Except Stop Int :=
  match int64 v with
  | some v => .ok v
  | none => .error .overflow

theorem signed_ok {v : Int} (hmin : -9223372036854775808 ≤ v) (hmax : v ≤ 9223372036854775807) :
    signed v = .ok v := by
  rw [signed, int64_ok hmin hmax]

/-- `static_cast<uint64_t>(h) - static_cast<uint64_t>(l)`. -/
def distance (l h : Int) : Int := (h - l) % 2 ^ 64

def safeMidpoint (l h : Int) : Except Stop Int := signed (l + distance l h / 2)

theorem signed_eq_ok {v w : Int} (h : signed v = .ok w) : w = v := by
  unfold signed at h
  split at h
  · rename_i u hu
    obtain rfl := Except.ok.inj h
    exact (intResult_eq_some.mp hu).1.symm
  · cases h

theorem distance_midpoint {l h mid : Int} (hfar : 1 < distance l h)
    (hmid : safeMidpoint l h = .ok mid) :
    distance l mid < distance l h ∧ distance mid h < distance l h := by
  obtain rfl := signed_eq_ok hmid
  simp only [distance] at hfar ⊢
  omega

/-- The loop of the searches: the predicate is `low` at `l` and `!low` at `h`. -/
def bisect (pred : Int → Option Bool) (low : Bool) (l h : Int) : Except Stop (Int × Int) :=
  if _hfar : 1 < distance l h then
    match _hmid : safeMidpoint l h with
    | .error stop => .error stop
    | .ok mid =>
        match pred mid with
        | none => .error .probe
        | some v => if v = low then bisect pred low mid h else bisect pred low l mid
  else .ok (l, h)
termination_by (distance l h).toNat
decreasing_by
  all_goals
    have hless := distance_midpoint _hfar _hmid
    omega

def firstTrueSuffix (pred : Int → Option Bool) (lo hi : Int) : Except Stop Int :=
  match pred hi with
  | none => .error .probe
  | some false => signed (hi + 1)
  | some true =>
      match pred lo with
      | none => .error .probe
      | some true => .ok lo
      | some false => do
          let (_, h) ← bisect pred false lo hi
          return h

def lastTruePrefix (pred : Int → Option Bool) (lo hi : Int) : Except Stop Int :=
  match pred lo with
  | none => .error .probe
  | some false => signed (lo - 1)
  | some true =>
      match pred hi with
      | none => .error .probe
      | some true => .ok hi
      | some false => do
          let (l, _) ← bisect pred true lo hi
          return l

variable {pred : Int → Option Bool} {low : Bool} {lo hi : Int}

/-- A search either ends in a value or meets a probe that cannot be evaluated. -/
def Ends (pred : Int → Option Bool) (lo hi : Int) {α : Type} (search : Except Stop α)
    (post : α → Prop) : Prop :=
  (∃ r, search = .ok r ∧ post r) ∨
    (search = .error .probe ∧ ∃ i, lo ≤ i ∧ i ≤ hi ∧ pred i = none)

/-- The ends of the loop: neighbours that the predicate still tells apart. -/
def Apart (pred : Int → Option Bool) (low : Bool) (l h : Int) (ends : Int × Int) : Prop :=
  l ≤ ends.1 ∧ ends.2 = ends.1 + 1 ∧ ends.2 ≤ h ∧
    pred ends.1 = some low ∧ pred ends.2 = some !low

theorem bisect_cases {l h : Int} (hmin : -9223372036854775808 ≤ l) (hlt : l < h)
    (hmax : h ≤ 9223372036854775807) (hl : pred l = some low) (hh : pred h = some !low) :
    Ends pred l h (bisect pred low l h) (Apart pred low l h) := by
  have hdistance : distance l h = h - l := by
    simp only [distance]
    omega
  rw [bisect]
  split
  · rename_i hfar
    have hmid : safeMidpoint l h = .ok (l + (h - l) / 2) := by
      rw [safeMidpoint, hdistance]
      exact signed_ok (by omega) (by omega)
    split
    · rename_i stop hstop
      cases hmid.symm.trans hstop
    · rename_i mid hmid'
      obtain rfl := Except.ok.inj (hmid.symm.trans hmid')
      cases hpred : pred (l + (h - l) / 2) with
      | none => exact Or.inr ⟨rfl, _, by omega, by omega, hpred⟩
      | some v =>
          simp only
          by_cases hv : v = low
          · rw [if_pos hv]
            rcases bisect_cases (l := l + (h - l) / 2) (h := h) (by omega) (by omega) hmax
              (hv ▸ hpred) hh with ⟨ends, hends, hle, hrest⟩ | ⟨hfail, i, hi, hrest⟩
            · exact Or.inl ⟨ends, hends, by omega, hrest⟩
            · exact Or.inr ⟨hfail, i, by omega, hrest⟩
          · rw [if_neg hv]
            have hv' : v = !low := by cases v <;> cases low <;> simp_all
            rcases bisect_cases (l := l) (h := l + (h - l) / 2) hmin (by omega) (by omega) hl
              (hv' ▸ hpred) with ⟨ends, hends, hle, hnext, hle', hrest⟩ | ⟨hfail, i, hi, hi', hrest⟩
            · exact Or.inl ⟨ends, hends, hle, hnext, by omega, hrest⟩
            · exact Or.inr ⟨hfail, i, hi, by omega, hrest⟩
  · exact Or.inl ⟨(l, h), rfl, le_refl l, by omega, le_refl h, hl, hh⟩
termination_by (h - l).toNat

/-- The predicate is true from `r` on. -/
def FirstTrue (pred : Int → Option Bool) (lo hi r : Int) : Prop :=
  lo ≤ r ∧ r ≤ hi + 1 ∧
    ((∀ i j, lo ≤ i → i ≤ j → j ≤ hi → pred i = some true → pred j = some true) →
      ∀ i, lo ≤ i → i ≤ hi → (pred i = some true ↔ r ≤ i))

/-- The predicate is true up to `r`. -/
def LastTrue (pred : Int → Option Bool) (lo hi r : Int) : Prop :=
  lo - 1 ≤ r ∧ r ≤ hi ∧
    ((∀ i j, lo ≤ i → i ≤ j → j ≤ hi → pred j = some true → pred i = some true) →
      ∀ i, lo ≤ i → i ≤ hi → (pred i = some true ↔ i ≤ r))

theorem firstTrueSuffix_cases (pred : Int → Option Bool) (hmin : -9223372036854775808 ≤ lo)
    (hle : lo ≤ hi) (hmax : hi < 9223372036854775807) :
    Ends pred lo hi (firstTrueSuffix pred lo hi) (FirstTrue pred lo hi) := by
  unfold firstTrueSuffix
  split
  · rename_i hhi
    exact Or.inr ⟨rfl, hi, hle, le_refl hi, hhi⟩
  · rename_i hhi
    refine Or.inl ⟨hi + 1, signed_ok (by omega) (by omega), by omega, le_refl _, ?_⟩
    intro hmono i hi' hi''
    refine ⟨fun htrue => ?_, by omega⟩
    rw [hmono i hi hi' hi'' (le_refl hi) htrue] at hhi
    cases hhi
  · rename_i hhi
    split
    · rename_i hlo
      exact Or.inr ⟨rfl, lo, le_refl lo, hle, hlo⟩
    · rename_i hlo
      refine Or.inl ⟨lo, rfl, le_refl lo, by omega, ?_⟩
      intro hmono i hi' hi''
      exact ⟨fun _ => hi', fun _ => hmono lo i (le_refl lo) hi' hi'' hlo⟩
    · rename_i hlo
      have hne : lo ≠ hi := by
        rintro rfl
        cases hhi.symm.trans hlo
      rcases bisect_cases hmin (by omega) (by omega) hlo hhi with
        ⟨⟨l, h⟩, hends, hl, hnext, hh, hfalse, htrue⟩ | ⟨hfail, i, hi', hi'', hnone⟩
      · obtain rfl : h = l + 1 := hnext
        refine Or.inl ⟨l + 1, by rw [hends]; rfl, by omega, by omega, ?_⟩
        intro hmono i hi' hi''
        refine ⟨fun hi => ?_, fun hi => hmono _ i (by omega) hi hi'' htrue⟩
        by_contra hlt
        have hbefore := hmono i l hi' (by omega) (by omega) hi
        cases hfalse.symm.trans hbefore
      · exact Or.inr ⟨by rw [hfail]; rfl, i, hi', hi'', hnone⟩

theorem lastTruePrefix_cases (pred : Int → Option Bool) (hmin : -9223372036854775808 < lo)
    (hle : lo ≤ hi) (hmax : hi ≤ 9223372036854775807) :
    Ends pred lo hi (lastTruePrefix pred lo hi) (LastTrue pred lo hi) := by
  unfold lastTruePrefix
  split
  · rename_i hlo
    exact Or.inr ⟨rfl, lo, le_refl lo, hle, hlo⟩
  · rename_i hlo
    refine Or.inl ⟨lo - 1, signed_ok (by omega) (by omega), le_refl _, by omega, ?_⟩
    intro hmono i hi' hi''
    refine ⟨fun htrue => ?_, by omega⟩
    rw [hmono lo i (le_refl lo) hi' hi'' htrue] at hlo
    cases hlo
  · rename_i hlo
    split
    · rename_i hhi
      exact Or.inr ⟨rfl, hi, hle, le_refl hi, hhi⟩
    · rename_i hhi
      refine Or.inl ⟨hi, rfl, by omega, le_refl hi, ?_⟩
      intro hmono i hi' hi''
      exact ⟨fun _ => hi'', fun _ => hmono i hi hi' hi'' (le_refl hi) hhi⟩
    · rename_i hhi
      have hne : lo ≠ hi := by
        rintro rfl
        cases hhi.symm.trans hlo
      rcases bisect_cases (by omega) (by omega) hmax hlo hhi with
        ⟨⟨l, h⟩, hends, hl, hnext, hh, htrue, hfalse⟩ | ⟨hfail, i, hi', hi'', hnone⟩
      · obtain rfl : h = l + 1 := hnext
        refine Or.inl ⟨l, by rw [hends]; rfl, by omega, by omega, ?_⟩
        intro hmono i hi' hi''
        refine ⟨fun hi => ?_, fun hi => hmono i l hi' hi (by omega) htrue⟩
        by_contra hlt
        have hafter := hmono (l + 1) i (by omega) (by omega) hi'' hi
        cases hfalse.symm.trans hafter
      · exact Or.inr ⟨by rw [hfail]; rfl, i, hi', hi'', hnone⟩

end Bisection

end MiniDuck
