import MiniDuck.IntTypes
import MiniDuck.Lts

/-!
# Sequences

`nextValue` and `setCounter` are the sections of `NextValue` and
`SetValue` that run under the lock of the sequence; a `SetValue` with
`is_called` runs `setCounter` and then, as a section of its own,
`nextValue`. `sequenceLts` takes the sections of all callers in any
order.

The counter is the value that is handed out next (`nextValue_eq`). It is
computed before it is needed, so that a value is only handed out if the
one after it is a 64-bit integer or the sequence cycles (`HandsOut`).
-/

namespace MiniDuck

/-! ## The sequence -/

/-- The fields of `SequenceData` that do not change. -/
structure SequenceDefinition where
  name : String
  temporary : Bool
  increment : Int
  startValue : Int
  minValue : Int
  maxValue : Int
  cycle : Bool
  increment_ne : increment ≠ 0
  minValue_le : minValue ≤ startValue
  le_maxValue : startValue ≤ maxValue
  minValue_ge : intMinimum true .w64 ≤ minValue
  maxValue_le : maxValue ≤ intMaximum true .w64

/-- The fields of `SequenceData` that do. -/
structure SequenceData where
  usageCount : Nat
  counter : Int
  lastValue : Option Int
  deriving Repr, DecidableEq

/-- `SequenceException` -/
inductive SequenceError
  | reachedMinimum (name : String) (minValue : Int)
  | reachedMaximum (name : String) (maxValue : Int)
  | outOfBounds (value : Int) (name : String) (minValue maxValue : Int)
  deriving Repr, DecidableEq

def SequenceError.message : SequenceError → String
  | .reachedMinimum name v =>
      "nextval: reached minimum value of sequence " ++ name ++ " (" ++ toString v ++ ")"
  | .reachedMaximum name v =>
      "nextval: reached maximum value of sequence \"" ++ name ++ "\" (" ++ toString v ++ ")"
  | .outOfBounds v name lo hi =>
      "setval: value " ++ toString v ++ " is out of bounds for sequence " ++ name ++ " (" ++
        toString lo ++ ".." ++ toString hi ++ ")"

namespace SequenceDefinition

variable (d : SequenceDefinition)

def create : SequenceData := ⟨0, d.startValue, none⟩

/-- `TryAddOperator` of the increment. -/
def tryAdd (counter : Int) : Option Int :=
  if intMinimum true .w64 ≤ counter + d.increment ∧
      counter + d.increment ≤ intMaximum true .w64 then
    some (counter + d.increment)
  else none

def cycleNext : Option Int → Int
  | none => if d.increment < 0 then d.maxValue else d.minValue
  | some next =>
      if next < d.minValue then d.maxValue
      else if next > d.maxValue then d.minValue
      else next

def nextValue (s : SequenceData) : Except SequenceError (SequenceData × Int) :=
  let result := s.counter
  let sum := d.tryAdd s.counter
  let advance (next : Int) : SequenceData := ⟨s.usageCount + 1, next, some result⟩
  if d.cycle then .ok (advance (d.cycleNext sum), result)
  else if result < d.minValue ∨ (sum = none ∧ d.increment < 0) then
    .error (.reachedMinimum d.name d.minValue)
  else
    match sum with
    | none => .error (.reachedMaximum d.name d.maxValue)
    | some next =>
        if result > d.maxValue then .error (.reachedMaximum d.name d.maxValue)
        else .ok (advance next, result)

/-- The section of `SequenceCatalogEntry::SetValue`, with the value that it returns, if it does. -/
def setCounter (s : SequenceData) (value : Int) (isCalled : Bool) :
    Except SequenceError (SequenceData × Option Int) :=
  if value < d.minValue ∨ value > d.maxValue then
    .error (.outOfBounds value d.name d.minValue d.maxValue)
  else if !isCalled then .ok (⟨s.usageCount + 1, value, s.lastValue⟩, some value)
  else .ok (⟨s.usageCount, value, s.lastValue⟩, none)

def InBounds (v : Int) : Prop := d.minValue ≤ v ∧ v ≤ d.maxValue

instance (v : Int) : Decidable (d.InBounds v) := inferInstanceAs (Decidable (_ ∧ _))

/-- Whether `nextValue` returns the counter. -/
def HandsOut (v : Int) : Prop :=
  d.InBounds v ∧ (d.cycle = true ∨ d.tryAdd v ≠ none)

instance (v : Int) : Decidable (d.HandsOut v) := inferInstanceAs (Decidable (_ ∧ _))

def successor (v : Int) : Int :=
  if d.cycle then d.cycleNext (d.tryAdd v) else v + d.increment

theorem tryAdd_some {v next : Int} (h : d.tryAdd v = some next) : next = v + d.increment := by
  unfold tryAdd at h
  split_ifs at h
  exact (Option.some.inj h).symm

theorem inBounds_cycleNext (sum : Option Int) : d.InBounds (d.cycleNext sum) := by
  have hmin := d.minValue_le
  have hmax := d.le_maxValue
  cases sum with
  | none =>
      simp only [cycleNext, InBounds]
      split_ifs <;> omega
  | some next =>
      simp only [cycleNext, InBounds]
      split_ifs <;> omega

/-- What `NextValue` does, where a sequence that cycles has its counter within the bounds. -/
theorem nextValue_eq (s : SequenceData) (hcycle : d.cycle = true → d.InBounds s.counter) :
    if d.HandsOut s.counter then
      d.nextValue s = .ok (⟨s.usageCount + 1, d.successor s.counter, some s.counter⟩, s.counter)
    else ∃ e, d.nextValue s = .error e := by
  by_cases hc : d.cycle = true
  · rw [if_pos ⟨hcycle hc, Or.inl hc⟩]
    simp only [nextValue, successor, if_pos hc]
  · split_ifs with hout
    · obtain ⟨⟨hmin, hmax⟩, hadd⟩ := hout
      obtain ⟨next, hnext⟩ := Option.ne_none_iff_exists'.mp (hadd.resolve_left hc)
      obtain rfl := d.tryAdd_some hnext
      have hlo : ¬ (s.counter < d.minValue ∨
          ((some (s.counter + d.increment) : Option Int) = none ∧ d.increment < 0)) := by
        rintro (h | ⟨h, -⟩)
        · omega
        · cases h
      simp only [nextValue, hnext, if_neg hc, if_neg hlo, if_neg (not_lt.mpr hmax), successor]
    · cases hsum : d.tryAdd s.counter with
      | none =>
          simp only [nextValue, hsum, if_neg hc]
          split_ifs
          · exact ⟨_, rfl⟩
          · exact ⟨_, rfl⟩
      | some next =>
          simp only [nextValue, hsum, if_neg hc, reduceCtorEq, false_and, or_false]
          split_ifs with hlo hhi
          · exact ⟨_, rfl⟩
          · exact ⟨_, rfl⟩
          · refine absurd ⟨⟨not_lt.mp hlo, not_lt.mp hhi⟩, Or.inr ?_⟩ hout
            rw [hsum]
            exact Option.some_ne_none next

/-- Once a value is not handed out, the values after it are not. -/
theorem not_handsOut_add {v : Int} (k : Nat)
    (hup : 0 < d.increment → d.minValue ≤ v) (hdown : d.increment < 0 → v ≤ d.maxValue)
    (h : ¬ d.HandsOut v) : ¬ d.HandsOut (v + k * d.increment) := by
  have hmin := d.minValue_ge
  have hmax := d.maxValue_le
  rintro ⟨⟨hlo, hhi⟩, hadd⟩
  cases k with
  | zero =>
      have hzero : v + ((0 : Nat) : Int) * d.increment = v := by simp
      rw [hzero] at hlo hhi hadd
      exact h ⟨⟨hlo, hhi⟩, hadd⟩
  | succ k =>
      refine h ⟨?_, Or.inr ?_⟩
      all_goals
        rcases lt_or_gt_of_ne d.increment_ne with hneg | hpos
      · have hstep : (k : Int) * d.increment ≤ 0 :=
          mul_nonpos_of_nonneg_of_nonpos (by omega) hneg.le
        have hle := hdown hneg
        push_cast at hlo hhi
        exact ⟨by linarith, hle⟩
      · have hstep : 0 ≤ (k : Int) * d.increment := mul_nonneg (by omega) hpos.le
        have hle := hup hpos
        push_cast at hlo hhi
        exact ⟨hle, by linarith⟩
      · have hstep : (k : Int) * d.increment ≤ 0 :=
          mul_nonpos_of_nonneg_of_nonpos (by omega) hneg.le
        have hle := hdown hneg
        push_cast at hlo hhi
        rw [tryAdd, if_pos ⟨by linarith, by linarith⟩]
        exact Option.some_ne_none _
      · have hstep : 0 ≤ (k : Int) * d.increment := mul_nonneg (by omega) hpos.le
        have hle := hup hpos
        push_cast at hlo hhi
        rw [tryAdd, if_pos ⟨by linarith, by linarith⟩]
        exact Option.some_ne_none _

end SequenceDefinition

/-! ## Callers -/

/-- What a transaction writes of a sequence when it commits. -/
structure SequenceValue where
  usageCount : Nat
  counter : Int
  deriving Repr, DecidableEq

/-- The sequence, the callers that are between the two sections of `SetValue`, and the usage that
the transaction of each caller has pushed. -/
structure SequenceState (ι : Type) where
  data : SequenceData
  pending : ι → Bool
  sequenceUsage : ι → Option SequenceValue

inductive SequenceSection (ι : Type)
  | nextValue (caller : ι)
  | setValue (caller : ι) (value : Int) (isCalled : Bool)
  deriving Repr, DecidableEq

/-- What a section returns to its caller: an error, a value, or nothing yet. -/
abbrev SequenceOutcome := Except SequenceError (Option Int)

section Lts

variable {ι : Type} [DecidableEq ι] (d : SequenceDefinition)

namespace SequenceState

variable (s : SequenceState ι)

/-- `PushSequenceUsage`, unless the sequence is temporary. -/
def pushSequenceUsage (caller : ι) (data : SequenceData) : SequenceState ι :=
  { s with
    data := data
    sequenceUsage :=
      if d.temporary then s.sequenceUsage
      else Function.update s.sequenceUsage caller (some ⟨data.usageCount, data.counter⟩) }

def setPending (caller : ι) (b : Bool) : SequenceState ι :=
  { s with pending := Function.update s.pending caller b }

/-- `NextValue` of a caller, on its own or at the end of `SetValue`. -/
def nextValue (caller : ι) : SequenceState ι × SequenceOutcome :=
  match d.nextValue s.data with
  | .error e => (s.setPending caller false, .error e)
  | .ok (data, v) => ((s.pushSequenceUsage d caller data).setPending caller false, .ok (some v))

/-- The first section of `SetValue`. -/
def setValue (caller : ι) (value : Int) (isCalled : Bool) : SequenceState ι × SequenceOutcome :=
  match d.setCounter s.data value isCalled with
  | .error e => (s, .error e)
  | .ok (data, some v) => (s.pushSequenceUsage d caller data, .ok (some v))
  | .ok (data, none) => ({ s with data := data }.setPending caller true, .ok none)

def perform : SequenceSection ι → SequenceState ι × SequenceOutcome
  | .nextValue caller => s.nextValue d caller
  | .setValue caller value isCalled => s.setValue d caller value isCalled

def Allows : SequenceSection ι → Prop
  | .nextValue _ => True
  | .setValue caller _ _ => s.pending caller = false

end SequenceState

def sequenceLts : Lts (SequenceState ι) (SequenceSection ι × SequenceOutcome) where
  init s := s = ⟨d.create, fun _ => false, fun _ => none⟩
  step s l t := s.Allows l.1 ∧ s.perform d l.1 = (t, l.2)

variable {d} {s t : SequenceState ι} {caller : ι} {v : Int}

theorem SequenceState.nextValue_spec (s : SequenceState ι) (caller : ι)
    (hcycle : d.cycle = true → d.InBounds s.data.counter) :
    if d.HandsOut s.data.counter then
      (s.nextValue d caller).1.data =
          ⟨s.data.usageCount + 1, d.successor s.data.counter, some s.data.counter⟩ ∧
        (s.nextValue d caller).2 = .ok (some s.data.counter)
    else (s.nextValue d caller).1.data = s.data ∧ ∃ e, (s.nextValue d caller).2 = .error e := by
  have hspec := d.nextValue_eq s.data hcycle
  unfold SequenceState.nextValue
  split_ifs at hspec ⊢ with hout
  · rw [hspec]
    exact ⟨rfl, rfl⟩
  · obtain ⟨e, he⟩ := hspec
    rw [he]
    exact ⟨rfl, e, rfl⟩

theorem SequenceState.setValue_spec (s : SequenceState ι) (caller : ι) (v : Int) (isCalled : Bool) :
    if d.InBounds v then
      (s.setValue d caller v isCalled).1.data.counter = v ∧
        (s.setValue d caller v isCalled).2 = .ok (if isCalled then none else some v)
    else s.setValue d caller v isCalled =
      (s, .error (.outOfBounds v d.name d.minValue d.maxValue)) := by
  by_cases hout : v < d.minValue ∨ v > d.maxValue
  · rw [if_neg fun h : d.InBounds v => by unfold SequenceDefinition.InBounds at h; omega]
    simp only [SequenceState.setValue, SequenceDefinition.setCounter, if_pos hout]
  · rw [if_pos ⟨not_lt.mp fun h => hout (Or.inl h), not_lt.mp fun h => hout (Or.inr h)⟩]
    cases isCalled with
    | true =>
        simp only [SequenceState.setValue, SequenceDefinition.setCounter, if_neg hout,
          Bool.not_true, Bool.false_eq_true, if_false, if_true, SequenceState.setPending,
          and_self]
    | false =>
        simp only [SequenceState.setValue, SequenceDefinition.setCounter, if_neg hout,
          Bool.not_false, if_true, Bool.false_eq_true, if_false,
          SequenceState.pushSequenceUsage, and_self]

/-- The counter of a sequence that cycles is within the bounds. -/
theorem counter_inBounds (h : (sequenceLts d).Reachable s) (hcycle : d.cycle = true) :
    d.InBounds s.data.counter := by
  refine h.invariant (I := fun s => d.InBounds s.data.counter) ?_ ?_
  · rintro s rfl
    exact ⟨d.minValue_le, d.le_maxValue⟩
  · rintro s ⟨a, o⟩ t - hin ⟨-, hstep⟩
    cases a with
    | nextValue caller =>
        have hspec := s.nextValue_spec caller fun _ => hin
        obtain rfl : t = (s.nextValue d caller).1 := (congrArg Prod.fst hstep).symm
        split_ifs at hspec
        · rw [hspec.1]
          simp only [SequenceDefinition.successor, if_pos hcycle]
          exact d.inBounds_cycleNext _
        · rw [hspec.1]
          exact hin
    | setValue caller value isCalled =>
        have hspec := s.setValue_spec (d := d) caller value isCalled
        obtain rfl : t = (s.setValue d caller value isCalled).1 := (congrArg Prod.fst hstep).symm
        by_cases hvalue : d.InBounds value
        · rw [if_pos hvalue] at hspec
          rw [hspec.1]
          exact hvalue
        · rw [if_neg hvalue] at hspec
          rw [hspec]
          exact hin

/-! ## The values that are handed out -/

variable {a : SequenceSection ι}

/-- A section that throws leaves the sequence as it is. -/
theorem data_of_error {e : SequenceError} (hcycle : d.cycle = true → d.InBounds s.data.counter)
    (h : s.perform d a = (t, .error e)) : t.data = s.data := by
  cases a with
  | nextValue caller =>
      have hspec := s.nextValue_spec caller hcycle
      obtain ⟨rfl, ho⟩ : (s.nextValue d caller).1 = t ∧ (s.nextValue d caller).2 = .error e :=
        Prod.mk.inj h
      split_ifs at hspec
      · cases hspec.2.symm.trans ho
      · exact hspec.1
  | setValue caller value isCalled =>
      have hspec := s.setValue_spec (d := d) caller value isCalled
      obtain ⟨rfl, ho⟩ : (s.setValue d caller value isCalled).1 = t ∧
        (s.setValue d caller value isCalled).2 = .error e := Prod.mk.inj h
      by_cases hvalue : d.InBounds value
      · rw [if_pos hvalue] at hspec
        cases hspec.2.symm.trans ho
      · rw [if_neg hvalue] at hspec
        rw [hspec]

variable (d) in
def throwingLts : Lts (SequenceState ι) (SequenceSection ι × SequenceOutcome) :=
  (sequenceLts d).restrict fun _ l => ∃ e, l.2 = .error e

variable (d s) in
/-- The value is the next one that anyone gets from `NextValue`, if anyone gets one. -/
def NextIs (v : Int) : Prop :=
  ∀ t, (throwingLts d).Leads s t → ∀ caller,
    if d.HandsOut v then (t.nextValue d caller).2 = .ok (some v)
    else ∃ e, (t.nextValue d caller).2 = .error e

theorem data_of_throwing (h : (sequenceLts d).Reachable s) (hleads : (throwingLts d).Leads s t) :
    t.data = s.data ∧ (sequenceLts d).Reachable t := by
  induction hleads with
  | refl => exact ⟨rfl, h⟩
  | tail _ hbc ih =>
      obtain ⟨⟨a, o⟩, ⟨e, rfl⟩, hstep⟩ := hbc
      exact ⟨(data_of_error (counter_inBounds ih.2) hstep.2).trans ih.1, ih.2.step hstep⟩

theorem nextIs_counter (h : (sequenceLts d).Reachable s) : NextIs d s s.data.counter := by
  intro t hleads caller
  obtain ⟨hsame, ht⟩ := data_of_throwing h hleads
  have hspec := t.nextValue_spec caller (counter_inBounds ht)
  rw [hsame] at hspec
  split_ifs at hspec ⊢ with hout
  · exact hspec.2
  · exact hspec.2

theorem reachable_perform (h : (sequenceLts d).Reachable s) (ha : s.Allows a) :
    (sequenceLts d).Reachable (s.perform d a).1 :=
  h.step (l := (a, (s.perform d a).2)) ⟨ha, rfl⟩

theorem returned_inBounds (h : (sequenceLts d).Reachable s) {a : SequenceSection ι}
    (hv : (s.perform d a).2 = .ok (some v)) : d.InBounds v := by
  cases a with
  | nextValue caller =>
      have hspec := s.nextValue_spec caller (counter_inBounds h)
      split_ifs at hspec with hout
      · obtain rfl := Option.some.inj (Except.ok.inj (hspec.2.symm.trans hv))
        exact hout.1
      · obtain ⟨e, he⟩ := hspec.2
        cases he.symm.trans hv
  | setValue caller value isCalled =>
      have hspec := s.setValue_spec (d := d) caller value isCalled
      by_cases hvalue : d.InBounds value
      · rw [if_pos hvalue] at hspec
        have ho := Except.ok.inj (hspec.2.symm.trans hv)
        cases isCalled with
        | true => cases ho
        | false =>
            obtain rfl := Option.some.inj ho
            exact hvalue
      · rw [if_neg hvalue] at hspec
        cases (congrArg Prod.snd hspec).symm.trans hv

def outcomeValue : SequenceOutcome → Option Int
  | .ok v => v
  | .error _ => none

variable (d) in
/-- What the callers of `NextValue` get, one after the other. -/
def nextValues (s : SequenceState ι) : List ι → List (Option Int)
  | [] => []
  | caller :: callers =>
      outcomeValue (s.nextValue d caller).2 :: nextValues (s.nextValue d caller).1 callers

/-- Without CYCLE the values go up, or down, in steps of the increment. -/
theorem nextValues_eq (hcycle : d.cycle = false) :
    ∀ (callers : List ι) (s : SequenceState ι),
      (0 < d.increment → d.minValue ≤ s.data.counter) →
      (d.increment < 0 → s.data.counter ≤ d.maxValue) →
      nextValues d s callers = (List.range callers.length).map fun k : Nat =>
        if d.HandsOut (s.data.counter + k * d.increment) then
          some (s.data.counter + k * d.increment)
        else none
  | [], _, _, _ => rfl
  | caller :: callers, s, hup, hdown => by
      have hspec := s.nextValue_spec (d := d) caller fun h => by rw [hcycle] at h; cases h
      rw [nextValues, List.length_cons, List.range_succ_eq_map, List.map_cons, List.map_map]
      by_cases hout : d.HandsOut s.data.counter
      · rw [if_pos hout] at hspec
        have hsuccessor : (s.nextValue d caller).1.data.counter =
            s.data.counter + d.increment := by
          rw [hspec.1]
          simp [SequenceDefinition.successor, hcycle]
        rw [hspec.2, nextValues_eq hcycle callers, hsuccessor]
        · simp only [Nat.cast_zero, zero_mul, add_zero, if_pos hout]
          refine congrArg (List.cons _) (List.map_congr_left fun k _ => ?_)
          have hk : s.data.counter + d.increment + k * d.increment =
              s.data.counter + ((k + 1 : Nat) : Int) * d.increment := by
            push_cast
            ring
          rw [hk]
          rfl
        · intro hpos
          have hle := hup hpos
          omega
        · intro hneg
          have hle := hdown hneg
          omega
      · rw [if_neg hout] at hspec
        obtain ⟨hdata, e, he⟩ := hspec
        rw [he, nextValues_eq hcycle callers _ (by rwa [hdata]) (by rwa [hdata]), hdata]
        simp only [Nat.cast_zero, zero_mul, add_zero, if_neg hout]
        refine congrArg (List.cons _) (List.map_congr_left fun k _ => ?_)
        rw [if_neg (d.not_handsOut_add k hup hdown hout)]
        exact (if_neg (d.not_handsOut_add (k + 1) hup hdown hout)).symm

/-- `SetValue` of the value that is handed out next. -/
theorem setValue_nextIs (h : (sequenceLts d).Reachable s) (hpending : s.pending caller = false)
    (hv : d.InBounds v) (isCalled : Bool) :
    (s.setValue d caller v isCalled).2 = .ok (if isCalled then none else some v) ∧
      (sequenceLts d).Reachable (s.setValue d caller v isCalled).1 ∧
      NextIs d (s.setValue d caller v isCalled).1 v := by
  have hspec := s.setValue_spec (d := d) caller v isCalled
  rw [if_pos hv] at hspec
  have hreach := reachable_perform h (a := .setValue caller v isCalled) hpending
  have hnext := nextIs_counter hreach
  rw [SequenceState.perform, hspec.1] at hnext
  exact ⟨hspec.2, hreach, hnext⟩

/-- `SetValue` as if the value came from `NextValue`, where no section that succeeds is between
its two. -/
theorem setValue_nextValue (h : (sequenceLts d).Reachable s) (hpending : s.pending caller = false)
    (hv : d.HandsOut v) (hleads : (throwingLts d).Leads (s.setValue d caller v true).1 t) :
    (s.setValue d caller v true).2 = .ok none ∧ (t.nextValue d caller).2 = .ok (some v) ∧
      NextIs d (t.nextValue d caller).1 (d.successor v) := by
  obtain ⟨hset, hreach, hnext⟩ := setValue_nextIs h hpending hv.1 true
  obtain ⟨hsame, ht⟩ := data_of_throwing hreach hleads
  have hcounter : (s.setValue d caller v true).1.data.counter = v := by
    have hspec := s.setValue_spec (d := d) caller v true
    rw [if_pos hv.1] at hspec
    exact hspec.1
  have hvalue := hnext t hleads caller
  rw [if_pos hv] at hvalue
  have hspec := t.nextValue_spec caller (counter_inBounds ht)
  rw [hsame, hcounter, if_pos hv] at hspec
  have hsuccessor := nextIs_counter (reachable_perform ht (a := .nextValue caller) trivial)
  rw [SequenceState.perform, hspec.1] at hsuccessor
  exact ⟨hset, hvalue, hsuccessor⟩

variable (d ι) in
/-- The values that callers get, in any interleaving of their sections. A `SetValue` with
`is_called` is covered where no section that succeeds is between its two and its value is handed
out. -/
theorem sequence_values :
    (∀ s, (sequenceLts d).Reachable s → ∀ a, s.Allows a → ∀ v,
      ((s : SequenceState ι).perform d a).2 = .ok (some v) → d.InBounds v) ∧
    (∀ s, (sequenceLts d).Reachable s → ∀ a, s.Allows a → ∀ e,
      ((s : SequenceState ι).perform d a).2 = .error e → (s.perform d a).1.data = s.data) ∧
    (d.cycle = false → ∀ s, (sequenceLts d).init s → ∀ callers : List ι,
      nextValues d s callers = (List.range callers.length).map fun k : Nat =>
        if d.HandsOut (d.startValue + k * d.increment) then
          some (d.startValue + k * d.increment)
        else none) ∧
    (∀ k j : Nat, k ≤ j → ¬ d.HandsOut (d.startValue + k * d.increment) →
      ¬ d.HandsOut (d.startValue + j * d.increment)) ∧
    ∀ s, (sequenceLts d).Reachable s → ∀ caller : ι, s.pending caller = false → ∀ v,
      (d.InBounds v → (s.setValue d caller v false).2 = .ok (some v) ∧
        NextIs d (s.setValue d caller v false).1 v) ∧
      (d.HandsOut v → (s.setValue d caller v true).2 = .ok none ∧
        ∀ t, (throwingLts d).Leads (s.setValue d caller v true).1 t →
          (t.nextValue d caller).2 = .ok (some v) ∧
            NextIs d (t.nextValue d caller).1 (d.successor v)) := by
  refine ⟨fun s h a _ v => returned_inBounds h, ?_, ?_, ?_, ?_⟩
  · intro s h a _ e he
    exact data_of_error (counter_inBounds h) (Prod.ext rfl he)
  · rintro hcycle s rfl callers
    exact nextValues_eq hcycle callers _ (fun _ => d.minValue_le) fun _ => d.le_maxValue
  · intro k j hkj h
    obtain ⟨i, rfl⟩ := Nat.exists_eq_add_of_le hkj
    have hsum : d.startValue + ((k + i : Nat) : Int) * d.increment =
        d.startValue + k * d.increment + i * d.increment := by
      push_cast
      ring
    rw [hsum]
    have hmin := d.minValue_le
    have hmax := d.le_maxValue
    refine d.not_handsOut_add i (fun hpos => ?_) (fun hneg => ?_) h
    · have hk : 0 ≤ (k : Int) * d.increment := mul_nonneg (by omega) hpos.le
      omega
    · have hk : (k : Int) * d.increment ≤ 0 :=
        mul_nonpos_of_nonneg_of_nonpos (by omega) hneg.le
      omega
  · intro s h caller hpending v
    refine ⟨fun hv => ?_, fun hv => ⟨?_, fun t ht => ?_⟩⟩
    · obtain ⟨hset, -, hnext⟩ := setValue_nextIs h hpending hv false
      exact ⟨hset, hnext⟩
    · exact (setValue_nextIs h hpending hv.1 true).1
    · exact (setValue_nextValue h hpending hv ht).2

end Lts

/-- `CREATE SEQUENCE seq MINVALUE lo MAXVALUE hi START lo` -/
def countUp (lo hi : Int) (h : lo ≤ hi) (hlo : intMinimum true .w64 ≤ lo)
    (hhi : hi ≤ intMaximum true .w64) : SequenceDefinition :=
  ⟨"seq", false, 1, lo, lo, hi, false, by decide, le_rfl, h, hlo, hhi⟩

def countToTen : SequenceDefinition := countUp 1 10 (by decide) (by decide) (by decide)

/-- A value that is set is followed by the next one. -/
theorem sequence_values_ten :
    ((SequenceState.setValue countToTen ⟨countToTen.create, fun _ => false, fun _ => none⟩ () 5
      false).1.nextValue countToTen ()).2 = .ok (some 5) := by
  have h := ((sequence_values Unit countToTen).2.2.2.2 ⟨countToTen.create, fun _ => false,
    fun _ => none⟩ (.init rfl) () rfl 5).1 ⟨by decide, by decide⟩
  have hnext := h.2 _ .refl ()
  rwa [if_pos ⟨⟨by decide, by decide⟩, Or.inr (by decide)⟩] at hnext

def countToLast : SequenceDefinition :=
  countUp 9223372036854775800 9223372036854775807 (by decide) (by decide) (by decide)

/-- The last value of the range is never handed out, and another caller can take a value between
the sections of `SetValue`. -/
theorem sequence_skips_values :
    (nextValues countToLast ⟨countToLast.create, fun _ => false, fun _ => none⟩
        (List.replicate 9 ()) =
      [some 9223372036854775800, some 9223372036854775801, some 9223372036854775802,
        some 9223372036854775803, some 9223372036854775804, some 9223372036854775805,
        some 9223372036854775806, none, none] ∧
      countToLast.InBounds 9223372036854775807) ∧
    (let s : SequenceState Bool := ⟨countToTen.create, fun _ => false, fun _ => none⟩
     let s' := (s.setValue countToTen true 5 true).1
     let s'' := (s'.nextValue countToTen false).1
     (s'.nextValue countToTen false).2 = .ok (some 5) ∧
      (s''.nextValue countToTen true).2 = .ok (some 6)) := by
  decide

end MiniDuck
