import MiniDuck.RleRoundTrip

/-!
# Filters on run lengths

`RLEFilter` evaluates a filter once for every run and keeps which of them
match. A vector is then filtered run by run, or row by row where rows
have been selected before. If no run matches, the filter returns at once,
and the scan stays where it is.

The scan is then behind the rows that its callers count (`FilterAt`).
`rle_filter_ok` follows any calls: where a row of the segment passes the
filter they see what a plain scan would have given them, and so they do
as long as nothing is read after a filter. `rle_filter_behind` is a scan
that reads a row twice.
-/

namespace MiniDuck

open RunLength

variable {α : Type}

/-! ## The filter -/

/-- The scan state with the runs that match the filter. -/
structure RleFilterState (α : Type) where
  scan : RleScanState α
  matchingRuns : Option (Nat → Bool)
  matchingRunCount : Nat

namespace RleFilterState

section Model

variable (filter : α → Bool)

/-- The first part of `RLEFilter`: the filter is applied to all runs, once. -/
def applyFilter (s : RleFilterState α) : Except String ((Nat → Bool) × RleFilterState α) :=
  match s.matchingRuns with
  | some matchingRuns => .ok (matchingRuns, s)
  | none => do
      let layout ← s.scan.layout.validateAllRuns
      let runMatches := (List.range layout.validatedEntryCount).filter fun i =>
        filter (layout.values i)
      let matchingRuns := runMatches.foldl (fun m i => Function.update m i true) fun _ => false
      .ok (matchingRuns,
        ⟨⟨layout, s.scan.entryPos, s.scan.positionInEntry⟩, some matchingRuns, runMatches.length⟩)

/-- The loop over the runs of a vector, with the rounds it may take. The selection is the
list of matching rows. -/
def filterRunsLoop (matchingRuns : Nat → Bool) : Nat → Nat → Nat → Memory α → RleScanState α →
    Except String (List Nat × Memory α × RleScanState α)
  | _, _, 0, result, s => .ok ([], result, s)
  | 0, _, _ + 1, _, _ => .error "the loop has not ended"
  | rounds + 1, resultOffset, n + 1, result, s => do
      let (run, s) ← s.validateAndGetCurrentRun
      let runCount := run.2 - s.positionInEntry
      let matchingRun := matchingRuns s.entryPos
      if runCount > n + 1 then
        let s' : RleScanState α := ⟨s.layout, s.entryPos, s.positionInEntry + (n + 1)⟩
        if matchingRun then
          .ok (List.range' resultOffset (n + 1),
            result.write resultOffset (List.replicate (n + 1) run.1), s')
        else .ok ([], result, s')
      else
        let s ← s.forwardToNextRun
        let (sel, result) :=
          if matchingRun then
            (List.range' resultOffset runCount,
              result.write resultOffset (List.replicate runCount run.1))
          else ([], result)
        let (rest, result, s) ←
          filterRunsLoop matchingRuns rounds (resultOffset + runCount) (n + 1 - runCount) result s
        .ok (sel ++ rest, result, s)

/-- The loop over rows that have been selected, with the row before. -/
def filterRowsLoop (matchingRuns : Nat → Bool) : List Nat → Nat → Memory α → RleScanState α →
    Except String (List Nat × Nat × Memory α × RleScanState α)
  | [], prevIdx, result, s => .ok ([], prevIdx, result, s)
  | readIdx :: sel, prevIdx, result, s =>
      if readIdx < prevIdx then
        .error "Error in RLEFilter - selection vector indices are not ordered"
      else do
        let s ← s.skipInternal (readIdx - prevIdx)
        let (run, s) ← s.validateAndGetCurrentRun
        if !matchingRuns s.entryPos then filterRowsLoop matchingRuns sel readIdx result s
        else
          let (rest, prevIdx, result, s) ←
            filterRowsLoop matchingRuns sel readIdx (result.write readIdx [run.1]) s
          .ok (readIdx :: rest, prevIdx, result, s)

/-- The matching rows of a vector. A selection that is not set stands for all rows. -/
def filterVector (matchingRuns : Nat → Bool) (vectorCount : Nat) (result : Memory α)
    (sel : Option (List Nat)) (selCount : Nat) (s : RleScanState α) :
    Except String (List Nat × Memory α × RleScanState α) :=
  match sel with
  | none => filterRunsLoop matchingRuns selCount 0 selCount result s
  | some rows => do
      let (matchingSel, prevIdx, result, s) ←
        filterRowsLoop matchingRuns (rows.take selCount) 0 result s
      let s ← s.skipInternal (vectorCount - prevIdx)
      .ok (matchingSel, result, s)

def rleFilter (vectorCount : Nat) (result : Memory α) (sel : Option (List Nat)) (selCount : Nat)
    (s : RleFilterState α) :
    Except String (Memory α × Option (List Nat) × Nat × RleFilterState α) := do
  let (matchingRuns, s) ← s.applyFilter filter
  if s.matchingRunCount = 0 then .ok (result, sel, 0, s)
  else
    let (matchingSel, result, scan) ←
      filterVector matchingRuns vectorCount result sel selCount s.scan
    let s : RleFilterState α := ⟨scan, s.matchingRuns, s.matchingRunCount⟩
    if matchingSel.length ≠ selCount then .ok (result, some matchingSel, matchingSel.length, s)
    else .ok (result, sel, selCount, s)

end Model

end RleFilterState

/-! ## Rows that pass -/

variable {entries : List (α × Nat)} {filter : α → Bool} {s : RleScanState α} {m : Nat → Bool}

def passes (filter : α → Bool) (entries : List (α × Nat)) (p : Nat) : Bool :=
  ((expand entries)[p]?).any filter

/-- The runs that have rows are marked as the filter says. -/
def MatchesRuns (filter : α → Bool) (entries : List (α × Nat)) (m : Nat → Bool) : Prop :=
  ∀ i run, entries[i]? = some run → 0 < run.2 → m i = filter run.1

/-- The vector has the values of these rows, and no other values than it had before. -/
def Fills (entries : List (α × Nat)) (p : Nat) (sel : List Nat) (result result' : Memory α) :
    Prop :=
  (∀ i ∈ sel, (expand entries)[p + i]? = some (result' i)) ∧
    ∀ i, result' i = result i ∨ (expand entries)[p + i]? = some (result' i)

theorem fills_nil (p : Nat) (result : Memory α) : Fills entries p [] result result :=
  ⟨nofun, fun _ => Or.inl rfl⟩

theorem Fills.append {p : Nat} {sel sel' : List Nat} {result result' result'' : Memory α}
    (h : Fills entries p sel result result') (h' : Fills entries p sel' result' result'') :
    Fills entries p (sel ++ sel') result result'' := by
  refine ⟨fun i hi => ?_, fun i => ?_⟩
  · rcases List.mem_append.mp hi with hi | hi
    · rcases h'.2 i with hsame | hvalue
      · rw [hsame]
        exact h.1 i hi
      · exact hvalue
    · exact h'.1 i hi
  · rcases h'.2 i with hsame | hvalue
    · rw [hsame]
      exact h.2 i
    · exact Or.inr hvalue

theorem fills_write {p offset n : Nat} {value : α} (result : Memory α)
    (h : ∀ i, offset ≤ i → i < offset + n → (expand entries)[p + i]? = some value) :
    Fills entries p (List.range' offset n) result
      (result.write offset (List.replicate n value)) := by
  have hget : ∀ i, offset ≤ i → i < offset + n →
      result.write offset (List.replicate n value) i = value := by
    intro i hle hlt
    rw [Memory.write, if_pos hle, List.getD_eq_getElem?_getD,
      List.getElem?_replicate_of_lt (by omega), Option.getD_some]
  refine ⟨fun i hi => ?_, fun i => ?_⟩
  · rw [List.mem_range'_1] at hi
    rw [hget i hi.1 hi.2]
    exact h i hi.1 hi.2
  · by_cases hi : offset ≤ i ∧ i < offset + n
    · rw [hget i hi.1 hi.2]
      exact Or.inr (h i hi.1 hi.2)
    · refine Or.inl ?_
      rw [Memory.write]
      split
      · rw [List.getD_eq_getElem?_getD,
          List.getElem?_eq_none (by rw [List.length_replicate]; omega), Option.getD_none]
      · rfl

theorem InRun.row {run : α × Nat} {p : Nat} (h : InRun entries run s p) {i : Nat}
    (hi : s.positionInEntry + i < run.2) : (expand entries)[p + i]? = some run.1 := by
  rw [h.place, Nat.add_assoc]
  exact getElem?_expand_run h.entry hi

theorem InRun.matchingRun {run : α × Nat} {p : Nat} (h : InRun entries run s p)
    (hm : MatchesRuns filter entries m) : m s.entryPos = filter run.1 :=
  hm _ run h.entry (Nat.zero_lt_of_lt h.within)

theorem InRun.passes {run : α × Nat} {p : Nat} (h : InRun entries run s p) {i : Nat}
    (hi : s.positionInEntry + i < run.2) : passes filter entries (p + i) = filter run.1 := by
  rw [MiniDuck.passes, h.row hi, Option.any_some]

theorem InRun.filter_range {run : α × Nat} {p offset n : Nat} (h : InRun entries run s (p + offset))
    (hn : s.positionInEntry + n ≤ run.2) :
    (List.range' offset n).filter (fun i => MiniDuck.passes filter entries (p + i)) =
      if filter run.1 then List.range' offset n else [] := by
  have hrow : ∀ i ∈ List.range' offset n,
      MiniDuck.passes filter entries (p + i) = filter run.1 := by
    intro i hi
    rw [List.mem_range'_1] at hi
    obtain ⟨k, rfl⟩ := Nat.exists_eq_add_of_le hi.1
    rw [← Nat.add_assoc]
    exact h.passes (by omega)
  split <;> rename_i hpass
  · exact List.filter_eq_self.mpr fun i hi => (hrow i hi).trans hpass
  · exact List.filter_eq_nil_iff.mpr fun i hi => by rw [hrow i hi]; exact hpass

/-- The rows of a run that are scanned if it matches. -/
theorem InRun.fills {run : α × Nat} {p offset n : Nat} (result : Memory α)
    (h : InRun entries run s (p + offset)) (hn : s.positionInEntry + n ≤ run.2) (pass : Bool) :
    Fills entries p (if pass then List.range' offset n else []) result
      (if pass then result.write offset (List.replicate n run.1) else result) := by
  cases pass with
  | false => exact fills_nil p result
  | true =>
      refine fills_write result fun i hle hlt => ?_
      obtain ⟨k, rfl⟩ := Nat.exists_eq_add_of_le hle
      rw [← Nat.add_assoc]
      exact h.row (by omega)

def SomePass (filter : α → Bool) (entries : List (α × Nat)) : Prop :=
  ∃ v ∈ expand entries, filter v = true

theorem passes_of_not_somePass (h : ¬ SomePass filter entries) (p : Nat) :
    passes filter entries p = false := by
  rw [passes]
  cases hrow : (expand entries)[p]? with
  | none => rfl
  | some v =>
      rw [Option.any_some]
      cases hfilter : filter v with
      | false => rfl
      | true => exact absurd ⟨v, List.mem_of_getElem? hrow, hfilter⟩ h

def Cached (filter : α → Bool) (entries : List (α × Nat)) (f : RleFilterState α) : Prop :=
  ∀ m, f.matchingRuns = some m →
    MatchesRuns filter entries m ∧ (SomePass filter entries → f.matchingRunCount ≠ 0)

/-- A row that passes lies in a run that passes. -/
theorem exists_run_of_somePass (h : SomePass filter entries) :
    ∃ (i : Nat) (run : α × Nat), entries[i]? = some run ∧ 0 < run.2 ∧ filter run.1 = true := by
  obtain ⟨v, hv, hfilter⟩ := h
  rw [expand, List.mem_flatMap] at hv
  obtain ⟨run, hrun, hv⟩ := hv
  obtain ⟨i, hi⟩ := List.mem_iff_getElem?.mp hrun
  obtain ⟨hne, rfl⟩ := List.mem_replicate.mp hv
  exact ⟨i, run, hi, Nat.pos_of_ne_zero hne, hfilter⟩

/-- The scan is at a row that callers count, or behind it if no row passes. -/
structure FilterAt (filter : α → Bool) (entries : List (α × Nat)) (f : RleFilterState α)
    (q p : Nat) : Prop where
  scan : AtRow entries f.scan q
  behind : q ≤ p
  somePass : SomePass filter entries → q = p
  cached : Cached filter entries f

def selected (sel : Option (List Nat)) (selCount : Nat) : List Nat :=
  match sel with
  | none => List.range selCount
  | some rows => rows.take selCount

/-- A selection of a vector: none stands for all rows, and a given one is in order. -/
def AdmissibleSelection (vectorCount : Nat) (sel : Option (List Nat)) (selCount : Nat) : Prop :=
  match sel with
  | none => selCount = vectorCount
  | some rows => rows.length = selCount ∧ rows.Pairwise (· ≤ ·) ∧ ∀ i ∈ rows, i < vectorCount

/-! ## Filtering a vector -/

namespace RleFilterState

theorem filterRunsLoop_ok (hm : MatchesRuns filter entries m) {rounds n p offset : Nat}
    {result : Memory α} (h : AtRow entries s (p + offset))
    (hfit : p + offset + n ≤ rowCount entries) (hrounds : n ≤ rounds) :
    ∃ sel result' s', filterRunsLoop m rounds offset n result s = .ok (sel, result', s') ∧
      sel = (List.range' offset n).filter (fun i => passes filter entries (p + i)) ∧
      Fills entries p sel result result' ∧ AtRow entries s' (p + offset + n) := by
  induction rounds generalizing s n offset result with
  | zero =>
      obtain rfl : n = 0 := by omega
      exact ⟨[], result, s, by rw [filterRunsLoop], rfl, fills_nil p result, h⟩
  | succ rounds ih =>
      cases n with
      | zero => exact ⟨[], result, s, by rw [filterRunsLoop], rfl, fills_nil p result, h⟩
      | succ n =>
          obtain ⟨run, s₁, hcurrent, hin, -⟩ := currentRun_ok h (by omega)
          have hwithin := hin.within
          have hplace := hin.place
          obtain ⟨runCount, hrunCount⟩ : ∃ runCount, runCount = run.2 - s₁.positionInEntry :=
            ⟨_, rfl⟩
          simp only [filterRunsLoop, hcurrent, bind, Except.bind, ← hrunCount,
            hin.matchingRun hm]
          by_cases hmore : runCount > n + 1
          · rw [if_pos hmore]
            have hfills := hin.fills result (by omega : s₁.positionInEntry + (n + 1) ≤ run.2)
              (filter run.1)
            refine ⟨_, _, ⟨s₁.layout, s₁.entryPos, s₁.positionInEntry + (n + 1)⟩, ?_,
              (hin.filter_range (by omega)).symm, hfills, hin.loaded, hin.atRow.entryPos,
              by simp only; omega, Or.inr ⟨run, hin.entry, by simp only; omega⟩⟩
            split <;> rfl
          · rw [if_neg hmore]
            obtain ⟨s₂, hforward, hat, -⟩ :=
              forward_ok hin.loaded hin.entry (by omega : p + (offset + runCount) = _)
            have hfills := hin.fills result (by omega : s₁.positionInEntry + runCount ≤ run.2)
              (filter run.1)
            obtain ⟨rest, result', s', hloop, hrest, hfills', hat'⟩ :
                ∃ sel result' s', filterRunsLoop m rounds (offset + runCount) (n + 1 - runCount)
                  (if filter run.1 then result.write offset (List.replicate runCount run.1)
                    else result) s₂ = .ok (sel, result', s') ∧ _ :=
              ih hat (by omega) (by omega)
            have hsplit : n + 1 = runCount + (n + 1 - runCount) := by omega
            have hsum : p + (offset + runCount) + (n + 1 - runCount) = p + offset + (n + 1) := by
              omega
            refine ⟨_ ++ rest, result', s', ?_, ?_, hfills.append hfills', hsum ▸ hat'⟩
            · simp only [hforward]
              cases hpass : filter run.1 with
              | false =>
                  rw [hpass] at hloop
                  simp only [Bool.false_eq_true, if_false] at hloop ⊢
                  rw [hloop]
              | true =>
                  rw [hpass] at hloop
                  simp only [if_true] at hloop ⊢
                  rw [hloop]
            · conv_rhs => rw [hsplit, ← List.range'_append_1, List.filter_append]
              rw [hin.filter_range (by omega), hrest]

/-- Rows that were selected before are filtered one by one. -/
theorem filterRowsLoop_ok (hm : MatchesRuns filter entries m) {sel : List Nat} {p prevIdx n : Nat}
    {result : Memory α} (h : AtRow entries s (p + prevIdx))
    (hsorted : (prevIdx :: sel).Pairwise (· ≤ ·)) (hlt : ∀ i ∈ sel, i < n)
    (hfit : p + n ≤ rowCount entries) :
    ∃ out prevIdx' result' s',
      filterRowsLoop m sel prevIdx result s = .ok (out, prevIdx', result', s') ∧
      out = sel.filter (fun i => passes filter entries (p + i)) ∧
      Fills entries p out result result' ∧ AtRow entries s' (p + prevIdx') ∧
      (prevIdx' = prevIdx ∨ prevIdx' < n) := by
  induction sel generalizing s prevIdx result with
  | nil => exact ⟨[], prevIdx, result, s, rfl, rfl, fills_nil p result, h, Or.inl rfl⟩
  | cons readIdx sel ih =>
      have hle : prevIdx ≤ readIdx := List.rel_of_pairwise_cons hsorted List.mem_cons_self
      have hread : readIdx < n := hlt readIdx List.mem_cons_self
      have hsum : p + prevIdx + (readIdx - prevIdx) = p + readIdx := by omega
      obtain ⟨s₁, hskip, hat₁⟩ :=
        skipInternal_ok h (by omega : p + prevIdx + (readIdx - prevIdx) ≤ rowCount entries)
      rw [hsum] at hat₁
      obtain ⟨run, s₂, hcurrent, hin, -⟩ := currentRun_ok hat₁ (by omega)
      have hwithin := hin.within
      have hpass : passes filter entries (p + readIdx) = filter run.1 := hin.passes (i := 0) hwithin
      have hrow : (expand entries)[p + readIdx]? = some run.1 := hin.row (i := 0) hwithin
      have hlt' : ∀ i ∈ sel, i < n := fun i hi => hlt i (List.mem_cons_of_mem _ hi)
      simp only [filterRowsLoop, if_neg (Nat.not_lt.mpr hle), hskip, bind, Except.bind, hcurrent,
        hin.matchingRun hm, List.filter_cons, hpass]
      cases hfilter : filter run.1 with
      | false =>
          obtain ⟨out, prevIdx', result', s', hloop, hout, hfills, hat, hprev⟩ :=
            ih hin.atRow hsorted.tail hlt'
          refine ⟨out, prevIdx', result', s', ?_, by simpa using hout, hfills, hat,
            Or.inr (by omega)⟩
          simp only [Bool.not_false, if_true, hloop]
      | true =>
          obtain ⟨out, prevIdx', result', s', hloop, hout, hfills, hat, hprev⟩ :
              ∃ out prevIdx' result' s', filterRowsLoop m sel readIdx
                (result.write readIdx [run.1]) s₂ = .ok (out, prevIdx', result', s') ∧ _ :=
            ih hin.atRow hsorted.tail hlt'
          have hwrite : Fills entries p [readIdx] result (result.write readIdx [run.1]) :=
            fills_write (n := 1) result fun i hle' hlt'' => by
              obtain rfl : i = readIdx := by omega
              exact hrow
          refine ⟨readIdx :: out, prevIdx', result', s', ?_, by simpa using hout,
            hwrite.append hfills, hat, Or.inr (by omega)⟩
          simp only [Bool.not_true, Bool.false_eq_true, if_false, hloop]

theorem foldl_update (l : List Nat) (m : Nat → Bool) (i : Nat) :
    l.foldl (fun m i => Function.update m i true) m i = (decide (i ∈ l) || m i) := by
  induction l generalizing m with
  | nil => simp
  | cons j l ih =>
      rw [List.foldl_cons, ih, Function.update_apply]
      by_cases hij : i = j
      · simp [hij]
      · simp [hij]

theorem applyFilter_ok {f : RleFilterState α} {q : Nat} (h : AtRow entries f.scan q)
    (hcached : Cached filter entries f) :
    ∃ m f', f.applyFilter filter = .ok (m, f') ∧ AtRow entries f'.scan q ∧
      f'.matchingRuns = some m ∧ Cached filter entries f' := by
  unfold applyFilter
  cases hruns : f.matchingRuns with
  | some m => exact ⟨m, f, rfl, h, hruns, hcached⟩
  | none =>
      obtain ⟨l, hvalidate, hloaded, hzero⟩ := h.loaded.validateAllRuns
      have hall := hloaded.unvalidated
      rw [hzero, Nat.add_zero] at hall
      simp only [hvalidate, bind, Except.bind]
      refine ⟨_, _, rfl, ⟨hloaded, h.entryPos, h.place, h.within⟩, rfl, fun m hm => ?_⟩
      obtain rfl := Option.some.inj hm
      -- a run that has rows lies before the last one that was validated
      have hbefore : ∀ {i : Nat} {run : α × Nat}, entries[i]? = some run → 0 < run.2 →
          i < l.validatedEntryCount := by
        intro i run hrun hpos
        by_contra hge
        have hsucc := start_succ hrun
        have hle := start_le entries (i + 1)
        have hmono : start entries l.validatedEntryCount ≤ start entries i := by
          obtain ⟨k, hk⟩ := Nat.exists_eq_add_of_le (Nat.not_lt.mp hge)
          rw [hk, start, start, List.take_add, rowCount_append]
          exact Nat.le_add_right _ _
        omega
      have hmem : ∀ {i : Nat} {run : α × Nat}, entries[i]? = some run → 0 < run.2 →
          (i ∈ (List.range l.validatedEntryCount).filter (fun i => filter (l.values i)) ↔
            filter run.1 = true) := by
        intro i run hrun hpos
        have hvalue : l.values i = run.1 := congrArg Prod.fst (hloaded.run hrun)
        rw [List.mem_filter, List.mem_range, hvalue]
        exact ⟨fun h => h.2, fun h => ⟨hbefore hrun hpos, h⟩⟩
      refine ⟨fun i run hrun hpos => ?_, fun hsome hcount => ?_⟩
      · rw [foldl_update, Bool.or_false]
        exact Bool.eq_iff_iff.mpr (by rw [decide_eq_true_eq]; exact hmem hrun hpos)
      · obtain ⟨i, run, hrun, hpos, hfilter⟩ := exists_run_of_somePass hsome
        have hin := (hmem hrun hpos).mpr hfilter
        rw [List.length_eq_zero_iff.mp hcount] at hin
        cases hin

theorem filterVector_ok (hm : MatchesRuns filter entries m) {q n selCount : Nat}
    {sel : Option (List Nat)} (result : Memory α) (h : AtRow entries s q)
    (hfit : q + n ≤ rowCount entries) (hsel : AdmissibleSelection n sel selCount) :
    ∃ matchingSel result' s', filterVector m n result sel selCount s =
        .ok (matchingSel, result', s') ∧
      matchingSel = (selected sel selCount).filter (fun i => passes filter entries (q + i)) ∧
      Fills entries q matchingSel result result' ∧ AtRow entries s' (q + n) := by
  cases sel with
  | none =>
      obtain rfl : selCount = n := hsel
      obtain ⟨matchingSel, result', s', hloop, hmatching, hfills, hat⟩ :
          ∃ matchingSel result' s', filterRunsLoop m selCount 0 selCount result s =
            .ok (matchingSel, result', s') ∧ _ :=
        filterRunsLoop_ok hm h (by omega : q + 0 + selCount ≤ rowCount entries)
          (Nat.le_refl selCount)
      exact ⟨matchingSel, result', s', hloop, by rw [hmatching, selected, List.range_eq_range'],
        hfills, hat⟩
  | some rows =>
      obtain ⟨rfl, hsorted, hlt⟩ := hsel
      obtain ⟨matchingSel, prevIdx, result', s₁, hloop, hmatching, hfills, hat, hprev⟩ :
          ∃ matchingSel prevIdx result' s', filterRowsLoop m rows 0 result s =
            .ok (matchingSel, prevIdx, result', s') ∧ _ :=
        filterRowsLoop_ok hm h (List.pairwise_cons.mpr ⟨fun _ _ => Nat.zero_le _, hsorted⟩) hlt hfit
      obtain ⟨s', hskip, hat'⟩ := skipInternal_ok hat
        (by omega : q + prevIdx + (n - prevIdx) ≤ rowCount entries)
      have hsum : q + prevIdx + (n - prevIdx) = q + n := by omega
      refine ⟨matchingSel, result', s', ?_, by rw [hmatching, selected, List.take_length],
        hfills, hsum ▸ hat'⟩
      simp only [filterVector, List.take_length, hloop, hskip, bind, Except.bind]

/-- The filter leaves the selected rows that pass, with their values. -/
theorem rleFilter_ok {f : RleFilterState α} {q p n selCount : Nat} {sel : Option (List Nat)}
    (result : Memory α) (h : FilterAt filter entries f q p) (hfit : p + n ≤ rowCount entries)
    (hsel : AdmissibleSelection n sel selCount) :
    ∃ result' sel' selCount' f', f.rleFilter filter n result sel selCount =
        .ok (result', sel', selCount', f') ∧
      selected sel' selCount' =
        (selected sel selCount).filter (fun i => passes filter entries (p + i)) ∧
      (∀ i ∈ selected sel' selCount', (expand entries)[p + i]? = some (result' i)) ∧
      ∃ q', FilterAt filter entries f' q' (p + n) := by
  obtain ⟨m, f₁, happly, hat, hruns, hcached⟩ := applyFilter_ok h.scan h.cached
  obtain ⟨hm, hcount⟩ := hcached m hruns
  have hbehind := h.behind
  -- behind the row that callers count nothing passes
  have hpasses : ∀ i, passes filter entries (q + i) = passes filter entries (p + i) := by
    intro i
    by_cases hsome : SomePass filter entries
    · rw [h.somePass hsome]
    · rw [passes_of_not_somePass hsome, passes_of_not_somePass hsome]
  unfold rleFilter
  simp only [happly, bind, Except.bind]
  by_cases hzero : f₁.matchingRunCount = 0
  · have hnone : ¬ SomePass filter entries := fun hsome => hcount hsome hzero
    have hempty : selected sel 0 = [] := by cases sel <;> rfl
    rw [if_pos hzero]
    refine ⟨result, sel, 0, f₁, rfl, ?_, ?_, q, hat, by omega, fun hsome => absurd hsome hnone,
      hcached⟩
    · rw [hempty]
      exact (List.filter_eq_nil_iff.mpr fun i _ => by
        rw [passes_of_not_somePass hnone]; exact Bool.false_ne_true).symm
    · rw [hempty]
      exact nofun
  · rw [if_neg hzero]
    obtain ⟨matchingSel, result', scan, hvector, hmatching, hfills, hat'⟩ :=
      filterVector_ok hm result hat (by omega : q + n ≤ rowCount entries) hsel
    simp only [hpasses] at hmatching
    have hvalues : ∀ i ∈ matchingSel, (expand entries)[p + i]? = some (result' i) := by
      intro i hi
      by_cases hsome : SomePass filter entries
      · rw [← h.somePass hsome]
        exact hfills.1 i hi
      · rw [hmatching, List.mem_filter, passes_of_not_somePass hsome] at hi
        cases hi.2
    have hat₂ : FilterAt filter entries ⟨scan, f₁.matchingRuns, f₁.matchingRunCount⟩ (q + n)
        (p + n) :=
      ⟨hat', by omega, fun hsome => by rw [h.somePass hsome], hcached⟩
    simp only [hvector]
    by_cases hlen : matchingSel.length ≠ selCount
    · rw [if_pos hlen]
      refine ⟨result', some matchingSel, matchingSel.length, _, rfl, ?_, ?_, q + n, hat₂⟩
      · rw [selected, List.take_length, hmatching]
      · rw [selected, List.take_length]
        exact hvalues
    · rw [if_neg hlen]
      have hselected : (selected sel selCount).filter
          (fun i => passes filter entries (p + i)) = selected sel selCount := by
        have hlength : (selected sel selCount).length = selCount := by
          cases sel with
          | none => exact List.length_range
          | some rows => rw [selected, ← hsel.1, List.take_length]
        refine List.filter_eq_self.mpr (List.length_filter_eq_length_iff.mp ?_)
        rw [← hmatching, hlength]
        exact not_not.mp hlen
      refine ⟨result', sel, selCount, _, rfl, hselected.symm, ?_, q + n, hat₂⟩
      rw [← hselected, ← hmatching]
      exact hvalues

end RleFilterState

/-! ## Filters between other calls -/

inductive RleFilterCall (α : Type)
  | filter (vectorCount : Nat) (result : Memory α) (sel : Option (List Nat)) (selCount : Nat)
  | other (call : RleCall α)

/-- A filtered vector with its selection, or the vector of another call. -/
inductive RleFilterResult (α : Type)
  | filtered (result : Memory α) (sel : Option (List Nat)) (selCount : Nat)
  | other (result : Option (RleVector α))

def RleCall.reads : RleCall α → Bool
  | .scan .. => true
  | .scanPartial .. => true
  | .select .. => true
  | .skip _ => false
  | .fetchRow _ => false

namespace RleFilterCall

def rows : RleFilterCall α → Nat
  | .filter n .. => n
  | other call => call.rows

def isFilter : RleFilterCall α → Bool
  | .filter .. => true
  | other _ => false

def reads : RleFilterCall α → Bool
  | .filter .. => false
  | other call => call.reads

def Admissible (rowCount p : Nat) : RleFilterCall α → Prop
  | .filter n _ sel selCount => p + n ≤ rowCount ∧ AdmissibleSelection n sel selCount
  | other call => call.Admissible rowCount p

def run (filter : α → Bool) (fetch : Nat → Except String α) :
    RleFilterCall α → RleFilterState α → Except String (RleFilterResult α × RleFilterState α)
  | .filter n result sel selCount, f =>
      (f.rleFilter filter n result sel selCount).map fun (result, sel, selCount, f) =>
        (.filtered result sel selCount, f)
  | other call, f =>
      (call.run fetch f.scan).map fun (v, s) =>
        (.other v, ⟨s, f.matchingRuns, f.matchingRunCount⟩)

/-- A call at a row has returned what a plain scan, filtered afterwards, gives. -/
def Returns (filter : α → Bool) (entries : List (α × Nat)) (p : Nat) :
    RleFilterCall α → RleFilterResult α → Prop
  | .filter _ _ sel selCount, .filtered result sel' selCount' =>
      selected sel' selCount' =
          (selected sel selCount).filter (fun i => passes filter entries (p + i)) ∧
        ∀ i ∈ selected sel' selCount', (expand entries)[p + i]? = some (result i)
  | other call, .other v => call.Returns ((expand entries).map some) p v
  | _, _ => False

end RleFilterCall

def runRleFilterCalls (filter : α → Bool) (fetch : Nat → Except String α) :
    List (RleFilterCall α) → RleFilterState α → Except String (List (RleFilterResult α))
  | [], _ => .ok []
  | call :: calls, f => do
      let (result, f) ← call.run filter fetch f
      let results ← runRleFilterCalls filter fetch calls f
      .ok (result :: results)

def AdmissibleFilterCalls (rowCount : Nat) : Nat → List (RleFilterCall α) → Prop
  | _, [] => True
  | p, call :: calls =>
      call.Admissible rowCount p ∧ AdmissibleFilterCalls rowCount (p + call.rows) calls

/-- All calls from a row on have returned what a plain scan, filtered afterwards, gives. -/
def ReturnsFiltered (filter : α → Bool) (entries : List (α × Nat)) :
    Nat → List (RleFilterCall α) → List (RleFilterResult α) → Prop
  | _, [], results => results = []
  | p, call :: calls, results => ∃ result rest, results = result :: rest ∧
      call.Returns filter entries p result ∧
      ReturnsFiltered filter entries (p + call.rows) calls rest

def ReadsFirst (calls : List (RleFilterCall α)) : Prop :=
  calls.Pairwise fun call later => call.isFilter = true → later.reads = false

/-- What is not read may be called from a row before. -/
theorem RleCall.admissible_behind {call : RleCall α} {q p n : Nat} (hq : q ≤ p)
    (hreads : call.reads = true → q = p) (h : call.Admissible n p) :
    call.Admissible n q ∧
      ∀ rows result, call.Returns rows q result → call.Returns rows p result := by
  cases call with
  | skip k => exact ⟨Nat.le_trans (Nat.add_le_add_right hq k) h, fun _ _ hreturns => hreturns⟩
  | fetchRow row => exact ⟨h, fun _ _ hreturns => hreturns⟩
  | _ =>
      obtain rfl := hreads rfl
      exact ⟨h, fun _ _ hreturns => hreturns⟩

theorem restores_map_some (values : List α) : RestoresRows values (values.map some) := by
  rw [RestoresRows, List.forall₂_map_right_iff]
  exact List.forall₂_same.mpr fun v _ v' hv => Option.some.inj hv

/-- A call returns what it has to if the scan is where it reads. -/
theorem RleFilterCall.run_ok {fetch : Nat → Except String α} {f : RleFilterState α} {q p : Nat}
    (call : RleFilterCall α)
    (hfetch : ∀ row < rowCount entries, ∃ value, fetch row = .ok value ∧
      (expand entries)[row]? = some value)
    (h : FilterAt filter entries f q p) (hreads : call.reads = true → q = p)
    (hadmissible : call.Admissible (rowCount entries) p) :
    ∃ result f', call.run filter fetch f = .ok (result, f') ∧
      call.Returns filter entries p result ∧
      ∃ q', FilterAt filter entries f' q' (p + call.rows) ∧
        (call.isFilter = false → q = p → q' = p + call.rows) := by
  cases call with
  | filter n result sel selCount =>
      obtain ⟨result', sel', selCount', f', hrun, hsel, hvalues, q', hat⟩ :=
        RleFilterState.rleFilter_ok result h hadmissible.1 hadmissible.2
      exact ⟨.filtered result' sel' selCount', f', by rw [run, hrun]; rfl, ⟨hsel, hvalues⟩, q',
        hat, nofun⟩
  | other call =>
      obtain ⟨hadmissible', hreturns'⟩ := call.admissible_behind h.behind hreads hadmissible
      obtain ⟨result, s', hrun, hreturns, hat⟩ :=
        call.run_ok (restores_map_some (expand entries)) hfetch h.scan hadmissible'
      refine ⟨.other result, ⟨s', f.matchingRuns, f.matchingRunCount⟩, by rw [run, hrun]; rfl,
        hreturns' _ _ hreturns, q + call.rows, ⟨hat, Nat.add_le_add_right h.behind _,
          fun hsome => by rw [h.somePass hsome]; rfl, h.cached⟩, fun _ hsame => by rw [hsame]; rfl⟩

theorem runRleFilterCalls_ok {fetch : Nat → Except String α}
    (hfetch : ∀ row < rowCount entries, ∃ value, fetch row = .ok value ∧
      (expand entries)[row]? = some value) :
    {calls : List (RleFilterCall α)} → {f : RleFilterState α} → {q p : Nat} →
      FilterAt filter entries f q p → AdmissibleFilterCalls (rowCount entries) p calls →
      SomePass filter entries ∨ ReadsFirst calls →
      q = p ∨ (∀ call ∈ calls, call.reads = false) →
      ∃ results, runRleFilterCalls filter fetch calls f = .ok results ∧
        ReturnsFiltered filter entries p calls results
  | [], _, _, _, _, _, _, _ => ⟨[], rfl, rfl⟩
  | call :: calls, f, q, p, h, hadmissible, hcond, hplace => by
      have hreads : call.reads = true → q = p := by
        intro hread
        rcases hplace with hsame | hquiet
        · exact hsame
        · rw [hquiet call List.mem_cons_self] at hread
          cases hread
      obtain ⟨result, f', hrun, hreturns, q', hat, hsame⟩ :=
        call.run_ok hfetch h hreads hadmissible.1
      have hcond' : SomePass filter entries ∨ ReadsFirst calls :=
        hcond.imp_right fun hfirst => hfirst.of_cons
      have hplace' : q' = p + call.rows ∨ ∀ later ∈ calls, later.reads = false := by
        rcases hcond with hsome | hfirst
        · exact Or.inl (hat.somePass hsome)
        rcases hplace with hq | hquiet
        · cases hfilter : call.isFilter with
          | false => exact Or.inl (hsame hfilter hq)
          | true =>
              exact Or.inr fun later hlater => List.rel_of_pairwise_cons hfirst hlater hfilter
        · exact Or.inr fun later hlater => hquiet later (List.mem_cons_of_mem _ hlater)
      obtain ⟨results, hruns, hrest⟩ :=
        runRleFilterCalls_ok hfetch hat hadmissible.2 hcond' hplace'
      refine ⟨result :: results, ?_, ⟨result, results, rfl, hreturns, hrest⟩⟩
      simp only [runRleFilterCalls, hrun, bind, Except.bind, hruns]

def RleFilterState.new (t : RleType α) (address : Nat) (data : Memory UInt8) (size count : Nat) :
    Except String (RleFilterState α) := do
  let s ← RleScanState.new t address data size count
  .ok ⟨s, none, 0⟩

/-- Filtered vectors and all other calls read as if the segment had been scanned plainly and
filtered afterwards, unless no row passes and rows are read after a filter. -/
theorem rle_filter_ok {t : RleType α} {blockSize : Nat} {segment : RleSegment}
    (h : RleSegmentHolds t blockSize segment entries) (hblock : blockSize < 2 ^ 64)
    {address size : Nat} {data : Memory UInt8} (haddress : 8 ∣ address)
    (hsize : segment.segmentSize ≤ size)
    (hdata : ∀ i < segment.segmentSize, data i = segment.data i) (filter : α → Bool)
    {calls : List (RleFilterCall α)}
    (hadmissible : AdmissibleFilterCalls (rowCount entries) 0 calls)
    (hcond : SomePass filter entries ∨ ReadsFirst calls) :
    ∃ f, RleFilterState.new t address data size segment.count = .ok f ∧
      ∃ results, runRleFilterCalls filter (rleFetchRow t address data size segment.count) calls f =
        .ok results ∧ ReturnsFiltered filter entries 0 calls results := by
  obtain ⟨s, hnew, hat, -⟩ := new_rle_ok (h.congr hdata) hblock haddress hsize
  refine ⟨⟨s, none, 0⟩, by simp only [RleFilterState.new, hnew, bind, Except.bind],
    runRleFilterCalls_ok (fun row hrow => ?_) ⟨hat, Nat.le_refl 0, fun _ => rfl, nofun⟩ hadmissible
      hcond (Or.inl rfl)⟩
  exact rleFetchRow_ok hnew hat hrow

/-- A segment with a row of 7 and a row of 9. -/
def rleSevenNine : RleSegment :=
  (rleCompress rleByte 16384 (fun _ _ => 170) 0 [[some 7, some 9]]).headD ⟨0, fun _ => 0, 0⟩

set_option maxRecDepth 4000 in
theorem rleSevenNine_holds : RleSegmentHolds rleByte 16384 rleSevenNine [(7, 1), (9, 1)] := by
  refine ⟨by decide +kernel, by decide +kernel, by decide +kernel, by decide +kernel,
    by decide +kernel, fun entry hentry => ?_, by decide +kernel⟩
  simp only [List.mem_cons, List.not_mem_nil, or_false] at hentry
  rcases hentry with rfl | rfl <;> decide

def filterThenScan : List (RleFilterCall UInt8) :=
  [.filter 1 (fun _ => 0) none 1, .other (.scanPartial 1 (fun _ => 0) 0)]

theorem rle_filter_ok_seven : ∃ f,
    RleFilterState.new rleByte 0 rleSevenNine.data 16384 rleSevenNine.count = .ok f ∧
    ∃ results, runRleFilterCalls (· == 7)
      (rleFetchRow rleByte 0 rleSevenNine.data 16384 rleSevenNine.count) filterThenScan f =
        .ok results ∧ ReturnsFiltered (· == 7) [(7, 1), (9, 1)] 0 filterThenScan results :=
  rle_filter_ok rleSevenNine_holds (by decide) (by decide) (by decide +kernel) (fun _ _ => rfl) _
    ⟨⟨by decide, rfl⟩, ⟨by decide, by decide⟩, trivial⟩ (Or.inl ⟨7, by decide, by decide⟩)

def RleFilterResult.first : RleFilterResult α → Option α
  | other (some v) => some (v.get 0)
  | _ => none

/-- No row is 5. The scan stays at the first row, which is then read as the second one. -/
theorem rle_filter_behind : ¬ ∃ f,
    RleFilterState.new rleByte 0 rleSevenNine.data 16384 rleSevenNine.count = .ok f ∧
    ∃ results, runRleFilterCalls (· == 5)
      (rleFetchRow rleByte 0 rleSevenNine.data 16384 rleSevenNine.count) filterThenScan f =
        .ok results ∧ ReturnsFiltered (· == 5) [(7, 1), (9, 1)] 0 filterThenScan results := by
  rintro ⟨f, hnew, results, hruns, hreturns⟩
  have hfirst : ((do
      let f ← RleFilterState.new rleByte 0 rleSevenNine.data 16384 rleSevenNine.count
      runRleFilterCalls (· == 5)
        (rleFetchRow rleByte 0 rleSevenNine.data 16384 rleSevenNine.count) filterThenScan f).map
      (List.map RleFilterResult.first)) = .ok [none, some 7] := by
    decide +kernel
  simp only [hnew, hruns, bind, Except.bind, Except.map, Except.ok.injEq] at hfirst
  obtain ⟨filtered, rest, rfl, -, read, rest, rfl, hread, rfl⟩ := hreturns
  cases read with
  | filtered result sel selCount => exact hread
  | other result =>
      obtain ⟨v, rfl, hvalue⟩ := hread
      have hnine : v.get 0 = 9 := hvalue 0 Nat.one_pos 9 rfl
      simp [RleFilterResult.first, hnine] at hfirst

end MiniDuck
