import MiniDuck.ChunkInfo
import MiniDuck.CompressionSegmentReader
import MiniDuck.RleCompress

/-!
# Reading run lengths

A scan stands at a row of a run. The counts of runs are validated against
the row count of the segment as they are reached, and runs of no rows are
passed over.

`AtRow` says which row of the segment that is. Skipping, scanning and
selecting lead from one row to another (`skipInternal_ok`,
`scanPartialInternal_ok`, `select_ok`), whatever runs the rows are in.
-/

namespace MiniDuck

open RunLength

/-! ## Validated runs -/

def throwRleCountOffsetInvalid : String := "Corrupted RLE segment: rle_count_offset is corrupted"

def throwRunCountArrayExhausted : String :=
  "Corrupted RLE segment: run counts do not cover the segment row count"

def throwRunCountExceedsRemaining (runCount remainingCount : Nat) : String :=
  "Corrupted RLE segment: run count " ++ toString runCount ++
    " exceeds the remaining row count " ++ toString remainingCount

/-- The arrays are not checked where they are accessed. -/
structure RleSegmentLayout (α : Type) where
  values : Nat → α
  runCounts : Nat → Nat
  entryCapacity : Nat
  validatedEntryCount : Nat
  unvalidatedRowCount : Nat

namespace RleSegmentLayout

variable {α : Type}

/-- The loop of `ValidateThrough`, for so many entries. -/
def validateLoop : Nat → RleSegmentLayout α → Except String (RleSegmentLayout α)
  | 0, l => .ok l
  | n + 1, l =>
      if l.validatedEntryCount ≥ l.entryCapacity then .error throwRunCountArrayExhausted
      else
        let runCount := l.runCounts l.validatedEntryCount
        if runCount > l.unvalidatedRowCount then
          .error (throwRunCountExceedsRemaining runCount l.unvalidatedRowCount)
        else
          validateLoop n { l with
            unvalidatedRowCount := l.unvalidatedRowCount - runCount
            validatedEntryCount := l.validatedEntryCount + 1 }

def validateThrough (l : RleSegmentLayout α) (entryIndex : Nat) :
    Except String (RleSegmentLayout α) :=
  l.validateLoop (entryIndex + 1 - l.validatedEntryCount)

/-- The loop of `ValidateAllRuns`, with the rounds it may take. -/
def validateAllLoop : Nat → RleSegmentLayout α → Except String (RleSegmentLayout α)
  | 0, _ => .error throwRunCountArrayExhausted
  | rounds + 1, l =>
      if l.unvalidatedRowCount > 0 then do
        let l ← l.validateThrough l.validatedEntryCount
        validateAllLoop rounds l
      else .ok l

/-- `ValidateAllRuns`. Every round validates an entry, or there is none left. -/
def validateAllRuns (l : RleSegmentLayout α) : Except String (RleSegmentLayout α) :=
  l.validateAllLoop (l.entryCapacity + 1)

def validateAndGetRun (l : RleSegmentLayout α) (entryIndex : Nat) :
    Except String ((α × Nat) × RleSegmentLayout α) := do
  let l ← l.validateThrough entryIndex
  .ok ((l.values entryIndex, l.runCounts entryIndex), l)

end RleSegmentLayout

/-! ## The scan state -/

/-- The scan state, without what only filters use. -/
structure RleScanState (α : Type) where
  layout : RleSegmentLayout α
  entryPos : Nat
  positionInEntry : Nat

def canEmitConstantVector (entireVector : Bool) (position runLength scanCount : Nat) : Bool :=
  if !entireVector then false
  else if scanCount ≠ standardVectorSize then false
  else runLength - position ≥ scanCount

inductive RleVector (α : Type)
  | constant (value : α)
  | flat (data : Memory α)

def RleVector.get {α : Type} : RleVector α → Nat → α
  | constant value, _ => value
  | flat data, i => data i

namespace RleScanState

variable {α : Type}

section Model

def readSegmentLayout (t : RleType α) (reader : CompressionSegmentReader) (segmentCount : Nat) :
    Except String (RleSegmentLayout α) := do
  let (word, reader) ← reader.read 8
  let rleCountOffset := loadWord word
  if rleCountOffset < rleHeaderSize ∨ rleCountOffset > reader.size then
    .error throwRleCountOffsetInvalid
  else
    let valueCapacity := (rleCountOffset - rleHeaderSize) / t.size
    let countCapacity := (reader.size - rleCountOffset) / rleCountSize
    let values ← reader.getElements t.load rleHeaderSize t.size t.alignment valueCapacity
    let runCounts ← reader.getElements loadWord rleCountOffset rleCountSize rleCountSize
      countCapacity
    .ok ⟨values, runCounts, min valueCapacity countCapacity, 0, segmentCount⟩

/-- The scan of a segment with `count` rows whose bytes start at an address. -/
def new (t : RleType α) (address : Nat) (data : Memory UInt8) (size count : Nat) :
    Except String (RleScanState α) := do
  let layout ← readSegmentLayout t ⟨address, data, size, 0, "RLE segment"⟩ count
  .ok ⟨layout, 0, 0⟩

variable (s : RleScanState α)

def forwardToNextRun : Except String (RleScanState α) :=
  if s.entryPos + 1 > s.layout.entryCapacity then .error throwRunCountArrayExhausted
  else .ok { s with entryPos := s.entryPos + 1, positionInEntry := 0 }

def exhaustedRun (runLength : Nat) : Bool := s.positionInEntry ≥ runLength

/-- The loop of `ValidateAndGetCurrentRun`, with the rounds it may take. -/
def currentRunLoop : Nat → RleScanState α → Except String ((α × Nat) × RleScanState α)
  | 0, _ => .error throwRunCountArrayExhausted
  | rounds + 1, s => do
      let (run, layout) ← s.layout.validateAndGetRun s.entryPos
      let s : RleScanState α := ⟨layout, s.entryPos, s.positionInEntry⟩
      if run.2 = 0 then
        let s ← s.forwardToNextRun
        currentRunLoop rounds s
      else .ok (run, s)

/-- `ValidateAndGetCurrentRun`. Every round passes an entry. -/
def validateAndGetCurrentRun : Except String ((α × Nat) × RleScanState α) :=
  currentRunLoop (s.layout.entryCapacity + 1) s

def advance (runLength n : Nat) : Except String (RleScanState α) :=
  let s : RleScanState α := ⟨s.layout, s.entryPos, s.positionInEntry + n⟩
  if s.exhaustedRun runLength then s.forwardToNextRun else .ok s

/-- The loop of `SkipInternal`, with the rounds it may take. -/
def skipLoop : Nat → Nat → RleScanState α → Except String (RleScanState α)
  | _, 0, s => .ok s
  | 0, _ + 1, _ => .error "the loop has not ended"
  | rounds + 1, n + 1, s => do
      let (run, s) ← s.validateAndGetCurrentRun
      let skipAmount := min (n + 1) (run.2 - s.positionInEntry)
      let s ← s.advance run.2 skipAmount
      skipLoop rounds (n + 1 - skipAmount) s

/-- `SkipInternal`. Every round skips a row. -/
def skipInternal (skipCount : Nat) : Except String (RleScanState α) :=
  skipLoop skipCount skipCount s

/-- The loop of `RLEScanPartialInternal`, with the rounds it may take. -/
def scanLoop : Nat → Nat → Nat → Memory α → RleScanState α →
    Except String (Memory α × RleScanState α)
  | _, _, 0, result, s => .ok (result, s)
  | 0, _, _ + 1, _, _ => .error "the loop has not ended"
  | rounds + 1, resultOffset, n + 1, result, s => do
      let (run, s) ← s.validateAndGetCurrentRun
      let runCount := run.2 - s.positionInEntry
      if runCount > n + 1 then
        .ok (result.write resultOffset (List.replicate (n + 1) run.1),
          ⟨s.layout, s.entryPos, s.positionInEntry + (n + 1)⟩)
      else
        let s ← s.forwardToNextRun
        scanLoop rounds (resultOffset + runCount) (n + 1 - runCount)
          (result.write resultOffset (List.replicate runCount run.1)) s

/-- `RLEScanPartialInternal`. A constant vector is the result as a whole. -/
def scanPartialInternal (entireVector : Bool) (scanCount : Nat) (result : Memory α)
    (resultOffset : Nat) : Except String (RleVector α × RleScanState α) := do
  let (run, s) ← s.validateAndGetCurrentRun
  if s.positionInEntry < run.2 ∧
      canEmitConstantVector entireVector s.positionInEntry run.2 scanCount then
    let s ← s.advance run.2 scanCount
    .ok (.constant run.1, s)
  else
    let (result, s) ← scanLoop scanCount resultOffset scanCount result s
    .ok (.flat result, s)

def scanPartial (scanCount : Nat) (result : Memory α) (resultOffset : Nat) :
    Except String (RleVector α × RleScanState α) :=
  s.scanPartialInternal false scanCount result resultOffset

def scan (scanCount : Nat) (result : Memory α) : Except String (RleVector α × RleScanState α) :=
  s.scanPartialInternal true scanCount result 0

end Model

end RleScanState

/-- Where a selection has got to: the run at hand, and where it ends in the vector. -/
structure RleSelection (α : Type) where
  scan : RleScanState α
  run : α × Nat
  runEnd : Nat

namespace RleSelection

variable {α : Type}

/-- The runs up to a row of the vector, with the rounds that may take. -/
def advanceTo : Nat → Nat → RleSelection α → Except String (RleSelection α)
  | 0, _, _ => .error "the loop has not ended"
  | rounds + 1, nextIdx, c =>
      if nextIdx ≥ c.runEnd then do
        let s ← c.scan.forwardToNextRun
        let (run, s) ← s.validateAndGetCurrentRun
        advanceTo rounds nextIdx ⟨s, run, c.runEnd + run.2⟩
      else .ok c

/-- The loop of `RLESelect`, with the selected row before. -/
def selectLoop : List Nat → Nat → Nat → Memory α → RleSelection α →
    Except String (Memory α × Nat × RleSelection α)
  | [], prevIdx, _, result, c => .ok (result, prevIdx, c)
  | nextIdx :: sel, prevIdx, resultOffset, result, c =>
      if nextIdx < prevIdx then
        .error "Error in RLESelect - selection vector indices are not ordered"
      else do
        let c ← c.advanceTo (nextIdx + 1) nextIdx
        selectLoop sel nextIdx (resultOffset + 1) (result.write resultOffset [c.run.1]) c

end RleSelection

namespace RleScanState

variable {α : Type} (s : RleScanState α)

def select (vectorCount : Nat) (result : Memory α) (sel : List Nat) (resultOffset : Nat)
    (entireVector : Bool) : Except String (RleVector α × RleScanState α) := do
  let (run, s) ← s.validateAndGetCurrentRun
  if entireVector = true ∧ s.positionInEntry < run.2 ∧
      canEmitConstantVector true s.positionInEntry run.2 vectorCount then
    let s ← s.advance run.2 vectorCount
    .ok (.constant run.1, s)
  else
    let (result, prevIdx, c) ← RleSelection.selectLoop sel 0 resultOffset result
      ⟨s, run, run.2 - s.positionInEntry⟩
    let s : RleScanState α :=
      ⟨c.scan.layout, c.scan.entryPos, c.run.2 - (c.runEnd - prevIdx)⟩
    let s ← s.skipInternal (vectorCount - prevIdx)
    .ok (.flat result, s)

end RleScanState

def rleFetchRow {α : Type} (t : RleType α) (address : Nat) (data : Memory UInt8) (size count : Nat)
    (rowIndex : Nat) : Except String α := do
  let s ← RleScanState.new t address data size count
  let s ← s.skipInternal rowIndex
  let (run, _) ← s.validateAndGetCurrentRun
  .ok run.1

/-! ## Runs of a segment -/

section

variable {α : Type} {entries : List (α × Nat)} {l : RleSegmentLayout α} {s : RleScanState α}
  {run : α × Nat}

/-- The layout has the runs of a segment, and has validated some of them. -/
structure RleLoaded (entries : List (α × Nat)) (l : RleSegmentLayout α) : Prop where
  run : ∀ {i run}, entries[i]? = some run → (l.values i, l.runCounts i) = run
  capacity : entries.length ≤ l.entryCapacity
  validated : l.validatedEntryCount ≤ entries.length
  unvalidated : start entries l.validatedEntryCount + l.unvalidatedRowCount = rowCount entries

namespace RleLoaded

theorem next (h : RleLoaded entries l) (hlt : l.validatedEntryCount < entries.length) :
    l.runCounts l.validatedEntryCount ≤ l.unvalidatedRowCount ∧
      RleLoaded entries { l with
        unvalidatedRowCount := l.unvalidatedRowCount - l.runCounts l.validatedEntryCount
        validatedEntryCount := l.validatedEntryCount + 1 } := by
  obtain ⟨run, hrun⟩ : ∃ run, entries[l.validatedEntryCount]? = some run :=
    ⟨_, List.getElem?_eq_getElem hlt⟩
  have hcount : l.runCounts l.validatedEntryCount = run.2 := congrArg Prod.snd (h.run hrun)
  have hsucc := start_succ hrun
  have hle := start_le entries (l.validatedEntryCount + 1)
  have hunvalidated := h.unvalidated
  rw [hcount]
  exact ⟨by omega, h.run, h.capacity, hlt, by simp only; omega⟩

theorem validateLoop {n : Nat} (h : RleLoaded entries l)
    (hn : l.validatedEntryCount + n ≤ entries.length) :
    ∃ l', l.validateLoop n = .ok l' ∧ RleLoaded entries l' ∧
      l'.validatedEntryCount = l.validatedEntryCount + n := by
  induction n generalizing l with
  | zero => exact ⟨l, rfl, h, rfl⟩
  | succ n ih =>
      have hcapacity := h.capacity
      obtain ⟨hle, hnext⟩ := h.next (by omega)
      obtain ⟨l', hloop, hloaded, hcount⟩ := ih hnext (by simp only; omega)
      refine ⟨l', ?_, hloaded, by rw [hcount]; simp only; omega⟩
      rw [RleSegmentLayout.validateLoop, if_neg (by omega)]
      simp only
      rw [if_neg (by omega)]
      exact hloop

theorem validateThrough {i : Nat} (h : RleLoaded entries l) (hi : i < entries.length) :
    ∃ l', l.validateThrough i = .ok l' ∧ RleLoaded entries l' ∧
      l.validatedEntryCount ≤ l'.validatedEntryCount ∧ i < l'.validatedEntryCount := by
  have hvalidated := h.validated
  obtain ⟨l', hloop, hloaded, hcount⟩ :=
    h.validateLoop (by omega : l.validatedEntryCount + (i + 1 - l.validatedEntryCount) ≤ _)
  exact ⟨l', hloop, hloaded, by omega, by omega⟩

theorem validateAndGetRun {i : Nat} (h : RleLoaded entries l) (hrun : entries[i]? = some run) :
    ∃ l', l.validateAndGetRun i = .ok (run, l') ∧ RleLoaded entries l' := by
  obtain ⟨l', hthrough, hloaded, -, -⟩ :=
    h.validateThrough (List.getElem?_eq_some_iff.mp hrun).1
  refine ⟨l', ?_, hloaded⟩
  simp only [RleSegmentLayout.validateAndGetRun, hthrough, bind, Except.bind, hloaded.run hrun]

theorem validateAllLoop {rounds : Nat} (h : RleLoaded entries l)
    (hrounds : entries.length < rounds + l.validatedEntryCount) :
    ∃ l', l.validateAllLoop rounds = .ok l' ∧ RleLoaded entries l' ∧
      l'.unvalidatedRowCount = 0 := by
  induction rounds generalizing l with
  | zero =>
      have hvalidated := h.validated
      omega
  | succ rounds ih =>
      rw [RleSegmentLayout.validateAllLoop]
      by_cases hpos : l.unvalidatedRowCount > 0
      · have hunvalidated := h.unvalidated
        have hnext : l.validatedEntryCount < entries.length :=
          lt_length_of_lt (Nat.le_refl _) (by omega)
        obtain ⟨l₁, hthrough, hloaded, -, hlt⟩ := h.validateThrough hnext
        obtain ⟨l', hloop, hloaded', hzero⟩ := ih hloaded (by omega)
        refine ⟨l', ?_, hloaded', hzero⟩
        rw [if_pos hpos]
        simp only [hthrough, bind, Except.bind, hloop]
      · rw [if_neg hpos]
        exact ⟨l, rfl, h, by omega⟩

theorem validateAllRuns (h : RleLoaded entries l) :
    ∃ l', l.validateAllRuns = .ok l' ∧ RleLoaded entries l' ∧ l'.unvalidatedRowCount = 0 := by
  have hcapacity := h.capacity
  exact h.validateAllLoop (by omega)

end RleLoaded

/-! ## The place of a scan -/

/-- The scan stands before a row of the segment. -/
structure AtRow (entries : List (α × Nat)) (s : RleScanState α) (p : Nat) : Prop where
  loaded : RleLoaded entries s.layout
  entryPos : s.entryPos ≤ entries.length
  place : p = start entries s.entryPos + s.positionInEntry
  within : s.positionInEntry = 0 ∨
    ∃ run, entries[s.entryPos]? = some run ∧ s.positionInEntry < run.2

/-- The scan stands at a row of this run. -/
structure InRun (entries : List (α × Nat)) (run : α × Nat) (s : RleScanState α) (p : Nat) :
    Prop where
  loaded : RleLoaded entries s.layout
  entry : entries[s.entryPos]? = some run
  place : p = start entries s.entryPos + s.positionInEntry
  within : s.positionInEntry < run.2

variable {p : Nat}

theorem InRun.atRow (h : InRun entries run s p) : AtRow entries s p :=
  ⟨h.loaded, Nat.le_of_lt (List.getElem?_eq_some_iff.mp h.entry).1, h.place,
    Or.inr ⟨run, h.entry, h.within⟩⟩

theorem forward_ok (hloaded : RleLoaded entries s.layout) (hrun : entries[s.entryPos]? = some run)
    (hp : p = start entries s.entryPos + run.2) :
    ∃ s', s.forwardToNextRun = .ok s' ∧ AtRow entries s' p ∧ s'.entryPos = s.entryPos + 1 ∧
      s'.positionInEntry = 0 := by
  have hlt := (List.getElem?_eq_some_iff.mp hrun).1
  have hcapacity := hloaded.capacity
  refine ⟨_, if_neg (by omega), ⟨hloaded, hlt, ?_, Or.inl rfl⟩, rfl, rfl⟩
  simp only [start_succ hrun]
  exact hp

variable {rounds : Nat}

theorem currentRunLoop_ok (h : AtRow entries s p) (hp : p < rowCount entries)
    (hrounds : entries.length < rounds + s.entryPos) :
    ∃ run s', s.currentRunLoop rounds = .ok (run, s') ∧ InRun entries run s' p ∧
      s'.positionInEntry = s.positionInEntry := by
  induction rounds generalizing s with
  | zero =>
      have hpos := h.entryPos
      omega
  | succ rounds ih =>
      have hlt : s.entryPos < entries.length :=
        lt_length_of_lt (by rw [h.place]; exact Nat.le_add_right _ _) hp
      obtain ⟨run, hrun⟩ : ∃ run, entries[s.entryPos]? = some run :=
        ⟨_, List.getElem?_eq_getElem hlt⟩
      obtain ⟨l', hget, hloaded⟩ := h.loaded.validateAndGetRun hrun
      rw [RleScanState.currentRunLoop]
      simp only [hget, bind, Except.bind]
      by_cases hempty : run.2 = 0
      · have hzero : s.positionInEntry = 0 := by
          rcases h.within with hzero | ⟨run', hrun', hwithin⟩
          · exact hzero
          · obtain rfl : run = run' := Option.some.inj (hrun.symm.trans hrun')
            omega
        have hplace := h.place
        obtain ⟨s₁, hforward, hat, hentry, hstart⟩ :
            ∃ s', (⟨l', s.entryPos, s.positionInEntry⟩ : RleScanState α).forwardToNextRun = .ok s' ∧
              AtRow entries s' p ∧ s'.entryPos = s.entryPos + 1 ∧ s'.positionInEntry = 0 :=
          forward_ok hloaded hrun (by simp only; omega)
        obtain ⟨run', s', hloop, hin, hsame⟩ := ih hat (by omega)
        refine ⟨run', s', ?_, hin, by rw [hsame, hstart, hzero]⟩
        rw [if_pos hempty]
        simp only [hforward, hloop]
      · rw [if_neg hempty]
        refine ⟨run, _, rfl, ⟨hloaded, hrun, h.place, ?_⟩, rfl⟩
        rcases h.within with hzero | ⟨run', hrun', hwithin⟩
        · simp only [hzero]
          omega
        · obtain rfl : run = run' := Option.some.inj (hrun.symm.trans hrun')
          exact hwithin

/-- Before the end of the segment there is a current run, with the row that the scan stands at. -/
theorem currentRun_ok (h : AtRow entries s p) (hp : p < rowCount entries) :
    ∃ run s', s.validateAndGetCurrentRun = .ok (run, s') ∧ InRun entries run s' p ∧
      s'.positionInEntry = s.positionInEntry := by
  have hcapacity := h.loaded.capacity
  exact currentRunLoop_ok h hp (by omega)

variable {n : Nat}

theorem advance_ok (h : InRun entries run s p) (hn : s.positionInEntry + n ≤ run.2) :
    ∃ s', s.advance run.2 n = .ok s' ∧ AtRow entries s' (p + n) := by
  have hplace := h.place
  rw [RleScanState.advance]
  by_cases hend : s.positionInEntry + n ≥ run.2
  · obtain ⟨s', hforward, hat, -⟩ :
        ∃ s', (⟨s.layout, s.entryPos, s.positionInEntry + n⟩ : RleScanState α).forwardToNextRun =
          .ok s' ∧ AtRow entries s' (p + n) ∧ _ :=
      forward_ok h.loaded h.entry (by simp only; omega)
    refine ⟨s', ?_, hat⟩
    simp only [RleScanState.exhaustedRun, decide_eq_true hend, if_true]
    exact hforward
  · refine ⟨⟨s.layout, s.entryPos, s.positionInEntry + n⟩, ?_, h.loaded,
      Nat.le_of_lt (List.getElem?_eq_some_iff.mp h.entry).1, by simp only; omega,
      Or.inr ⟨run, h.entry, Nat.not_le.mp hend⟩⟩
    simp only [RleScanState.exhaustedRun, decide_eq_false hend, Bool.false_eq_true, if_false]

theorem rleSkipLoop_ok (h : AtRow entries s p) (hfit : p + n ≤ rowCount entries)
    (hrounds : n ≤ rounds) : ∃ s', s.skipLoop rounds n = .ok s' ∧ AtRow entries s' (p + n) := by
  induction rounds generalizing s n p with
  | zero =>
      obtain rfl : n = 0 := by omega
      exact ⟨s, rfl, h⟩
  | succ rounds ih =>
      cases n with
      | zero => exact ⟨s, rfl, h⟩
      | succ n =>
          obtain ⟨run, s₁, hcurrent, hin, -⟩ := currentRun_ok h (by omega)
          have hwithin := hin.within
          obtain ⟨skipAmount, hamount⟩ : ∃ skipAmount, skipAmount =
            min (n + 1) (run.2 - s₁.positionInEntry) := ⟨_, rfl⟩
          obtain ⟨s₂, hadvance, hat⟩ :=
            advance_ok hin (by omega : s₁.positionInEntry + skipAmount ≤ run.2)
          obtain ⟨s', hloop, hat'⟩ := ih hat (by omega : p + skipAmount + (n + 1 - skipAmount) ≤ _)
            (by omega)
          have hsum : p + skipAmount + (n + 1 - skipAmount) = p + (n + 1) := by omega
          refine ⟨s', ?_, hsum ▸ hat'⟩
          simp only [RleScanState.skipLoop, hcurrent, bind, Except.bind, ← hamount, hadvance, hloop]

theorem skipInternal_ok (h : AtRow entries s p) (hfit : p + n ≤ rowCount entries) :
    ∃ s', s.skipInternal n = .ok s' ∧ AtRow entries s' (p + n) :=
  rleSkipLoop_ok h hfit (Nat.le_refl n)

/-! ## Scanning -/

def rowsFrom (entries : List (α × Nat)) (p n : Nat) : List α := ((expand entries).drop p).take n

theorem rowsFrom_run (h : InRun entries run s p) (hn : s.positionInEntry + n ≤ run.2) :
    rowsFrom entries p n = List.replicate n run.1 := by
  rw [rowsFrom, h.place]
  exact expand_run h.entry hn

theorem rowsFrom_add (entries : List (α × Nat)) (p m n : Nat) :
    rowsFrom entries p (m + n) = rowsFrom entries p m ++ rowsFrom entries (p + m) n := by
  rw [rowsFrom, List.take_add, List.drop_drop]
  rfl

theorem rleScanLoop_ok {resultOffset : Nat} {result : Memory α} (h : AtRow entries s p)
    (hfit : p + n ≤ rowCount entries) (hrounds : n ≤ rounds) :
    ∃ s', s.scanLoop rounds resultOffset n result =
        .ok (result.write resultOffset (rowsFrom entries p n), s') ∧ AtRow entries s' (p + n) := by
  induction rounds generalizing s n p resultOffset result with
  | zero =>
      obtain rfl : n = 0 := by omega
      exact ⟨s, by simp [RleScanState.scanLoop, rowsFrom], h⟩
  | succ rounds ih =>
      cases n with
      | zero => exact ⟨s, by simp [RleScanState.scanLoop, rowsFrom], h⟩
      | succ n =>
          obtain ⟨run, s₁, hcurrent, hin, -⟩ := currentRun_ok h (by omega)
          have hwithin := hin.within
          obtain ⟨runCount, hrunCount⟩ : ∃ runCount, runCount = run.2 - s₁.positionInEntry :=
            ⟨_, rfl⟩
          simp only [RleScanState.scanLoop, hcurrent, bind, Except.bind, ← hrunCount]
          by_cases hmore : runCount > n + 1
          · rw [if_pos hmore, rowsFrom_run hin (by omega)]
            exact ⟨_, rfl, hin.loaded, hin.atRow.entryPos,
              by simp only [hin.place]; omega,
              Or.inr ⟨run, hin.entry, by simp only; omega⟩⟩
          · rw [if_neg hmore]
            have hplace := hin.place
            obtain ⟨s₂, hforward, hat, -⟩ :=
              forward_ok hin.loaded hin.entry (by omega : p + runCount = _)
            have hsplit : n + 1 = runCount + (n + 1 - runCount) := by omega
            obtain ⟨s', hloop, hat'⟩ : ∃ s', s₂.scanLoop rounds (resultOffset + runCount)
                (n + 1 - runCount) (result.write resultOffset (List.replicate runCount run.1)) =
                  .ok (_, s') ∧ AtRow entries s' (p + runCount + (n + 1 - runCount)) :=
              ih hat (by omega) (by omega)
            have hsum : p + runCount + (n + 1 - runCount) = p + (n + 1) := by omega
            refine ⟨s', ?_, hsum ▸ hat'⟩
            have hlen : (List.replicate runCount run.1).length = runCount := List.length_replicate
            have hwrite := Memory.write_append result resultOffset
              (List.replicate runCount run.1) (rowsFrom entries (p + runCount) (n + 1 - runCount))
            rw [hlen] at hwrite
            simp only [hforward]
            rw [hloop, hwrite, ← rowsFrom_run hin (by omega), ← rowsFrom_add, ← hsplit]

def RleVector.Has (v : RleVector α) (offset : Nat) (values : List α) : Prop :=
  ∀ i value, values[i]? = some value → v.get (offset + i) = value

theorem has_write (result : Memory α) (offset : Nat) (values : List α) :
    (RleVector.flat (result.write offset values)).Has offset values := by
  intro i value hvalue
  rw [RleVector.get, Memory.write, if_pos (Nat.le_add_right ..), Nat.add_sub_cancel_left,
    List.getD_eq_getElem?_getD, hvalue, Option.getD_some]

theorem has_constant {offset : Nat} {values : List α} {value : α}
    (h : ∀ v ∈ values, v = value) : (RleVector.constant value).Has offset values :=
  fun _ v hv => (h v (List.mem_of_getElem? hv)).symm

theorem canEmit_le {entireVector : Bool} {position runLength : Nat}
    (h : canEmitConstantVector entireVector position runLength n = true) :
    n ≤ runLength - position := by
  unfold canEmitConstantVector at h
  split at h
  · cases h
  · split at h
    · cases h
    · simpa using h

/-- A scan of some rows gives them, as a constant or one after the other. -/
theorem scanPartialInternal_ok (entireVector : Bool) (result : Memory α) (resultOffset : Nat)
    (h : AtRow entries s p) (hp : p < rowCount entries) (hfit : p + n ≤ rowCount entries) :
    ∃ v s', s.scanPartialInternal entireVector n result resultOffset = .ok (v, s') ∧
      v.Has resultOffset (rowsFrom entries p n) ∧ AtRow entries s' (p + n) := by
  obtain ⟨run, s₁, hcurrent, hin, -⟩ := currentRun_ok h hp
  have hwithin := hin.within
  simp only [RleScanState.scanPartialInternal, hcurrent, bind, Except.bind]
  by_cases hconstant : s₁.positionInEntry < run.2 ∧
      canEmitConstantVector entireVector s₁.positionInEntry run.2 n
  · have hle := canEmit_le hconstant.2
    obtain ⟨s', hadvance, hat⟩ := advance_ok hin (by omega : s₁.positionInEntry + n ≤ run.2)
    rw [if_pos hconstant]
    refine ⟨.constant run.1, s', by simp only [hadvance], has_constant fun v hv => ?_, hat⟩
    rw [rowsFrom_run hin (by omega)] at hv
    exact List.eq_of_mem_replicate hv
  · obtain ⟨s', hloop, hat⟩ : ∃ s', s₁.scanLoop n resultOffset n result =
        .ok (result.write resultOffset (rowsFrom entries p n), s') ∧ AtRow entries s' (p + n) :=
      rleScanLoop_ok hin.atRow hfit (Nat.le_refl n)
    rw [if_neg hconstant]
    exact ⟨.flat (result.write resultOffset (rowsFrom entries p n)), s', by simp only [hloop],
      has_write _ _ _, hat⟩

/-! ## Selecting -/

/-- A selection in the vector that starts at row `p`, with the row before the next one. -/
structure SelectAt (entries : List (α × Nat)) (p prevIdx : Nat) (c : RleSelection α) : Prop where
  loaded : RleLoaded entries c.scan.layout
  entry : entries[c.scan.entryPos]? = some c.run
  runEnd : p + c.runEnd = start entries c.scan.entryPos + c.run.2
  begun : start entries c.scan.entryPos ≤ p + prevIdx
  within : prevIdx < c.runEnd

variable {c : RleSelection α}

theorem advanceTo_ok {prevIdx nextIdx : Nat} (h : SelectAt entries p prevIdx c)
    (hnext : prevIdx ≤ nextIdx) (hfit : p + nextIdx < rowCount entries)
    (hrounds : nextIdx + 1 < rounds + c.runEnd) :
    0 < rounds → ∃ c', c.advanceTo rounds nextIdx = .ok c' ∧ SelectAt entries p nextIdx c' := by
  induction rounds generalizing c prevIdx with
  | zero => exact fun hzero => absurd hzero (Nat.lt_irrefl 0)
  | succ rounds ih =>
      intro _
      have hbegun := h.begun
      rw [RleSelection.advanceTo]
      by_cases hge : nextIdx ≥ c.runEnd
      · have hrunEnd := h.runEnd
        obtain ⟨s₁, hforward, hat, -, hstart⟩ :=
          forward_ok h.loaded h.entry (by omega : p + c.runEnd = _)
        obtain ⟨run, s₂, hcurrent, hin, hsame⟩ := currentRun_ok hat (by omega)
        have hplace := hin.place
        have hwithin := hin.within
        obtain ⟨c', hadvance, hselect⟩ := ih
          (⟨hin.loaded, hin.entry, by simp only; omega, by simp only; omega, by simp only; omega⟩ :
            SelectAt entries p c.runEnd ⟨s₂, run, c.runEnd + run.2⟩)
          hge (by simp only; omega) (by omega)
        refine ⟨c', ?_, hselect⟩
        rw [if_pos hge]
        simp only [hforward, hcurrent, bind, Except.bind, hadvance]
      · rw [if_neg hge]
        exact ⟨c, rfl, h.loaded, h.entry, h.runEnd, by omega, Nat.not_le.mp hge⟩

def selectedRows (entries : List (α × Nat)) (p : Nat) (sel : List Nat) : List α :=
  sel.filterMap fun i => (expand entries)[p + i]?

theorem selectLoop_ok {sel : List Nat} {prevIdx resultOffset : Nat} {result : Memory α}
    (h : SelectAt entries p prevIdx c) (hsorted : (prevIdx :: sel).Pairwise (· ≤ ·))
    (hlt : ∀ i ∈ sel, i < n) (hfit : p + n ≤ rowCount entries) :
    ∃ c' prevIdx', RleSelection.selectLoop sel prevIdx resultOffset result c =
        .ok (result.write resultOffset (selectedRows entries p sel), prevIdx', c') ∧
      SelectAt entries p prevIdx' c' ∧ (prevIdx' = prevIdx ∨ prevIdx' < n) := by
  induction sel generalizing c prevIdx resultOffset result with
  | nil =>
      refine ⟨c, prevIdx, ?_, h, Or.inl rfl⟩
      simp [RleSelection.selectLoop, selectedRows]
  | cons nextIdx sel ih =>
      have hle : prevIdx ≤ nextIdx := List.rel_of_pairwise_cons hsorted List.mem_cons_self
      have hnext : nextIdx < n := hlt nextIdx List.mem_cons_self
      have hinside := h.within
      obtain ⟨c₁, hadvance, hselect⟩ :=
        advanceTo_ok h hle (by omega) (by omega : nextIdx + 1 < nextIdx + 1 + c.runEnd)
          (Nat.succ_pos _)
      have hvalue : (expand entries)[p + nextIdx]? = some c₁.run.1 := by
        have hbegun := hselect.begun
        have hwithin := hselect.within
        have hrunEnd := hselect.runEnd
        obtain ⟨o, ho⟩ := Nat.exists_eq_add_of_le hbegun
        rw [ho]
        exact getElem?_expand_run hselect.entry (by omega)
      obtain ⟨c', prevIdx', hloop, hselect', hprev⟩ :
          ∃ c' prevIdx', RleSelection.selectLoop sel nextIdx (resultOffset + 1)
              (result.write resultOffset [c₁.run.1]) c₁ = .ok (_, prevIdx', c') ∧ _ :=
        ih hselect hsorted.tail fun i hi => hlt i (List.mem_cons_of_mem _ hi)
      refine ⟨c', prevIdx', ?_, hselect', Or.inr (by omega)⟩
      have hwrite := Memory.write_append result resultOffset [c₁.run.1]
        (selectedRows entries p sel)
      rw [List.length_singleton] at hwrite
      rw [RleSelection.selectLoop, if_neg (by omega)]
      simp only [hadvance, bind, Except.bind, hloop]
      rw [hwrite, selectedRows, selectedRows, List.filterMap_cons, hvalue]
      rfl

/-- A selection of rows gives them, and leads past the vector. -/
theorem select_ok (result : Memory α) {sel : List Nat} (resultOffset : Nat) (entireVector : Bool)
    (h : AtRow entries s p) (hn : 0 < n) (hfit : p + n ≤ rowCount entries)
    (hsorted : sel.Pairwise (· ≤ ·)) (hlt : ∀ i ∈ sel, i < n) :
    ∃ v s', s.select n result sel resultOffset entireVector = .ok (v, s') ∧
      v.Has resultOffset (selectedRows entries p sel) ∧ AtRow entries s' (p + n) := by
  obtain ⟨run, s₁, hcurrent, hin, -⟩ := currentRun_ok h (by omega)
  have hwithin := hin.within
  have hplace := hin.place
  simp only [RleScanState.select, hcurrent, bind, Except.bind]
  by_cases hconstant : entireVector = true ∧ s₁.positionInEntry < run.2 ∧
      canEmitConstantVector true s₁.positionInEntry run.2 n
  · have hle := canEmit_le hconstant.2.2
    obtain ⟨s', hadvance, hat⟩ := advance_ok hin (by omega : s₁.positionInEntry + n ≤ run.2)
    rw [if_pos hconstant]
    refine ⟨.constant run.1, s', by simp only [hadvance], has_constant fun v hv => ?_, hat⟩
    obtain ⟨i, hi, hv⟩ := List.mem_filterMap.mp hv
    have hi' := hlt i hi
    have hrow : p + i = start entries s₁.entryPos + (s₁.positionInEntry + i) := by omega
    rw [hrow, getElem?_expand_run hin.entry (by omega)] at hv
    exact (Option.some.inj hv).symm
  · rw [if_neg hconstant]
    obtain ⟨c, prevIdx, hloop, hselect, hprev⟩ :
        ∃ c' prevIdx', RleSelection.selectLoop sel 0 resultOffset result
          ⟨s₁, run, run.2 - s₁.positionInEntry⟩ = .ok (_, prevIdx', c') ∧ _ :=
      selectLoop_ok (n := n)
        ⟨hin.loaded, hin.entry, by simp only; omega, by simp only; omega, by simp only; omega⟩
        (List.pairwise_cons.mpr ⟨fun _ _ => Nat.zero_le _, hsorted⟩) hlt hfit
    have hbegun := hselect.begun
    have hwithin' := hselect.within
    have hrunEnd := hselect.runEnd
    have hat : AtRow entries ⟨c.scan.layout, c.scan.entryPos, c.run.2 - (c.runEnd - prevIdx)⟩
        (p + prevIdx) :=
      ⟨hselect.loaded, Nat.le_of_lt (List.getElem?_eq_some_iff.mp hselect.entry).1,
        by simp only; omega, Or.inr ⟨c.run, hselect.entry, by simp only; omega⟩⟩
    obtain ⟨s', hskip, hat'⟩ := skipInternal_ok hat
      (by omega : p + prevIdx + (n - prevIdx) ≤ rowCount entries)
    have hsum : p + prevIdx + (n - prevIdx) = p + n := by omega
    refine ⟨.flat (result.write resultOffset (selectedRows entries p sel)), s', ?_,
      has_write _ _ _, hsum ▸ hat'⟩
    simp only [hloop, hskip]

end

end MiniDuck
