import MiniDuck.ByteMemory
import MiniDuck.MergePath
import MiniDuck.RunLength
import MiniDuck.SwarWord

/-!
# Compressing with run lengths

`RLEState` counts how often the last value repeats. NULLs go into the run
at hand, and a run that reaches the limit of the counter is written at
once, which leaves a run of no rows behind. `RLECompressState` writes the
runs into segments: values upwards from behind the header, counts
upwards from behind the room for all values. When a segment is flushed
its counts are moved next to its values.

`RleLayout` is the segment that is being filled, `RleSegmentHolds` what a
reader finds in a flushed one. `RleProgress` accounts for all rows so
far, and `rleCompress_ok` for those of a whole run of the compressor.
-/

namespace MiniDuck

open RunLength

universe u

/-- A type of fixed width whose values are stored as their bytes. -/
structure RleType (α : Type u) where
  size : Nat
  alignment : Nat
  store : α → List UInt8
  load : List UInt8 → α
  size_pos : 0 < size
  alignment_dvd : alignment ∣ 8
  length_store : ∀ v, (store v).length = size
  load_store : ∀ v, load (store v) = v

/-! ## Counting -/

/-- `dataptr` is left out: the writer is an argument. -/
structure RleState (α : Type u) where
  seenCount : Nat
  lastValue : α
  lastSeenCount : Nat
  allNull : Bool

namespace RleState

variable {α : Type u}

def initial (nullValue : α) : RleState α := ⟨0, nullValue, 0, true⟩

/-- `++` on a `rle_count_t`. -/
def increment (count : Nat) : Nat := (count + 1) % 2 ^ 16

section

variable {σ : Type} (op : α → Nat → Bool → σ → σ)

def flush (st : RleState α) (s : σ) : σ := op st.lastValue st.lastSeenCount st.allNull s

variable [DecidableEq α]

/-- `Update`, up to the check for a counter at its limit. -/
def count (st : RleState α) (s : σ) : Option α → RleState α × σ
  | some value =>
      if st.allNull then
        (⟨st.seenCount + 1, value, increment st.lastSeenCount, false⟩, s)
      else if st.lastValue = value then
        ({ st with lastSeenCount := increment st.lastSeenCount }, s)
      else if st.lastSeenCount > 0 then
        (⟨st.seenCount + 1, value, 1, st.allNull⟩, st.flush op s)
      else ({ st with lastValue := value, lastSeenCount := 1 }, s)
  | none => ({ st with lastSeenCount := increment st.lastSeenCount }, s)

def update (st : RleState α) (s : σ) (val : Option α) : RleState α × σ :=
  let counted := st.count op s val
  if counted.1.lastSeenCount = 2 ^ 16 - 1 then
    ({ counted.1 with lastSeenCount := 0, seenCount := counted.1.seenCount + 1 },
      counted.1.flush op counted.2)
  else counted

end

end RleState

/-! ## Writing -/

/-- A segment that has been flushed, with the buffer it was written in. -/
structure RleSegment where
  count : Nat
  data : Memory UInt8
  segmentSize : Nat

/-- The part of the `RLECompressState` that its writer changes. -/
structure RleBuffer where
  handle : Memory UInt8
  entryCount : Nat
  count : Nat
  segments : List RleSegment

abbrev rleHeaderSize : Nat := 8

/-- `sizeof(rle_count_t)` -/
abbrev rleCountSize : Nat := 2

def alignValueFloor (n : Nat) : Nat := n / 8 * 8

def maxRleCount {α : Type u} (t : RleType α) (blockSize : Nat) : Nat :=
  alignValueFloor ((blockSize - rleHeaderSize) / (t.size + rleCountSize))

namespace RleBuffer

variable {α : Type u} (t : RleType α) (blockSize : Nat) (fresh : Nat → Memory UInt8)

def createEmptySegment (b : RleBuffer) : RleBuffer :=
  { b with handle := fresh b.segments.length, count := 0 }

/-- `entry_count = 0` -/
def resetEntryCount (b : RleBuffer) : RleBuffer := { b with entryCount := 0 }

def initial : RleBuffer := createEmptySegment fresh ⟨fresh 0, 0, 0, []⟩

def flushSegment (b : RleBuffer) : RleBuffer :=
  let countsSize := rleCountSize * b.entryCount
  let originalRleOffset := rleHeaderSize + maxRleCount t blockSize * t.size
  let minimalRleOffset := rleHeaderSize + t.size * b.entryCount
  let alignedRleOffset := alignValue minimalRleOffset 8
  let totalSegmentSize := alignedRleOffset + countsSize
  let padded :=
    if alignedRleOffset > minimalRleOffset then
      b.handle.write minimalRleOffset (List.replicate (alignedRleOffset - minimalRleOffset) 0)
    else b.handle
  let compacted := padded.write alignedRleOffset (padded.read originalRleOffset countsSize)
  let stored := compacted.write 0 (storeBytes 8 alignedRleOffset)
  { b with segments := b.segments ++ [⟨b.count, stored, totalSegmentSize⟩] }

/-- `WriteValue`, without the statistics. -/
def writeValue (value : α) (count : Nat) (_isNull : Bool) (b : RleBuffer) : RleBuffer :=
  let written := b.handle.write (rleHeaderSize + t.size * b.entryCount) (t.store value)
  let counted := written.write
    (rleHeaderSize + maxRleCount t blockSize * t.size + rleCountSize * b.entryCount)
    (storeBytes rleCountSize count)
  let b : RleBuffer := ⟨counted, b.entryCount + 1, b.count + count, b.segments⟩
  if b.entryCount = maxRleCount t blockSize then
    ((b.flushSegment t blockSize).createEmptySegment fresh).resetEntryCount
  else b

end RleBuffer

structure RleCompressState (α : Type u) where
  state : RleState α
  buffer : RleBuffer

namespace RleCompressState

variable {α : Type u} [DecidableEq α] (t : RleType α) (blockSize : Nat)
  (fresh : Nat → Memory UInt8)

def initial (nullValue : α) : RleCompressState α := ⟨.initial nullValue, .initial fresh⟩

def update (c : RleCompressState α) (val : Option α) : RleCompressState α :=
  let updated := c.state.update (RleBuffer.writeValue t blockSize fresh) c.buffer val
  ⟨updated.1, updated.2⟩

def append (c : RleCompressState α) (input : List (Option α)) : RleCompressState α :=
  input.foldl (update t blockSize fresh) c

def finalize (c : RleCompressState α) : List RleSegment :=
  ((c.state.flush (RleBuffer.writeValue t blockSize fresh) c.buffer).flushSegment t
    blockSize).segments

end RleCompressState

def rleCompress {α : Type u} [DecidableEq α] (t : RleType α) (blockSize : Nat)
    (fresh : Nat → Memory UInt8) (nullValue : α) (vectors : List (List (Option α))) :
    List RleSegment :=
  (vectors.foldl (RleCompressState.append t blockSize fresh) (.initial fresh nullValue)).finalize t
    blockSize fresh

/-! ## Layout -/

section Layout

variable {α : Type u} {t : RleType α} {blockSize : Nat} {fresh : Nat → Memory UInt8}

def valueBytes (t : RleType α) (entries : List (α × Nat)) : List UInt8 :=
  entries.flatMap fun entry => t.store entry.1

def countBytes (entries : List (α × Nat)) : List UInt8 :=
  entries.flatMap fun entry => storeBytes rleCountSize entry.2

@[simp] theorem length_countBytes (entries : List (α × Nat)) :
    (countBytes entries).length = rleCountSize * entries.length := by
  simp [countBytes, List.length_flatMap, Nat.mul_comm]

theorem valueBytes_concat (entries : List (α × Nat)) (entry : α × Nat) :
    valueBytes t (entries ++ [entry]) = valueBytes t entries ++ t.store entry.1 := by
  simp [valueBytes]

theorem countBytes_concat (entries : List (α × Nat)) (entry : α × Nat) :
    countBytes (entries ++ [entry]) = countBytes entries ++ storeBytes rleCountSize entry.2 := by
  simp [countBytes]

def ShortRuns (entries : List (α × Nat)) : Prop := ∀ entry ∈ entries, entry.2 < 2 ^ 16

structure RleLayout (t : RleType α) (blockSize : Nat) (b : RleBuffer) (entries : List (α × Nat)) :
    Prop where
  entryCount : b.entryCount = entries.length
  room : entries.length ≤ maxRleCount t blockSize
  values : b.handle.read rleHeaderSize (t.size * entries.length) = valueBytes t entries
  counts : b.handle.read (rleHeaderSize + maxRleCount t blockSize * t.size)
    (rleCountSize * entries.length) = countBytes entries
  count : b.count = rowCount entries
  short : ShortRuns entries

def rleCountOffset (t : RleType α) (entries : List (α × Nat)) : Nat :=
  alignValue (rleHeaderSize + t.size * entries.length) 8

structure RleSegmentHolds (t : RleType α) (blockSize : Nat) (segment : RleSegment)
    (entries : List (α × Nat)) : Prop where
  count : segment.count = rowCount entries
  size : segment.segmentSize = rleCountOffset t entries + rleCountSize * entries.length
  header : segment.data.read 0 8 = storeBytes 8 (rleCountOffset t entries)
  values : segment.data.read rleHeaderSize (t.size * entries.length) = valueBytes t entries
  counts : segment.data.read (rleCountOffset t entries) (rleCountSize * entries.length) =
    countBytes entries
  short : ShortRuns entries
  fits : segment.segmentSize ≤ blockSize

variable {b : RleBuffer} {entries : List (α × Nat)}

theorem createEmptySegment_rleLayout (b : RleBuffer) :
    RleLayout t blockSize (b.createEmptySegment fresh).resetEntryCount [] :=
  ⟨rfl, Nat.zero_le _, rfl, rfl, rfl, nofun⟩

theorem maxRleCount_fits (h : 0 < maxRleCount t blockSize) :
    8 ∣ maxRleCount t blockSize * t.size ∧
      rleHeaderSize + maxRleCount t blockSize * t.size +
        rleCountSize * maxRleCount t blockSize ≤ blockSize := by
  have hmul : maxRleCount t blockSize * (t.size + rleCountSize) ≤ blockSize - rleHeaderSize := by
    refine le_trans (Nat.mul_le_mul_right _ (Nat.div_mul_le_self _ 8)) ?_
    exact Nat.div_mul_le_self _ _
  have hsum : maxRleCount t blockSize * (t.size + rleCountSize) =
      maxRleCount t blockSize * t.size + rleCountSize * maxRleCount t blockSize := by
    rw [Nat.mul_add, Nat.mul_comm rleCountSize]
  refine ⟨Dvd.dvd.mul_right (Nat.dvd_mul_left 8 _) _, ?_⟩
  simp only [rleHeaderSize, rleCountSize] at *
  omega

theorem rleCountOffset_le {entries : List (α × Nat)}
    (hroom : entries.length ≤ maxRleCount t blockSize) (h : 0 < maxRleCount t blockSize) :
    rleHeaderSize + t.size * entries.length ≤ rleCountOffset t entries ∧
      rleCountOffset t entries ≤ rleHeaderSize + maxRleCount t blockSize * t.size := by
  obtain ⟨⟨k, hk⟩, -⟩ := maxRleCount_fits h
  have hle : t.size * entries.length ≤ maxRleCount t blockSize * t.size := by
    rw [Nat.mul_comm]
    exact Nat.mul_le_mul_right _ hroom
  simp only [rleCountOffset, alignValue, rleHeaderSize] at *
  omega

theorem RleLayout.flushSegment_ok (h : RleLayout t blockSize b entries)
    (hmax : 0 < maxRleCount t blockSize) :
    ∃ segment, RleSegmentHolds t blockSize segment entries ∧
      b.flushSegment t blockSize = { b with segments := b.segments ++ [segment] } := by
  obtain ⟨hlow, hhigh⟩ := rleCountOffset_le h.room hmax
  obtain ⟨-, hfits⟩ := maxRleCount_fits hmax
  have hroom := h.room
  unfold RleBuffer.flushSegment
  extract_lets countsSize originalRleOffset minimalRleOffset alignedRleOffset totalSegmentSize
    padded compacted stored
  have hminimal : minimalRleOffset = rleHeaderSize + t.size * entries.length := by
    simp only [minimalRleOffset, h.entryCount]
  have haligned : alignedRleOffset = rleCountOffset t entries := by
    simp only [alignedRleOffset, hminimal, rleCountOffset]
  have hcounts : countsSize = rleCountSize * entries.length := by
    simp only [countsSize, h.entryCount]
  have hheader : rleHeaderSize = 8 := rfl
  have hpadded : ∀ pos n, pos + n ≤ minimalRleOffset ∨ alignedRleOffset ≤ pos →
      padded.read pos n = b.handle.read pos n := by
    intro pos n hpos
    simp only [padded]
    split
    · rcases hpos with hpos | hpos
      · exact Memory.read_write_of_le hpos
      · refine Memory.read_write_of_ge ?_
        rw [List.length_replicate]
        omega
    · rfl
  have hmoved : padded.read originalRleOffset countsSize = countBytes entries := by
    rw [hpadded _ _ (Or.inr (by simp only [originalRleOffset]; omega)), hcounts]
    exact h.counts
  have hstore : (storeBytes 8 alignedRleOffset).length = 8 := length_storeBytes ..
  refine ⟨⟨b.count, stored, totalSegmentSize⟩, ⟨h.count, ?_, ?_, ?_, ?_, h.short, ?_⟩, rfl⟩
  · simp only [totalSegmentSize, haligned, hcounts]
  · simp only [stored, haligned]
    exact Memory.read_write (length_storeBytes ..)
  · simp only [stored, compacted]
    rw [Memory.read_write_of_ge (by omega), Memory.read_write_of_le (by omega),
      hpadded _ _ (Or.inl (by omega))]
    exact h.values
  · simp only [stored, compacted]
    rw [Memory.read_write_of_ge (by omega), hmoved, haligned]
    exact Memory.read_write (length_countBytes ..)
  · simp only [totalSegmentSize, haligned, hcounts, rleCountSize] at *
    omega

theorem RleLayout.write (h : RleLayout t blockSize b entries)
    (hroom : entries.length < maxRleCount t blockSize) (value : α) {count : Nat}
    (hcount : count < 2 ^ 16) {written counted : Memory UInt8}
    (hwritten : written = b.handle.write (rleHeaderSize + t.size * b.entryCount) (t.store value))
    (hcounted : counted = written.write
      (rleHeaderSize + maxRleCount t blockSize * t.size + rleCountSize * b.entryCount)
      (storeBytes rleCountSize count)) :
    RleLayout t blockSize ⟨counted, b.entryCount + 1, b.count + count, b.segments⟩
      (entries ++ [(value, count)]) := by
  have hvalues : t.size * (entries.length + 1) ≤ maxRleCount t blockSize * t.size := by
    rw [Nat.mul_comm]
    exact Nat.mul_le_mul_right _ hroom
  have hmul : t.size * (entries.length + 1) = t.size * entries.length + t.size := Nat.mul_succ _ _
  have hstore := t.length_store value
  have hlen : (entries ++ [(value, count)]).length = entries.length + 1 := by simp
  rw [h.entryCount] at hwritten hcounted
  refine ⟨by rw [hlen, h.entryCount], by rw [hlen]; exact hroom, ?_, ?_, ?_, ?_⟩
  · rw [hlen, hmul, Memory.read_add, valueBytes_concat]
    simp only
    congr 1
    · rw [hcounted, Memory.read_write_of_le (by omega), hwritten,
        Memory.read_write_of_le (Nat.le_refl _)]
      exact h.values
    · rw [hcounted, Memory.read_write_of_le (by omega), hwritten]
      exact Memory.read_write hstore
  · rw [hlen, Nat.mul_succ, Memory.read_add, countBytes_concat]
    simp only
    congr 1
    · rw [hcounted, Memory.read_write_of_le (Nat.le_refl _), hwritten,
        Memory.read_write_of_ge (by rw [hstore]; omega)]
      exact h.counts
    · rw [hcounted]
      exact Memory.read_write (length_storeBytes ..)
  · rw [rowCount_append, rowCount_cons, rowCount_nil, Nat.add_zero, ← h.count]
    rfl
  · intro entry hentry
    rcases List.mem_append.mp hentry with hentry | hentry
    · exact h.short entry hentry
    · obtain rfl := List.mem_singleton.mp hentry
      exact hcount

/-- A run has been written: the current segment has it, or has been flushed with it. -/
theorem writeValue_ok (fresh : Nat → Memory UInt8) (h : RleLayout t blockSize b entries)
    (hroom : entries.length < maxRleCount t blockSize) (value : α) {count : Nat}
    (hcount : count < 2 ^ 16) (isNull : Bool) :
    ∃ b', RleBuffer.writeValue t blockSize fresh value count isNull b = b' ∧
      ((b'.segments = b.segments ∧ RleLayout t blockSize b' (entries ++ [(value, count)]) ∧
          (entries ++ [(value, count)]).length < maxRleCount t blockSize) ∨
        ∃ segment, RleSegmentHolds t blockSize segment (entries ++ [(value, count)]) ∧
          b'.segments = b.segments ++ [segment] ∧ RleLayout t blockSize b' []) := by
  refine ⟨_, rfl, ?_⟩
  unfold RleBuffer.writeValue
  extract_lets written counted b₁
  have hlayout : RleLayout t blockSize b₁ (entries ++ [(value, count)]) :=
    h.write hroom value hcount rfl rfl
  by_cases hfull : b₁.entryCount = maxRleCount t blockSize
  · rw [if_pos hfull]
    obtain ⟨segment, hholds, hflush⟩ := hlayout.flushSegment_ok (by omega)
    rw [hflush]
    exact Or.inr ⟨segment, hholds, rfl, createEmptySegment_rleLayout _⟩
  · rw [if_neg hfull]
    have hle := hlayout.room
    rw [← hlayout.entryCount] at hle ⊢
    exact Or.inl ⟨rfl, hlayout, by omega⟩

end Layout

/-! ## Accounting for the rows -/

section Run

variable {α : Type u} {t : RleType α} {blockSize : Nat} {fresh : Nat → Memory UInt8}
  {b : RleBuffer} {rows : List (Option α)}

def RleWritten (t : RleType α) (blockSize : Nat) (b : RleBuffer) (written : List (α × Nat)) :
    Prop :=
  ∃ done current, List.Forall₂ (RleSegmentHolds t blockSize) b.segments done ∧
    RleLayout t blockSize b current ∧ current.length < maxRleCount t blockSize ∧
    done.flatten ++ current = written

theorem initial_rleWritten (hmax : 0 < maxRleCount t blockSize) :
    RleWritten t blockSize (.initial fresh) [] :=
  ⟨[], [], .nil, createEmptySegment_rleLayout _, hmax, rfl⟩

variable {written : List (α × Nat)} {count : Nat}

theorem RleWritten.writeValue (h : RleWritten t blockSize b written) (value : α)
    (hcount : count < 2 ^ 16) (isNull : Bool) :
    RleWritten t blockSize (RleBuffer.writeValue t blockSize fresh value count isNull b)
      (written ++ [(value, count)]) := by
  obtain ⟨done, current, hsegs, hlayout, hroom, rfl⟩ := h
  obtain ⟨b', hb', hcases⟩ := writeValue_ok fresh hlayout hroom value hcount isNull
  rw [hb']
  rcases hcases with ⟨hsegments, hlayout', hroom'⟩ | ⟨segment, hholds, hsegments, hlayout'⟩
  · exact ⟨done, current ++ [(value, count)], hsegments ▸ hsegs, hlayout', hroom',
      (List.append_assoc ..).symm⟩
  · refine ⟨done ++ [current ++ [(value, count)]], [], ?_, hlayout', ?_, by simp⟩
    · rw [hsegments]
      exact List.rel_append hsegs (.cons hholds .nil)
    · exact Nat.lt_of_le_of_lt (Nat.zero_le _) hroom

/-- The rows of what is written and of the run at hand. -/
structure RleCounts (st : RleState α) (written : List (α × Nat)) (rows : List (Option α)) :
    Prop where
  restores : RestoresRows (expand written ++ List.replicate st.lastSeenCount st.lastValue) rows
  short : st.lastSeenCount < 2 ^ 16
  allNull : st.allNull = true → ∀ row ∈ rows, row = none

theorem restores_flush {value : α}
    (h : RestoresRows (expand written ++ List.replicate count value) rows) :
    RestoresRows (expand (written ++ [(value, count)])) rows := by
  rw [expand_append, expand_cons, expand_nil, List.append_nil]
  exact h

theorem restores_succ {value : α} {row : Option α}
    (h : RestoresRows (expand written ++ List.replicate count value) rows)
    (hrow : ∀ v, row = some v → value = v) :
    RestoresRows (expand written ++ List.replicate (count + 1) value) (rows ++ [row]) := by
  rw [List.replicate_succ', ← List.append_assoc]
  exact h.append (.cons hrow .nil)

theorem restores_null {value value' : α}
    (h : RestoresRows (expand written ++ List.replicate count value) rows)
    (hnull : ∀ row ∈ rows, row = none) :
    RestoresRows (expand written ++ List.replicate count value') rows := by
  obtain ⟨rows₁, rows₂, rfl, hwritten, hrun⟩ := h.split
  have hlen := hrun.length
  rw [List.length_replicate] at hlen
  rw [hlen]
  exact hwritten.append (restores_replicate fun row hrow =>
    hnull row (List.mem_append_right _ hrow))

variable [DecidableEq α] {c : RleCompressState α}

theorem increment_eq (h : count < 2 ^ 16 - 1) : RleState.increment count = count + 1 := by
  rw [RleState.increment]
  omega

/-- A row is counted: behind a run that is written, or in the run at hand. -/
theorem count_ok (fresh : Nat → Memory UInt8) {st : RleState α}
    (hcounts : RleCounts st written rows) (hlimit : st.lastSeenCount < 2 ^ 16 - 1)
    (hwritten : RleWritten t blockSize b written) (val : Option α) :
    ∃ written', RleWritten t blockSize
        (st.count (RleBuffer.writeValue t blockSize fresh) b val).2 written' ∧
      RleCounts (st.count (RleBuffer.writeValue t blockSize fresh) b val).1 written'
        (rows ++ [val]) := by
  have hshort : st.lastSeenCount + 1 < 2 ^ 16 := by omega
  cases val with
  | none =>
      refine ⟨written, hwritten, ?_, ?_, fun hnull row hrow => ?_⟩
      · simp only [RleState.count, increment_eq hlimit]
        exact restores_succ hcounts.restores nofun
      · simp only [RleState.count, increment_eq hlimit]
        exact hshort
      · rcases List.mem_append.mp hrow with hrow | hrow
        · exact hcounts.allNull hnull row hrow
        · exact List.mem_singleton.mp hrow
  | some value =>
      unfold RleState.count
      by_cases hnull : st.allNull = true
      · simp only [if_pos hnull, increment_eq hlimit]
        refine ⟨written, hwritten, ?_, hshort, nofun⟩
        exact restores_succ (restores_null hcounts.restores (hcounts.allNull hnull))
          fun v hv => Option.some.inj hv
      simp only [if_neg hnull]
      by_cases hsame : st.lastValue = value
      · simp only [if_pos hsame, increment_eq hlimit]
        refine ⟨written, hwritten, ?_, hshort, fun h => absurd h hnull⟩
        exact restores_succ hcounts.restores fun v hv => hsame.trans (Option.some.inj hv)
      simp only [if_neg hsame]
      have hone : ∀ {written' : List (α × Nat)}, RestoresRows (expand written') rows →
          RestoresRows (expand written' ++ List.replicate 1 value) (rows ++ [some value]) := by
        intro written' h
        have h' : RestoresRows (expand written' ++ List.replicate 0 value) rows := by
          rwa [List.replicate_zero, List.append_nil]
        exact restores_succ h' fun v hv => Option.some.inj hv
      by_cases hpos : st.lastSeenCount > 0
      · simp only [if_pos hpos]
        exact ⟨_, hwritten.writeValue st.lastValue hcounts.short st.allNull,
          hone (restores_flush hcounts.restores), Nat.one_lt_two_pow (by decide),
          fun h => absurd h hnull⟩
      · simp only [if_neg hpos]
        have hrestores := hcounts.restores
        rw [Nat.eq_zero_of_not_pos hpos, List.replicate_zero, List.append_nil] at hrestores
        exact ⟨written, hwritten, hone hrestores, Nat.one_lt_two_pow (by decide),
          fun h => absurd h hnull⟩

/-- The rows of a compressor: in segments, in the current one or in the run at hand. -/
def RleProgress (t : RleType α) (blockSize : Nat) (c : RleCompressState α)
    (rows : List (Option α)) : Prop :=
  ∃ written, RleWritten t blockSize c.buffer written ∧ RleCounts c.state written rows ∧
    c.state.lastSeenCount < 2 ^ 16 - 1

theorem RleProgress.update (h : RleProgress t blockSize c rows) (fresh : Nat → Memory UInt8)
    (val : Option α) :
    RleProgress t blockSize (c.update t blockSize fresh val) (rows ++ [val]) := by
  obtain ⟨written, hwritten, hcounts, hlimit⟩ := h
  obtain ⟨written', hwritten', hcounts'⟩ := count_ok fresh hcounts hlimit hwritten val
  obtain ⟨counted, hcounted⟩ : ∃ counted, counted =
    c.state.count (RleBuffer.writeValue t blockSize fresh) c.buffer val := ⟨_, rfl⟩
  rw [← hcounted] at hwritten' hcounts'
  rw [RleCompressState.update, RleState.update, ← hcounted]
  by_cases hfull : counted.1.lastSeenCount = 2 ^ 16 - 1
  · simp only [if_pos hfull]
    refine ⟨_, hwritten'.writeValue counted.1.lastValue hcounts'.short counted.1.allNull,
      ⟨?_, Nat.two_pow_pos 16, hcounts'.allNull⟩, Nat.zero_lt_succ _⟩
    simp only [List.replicate_zero, List.append_nil]
    exact restores_flush hcounts'.restores
  · simp only [if_neg hfull]
    have hshort := hcounts'.short
    exact ⟨written', hwritten', hcounts', (by omega : counted.1.lastSeenCount < 2 ^ 16 - 1)⟩

theorem RleProgress.append (h : RleProgress t blockSize c rows) (fresh : Nat → Memory UInt8)
    (input : List (Option α)) :
    RleProgress t blockSize (c.append t blockSize fresh input) (rows ++ input) := by
  induction input generalizing c rows with
  | nil => rwa [List.append_nil]
  | cons val input ih =>
      have hnext := ih (h.update fresh val)
      rwa [List.append_assoc] at hnext

theorem foldl_append_vectors (vectors : List (List (Option α))) :
    vectors.foldl (RleCompressState.append t blockSize fresh) c =
      c.append t blockSize fresh vectors.flatten := by
  induction vectors generalizing c with
  | nil => rfl
  | cons input vectors ih =>
      rw [List.foldl_cons, ih, List.flatten_cons]
      exact List.foldl_append.symm

theorem rleCompress_ok (hmax : 0 < maxRleCount t blockSize) (nullValue : α)
    (vectors : List (List (Option α))) :
    ∃ parts, List.Forall₂ (RleSegmentHolds t blockSize)
        (rleCompress t blockSize fresh nullValue vectors) parts ∧
      RestoresRows (expand parts.flatten) vectors.flatten := by
  have hinitial : RleProgress t blockSize (.initial fresh nullValue) [] :=
    ⟨[], initial_rleWritten hmax, ⟨.nil, Nat.two_pow_pos 16, fun _ => nofun⟩, Nat.zero_lt_succ _⟩
  obtain ⟨written, hwritten, hcounts, -⟩ := hinitial.append fresh vectors.flatten
  rw [rleCompress, foldl_append_vectors]
  obtain ⟨c, hc⟩ : ∃ c, c = RleCompressState.append t blockSize fresh (.initial fresh nullValue)
    vectors.flatten := ⟨_, rfl⟩
  rw [← hc] at hwritten hcounts ⊢
  obtain ⟨done, current, hsegs, hlayout, hroom, hall⟩ :
      RleWritten t blockSize (c.state.flush (RleBuffer.writeValue t blockSize fresh) c.buffer) _ :=
    hwritten.writeValue c.state.lastValue hcounts.short c.state.allNull
  obtain ⟨segment, hholds, hflush⟩ := hlayout.flushSegment_ok hmax
  refine ⟨done ++ [current], ?_, ?_⟩
  · rw [RleCompressState.finalize, hflush]
    exact List.rel_append hsegs (.cons hholds .nil)
  · rw [List.flatten_concat, hall]
    exact restores_flush hcounts.restores

end Run

end MiniDuck
