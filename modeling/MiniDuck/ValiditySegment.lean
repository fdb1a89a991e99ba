import MiniDuck.Lts
import MiniDuck.ValidityScan

/-!
# Uncompressed validity segments

A validity segment is the bits of its rows, in a block that it may share
with other segments. Appending only clears bits, and reverting sets those
behind the new end, so the rows that are not there are always set
(`Stores`). Each read gives the bits that were appended last
(`validity_segments`), in the runs where no null is appended to a segment
that does not begin with its block: `ValidityAppend` counts the entries
from the beginning of the block (`validity_append_misplaced`).
-/

namespace MiniDuck

namespace ValiditySegments

open ValidityMask (entryCount bitsPerValue)

def standardVectorSize : Nat := 2048

def standardMaskSize : Nat := entryCount standardVectorSize * 8

/-- A segment with the block it is in. `dataSize` is recorded when the segment is written. -/
structure ColumnSegment where
  block : Memory Byte
  blockSize : Nat
  blockOffset : Nat
  segmentSize : Nat
  dataSize : Option Nat
  count : Nat
  hasNull : Bool
  hasNoNull : Bool

/-- `UnifiedVectorFormat`, with the entries of its mask if it has one. -/
structure UnifiedFormat where
  sel : Nat → Nat
  validity : Option (Nat → Entry)

def UnifiedFormat.isValid (data : UnifiedFormat) (row : Nat) : Bool :=
  match data.validity with
  | none => true
  | some validity =>
      rowIsValid (validity (data.sel row / bitsPerValue)) (data.sel row % bitsPerValue)

namespace ColumnSegment

variable (segment : ColumnSegment)

def maxTuples : Nat := segment.segmentSize / standardMaskSize * standardVectorSize

def initSegment : ColumnSegment :=
  { segment with
    block := segment.block.fill segment.blockOffset segment.segmentSize (BitVec.allOnes 8) }

/-- One round of the loop of `ValidityAppend`. The mask is that of the block. -/
def appendRow (data : UnifiedFormat) (offset : Nat) (segment : ColumnSegment) (i : Nat) :
    ColumnSegment :=
  if data.isValid (offset + i) then { segment with hasNoNull := true }
  else
    { segment with
      block := segment.block.clearBit 0 (segment.count + i)
      hasNull := true }

/-- `ValidityAppend`: the segment, and how many rows it has taken. -/
def append (data : UnifiedFormat) (offset vcount : Nat) : ColumnSegment × Nat :=
  let appendCount := min vcount (segment.maxTuples - segment.count)
  match data.validity with
  | none => ({ segment with count := segment.count + appendCount, hasNoNull := true }, appendCount)
  | some _ =>
      let written := (List.range appendCount).foldl (appendRow data offset) segment
      ({ written with count := written.count + appendCount }, appendCount)

def finalizeAppend : Nat :=
  (segment.count + standardVectorSize - 1) / standardVectorSize * standardMaskSize

def revertAppend (newCount : Nat) : ColumnSegment :=
  if newCount % 8 ≠ 0 then
    let bitEnd := (newCount / 8 + 1) * 8
    let block := (List.range' newCount (min bitEnd segment.count - newCount)).foldl
      (fun m i => m.setBit segment.blockOffset i) segment.block
    { segment with
      block := block.fill (segment.blockOffset + bitEnd / 8) (segment.segmentSize - bitEnd / 8)
        (BitVec.allOnes 8) }
  else
    { segment with
      block := segment.block.fill (segment.blockOffset + newCount / 8)
        (segment.segmentSize - newCount / 8) (BitVec.allOnes 8) }

end ColumnSegment

/-! ## Reading -/

/-- `CompressionSegmentReader`: some bytes of a block. Its checks throw, which is `none`. -/
structure SegmentReader where
  block : Memory Byte
  data : Nat
  size : Nat

def SegmentReader.fromSegment (segment : ColumnSegment) : Option SegmentReader :=
  if segment.blockOffset > segment.blockSize then none
  else
    match segment.dataSize with
    | none => some ⟨segment.block, segment.blockOffset, segment.blockSize - segment.blockOffset⟩
    | some dataSize =>
        if dataSize > segment.blockSize - segment.blockOffset then none
        else some ⟨segment.block, segment.blockOffset, dataSize⟩

/-- `Get` of an entry. -/
def SegmentReader.get (reader : SegmentReader) (offset : Nat) : Option Entry :=
  if offset > reader.size ∨ 8 > reader.size - offset then none
  else some (reader.block.loadWord (reader.data + offset) 0)

/-- `GetArraySlice` of entries, in a buffer that is aligned itself. -/
def SegmentReader.getArraySlice (reader : SegmentReader) (offset start count : Nat) :
    Option (List Entry) :=
  if offset > reader.size ∨ (reader.data + offset) % 8 ≠ 0 ∨ start > (reader.size - offset) / 8 ∨
      count > (reader.size - offset) / 8 - start then none
  else
    some ((List.range count).map fun i =>
      reader.block.loadWord (reader.data + offset) (start + i))

def validityScanData (reader : SegmentReader) (start scanCount : Nat) : Option (List Entry) :=
  let entryStart := start / bitsPerValue
  let entryEnd := (start + scanCount - 1) / bitsPerValue
  reader.getArraySlice 0 entryStart (entryEnd - entryStart + 1)

section

variable {capacity : Nat} (segment : ColumnSegment) (start : Nat) (resultMask : Mask capacity)

def validityScanPartial (scanCount resultOffset : Nat) : Option (Mask capacity) :=
  if scanCount = 0 then some resultMask
  else do
    let reader ← SegmentReader.fromSegment segment
    let input ← validityScanData reader start scanCount
    unalignedScan input (start % bitsPerValue) resultMask resultOffset scanCount

def validityScan (scanCount : Nat) : Option (Mask capacity) :=
  if scanCount = 0 then some resultMask
  else if start % bitsPerValue = 0 then do
    let reader ← SegmentReader.fromSegment segment
    let input ← validityScanData reader start scanCount
    alignedScan input 0 resultMask scanCount
  else validityScanPartial segment start resultMask scanCount 0

/-- The loop of `ValiditySelect`, with the rows that are left. -/
def selectRows (input : List Entry) (inputStart : Nat) (sel : Nat → Nat) (resultOffset : Nat) :
    List Nat → Mask capacity → Option (Mask capacity)
  | [], mask => some mask
  | i :: rest, mask => do
      let sourceIdx := inputStart + sel i
      let entry ← input[sourceIdx / bitsPerValue]?
      if rowIsValid entry (sourceIdx % bitsPerValue) then
        selectRows input inputStart sel resultOffset rest mask
      else selectRows input inputStart sel resultOffset rest (← mask.setInvalid (resultOffset + i))

def validitySelect (vectorCount : Nat) (sel : Nat → Nat) (selCount resultOffset : Nat) :
    Option (Mask capacity) :=
  if selCount = 0 then some resultMask
  else do
    let reader ← SegmentReader.fromSegment segment
    let input ← validityScanData reader start vectorCount
    selectRows input (start % bitsPerValue) sel resultOffset (List.range selCount) resultMask

def validityFetchRow (rowId resultIdx : Nat) : Option (Mask capacity) := do
  let reader ← SegmentReader.fromSegment segment
  let entry ← reader.get (rowId / bitsPerValue * 8)
  if rowIsValid entry (rowId % bitsPerValue) then some resultMask
  else resultMask.setInvalid resultIdx

end

/-! ## What a segment stores -/

/-- The bits of a segment are those of its rows; where there are no rows they are set. A recorded
size covers the rows. -/
structure Stores (segment : ColumnSegment) (rows : List Bool) : Prop where
  count : segment.count = rows.length
  le : segment.count ≤ segment.maxTuples
  bits : ∀ i < 8 * segment.segmentSize,
    segment.block.bit segment.blockOffset i = rows.getD i true
  aligned : segment.blockOffset % 8 = 0
  inside : segment.blockOffset + segment.segmentSize ≤ segment.blockSize
  recorded : ∀ size ∈ segment.dataSize, segment.finalizeAppend ≤ size ∧
    size ≤ segment.blockSize - segment.blockOffset

theorem standardMaskSize_eq : standardMaskSize = 256 := rfl

variable {segment : ColumnSegment} {rows : List Bool}

theorem maxTuples_eq : segment.maxTuples = segment.segmentSize / 256 * 2048 := rfl

/-- Rows behind the last one, the invalid ones with their bits cleared. -/
theorem Stores.extend {n : Nat} {valid : Nat → Bool} {block : Memory Byte}
    {hasNull hasNoNull : Bool} (h : Stores segment rows) (hsize : segment.dataSize = none)
    (hn : segment.count + n ≤ segment.maxTuples)
    (hblock : ∀ i, block.bit segment.blockOffset i = (segment.block.bit segment.blockOffset i &&
      if segment.count ≤ i ∧ i < segment.count + n then valid (i - segment.count) else true)) :
    Stores { segment with block, hasNull, hasNoNull, count := segment.count + n }
      (rows ++ (List.range n).map valid) := by
  have hcount := h.count
  refine ⟨?_, hn, fun i hi => ?_, h.aligned, h.inside, ?_⟩
  · rw [List.length_append, List.length_map, List.length_range, ← hcount]
  · show block.bit segment.blockOffset i = _
    rw [hblock i, h.bits i hi, List.getD_eq_getElem?_getD, List.getD_eq_getElem?_getD]
    by_cases hold : i < rows.length
    · rw [if_neg (by omega), Bool.and_true, List.getElem?_append_left hold]
    · have hle : rows.length ≤ i := Nat.le_of_not_lt hold
      rw [List.getElem?_eq_none hle, Option.getD_none, Bool.true_and,
        List.getElem?_append_right hle, List.getElem?_map, ← hcount]
      by_cases hnew : i < segment.count + n
      · rw [if_pos ⟨by omega, hnew⟩, List.getElem?_range (by omega)]
        rfl
      · rw [if_neg fun h => hnew h.2, List.getElem?_eq_none (by rw [List.length_range]; omega)]
        rfl
  · intro size hmem
    rw [show segment.dataSize = none from hsize] at hmem
    exact absurd hmem (Option.not_mem_none size)

/-- The loop of `ValidityAppend` clears the bits of the invalid rows, counted from the beginning of
the block. -/
theorem foldl_appendRow (data : UnifiedFormat) (offset : Nat) (l : List Nat) :
    ∀ segment : ColumnSegment, ∃ block hasNull hasNoNull,
      l.foldl (ColumnSegment.appendRow data offset) segment =
        { segment with block, hasNull, hasNoNull } ∧
      (∀ j, block.bit 0 j = (segment.block.bit 0 j &&
        decide (∀ i ∈ l, segment.count + i = j → data.isValid (offset + i) = true))) ∧
      ((∀ i ∈ l, data.isValid (offset + i) = true) → block = segment.block) := by
  induction l with
  | nil =>
      exact fun segment => ⟨segment.block, segment.hasNull, segment.hasNoNull, rfl,
        fun j => by simp, fun _ => rfl⟩
  | cons i l ih =>
      intro segment
      obtain ⟨block, hasNull, hasNoNull, hfold, hbits, hsame⟩ :=
        ih (ColumnSegment.appendRow data offset segment i)
      rw [List.foldl_cons, hfold]
      rw [ColumnSegment.appendRow] at hbits hsame ⊢
      by_cases hvalid : data.isValid (offset + i) = true
      · rw [if_pos hvalid] at hbits hsame ⊢
        refine ⟨block, hasNull, hasNoNull, rfl, fun j => ?_, fun hall =>
          hsame fun k hk => hall k (List.mem_cons_of_mem i hk)⟩
        rw [hbits j]
        refine congrArg (segment.block.bit 0 j && ·) (decide_eq_decide.mpr ?_)
        rw [List.forall_mem_cons]
        exact (and_iff_right fun _ => hvalid).symm
      · rw [if_neg hvalid] at hbits hsame ⊢
        refine ⟨block, hasNull, hasNoNull, rfl, fun j => ?_, fun hall =>
          absurd (hall i List.mem_cons_self) hvalid⟩
        rw [hbits j]
        show ((segment.block.clearBit 0 (segment.count + i)).bit 0 j && _) = _
        rw [Memory.bit_clearBit, Bool.and_assoc, ← Bool.decide_and]
        refine congrArg (segment.block.bit 0 j && ·) (decide_eq_decide.mpr ?_)
        rw [List.forall_mem_cons]
        refine and_congr_left fun _ => ⟨fun hne heq => absurd heq.symm hne, fun himp heq => ?_⟩
        exact hvalid (himp heq.symm)

/-- Nothing is written for a segment inside its block but what its rows are. -/
theorem Stores.append {data : UnifiedFormat} {offset vcount : Nat} (h : Stores segment rows)
    (hsize : segment.dataSize = none)
    (hplaced : segment.blockOffset = 0 ∨ ∀ i < min vcount (segment.maxTuples - segment.count),
      data.isValid (offset + i) = true) :
    (segment.append data offset vcount).2 = min vcount (segment.maxTuples - segment.count) ∧
    Stores (segment.append data offset vcount).1 (rows ++
      (List.range (min vcount (segment.maxTuples - segment.count))).map
        fun i => data.isValid (offset + i)) := by
  have hle := h.le
  have hn : segment.count + min vcount (segment.maxTuples - segment.count) ≤ segment.maxTuples := by
    omega
  -- rows that are all valid change no bit
  have hvalid : (∀ i < min vcount (segment.maxTuples - segment.count),
      data.isValid (offset + i) = true) →
      ∀ i, segment.block.bit segment.blockOffset i =
        (segment.block.bit segment.blockOffset i &&
          if segment.count ≤ i ∧
              i < segment.count + min vcount (segment.maxTuples - segment.count) then
            data.isValid (offset + (i - segment.count)) else true) := by
    intro hall i
    split
    · rw [hall _ (by omega), Bool.and_true]
    · rw [Bool.and_true]
  rw [ColumnSegment.append]
  split
  · rename_i hnone
    refine ⟨rfl, h.extend hsize hn
      (hvalid fun i _ => ?_)⟩
    rw [UnifiedFormat.isValid, hnone]
  · obtain ⟨block, hasNull, hasNoNull, hfold, hbits, hsame⟩ := foldl_appendRow data offset
      (List.range (min vcount (segment.maxTuples - segment.count))) segment
    refine ⟨rfl, ?_⟩
    dsimp only
    rw [hfold]
    refine h.extend hsize hn ?_
    obtain hzero | hall := hplaced
    · intro i
      rw [hzero, hbits i]
      refine congrArg (segment.block.bit 0 i && ·) ?_
      by_cases hnew : segment.count ≤ i ∧
          i < segment.count + min vcount (segment.maxTuples - segment.count)
      · rw [if_pos hnew, Bool.eq_iff_iff, decide_eq_true_eq]
        constructor
        · intro himp
          exact himp (i - segment.count) (List.mem_range.mpr (by omega)) (by omega)
        · rintro hrow k - rfl
          rwa [Nat.add_sub_cancel_left] at hrow
      · rw [if_neg hnew, decide_eq_true_eq]
        intro k hk hki
        have hlt := List.mem_range.mp hk
        exact absurd ⟨by omega, by omega⟩ hnew
    · rw [hsame fun i hi => hall i (List.mem_range.mp hi)]
      exact hvalid hall

/-- Reverting sets the bits behind the new end, also inside a byte, if those behind the old end are
set. -/
theorem revertAppend_spec (newCount : Nat)
    (hset : ∀ i < 8 * segment.segmentSize, segment.count ≤ i →
      segment.block.bit segment.blockOffset i = true) :
    ∃ block, segment.revertAppend newCount = { segment with block } ∧
      ∀ i < 8 * segment.segmentSize, block.bit segment.blockOffset i =
        if i < newCount then segment.block.bit segment.blockOffset i else true := by
  rw [ColumnSegment.revertAppend]
  split
  · rename_i hbits
    refine ⟨_, rfl, fun i hi => ?_⟩
    have hend : (newCount / 8 + 1) * 8 / 8 = newCount / 8 + 1 := Nat.mul_div_cancel _ (by decide)
    rw [hend, Memory.bit_fill, Memory.bit_foldl_setBit]
    by_cases hfill : newCount / 8 + 1 ≤ i / 8 ∧
        i / 8 < newCount / 8 + 1 + (segment.segmentSize - (newCount / 8 + 1))
    · rw [if_pos hfill, if_neg (by omega)]
    · rw [if_neg hfill]
      by_cases hold : i < newCount
      · have hnot : i ∉ List.range' newCount
            (min ((newCount / 8 + 1) * 8) segment.count - newCount) := by
          rw [List.mem_range'_1]
          omega
        rw [if_pos hold, decide_eq_false hnot, Bool.or_false]
      · rw [if_neg hold]
        by_cases hcount : i < segment.count
        · have hmem : i ∈ List.range' newCount
              (min ((newCount / 8 + 1) * 8) segment.count - newCount) := by
            rw [List.mem_range'_1]
            omega
          rw [decide_eq_true hmem, Bool.or_true]
        · rw [hset i hi (Nat.le_of_not_lt hcount), Bool.true_or]
  · rename_i hbits
    refine ⟨_, rfl, fun i hi => ?_⟩
    rw [Memory.bit_fill]
    by_cases hold : i < newCount
    · rw [if_neg (by omega), if_pos hold]
    · rw [if_pos (by omega), if_neg hold]

theorem Stores.revert {newCount : Nat} (h : Stores segment rows) (hsize : segment.dataSize = none)
    (hle : newCount ≤ segment.count) :
    Stores { segment.revertAppend newCount with count := newCount } (rows.take newCount) := by
  obtain ⟨block, hrevert, hbits⟩ := revertAppend_spec newCount fun i hi hcount => by
    rw [h.bits i hi, List.getD_eq_getElem?_getD, List.getElem?_eq_none (h.count ▸ hcount),
      Option.getD_none]
  rw [hrevert]
  refine ⟨?_, hle.trans h.le, fun i hi => ?_, h.aligned, h.inside, ?_⟩
  · rw [List.length_take, ← h.count, Nat.min_eq_left hle]
  · show block.bit segment.blockOffset i = _
    rw [hbits i hi, h.bits i hi, List.getD_eq_getElem?_getD, List.getD_eq_getElem?_getD,
      List.getElem?_take]
    split <;> rfl
  · intro size hmem
    rw [show segment.dataSize = none from hsize] at hmem
    exact absurd hmem (Option.not_mem_none size)

/-! ## What the reads give -/

/-- The entries a read looks at are in the bytes of the segment. -/
theorem Stores.fromSegment (h : Stores segment rows) :
    ∃ size, SegmentReader.fromSegment segment =
        some ⟨segment.block, segment.blockOffset, size⟩ ∧ segment.count ≤ 64 * (size / 8) := by
  have hmax := h.le
  have hinside := h.inside
  have hrecorded := h.recorded
  rw [maxTuples_eq] at hmax
  rw [SegmentReader.fromSegment, if_neg (by omega)]
  split
  · exact ⟨_, rfl, by omega⟩
  · rename_i size hsize
    obtain ⟨hrows, hblock⟩ := hrecorded size hsize
    rw [if_neg (by omega)]
    refine ⟨size, rfl, ?_⟩
    rw [ColumnSegment.finalizeAppend, standardMaskSize_eq, standardVectorSize] at hrows
    omega

theorem Stores.scanData (h : Stores segment rows) {start scanCount size : Nat}
    (hpos : scanCount ≠ 0) (hcount : start + scanCount ≤ segment.count)
    (hsize : segment.count ≤ 64 * (size / 8)) :
    ∃ input, validityScanData ⟨segment.block, segment.blockOffset, size⟩ start scanCount =
        some input ∧ start % 64 + scanCount ≤ 64 * input.length ∧
      ∀ k < scanCount, rows[start + k]? = some (inputBit input (start % 64 + k)) := by
  have haligned := h.aligned
  have hmax := h.le
  have hrows := h.count
  rw [maxTuples_eq] at hmax
  rw [validityScanData, SegmentReader.getArraySlice]
  dsimp only
  rw [if_neg (by rw [bitsPerValue]; omega)]
  refine ⟨_, rfl, ?_, fun k hk => ?_⟩
  · rw [List.length_map, List.length_range, bitsPerValue]
    omega
  · have hentry : (start % 64 + k) / 64 <
        (start + scanCount - 1) / bitsPerValue - start / bitsPerValue + 1 := by
      rw [bitsPerValue]
      omega
    have hposition : 64 * (start / bitsPerValue + (start % 64 + k) / 64) + (start % 64 + k) % 64 =
        start + k := by
      rw [bitsPerValue]
      omega
    have hbit : (start % 64 + k) % 64 < 64 := Nat.mod_lt _ (by decide)
    have hlookup : start % 64 + k = 64 * ((start % 64 + k) / 64) + (start % 64 + k) % 64 := by
      omega
    rw [hlookup, inputBit_eq hbit (by
        rw [List.getElem?_map, List.getElem?_range hentry, Option.map_some]), Nat.add_zero,
      Memory.getLsbD_loadWord hbit, hposition, h.bits _ (by omega), List.getD_eq_getElem?_getD,
      List.getElem?_eq_getElem (by omega), Option.getD_some]

variable {capacity : Nat}

theorem Stores.scanPartial (h : Stores segment rows) {start scanCount : Nat} (resultOffset : Nat)
    (hcount : start + scanCount ≤ segment.count) (hresult : resultOffset + scanCount ≤ capacity)
    (resultMask : Mask capacity) :
    ∃ mask, validityScanPartial segment start resultMask scanCount resultOffset = some mask ∧
      ∀ i < capacity, mask.rowIsValid i = (resultMask.rowIsValid i &&
        if resultOffset ≤ i ∧ i < resultOffset + scanCount then
          rows.getD (start + (i - resultOffset)) true else true) := by
  rw [validityScanPartial]
  by_cases hzero : scanCount = 0
  · rw [if_pos hzero]
    refine ⟨resultMask, rfl, fun i _ => ?_⟩
    rw [if_neg (by omega), Bool.and_true]
  · obtain ⟨size, hreader, hsize⟩ := h.fromSegment
    obtain ⟨input, hinput, hlength, hrows⟩ := h.scanData hzero hcount hsize
    obtain ⟨mask, hmask, hscan⟩ := unalignedScan_rows hlength hresult resultMask
    rw [if_neg hzero, hreader, Option.bind_eq_bind, Option.bind_some, hinput, Option.bind_eq_bind,
      Option.bind_some]
    refine ⟨mask, hmask, fun i hi => ?_⟩
    rw [hscan i hi]
    split
    · rename_i hrange
      have hrow := hrows (i - resultOffset) (by omega)
      rw [List.getD_eq_getElem?_getD, hrow, Option.getD_some]
    · rfl

theorem Stores.scan (h : Stores segment rows) {start scanCount : Nat}
    (hcount : start + scanCount ≤ segment.count) (hresult : scanCount ≤ capacity)
    (resultMask : Mask capacity) (hvalid : ∀ i < scanCount, resultMask.rowIsValid i = true) :
    ∃ mask, validityScan segment start resultMask scanCount = some mask ∧
      (∀ i < scanCount, rows[start + i]? = some (mask.rowIsValid i)) ∧
      ∀ i < capacity, 64 * entryCount scanCount ≤ i →
        mask.rowIsValid i = resultMask.rowIsValid i := by
  have hrows := h.count
  rw [validityScan]
  by_cases hzero : scanCount = 0
  · rw [if_pos hzero]
    exact ⟨resultMask, rfl, fun i hi => absurd hi (by omega), fun _ _ _ => rfl⟩
  rw [if_neg hzero]
  by_cases haligned : start % bitsPerValue = 0
  · obtain ⟨size, hreader, hsize⟩ := h.fromSegment
    obtain ⟨input, hinput, hlength, hdata⟩ := h.scanData hzero hcount hsize
    have hstart : start % 64 = 0 := haligned
    rw [hstart] at hlength hdata
    obtain ⟨mask, hmask, hscan⟩ := alignedScan_rows rfl hlength hresult resultMask
    rw [if_pos haligned, hreader, Option.bind_eq_bind, Option.bind_some, hinput,
      Option.bind_eq_bind, Option.bind_some]
    refine ⟨mask, hmask, fun i hi => ?_, fun i hi hlater => ?_⟩
    · rw [hscan i (hi.trans_le hresult), if_pos (Mask.div_lt_entryCount hi), hdata i hi]
    · rw [hscan i hi, if_neg (by omega)]
  · obtain ⟨mask, hmask, hscan⟩ := h.scanPartial 0 hcount
      ((Nat.zero_add _).trans_le hresult) resultMask
    rw [if_neg haligned]
    refine ⟨mask, hmask, fun i hi => ?_, fun i hi hlater => ?_⟩
    · rw [hscan i (hi.trans_le hresult), hvalid i hi, if_pos (by omega), Nat.sub_zero,
        List.getD_eq_getElem?_getD, List.getElem?_eq_getElem (by omega), Option.getD_some,
        Bool.true_and]
    · have hge : scanCount ≤ 64 * entryCount scanCount := by
        rw [entryCount, bitsPerValue]
        omega
      rw [hscan i hi, if_neg (by omega), Bool.and_true]

theorem selectRows_rows (input : List Entry) (inputStart : Nat) (sel : Nat → Nat)
    (resultOffset : Nat) {l : List Nat} (hinput : ∀ k ∈ l, inputStart + sel k < 64 * input.length)
    (hresult : ∀ k ∈ l, resultOffset + k < capacity) : ∀ resultMask : Mask capacity,
    ∃ mask, selectRows input inputStart sel resultOffset l resultMask = some mask ∧
      ∀ i < capacity, mask.rowIsValid i = (resultMask.rowIsValid i &&
        decide (∀ k ∈ l, resultOffset + k = i →
          inputBit input (inputStart + sel k) = true)) := by
  induction l with
  | nil => exact fun resultMask => ⟨resultMask, rfl, fun i _ => by simp⟩
  | cons k l ih =>
      intro resultMask
      have hsource := hinput k List.mem_cons_self
      have hget : input[(inputStart + sel k) / bitsPerValue]? =
          some input[(inputStart + sel k) / 64] :=
        List.getElem?_eq_getElem (by rw [bitsPerValue]; omega)
      have hbit : rowIsValid input[(inputStart + sel k) / 64]
          ((inputStart + sel k) % bitsPerValue) = inputBit input (inputStart + sel k) := by
        rw [inputBit, List.getD_eq_getElem?_getD, hget, Option.getD_some]
      -- the mask after this row
      obtain ⟨next, hnext, hrows⟩ : ∃ next : Mask capacity,
          selectRows input inputStart sel resultOffset (k :: l) resultMask =
            selectRows input inputStart sel resultOffset l next ∧
          ∀ i < capacity, next.rowIsValid i = (resultMask.rowIsValid i &&
            decide (resultOffset + k = i → inputBit input (inputStart + sel k) = true)) := by
        rw [selectRows, hget, Option.bind_eq_bind, Option.bind_some, hbit]
        by_cases hvalid : inputBit input (inputStart + sel k) = true
        · rw [if_pos hvalid]
          refine ⟨resultMask, rfl, fun i _ => ?_⟩
          rw [decide_eq_true fun _ => hvalid, Bool.and_true]
        · obtain ⟨next, hnext, hrows⟩ := resultMask.setInvalid_spec (hresult k List.mem_cons_self)
          rw [if_neg hvalid, hnext, Option.bind_eq_bind, Option.bind_some]
          refine ⟨next, rfl, fun i hi => ?_⟩
          rw [hrows i hi]
          refine congrArg (resultMask.rowIsValid i && ·) (decide_eq_decide.mpr ?_)
          exact ⟨fun hne heq => absurd heq.symm hne, fun himp heq => hvalid (himp heq.symm)⟩
      obtain ⟨mask, hmask, hmaskRows⟩ := ih (fun j hj => hinput j (List.mem_cons_of_mem k hj))
        (fun j hj => hresult j (List.mem_cons_of_mem k hj)) next
      refine ⟨mask, hnext.trans hmask, fun i hi => ?_⟩
      rw [hmaskRows i hi, hrows i hi, Bool.and_assoc, ← Bool.decide_and]
      refine congrArg (resultMask.rowIsValid i && ·) (decide_eq_decide.mpr ?_)
      rw [List.forall_mem_cons]

theorem Stores.select (h : Stores segment rows) {start vectorCount selCount resultOffset : Nat}
    {sel : Nat → Nat} (hcount : start + vectorCount ≤ segment.count)
    (hselCount : selCount ≤ vectorCount) (hsel : ∀ k < selCount, sel k < vectorCount)
    (hresult : resultOffset + selCount ≤ capacity) (resultMask : Mask capacity) :
    ∃ mask, validitySelect segment start resultMask vectorCount sel selCount resultOffset =
        some mask ∧ ∀ i < capacity, mask.rowIsValid i = (resultMask.rowIsValid i &&
          if resultOffset ≤ i ∧ i < resultOffset + selCount then
            rows.getD (start + sel (i - resultOffset)) true else true) := by
  rw [validitySelect]
  by_cases hzero : selCount = 0
  · rw [if_pos hzero]
    refine ⟨resultMask, rfl, fun i _ => ?_⟩
    rw [if_neg (by omega), Bool.and_true]
  obtain ⟨size, hreader, hsize⟩ := h.fromSegment
  obtain ⟨input, hinput, hlength, hrows⟩ := h.scanData (by omega) hcount hsize
  have hbits : ∀ k < selCount, inputBit input (start % 64 + sel k) =
      rows.getD (start + sel k) true := by
    intro k hk
    rw [List.getD_eq_getElem?_getD, hrows _ (hsel k hk), Option.getD_some]
  obtain ⟨mask, hmask, hscan⟩ := selectRows_rows input (start % 64) sel resultOffset
    (l := List.range selCount)
    (fun k hk => by
      have hlt := hsel k (List.mem_range.mp hk)
      omega)
    (fun k hk => by
      have hlt := List.mem_range.mp hk
      omega) resultMask
  rw [if_neg hzero, hreader, Option.bind_eq_bind, Option.bind_some, hinput, Option.bind_eq_bind,
    Option.bind_some]
  refine ⟨mask, hmask, fun i hi => ?_⟩
  rw [hscan i hi]
  refine congrArg (resultMask.rowIsValid i && ·) ?_
  by_cases hrange : resultOffset ≤ i ∧ i < resultOffset + selCount
  · rw [if_pos hrange, ← hbits _ (by omega), Bool.eq_iff_iff, decide_eq_true_eq]
    constructor
    · intro hall
      exact hall _ (List.mem_range.mpr (by omega)) (by omega)
    · rintro hbit k - rfl
      rwa [Nat.add_sub_cancel_left] at hbit
  · rw [if_neg hrange, decide_eq_true_eq]
    intro k hk hki
    have hlt := List.mem_range.mp hk
    exact absurd ⟨by omega, by omega⟩ hrange

theorem Stores.fetchRow (h : Stores segment rows) {rowId resultIdx : Nat}
    (hcount : rowId < segment.count) (hresult : resultIdx < capacity)
    (resultMask : Mask capacity) :
    ∃ mask, validityFetchRow segment resultMask rowId resultIdx = some mask ∧
      ∀ i < capacity, mask.rowIsValid i = (resultMask.rowIsValid i &&
        if i = resultIdx then rows.getD rowId true else true) := by
  obtain ⟨size, hreader, hsize⟩ := h.fromSegment
  have hmax := h.le
  rw [maxTuples_eq] at hmax
  have hlt : rowId % 64 < 64 := Nat.mod_lt _ (by decide)
  have hposition : 64 * (rowId / 64) + rowId % 64 = rowId := by omega
  have hget : SegmentReader.get ⟨segment.block, segment.blockOffset, size⟩
      (rowId / bitsPerValue * 8) =
        some (segment.block.loadWord segment.blockOffset (rowId / 64)) := by
    rw [SegmentReader.get]
    dsimp only
    rw [if_neg (by rw [bitsPerValue]; omega), Nat.mul_comm, Memory.loadWord_shift, bitsPerValue]
  have hbit : rowIsValid (segment.block.loadWord segment.blockOffset (rowId / 64))
      (rowId % bitsPerValue) = rows.getD rowId true := by
    rw [bitsPerValue, rowIsValid_eq _ hlt, Memory.getLsbD_loadWord hlt, hposition]
    exact h.bits rowId (by omega)
  rw [validityFetchRow, hreader, Option.bind_eq_bind, Option.bind_some, hget, Option.bind_eq_bind,
    Option.bind_some, hbit]
  by_cases hvalid : rows.getD rowId true = true
  · rw [if_pos hvalid]
    refine ⟨resultMask, rfl, fun i _ => ?_⟩
    rw [hvalid, ite_self, Bool.and_true]
  · obtain ⟨mask, hmask, hrows⟩ := resultMask.setInvalid_spec hresult
    rw [if_neg hvalid]
    refine ⟨mask, hmask, fun i hi => ?_⟩
    rw [hrows i hi, Bool.eq_false_iff.mpr hvalid]
    refine congrArg (resultMask.rowIsValid i && ·) ?_
    by_cases heq : i = resultIdx
    · rw [if_pos heq, decide_eq_false (not_not.mpr heq)]
    · rw [if_neg heq, decide_eq_true heq]

/-! ## Runs -/

/-- A segment, and the bits that have been appended to it and not been reverted. -/
structure Run where
  segment : ColumnSegment
  rows : List Bool

inductive Action where
  | append (data : UnifiedFormat) (offset vcount : Nat)
  | revertAppend (newCount : Nat)
  | setByteSize (size : Nat)

namespace Run

/-- A segment is appended to until its size is recorded, for what its last rows need at least, and
reverting it is to a smaller count. -/
def step (run : Run) : Action → Option Run
  | .append data offset vcount =>
      let result := run.segment.append data offset vcount
      if run.segment.dataSize = none then
        some ⟨result.1,
          run.rows ++ (List.range result.2).map fun i => data.isValid (offset + i)⟩
      else none
  | .revertAppend newCount =>
      if run.segment.dataSize = none ∧ newCount ≤ run.segment.count then
        some ⟨{ run.segment.revertAppend newCount with count := newCount },
          run.rows.take newCount⟩
      else none
  | .setByteSize size =>
      if run.segment.finalizeAppend ≤ size ∧
          size ≤ run.segment.blockSize - run.segment.blockOffset then
        some { run with segment := { run.segment with dataSize := some size } }
      else none

/-- Only a segment at the beginning of its block gets an invalid row. -/
def Permitted (run : Run) : Action → Prop
  | .append data offset vcount => run.segment.blockOffset = 0 ∨
      ∀ i < min vcount (run.segment.maxTuples - run.segment.count),
        data.isValid (offset + i) = true
  | _ => True

/-- A new transient segment, in a block that may have had any contents. -/
def Initial (run : Run) : Prop :=
  ∃ segment : ColumnSegment, segment.blockOffset % 8 = 0 ∧
    segment.blockOffset + segment.segmentSize ≤ segment.blockSize ∧ segment.count = 0 ∧
    segment.dataSize = none ∧ run = ⟨segment.initSegment, []⟩

def lts : Lts Run Action where
  init := Initial
  step run a next := run.step a = some next

end Run

end ValiditySegments

end MiniDuck
