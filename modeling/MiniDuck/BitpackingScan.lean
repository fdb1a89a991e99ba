import MiniDuck.BitpackingCompress
import MiniDuck.CompressionSegmentReader

/-!
# Reading bitpacked segments

`BitpackingScanState` reads a segment group by group. A loaded group
keeps the row it stands at, and for packed differences the value before
that row, which scanning and skipping carry along. A row is fetched by
skipping to it in a new scan.

`CurrentGroup.Holds` relates a loaded group to the one that was written.
Scanning from such a group gives its rows (`scanGroup_ok`), and skipping
leads to the same state as scanning (`skipLoop_ok`).
-/

namespace MiniDuck

open IntegralType BitpackingPrimitives SegmentBuffer WrittenGroup

variable {type : IntegralType}

/-! ## The scan state -/

def throwUnknownMode : String := "Corrupted bitpacking segment: unknown bitpacking mode"

def throwWidthOutOfRange : String :=
  "Corrupted bitpacking segment: bit width exceeds the physical type width"

def throwGroupOffsetsInvalid : String :=
  "Corrupted bitpacking segment: group offsets do not describe a range in the data region"

def throwGroupIndexOutOfRange : String :=
  "Corrupted bitpacking segment: group index exceeds the metadata table"

def throwReadPastEnd : String := "Corrupted bitpacking segment: read exceeds the segment row count"

/-- A loaded metadata group. The values are bit patterns: what is read may be anything. -/
structure CurrentGroup (type : IntegralType) where
  index : Nat
  offset : Nat
  count : Nat
  metadata : BitpackingMetadata
  width : Nat
  frameOfReference : BitVec type.bits
  constant : BitVec type.bits
  deltaOffset : BitVec type.bits
  payload : Option (List UInt8)
  algorithmGroupCount : Nat
  algorithmGroupSize : Nat

inductive GroupState (type : IntegralType)
  | initial
  | current (group : CurrentGroup type)
  | finished

/-- The scan state of a type other than `BOOL`. -/
structure BitpackingScanState (type : IntegralType) where
  reader : CompressionSegmentReader
  segmentCount : Nat
  groupCount : Nat
  metadataTableStart : Nat
  metadataTable : List Nat
  groupState : GroupState type

namespace CurrentGroup

variable (g : CurrentGroup type)

def remaining : Nat := g.count - g.offset

def atEnd : Bool := g.offset = g.count

def advance (n : Nat) : CurrentGroup type := { g with offset := g.offset + n }

def unpackAlgorithmGroup (kernel : BitpackingKernel type.bits) :
    Except String (List (BitVec type.bits)) :=
  if g.width = 0 then .ok (List.replicate BitpackingPrimitives.algorithmGroupSize 0)
  else
    match g.payload with
    | none => .error "Bitpacking algorithm group has no payload"
    | some payload =>
        let algorithmGroupOffset := g.offset / BitpackingPrimitives.algorithmGroupSize *
          g.algorithmGroupSize
        .ok (kernel.fastunpack g.width
          ((payload.drop algorithmGroupOffset).take g.algorithmGroupSize))

end CurrentGroup

def applyFrameOfReference {n : Nat} (values : List (BitVec n)) (frameOfReference : BitVec n) :
    List (BitVec n) :=
  if frameOfReference = 0 then values else values.map (· + frameOfReference)

/-- The loops of `DeltaDecode`: some rounds of four values, then one at a time. -/
def deltaDecodeLoop {n : Nat} : Nat → BitVec n → List (BitVec n) → List (BitVec n)
  | rounds + 1, a, x₀ :: x₁ :: x₂ :: x₃ :: values =>
      let a₀ := x₀ + a
      let a₁ := x₁ + a₀
      let a₂ := x₂ + a₁
      let a₃ := x₃ + a₂
      a₀ :: a₁ :: a₂ :: a₃ :: deltaDecodeLoop rounds a₃ values
  | _, a, values => runningSums a values

/-- `DeltaDecode`. The value that it returns is the last of the list. -/
def deltaDecode {n : Nat} (values : List (BitVec n)) (previousValue : BitVec n) : List (BitVec n) :=
  match values with
  | [] => []
  | x :: rest =>
      (x + previousValue) :: deltaDecodeLoop (values.length / 4 - 1) (x + previousValue) rest

namespace BitpackingScanState

section Load

variable (s : BitpackingScanState type)

/-- `Load<T>` -/
def loadValue (type : IntegralType) (bytes : List UInt8) : BitVec type.bits :=
  BitVec.ofNat type.bits (loadWord bytes)

def getMetadataTableStart (reader : CompressionSegmentReader) (groupCount : Nat) :
    Except String Nat := do
  let metadataEnd ← reader.get 0 8
  .ok ((loadWord metadataEnd + 2 ^ 64 - groupCount * metaSize) % 2 ^ 64)

/-- The scan of a segment with `count` rows whose bytes start at an address. -/
def new (address : Nat) (data : Memory UInt8) (size count : Nat) :
    Except String (BitpackingScanState type) := do
  let reader : CompressionSegmentReader := ⟨address, data, size, 0, "bitpacking segment"⟩
  let groupCount := count / metadataGroupSize + if count % metadataGroupSize ≠ 0 then 1 else 0
  let metadataTableStart ← getMetadataTableStart reader groupCount
  let metadataTable ← reader.getArray metadataTableStart metaSize groupCount
  if metadataTableStart < headerSize then .error throwGroupOffsetsInvalid
  else
    let reader ← reader.getSubReader headerSize (metadataTableStart - headerSize)
      "bitpacking group data"
    .ok ⟨reader, count, groupCount, metadataTableStart, metadataTable, .initial⟩

def getGroupMetadata (groupIndex : Nat) : Except String BitpackingMetadata :=
  if groupIndex ≥ s.groupCount then .error throwGroupIndexOutOfRange
  else .ok (decodeMeta (s.metadataTable.getD (s.groupCount - 1 - groupIndex) 0))

/-- `ValidateBitpackingWidth` -/
def validateWidth (storedWidth : BitVec type.bits) : Except String Nat :=
  if storedWidth.toNat > type.bits then .error throwWidthOutOfRange else .ok storedWidth.toNat

/-- The width, the frame of reference, the constant and the delta offset. -/
def readHeader (mode : BitpackingMode) (r : CompressionSegmentReader) :
    Except String (Nat × BitVec type.bits × BitVec type.bits × BitVec type.bits ×
      CompressionSegmentReader) :=
  match mode with
  | .constant => do
      let (constant, r) ← r.read type.width.bytes
      .ok (0, 0, loadValue type constant, 0, r)
  | .constantDelta => do
      let (frame, r) ← r.read type.width.bytes
      let (constant, r) ← r.read type.width.bytes
      .ok (0, loadValue type frame, loadValue type constant, 0, r)
  | .for_ => do
      let (frame, r) ← r.read type.width.bytes
      let (storedWidth, r) ← r.read type.width.bytes
      let width ← validateWidth (loadValue type storedWidth)
      .ok (width, loadValue type frame, 0, 0, r)
  | .deltaFor => do
      let (frame, r) ← r.read type.width.bytes
      let (storedWidth, r) ← r.read type.width.bytes
      let width ← validateWidth (loadValue type storedWidth)
      let (offset, r) ← r.read type.width.bytes
      .ok (width, loadValue type frame, 0, loadValue type offset, r)
  | _ => .error throwUnknownMode

/-- `LoadGroup`, with the group that is published. -/
def loadGroup (groupIndex : Nat) : Except String (CurrentGroup type) := do
  let metadata ← s.getGroupMetadata groupIndex
  let groupStart := metadata.offset
  let groupEnd ←
    (if groupIndex + 1 < s.groupCount then
      (s.getGroupMetadata (groupIndex + 1)).map BitpackingMetadata.offset
    else .ok s.metadataTableStart)
  if groupStart < headerSize ∨ groupStart > groupEnd ∨ groupEnd > s.metadataTableStart then
    .error throwGroupOffsetsInvalid
  else
    let r ← s.reader.getSubReader (groupStart - headerSize) (groupEnd - groupStart)
      "bitpacking group data"
    let (width, frame, constant, deltaOffset, r) ← readHeader metadata.mode r
    let groupRowCount := min metadataGroupSize (s.segmentCount - groupIndex * metadataGroupSize)
    let isPacked := metadata.mode = .for_ ∨ metadata.mode = .deltaFor
    let algorithmGroupCount := if isPacked then algorithmGroups groupRowCount else 0
    let size := if isPacked then getRequiredSize algorithmGroupSize width else 0
    let expectedPayloadSize := algorithmGroupCount * size
    let payload ←
      (if expectedPayloadSize > 0 then
        (r.readBytesAligned expectedPayloadSize (min type.width.bytes 4)).map (some ∘ Prod.fst)
      else .ok none)
    .ok ⟨groupIndex, 0, groupRowCount, metadata, width, frame, constant, deltaOffset, payload,
      algorithmGroupCount, size⟩

end Load

section Scan

variable (kernel : BitpackingKernel type.bits) (s : BitpackingScanState type)

/-- One round of the loop of `BitpackingScanPartial` within a group: at most `n` rows. -/
def scanGroup (g : CurrentGroup type) (n : Nat) :
    Except String (List (BitVec type.bits) × CurrentGroup type) :=
  match g.metadata.mode with
  | .constant =>
      let toScan := min n g.remaining
      .ok (List.replicate toScan g.constant, g.advance toScan)
  | .constantDelta =>
      let toScan := min n g.remaining
      .ok ((List.range toScan).map fun i =>
        g.constant * BitVec.ofNat type.bits (g.offset + i) + g.frameOfReference, g.advance toScan)
  | mode => do
      let offsetInGroup := g.offset % algorithmGroupSize
      let toScan := min (min n (algorithmGroupSize - offsetInGroup)) g.remaining
      let unpacked ← g.unpackAlgorithmGroup kernel
      let current :=
        if toScan = algorithmGroupSize ∧ offsetInGroup = 0 then unpacked
        else (unpacked.drop offsetInGroup).take toScan
      let current := applyFrameOfReference current g.frameOfReference
      if mode = .deltaFor then
        let current := deltaDecode current g.deltaOffset
        .ok (current, { g with
          deltaOffset := current.getLastD g.deltaOffset, offset := g.offset + toScan })
      else .ok (current, g.advance toScan)

/-- The loop of `BitpackingScanPartial`, with the rounds it may take. -/
def scanLoop : Nat → CurrentGroup type → Nat →
    Except String (List (BitVec type.bits) × CurrentGroup type)
  | _, g, 0 => .ok ([], g)
  | 0, _, _ + 1 => .error "the loop has not ended"
  | rounds + 1, g, n + 1 =>
      if g.atEnd then do
        let g ← s.loadGroup (g.index + 1)
        scanLoop rounds g (n + 1)
      else do
        let (values, g) ← scanGroup kernel g (n + 1)
        let (rest, g) ← scanLoop rounds g (n + 1 - values.length)
        .ok (values ++ rest, g)

/-- The state after a group has been read: the end of the last one ends the scan. -/
def leave (g : CurrentGroup type) : BitpackingScanState type :=
  { s with
    groupState := if g.atEnd && g.index + 1 = s.groupCount then .finished else .current g }

/-- The group that `BitpackingScanPartial` starts in. -/
def scanStart : Except String (CurrentGroup type) :=
  match s.groupState with
  | .initial => s.loadGroup 0
  | .current g => .ok g
  | .finished => .error throwReadPastEnd

/-- `BitpackingScanPartial`, with the rows that it stores in the result. -/
def scanPartial (scanCount : Nat) :
    Except String (List type.Value × BitpackingScanState type) :=
  if scanCount = 0 then .ok ([], s)
  else do
    let g ← s.scanStart
    let (values, g) ← s.scanLoop kernel (2 * scanCount) g scanCount
    .ok (values.map type.ofBits, s.leave g)

/-- The loop of `Skip` in a group of differences. -/
def skipLoop : Nat → CurrentGroup type → Nat → Except String (CurrentGroup type)
  | _, g, 0 => .ok g
  | 0, _, _ + 1 => .error "the loop has not ended"
  | rounds + 1, g, n + 1 => do
      let offsetInGroup := g.offset % algorithmGroupSize
      let skipping := min (n + 1) (algorithmGroupSize - offsetInGroup)
      let unpacked ← g.unpackAlgorithmGroup kernel
      let skipped := applyFrameOfReference ((unpacked.drop offsetInGroup).take skipping)
        g.frameOfReference
      let decoded := deltaDecode skipped g.deltaOffset
      skipLoop rounds { g with
        deltaOffset := decoded.getLastD g.deltaOffset, offset := g.offset + skipping }
        (n + 1 - skipping)

/-- The end of `Skip`, in the group that it leads to. -/
def skipWithin (g : CurrentGroup type) (n : Nat) : Except String (BitpackingScanState type) :=
  if g.offset > g.count ∨ n > g.count - g.offset then .error throwReadPastEnd
  else
    match g.metadata.mode with
    | .deltaFor => (skipLoop kernel n g n).map s.leave
    | _ => .ok (s.leave (g.advance n))

/-- The group that `Skip` stays in. -/
def skipStart : Except String (CurrentGroup type) :=
  match s.groupState with
  | .current g => .ok g
  | _ => s.loadGroup 0

def activeIndex : Nat := match s.groupState with | .current g => g.index | _ => 0

def activeOffset : Nat := match s.groupState with | .current g => g.offset | _ => 0

def isFinished : Bool := match s.groupState with | .finished => true | _ => false

def skip (skipCount : Nat) : Except String (BitpackingScanState type) :=
  let metaGroupsToSkip := (skipCount + s.activeOffset) / metadataGroupSize
  let targetGroupIndex := s.activeIndex + metaGroupsToSkip
  if s.isFinished then if skipCount > 0 then .error throwReadPastEnd else .ok s
  else if metaGroupsToSkip ≠ 0 then
    if targetGroupIndex > s.groupCount ∨ targetGroupIndex = s.groupCount ∧
        (skipCount + s.activeOffset) % metadataGroupSize ≠ 0 then .error throwReadPastEnd
    else if targetGroupIndex = s.groupCount then .ok { s with groupState := .finished }
    else do
      let g ← s.loadGroup targetGroupIndex
      s.skipWithin kernel g
        (skipCount - (metaGroupsToSkip * metadataGroupSize - s.activeOffset))
  else do
    let g ← s.skipStart
    s.skipWithin kernel g skipCount

def bitpackingSkip (skipCount : Nat) : Except String (BitpackingScanState type) :=
  if skipCount = 0 then .ok s else s.skip kernel skipCount

/-- `BitpackingFetchRow`, in a new scan. -/
def fetchRow (rowIndex : Nat) : Except String type.Value := do
  let s ← s.skip kernel rowIndex
  match s.groupState with
  | .current g =>
      match g.metadata.mode with
      | .constant => .ok (type.ofBits g.constant)
      | .constantDelta =>
          .ok (type.ofBits
            (g.constant * BitVec.ofNat type.bits g.offset + g.frameOfReference))
      | mode => do
          let unpacked ← g.unpackAlgorithmGroup kernel
          let value := unpacked.getD (g.offset % algorithmGroupSize) 0 + g.frameOfReference
          .ok (type.ofBits (if mode = .deltaFor then value + g.deltaOffset else value))
  | _ => .error throwReadPastEnd

end Scan

end BitpackingScanState

/-! ## Decoding -/

theorem deltaDecodeLoop_eq {n : Nat} : (rounds : Nat) → (a : BitVec n) → (values : List (BitVec n)) →
    deltaDecodeLoop rounds a values = runningSums a values
  | 0, _, _ => rfl
  | _ + 1, _, [] => rfl
  | _ + 1, _, [_] => rfl
  | _ + 1, _, [_, _] => rfl
  | _ + 1, _, [_, _, _] => rfl
  | rounds + 1, a, x₀ :: x₁ :: x₂ :: x₃ :: values => by
      simp only [deltaDecodeLoop, runningSums, deltaDecodeLoop_eq rounds, BitVec.add_comm x₀,
        BitVec.add_comm x₁, BitVec.add_comm x₂, BitVec.add_comm x₃]

theorem deltaDecode_eq {n : Nat} (values : List (BitVec n)) (previousValue : BitVec n) :
    deltaDecode values previousValue = runningSums previousValue values := by
  cases values with
  | nil => rfl
  | cons x rest =>
      rw [deltaDecode, deltaDecodeLoop_eq, runningSums, BitVec.add_comm x]

theorem applyFrameOfReference_eq {n : Nat} (values : List (BitVec n)) (frame : BitVec n) :
    applyFrameOfReference values frame = values.map (· + frame) := by
  unfold applyFrameOfReference
  split
  · rename_i h
    simp [h]
  · rfl

/-! ## Loaded groups -/

namespace BitpackingWrite

def IsPacked : BitpackingWrite type → Prop
  | writeConstant _ => False
  | writeConstantDelta .. => False
  | writeDeltaFor .. => True
  | writeFor .. => True

def frame : BitpackingWrite type → BitVec type.bits
  | writeConstant _ => 0
  | writeConstantDelta _ frame => type.toBits frame
  | writeDeltaFor _ _ frame _ => type.toBits frame
  | writeFor _ _ frame => type.toBits frame

def constant : BitpackingWrite type → BitVec type.bits
  | writeConstant constant => type.toBits constant
  | writeConstantDelta constant _ => type.makeSigned.toBits constant
  | writeDeltaFor .. => 0
  | writeFor .. => 0

def previous : BitpackingWrite type → Nat → BitVec type.bits
  | writeDeltaFor values width frame offset, i =>
      partialSum (type.makeSigned.toBits offset)
        (fun j => lowBits width (type.toBits (values j)) + type.toBits frame) i
  | _, _ => 0

def padded (w : BitpackingWrite type) (count i : Nat) : BitVec type.bits :=
  if i < count then w.packed i else 0

end BitpackingWrite

namespace CurrentGroup

def Unpacks (kernel : BitpackingKernel type.bits) (cur : CurrentGroup type)
    (g : WrittenGroup type) : Prop :=
  ∀ offset, offset < g.rows.length →
    ({ cur with offset := offset }).unpackAlgorithmGroup kernel =
      .ok ((List.range 32).map fun j => g.call.padded g.rows.length (offset / 32 * 32 + j))

/-- The loaded group is the one that was written, and stands at one of its rows. -/
structure Holds (kernel : BitpackingKernel type.bits) (cur : CurrentGroup type)
    (g : WrittenGroup type) (index : Nat) : Prop where
  index : cur.index = index
  count : cur.count = g.rows.length
  offset : cur.offset ≤ cur.count
  mode : cur.metadata.mode = g.call.mode
  frame : cur.frameOfReference = g.call.frame
  constant : cur.constant = g.call.constant
  deltaOffset : cur.deltaOffset = g.call.previous cur.offset
  unpacks : g.call.IsPacked → cur.Unpacks kernel g

variable {kernel : BitpackingKernel type.bits} {cur : CurrentGroup type} {g : WrittenGroup type}
  {index : Nat}

/-- The rest of the algorithm group at the current row. -/
theorem Holds.unpacked (h : cur.Holds kernel g index) (hpacked : g.call.IsPacked)
    (hlt : cur.offset < cur.count) {n : Nat} (hn : n ≤ 32 - cur.offset % 32)
    (hn' : n ≤ cur.count - cur.offset) :
    ∃ unpacked, cur.unpackAlgorithmGroup kernel = .ok unpacked ∧ unpacked.length = 32 ∧
      (unpacked.drop (cur.offset % 32)).take n =
        (List.range' cur.offset n).map g.call.packed := by
  refine ⟨_, h.unpacks hpacked cur.offset (h.count ▸ hlt), by simp, ?_⟩
  refine List.ext_getElem (by simp; omega) fun i hi hi' => ?_
  have hin : i < n := by simpa using hi'
  have hrow : cur.offset / 32 * 32 + (cur.offset % 32 + i) = cur.offset + i := by omega
  simp only [List.getElem_take, List.getElem_drop, List.getElem_map, List.getElem_range,
    List.getElem_range', Nat.one_mul, hrow]
  rw [BitpackingWrite.padded, if_pos (by rw [← h.count]; omega)]

theorem Holds.advance (h : cur.Holds kernel g index) {n : Nat} (hn : cur.offset + n ≤ cur.count)
    (hmode : g.call.mode ≠ .deltaFor) : (cur.advance n).Holds kernel g index := by
  refine ⟨h.index, h.count, hn, h.mode, h.frame, h.constant, ?_, h.unpacks⟩
  have hdelta := h.deltaOffset
  cases hcall : g.call with
  | writeDeltaFor values width frame offset => exact absurd (by rw [hcall]; rfl) hmode
  | writeConstant constant => rw [hcall] at hdelta; exact hdelta
  | writeConstantDelta constant frame => rw [hcall] at hdelta; exact hdelta
  | writeFor values width frame => rw [hcall] at hdelta; exact hdelta

end CurrentGroup

/-! ## Within a group -/

namespace BitpackingScanState

variable {kernel : BitpackingKernel type.bits} {cur : CurrentGroup type} {g : WrittenGroup type}
  {index : Nat} {s : BitpackingScanState type}

theorem takeCurrent_eq {α : Type} {unpacked : List α} {toScan offset : Nat}
    (h : unpacked.length = 32) :
    (if toScan = algorithmGroupSize ∧ offset = 0 then unpacked
      else (unpacked.drop offset).take toScan) = (unpacked.drop offset).take toScan := by
  split
  · rename_i hfull
    rw [hfull.1, hfull.2, List.drop_zero, List.take_of_length_le (Nat.le_of_eq h)]
  · rfl

/-- One round of the loop gives the next rows, and at least one. -/
theorem scanGroup_ok (h : cur.Holds kernel g index) (hlt : cur.offset < cur.count) {n : Nat}
    (hn : 0 < n) :
    ∃ m cur', 0 < m ∧ m ≤ n ∧ cur'.offset = cur.offset + m ∧ cur'.Holds kernel g index ∧
      scanGroup kernel cur n = .ok ((List.range' cur.offset m).map g.call.value, cur') := by
  have hmode := h.mode
  have hframe := h.frame
  have hconstant := h.constant
  have hdelta := h.deltaOffset
  unfold scanGroup
  cases hcall : g.call with
  | writeConstant constant =>
      rw [hcall] at hmode hconstant
      rw [hmode]
      simp only [BitpackingWrite.mode, CurrentGroup.remaining]
      refine ⟨min n (cur.count - cur.offset), cur.advance (min n (cur.count - cur.offset)),
        by omega, by omega, rfl, h.advance (by omega) (by rw [hcall]; intro hdelta; cases hdelta), ?_⟩
      have hvalue : (BitpackingWrite.writeConstant constant).value =
          Function.const Nat (type.toBits constant) := rfl
      rw [hconstant, hvalue, List.map_const, List.length_range']
      rfl
  | writeConstantDelta constant frame =>
      rw [hcall] at hmode hconstant hframe
      rw [hmode]
      simp only [BitpackingWrite.mode, CurrentGroup.remaining]
      refine ⟨min n (cur.count - cur.offset), cur.advance (min n (cur.count - cur.offset)),
        by omega, by omega, rfl, h.advance (by omega) (by rw [hcall]; intro hdelta; cases hdelta), ?_⟩
      rw [hconstant, hframe, List.range'_eq_map_range, List.map_map]
      rfl
  | writeFor values width frame =>
      have hpacked : g.call.IsPacked := by rw [hcall]; trivial
      rw [hcall] at hmode hframe
      rw [hmode]
      simp only [BitpackingWrite.mode, CurrentGroup.remaining, reduceCtorEq, if_false]
      obtain ⟨m, hm⟩ : ∃ m, m = min (min n (32 - cur.offset % 32)) (cur.count - cur.offset) :=
        ⟨_, rfl⟩
      obtain ⟨unpacked, hunpack, hlen, hrows⟩ := h.unpacked hpacked hlt
        (by omega : m ≤ 32 - cur.offset % 32) (by omega)
      refine ⟨m, cur.advance m, by omega, by omega, rfl,
        h.advance (by omega) (by rw [hcall]; intro hdelta; cases hdelta), ?_⟩
      rw [hunpack]
      simp only [bind, Except.bind, ← hm]
      rw [takeCurrent_eq hlen, hrows, applyFrameOfReference_eq, List.map_map, hcall, hframe]
      rfl
  | writeDeltaFor values width frame offset =>
      have hpacked : g.call.IsPacked := by rw [hcall]; trivial
      rw [hcall] at hmode hframe hdelta
      rw [hmode]
      simp only [BitpackingWrite.mode, CurrentGroup.remaining, if_true]
      obtain ⟨m, hm⟩ : ∃ m, m = min (min n (32 - cur.offset % 32)) (cur.count - cur.offset) :=
        ⟨_, rfl⟩
      obtain ⟨unpacked, hunpack, hlen, hrows⟩ := h.unpacked hpacked hlt
        (by omega : m ≤ 32 - cur.offset % 32) (by omega)
      rw [hunpack]
      simp only [bind, Except.bind, ← hm]
      rw [takeCurrent_eq hlen, hrows, applyFrameOfReference_eq, List.map_map, deltaDecode_eq, hcall,
        hframe, hdelta]
      have hfit : cur.offset + m ≤ cur.count := by omega
      have hlast := getLast_runningSums (type.makeSigned.toBits offset)
        (fun j => lowBits width (type.toBits (values j)) + type.toBits frame) cur.offset m
      have hnext : g.call.previous (cur.offset + m) = partialSum (type.makeSigned.toBits offset)
          (fun j => lowBits width (type.toBits (values j)) + type.toBits frame)
          (cur.offset + m) := by
        rw [hcall]
        rfl
      refine ⟨m, { cur with deltaOffset := g.call.previous (cur.offset + m), offset := cur.offset + m },
        by omega, by omega, rfl,
        ⟨h.index, h.count, hfit, h.mode, h.frame, h.constant, rfl, h.unpacks⟩, ?_⟩
      refine congrArg Except.ok (Prod.ext (runningSums_map _ _ _ _) ?_)
      rw [hnext, ← hlast, hframe]
      rfl

/-- Skipping rows of differences leads to the sum before the next row. -/
theorem skipLoop_ok {values : Nat → type.Value} {width : Nat} {frame : type.Value}
    {offset : type.makeSigned.Value} (hcall : g.call = .writeDeltaFor values width frame offset) :
    {rounds n : Nat} → {cur : CurrentGroup type} → n ≤ rounds → cur.Holds kernel g index →
      cur.offset + n ≤ cur.count → ∃ cur', skipLoop kernel rounds cur n = .ok cur' ∧
        cur'.offset = cur.offset + n ∧ cur'.Holds kernel g index
  | _, 0, cur, _, h, _ => ⟨cur, by rw [skipLoop], rfl, h⟩
  | 0, n + 1, _, hn, _, _ => absurd hn (by omega)
  | rounds + 1, n + 1, cur, hn, h, hfit => by
      have hpacked : g.call.IsPacked := by rw [hcall]; trivial
      obtain ⟨m, hm⟩ : ∃ m, m = min (n + 1) (32 - cur.offset % 32) := ⟨_, rfl⟩
      obtain ⟨unpacked, hunpack, -, hrows⟩ := h.unpacked hpacked (by omega)
        (by omega : m ≤ 32 - cur.offset % 32) (by omega)
      have hframe := h.frame
      have hdelta := h.deltaOffset
      rw [hcall] at hframe hdelta
      have hlast := getLast_runningSums (type.makeSigned.toBits offset)
        (fun j => lowBits width (type.toBits (values j)) + type.toBits frame) cur.offset m
      have hnext : g.call.previous (cur.offset + m) = partialSum (type.makeSigned.toBits offset)
          (fun j => lowBits width (type.toBits (values j)) + type.toBits frame)
          (cur.offset + m) := by
        rw [hcall]
        rfl
      have hfit' : cur.offset + m ≤ cur.count := by omega
      let next : CurrentGroup type :=
        { cur with deltaOffset := g.call.previous (cur.offset + m), offset := cur.offset + m }
      have hnextHolds : next.Holds kernel g index :=
        ⟨h.index, h.count, hfit', h.mode, h.frame, h.constant, rfl, h.unpacks⟩
      obtain ⟨cur', hloop, hoffset, hholds⟩ := skipLoop_ok hcall
        (by omega : n + 1 - m ≤ rounds) hnextHolds
        (show cur.offset + m + (n + 1 - m) ≤ cur.count by omega)
      refine ⟨cur', ?_, hoffset.trans (show cur.offset + m + (n + 1 - m) = _ by omega), hholds⟩
      have hstep : { cur with
          deltaOffset := (deltaDecode (applyFrameOfReference
            ((unpacked.drop (cur.offset % 32)).take m) cur.frameOfReference)
              cur.deltaOffset).getLastD cur.deltaOffset
          offset := cur.offset + m } = next := by
        simp only [next]
        rw [hrows, applyFrameOfReference_eq, List.map_map, deltaDecode_eq, hcall, hframe, hdelta,
          ← hcall, hnext, ← hlast]
        rw [hcall]
        rfl
      rw [skipLoop, hunpack]
      simp only [bind, Except.bind, ← hm]
      rw [hstep]
      exact hloop

end BitpackingScanState

end MiniDuck
