import MiniDuck.BitpackingState
import MiniDuck.ByteMemory

/-!
# Writing bitpacked segments

The data of the metadata groups grows upwards from behind the header of a
segment, and a table of four bytes a group grows downwards from the end
of the block. A group that does not fit starts a new segment. When a
segment is flushed the table is moved next to the data, and the header
says where it ends.

`Layout` is the state of a segment that is being filled: data and table
stay eight bytes apart, and each holds its part of every group.
`write_ok` keeps it and `flushSegment_ok` turns it into what a reader
finds (`SegmentHolds`).
-/

namespace MiniDuck

open IntegralType BitpackingPrimitives

variable {type : IntegralType}

/-! ## The bytes of a group -/

def storeValue (type : IntegralType) (v : BitVec type.bits) : List UInt8 :=
  storeBytes type.width.bytes v.toNat

namespace BitpackingWrite

def mode : BitpackingWrite type → BitpackingMode
  | writeConstant _ => .constant
  | writeConstantDelta .. => .constantDelta
  | writeDeltaFor .. => .deltaFor
  | writeFor .. => .for_

def header : BitpackingWrite type → List UInt8
  | writeConstant constant => storeValue type (type.toBits constant)
  | writeConstantDelta constant frame =>
      storeValue type (type.toBits frame) ++ storeValue type (type.makeSigned.toBits constant)
  | writeDeltaFor _ width frame offset =>
      storeValue type (type.toBits frame) ++ storeBytes type.width.bytes width ++
        storeValue type (type.makeSigned.toBits offset)
  | writeFor _ width frame =>
      storeValue type (type.toBits frame) ++ storeBytes type.width.bytes width

def payload (kernel : BitpackingKernel type.bits) : BitpackingWrite type → Nat → List UInt8
  | writeConstant _, _ => []
  | writeConstantDelta .., _ => []
  | writeDeltaFor values width .., count =>
      packBuffer kernel (fun i => type.toBits (values i)) count width
  | writeFor values width _, count =>
      packBuffer kernel (fun i => type.toBits (values i)) count width

def bytes (kernel : BitpackingKernel type.bits) (w : BitpackingWrite type) (count : Nat) :
    List UInt8 := w.header ++ w.payload kernel count

end BitpackingWrite

/-! ## The writer -/

/-- A segment that has been flushed, with the buffer it was written in. -/
structure BitpackingSegment where
  count : Nat
  data : Memory UInt8
  segmentSize : Nat

/-- The part of the `BitpackingCompressionState` that its writer changes. `dataPtr` and
`metadataPtr` are offsets in the buffer of the current segment. -/
structure SegmentBuffer where
  handle : Memory UInt8
  dataPtr : Nat
  metadataPtr : Nat
  count : Nat
  segments : List BitpackingSegment

namespace SegmentBuffer

/-- `sizeof(bitpacking_metadata_encoded_t)` -/
abbrev metaSize : Nat := 4

section Model

variable (blockSize : Nat) (fresh : Nat → Memory UInt8)

def canStore (c : SegmentBuffer) (dataBytes metaBytes : Nat) : Bool :=
  let requiredDataBytes := alignValue dataBytes 8
  let requiredMetaBytes := blockSize - (c.metadataPtr - c.dataPtr) + metaBytes
  requiredDataBytes + requiredMetaBytes ≤ blockSize - headerSize

def createEmptySegment (c : SegmentBuffer) : SegmentBuffer where
  handle := fresh c.segments.length
  dataPtr := headerSize
  metadataPtr := blockSize
  count := 0
  segments := c.segments

def initial : SegmentBuffer := createEmptySegment blockSize fresh ⟨fresh 0, 0, 0, 0, []⟩

def flushSegment (c : SegmentBuffer) : Except String SegmentBuffer :=
  let unalignedOffset := c.dataPtr
  let metadataOffset := alignValue unalignedOffset 8
  let metadataSize := blockSize - c.metadataPtr
  let totalSegmentSize := metadataOffset + metadataSize
  if !c.canStore blockSize 0 0 then .error "Error in bitpacking size calculation"
  else
    let padded :=
      if unalignedOffset ≠ metadataOffset then
        c.handle.write unalignedOffset (List.replicate (metadataOffset - unalignedOffset) 0)
      else c.handle
    let compacted := padded.write metadataOffset (padded.read c.metadataPtr metadataSize)
    let stored := compacted.write 0 (storeBytes 8 totalSegmentSize)
    .ok { c with segments := c.segments ++ [⟨c.count, stored, totalSegmentSize⟩] }

def flushAndCreateSegmentIfFull (c : SegmentBuffer) (dataBytes metaBytes : Nat) :
    Except String SegmentBuffer :=
  if !c.canStore blockSize dataBytes metaBytes then
    (c.flushSegment blockSize).map (createEmptySegment blockSize fresh)
  else .ok c

def reserveSpace (c : SegmentBuffer) (dataBytes : Nat) : Except String SegmentBuffer :=
  c.flushAndCreateSegmentIfFull blockSize fresh dataBytes metaSize

end Model

def writeMetaData (c : SegmentBuffer) (mode : BitpackingMode) : SegmentBuffer :=
  { c with
    metadataPtr := c.metadataPtr - metaSize
    handle := c.handle.write (c.metadataPtr - metaSize)
      (storeBytes metaSize (encodeMeta ⟨mode, c.dataPtr⟩)) }

def writeData (c : SegmentBuffer) (bytes : List UInt8) : SegmentBuffer :=
  { c with handle := c.handle.write c.dataPtr bytes, dataPtr := c.dataPtr + bytes.length }

/-- `PackBuffer` to the free position, and the step over its `bpSize` bytes. -/
def writePacked (c : SegmentBuffer) (packed : List UInt8) (bpSize : Nat) : SegmentBuffer :=
  { c with handle := c.handle.write c.dataPtr packed, dataPtr := c.dataPtr + bpSize }

/-- `UpdateStats`, without the statistics. -/
def updateStats (c : SegmentBuffer) (count : Nat) : SegmentBuffer :=
  { c with count := c.count + count }

/-- The `BitpackingWriter`. -/
def bitpackingWriter (kernel : BitpackingKernel type.bits) (blockSize : Nat)
    (fresh : Nat → Memory UInt8) (w : BitpackingWrite type) (count : Nat) (c : SegmentBuffer) :
    Except String SegmentBuffer :=
  match w with
  | .writeConstant constant =>
      (c.reserveSpace blockSize fresh type.width.bytes).map fun c =>
        ((c.writeMetaData .constant).writeData (storeValue type (type.toBits constant))).updateStats
          count
  | .writeConstantDelta constant frame =>
      (c.reserveSpace blockSize fresh (2 * type.width.bytes)).map fun c =>
        (((c.writeMetaData .constantDelta).writeData
          (storeValue type (type.toBits frame))).writeData
          (storeValue type (type.makeSigned.toBits constant))).updateStats count
  | .writeDeltaFor values width frame offset =>
      let bpSize := getRequiredSize count width
      (c.reserveSpace blockSize fresh (bpSize + 3 * type.width.bytes)).map fun c =>
        (((((c.writeMetaData .deltaFor).writeData (storeValue type (type.toBits frame))).writeData
          (storeBytes type.width.bytes width)).writeData
          (storeValue type (type.makeSigned.toBits offset))).writePacked
          (packBuffer kernel (fun i => type.toBits (values i)) count width) bpSize).updateStats count
  | .writeFor values width frame =>
      let bpSize := getRequiredSize count width
      (c.reserveSpace blockSize fresh (bpSize + 2 * type.width.bytes)).map fun c =>
        ((((c.writeMetaData .for_).writeData (storeValue type (type.toBits frame))).writeData
          (storeBytes type.width.bytes width)).writePacked
          (packBuffer kernel (fun i => type.toBits (values i)) count width) bpSize).updateStats count

end SegmentBuffer

/-! ## All groups are written alike -/

@[simp] theorem length_storeValue (v : BitVec type.bits) :
    (storeValue type v).length = type.width.bytes := length_storeBytes ..

theorem length_packBuffer {n : Nat} (kernel : BitpackingKernel n) (src : Nat → BitVec n)
    (count : Nat) {width : Nat} (h : width ≤ n) :
    (packBuffer kernel src count width).length = getRequiredSize count width := by
  rw [packBuffer_eq, getRequiredSize_eq, List.length_flatMap]
  have hlen : ∀ i, (kernel.fastpack width ((List.range 32).map fun j =>
      if 32 * i + j < count then src (32 * i + j) else 0)).length = 4 * width := by
    intro i
    exact kernel.length_fastpack h (by simp)
  simp only [hlen, List.map_const', List.sum_replicate, List.length_range, smul_eq_mul]
  exact Nat.mul_comm _ _

namespace SegmentBuffer

theorem writeData_writeData (c : SegmentBuffer) (x y : List UInt8) :
    (c.writeData x).writeData y = c.writeData (x ++ y) := by
  simp only [writeData, Memory.write_append, List.length_append, Nat.add_assoc]

theorem writePacked_eq (c : SegmentBuffer) {packed : List UInt8} {bpSize : Nat}
    (h : packed.length = bpSize) : c.writePacked packed bpSize = c.writeData packed := by
  rw [writePacked, writeData, h]

/-- Every call reserves what it needs, and stores the entry and the bytes of its group. -/
theorem bitpackingWriter_eq (kernel : BitpackingKernel type.bits) (blockSize : Nat)
    (fresh : Nat → Memory UInt8) (w : BitpackingWrite type) (count : Nat) (c : SegmentBuffer)
    (hw : w.width ≤ type.bits) :
    bitpackingWriter kernel blockSize fresh w count c =
      (c.reserveSpace blockSize fresh (w.bytes kernel count).length).map fun c =>
        ((c.writeMetaData w.mode).writeData (w.bytes kernel count)).updateStats count := by
  cases w with
  | writeConstant constant =>
      simp [bitpackingWriter, BitpackingWrite.bytes, BitpackingWrite.header,
        BitpackingWrite.payload, BitpackingWrite.mode]
  | writeConstantDelta constant frame =>
      simp [bitpackingWriter, BitpackingWrite.bytes, BitpackingWrite.header,
        BitpackingWrite.payload, BitpackingWrite.mode, writeData_writeData, Nat.two_mul]
  | writeDeltaFor values width frame offset =>
      have hpack : (packBuffer kernel (fun i => type.toBits (values i)) count width).length =
          getRequiredSize count width := length_packBuffer _ _ _ hw
      have hsize : getRequiredSize count width + 3 * type.width.bytes =
          type.width.bytes + (type.width.bytes + (type.width.bytes +
            getRequiredSize count width)) := by omega
      simp [bitpackingWriter, BitpackingWrite.bytes, BitpackingWrite.header,
        BitpackingWrite.payload, BitpackingWrite.mode, writeData_writeData,
        writePacked_eq _ hpack, hpack, hsize]
  | writeFor values width frame =>
      have hpack : (packBuffer kernel (fun i => type.toBits (values i)) count width).length =
          getRequiredSize count width := length_packBuffer _ _ _ hw
      have hsize : getRequiredSize count width + 2 * type.width.bytes =
          type.width.bytes + (type.width.bytes + getRequiredSize count width) := by omega
      simp [bitpackingWriter, BitpackingWrite.bytes, BitpackingWrite.header,
        BitpackingWrite.payload, BitpackingWrite.mode, writeData_writeData,
        writePacked_eq _ hpack, hpack, hsize]

end SegmentBuffer

/-! ## Layout -/

structure WrittenGroup (type : IntegralType) where
  rows : List (Option type.Value)
  call : BitpackingWrite type

namespace WrittenGroup

variable (kernel : BitpackingKernel type.bits)

def bytes (g : WrittenGroup type) : List UInt8 := g.call.bytes kernel g.rows.length

def dataBytes (groups : List (WrittenGroup type)) : List UInt8 := groups.flatMap (bytes kernel)

def entries : Nat → List (WrittenGroup type) → List BitpackingMetadata
  | _, [] => []
  | offset, g :: groups =>
      ⟨g.call.mode, offset⟩ :: entries (offset + (g.bytes kernel).length) groups

def table (groups : List (WrittenGroup type)) : List UInt8 :=
  (entries kernel headerSize groups).reverse.flatMap fun metadata =>
    storeBytes SegmentBuffer.metaSize (encodeMeta metadata)

def rowCount (groups : List (WrittenGroup type)) : Nat := (groups.map fun g => g.rows.length).sum

variable {kernel}

theorem entries_append (offset : Nat) (groups groups' : List (WrittenGroup type)) :
    entries kernel offset (groups ++ groups') = entries kernel offset groups ++
      entries kernel (offset + (dataBytes kernel groups).length) groups' := by
  induction groups generalizing offset with
  | nil => rfl
  | cons g groups ih =>
      simp only [List.cons_append, entries, ih, dataBytes, List.flatMap_cons, List.length_append,
        Nat.add_assoc]

@[simp] theorem length_entries (offset : Nat) (groups : List (WrittenGroup type)) :
    (entries kernel offset groups).length = groups.length := by
  induction groups generalizing offset with
  | nil => rfl
  | cons g groups ih => simp [entries, ih]

theorem dataBytes_concat (groups : List (WrittenGroup type)) (g : WrittenGroup type) :
    dataBytes kernel (groups ++ [g]) = dataBytes kernel groups ++ g.bytes kernel := by
  simp [dataBytes]

theorem table_concat (groups : List (WrittenGroup type)) (g : WrittenGroup type) :
    table kernel (groups ++ [g]) =
      storeBytes SegmentBuffer.metaSize
        (encodeMeta ⟨g.call.mode, headerSize + (dataBytes kernel groups).length⟩) ++
      table kernel groups := by
  rw [table, entries_append, List.reverse_append, List.flatMap_append]
  simp [entries, table]

theorem rowCount_concat (groups : List (WrittenGroup type)) (g : WrittenGroup type) :
    rowCount (groups ++ [g]) = rowCount groups + g.rows.length := by
  simp [rowCount]

end WrittenGroup

open WrittenGroup SegmentBuffer

/-- The segment that is being filled. Between its data and its table there are
always eight bytes. -/
structure Layout (kernel : BitpackingKernel type.bits) (blockSize : Nat) (c : SegmentBuffer)
    (groups : List (WrittenGroup type)) : Prop where
  dataPtr : c.dataPtr = headerSize + (dataBytes kernel groups).length
  metadataPtr : c.metadataPtr + 4 * groups.length = blockSize
  room : c.dataPtr + 8 ≤ c.metadataPtr
  data : c.handle.read headerSize (dataBytes kernel groups).length = dataBytes kernel groups
  table : c.handle.read c.metadataPtr (4 * groups.length) = table kernel groups
  count : c.count = rowCount groups

structure SegmentHolds (kernel : BitpackingKernel type.bits) (segment : BitpackingSegment)
    (groups : List (WrittenGroup type)) : Prop where
  count : segment.count = rowCount groups
  size : segment.segmentSize =
    alignValue (headerSize + (dataBytes kernel groups).length) 8 + 4 * groups.length
  header : segment.data.read 0 8 = storeBytes 8 segment.segmentSize
  data : segment.data.read headerSize (dataBytes kernel groups).length = dataBytes kernel groups
  table : segment.data.read (alignValue (headerSize + (dataBytes kernel groups).length) 8)
    (4 * groups.length) = table kernel groups
  fits : headerSize + (dataBytes kernel groups).length ≤ 2 ^ 24

theorem le_alignValue (n : Nat) : n ≤ alignValue n 8 ∧ alignValue n 8 ≤ n + 7 := by
  unfold alignValue
  omega

section

variable {kernel : BitpackingKernel type.bits} {blockSize : Nat} {fresh : Nat → Memory UInt8}
  {c : SegmentBuffer} {groups : List (WrittenGroup type)}

theorem Layout.canStore_iff (h : Layout kernel blockSize c groups) (n m : Nat) :
    c.canStore blockSize n m = true ↔ c.dataPtr + alignValue n 8 + m + 8 ≤ c.metadataPtr := by
  have hdata := h.dataPtr
  have hmeta := h.metadataPtr
  have hroom := h.room
  have hheader : headerSize = 8 := rfl
  rw [canStore, decide_eq_true_eq]
  omega

theorem createEmptySegment_layout (h : 16 ≤ blockSize) (c : SegmentBuffer) :
    Layout kernel blockSize (c.createEmptySegment blockSize fresh) [] :=
  ⟨rfl, rfl, h, rfl, rfl, rfl⟩

theorem flushSegment_ok (h : Layout kernel blockSize c groups) (hblock : blockSize ≤ 2 ^ 24) :
    ∃ segment, SegmentHolds kernel segment groups ∧
      c.flushSegment blockSize = .ok { c with segments := c.segments ++ [segment] } := by
  have hdata := h.dataPtr
  have hmeta := h.metadataPtr
  have hroom := h.room
  have hcan : c.canStore blockSize 0 0 = true :=
    (h.canStore_iff 0 0).mpr (by simpa [alignValue] using hroom)
  obtain ⟨hle, hge⟩ := le_alignValue c.dataPtr
  have hsize : blockSize - c.metadataPtr = 4 * groups.length := by omega
  unfold flushSegment
  extract_lets unalignedOffset metadataOffset metadataSize totalSegmentSize padded compacted stored
  rw [if_neg (by simp [hcan])]
  have hheader : headerSize = 8 := rfl
  have hunaligned : unalignedOffset = c.dataPtr := rfl
  have hoffset : metadataOffset = alignValue c.dataPtr 8 := rfl
  have hpadded : ∀ pos n, pos + n ≤ c.dataPtr ∨ metadataOffset ≤ pos →
      padded.read pos n = c.handle.read pos n := by
    intro pos n hpos
    simp only [padded]
    split
    · rcases hpos with hpos | hpos
      · exact Memory.read_write_of_le hpos
      · refine Memory.read_write_of_ge ?_
        rw [List.length_replicate]
        omega
    · rfl
  have hlow : ∀ pos n, headerSize ≤ pos → pos + n ≤ c.dataPtr →
      stored.read pos n = c.handle.read pos n := by
    intro pos n hpos hn
    have hstore : (storeBytes 8 totalSegmentSize).length = 8 := length_storeBytes ..
    simp only [stored]
    rw [Memory.read_write_of_ge (by omega), Memory.read_write_of_le (by omega),
      hpadded pos n (Or.inl hn)]
  refine ⟨⟨c.count, stored, totalSegmentSize⟩, ?_, rfl⟩
  refine ⟨h.count, ?_, ?_, ?_, ?_, by omega⟩
  · simp only [totalSegmentSize, metadataOffset, unalignedOffset, metadataSize]
    rw [hdata, hsize]
  · simp only [stored]
    exact Memory.read_write (length_storeBytes ..)
  · simp only
    rw [hlow _ _ (Nat.le_refl _) (by omega), h.data]
  · have hstore : (storeBytes 8 totalSegmentSize).length = 8 := length_storeBytes ..
    rw [← hdata]
    simp only [stored, compacted]
    rw [Memory.read_write_of_ge (by omega)]
    rw [Memory.read_write (by rw [Memory.length_read]; exact hsize)]
    rw [hpadded _ _ (Or.inr (by omega))]
    simp only [metadataSize]
    rw [hsize, h.table]

/-- A group that fits goes behind the data, and its entry before the table. -/
theorem Layout.write (h : Layout kernel blockSize c groups) (g : WrittenGroup type)
    (hfit : c.canStore blockSize (g.bytes kernel).length metaSize = true) :
    Layout kernel blockSize (((c.writeMetaData g.call.mode).writeData
      (g.bytes kernel)).updateStats g.rows.length) (groups ++ [g]) := by
  have hdata := h.dataPtr
  have hmeta := h.metadataPtr
  have hspace := (h.canStore_iff _ _).mp hfit
  have halign := (le_alignValue (g.bytes kernel).length).1
  have hentry : ∀ metadata, (storeBytes metaSize (encodeMeta metadata)).length = 4 :=
    fun metadata => length_storeBytes ..
  have hheader : headerSize = 8 := rfl
  have hmetaSize : metaSize = 4 := rfl
  refine ⟨?_, ?_, ?_, ?_, ?_, ?_⟩
  · simp only [updateStats, writeData, writeMetaData, dataBytes_concat, List.length_append]
    omega
  · simp only [updateStats, writeData, writeMetaData, List.length_append, List.length_singleton]
    omega
  · simp only [updateStats, writeData, writeMetaData]
    omega
  · simp only [updateStats, writeData, writeMetaData]
    rw [dataBytes_concat, List.length_append, Memory.read_add, ← hdata,
      Memory.read_write rfl, Memory.read_write_of_le (by omega),
      Memory.read_write_of_le (by omega), h.data]
  · simp only [updateStats, writeData, writeMetaData]
    have hlen : 4 * (groups ++ [g]).length = metaSize + 4 * groups.length := by
      simp only [List.length_append, List.length_singleton]
      omega
    have hnext : c.metadataPtr - metaSize + metaSize = c.metadataPtr := by omega
    rw [hlen, Memory.read_add, hnext, Memory.read_write_of_ge (by omega),
      Memory.read_write (hentry _), Memory.read_write_of_ge (by omega),
      Memory.read_write_of_ge (by rw [hentry]; omega), h.table, table_concat, hdata]
  · simp only [updateStats, writeData, writeMetaData, rowCount_concat, h.count]

/-! ## Every group fits -/

def maxGroupSize (type : IntegralType) : Nat := (metadataGroupSize + 3) * type.width.bytes

def AdmitsGroup (type : IntegralType) (blockSize : Nat) : Prop :=
  alignValue (maxGroupSize type) 8 + metaSize + 8 + headerSize ≤ blockSize

/-- The check in `BitpackingAnalyze` is a safe one. -/
theorem admitsGroup_of_analyze (h : type.width.bytes * metadataGroupSize * 2 ≤ blockSize) :
    AdmitsGroup type blockSize := by
  unfold AdmitsGroup maxGroupSize alignValue
  cases hw : type.width <;>
    simp only [hw, IntWidth.bytes, metadataGroupSize, metaSize, headerSize] at h ⊢ <;> omega

theorem length_header_le (w : BitpackingWrite type) :
    w.header.length ≤ 3 * type.width.bytes := by
  cases w <;> simp [BitpackingWrite.header] <;> omega

theorem length_payload_le {w : BitpackingWrite type} {count : Nat} (hw : w.width ≤ type.bits)
    (hcount : count ≤ metadataGroupSize) :
    (w.payload kernel count).length ≤ metadataGroupSize * type.width.bytes := by
  have hgroups : algorithmGroups count ≤ 64 := by
    simp only [metadataGroupSize] at hcount
    simp only [algorithmGroups, algorithmGroupSize]
    split <;> omega
  have hpack : ∀ (src : Nat → BitVec type.bits) {width : Nat}, width ≤ type.bits →
      (packBuffer kernel src count width).length ≤ metadataGroupSize * type.width.bytes := by
    intro src width hwidth
    rw [length_packBuffer kernel src count hwidth, getRequiredSize_eq]
    calc 4 * width * algorithmGroups count ≤ 4 * type.bits * 64 :=
          Nat.mul_le_mul (Nat.mul_le_mul_left 4 hwidth) hgroups
      _ = metadataGroupSize * type.width.bytes := by
          simp only [IntegralType.bits, metadataGroupSize]
          omega
  cases w with
  | writeConstant constant => exact Nat.zero_le _
  | writeConstantDelta constant frame => exact Nat.zero_le _
  | writeDeltaFor values width frame offset => exact hpack (fun i => type.toBits (values i)) hw
  | writeFor values width frame => exact hpack (fun i => type.toBits (values i)) hw

theorem length_bytes_le {g : WrittenGroup type} (hw : g.call.width ≤ type.bits)
    (hcount : g.rows.length ≤ metadataGroupSize) :
    (g.bytes kernel).length ≤ maxGroupSize type := by
  have hheader := length_header_le g.call
  have hpayload : (g.call.payload kernel g.rows.length).length ≤ _ := length_payload_le hw hcount
  rw [WrittenGroup.bytes, BitpackingWrite.bytes, List.length_append, maxGroupSize, Nat.add_mul]
  omega

theorem alignValue_mono {m n : Nat} (h : m ≤ n) : alignValue m 8 ≤ alignValue n 8 := by
  unfold alignValue
  omega

/-- A group is written to the current segment or to a new one, and the writer does not fail. -/
theorem write_ok (h : Layout kernel blockSize c groups) (hblock : blockSize ≤ 2 ^ 24)
    (hadmits : AdmitsGroup type blockSize) {g : WrittenGroup type}
    (hw : g.call.width ≤ type.bits) (hcount : g.rows.length ≤ metadataGroupSize) :
    ∃ c', bitpackingWriter kernel blockSize fresh g.call g.rows.length c = .ok c' ∧
      (c'.segments = c.segments ∧ Layout kernel blockSize c' (groups ++ [g]) ∨
        ∃ segment, SegmentHolds kernel segment groups ∧
          c'.segments = c.segments ++ [segment] ∧ Layout kernel blockSize c' [g]) := by
  have hlen : (g.bytes kernel).length ≤ maxGroupSize type := length_bytes_le hw hcount
  have hbytes : g.call.bytes kernel g.rows.length = g.bytes kernel := rfl
  simp only [AdmitsGroup, headerSize] at hadmits
  rw [bitpackingWriter_eq kernel blockSize fresh g.call g.rows.length c hw, hbytes]
  by_cases hfit : c.canStore blockSize (g.bytes kernel).length metaSize = true
  · have hreserve : c.reserveSpace blockSize fresh (g.bytes kernel).length = .ok c := by
      rw [reserveSpace, flushAndCreateSegmentIfFull, if_neg (by simpa using hfit)]
    rw [hreserve]
    exact ⟨_, rfl, Or.inl ⟨rfl, h.write g hfit⟩⟩
  · obtain ⟨segment, hholds, hflush⟩ := flushSegment_ok h hblock
    let next := createEmptySegment blockSize fresh { c with segments := c.segments ++ [segment] }
    have hreserve : c.reserveSpace blockSize fresh (g.bytes kernel).length = .ok next := by
      rw [reserveSpace, flushAndCreateSegmentIfFull, if_pos (by simpa using hfit), hflush]
      rfl
    have hlayout : Layout kernel blockSize next [] := createEmptySegment_layout (by omega) _
    have hempty : next.canStore blockSize (g.bytes kernel).length metaSize = true := by
      have hmono := alignValue_mono hlen
      have hdata : next.dataPtr = 8 := rfl
      have hmeta : next.metadataPtr = blockSize := rfl
      rw [hlayout.canStore_iff]
      omega
    rw [hreserve]
    exact ⟨_, rfl, Or.inr ⟨segment, hholds, rfl, hlayout.write g hempty⟩⟩

end

end MiniDuck
