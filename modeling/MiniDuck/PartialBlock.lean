import MiniDuck.ByteBits
import MiniDuck.ByteMemory

/-!
# Partial blocks

A block that several segments are written into, one behind the other.
`PartialBlock.Holds` says that the block has the data of its segments
below some offset, apart from each other and from the gaps that are
cleared later; writing, registering and merging keep it
(`Holds.writeSegment`, `Holds.align`, `Holds.merge`), and flushing clears
nothing of the segments if it clears no more than the end of the block
(`Holds.not_zeroes`, `Holds.flushInternal`).
-/

namespace MiniDuck

namespace PartialBlocks

def alignValue (n : Nat) : Nat := (n + 7) / 8 * 8

/-- A segment at its offset in a block. -/
structure PlacedSegment where
  offset : Nat
  data : List Byte

def PlacedSegment.stop (s : PlacedSegment) : Nat := s.offset + s.data.length

/-- The block id and its references belong to the block manager and are left out. -/
structure PartialBlockState where
  blockSize : Nat
  /-- The next offset to allocate. -/
  offset : Nat
  blockUseCount : Nat

structure UninitializedRegion where
  start : Nat
  stop : Nat

/-- `PartialBlockForCheckpoint`. The handle stands for the buffer, and tells blocks apart. -/
structure PartialBlock where
  handle : Nat
  state : PartialBlockState
  uninitializedRegions : List UninitializedRegion
  segments : List PlacedSegment
  buffer : Memory Byte

/-- `memset` to zero -/
def memset (m : Memory Byte) (pos n : Nat) : Memory Byte :=
  fun i => if pos ≤ i ∧ i < pos + n then 0 else m i

namespace PartialBlock

variable (b : PartialBlock)

/-- `CreatePartialBlock`, in the buffer of the first segment. -/
def create (handle : Nat) (state : PartialBlockState) (data : List Byte) (rest : Memory Byte) :
    PartialBlock :=
  { handle, state
    uninitializedRegions := []
    segments := [⟨0, data⟩]
    buffer := rest.write 0 data }

def writeSegment (offset : Nat) (data : List Byte) : PartialBlock :=
  { b with
    segments := b.segments ++ [⟨offset, data⟩]
    buffer := b.buffer.write offset data }

def addUninitializedRegion (start stop : Nat) : PartialBlock :=
  { b with uninitializedRegions := b.uninitializedRegions ++ [⟨start, stop⟩] }

def merge (other : PartialBlock) (offset otherSize : Nat) : PartialBlock :=
  { b with
    buffer := b.buffer.write offset (other.buffer.read 0 otherSize)
    uninitializedRegions := b.uninitializedRegions ++
      other.uninitializedRegions.map fun r => ⟨r.start + offset, r.stop + offset⟩
    segments := b.segments ++ other.segments.map fun s => ⟨s.offset + offset, s.data⟩ }

/-- `PartialBlock::FlushInternal`: the buffer that is written to disk. -/
def flushInternal (blockSize freeSpaceLeft : Nat) : Memory Byte :=
  if freeSpaceLeft > 0 ∨ b.uninitializedRegions ≠ [] then
    let buffer := b.uninitializedRegions.foldl
      (fun buffer r => memset buffer r.start (r.stop - r.start)) b.buffer
    memset buffer (blockSize - freeSpaceLeft) freeSpaceLeft
  else b.buffer

/-! ## What a block holds -/

/-- The segments are apart and in order, at aligned offsets below `used`, with their data in the
buffer, and no gap has a byte of one. The last of them ends at `used`, up to the alignment. -/
structure Holds (used : Nat) : Prop where
  ordered : b.segments.Pairwise fun s t => s.stop ≤ t.offset
  aligned : ∀ s ∈ b.segments, s.offset % 8 = 0
  inside : ∀ s ∈ b.segments, s.stop ≤ used
  stored : ∀ s ∈ b.segments, b.buffer.read s.offset s.data.length = s.data
  gaps : ∀ r ∈ b.uninitializedRegions, r.stop ≤ used ∧
    ∀ s ∈ b.segments, r.stop ≤ s.offset ∨ s.stop ≤ r.start ∨ r.stop ≤ r.start
  last : ∃ s, b.segments.getLast? = some s ∧ alignValue s.stop = alignValue used

variable {b}

theorem le_alignValue (n : Nat) : n ≤ alignValue n := by
  rw [alignValue]
  omega

theorem alignValue_mod (n : Nat) : alignValue n % 8 = 0 := Nat.mul_mod_left _ 8

theorem alignValue_of_mod {n : Nat} (h : n % 8 = 0) : alignValue n = n := by
  rw [alignValue]
  omega

theorem alignValue_le {n m : Nat} (hm : m % 8 = 0) (h : n ≤ m) : alignValue n ≤ m := by
  rw [alignValue]
  omega

theorem alignValue_add {n m : Nat} (hm : m % 8 = 0) : alignValue (n + m) = alignValue n + m := by
  rw [alignValue, alignValue]
  omega

theorem Holds.of_state {used : Nat} (h : b.Holds used) (state : PartialBlockState) :
    ({ b with state := state } : PartialBlock).Holds used :=
  ⟨h.ordered, h.aligned, h.inside, h.stored, h.gaps, h.last⟩

theorem holds_create (handle : Nat) (state : PartialBlockState) (data : List Byte)
    (rest : Memory Byte) : (create handle state data rest).Holds data.length := by
  refine ⟨List.pairwise_singleton _ _, ?_, ?_, ?_, fun r hr => absurd hr List.not_mem_nil,
    ⟨⟨0, data⟩, rfl, ?_⟩⟩
  · intro s hs
    rw [List.mem_singleton.mp hs]
    rfl
  · intro s hs
    rw [List.mem_singleton.mp hs, PlacedSegment.stop, Nat.zero_add]
  · intro s hs
    rw [List.mem_singleton.mp hs]
    show (rest.write 0 data).read 0 data.length = data
    exact Memory.read_write rfl
  · rw [PlacedSegment.stop, Nat.zero_add]

theorem Holds.writeSegment {offset : Nat} (h : b.Holds offset) (haligned : offset % 8 = 0)
    (data : List Byte) : (b.writeSegment offset data).Holds (offset + data.length) := by
  refine ⟨?_, ?_, ?_, ?_, ?_, ⟨⟨offset, data⟩, by simp [PartialBlock.writeSegment], rfl⟩⟩
  · refine List.pairwise_append.mpr ⟨h.ordered, List.pairwise_singleton _ _, ?_⟩
    intro s hs t ht
    rw [List.mem_singleton.mp ht]
    exact h.inside s hs
  · intro s hs
    obtain hs | hs := List.mem_append.mp hs
    · exact h.aligned s hs
    · rwa [List.mem_singleton.mp hs]
  · intro s hs
    obtain hs | hs := List.mem_append.mp hs
    · exact (h.inside s hs).trans (Nat.le_add_right _ _)
    · rw [List.mem_singleton.mp hs]
      exact le_rfl
  · intro s hs
    obtain hs | hs := List.mem_append.mp hs
    · show (b.buffer.write offset data).read s.offset s.data.length = s.data
      rw [Memory.read_write_of_le (h.inside s hs)]
      exact h.stored s hs
    · rw [List.mem_singleton.mp hs]
      exact Memory.read_write rfl
  · intro r hr
    obtain ⟨hstop, hsegments⟩ := h.gaps r hr
    refine ⟨hstop.trans (Nat.le_add_right _ _), fun s hs => ?_⟩
    obtain hs | hs := List.mem_append.mp hs
    · exact hsegments s hs
    · rw [List.mem_singleton.mp hs]
      exact Or.inl hstop

theorem Holds.align {used : Nat} (h : b.Holds used) :
    (b.addUninitializedRegion used (alignValue used)).Holds (alignValue used) ∧
      b.Holds (alignValue used) := by
  have hle := le_alignValue used
  obtain ⟨s, hs, hlast⟩ := h.last
  have hlast' : ∃ s, b.segments.getLast? = some s ∧
      alignValue s.stop = alignValue (alignValue used) :=
    ⟨s, hs, by rw [hlast, alignValue_of_mod (alignValue_mod used)]⟩
  have hinside : ∀ s ∈ b.segments, s.stop ≤ alignValue used :=
    fun s hs => (h.inside s hs).trans hle
  have hgaps : ∀ r ∈ b.uninitializedRegions, r.stop ≤ alignValue used ∧
      ∀ s ∈ b.segments, r.stop ≤ s.offset ∨ s.stop ≤ r.start ∨ r.stop ≤ r.start :=
    fun r hr => ⟨(h.gaps r hr).1.trans hle, (h.gaps r hr).2⟩
  refine ⟨⟨h.ordered, h.aligned, hinside, h.stored, fun r hr => ?_, hlast'⟩,
    ⟨h.ordered, h.aligned, hinside, h.stored, hgaps, hlast'⟩⟩
  obtain hr | hr := List.mem_append.mp hr
  · exact hgaps r hr
  · rw [List.mem_singleton.mp hr]
    exact ⟨le_rfl, fun s hs => Or.inr (Or.inl (h.inside s hs))⟩

theorem Holds.merge {other : PartialBlock} {offset otherSize : Nat} (h : b.Holds offset)
    (hother : other.Holds otherSize) (haligned : offset % 8 = 0) :
    (b.merge other offset otherSize).Holds (offset + otherSize) := by
  have hlength : (other.buffer.read 0 otherSize).length = otherSize := Memory.length_read _ _ _
  refine ⟨?_, ?_, ?_, ?_, ?_, ?_⟩
  · refine List.pairwise_append.mpr ⟨h.ordered, ?_, ?_⟩
    · refine List.pairwise_map.mpr (hother.ordered.imp fun {s t} hst => ?_)
      rw [PlacedSegment.stop] at hst ⊢
      dsimp only
      omega
    · intro s hs t ht
      obtain ⟨u, -, rfl⟩ := List.mem_map.mp ht
      exact (h.inside s hs).trans (Nat.le_add_left _ _)
  · intro s hs
    obtain hs | hs := List.mem_append.mp hs
    · exact h.aligned s hs
    · obtain ⟨u, hu, rfl⟩ := List.mem_map.mp hs
      have hu' := hother.aligned u hu
      dsimp only
      omega
  · intro s hs
    obtain hs | hs := List.mem_append.mp hs
    · exact (h.inside s hs).trans (Nat.le_add_right _ _)
    · obtain ⟨u, hu, rfl⟩ := List.mem_map.mp hs
      have hu' := hother.inside u hu
      rw [PlacedSegment.stop] at hu' ⊢
      dsimp only
      omega
  · intro s hs
    obtain hs | hs := List.mem_append.mp hs
    · show (b.buffer.write offset (other.buffer.read 0 otherSize)).read s.offset s.data.length =
        s.data
      rw [Memory.read_write_of_le (h.inside s hs)]
      exact h.stored s hs
    · obtain ⟨u, hu, rfl⟩ := List.mem_map.mp hs
      have hstop := hother.inside u hu
      rw [PlacedSegment.stop] at hstop
      -- the part of the copied bytes that the segment has
      have hcopy : (b.buffer.write offset (other.buffer.read 0 otherSize)).read offset otherSize =
          other.buffer.read 0 otherSize := Memory.read_write hlength
      have hpart : (b.buffer.write offset (other.buffer.read 0 otherSize)).read
          (offset + u.offset) u.data.length =
            (((b.buffer.write offset (other.buffer.read 0 otherSize)).read offset
              otherSize).drop u.offset).take u.data.length := Memory.read_sub hstop
      have hpart' : other.buffer.read (0 + u.offset) u.data.length =
          ((other.buffer.read 0 otherSize).drop u.offset).take u.data.length :=
        Memory.read_sub hstop
      rw [Nat.zero_add, hother.stored u hu] at hpart'
      rw [hcopy, ← hpart', Nat.add_comm] at hpart
      exact hpart
  · intro r hr
    obtain hr | hr := List.mem_append.mp hr
    · obtain ⟨hstop, hsegments⟩ := h.gaps r hr
      refine ⟨hstop.trans (Nat.le_add_right _ _), fun s hs => ?_⟩
      obtain hs | hs := List.mem_append.mp hs
      · exact hsegments s hs
      · obtain ⟨u, -, rfl⟩ := List.mem_map.mp hs
        exact Or.inl (hstop.trans (Nat.le_add_left _ _))
    · obtain ⟨q, hq, rfl⟩ := List.mem_map.mp hr
      obtain ⟨hstop, hsegments⟩ := hother.gaps q hq
      refine ⟨by dsimp only; omega, fun s hs => ?_⟩
      obtain hs | hs := List.mem_append.mp hs
      · exact Or.inr (Or.inl ((h.inside s hs).trans (Nat.le_add_left _ _)))
      · obtain ⟨u, hu, rfl⟩ := List.mem_map.mp hs
        have hapart := hsegments u hu
        rw [PlacedSegment.stop] at hapart ⊢
        dsimp only
        omega
  · obtain ⟨s, hs, hlast⟩ := hother.last
    refine ⟨⟨s.offset + offset, s.data⟩, ?_, ?_⟩
    · simp [PartialBlock.merge, List.getLast?_append, List.getLast?_map, hs]
    · have hstop : PlacedSegment.stop ⟨s.offset + offset, s.data⟩ = s.stop + offset := by
        rw [PlacedSegment.stop, PlacedSegment.stop]
        dsimp only
        omega
      rw [hstop, alignValue_add haligned, hlast, Nat.add_comm offset, alignValue_add haligned]

/-! ## Flushing -/

/-- The bytes that `FlushInternal` clears: the gaps and the free space. -/
def Zeroes (b : PartialBlock) (blockSize freeSpaceLeft pos : Nat) : Prop :=
  (∃ r ∈ b.uninitializedRegions, r.start ≤ pos ∧ pos < r.stop) ∨
    (blockSize - freeSpaceLeft ≤ pos ∧ pos < blockSize - freeSpaceLeft + freeSpaceLeft)

variable {freeSpaceLeft : Nat}

theorem flushInternal_of_not_zeroes {blockSize pos : Nat}
    (h : ¬b.Zeroes blockSize freeSpaceLeft pos) :
    b.flushInternal blockSize freeSpaceLeft pos = b.buffer pos := by
  rw [Zeroes, not_or] at h
  have hregions : ∀ (regions : List UninitializedRegion) (m : Memory Byte),
      (∀ r ∈ regions, r ∈ b.uninitializedRegions) →
      regions.foldl (fun buffer r => memset buffer r.start (r.stop - r.start)) m pos = m pos := by
    intro regions
    induction regions with
    | nil => exact fun _ _ => rfl
    | cons r regions ih =>
        intro m hmem
        have hpos : ¬(r.start ≤ pos ∧ pos < r.start + (r.stop - r.start)) := fun hpos =>
          h.1 ⟨r, hmem r List.mem_cons_self, hpos.1, by omega⟩
        rw [List.foldl_cons, ih _ fun q hq => hmem q (List.mem_cons_of_mem r hq)]
        exact if_neg hpos
  rw [flushInternal]
  split_ifs
  · refine (if_neg h.2).trans ?_
    exact hregions _ _ fun r hr => hr
  · rfl

theorem Holds.not_zeroes {used blockSize : Nat} (h : b.Holds used)
    (hused : used ≤ blockSize - freeSpaceLeft) {s : PlacedSegment} (hs : s ∈ b.segments) {pos : Nat}
    (hle : s.offset ≤ pos) (hlt : pos < s.stop) : ¬b.Zeroes blockSize freeSpaceLeft pos := by
  rintro (⟨r, hr, hstart, hstop⟩ | ⟨hfree, -⟩)
  · have hapart := (h.gaps r hr).2 s hs
    omega
  · have hinside := h.inside s hs
    omega

theorem Holds.flushInternal {used blockSize : Nat} (h : b.Holds used)
    (hused : used ≤ blockSize - freeSpaceLeft) {s : PlacedSegment} (hs : s ∈ b.segments) :
    (b.flushInternal blockSize freeSpaceLeft).read s.offset s.data.length = s.data := by
  refine (Memory.read_congr fun pos hle hlt => ?_).trans (h.stored s hs)
  exact flushInternal_of_not_zeroes (h.not_zeroes hused hs hle hlt)

end PartialBlock

end PartialBlocks

end MiniDuck
