import MiniDuck.ValidityMask

/-!
# Buffers of fixed-size segments

A `FixedSizeBuffer` marks its free segments by the valid bits of a mask.
`allocateSegment` takes the segment behind the allocated ones if that is free,
and otherwise searches the mask for a word with a free bit and narrows this
bit down by halves (`firstValidBit_spec`). On a buffer that is not full it
finds a free segment (`allocateSegment_spec`).
-/

namespace MiniDuck

/-! ## Index pointers -/

/-- `IndexPointer`: 32 bits of buffer id, 24 of offset, 8 of metadata. -/
structure IndexPointer where
  data : Nat
  deriving DecidableEq, Repr

namespace IndexPointer

def make (bufferId offset : Nat) : IndexPointer :=
  ⟨offset % 2 ^ 32 * 2 ^ 32 + bufferId % 2 ^ 32⟩

def getBufferId (p : IndexPointer) : Nat := p.data % 2 ^ 32

def getOffset (p : IndexPointer) : Nat := p.data / 2 ^ 32 % 2 ^ 24

/-- `IncreaseBufferId`: the summand is added to all 64 bits. -/
def increaseBufferId (p : IndexPointer) (summand : Nat) : IndexPointer :=
  ⟨(p.data + summand) % 2 ^ 64⟩

theorem getBufferId_make {bufferId : Nat} (offset : Nat) (h : bufferId < 2 ^ 32) :
    (make bufferId offset).getBufferId = bufferId := by
  simp only [make, getBufferId]
  omega

theorem getOffset_make (bufferId : Nat) {offset : Nat} (h : offset < 2 ^ 24) :
    (make bufferId offset).getOffset = offset := by
  simp only [make, getOffset]
  omega

theorem increaseBufferId_make {bufferId summand : Nat} (offset : Nat)
    (h : bufferId + summand < 2 ^ 32) :
    (make bufferId offset).increaseBufferId summand = make (bufferId + summand) offset := by
  simp only [make, increaseBufferId, mk.injEq]
  omega

theorem make_inj {b b' o o' : Nat} (hb : b < 2 ^ 32) (hb' : b' < 2 ^ 32) (ho : o < 2 ^ 24)
    (ho' : o' < 2 ^ 24) (h : make b o = make b' o') : b = b' ∧ o = o' := by
  have hid := congrArg getBufferId h
  have hoff := congrArg getOffset h
  rw [getBufferId_make o hb, getBufferId_make o' hb'] at hid
  rw [getOffset_make b ho, getOffset_make b' ho'] at hoff
  exact ⟨hid, hoff⟩

end IndexPointer

/-! ## Layout -/

/-- What the constructor of an allocator computes. Every 64 segments have a
word of the mask, and a block has at most `2 ^ 18` bytes. A buffer of a single
segment would be full and empty at once to `Free`. -/
structure SegmentLayout where
  blockSize : Nat
  bitmaskCount : Nat
  availableSegmentsPerBuffer : Nat
  two_le : 2 ≤ availableSegmentsPerBuffer
  fits_mask : availableSegmentsPerBuffer ≤ ValidityMask.bitsPerValue * bitmaskCount
  fits_pointer : availableSegmentsPerBuffer ≤ 2 ^ 24

/-- `FixedSizeBuffer`, with the contents of its segments. -/
structure FixedSizeBuffer (σ : Type) where
  segmentCount : Nat
  mask : Nat → Bool
  inMemory : Bool
  vacuum : Bool
  data : Nat → σ

namespace FixedSizeBuffer

/-! ## Finding a free bit -/

def base : List Nat := [0xFFFFFFFF, 0xFFFF, 0xFF, 0xF, 0x3, 0x1]

def shift : List Nat := [32, 16, 8, 4, 2, 1]

/-- One level of the search: the entry and the position so far. -/
def narrow (s : Nat × Nat) (level : Nat × Nat) : Nat × Nat :=
  if s.1 &&& level.1 ≠ 0 then (s.1 &&& level.1, s.2)
  else (s.1 >>> level.2, s.2 + level.2)

def firstValidBit (entry : Nat) : Nat := ((base.zip shift).foldl narrow (entry, 0)).2

/-- The search has come down to `width` bits. -/
structure NarrowInv (entry width : Nat) (s : Nat × Nat) : Prop where
  ne_zero : s.1 ≠ 0
  lt : s.1 < 2 ^ width
  le : s.2 + width ≤ 64
  bit : ∀ k, s.1.testBit k = true → entry.testBit (s.2 + k) = true

theorem NarrowInv.step {entry : Nat} {s : Nat × Nat} (half : Nat)
    (h : NarrowInv entry (2 * half) s) : NarrowInv entry half (narrow s (2 ^ half - 1, half)) := by
  have hle := h.le
  rw [narrow, Nat.and_two_pow_sub_one_eq_mod]
  split_ifs with hlow
  · refine ⟨hlow, Nat.mod_lt _ (by positivity), by omega, fun k hk => h.bit k ?_⟩
    rw [Nat.testBit_mod_two_pow] at hk
    exact (Bool.and_eq_true_iff.1 hk).2
  · have hzero : s.1 % 2 ^ half = 0 := not_not.1 hlow
    refine ⟨?_, ?_, by omega, fun k hk => ?_⟩
    · intro hdiv
      have hdiv : s.1 / 2 ^ half = 0 := by rwa [← Nat.shiftRight_eq_div_pow]
      have := Nat.div_add_mod s.1 (2 ^ half)
      rw [hdiv, hzero] at this
      exact h.ne_zero (by omega)
    · rw [Nat.shiftRight_eq_div_pow]
      have hlt := h.lt
      rw [Nat.two_mul, pow_add] at hlt
      exact Nat.div_lt_of_lt_mul hlt
    · rw [Nat.testBit_shiftRight] at hk
      rw [Nat.add_assoc]
      exact h.bit _ hk

theorem firstValidBit_spec {entry : Nat} (hne : entry ≠ 0) (hlt : entry < 2 ^ 64) :
    firstValidBit entry < 64 ∧ entry.testBit (firstValidBit entry) = true := by
  have h0 : NarrowInv entry (2 * 32) (entry, 0) :=
    ⟨hne, hlt, le_rfl, fun k hk => by rwa [Nat.zero_add]⟩
  have h := h0.step 32 |>.step 16 |>.step 8 |>.step 4 |>.step 2 |>.step 1
  have hlast : NarrowInv entry 1 ((base.zip shift).foldl narrow (entry, 0)) := h
  have hone : ((base.zip shift).foldl narrow (entry, 0)).1 = 1 := by
    have := hlast.lt
    have := hlast.ne_zero
    omega
  have hbit := hlast.bit 0 (by rw [hone]; rfl)
  have := hlast.le
  exact ⟨by rw [firstValidBit]; omega, hbit⟩

/-! ## Allocating and freeing -/

variable {σ : Type}

def usedCount (mask : Nat → Bool) (available : Nat) : Nat :=
  (List.range available).countP fun k => !mask k

/-- Takes the segment at `offset`. -/
def take (buffer : FixedSizeBuffer σ) (offset : Nat) : FixedSizeBuffer σ :=
  { buffer with
    segmentCount := buffer.segmentCount + 1
    mask := Function.update buffer.mask offset false
    inMemory := true }

def invalidBitmask : String := "Invalid bitmask for FixedSizeAllocator"

/-- `AllocateSegment`, with the offset it returns. -/
def allocateSegment (layout : SegmentLayout) (buffer : FixedSizeBuffer σ) :
    Except String (FixedSizeBuffer σ × Nat) :=
  -- fill up a buffer sequentially before searching for free bits
  if buffer.mask buffer.segmentCount then
    .ok (buffer.take buffer.segmentCount, buffer.segmentCount)
  else
    match (List.range layout.bitmaskCount).find? fun entryIdx =>
        ValidityMask.getValidityEntry buffer.mask entryIdx ≠ 0 with
    | none => .error invalidBitmask
    | some entryIdx =>
        let offset := entryIdx * ValidityMask.bitsPerValue +
          firstValidBit (ValidityMask.getValidityEntry buffer.mask entryIdx)
        .ok (buffer.take offset, offset)

def freeSegment (buffer : FixedSizeBuffer σ) (offset : Nat) : FixedSizeBuffer σ :=
  { buffer with
    segmentCount := buffer.segmentCount - 1
    mask := Function.update buffer.mask offset true
    inMemory := true }

/-- The count of a buffer and its mask agree; bits behind the last segment
are not valid. -/
structure Counted (layout : SegmentLayout) (buffer : FixedSizeBuffer σ) : Prop where
  count : buffer.segmentCount = usedCount buffer.mask layout.availableSegmentsPerBuffer
  beyond : ∀ k, layout.availableSegmentsPerBuffer ≤ k → buffer.mask k = false

theorem usedCount_succ (mask : Nat → Bool) (n : Nat) :
    usedCount mask (n + 1) = usedCount mask n + if mask n = true then 0 else 1 := by
  rw [usedCount, List.range_succ, List.countP_append]
  by_cases h : mask n = true <;> simp [usedCount, h]

variable {mask : Nat → Bool}

theorem usedCount_congr {mask' : Nat → Bool} {n : Nat} (h : ∀ k < n, mask k = mask' k) :
    usedCount mask n = usedCount mask' n :=
  List.countP_congr fun k hk => by rw [h k (List.mem_range.1 hk)]

theorem usedCount_le (mask : Nat → Bool) (n : Nat) : usedCount mask n ≤ n := by
  have := List.countP_le_length (p := fun k => !mask k) (l := List.range n)
  rwa [List.length_range] at this

theorem usedCount_take {m : Nat → Bool} {k : Nat} (hfree : m k = true) :
    (n : Nat) → k < n → usedCount (Function.update m k false) n = usedCount m n + 1
  | n + 1, hk => by
      rw [usedCount_succ, usedCount_succ]
      rcases Nat.lt_succ_iff_lt_or_eq.1 hk with hlt | rfl
      · rw [usedCount_take hfree n hlt, Function.update_of_ne hlt.ne']
        omega
      · have hsame : usedCount (Function.update m k false) k = usedCount m k :=
          usedCount_congr fun j hj => Function.update_of_ne hj.ne _ _
        simp [hsame, hfree]

theorem usedCount_free {k n : Nat} (hused : mask k = false) (hk : k < n) :
    usedCount mask n = usedCount (Function.update mask k true) n + 1 := by
  have h := usedCount_take (m := Function.update mask k true) (Function.update_self k true mask)
    n hk
  rwa [Function.update_idem, ← hused, Function.update_eq_self] at h

theorem exists_free {n : Nat} (h : usedCount mask n < n) : ∃ k < n, mask k = true := by
  by_contra hnone
  have hall : usedCount mask n = (List.range n).length :=
    List.countP_eq_length.2 fun k hk => by
      cases hm : mask k with
      | false => rfl
      | true => exact absurd ⟨k, List.mem_range.1 hk, hm⟩ hnone
  rw [hall, List.length_range] at h
  exact lt_irrefl n h

variable {layout : SegmentLayout} {buffer : FixedSizeBuffer σ}

theorem Counted.take (h : Counted layout buffer) {offset : Nat} (hfree : buffer.mask offset = true)
    (hlt : offset < layout.availableSegmentsPerBuffer) : Counted layout (buffer.take offset) := by
  refine ⟨?_, fun k hk => ?_⟩
  · show buffer.segmentCount + 1 = _
    rw [h.count]
    exact (usedCount_take hfree _ hlt).symm
  · show Function.update buffer.mask offset false k = false
    rw [Function.update_of_ne (by omega)]
    exact h.beyond k hk

theorem Counted.freeSegment (h : Counted layout buffer) {offset : Nat}
    (hused : buffer.mask offset = false) (hlt : offset < layout.availableSegmentsPerBuffer) :
    Counted layout (buffer.freeSegment offset) ∧
      buffer.segmentCount = (buffer.freeSegment offset).segmentCount + 1 := by
  have hcount := usedCount_free hused hlt
  rw [← h.count] at hcount
  refine ⟨⟨?_, fun k hk => ?_⟩, ?_⟩
  · show buffer.segmentCount - 1 = usedCount (Function.update buffer.mask offset true) _
    omega
  · show Function.update buffer.mask offset true k = false
    rw [Function.update_of_ne (by omega)]
    exact h.beyond k hk
  · show buffer.segmentCount = buffer.segmentCount - 1 + 1
    omega

theorem Counted.lt_of_free (h : Counted layout buffer) {k : Nat} (hfree : buffer.mask k = true) :
    k < layout.availableSegmentsPerBuffer := by
  by_contra hk
  rw [h.beyond k (not_lt.1 hk)] at hfree
  exact absurd hfree (by decide)

/-- On a buffer that is not full, a free segment is found. -/
theorem allocateSegment_spec (h : Counted layout buffer)
    (hlt : buffer.segmentCount < layout.availableSegmentsPerBuffer) :
    ∃ offset, buffer.mask offset = true ∧ offset < layout.availableSegmentsPerBuffer ∧
      buffer.allocateSegment layout = .ok (buffer.take offset, offset) := by
  rw [allocateSegment]
  by_cases hnext : buffer.mask buffer.segmentCount = true
  · rw [if_pos hnext]
    exact ⟨buffer.segmentCount, hnext, hlt, rfl⟩
  rw [if_neg hnext]
  cases hfind : (List.range layout.bitmaskCount).find? fun entryIdx =>
      ValidityMask.getValidityEntry buffer.mask entryIdx ≠ 0 with
  | none =>
      exfalso
      obtain ⟨k, hk, hfree⟩ := exists_free (h.count ▸ hlt)
      have hfits := layout.fits_mask
      have hentry : k / ValidityMask.bitsPerValue < layout.bitmaskCount :=
        Nat.div_lt_of_lt_mul (by omega)
      have hzero := List.find?_eq_none.1 hfind _ (List.mem_range.2 hentry)
      have hzero : ValidityMask.getValidityEntry buffer.mask (k / ValidityMask.bitsPerValue) = 0 := by
        simpa using hzero
      have hbit := ValidityMask.testBit_getValidityEntry buffer.mask
        (k / ValidityMask.bitsPerValue) (k % ValidityMask.bitsPerValue)
      rw [hzero, Nat.zero_testBit, Nat.mul_comm, Nat.div_add_mod, hfree, Bool.and_true] at hbit
      exact absurd hbit.symm (by simp [Nat.mod_lt, ValidityMask.bitsPerValue])
  | some entryIdx =>
      have hne : ValidityMask.getValidityEntry buffer.mask entryIdx ≠ 0 := by
        have := List.find?_some (p := fun entryIdx =>
          decide (ValidityMask.getValidityEntry buffer.mask entryIdx ≠ 0)) hfind
        simpa using this
      obtain ⟨hpos, hbit⟩ := firstValidBit_spec hne
        (ValidityMask.getValidityEntry_lt buffer.mask entryIdx)
      rw [ValidityMask.testBit_getValidityEntry] at hbit
      have hfree := (Bool.and_eq_true_iff.1 hbit).2
      exact ⟨_, hfree, h.lt_of_free hfree, rfl⟩

end FixedSizeBuffer

end MiniDuck
