import MiniDuck.BitField
import MiniDuck.BitMemory
import MiniDuck.ValidityMask

/-!
# Scanning validity bits

`UnalignedScan` copies a run of bits from the entries of a segment to the
mask of a result, a window of one input entry and one result entry at a
time. A round keeps what has been copied (`ScanState.Copied.scanWindow`),
so the scan clears the bits of its range whose input bit is clear and no
others (`unalignedScan_rows`). `AlignedScan` copies whole entries
(`alignedScan_rows`).
-/

namespace MiniDuck

namespace ValiditySegments

open ValidityMask (entryCount bitsPerValue)

/-- `validity_t` -/
abbrev Entry := BitVec 64

def maxEntry : Entry := BitVec.allOnes 64

def lowerMasks : List Entry :=
  [0x0, 0x1, 0x3, 0x7, 0xf, 0x1f, 0x3f, 0x7f, 0xff, 0x1ff, 0x3ff, 0x7ff, 0xfff, 0x1fff, 0x3fff,
   0x7fff, 0xffff, 0x1ffff, 0x3ffff, 0x7ffff, 0xfffff, 0x1fffff, 0x3fffff, 0x7fffff, 0xffffff,
   0x1ffffff, 0x3ffffff, 0x7ffffff, 0xfffffff, 0x1fffffff, 0x3fffffff, 0x7fffffff, 0xffffffff,
   0x1ffffffff, 0x3ffffffff, 0x7ffffffff, 0xfffffffff, 0x1fffffffff, 0x3fffffffff, 0x7fffffffff,
   0xffffffffff, 0x1ffffffffff, 0x3ffffffffff, 0x7ffffffffff, 0xfffffffffff, 0x1fffffffffff,
   0x3fffffffffff, 0x7fffffffffff, 0xffffffffffff, 0x1ffffffffffff, 0x3ffffffffffff,
   0x7ffffffffffff, 0xfffffffffffff, 0x1fffffffffffff, 0x3fffffffffffff, 0x7fffffffffffff,
   0xffffffffffffff, 0x1ffffffffffffff, 0x3ffffffffffffff, 0x7ffffffffffffff, 0xfffffffffffffff,
   0x1fffffffffffffff, 0x3fffffffffffffff, 0x7fffffffffffffff, 0xffffffffffffffff]

def upperMasks : List Entry :=
  [0x0, 0x8000000000000000, 0xc000000000000000, 0xe000000000000000, 0xf000000000000000,
   0xf800000000000000, 0xfc00000000000000, 0xfe00000000000000, 0xff00000000000000,
   0xff80000000000000, 0xffc0000000000000, 0xffe0000000000000, 0xfff0000000000000,
   0xfff8000000000000, 0xfffc000000000000, 0xfffe000000000000, 0xffff000000000000,
   0xffff800000000000, 0xffffc00000000000, 0xffffe00000000000, 0xfffff00000000000,
   0xfffff80000000000, 0xfffffc0000000000, 0xfffffe0000000000, 0xffffff0000000000,
   0xffffff8000000000, 0xffffffc000000000, 0xffffffe000000000, 0xfffffff000000000,
   0xfffffff800000000, 0xfffffffc00000000, 0xfffffffe00000000, 0xffffffff00000000,
   0xffffffff80000000, 0xffffffffc0000000, 0xffffffffe0000000, 0xfffffffff0000000,
   0xfffffffff8000000, 0xfffffffffc000000, 0xfffffffffe000000, 0xffffffffff000000,
   0xffffffffff800000, 0xffffffffffc00000, 0xffffffffffe00000, 0xfffffffffff00000,
   0xfffffffffff80000, 0xfffffffffffc0000, 0xfffffffffffe0000, 0xffffffffffff0000,
   0xffffffffffff8000, 0xffffffffffffc000, 0xffffffffffffe000, 0xfffffffffffff000,
   0xfffffffffffff800, 0xfffffffffffffc00, 0xfffffffffffffe00, 0xffffffffffffff00,
   0xffffffffffffff80, 0xffffffffffffffc0, 0xffffffffffffffe0, 0xfffffffffffffff0,
   0xfffffffffffffff8, 0xfffffffffffffffc, 0xfffffffffffffffe, 0xffffffffffffffff]

/-- `RowIsValid` of an entry. -/
def rowIsValid (entry : Entry) (idxInEntry : Nat) : Bool := BitField.hasFlag entry idxInEntry

/-- A `ValidityMask` for some rows. A mask without data has only valid rows. -/
structure Mask (capacity : Nat) where
  data : Option (Vector Entry (entryCount capacity))

namespace Mask

variable {capacity : Nat} (mask : Mask capacity)

/-- The data after `Initialize`, if there is none yet. -/
def initialized : Vector Entry (entryCount capacity) :=
  mask.data.getD (Vector.replicate _ maxEntry)

def getValidityEntry (entryIdx : Nat) : Entry :=
  match mask.data with
  | none => maxEntry
  | some data => data[entryIdx]?.getD 0

def rowIsValid (rowIdx : Nat) : Bool :=
  ValiditySegments.rowIsValid (mask.getValidityEntry (rowIdx / bitsPerValue))
    (rowIdx % bitsPerValue)

def update (entryIdx : Nat) (f : Entry → Entry) : Option (Mask capacity) :=
  if h : entryIdx < entryCount capacity then
    some ⟨some (mask.initialized.set entryIdx (f mask.initialized[entryIdx]))⟩
  else none

def setInvalid (rowIdx : Nat) : Option (Mask capacity) :=
  mask.update (rowIdx / bitsPerValue) fun entry => entry &&& ~~~(1#64 <<< (rowIdx % bitsPerValue))

/-- Clears the bits of an entry that the input has clear, without touching the data where there are
none. -/
def clear (entryIdx : Nat) (inputMask : Entry) : Option (Mask capacity) :=
  if inputMask ≠ maxEntry then mask.update entryIdx fun entry => entry &&& inputMask
  else some mask

end Mask

/-- Where a scan is: the entries it copies between, with the index of the next bit in each. -/
structure ScanState (capacity : Nat) where
  pos : Nat
  inputEntry : Nat
  inputIdx : Fin 64
  resultEntry : Nat
  resultIdx : Fin 64
  mask : Mask capacity

/-- Lines the window of an input entry up with that of the result entry. -/
def shiftWindow (inputIdx resultIdx : Nat) (inputMask : Entry) : Option Entry :=
  if resultIdx < inputIdx then some (inputMask >>> (inputIdx - resultIdx))
  else
    upperMasks[resultIdx - inputIdx]?.map fun upper =>
      (inputMask &&& ~~~upper) <<< (resultIdx - inputIdx)

/-- Sets the bits outside the window, which are not to change. -/
def protectWindow (resultIdx windowSize : Nat) (inputMask : Entry) : Option Entry :=
  upperMasks[bitsPerValue - resultIdx - windowSize]?.bind fun upper =>
    lowerMasks[resultIdx]?.map fun lower => inputMask ||| upper ||| lower

namespace ScanState

variable {capacity : Nat} (scanCount : Nat) (s : ScanState capacity)

/-- `window_size`: what is left to copy in both entries. -/
def windowSize : Nat :=
  min (min (scanCount - s.pos) (bitsPerValue - s.inputIdx))
    (min (scanCount - s.pos) (bitsPerValue - s.resultIdx))

def advance (mask : Mask capacity) : ScanState capacity :=
  let inputIdx := Fin.ofNat 64 (s.inputIdx + s.windowSize scanCount)
  let resultIdx := Fin.ofNat 64 (s.resultIdx + s.windowSize scanCount)
  { pos := s.pos + s.windowSize scanCount
    inputEntry := if inputIdx = 0 then s.inputEntry + 1 else s.inputEntry
    inputIdx
    resultEntry := if resultIdx = 0 then s.resultEntry + 1 else s.resultEntry
    resultIdx
    mask }

/-- One round of the loop of `UnalignedScan`. -/
def scanWindow (input : List Entry) : Option (ScanState capacity) := do
  let inputMask ← input[s.inputEntry]?
  let inputMask ← shiftWindow s.inputIdx s.resultIdx inputMask
  let inputMask ← protectWindow s.resultIdx (s.windowSize scanCount) inputMask
  let mask ← s.mask.clear s.resultEntry inputMask
  return s.advance scanCount mask

theorem windowSize_pos (h : s.pos < scanCount) : 0 < s.windowSize scanCount := by
  have hinput := s.inputIdx.isLt
  have hresult := s.resultIdx.isLt
  rw [windowSize, bitsPerValue]
  omega

theorem scanWindow_eq_some {input : List Entry} {t : ScanState capacity} :
    s.scanWindow scanCount input = some t ↔
      ∃ entry shifted inputMask mask, input[s.inputEntry]? = some entry ∧
        shiftWindow s.inputIdx s.resultIdx entry = some shifted ∧
        protectWindow s.resultIdx (s.windowSize scanCount) shifted = some inputMask ∧
        s.mask.clear s.resultEntry inputMask = some mask ∧ s.advance scanCount mask = t := by
  simp only [scanWindow, Option.bind_eq_bind, Option.bind_eq_some_iff, Option.pure_def,
    Option.some.injEq]
  constructor
  · rintro ⟨entry, hentry, shifted, hshifted, inputMask, hinput, mask, hmask, rfl⟩
    exact ⟨entry, shifted, inputMask, mask, hentry, hshifted, hinput, hmask, rfl⟩
  · rintro ⟨entry, shifted, inputMask, mask, hentry, hshifted, hinput, hmask, rfl⟩
    exact ⟨entry, hentry, shifted, hshifted, inputMask, hinput, mask, hmask, rfl⟩

theorem scanWindow_pos {input : List Entry} {t : ScanState capacity}
    (h : s.scanWindow scanCount input = some t) : t.pos = s.pos + s.windowSize scanCount := by
  obtain ⟨-, -, -, -, -, -, -, -, rfl⟩ := (scanWindow_eq_some scanCount s).mp h
  rfl

/-- The loop of `UnalignedScan`. -/
def scanWindows (input : List Entry) (s : ScanState capacity) : Option (Mask capacity) :=
  if hpos : s.pos < scanCount then
    match h : s.scanWindow scanCount input with
    | none => none
    | some t =>
        have : scanCount - t.pos < scanCount - s.pos := by
          have hwindow := s.windowSize_pos scanCount hpos
          rw [s.scanWindow_pos scanCount h]
          omega
        scanWindows input t
  else some s.mask
termination_by scanCount - s.pos

end ScanState

/-- `UnalignedScan`; `none` stands for an access out of bounds. -/
def unalignedScan {capacity : Nat} (input : List Entry) (inputStart : Nat)
    (resultMask : Mask capacity) (resultOffset scanCount : Nat) : Option (Mask capacity) :=
  ScanState.scanWindows scanCount input
    { pos := 0
      inputEntry := inputStart / bitsPerValue
      inputIdx := Fin.ofNat 64 (inputStart % bitsPerValue)
      resultEntry := resultOffset / bitsPerValue
      resultIdx := Fin.ofNat 64 (resultOffset % bitsPerValue)
      mask := resultMask }

def validityEntryCount (count : Nat) : Nat :=
  count / bitsPerValue + if count % bitsPerValue ≠ 0 then 1 else 0

/-- The loop of `AlignedScan`, with the entries that are left. -/
def alignedEntries {capacity : Nat} (input : List Entry) (startOffset : Nat) :
    List Nat → Mask capacity → Option (Mask capacity)
  | [], mask => some mask
  | i :: rest, mask => do
      let inputEntry ← input[startOffset + i]?
      if mask.data.isNone ∧ inputEntry = maxEntry then alignedEntries input startOffset rest mask
      else alignedEntries input startOffset rest (← mask.update i fun _ => inputEntry)

def alignedScan {capacity : Nat} (input : List Entry) (inputStart : Nat)
    (resultMask : Mask capacity) (scanCount : Nat) : Option (Mask capacity) :=
  alignedEntries input (inputStart / bitsPerValue) (List.range (validityEntryCount scanCount))
    resultMask

/-! ## Masks and entries -/

theorem rowIsValid_eq (entry : Entry) {k : Nat} (hk : k < 64) :
    rowIsValid entry k = entry.getLsbD k :=
  BitField.hasFlag_eq entry hk

theorem lowerMasks_spec {n : Nat} (hn : n ≤ 64) :
    ∃ lower, lowerMasks[n]? = some lower ∧ ∀ k < 64, lower.getLsbD k = decide (k < n) := by
  have htable : lowerMasks = (List.range 65).map fun n => BitVec.ofNat 64 (2 ^ n - 1) := by decide
  refine ⟨BitVec.ofNat 64 (2 ^ n - 1), ?_, fun k hk => ?_⟩
  · rw [htable, List.getElem?_map, List.getElem?_range (by omega)]
    rfl
  · rw [BitVec.getLsbD_ofNat, Nat.testBit_two_pow_sub_one, decide_eq_true hk, Bool.true_and]

theorem upperMasks_spec {n : Nat} (hn : n ≤ 64) :
    ∃ upper, upperMasks[n]? = some upper ∧
      ∀ k < 64, upper.getLsbD k = decide (64 - n ≤ k) := by
  have htable : upperMasks =
      (List.range 65).map fun n => ~~~BitVec.ofNat 64 (2 ^ (64 - n) - 1) := by decide
  refine ⟨~~~BitVec.ofNat 64 (2 ^ (64 - n) - 1), ?_, fun k hk => ?_⟩
  · rw [htable, List.getElem?_map, List.getElem?_range (by omega)]
    rfl
  · rw [BitVec.getLsbD_not, BitVec.getLsbD_ofNat, Nat.testBit_two_pow_sub_one, decide_eq_true hk,
      Bool.true_and, Bool.true_and, ← decide_not]
    exact decide_eq_decide.mpr Nat.not_lt

/-- The bits of a window are where the result has its window. -/
theorem shiftWindow_spec (inputIdx : Nat) {resultIdx : Nat} (hresult : resultIdx < 64)
    (inputMask : Entry) :
    ∃ shifted, shiftWindow inputIdx resultIdx inputMask = some shifted ∧
      ∀ k < 64, resultIdx ≤ k → inputIdx + (k - resultIdx) < 64 →
        shifted.getLsbD k = inputMask.getLsbD (inputIdx + (k - resultIdx)) := by
  rw [shiftWindow]
  split
  · rename_i hlt
    refine ⟨_, rfl, fun k _ hle _ => ?_⟩
    have hposition : inputIdx - resultIdx + k = inputIdx + (k - resultIdx) := by omega
    rw [BitVec.getLsbD_ushiftRight, hposition]
  · rename_i hge
    obtain ⟨upper, hupper, hbits⟩ := upperMasks_spec (n := resultIdx - inputIdx) (by omega)
    refine ⟨_, by rw [hupper]; rfl, fun k hk hle hinput => ?_⟩
    have hposition : k - (resultIdx - inputIdx) = inputIdx + (k - resultIdx) := by omega
    have hlow : ¬k < resultIdx - inputIdx := by omega
    have hhigh : ¬64 - (resultIdx - inputIdx) ≤ inputIdx + (k - resultIdx) := by omega
    rw [BitVec.getLsbD_shiftLeft, hposition, BitVec.getLsbD_and, BitVec.getLsbD_not,
      hbits _ hinput, decide_eq_true hk, decide_eq_false hlow, decide_eq_false hhigh,
      decide_eq_true hinput]
    simp

theorem protectWindow_spec {resultIdx windowSize : Nat} (hwindow : resultIdx + windowSize ≤ 64)
    (inputMask : Entry) :
    ∃ masked, protectWindow resultIdx windowSize inputMask = some masked ∧
      ∀ k < 64, masked.getLsbD k =
        if resultIdx ≤ k ∧ k < resultIdx + windowSize then inputMask.getLsbD k else true := by
  obtain ⟨upper, hupper, hupperBits⟩ := upperMasks_spec (n := 64 - resultIdx - windowSize)
    (by omega)
  obtain ⟨lower, hlower, hlowerBits⟩ := lowerMasks_spec (n := resultIdx) (by omega)
  refine ⟨inputMask ||| upper ||| lower, ?_, fun k hk => ?_⟩
  · rw [protectWindow, bitsPerValue, hupper, Option.bind_some, hlower, Option.map_some]
  · rw [BitVec.getLsbD_or, BitVec.getLsbD_or, hupperBits k hk, hlowerBits k hk]
    split
    · rename_i hinside
      have hupper' : ¬64 - (64 - resultIdx - windowSize) ≤ k := by omega
      have hlower' : ¬k < resultIdx := by omega
      rw [decide_eq_false hupper', decide_eq_false hlower', Bool.or_false, Bool.or_false]
    · rename_i houtside
      by_cases hlower' : k < resultIdx
      · rw [decide_eq_true hlower', Bool.or_true]
      · have hupper' : 64 - (64 - resultIdx - windowSize) ≤ k := by omega
        rw [decide_eq_true hupper', Bool.or_true, Bool.true_or]

namespace Mask

variable {capacity : Nat} {mask : Mask capacity}

theorem rowIsValid_eq_getLsbD (mask : Mask capacity) (i : Nat) :
    mask.rowIsValid i = (mask.getValidityEntry (i / 64)).getLsbD (i % 64) :=
  ValiditySegments.rowIsValid_eq _ (Nat.mod_lt i (by decide))

theorem div_lt_entryCount {i : Nat} (hi : i < capacity) : i / 64 < entryCount capacity := by
  rw [entryCount, bitsPerValue]
  omega

theorem initialized_getElem {e : Nat} (he : e < entryCount capacity) :
    mask.initialized[e] = mask.getValidityEntry e := by
  obtain ⟨_ | data⟩ := mask
  · exact Vector.getElem_replicate he
  · rw [getValidityEntry]
    show data[e] = data[e]?.getD 0
    rw [Vector.getElem?_eq_getElem he, Option.getD_some]

theorem update_spec (mask : Mask capacity) {e : Nat} (he : e < entryCount capacity)
    (f : Entry → Entry) :
    ∃ mask', mask.update e f = some mask' ∧ ∀ i < capacity, mask'.rowIsValid i =
      if i / 64 = e then (f (mask.getValidityEntry e)).getLsbD (i % 64) else mask.rowIsValid i := by
  refine ⟨_, dif_pos he, fun i hi => ?_⟩
  have hentry := div_lt_entryCount hi
  rw [rowIsValid_eq_getLsbD, rowIsValid_eq_getLsbD mask, getValidityEntry]
  dsimp only
  rw [Vector.getElem?_set]
  split
  · rename_i h
    rw [if_pos h.symm, initialized_getElem he]
    rfl
  · rename_i h
    rw [if_neg (Ne.symm h), Vector.getElem?_eq_getElem hentry, Option.getD_some,
      initialized_getElem hentry]

theorem clear_spec (mask : Mask capacity) {e : Nat} (he : e < entryCount capacity)
    (inputMask : Entry) :
    ∃ mask', mask.clear e inputMask = some mask' ∧ ∀ i < capacity, mask'.rowIsValid i =
      (mask.rowIsValid i && if i / 64 = e then inputMask.getLsbD (i % 64) else true) := by
  rw [clear]
  split
  · obtain ⟨mask', hmask', hrows⟩ :=
      mask.update_spec he fun entry => entry &&& inputMask
    refine ⟨mask', hmask', fun i hi => ?_⟩
    rw [hrows i hi]
    split
    · rename_i h
      rw [BitVec.getLsbD_and, rowIsValid_eq_getLsbD, h]
    · rw [Bool.and_true]
  · rename_i hmax
    have hones : inputMask = maxEntry := not_not.mp hmax
    have hlt : ∀ i, i % 64 < 64 := fun i => Nat.mod_lt i (by decide)
    refine ⟨mask, rfl, fun i _ => ?_⟩
    rw [hones, maxEntry, BitVec.getLsbD_allOnes, decide_eq_true (hlt i), ite_self, Bool.and_true]

theorem setInvalid_spec (mask : Mask capacity) {j : Nat} (hj : j < capacity) :
    ∃ mask', mask.setInvalid j = some mask' ∧
      ∀ i < capacity, mask'.rowIsValid i = (mask.rowIsValid i && decide (i ≠ j)) := by
  obtain ⟨mask', hmask', hrows⟩ := mask.update_spec (div_lt_entryCount hj)
    fun entry => entry &&& ~~~(1#64 <<< (j % bitsPerValue))
  refine ⟨mask', hmask', fun i hi => ?_⟩
  rw [hrows i hi]
  have hlt : i % 64 < 64 := Nat.mod_lt i (by decide)
  split
  · rename_i h
    have hsame : i % 64 = j % bitsPerValue ↔ i = j := by
      rw [bitsPerValue]
      omega
    rw [BitVec.getLsbD_and, BitVec.getLsbD_not, Memory.getLsbD_one_shiftLeft hlt,
      rowIsValid_eq_getLsbD, h, decide_eq_true hlt, Bool.true_and, decide_eq_decide.mpr hsame,
      decide_not]
  · rename_i h
    have hne : i ≠ j := fun hij => h (by rw [hij])
    rw [decide_eq_true hne, Bool.and_true]

end Mask

/-! ## The unaligned scan -/

/-- Bit `j` of the input, as the scans look it up. -/
def inputBit (input : List Entry) (j : Nat) : Bool :=
  rowIsValid (input.getD (j / bitsPerValue) 0) (j % bitsPerValue)

variable {input : List Entry}

theorem inputBit_eq {e k : Nat} {entry : Entry} (hk : k < 64) (h : input[e]? = some entry) :
    inputBit input (64 * e + k) = entry.getLsbD k := by
  have hdiv : (64 * e + k) / 64 = e := by omega
  have hmod : (64 * e + k) % 64 = k := by omega
  rw [inputBit, bitsPerValue, hdiv, hmod, List.getD_eq_getElem?_getD, h, Option.getD_some,
    rowIsValid_eq entry hk]

namespace ScanState

variable {capacity : Nat}

/-- A scan of `scanCount` bits that has copied those before its position. -/
structure Copied (input : List Entry) (inputStart : Nat) (resultMask : Mask capacity)
    (resultOffset scanCount : Nat) (s : ScanState capacity) : Prop where
  pos_le : s.pos ≤ scanCount
  input_eq : 64 * s.inputEntry + s.inputIdx = inputStart + s.pos
  result_eq : 64 * s.resultEntry + s.resultIdx = resultOffset + s.pos
  rows : ∀ i < capacity, s.mask.rowIsValid i = (resultMask.rowIsValid i &&
    if resultOffset ≤ i ∧ i < resultOffset + s.pos then
      inputBit input (inputStart + (i - resultOffset))
    else true)

variable {input : List Entry} {inputStart resultOffset scanCount : Nat}
  {resultMask : Mask capacity} {s : ScanState capacity}

theorem advance_eq (entry : Nat) {window : Nat} {idx : Fin 64} (h : idx + window ≤ 64) :
    64 * (if Fin.ofNat 64 (idx + window) = 0 then entry + 1 else entry) +
      (Fin.ofNat 64 (idx + window) : Fin 64).val = 64 * entry + idx + window ∨ window = 0 := by
  have hval : (Fin.ofNat 64 (idx + window) : Fin 64).val = (idx + window) % 64 := rfl
  have hidx := idx.isLt
  by_cases hzero : (idx + window) % 64 = 0
  · rw [if_pos (Fin.ext (hval.trans hzero)), hval]
    omega
  · rw [if_neg fun h => hzero (hval ▸ congrArg Fin.val h), hval]
    omega

theorem Copied.scanWindow (h : s.Copied input inputStart resultMask resultOffset scanCount)
    (hpos : s.pos < scanCount) (hinput : inputStart + scanCount ≤ 64 * input.length)
    (hresult : resultOffset + scanCount ≤ capacity) :
    ∃ t, s.scanWindow scanCount input = some t ∧
      t.Copied input inputStart resultMask resultOffset scanCount := by
  have hinputIdx := s.inputIdx.isLt
  have hresultIdx := s.resultIdx.isLt
  have hinputEq := h.input_eq
  have hresultEq := h.result_eq
  have hwindowPos := s.windowSize_pos scanCount hpos
  have hwindowLeft : s.pos + s.windowSize scanCount ≤ scanCount := by
    rw [windowSize]
    omega
  have hwindowInput : s.inputIdx + s.windowSize scanCount ≤ 64 := by
    rw [windowSize, bitsPerValue]
    omega
  have hwindowResult : s.resultIdx + s.windowSize scanCount ≤ 64 := by
    rw [windowSize, bitsPerValue]
    omega
  have hentry : s.inputEntry < input.length := by omega
  have hresultEntry : s.resultEntry < entryCount capacity := by
    rw [entryCount, bitsPerValue]
    omega
  obtain ⟨shifted, hshifted, hshiftedBits⟩ :=
    shiftWindow_spec s.inputIdx hresultIdx input[s.inputEntry]
  obtain ⟨inputMask, hinputMask, hmaskBits⟩ := protectWindow_spec hwindowResult shifted
  obtain ⟨mask, hmask, hrows⟩ := s.mask.clear_spec hresultEntry inputMask
  refine ⟨s.advance scanCount mask, (scanWindow_eq_some scanCount s).mpr
    ⟨_, shifted, inputMask, mask, List.getElem?_eq_getElem hentry, hshifted, hinputMask, hmask,
      rfl⟩, hwindowLeft, ?_, ?_, fun i hi => ?_⟩
  · have hadvance := (advance_eq s.inputEntry hwindowInput).resolve_right
      (Nat.pos_iff_ne_zero.mp hwindowPos)
    exact hadvance.trans (by rw [hinputEq, Nat.add_assoc]; rfl)
  · have hadvance := (advance_eq s.resultEntry hwindowResult).resolve_right
      (Nat.pos_iff_ne_zero.mp hwindowPos)
    exact hadvance.trans (by rw [hresultEq, Nat.add_assoc]; rfl)
  · -- the row is in the window, in what has been copied, or in neither
    have hlt : i % 64 < 64 := Nat.mod_lt i (by decide)
    have hbit : (if i / 64 = s.resultEntry then inputMask.getLsbD (i % 64) else true) =
        if resultOffset + s.pos ≤ i ∧ i < resultOffset + s.pos + s.windowSize scanCount then
          inputBit input (inputStart + (i - resultOffset)) else true := by
      by_cases hwindow : resultOffset + s.pos ≤ i ∧
          i < resultOffset + s.pos + s.windowSize scanCount
      · have hentryEq : i / 64 = s.resultEntry := by omega
        have hinside : s.resultIdx ≤ i % 64 ∧
            i % 64 < s.resultIdx + s.windowSize scanCount := by omega
        have hsource : s.inputIdx + (i % 64 - s.resultIdx) < 64 := by omega
        have hposition : inputStart + (i - resultOffset) =
            64 * s.inputEntry + (s.inputIdx + (i % 64 - s.resultIdx)) := by omega
        rw [if_pos hentryEq, if_pos hwindow, hmaskBits _ hlt, if_pos hinside,
          hshiftedBits _ hlt hinside.1 hsource, hposition,
          inputBit_eq hsource (List.getElem?_eq_getElem hentry)]
      · rw [if_neg hwindow]
        split
        · have houtside : ¬(s.resultIdx ≤ i % 64 ∧
              i % 64 < s.resultIdx + s.windowSize scanCount) := by omega
          rw [hmaskBits _ hlt, if_neg houtside]
        · rfl
    show mask.rowIsValid i = (resultMask.rowIsValid i &&
      if resultOffset ≤ i ∧ i < resultOffset + (s.pos + s.windowSize scanCount) then
        inputBit input (inputStart + (i - resultOffset))
      else true)
    rw [hrows i hi, h.rows i hi, hbit, Bool.and_assoc]
    refine congrArg (resultMask.rowIsValid i && ·) ?_
    by_cases hbefore : resultOffset ≤ i ∧ i < resultOffset + s.pos
    · rw [if_pos hbefore, if_neg (by omega), if_pos (by omega), Bool.and_true]
    · rw [if_neg hbefore, Bool.true_and]
      exact if_congr (by omega) rfl rfl

theorem Copied.scanWindows (hinput : inputStart + scanCount ≤ 64 * input.length)
    (hresult : resultOffset + scanCount ≤ capacity) (s : ScanState capacity)
    (h : s.Copied input inputStart resultMask resultOffset scanCount) :
    ∃ mask, scanWindows scanCount input s = some mask ∧ ∀ i < capacity, mask.rowIsValid i =
      (resultMask.rowIsValid i && if resultOffset ≤ i ∧ i < resultOffset + scanCount then
        inputBit input (inputStart + (i - resultOffset)) else true) := by
  rw [ScanState.scanWindows]
  by_cases hpos : s.pos < scanCount
  · obtain ⟨t, ht, hcopied⟩ := h.scanWindow hpos hinput hresult
    rw [dif_pos hpos]
    split
    · rename_i hnone
      rw [ht] at hnone
      cases hnone
    · rename_i t' ht'
      obtain rfl : t = t' := Option.some.inj (ht.symm.trans ht')
      exact Copied.scanWindows hinput hresult t hcopied
  · have hend : s.pos = scanCount := le_antisymm h.pos_le (Nat.le_of_not_lt hpos)
    rw [dif_neg hpos]
    refine ⟨s.mask, rfl, fun i hi => ?_⟩
    rw [h.rows i hi, hend]
termination_by scanCount - s.pos
decreasing_by
  have hwindow := s.windowSize_pos scanCount hpos
  rw [s.scanWindow_pos scanCount ht]
  omega

end ScanState

/-- An unaligned scan clears the bits of its range whose input bit is clear, and no others. -/
theorem unalignedScan_rows {capacity : Nat} {inputStart resultOffset scanCount : Nat}
    (hinput : inputStart + scanCount ≤ 64 * input.length)
    (hresult : resultOffset + scanCount ≤ capacity) (resultMask : Mask capacity) :
    ∃ mask, unalignedScan input inputStart resultMask resultOffset scanCount = some mask ∧
      ∀ i < capacity, mask.rowIsValid i = (resultMask.rowIsValid i &&
        if resultOffset ≤ i ∧ i < resultOffset + scanCount then
          inputBit input (inputStart + (i - resultOffset)) else true) := by
  refine ScanState.Copied.scanWindows hinput hresult _ ⟨Nat.zero_le _, ?_, ?_, fun i _ => ?_⟩
  · show 64 * (inputStart / 64) + inputStart % 64 % 64 = inputStart + 0
    omega
  · show 64 * (resultOffset / 64) + resultOffset % 64 % 64 = resultOffset + 0
    omega
  · dsimp only
    rw [if_neg (by omega), Bool.and_true]

/-! ## The aligned scan -/

theorem validityEntryCount_eq (count : Nat) : validityEntryCount count = entryCount count := by
  rw [validityEntryCount, entryCount, bitsPerValue]
  split <;> omega

theorem alignedEntries_rows {capacity : Nat} {startOffset : Nat} {entries : List Nat}
    (hinput : ∀ e ∈ entries, startOffset + e < input.length)
    (hresult : ∀ e ∈ entries, e < entryCount capacity) (hnodup : entries.Nodup) :
    ∀ resultMask : Mask capacity,
      ∃ mask, alignedEntries input startOffset entries resultMask = some mask ∧
        ∀ i < capacity, mask.rowIsValid i = if i / 64 ∈ entries then
          inputBit input (64 * startOffset + i) else resultMask.rowIsValid i := by
  induction entries with
  | nil => exact fun resultMask => ⟨resultMask, rfl, fun i _ => by rw [if_neg List.not_mem_nil]⟩
  | cons e entries ih =>
      intro resultMask
      obtain ⟨he, hnodup⟩ := List.nodup_cons.mp hnodup
      have hlt := hinput e List.mem_cons_self
      have hget : input[startOffset + e]? = some input[startOffset + e] :=
        List.getElem?_eq_getElem hlt
      -- the mask after this round
      obtain ⟨next, hnext, hrows⟩ : ∃ next : Mask capacity,
          alignedEntries input startOffset (e :: entries) resultMask =
            alignedEntries input startOffset entries next ∧
          ∀ i < capacity, next.rowIsValid i = if i / 64 = e then
            input[startOffset + e].getLsbD (i % 64) else resultMask.rowIsValid i := by
        by_cases hskip : resultMask.data.isNone ∧ input[startOffset + e] = maxEntry
        · refine ⟨resultMask, ?_, fun i _ => ?_⟩
          · rw [alignedEntries, hget, Option.bind_eq_bind, Option.bind_some, if_pos hskip]
          · have hbits : i % 64 < 64 := Nat.mod_lt i (by decide)
            have hdata := Option.isNone_iff_eq_none.mp hskip.1
            rw [hskip.2, Mask.rowIsValid_eq_getLsbD, Mask.getValidityEntry, hdata, maxEntry,
              BitVec.getLsbD_allOnes, ite_self]
        · obtain ⟨next, hnext, hrows⟩ := resultMask.update_spec
            (hresult e List.mem_cons_self) fun _ => input[startOffset + e]
          refine ⟨next, ?_, hrows⟩
          rw [alignedEntries, hget, Option.bind_eq_bind, Option.bind_some, if_neg hskip, hnext,
            Option.bind_eq_bind, Option.bind_some]
      obtain ⟨mask, hmask, hmaskRows⟩ := ih
        (fun f hf => hinput f (List.mem_cons_of_mem e hf))
        (fun f hf => hresult f (List.mem_cons_of_mem e hf)) hnodup next
      refine ⟨mask, hnext.trans hmask, fun i hi => ?_⟩
      rw [hmaskRows i hi, hrows i hi]
      have hbits : i % 64 < 64 := Nat.mod_lt i (by decide)
      by_cases hhead : i / 64 = e
      · have hposition : 64 * startOffset + i = 64 * (startOffset + e) + i % 64 := by omega
        rw [if_neg fun h => he (hhead ▸ h), if_pos hhead, if_pos (hhead ▸ List.mem_cons_self),
          hposition, inputBit_eq hbits hget]
      · rw [if_neg hhead]
        refine if_congr ?_ rfl rfl
        rw [List.mem_cons, or_iff_right hhead]

theorem alignedScan_rows {capacity : Nat} {inputStart scanCount : Nat}
    (haligned : inputStart % 64 = 0) (hinput : inputStart + scanCount ≤ 64 * input.length)
    (hresult : scanCount ≤ capacity) (resultMask : Mask capacity) :
    ∃ mask, alignedScan input inputStart resultMask scanCount = some mask ∧
      ∀ i < capacity, mask.rowIsValid i = if i / 64 < entryCount scanCount then
        inputBit input (inputStart + i) else resultMask.rowIsValid i := by
  have hcount : ∀ e ∈ List.range (validityEntryCount scanCount),
      inputStart / bitsPerValue + e < input.length ∧ e < entryCount capacity := by
    intro e he
    have he' := List.mem_range.mp he
    rw [validityEntryCount_eq, entryCount, bitsPerValue] at he'
    rw [entryCount, bitsPerValue]
    omega
  obtain ⟨mask, hmask, hrows⟩ := alignedEntries_rows (fun e he => (hcount e he).1)
    (fun e he => (hcount e he).2) List.nodup_range resultMask
  refine ⟨mask, hmask, fun i hi => ?_⟩
  have hstart : 64 * (inputStart / bitsPerValue) = inputStart := by
    rw [bitsPerValue]
    omega
  rw [hrows i hi, hstart]
  exact if_congr (by rw [List.mem_range, validityEntryCount_eq]) rfl rfl

end ValiditySegments

end MiniDuck
