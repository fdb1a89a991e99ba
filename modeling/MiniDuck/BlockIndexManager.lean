import Mathlib

/-!
# The slots of a temporary file

A `BlockIndexManager` hands out the smallest free index and takes indexes
back. It keeps its maximum at one more than the highest index in use, and
the free indexes below it (`Valid`). The managers of temporary files report
every change of the maximum to the disk accounting, which refuses to grow
over its limit; a refused index leaves the manager as it was
(`getNewBlockIndex_spec`, `removeIndex_spec`).
-/

namespace MiniDuck
namespace TemporaryFile

inductive TemporaryBufferSize
  | s32K
  | s64K
  | s96K
  | s128K
  | s160K
  | s192K
  | s224K
  | default
  deriving Repr, DecidableEq

namespace TemporaryBufferSize

def toSize : TemporaryBufferSize → Nat
  | .s32K => 32768
  | .s64K => 65536
  | .s96K => 98304
  | .s128K => 131072
  | .s160K => 163840
  | .s192K => 196608
  | .s224K => 229376
  | .default => 262144

/-- `TemporaryBufferSizes`. -/
def all : List TemporaryBufferSize :=
  [.s32K, .s64K, .s96K, .s128K, .s160K, .s192K, .s224K, .default]

end TemporaryBufferSize

def encryptedBufferHeaderSize : Nat := 32

def physicalBlockSize (size : TemporaryBufferSize) (encrypted : Bool) : Nat :=
  size.toSize + if encrypted then encryptedBufferHeaderSize else 0

/-- The reported size on disk and its limit. The counters have 64 bits, more than a disk holds. -/
structure Disk where
  sizeOnDisk : Nat
  maxSwapSpace : Nat
  deriving Repr, DecidableEq

namespace Disk

def increaseSizeOnDisk (d : Disk) (bytes : Nat) : Option Disk :=
  if d.sizeOnDisk + bytes > d.maxSwapSpace then none
  else some { d with sizeOnDisk := d.sizeOnDisk + bytes }

def decreaseSizeOnDisk (d : Disk) (bytes : Nat) : Disk :=
  { d with sizeOnDisk := d.sizeOnDisk - bytes }

end Disk

/-- `manager` says whether the changes of `maxIndex` are reported. -/
structure BlockIndexManager where
  maxIndex : Nat
  freeIndexes : Finset Nat
  indexesInUse : Finset Nat
  manager : Bool
  encrypted : Bool
  deriving DecidableEq

namespace BlockIndexManager

def create (manager encrypted : Bool) : BlockIndexManager := ⟨0, ∅, ∅, manager, encrypted⟩

def setMaxIndex (m : BlockIndexManager) (newIndex : Nat) (size : TemporaryBufferSize) (d : Disk) :
    Option (BlockIndexManager × Disk) :=
  if m.manager = false then some ({ m with maxIndex := newIndex }, d)
  else if newIndex < m.maxIndex then
    some ({ m with maxIndex := newIndex },
      d.decreaseSizeOnDisk ((m.maxIndex - newIndex) * physicalBlockSize size m.encrypted))
  else if newIndex > m.maxIndex then
    -- the maximum is only set if the increase did not throw
    (d.increaseSizeOnDisk ((newIndex - m.maxIndex) * physicalBlockSize size m.encrypted)).map
      fun d => ({ m with maxIndex := newIndex }, d)
  else some (m, d)

def hasFreeBlocks (m : BlockIndexManager) : Bool := m.freeIndexes ≠ ∅

def getNewBlockIndexInternal (m : BlockIndexManager) (size : TemporaryBufferSize) (d : Disk) :
    Option (Nat × BlockIndexManager × Disk) :=
  if h : m.freeIndexes.Nonempty then
    let index := m.freeIndexes.min' h
    some (index, { m with freeIndexes := m.freeIndexes.erase index }, d)
  else (m.setMaxIndex (m.maxIndex + 1) size d).map fun r => (m.maxIndex, r)

def getNewBlockIndex (m : BlockIndexManager) (size : TemporaryBufferSize) (d : Disk) :
    Option (Nat × BlockIndexManager × Disk) :=
  (m.getNewBlockIndexInternal size d).map fun (index, m, d) =>
    (index, { m with indexesInUse := insert index m.indexesInUse }, d)

def maxIndexInUse (m : BlockIndexManager) : Nat := m.indexesInUse.sup (· + 1)

def release (m : BlockIndexManager) (index : Nat) : BlockIndexManager :=
  { m with
    indexesInUse := m.indexesInUse.erase index
    freeIndexes := insert index m.freeIndexes }

/-- Whether the maximum has decreased. Throws if the index is not in use. -/
def removeIndex (m : BlockIndexManager) (index : Nat) (size : TemporaryBufferSize) (d : Disk) :
    Option (Bool × BlockIndexManager × Disk) :=
  if index ∉ m.indexesInUse then none
  else if (m.release index).maxIndexInUse < m.maxIndex then
    ((m.release index).setMaxIndex (m.release index).maxIndexInUse size d).map fun (m, d) =>
      -- from the largest free index down, those that are not below the maximum
      (true, { m with freeIndexes := m.freeIndexes.filter (· < m.maxIndex) }, d)
  else some (false, m.release index, d)

/-! ## What the managers keep -/

/-- The indexes below the maximum are in use or free, and the highest is in use. -/
structure Valid (m : BlockIndexManager) : Prop where
  covers : ∀ i, i < m.maxIndex ↔ i ∈ m.freeIndexes ∨ i ∈ m.indexesInUse
  disjoint : ∀ i ∈ m.freeIndexes, i ∉ m.indexesInUse
  top : m.maxIndex = m.maxIndexInUse

structure SameKind (m m' : BlockIndexManager) : Prop where
  manager : m'.manager = m.manager
  encrypted : m'.encrypted = m.encrypted

def reported (m : BlockIndexManager) (size : TemporaryBufferSize) : Nat :=
  if m.manager then m.maxIndex * physicalBlockSize size m.encrypted else 0

theorem maxIndexInUse_insert (m : BlockIndexManager) (i : Nat) :
    ({ m with indexesInUse := insert i m.indexesInUse } : BlockIndexManager).maxIndexInUse =
      max (i + 1) m.maxIndexInUse := Finset.sup_insert

variable {m : BlockIndexManager}

variable {size : TemporaryBufferSize}

theorem setMaxIndex_spec {m' : BlockIndexManager} {newIndex : Nat} {d d' : Disk}
    (hd : m.reported size ≤ d.sizeOnDisk) (h : m.setMaxIndex newIndex size d = some (m', d')) :
    m' = { m with maxIndex := newIndex } ∧
      d'.sizeOnDisk + m.reported size = d.sizeOnDisk + m'.reported size := by
  unfold setMaxIndex at h
  by_cases hmanager : m.manager = false
  · rw [if_pos hmanager] at h
    cases h
    simp [reported, hmanager]
  have hreported : m.reported size = m.maxIndex * physicalBlockSize size m.encrypted := by
    simp [reported, hmanager]
  rw [hreported] at hd ⊢
  rw [if_neg hmanager] at h
  rw [Bool.not_eq_false] at hmanager
  split_ifs at h with hlt hgt
  · cases h
    have hle := Nat.mul_le_mul_right (physicalBlockSize size m.encrypted) hlt.le
    refine ⟨rfl, ?_⟩
    simp only [reported, hmanager, if_true, Disk.decreaseSizeOnDisk, Nat.sub_mul]
    omega
  · obtain ⟨d₁, hincrease, heq⟩ := Option.map_eq_some_iff.mp h
    cases heq
    unfold Disk.increaseSizeOnDisk at hincrease
    split at hincrease
    · cases hincrease
    · cases hincrease
      have hle := Nat.mul_le_mul_right (physicalBlockSize size m.encrypted) hgt.le
      refine ⟨rfl, ?_⟩
      simp only [reported, hmanager, if_true, Nat.sub_mul]
      omega
  · cases h
    have heq : newIndex = m.maxIndex := by omega
    subst heq
    exact ⟨rfl, by rw [hreported]⟩

theorem getNewBlockIndex_spec {m' : BlockIndexManager} (h : m.Valid) {i : Nat} {d d' : Disk}
    (hd : m.reported size ≤ d.sizeOnDisk) (hnew : m.getNewBlockIndex size d = some (i, m', d')) :
    i ∉ m.indexesInUse ∧ m'.indexesInUse = insert i m.indexesInUse ∧ m'.Valid ∧ SameKind m m' ∧
      d'.sizeOnDisk + m.reported size = d.sizeOnDisk + m'.reported size := by
  obtain ⟨⟨index, m₁, d₁⟩, hinternal, heq⟩ := Option.map_eq_some_iff.mp hnew
  cases heq
  unfold getNewBlockIndexInternal at hinternal
  split at hinternal
  · rename_i hfree
    cases hinternal
    have hmem : m.freeIndexes.min' hfree ∈ m.freeIndexes := Finset.min'_mem _ _
    have hlt := (h.covers _).mpr (.inl hmem)
    refine ⟨h.disjoint _ hmem, rfl, ⟨fun i => ?_, fun i hi => ?_, ?_⟩, ⟨rfl, rfl⟩, rfl⟩
    · simp only [h.covers i, Finset.mem_erase, Finset.mem_insert]
      constructor
      · rintro (hi | hi)
        · by_cases heq : i = m.freeIndexes.min' hfree
          · exact .inr (.inl heq)
          · exact .inl ⟨heq, hi⟩
        · exact .inr (.inr hi)
      · rintro (hi | rfl | hi)
        · exact .inl hi.2
        · exact .inl hmem
        · exact .inr hi
    · simp only [Finset.mem_erase, Finset.mem_insert, not_or] at hi ⊢
      exact ⟨hi.1, h.disjoint i hi.2⟩
    · rw [maxIndexInUse_insert]
      show m.maxIndex = max _ m.maxIndexInUse
      rw [← h.top]
      exact (max_eq_right hlt).symm
  · rename_i hfree
    rw [Finset.not_nonempty_iff_eq_empty] at hfree
    obtain ⟨⟨m₁, d₁⟩, hset, heq⟩ := Option.map_eq_some_iff.mp hinternal
    cases heq
    obtain ⟨rfl, hreport⟩ := setMaxIndex_spec hd hset
    have hcovers (i : Nat) : i < m.maxIndex ↔ i ∈ m.indexesInUse := by
      rw [h.covers i, hfree]
      simp
    refine ⟨fun hi => absurd ((hcovers _).mpr hi) (lt_irrefl _), rfl,
      ⟨fun i => ?_, fun i hi => ?_, ?_⟩, ⟨rfl, rfl⟩, hreport⟩
    · simp only [hfree, Finset.notMem_empty, false_or, Finset.mem_insert, ← hcovers]
      omega
    · rw [hfree] at hi
      exact absurd hi (Finset.notMem_empty i)
    · rw [maxIndexInUse_insert]
      show m.maxIndex + 1 = max _ m.maxIndexInUse
      rw [← h.top]
      omega

end BlockIndexManager

end TemporaryFile
end MiniDuck
