import MiniDuck.BlockIndexManager
import MiniDuck.Lts

/-!
# Temporary files

Blocks of one size class share files. A call to the manager changes the
files, the indexes of the files, the table of stored blocks and the size on
disk one after the other, and may throw in between. `Sound` says how they
belong together. Registering a block either fails and stores nothing, or
stores the block in a slot that was not in use (`registerBlock_sound`);
erasing one frees its slot whether or not the file can be truncated and
deleted (`eraseUsedBlock_sound`). So every run of calls on the right blocks
keeps them apart and their sizes exact (`slots_exclusive`).
-/

namespace MiniDuck
namespace TemporaryFile

inductive TemporaryFileError
  | outOfMemory
  | openFile
  | readFile
  | writeFile
  | truncate
  | removeFile
  | internal
  deriving Repr, DecidableEq

structure TemporaryFileIdentifier where
  size : TemporaryBufferSize
  fileIndex : Nat
  encrypted : Bool
  deriving Repr, DecidableEq

structure TemporaryFileIndex where
  identifier : TemporaryFileIdentifier
  blockIndex : Nat
  deriving Repr, DecidableEq

/-- Which operations of the file system fail during a call. -/
structure Failures where
  openFile : Bool
  readFile : Bool
  writeFile : Bool
  truncate : Bool
  removeFile : Bool
  deriving Repr, DecidableEq

structure TemporaryFileHandle where
  identifier : TemporaryFileIdentifier
  maxAllowedIndex : Nat
  /-- Whether `handle` is set. -/
  isOpen : Bool
  indexManager : BlockIndexManager
  deriving DecidableEq

def maxAllowedIndexBase : Nat := 4000

namespace TemporaryFileHandle

/-- A handle of a file that does not exist yet. The shift has a small count, as a new file is only
needed if all of the `temporaryFileCount` files are full. -/
def create (identifier : TemporaryFileIdentifier) (temporaryFileCount : Nat) :
    TemporaryFileHandle where
  identifier := identifier
  maxAllowedIndex := 1 <<< temporaryFileCount * maxAllowedIndexBase
  isOpen := false
  indexManager := .create true identifier.encrypted

def tryGetBlockIndex (f : TemporaryFileHandle) (fail : Failures) (d : Disk) :
    Except TemporaryFileError (Option TemporaryFileIndex) × TemporaryFileHandle × Disk :=
  if f.indexManager.maxIndex ≥ f.maxAllowedIndex ∧ f.indexManager.hasFreeBlocks = false then
    (.ok none, f, d)
  else if f.isOpen = false ∧ fail.openFile then (.error .openFile, f, d)
  else
    match f.indexManager.getNewBlockIndex f.identifier.size d with
    | none => (.error .outOfMemory, { f with isOpen := true }, d)
    | some (index, m, d) =>
        (.ok (some ⟨f.identifier, index⟩), { f with isOpen := true, indexManager := m }, d)

/-- Removes the index and truncates the file if its maximum has decreased. -/
def eraseBlockIndex (f : TemporaryFileHandle) (index : Nat) (fail : Failures) (d : Disk) :
    Except TemporaryFileError Unit × TemporaryFileHandle × Disk :=
  match f.indexManager.removeIndex index f.identifier.size d with
  | none => (.error .internal, f, d)
  | some (lower, m, d) =>
      (if lower ∧ fail.truncate then .error .truncate else .ok (), { f with indexManager := m }, d)

def deleteIfEmpty (f : TemporaryFileHandle) (fail : Failures) :
    Except TemporaryFileError Bool × TemporaryFileHandle :=
  if f.indexManager.maxIndex > 0 then (.ok false, f)
  else (if fail.removeFile then .error .removeFile else .ok true, { f with isOpen := false })

def reported (f : TemporaryFileHandle) : Nat := f.indexManager.reported f.identifier.size

end TemporaryFileHandle

/-! ## The files of a size class -/

abbrev Files : Type := List TemporaryFileHandle

namespace Files

def getFile (files : Files) (fileIndex : Nat) : Option TemporaryFileHandle :=
  files.find? fun f => f.identifier.fileIndex = fileIndex

/-- The files after a change of the file with the index of `f`. -/
def setFile (files : Files) (f : TemporaryFileHandle) : Files :=
  files.map fun g => if g.identifier.fileIndex = f.identifier.fileIndex then f else g

def eraseFile (files : Files) (fileIndex : Nat) : Files :=
  files.filter fun f => f.identifier.fileIndex ≠ fileIndex

def fileIndexes (files : Files) : List Nat := files.map fun f => f.identifier.fileIndex

/-- Tries the files in the order in which the map yields them. -/
def tryGetBlockIndex (fail : Failures) : List Nat → Files → Disk →
    Except TemporaryFileError (Option TemporaryFileIndex) × Files × Disk
  | [], files, d => (.ok none, files, d)
  | fileIndex :: order, files, d =>
      match files.getFile fileIndex with
      | none => tryGetBlockIndex fail order files d
      | some f =>
          match f.tryGetBlockIndex fail d with
          | (.error e, f, d) => (.error e, files.setFile f, d)
          | (.ok (some index), f, d) => (.ok (some index), files.setFile f, d)
          | (.ok none, f, d) => tryGetBlockIndex fail order (files.setFile f) d

end Files

/-! ## The manager -/

/-- An entry of `usedBlocks` without an index is one that was default-constructed. -/
structure TemporaryFileManager where
  files : TemporaryBufferSize → Files
  usedBlocks : Int → Option (Option TemporaryFileIndex)
  indexManagers : TemporaryBufferSize → BlockIndexManager
  disk : Disk

namespace TemporaryFileManager

def create (maxSwapSpace : Nat) : TemporaryFileManager where
  files := fun _ => []
  usedBlocks := fun _ => none
  indexManagers := fun _ => .create false false
  disk := ⟨0, maxSwapSpace⟩

def withFiles (t : TemporaryFileManager) (size : TemporaryBufferSize) (files : Files) (d : Disk) :
    TemporaryFileManager :=
  { t with
    files := Function.update t.files size files
    disk := d }

def setUsedBlock (t : TemporaryFileManager) (id : Int)
    (entry : Option (Option TemporaryFileIndex)) : TemporaryFileManager :=
  { t with usedBlocks := Function.update t.usedBlocks id entry }

def withFileIndexes (t : TemporaryFileManager) (size : TemporaryBufferSize) (files : Files)
    (m : BlockIndexManager) (d : Disk) : TemporaryFileManager :=
  { t.withFiles size files d with indexManagers := Function.update t.indexManagers size m }

def createFile (t : TemporaryFileManager) (size : TemporaryBufferSize) (encrypted : Bool)
    (fail : Failures) :
    Except TemporaryFileError (Option TemporaryFileIndex) × TemporaryFileManager :=
  match (t.indexManagers size).getNewBlockIndex size t.disk with
  | none => (.error .outOfMemory, t)
  | some (fileIndex, m, d) =>
      let f := TemporaryFileHandle.create ⟨size, fileIndex, encrypted⟩ (t.files size).length
      let (result, f, d) := f.tryGetBlockIndex fail d
      (result, t.withFileIndexes size (t.files size ++ [f]) m d)

/-- The part of `WriteTemporaryBuffer` under the lock. -/
def registerBlock (t : TemporaryFileManager) (id : Int) (size : TemporaryBufferSize)
    (encrypted : Bool) (order : List Nat) (fail : Failures) :
    Except TemporaryFileError (Option TemporaryFileIndex) × TemporaryFileManager :=
  let (result, files, d) := (t.files size).tryGetBlockIndex fail order t.disk
  let t := t.withFiles size files d
  match result with
  | .error e => (.error e, t)
  | .ok (some index) => (.ok (some index), t.setUsedBlock id (some (some index)))
  | .ok none =>
      match t.createFile size encrypted fail with
      | (.error e, t) => (.error e, t)
      | (.ok index, t) => (.ok index, t.setUsedBlock id (some index))

def eraseFileHandle (t : TemporaryFileManager) (identifier : TemporaryFileIdentifier) :
    Except TemporaryFileError Unit × TemporaryFileManager :=
  let size := identifier.size
  let files := (t.files size).eraseFile identifier.fileIndex
  match (t.indexManagers size).removeIndex identifier.fileIndex size t.disk with
  | none => (.error .internal, t.withFiles size files t.disk)
  | some (_, m, d) => (.ok (), t.withFileIndexes size files m d)

def eraseUsedBlock (t : TemporaryFileManager) (id : Int) (index : TemporaryFileIndex)
    (fail : Failures) : Except TemporaryFileError Unit × TemporaryFileManager :=
  let size := index.identifier.size
  match t.usedBlocks id, (t.files size).getFile index.identifier.fileIndex with
  | some _, some f =>
      let t := t.setUsedBlock id none
      match f.eraseBlockIndex index.blockIndex fail t.disk with
      | (.error e, f, d) => (.error e, t.withFiles size ((t.files size).setFile f) d)
      | (.ok (), f, d) =>
          match f.deleteIfEmpty fail with
          | (.error e, f) => (.error e, t.withFiles size ((t.files size).setFile f) d)
          | (.ok false, f) => (.ok (), t.withFiles size ((t.files size).setFile f) d)
          | (.ok true, f) =>
              (t.withFiles size ((t.files size).setFile f) d).eraseFileHandle index.identifier
  | _, _ => (.error .internal, t)

def writeTemporaryBuffer (t : TemporaryFileManager) (id : Int) (size : TemporaryBufferSize)
    (encrypted : Bool) (order : List Nat) (fail : Failures) :
    Except TemporaryFileError Nat × TemporaryFileManager :=
  match t.registerBlock id size encrypted order fail with
  | (.error e, t) => (.error e, t)
  | (.ok none, t) => (.error .internal, t)
  | (.ok (some index), t) =>
      if fail.writeFile then
        match t.eraseUsedBlock id index fail with
        | (.error e, t) => (.error e, t)
        | (.ok (), t) => (.error .writeFile, t)
      else (.ok (physicalBlockSize size index.identifier.encrypted), t)

/-- The index of a block. The look-up inserts an invalid index for a block that has none. -/
def getTempBlockIndex (t : TemporaryFileManager) (id : Int) :
    Option TemporaryFileIndex × TemporaryFileManager :=
  match t.usedBlocks id with
  | some index => (index, t)
  | none => (none, t.setUsedBlock id (some none))

def readTemporaryBuffer (t : TemporaryFileManager) (id : Int) (fail : Failures) :
    Except TemporaryFileError Nat × TemporaryFileManager :=
  match t.getTempBlockIndex id with
  | (none, t) => (.error .internal, t)
  | (some index, t) =>
      if fail.readFile then (.error .readFile, t)
      else
        match t.eraseUsedBlock id index fail with
        | (.error e, t) => (.error e, t)
        | (.ok (), t) =>
            (.ok (physicalBlockSize index.identifier.size index.identifier.encrypted), t)

def deleteTemporaryBuffer (t : TemporaryFileManager) (id : Int) (fail : Failures) :
    Except TemporaryFileError Nat × TemporaryFileManager :=
  match t.getTempBlockIndex id with
  | (none, t) => (.error .internal, t)
  | (some index, t) =>
      match t.eraseUsedBlock id index fail with
      | (.error e, t) => (.error e, t)
      | (.ok (), t) =>
          (.ok (physicalBlockSize index.identifier.size index.identifier.encrypted), t)

end TemporaryFileManager

/-! ## What a handle keeps -/

structure FileSound (size : TemporaryBufferSize) (f : TemporaryFileHandle) : Prop where
  size : f.identifier.size = size
  valid : f.indexManager.Valid
  manager : f.indexManager.manager = true
  encrypted : f.indexManager.encrypted = f.identifier.encrypted

namespace TemporaryFileHandle

variable {f f' : TemporaryFileHandle} {size : TemporaryBufferSize} {fail : Failures} {d d' : Disk}

/-- What taking a slot leaves of a handle and the size on disk. -/
structure Took (size : TemporaryBufferSize) (f f' : TemporaryFileHandle) (d d' : Disk)
    (index : Option TemporaryFileIndex) : Prop where
  sound : FileSound size f'
  identifier : f'.identifier = f.identifier
  reported : d'.sizeOnDisk + f.reported = d.sizeOnDisk + f'.reported
  inUse : ∀ i, i ∈ f'.indexManager.indexesInUse ↔
    i ∈ f.indexManager.indexesInUse ∨ index = some ⟨f.identifier, i⟩
  fresh : ∀ i, index = some ⟨f.identifier, i⟩ → i ∉ f.indexManager.indexesInUse
  own : ∀ i, index = some i → i.identifier = f.identifier

theorem Took.refl (h : FileSound size f) (isOpen : Bool) :
    Took size f { f with isOpen := isOpen } d d none where
  sound := ⟨h.size, h.valid, h.manager, h.encrypted⟩
  identifier := rfl
  reported := rfl
  inUse _ := by simp
  fresh _ := by simp
  own _ := by simp

end TemporaryFileHandle

/-! ## What the files keep -/

namespace Files

variable {files : Files} {f : TemporaryFileHandle}

theorem getFile_of_mem (hnodup : files.fileIndexes.Nodup) (hf : f ∈ files) :
    files.getFile f.identifier.fileIndex = some f := by
  cases hget : files.getFile f.identifier.fileIndex with
  | none => exact absurd (List.find?_eq_none.mp hget f hf) (by simp)
  | some g =>
      have hg := List.find?_some hget
      rw [List.inj_on_of_nodup_map hnodup (List.mem_of_find?_eq_some hget) hf (by simpa using hg)]

end Files

namespace TemporaryFileManager

variable {t t' : TemporaryFileManager} {size : TemporaryBufferSize} {f f' : TemporaryFileHandle}
  {d d' : Disk} {fail : Failures}

def reported (t : TemporaryFileManager) : Nat :=
  (TemporaryBufferSize.all.map fun size =>
    ((t.files size).map TemporaryFileHandle.reported).sum).sum

def InUse (t : TemporaryFileManager) (index : TemporaryFileIndex) : Prop :=
  ∃ f ∈ t.files index.identifier.size, f.identifier = index.identifier ∧
    index.blockIndex ∈ f.indexManager.indexesInUse

/-- The files, the indexes of the files and the size on disk belong together. -/
structure FilesSound (t : TemporaryFileManager) : Prop where
  files : ∀ size, ∀ f ∈ t.files size, FileSound size f
  fileIndexes : ∀ size, (t.files size).fileIndexes.Nodup
  valid : ∀ size, (t.indexManagers size).Valid
  unmanaged : ∀ size, (t.indexManagers size).manager = false
  indexManagers : ∀ size i,
    i ∈ (t.indexManagers size).indexesInUse ↔ i ∈ (t.files size).fileIndexes
  accounting : t.disk.sizeOnDisk = t.reported

theorem reported_withFiles (t : TemporaryFileManager) (size : TemporaryBufferSize) (files : Files)
    (d : Disk) : (t.withFiles size files d).reported +
        ((t.files size).map TemporaryFileHandle.reported).sum =
      t.reported + (files.map TemporaryFileHandle.reported).sum := by
  cases size <;>
    simp only [reported, withFiles, TemporaryBufferSize.all, List.map_cons, List.map_nil,
      List.sum_cons, List.sum_nil, Function.update_self, ne_eq, reduceCtorEq, not_false_eq_true,
      Function.update_of_ne] <;>
    omega

theorem FilesSound.unique (h : t.FilesSound) {f g : TemporaryFileHandle} (hf : f ∈ t.files size)
    (hg : g ∈ t.files size) (heq : f.identifier.fileIndex = g.identifier.fileIndex) : f = g :=
  List.inj_on_of_nodup_map (h.fileIndexes size) hf hg heq

variable {index : TemporaryFileIndex}

@[simp] theorem withFiles_files (t : TemporaryFileManager) (size : TemporaryBufferSize)
    (files : Files) (d : Disk) : (t.withFiles size files d).files size = files :=
  Function.update_self ..

@[simp] theorem withFileIndexes_files (t : TemporaryFileManager) (size : TemporaryBufferSize)
    (files : Files) (m : BlockIndexManager) (d : Disk) :
    (t.withFileIndexes size files m d).files size = files :=
  t.withFiles_files size files d

theorem withFileIndexes_self (t : TemporaryFileManager) (size : TemporaryBufferSize)
    (files : Files) (d : Disk) :
    t.withFileIndexes size files (t.indexManagers size) d = t.withFiles size files d := by
  simp only [withFileIndexes, Function.update_eq_self]
  rfl

variable {m : BlockIndexManager}

theorem FilesSound.withFileIndexes (h : t.FilesSound) {files : Files} {m : BlockIndexManager}
    (hfiles : ∀ f ∈ files, FileSound size f) (hnodup : files.fileIndexes.Nodup) (hvalid : m.Valid)
    (hmanager : m.manager = false) (hindexes : ∀ i, i ∈ m.indexesInUse ↔ i ∈ files.fileIndexes)
    (hd : d.sizeOnDisk + ((t.files size).map TemporaryFileHandle.reported).sum =
      t.disk.sizeOnDisk + (files.map TemporaryFileHandle.reported).sum) :
    (t.withFileIndexes size files m d).FilesSound := by
  have hother {s : TemporaryBufferSize} (hs : s ≠ size) :
      (t.withFileIndexes size files m d).files s = t.files s ∧
        (t.withFileIndexes size files m d).indexManagers s = t.indexManagers s :=
    ⟨Function.update_of_ne hs .., Function.update_of_ne hs ..⟩
  have hself : (t.withFileIndexes size files m d).indexManagers size = m :=
    Function.update_self ..
  refine ⟨fun s => ?_, fun s => ?_, fun s => ?_, fun s => ?_, fun s => ?_, ?_⟩
  · by_cases hs : s = size
    · subst hs
      rwa [withFileIndexes_files]
    · rw [(hother hs).1]
      exact h.files s
  · by_cases hs : s = size
    · subst hs
      rwa [withFileIndexes_files]
    · rw [(hother hs).1]
      exact h.fileIndexes s
  · by_cases hs : s = size
    · subst hs
      rwa [hself]
    · rw [(hother hs).2]
      exact h.valid s
  · by_cases hs : s = size
    · subst hs
      rwa [hself]
    · rw [(hother hs).2]
      exact h.unmanaged s
  · by_cases hs : s = size
    · subst hs
      rwa [hself, withFileIndexes_files]
    · rw [(hother hs).1, (hother hs).2]
      exact h.indexManagers s
  · have hsum := t.reported_withFiles size files d
    have haccounting := h.accounting
    show d.sizeOnDisk = (t.withFiles size files d).reported
    omega

variable {before after : Files}

/-- A file is replaced by a later state of itself. -/
theorem FilesSound.replace (h : t.FilesSound) (hsplit : t.files size = before ++ f :: after)
    (hf' : FileSound size f') (hid : f'.identifier = f.identifier)
    (hd : d.sizeOnDisk + f.reported = t.disk.sizeOnDisk + f'.reported) :
    (t.withFiles size (before ++ f' :: after) d).FilesSound := by
  have hindexes : (before ++ f' :: after : Files).fileIndexes = (t.files size).fileIndexes := by
    simp only [Files.fileIndexes, hsplit, List.map_append, List.map_cons, hid]
  rw [← withFileIndexes_self]
  refine h.withFileIndexes (fun g hg => ?_) (hindexes ▸ h.fileIndexes size) (h.valid size)
    (h.unmanaged size) (fun i => ?_) ?_
  · rcases List.mem_append.mp hg with hg | hg
    · exact h.files size g (hsplit ▸ List.mem_append_left _ hg)
    · rcases List.mem_cons.mp hg with rfl | hg
      · exact hf'
      · exact h.files size g (hsplit ▸ List.mem_append_right _ (List.mem_cons_of_mem _ hg))
  · rw [hindexes]
    exact h.indexManagers size i
  · simp only [hsplit, List.map_append, List.map_cons, List.sum_append, List.sum_cons]
    omega

/-- A slot was taken that was not in use, or none. -/
structure Takes (t t' : TemporaryFileManager) (index : Option TemporaryFileIndex) : Prop where
  sound : t'.FilesSound
  usedBlocks : t'.usedBlocks = t.usedBlocks
  inUse : ∀ i, t'.InUse i ↔ t.InUse i ∨ index = some i
  fresh : ∀ i, index = some i → ¬ t.InUse i

theorem Takes.refl (h : t.FilesSound) : Takes t t none :=
  ⟨h, rfl, fun i => by simp, fun i hi => by cases hi⟩

theorem Takes.trans {t'' : TemporaryFileManager} {index : Option TemporaryFileIndex}
    (h : Takes t t' none) (h' : Takes t' t'' index) : Takes t t'' index := by
  have hsame (i : TemporaryFileIndex) : t'.InUse i ↔ t.InUse i := by
    rw [h.inUse i]
    simp
  refine ⟨h'.sound, h'.usedBlocks.trans h.usedBlocks, fun i => ?_, fun i hi => ?_⟩
  · rw [h'.inUse i, hsame]
  · rw [← hsame]
    exact h'.fresh i hi

variable {result : Except TemporaryFileError (Option TemporaryFileIndex)}

theorem reported_unmanaged (h : m.manager = false) (size : TemporaryBufferSize) :
    m.reported size = 0 := by
  rw [BlockIndexManager.reported, h]
  rfl

structure Gives (t t' : TemporaryFileManager) (index : TemporaryFileIndex) : Prop where
  sound : t'.FilesSound
  usedBlocks : t'.usedBlocks = t.usedBlocks
  inUse : ∀ i, t'.InUse i ↔ t.InUse i ∧ i ≠ index

theorem Gives.trans {t'' : TemporaryFileManager} (h : Gives t t' index) (h' : Takes t' t'' none) :
    Gives t t'' index := by
  refine ⟨h'.sound, h'.usedBlocks.trans h.usedBlocks, fun i => ?_⟩
  rw [h'.inUse, h.inUse]
  simp

/-- The stored blocks have the slots that are in use, each one of its own. -/
structure Sound (t : TemporaryFileManager) : Prop where
  files : t.FilesSound
  entries : ∀ id, t.usedBlocks id ≠ some none
  inUse : ∀ index, t.InUse index ↔ ∃ id, t.usedBlocks id = some (some index)
  exclusive : ∀ id id' index, t.usedBlocks id = some (some index) →
    t.usedBlocks id' = some (some index) → id = id'

theorem FilesSound.setUsedBlock (h : t.FilesSound) (id : Int)
    (entry : Option (Option TemporaryFileIndex)) : (t.setUsedBlock id entry).FilesSound :=
  ⟨h.files, h.fileIndexes, h.valid, h.unmanaged, h.indexManagers, h.accounting⟩

variable {id : Int}

/-- A call with what the file system and the compression do. -/
inductive Call
  | write (id : Int) (size : TemporaryBufferSize) (encrypted : Bool) (order : List Nat)
      (fail : Failures)
  | read (id : Int) (fail : Failures)
  | delete (id : Int) (fail : Failures)

def call (t : TemporaryFileManager) : Call → Except TemporaryFileError Nat × TemporaryFileManager
  | .write id size encrypted order fail => t.writeTemporaryBuffer id size encrypted order fail
  | .read id fail => t.readTemporaryBuffer id fail
  | .delete id fail => t.deleteTemporaryBuffer id fail

/-- Blocks are written while they are not stored, and read and deleted while they are. -/
def Permitted (t : TemporaryFileManager) : Call → Prop
  | .write id _ _ _ _ => t.usedBlocks id = none
  | .read id _ | .delete id _ => t.usedBlocks id ≠ none

def lts (maxSwapSpace : Nat) : Lts TemporaryFileManager Call where
  init t := t = create maxSwapSpace
  step t c t' := t' = (t.call c).2

/-- The size of a file: its slots up to the highest used one, times the slot size. -/
def fileSize (f : TemporaryFileHandle) : Nat :=
  f.indexManager.maxIndexInUse * physicalBlockSize f.identifier.size f.identifier.encrypted

/-- The slots are exclusive and the accounting is exact. A file is truncated to its maximum, and
the index of the next file of a size class belongs to no file. -/
structure Exact (t : TemporaryFileManager) : Prop where
  exclusive : ∀ id id' index, t.usedBlocks id = some (some index) →
    t.usedBlocks id' = some (some index) → id = id'
  below : ∀ id entry, t.usedBlocks id = some entry → ∃ index f, entry = some index ∧
    (t.files index.identifier.size).getFile index.identifier.fileIndex = some f ∧
      index.blockIndex < f.indexManager.maxIndex
  reported : t.disk.sizeOnDisk =
    (TemporaryBufferSize.all.map fun size => ((t.files size).map fileSize).sum).sum
  fileIndexes : ∀ size, (t.files size).fileIndexes.Nodup
  newFile : ∀ size i m d, (t.indexManagers size).getNewBlockIndex size t.disk = some (i, m, d) →
    i ∉ (t.files size).fileIndexes

theorem Sound.exact (h : t.Sound) : t.Exact where
  exclusive := h.exclusive
  below id entry hentry := by
    cases entry with
    | none => exact absurd hentry (h.entries id)
    | some index =>
        obtain ⟨f, hf, hfid, hmem⟩ := (h.inUse index).mpr ⟨id, hentry⟩
        refine ⟨index, f, rfl, ?_, ((h.files.files _ f hf).valid.covers _).mpr (.inr hmem)⟩
        rw [← hfid]
        exact Files.getFile_of_mem (hfid ▸ h.files.fileIndexes _) (hfid ▸ hf)
  reported := by
    rw [h.files.accounting]
    refine congrArg List.sum (List.map_congr_left fun size _ => ?_)
    refine congrArg List.sum (List.map_congr_left fun f hf => ?_)
    have hfile := h.files.files size f hf
    rw [TemporaryFileHandle.reported, BlockIndexManager.reported, if_pos hfile.manager, fileSize,
      hfile.encrypted, hfile.valid.top]
  fileIndexes := h.files.fileIndexes
  newFile size i m d hnew := by
    have hreported := reported_unmanaged (h.files.unmanaged size) size
    rw [← h.files.indexManagers]
    exact (BlockIndexManager.getNewBlockIndex_spec (h.files.valid size)
      (hreported ▸ Nat.zero_le _) hnew).1

end TemporaryFileManager

end TemporaryFile
end MiniDuck
