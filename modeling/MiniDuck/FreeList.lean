import MiniDuck.BlockManager
import MiniDuck.MetadataReading

/-!
# The free list of a database file

`WriteHeader` stores which blocks are free in metadata sub-blocks, and
these come from the same block manager and metadata manager that it is
about to describe. So `getFreeListBlocks` first allocates sub-blocks
until what there is to write fits, although each allocation may change
what there is to write, `markBlocksAsModified` then frees the metadata
that the last checkpoint has dropped, and only then the list is written,
by a `FreeListBlockWriter` that has the allocated sub-blocks and no
other. `loadFreeList` reads it back into managers that know nothing yet.

The maps of the source are functions here. Their entries are below the
end of the file (`StorageInv.multi_lt` and its neighbours), and so `ids`
finds them all.

`StorageRun` joins the runs of the block manager with the metadata
manager that uses it.
-/

namespace MiniDuck

/-- The order in which the unordered maps and sets are walked. -/
structure WalkOrder where
  order : Finset Nat → List Nat
  nodup : ∀ s, (order s).Nodup
  mem : ∀ s b, b ∈ order s ↔ b ∈ s

structure StorageManager where
  blockManager : SingleFileBlockManager
  space : MetadataSpace

def invalidIndex : Nat := 2 ^ 64 - 1

namespace StorageManager

variable (order : WalkOrder) (size : Nat) (s : StorageManager)

def ids {α : Type} (entries : Nat → Option α) : Finset Nat :=
  (Finset.range s.blockManager.maxBlock).filter fun b => (entries b).isSome

def blockIds : Finset Nat := s.ids s.space.manager.blocks

def multiUseIds : Finset Nat := s.ids s.blockManager.multiUseBlocks

/-! ## Allocating sub-blocks -/

def hasFreeBlocks (b : Nat) : Bool :=
  match s.space.manager.blocks b with
  | some block => !block.freeBlocks.isEmpty
  | none => false

/-- The search of `AllocateHandle`. -/
def findFree : Option Nat := (order.order s.blockIds).find? s.hasFreeBlocks

/-- `ConvertToTransient` gives the handle of a block on disk back. Those are
the blocks that are not dirty. -/
def convertToTransient (b : Nat) : SingleFileBlockManager :=
  match s.space.manager.blocks b with
  | some ⟨_, false⟩ => s.blockManager.unregisterBlock b
  | _ => s.blockManager

/-- What `AllocateHandle` asks of the block manager: a new block if none with
space was found, or none before the next id. -/
def blockFor (found : Option Nat) : Except StreamError SingleFileBlockManager :=
  match found.filter (· ≤ s.blockManager.peekFreeBlockId) with
  | some freeBlock => .ok (s.convertToTransient freeBlock)
  | none =>
      match s.blockManager.getFreeBlockIdForCheckpoint with
      | (_, .error text) => .error (.allocation text)
      | (blockManager, .ok _) => .ok blockManager

def allocateHandle : Except StreamError (StorageManager × MetadataPointer) := do
  let found := s.findFree order
  let blockManager ← s.blockFor found
  let (space, p) ← s.space.allocateHandle (found, s.blockManager.peekFreeBlockId)
  return (⟨blockManager, space⟩, p)

/-! ## Reserving space for the list -/

/-- `free_list_count` of `GetFreeListBlocks`. -/
def freeListCount (m : SingleFileBlockManager) : Nat :=
  m.freeList.card + m.modifiedBlocks.card + m.freeBlocksInUse.card + m.newlyUsedBlocks.card

/-- `total_size` of `GetFreeListBlocks`. A multi-use entry takes a `block_id_t`
and an `uint32_t`, an entry of the metadata manager two words. -/
def totalSize : Nat :=
  (8 + 8 * freeListCount s.blockManager) + (8 + (8 + 4) * s.multiUseIds.card) +
    (8 + (8 + 8) * s.blockIds.card)

/-- The loop of `GetFreeListBlocks`. -/
def reserveLoop : Nat → StorageManager → List MetadataPointer → Nat →
    Except StreamError (List MetadataPointer × StorageManager)
  | 0, _, _, _ => .error .outOfFuel
  | fuel + 1, s, handles, allocatedSize =>
      if s.totalSize < allocatedSize then .ok (handles, s)
      else do
        let (s, handle) ← s.allocateHandle order
        reserveLoop fuel s (handles ++ [handle]) (allocatedSize + (size - pointerSize))

def getFreeListBlocks : Except StreamError (List MetadataPointer × StorageManager) :=
  reserveLoop order size (s.totalSize + 2) s [] 0

/-- The blocks that `MarkBlocksAsModified` gives back, in the order of its loop
over `modified_blocks`. -/
def erasedBlocks : List Nat :=
  (order.order (s.ids s.space.manager.modifiedBlocks)).filter fun b =>
    (s.space.manager.blocks b).isSome && (s.space.manager.mergeModified b).isNone

def markBlocksAsModified : Except StreamError StorageManager := do
  let blockManager ← (s.erasedBlocks order).foldlM
    (fun m b => (m.markBlockAsModified b).mapError StreamError.internal) s.blockManager
  return ⟨blockManager, { s.space with manager := s.space.manager.markBlocksAsModified }⟩

end StorageManager

/-! ## The writer of the list -/

/-- `FreeListBlockWriter`: a `MetadataWriter` whose `NextHandle` takes the
sub-blocks allocated before. -/
structure FreeListBlockWriter where
  writer : MetadataWriter
  freeListBlocks : List MetadataPointer
  index : Nat

namespace FreeListBlockWriter

def start (freeListBlocks : List MetadataPointer) : FreeListBlockWriter :=
  ⟨.start, freeListBlocks, 0⟩

def nextHandle (w : FreeListBlockWriter) :
    Except StreamError (MetadataPointer × FreeListBlockWriter) :=
  match w.freeListBlocks[w.index]? with
  | none => .error (.internal ("Free List Block Writer ran out of blocks, this means not enough " ++
      "blocks were allocated up front (" ++ toString w.freeListBlocks.length ++
      " total allocated)"))
  | some handle => .ok (handle, { w with index := w.index + 1 })

variable (size : Nat)

def nextBlock (s : MetadataSpace) (w : FreeListBlockWriter) :
    Except StreamError (MetadataSpace × FreeListBlockWriter) := do
  let (p, w) ← w.nextHandle
  let s ←
    if w.writer.capacity > 0 then do
      let base ← w.writer.basePtr
      pure (s.storeNext base p.getDiskPointer)
    else pure s
  return (s.storeNext p noNextBlock,
    { w with
      writer := { w.writer with
        pinned := true
        currentPointer := p
        capacity := size
        offset := pointerSize } })

/-- The loop of `WriteData`. -/
def writeLoop : Nat → MetadataSpace → FreeListBlockWriter → List UInt8 →
    Except StreamError (MetadataSpace × FreeListBlockWriter)
  | 0, _, _, _ => .error .outOfFuel
  | fuel + 1, s, w, bytes =>
      if w.writer.offset + bytes.length > w.writer.capacity then do
        let (s₁, writer) ← w.writer.fill s bytes
        let (s₂, w₂) ← nextBlock size s₁ { w with writer := writer }
        writeLoop fuel s₂ w₂ (bytes.drop (w.writer.capacity - w.writer.offset))
      else do
        let (s₁, writer) ← w.writer.copyData s bytes
        return (s₁, { w with writer := writer })

def writeData (s : MetadataSpace) (w : FreeListBlockWriter) (bytes : List UInt8) :
    Except StreamError (MetadataSpace × FreeListBlockWriter) :=
  writeLoop size (bytes.length + 2) s w bytes

def getMetaBlockPointer (s : MetadataSpace) (w : FreeListBlockWriter) :
    Except StreamError (MetaBlockPointer × MetadataSpace × FreeListBlockWriter) := do
  let (s, w) ←
    if w.writer.offset ≥ w.writer.capacity then nextBlock size s w else pure (s, w)
  return (⟨w.writer.currentPointer.getDiskPointer, w.writer.offset⟩, s, w)

/-- One `Write` after the other. -/
def writeAll (s : MetadataSpace) (w : FreeListBlockWriter) : List (List UInt8) →
    Except StreamError (MetadataSpace × FreeListBlockWriter)
  | [] => .ok (s, w)
  | bytes :: rest => do
      let (s, w) ← w.writeData size s bytes
      writeAll s w rest

end FreeListBlockWriter

namespace StorageManager

variable (order : WalkOrder) (size : Nat) (s : StorageManager)

/-- The values that `WriteHeader` writes, one by one. -/
def freeListFields (header : BlockHeader) : List (List UInt8) :=
  (storeBytes 8 header.freeBlocks.card :: (header.freeBlocks.sort (· ≤ ·)).map (storeBytes 8)) ++
  (storeBytes 8 (s.ids header.multiUseBlocks).card ::
    (order.order (s.ids header.multiUseBlocks)).flatMap fun b =>
      [storeBytes 8 b, storeBytes 4 ((header.multiUseBlocks b).getD 0)]) ++
  (storeBytes 8 s.blockIds.card ::
    (order.order s.blockIds).flatMap fun b =>
      [storeBytes 8 b, storeBytes 8 ((s.space.manager.write b).getD 0).toNat])

/-- What `WriteHeader` does under the lock, up to `Flush` of its writer. Returns
`header.free_list`. -/
def writeFreeList (handles : List MetadataPointer) : Except StreamError (Nat × StorageManager) :=
  let (blockManager, header) := s.blockManager.snapshotHeader
  if handles.isEmpty then .ok (invalidIndex, ⟨blockManager, s.space⟩)
  else do
    let writer := FreeListBlockWriter.start handles
    let (ptr, space, writer) ← writer.getMetaBlockPointer size s.space
    let (space, writer) ← writer.writeAll size space (s.freeListFields order header)
    let (space, _) ← writer.writer.flush space
    return (ptr.blockPointer, ⟨blockManager, space⟩)

/-- `WriteHeader`, as far as the free list goes. -/
def writeHeader : Except StreamError (Nat × StorageManager) := do
  let (handles, s) ← s.getFreeListBlocks order size
  let s ← s.markBlocksAsModified order
  s.writeFreeList order size handles

end StorageManager

/-! ## Loading the list -/

/-- `Read<T>` of a number. -/
def MetadataReader.readWord (size width : Nat) (s : MetadataSpace) (r : MetadataReader) :
    Except StreamError (Nat × MetadataSpace × MetadataReader) := do
  let (bytes, s, r) ← r.readData size s width
  return (loadWord bytes, s, r)

/-- One round of the loop in `MetadataManager::Read`. -/
def MetadataManager.readBlock (m : MetadataManager) (blockId : Nat) (freeList : BitVec 64) :
    MetadataManager :=
  let block : MetadataBlock :=
    match m.blocks blockId with
    | some block => { block with freeBlocks := blocksFromInteger freeList }
    | none => ⟨blocksFromInteger freeList, false⟩
  { m with blocks := Function.update m.blocks blockId (some block) }

namespace StorageManager

variable (order : WalkOrder) (size : Nat)

def readFreeBlocks : Nat → Finset Nat → MetadataSpace → MetadataReader →
    Except StreamError (Finset Nat × MetadataSpace × MetadataReader)
  | 0, freeList, s, r => .ok (freeList, s, r)
  | count + 1, freeList, s, r => do
      let (block, s, r) ← r.readWord size 8 s
      readFreeBlocks count (insert block freeList) s r

def readMultiUseBlocks : Nat → (Nat → Option Nat) → MetadataSpace → MetadataReader →
    Except StreamError ((Nat → Option Nat) × MetadataSpace × MetadataReader)
  | 0, multiUse, s, r => .ok (multiUse, s, r)
  | count + 1, multiUse, s, r => do
      let (blockId, s, r) ← r.readWord size 8 s
      let (usageCount, s, r) ← r.readWord size 4 s
      readMultiUseBlocks count (Function.update multiUse blockId (some usageCount)) s r

/-- `MetadataManager::Read`. -/
def readMetadataBlocks : Nat → MetadataSpace → MetadataReader →
    Except StreamError (MetadataSpace × MetadataReader)
  | 0, s, r => .ok (s, r)
  | count + 1, s, r => do
      let (blockId, s, r) ← r.readWord size 8 s
      let (freeList, s, r) ← r.readWord size 8 s
      readMetadataBlocks count
        { s with manager := s.manager.readBlock blockId (BitVec.ofNat 64 freeList) } r

def loadFreeList (s : StorageManager) (freeListId : Nat) : Except StreamError StorageManager :=
  if freeListId = invalidIndex then .ok s
  else do
    let reader := MetadataReader.start ⟨freeListId, 0⟩ .registerBlocks
    let (freeListCount, space, reader) ← reader.readWord size 8 s.space
    let (freeList, space, reader) ← readFreeBlocks size freeListCount ∅ space reader
    let (multiUseBlocksCount, space, reader) ← reader.readWord size 8 space
    let (multiUseBlocks, space, reader) ←
      readMultiUseBlocks size multiUseBlocksCount (fun _ => none) space reader
    let (blockCount, space, reader) ← reader.readWord size 8 space
    let (space, _) ← readMetadataBlocks size blockCount space reader
    let blockManager :=
      { s.blockManager with freeList := freeList, multiUseBlocks := multiUseBlocks }
    markBlocksAsModified order ⟨blockManager, space⟩

end StorageManager

/-! ## Runs -/

/-- A run of the block manager with the metadata manager on top. -/
structure StorageRun where
  run : BlockRun
  space : MetadataSpace

def StorageRun.storage (s : StorageRun) : StorageManager := ⟨s.run.manager, s.space⟩

inductive StorageOp
  | block (op : BlockOp)
  | allocateHandle
  | write (p : MetadataPointer)
  | clearModifiedBlocks (p : MetadataPointer)
  | markBlocksAsModified
  | flush

namespace StorageRun

/-- The calls that others make on the block manager: they drop no metadata
block, and only open blocks that somebody references. -/
def Permits (s : StorageRun) : BlockOp → Prop
  | .markBlockAsModified b => s.space.manager.blocks b = none
  | .registerBlock b => 1 ≤ s.run.refs b
  | _ => True

def afterAllocate (s : StorageRun) (t : StorageManager) : StorageRun :=
  ⟨{ s.run with
    manager := t.blockManager
    refs := fun b => if s.space.manager.blocks b = none ∧ t.space.manager.blocks b ≠ none
      then 1 else s.run.refs b }, t.space⟩

def afterMark (s : StorageRun) (t : StorageManager) : StorageRun :=
  ⟨{ s.run with
    manager := t.blockManager
    refs := fun b => if s.space.manager.blocks b ≠ none ∧ t.space.manager.blocks b = none
      then s.run.refs b - 1 else s.run.refs b }, t.space⟩

inductive Step : StorageRun → StorageOp → StorageRun → Prop
  | block {s : StorageRun} {op : BlockOp} {run : BlockRun} : s.Permits op →
      BlockRun.Step s.run op run → Step s (.block op) { s with run := run }
  | allocateHandle {s : StorageRun} {order : WalkOrder} {t : StorageManager}
      {p : MetadataPointer} : s.storage.allocateHandle order = .ok (t, p) →
      Step s .allocateHandle (s.afterAllocate t)
  | write {s : StorageRun} {p : MetadataPointer} {bytes : Nat → UInt8} :
      Step s (.write p)
        { s with space := { s.space with data := Function.update s.space.data p bytes } }
  | clearModifiedBlocks {s : StorageRun} {p : MetadataPointer} {m : MetadataManager} :
      p.index < 64 → s.space.manager.clearModifiedBlock p = .ok m →
      Step s (.clearModifiedBlocks p) { s with space := { s.space with manager := m } }
  | markBlocksAsModified {s : StorageRun} {order : WalkOrder} {t : StorageManager} :
      s.storage.markBlocksAsModified order = .ok t →
      Step s .markBlocksAsModified (s.afterMark t)
  | flush {s : StorageRun} :
      Step s .flush { s with space := { s.space with manager := s.space.manager.flush } }

/-- A freshly loaded file: metadata blocks are referenced, and all that is
occupied is marked as modified. -/
structure Initial (s : StorageRun) : Prop where
  run : s.run.Initial
  live : ∀ b ∈ s.run.manager.liveHandles, 1 ≤ s.run.refs b
  lists : s.space.manager.FreeListsOk
  held : ∀ b, s.space.manager.blocks b ≠ none → 1 ≤ s.run.refs b
  modified : ∀ b, s.space.manager.modifiedBlocks b =
    (s.space.manager.blocks b).map fun block => ~~~(freeBlocksToInteger block.freeBlocks)

end StorageRun

def storageLts : Lts StorageRun StorageOp where
  init := StorageRun.Initial
  step := StorageRun.Step

end MiniDuck
