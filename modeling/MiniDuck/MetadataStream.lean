import MiniDuck.MetadataManager
import MiniDuck.SwarWord

/-!
# Metadata streams

A `MetadataWriter` writes a stream of bytes into a chain of sub-blocks.
Each sub-block starts with eight bytes that hold the disk pointer of the
next one, or all ones in the last. A `MetadataReader` starts at a pointer
into such a chain and follows it.

Both work on a `MetadataSpace`: the manager and the bytes of every
sub-block. The loops of `WriteData` and `ReadData` carry fuel; a call
needs one round for each sub-block it touches, and one more
(`writeData_spec`, `readData_spec`).

`StreamRun` is any number of writers over one space, with the record of
what was written and which pointers were handed out.
-/

namespace MiniDuck

/-- `Storage::MIN_BLOCK_ALLOC_SIZE` without the largest block header. -/
def minBlockSize : Nat := 16384 - 128

/-- What `GetBlockSize` may return. -/
structure BlockSize where
  value : Nat
  large : minBlockSize ≤ value

/-- `GetMetadataBlockSize`: aligned down to eight bytes. -/
def BlockSize.metadataBlockSize (b : BlockSize) : Nat :=
  b.value / metadataBlockCount / 8 * 8

/-- `sizeof(idx_t)`, the length of the pointer to the next sub-block. -/
def pointerSize : Nat := 8

/-- The `idx_t(-1)` that ends a chain. -/
def noNextBlock : Nat := 2 ^ 64 - 1

structure MetaBlockPointer where
  blockPointer : Nat
  offset : Nat
  deriving Repr, DecidableEq

namespace MetaBlockPointer

/-- `GetBlockId`: all but the topmost byte. -/
def getBlockId (p : MetaBlockPointer) : Nat := p.blockPointer % 2 ^ 56

/-- `GetBlockIndex`: the topmost byte. -/
def getBlockIndex (p : MetaBlockPointer) : Nat := p.blockPointer >>> 56

end MetaBlockPointer

inductive BlockReaderType
  | existingBlocks
  | registerBlocks
  deriving Repr, DecidableEq

/-- How a call on a stream can fail: an exception, a failing assertion, or the
fuel of the model. -/
inductive StreamError
  | io (text : String)
  | internal (text : String)
  | allocation (text : String)
  | invalidHandle
  | outOfFuel
  deriving Repr, DecidableEq

def noMoreData : StreamError := .io "No more data remaining in MetadataReader"

/-! ## The manager's side -/

def MetadataManager.fromDiskPointer (m : MetadataManager) (pointer : MetaBlockPointer) :
    Except StreamError MetadataPointer :=
  if pointer.getBlockIndex ≥ metadataBlockCount then
    .error (.io ("Metadata block index " ++ toString pointer.getBlockIndex ++
      " exceeds metadata block count " ++ toString metadataBlockCount))
  else
    match m.blocks pointer.getBlockId with
    | none => .error (.internal ("Failed to load metadata pointer (id " ++
        toString pointer.getBlockId ++ ", idx " ++ toString pointer.getBlockIndex ++
        ", ptr " ++ toString pointer.blockPointer ++ ")\n"))
    | some _ => .ok ⟨pointer.getBlockId, pointer.getBlockIndex⟩

/-- `RegisterDiskPointer`: a block the manager does not know gets an empty free
list. Block ids of a pointer are below `MAXIMUM_BLOCK`. -/
def MetadataManager.registerDiskPointer (m : MetadataManager) (pointer : MetaBlockPointer) :
    Except StreamError (MetadataManager × MetadataPointer) := do
  let m := match m.blocks pointer.getBlockId with
    | some _ => m
    | none => { m with blocks := Function.update m.blocks pointer.getBlockId (some ⟨[], false⟩) }
  return (m, ← m.fromDiskPointer pointer)

/-- `Pin`, as far as the manager decides it. -/
def MetadataManager.pin (m : MetadataManager) (p : MetadataPointer) :
    Except StreamError MetadataPointer :=
  match m.blocks p.blockIndex with
  | none => .error (.internal ("Trying to pin block " ++ toString p.blockIndex ++
      " - but the block did not exist"))
  | some _ => .ok p

/-! ## Bytes of the sub-blocks -/

/-- `memcpy` to an offset. -/
def poke (bytes : List UInt8) (offset : Nat) (memory : Nat → UInt8) : Nat → UInt8 := fun j =>
  if offset ≤ j ∧ j < offset + bytes.length then bytes.getD (j - offset) 0 else memory j

/-- `memcpy` from an offset. -/
def peek (memory : Nat → UInt8) (offset size : Nat) : List UInt8 :=
  (List.range size).map fun j => memory (offset + j)

/-- The manager and the contents of the sub-blocks. -/
structure MetadataSpace where
  manager : MetadataManager
  data : MetadataPointer → Nat → UInt8

namespace MetadataSpace

def copyTo (s : MetadataSpace) (p : MetadataPointer) (offset : Nat) (bytes : List UInt8) :
    MetadataSpace :=
  { s with data := Function.update s.data p (poke bytes offset (s.data p)) }

/-- `Store<idx_t>` at the start of a sub-block. -/
def storeNext (s : MetadataSpace) (p : MetadataPointer) (next : Nat) : MetadataSpace :=
  s.copyTo p 0 (storeBytes pointerSize next)

/-- `Load<idx_t>` from the start of a sub-block. -/
def loadNext (s : MetadataSpace) (p : MetadataPointer) : Nat :=
  loadWord (peek (s.data p) 0 pointerSize)

/-- `AllocateHandle`. What its search finds and which id the block manager hands
out are given; the sub-blocks of a new block are zero. -/
def allocateHandle (s : MetadataSpace) (choice : Option Nat × Nat) :
    Except StreamError (MetadataSpace × MetadataPointer) :=
  match s.manager.allocateHandle choice.1 choice.2 with
  | .error text => .error (.allocation text)
  | .ok none => .error (.allocation "!block.free_blocks.empty()")
  | .ok (some (m, p)) => do
      let data := fun q =>
        if q.blockIndex = p.blockIndex ∧ s.manager.blocks p.blockIndex = none then fun _ => 0
        else s.data q
      return (⟨m, data⟩, ← m.pin p)

end MetadataSpace

/-! ## The writer -/

/-- `MetadataWriter`. The handle of its sub-block is pinned from the first
`NextBlock` until `Flush`. -/
structure MetadataWriter where
  pinned : Bool
  currentPointer : MetadataPointer
  writtenPointers : List MetaBlockPointer
  capacity : Nat
  offset : Nat
  deriving Repr, DecidableEq

namespace MetadataWriter

def start : MetadataWriter := ⟨false, ⟨0, 0⟩, [], 0, 0⟩

/-- `BasePtr`, which needs the handle. -/
def basePtr (w : MetadataWriter) : Except StreamError MetadataPointer :=
  if w.pinned then .ok w.currentPointer else .error .invalidHandle

variable (size : Nat) (env : MetadataManager → Option Nat × Nat)

def nextBlock (s : MetadataSpace) (w : MetadataWriter) :
    Except StreamError (MetadataSpace × MetadataWriter) := do
  let (s, p) ← s.allocateHandle (env s.manager)
  let s ←
    if w.capacity > 0 then do
      let base ← w.basePtr
      pure (s.storeNext base p.getDiskPointer)
    else pure s
  return (s.storeNext p noNextBlock,
    { pinned := true
      currentPointer := p
      writtenPointers := w.writtenPointers ++ [⟨p.getDiskPointer, 0⟩]
      capacity := size
      offset := pointerSize })

/-- `memcpy(Ptr(), ..)` and the step of the offset. -/
def copyData (s : MetadataSpace) (w : MetadataWriter) (bytes : List UInt8) :
    Except StreamError (MetadataSpace × MetadataWriter) := do
  let base ← w.basePtr
  return (s.copyTo base w.offset bytes, { w with offset := w.offset + bytes.length })

/-- What still fits into the sub-block, at the start of a round of `WriteData`. -/
def fill (s : MetadataSpace) (w : MetadataWriter) (bytes : List UInt8) :
    Except StreamError (MetadataSpace × MetadataWriter) :=
  let copyAmount := w.capacity - w.offset
  if copyAmount > 0 then copyData s w (bytes.take copyAmount) else .ok (s, w)

/-- The loop of `WriteData`. -/
def writeLoop : Nat → MetadataSpace → MetadataWriter → List UInt8 →
    Except StreamError (MetadataSpace × MetadataWriter)
  | 0, _, _, _ => .error .outOfFuel
  | fuel + 1, s, w, bytes =>
      if w.offset + bytes.length > w.capacity then do
        let (s₁, w₁) ← fill s w bytes
        let (s₂, w₂) ← nextBlock size env s₁ w₁
        writeLoop fuel s₂ w₂ (bytes.drop (w.capacity - w.offset))
      else copyData s w bytes

def writeData (s : MetadataSpace) (w : MetadataWriter) (bytes : List UInt8) :
    Except StreamError (MetadataSpace × MetadataWriter) :=
  writeLoop size env (bytes.length + 2) s w bytes

def getMetaBlockPointer (s : MetadataSpace) (w : MetadataWriter) :
    Except StreamError (MetaBlockPointer × MetadataSpace × MetadataWriter) := do
  let (s, w) ← if w.offset ≥ w.capacity then nextBlock size env s w else pure (s, w)
  return (⟨w.currentPointer.getDiskPointer, w.offset⟩, s, w)

/-- `Flush` clears the rest of the sub-block and gives the handle back. -/
def flush (s : MetadataSpace) (w : MetadataWriter) :
    Except StreamError (MetadataSpace × MetadataWriter) := do
  let s ←
    if w.offset < w.capacity then do
      let base ← w.basePtr
      pure (s.copyTo base w.offset (List.replicate (w.capacity - w.offset) 0))
    else pure s
  return (s, { w with pinned := false })

end MetadataWriter

/-! ## The reader -/

structure MetadataReader where
  type : BlockReaderType
  block : Option MetadataPointer
  nextPointer : MetaBlockPointer
  hasNextBlock : Bool
  readPointers : List MetaBlockPointer
  offset : Nat
  nextOffset : Nat
  capacity : Nat
  deriving Repr, DecidableEq

namespace MetadataReader

def start (pointer : MetaBlockPointer) (type : BlockReaderType) : MetadataReader :=
  ⟨type, none, pointer, true, [], 0, pointer.offset, 0⟩

/-- `FromDiskPointer`, which registers the block if the reader does so. -/
def fromDiskPointer (s : MetadataSpace) (r : MetadataReader) :
    Except StreamError (MetadataSpace × MetadataPointer) :=
  match r.type with
  | .existingBlocks => do return (s, ← s.manager.fromDiskPointer r.nextPointer)
  | .registerBlocks => do
      let (m, p) ← s.manager.registerDiskPointer r.nextPointer
      return ({ s with manager := m }, p)

variable (size : Nat)

def readNextBlock (s : MetadataSpace) (r : MetadataReader) :
    Except StreamError (MetadataSpace × MetadataReader) :=
  if !r.hasNextBlock then .error noMoreData
  else do
    let (s, p) ← r.fromDiskPointer s
    let block ← s.manager.pin p
    let nextBlock := s.loadNext block
    let nextOffset := if r.nextOffset < pointerSize then pointerSize else r.nextOffset
    if nextOffset > size then
      .error (.internal "next_offset cannot be bigger than block size")
    else
      return (s,
        { r with
          block := some block
          readPointers := r.readPointers ++ [r.nextPointer]
          hasNextBlock := nextBlock != noNextBlock
          nextPointer := if nextBlock = noNextBlock then r.nextPointer else ⟨nextBlock, 0⟩
          offset := nextOffset
          nextOffset := pointerSize
          capacity := size })

/-- `memcpy(.., Ptr(), ..)` and the step of the offset. -/
def copyData (s : MetadataSpace) (r : MetadataReader) (readSize : Nat) :
    Except StreamError (List UInt8 × MetadataReader) :=
  match r.block with
  | none => .error .invalidHandle
  | some block =>
      .ok (peek (s.data block) r.offset readSize, { r with offset := r.offset + readSize })

/-- What is left of the sub-block, at the start of a round of `ReadData`. -/
def drain (s : MetadataSpace) (r : MetadataReader) :
    Except StreamError (List UInt8 × MetadataReader) :=
  let toRead := r.capacity - r.offset
  if toRead > 0 then copyData s r toRead else .ok ([], r)

/-- The loop of `ReadData`. -/
def readLoop : Nat → MetadataSpace → MetadataReader → Nat →
    Except StreamError (List UInt8 × MetadataSpace × MetadataReader)
  | 0, _, _, _ => .error .outOfFuel
  | fuel + 1, s, r, readSize =>
      if r.offset + readSize > r.capacity then do
        let (front, r₁) ← drain s r
        let (s₁, r₂) ← readNextBlock size s r₁
        let (rest, s₂, r₃) ← readLoop fuel s₁ r₂ (readSize - (r.capacity - r.offset))
        return (front ++ rest, s₂, r₃)
      else do
        let (bytes, r₁) ← copyData s r readSize
        return (bytes, s, r₁)

def readData (s : MetadataSpace) (r : MetadataReader) (readSize : Nat) :
    Except StreamError (List UInt8 × MetadataSpace × MetadataReader) :=
  readLoop size (readSize + 2) s r readSize

def readAll (s : MetadataSpace) (r : MetadataReader) : List Nat →
    Except StreamError (List (List UInt8))
  | [] => .ok []
  | readSize :: sizes => do
      let (bytes, s, r) ← readData size s r readSize
      return bytes :: (← readAll s r sizes)

end MetadataReader

/-! ## Runs of writers -/

/-- A call on one of the writers, with the choices of the allocations in it. -/
inductive StreamOp (W : Type)
  | writeData (w : W) (bytes : List UInt8) (env : MetadataManager → Option Nat × Nat)
  | getMetaBlockPointer (w : W) (env : MetadataManager → Option Nat × Nat)
  | flush (w : W)

/-- Writers over one space. The last two fields record, for the statements, what
each writer was given, and its pointers with the number of bytes before. -/
structure StreamRun (W : Type) where
  space : MetadataSpace
  writers : W → MetadataWriter
  written : W → List UInt8
  pointers : W → List (MetaBlockPointer × Nat)

/-- The choices respect the manager: the search finds free space where there is
some, and a new block has an id of its own. -/
def Respects (env : MetadataManager → Option Nat × Nat) : Prop :=
  ∀ m : MetadataManager, m.Finds (env m).1 ∧ (env m).2 < 2 ^ 56

inductive StreamStep {W : Type} [DecidableEq W] (size : Nat) :
    StreamRun W → StreamOp W → StreamRun W → Prop
  | writeData {s : StreamRun W} {w : W} {bytes : List UInt8}
      {env : MetadataManager → Option Nat × Nat} {space : MetadataSpace}
      {writer : MetadataWriter} (henv : Respects env)
      (h : (s.writers w).writeData size env s.space bytes = .ok (space, writer)) :
      StreamStep size s (.writeData w bytes env)
        ⟨space, Function.update s.writers w writer,
          Function.update s.written w (s.written w ++ bytes), s.pointers⟩
  | getMetaBlockPointer {s : StreamRun W} {w : W}
      {env : MetadataManager → Option Nat × Nat} {pointer : MetaBlockPointer}
      {space : MetadataSpace} {writer : MetadataWriter} (henv : Respects env)
      (h : (s.writers w).getMetaBlockPointer size env s.space = .ok (pointer, space, writer)) :
      StreamStep size s (.getMetaBlockPointer w env)
        ⟨space, Function.update s.writers w writer, s.written,
          Function.update s.pointers w
            (s.pointers w ++ [(pointer, (s.written w).length)])⟩
  | flush {s : StreamRun W} {w : W} {space : MetadataSpace} {writer : MetadataWriter}
      (h : (s.writers w).flush s.space = .ok (space, writer)) :
      StreamStep size s (.flush w)
        ⟨space, Function.update s.writers w writer, s.written, s.pointers⟩

/-- A manager in some sound state, and no writer has begun. -/
structure StreamRun.Initial {W : Type} (s : StreamRun W) : Prop where
  lists : s.space.manager.FreeListsOk
  ids : ∀ b, s.space.manager.blocks b ≠ none → b < 2 ^ 56
  writers : ∀ w, s.writers w = .start
  written : ∀ w, s.written w = []
  pointers : ∀ w, s.pointers w = []

def streamLts (W : Type) [DecidableEq W] (size : Nat) : Lts (StreamRun W) (StreamOp W) where
  init := StreamRun.Initial
  step := StreamStep size

end MiniDuck
