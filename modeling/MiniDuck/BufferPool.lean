import MiniDuck.CachedCounter
import MiniDuck.Lts

/-!
# The buffer pool

Threads pin and unpin blocks, and evict the blocks of others to make room
for their own. `poolStep` runs one section of some thread: a section under
the lock of a block, an operation of the eviction queue, or a read or an
update of the memory counters. `bufferPoolLts` has every interleaving.

Where the source takes care about the order inside a section, the section
is cut in two: `AddToEvictionQueue` counts the previous entry of its block
before the new sequence number makes that entry stale (`enqueuing`), and a
block whose last pointer is gone looks dead to the queue before its
destructor has counted its entry (`expired`).

The queue is a multiset, since the concurrent queue promises no order
between its producers.
-/

namespace MiniDuck

/-! ## Memory usage -/

/-- The counter of the total, with `MEMORY_USAGE_CACHE_COUNT` caches. -/
abbrev MemoryUsage := CachedCounter (Fin 64)

namespace MemoryUsage

/-- `MEMORY_USAGE_CACHE_THRESHOLD`. -/
def cacheThreshold : Nat := 32 * 1024

/-- `UpdateUsedMemory` on a processor, for the total. -/
def updateUsedMemory (u : MemoryUsage) (size : Int) (cpu : Fin 64) : MemoryUsage :=
  if size = 0 then u
  else if size.natAbs ≥ cacheThreshold then u.addShared size
  else u.addCached cacheThreshold cpu size

/-- `GetUsedMemory` with `NO_FLUSH`. -/
def getUsedMemory (u : MemoryUsage) : Nat := u.shared.toNat

end MemoryUsage

/-! ## Blocks and reservations -/

inductive FileBufferType
  | block
  | managedBuffer
  | tinyBuffer
  | externalFile
  deriving DecidableEq

inductive DestroyBufferUpon
  | block
  | eviction
  | unpin
  deriving DecidableEq

inductive CanUnloadResult
  | canUnload
  | alreadyUnloaded
  | pinned
  | noTempDirectory
  deriving DecidableEq

/-- Where a block is in its life. Its lock is free in an `idle` block. -/
inductive BlockPhase
  | idle
  | enqueuing
  | expired
  | destroyed
  deriving DecidableEq

/-- `BlockMemory`, with the allocated size of its buffer while it is loaded. -/
structure BlockMemory where
  /-- `BlockId() >= MAXIMUM_BLOCK`. -/
  temporary : Bool
  bufferType : FileBufferType
  buffer : Option Nat
  readers : Nat
  evictionSeqNum : Nat
  hasQueueEntry : Bool
  destroyBufferUpon : DestroyBufferUpon
  memoryUsage : Nat
  memoryCharge : Nat
  phase : BlockPhase
  deriving DecidableEq

namespace BlockMemory

/-- The constructor for a block on disk. -/
def ofBlock (blockAllocSize : Nat) : BlockMemory :=
  ⟨false, .block, none, 0, 0, false, .block, blockAllocSize, 0, .idle⟩

/-- The constructor for a new buffer, which takes a reservation over. -/
def ofBuffer (bufferType : FileBufferType) (alloc : Nat)
    (destroyBufferUpon : DestroyBufferUpon) (size : Nat) : BlockMemory :=
  ⟨true, bufferType, some alloc, 0, 0, false, destroyBufferUpon, size, size, .idle⟩

def mustAddToEvictionQueue (m : BlockMemory) : Bool :=
  m.destroyBufferUpon != .unpin

def mustWriteToTemporaryFile (m : BlockMemory) : Bool :=
  m.destroyBufferUpon == .block

def canReload (m : BlockMemory) : Bool :=
  m.destroyBufferUpon == .block

def canUnload (m : BlockMemory) (hasTemporaryDirectory : Bool) : CanUnloadResult :=
  if m.buffer = none then .alreadyUnloaded
  else if m.readers > 0 then .pinned
  else if m.temporary && m.mustWriteToTemporaryFile && !hasTemporaryDirectory then
    .noTempDirectory
  else .canUnload

/-- `UnloadAndTakeBlock` but for the write to the temporary file. -/
def unload (m : BlockMemory) : BlockMemory :=
  { m with buffer := none, memoryCharge := 0 }

/-- `weak_ptr::expired`. -/
def isExpired (m : BlockMemory) : Bool :=
  m.phase == .expired || m.phase == .destroyed

end BlockMemory

/-- Blocks are known by their position. -/
structure BufferEvictionNode where
  memory : Nat
  handleSequenceNumber : Nat
  deriving DecidableEq

/-- `IsDeadNode`. -/
def BufferEvictionNode.isDead (blocks : List BlockMemory) (node : BufferEvictionNode) : Bool :=
  match blocks[node.memory]? with
  | none => true
  | some m => m.isExpired || node.handleSequenceNumber != m.evictionSeqNum

/-- How far `EvictBlocksOrThrow` is: the size is known, it is counted as used, or
the eviction has succeeded. -/
inductive EvictionStage
  | required
  | reserved
  | granted
  deriving DecidableEq

/-- The `TempBufferPoolReservation` of a thread, for a block or for a new buffer. -/
structure Reservation where
  memory : Option Nat
  size : Nat
  stage : EvictionStage
  deriving DecidableEq

/-! ## The pool -/

/-- The dead nodes are counted in an integer; the counter of the source wraps
where this one is negative. -/
structure PoolState where
  memoryUsage : MemoryUsage
  hasTemporaryDirectory : Bool
  blocks : List BlockMemory
  reservations : Multiset Reservation
  queue : Multiset BufferEvictionNode
  dequeued : Multiset BufferEvictionNode
  totalDeadNodes : Int

namespace PoolState

def start : PoolState := ⟨.zero, false, [], 0, 0, 0, 0⟩

def setBlock (s : PoolState) (b : Nat) (m : BlockMemory) : PoolState :=
  { s with blocks := s.blocks.set b m }

def updateUsedMemory (s : PoolState) (size : Int) (cpu : Fin 64) : PoolState :=
  { s with memoryUsage := MemoryUsage.updateUsedMemory s.memoryUsage size cpu }

/-- A block is unloaded and its charge given back. -/
def unload (s : PoolState) (b : Nat) (m : BlockMemory) (cpu : Fin 64) : PoolState :=
  (s.setBlock b m.unload).updateUsedMemory (-m.memoryCharge) cpu

/-- A live node goes back to the queue. -/
def requeue (s : PoolState) (node : BufferEvictionNode) (m : BlockMemory) : PoolState :=
  { s.setBlock node.memory { m with hasQueueEntry := true } with queue := node ::ₘ s.queue }

/-- A reservation goes to another stage. -/
def setStage (s : PoolState) (r : Reservation) (stage : EvictionStage) : PoolState :=
  { s with reservations := { r with stage := stage } ::ₘ s.reservations.erase r }

end PoolState

/-- Sections about one block. -/
inductive MemoryOp
  | require
  | pin
  | load (r : Reservation) (alloc : Nat) (cpu : Fin 64)
  | unpin (cpu : Fin 64)
  | addToEvictionQueue
  | expire
  | destroy (cpu : Fin 64)
  | setDestroyBufferUpon (upon : DestroyBufferUpon)

inductive PoolOp
  | registerBlock (blockAllocSize : Nat)
  | requireBuffer (size : Nat)
  | reserve (r : Reservation) (cpu : Fin 64)
  | grant (r : Reservation)
  | release (r : Reservation) (cpu : Fin 64)
  | giveUp (r : Reservation)
  | registerMemory (r : Reservation) (external canDestroy : Bool)
  | registerSmallMemory (r : Reservation) (alloc : Nat)
  | block (b : Nat) (op : MemoryOp)
  | dequeue (node : BufferEvictionNode)
  | evict (node : BufferEvictionNode) (reuse : Option Reservation) (written : Bool) (cpu : Fin 64)
  | purge (node : BufferEvictionNode) (wasAlive : Bool)
  | setTemporaryDirectory (path : Bool)
  | flush

/-- `IterateUnloadableBlocks` from the lock of a block on whose live entry it has
taken. `written` says whether a write to the temporary file succeeds, and
`reuse` is the reservation that a buffer of its size is handed to, if any. -/
def PoolState.evictBlock (s : PoolState) (node : BufferEvictionNode) (m : BlockMemory)
    (reuse : Option Reservation) (written : Bool) (cpu : Fin 64) : PoolState :=
  match m.canUnload s.hasTemporaryDirectory with
  | .alreadyUnloaded | .pinned => s.setBlock node.memory { m with hasQueueEntry := false }
  | .noTempDirectory => s.requeue node m
  | .canUnload =>
      if m.temporary && m.mustWriteToTemporaryFile && !written then s.requeue node m
      else
        let unloaded := s.unload node.memory { m with hasQueueEntry := false } cpu
        match reuse with
        | none => unloaded
        | some r =>
            if r ∈ s.reservations ∧ r.stage = .reserved ∧ m.buffer = some r.size then
              unloaded.setStage r .granted
            else unloaded

/-- A section about the block at a position. `load` is `Pin` from its second lock
on for a block that is still unloaded; what it reads may be smaller than the
block was, never larger. -/
def PoolState.blockStep (s : PoolState) (b : Nat) (m : BlockMemory) : MemoryOp → Option PoolState
  | .require =>
      if m.phase = .idle ∧ m.buffer = none then
        some { s with reservations := ⟨some b, m.memoryUsage, .required⟩ ::ₘ s.reservations }
      else none
  | .pin =>
      if m.phase = .idle ∧ m.buffer ≠ none then
        some (s.setBlock b { m with readers := m.readers + 1 })
      else none
  | .load r alloc cpu =>
      if (m.phase = .idle ∧ m.buffer = none ∧ m.canReload ∧ alloc ≤ m.memoryUsage) ∧
          r ∈ s.reservations ∧ r.stage = .granted ∧ r.memory = some b then
        -- `ChangeMemoryUsage` if the buffer is smaller
        let size := if alloc = m.memoryUsage then r.size else alloc
        let loaded := { m with
          buffer := some alloc, readers := 1, memoryUsage := alloc, memoryCharge := size }
        some ({ s.setBlock b loaded with reservations := s.reservations.erase r }
          |>.updateUsedMemory (size - r.size) cpu)
      else none
  | .unpin cpu =>
      if m.phase = .idle ∧ m.buffer ≠ none ∧ m.bufferType ≠ .tinyBuffer ∧ m.readers > 0 then
        let unpinned := { m with readers := m.readers - 1 }
        if unpinned.readers > 0 then some (s.setBlock b unpinned)
        else if m.mustAddToEvictionQueue then
          some { s.setBlock b { unpinned with phase := .enqueuing } with
            totalDeadNodes := s.totalDeadNodes + m.hasQueueEntry.toNat }
        else some (s.unload b unpinned cpu)
      else none
  | .addToEvictionQueue =>
      if m.phase = .enqueuing then
        some { s.setBlock b { m with
            evictionSeqNum := m.evictionSeqNum + 1, hasQueueEntry := true, phase := .idle } with
          queue := ⟨b, m.evictionSeqNum + 1⟩ ::ₘ s.queue }
      else none
  | .expire =>
      if m.phase = .idle ∧ (m.readers = 0 ∨ m.bufferType = .tinyBuffer) ∧
          ∀ r ∈ s.reservations, r.memory ≠ some b then
        some (s.setBlock b { m with phase := .expired })
      else none
  | .destroy cpu =>
      if m.phase = .expired then
        some { s.unload b { m with phase := .destroyed } cpu with
          totalDeadNodes := s.totalDeadNodes +
            (m.hasQueueEntry && m.bufferType != .tinyBuffer).toNat }
      else none
  | .setDestroyBufferUpon upon =>
      if m.isExpired = false then some (s.setBlock b { m with destroyBufferUpon := upon })
      else none

/-- Runs one section, `none` if no thread can run it now. -/
def poolStep (maximumMemory : Nat) (s : PoolState) : PoolOp → Option PoolState
  | .registerBlock blockAllocSize =>
      some { s with blocks := s.blocks ++ [.ofBlock blockAllocSize] }
  | .requireBuffer size =>
      some { s with reservations := ⟨none, size, .required⟩ ::ₘ s.reservations }
  | .reserve r cpu =>
      if r ∈ s.reservations ∧ r.stage = .required then
        some ((s.setStage r .reserved).updateUsedMemory r.size cpu)
      else none
  | .grant r =>
      if r ∈ s.reservations ∧ r.stage = .reserved ∧
          MemoryUsage.getUsedMemory s.memoryUsage ≤ maximumMemory then
        some (s.setStage r .granted)
      else none
  | .release r cpu =>
      if r ∈ s.reservations ∧ r.stage ≠ .required then
        some ((s.setStage r .required).updateUsedMemory (-r.size) cpu)
      else none
  | .giveUp r =>
      if r ∈ s.reservations ∧ r.stage = .required then
        some { s with reservations := s.reservations.erase r }
      else none
  | .registerMemory r external canDestroy =>
      if r ∈ s.reservations ∧ r.stage = .granted ∧ r.memory = none then
        some { s with
          reservations := s.reservations.erase r
          blocks := s.blocks ++ [.ofBuffer (if external then .externalFile else .managedBuffer)
            r.size (if canDestroy then .eviction else .block) r.size] }
      else none
  | .registerSmallMemory r alloc =>
      if r ∈ s.reservations ∧ r.stage = .granted ∧ r.memory = none then
        some { s with
          reservations := s.reservations.erase r
          blocks := s.blocks ++ [.ofBuffer .tinyBuffer alloc .block r.size] }
      else none
  | .block b op => s.blocks[b]?.bind fun m => s.blockStep b m op
  | .dequeue node =>
      if node ∈ s.queue then
        some { s with queue := s.queue.erase node, dequeued := node ::ₘ s.dequeued }
      else none
  | .evict node reuse written cpu => s.blocks[node.memory]?.bind fun m =>
      if node ∈ s.dequeued ∧ m.phase ≠ .enqueuing then
        let taken := { s with dequeued := s.dequeued.erase node }
        if node.isDead s.blocks then some { taken with totalDeadNodes := s.totalDeadNodes - 1 }
        else some (taken.evictBlock node m reuse written cpu)
      else none
  | .purge node wasAlive =>
      -- a node that was alive when it was looked at goes back, also if it has died since
      if node ∈ s.dequeued ∧ (wasAlive ∨ node.isDead s.blocks) then
        let taken := { s with dequeued := s.dequeued.erase node }
        if wasAlive then some { taken with queue := node ::ₘ s.queue }
        else some { taken with totalDeadNodes := s.totalDeadNodes - 1 }
      else none
  | .setTemporaryDirectory path => some { s with hasTemporaryDirectory := path }
  | .flush => some { s with memoryUsage := s.memoryUsage.flush }

def bufferPoolLts (maximumMemory : Nat) : Lts PoolState PoolOp where
  init s := s = .start
  step s op t := poolStep maximumMemory s op = some t

end MiniDuck
