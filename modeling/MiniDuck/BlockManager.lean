import MiniDuck.Lts

/-!
# The block manager of a database file

`SingleFileBlockManager` decides which blocks of the file may be
overwritten. A block that the last durable checkpoint needs must not be
handed out before the next header is on disk, so a block that loses its
last reference waits in `modifiedBlocks`, unless the last header did
not need it (`newlyUsedBlocks`). A free block with a live handle waits
in `freeBlocksInUse`.

`WriteHeader` works in phases, and other calls may come between them:
`snapshotHeader` fixes what the header will say, then the header gets
durable, then `releaseBlock` frees the blocks that the snapshot found
in `modifiedBlocks`, one by one.

`BlockRun` adds the durable header, the header in flight, and how often
each block is referenced. `Writable` says that everything allocatable
is free in a header, `RefInv` ties the five block sets to the
references.
-/

namespace MiniDuck

inductive FreeBlockType
  | newlyUsedBlock
  | checkpointedBlock
  deriving Repr, DecidableEq

/-- What a header and its free list say about the blocks. -/
structure BlockHeader where
  iteration : Nat
  freeBlocks : Finset Nat
  multiUseBlocks : Nat → Option Nat
  blockCount : Nat

structure SingleFileBlockManager where
  freeList : Finset Nat
  freeBlocksInUse : Finset Nat
  modifiedBlocks : Finset Nat
  newlyUsedBlocks : Finset Nat
  multiUseBlocks : Nat → Option Nat
  maxBlock : Nat
  iterationCount : Nat
  liveHandles : Finset Nat

namespace SingleFileBlockManager

variable (m : SingleFileBlockManager) (b : Nat)

/-- The id that `PeekFreeBlockId` returns, and the next one handed out. -/
def peekFreeBlockId : Nat :=
  if h : m.freeList.Nonempty then m.freeList.min' h else m.maxBlock

/-- Takes that id from the free list, or from behind the last block. -/
def takeFreeBlock : SingleFileBlockManager :=
  if m.freeList.Nonempty then { m with freeList := m.freeList.erase m.peekFreeBlockId }
  else { m with maxBlock := m.maxBlock + 1 }

def noteNewlyUsed (type : FreeBlockType) : SingleFileBlockManager :=
  match type with
  | .newlyUsedBlock => { m with newlyUsedBlocks := insert b m.newlyUsedBlocks }
  | .checkpointedBlock => m

def getFreeBlockIdInternal (type : FreeBlockType) :
    SingleFileBlockManager × Except String Nat :=
  let blockId := m.peekFreeBlockId
  let m := m.takeFreeBlock.noteNewlyUsed blockId type
  if blockId ∈ m.liveHandles then
    (m, .error ("Free block " ++ toString blockId ++ " is already registered"))
  else (m, .ok blockId)

def getFreeBlockId : SingleFileBlockManager × Except String Nat :=
  m.getFreeBlockIdInternal .newlyUsedBlock

def getFreeBlockIdForCheckpoint : SingleFileBlockManager × Except String Nat :=
  m.getFreeBlockIdInternal .checkpointedBlock

def markBlockAsCheckpointed : SingleFileBlockManager :=
  { m with newlyUsedBlocks := m.newlyUsedBlocks.erase b }

/-- `IncreaseBlockReferenceCount`: a block without an entry has one reference. -/
def increaseBlockReferenceCount : SingleFileBlockManager :=
  let count :=
    match m.multiUseBlocks b with
    | some count => count + 1
    | none => 2
  { m with multiUseBlocks := Function.update m.multiUseBlocks b (some count) }

def markBlockAsUsed : SingleFileBlockManager :=
  if m.maxBlock ≤ b then
    { m with
      freeList := m.freeList ∪ Finset.Ico m.maxBlock b
      maxBlock := b + 1 }
  else if b ∈ m.freeList then { m with freeList := m.freeList.erase b }
  else m.increaseBlockReferenceCount b

/-- `AddFreeBlock`: a block with a live handle is not free yet. -/
def addFreeBlock : SingleFileBlockManager :=
  if b ∈ m.liveHandles then { m with freeBlocksInUse := insert b m.freeBlocksInUse }
  else { m with freeList := insert b m.freeList }

def markBlockAsModified : Except String SingleFileBlockManager :=
  match m.multiUseBlocks b with
  | some count =>
      let entry := if count - 1 ≤ 1 then none else some (count - 1)
      .ok { m with multiUseBlocks := Function.update m.multiUseBlocks b entry }
  | none =>
      if b ∈ m.modifiedBlocks then
        .error ("MarkBlockAsModified called with already modified block id " ++ toString b)
      else if b ∈ m.freeList then
        .error ("MarkBlockAsModified called with already freed block id " ++ toString b)
      else if b ∈ m.newlyUsedBlocks then
        .ok ({ m with newlyUsedBlocks := m.newlyUsedBlocks.erase b }.addFreeBlock b)
      else .ok { m with modifiedBlocks := insert b m.modifiedBlocks }

/-- `RegisterBlock`, when it creates the handle. -/
def registerBlock : SingleFileBlockManager :=
  { m with liveHandles := insert b m.liveHandles }

def expireHandle : SingleFileBlockManager :=
  { m with liveHandles := m.liveHandles.erase b }

def releaseFreeBlockInUse : SingleFileBlockManager :=
  if b ∈ m.freeBlocksInUse then
    { m with
      freeList := insert b m.freeList
      freeBlocksInUse := m.freeBlocksInUse.erase b }
  else m

def unregisterBlock : SingleFileBlockManager :=
  (m.expireHandle b).releaseFreeBlockInUse b

def unregisterExpiredBlock : SingleFileBlockManager × Bool :=
  if b ∈ m.liveHandles then (m, false) else (m.releaseFreeBlockInUse b, true)

/-- The reverse walk of `Truncate` over the free list. -/
def truncateLoop : List Nat → Nat → Nat
  | [], maxBlock => maxBlock
  | blockId :: rest, maxBlock =>
      if blockId + 1 ≠ maxBlock then maxBlock else truncateLoop rest (maxBlock - 1)

def truncate : SingleFileBlockManager :=
  let maxBlock := truncateLoop (m.freeList.sort (· ≥ ·)) m.maxBlock
  if maxBlock < m.maxBlock then
    { m with
      freeList := m.freeList.filter (· < maxBlock)
      maxBlock := maxBlock }
  else m

/-- The locked part of `WriteHeader` that fixes the header. Newly used blocks
are written as free. -/
def snapshotHeader : SingleFileBlockManager × BlockHeader :=
  let m := { m with iterationCount := m.iterationCount + 1 }
  (m,
    { iteration := m.iterationCount
      freeBlocks := m.freeList ∪ m.freeBlocksInUse ∪ m.modifiedBlocks ∪ m.newlyUsedBlocks
      multiUseBlocks := fun b => if b ∈ m.newlyUsedBlocks then none else m.multiUseBlocks b
      blockCount := m.maxBlock })

/-- One round of the release loop at the end of `WriteHeader`. -/
def releaseBlock : SingleFileBlockManager :=
  { m with modifiedBlocks := m.modifiedBlocks.erase b }.addFreeBlock b

end SingleFileBlockManager

/-! ## Runs -/

/-- A `WriteHeader` call between its snapshot and its end. -/
structure PendingHeader where
  header : BlockHeader
  checkpointFreedBlocks : Finset Nat
  isDurable : Bool

structure BlockRun where
  manager : SingleFileBlockManager
  written : BlockHeader
  pending : Option PendingHeader
  refs : Nat → Nat

inductive BlockOp
  | getFreeBlockId (type : FreeBlockType)
  | markBlockAsCheckpointed (b : Nat)
  | markBlockAsUsed (b : Nat)
  | markBlockAsModified (b : Nat)
  | increaseBlockReferenceCount (b : Nat)
  | registerBlock (b : Nat)
  | expireHandle (b : Nat)
  | unregisterBlock (b : Nat)
  | unregisterExpiredBlock (b : Nat)
  | truncate
  | headerSnapshot
  | headerDurable
  | headerRelease (b : Nat)
  | headerDone
  deriving Repr, DecidableEq

namespace BlockRun

/-- The multi-use entry of a block agrees with its number of references. -/
def CountMatches : Option Nat → Nat → Prop
  | some count, refs => refs = count ∧ 2 ≤ count
  | none, refs => refs ≤ 1

/-- The block is past the end, free, or referenced by somebody. -/
def Known (s : BlockRun) (b : Nat) : Prop :=
  s.manager.maxBlock ≤ b ∨ b ∈ s.manager.freeList ∨ 1 ≤ s.refs b

/-- The steps. Callers only drop references they hold, and only add one to a
block that is referenced. -/
inductive Step : BlockRun → BlockOp → BlockRun → Prop
  | getFreeBlockId {s : BlockRun} {type : FreeBlockType} {m : SingleFileBlockManager} {b : Nat} :
      s.manager.getFreeBlockIdInternal type = (m, .ok b) →
      Step s (.getFreeBlockId type)
        { s with manager := m, refs := Function.update s.refs b 1 }
  | getFreeBlockIdThrows {s : BlockRun} {type : FreeBlockType} {m : SingleFileBlockManager}
      {e : String} :
      s.manager.getFreeBlockIdInternal type = (m, .error e) →
      Step s (.getFreeBlockId type) { s with manager := m }
  | markBlockAsCheckpointed {s : BlockRun} {b : Nat} :
      Step s (.markBlockAsCheckpointed b)
        { s with manager := s.manager.markBlockAsCheckpointed b }
  | markBlockAsUsed {s : BlockRun} {b : Nat} : s.Known b →
      Step s (.markBlockAsUsed b)
        { s with
          manager := s.manager.markBlockAsUsed b
          refs := Function.update s.refs b (s.refs b + 1) }
  | markBlockAsModified {s : BlockRun} {b : Nat} {m : SingleFileBlockManager} :
      1 ≤ s.refs b → s.manager.markBlockAsModified b = .ok m →
      Step s (.markBlockAsModified b)
        { s with manager := m, refs := Function.update s.refs b (s.refs b - 1) }
  | increaseBlockReferenceCount {s : BlockRun} {b : Nat} : 1 ≤ s.refs b →
      Step s (.increaseBlockReferenceCount b)
        { s with
          manager := s.manager.increaseBlockReferenceCount b
          refs := Function.update s.refs b (s.refs b + 1) }
  | registerBlock {s : BlockRun} {b : Nat} :
      Step s (.registerBlock b) { s with manager := s.manager.registerBlock b }
  | expireHandle {s : BlockRun} {b : Nat} :
      Step s (.expireHandle b) { s with manager := s.manager.expireHandle b }
  | unregisterBlock {s : BlockRun} {b : Nat} :
      Step s (.unregisterBlock b) { s with manager := s.manager.unregisterBlock b }
  | unregisterExpiredBlock {s : BlockRun} {b : Nat} :
      Step s (.unregisterExpiredBlock b)
        { s with manager := (s.manager.unregisterExpiredBlock b).1 }
  | truncate {s : BlockRun} : Step s .truncate { s with manager := s.manager.truncate }
  | headerSnapshot {s : BlockRun} : s.pending = none →
      Step s .headerSnapshot
        { s with
          manager := s.manager.snapshotHeader.1
          pending := some ⟨s.manager.snapshotHeader.2, s.manager.modifiedBlocks, false⟩ }
  | headerDurable {s : BlockRun} {p : PendingHeader} : s.pending = some p →
      p.isDurable = false →
      Step s .headerDurable
        { s with written := p.header, pending := some { p with isDurable := true } }
  | headerRelease {s : BlockRun} {p : PendingHeader} {b : Nat} : s.pending = some p →
      p.isDurable = true → b ∈ p.checkpointFreedBlocks →
      Step s (.headerRelease b)
        { s with
          manager := s.manager.releaseBlock b
          pending := some { p with checkpointFreedBlocks := p.checkpointFreedBlocks.erase b } }
  | headerDone {s : BlockRun} {p : PendingHeader} : s.pending = some p →
      p.isDurable = true → p.checkpointFreedBlocks = ∅ →
      Step s .headerDone { s with pending := none }

/-- A freshly loaded file: the lists are those of the header, and each block
that is not free is referenced as often as the header counts. -/
structure Initial (s : BlockRun) : Prop where
  freeList : s.manager.freeList = s.written.freeBlocks
  multiUse : s.manager.multiUseBlocks = s.written.multiUseBlocks
  maxBlock : s.manager.maxBlock = s.written.blockCount
  inUse : s.manager.freeBlocksInUse = ∅
  modified : s.manager.modifiedBlocks = ∅
  newlyUsed : s.manager.newlyUsedBlocks = ∅
  pending : s.pending = none
  free_lt : ∀ b ∈ s.written.freeBlocks, b < s.written.blockCount
  free_refs : ∀ b, b ∈ s.written.freeBlocks ∨ s.written.blockCount ≤ b → s.refs b = 0
  counts : ∀ b, CountMatches (s.written.multiUseBlocks b) (s.refs b)

end BlockRun

def blockLts : Lts BlockRun BlockOp where
  init := BlockRun.Initial
  step := BlockRun.Step

/-! ## What can be handed out -/

namespace SingleFileBlockManager

variable {m m' : SingleFileBlockManager} {b x : Nat}

/-- The block may be handed out, now or once its handle or its reference goes
away, without a header in between. -/
def Allocatable (m : SingleFileBlockManager) (b : Nat) : Prop :=
  b ∈ m.freeList ∨ b ∈ m.freeBlocksInUse ∨ b ∈ m.newlyUsedBlocks ∨ m.maxBlock ≤ b

theorem peek_allocatable (m : SingleFileBlockManager) : m.Allocatable m.peekFreeBlockId := by
  unfold peekFreeBlockId
  split_ifs with hne
  · exact Or.inl (Finset.min'_mem _ hne)
  · exact Or.inr (Or.inr (Or.inr le_rfl))

theorem getFreeBlockIdInternal_fst (m : SingleFileBlockManager) (type : FreeBlockType) :
    (m.getFreeBlockIdInternal type).1 = m.takeFreeBlock.noteNewlyUsed m.peekFreeBlockId type := by
  unfold getFreeBlockIdInternal
  simp only
  split <;> rfl

theorem getFreeBlockIdInternal_ok {type : FreeBlockType}
    (h : m.getFreeBlockIdInternal type = (m', .ok b)) : b = m.peekFreeBlockId := by
  unfold getFreeBlockIdInternal at h
  simp only at h
  split at h
  · cases h
  · cases h
    rfl

theorem allocatable_take (h : m.takeFreeBlock.Allocatable x) : m.Allocatable x := by
  unfold takeFreeBlock at h
  unfold Allocatable at h ⊢
  split_ifs at h
  · exact h.imp_left Finset.mem_of_mem_erase
  · exact h.imp_right (Or.imp_right (Or.imp_right Nat.le_of_succ_le))

theorem allocatable_get (type : FreeBlockType)
    (h : (m.getFreeBlockIdInternal type).1.Allocatable x) : m.Allocatable x := by
  rw [getFreeBlockIdInternal_fst] at h
  cases type with
  | checkpointedBlock => exact allocatable_take h
  | newlyUsedBlock =>
      by_cases hx : x = m.peekFreeBlockId
      · exact hx ▸ m.peek_allocatable
      · refine allocatable_take ?_
        simpa [Allocatable, noteNewlyUsed, hx] using h

theorem allocatable_markUsed (h : (m.markBlockAsUsed b).Allocatable x) : m.Allocatable x := by
  unfold markBlockAsUsed at h
  unfold Allocatable at h ⊢
  split_ifs at h with hmax hfree
  · simp only [Finset.mem_union, Finset.mem_Ico] at h
    rcases h with (h | h) | h | h | h
    · exact Or.inl h
    · exact Or.inr (Or.inr (Or.inr h.1))
    · exact Or.inr (Or.inl h)
    · exact Or.inr (Or.inr (Or.inl h))
    · exact Or.inr (Or.inr (Or.inr (by omega)))
  · exact h.imp_left Finset.mem_of_mem_erase
  · exact h

theorem allocatable_addFree (h : (m.addFreeBlock b).Allocatable x) :
    m.Allocatable x ∨ x = b := by
  unfold addFreeBlock at h
  unfold Allocatable at h ⊢
  split_ifs at h <;> simp only [Finset.mem_insert] at h <;> tauto

theorem allocatable_markModified (hm : m.markBlockAsModified b = .ok m')
    (h : m'.Allocatable x) : m.Allocatable x := by
  unfold markBlockAsModified at hm
  split at hm
  · cases hm
    exact h
  · split_ifs at hm with h1 h2 h3
    · cases hm
      rcases allocatable_addFree h with h | rfl
      · exact h.imp_right (Or.imp_right (Or.imp_left Finset.mem_of_mem_erase))
      · exact Or.inr (Or.inr (Or.inl h3))
    · cases hm
      exact h

theorem allocatable_releaseInUse (h : (m.releaseFreeBlockInUse b).Allocatable x) :
    m.Allocatable x := by
  unfold releaseFreeBlockInUse at h
  unfold Allocatable at h ⊢
  split_ifs at h with hb
  · simp only [Finset.mem_insert, Finset.mem_erase] at h
    rcases h with (rfl | h) | h | h
    · exact Or.inr (Or.inl hb)
    · exact Or.inl h
    · exact Or.inr (Or.inl h.2)
    · exact Or.inr (Or.inr h)
  · exact h

/-- The walk of `Truncate` only passes ids of the list. -/
theorem truncateLoop_spec :
    (l : List Nat) → (k : Nat) → truncateLoop l k ≤ k ∧
      ∀ x, truncateLoop l k ≤ x → x < k → x ∈ l
  | [], k => by simp [truncateLoop]
  | b :: l, k => by
      unfold truncateLoop
      split_ifs with hb
      · exact ⟨le_rfl, fun x h1 h2 => absurd h1 (by omega)⟩
      · obtain ⟨hle, hmem⟩ := truncateLoop_spec l (k - 1)
        refine ⟨by omega, fun x h1 h2 => ?_⟩
        by_cases hx : x = b
        · exact hx ▸ List.mem_cons_self
        · exact List.mem_cons_of_mem _ (hmem x h1 (by omega))

theorem truncate_past (h : m.truncate.maxBlock ≤ x) : m.maxBlock ≤ x ∨ x ∈ m.freeList := by
  obtain ⟨-, hmem⟩ := truncateLoop_spec (m.freeList.sort (· ≥ ·)) m.maxBlock
  unfold truncate at h
  simp only at h
  split_ifs at h
  · by_cases hx : m.maxBlock ≤ x
    · exact Or.inl hx
    · exact Or.inr ((Finset.mem_sort _).1 (hmem x h (by omega)))
  · exact Or.inl h

theorem truncate_freeList : m.truncate.freeList ⊆ m.freeList := by
  unfold truncate
  simp only
  split_ifs
  · exact Finset.filter_subset _ _
  · exact subset_rfl

theorem truncate_other : m.truncate.freeBlocksInUse = m.freeBlocksInUse ∧
    m.truncate.newlyUsedBlocks = m.newlyUsedBlocks ∧
    m.truncate.modifiedBlocks = m.modifiedBlocks ∧
    m.truncate.multiUseBlocks = m.multiUseBlocks := by
  unfold truncate
  simp only
  split_ifs <;> exact ⟨rfl, rfl, rfl, rfl⟩

theorem allocatable_truncate (h : m.truncate.Allocatable x) : m.Allocatable x := by
  obtain ⟨huse, hnew, -, -⟩ := @truncate_other m
  rcases h with h | h | h | h
  · exact Or.inl (truncate_freeList h)
  · exact Or.inr (Or.inl (huse ▸ h))
  · exact Or.inr (Or.inr (Or.inl (hnew ▸ h)))
  · rcases truncate_past h with h | h
    · exact Or.inr (Or.inr (Or.inr h))
    · exact Or.inl h

theorem allocatable_snapshot (h : m.Allocatable x) :
    x ∈ m.snapshotHeader.2.freeBlocks ∨ m.snapshotHeader.2.blockCount ≤ x := by
  simp only [snapshotHeader, Finset.mem_union]
  unfold Allocatable at h
  tauto

end SingleFileBlockManager

/-! ## Part one: the durable header keeps its blocks -/

namespace BlockRun

/-- Everything allocatable is free in the durable header and in the one in
flight, whose freed blocks still wait in `modifiedBlocks`. -/
structure Writable (s : BlockRun) : Prop where
  written : ∀ x, s.manager.Allocatable x →
    x ∈ s.written.freeBlocks ∨ s.written.blockCount ≤ x
  pending : ∀ p, s.pending = some p →
    (∀ x, s.manager.Allocatable x → x ∈ p.header.freeBlocks ∨ p.header.blockCount ≤ x) ∧
    p.checkpointFreedBlocks ⊆ p.header.freeBlocks ∧
    (p.isDurable = true → s.written = p.header)

variable {s : BlockRun}

theorem Writable.mono (h : Writable s) {m : SingleFileBlockManager} {refs : Nat → Nat}
    (hm : ∀ x, m.Allocatable x → s.manager.Allocatable x) :
    Writable { s with manager := m, refs := refs } :=
  ⟨fun x hx => h.written x (hm x hx), fun p hp =>
    ⟨fun x hx => (h.pending p hp).1 x (hm x hx), (h.pending p hp).2⟩⟩

variable {s' : BlockRun} {op : BlockOp}

theorem Writable.step (h : Writable s) (hs : Step s op s') : Writable s' := by
  cases hs with
  | @getFreeBlockId type m b hm =>
      exact h.mono fun x hx => SingleFileBlockManager.allocatable_get type (hm ▸ hx)
  | @getFreeBlockIdThrows type m e hm =>
      exact h.mono fun x hx => SingleFileBlockManager.allocatable_get type (hm ▸ hx)
  | markBlockAsCheckpointed =>
      exact h.mono fun x hx =>
        hx.imp_right (Or.imp_right (Or.imp_left Finset.mem_of_mem_erase))
  | markBlockAsUsed _ => exact h.mono fun x => SingleFileBlockManager.allocatable_markUsed
  | markBlockAsModified _ hm =>
      exact h.mono fun x => SingleFileBlockManager.allocatable_markModified hm
  | increaseBlockReferenceCount _ => exact h.mono fun x hx => hx
  | registerBlock => exact h.mono fun x hx => hx
  | expireHandle => exact h.mono fun x hx => hx
  | unregisterBlock =>
      exact h.mono fun x hx => SingleFileBlockManager.allocatable_releaseInUse
        (m := s.manager.expireHandle _) hx
  | unregisterExpiredBlock =>
      refine h.mono fun x hx => ?_
      unfold SingleFileBlockManager.unregisterExpiredBlock at hx
      split_ifs at hx
      · exact hx
      · exact SingleFileBlockManager.allocatable_releaseInUse hx
  | truncate => exact h.mono fun x => SingleFileBlockManager.allocatable_truncate
  | headerSnapshot _ =>
      refine ⟨h.written, fun p hp => ?_⟩
      cases hp
      refine ⟨fun x hx => SingleFileBlockManager.allocatable_snapshot hx, ?_, by simp⟩
      intro x hx
      simp only [SingleFileBlockManager.snapshotHeader, Finset.mem_union]
      exact Or.inl (Or.inr hx)
  | @headerDurable p hp _ =>
      obtain ⟨halloc, hfreed, -⟩ := h.pending p hp
      refine ⟨halloc, fun p' hp' => ?_⟩
      cases hp'
      exact ⟨halloc, hfreed, fun _ => rfl⟩
  | @headerRelease p b hp hd hb =>
      obtain ⟨halloc, hfreed, hsame⟩ := h.pending p hp
      have hnew : ∀ x, (s.manager.releaseBlock b).Allocatable x →
          x ∈ p.header.freeBlocks ∨ p.header.blockCount ≤ x := by
        intro x hx
        rcases SingleFileBlockManager.allocatable_addFree hx with hx | rfl
        · exact halloc x hx
        · exact Or.inl (hfreed hb)
      refine ⟨fun x hx => ?_, fun p' hp' => ?_⟩
      · rw [hsame hd]
        exact hnew x hx
      · cases hp'
        exact ⟨hnew, (Finset.erase_subset _ _).trans hfreed, hsame⟩
  | headerDone hp _ _ => exact ⟨h.written, fun p' hp' => by cases hp'⟩

theorem writable_initial (h : Initial s) : Writable s := by
  refine ⟨fun x hx => ?_, fun p hp => ?_⟩
  · rcases hx with hx | hx | hx | hx
    · exact Or.inl (h.freeList ▸ hx)
    · simp [h.inUse] at hx
    · simp [h.newlyUsed] at hx
    · exact Or.inr (h.maxBlock ▸ hx)
  · rw [h.pending] at hp
    cases hp

theorem writable_of_reachable (h : blockLts.Reachable s) : Writable s :=
  h.invariant (fun _ h0 => writable_initial h0)
    fun _ _ _ _ hi (hs : Step _ _ _) => hi.step hs

/-! ## Part two: dropped blocks wait for a header -/

/-- What the lists say about block `b`, given its number of references: a
referenced block is in none of the free or modified lists, and these lists
share no block. -/
structure RefAt (m : SingleFileBlockManager) (refs b : Nat) : Prop where
  count : CountMatches (m.multiUseBlocks b) refs
  held : 1 ≤ refs → b < m.maxBlock ∧ b ∉ m.freeList ∧ b ∉ m.freeBlocksInUse ∧
    b ∉ m.modifiedBlocks
  free : b ∈ m.freeList → b < m.maxBlock ∧ b ∉ m.freeBlocksInUse ∧ b ∉ m.modifiedBlocks
  inUse : b ∈ m.freeBlocksInUse → b < m.maxBlock ∧ b ∉ m.modifiedBlocks
  modified : b ∈ m.modifiedBlocks → b < m.maxBlock

namespace RefAt

open SingleFileBlockManager

variable {m m' : SingleFileBlockManager} {refs b x : Nat}

theorem refs_eq_zero (h : RefAt m refs b)
    (hb : b ∈ m.freeList ∨ b ∈ m.freeBlocksInUse ∨ b ∈ m.modifiedBlocks ∨ m.maxBlock ≤ b) :
    refs = 0 := by
  by_contra hne
  obtain ⟨hlt, hfree, huse, hmod⟩ := h.held (by omega)
  rcases hb with hb | hb | hb | hb
  · exact hfree hb
  · exact huse hb
  · exact hmod hb
  · omega

theorem multi_eq_none (h : RefAt m 0 b) : m.multiUseBlocks b = none := by
  cases hc : m.multiUseBlocks b with
  | none => rfl
  | some k =>
      have := h.count
      rw [hc] at this
      exact absurd this.1 (by have := this.2; omega)

/-- A call that changes nothing about the block, and moves the end of the
file at most over blocks of the free list. -/
theorem congr (h : RefAt m refs b) (hmulti : m'.multiUseBlocks b = m.multiUseBlocks b)
    (hfree : b ∈ m'.freeList → b ∈ m.freeList ∧ b < m'.maxBlock)
    (huse : b ∈ m'.freeBlocksInUse ↔ b ∈ m.freeBlocksInUse)
    (hmod : b ∈ m'.modifiedBlocks ↔ b ∈ m.modifiedBlocks)
    (hmax : b < m.maxBlock → b ∉ m.freeList → b < m'.maxBlock) : RefAt m' refs b := by
  refine ⟨hmulti ▸ h.count, fun hr => ?_, fun hf => ?_, fun hu => ?_, fun hm => ?_⟩
  · obtain ⟨hlt, hnf, hnu, hnm⟩ := h.held hr
    exact ⟨hmax hlt hnf, fun hf => hnf (hfree hf).1, fun hu => hnu (huse.1 hu),
      fun hm => hnm (hmod.1 hm)⟩
  · obtain ⟨hf, hlt⟩ := hfree hf
    obtain ⟨-, hnu, hnm⟩ := h.free hf
    exact ⟨hlt, fun hu => hnu (huse.1 hu), fun hm => hnm (hmod.1 hm)⟩
  · obtain ⟨hlt, hnm⟩ := h.inUse (huse.1 hu)
    exact ⟨hmax hlt fun hf => (h.free hf).2.1 (huse.1 hu), fun hm => hnm (hmod.1 hm)⟩
  · exact hmax (h.modified (hmod.1 hm)) fun hf => (h.free hf).2.2 (hmod.1 hm)

theorem take (h : RefAt m refs m.peekFreeBlockId) :
    RefAt m.takeFreeBlock 1 m.peekFreeBlockId := by
  unfold takeFreeBlock
  by_cases hne : m.freeList.Nonempty
  · have hmem : m.peekFreeBlockId ∈ m.freeList := by
      rw [peekFreeBlockId, dif_pos hne]
      exact Finset.min'_mem _ hne
    rw [if_pos hne]
    obtain ⟨hlt, hnu, hnm⟩ := h.free hmem
    rw [h.refs_eq_zero (Or.inl hmem)] at h
    refine ⟨by simp [h.multi_eq_none, CountMatches], fun _ => ⟨hlt, by simp, hnu, hnm⟩, ?_, ?_, ?_⟩
    · exact fun hf => absurd hf (by simp)
    · exact fun hu => absurd hu hnu
    · exact fun hm => absurd hm hnm
  · have hpeek : m.peekFreeBlockId = m.maxBlock := by rw [peekFreeBlockId, dif_neg hne]
    rw [Finset.not_nonempty_iff_eq_empty] at hne
    rw [if_neg (by simp [hne])]
    rw [hpeek] at h ⊢
    rw [h.refs_eq_zero (Or.inr (Or.inr (Or.inr le_rfl)))] at h
    have hnu : m.maxBlock ∉ m.freeBlocksInUse := fun hu => by
      have := (h.inUse hu).1
      omega
    have hnm : m.maxBlock ∉ m.modifiedBlocks := fun hm => by
      have := h.modified hm
      omega
    refine ⟨by simp [h.multi_eq_none, CountMatches],
      fun _ => ⟨Nat.lt_succ_self _, by simp [hne], hnu, hnm⟩, ?_, ?_, ?_⟩
    · exact fun hf => absurd hf (by simp [hne])
    · exact fun hu => absurd hu hnu
    · exact fun hm => absurd hm hnm

theorem take_congr (h : RefAt m refs x) : RefAt m.takeFreeBlock refs x := by
  unfold takeFreeBlock
  split_ifs
  · exact h.congr rfl (fun hf => ⟨Finset.mem_of_mem_erase hf,
      (h.free (Finset.mem_of_mem_erase hf)).1⟩) Iff.rfl Iff.rfl fun hlt _ => hlt
  · exact h.congr rfl (fun hf => ⟨hf, Nat.lt_succ_of_lt (h.free hf).1⟩) Iff.rfl Iff.rfl
      fun hlt _ => Nat.lt_succ_of_lt hlt

theorem noteNewlyUsed (h : RefAt m refs x) (type : FreeBlockType) :
    RefAt (m.noteNewlyUsed b type) refs x := by
  cases type with
  | newlyUsedBlock =>
      exact h.congr rfl (fun hf => ⟨hf, (h.free hf).1⟩) Iff.rfl Iff.rfl fun hlt _ => hlt
  | checkpointedBlock => exact h

theorem increase (h : RefAt m refs b) (hr : 1 ≤ refs) :
    RefAt (m.increaseBlockReferenceCount b) (refs + 1) b := by
  refine ⟨?_, fun _ => h.held hr, h.free, h.inUse, h.modified⟩
  have hc := h.count
  cases hm : m.multiUseBlocks b with
  | none =>
      rw [hm] at hc
      have : refs = 1 := le_antisymm hc hr
      simp [increaseBlockReferenceCount, hm, CountMatches, this]
  | some k =>
      rw [hm] at hc
      obtain ⟨rfl, hk⟩ := hc
      simp only [increaseBlockReferenceCount, hm, Function.update_self]
      exact ⟨rfl, Nat.le_succ_of_le hk⟩

theorem increase_congr (h : RefAt m refs x) (hx : x ≠ b) :
    RefAt (m.increaseBlockReferenceCount b) refs x := by
  refine h.congr ?_ (fun hf => ⟨hf, (h.free hf).1⟩) Iff.rfl Iff.rfl fun hlt _ => hlt
  simp [increaseBlockReferenceCount, Function.update_of_ne hx]

theorem markUsed (h : RefAt m refs b)
    (hknown : m.maxBlock ≤ b ∨ b ∈ m.freeList ∨ 1 ≤ refs) :
    RefAt (m.markBlockAsUsed b) (refs + 1) b := by
  unfold markBlockAsUsed
  split_ifs with hmax hfree
  · have hz := h.refs_eq_zero (Or.inr (Or.inr (Or.inr hmax)))
    subst hz
    have hnf : b ∉ m.freeList ∪ Finset.Ico m.maxBlock b := by
      intro hf
      rcases Finset.mem_union.1 hf with hf | hf
      · have := (h.free hf).1
        omega
      · exact absurd (Finset.mem_Ico.1 hf).2 (lt_irrefl b)
    have hnu : b ∉ m.freeBlocksInUse := fun hu => by
      have := (h.inUse hu).1
      omega
    have hnm : b ∉ m.modifiedBlocks := fun hm => by
      have := h.modified hm
      omega
    exact ⟨by simp [h.multi_eq_none, CountMatches], fun _ => ⟨Nat.lt_succ_self b, hnf, hnu, hnm⟩,
      fun hf => absurd hf hnf, fun hu => absurd hu hnu, fun hm => absurd hm hnm⟩
  · have hz := h.refs_eq_zero (Or.inl hfree)
    subst hz
    obtain ⟨hlt, hnu, hnm⟩ := h.free hfree
    exact ⟨by simp [h.multi_eq_none, CountMatches], fun _ => ⟨hlt, by simp, hnu, hnm⟩,
      fun hf => absurd hf (by simp), fun hu => absurd hu hnu, fun hm => absurd hm hnm⟩
  · refine h.increase ?_
    rcases hknown with hk | hk | hk
    · exact absurd hk hmax
    · exact absurd hk hfree
    · exact hk

theorem markUsed_congr (h : RefAt m refs x) (hx : x ≠ b) :
    RefAt (m.markBlockAsUsed b) refs x := by
  unfold markBlockAsUsed
  split_ifs with hmax hfree
  · by_cases hin : x ∈ Finset.Ico m.maxBlock b
    · -- a block of the gap before `b` becomes free
      obtain ⟨hge, hlt⟩ := Finset.mem_Ico.1 hin
      have hz := h.refs_eq_zero (Or.inr (Or.inr (Or.inr hge)))
      subst hz
      have hnu : x ∉ m.freeBlocksInUse := fun hu => by
        have := (h.inUse hu).1
        omega
      have hnm : x ∉ m.modifiedBlocks := fun hm => by
        have := h.modified hm
        omega
      exact ⟨h.count, fun hr => by omega, fun _ => ⟨Nat.lt_succ_of_lt hlt, hnu, hnm⟩,
        fun hu => absurd hu hnu, fun hm => absurd hm hnm⟩
    · refine h.congr rfl (fun hf => ?_) Iff.rfl Iff.rfl fun hlt _ => hlt.trans_le (by simp; omega)
      have hf' := (Finset.mem_union.1 hf).resolve_right hin
      have := (h.free hf').1
      exact ⟨hf', by simp only; omega⟩
  · exact h.congr rfl (fun hf => ⟨Finset.mem_of_mem_erase hf,
      (h.free (Finset.mem_of_mem_erase hf)).1⟩) Iff.rfl Iff.rfl fun hlt _ => hlt
  · exact h.increase_congr hx

theorem addFree (h : RefAt m 0 b) (hlt : b < m.maxBlock) (hnf : b ∉ m.freeList)
    (hnu : b ∉ m.freeBlocksInUse) (hnm : b ∉ m.modifiedBlocks) :
    RefAt (m.addFreeBlock b) 0 b := by
  unfold addFreeBlock
  split_ifs
  · exact ⟨h.count, fun hr => by omega, fun hf => absurd hf hnf, fun _ => ⟨hlt, hnm⟩, h.modified⟩
  · exact ⟨h.count, fun hr => by omega, fun _ => ⟨hlt, hnu, hnm⟩, h.inUse, h.modified⟩

theorem addFree_congr (h : RefAt m refs x) (hx : x ≠ b) : RefAt (m.addFreeBlock b) refs x := by
  unfold addFreeBlock
  split_ifs
  · exact h.congr rfl (fun hf => ⟨hf, (h.free hf).1⟩) (by simp [hx]) Iff.rfl fun hlt _ => hlt
  · refine h.congr rfl (fun hf => ?_) Iff.rfl Iff.rfl fun hlt _ => hlt
    have hf' := (Finset.mem_insert.1 hf).resolve_left hx
    exact ⟨hf', (h.free hf').1⟩

theorem markModified (h : RefAt m refs b) (hr : 1 ≤ refs)
    (hm : m.markBlockAsModified b = .ok m') : RefAt m' (refs - 1) b := by
  obtain ⟨hlt, hnf, hnu, hnm⟩ := h.held hr
  have hc := h.count
  unfold markBlockAsModified at hm
  cases hmulti : m.multiUseBlocks b with
  | some k =>
      rw [hmulti] at hc
      obtain ⟨rfl, hk⟩ := hc
      simp only [hmulti] at hm
      cases hm
      refine ⟨?_, fun _ => ⟨hlt, hnf, hnu, hnm⟩, h.free, h.inUse, h.modified⟩
      simp only [Function.update_self]
      by_cases hle : refs - 1 ≤ 1
      · rw [if_pos hle]
        exact hle
      · rw [if_neg hle]
        exact ⟨rfl, Nat.lt_of_not_le hle⟩
  | none =>
      rw [hmulti] at hc
      have hz : refs - 1 = 0 := by
        have : refs ≤ 1 := hc
        omega
      have h0 : RefAt m 0 b :=
        ⟨by simp [hmulti, CountMatches], fun hr => by omega, h.free, h.inUse, h.modified⟩
      simp only [hmulti, if_neg hnm, if_neg hnf] at hm
      rw [hz]
      split_ifs at hm with hnew
      · cases hm
        exact addFree ⟨h0.count, h0.held, h0.free, h0.inUse, h0.modified⟩ hlt hnf hnu hnm
      · cases hm
        exact ⟨h0.count, fun hr => by omega, fun hf => absurd hf hnf, fun hu => absurd hu hnu,
          fun _ => hlt⟩

theorem markModified_congr (h : RefAt m refs x) (hx : x ≠ b)
    (hm : m.markBlockAsModified b = .ok m') : RefAt m' refs x := by
  unfold markBlockAsModified at hm
  split at hm
  · cases hm
    exact h.congr (by simp [Function.update_of_ne hx]) (fun hf => ⟨hf, (h.free hf).1⟩) Iff.rfl
      Iff.rfl fun hlt _ => hlt
  · split_ifs at hm
    · cases hm
      exact addFree_congr ⟨h.count, h.held, h.free, h.inUse, h.modified⟩ hx
    · cases hm
      exact h.congr rfl (fun hf => ⟨hf, (h.free hf).1⟩) Iff.rfl (by simp [hx]) fun hlt _ => hlt

theorem releaseInUse (h : RefAt m refs x) : RefAt (m.releaseFreeBlockInUse b) refs x := by
  unfold releaseFreeBlockInUse
  split_ifs with hb
  · by_cases hx : x = b
    · subst hx
      obtain ⟨hlt, hnm⟩ := h.inUse hb
      have hz := h.refs_eq_zero (Or.inr (Or.inl hb))
      subst hz
      exact ⟨h.count, fun hr => by omega, fun _ => ⟨hlt, by simp, hnm⟩,
        fun hu => absurd hu (by simp), h.modified⟩
    · refine h.congr rfl (fun hf => ?_) (by simp [hx]) Iff.rfl fun hlt _ => hlt
      have hf' := (Finset.mem_insert.1 hf).resolve_left hx
      exact ⟨hf', (h.free hf').1⟩
  · exact h

theorem truncate (h : RefAt m refs x) : RefAt m.truncate refs x := by
  obtain ⟨huse, -, hmod, hmulti⟩ := @truncate_other m
  refine h.congr (by rw [hmulti]) (fun hf => ⟨truncate_freeList hf, ?_⟩) (by rw [huse])
    (by rw [hmod]) fun hlt hnf => ?_
  · unfold SingleFileBlockManager.truncate at hf ⊢
    simp only at hf ⊢
    split_ifs at hf ⊢
    · exact (Finset.mem_filter.1 hf).2
    · exact (h.free hf).1
  · by_contra hge
    rcases truncate_past (m := m) (Nat.le_of_not_lt hge) with hx | hx
    · omega
    · exact hnf hx

/-- A block of the written checkpoint is released after its header. -/
theorem release (h : RefAt m refs b) (hb : b ∈ m.modifiedBlocks) :
    RefAt (m.releaseBlock b) refs b := by
  have hz := h.refs_eq_zero (Or.inr (Or.inr (Or.inl hb)))
  subst hz
  have hnf : b ∉ m.freeList := fun hf => (h.free hf).2.2 hb
  have hnu : b ∉ m.freeBlocksInUse := fun hu => (h.inUse hu).2 hb
  refine addFree ⟨h.count, fun hr => by omega, fun hf => absurd hf hnf, fun hu => absurd hu hnu,
    fun hm => absurd hm (by simp)⟩ (h.modified hb) hnf hnu (by simp)

theorem release_congr (h : RefAt m refs x) (hx : x ≠ b) : RefAt (m.releaseBlock b) refs x := by
  refine addFree_congr ?_ hx
  exact h.congr rfl (fun hf => ⟨hf, (h.free hf).1⟩) Iff.rfl (by simp [hx]) fun hlt _ => hlt

end RefAt

/-- References and lists agree, and blocks to be released still wait. -/
structure RefInv (s : BlockRun) : Prop where
  block : ∀ b, RefAt s.manager (s.refs b) b
  freed : ∀ p, s.pending = some p → p.checkpointFreedBlocks ⊆ s.manager.modifiedBlocks

/-- Only the release loop takes a block out of `modifiedBlocks`. -/
theorem Step.modified_subset (hs : Step s op s') (hop : ∀ b, op ≠ .headerRelease b) :
    s.manager.modifiedBlocks ⊆ s'.manager.modifiedBlocks := by
  have hget : ∀ type, (s.manager.getFreeBlockIdInternal type).1.modifiedBlocks =
      s.manager.modifiedBlocks := by
    intro type
    rw [SingleFileBlockManager.getFreeBlockIdInternal_fst]
    unfold SingleFileBlockManager.noteNewlyUsed SingleFileBlockManager.takeFreeBlock
    cases type <;> simp only <;> split <;> rfl
  have hrelease : ∀ (m : SingleFileBlockManager) b,
      (m.releaseFreeBlockInUse b).modifiedBlocks = m.modifiedBlocks := by
    intro m b
    unfold SingleFileBlockManager.releaseFreeBlockInUse
    split <;> rfl
  cases hs with
  | @getFreeBlockId type m b hm => exact (hget type ▸ hm ▸ subset_rfl)
  | @getFreeBlockIdThrows type m e hm => exact (hget type ▸ hm ▸ subset_rfl)
  | markBlockAsCheckpointed => exact subset_rfl
  | markBlockAsUsed _ =>
      unfold SingleFileBlockManager.markBlockAsUsed
      simp only
      split_ifs <;> exact subset_rfl
  | markBlockAsModified _ hm =>
      unfold SingleFileBlockManager.markBlockAsModified at hm
      split at hm
      · cases hm
        exact subset_rfl
      · split_ifs at hm
        · cases hm
          unfold SingleFileBlockManager.addFreeBlock
          simp only
          split_ifs <;> exact subset_rfl
        · cases hm
          exact Finset.subset_insert _ _
  | increaseBlockReferenceCount _ => exact subset_rfl
  | registerBlock => exact subset_rfl
  | expireHandle => exact subset_rfl
  | unregisterBlock => exact (hrelease _ _).symm ▸ subset_rfl
  | unregisterExpiredBlock =>
      unfold SingleFileBlockManager.unregisterExpiredBlock
      simp only
      split_ifs
      · exact subset_rfl
      · exact (hrelease _ _).symm ▸ subset_rfl
  | truncate => exact (SingleFileBlockManager.truncate_other).2.2.1.symm ▸ subset_rfl
  | headerSnapshot _ => exact subset_rfl
  | headerDurable _ _ => exact subset_rfl
  | @headerRelease p b _ _ _ => exact absurd rfl (hop b)
  | headerDone _ _ _ => exact subset_rfl

theorem RefInv.refs_step (h : RefInv s) (hs : Step s op s') :
    ∀ x, RefAt s'.manager (s'.refs x) x := by
  intro x
  have hx := h.block x
  cases hs with
  | @getFreeBlockId type m b hm =>
      have hb := SingleFileBlockManager.getFreeBlockIdInternal_ok hm
      have hfst := s.manager.getFreeBlockIdInternal_fst type
      rw [hm] at hfst
      simp only at hfst
      subst hb hfst
      by_cases heq : x = s.manager.peekFreeBlockId
      · subst heq
        simpa using hx.take.noteNewlyUsed type
      · simpa [Function.update_of_ne heq] using hx.take_congr.noteNewlyUsed type
  | @getFreeBlockIdThrows type m e hm =>
      have hfst := s.manager.getFreeBlockIdInternal_fst type
      rw [hm] at hfst
      simp only at hfst
      subst hfst
      exact hx.take_congr.noteNewlyUsed type
  | markBlockAsCheckpointed => exact ⟨hx.count, hx.held, hx.free, hx.inUse, hx.modified⟩
  | @markBlockAsUsed b hknown =>
      by_cases heq : x = b
      · subst heq
        simpa using hx.markUsed hknown
      · simpa [Function.update_of_ne heq] using hx.markUsed_congr heq
  | @markBlockAsModified b m hr hm =>
      by_cases heq : x = b
      · subst heq
        simpa using hx.markModified hr hm
      · simpa [Function.update_of_ne heq] using hx.markModified_congr heq hm
  | @increaseBlockReferenceCount b hr =>
      by_cases heq : x = b
      · subst heq
        simpa using hx.increase hr
      · simpa [Function.update_of_ne heq] using hx.increase_congr heq
  | registerBlock => exact ⟨hx.count, hx.held, hx.free, hx.inUse, hx.modified⟩
  | expireHandle => exact ⟨hx.count, hx.held, hx.free, hx.inUse, hx.modified⟩
  | unregisterBlock =>
      exact RefAt.releaseInUse ⟨hx.count, hx.held, hx.free, hx.inUse, hx.modified⟩
  | unregisterExpiredBlock =>
      unfold SingleFileBlockManager.unregisterExpiredBlock
      simp only
      split_ifs
      · exact hx
      · exact hx.releaseInUse
  | truncate => exact hx.truncate
  | headerSnapshot _ => exact ⟨hx.count, hx.held, hx.free, hx.inUse, hx.modified⟩
  | headerDurable _ _ => exact hx
  | @headerRelease p b hp _ hb =>
      by_cases heq : x = b
      · subst heq
        exact hx.release (h.freed p hp hb)
      · exact hx.release_congr heq
  | headerDone _ _ _ => exact hx

theorem addFreeBlock_modified (m : SingleFileBlockManager) (b : Nat) :
    (m.addFreeBlock b).modifiedBlocks = m.modifiedBlocks := by
  unfold SingleFileBlockManager.addFreeBlock
  split <;> rfl

theorem RefInv.step (h : RefInv s) (hs : Step s op s') : RefInv s' := by
  refine ⟨h.refs_step hs, fun p hp => ?_⟩
  have hsub := hs.modified_subset
  cases hs with
  | headerSnapshot _ =>
      cases hp
      exact subset_rfl
  | @headerDurable p' hp' _ =>
      cases hp
      exact h.freed p' hp'
  | @headerRelease p' b hp' _ _ =>
      cases hp
      rw [SingleFileBlockManager.releaseBlock, addFreeBlock_modified]
      exact Finset.erase_subset_erase _ (h.freed p' hp')
  | headerDone _ _ _ => cases hp
  | _ => exact (h.freed p hp).trans (hsub (by simp))

theorem refInv_initial (h : Initial s) : RefInv s := by
  refine ⟨fun b => ?_, fun p hp => ?_⟩
  · refine ⟨by rw [h.multiUse]; exact h.counts b, fun hr => ?_, fun hf => ?_, ?_, ?_⟩
    · have hused : ¬(b ∈ s.written.freeBlocks ∨ s.written.blockCount ≤ b) := fun hb => by
        have := h.free_refs b hb
        omega
      rw [not_or] at hused
      rw [h.freeList, h.maxBlock, h.inUse, h.modified]
      exact ⟨Nat.lt_of_not_le hused.2, hused.1, by simp, by simp⟩
    · rw [h.freeList] at hf
      rw [h.maxBlock, h.inUse, h.modified]
      exact ⟨h.free_lt b hf, by simp, by simp⟩
    · simp [h.inUse]
    · simp [h.modified]
  · rw [h.pending] at hp
    cases hp

theorem refInv_of_reachable (h : blockLts.Reachable s) : RefInv s :=
  h.invariant (fun _ h0 => refInv_initial h0) fun _ _ _ _ hi (hs : Step _ _ _) => hi.step hs

/-- A block waits in `modifiedBlocks`, and no durable header releases it. -/
def Waiting (s : BlockRun) (b : Nat) : Prop :=
  b ∈ s.manager.modifiedBlocks ∧
  ∀ p, s.pending = some p → p.isDurable = true → b ∉ p.checkpointFreedBlocks

theorem Waiting.step {b : Nat} (h : Waiting s b) (hs : Step s op s') (hop : op ≠ .headerDurable) :
    Waiting s' b := by
  obtain ⟨hmod, hpend⟩ := h
  have hsub := hs.modified_subset
  cases hs with
  | headerDurable _ _ => exact absurd rfl hop
  | headerSnapshot _ =>
      refine ⟨hmod, fun p hp hd => ?_⟩
      cases hp
      cases hd
  | @headerRelease p' b' hp' hd' hb' =>
      have hne : b ≠ b' := fun he => hpend p' hp' hd' (he ▸ hb')
      refine ⟨?_, fun p hp hd => ?_⟩
      · rw [SingleFileBlockManager.releaseBlock, addFreeBlock_modified]
        exact Finset.mem_erase.2 ⟨hne, hmod⟩
      · cases hp
        exact fun hb => hpend p' hp' hd' (Finset.mem_of_mem_erase hb)
  | headerDone _ _ _ => exact ⟨hmod, fun p hp => by cases hp⟩
  | _ => exact ⟨hsub (by simp) hmod, hpend⟩

/-- The last reference of a block that is not newly used sends it to wait. -/
theorem waiting_of_drop {b : Nat} (h : RefInv s) (hs : Step s (.markBlockAsModified b) s')
    (hlast : s'.refs b = 0) (hnew : b ∉ s.manager.newlyUsedBlocks) : Waiting s' b := by
  cases hs with
  | markBlockAsModified hr hm =>
      have hb := h.block b
      obtain ⟨-, hnf, -, hnm⟩ := hb.held hr
      have hone : s.refs b = 1 := by
        simp only [Function.update_self] at hlast
        omega
      have hmulti : s.manager.multiUseBlocks b = none := by
        have hc := hb.count
        rw [hone] at hc
        cases hm' : s.manager.multiUseBlocks b with
        | none => rfl
        | some k =>
            rw [hm'] at hc
            exact absurd hc.2 (by have := hc.1; omega)
      unfold SingleFileBlockManager.markBlockAsModified at hm
      simp only [hmulti, if_neg hnm, if_neg hnf, if_neg hnew] at hm
      cases hm
      exact ⟨Finset.mem_insert_self _ _, fun p hp _ hf => hnm (h.freed p hp hf)⟩

theorem not_handed_out_of_waiting {b : Nat} (hi : RefInv s) (h : Waiting s b) :
    b ∉ s.manager.freeList ∧ b ∉ s.manager.freeBlocksInUse ∧
    ∀ type m, s.manager.getFreeBlockIdInternal type ≠ (m, .ok b) := by
  have hb := hi.block b
  have hnf : b ∉ s.manager.freeList := fun hf => (hb.free hf).2.2 h.1
  refine ⟨hnf, fun hu => (hb.inUse hu).2 h.1, fun type m hm => ?_⟩
  have hpeek := SingleFileBlockManager.getFreeBlockIdInternal_ok hm
  unfold SingleFileBlockManager.peekFreeBlockId at hpeek
  split_ifs at hpeek with hne
  · exact hnf (hpeek ▸ Finset.min'_mem _ hne)
  · have := hb.modified h.1
    omega

/-- No block of the last durable checkpoint is handed out. Every id that is
handed out is free in the durable header, and a block whose last reference is
dropped is not allocatable again before another header is durable, unless it
is still a newly used block, which the durable header lists as free. -/
theorem durable_blocks_safe (s : BlockRun) (hr : blockLts.Reachable s) :
    (∀ type m b, s.manager.getFreeBlockIdInternal type = (m, .ok b) →
      b ∈ s.written.freeBlocks ∨ s.written.blockCount ≤ b) ∧
    (∀ b s' s'', Step s (.markBlockAsModified b) s' → s'.refs b = 0 →
      b ∉ s.manager.newlyUsedBlocks →
      (blockLts.restrict fun _ op => op ≠ .headerDurable).Leads s' s'' →
      b ∉ s''.manager.freeList ∧ b ∉ s''.manager.freeBlocksInUse ∧
      ∀ type m, s''.manager.getFreeBlockIdInternal type ≠ (m, .ok b)) ∧
    (∀ b ∈ s.manager.newlyUsedBlocks,
      b ∈ s.written.freeBlocks ∨ s.written.blockCount ≤ b) := by
  have hw := writable_of_reachable hr
  refine ⟨fun type m b hm => ?_, fun b s' s'' hs hlast hnew hl => ?_, fun b hb => ?_⟩
  · rw [SingleFileBlockManager.getFreeBlockIdInternal_ok hm]
    exact hw.written _ s.manager.peek_allocatable
  · have hi' : RefInv s' := (refInv_of_reachable hr).step hs
    have hall : RefInv s'' ∧ Waiting s'' b := by
      induction hl with
      | refl => exact ⟨hi', waiting_of_drop (refInv_of_reachable hr) hs hlast hnew⟩
      | tail _ hbc ih =>
          obtain ⟨op, hop, hst⟩ := hbc
          exact ⟨ih.1.step hst, ih.2.step hst hop⟩
    exact not_handed_out_of_waiting hall.1 hall.2
  · exact hw.written b (Or.inr (Or.inr (Or.inl hb)))

def emptyFile : BlockRun where
  manager := ⟨∅, ∅, ∅, ∅, fun _ => none, 0, 0, ∅⟩
  written := ⟨0, ∅, fun _ => none, 0⟩
  pending := none
  refs _ := 0

theorem emptyFile_initial : Initial emptyFile :=
  ⟨rfl, rfl, rfl, rfl, rfl, rfl, rfl, by simp [emptyFile], fun _ _ => rfl,
    fun _ => Nat.zero_le 1⟩

theorem Step.reachable (h : blockLts.Reachable s) (hs : Step s op s') : blockLts.Reachable s' :=
  h.step hs

/-- A block taken for a checkpoint waits after its last reference is dropped. -/
theorem durable_blocks_safe_drop :
    ∃ s s', blockLts.Reachable s ∧ Step s (.markBlockAsModified 0) s' ∧
      0 ∉ s.written.freeBlocks ∧ s.written.blockCount = 1 ∧ 0 ∉ s'.manager.freeList := by
  have h0 : blockLts.Reachable emptyFile := .init emptyFile_initial
  have h1 := Step.reachable h0 (show Step _ (.getFreeBlockId .checkpointedBlock) _ from
    .getFreeBlockId rfl)
  have h2 := Step.reachable h1 (.headerSnapshot rfl)
  have h3 := Step.reachable h2 (.headerDurable rfl rfl)
  have h4 := Step.reachable h3 (.headerDone rfl rfl rfl)
  refine ⟨_, _, h4, .markBlockAsModified (by decide) rfl, by decide, rfl, ?_⟩
  exact ((durable_blocks_safe _ h4).2.1 0 _ _ (.markBlockAsModified (by decide) rfl) (by decide)
    (by decide) Lts.Leads.refl).1

/-- A block handed out before the last header and not needed by it goes back
to the free list at once: right after a completed `WriteHeader` its last
reference is dropped, and the next allocation returns it. -/
theorem newly_used_survives_header :
    ∃ r s s' m, blockLts.Reachable r ∧ Step r .headerDone s ∧
      Step s (.markBlockAsModified 0) s' ∧ s'.refs 0 = 0 ∧
      s'.manager.getFreeBlockId = (m, .ok 0) := by
  have h0 : blockLts.Reachable emptyFile := .init emptyFile_initial
  have h1 := Step.reachable h0 (show Step _ (.getFreeBlockId .newlyUsedBlock) _ from
    .getFreeBlockId rfl)
  have h2 := Step.reachable h1 (.headerSnapshot rfl)
  have h3 := Step.reachable h2 (.headerDurable rfl rfl)
  exact ⟨_, _, _, _, h3, .headerDone rfl rfl rfl,
    .markBlockAsModified (by decide) rfl, by decide, rfl⟩

end BlockRun

end MiniDuck
