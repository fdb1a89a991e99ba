import MiniDuck.PartialBlockManager

/-!
# Sharing blocks

Several partial block managers over one block manager, with allocations
handed out and not yet registered. `Sharing.Safe` is what holds of the
blocks at any time: the regions in a block lie apart, a flush clears
nothing of them, and no block is flushed twice. A registration at the
use limit flushes the block as if it had not got its last segment, so
`partial_blocks` is about the runs that stay within the limit
(`Permitted`).
-/

namespace MiniDuck

namespace PartialBlocks

open Manager

/-- An allocation that nothing has been written to yet. -/
structure HandedOut (ι : Type) where
  manager : ι
  allocation : PartialBlockAllocation

/-- An allocation with its segment, to be registered. -/
structure Written (ι : Type) where
  manager : ι
  size : Nat
  block : PartialBlock

/-- `flushed` has each block with the free space it was flushed with, `merged` the handles of those
that were copied into another, and `placed` the data of all segments. -/
structure Sharing (ι : Type) where
  managers : ι → Manager
  allocations : List (HandedOut ι)
  written : List (Written ι)
  flushed : List (PartialBlock × Nat)
  merged : List Nat
  placed : List (List Byte)
  nextHandle : Nat

/-- Writing comes with what else is in the buffer of the segment. -/
inductive Action (ι : Type) where
  | getBlockAllocation (i : ι) (segmentSize : Nat)
  | writeSegment (k : Nat) (data : List Byte) (rest : Memory Byte)
  | registerPartialBlock (k : Nat)
  | merge (i j : ι)
  | flushPartialBlocks (i : ι)

/-- The block of an allocation with its segment, as `FlushSegmentInternal` makes it. -/
def PartialBlockAllocation.write (allocation : PartialBlockAllocation) (handle : Nat)
    (data : List Byte) (rest : Memory Byte) : PartialBlock :=
  match allocation.partialBlock with
  | some b => b.writeSegment allocation.state.offset data
  | none => PartialBlock.create handle allocation.state data rest

namespace Sharing

variable {ι : Type} [DecidableEq ι] (blockSize : BlockSize) (s : Sharing ι)

def record (i : ι) (outcome : Outcome) : Sharing ι :=
  { s with
    managers := Function.update s.managers i outcome.manager
    flushed := s.flushed ++ outcome.flushed
    merged := s.merged ++ outcome.merged }

/-- A manager cannot be merged into itself, and a segment is no larger than a block. -/
def step : Action ι → Option (Sharing ι)
  | .getBlockAllocation i segmentSize =>
      let result := (s.managers i).getBlockAllocation blockSize segmentSize
      if segmentSize ≤ blockSize.size then
        some { s with
          managers := Function.update s.managers i result.2
          allocations := s.allocations ++ [⟨i, result.1⟩] }
      else none
  | .writeSegment k data rest =>
      s.allocations[k]?.bind fun a =>
        if data.length = a.allocation.allocationSize then
          some { s with
            allocations := s.allocations.eraseIdx k
            written := s.written ++
              [⟨a.manager, a.allocation.allocationSize,
                a.allocation.write s.nextHandle data rest⟩]
            placed := s.placed ++ [data]
            nextHandle := if a.allocation.partialBlock.isSome then s.nextHandle
              else s.nextHandle + 1 }
        else none
  | .registerPartialBlock k =>
      s.written[k]?.map fun w =>
        { s.record w.manager
            ((s.managers w.manager).registerPartialBlock blockSize w.size w.block) with
          written := s.written.eraseIdx k }
  | .merge i j =>
      if i = j then none
      else
        let outcome := Manager.merge blockSize (s.managers i) (s.managers j).partiallyFilledBlocks
        some { s.record i outcome with
          managers := Function.update (Function.update s.managers i outcome.manager) j
            { s.managers j with partiallyFilledBlocks := [] } }
  | .flushPartialBlocks i => some (s.record i (s.managers i).flushPartialBlocks)

/-- No block is registered at its use limit with a segment that is not empty. -/
def Permitted : Action ι → Prop
  | .registerPartialBlock k =>
      ∀ w ∈ s.written[k]?, (s.managers w.manager).WithinLimit w.size w.block
  | .merge i j => MergeWithinLimit blockSize (s.managers i) (s.managers j).partiallyFilledBlocks
  | _ => True

structure Initial : Prop where
  managers : ∀ i, ∃ maxPartialBlockSize maxUseCount,
    Manager.create blockSize maxPartialBlockSize maxUseCount = some (s.managers i)
  allocations : s.allocations = []
  written : s.written = []
  flushed : s.flushed = []
  merged : s.merged = []
  placed : s.placed = []
  nextHandle : s.nextHandle = 0

def lts (ι : Type) [DecidableEq ι] (blockSize : BlockSize) : Lts (Sharing ι) (Action ι) where
  init := Initial blockSize
  step s a t := s.step blockSize a = some t

/-! ## The blocks -/

/-- Every block has its segments in order, wherever it is. -/
structure Sound : Prop where
  keyed : ∀ i, ∀ e ∈ (s.managers i).partiallyFilledBlocks, Keyed blockSize e
  ready : ∀ a ∈ s.allocations, Ready blockSize a.allocation
  filled : ∀ w ∈ s.written, Filled blockSize w.size w.block
  flushed : ∀ p ∈ s.flushed, p.1.Holds (blockSize.size - p.2)

variable {blockSize s}

theorem update_keyed {managers : ι → Manager} {i : ι} {m : Manager}
    (h : ∀ j, ∀ e ∈ (managers j).partiallyFilledBlocks, Keyed blockSize e)
    (hm : ∀ e ∈ m.partiallyFilledBlocks, Keyed blockSize e) (j : ι) :
    ∀ e ∈ (Function.update managers i m j).partiallyFilledBlocks, Keyed blockSize e := by
  by_cases hj : j = i
  · subst hj
    rwa [Function.update_self]
  · rw [Function.update_of_ne hj]
    exact h j

theorem Sound.record {i : ι} {outcome : Outcome} (h : s.Sound blockSize)
    (hgood : Good blockSize outcome) : (s.record i outcome).Sound blockSize := by
  refine ⟨update_keyed h.keyed hgood.keyed, h.ready, h.filled, fun p hp => ?_⟩
  obtain hp | hp := List.mem_append.mp hp
  · exact h.flushed p hp
  · exact hgood.flushed p hp

theorem filled_write {allocation : PartialBlockAllocation} (h : Ready blockSize allocation)
    {data : List Byte} (hdata : data.length = allocation.allocationSize) (handle : Nat)
    (rest : Memory Byte) :
    Filled blockSize allocation.allocationSize (allocation.write handle data rest) := by
  obtain ⟨size, state, _ | b⟩ := allocation
  · have hoffset : state.offset = 0 := h.fresh rfl
    refine ⟨h.size_eq, h.le, h.aligned, ?_⟩
    show (PartialBlock.create handle state data rest).Holds (state.offset + size)
    obtain rfl : data.length = size := hdata
    rw [hoffset, Nat.zero_add]
    exact PartialBlock.holds_create handle state data rest
  · have hstate : b.state = state := h.state b rfl
    have hholds := (h.holds b rfl).writeSegment h.aligned data
    rw [hdata] at hholds
    refine ⟨hstate ▸ h.size_eq, hstate ▸ h.le, hstate ▸ h.aligned, ?_⟩
    show (b.writeSegment state.offset data).Holds (b.state.offset + size)
    rw [hstate]
    exact hholds

theorem Sound.step {a : Action ι} {t : Sharing ι} (h : s.Sound blockSize)
    (hpermitted : s.Permitted blockSize a) (hstep : s.step blockSize a = some t) :
    t.Sound blockSize := by
  cases a with
  | getBlockAllocation i segmentSize =>
      rw [Sharing.step] at hstep
      split at hstep
      · rename_i hsize
        obtain ⟨-, hready, -, hkeyed⟩ := getBlockAllocation_spec (h.keyed i) hsize
        obtain rfl := Option.some.inj hstep
        refine ⟨update_keyed h.keyed hkeyed, fun a ha => ?_, h.filled, h.flushed⟩
        obtain ha | ha := List.mem_append.mp ha
        · exact h.ready a ha
        · rwa [List.mem_singleton.mp ha]
      · cases hstep
  | writeSegment k data rest =>
      obtain ⟨a, ha, hstep⟩ := Option.bind_eq_some_iff.mp hstep
      split at hstep
      · rename_i hdata
        obtain rfl := Option.some.inj hstep
        refine ⟨h.keyed, fun b hb => h.ready b (List.mem_of_mem_eraseIdx hb), fun w hw => ?_,
          h.flushed⟩
        obtain hw | hw := List.mem_append.mp hw
        · exact h.filled w hw
        · rw [List.mem_singleton.mp hw]
          exact filled_write (h.ready a (List.mem_of_getElem? ha)) hdata _ rest
      · cases hstep
  | registerPartialBlock k =>
      obtain ⟨w, hw, rfl⟩ := Option.map_eq_some_iff.mp hstep
      have hrecord := h.record (i := w.manager) (registerPartialBlock_good (h.keyed w.manager)
        (h.filled w (List.mem_of_getElem? hw)) (hpermitted w hw))
      exact ⟨hrecord.keyed, hrecord.ready,
        fun v hv => h.filled v (List.mem_of_mem_eraseIdx hv), hrecord.flushed⟩
  | merge i j =>
      rw [Sharing.step] at hstep
      split at hstep
      · cases hstep
      · obtain rfl := Option.some.inj hstep
        have hrecord := h.record (i := i) (merge_good (h.keyed i) (h.keyed j) hpermitted)
        exact ⟨update_keyed hrecord.keyed fun e he => absurd he List.not_mem_nil, hrecord.ready,
          hrecord.filled, hrecord.flushed⟩
  | flushPartialBlocks i =>
      obtain rfl := Option.some.inj hstep
      exact h.record (flushPartialBlocks_good (h.keyed i))

/-! ## The items -/

variable [Fintype ι]

def heldItems (managers : ι → Manager) : Multiset Item :=
  ∑ i, itemsOf Prod.snd (managers i).partiallyFilledBlocks

def items (s : Sharing ι) : Multiset Item :=
  heldItems s.managers + (s.allocations.map fun a => allocationItems a.allocation).sum +
    itemsOf Written.block s.written + itemsOf Prod.fst s.flushed +
    (s.merged.map Item.block : List Item)

/-- The regions of a block lie apart, aligned and inside it. -/
structure Apart (blockSize : BlockSize) (b : PartialBlock) : Prop where
  ordered : b.segments.Pairwise fun r t => r.stop ≤ t.offset
  aligned : ∀ r ∈ b.segments, r.offset % 8 = 0
  inside : ∀ r ∈ b.segments, r.stop ≤ blockSize.size

/-- No block loses a region: the regions are apart, also from one that is only handed out, a block
in a map is under the space behind its last region, up to the alignment, and a flush clears no byte
of a region. No block is flushed twice, or flushed and copied into another. Once there is nothing
left to write and nothing in the maps, every block has been flushed or copied, and every segment
is in a block that was flushed. -/
structure Safe (blockSize : BlockSize) (s : Sharing ι) : Prop where
  held : ∀ i, ∀ e ∈ (s.managers i).partiallyFilledBlocks, Apart blockSize e.2 ∧
    ∃ last, e.2.segments.getLast? = some last ∧ alignValue last.stop ≤ blockSize.size ∧
      e.1 = blockSize.size - alignValue last.stop
  allocated : ∀ a ∈ s.allocations, a.allocation.state.offset % 8 = 0 ∧
    a.allocation.state.offset + a.allocation.allocationSize ≤ blockSize.size ∧
    ∀ b ∈ a.allocation.partialBlock, Apart blockSize b ∧
      ∀ r ∈ b.segments, r.stop ≤ a.allocation.state.offset
  written : ∀ w ∈ s.written, Apart blockSize w.block
  flushed : ∀ p ∈ s.flushed, Apart blockSize p.1 ∧ ∀ r ∈ p.1.segments,
    (∀ pos, r.offset ≤ pos → pos < r.stop → ¬p.1.Zeroes blockSize.size p.2 pos) ∧
    (p.1.flushInternal blockSize.size p.2).read r.offset r.data.length = r.data
  once : (s.flushed.map (fun p => p.1.handle) ++ s.merged).Nodup
  finished : s.allocations = [] → s.written = [] →
    (∀ i, (s.managers i).partiallyFilledBlocks = []) →
    (s.flushed.map (fun p => p.1.handle) ++ s.merged).Perm (List.range s.nextHandle) ∧
    (s.flushed.flatMap fun p => p.1.segments.map PlacedSegment.data).Perm s.placed

end Sharing

open Sharing

def defaultBlockSize : BlockSize := ⟨262136, by decide, by decide⟩

def single (maxUseCount : Nat) : Sharing Unit where
  managers _ := ⟨defaultBlockSize.size / 5 * 4, maxUseCount, []⟩
  allocations := []
  written := []
  flushed := []
  merged := []
  placed := []
  nextHandle := 0

end PartialBlocks

end MiniDuck
