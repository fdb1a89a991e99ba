import MiniDuck.Lts

/-!
# Metadata sub-blocks

`MetadataManager` divides blocks of the file into 64 sub-blocks. A
sub-block that the last header needs may not be overwritten before the
next header is durable, although its neighbours in the same block are
rewritten in place. Freeing is therefore done in two phases. At each
header the occupied sub-blocks go into the mask `modifiedBlocks`, the
new checkpoint clears the bits of those it keeps
(`clearModifiedBlocks`), and the next `markBlocksAsModified` frees the
rest.

The masks are 64-bit words. `mem_blocksFromInteger` and
`getLsbD_freeBlocksToInteger` translate them to sets of indices, and
all reasoning about a step is done on those sets.
-/

namespace MiniDuck

def metadataBlockCount : Nat := 64

structure MetadataPointer where
  blockIndex : Nat
  index : Nat
  deriving Repr, DecidableEq

/-- `GetDiskPointer`: the index sits in the topmost byte. -/
def MetadataPointer.getDiskPointer (p : MetadataPointer) : Nat :=
  p.blockIndex ||| (p.index <<< 56)

structure MetadataBlock where
  freeBlocks : List Nat
  dirty : Bool
  deriving Repr, DecidableEq

def freeBlocksToInteger (freeBlocks : List Nat) : BitVec 64 :=
  freeBlocks.foldl (fun result i => result ||| BitVec.twoPow 64 i) 0

/-- `BlocksFromInteger`: the set bits, from the highest down. -/
def blocksFromInteger (freeList : BitVec 64) : List Nat :=
  (List.range 64).reverse.filter fun i => freeList.getLsbD i

structure MetadataManager where
  blocks : Nat → Option MetadataBlock
  modifiedBlocks : Nat → Option (BitVec 64)

namespace MetadataManager

variable (m : MetadataManager)

/-- `AllocateNewBlock` with the id that the block manager hands out. -/
def allocateNewBlock (newBlockId : Nat) : Except String MetadataManager :=
  match m.blocks newBlockId with
  | some _ => .error ("Block id with id " ++ toString newBlockId ++ " already exists")
  | none =>
      let newBlock : MetadataBlock := ⟨(List.range metadataBlockCount).reverse, true⟩
      .ok { m with blocks := Function.update m.blocks newBlockId (some newBlock) }

/-- The end of `AllocateHandle`: takes the last free index of the block. -/
def takeSubBlock (freeBlock : Nat) : Option (MetadataManager × MetadataPointer) :=
  match m.blocks freeBlock with
  | none => none
  | some block =>
      match block.freeBlocks.getLast? with
      | none => none
      | some index =>
          let block : MetadataBlock := ⟨block.freeBlocks.dropLast, true⟩
          some ({ m with blocks := Function.update m.blocks freeBlock (some block) },
            ⟨freeBlock, index⟩)

/-- `AllocateHandle`. The loop over the unordered map finds some block with
free space, `found`. The block manager would hand out `nextBlockId` next. -/
def allocateHandle (found : Option Nat) (nextBlockId : Nat) :
    Except String (Option (MetadataManager × MetadataPointer)) :=
  match found with
  | some freeBlock =>
      if freeBlock > nextBlockId then do
        let m ← m.allocateNewBlock nextBlockId
        return m.takeSubBlock nextBlockId
      else return m.takeSubBlock freeBlock
  | none => do
      let m ← m.allocateNewBlock nextBlockId
      return m.takeSubBlock nextBlockId

/-- What the loop of `AllocateHandle` may find. -/
def Finds (found : Option Nat) : Prop :=
  match found with
  | some freeBlock => ∃ block, m.blocks freeBlock = some block ∧ block.freeBlocks ≠ []
  | none => ∀ b block, m.blocks b = some block → block.freeBlocks = []

/-- The blocks after the first loop of `MarkBlocksAsModified`. A block whose
64 sub-blocks are all free is given back to the block manager. -/
def mergeModified (b : Nat) : Option MetadataBlock :=
  match m.modifiedBlocks b, m.blocks b with
  | some modifiedList, some block =>
      let newFreeBlocks := freeBlocksToInteger block.freeBlocks ||| modifiedList
      if newFreeBlocks = BitVec.allOnes 64 then none
      else some { block with freeBlocks := blocksFromInteger newFreeBlocks }
  | none, entry => entry
  | some _, none => none

def markBlocksAsModified : MetadataManager where
  blocks := m.mergeModified
  modifiedBlocks b := (m.mergeModified b).map fun block =>
    ~~~(freeBlocksToInteger block.freeBlocks)

/-- `ClearModifiedBlocks` for one pointer. -/
def clearModifiedBlock (p : MetadataPointer) : Except String MetadataManager :=
  match m.modifiedBlocks p.blockIndex with
  | none => .error ("ClearModifiedBlocks - Block id " ++ toString p.blockIndex ++
      " not found in modified_blocks")
  | some modifiedList =>
      let mask := modifiedList &&& ~~~(BitVec.twoPow 64 p.index)
      .ok { m with modifiedBlocks := Function.update m.modifiedBlocks p.blockIndex (some mask) }

/-- `Flush` leaves no block dirty. -/
def flush : MetadataManager where
  blocks b := (m.blocks b).map fun block => { block with dirty := false }
  modifiedBlocks := m.modifiedBlocks

/-- `Write`: the free mask of each block, as it stands in the header. -/
def write (b : Nat) : Option (BitVec 64) :=
  (m.blocks b).map fun block => freeBlocksToInteger block.freeBlocks

end MetadataManager

/-! ## Masks as sets of indices -/

theorem getLsbD_foldl_twoPow {i : Nat} (hi : i < 64) :
    (l : List Nat) → (acc : BitVec 64) →
    (l.foldl (fun result j => result ||| BitVec.twoPow 64 j) acc).getLsbD i =
      (acc.getLsbD i || decide (i ∈ l))
  | [], acc => by simp
  | j :: l, acc => by
      rw [List.foldl_cons, getLsbD_foldl_twoPow hi l, BitVec.getLsbD_or, BitVec.getLsbD_twoPow]
      by_cases hj : j = i
      · simp [hj, hi]
      · have : i ≠ j := Ne.symm hj
        simp [hj, this]

theorem getLsbD_freeBlocksToInteger {i : Nat} (hi : i < 64) (l : List Nat) :
    (freeBlocksToInteger l).getLsbD i = decide (i ∈ l) := by
  rw [freeBlocksToInteger, getLsbD_foldl_twoPow hi]
  simp

theorem mem_blocksFromInteger {i : Nat} {mask : BitVec 64} :
    i ∈ blocksFromInteger mask ↔ i < 64 ∧ mask.getLsbD i = true := by
  simp [blocksFromInteger]

theorem blocksFromInteger_nodup (mask : BitVec 64) : (blocksFromInteger mask).Nodup :=
  (List.nodup_reverse.2 List.nodup_range).filter _

theorem eq_allOnes_iff {mask : BitVec 64} :
    mask = BitVec.allOnes 64 ↔ ∀ i < 64, mask.getLsbD i = true := by
  constructor
  · rintro rfl i hi
    rw [BitVec.getLsbD_allOnes]
    exact decide_eq_true hi
  · intro h
    apply BitVec.eq_of_getLsbD_eq
    intro i hi
    rw [h i hi, BitVec.getLsbD_allOnes]
    exact (decide_eq_true hi).symm

/-- Distinct pointers are distinct on disk, as block ids fit into 56 bits. -/
theorem getDiskPointer_inj {p q : MetadataPointer} (hp : p.blockIndex < 2 ^ 56)
    (hq : q.blockIndex < 2 ^ 56) (h : p.getDiskPointer = q.getDiskPointer) : p = q := by
  unfold MetadataPointer.getDiskPointer at h
  rw [Nat.or_comm, ← Nat.shiftLeft_add_eq_or_of_lt hp, Nat.or_comm,
    ← Nat.shiftLeft_add_eq_or_of_lt hq, Nat.shiftLeft_eq, Nat.shiftLeft_eq] at h
  cases p
  cases q
  simp only [MetadataPointer.mk.injEq] at *
  omega

/-! ## Free and occupied sub-blocks -/

namespace MetadataManager

/-- The sub-block may be returned by `AllocateHandle`. -/
def IsFree (m : MetadataManager) (p : MetadataPointer) : Prop :=
  ∃ block, m.blocks p.blockIndex = some block ∧ p.index ∈ block.freeBlocks

/-- The sub-block belongs to a metadata block and is not free. -/
def IsOccupied (m : MetadataManager) (p : MetadataPointer) : Prop :=
  p.index < 64 ∧ ∃ block, m.blocks p.blockIndex = some block ∧ p.index ∉ block.freeBlocks

/-- The bit of the sub-block in the mask `modified_blocks`. -/
def IsModified (m : MetadataManager) (p : MetadataPointer) : Prop :=
  p.index < 64 ∧ ∃ mask, m.modifiedBlocks p.blockIndex = some mask ∧
    mask.getLsbD p.index = true

def FreeListsOk (m : MetadataManager) : Prop :=
  ∀ b block, m.blocks b = some block →
    block.freeBlocks.Nodup ∧ ∀ i ∈ block.freeBlocks, i < 64

/-- Whether the sub-block is occupied in the metadata state that a header wrote. -/
def OccupiedIn (written : Nat → Option (BitVec 64)) (p : MetadataPointer) : Prop :=
  p.index < 64 ∧ ∃ mask, written p.blockIndex = some mask ∧ mask.getLsbD p.index = false

variable {m m' : MetadataManager} {p q : MetadataPointer}

theorem IsOccupied.not_free (h : m.IsOccupied p) : ¬m.IsFree p := by
  obtain ⟨-, block, hb, hnot⟩ := h
  rintro ⟨block', hb', hmem⟩
  rw [hb] at hb'
  cases hb'
  exact hnot hmem

theorem occupiedIn_write : OccupiedIn m.write p ↔ m.IsOccupied p := by
  unfold OccupiedIn IsOccupied write
  refine and_congr_right fun hi => ?_
  cases hb : m.blocks p.blockIndex with
  | none => simp
  | some block => simp [getLsbD_freeBlocksToInteger hi]

/-! ### Allocation -/

variable {b : Nat}

/-- A new block changes nothing about the blocks that exist. -/
theorem allocateNewBlock_ok (h : m.allocateNewBlock b = .ok m') :
    m.blocks b = none ∧ m'.modifiedBlocks = m.modifiedBlocks ∧
    m'.blocks = Function.update m.blocks b
      (some ⟨(List.range metadataBlockCount).reverse, true⟩) := by
  unfold allocateNewBlock at h
  cases hb : m.blocks b with
  | some block => simp [hb] at h
  | none =>
      simp only [hb, Except.ok.injEq] at h
      subst h
      exact ⟨rfl, rfl, rfl⟩

theorem takeSubBlock_some (h : m.takeSubBlock b = some (m', p)) :
    p.blockIndex = b ∧ m'.modifiedBlocks = m.modifiedBlocks ∧
    ∃ block, m.blocks b = some block ∧ block.freeBlocks.getLast? = some p.index ∧
      m'.blocks = Function.update m.blocks b (some ⟨block.freeBlocks.dropLast, true⟩) := by
  unfold takeSubBlock at h
  cases hb : m.blocks b with
  | none => simp [hb] at h
  | some block =>
      cases hl : block.freeBlocks.getLast? with
      | none => simp [hb, hl] at h
      | some index =>
          simp only [hb, hl, Option.some.injEq, Prod.mk.injEq] at h
          obtain ⟨rfl, rfl⟩ := h
          exact ⟨rfl, rfl, block, rfl, hl, rfl⟩

theorem mem_dropLast_iff {l : List Nat} {i j : Nat} (hnd : l.Nodup) (hl : l.getLast? = some i) :
    j ∈ l.dropLast ↔ j ∈ l ∧ j ≠ i := by
  obtain ⟨l', rfl⟩ := List.getLast?_eq_some_iff.1 hl
  rw [List.nodup_append] at hnd
  simp only [List.dropLast_concat, List.mem_append, List.mem_singleton]
  constructor
  · exact fun hj => ⟨Or.inl hj, hnd.2.2 j hj i (List.mem_singleton_self i)⟩
  · rintro ⟨hj | hj, hne⟩
    · exact hj
    · exact absurd hj hne

/-- What `AllocateHandle` does to the sets: the returned sub-block was free or
of a new block, it is occupied afterwards, and no other sub-block of an
existing block changes. -/
structure Allocates (m m' : MetadataManager) (next : Nat) (p : MetadataPointer) : Prop where
  ids : ∀ b, m'.blocks b ≠ none → m.blocks b ≠ none ∨ b = next
  dirty : ∃ block, m'.blocks p.blockIndex = some block ∧ block.dirty = true
  other : ∀ b, b ≠ p.blockIndex → m'.blocks b = m.blocks b
  modified : m'.modifiedBlocks = m.modifiedBlocks
  lists : m.FreeListsOk → m'.FreeListsOk
  fresh : ¬m.IsOccupied p
  taken : m.FreeListsOk → m'.IsOccupied p
  occupied : ∀ q, m.IsOccupied q → m'.IsOccupied q

theorem Allocates.of_take {next : Nat} (h : m.takeSubBlock b = some (m', p)) :
    Allocates m m' next p := by
  obtain ⟨rfl, hmod, block, hb, hlast, hblocks⟩ := takeSubBlock_some h
  have hmem : p.index ∈ block.freeBlocks := List.mem_of_getLast? hlast
  refine ⟨fun b' hb' => ?_, ⟨_, by rw [hblocks, Function.update_self], rfl⟩,
    fun b' hne => by rw [hblocks, Function.update_of_ne hne], hmod,
    fun hok b' block' hb' => ?_, ?_, fun hok => ?_, fun q hq => ?_⟩
  · rw [hblocks] at hb'
    by_cases heq : b' = p.blockIndex
    · exact Or.inl (by simp [heq, hb])
    · rw [Function.update_of_ne heq] at hb'
      exact Or.inl hb'
  · rw [hblocks] at hb'
    by_cases heq : b' = p.blockIndex
    · subst heq
      rw [Function.update_self] at hb'
      cases hb'
      obtain ⟨hnd, hlt⟩ := hok _ block hb
      exact ⟨hnd.sublist (List.dropLast_sublist _),
        fun i hi => hlt i (List.dropLast_sublist _ |>.subset hi)⟩
    · rw [Function.update_of_ne heq] at hb'
      exact hok b' block' hb'
  · exact fun hocc => hocc.not_free ⟨block, hb, hmem⟩
  · obtain ⟨hnd, hlt⟩ := hok _ block hb
    refine ⟨hlt _ hmem, _, by rw [hblocks, Function.update_self], ?_⟩
    rw [mem_dropLast_iff hnd hlast]
    exact fun hcon => hcon.2 rfl
  · obtain ⟨hi, block', hb', hnot⟩ := hq
    refine ⟨hi, ?_⟩
    by_cases heq : q.blockIndex = p.blockIndex
    · rw [heq, hb] at hb'
      cases hb'
      exact ⟨_, by rw [hblocks, heq, Function.update_self],
        fun hcon => hnot (List.dropLast_sublist _ |>.subset hcon)⟩
    · exact ⟨block', by rw [hblocks, Function.update_of_ne heq]; exact hb', hnot⟩

theorem Allocates.of_new {m₁ : MetadataManager} (hnew : m.allocateNewBlock b = .ok m₁)
    (h : m₁.takeSubBlock b = some (m', p)) : Allocates m m' b p := by
  obtain ⟨hnone, hmod, hblocks⟩ := allocateNewBlock_ok hnew
  have htake : Allocates m₁ m' b p := .of_take h
  have hlists : m.FreeListsOk → m₁.FreeListsOk := by
    intro hok b' block' hb'
    rw [hblocks] at hb'
    by_cases heq : b' = b
    · subst heq
      rw [Function.update_self] at hb'
      cases hb'
      exact ⟨List.nodup_reverse.2 List.nodup_range, by simp [metadataBlockCount]⟩
    · rw [Function.update_of_ne heq] at hb'
      exact hok b' block' hb'
  refine ⟨fun b' hb' => ?_, htake.dirty, fun b' hne => ?_, htake.modified.trans hmod,
    fun hok => htake.lists (hlists hok), ?_,
    fun hok => htake.taken (hlists hok), fun q hq => htake.occupied q ?_⟩
  · by_cases heq : b' = b
    · exact Or.inr heq
    · rcases htake.ids b' hb' with hb' | hb'
      · rw [hblocks, Function.update_of_ne heq] at hb'
        exact Or.inl hb'
      · exact Or.inr hb'
  · rw [htake.other b' hne, hblocks, Function.update_of_ne ((takeSubBlock_some h).1 ▸ hne)]
  · rintro ⟨-, block, hb, -⟩
    rw [(takeSubBlock_some h).1, hnone] at hb
    cases hb
  · obtain ⟨hi, block', hb', hnot⟩ := hq
    have hne : q.blockIndex ≠ b := by
      rintro rfl
      rw [hnone] at hb'
      cases hb'
    exact ⟨hi, block', by rw [hblocks, Function.update_of_ne hne]; exact hb', hnot⟩

theorem allocateHandle_spec {found : Option Nat} {next : Nat}
    (h : m.allocateHandle found next = .ok (some (m', p))) : Allocates m m' next p := by
  have hnew : (do
      let m₁ ← m.allocateNewBlock next
      return m₁.takeSubBlock next : Except String _) = .ok (some (m', p)) →
      Allocates m m' next p := by
    intro hn
    cases hm : m.allocateNewBlock next with
    | error e =>
        rw [hm] at hn
        cases hn
    | ok m₁ =>
        rw [hm] at hn
        exact .of_new hm (Except.ok.inj hn)
  unfold allocateHandle at h
  cases found with
  | none => exact hnew h
  | some b =>
      simp only at h
      split_ifs at h
      · exact hnew h
      · exact .of_take (Except.ok.inj h)

/-- A block that the loop finds has a sub-block to give. -/
theorem takeSubBlock_of_finds (h : m.Finds (some b)) : ∃ m' p, m.takeSubBlock b = some (m', p) := by
  obtain ⟨block, hb, hne⟩ := h
  obtain ⟨i, hi⟩ := Option.ne_none_iff_exists'.1 (List.getLast?_eq_none_iff.not.2 hne)
  simp [takeSubBlock, hb, hi]

/-! ### The two phases of freeing -/

variable {block : MetadataBlock}

theorem flush_clean (h : m.flush.blocks b = some block) : block.dirty = false := by
  obtain ⟨block₀, -, rfl⟩ := Option.map_eq_some_iff.1 h
  rfl

theorem clearModifiedBlock_spec (h : m.clearModifiedBlock p = .ok m') (hp : p.index < 64) :
    m'.blocks = m.blocks ∧ ∀ q, m'.IsModified q ↔ m.IsModified q ∧ q ≠ p := by
  unfold clearModifiedBlock at h
  cases hm : m.modifiedBlocks p.blockIndex with
  | none => simp [hm] at h
  | some mask =>
      simp only [hm, Except.ok.injEq] at h
      subst h
      refine ⟨rfl, fun q => ?_⟩
      unfold IsModified
      dsimp only
      by_cases hb : q.blockIndex = p.blockIndex
      · have hq : q ≠ p ↔ q.index ≠ p.index := by
          cases p
          cases q
          simp_all
        rw [hb, Function.update_self, hm, hq]
        constructor
        · rintro ⟨hi, mask', hmask, hbit⟩
          cases hmask
          simp only [BitVec.getLsbD_and, BitVec.getLsbD_not, BitVec.getLsbD_twoPow, hp, hi,
            decide_true, Bool.true_and, Bool.and_eq_true, Bool.not_eq_true',
            decide_eq_false_iff_not] at hbit
          exact ⟨⟨hi, mask, rfl, hbit.1⟩, Ne.symm hbit.2⟩
        · rintro ⟨⟨hi, mask', hmask, hbit⟩, hne⟩
          cases hmask
          refine ⟨hi, _, rfl, ?_⟩
          simp only [BitVec.getLsbD_and, BitVec.getLsbD_not, BitVec.getLsbD_twoPow, hi, hp, hbit,
            Ne.symm hne, decide_true, decide_false, Bool.true_and, Bool.not_false]
      · have hq : q ≠ p := fun he => hb (he ▸ rfl)
        rw [Function.update_of_ne hb]
        simp [hq]

theorem mergeModified_some (h : m.mergeModified b = some block) :
    ∃ block₀, m.blocks b = some block₀ := by
  unfold mergeModified at h
  split at h
  · exact ⟨_, by assumption⟩
  · exact ⟨_, h⟩
  · cases h

variable {block₀ : MetadataBlock}

theorem mergeModified_dirty (hb : m.blocks b = some block₀) (h : m.mergeModified b = some block) :
    block.dirty = block₀.dirty := by
  unfold mergeModified at h
  cases hm : m.modifiedBlocks b with
  | none =>
      simp only [hm, hb, Option.some.injEq] at h
      rw [h]
  | some mask =>
      simp only [hm, hb] at h
      split_ifs at h
      cases h
      rfl

/-- Which sub-blocks of an existing block are free after the merge. -/
theorem mergeModified_free (hb : m.blocks b = some block₀) (h : m.mergeModified b = some block)
    {i : Nat} (hi : i < 64) :
    i ∈ block.freeBlocks ↔ i ∈ block₀.freeBlocks ∨ m.IsModified ⟨b, i⟩ := by
  unfold mergeModified at h
  cases hm : m.modifiedBlocks b with
  | none =>
      simp only [hm, hb, Option.some.injEq] at h
      subst h
      simp [IsModified, hm]
  | some mask =>
      simp only [hm, hb] at h
      split_ifs at h
      cases h
      rw [mem_blocksFromInteger, BitVec.getLsbD_or, getLsbD_freeBlocksToInteger hi]
      simp [IsModified, hm, hi, -BitVec.getLsbD_eq_getElem]

/-- The merge drops a block exactly if all its sub-blocks are free or modified. -/
theorem mergeModified_none (hb : m.blocks b = some block₀) :
    m.mergeModified b = none ↔ (m.modifiedBlocks b).isSome ∧
      ∀ i < 64, i ∈ block₀.freeBlocks ∨ m.IsModified ⟨b, i⟩ := by
  unfold mergeModified
  cases hm : m.modifiedBlocks b with
  | none => simp [hb]
  | some mask =>
      simp only [hb, ite_eq_left_iff, reduceCtorEq, imp_false, not_not, Option.isSome_some,
        true_and, eq_allOnes_iff]
      refine forall_congr' fun i => forall_congr' fun hi => ?_
      rw [BitVec.getLsbD_or, getLsbD_freeBlocksToInteger hi]
      simp [IsModified, hm, hi, -BitVec.getLsbD_eq_getElem]

theorem markBlocksAsModified_lists (hok : m.FreeListsOk) : m.markBlocksAsModified.FreeListsOk := by
  intro b block hb
  change m.mergeModified b = some block at hb
  unfold mergeModified at hb
  split at hb
  · simp only at hb
    split_ifs at hb
    cases hb
    exact ⟨blocksFromInteger_nodup _, fun i hi => (mem_blocksFromInteger.1 hi).1⟩
  · exact hok b block hb
  · cases hb

/-- Exactly the occupied sub-blocks without a modified bit stay occupied. -/
theorem markBlocksAsModified_occupied :
    m.markBlocksAsModified.IsOccupied p ↔ m.IsOccupied p ∧ ¬m.IsModified p := by
  constructor
  · rintro ⟨hi, block, hb, hnot⟩
    obtain ⟨block₀, hb₀⟩ := mergeModified_some hb
    rw [mergeModified_free hb₀ hb hi, not_or] at hnot
    exact ⟨⟨hi, block₀, hb₀, hnot.1⟩, hnot.2⟩
  · rintro ⟨⟨hi, block₀, hb₀, hnot⟩, hmod⟩
    cases hb : m.mergeModified p.blockIndex with
    | none =>
        rcases ((mergeModified_none hb₀).1 hb).2 p.index hi with hf | hf
        · exact absurd hf hnot
        · exact absurd hf hmod
    | some block =>
        refine ⟨hi, block, hb, ?_⟩
        rw [mergeModified_free hb₀ hb hi, not_or]
        exact ⟨hnot, hmod⟩

theorem markBlocksAsModified_modified :
    m.markBlocksAsModified.IsModified p ↔ m.markBlocksAsModified.IsOccupied p := by
  unfold IsModified IsOccupied
  refine and_congr_right fun hi => ?_
  simp only [markBlocksAsModified]
  cases m.mergeModified p.blockIndex with
  | none => simp
  | some block =>
      simp [BitVec.getLsbD_not, hi, getLsbD_freeBlocksToInteger hi, -BitVec.getLsbD_eq_getElem]

/-- An occupied sub-block with a modified bit is free afterwards, in its block
or with it. -/
theorem markBlocksAsModified_freed (hocc : m.IsOccupied p)
    (hmod : m.IsModified p) : m.markBlocksAsModified.IsFree p ∨
      m.markBlocksAsModified.blocks p.blockIndex = none := by
  obtain ⟨hi, block₀, hb₀, -⟩ := hocc
  cases hb : m.mergeModified p.blockIndex with
  | none => exact Or.inr hb
  | some block =>
      exact Or.inl ⟨block, hb, (mergeModified_free hb₀ hb hi).2 (Or.inr hmod)⟩

end MetadataManager

/-! ## Runs -/

/-- The manager with the header state around it. `written` and `root` are
those of the durable header, `pending` the state of a `WriteHeader` call in
flight. `handles` are the sub-blocks allocated since the header, which the
`MetadataWriter`s write to, and `cleared` those that the checkpoint keeps. The
contents of the sub-blocks are in memory (`data`), on disk, and as they were
on disk at the header (`durable`). -/
structure MetadataRun (α : Type) where
  manager : MetadataManager
  written : Nat → Option (BitVec 64)
  root : Option MetadataPointer
  pending : Option (Nat → Option (BitVec 64))
  nextRoot : Option MetadataPointer
  handles : List MetadataPointer
  cleared : List MetadataPointer
  data : MetadataPointer → α
  disk : MetadataPointer → α
  durable : MetadataPointer → α

inductive MetadataOp
  | allocateHandle (isRoot : Bool)
  | write (p : MetadataPointer)
  | clearModifiedBlocks (p : MetadataPointer)
  | abortCheckpoint
  | markBlocksAsModified
  | flush
  | headerDurable

namespace MetadataRun

open MetadataManager

variable {α : Type}

/-- `Flush` writes the dirty blocks in place, and with them all their sub-blocks. -/
def flushed (s : MetadataRun α) (p : MetadataPointer) : α :=
  match s.manager.blocks p.blockIndex with
  | some block => if block.dirty then s.data p else s.disk p
  | none => s.disk p

/-- The steps. The block manager hands out any id that fits a pointer. Within
`WriteHeader`, from `markBlocksAsModified` to the durable header, nothing is
allocated: the free list goes to sub-blocks allocated before. -/
inductive Step [Inhabited α] : MetadataRun α → MetadataOp → MetadataRun α → Prop
  | allocateHandle {s : MetadataRun α} {found : Option Nat} {next : Nat} {isRoot : Bool}
      {m : MetadataManager} {p : MetadataPointer} :
      s.pending = none → s.manager.Finds found → next < 2 ^ 56 →
      s.manager.allocateHandle found next = .ok (some (m, p)) →
      Step s (.allocateHandle isRoot)
        { s with
          manager := m
          handles := p :: s.handles
          nextRoot := if isRoot then some p else s.nextRoot
          data := fun q => if q.blockIndex = p.blockIndex ∧ s.manager.blocks p.blockIndex = none
            then default else s.data q }
  | write {s : MetadataRun α} {p : MetadataPointer} {v : α} : p ∈ s.handles →
      Step s (.write p) { s with data := Function.update s.data p v }
  | clearModifiedBlocks {s : MetadataRun α} {p : MetadataPointer} {m : MetadataManager} :
      s.pending = none → p.index < 64 → s.manager.clearModifiedBlock p = .ok m →
      Step s (.clearModifiedBlocks p) { s with manager := m, cleared := p :: s.cleared }
  | abortCheckpoint {s : MetadataRun α} : s.pending = none →
      Step s .abortCheckpoint { s with handles := [], nextRoot := none }
  | markBlocksAsModified {s : MetadataRun α} {r : MetadataPointer} : s.pending = none →
      s.nextRoot = some r →
      Step s .markBlocksAsModified
        { s with
          manager := s.manager.markBlocksAsModified
          pending := some s.manager.markBlocksAsModified.write }
  | flush {s : MetadataRun α} {w : Nat → Option (BitVec 64)} : s.pending = some w →
      Step s .flush
        { s with
          manager := s.manager.flush
          handles := []
          disk := s.flushed }
  | headerDurable {s : MetadataRun α} {w : Nat → Option (BitVec 64)} : s.pending = some w →
      (∀ b block, s.manager.blocks b = some block → block.dirty = false) →
      Step s .headerDurable
        { s with
          written := w
          root := s.nextRoot
          pending := none
          nextRoot := none
          handles := []
          cleared := []
          durable := s.disk }

/-- A loaded file, right after `LoadFreeList`: the manager is in the state the
header wrote, and every occupied sub-block is marked as modified. -/
structure Initial (s : MetadataRun α) : Prop where
  lists : s.manager.FreeListsOk
  ids : ∀ b, s.manager.blocks b ≠ none → b < 2 ^ 56
  written : s.written = s.manager.write
  modified : ∀ p, s.manager.IsModified p ↔ s.manager.IsOccupied p
  root : ∀ p, s.root = some p → s.manager.IsOccupied p
  pending : s.pending = none
  nextRoot : s.nextRoot = none
  handles : s.handles = []
  cleared : s.cleared = []
  data : s.data = s.disk
  durable : s.durable = s.disk

/-! ### The invariant -/

/-- What holds around the durable header. Outside of `WriteHeader` every
sub-block of the header is occupied, and the modified bits are those of the
sub-blocks that the checkpoint has not cleared. -/
structure MetaInv (s : MetadataRun α) : Prop where
  lists : s.manager.FreeListsOk
  ids : ∀ b, s.manager.blocks b ≠ none → b < 2 ^ 56
  occupied : s.pending = none → ∀ p, OccupiedIn s.written p → s.manager.IsOccupied p
  modified : s.pending = none → ∀ p,
    s.manager.IsModified p ↔ OccupiedIn s.written p ∧ p ∉ s.cleared
  pending : ∀ w, s.pending = some w →
    w = s.manager.write ∧ ∀ p, s.manager.IsModified p ↔ s.manager.IsOccupied p
  handles : ∀ p ∈ s.handles, s.manager.IsOccupied p ∧ ¬OccupiedIn s.written p ∧
    ∃ block, s.manager.blocks p.blockIndex = some block ∧ block.dirty = true
  nextRoot : ∀ p, s.nextRoot = some p → s.manager.IsOccupied p ∧ ¬OccupiedIn s.written p
  root : ∀ p, s.root = some p → OccupiedIn s.written p ∧ p.blockIndex < 2 ^ 56
  clean : ∀ p block, s.manager.blocks p.blockIndex = some block → block.dirty = false →
    s.data p = s.disk p
  content : ∀ p, OccupiedIn s.written p → s.disk p = s.durable p ∧
    (s.manager.blocks p.blockIndex ≠ none → s.data p = s.durable p)

namespace MetaInv

variable {s : MetadataRun α}

variable {p : MetadataPointer}

theorem allocate [Inhabited α] (h : MetaInv s) {found : Option Nat} {next : Nat} {isRoot : Bool}
    {m : MetadataManager} (hp : s.pending = none) (hnext : next < 2 ^ 56)
    (hm : s.manager.allocateHandle found next = .ok (some (m, p))) : MetaInv { s with
      manager := m
      handles := p :: s.handles
      nextRoot := if isRoot then some p else s.nextRoot
      data := fun q => if q.blockIndex = p.blockIndex ∧ s.manager.blocks p.blockIndex = none
        then default else s.data q } := by
  have ha := allocateHandle_spec hm
  have hfresh : ¬OccupiedIn s.written p := fun ho => ha.fresh (h.occupied hp p ho)
  have htaken := ha.taken h.lists
  have hmod : ∀ q, m.IsModified q ↔ s.manager.IsModified q := fun q => by
    simp only [IsModified, ha.modified]
  have hdata : ∀ q, s.manager.blocks q.blockIndex ≠ none →
      (if q.blockIndex = p.blockIndex ∧ s.manager.blocks p.blockIndex = none
        then default else s.data q) = s.data q := by
    intro q hq
    refine if_neg ?_
    rintro ⟨heq, hnone⟩
    exact hq (heq ▸ hnone)
  refine ⟨ha.lists h.lists, fun b hb => ?_, fun _ q hq => ha.occupied q (h.occupied hp q hq),
    fun _ q => (hmod q).trans (h.modified hp q), fun w hw => ?_, fun q hq => ?_, fun q hq => ?_,
    h.root, fun q block hb hd => ?_, fun q hq => ⟨(h.content q hq).1, fun _ => ?_⟩⟩
  · rcases ha.ids b hb with hb | rfl
    · exact h.ids b hb
    · exact hnext
  · exact absurd (hp ▸ hw) (by simp)
  · rcases List.mem_cons.1 hq with rfl | hq
    · exact ⟨htaken, hfresh, ha.dirty⟩
    · obtain ⟨hocc, hnot, hdirty⟩ := h.handles q hq
      refine ⟨ha.occupied q hocc, hnot, ?_⟩
      by_cases heq : q.blockIndex = p.blockIndex
      · exact heq ▸ ha.dirty
      · exact (ha.other _ heq).symm ▸ hdirty
  · have hq' : q = p ∨ s.nextRoot = some q := by
      cases isRoot with
      | true => exact Or.inl (Option.some.inj hq).symm
      | false => exact Or.inr hq
    rcases hq' with rfl | hq'
    · exact ⟨htaken, hfresh⟩
    · exact ⟨ha.occupied q (h.nextRoot q hq').1, (h.nextRoot q hq').2⟩
  · have hne : q.blockIndex ≠ p.blockIndex := by
      intro heq
      obtain ⟨block', hb', hd'⟩ := ha.dirty
      rw [← heq] at hb'
      rw [hb] at hb'
      cases hb'
      rw [hd] at hd'
      cases hd'
    rw [ha.other _ hne] at hb
    exact (hdata q (by simp [hb])).trans (h.clean q block hb hd)
  · obtain ⟨-, block, hb, -⟩ := h.occupied hp q hq
    exact (hdata q (by simp [hb])).trans ((h.content q hq).2 (by simp [hb]))

theorem write (h : MetaInv s) {v : α} (hp : p ∈ s.handles) :
    MetaInv { s with data := Function.update s.data p v } := by
  obtain ⟨-, hnot, block, hb, hd⟩ := h.handles p hp
  refine ⟨h.lists, h.ids, h.occupied, h.modified, h.pending, h.handles, h.nextRoot, h.root,
    fun q block' hb' hd' => ?_, fun q hq => ⟨(h.content q hq).1, fun hne => ?_⟩⟩
  · have hne : q ≠ p := by
      rintro rfl
      rw [hb] at hb'
      cases hb'
      rw [hd] at hd'
      cases hd'
    exact (Function.update_of_ne hne _ _).trans (h.clean q block' hb' hd')
  · have hne' : q ≠ p := fun he => hnot (he ▸ hq)
    exact (Function.update_of_ne hne' _ _).trans ((h.content q hq).2 hne)

theorem clear (h : MetaInv s) {m : MetadataManager} (hp : s.pending = none) (hi : p.index < 64)
    (hm : s.manager.clearModifiedBlock p = .ok m) :
    MetaInv { s with manager := m, cleared := p :: s.cleared } := by
  obtain ⟨hblocks, hmod⟩ := clearModifiedBlock_spec hm hi
  have hocc : ∀ q, m.IsOccupied q ↔ s.manager.IsOccupied q := fun q => by
    simp only [IsOccupied, hblocks]
  refine ⟨fun b block hb => h.lists b block (hblocks ▸ hb), fun b hb => h.ids b (hblocks ▸ hb),
    fun _ q hq => (hocc q).2 (h.occupied hp q hq), fun _ q => ?_, fun w hw => ?_, fun q hq => ?_,
    fun q hq => ?_, h.root, fun q block hb => h.clean q block (hblocks ▸ hb), fun q hq =>
      ⟨(h.content q hq).1, fun hb => (h.content q hq).2 (hblocks ▸ hb)⟩⟩
  · rw [hmod, h.modified hp, List.mem_cons, not_or, and_assoc, and_comm (a := q ∉ s.cleared)]
  · exact absurd (hp ▸ hw) (by simp)
  · obtain ⟨ho, hnot, hd⟩ := h.handles q hq
    exact ⟨(hocc q).2 ho, hnot, hblocks ▸ hd⟩
  · obtain ⟨ho, hnot⟩ := h.nextRoot q hq
    exact ⟨(hocc q).2 ho, hnot⟩

theorem mark (h : MetaInv s) (hp : s.pending = none) :
    MetaInv { s with
      manager := s.manager.markBlocksAsModified
      pending := some s.manager.markBlocksAsModified.write } := by
  have hblock : ∀ b, s.manager.markBlocksAsModified.blocks b ≠ none →
      s.manager.blocks b ≠ none := by
    intro b hb
    obtain ⟨block, hb⟩ := Option.ne_none_iff_exists'.1 hb
    obtain ⟨block₀, hb₀⟩ := mergeModified_some hb
    simp [hb₀]
  have hkeep : ∀ q, s.manager.IsOccupied q → ¬OccupiedIn s.written q →
      s.manager.markBlocksAsModified.IsOccupied q := fun q ho hnot =>
    markBlocksAsModified_occupied.2 ⟨ho, fun hm => hnot ((h.modified hp q).1 hm).1⟩
  refine ⟨markBlocksAsModified_lists h.lists, fun b hb => h.ids b (hblock b hb), ?_, ?_,
    fun w hw => ?_, fun q hq => ?_, fun q hq => ?_, h.root, fun q block hb hd => ?_,
    fun q hq => ⟨(h.content q hq).1, fun hb => (h.content q hq).2 (hblock _ hb)⟩⟩
  · exact fun hw => absurd hw (by simp)
  · exact fun hw => absurd hw (by simp)
  · cases hw
    exact ⟨rfl, fun q => markBlocksAsModified_modified⟩
  · obtain ⟨ho, hnot, block₀, hb₀, hd⟩ := h.handles q hq
    have hocc := hkeep q ho hnot
    obtain ⟨-, block, hb, -⟩ := hocc
    exact ⟨hkeep q ho hnot, hnot, block, hb, (mergeModified_dirty hb₀ hb).trans hd⟩
  · obtain ⟨ho, hnot⟩ := h.nextRoot q hq
    exact ⟨hkeep q ho hnot, hnot⟩
  · obtain ⟨block₀, hb₀⟩ := mergeModified_some hb
    exact h.clean q block₀ hb₀ ((mergeModified_dirty hb₀ hb).symm.trans hd)

theorem flush (h : MetaInv s) {w : Nat → Option (BitVec 64)} (hp : s.pending = some w) :
    MetaInv { s with manager := s.manager.flush, handles := [], disk := s.flushed } := by
  have hocc : ∀ q, s.manager.flush.IsOccupied q ↔ s.manager.IsOccupied q := fun q => by
    unfold IsOccupied MetadataManager.flush
    cases hb : s.manager.blocks q.blockIndex <;> simp [hb]
  have hdisk : ∀ q, OccupiedIn s.written q → s.flushed q = s.durable q := by
    intro q hq
    obtain ⟨hdisk, hdata⟩ := h.content q hq
    unfold flushed
    cases hb : s.manager.blocks q.blockIndex with
    | none => exact hdisk
    | some block =>
        simp only
        split_ifs
        · exact hdata (by simp [hb])
        · exact hdisk
  refine ⟨fun b block hb => ?_, fun b hb => ?_, ?_, ?_, fun w' hw => ?_, ?_, fun q hq => ?_,
    h.root, fun q block hb _ => ?_, fun q hq => ⟨hdisk q hq, fun hb => ?_⟩⟩
  · obtain ⟨block₀, hb₀, rfl⟩ := Option.map_eq_some_iff.1 hb
    exact h.lists b block₀ hb₀
  · exact h.ids b fun hnone => hb (by simp [MetadataManager.flush, hnone])
  · exact fun hw => absurd (hp ▸ hw) (by simp)
  · exact fun hw => absurd (hp ▸ hw) (by simp)
  · obtain ⟨rfl, hmod⟩ := h.pending w' hw
    refine ⟨?_, fun q => (hmod q).trans (hocc q).symm⟩
    funext b
    unfold MetadataManager.write MetadataManager.flush
    cases hb : s.manager.blocks b <;> simp [hb]
  · simp
  · obtain ⟨ho, hnot⟩ := h.nextRoot q hq
    exact ⟨(hocc q).2 ho, hnot⟩
  · obtain ⟨block₀, hb₀, rfl⟩ := Option.map_eq_some_iff.1 hb
    show s.data q = s.flushed q
    unfold flushed
    rw [hb₀]
    cases hd : block₀.dirty with
    | true => simp [hd]
    | false => simp [hd, h.clean q block₀ hb₀ hd]
  · refine (h.content q hq).2 fun hnone => hb ?_
    simp [MetadataManager.flush, hnone]

theorem header (h : MetaInv s) {w : Nat → Option (BitVec 64)} (hp : s.pending = some w)
    (hclean : ∀ b block, s.manager.blocks b = some block → block.dirty = false) :
    MetaInv { s with
      written := w
      root := s.nextRoot
      pending := none
      nextRoot := none
      handles := []
      cleared := []
      durable := s.disk } := by
  obtain ⟨rfl, hmod⟩ := h.pending w hp
  refine ⟨h.lists, h.ids, fun _ q hq => occupiedIn_write.1 hq, fun _ q => ?_, ?_, ?_, ?_,
    fun q hq => ?_, h.clean, fun q hq => ⟨rfl, fun _ => ?_⟩⟩
  · rw [hmod q, occupiedIn_write]
    simp
  · exact fun w' hw => absurd hw (by simp)
  · simp
  · simp
  · have ho := (h.nextRoot q hq).1
    obtain ⟨-, block, hb, -⟩ := ho
    exact ⟨occupiedIn_write.2 (h.nextRoot q hq).1, h.ids _ (by simp [hb])⟩
  · obtain ⟨-, block, hb, -⟩ := occupiedIn_write.1 hq
    exact h.clean q block hb (hclean _ block hb)

theorem step [Inhabited α] (h : MetaInv s) {op : MetadataOp} {s' : MetadataRun α}
    (hs : Step s op s') : MetaInv s' := by
  cases hs with
  | allocateHandle hp _ hnext hm => exact h.allocate hp hnext hm
  | write hp => exact h.write hp
  | clearModifiedBlocks hp hi hm => exact h.clear hp hi hm
  | abortCheckpoint hp =>
      exact ⟨h.lists, h.ids, h.occupied, h.modified, h.pending, by simp, by simp, h.root, h.clean,
        h.content⟩
  | markBlocksAsModified hp _ => exact h.mark hp
  | flush hp => exact h.flush hp
  | headerDurable hp hclean => exact h.header hp hclean

theorem initial (h : Initial s) : MetaInv s := by
  have hocc : ∀ p, OccupiedIn s.written p ↔ s.manager.IsOccupied p := fun p => by
    rw [h.written, occupiedIn_write]
  refine ⟨h.lists, h.ids, fun _ p hp => (hocc p).1 hp, fun _ p => ?_, fun w hw => ?_, ?_, ?_,
    fun p hp => ⟨(hocc p).2 (h.root p hp), ?_⟩, fun p _ _ _ => by rw [h.data],
    fun p _ => ⟨by rw [h.durable], fun _ => by rw [h.data, h.durable]⟩⟩
  · rw [h.modified, hocc]
    simp [h.cleared]
  · exact absurd (h.pending ▸ hw) (by simp)
  · simp [h.handles]
  · simp [h.nextRoot]
  · obtain ⟨-, block, hb, -⟩ := h.root p hp
    exact h.ids _ (by simp [hb])

end MetaInv

end MetadataRun

def metadataLts (α : Type) [Inhabited α] : Lts (MetadataRun α) MetadataOp where
  init := MetadataRun.Initial
  step := MetadataRun.Step

namespace MetadataRun

open MetadataManager

theorem metaInv_of_reachable {α : Type} [Inhabited α] {s : MetadataRun α}
    (h : (metadataLts α).Reachable s) : MetaInv s :=
  h.invariant (fun _ h0 => MetaInv.initial h0) fun _ _ _ _ hi (hs : Step _ _ _) => hi.step hs

/-- The metadata of the last durable checkpoint stays. No allocation returns a
sub-block that the durable header needs, so these keep their contents on disk
until the next header. Such a sub-block is not free before the next
`MarkBlocksAsModified`, which frees it exactly if the new checkpoint has not
cleared its bit. A planned root pointer differs from the durable one. -/
theorem metadata_of_last_header_kept {α : Type} [Inhabited α] (s : MetadataRun α)
    (hr : (metadataLts α).Reachable s) :
    (s.pending = none → ∀ found next m p,
      s.manager.allocateHandle found next = .ok (some (m, p)) → ¬OccupiedIn s.written p) ∧
    (∀ p, OccupiedIn s.written p → s.disk p = s.durable p) ∧
    (s.pending = none → ∀ p, OccupiedIn s.written p →
      ¬s.manager.IsFree p ∧
      (p ∉ s.cleared → s.manager.markBlocksAsModified.IsFree p ∨
        s.manager.markBlocksAsModified.blocks p.blockIndex = none) ∧
      (p ∈ s.cleared → s.manager.markBlocksAsModified.IsOccupied p)) ∧
    (∀ r p, s.root = some r → s.nextRoot = some p → p.getDiskPointer ≠ r.getDiskPointer) := by
  have h := metaInv_of_reachable hr
  refine ⟨fun hp found next m p hm ho => ?_, fun p hp => (h.content p hp).1, fun hp p ho => ?_,
    fun r p hroot hnext heq => ?_⟩
  · exact (allocateHandle_spec hm).fresh (h.occupied hp p ho)
  · have hocc := h.occupied hp p ho
    refine ⟨hocc.not_free, fun hc => ?_, fun hc => ?_⟩
    · exact markBlocksAsModified_freed hocc ((h.modified hp p).2 ⟨ho, hc⟩)
    · exact markBlocksAsModified_occupied.2 ⟨hocc, fun hm => ((h.modified hp p).1 hm).2 hc⟩
  · obtain ⟨ho, hlt⟩ := h.root r hroot
    obtain ⟨⟨hi, block, hb, hnot⟩, hfresh⟩ := h.nextRoot p hnext
    have hp := h.ids p.blockIndex (by simp [hb])
    exact hfresh (getDiskPointer_inj hp hlt heq ▸ ho)

def newFile : MetadataRun Nat where
  manager := ⟨fun _ => none, fun _ => none⟩
  written _ := none
  root := none
  pending := none
  nextRoot := none
  handles := []
  cleared := []
  data _ := 0
  disk _ := 0
  durable _ := 0

theorem newFile_initial : Initial newFile := by
  constructor <;> simp [newFile, FreeListsOk, IsModified, IsOccupied]
  rfl

theorem Step.reachable {s s' : MetadataRun Nat} {op : MetadataOp}
    (h : (metadataLts Nat).Reachable s) (hs : Step s op s') : (metadataLts Nat).Reachable s' :=
  h.step hs

/-- Two checkpoints of a new file: the second root is another sub-block. -/
theorem metadata_of_last_header_kept_two :
    ∃ s r p, (metadataLts Nat).Reachable s ∧ s.root = some r ∧ s.nextRoot = some p ∧
      p.getDiskPointer ≠ r.getDiskPointer := by
  have h0 : (metadataLts Nat).Reachable newFile := .init newFile_initial
  have h1 := Step.reachable h0 (@Step.allocateHandle _ _ _ none 0 true _ _ rfl
    (by simp [Finds, newFile]) (by decide) rfl)
  have h2 := Step.reachable h1 (.markBlocksAsModified rfl rfl)
  have h3 := Step.reachable h2 (.flush rfl)
  have h4 := Step.reachable h3 (.headerDurable rfl fun _ _ => MetadataManager.flush_clean)
  have h5 := Step.reachable h4 (@Step.allocateHandle _ _ _ (some 0) 1 true _ _ rfl
    ⟨_, rfl, by decide⟩ (by decide) rfl)
  exact ⟨_, _, _, h5, rfl, rfl, (metadata_of_last_header_kept _ h5).2.2.2 _ _ rfl rfl⟩

end MetadataRun

end MiniDuck
