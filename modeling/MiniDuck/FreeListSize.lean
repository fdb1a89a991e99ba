import MiniDuck.FreeList

/-!
# Space for the free list

In every reachable state the metadata blocks are referenced, so none of
them is free and none can be handed out again, a sub-block that is free
is not marked as modified, and no free block has a live handle
(`StorageInv`). It follows that an allocation succeeds and adds at most
16 bytes to what there is to write (`allocateHandle_ok`), far less than
the sub-block it gives, so that `getFreeListBlocks` ends with enough of
them (`getFreeListBlocks_ok`). Giving metadata blocks back costs eight
bytes a block and saves sixteen (`markBlocksAsModified_ok`).
-/

namespace MiniDuck

open SingleFileBlockManager

/-! ## The block manager's part -/

/-- Beside `RefInv`: what is newly used is referenced, and what can be handed
out has no handle. -/
structure BlockInv (s : BlockRun) : Prop where
  refs : s.RefInv
  newly : ∀ b ∈ s.manager.newlyUsedBlocks, 1 ≤ s.refs b
  live : ∀ b ∈ s.manager.liveHandles, b < s.manager.maxBlock ∧ b ∉ s.manager.freeList

namespace BlockInv

variable {s t : BlockRun} {b : Nat}

theorem peek_free (m : SingleFileBlockManager) :
    m.peekFreeBlockId ∈ m.freeList ∨ m.maxBlock ≤ m.peekFreeBlockId := by
  unfold peekFreeBlockId
  split_ifs with hne
  · exact Or.inl (Finset.min'_mem _ hne)
  · exact Or.inr le_rfl

theorem peek_not_live (h : BlockInv s) : s.manager.peekFreeBlockId ∉ s.manager.liveHandles := by
  intro hlive
  obtain ⟨hlt, hfree⟩ := h.live _ hlive
  rcases peek_free s.manager with hp | hp
  · exact hfree hp
  · omega

theorem peek_refs (h : BlockInv s) : s.refs s.manager.peekFreeBlockId = 0 := by
  refine (h.refs.block _).refs_eq_zero ?_
  rcases peek_free s.manager with hp | hp
  · exact Or.inl hp
  · exact Or.inr (Or.inr (Or.inr hp))

theorem get_eq (h : BlockInv s) (type : FreeBlockType) :
    s.manager.getFreeBlockIdInternal type =
      (s.manager.takeFreeBlock.noteNewlyUsed s.manager.peekFreeBlockId type,
        .ok s.manager.peekFreeBlockId) := by
  have hlive : s.manager.peekFreeBlockId ∉
      (s.manager.takeFreeBlock.noteNewlyUsed s.manager.peekFreeBlockId type).liveHandles := by
    have hsame : (s.manager.takeFreeBlock.noteNewlyUsed s.manager.peekFreeBlockId
        type).liveHandles = s.manager.liveHandles := by
      unfold takeFreeBlock noteNewlyUsed
      cases type <;> simp only <;> split <;> rfl
    rw [hsame]
    exact h.peek_not_live
  unfold getFreeBlockIdInternal
  simp only [if_neg hlive]

variable {m : SingleFileBlockManager}

theorem live_addFree (h : ∀ x ∈ m.liveHandles, x < m.maxBlock ∧ x ∉ m.freeList) :
    ∀ x ∈ (m.addFreeBlock b).liveHandles,
      x < (m.addFreeBlock b).maxBlock ∧ x ∉ (m.addFreeBlock b).freeList := by
  unfold addFreeBlock
  intro x hx
  by_cases hb : b ∈ m.liveHandles
  · rw [if_pos hb] at hx ⊢
    exact h x hx
  · rw [if_neg hb] at hx ⊢
    refine ⟨(h x hx).1, fun hf => ?_⟩
    rcases Finset.mem_insert.1 hf with rfl | hf
    · exact hb hx
    · exact (h x hx).2 hf

theorem live_release (hb : b ∉ m.liveHandles)
    (h : ∀ x ∈ m.liveHandles, x < m.maxBlock ∧ x ∉ m.freeList) :
    ∀ x ∈ (m.releaseFreeBlockInUse b).liveHandles,
      x < (m.releaseFreeBlockInUse b).maxBlock ∧ x ∉ (m.releaseFreeBlockInUse b).freeList := by
  unfold releaseFreeBlockInUse
  intro x hx
  by_cases hin : b ∈ m.freeBlocksInUse
  · rw [if_pos hin] at hx ⊢
    refine ⟨(h x hx).1, fun hf => ?_⟩
    rcases Finset.mem_insert.1 hf with rfl | hf
    · exact hb hx
    · exact (h x hx).2 hf
  · rw [if_neg hin] at hx ⊢
    exact h x hx

theorem live_take {m : SingleFileBlockManager} (type : FreeBlockType)
    (h : ∀ x ∈ m.liveHandles, x < m.maxBlock ∧ x ∉ m.freeList) :
    ∀ x ∈ (m.takeFreeBlock.noteNewlyUsed b type).liveHandles,
      x < (m.takeFreeBlock.noteNewlyUsed b type).maxBlock ∧
        x ∉ (m.takeFreeBlock.noteNewlyUsed b type).freeList := by
  have htake : ∀ x ∈ m.takeFreeBlock.liveHandles,
      x < m.takeFreeBlock.maxBlock ∧ x ∉ m.takeFreeBlock.freeList := by
    unfold takeFreeBlock
    intro x hx
    split_ifs at hx ⊢
    · exact ⟨(h x hx).1, fun hf => (h x hx).2 (Finset.mem_of_mem_erase hf)⟩
    · exact ⟨Nat.lt_succ_of_lt (h x hx).1, (h x hx).2⟩
  cases type with
  | newlyUsedBlock => exact htake
  | checkpointedBlock => exact htake

variable {refs : Nat → Nat}

theorem newly_take (type : FreeBlockType) (h : ∀ x ∈ m.newlyUsedBlocks, 1 ≤ refs x) :
    ∀ x ∈ (m.takeFreeBlock.noteNewlyUsed b type).newlyUsedBlocks,
      1 ≤ Function.update refs b 1 x := by
  have htake : m.takeFreeBlock.newlyUsedBlocks = m.newlyUsedBlocks := by
    unfold takeFreeBlock
    split <;> rfl
  have hold : ∀ x ∈ m.newlyUsedBlocks, 1 ≤ Function.update refs b 1 x := by
    intro x hx
    by_cases hxb : x = b
    · simp [hxb]
    · rw [Function.update_of_ne hxb]
      exact h x hx
  intro x hx
  cases type with
  | newlyUsedBlock =>
      simp only [noteNewlyUsed, htake] at hx
      rcases Finset.mem_insert.1 hx with rfl | hx
      · simp
      · exact hold x hx
  | checkpointedBlock =>
      simp only [noteNewlyUsed, htake] at hx
      exact hold x hx

theorem update_le {x n : Nat} (h : 1 ≤ refs x) (hn : refs b ≤ n) :
    1 ≤ Function.update refs b n x := by
  by_cases hxb : x = b
  · subst hxb
    rw [Function.update_self]
    omega
  · rw [Function.update_of_ne hxb]
    exact h

/-- A block that keeps references after the call is not erased from the newly
used ones. -/
theorem newly_mark {m' : SingleFileBlockManager} (hb : BlockRun.RefAt m (refs b) b)
    (hm : m.markBlockAsModified b = .ok m') (h : ∀ x ∈ m.newlyUsedBlocks, 1 ≤ refs x) :
    ∀ x ∈ m'.newlyUsedBlocks, 1 ≤ Function.update refs b (refs b - 1) x := by
  intro x hx
  unfold markBlockAsModified at hm
  cases hmulti : m.multiUseBlocks b with
  | some k =>
      have hc := hb.count
      rw [hmulti] at hc
      simp only [hmulti] at hm
      cases hm
      by_cases hxb : x = b
      · rw [hxb, Function.update_self]
        have := hc.2
        have := hc.1
        omega
      · rw [Function.update_of_ne hxb]
        exact h x hx
  | none =>
      simp only [hmulti] at hm
      split_ifs at hm with h1 h2 h3
      · cases hm
        have hx' : x ∈ m.newlyUsedBlocks.erase b := by
          unfold addFreeBlock at hx
          split_ifs at hx <;> exact hx
        obtain ⟨hxb, hx'⟩ := Finset.mem_erase.1 hx'
        rw [Function.update_of_ne hxb]
        exact h x hx'
      · cases hm
        have hxb : x ≠ b := fun he => h3 (he ▸ hx)
        rw [Function.update_of_ne hxb]
        exact h x hx

variable {op : BlockOp}

theorem newly_step (h : BlockInv s) (hs : BlockRun.Step s op t) :
    ∀ x ∈ t.manager.newlyUsedBlocks, 1 ≤ t.refs x := by
  have hrelease : ∀ (m : SingleFileBlockManager) c,
      (m.releaseFreeBlockInUse c).newlyUsedBlocks = m.newlyUsedBlocks := by
    intro m c
    unfold releaseFreeBlockInUse
    split <;> rfl
  cases hs with
  | @getFreeBlockId type m c hm =>
      rw [h.get_eq] at hm
      cases hm
      exact newly_take type h.newly
  | @getFreeBlockIdThrows type m e hm =>
      rw [h.get_eq] at hm
      cases hm
  | markBlockAsCheckpointed => exact fun x hx => h.newly x (Finset.mem_of_mem_erase hx)
  | @markBlockAsUsed c _ =>
      intro x hx
      refine update_le (h.newly x ?_) (Nat.le_succ _)
      unfold SingleFileBlockManager.markBlockAsUsed at hx
      simp only at hx
      split_ifs at hx <;> exact hx
  | @markBlockAsModified c m _ hm => exact newly_mark (h.refs.block c) hm h.newly
  | increaseBlockReferenceCount _ => exact fun x hx => update_le (h.newly x hx) (Nat.le_succ _)
  | registerBlock => exact h.newly
  | expireHandle => exact h.newly
  | unregisterBlock =>
      intro x hx
      rw [SingleFileBlockManager.unregisterBlock, hrelease] at hx
      exact h.newly x hx
  | unregisterExpiredBlock =>
      intro x hx
      unfold SingleFileBlockManager.unregisterExpiredBlock at hx
      split_ifs at hx
      · exact h.newly x hx
      · rw [hrelease] at hx
        exact h.newly x hx
  | truncate =>
      intro x hx
      rw [truncate_other.2.1] at hx
      exact h.newly x hx
  | headerSnapshot _ => exact h.newly
  | headerDurable _ _ => exact h.newly
  | headerRelease _ _ _ =>
      intro x hx
      refine h.newly x ?_
      unfold releaseBlock addFreeBlock at hx
      split_ifs at hx <;> exact hx
  | headerDone _ _ _ => exact h.newly

theorem live_step (h : BlockInv s) (hs : BlockRun.Step s op t)
    (hreg : ∀ b, op = .registerBlock b → 1 ≤ s.refs b) :
    ∀ x ∈ t.manager.liveHandles, x < t.manager.maxBlock ∧ x ∉ t.manager.freeList := by
  cases hs with
  | @getFreeBlockId type m c hm =>
      rw [h.get_eq] at hm
      cases hm
      exact live_take type h.live
  | @getFreeBlockIdThrows type m e hm =>
      rw [h.get_eq] at hm
      cases hm
  | markBlockAsCheckpointed => exact h.live
  | @markBlockAsUsed c _ =>
      unfold SingleFileBlockManager.markBlockAsUsed
      intro x hx
      simp only at hx ⊢
      split_ifs at hx ⊢ with hmax hfree
      · obtain ⟨hlt, hnot⟩ := h.live x hx
        refine ⟨by simp only; omega, fun hf => ?_⟩
        rcases Finset.mem_union.1 hf with hf | hf
        · exact hnot hf
        · have := (Finset.mem_Ico.1 hf).1
          omega
      · exact ⟨(h.live x hx).1, fun hf => (h.live x hx).2 (Finset.mem_of_mem_erase hf)⟩
      · exact h.live x hx
  | @markBlockAsModified c m _ hm =>
      unfold SingleFileBlockManager.markBlockAsModified at hm
      split at hm
      · cases hm
        exact h.live
      · split_ifs at hm
        · cases hm
          exact live_addFree (m := { s.manager with
            newlyUsedBlocks := s.manager.newlyUsedBlocks.erase c }) h.live
        · cases hm
          exact h.live
  | increaseBlockReferenceCount _ => exact h.live
  | @registerBlock c =>
      intro x hx
      rcases Finset.mem_insert.1 hx with rfl | hx
      · obtain ⟨hlt, hfree, -, -⟩ := (h.refs.block x).held (hreg x rfl)
        exact ⟨hlt, hfree⟩
      · exact h.live x hx
  | expireHandle => exact fun x hx => h.live x (Finset.mem_of_mem_erase hx)
  | @unregisterBlock c =>
      refine live_release (m := s.manager.expireHandle c) ?_
        fun x hx => h.live x (Finset.mem_of_mem_erase hx)
      exact Finset.notMem_erase c _
  | @unregisterExpiredBlock c =>
      unfold SingleFileBlockManager.unregisterExpiredBlock
      simp only
      split_ifs with hc
      · exact h.live
      · exact live_release hc h.live
  | truncate =>
      have hsame : s.manager.truncate.liveHandles = s.manager.liveHandles := by
        unfold SingleFileBlockManager.truncate
        simp only
        split_ifs <;> rfl
      intro x hx
      simp only [hsame] at hx
      obtain ⟨hlt, hnot⟩ := h.live x hx
      refine ⟨?_, fun hf => hnot (truncate_freeList hf)⟩
      by_contra hge
      rcases truncate_past (Nat.le_of_not_lt hge) with hpast | hfree
      · omega
      · exact hnot hfree
  | headerSnapshot _ => exact h.live
  | headerDurable _ _ => exact h.live
  | @headerRelease p c _ _ _ =>
      exact live_addFree (m := { s.manager with
        modifiedBlocks := s.manager.modifiedBlocks.erase c }) h.live
  | headerDone _ _ _ => exact h.live

theorem step (h : BlockInv s) (hs : BlockRun.Step s op t)
    (hreg : ∀ b, op = .registerBlock b → 1 ≤ s.refs b) : BlockInv t :=
  ⟨h.refs.step hs, h.newly_step hs, h.live_step hs hreg⟩

theorem refs_le {op : BlockOp} (hs : BlockRun.Step s op t)
    (hop : op ≠ .markBlockAsModified b) (hb : 1 ≤ s.refs b) : 1 ≤ t.refs b := by
  cases hs with
  | @getFreeBlockId type m c hm =>
      by_cases hbc : b = c
      · simp [hbc]
      · simp only [Function.update_of_ne hbc]
        exact hb
  | markBlockAsUsed _ => exact update_le hb (Nat.le_succ _)
  | @markBlockAsModified c m _ hm =>
      have hbc : b ≠ c := fun he => hop (he ▸ rfl)
      simp only [Function.update_of_ne hbc]
      exact hb
  | increaseBlockReferenceCount _ => exact update_le hb (Nat.le_succ _)
  | _ => exact hb

end BlockInv

/-! ## The invariant -/

/-- The metadata blocks are referenced, the masks are about known blocks, and a
free sub-block is not marked as modified. -/
structure StorageInv (s : StorageRun) : Prop where
  run : BlockInv s.run
  lists : s.space.manager.FreeListsOk
  held : ∀ b, s.space.manager.blocks b ≠ none → 1 ≤ s.run.refs b
  known : ∀ b, s.space.manager.modifiedBlocks b ≠ none → s.space.manager.blocks b ≠ none
  apart : ∀ p, s.space.manager.IsModified p → ¬s.space.manager.IsFree p

namespace StorageInv

open MetadataManager StorageManager

variable {s t : StorageRun} {b : Nat} {p : MetadataPointer} {order : WalkOrder}

theorem blocks_lt (h : StorageInv s) (hb : s.space.manager.blocks b ≠ none) :
    b < s.run.manager.maxBlock :=
  ((h.run.refs.block b).held (h.held b hb)).1

theorem multi_lt (h : BlockInv s.run) (hb : s.run.manager.multiUseBlocks b ≠ none) :
    b < s.run.manager.maxBlock := by
  obtain ⟨k, hk⟩ := Option.ne_none_iff_exists'.1 hb
  have hc := (h.refs.block b).count
  rw [hk] at hc
  refine ((h.refs.block b).held ?_).1
  have := hc.1
  have := hc.2
  omega

theorem mem_ids {α : Type} {m : StorageManager} {entries : Nat → Option α}
    (hlt : entries b ≠ none → b < m.blockManager.maxBlock) :
    b ∈ m.ids entries ↔ entries b ≠ none := by
  rw [ids, Finset.mem_filter, Finset.mem_range, Option.isSome_iff_ne_none]
  exact ⟨And.right, fun hb => ⟨hlt hb, hb⟩⟩

theorem mem_blockIds (h : StorageInv s) :
    b ∈ s.storage.blockIds ↔ s.space.manager.blocks b ≠ none :=
  mem_ids h.blocks_lt

theorem mem_multiUseIds (h : StorageInv s) :
    b ∈ s.storage.multiUseIds ↔ s.run.manager.multiUseBlocks b ≠ none :=
  mem_ids (multi_lt h.run)

theorem occupied_of_modified (h : StorageInv s) (hp : s.space.manager.IsModified p) :
    s.space.manager.IsOccupied p := by
  obtain ⟨hi, mask, hmask, -⟩ := id hp
  obtain ⟨block, hb⟩ := Option.ne_none_iff_exists'.1 (h.known p.blockIndex (by simp [hmask]))
  exact ⟨hi, block, hb, fun hmem => h.apart p hp ⟨block, hb, hmem⟩⟩

/-! ## Allocation -/

theorem findFree_finds (h : StorageInv s) (order : WalkOrder) :
    s.space.manager.Finds (s.storage.findFree order) := by
  cases hf : s.storage.findFree order with
  | some b =>
      have hb := List.find?_some hf
      unfold hasFreeBlocks at hb
      cases hblock : s.storage.space.manager.blocks b with
      | none => simp [hblock] at hb
      | some block =>
          simp only [hblock, Bool.not_eq_true', List.isEmpty_eq_false_iff] at hb
          exact ⟨block, hblock, hb⟩
  | none =>
      intro b block hblock
      have hmem : b ∈ order.order s.storage.blockIds := by
        rw [order.mem, h.mem_blockIds]
        simp [hblock]
      have hb := List.find?_eq_none.1 hf b hmem
      have hblock' : s.storage.space.manager.blocks b = some block := hblock
      simpa [hasFreeBlocks, hblock'] using hb

theorem blocks_peek (h : StorageInv s) :
    s.space.manager.blocks s.run.manager.peekFreeBlockId = none := by
  by_contra hb
  have := h.held _ hb
  have := h.run.peek_refs
  omega

end StorageInv

theorem MetadataManager.allocate_new {m : MetadataManager} {next : Nat}
    (hn : m.blocks next = none) : ∃ m₁ m' p, m.allocateNewBlock next = .ok m₁ ∧
    m₁.takeSubBlock next = some (m', p) ∧
    ∀ b, m'.blocks b ≠ none ↔ m.blocks b ≠ none ∨ b = next := by
  let block : MetadataBlock := ⟨(List.range metadataBlockCount).reverse, true⟩
  have hnew : m.allocateNewBlock next =
      .ok { m with blocks := Function.update m.blocks next (some block) } := by
    rw [allocateNewBlock, hn]
  have hfinds : ({ m with blocks := Function.update m.blocks next (some block) } :
      MetadataManager).Finds (some next) :=
    ⟨block, by simp, by simp [block, metadataBlockCount]⟩
  obtain ⟨m', p, htake⟩ := takeSubBlock_of_finds hfinds
  refine ⟨_, m', p, hnew, htake, fun b => ?_⟩
  obtain ⟨-, -, _, -, -, hblocks⟩ := takeSubBlock_some htake
  rw [hblocks]
  by_cases hb : b = next
  · simp [hb]
  · simp [hb]

/-- Where the search is right and the next id is free, an allocation succeeds. -/
theorem MetadataManager.allocateHandle_total {m : MetadataManager} {found : Option Nat}
    {next : Nat} (hf : m.Finds found) (hn : m.blocks next = none) :
    ∃ m' p, m.allocateHandle found next = .ok (some (m', p)) ∧ ∀ b, m'.blocks b ≠ none ↔
      m.blocks b ≠ none ∨ found.filter (· ≤ next) = none ∧ b = next := by
  obtain ⟨m₁, m', p, hnew, htake, hblocks⟩ := allocate_new hn
  have hfresh : (do
      let m₁ ← m.allocateNewBlock next
      return m₁.takeSubBlock next : Except String _) = .ok (some (m', p)) := by
    rw [hnew]
    exact congrArg Except.ok htake
  cases found with
  | none => exact ⟨m', p, hfresh, fun b => by simpa using hblocks b⟩
  | some c =>
      by_cases hc : c > next
      · refine ⟨m', p, ?_, fun b => ?_⟩
        · rw [allocateHandle]
          simp only [hc, if_true]
          exact hfresh
        · simpa [Option.filter, Nat.not_le_of_lt hc] using hblocks b
      · obtain ⟨m', p, htake⟩ := takeSubBlock_of_finds hf
        obtain ⟨-, -, block, hb, -, hblocks⟩ := takeSubBlock_some htake
        refine ⟨m', p, ?_, fun b => ?_⟩
        · rw [allocateHandle]
          simp only [hc, if_false, htake]
          rfl
        · have hle : c ≤ next := Nat.le_of_not_lt hc
          rw [hblocks]
          by_cases hbc : b = c
          · simp [hbc, hb]
          · simp [Option.filter, hle, Function.update_of_ne hbc]

namespace StorageInv

open MetadataManager StorageManager

variable {s t : StorageRun} {b : Nat} {p : MetadataPointer} {order : WalkOrder}

/-- What an allocation has done, for the size of the list. -/
structure Allocated (s t : StorageRun) (p : MetadataPointer) : Prop where
  inv : StorageInv t
  step : StorageRun.Step s .allocateHandle t
  size : t.storage.totalSize ≤ s.storage.totalSize + 16
  last : t.run.manager.maxBlock ≤ s.run.manager.maxBlock + 1
  multi : t.run.manager.multiUseBlocks = s.run.manager.multiUseBlocks
  modified : t.space.manager.modifiedBlocks = s.space.manager.modifiedBlocks
  fresh : ¬s.space.manager.IsOccupied p
  taken : t.space.manager.IsOccupied p
  keep : ∀ q, s.space.manager.IsOccupied q → t.space.manager.IsOccupied q

/-- Of a metadata block only the handle is given back. -/
theorem unregister_held (h : BlockInv s.run) (hb : 1 ≤ s.run.refs b) :
    s.run.manager.unregisterBlock b = s.run.manager.expireHandle b := by
  obtain ⟨-, -, hnot, -⟩ := (h.refs.block b).held hb
  exact if_neg hnot

theorem convertToTransient_inv (h : StorageInv s) (hb : s.space.manager.blocks b ≠ none) :
    BlockInv { s.run with manager := s.storage.convertToTransient b } ∧
    freeListCount (s.storage.convertToTransient b) = freeListCount s.run.manager ∧
    (s.storage.convertToTransient b).maxBlock = s.run.manager.maxBlock ∧
    (s.storage.convertToTransient b).multiUseBlocks = s.run.manager.multiUseBlocks := by
  have hsame : BlockInv { s.run with manager := s.run.manager } := h.run
  unfold convertToTransient
  split
  · have hunreg := unregister_held h.run (h.held b hb)
    have hstep := h.run.step (BlockRun.Step.unregisterBlock (b := b)) (by simp)
    rw [hunreg] at hstep
    simp only [StorageRun.storage, hunreg]
    exact ⟨hstep, rfl, rfl, rfl⟩
  · exact ⟨hsame, rfl, rfl, rfl⟩

/-- A new block comes from the free list or from behind the last block. -/
theorem takeFree_inv (h : BlockInv s.run) :
    ∃ m, s.run.manager.getFreeBlockIdForCheckpoint = (m, .ok s.run.manager.peekFreeBlockId) ∧
    BlockInv { s.run with
      manager := m
      refs := Function.update s.run.refs s.run.manager.peekFreeBlockId 1 } ∧
    freeListCount m ≤ freeListCount s.run.manager ∧
    m.maxBlock ≤ s.run.manager.maxBlock + 1 ∧
    m.multiUseBlocks = s.run.manager.multiUseBlocks := by
  have hget := h.get_eq .checkpointedBlock
  refine ⟨_, hget, h.step (BlockRun.Step.getFreeBlockId hget) (by simp), ?_⟩
  unfold noteNewlyUsed takeFreeBlock freeListCount
  simp only
  split_ifs
  · have := Finset.card_erase_le (s := s.run.manager.freeList)
      (a := s.run.manager.peekFreeBlockId)
    exact ⟨by simp only; omega, Nat.le_succ _, rfl⟩
  · exact ⟨le_rfl, le_rfl, rfl⟩

/-- The metadata manager's part of an allocation, given that of the block manager. -/
theorem allocate_inv (h : StorageInv s) {found : Option Nat} {m : SingleFileBlockManager}
    {refs : Nat → Nat} {manager : MetadataManager} {data : MetadataPointer → Nat → UInt8}
    (hm : BlockInv { s.run with manager := m, refs := refs })
    (halloc : s.space.manager.allocateHandle found s.run.manager.peekFreeBlockId =
      .ok (some (manager, p)))
    (hheld : ∀ b, manager.blocks b ≠ none → 1 ≤ refs b) :
    StorageInv ⟨{ s.run with manager := m, refs := refs }, ⟨manager, data⟩⟩ := by
  have ha := allocateHandle_spec halloc
  have hlists := ha.lists h.lists
  have hmodified : ∀ q, manager.IsModified q → s.space.manager.IsModified q := by
    intro q hq
    simpa only [IsModified, ha.modified] using hq
  refine ⟨hm, hlists, hheld, fun b hb => ?_, fun q hq hfree => ?_⟩
  · have hb' : s.space.manager.modifiedBlocks b ≠ none := by
      rw [← ha.modified]
      exact hb
    obtain ⟨block, hblock⟩ := Option.ne_none_iff_exists'.1 (h.known b hb')
    by_cases hbp : b = p.blockIndex
    · obtain ⟨block', hblock', -⟩ := ha.dirty
      show manager.blocks b ≠ none
      rw [hbp, hblock']
      simp
    · show manager.blocks b ≠ none
      rw [ha.other b hbp, hblock]
      simp
  · exact (ha.occupied q (h.occupied_of_modified (hmodified q hq))).not_free hfree

theorem allocated_of (h : StorageInv s) {m : SingleFileBlockManager} {refs : Nat → Nat}
    {manager : MetadataManager} {space : MetadataSpace}
    (hfor : s.storage.blockFor (s.storage.findFree order) = .ok m)
    (hm : BlockInv { s.run with manager := m, refs := refs })
    (hcount : freeListCount m ≤ freeListCount s.run.manager)
    (hlast : m.maxBlock ≤ s.run.manager.maxBlock + 1)
    (hmulti : m.multiUseBlocks = s.run.manager.multiUseBlocks)
    (halloc : s.space.manager.allocateHandle (s.storage.findFree order)
      s.run.manager.peekFreeBlockId = .ok (some (manager, p)))
    (hspace : s.space.allocateHandle (s.storage.findFree order, s.run.manager.peekFreeBlockId) =
      .ok (space, p))
    (hmanager : space.manager = manager)
    (hids : ∀ b, manager.blocks b ≠ none →
      s.space.manager.blocks b ≠ none ∨ b = s.run.manager.peekFreeBlockId)
    (hrefs : ∀ b, refs b = if s.space.manager.blocks b = none ∧ manager.blocks b ≠ none
      then 1 else s.run.refs b) :
    ∃ t, s.storage.allocateHandle order = .ok (t, p) ∧ Allocated s (s.afterAllocate t) p := by
  subst hmanager
  have ha := allocateHandle_spec halloc
  have hcall : s.storage.allocateHandle order = .ok (⟨m, space⟩, p) := by
    have hspace' : s.storage.space.allocateHandle (s.storage.findFree order,
        s.storage.blockManager.peekFreeBlockId) = .ok (space, p) := hspace
    unfold StorageManager.allocateHandle
    simp only [bind, Except.bind, hfor, hspace']
    rfl
  rw [funext hrefs] at hm
  have hinv : StorageInv (s.afterAllocate ⟨m, space⟩) := by
    refine h.allocate_inv hm halloc fun b hb => ?_
    by_cases hnew : s.space.manager.blocks b = none
    · rw [if_pos ⟨hnew, hb⟩]
    · rw [if_neg fun hc => hnew hc.1]
      exact h.held b hnew
  refine ⟨⟨m, space⟩, hcall, hinv, .allocateHandle hcall, ?_, hlast, hmulti, ha.modified,
    ha.fresh, ha.taken h.lists, ha.occupied⟩
  have hblockIds : (s.afterAllocate ⟨m, space⟩).storage.blockIds ⊆
      insert s.run.manager.peekFreeBlockId s.storage.blockIds := by
    intro b hb
    rw [Finset.mem_insert, h.mem_blockIds]
    exact (hids b (hinv.mem_blockIds.1 hb)).symm
  have hcard := (Finset.card_le_card hblockIds).trans (Finset.card_insert_le _ _)
  have hmultiIds : (s.afterAllocate ⟨m, space⟩).storage.multiUseIds = s.storage.multiUseIds := by
    ext b
    rw [hinv.mem_multiUseIds, h.mem_multiUseIds]
    show m.multiUseBlocks b ≠ none ↔ _
    rw [hmulti]
  have hcount' : freeListCount (s.afterAllocate ⟨m, space⟩).storage.blockManager ≤
    freeListCount s.storage.blockManager := hcount
  unfold totalSize
  rw [hmultiIds]
  omega

/-- `AllocateHandle` succeeds, and the list grows by at most one metadata block. -/
theorem allocateHandle_ok (h : StorageInv s) (order : WalkOrder) :
    ∃ t p, s.storage.allocateHandle order = .ok (t, p) ∧ Allocated s (s.afterAllocate t) p := by
  have hpeek := h.blocks_peek
  have hfinds := h.findFree_finds order
  obtain ⟨manager, p, halloc, hblocks⟩ := allocateHandle_total hfinds hpeek
  have hids : ∀ b, manager.blocks b ≠ none →
      s.space.manager.blocks b ≠ none ∨ b = s.run.manager.peekFreeBlockId :=
    fun b hb => ((hblocks b).1 hb).imp_right And.right
  obtain ⟨space, hspace, hmanager⟩ : ∃ space, s.space.allocateHandle
      (s.storage.findFree order, s.run.manager.peekFreeBlockId) = .ok (space, p) ∧
      space.manager = manager := by
    obtain ⟨-, block, hblock, -⟩ := (allocateHandle_spec halloc).taken h.lists
    have hpin : manager.pin p = .ok p := by
      rw [pin, hblock]
    unfold MetadataSpace.allocateHandle
    simp only [halloc, hpin]
    exact ⟨_, rfl, rfl⟩
  cases hfound : (s.storage.findFree order).filter (· ≤ s.run.manager.peekFreeBlockId) with
  | some c =>
      -- a block with space: no block is new
      have hc : s.space.manager.blocks c ≠ none := by
        rw [(Option.filter_eq_some_iff.1 hfound).1] at hfinds
        obtain ⟨block, hblock, -⟩ := hfinds
        simp [hblock]
      have hfor : s.storage.blockFor (s.storage.findFree order) =
          .ok (s.storage.convertToTransient c) := by
        have hfound' : (s.storage.findFree order).filter
            (· ≤ s.storage.blockManager.peekFreeBlockId) = some c := hfound
        rw [blockFor, hfound']
      obtain ⟨hm, hcount, hlast, hmulti⟩ := h.convertToTransient_inv hc
      refine (h.allocated_of hfor hm hcount.le (by omega) hmulti halloc hspace hmanager hids
        fun b => (if_neg ?_).symm).imp fun t ht => ⟨p, ht⟩
      rintro ⟨hnone, hsome⟩
      rcases (hblocks b).1 hsome with hold | ⟨hnew, -⟩
      · exact hold hnone
      · rw [hfound] at hnew
        cases hnew
  | none =>
      obtain ⟨m, hget, hm, hcount, hlast, hmulti⟩ := takeFree_inv h.run
      have hfor : s.storage.blockFor (s.storage.findFree order) = .ok m := by
        have hfound' : (s.storage.findFree order).filter
            (· ≤ s.storage.blockManager.peekFreeBlockId) = none := hfound
        have hget' : s.storage.blockManager.getFreeBlockIdForCheckpoint =
            (m, .ok s.run.manager.peekFreeBlockId) := hget
        simp only [blockFor, hfound', hget']
      refine (h.allocated_of hfor hm hcount hlast hmulti halloc hspace hmanager hids
        fun b => ?_).imp fun t ht => ⟨p, ht⟩
      by_cases hb : b = s.run.manager.peekFreeBlockId
      · have hnew : manager.blocks b ≠ none := (hblocks b).2 (Or.inr ⟨hfound, hb⟩)
        rw [if_pos ⟨hb ▸ hpeek, hnew⟩, hb, Function.update_self]
      · rw [Function.update_of_ne hb, if_neg]
        rintro ⟨hnone, hsome⟩
        rcases hids b hsome with hold | hnew
        · exact hold hnone
        · exact hb hnew

/-! ## Giving metadata blocks back -/

/-- One call of `MarkBlockAsModified` for a referenced block. -/
theorem markBlock_ok {r : BlockRun} (h : BlockInv r) (hb : 1 ≤ r.refs b) :
    ∃ m, r.manager.markBlockAsModified b = .ok m ∧
    BlockInv { r with manager := m, refs := Function.update r.refs b (r.refs b - 1) } ∧
    freeListCount m ≤ freeListCount r.manager + 1 ∧ m.maxBlock = r.manager.maxBlock ∧
    ∀ x k, m.multiUseBlocks x = some k → ∃ k', r.manager.multiUseBlocks x = some k' ∧ k ≤ k' := by
  obtain ⟨-, hfree, -, hmod⟩ := (h.refs.block b).held hb
  have hok : ∃ m, r.manager.markBlockAsModified b = .ok m ∧
      freeListCount m ≤ freeListCount r.manager + 1 ∧ m.maxBlock = r.manager.maxBlock ∧
      ∀ x k, m.multiUseBlocks x = some k →
        ∃ k', r.manager.multiUseBlocks x = some k' ∧ k ≤ k' := by
    unfold markBlockAsModified
    cases hmulti : r.manager.multiUseBlocks b with
    | some count =>
        refine ⟨_, rfl, Nat.le_succ _, rfl, fun x k hk => ?_⟩
        by_cases hx : x = b
        · subst hx
          simp only [Function.update_self] at hk
          split_ifs at hk
          cases hk
          exact ⟨count, hmulti, Nat.sub_le _ _⟩
        · simp only [Function.update_of_ne hx] at hk
          exact ⟨k, hk, le_rfl⟩
    | none =>
        simp only [if_neg hmod, if_neg hfree]
        by_cases hnew : b ∈ r.manager.newlyUsedBlocks
        · rw [if_pos hnew]
          have herase := Finset.card_erase_of_mem hnew
          have hpos := Finset.card_pos.2 ⟨b, hnew⟩
          unfold addFreeBlock freeListCount
          split_ifs
          · have := Finset.card_insert_le b r.manager.freeBlocksInUse
            exact ⟨_, rfl, by simp only; omega, rfl, fun x k hk => ⟨k, hk, le_rfl⟩⟩
          · have := Finset.card_insert_le b r.manager.freeList
            exact ⟨_, rfl, by simp only; omega, rfl, fun x k hk => ⟨k, hk, le_rfl⟩⟩
        · rw [if_neg hnew]
          have := Finset.card_insert_le b r.manager.modifiedBlocks
          unfold freeListCount
          exact ⟨_, rfl, by simp only; omega, rfl, fun x k hk => ⟨k, hk, le_rfl⟩⟩
  obtain ⟨m, hm, hcount, hlast, hmulti⟩ := hok
  exact ⟨m, hm, h.step (BlockRun.Step.markBlockAsModified hb hm) (by simp), hcount, hlast, hmulti⟩

theorem markBlocks_ok : (l : List Nat) → l.Nodup → {r : BlockRun} → BlockInv r →
    (∀ b ∈ l, 1 ≤ r.refs b) →
    ∃ m, l.foldlM (fun m b => (m.markBlockAsModified b).mapError StreamError.internal)
      r.manager = .ok m ∧
    BlockInv { r with
      manager := m
      refs := fun b => if b ∈ l then r.refs b - 1 else r.refs b } ∧
    freeListCount m ≤ freeListCount r.manager + l.length ∧ m.maxBlock = r.manager.maxBlock ∧
    ∀ x k, m.multiUseBlocks x = some k → ∃ k', r.manager.multiUseBlocks x = some k' ∧ k ≤ k'
  | [], _, r, h, _ => by
      have hsame : BlockInv { r with manager := r.manager, refs := r.refs } := h
      exact ⟨r.manager, rfl, by simpa using hsame, le_rfl, rfl, fun x k hk => ⟨k, hk, le_rfl⟩⟩
  | b :: l, hnd, r, h, hl => by
      obtain ⟨hb, hnd⟩ := List.nodup_cons.1 hnd
      obtain ⟨m₁, hm₁, hinv₁, hcount₁, hlast₁, hmulti₁⟩ :=
        markBlock_ok h (hl b List.mem_cons_self)
      have hl₁ : ∀ c ∈ l, 1 ≤ Function.update r.refs b (r.refs b - 1) c := by
        intro c hc
        have hne : c ≠ b := fun he => hb (he ▸ hc)
        rw [Function.update_of_ne hne]
        exact hl c (List.mem_cons_of_mem b hc)
      obtain ⟨m, hm, hinv, hcount, hlast, hmulti⟩ := markBlocks_ok l hnd hinv₁ hl₁
      refine ⟨m, ?_, ?_, ?_, hlast.trans hlast₁, fun x k hk => ?_⟩
      · rw [List.foldlM_cons, hm₁]
        exact hm
      · have hrefs : (fun c => if c ∈ l then Function.update r.refs b (r.refs b - 1) c - 1
            else Function.update r.refs b (r.refs b - 1) c) =
            fun c => if c ∈ b :: l then r.refs c - 1 else r.refs c := by
          funext c
          by_cases hc : c = b
          · simp [hc, hb]
          · simp [hc]
        rw [← hrefs]
        exact hinv
      · rw [List.length_cons]
        simp only at hcount
        omega
      · obtain ⟨k₁, hk₁, hle₁⟩ := hmulti x k hk
        obtain ⟨k₀, hk₀, hle₀⟩ := hmulti₁ x k₁ hk₁
        exact ⟨k₀, hk₀, hle₁.trans hle₀⟩

theorem mem_erasedBlocks (h : StorageInv s) : b ∈ s.storage.erasedBlocks order ↔
    s.space.manager.blocks b ≠ none ∧ s.space.manager.mergeModified b = none := by
  have hids : b ∈ s.storage.ids s.storage.space.manager.modifiedBlocks ↔
      s.space.manager.modifiedBlocks b ≠ none := mem_ids fun hb => h.blocks_lt (h.known b hb)
  rw [erasedBlocks, List.mem_filter, order.mem, hids, Bool.and_eq_true,
    Option.isSome_iff_ne_none, Option.isNone_iff_eq_none]
  constructor
  · exact fun hb => ⟨hb.2.1, hb.2.2⟩
  · rintro ⟨hb, hnone⟩
    obtain ⟨block, hblock⟩ := Option.ne_none_iff_exists'.1 hb
    have hmod := ((mergeModified_none hblock).1 hnone).1
    exact ⟨Option.isSome_iff_ne_none.1 hmod, hb, hnone⟩

/-- What `MarkBlocksAsModified` has done, for the size of the list. -/
structure Marked (s t : StorageRun) : Prop where
  inv : StorageInv t
  step : StorageRun.Step s .markBlocksAsModified t
  size : t.storage.totalSize ≤ s.storage.totalSize
  last : t.run.manager.maxBlock = s.run.manager.maxBlock
  multi : ∀ x k, t.run.manager.multiUseBlocks x = some k →
    ∃ k', s.run.manager.multiUseBlocks x = some k' ∧ k ≤ k'
  manager : t.space = { s.space with manager := s.space.manager.markBlocksAsModified }

variable {m : MetadataManager}

theorem mergeModified_known (h : m.mergeModified b ≠ none) : m.blocks b ≠ none := by
  obtain ⟨block, hblock⟩ := Option.ne_none_iff_exists'.1 h
  obtain ⟨block₀, hblock₀⟩ := mergeModified_some hblock
  simp [hblock₀]

/-- `MarkBlocksAsModified` succeeds, and the list does not grow: a block given
back takes eight bytes in the free list, and took sixteen as a metadata block. -/
theorem markBlocksAsModified_ok (h : StorageInv s) (order : WalkOrder) :
    ∃ t, s.storage.markBlocksAsModified order = .ok t ∧ Marked s (s.afterMark t) := by
  have hnd : (s.storage.erasedBlocks order).Nodup := (order.nodup _).filter _
  have hheld : ∀ b ∈ s.storage.erasedBlocks order, 1 ≤ s.run.refs b := fun b hb =>
    h.held b (h.mem_erasedBlocks.1 hb).1
  obtain ⟨m, hm, hrun, hcount, hlast, hmulti⟩ := markBlocks_ok _ hnd h.run hheld
  let t : StorageManager := ⟨m, { s.space with manager := s.space.manager.markBlocksAsModified }⟩
  have hcall : s.storage.markBlocksAsModified order = .ok t := by
    unfold StorageManager.markBlocksAsModified
    have hm' : (s.storage.erasedBlocks order).foldlM
        (fun m b => (m.markBlockAsModified b).mapError StreamError.internal)
        s.storage.blockManager = .ok m := hm
    rw [hm']
    rfl
  have hblocks : ∀ b, t.space.manager.blocks b = s.space.manager.mergeModified b := fun b => rfl
  have hrefs : (fun b => if b ∈ s.storage.erasedBlocks order then s.run.refs b - 1
      else s.run.refs b) = (s.afterMark t).run.refs := by
    funext b
    simp only [h.mem_erasedBlocks, StorageRun.afterMark, hblocks]
  rw [hrefs] at hrun
  have hinv : StorageInv (s.afterMark t) := by
    refine ⟨hrun, markBlocksAsModified_lists h.lists, fun b hb => ?_, fun b hb => ?_,
      fun p hp => (markBlocksAsModified_modified.1 hp).not_free⟩
    · have hnot : b ∉ s.storage.erasedBlocks order := fun hmem =>
        hb (h.mem_erasedBlocks.1 hmem).2
      rw [← hrefs]
      simp only [if_neg hnot]
      exact h.held b (mergeModified_known hb)
    · intro hnone
      refine hb ?_
      show (s.space.manager.mergeModified b).map _ = none
      have hnone' : s.space.manager.mergeModified b = none := hnone
      rw [hnone', Option.map_none]
  refine ⟨t, hcall, hinv, .markBlocksAsModified hcall, ?_, hlast, hmulti, rfl⟩
  have hids : (s.afterMark t).storage.blockIds =
      s.storage.blockIds \ (s.storage.erasedBlocks order).toFinset := by
    ext b
    rw [hinv.mem_blockIds, Finset.mem_sdiff, h.mem_blockIds, List.mem_toFinset,
      h.mem_erasedBlocks]
    constructor
    · exact fun hb => ⟨mergeModified_known hb, fun hc => hb hc.2⟩
    · exact fun hb hnone => hb.2 ⟨hb.1, hnone⟩
  have hsub : (s.storage.erasedBlocks order).toFinset ⊆ s.storage.blockIds := by
    intro b hb
    rw [h.mem_blockIds]
    exact (h.mem_erasedBlocks.1 (List.mem_toFinset.1 hb)).1
  have hcard := Finset.card_sdiff_of_subset hsub
  have hle := Finset.card_le_card hsub
  rw [← hids, List.toFinset_card_of_nodup hnd] at hcard
  rw [List.toFinset_card_of_nodup hnd] at hle
  have hmultiIds : (s.afterMark t).storage.multiUseIds ⊆ s.storage.multiUseIds := by
    intro b hb
    rw [hinv.mem_multiUseIds] at hb
    obtain ⟨k, hk⟩ := Option.ne_none_iff_exists'.1 hb
    obtain ⟨k', hk', -⟩ := hmulti b k hk
    rw [h.mem_multiUseIds, hk']
    simp
  have hmultiCard := Finset.card_le_card hmultiIds
  have hcount' : freeListCount (s.afterMark t).storage.blockManager ≤
    freeListCount s.storage.blockManager + (s.storage.erasedBlocks order).length := hcount
  unfold totalSize
  omega

/-! ## Every reachable state -/

theorem initial (h : s.Initial) : StorageInv s := by
  have hrefs := BlockRun.refInv_initial h.run
  have hmod : ∀ p, s.space.manager.IsModified p → ¬s.space.manager.IsFree p := by
    rintro p ⟨hi, mask, hmask, hbit⟩ ⟨block, hb, hmem⟩
    rw [h.modified, hb] at hmask
    cases hmask
    rw [BitVec.getLsbD_not, getLsbD_freeBlocksToInteger hi] at hbit
    simp [hmem] at hbit
  refine ⟨⟨hrefs, fun b hb => ?_, fun b hb => ?_⟩, h.lists, h.held, fun b hb => ?_, hmod⟩
  · rw [h.run.newlyUsed] at hb
    exact absurd hb (Finset.notMem_empty b)
  · obtain ⟨hlt, hfree, -, -⟩ := (hrefs.block b).held (h.live b hb)
    exact ⟨hlt, hfree⟩
  · intro hnone
    rw [h.modified, hnone] at hb
    exact hb rfl

theorem of_manager (h : StorageInv s) {m : MetadataManager} {data : MetadataPointer → Nat → UInt8}
    (hlists : m.FreeListsOk) (hblocks : ∀ b, m.blocks b ≠ none ↔ s.space.manager.blocks b ≠ none)
    (hknown : ∀ b, m.modifiedBlocks b ≠ none → s.space.manager.modifiedBlocks b ≠ none)
    (hapart : ∀ p, m.IsModified p → m.IsFree p →
      s.space.manager.IsModified p ∧ s.space.manager.IsFree p) :
    StorageInv { s with space := ⟨m, data⟩ } := by
  refine ⟨h.run, hlists, fun b hb => h.held b ((hblocks b).1 hb),
    fun b hb => (hblocks b).2 (h.known b (hknown b hb)), fun p hp hfree => ?_⟩
  obtain ⟨hp', hfree'⟩ := hapart p hp hfree
  exact h.apart p hp' hfree'

theorem flush (h : StorageInv s) :
    StorageInv { s with space := { s.space with manager := s.space.manager.flush } } := by
  have hblock : ∀ {b block}, s.space.manager.flush.blocks b = some block →
      ∃ block₀, s.space.manager.blocks b = some block₀ ∧
        block.freeBlocks = block₀.freeBlocks := by
    intro b block hb
    obtain ⟨block₀, hb₀, rfl⟩ := Option.map_eq_some_iff.1 hb
    exact ⟨block₀, hb₀, rfl⟩
  refine h.of_manager (fun b block hb => ?_) (fun b => ?_) (fun b hb => hb) fun p hp hfree => ?_
  · obtain ⟨block₀, hb₀, hsame⟩ := hblock hb
    exact hsame ▸ h.lists b block₀ hb₀
  · unfold MetadataManager.flush
    simp
  · obtain ⟨block, hb, hmem⟩ := hfree
    obtain ⟨block₀, hb₀, hsame⟩ := hblock hb
    exact ⟨hp, block₀, hb₀, hsame ▸ hmem⟩

theorem clear (h : StorageInv s) (hi : p.index < 64)
    (hm : s.space.manager.clearModifiedBlock p = .ok m) :
    StorageInv { s with space := { s.space with manager := m } } := by
  obtain ⟨hblocks, hmod⟩ := clearModifiedBlock_spec hm hi
  refine h.of_manager (fun b block hb => h.lists b block (hblocks ▸ hb)) (fun b => by rw [hblocks])
    (fun b hb => ?_) fun q hq hfree => ?_
  · unfold clearModifiedBlock at hm
    cases hmask : s.space.manager.modifiedBlocks p.blockIndex with
    | none => simp [hmask] at hm
    | some mask =>
        simp only [hmask, Except.ok.injEq] at hm
        subst hm
        by_cases hbp : b = p.blockIndex
        · rw [hbp, hmask]
          simp
        · simp only [Function.update_of_ne hbp] at hb
          exact hb
  · obtain ⟨block, hb, hmem⟩ := hfree
    exact ⟨((hmod q).1 hq).1, block, hblocks ▸ hb, hmem⟩

theorem step (h : StorageInv s) {op : StorageOp} (hs : StorageRun.Step s op t) :
    StorageInv t := by
  cases hs with
  | @block op run hop hrun =>
      have hreg : ∀ b, op = .registerBlock b → 1 ≤ s.run.refs b := by
        rintro b rfl
        exact hop
      refine ⟨h.run.step hrun hreg, h.lists, fun b hb => ?_, h.known, h.apart⟩
      refine BlockInv.refs_le hrun ?_ (h.held b hb)
      rintro rfl
      exact hb hop
  | @allocateHandle order m p hm =>
      obtain ⟨t, q, hcall, hdone⟩ := h.allocateHandle_ok order
      rw [hm] at hcall
      cases hcall
      exact hdone.inv
  | write => exact h.of_manager h.lists (fun _ => Iff.rfl) (fun _ hb => hb) fun _ hp hf => ⟨hp, hf⟩
  | clearModifiedBlocks hi hm => exact h.clear hi hm
  | @markBlocksAsModified order m hm =>
      obtain ⟨t, hcall, hdone⟩ := h.markBlocksAsModified_ok order
      rw [hm] at hcall
      cases hcall
      exact hdone.inv
  | flush => exact h.flush

theorem of_reachable (h : storageLts.Reachable s) : StorageInv s :=
  h.invariant (fun _ h0 => initial h0) fun _ _ _ _ hi (hs : StorageRun.Step _ _ _) => hi.step hs

/-! ## Reserving the sub-blocks -/

theorem card_le {u : Finset Nat} {n : Nat} (h : ∀ b ∈ u, b < n) : u.card ≤ n := by
  have hsub : u ⊆ Finset.range n := fun b hb => Finset.mem_range.2 (h b hb)
  exact (Finset.card_le_card hsub).trans_eq (Finset.card_range _)

/-- What there is to write is linear in the size of the file. -/
theorem totalSize_le (h : StorageInv s) :
    s.storage.totalSize ≤ 24 + 60 * s.run.manager.maxBlock := by
  have hfree := card_le fun b hb => ((h.run.refs.block b).free hb).1
  have hmod := card_le fun b hb => (h.run.refs.block b).modified hb
  have huse := card_le fun b hb => ((h.run.refs.block b).inUse hb).1
  have hnew := card_le fun b hb => ((h.run.refs.block b).held (h.run.newly b hb)).1
  have hmulti := card_le fun b hb => multi_lt h.run (h.mem_multiUseIds.1 hb)
  have hblocks := card_le fun b hb => h.blocks_lt (h.mem_blockIds.1 hb)
  have hcount : freeListCount s.storage.blockManager ≤ 4 * s.run.manager.maxBlock := by
    unfold freeListCount
    show s.run.manager.freeList.card + s.run.manager.modifiedBlocks.card +
      s.run.manager.freeBlocksInUse.card + s.run.manager.newlyUsedBlocks.card ≤ _
    omega
  unfold totalSize
  omega

/-- Sub-blocks that are allocated and will not be freed by the next header. -/
structure Held (s : StorageRun) (handles : List MetadataPointer) : Prop where
  nodup : handles.Nodup
  occupied : ∀ p ∈ handles, s.space.manager.IsOccupied p
  unmodified : ∀ p ∈ handles, ¬s.space.manager.IsModified p

theorem Held.allocate {handles : List MetadataPointer} (h : Held s handles) (hs : StorageInv s)
    (ha : Allocated s t p) : Held t (handles ++ [p]) := by
  have hmod : ∀ q, t.space.manager.IsModified q → s.space.manager.IsModified q := by
    intro q hq
    simpa only [IsModified, ha.modified] using hq
  refine ⟨?_, fun q hq => ?_, fun q hq hm => ?_⟩
  · refine List.nodup_append.2 ⟨h.nodup, List.nodup_singleton p, fun a hmem b hb hab => ?_⟩
    rw [List.mem_singleton.1 hb] at hab
    exact ha.fresh (hab ▸ h.occupied a hmem)
  · rcases List.mem_append.1 hq with hq | hq
    · exact ha.keep q (h.occupied q hq)
    · exact List.mem_singleton.1 hq ▸ ha.taken
  · rcases List.mem_append.1 hq with hq | hq
    · exact h.unmodified q hq (hmod q hm)
    · rw [List.mem_singleton.1 hq] at hm
      exact ha.fresh (hs.occupied_of_modified (hmod p hm))

theorem Held.mark {handles : List MetadataPointer} (h : Held s handles) (hm : Marked s t) :
    ∀ p ∈ handles, t.space.manager.IsOccupied p := by
  intro p hp
  rw [hm.manager]
  exact markBlocksAsModified_occupied.2 ⟨h.occupied p hp, h.unmodified p hp⟩

/-- What `GetFreeListBlocks` has done. -/
structure Reserved (size fuel : Nat) (s t : StorageRun) (handles : List MetadataPointer) :
    Prop where
  inv : StorageInv t
  leads : storageLts.Leads s t
  held : Held t handles
  enough : t.storage.totalSize < handles.length * room size
  last : t.run.manager.maxBlock ≤ s.run.manager.maxBlock + fuel
  multi : t.run.manager.multiUseBlocks = s.run.manager.multiUseBlocks

/-- Each round asks for at most 16 bytes more and brings more than that, so the
fuel only has to cover the bytes that are missing. -/
theorem reserveLoop_ok (order : WalkOrder) {size : Nat} (hroom : 16 < room size) :
    (fuel : Nat) → {s : StorageRun} → {handles : List MetadataPointer} → StorageInv s →
    Held s handles → 1 ≤ fuel →
    s.storage.totalSize + 2 ≤ fuel + handles.length * room size →
    ∃ t handles', reserveLoop order size fuel s.storage handles
      (handles.length * room size) = .ok (handles', t.storage) ∧ Reserved size fuel s t handles'
  | 0, _, _, _, _, hfuel, _ => absurd hfuel (Nat.not_succ_le_zero 0)
  | fuel + 1, s, handles, h, hheld, _, hmissing => by
      rw [reserveLoop]
      by_cases hdone : s.storage.totalSize < handles.length * room size
      · rw [if_pos hdone]
        exact ⟨s, handles, rfl, h, .refl, hheld, hdone, Nat.le_add_right _ _, rfl⟩
      · obtain ⟨u, p, hcall, ha⟩ := h.allocateHandle_ok order
        have hsize := ha.size
        have hlen : handles.length * room size + (size - pointerSize) =
            (handles ++ [p]).length * room size := by
          rw [List.length_append, List.length_singleton, Nat.succ_mul]
          rfl
        have hmore : (handles ++ [p]).length * room size =
            handles.length * room size + room size := by
          rw [List.length_append, List.length_singleton, Nat.succ_mul]
        obtain ⟨t, handles', hloop, hres⟩ := reserveLoop_ok order hroom fuel ha.inv
          (hheld.allocate h ha) (by omega) (by omega)
        refine ⟨t, handles', ?_, hres.inv, .head ha.step hres.leads, hres.held, hres.enough, ?_,
          hres.multi.trans ha.multi⟩
        · rw [if_neg hdone, hcall]
          simp only [bind, Except.bind]
          rw [hlen]
          exact hloop
        · have hlast := hres.last
          have hstep := ha.last
          omega

/-- `GetFreeListBlocks` ends, and what there is to write then fits into the
sub-blocks that it returns. -/
theorem getFreeListBlocks_ok (h : StorageInv s) (order : WalkOrder) {size : Nat}
    (hroom : 16 < room size) :
    ∃ t handles, s.storage.getFreeListBlocks order size = .ok (handles, t.storage) ∧
      Reserved size (s.storage.totalSize + 2) s t handles := by
  have hheld : Held s [] := ⟨List.nodup_nil, by simp, by simp⟩
  have hloop := reserveLoop_ok order hroom (s.storage.totalSize + 2) h hheld
    (by omega) (by simp)
  rw [List.length_nil, Nat.zero_mul] at hloop
  exact hloop

end StorageInv

/-- A sub-block has far more room than an allocation adds to the list. -/
theorem BlockSize.room_large (b : BlockSize) : 16 < room b.metadataBlockSize := by
  have hlarge := b.large
  unfold minBlockSize at hlarge
  unfold room BlockSize.metadataBlockSize metadataBlockCount pointerSize
  omega

end MiniDuck
