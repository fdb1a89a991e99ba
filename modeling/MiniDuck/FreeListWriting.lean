import MiniDuck.FreeListSize

/-!
# Writing the free list

A `FreeListBlockWriter` is a `MetadataWriter` whose chain is a first part
of the reserved sub-blocks (`ListWriterOk`). As long as the bytes before
and those to come fit into all of them, the next sub-block is there when
it is needed (`writeLoop_ok`), and so the calls of `WriteHeader` succeed
and leave the bytes in the chain (`writeFreeList_ok`).
-/

namespace MiniDuck

open MetadataManager

/-- The writer has used `index` of the sub-blocks. -/
structure ListWriterOk (size : Nat) (s : MetadataSpace) (w : FreeListBlockWriter)
    (handles : List MetadataPointer) (written : List UInt8) : Prop where
  blocks : w.freeListBlocks = handles
  index : w.index ≤ handles.length
  ok : WriterOk size s w.writer (handles.take w.index) written

structure HandlesOk (s : MetadataSpace) (handles : List MetadataPointer) : Prop where
  space : SpaceOk s
  nodup : handles.Nodup
  occupied : ∀ p ∈ handles, s.manager.IsOccupied p

namespace FreeListBlockWriter

variable {size : Nat} {s : MetadataSpace} {w : FreeListBlockWriter}
  {handles : List MetadataPointer} {written bytes : List UInt8}

theorem HandlesOk.congr {s' : MetadataSpace} (h : HandlesOk s handles)
    (hm : s'.manager = s.manager) : HandlesOk s' handles :=
  ⟨⟨hm ▸ h.space.lists, hm ▸ h.space.ids⟩, h.nodup, fun p hp => hm ▸ h.occupied p hp⟩

theorem nextBlock_ok (hh : HandlesOk s handles) (hsize : pointerSize < size)
    (hw : ListWriterOk size s w handles written) (hfull : w.writer.capacity ≤ w.writer.offset)
    (hpin : w.writer.pinned = true ∨ w.index = 0) (hindex : w.index < handles.length) :
    ∃ s' w', w.nextBlock size s = .ok (s', w') ∧ s'.manager = s.manager ∧
      ListWriterOk size s' w' handles written ∧ w'.writer.pinned = true ∧
      w'.writer.capacity = size ∧ w'.writer.offset = pointerSize ∧
      w'.writer.currentPointer = handles[w.index] ∧ w'.index = w.index + 1 := by
  have hget : w.freeListBlocks[w.index]? = some handles[w.index] := by
    rw [hw.blocks]
    exact List.getElem?_eq_getElem hindex
  have hnext : w.nextHandle = .ok (handles[w.index], { w with index := w.index + 1 }) := by
    rw [nextHandle, hget]
  have hsucc : handles.take (w.index + 1) = handles.take w.index ++ [handles[w.index]] :=
    (List.take_concat_get' handles w.index hindex).symm
  have hocc : ∀ q ∈ handles.take (w.index + 1), s.manager.IsOccupied q := fun q hq =>
    hh.occupied q (List.mem_of_mem_take hq)
  have hfresh : handles[w.index] ∉ handles.take w.index := by
    have hnd := hh.nodup.sublist (List.take_sublist (w.index + 1) handles)
    rw [hsucc] at hnd
    intro hmem
    exact (List.nodup_append.1 hnd).2.2 _ hmem _ (List.mem_singleton_self _) rfl
  have hfile := (hh.occupied _ (List.getElem_mem hindex)).inFile hh.space
  unfold nextBlock
  cases hw.ok.place with
  | fresh hchain hn _ hcap hoff =>
      have hzero : w.index = 0 := by
        rcases List.take_eq_nil_iff.1 hchain with hz | hnil
        · exact hz
        · rw [hnil] at hindex
          exact absurd hindex (Nat.not_lt_zero _)
      have hnil : written = [] := List.eq_nil_of_length_eq_zero hn
      simp only [hnext, bind, Except.bind, pure, Except.pure, hcap, Nat.lt_irrefl, gt_iff_lt,
        if_false]
      refine ⟨_, _, rfl, rfl, ⟨hw.blocks, hindex, ?_, ?_, ?_⟩, rfl, rfl, rfl, rfl, rfl⟩
      · refine .within (handles.take w.index) hsucc ?_ rfl (Nat.le_refl _) (Nat.le_of_lt hsize)
        rw [hn, hchain, List.length_nil, Nat.zero_mul, Nat.sub_self]
      · show Stored size _ (handles.take (w.index + 1)) written
        rw [hsucc, hchain, hnil]
        exact Stored.first s _
      · exact hocc
  | within init hchain hn hcap hlow hhigh =>
      have hpinned : w.writer.pinned = true := by
        refine hpin.resolve_right fun hz => ?_
        rw [hz] at hchain
        exact absurd hchain.symm (by simp)
      have hbase : w.writer.basePtr = .ok w.writer.currentPointer := if_pos hpinned
      have hpos : 0 < size := Nat.lt_of_le_of_lt (Nat.zero_le _) hsize
      have hoff : w.writer.offset = size := by omega
      simp only [hnext, bind, Except.bind, pure, Except.pure, hcap, gt_iff_lt, hpos, if_true,
        hbase]
      refine ⟨_, _, rfl, rfl, ⟨hw.blocks, hindex, ?_, ?_, ?_⟩, rfl, rfl, rfl, rfl, rfl⟩
      · refine .within (handles.take w.index) hsucc ?_ rfl (Nat.le_refl _) (Nat.le_of_lt hsize)
        rw [hn, hchain, hoff, List.length_append, List.length_singleton, Nat.succ_mul,
          Nat.sub_self]
        rfl
      · have hlen := hw.ok.place.length_le
        have hstored := hw.ok.stored
        show Stored size _ (handles.take (w.index + 1)) written
        rw [hsucc]
        rw [hchain] at hlen hstored hfresh ⊢
        exact hstored.link hlen hfresh hfile
      · exact hocc

/-- The bytes of the stream end before the room that the sub-blocks have. -/
theorem index_lt (hw : ListWriterOk size s w handles written)
    (hfit : written.length + bytes.length ≤ handles.length * room size)
    (hover : w.writer.offset + bytes.length > w.writer.capacity) : w.index < handles.length := by
  by_contra hge
  have hindex : w.index = handles.length := Nat.le_antisymm hw.index (Nat.le_of_not_lt hge)
  have hroom := hw.ok.place.room_left
  have hoff := MetadataWriter.WriterAt.offset_le hw.ok.place
  rw [hindex, List.take_length] at hroom
  omega

/-- The loop of `WriteData` never asks for a sub-block that is not there. -/
theorem writeLoop_ok (hsize : pointerSize < size) :
    (fuel : Nat) → {s : MetadataSpace} → {w : FreeListBlockWriter} →
    {written bytes : List UInt8} → HandlesOk s handles →
    ListWriterOk size s w handles written → w.writer.pinned = true →
    written.length + bytes.length ≤ handles.length * room size →
    bytes.length + (if w.writer.offset < w.writer.capacity then 1 else 2) ≤ fuel →
    ∃ s' w', writeLoop size fuel s w bytes = .ok (s', w') ∧ s'.manager = s.manager ∧
      ListWriterOk size s' w' handles (written ++ bytes) ∧ w'.writer.pinned = true
  | 0, s, w, written, bytes, _, _, _, _, hfuel => by
      split_ifs at hfuel <;> omega
  | fuel + 1, s, w, written, bytes, hh, hw, hpin, hfit, hfuel => by
      have hbase : ∀ bytes, w.writer.copyData s bytes =
          .ok (s.copyTo w.writer.currentPointer w.writer.offset bytes,
            { w.writer with offset := w.writer.offset + bytes.length }) :=
        fun bytes => MetadataWriter.copyData_pinned hpin
      rw [writeLoop]
      by_cases hover : w.writer.offset + bytes.length > w.writer.capacity
      · have hindex := index_lt hw hfit hover
        obtain ⟨s₁, writer₁, hfill, hm₁, hp₁⟩ : ∃ s₁ writer₁, w.writer.fill s bytes =
            .ok (s₁, writer₁) ∧ s₁.manager = s.manager ∧ writer₁.pinned = true := by
          unfold MetadataWriter.fill
          by_cases hc : w.writer.capacity - w.writer.offset > 0
          · simp only [if_pos hc, hbase]
            exact ⟨_, _, rfl, rfl, hpin⟩
          · simp only [if_neg hc]
            exact ⟨s, w.writer, rfl, rfl, hpin⟩
        obtain ⟨-, hw₁, hfull₁⟩ := MetadataWriter.fill_spec hh.space hw.ok hover hfill
        obtain ⟨s₂, w₂, hnext, hm₂, hw₂, hp₂, hcap₂, hoff₂, -⟩ :=
          nextBlock_ok (w := { w with writer := writer₁ }) (HandlesOk.congr hh hm₁) hsize
            ⟨hw.blocks, hw.index, hw₁⟩ hfull₁ (Or.inl hp₁) hindex
        have hlen : (bytes.take (w.writer.capacity - w.writer.offset)).length +
            (bytes.drop (w.writer.capacity - w.writer.offset)).length = bytes.length := by
          rw [List.length_take, List.length_drop]
          omega
        have hfit₂ : (written ++ bytes.take (w.writer.capacity - w.writer.offset)).length +
            (bytes.drop (w.writer.capacity - w.writer.offset)).length ≤
            handles.length * room size := by
          rw [List.length_append]
          omega
        have hfuel₂ : (bytes.drop (w.writer.capacity - w.writer.offset)).length +
            (if w₂.writer.offset < w₂.writer.capacity then 1 else 2) ≤ fuel := by
          rw [hcap₂, hoff₂, if_pos hsize, List.length_drop]
          split_ifs at hfuel <;> omega
        obtain ⟨s₃, w₃, hloop, hm₃, hw₃, hp₃⟩ := writeLoop_ok hsize fuel
          (HandlesOk.congr hh (hm₂.trans hm₁)) hw₂ hp₂ hfit₂ hfuel₂
        refine ⟨s₃, w₃, ?_, hm₃.trans (hm₂.trans hm₁), ?_, hp₃⟩
        · rw [if_pos hover]
          simp only [bind, Except.bind, hfill, hnext]
          exact hloop
        · rw [List.append_assoc, List.take_append_drop] at hw₃
          exact hw₃
      · obtain ⟨-, hw₁, -⟩ := MetadataWriter.copyData_spec hh.space hw.ok
          (Nat.le_of_not_lt hover) (hbase bytes)
        rw [if_neg hover, hbase]
        exact ⟨_, _, rfl, rfl, ⟨hw.blocks, hw.index, hw₁⟩, hpin⟩

theorem writeAll_ok (hsize : pointerSize < size) :
    (fields : List (List UInt8)) → {s : MetadataSpace} → {w : FreeListBlockWriter} →
    {written : List UInt8} → HandlesOk s handles → ListWriterOk size s w handles written →
    w.writer.pinned = true →
    written.length + fields.flatten.length ≤ handles.length * room size →
    ∃ s' w', writeAll size s w fields = .ok (s', w') ∧ s'.manager = s.manager ∧
      ListWriterOk size s' w' handles (written ++ fields.flatten) ∧ w'.writer.pinned = true
  | [], s, w, written, _, hw, hpin, _ => by
      rw [List.flatten_nil, List.append_nil]
      exact ⟨s, w, rfl, rfl, hw, hpin⟩
  | bytes :: fields, s, w, written, hh, hw, hpin, hfit => by
      rw [List.flatten_cons, List.length_append] at hfit
      have hfirst : written.length + bytes.length ≤ handles.length * room size := by omega
      obtain ⟨s₁, w₁, hwrite, hm₁, hw₁, hp₁⟩ := writeLoop_ok hsize (bytes.length + 2) hh hw hpin
        hfirst (by split_ifs <;> omega)
      obtain ⟨s₂, w₂, hrest, hm₂, hw₂, hp₂⟩ := writeAll_ok hsize fields
        (HandlesOk.congr hh hm₁) hw₁ hp₁ (by rw [List.length_append]; omega)
      refine ⟨s₂, w₂, ?_, hm₂.trans hm₁, ?_, hp₂⟩
      · rw [writeAll, writeData, hwrite]
        exact hrest
      · rw [List.flatten_cons, ← List.append_assoc]
        exact hw₂

theorem flush_pinned {w : MetadataWriter} (hpin : w.pinned = true) :
    ∃ s', w.flush s = .ok (s', { w with pinned := false }) ∧ s'.manager = s.manager := by
  have hbase : w.basePtr = .ok w.currentPointer := if_pos hpin
  unfold MetadataWriter.flush
  by_cases hroom : w.offset < w.capacity
  · simp only [if_pos hroom, hbase, bind, Except.bind]
    exact ⟨_, rfl, rfl⟩
  · simp only [if_neg hroom]
    exact ⟨s, rfl, rfl⟩

/-- The pointer to the list, and the first sub-block for it. -/
theorem getMetaBlockPointer_ok (hh : HandlesOk s handles) (hsize : pointerSize < size)
    (hne : handles ≠ []) :
    ∃ s' w', (start handles).getMetaBlockPointer size s =
        .ok (⟨(chainAt handles 0).getDiskPointer, pointerSize⟩, s', w') ∧
      s'.manager = s.manager ∧ ListWriterOk size s' w' handles [] ∧ w'.index = 1 ∧
      w'.writer.pinned = true := by
  have hstart : ListWriterOk size s (start handles) handles [] := by
    refine ⟨rfl, Nat.zero_le _, .fresh rfl rfl rfl rfl rfl, ⟨List.nodup_nil, ?_, ?_⟩, ?_⟩
    · exact fun i hi => absurd hi (Nat.not_lt_zero i)
    · exact fun j hj => absurd hj (Nat.not_lt_zero j)
    · exact fun q hq => absurd hq (List.not_mem_nil)
  have hpos : 0 < handles.length := List.length_pos_of_ne_nil hne
  obtain ⟨s', w', hnext, hm, hw, hpin, hcap, hoff, hcur, hindex⟩ :=
    nextBlock_ok hh hsize hstart (Nat.le_refl _) (Or.inr rfl) hpos
  have hchain : chainAt handles 0 = handles[0] := by
    rw [chainAt, List.getD_eq_getElem?_getD, List.getElem?_eq_getElem hpos, Option.getD_some]
  refine ⟨s', w', ?_, hm, hw, hindex, hpin⟩
  have hge : (start handles).writer.offset ≥ (start handles).writer.capacity := Nat.le_refl _
  unfold getMetaBlockPointer
  simp only [if_pos hge, hnext, bind, Except.bind, hcur, hoff, hchain]
  rfl

end FreeListBlockWriter

/-! ## The bytes of the list -/

section Fields

variable {order : WalkOrder} {s : StorageManager} {header : BlockHeader}

theorem length_flatten_const {n : Nat} : (fields : List (List UInt8)) →
    (∀ bytes ∈ fields, bytes.length = n) → fields.flatten.length = n * fields.length
  | [], _ => by simp
  | bytes :: fields, h => by
      rw [List.flatten_cons, List.length_append, h bytes List.mem_cons_self,
        length_flatten_const fields fun b hb => h b (List.mem_cons_of_mem _ hb),
        List.length_cons, Nat.mul_succ, Nat.add_comm]

/-- The bytes of a table with an id and a value in each row. -/
def rowBytes (ids : List Nat) (width : Nat) (value : Nat → Nat) : List UInt8 :=
  (ids.map fun b => storeBytes 8 b ++ storeBytes width (value b)).flatten

theorem flatten_flatMap_rowBytes (ids : List Nat) (width : Nat) (value : Nat → Nat) :
    (ids.flatMap fun b => [storeBytes 8 b, storeBytes width (value b)]).flatten =
      rowBytes ids width value := by
  induction ids with
  | nil => rfl
  | cons b ids ih =>
      rw [List.flatMap_cons, List.flatten_append, ih]
      simp [rowBytes]

theorem length_rowBytes (ids : List Nat) (width : Nat) (value : Nat → Nat) :
    (rowBytes ids width value).length = (8 + width) * ids.length := by
  rw [rowBytes, length_flatten_const (n := 8 + width), List.length_map]
  intro bytes hb
  obtain ⟨b, -, rfl⟩ := List.mem_map.1 hb
  simp

def idBytes (ids : List Nat) : List UInt8 := (ids.map (storeBytes 8)).flatten

theorem length_idBytes (ids : List Nat) : (idBytes ids).length = 8 * ids.length := by
  rw [idBytes, length_flatten_const (n := 8), List.length_map]
  intro bytes hb
  obtain ⟨b, -, rfl⟩ := List.mem_map.1 hb
  simp

/-- The list as one stream: three tables, each with its length in front. -/
def freeListBytes (order : WalkOrder) (s : StorageManager) (header : BlockHeader) : List UInt8 :=
  storeBytes 8 header.freeBlocks.card ++ (idBytes (header.freeBlocks.sort (· ≤ ·)) ++
    (storeBytes 8 (s.ids header.multiUseBlocks).card ++
      (rowBytes (order.order (s.ids header.multiUseBlocks)) 4
          (fun b => (header.multiUseBlocks b).getD 0) ++
        (storeBytes 8 s.blockIds.card ++
          rowBytes (order.order s.blockIds) 8
            fun b => ((s.space.manager.write b).getD 0).toNat))))

theorem flatten_freeListFields :
    (s.freeListFields order header).flatten = freeListBytes order s header := by
  unfold StorageManager.freeListFields freeListBytes
  rw [List.flatten_append, List.flatten_append, List.flatten_cons, List.flatten_cons,
    List.flatten_cons, flatten_flatMap_rowBytes, flatten_flatMap_rowBytes]
  simp only [List.append_assoc, idBytes]

theorem WalkOrder.length_order (order : WalkOrder) (u : Finset Nat) :
    (order.order u).length = u.card := by
  have hset : (order.order u).toFinset = u := by
    ext b
    rw [List.mem_toFinset, order.mem]
  rw [← List.toFinset_card_of_nodup (order.nodup u), hset]

theorem length_freeListBytes : (freeListBytes order s header).length =
    (8 + 8 * header.freeBlocks.card) + (8 + (8 + 4) * (s.ids header.multiUseBlocks).card) +
      (8 + (8 + 8) * s.blockIds.card) := by
  unfold freeListBytes
  simp only [List.length_append, length_storeBytes, length_idBytes, length_rowBytes,
    order.length_order, Finset.length_sort]
  omega

/-- The size that `GetFreeListBlocks` computes is enough for what is written. -/
theorem length_freeListBytes_le (order : WalkOrder) (s : StorageManager) :
    (freeListBytes order s s.blockManager.snapshotHeader.2).length ≤ s.totalSize := by
  have hfree : s.blockManager.snapshotHeader.2.freeBlocks.card ≤
      StorageManager.freeListCount s.blockManager := by
    unfold StorageManager.freeListCount SingleFileBlockManager.snapshotHeader
    have h1 := Finset.card_union_le (s.blockManager.freeList ∪ s.blockManager.freeBlocksInUse ∪
      s.blockManager.modifiedBlocks) s.blockManager.newlyUsedBlocks
    have h2 := Finset.card_union_le (s.blockManager.freeList ∪ s.blockManager.freeBlocksInUse)
      s.blockManager.modifiedBlocks
    have h3 := Finset.card_union_le s.blockManager.freeList s.blockManager.freeBlocksInUse
    simp only
    omega
  have hmulti : (s.ids s.blockManager.snapshotHeader.2.multiUseBlocks).card ≤
      s.multiUseIds.card := by
    refine Finset.card_le_card (Finset.monotone_filter_right _ fun b _ hb => ?_)
    unfold SingleFileBlockManager.snapshotHeader at hb
    simp only at hb
    split_ifs at hb
    · cases hb
    · exact hb
  rw [length_freeListBytes]
  unfold StorageManager.totalSize
  omega

end Fields

/-- With enough sub-blocks `WriteHeader` writes the list, and leaves it in a
chain that starts at the pointer of the header. -/
theorem writeFreeList_ok {size : Nat} {s : StorageManager} {handles : List MetadataPointer}
    (order : WalkOrder) (hsize : pointerSize < size) (hh : HandlesOk s.space handles)
    (hfit : s.totalSize < handles.length * room size) :
    ∃ t chain, s.writeFreeList order size handles =
        .ok ((chainAt chain 0).getDiskPointer, t) ∧
      t.space.manager = s.space.manager ∧ 0 < chain.length ∧
      (∀ p ∈ chain, s.space.manager.IsOccupied p) ∧
      (freeListBytes order s s.blockManager.snapshotHeader.2).length ≤
        chain.length * room size ∧
      Stored size t.space chain (freeListBytes order s s.blockManager.snapshotHeader.2) := by
  have hne : handles ≠ [] := by
    rintro rfl
    rw [List.length_nil, Nat.zero_mul] at hfit
    exact absurd hfit (Nat.not_lt_zero _)
  obtain ⟨s₁, w₁, hptr, hm₁, hw₁, hindex₁, hp₁⟩ :=
    FreeListBlockWriter.getMetaBlockPointer_ok hh hsize hne
  have hlen : (s.freeListFields order s.blockManager.snapshotHeader.2).flatten.length ≤
      handles.length * room size := by
    rw [flatten_freeListFields]
    exact ((length_freeListBytes_le order s).trans_lt hfit).le
  obtain ⟨s₂, w₂, hwrite, hm₂, hw₂, hp₂⟩ := FreeListBlockWriter.writeAll_ok hsize
    (s.freeListFields order s.blockManager.snapshotHeader.2)
    (FreeListBlockWriter.HandlesOk.congr hh hm₁) hw₁ hp₁ (by simpa using hlen)
  rw [flatten_freeListFields, List.nil_append] at hw₂
  obtain ⟨s₃, hflush, hm₃⟩ := FreeListBlockWriter.flush_pinned (s := s₂) hp₂
  have hh₂ := FreeListBlockWriter.HandlesOk.congr hh (hm₂.trans hm₁)
  obtain ⟨-, hw₃⟩ := MetadataWriter.flush_spec hh₂.space hw₂.ok hflush
  have hlength := hw₂.ok.place.length_le
  have hpos : 0 < (handles.take w₂.index).length := by
    by_contra hzero
    have hnil : (handles.take w₂.index).length = 0 := by omega
    rw [hnil, Nat.zero_mul, length_freeListBytes] at hlength
    omega
  have hfirst : chainAt (handles.take w₂.index) 0 = chainAt handles 0 := by
    rw [List.length_take] at hpos
    rw [chainAt, chainAt, List.getD_eq_getElem?_getD, List.getD_eq_getElem?_getD,
      List.getElem?_take_of_lt (by omega)]
  refine ⟨⟨s.blockManager.snapshotHeader.1, s₃⟩, handles.take w₂.index, ?_,
    hm₃.trans (hm₂.trans hm₁), hpos, fun p hp => hh.occupied p (List.mem_of_mem_take hp),
    hlength, hw₃.stored⟩
  unfold StorageManager.writeFreeList
  have hempty : handles.isEmpty = false := by
    rw [List.isEmpty_eq_false_iff]
    exact hne
  simp only [hempty, Bool.false_eq_true, if_false, hptr, hwrite, hflush, bind, Except.bind, hfirst]
  rfl

end MiniDuck
