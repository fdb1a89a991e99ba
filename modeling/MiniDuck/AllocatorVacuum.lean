import MiniDuck.LivePointers

/-!
# Vacuums

A vacuum retires some buffers. `initializeVacuum` takes them out of the set of
buffers with free space, so that `vacuumPointer` moves each segment of theirs
to one of the other buffers, and `finalizeVacuum` erases them. Which buffers
are chosen does not matter for the clients: after the walk over all live
pointers none of them refers to a retired buffer (`vacuumPointers_spec`).
-/

namespace MiniDuck

namespace FixedSizeAllocator

variable {σ : Type} {layout : SegmentLayout} {zero : σ} {ord : HashOrder}
  {a a' : FixedSizeAllocator σ} {live : List IndexPointer}

/-! ## Removing empty buffers -/

theorem mem_buffers_removeEmptyBuffers {i : Nat} :
    i ∈ (a.removeEmptyBuffers ord).buffers ↔ i ∈ a.buffers ∧ (a.buffer i).segmentCount ≠ 0 := by
  show i ∈ a.buffers.filter a.isFilled ↔ _
  rw [List.mem_filter, isFilled, decide_eq_true_eq]

theorem used_removeEmptyBuffers (h : Tallied layout a) (i k : Nat) :
    (a.removeEmptyBuffers ord).Used layout i k ↔ a.Used layout i k := by
  constructor
  · exact fun hu => ⟨(mem_buffers_removeEmptyBuffers.1 hu.mem).1, hu.lt, hu.taken⟩
  · intro hu
    have hpos := usedCount_pos h hu
    exact ⟨mem_buffers_removeEmptyBuffers.2 ⟨hu.mem, hpos.ne'⟩, hu.lt, hu.taken⟩

theorem Bookkeeping.removeEmptyBuffers (h : Bookkeeping layout a) (hvac : a.vacuumBuffers = [])
    (ord : HashOrder) : Bookkeeping layout (a.removeEmptyBuffers ord) := by
  refine Tallied.next ?_ ord
  refine ⟨h.ids_nodup.filter _, fun i hi => h.counted i (List.mem_of_mem_filter hi), ?_,
    h.free_nodup.filter _, fun i => ?_⟩
  · simp [hvac]
  · simp only [List.mem_filter, h.free_iff, isFilled, Bool.or_eq_true, decide_eq_true_eq]
    tauto

theorem Holds.removeEmptyBuffers (hl : Holds layout a live) (h : Tallied layout a)
    (ord : HashOrder) : Holds layout (a.removeEmptyBuffers ord) live :=
  hl.of_used (fun i hi => hl.fits i (mem_buffers_removeEmptyBuffers.1 hi).1)
    (used_removeEmptyBuffers h) (fun _ hi => hi) rfl

/-! ## Choosing the buffers -/

theorem mem_emplace {entries : List (Nat × Nat)} {entry e : Nat × Nat} :
    e ∈ emplace entries entry ↔ e = entry ∨ e ∈ entries := by
  have hsplit := List.takeWhile_append_dropWhile (p := fun e => decide (e.1 ≤ entry.1))
    (l := entries)
  have hmem : e ∈ entries ↔ e ∈ entries.takeWhile (fun e => decide (e.1 ≤ entry.1)) ∨
      e ∈ entries.dropWhile fun e => decide (e.1 ≤ entry.1) := by
    rw [← List.mem_append, hsplit]
  rw [emplace, List.mem_append, List.mem_cons, hmem]
  tauto

theorem snd_mem_buffers {e : Nat × Nat} (he : e ∈ a.temporaryVacuumBuffers layout ord) :
    e.2 ∈ a.buffers := by
  have hfold : ∀ (l : List Nat) (entries : List (Nat × Nat)), (∀ i ∈ l, i ∈ a.buffers) →
      (∀ e ∈ entries, e.2 ∈ a.buffers) → ∀ e ∈ l.foldl (fun entries id => emplace entries
        (layout.availableSegmentsPerBuffer - (a.buffer id).segmentCount, id)) entries,
        e.2 ∈ a.buffers := by
    intro l
    induction l with
    | nil => exact fun entries _ hentries => hentries
    | cons j l ih =>
        intro entries hl hentries
        refine ih _ (fun i hi => hl i (List.mem_cons_of_mem _ hi)) fun e he => ?_
        rcases mem_emplace.1 he with rfl | he
        · exact hl j List.mem_cons_self
        · exact hentries e he
  refine hfold _ [] (fun i hi => ?_) nofun e he
  exact (ord.perm a.buffers).mem_iff.1 (List.mem_of_mem_filter hi)

theorem Bookkeeping.startVacuum (h : Bookkeeping layout a) (hvac : a.vacuumBuffers = [])
    {ids : List Nat} (hids : ∀ i ∈ ids, i ∈ a.buffers) (ord : HashOrder) :
    Bookkeeping layout (a.startVacuum ord ids) := by
  refine Tallied.next ?_ ord
  refine ⟨h.ids_nodup, fun i hi => ?_, hids, ?_, fun i => ?_⟩
  · obtain ⟨hcount, hbeyond⟩ := h.counted i hi
    exact ⟨hcount, hbeyond⟩
  · rw [← List.diff_eq_foldl]
    exact h.free_nodup.diff
  · simp only [← List.diff_eq_foldl, h.free_nodup.mem_sdiff_iff, h.free_iff, hvac,
      List.not_mem_nil, not_false_iff, true_and]
    tauto

/-! ## Starting a vacuum -/

/-- The clients see the same contents through the same pointers. -/
structure Keeps (layout : SegmentLayout) (live : List IndexPointer) (a a' : FixedSizeAllocator σ) :
    Prop where
  bookkeeping : Bookkeeping layout a'
  holds : Holds layout a' live
  contents : ∀ p ∈ live, a'.contents p = a.contents p

/-- `InitializeVacuum` moves nothing, and retires buffers only when it returns true. -/
theorem initializeVacuum_spec (h : Bookkeeping layout a) (hl : Holds layout a live)
    (hvac : a.vacuumBuffers = []) (ord : HashOrder) :
    Keeps layout live a (a.initializeVacuum layout ord).1 ∧
      ((a.initializeVacuum layout ord).2 = false →
        (a.initializeVacuum layout ord).1.vacuumBuffers = []) := by
  rw [initializeVacuum]
  by_cases hzero : a.totalSegmentCount = 0
  · rw [if_pos hzero]
    have hnil : live = [] := List.length_eq_zero_iff.1 (hl.total.symm.trans hzero)
    subst hnil
    refine ⟨⟨⟨⟨List.nodup_nil, nofun, ?_, List.nodup_nil, fun _ => ?_⟩, nofun, fun _ => rfl⟩,
      ⟨nofun, List.nodup_nil, nofun, fun _ _ hu => absurd hu.mem List.not_mem_nil, rfl⟩, nofun⟩,
      fun _ => hvac⟩ <;> simp [reset, hvac]
  rw [if_neg hzero]
  let filled := a.removeEmptyBuffers ord
  let unmarked : FixedSizeAllocator σ :=
    { filled with buffer := fun id => { filled.buffer id with vacuum := false } }
  have hsame : SameMarks filled unmarked :=
    ⟨rfl, fun _ => rfl, fun _ => rfl, rfl, rfl, rfl, rfl⟩
  have hb : Bookkeeping layout unmarked := hsame.bookkeeping (h.removeEmptyBuffers hvac ord)
  have hh : Holds layout unmarked live := hsame.holds (hl.removeEmptyBuffers h.toTallied ord)
  have hkeep : Keeps layout live a unmarked := ⟨hb, hh, fun _ _ => rfl⟩
  simp only
  split_ifs with hnone hless
  · exact ⟨hkeep, fun _ => hvac⟩
  · exact ⟨hkeep, fun _ => hvac⟩
  · refine ⟨⟨hb.startVacuum hvac (fun i hi => ?_) ord, hh.of_used hh.fits (fun i k => ?_) ?_ rfl,
      fun _ _ => rfl⟩, nofun⟩
    · obtain ⟨e, he, rfl⟩ := List.mem_map.1 hi
      exact snd_mem_buffers (List.mem_of_mem_drop he)
    · exact ⟨fun hu => ⟨hu.mem, hu.lt, hu.taken⟩, fun hu => ⟨hu.mem, hu.lt, hu.taken⟩⟩
    · simp [unmarked, filled, removeEmptyBuffers, nextBufferWithFreeSpace, hvac]

/-! ## Moving the pointers -/

/-- A pointer into a retired buffer is dropped, its segment stays marked. -/
theorem Holds.retire (h : Holds layout a live) {ptr : IndexPointer} (hp : ptr ∈ live)
    (hneeds : a.needsVacuum ptr = true) :
    Holds layout { a with totalSegmentCount := a.totalSegmentCount - 1 } (live.erase ptr) := by
  refine ⟨h.fits, h.nodup.erase _, fun q hq => ?_, fun i k hu hvac => ?_, ?_⟩
  · obtain ⟨i, k, hu, rfl⟩ := h.placed q (List.mem_of_mem_erase hq)
    exact ⟨i, k, ⟨hu.mem, hu.lt, hu.taken⟩, rfl⟩
  · have hmem := h.owned i k ⟨hu.mem, hu.lt, hu.taken⟩ hvac
    refine h.nodup.mem_erase_iff.2 ⟨fun heq => hvac ?_, hmem⟩
    have hid := of_decide_eq_true hneeds
    rwa [← heq, IndexPointer.getBufferId_make k (h.fits i hu.mem)] at hid
  · show a.totalSegmentCount - 1 = _
    rw [h.total, List.length_erase_of_mem hp]

/-- `VacuumPointer` copies the segment to one that was not taken, in a buffer
that is kept. -/
theorem vacuumPointer_spec (h : Bookkeeping layout a) (zero : σ) (ord : HashOrder)
    (ptr : IndexPointer) :
    ∃ a' newPtr, a.vacuumPointer layout zero ord ptr = .ok (a', newPtr) ∧
      Bookkeeping layout a' ∧ (∀ i ∈ a.buffers, i ∈ a'.buffers) ∧
      a'.vacuumBuffers = a.vacuumBuffers ∧
      ∀ others, Holds layout a (ptr :: others) → a.needsVacuum ptr = true → a'.FitsPointer →
        Holds layout a' (newPtr :: others) ∧ a'.needsVacuum newPtr = false ∧
          a'.contents newPtr = a.contents ptr ∧
          ∀ q ∈ others, a'.contents q = a.contents q := by
  obtain ⟨b, id, offset, hnew, ht⟩ := h.new zero ord
  let newPtr := IndexPointer.make id offset
  let uncounted : FixedSizeAllocator σ := { b with totalSegmentCount := b.totalSegmentCount - 1 }
  have hsame := sameMarks_write uncounted newPtr (uncounted.contents ptr)
  have hbook : Bookkeeping layout uncounted :=
    ⟨⟨ht.bookkeeping.ids_nodup, ht.bookkeeping.counted, ht.bookkeeping.vacuum_sub,
      ht.bookkeeping.free_nodup, ht.bookkeeping.free_iff⟩, ht.bookkeeping.cached_mem,
      ht.bookkeeping.cached_none⟩
  refine ⟨uncounted.write newPtr (uncounted.contents ptr), newPtr,
    by rw [vacuumPointer, hnew], hsame.bookkeeping hbook, ht.sub, ht.vacuum,
    fun others hl hneeds hfits => ?_⟩
  obtain ⟨hb, hnotMem⟩ := ht.holds hl hfits
  have hmem : ptr ∈ newPtr :: ptr :: others := List.mem_cons_of_mem _ List.mem_cons_self
  have hne : newPtr ≠ ptr := fun heq => hnotMem (List.mem_cons.2 (.inl heq))
  have hneeds' : b.needsVacuum ptr = true := by rwa [needsVacuum, ht.vacuum]
  have hretired := hb.retire hmem hneeds'
  rw [List.erase_cons_tail (by simpa using hne), List.erase_cons_head] at hretired
  refine ⟨hsame.holds hretired, ?_, ?_, fun q hq => ?_⟩
  · have hid : newPtr.getBufferId = id :=
      IndexPointer.getBufferId_make offset (hfits id ((ht.used id offset).2 (.inr ⟨rfl, rfl⟩)).mem)
    rw [needsVacuum, decide_eq_false_iff_not, hid]
    exact fun hvac => ht.kept (ht.vacuum ▸ hvac)
  · rw [contents_write_self]
    exact hl.contents_eq ht.data List.mem_cons_self
  · have hq' : q ∈ newPtr :: others := List.mem_cons_of_mem _ hq
    have hqne : q ≠ newPtr := by
      rintro rfl
      exact hnotMem (List.mem_cons_of_mem _ hq)
    rw [hretired.contents_write List.mem_cons_self hq' hqne]
    exact hl.contents_eq ht.data (List.mem_cons_of_mem _ hq)

/-- The walk over the live pointers: afterwards none needs the vacuum, and
each new pointer has the contents of the one it stands for. -/
theorem vacuumPointers_spec (zero : σ) :
    (visits : List (IndexPointer × HashOrder)) → {a : FixedSizeAllocator σ} →
    Bookkeeping layout a →
    ∃ a' moved, vacuumPointers layout zero visits a = .ok (a', moved) ∧
      Bookkeeping layout a' ∧ (∀ i ∈ a.buffers, i ∈ a'.buffers) ∧
      a'.vacuumBuffers = a.vacuumBuffers ∧
      ∀ settled, Holds layout a (visits.map Prod.fst ++ settled) → a'.FitsPointer →
        Holds layout a' (moved ++ settled) ∧ (∀ q ∈ moved, a'.needsVacuum q = false) ∧
          List.Forall₂ (fun old new => a'.contents new = a.contents old)
            (visits.map Prod.fst) moved ∧
          ∀ q ∈ settled, a'.contents q = a.contents q
  | [], a, h => ⟨a, [], rfl, h, fun _ hi => hi, rfl, fun _ hl _ =>
      ⟨hl, nofun, .nil, fun _ _ => rfl⟩⟩
  | (ptr, ord) :: visits, a, h => by
      by_cases hneeds : a.needsVacuum ptr = true
      · obtain ⟨b, newPtr, hptr, hb, hsub, hvac, hmove⟩ := vacuumPointer_spec h zero ord ptr
        obtain ⟨a', moved, hrest, ha', hsub', hvac', hwalk⟩ := vacuumPointers_spec zero visits hb
        refine ⟨a', newPtr :: moved, ?_, ha', fun i hi => hsub' i (hsub i hi), hvac'.trans hvac,
          fun settled hl hfits => ?_⟩
        · simp only [vacuumPointers, hneeds, if_true, hptr, hrest]
        obtain ⟨hlb, hdone, hcopy, hothers⟩ :=
          hmove _ hl hneeds fun i hi => hfits i (hsub' i hi)
        have hperm : (newPtr :: (visits.map Prod.fst ++ settled)).Perm
            (visits.map Prod.fst ++ newPtr :: settled) := List.perm_middle.symm
        obtain ⟨hla', hmoved, hall, hsettled⟩ := hwalk (newPtr :: settled) (hlb.perm hperm) hfits
        refine ⟨hla'.perm List.perm_middle, fun q hq => ?_, .cons ?_ ?_, fun q hq => ?_⟩
        · rcases List.mem_cons.1 hq with rfl | hq
          · rw [needsVacuum, hvac']
            exact hdone
          · exact hmoved q hq
        · rw [hsettled newPtr List.mem_cons_self, hcopy]
        · have hkeep : ∀ q ∈ visits.map Prod.fst, b.contents q = a.contents q := fun q hq =>
            hothers q (List.mem_append_left _ hq)
          exact ((List.forall₂_and_left _ _).2 ⟨hkeep, hall⟩).imp fun _ _ hq => hq.2.trans hq.1
        · rw [hsettled q (List.mem_cons_of_mem _ hq), hothers q (List.mem_append_right _ hq)]
      · obtain ⟨a', moved, hrest, ha', hsub, hvac, hwalk⟩ := vacuumPointers_spec zero visits h
        refine ⟨a', ptr :: moved, ?_, ha', hsub, hvac, fun settled hl hfits => ?_⟩
        · simp only [vacuumPointers, if_neg hneeds, hrest]
        have hperm : (ptr :: (visits.map Prod.fst ++ settled)).Perm
            (visits.map Prod.fst ++ ptr :: settled) := List.perm_middle.symm
        obtain ⟨hla', hmoved, hall, hsettled⟩ := hwalk (ptr :: settled) (hl.perm hperm) hfits
        refine ⟨hla'.perm List.perm_middle, fun q hq => ?_, .cons ?_ hall, fun q hq => ?_⟩
        · rcases List.mem_cons.1 hq with rfl | hq
          · rw [needsVacuum, hvac]
            exact Bool.not_eq_true _ ▸ hneeds
          · exact hmoved q hq
        · exact hsettled ptr List.mem_cons_self
        · exact hsettled q (List.mem_cons_of_mem _ hq)

theorem finalizeVacuum_spec (h : Bookkeeping layout a) (hl : Holds layout a live)
    (hdone : ∀ p ∈ live, a.needsVacuum p = false) : Keeps layout live a a.finalizeVacuum := by
  have hmem : ∀ i, i ∈ a.finalizeVacuum.buffers ↔ i ∈ a.buffers ∧ i ∉ a.vacuumBuffers := by
    simp [finalizeVacuum]
  refine ⟨⟨⟨h.ids_nodup.filter _, fun i hi => h.counted i ((hmem i).1 hi).1, nofun, h.free_nodup,
    fun i => ?_⟩, h.cached_mem, h.cached_none⟩, ⟨fun i hi => hl.fits i ((hmem i).1 hi).1,
    hl.nodup, fun p hp => ?_, fun i k hu _ => ?_, hl.total⟩, fun _ _ => rfl⟩
  · rw [hmem]
    show i ∈ a.buffersWithFreeSpace ↔ _
    rw [h.free_iff]
    simp [finalizeVacuum, and_assoc]
  · obtain ⟨i, k, hu, rfl⟩ := hl.placed p hp
    have hout := hdone _ hp
    rw [needsVacuum, decide_eq_false_iff_not,
      IndexPointer.getBufferId_make k (hl.fits i hu.mem)] at hout
    exact ⟨i, k, ⟨(hmem i).2 ⟨hu.mem, hout⟩, hu.lt, hu.taken⟩, rfl⟩
  · obtain ⟨hi, hout⟩ := (hmem i).1 hu.mem
    exact hl.owned i k ⟨hi, hu.lt, hu.taken⟩ hout

end FixedSizeAllocator

end MiniDuck
