import MiniDuck.FixedSizeAllocator

/-!
# Live pointers of an allocator

`Holds` relates the marked segments of an allocator to the pointers that its
clients hold. While a vacuum runs, the segments of the buffers to be vacuumed
stay marked after they have moved. `New` returns a pointer that is not live
(`Taken.holds`), and `Free`, writes and `Merge` leave the other live pointers
and their contents alone.
-/

namespace MiniDuck

namespace FixedSizeAllocator

variable {σ : Type} {layout : SegmentLayout} {zero : σ} {ord : HashOrder}
  {a a' : FixedSizeAllocator σ} {live : List IndexPointer}

/-! ## Live pointers -/

/-- The ids of the buffers fit the 32 bits that a pointer has for them. -/
def FitsPointer (a : FixedSizeAllocator σ) : Prop := ∀ id ∈ a.buffers, id < 2 ^ 32

/-- The live pointers are the marked segments outside the vacuumed buffers,
and some marked segments in these. -/
structure Holds (layout : SegmentLayout) (a : FixedSizeAllocator σ) (live : List IndexPointer) :
    Prop where
  fits : a.FitsPointer
  nodup : live.Nodup
  placed : ∀ p ∈ live, ∃ id offset, a.Used layout id offset ∧ p = .make id offset
  owned : ∀ id offset, a.Used layout id offset → id ∉ a.vacuumBuffers → .make id offset ∈ live
  total : a.totalSegmentCount = live.length

theorem holds_empty (layout : SegmentLayout) (zero : σ) : Holds layout (empty zero) [] :=
  ⟨nofun, List.nodup_nil, nofun, fun _ _ h => absurd h.mem List.not_mem_nil, rfl⟩

variable {i : Nat}

theorem FitsPointer.used_inj (h : a.FitsPointer) {j k l : Nat} (hi : a.Used layout i k)
    (hj : a.Used layout j l) (heq : IndexPointer.make i k = .make j l) : i = j ∧ k = l :=
  IndexPointer.make_inj (h i hi.mem) (h j hj.mem) (lt_of_lt_of_le hi.lt layout.fits_pointer)
    (lt_of_lt_of_le hj.lt layout.fits_pointer) heq

theorem FitsPointer.contents_make (h : a.FitsPointer) {k : Nat} (hu : a.Used layout i k)
    (b : FixedSizeAllocator σ) : b.contents (.make i k) = (b.buffer i).data k := by
  rw [contents, IndexPointer.getBufferId_make k (h i hu.mem),
    IndexPointer.getOffset_make i (lt_of_lt_of_le hu.lt layout.fits_pointer)]

variable {p : IndexPointer}

theorem Holds.mem_buffers (h : Holds layout a live) (hp : p ∈ live) :
    p.getBufferId ∈ a.buffers := by
  obtain ⟨id, offset, hu, rfl⟩ := h.placed p hp
  rw [IndexPointer.getBufferId_make offset (h.fits id hu.mem)]
  exact hu.mem

theorem Holds.perm (h : Holds layout a live) {live' : List IndexPointer} (hp : live.Perm live') :
    Holds layout a live' :=
  ⟨h.fits, hp.nodup_iff.1 h.nodup, fun p hmem => h.placed p (hp.mem_iff.2 hmem),
    fun id offset hu hvac => hp.mem_iff.1 (h.owned id offset hu hvac),
    h.total.trans hp.length_eq⟩

/-- The same segments are marked, and more buffers may wait for the vacuum. -/
theorem Holds.of_used (h : Holds layout a live) (hfits : a'.FitsPointer)
    (hused : ∀ i k, a'.Used layout i k ↔ a.Used layout i k)
    (hvac : ∀ i ∈ a.vacuumBuffers, i ∈ a'.vacuumBuffers)
    (htotal : a'.totalSegmentCount = a.totalSegmentCount) : Holds layout a' live := by
  refine ⟨hfits, h.nodup, fun p hp => ?_, fun i k hu hout => ?_, htotal.trans h.total⟩
  · obtain ⟨i, k, hu, rfl⟩ := h.placed p hp
    exact ⟨i, k, (hused i k).2 hu, rfl⟩
  · exact h.owned i k ((hused i k).1 hu) fun hi => hout (hvac i hi)

variable {id : Nat}

/-- A pointer that does not need the vacuum is live iff its segment is marked. -/
theorem Holds.make_mem_iff (h : Holds layout a live) {offset : Nat} (hid : id ∈ a.buffers)
    (hlt : offset < layout.availableSegmentsPerBuffer) (hvac : id ∉ a.vacuumBuffers) :
    IndexPointer.make id offset ∈ live ↔ (a.buffer id).mask offset = false := by
  constructor
  · intro hmem
    obtain ⟨i, k, hu, heq⟩ := h.placed _ hmem
    obtain ⟨rfl, rfl⟩ := IndexPointer.make_inj (h.fits id hid) (h.fits i hu.mem)
      (lt_of_lt_of_le hlt layout.fits_pointer) (lt_of_lt_of_le hu.lt layout.fits_pointer) heq
    exact hu.taken
  · exact fun htaken => h.owned id offset ⟨hid, hlt, htaken⟩ hvac

/-- The count of a buffer is the number of the live pointers into it. -/
theorem Holds.segmentCount (h : Holds layout a live) (ht : Tallied layout a) (hid : id ∈ a.buffers)
    (hvac : id ∉ a.vacuumBuffers) :
    (a.buffer id).segmentCount = live.countP fun p => decide (p.getBufferId = id) := by
  have hid32 := h.fits id hid
  have hoff : ∀ k < layout.availableSegmentsPerBuffer, k < 2 ^ 24 := fun k hk =>
    lt_of_lt_of_le hk layout.fits_pointer
  let marked := (List.range layout.availableSegmentsPerBuffer).filter fun k =>
    !(a.buffer id).mask k
  have hmarked : ∀ k, k ∈ marked ↔
      k < layout.availableSegmentsPerBuffer ∧ (a.buffer id).mask k = false := by
    simp [marked]
  have hnodup : (marked.map (IndexPointer.make id)).Nodup := by
    refine List.Nodup.map_on (fun k hk l hl heq => ?_) (List.nodup_range.filter _)
    exact (IndexPointer.make_inj hid32 hid32 (hoff k ((hmarked k).1 hk).1)
      (hoff l ((hmarked l).1 hl).1) heq).2
  have hperm : (marked.map (IndexPointer.make id)).Perm
      (live.filter fun p => decide (p.getBufferId = id)) := by
    refine (List.perm_ext_iff_of_nodup hnodup (h.nodup.filter _)).2 fun p => ?_
    rw [List.mem_map, List.mem_filter, decide_eq_true_eq]
    constructor
    · rintro ⟨k, hk, rfl⟩
      obtain ⟨hlt, htaken⟩ := (hmarked k).1 hk
      exact ⟨(h.make_mem_iff hid hlt hvac).2 htaken, IndexPointer.getBufferId_make k hid32⟩
    · rintro ⟨hmem, hpid⟩
      obtain ⟨i, k, hu, rfl⟩ := h.placed p hmem
      rw [IndexPointer.getBufferId_make k (h.fits i hu.mem)] at hpid
      subst hpid
      exact ⟨k, (hmarked k).2 ⟨hu.lt, hu.taken⟩, rfl⟩
  have hlen := hperm.length_eq
  rw [List.length_map] at hlen
  rw [(ht.counted id hid).count, FixedSizeBuffer.usedCount, List.countP_eq_length_filter,
    List.countP_eq_length_filter]
  exact hlen

/-- The clients see the same contents where no data changes. -/
theorem Holds.contents_eq (h : Holds layout a live)
    (hdata : ∀ i ∈ a.buffers, (a'.buffer i).data = (a.buffer i).data) (hp : p ∈ live) :
    a'.contents p = a.contents p := by
  rw [contents, contents, hdata _ (h.mem_buffers hp)]

theorem Taken.holds {offset : Nat} (ht : Taken layout a a' id offset) (h : Holds layout a live)
    (hfits : a'.FitsPointer) :
    Holds layout a' (.make id offset :: live) ∧ IndexPointer.make id offset ∉ live := by
  have hnew : a'.Used layout id offset := (ht.used id offset).2 (.inr ⟨rfl, rfl⟩)
  have hnotMem : IndexPointer.make id offset ∉ live := fun hmem => by
    obtain ⟨i, k, hu, heq⟩ := h.placed _ hmem
    obtain ⟨rfl, rfl⟩ := hfits.used_inj hnew ((ht.used i k).2 (.inl hu)) heq
    exact ht.fresh hu
  refine ⟨⟨hfits, List.nodup_cons.2 ⟨hnotMem, h.nodup⟩, fun p hp => ?_, fun i k hu hvac => ?_, ?_⟩,
    hnotMem⟩
  · rcases List.mem_cons.1 hp with rfl | hp
    · exact ⟨id, offset, hnew, rfl⟩
    · obtain ⟨i, k, hu, rfl⟩ := h.placed p hp
      exact ⟨i, k, (ht.used i k).2 (.inl hu), rfl⟩
  · rcases (ht.used i k).1 hu with hu | ⟨rfl, rfl⟩
    · exact List.mem_cons_of_mem _ (h.owned i k hu (ht.vacuum ▸ hvac))
    · exact List.mem_cons_self
  · rw [ht.total, h.total, List.length_cons]

theorem Released.holds {offset : Nat} (hr : Released layout a a' id offset)
    (h : Holds layout a live) (hmem : IndexPointer.make id offset ∈ live)
    (hused : a.Used layout id offset) : Holds layout a' (live.erase (.make id offset)) := by
  refine ⟨fun i hi => h.fits i (hr.sub i hi), h.nodup.erase _, fun p hp => ?_,
    fun i k hu hvac => ?_, ?_⟩
  · obtain ⟨hne, hp⟩ := h.nodup.mem_erase_iff.1 hp
    obtain ⟨i, k, hu, rfl⟩ := h.placed p hp
    refine ⟨i, k, (hr.used i k).2 ⟨hu, ?_⟩, rfl⟩
    rintro ⟨rfl, rfl⟩
    exact hne rfl
  · obtain ⟨hu, hne⟩ := (hr.used i k).1 hu
    refine h.nodup.mem_erase_iff.2 ⟨fun heq => hne (h.fits.used_inj hu hused heq), ?_⟩
    exact h.owned i k hu (hr.vacuum ▸ hvac)
  · rw [hr.total, h.total, List.length_erase_of_mem hmem]

/-! ## Operations on whole buffers -/

/-- The marks and the sets stay; the flags and the contents may change. -/
structure SameMarks (a a' : FixedSizeAllocator σ) : Prop where
  buffers : a'.buffers = a.buffers
  count : ∀ i, (a'.buffer i).segmentCount = (a.buffer i).segmentCount
  mask : ∀ i, (a'.buffer i).mask = (a.buffer i).mask
  free : a'.buffersWithFreeSpace = a.buffersWithFreeSpace
  cached : a'.bufferWithFreeSpace = a.bufferWithFreeSpace
  vacuum : a'.vacuumBuffers = a.vacuumBuffers
  total : a'.totalSegmentCount = a.totalSegmentCount

theorem SameMarks.used (hs : SameMarks a a') (i k : Nat) :
    a'.Used layout i k ↔ a.Used layout i k := by
  constructor
  · exact fun h => ⟨hs.buffers ▸ h.mem, h.lt, hs.mask i ▸ h.taken⟩
  · exact fun h => ⟨hs.buffers ▸ h.mem, h.lt, (hs.mask i).symm ▸ h.taken⟩

theorem SameMarks.bookkeeping (hs : SameMarks a a') (h : Bookkeeping layout a) :
    Bookkeeping layout a' := by
  refine ⟨⟨hs.buffers ▸ h.ids_nodup, fun i hi => ?_, ?_, hs.free ▸ h.free_nodup, fun i => ?_⟩,
    ?_, ?_⟩
  · obtain ⟨hcount, hbeyond⟩ := h.counted i (hs.buffers ▸ hi)
    exact ⟨by rw [hs.count, hs.mask, hcount], by rwa [hs.mask]⟩
  · rw [hs.vacuum, hs.buffers]
    exact h.vacuum_sub
  · rw [hs.free, hs.buffers, hs.vacuum, hs.count]
    exact h.free_iff i
  · rw [hs.cached, hs.free]
    exact h.cached_mem
  · rw [hs.cached, hs.free]
    exact h.cached_none

theorem SameMarks.holds (hs : SameMarks a a') (h : Holds layout a live) :
    Holds layout a' live :=
  h.of_used (fun i hi => h.fits i (hs.buffers ▸ hi)) hs.used (fun _ hi => hs.vacuum ▸ hi) hs.total

theorem sameMarks_write (a : FixedSizeAllocator σ) (p : IndexPointer) (value : σ) :
    SameMarks a (a.write p value) := by
  refine ⟨rfl, fun i => ?_, fun i => ?_, rfl, rfl, rfl, rfl⟩ <;>
  · by_cases heq : i = p.getBufferId
    · subst heq
      simp [write]
    · simp [write, Function.update_of_ne heq]

theorem contents_write_self (a : FixedSizeAllocator σ) (p : IndexPointer) (value : σ) :
    (a.write p value).contents p = value := by
  simp [write, contents]

theorem Holds.contents_write (h : Holds layout a live) {q : IndexPointer} (hp : p ∈ live)
    (hq : q ∈ live) (hne : q ≠ p) (value : σ) : (a.write p value).contents q = a.contents q := by
  obtain ⟨i, k, hi, rfl⟩ := h.placed p hp
  obtain ⟨j, l, hj, rfl⟩ := h.placed q hq
  rw [h.fits.contents_make hj, h.fits.contents_make hj, write,
    IndexPointer.getBufferId_make k (h.fits i hi.mem),
    IndexPointer.getOffset_make i (lt_of_lt_of_le hi.lt layout.fits_pointer)]
  by_cases heq : j = i
  · subst heq
    have hkl : l ≠ k := fun heq => hne (by rw [heq])
    simp [Function.update_of_ne hkl]
  · simp [Function.update_of_ne heq]

theorem sameMarks_unload (a : FixedSizeAllocator σ) (serialized : Nat → Bool) :
    SameMarks a (a.unload serialized) :=
  ⟨rfl, fun _ => rfl, fun _ => rfl, rfl, rfl, rfl, rfl⟩

theorem lt_getUpperBoundBufferId (a : FixedSizeAllocator σ) (hid : id ∈ a.buffers) :
    id < a.getUpperBoundBufferId := by
  let raise := fun upperBound id : Nat => if id ≥ upperBound then id + 1 else upperBound
  have hraise : ∀ b j, b ≤ raise b j ∧ j < raise b j := by
    intro b j
    simp only [raise]
    split_ifs <;> omega
  have hfold : ∀ (l : List Nat) (b : Nat), b ≤ l.foldl raise b ∧ ∀ i ∈ l, i < l.foldl raise b := by
    intro l
    induction l with
    | nil => exact fun b => ⟨le_rfl, nofun⟩
    | cons j l ih =>
        intro b
        obtain ⟨hle, hlt⟩ := ih (raise b j)
        refine ⟨(hraise b j).1.trans hle, fun i hi => ?_⟩
        rcases List.mem_cons.1 hi with rfl | hi
        · exact lt_of_lt_of_le (hraise b i).2 hle
        · exact hlt i hi
  exact (hfold a.buffers 0).2 id hid

/-! ## Merging -/

variable {other : FixedSizeAllocator σ} {otherLive : List IndexPointer}

theorem mem_shifted {l : List Nat} {upperBound : Nat} :
    i ∈ l.map (· + upperBound) ↔ upperBound ≤ i ∧ i - upperBound ∈ l := by
  rw [List.mem_map]
  constructor
  · rintro ⟨j, hj, rfl⟩
    exact ⟨Nat.le_add_left _ _, by rwa [Nat.add_sub_cancel]⟩
  · exact fun ⟨hle, hmem⟩ => ⟨_, hmem, Nat.sub_add_cancel hle⟩

theorem nodup_shifted {l : List Nat} (h : l.Nodup) (upperBound : Nat) :
    (l.map (· + upperBound)).Nodup :=
  h.map fun _ _ => Nat.add_right_cancel

theorem mem_buffers_merge : i ∈ (a.merge ord other).buffers ↔
      i ∈ a.buffers ∨ a.getUpperBoundBufferId ≤ i ∧ i - a.getUpperBoundBufferId ∈ other.buffers := by
  rw [← mem_shifted]
  exact List.mem_append

theorem buffer_merge_left (hi : i < a.getUpperBoundBufferId) :
    (a.merge ord other).buffer i = a.buffer i :=
  if_pos hi

theorem buffer_merge_right (hi : a.getUpperBoundBufferId ≤ i) :
    (a.merge ord other).buffer i = other.buffer (i - a.getUpperBoundBufferId) :=
  if_neg (not_lt.2 hi)

theorem used_merge_left (hi : i < a.getUpperBoundBufferId) (k : Nat) :
    (a.merge ord other).Used layout i k ↔ a.Used layout i k := by
  constructor
  · intro h
    have hmem := (mem_buffers_merge.1 h.mem).resolve_right fun hr => absurd hr.1 (not_le.2 hi)
    exact ⟨hmem, h.lt, buffer_merge_left hi ▸ h.taken⟩
  · intro h
    exact ⟨mem_buffers_merge.2 (.inl h.mem), h.lt, (buffer_merge_left hi).symm ▸ h.taken⟩

theorem used_merge_right (hi : a.getUpperBoundBufferId ≤ i) (k : Nat) :
    (a.merge ord other).Used layout i k ↔
      other.Used layout (i - a.getUpperBoundBufferId) k := by
  constructor
  · intro h
    have hmem := (mem_buffers_merge.1 h.mem).resolve_left fun hl =>
      absurd (a.lt_getUpperBoundBufferId hl) (not_lt.2 hi)
    exact ⟨hmem.2, h.lt, buffer_merge_right hi ▸ h.taken⟩
  · intro h
    exact ⟨mem_buffers_merge.2 (.inr ⟨hi, h.mem⟩), h.lt, (buffer_merge_right hi).symm ▸ h.taken⟩

theorem Bookkeeping.merge (h : Bookkeeping layout a) (hvac : a.vacuumBuffers = [])
    (ho : Bookkeeping layout other) (hovac : other.vacuumBuffers = []) (ord : HashOrder) :
    Bookkeeping layout (a.merge ord other) := by
  refine Tallied.next ⟨?_, fun i hi => ?_, ?_, ?_, fun i => ?_⟩ ord
  · refine List.nodup_append.2 ⟨h.ids_nodup, nodup_shifted ho.ids_nodup _, fun i hi j hj heq => ?_⟩
    have hlt := a.lt_getUpperBoundBufferId hi
    have hle := (mem_shifted.1 hj).1
    omega
  · have hi' : i ∈ (a.merge ord other).buffers := hi
    by_cases hlt : i < a.getUpperBoundBufferId
    · have hmem := (mem_buffers_merge.1 hi').resolve_right fun hr => absurd hr.1 (not_le.2 hlt)
      simpa only [if_pos hlt] using h.counted i hmem
    · have hmem := (mem_buffers_merge.1 hi').resolve_left fun hl =>
        hlt (a.lt_getUpperBoundBufferId hl)
      simpa only [if_neg hlt] using ho.counted _ hmem.2
  · simp [hvac]
  · exact h.free_nodup.union _
  · simp only [List.mem_union_iff, mem_shifted, List.mem_append, hvac, List.not_mem_nil,
      not_false_iff, true_and]
    rw [ho.free_iff, h.free_iff]
    simp only [hvac, hovac, List.not_mem_nil, not_false_iff, true_and]
    by_cases hlt : i < a.getUpperBoundBufferId
    · simp only [not_le.2 hlt, if_pos hlt, false_and, false_or, or_false]
    · have hnot : i ∉ a.buffers := fun hl => hlt (a.lt_getUpperBoundBufferId hl)
      simp only [not_lt.1 hlt, hnot, if_neg hlt, true_and, false_and, or_false, false_or]

/-- The pointers of the other clients, after their buffer ids have been increased. -/
theorem Holds.merge (h : Holds layout a live) (hvac : a.vacuumBuffers = [])
    (ho : Holds layout other otherLive) (hovac : other.vacuumBuffers = [])
    (hfits : (a.merge ord other).FitsPointer) :
    Holds layout (a.merge ord other)
      (live ++ otherLive.map (·.increaseBufferId a.getUpperBoundBufferId)) := by
  have hshift : ∀ i k, other.Used layout i k →
      (IndexPointer.make i k).increaseBufferId a.getUpperBoundBufferId =
        .make (i + a.getUpperBoundBufferId) k ∧
      (a.merge ord other).Used layout (i + a.getUpperBoundBufferId) k := by
    intro i k hu
    have hused : (a.merge ord other).Used layout (i + a.getUpperBoundBufferId) k := by
      rw [used_merge_right (Nat.le_add_left _ _), Nat.add_sub_cancel]
      exact hu
    exact ⟨IndexPointer.increaseBufferId_make k (hfits _ hused.mem), hused⟩
  have hown : ∀ i k, a.Used layout i k → (a.merge ord other).Used layout i k := fun i k hu =>
    (used_merge_left (a.lt_getUpperBoundBufferId hu.mem) k).2 hu
  refine ⟨hfits, ?_, fun p hp => ?_, fun i k hu _ => ?_, ?_⟩
  · refine List.nodup_append.2 ⟨h.nodup, ?_, fun p hp q hq heq => ?_⟩
    · refine List.Nodup.map_on (fun p hp q hq heq => ?_) ho.nodup
      obtain ⟨i, k, hi, rfl⟩ := ho.placed p hp
      obtain ⟨j, l, hj, rfl⟩ := ho.placed q hq
      rw [(hshift i k hi).1, (hshift j l hj).1] at heq
      obtain ⟨hij, rfl⟩ := hfits.used_inj (hshift i k hi).2 (hshift j l hj).2 heq
      rw [Nat.add_right_cancel hij]
    · obtain ⟨i, k, hi, rfl⟩ := h.placed p hp
      obtain ⟨r, hr, rfl⟩ := List.mem_map.1 hq
      obtain ⟨j, l, hj, rfl⟩ := ho.placed r hr
      rw [(hshift j l hj).1] at heq
      have hij := (hfits.used_inj (hown i k hi) (hshift j l hj).2 heq).1
      have hlt := a.lt_getUpperBoundBufferId hi.mem
      omega
  · rcases List.mem_append.1 hp with hp | hp
    · obtain ⟨i, k, hi, rfl⟩ := h.placed p hp
      exact ⟨i, k, hown i k hi, rfl⟩
    · obtain ⟨q, hq, rfl⟩ := List.mem_map.1 hp
      obtain ⟨j, l, hj, rfl⟩ := ho.placed q hq
      exact ⟨_, l, (hshift j l hj).2, (hshift j l hj).1⟩
  · by_cases hlt : i < a.getUpperBoundBufferId
    · rw [used_merge_left hlt] at hu
      exact List.mem_append_left _ (h.owned i k hu (hvac ▸ List.not_mem_nil))
    · have hle := not_lt.1 hlt
      rw [used_merge_right hle] at hu
      have hmem := ho.owned _ k hu (hovac ▸ List.not_mem_nil)
      have heq := (hshift _ k hu).1
      rw [Nat.sub_add_cancel hle] at heq
      exact List.mem_append_right _ (List.mem_map.2 ⟨_, hmem, heq⟩)
  · show a.totalSegmentCount + other.totalSegmentCount = _
    rw [List.length_append, List.length_map, h.total, ho.total]

end FixedSizeAllocator

end MiniDuck
