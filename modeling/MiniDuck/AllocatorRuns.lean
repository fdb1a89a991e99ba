import MiniDuck.AllocatorVacuum

/-!
# Runs of the fixed-size allocator

Clients allocate, free and write, allocators are merged, and vacuums run to
their end. `allocator_sound` says what holds between any two operations as
long as the buffer ids fit the 32 bits of a pointer. A merge moves the ids up
and nothing moves them down again, so that the condition can fail
(`merge_until_ids_wrap`): then `New` returns a live pointer.
-/

namespace MiniDuck

namespace FixedSizeAllocator

variable {σ : Type}

/-- The allocators and the live pointers of all runs in which every state
with new buffers satisfies `ok`. -/
inductive Reachable (layout : SegmentLayout) (zero : σ) (ok : FixedSizeAllocator σ → Prop) :
    FixedSizeAllocator σ → List IndexPointer → Prop
  | empty : Reachable layout zero ok (empty zero) []
  | new {a a' live p} (ord : HashOrder) : Reachable layout zero ok a live →
      a.new layout zero ord = .ok (a', p) → ok a' → Reachable layout zero ok a' (p :: live)
  | free {a live p} (ord : HashOrder) : Reachable layout zero ok a live → p ∈ live →
      Reachable layout zero ok (a.free ord p) (live.erase p)
  | write {a live p} (value : σ) : Reachable layout zero ok a live → p ∈ live →
      Reachable layout zero ok (a.write p value) live
  | merge {a live other otherLive} (ord : HashOrder) : Reachable layout zero ok a live →
      Reachable layout zero ok other otherLive → ok (a.merge ord other) →
      Reachable layout zero ok (a.merge ord other)
        (live ++ otherLive.map (·.increaseBufferId a.getUpperBoundBufferId))
  | removeEmptyBuffers {a live} (ord : HashOrder) : Reachable layout zero ok a live →
      Reachable layout zero ok (a.removeEmptyBuffers ord) live
  | unload {a live} (serialized : Nat → Bool) : Reachable layout zero ok a live →
      Reachable layout zero ok (a.unload serialized) live
  | noVacuum {a a' live} (ord : HashOrder) : Reachable layout zero ok a live →
      a.initializeVacuum layout ord = (a', false) → Reachable layout zero ok a' live
  | vacuum {a a' a'' live visits moved} (ord : HashOrder) : Reachable layout zero ok a live →
      a.initializeVacuum layout ord = (a', true) → (visits.map Prod.fst).Perm live →
      vacuumPointers layout zero visits a' = .ok (a'', moved) → ok a'' →
      Reachable layout zero ok a''.finalizeVacuum moved

variable {layout : SegmentLayout} {zero : σ} {a : FixedSizeAllocator σ} {live : List IndexPointer}

/-- Between two operations no buffer waits for a vacuum. -/
structure AllocInv (layout : SegmentLayout) (a : FixedSizeAllocator σ)
    (live : List IndexPointer) : Prop where
  bookkeeping : Bookkeeping layout a
  holds : Holds layout a live
  idle : a.vacuumBuffers = []

theorem AllocInv.sameMarks {a' : FixedSizeAllocator σ} (h : AllocInv layout a live)
    (hs : SameMarks a a') : AllocInv layout a' live :=
  ⟨hs.bookkeeping h.bookkeeping, hs.holds h.holds, hs.vacuum.trans h.idle⟩

theorem AllocInv.new (h : AllocInv layout a live) (zero : σ) (ord : HashOrder) :
    ∃ a' p, a.new layout zero ord = .ok (a', p) ∧
      (a'.FitsPointer → AllocInv layout a' (p :: live) ∧ p ∉ live ∧
        ∀ q ∈ live, a'.contents q = a.contents q) := by
  obtain ⟨a', id, offset, hnew, ht⟩ := h.bookkeeping.new zero ord
  refine ⟨a', _, hnew, fun hfits => ?_⟩
  obtain ⟨hl, hnotMem⟩ := ht.holds h.holds hfits
  exact ⟨⟨ht.bookkeeping, hl, ht.vacuum.trans h.idle⟩, hnotMem,
    fun _ hq => h.holds.contents_eq ht.data hq⟩

theorem AllocInv.free (h : AllocInv layout a live) (ord : HashOrder) {p : IndexPointer}
    (hp : p ∈ live) :
    AllocInv layout (a.free ord p) (live.erase p) ∧
      ∀ q ∈ live, (a.free ord p).contents q = a.contents q := by
  obtain ⟨id, offset, hu, rfl⟩ := h.holds.placed p hp
  have hvac : id ∉ a.vacuumBuffers := h.idle ▸ List.not_mem_nil
  have hr := h.bookkeeping.free (h.holds.fits id hu.mem) hu hvac ord
  exact ⟨⟨hr.bookkeeping, hr.holds h.holds hp hu, hr.vacuum.trans h.idle⟩,
    fun q hq => h.holds.contents_eq (fun i _ => hr.data i) hq⟩

theorem AllocInv.vacuum (h : AllocInv layout a live) (zero : σ) (ord : HashOrder)
    {visits : List (IndexPointer × HashOrder)} (hvisits : (visits.map Prod.fst).Perm live) :
    ∃ a' moved,
      vacuumPointers layout zero visits (a.initializeVacuum layout ord).1 = .ok (a', moved) ∧
      (a'.FitsPointer → AllocInv layout a'.finalizeVacuum moved ∧
        List.Forall₂ (fun old new => a'.finalizeVacuum.contents new = a.contents old)
          (visits.map Prod.fst) moved) := by
  obtain ⟨hkeep, -⟩ := initializeVacuum_spec h.bookkeeping h.holds h.idle ord
  obtain ⟨a', moved, hrun, hb, -, -, hwalk⟩ := vacuumPointers_spec zero visits hkeep.bookkeeping
  refine ⟨a', moved, hrun, fun hfits => ?_⟩
  have hstart := hkeep.holds.perm hvisits.symm
  obtain ⟨hl, hdone, hall, -⟩ := hwalk [] (by rwa [List.append_nil]) hfits
  rw [List.append_nil] at hl
  have hend := finalizeVacuum_spec hb hl hdone
  refine ⟨⟨hend.bookkeeping, hend.holds, rfl⟩, ?_⟩
  have hsame : ∀ q ∈ visits.map Prod.fst,
      (a.initializeVacuum layout ord).1.contents q = a.contents q := fun q hq =>
    hkeep.contents q (hvisits.mem_iff.1 hq)
  exact ((List.forall₂_and_left _ _).2 ⟨hsame, hall⟩).imp fun _ _ hq => hq.2.trans hq.1

theorem Reachable.inv (h : Reachable layout zero FitsPointer a live) : AllocInv layout a live := by
  induction h with
  | empty => exact ⟨bookkeeping_empty layout zero, holds_empty layout zero, rfl⟩
  | new ord _ hnew hfits ih =>
      obtain ⟨a', p, hnew', hinv⟩ := ih.new zero ord
      rw [hnew'] at hnew
      cases hnew
      exact (hinv hfits).1
  | free ord _ hp ih => exact (ih.free ord hp).1
  | write value _ _ ih => exact ih.sameMarks (sameMarks_write _ _ value)
  | merge ord _ _ hfits ih iho =>
      exact ⟨ih.bookkeeping.merge ih.idle iho.bookkeeping iho.idle ord,
        ih.holds.merge ih.idle iho.holds iho.idle hfits, ih.idle⟩
  | removeEmptyBuffers ord _ ih =>
      exact ⟨ih.bookkeeping.removeEmptyBuffers ih.idle ord,
        ih.holds.removeEmptyBuffers ih.bookkeeping.toTallied ord, ih.idle⟩
  | unload serialized _ ih => exact ih.sameMarks (sameMarks_unload _ serialized)
  | noVacuum ord _ hinit ih =>
      obtain ⟨hkeep, hidle⟩ := initializeVacuum_spec ih.bookkeeping ih.holds ih.idle ord
      rw [hinit] at hkeep hidle
      exact ⟨hkeep.bookkeeping, hkeep.holds, hidle rfl⟩
  | vacuum ord _ hinit hvisits hrun hfits ih =>
      obtain ⟨a', moved, hrun', hinv⟩ := ih.vacuum zero ord hvisits
      rw [hinit, hrun] at hrun'
      cases hrun'
      exact (hinv hfits).1

/-- What the clients and the assertions of the allocator rely on. -/
structure Sound (layout : SegmentLayout) (zero : σ) (a : FixedSizeAllocator σ)
    (live : List IndexPointer) : Prop where
  distinct : live.Nodup
  /-- `total_segment_count`, and the count of each buffer -/
  total : a.totalSegmentCount = live.length
  count : ∀ id ∈ a.buffers,
    (a.buffer id).segmentCount = live.countP fun p => decide (p.getBufferId = id)
  /-- `buffers_with_free_space` and `buffer_with_free_space` -/
  free : ∀ id, id ∈ a.buffersWithFreeSpace ↔
    id ∈ a.buffers ∧ (a.buffer id).segmentCount < layout.availableSegmentsPerBuffer
  cached : a.bufferWithFreeSpace = none ↔ a.buffersWithFreeSpace = []
  cached_mem : ∀ id, a.bufferWithFreeSpace = some id → id ∈ a.buffersWithFreeSpace
  available : ∃ id, a.getAvailableBufferId = some id ∧ id ∉ a.buffers
  refers : ∀ p ∈ live, p.getBufferId ∈ a.buffers
  /-- `New` and `Free` leave the other segments alone -/
  new : ∀ ord, ∃ a' p, a.new layout zero ord = .ok (a', p) ∧
    (a'.FitsPointer → p ∉ live ∧ ∀ q ∈ live, a'.contents q = a.contents q)
  freed : ∀ ord, ∀ p ∈ live, ∀ q ∈ live, (a.free ord p).contents q = a.contents q
  /-- so does an `InitializeVacuum`, and a vacuum moves all that it has to -/
  noVacuum : ∀ ord, ∀ q ∈ live, (a.initializeVacuum layout ord).1.contents q = a.contents q ∧
    q.getBufferId ∈ (a.initializeVacuum layout ord).1.buffers
  vacuum : ∀ ord (visits : List (IndexPointer × HashOrder)),
    (visits.map Prod.fst).Perm live → ∃ a' moved,
      vacuumPointers layout zero visits (a.initializeVacuum layout ord).1 = .ok (a', moved) ∧
      (a'.FitsPointer →
        List.Forall₂ (fun old new => a'.finalizeVacuum.contents new = a.contents old)
          (visits.map Prod.fst) moved ∧
        ∀ p ∈ moved, p.getBufferId ∈ a'.finalizeVacuum.buffers)

/-- In every run in which the buffer ids fit the 32 bits of a pointer. -/
theorem allocator_sound (h : Reachable layout zero FitsPointer a live) :
    Sound layout zero a live := by
  obtain ⟨hb, hl, hidle⟩ := h.inv
  have hvac : ∀ id, id ∉ a.vacuumBuffers := fun id => hidle ▸ List.not_mem_nil
  refine ⟨hl.nodup, hl.total, fun id hid => hl.segmentCount hb.toTallied hid (hvac id),
    fun id => ?_, ⟨hb.cached_none, fun hnil => ?_⟩, hb.cached_mem, exists_availableBufferId a,
    fun p hp => hl.mem_buffers hp, fun ord => ?_, fun ord p hp => (h.inv.free ord hp).2,
    fun ord q hq => ?_, fun ord visits hvisits => ?_⟩
  · rw [hb.free_iff]
    simp only [hvac id, not_false_iff, true_and]
  · cases hcached : a.bufferWithFreeSpace with
    | none => rfl
    | some id =>
        have hmem := hb.cached_mem id hcached
        rw [hnil] at hmem
        exact absurd hmem List.not_mem_nil
  · obtain ⟨a', p, hnew, hinv⟩ := h.inv.new zero ord
    exact ⟨a', p, hnew, fun hfits => (hinv hfits).2⟩
  · obtain ⟨hkeep, -⟩ := initializeVacuum_spec hb hl hidle ord
    exact ⟨hkeep.contents q hq, hkeep.holds.mem_buffers hq⟩
  · obtain ⟨a', moved, hrun, hinv⟩ := h.inv.vacuum zero ord hvisits
    exact ⟨a', moved, hrun, fun hfits => ⟨(hinv hfits).2,
      fun p hp => (hinv hfits).1.holds.mem_buffers hp⟩⟩

/-! ## Ids that wrap around -/

def pairLayout : SegmentLayout :=
  ⟨262136, 2, 2, le_rfl, by decide, by decide⟩

def single : FixedSizeAllocator Nat :=
  ((empty 0).addBuffer pairLayout 0 0).recordNew pairLayout .listed 0
    ((newBuffer pairLayout 0).take 0)

theorem new_single : (empty 0).new pairLayout 0 .listed = .ok (single, .make 0 0) := rfl

theorem fitsPointer_single : single.FitsPointer := by
  intro id hid
  obtain rfl : id = 0 := List.mem_singleton.1 hid
  decide

/-- The bookkeeping agrees with the live pointer of an allocator with one segment in use. -/
theorem allocator_sound_single : Sound pairLayout 0 single [.make 0 0] :=
  allocator_sound (.new .listed .empty new_single fitsPointer_single)

/-- One segment is in use, the first of the buffer `n`. -/
structure Lone (a : FixedSizeAllocator Nat) (n : Nat) : Prop where
  buffers : a.buffers = [n]
  free : a.buffersWithFreeSpace = [n]
  cached : a.bufferWithFreeSpace = some n
  count : (a.buffer n).segmentCount = 1
  used : (a.buffer n).mask 0 = false
  next : (a.buffer n).mask 1 = true

theorem lone_single : Lone single 0 := ⟨rfl, rfl, rfl, rfl, rfl, rfl⟩

theorem Lone.upperBound {a : FixedSizeAllocator Nat} {n : Nat} (h : Lone a n) :
    a.getUpperBoundBufferId = n + 1 := by
  simp [getUpperBoundBufferId, h.buffers]

/-- `Free` of the last segment of a buffer that is not the one to fill next. -/
theorem free_last {m : FixedSizeAllocator Nat} {p : IndexPointer} (ord : HashOrder)
    (hcount : (m.buffer p.getBufferId).segmentCount = 1)
    (hfree : m.buffersWithFreeSpace.length ≠ 1)
    (hcached : m.bufferWithFreeSpace ≠ some p.getBufferId) :
    m.free ord p =
      { m with
        buffer := Function.update m.buffer p.getBufferId
          ((m.buffer p.getBufferId).freeSegment p.getOffset)
        totalSegmentCount := m.totalSegmentCount - 1
        buffersWithFreeSpace := m.buffersWithFreeSpace.erase p.getBufferId
        buffers := m.buffers.erase p.getBufferId } := by
  have hzero : ((m.buffer p.getBufferId).freeSegment p.getOffset).segmentCount = 0 := by
    show (m.buffer p.getBufferId).segmentCount - 1 = 0
    rw [hcount]
  simp only [free, hzero, ne_eq, not_true_eq_false, if_false, if_neg hfree, if_neg hcached]

/-- After a merge with a fresh allocator the old segment is freed. -/
theorem Lone.raise {a : FixedSizeAllocator Nat} {n : Nat} (h : Lone a n) (hn : n < 2 ^ 32) :
    Lone ((a.merge .listed single).free .listed ⟨n⟩) (n + 1) := by
  have hid : IndexPointer.getBufferId ⟨n⟩ = n := Nat.mod_eq_of_lt hn
  have hne : n + 1 ≠ n := Nat.succ_ne_self n
  have hbuffers : (a.merge .listed single).buffers = [n, n + 1] := by
    show a.buffers ++ single.buffers.map (· + a.getUpperBoundBufferId) = _
    rw [h.buffers, h.upperBound, lone_single.buffers]
    simp
  have hfree : (a.merge .listed single).buffersWithFreeSpace = [n + 1, n] := by
    show single.buffersWithFreeSpace.map (· + a.getUpperBoundBufferId) ∪ a.buffersWithFreeSpace = _
    rw [h.free, h.upperBound, lone_single.free]
    simp
  have hcached : (a.merge .listed single).bufferWithFreeSpace = some (n + 1) := by
    show HashOrder.first .listed (a.merge .listed single).buffersWithFreeSpace = _
    rw [hfree]
    rfl
  have hold : (a.merge .listed single).buffer n = a.buffer n :=
    buffer_merge_left (h.upperBound ▸ Nat.lt_succ_self n)
  have hnew : (a.merge .listed single).buffer (n + 1) = single.buffer 0 := by
    rw [buffer_merge_right h.upperBound.le, h.upperBound, Nat.sub_self]
  rw [free_last .listed (by rw [hid, hold, h.count]) (by simp [hfree]) (by simp [hcached, hid]),
    hid]
  refine ⟨by simp [hbuffers], by simp [hfree], hcached, ?_, ?_, ?_⟩ <;>
    simp only [Function.update_of_ne hne, hnew]
  · exact lone_single.count
  · exact lone_single.used
  · exact lone_single.next

/-- Without the condition the id of the only buffer can be any. -/
theorem exists_lone : (n : Nat) → n ≤ 2 ^ 32 →
    ∃ a, Reachable pairLayout 0 (fun _ => True) a [⟨n⟩] ∧ Lone a n
  | 0, _ => ⟨single, .new .listed .empty new_single trivial, lone_single⟩
  | n + 1, hn => by
      obtain ⟨a, ha, hlone⟩ := exists_lone n (by omega)
      have hsingle : Reachable pairLayout 0 (fun _ => True) single [.make 0 0] :=
        .new .listed .empty new_single trivial
      have hmerged := ha.merge .listed hsingle trivial
      have hpointers : [(⟨n⟩ : IndexPointer)] ++
          [IndexPointer.make 0 0].map (·.increaseBufferId a.getUpperBoundBufferId) =
          [⟨n⟩, ⟨n + 1⟩] := by
        rw [hlone.upperBound]
        simp [IndexPointer.make, IndexPointer.increaseBufferId]
        omega
      rw [hpointers] at hmerged
      have hfreed := hmerged.free .listed List.mem_cons_self
      rw [List.erase_cons_head] at hfreed
      exact ⟨_, hfreed, hlone.raise (by omega)⟩

/-- After `2 ^ 32` merges `New` returns a live pointer. -/
theorem merge_until_ids_wrap :
    ∃ (a a' : FixedSizeAllocator Nat) (live : List IndexPointer) (p : IndexPointer),
      Reachable pairLayout 0 (fun _ => True) a live ∧
      a.new pairLayout 0 .listed = .ok (a', p) ∧ p ∈ live := by
  obtain ⟨a, ha, hlone⟩ := exists_lone (2 ^ 32) le_rfl
  have halloc : (a.buffer (2 ^ 32)).allocateSegment pairLayout =
      .ok ((a.buffer (2 ^ 32)).take 1, 1) := by
    rw [FixedSizeBuffer.allocateSegment, hlone.count, if_pos hlone.next]
  have hnew : a.new pairLayout 0 .listed =
      .ok (a.recordNew pairLayout .listed (2 ^ 32) ((a.buffer (2 ^ 32)).take 1),
        .make (2 ^ 32) 1) := by
    rw [new, bufferToFill, hlone.cached]
    simp only [halloc]
  have hsame : IndexPointer.make (2 ^ 32) 1 = ⟨2 ^ 32⟩ := by decide
  exact ⟨a, _, _, _, ha, hnew, List.mem_singleton.2 hsame⟩

end FixedSizeAllocator

end MiniDuck
