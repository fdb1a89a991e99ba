import MiniDuck.FixedSizeBuffer

/-!
# The fixed-size allocator

A `FixedSizeAllocator` keeps its buffers by id, the set of those with free
space, one cached member of this set, and a total count. A client holds the
live pointers. `AllocInv` says how the bookkeeping and the live pointers fit
together; while a vacuum runs, the buffers to be vacuumed are out of the set
and their segments stay marked after they have moved.

Each operation has a lemma that it keeps `AllocInv`. The set and the map are
unordered, so each operation takes the iteration order that it meets as an
argument.
-/

namespace MiniDuck

/-- The order in which an unordered container is iterated: it may be any. -/
structure HashOrder where
  order : List Nat → List Nat
  perm : ∀ l, (order l).Perm l

namespace HashOrder

def listed : HashOrder := ⟨id, fun _ => List.Perm.refl _⟩

/-- `*begin()`, if there is one. -/
def first (ord : HashOrder) (l : List Nat) : Option Nat := (ord.order l).head?

theorem first_mem {ord : HashOrder} {l : List Nat} {id : Nat} (h : ord.first l = some id) :
    id ∈ l :=
  (ord.perm l).mem_iff.1 (List.mem_of_mem_head? h)

theorem first_eq_none {ord : HashOrder} {l : List Nat} (h : ord.first l = none) : l = [] := by
  have := List.head?_eq_none_iff.1 h
  have hperm := ord.perm l
  rw [this] at hperm
  exact hperm.nil_eq.symm

end HashOrder

/-- `FixedSizeAllocator`: `buffers` holds the ids of the map, `buffer` its entries. -/
structure FixedSizeAllocator (σ : Type) where
  totalSegmentCount : Nat
  buffers : List Nat
  buffer : Nat → FixedSizeBuffer σ
  buffersWithFreeSpace : List Nat
  bufferWithFreeSpace : Option Nat
  vacuumBuffers : List Nat

namespace FixedSizeAllocator

variable {σ : Type}

/-! ## Operations -/

def empty (zero : σ) : FixedSizeAllocator σ :=
  ⟨0, [], fun _ => ⟨0, fun _ => false, false, false, fun _ => zero⟩, [], none, []⟩

/-- The loop of `GetAvailableBufferId`; `none` when the id would go below 0. -/
def availableFrom (buffers : List Nat) : Nat → Option Nat
  | 0 => if 0 ∈ buffers then none else some 0
  | id + 1 => if id + 1 ∈ buffers then availableFrom buffers id else some (id + 1)

def getAvailableBufferId (a : FixedSizeAllocator σ) : Option Nat :=
  availableFrom a.buffers a.buffers.length

def nextBufferWithFreeSpace (ord : HashOrder) (a : FixedSizeAllocator σ) : FixedSizeAllocator σ :=
  { a with bufferWithFreeSpace := ord.first a.buffersWithFreeSpace }

/-- A new buffer is zeroed and all its segments are marked valid. -/
def newBuffer (layout : SegmentLayout) (zero : σ) : FixedSizeBuffer σ :=
  ⟨0, fun k => decide (k < layout.availableSegmentsPerBuffer), true, false, fun _ => zero⟩

/-- The part of `New` that adds a buffer. -/
def addBuffer (layout : SegmentLayout) (zero : σ) (a : FixedSizeAllocator σ) (id : Nat) :
    FixedSizeAllocator σ :=
  { a with
    buffers := id :: a.buffers
    buffer := Function.update a.buffer id (newBuffer layout zero)
    buffersWithFreeSpace := a.buffersWithFreeSpace.insert id
    bufferWithFreeSpace := some id }

/-- The assertion of `GetAvailableBufferId`. -/
def bufferIdUnderflow : String := "buffer_id > 0"

/-- The buffer that `New` fills, added if there is none with free space. -/
def bufferToFill (layout : SegmentLayout) (zero : σ) (a : FixedSizeAllocator σ) :
    Except String (FixedSizeAllocator σ × Nat) :=
  match a.bufferWithFreeSpace with
  | some id => .ok (a, id)
  | none =>
      match a.getAvailableBufferId with
      | none => .error bufferIdUnderflow
      | some id => .ok (a.addBuffer layout zero id, id)

/-- `New` once a segment of buffer `id` has been allocated. -/
def recordNew (layout : SegmentLayout) (ord : HashOrder) (a : FixedSizeAllocator σ) (id : Nat)
    (buffer : FixedSizeBuffer σ) : FixedSizeAllocator σ :=
  let counted := { a with
    totalSegmentCount := a.totalSegmentCount + 1
    buffer := Function.update a.buffer id buffer }
  if buffer.segmentCount = layout.availableSegmentsPerBuffer then
    nextBufferWithFreeSpace ord
      { counted with buffersWithFreeSpace := a.buffersWithFreeSpace.erase id }
  else counted

def new (layout : SegmentLayout) (zero : σ) (ord : HashOrder) (a : FixedSizeAllocator σ) :
    Except String (FixedSizeAllocator σ × IndexPointer) :=
  match a.bufferToFill layout zero with
  | .error e => .error e
  | .ok (a, id) =>
      match (a.buffer id).allocateSegment layout with
      | .error e => .error e
      | .ok (buffer, offset) => .ok (a.recordNew layout ord id buffer, .make id offset)

def free (ord : HashOrder) (a : FixedSizeAllocator σ) (ptr : IndexPointer) :
    FixedSizeAllocator σ :=
  let id := ptr.getBufferId
  let buffer := (a.buffer id).freeSegment ptr.getOffset
  let freed := { a with
    buffer := Function.update a.buffer id buffer
    totalSegmentCount := a.totalSegmentCount - 1 }
  if buffer.segmentCount ≠ 0 then
    { freed with
      buffersWithFreeSpace := a.buffersWithFreeSpace.insert id
      bufferWithFreeSpace := a.bufferWithFreeSpace.getD id }
  -- the only buffer with free space is kept, even when it is empty
  else if a.buffersWithFreeSpace.length = 1 then freed
  else
    let erased := { freed with
      buffersWithFreeSpace := a.buffersWithFreeSpace.erase id
      buffers := a.buffers.erase id }
    if a.bufferWithFreeSpace = some id then nextBufferWithFreeSpace ord erased else erased

def reset (a : FixedSizeAllocator σ) : FixedSizeAllocator σ :=
  { a with
    buffers := []
    buffersWithFreeSpace := []
    bufferWithFreeSpace := none
    totalSegmentCount := 0 }

def getInMemorySize (layout : SegmentLayout) (a : FixedSizeAllocator σ) : Nat :=
  (a.buffers.countP fun id => (a.buffer id).inMemory) * layout.blockSize

def getUpperBoundBufferId (a : FixedSizeAllocator σ) : Nat :=
  a.buffers.foldl (fun upperBound id => if id ≥ upperBound then id + 1 else upperBound) 0

/-- `Merge`: the ids of the other allocator are shifted behind the own ones. -/
def merge (ord : HashOrder) (a other : FixedSizeAllocator σ) : FixedSizeAllocator σ :=
  let upperBound := a.getUpperBoundBufferId
  nextBufferWithFreeSpace ord
    { a with
      buffers := a.buffers ++ other.buffers.map (· + upperBound)
      buffer := fun id => if id < upperBound then a.buffer id else other.buffer (id - upperBound)
      buffersWithFreeSpace :=
        other.buffersWithFreeSpace.map (· + upperBound) ∪ a.buffersWithFreeSpace
      totalSegmentCount := a.totalSegmentCount + other.totalSegmentCount }

/-- The buffers that `RemoveEmptyBuffers` keeps. -/
def isFilled (a : FixedSizeAllocator σ) (id : Nat) : Bool :=
  decide ((a.buffer id).segmentCount ≠ 0)

def removeEmptyBuffers (ord : HashOrder) (a : FixedSizeAllocator σ) : FixedSizeAllocator σ :=
  nextBufferWithFreeSpace ord
    { a with
      buffers := a.buffers.filter a.isFilled
      buffersWithFreeSpace := a.buffersWithFreeSpace.filter fun id =>
        a.isFilled id || decide (id ∉ a.buffers) }

/-- `emplace` of a multimap: behind the entries with the same key. -/
def emplace (entries : List (Nat × Nat)) (entry : Nat × Nat) : List (Nat × Nat) :=
  entries.takeWhile (fun e => decide (e.1 ≤ entry.1)) ++
    entry :: entries.dropWhile fun e => decide (e.1 ≤ entry.1)

/-- `VACUUM_THRESHOLD`, in percent. -/
def vacuumThreshold : Nat := 10

/-- The buffers in memory by the number of their free segments. -/
def temporaryVacuumBuffers (layout : SegmentLayout) (ord : HashOrder)
    (a : FixedSizeAllocator σ) : List (Nat × Nat) :=
  ((ord.order a.buffers).filter fun id => (a.buffer id).inMemory).foldl
    (fun entries id =>
      emplace entries (layout.availableSegmentsPerBuffer - (a.buffer id).segmentCount, id)) []

/-- Marks the chosen buffers and takes them out of the set. -/
def startVacuum (ord : HashOrder) (a : FixedSizeAllocator σ) (ids : List Nat) :
    FixedSizeAllocator σ :=
  nextBufferWithFreeSpace ord
    { a with
      buffer := fun id => { a.buffer id with vacuum := decide (id ∈ ids) }
      buffersWithFreeSpace := ids.foldl List.erase a.buffersWithFreeSpace
      vacuumBuffers := ids }

/-- `InitializeVacuum`. The percentages are compared as fractions: as doubles
they compare the same, one tenth being rounded like the threshold. -/
def initializeVacuum (layout : SegmentLayout) (ord : HashOrder) (a : FixedSizeAllocator σ) :
    FixedSizeAllocator σ × Bool :=
  if a.totalSegmentCount = 0 then (a.reset, false)
  else
    let filled := a.removeEmptyBuffers ord
    let unmarked := { filled with buffer := fun id => { filled.buffer id with vacuum := false } }
    let temporary := unmarked.temporaryVacuumBuffers layout ord
    if temporary = [] then (unmarked, false)
    else
      let availableSegmentsInMemory := (temporary.map Prod.fst).sum
      let excessBufferCount := availableSegmentsInMemory / layout.availableSegmentsPerBuffer
      let memoryUsage := unmarked.getInMemorySize layout
      let excessMemoryUsage := excessBufferCount * layout.blockSize
      if excessMemoryUsage * 100 < memoryUsage * vacuumThreshold then (unmarked, false)
      else
        -- the entries with the fewest free segments are erased first
        let chosen := temporary.drop (temporary.length - excessBufferCount)
        (unmarked.startVacuum ord (chosen.map Prod.snd), true)

def needsVacuum (a : FixedSizeAllocator σ) (ptr : IndexPointer) : Bool :=
  decide (ptr.getBufferId ∈ a.vacuumBuffers)

def contents (a : FixedSizeAllocator σ) (ptr : IndexPointer) : σ :=
  (a.buffer ptr.getBufferId).data ptr.getOffset

/-- A write through `GetHandle`. -/
def write (a : FixedSizeAllocator σ) (ptr : IndexPointer) (value : σ) : FixedSizeAllocator σ :=
  { a with
    buffer := Function.update a.buffer ptr.getBufferId
      { a.buffer ptr.getBufferId with
        inMemory := true
        data := Function.update (a.buffer ptr.getBufferId).data ptr.getOffset value } }

/-- `VacuumPointer`: the new segment does not count, the old one stays marked. -/
def vacuumPointer (layout : SegmentLayout) (zero : σ) (ord : HashOrder)
    (a : FixedSizeAllocator σ) (oldPtr : IndexPointer) :
    Except String (FixedSizeAllocator σ × IndexPointer) :=
  match a.new layout zero ord with
  | .error e => .error e
  | .ok (a', newPtr) =>
      let uncounted := { a' with totalSegmentCount := a'.totalSegmentCount - 1 }
      .ok (uncounted.write newPtr (uncounted.contents oldPtr), newPtr)

/-- A client's walk over its pointers: each one that needs it is vacuumed. -/
def vacuumPointers (layout : SegmentLayout) (zero : σ) :
    List (IndexPointer × HashOrder) → FixedSizeAllocator σ →
    Except String (FixedSizeAllocator σ × List IndexPointer)
  | [], a => .ok (a, [])
  | (ptr, ord) :: visits, a =>
      if a.needsVacuum ptr then
        match a.vacuumPointer layout zero ord ptr with
        | .error e => .error e
        | .ok (a', newPtr) =>
            match vacuumPointers layout zero visits a' with
            | .error e => .error e
            | .ok (a'', moved) => .ok (a'', newPtr :: moved)
      else
        match vacuumPointers layout zero visits a with
        | .error e => .error e
        | .ok (a', moved) => .ok (a', ptr :: moved)

def finalizeVacuum (a : FixedSizeAllocator σ) : FixedSizeAllocator σ :=
  { a with
    buffers := a.buffers.filter fun id => decide (id ∉ a.vacuumBuffers)
    vacuumBuffers := [] }

/-- Buffers that were serialized leave the memory until they are used again. -/
def unload (a : FixedSizeAllocator σ) (serialized : Nat → Bool) : FixedSizeAllocator σ :=
  { a with
    buffer := fun id =>
      { a.buffer id with inMemory := (a.buffer id).inMemory && !serialized id } }

/-! ## Bookkeeping -/

variable {layout : SegmentLayout} {zero : σ} {ord : HashOrder} {a a' : FixedSizeAllocator σ}
  {live : List IndexPointer}

/-- The buffers, their counts and the set of those with free space agree. -/
structure Tallied (layout : SegmentLayout) (a : FixedSizeAllocator σ) : Prop where
  ids_nodup : a.buffers.Nodup
  counted : ∀ id ∈ a.buffers, (a.buffer id).Counted layout
  vacuum_sub : ∀ id ∈ a.vacuumBuffers, id ∈ a.buffers
  free_nodup : a.buffersWithFreeSpace.Nodup
  free_iff : ∀ id, id ∈ a.buffersWithFreeSpace ↔
    id ∈ a.buffers ∧ id ∉ a.vacuumBuffers ∧
      (a.buffer id).segmentCount < layout.availableSegmentsPerBuffer

structure Bookkeeping (layout : SegmentLayout) (a : FixedSizeAllocator σ) : Prop
    extends Tallied layout a where
  cached_mem : ∀ id, a.bufferWithFreeSpace = some id → id ∈ a.buffersWithFreeSpace
  cached_none : a.bufferWithFreeSpace = none → a.buffersWithFreeSpace = []

theorem bookkeeping_empty (layout : SegmentLayout) (zero : σ) :
    Bookkeeping layout (empty zero) := by
  refine ⟨⟨List.nodup_nil, ?_, ?_, List.nodup_nil, ?_⟩, ?_, fun _ => rfl⟩ <;> simp [empty]

theorem Tallied.next (h : Tallied layout a) (ord : HashOrder) :
    Bookkeeping layout (a.nextBufferWithFreeSpace ord) :=
  ⟨⟨h.ids_nodup, h.counted, h.vacuum_sub, h.free_nodup, h.free_iff⟩,
    fun _ => HashOrder.first_mem, HashOrder.first_eq_none⟩

variable {id : Nat}

/-- One buffer changes, and its place in the set with it. -/
theorem Tallied.update (h : Tallied layout a) (hid : id ∈ a.buffers) (hvac : id ∉ a.vacuumBuffers)
    {buffer : FixedSizeBuffer σ} (hb : buffer.Counted layout) (free : List Nat)
    (hnodup : free.Nodup)
    (hself : id ∈ free ↔ buffer.segmentCount < layout.availableSegmentsPerBuffer)
    (hother : ∀ i, i ≠ id → (i ∈ free ↔ i ∈ a.buffersWithFreeSpace)) (total : Nat)
    (cached : Option Nat) : Tallied layout { a with
      totalSegmentCount := total
      buffer := Function.update a.buffer id buffer
      buffersWithFreeSpace := free
      bufferWithFreeSpace := cached } := by
  refine ⟨h.ids_nodup, fun i hi => ?_, h.vacuum_sub, hnodup, fun i => ?_⟩
  · by_cases heq : i = id
    · subst heq
      simpa using hb
    · simpa [Function.update_of_ne heq] using h.counted i hi
  · by_cases heq : i = id
    · subst heq
      simp [hself, hid, hvac]
    · simp only [hother i heq, Function.update_of_ne heq]
      exact h.free_iff i

/-- A buffer that is not being vacuumed leaves the map and the set. -/
theorem Tallied.removeBuffer (h : Tallied layout a) (buffer : FixedSizeBuffer σ)
    (hvac : id ∉ a.vacuumBuffers) (total : Nat) : Tallied layout { a with
      totalSegmentCount := total
      buffer := Function.update a.buffer id buffer
      buffersWithFreeSpace := a.buffersWithFreeSpace.erase id
      buffers := a.buffers.erase id } := by
  refine ⟨h.ids_nodup.erase id, fun i hi => ?_, fun i hi => ?_, h.free_nodup.erase id,
    fun i => ?_⟩
  · obtain ⟨hne, hi⟩ := (h.ids_nodup.mem_erase_iff).1 hi
    simpa [Function.update_of_ne hne] using h.counted i hi
  · have hne : i ≠ id := fun heq => hvac (heq ▸ hi)
    exact (h.ids_nodup.mem_erase_iff).2 ⟨hne, h.vacuum_sub i hi⟩
  · simp only [h.free_nodup.mem_erase_iff, h.ids_nodup.mem_erase_iff, h.free_iff]
    by_cases heq : i = id
    · simp [heq]
    · simp [heq]

theorem mem_of_availableFrom_none {buffers : List Nat} :
    (n : Nat) → availableFrom buffers n = none → ∀ i ≤ n, i ∈ buffers
  | 0, h, i, hi => by
      obtain rfl := Nat.le_zero.1 hi
      by_contra hmem
      simp [availableFrom, hmem] at h
  | n + 1, h, i, hi => by
      by_cases hmem : n + 1 ∈ buffers
      · rw [availableFrom, if_pos hmem] at h
        rcases Nat.le_succ_iff.1 hi with hle | rfl
        · exact mem_of_availableFrom_none n h i hle
        · exact hmem
      · simp [availableFrom, hmem] at h

theorem availableFrom_notMem {buffers : List Nat} :
    (n : Nat) → availableFrom buffers n = some id → id ∉ buffers
  | 0, h => by
      by_cases hmem : 0 ∈ buffers
      · simp [availableFrom, hmem] at h
      · simp only [availableFrom, if_neg hmem, Option.some.injEq] at h
        rwa [← h]
  | n + 1, h => by
      by_cases hmem : n + 1 ∈ buffers
      · rw [availableFrom, if_pos hmem] at h
        exact availableFrom_notMem n h
      · simp only [availableFrom, if_neg hmem, Option.some.injEq] at h
        rwa [← h]

/-- One of the ids up to the number of the buffers is free. -/
theorem exists_availableBufferId (a : FixedSizeAllocator σ) :
    ∃ id, a.getAvailableBufferId = some id ∧ id ∉ a.buffers := by
  cases hid : a.getAvailableBufferId with
  | some id => exact ⟨id, rfl, availableFrom_notMem _ hid⟩
  | none =>
      have hsub : List.range (a.buffers.length + 1) ⊆ a.buffers := fun i hi =>
        mem_of_availableFrom_none _ hid i (Nat.lt_succ_iff.1 (List.mem_range.1 hi))
      have hlen := (List.subperm_of_subset List.nodup_range hsub).length_le
      rw [List.length_range] at hlen
      omega

/-! ## Marked segments -/

/-- Segment `offset` of buffer `id` is marked as taken. -/
structure Used (layout : SegmentLayout) (a : FixedSizeAllocator σ) (id offset : Nat) : Prop where
  mem : id ∈ a.buffers
  lt : offset < layout.availableSegmentsPerBuffer
  taken : (a.buffer id).mask offset = false

variable {offset : Nat}

theorem usedCount_pos (h : Tallied layout a) (hused : a.Used layout id offset) :
    0 < (a.buffer id).segmentCount := by
  have hcount := (h.counted id hused.mem).count
  have := FixedSizeBuffer.usedCount_free hused.taken hused.lt
  omega

/-- What `New` does: segment `offset` of buffer `id` is taken, and perhaps the
buffer is added. -/
structure Taken (layout : SegmentLayout) (a a' : FixedSizeAllocator σ) (id offset : Nat) :
    Prop where
  bookkeeping : Bookkeeping layout a'
  sub : ∀ i ∈ a.buffers, i ∈ a'.buffers
  fresh : ¬ a.Used layout id offset
  used : ∀ i k, a'.Used layout i k ↔ a.Used layout i k ∨ i = id ∧ k = offset
  vacuum : a'.vacuumBuffers = a.vacuumBuffers
  kept : id ∉ a.vacuumBuffers
  total : a'.totalSegmentCount = a.totalSegmentCount + 1
  data : ∀ i ∈ a.buffers, (a'.buffer i).data = (a.buffer i).data

theorem counted_newBuffer (layout : SegmentLayout) (zero : σ) :
    (newBuffer layout zero).Counted layout := by
  refine ⟨?_, fun k hk => by simp [newBuffer, hk]⟩
  refine (List.countP_eq_zero.2 fun k hk => ?_).symm
  simp [newBuffer, List.mem_range.1 hk]

theorem Bookkeeping.addBuffer (h : Bookkeeping layout a) (zero : σ) (hid : id ∉ a.buffers) :
    Bookkeeping layout (a.addBuffer layout zero id) := by
  have hpos := layout.two_le
  refine ⟨⟨List.nodup_cons.2 ⟨hid, h.ids_nodup⟩, fun i hi => ?_, fun i hi => ?_,
    List.Nodup.insert h.free_nodup, fun i => ?_⟩, ?_, nofun⟩
  · by_cases heq : i = id
    · subst heq
      simpa [FixedSizeAllocator.addBuffer] using counted_newBuffer layout zero
    · have hmem : i ∈ a.buffers := (List.mem_cons.1 hi).resolve_left heq
      simpa [FixedSizeAllocator.addBuffer, Function.update_of_ne heq] using h.counted i hmem
  · exact List.mem_cons_of_mem _ (h.vacuum_sub i hi)
  · by_cases heq : i = id
    · subst heq
      have hvac : i ∉ a.vacuumBuffers := fun hi => hid (h.vacuum_sub i hi)
      simp only [FixedSizeAllocator.addBuffer, List.mem_insert_self, List.mem_cons_self,
        Function.update_self, newBuffer, true_iff, true_and]
      exact ⟨hvac, by omega⟩
    · simp only [FixedSizeAllocator.addBuffer, List.mem_insert_iff, List.mem_cons, heq, false_or,
        Function.update_of_ne heq]
      exact h.free_iff i
  · intro i hi
    obtain rfl := Option.some.inj hi
    exact List.mem_insert_self

theorem used_addBuffer (hid : id ∉ a.buffers) (zero : σ) (i k : Nat) :
    (a.addBuffer layout zero id).Used layout i k ↔ a.Used layout i k := by
  by_cases heq : i = id
  · subst heq
    constructor
    · intro h
      have := h.taken
      simp [addBuffer, newBuffer, h.lt] at this
    · intro h
      exact absurd h.mem hid
  · constructor
    · intro h
      refine ⟨(List.mem_cons.1 h.mem).resolve_left heq, h.lt, ?_⟩
      simpa [addBuffer, Function.update_of_ne heq] using h.taken
    · intro h
      refine ⟨List.mem_cons_of_mem _ h.mem, h.lt, ?_⟩
      simpa [addBuffer, Function.update_of_ne heq] using h.taken

/-- The buffer to fill has free space, and is the cached one. -/
theorem Bookkeeping.bufferToFill (h : Bookkeeping layout a) (zero : σ) :
    ∃ b id, a.bufferToFill layout zero = .ok (b, id) ∧ Bookkeeping layout b ∧
      b.bufferWithFreeSpace = some id ∧ (∀ i ∈ a.buffers, i ∈ b.buffers) ∧
      (∀ i k, b.Used layout i k ↔ a.Used layout i k) ∧ b.vacuumBuffers = a.vacuumBuffers ∧
      b.totalSegmentCount = a.totalSegmentCount ∧
      ∀ i ∈ a.buffers, b.buffer i = a.buffer i := by
  rw [FixedSizeAllocator.bufferToFill]
  cases hcached : a.bufferWithFreeSpace with
  | some id =>
      exact ⟨a, id, rfl, h, hcached, fun _ hi => hi, fun _ _ => Iff.rfl, rfl, rfl,
        fun _ _ => rfl⟩
  | none =>
      obtain ⟨id, hget, hid⟩ := exists_availableBufferId a
      rw [hget]
      refine ⟨a.addBuffer layout zero id, id, rfl, h.addBuffer zero hid, rfl,
        fun i hi => List.mem_cons_of_mem _ hi, used_addBuffer hid zero, rfl, rfl, ?_⟩
      intro i hi
      have hne : i ≠ id := fun heq => hid (heq ▸ hi)
      exact Function.update_of_ne hne _ _

variable {b : FixedSizeAllocator σ}

theorem used_recordNew (hid : id ∈ a.buffers) (hoff : offset < layout.availableSegmentsPerBuffer)
    (hbuffers : b.buffers = a.buffers)
    (hbuffer : b.buffer = Function.update a.buffer id ((a.buffer id).take offset)) (i k : Nat) :
    b.Used layout i k ↔ a.Used layout i k ∨ i = id ∧ k = offset := by
  constructor
  · intro h
    have htaken := h.taken
    have hmem := h.mem
    rw [hbuffers] at hmem
    rw [hbuffer] at htaken
    by_cases heq : i = id
    · subst heq
      by_cases hk : k = offset
      · exact .inr ⟨rfl, hk⟩
      · refine .inl ⟨hmem, h.lt, ?_⟩
        simpa [FixedSizeBuffer.take, Function.update_of_ne hk] using htaken
    · refine .inl ⟨hmem, h.lt, ?_⟩
      rwa [Function.update_of_ne heq] at htaken
  · rintro (h | ⟨rfl, rfl⟩)
    · refine ⟨hbuffers ▸ h.mem, h.lt, ?_⟩
      rw [hbuffer]
      by_cases heq : i = id
      · subst heq
        by_cases hk : k = offset
        · simp [FixedSizeBuffer.take, hk]
        · simpa [FixedSizeBuffer.take, Function.update_of_ne hk] using h.taken
      · rw [Function.update_of_ne heq]
        exact h.taken
    · exact ⟨hbuffers ▸ hid, hoff, by simp [hbuffer, FixedSizeBuffer.take]⟩

theorem Bookkeeping.recordNew (h : Bookkeeping layout a) (hcached : a.bufferWithFreeSpace = some id)
    (hfree : (a.buffer id).mask offset = true) (hoff : offset < layout.availableSegmentsPerBuffer)
    (ord : HashOrder) :
    Taken layout a (a.recordNew layout ord id ((a.buffer id).take offset)) id offset := by
  have hspace := h.cached_mem id hcached
  obtain ⟨hid, hvac, hlt⟩ := (h.free_iff id).1 hspace
  have hcounted := (h.counted id hid).take hfree hoff
  have hfresh : ¬ a.Used layout id offset := fun hused => by
    rw [hused.taken] at hfree
    exact absurd hfree (by decide)
  have hdata : ∀ i ∈ a.buffers,
      (Function.update a.buffer id ((a.buffer id).take offset) i).data = (a.buffer i).data := by
    intro i _
    by_cases heq : i = id
    · subst heq
      simp [FixedSizeBuffer.take]
    · rw [Function.update_of_ne heq]
  rw [FixedSizeAllocator.recordNew]
  by_cases hfull : ((a.buffer id).take offset).segmentCount = layout.availableSegmentsPerBuffer
  · rw [if_pos hfull]
    have htallied := h.update hid hvac hcounted (a.buffersWithFreeSpace.erase id)
      (h.free_nodup.erase id) (by simp [h.free_nodup.mem_erase_iff, hfull])
      (fun i heq => by simp [h.free_nodup.mem_erase_iff, heq]) (a.totalSegmentCount + 1)
      a.bufferWithFreeSpace
    exact ⟨htallied.next ord, fun _ hi => hi, hfresh, used_recordNew hid hoff rfl rfl, rfl, hvac,
      rfl, hdata⟩
  · rw [if_neg hfull]
    have hself : id ∈ a.buffersWithFreeSpace ↔
        ((a.buffer id).take offset).segmentCount < layout.availableSegmentsPerBuffer := by
      have hsucc : ((a.buffer id).take offset).segmentCount = (a.buffer id).segmentCount + 1 := rfl
      simp only [hspace, true_iff]
      omega
    have htallied := h.update hid hvac hcounted _ h.free_nodup hself (fun _ _ => Iff.rfl)
      (a.totalSegmentCount + 1) a.bufferWithFreeSpace
    exact ⟨⟨htallied, h.cached_mem, h.cached_none⟩, fun _ hi => hi, hfresh,
      used_recordNew hid hoff rfl rfl, rfl, hvac, rfl, hdata⟩

/-- `New` succeeds, and takes a segment that was not taken. -/
theorem Bookkeeping.new (h : Bookkeeping layout a) (zero : σ) (ord : HashOrder) :
    ∃ a' id offset, a.new layout zero ord = .ok (a', .make id offset) ∧
      Taken layout a a' id offset := by
  obtain ⟨b, id, hfill, hb, hcached, hsub, hused, hvac, htotal, hbuffer⟩ := h.bufferToFill zero
  obtain ⟨hid, -, hlt⟩ := (hb.free_iff id).1 (hb.cached_mem id hcached)
  obtain ⟨offset, hfree, hoff, halloc⟩ :=
    FixedSizeBuffer.allocateSegment_spec (hb.counted id hid) hlt
  have htaken := hb.recordNew hcached hfree hoff ord
  have hnew : a.new layout zero ord =
      .ok (b.recordNew layout ord id ((b.buffer id).take offset), .make id offset) := by
    rw [FixedSizeAllocator.new, hfill]
    simp only [halloc]
  refine ⟨_, id, offset, hnew, ?_⟩
  refine ⟨htaken.bookkeeping, fun i hi => htaken.sub i (hsub i hi),
    fun hu => htaken.fresh ((hused id offset).2 hu), fun i k => ?_, htaken.vacuum.trans hvac,
    hvac ▸ htaken.kept, by rw [htaken.total, htotal], fun i hi => ?_⟩
  · rw [htaken.used, hused]
  · rw [htaken.data i (hsub i hi), hbuffer i hi]

/-- What `Free` does: segment `offset` of buffer `id` is free again, and
perhaps the buffer is gone. -/
structure Released (layout : SegmentLayout) (a a' : FixedSizeAllocator σ) (id offset : Nat) :
    Prop where
  bookkeeping : Bookkeeping layout a'
  sub : ∀ i ∈ a'.buffers, i ∈ a.buffers
  used : ∀ i k, a'.Used layout i k ↔ a.Used layout i k ∧ ¬(i = id ∧ k = offset)
  vacuum : a'.vacuumBuffers = a.vacuumBuffers
  total : a'.totalSegmentCount = a.totalSegmentCount - 1
  data : ∀ i, (a'.buffer i).data = (a.buffer i).data

theorem used_freeSegment (hbuffers : b.buffers = a.buffers)
    (hbuffer : b.buffer = Function.update a.buffer id ((a.buffer id).freeSegment offset))
    (i k : Nat) : b.Used layout i k ↔ a.Used layout i k ∧ ¬(i = id ∧ k = offset) := by
  constructor
  · intro h
    have htaken := h.taken
    rw [hbuffer] at htaken
    by_cases heq : i = id
    · subst heq
      by_cases hk : k = offset
      · simp [FixedSizeBuffer.freeSegment, hk] at htaken
      · refine ⟨⟨hbuffers ▸ h.mem, h.lt, ?_⟩, fun hik => hk hik.2⟩
        simpa [FixedSizeBuffer.freeSegment, Function.update_of_ne hk] using htaken
    · rw [Function.update_of_ne heq] at htaken
      exact ⟨⟨hbuffers ▸ h.mem, h.lt, htaken⟩, fun hik => heq hik.1⟩
  · rintro ⟨h, hne⟩
    refine ⟨hbuffers ▸ h.mem, h.lt, ?_⟩
    rw [hbuffer]
    by_cases heq : i = id
    · subst heq
      have hk : k ≠ offset := fun hk => hne ⟨rfl, hk⟩
      simpa [FixedSizeBuffer.freeSegment, Function.update_of_ne hk] using h.taken
    · rw [Function.update_of_ne heq]
      exact h.taken

theorem used_eraseBuffer (h : Tallied layout a) (hempty : (a.buffer id).segmentCount = 0)
    (hbuffers : b.buffers = a.buffers.erase id) (hbuffer : b.buffer = a.buffer) (i k : Nat) :
    b.Used layout i k ↔ a.Used layout i k := by
  constructor
  · intro hu
    exact ⟨List.mem_of_mem_erase (hbuffers ▸ hu.mem), hu.lt, hbuffer ▸ hu.taken⟩
  · intro hu
    have hne : i ≠ id := fun heq => by
      have := usedCount_pos h hu
      rw [heq] at this
      omega
    exact ⟨hbuffers ▸ h.ids_nodup.mem_erase_iff.2 ⟨hne, hu.mem⟩, hu.lt, hbuffer ▸ hu.taken⟩

theorem Bookkeeping.free (h : Bookkeeping layout a) (hid32 : id < 2 ^ 32)
    (hused : a.Used layout id offset) (hvac : id ∉ a.vacuumBuffers) (ord : HashOrder) :
    Released layout a (a.free ord (.make id offset)) id offset := by
  have hoff : (IndexPointer.make id offset).getOffset = offset :=
    IndexPointer.getOffset_make id (lt_of_lt_of_le hused.lt layout.fits_pointer)
  have htwo := layout.two_le
  obtain ⟨hcounted, hcount⟩ := (h.counted id hused.mem).freeSegment hused.taken hused.lt
  have hle : (a.buffer id).segmentCount ≤ layout.availableSegmentsPerBuffer := by
    rw [(h.counted id hused.mem).count]
    exact FixedSizeBuffer.usedCount_le _ _
  have hdata : ∀ i, (Function.update a.buffer id ((a.buffer id).freeSegment offset) i).data =
      (a.buffer i).data := by
    intro i
    by_cases heq : i = id
    · subst heq
      simp [FixedSizeBuffer.freeSegment]
    · rw [Function.update_of_ne heq]
  rw [FixedSizeAllocator.free, IndexPointer.getBufferId_make offset hid32, hoff]
  by_cases hfilled : ((a.buffer id).freeSegment offset).segmentCount ≠ 0
  · rw [if_pos hfilled]
    have hself : id ∈ a.buffersWithFreeSpace.insert id ↔
        ((a.buffer id).freeSegment offset).segmentCount < layout.availableSegmentsPerBuffer := by
      simp only [List.mem_insert_self, true_iff]
      omega
    have htallied := h.update hused.mem hvac hcounted _ (List.Nodup.insert h.free_nodup) hself
      (fun i heq => by simp [heq]) (a.totalSegmentCount - 1) (a.bufferWithFreeSpace.getD id)
    refine ⟨⟨htallied, fun i hi => ?_, nofun⟩, fun _ hi => hi, used_freeSegment rfl rfl, rfl, rfl,
      hdata⟩
    cases hcached : a.bufferWithFreeSpace with
    | none =>
        rw [hcached] at hi
        obtain rfl := Option.some.inj hi
        exact List.mem_insert_self
    | some c =>
        rw [hcached] at hi
        obtain rfl := Option.some.inj hi
        exact List.mem_insert_of_mem (h.cached_mem c hcached)
  rw [if_neg hfilled]
  -- the buffer is empty now, but it was in the set before
  have hempty := not_not.1 hfilled
  have hspace : id ∈ a.buffersWithFreeSpace :=
    (h.free_iff id).2 ⟨hused.mem, hvac, by omega⟩
  have hself : id ∈ a.buffersWithFreeSpace ↔
      ((a.buffer id).freeSegment offset).segmentCount < layout.availableSegmentsPerBuffer := by
    simp only [hspace, true_iff]
    omega
  have htallied := h.update hused.mem hvac hcounted _ h.free_nodup hself (fun _ _ => Iff.rfl)
    (a.totalSegmentCount - 1) a.bufferWithFreeSpace
  by_cases hone : a.buffersWithFreeSpace.length = 1
  · rw [if_pos hone]
    exact ⟨⟨htallied, h.cached_mem, h.cached_none⟩, fun _ hi => hi, used_freeSegment rfl rfl, rfl,
      rfl, hdata⟩
  · rw [if_neg hone]
    have hremoved := h.removeBuffer ((a.buffer id).freeSegment offset) hvac (a.totalSegmentCount - 1)
    let freed : FixedSizeAllocator σ := { a with
      buffer := Function.update a.buffer id ((a.buffer id).freeSegment offset)
      totalSegmentCount := a.totalSegmentCount - 1 }
    have husedFree : ∀ i k, freed.Used layout i k ↔ a.Used layout i k ∧ ¬(i = id ∧ k = offset) :=
      used_freeSegment rfl rfl
    have hsub : ∀ i ∈ a.buffers.erase id, i ∈ a.buffers := fun _ => List.mem_of_mem_erase
    have hgone : (Function.update a.buffer id ((a.buffer id).freeSegment offset) id).segmentCount
        = 0 := by rw [Function.update_self]; exact hempty
    by_cases hcached : a.bufferWithFreeSpace = some id
    · rw [if_pos hcached]
      refine ⟨hremoved.next ord, hsub, fun i k => ?_, rfl, rfl, hdata⟩
      refine Iff.trans ?_ (husedFree i k)
      apply used_eraseBuffer htallied hgone <;> rfl
    · rw [if_neg hcached]
      refine ⟨⟨hremoved, fun i hi => ?_, fun hnone => ?_⟩, hsub, fun i k => ?_, rfl, rfl, hdata⟩
      · have hne : i ≠ id := fun heq => hcached (heq ▸ hi)
        exact h.free_nodup.mem_erase_iff.2 ⟨hne, h.cached_mem i hi⟩
      · rw [h.cached_none hnone] at hspace
        exact absurd hspace List.not_mem_nil
      · refine Iff.trans ?_ (husedFree i k)
        apply used_eraseBuffer htallied hgone <;> rfl

end FixedSizeAllocator

end MiniDuck
