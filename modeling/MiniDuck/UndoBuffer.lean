import MiniDuck.LinkedCells

/-!
# The undo buffer

The undo entries of a transaction lie behind each other in blocks. The
blocks are linked: `next` leads from the newest block, the head, to
older ones, and `prev` back from the oldest, the tail. `iterateEntries`
follows `prev` from the tail and stops where its callback throws, at a
block and an offset; `reverseIterateEntries` starts from such a place
and follows `next`.

`Records blocks log` says that the blocks hold the entries of `log` in
the order they were created. `createEntry_logs` keeps it for every entry
size. `iterateEntries_spec` says which entries a run has applied when it
stops, and `reverseIterateEntries_spec` that the way back meets these
entries and no other, the newest first.
-/

namespace MiniDuck

inductive UndoFlags
  | emptyEntry | catalogEntry | insertTuple | deleteTuple | updateTuple | sequenceValue
  | attachedDatabase
  deriving Repr, DecidableEq

/-- `UNDO_ENTRY_HEADER_SIZE`: the flags and the length, four bytes each. -/
def undoEntryHeaderSize : Nat := 8

/-- `sizeof(UndoFlags)`. -/
def undoFlagsSize : Nat := 4

/-- A block of the buffer. Its memory is kept by what is stored at an offset: flags, lengths
and the payloads behind them. -/
structure UndoBufferEntry (P : Type) where
  capacity : Nat
  position : Nat
  flags : Nat → UndoFlags
  lens : Nat → Nat
  payloads : Nat → P

/-- What a callback gets: the flags, and the payload with its place. -/
structure UndoEntry (P : Type) where
  type : UndoFlags
  block : Nat
  offset : Nat
  payload : P
  deriving Repr, DecidableEq

structure UndoBufferAllocator (P : Type) where
  heap : Heap Nat (UndoBufferEntry P)
  nextBlock : Nat
  head : Option Nat
  tail : Option Nat

/-- `IteratorState`: the block a run is at and the offset of the entry it is about to read. -/
structure IteratorState where
  current : Option Nat
  start : Nat
  started : Bool
  deriving Repr, DecidableEq

variable {P σ ε : Type}

namespace UndoBufferEntry

/-- A block as it is allocated; its memory is not initialized. -/
def fresh [Inhabited P] (capacity : Nat) : UndoBufferEntry P :=
  ⟨capacity, 0, fun _ => .emptyEntry, fun _ => 0, fun _ => default⟩

/-- The stores of `CreateEntry` at a position, and the store of the payload behind them. -/
def store (m : UndoBufferEntry P) (position : Nat) (type : UndoFlags) (len : Nat) (payload : P) :
    UndoBufferEntry P :=
  { m with
    flags := Function.update m.flags position type
    lens := Function.update m.lens (position + undoFlagsSize) len
    payloads := Function.update m.payloads (position + undoEntryHeaderSize) payload }

def entryAt (m : UndoBufferEntry P) (block start : Nat) : UndoEntry P :=
  ⟨m.flags start, block, start + undoEntryHeaderSize, m.payloads (start + undoEntryHeaderSize)⟩

def nextEntry (m : UndoBufferEntry P) (start : Nat) : Nat :=
  start + undoEntryHeaderSize + m.lens (start + undoFlagsSize)

/-- The inner loop of `IterateEntries`. -/
def iterate (m : UndoBufferEntry P) (block : Nat) (callback : σ → UndoEntry P → Except ε σ) :
    Nat → Nat → σ → Nat × σ × Option ε
  | 0, start, s => (start, s, none)
  | fuel + 1, start, s =>
      if start < m.position then
        match callback s (m.entryAt block start) with
        | .error e => (start, s, some e)
        | .ok s' => iterate m block callback fuel (m.nextEntry start) s'
      else (start, s, none)

/-- The nodes that `ReverseIterateEntries` collects in a block. -/
def nodes (m : UndoBufferEntry P) (block : Nat) : Nat → Nat → Nat → List (UndoEntry P)
  | 0, _, _ => []
  | fuel + 1, start, stop =>
      if start < stop then m.entryAt block start :: nodes m block fuel (m.nextEntry start) stop
      else []

end UndoBufferEntry

namespace UndoBufferAllocator

def empty : UndoBufferAllocator P := ⟨fun _ => none, 0, none, none⟩

def newCapacity (self : UndoBufferAllocator P) (blockSize allocLen : Nat) : Nat :=
  let capacity := if self.head.isNone && decide (allocLen ≤ 4096) then 4096 else blockSize
  if capacity < allocLen then Nat.nextPowerOfTwo allocLen else capacity

def addBlock [Inhabited P] (self : UndoBufferAllocator P) (capacity : Nat) :
    UndoBufferAllocator P where
  heap := self.heap.pushFront self.head self.nextBlock (.fresh capacity)
  nextBlock := self.nextBlock + 1
  head := some self.nextBlock
  tail := if self.head.isNone then some self.nextBlock else self.tail

/-- The block behind `head`. -/
def headBlock (self : UndoBufferAllocator P) : Option (Nat × UndoBufferEntry P) :=
  match self.head with
  | none => none
  | some a => (self.heap a).map fun c => (a, c.val)

/-- The part of `Allocate` that adds a block where the head has no space. -/
def reserve [Inhabited P] (self : UndoBufferAllocator P) (blockSize allocLen : Nat) :
    UndoBufferAllocator P :=
  if self.headBlock.any fun x => decide (x.2.position + allocLen ≤ x.2.capacity) then self
  else self.addBlock (self.newCapacity blockSize allocLen)

/-- `UndoBufferAllocator::Allocate`: the block and the position of the new space. -/
def allocate [Inhabited P] (self : UndoBufferAllocator P) (blockSize allocLen : Nat) :
    UndoBufferAllocator P × Nat × Nat :=
  let self := self.reserve blockSize allocLen
  match self.headBlock with
  | none => (self, 0, 0)
  | some (a, m) =>
      ({ self with
        heap := self.heap.modifyVal a fun m => { m with position := m.position + allocLen } },
        a, m.position)

/-- The size of an entry with its header, aligned to eight bytes. -/
def allocLen (len : Nat) : Nat := (len + undoEntryHeaderSize + 7) / 8 * 8

/-- `UndoBuffer::CreateEntry`, with the payload that the caller stores: the buffer and the
entry. -/
def createEntry [Inhabited P] (self : UndoBufferAllocator P) (blockSize : Nat) (type : UndoFlags)
    (len : Nat) (payload : P) : UndoBufferAllocator P × UndoEntry P :=
  let size := allocLen len
  let (self, block, position) := self.allocate blockSize size
  ({ self with
    heap := self.heap.modifyVal block fun m =>
      m.store position type ((size - undoEntryHeaderSize) % 2 ^ 32) payload },
    ⟨type, block, position + undoEntryHeaderSize, payload⟩)

/-- The loop of `IterateEntries` over the blocks. -/
def iterateBlocks (self : UndoBufferAllocator P) (callback : σ → UndoEntry P → Except ε σ) :
    Nat → Option Nat → σ → IteratorState × σ × Option ε
  | 0, current, s => (⟨current, 0, true⟩, s, none)
  | _, none, s => (⟨none, 0, true⟩, s, none)
  | fuel + 1, some a, s =>
      match self.heap a with
      | none => (⟨none, 0, true⟩, s, none)
      | some c =>
          match c.val.iterate a callback c.val.position 0 s with
          | (start, s', some e) => (⟨some a, start, true⟩, s', some e)
          | (_, s', none) => iterateBlocks self callback fuel c.prev s'

/-- `UndoBuffer::IterateEntries`: where it stopped, the state its callback has made, and the
exception if one was thrown. -/
def iterateEntries (self : UndoBufferAllocator P) (callback : σ → UndoEntry P → Except ε σ)
    (s : σ) : IteratorState × σ × Option ε :=
  self.iterateBlocks callback self.nextBlock self.tail s

/-- The loop of `ReverseIterateEntries`. Only the block of the end state is read up to the end
position. -/
def reverseBlocks (self : UndoBufferAllocator P) (endState : IteratorState)
    (callback : σ → UndoEntry P → σ) : Nat → Option Nat → σ → σ
  | 0, _, s => s
  | _, none, s => s
  | fuel + 1, some a, s =>
      match self.heap a with
      | none => s
      | some c =>
          let stop := if endState.current = some a then endState.start else c.val.position
          reverseBlocks self endState callback fuel c.next
            ((c.val.nodes a stop 0 stop).reverse.foldl callback s)

/-- `UndoBuffer::ReverseIterateEntries` from an end state. -/
def reverseIterateEntries (self : UndoBufferAllocator P) (endState : IteratorState)
    (callback : σ → UndoEntry P → σ) (s : σ) : σ :=
  if endState.started then
    self.reverseBlocks endState callback self.nextBlock
      (if endState.current.isSome then endState.current else self.head) s
  else s

end UndoBufferAllocator

/-! ## The entries of a block -/

namespace UndoBufferEntry

/-- The entries lie behind each other from one offset to another. -/
def Holds (m : UndoBufferEntry P) (block : Nat) : Nat → List (UndoEntry P) → Nat → Prop
  | start, [], stop => start = stop
  | start, e :: es, stop => e = m.entryAt block start ∧ Holds m block (m.nextEntry start) es stop

variable {m : UndoBufferEntry P} {block : Nat}

theorem Holds.le {stop : Nat} : {es : List (UndoEntry P)} →
    {start : Nat} → m.Holds block start es stop → start + 8 * es.length ≤ stop
  | [], start, h => by
      rw [Holds] at h
      simp [h]
  | e :: es, start, h => by
      have hle := h.2.le
      rw [nextEntry, undoEntryHeaderSize] at hle
      rw [List.length_cons]
      omega

theorem Holds.append {mid stop : Nat} {es' : List (UndoEntry P)} (h' : m.Holds block mid es' stop) :
    {es : List (UndoEntry P)} → {start : Nat} →
    m.Holds block start es mid → m.Holds block start (es ++ es') stop
  | [], start, h => by
      rw [Holds] at h
      rwa [List.nil_append, h]
  | e :: es, start, h => ⟨h.1, h'.append h.2⟩

theorem Holds.congr {m' : UndoBufferEntry P} {stop : Nat}
    (hflags : ∀ i < stop, m'.flags i = m.flags i) (hlens : ∀ i < stop, m'.lens i = m.lens i)
    (hpayloads : ∀ i ≤ stop, m'.payloads i = m.payloads i) : {es : List (UndoEntry P)} →
    {start : Nat} → m.Holds block start es stop → m'.Holds block start es stop
  | [], start, h => h
  | e :: es, start, h => by
      obtain ⟨he, hes⟩ := h
      have hle := hes.le
      rw [nextEntry, undoEntryHeaderSize] at hle
      have hlen : m'.lens (start + undoFlagsSize) = m.lens (start + undoFlagsSize) :=
        hlens _ (by rw [undoFlagsSize]; omega)
      refine ⟨?_, ?_⟩
      · rw [he, entryAt, entryAt, hflags _ (by omega),
          hpayloads _ (by rw [undoEntryHeaderSize]; omega)]
      · rw [nextEntry, hlen]
        exact hes.congr hflags hlens hpayloads

/-- The loop stops behind the last entry, or at the entry its callback refuses. -/
theorem Holds.iterate (callback : σ → UndoEntry P → Except ε σ) : {es : List (UndoEntry P)} →
    {start fuel : Nat} → (s : σ) → m.Holds block start es m.position → es.length ≤ fuel →
    ∃ done rest, es = done ++ rest ∧
      m.Holds block start done (m.iterate block callback fuel start s).1 ∧
      done.foldlM callback s = .ok (m.iterate block callback fuel start s).2.1 ∧
      ((m.iterate block callback fuel start s).2.2 = none → rest = []) ∧
      ∀ x, (m.iterate block callback fuel start s).2.2 = some x →
        ∃ e rest', rest = e :: rest' ∧
          callback (m.iterate block callback fuel start s).2.1 e = .error x
  | [], start, fuel, s, h, _ => by
      have hend : m.iterate block callback fuel start s = (start, s, none) := by
        cases fuel with
        | zero => rfl
        | succ fuel =>
            rw [Holds] at h
            rw [UndoBufferEntry.iterate, if_neg (by omega)]
      rw [hend]
      exact ⟨[], [], rfl, rfl, rfl, fun _ => rfl, fun x hx => by cases hx⟩
  | e :: es, start, 0, s, _, hfuel => by simp at hfuel
  | e :: es, start, fuel + 1, s, h, hfuel => by
      have hlt : start < m.position := by
        have hle := h.le
        rw [List.length_cons] at hle
        omega
      obtain ⟨he, hes⟩ := h
      rw [UndoBufferEntry.iterate, if_pos hlt, ← he]
      cases hcall : callback s e with
      | error x =>
          refine ⟨[], e :: es, rfl, rfl, rfl, (by simp), fun y hy => ?_⟩
          obtain rfl : x = y := by simpa using hy
          exact ⟨e, es, rfl, hcall⟩
      | ok s' =>
          have hrest : es.length ≤ fuel := by simpa using hfuel
          obtain ⟨done, rest, rfl, hdone, hfold, hnone, hsome⟩ := hes.iterate callback s' hrest
          refine ⟨e :: done, rest, rfl, ⟨he, hdone⟩, ?_, hnone, hsome⟩
          rw [List.foldlM_cons, hcall]
          exact hfold

theorem Holds.nodes {stop : Nat} : {es : List (UndoEntry P)} →
    {start fuel : Nat} → m.Holds block start es stop → es.length ≤ fuel →
    m.nodes block fuel start stop = es
  | [], start, fuel, h, _ => by
      cases fuel with
      | zero => rfl
      | succ fuel =>
          rw [Holds] at h
          rw [UndoBufferEntry.nodes, if_neg (by omega)]
  | e :: es, start, 0, _, hfuel => by simp at hfuel
  | e :: es, start, fuel + 1, h, hfuel => by
      have hlt : start < stop := by
        have hle := h.le
        rw [List.length_cons] at hle
        omega
      rw [UndoBufferEntry.nodes, if_pos hlt, ← h.1, h.2.nodes (by simpa using hfuel)]

end UndoBufferEntry

/-! ## The entries of the buffer -/

namespace UndoBufferAllocator

/-- The blocks of the chain, the newest first. -/
structure Blocks (buffer : UndoBufferAllocator P) (blocks : List (Nat × UndoBufferEntry P)) :
    Prop where
  chain : Heap.Chain buffer.heap buffer.head blocks
  tail : buffer.tail = blocks.getLast?.map Prod.fst
  addresses : ∀ a ∈ blocks.map Prod.fst, a < buffer.nextBlock

/-- The blocks, the newest first, hold these entries, the oldest first. -/
def Records : List (Nat × UndoBufferEntry P) → List (UndoEntry P) → Prop
  | [], log => log = []
  | (a, m) :: older, log =>
      ∃ old new, log = old ++ new ∧ Records older old ∧ m.Holds a 0 new m.position

def Logs (buffer : UndoBufferAllocator P) (log : List (UndoEntry P)) : Prop :=
  ∃ blocks, buffer.Blocks blocks ∧ Records blocks log

theorem empty_logs : (empty : UndoBufferAllocator P).Logs [] :=
  ⟨[], ⟨⟨⟨none, rfl, rfl⟩, List.nodup_nil⟩, rfl, by simp⟩, rfl⟩

variable {older : List (Nat × UndoBufferEntry P)}

theorem Records.append : {newer : List (Nat × UndoBufferEntry P)} → {log : List (UndoEntry P)} →
    (Records (newer ++ older) log ↔
      ∃ old new, log = old ++ new ∧ Records older old ∧ Records newer new)
  | [], log => by simp [Records]
  | (a, m) :: newer, log => by
      simp only [List.cons_append, Records]
      constructor
      · rintro ⟨old, new, rfl, hold, hnew⟩
        obtain ⟨old, mid, rfl, hold, hmid⟩ := Records.append.mp hold
        exact ⟨old, mid ++ new, List.append_assoc _ _ _, hold, mid, new, rfl, hmid, hnew⟩
      · rintro ⟨old, new, rfl, hold, mid, new, rfl, hmid, hnew⟩
        exact ⟨old ++ mid, new, (List.append_assoc _ _ _).symm,
          Records.append.mpr ⟨old, mid, rfl, hold, hmid⟩, hnew⟩

/-! ## Creating entries -/

variable {buffer : UndoBufferAllocator P}

theorem Blocks.headBlock {a : Nat} {m : UndoBufferEntry P} (h : buffer.Blocks ((a, m) :: older)) :
    buffer.headBlock = some (a, m) := by
  have hchain : Heap.Chain buffer.heap buffer.head ([] ++ (a, m) :: older) := h.chain
  have hcell := hchain.cell_eq
  rw [UndoBufferAllocator.headBlock, h.chain.head_eq, List.head?_cons, Option.map_some]
  simp only [hcell, Option.map_some]

theorem Blocks.modifyHead {a : Nat} {m : UndoBufferEntry P} (h : buffer.Blocks ((a, m) :: older))
    (f : UndoBufferEntry P → UndoBufferEntry P) :
    Blocks { buffer with heap := buffer.heap.modifyVal a f } ((a, f m) :: older) := by
  have hchain := h.chain.modifyVal a f
  rw [Heap.modifyAt_cons_self (List.nodup_cons.mp h.chain.nodup).1] at hchain
  exact ⟨hchain, by cases older <;> simpa using h.tail, by simpa using h.addresses⟩

variable {blocks : List (Nat × UndoBufferEntry P)}

theorem Blocks.addBlock [Inhabited P] (h : buffer.Blocks blocks) (capacity : Nat) :
    (buffer.addBlock capacity).Blocks ((buffer.nextBlock, .fresh capacity) :: blocks) := by
  refine ⟨h.chain.pushFront fun ha => Nat.lt_irrefl _ (h.addresses _ ha), ?_, ?_⟩
  · rw [UndoBufferAllocator.addBlock, h.chain.head_eq, List.getLast?_cons]
    cases blocks with
    | nil => rfl
    | cons x older =>
        rw [h.tail, List.getLast?_cons]
        rfl
  · intro a ha
    rcases List.mem_cons.mp ha with rfl | ha
    · exact Nat.lt_succ_self _
    · exact Nat.lt_succ_of_lt (h.addresses a ha)

variable {log : List (UndoEntry P)}

theorem records_fresh [Inhabited P] (h : Records blocks log) (a capacity : Nat) :
    Records ((a, .fresh capacity) :: blocks) log :=
  ⟨log, [], (List.append_nil _).symm, h, rfl⟩

theorem Logs.reserve [Inhabited P] (h : buffer.Logs log) (blockSize size : Nat) :
    ∃ a m older, (buffer.reserve blockSize size).Blocks ((a, m) :: older) ∧
      Records ((a, m) :: older) log := by
  obtain ⟨blocks, hblocks, hrecords⟩ := h
  rw [UndoBufferAllocator.reserve]
  split
  · next hfits =>
      cases blocks with
      | nil =>
          rw [headBlock, hblocks.chain.head_eq] at hfits
          simp at hfits
      | cons x older => exact ⟨x.1, x.2, older, hblocks, hrecords⟩
  · exact ⟨_, _, _, hblocks.addBlock _, records_fresh hrecords _ _⟩

/-- Space is taken at the end of the newest block. -/
theorem Logs.allocate [Inhabited P] (h : buffer.Logs log) (blockSize size : Nat) :
    ∃ a m older, (buffer.allocate blockSize size).1.Blocks
        ((a, { m with position := m.position + size }) :: older) ∧
      Records ((a, m) :: older) log ∧ (buffer.allocate blockSize size).2 = (a, m.position) := by
  obtain ⟨a, m, older, hblocks, hrecords⟩ := h.reserve blockSize size
  refine ⟨a, m, older, ?_, hrecords, ?_⟩
  · simp only [UndoBufferAllocator.allocate, hblocks.headBlock]
    exact hblocks.modifyHead _
  · simp only [UndoBufferAllocator.allocate, hblocks.headBlock]

/-- `CreateEntry` adds one entry to the log. The length of an entry is stored in 32 bits. -/
theorem Logs.createEntry [Inhabited P] (h : buffer.Logs log) (blockSize : Nat) (type : UndoFlags)
    {len : Nat} (payload : P) (hlen : allocLen len - undoEntryHeaderSize < 2 ^ 32) :
    (buffer.createEntry blockSize type len payload).1.Logs
      (log ++ [(buffer.createEntry blockSize type len payload).2]) := by
  obtain ⟨a, m, older, hblocks, ⟨old, new, rfl, hold, hnew⟩, hplace⟩ :=
    h.allocate blockSize (allocLen len)
  have hstore := hblocks.modifyHead fun m' =>
    m'.store m.position type ((allocLen len - undoEntryHeaderSize) % 2 ^ 32) payload
  have hsize : undoEntryHeaderSize ≤ allocLen len := by
    rw [allocLen, undoEntryHeaderSize]
    omega
  rw [UndoBufferAllocator.createEntry]
  simp only [hplace]
  refine ⟨_, hstore, old, new ++ [_], by rw [List.append_assoc], hold, ?_⟩
  refine UndoBufferEntry.Holds.append ?_ (hnew.congr ?_ ?_ ?_)
  · refine ⟨?_, ?_⟩
    · simp [UndoBufferEntry.entryAt, UndoBufferEntry.store]
    · simp only [UndoBufferEntry.Holds, UndoBufferEntry.nextEntry, UndoBufferEntry.store,
        Function.update_self, Nat.mod_eq_of_lt hlen]
      omega
  · intro i hi
    exact Function.update_of_ne (by omega) _ _
  · intro i hi
    exact Function.update_of_ne (by omega) _ _
  · intro i hi
    exact Function.update_of_ne (by rw [undoEntryHeaderSize]; omega) _ _

/-! ## The way forward -/

/-- Where a run stands that has met the entries of `done`. -/
def StandsAfter (blocks : List (Nat × UndoBufferEntry P)) (state : IteratorState)
    (done : List (UndoEntry P)) : Prop :=
  state.started = true ∧
    ((state.current = none ∧ Records blocks done) ∨
      ∃ newer a m older old new, blocks = newer ++ (a, m) :: older ∧ state.current = some a ∧
        Records older old ∧ m.Holds a 0 new state.start ∧ done = old ++ new)

theorem Blocks.length_le (h : buffer.Blocks blocks) : blocks.length ≤ buffer.nextBlock :=
  h.chain.length_le h.addresses

/-- The blocks still to come, from the tail of them on. -/
theorem Blocks.iterateBlocks (h : buffer.Blocks blocks) (callback : σ → UndoEntry P → Except ε σ)
    (newer : List (Nat × UndoBufferEntry P)) :
    ∀ {older : List (Nat × UndoBufferEntry P)} {old new : List (UndoEntry P)} {fuel : Nat} {s : σ},
      blocks = newer ++ older → Records older old → Records newer new → newer.length ≤ fuel →
      ∃ done rest, new = done ++ rest ∧
        StandsAfter blocks
          (buffer.iterateBlocks callback fuel (newer.getLast?.map Prod.fst) s).1 (old ++ done) ∧
        done.foldlM callback s =
          .ok (buffer.iterateBlocks callback fuel (newer.getLast?.map Prod.fst) s).2.1 ∧
        ((buffer.iterateBlocks callback fuel (newer.getLast?.map Prod.fst) s).2.2 = none →
          rest = []) ∧
        ∀ x, (buffer.iterateBlocks callback fuel (newer.getLast?.map Prod.fst) s).2.2 = some x →
          ∃ e rest', rest = e :: rest' ∧
            callback (buffer.iterateBlocks callback fuel (newer.getLast?.map Prod.fst) s).2.1 e =
              .error x := by
  induction newer using List.reverseRecOn with
  | nil =>
      intro older old new fuel s hblocks hold hnew _
      have hend : buffer.iterateBlocks callback fuel none s = (⟨none, 0, true⟩, s, none) := by
        cases fuel <;> rfl
      rw [List.nil_append] at hblocks
      subst hblocks
      rw [Records] at hnew
      subst hnew
      rw [List.getLast?_nil, Option.map_none, hend]
      refine ⟨[], [], rfl, ⟨rfl, Or.inl ⟨rfl, ?_⟩⟩, rfl, fun _ => rfl, fun x hx => by simp at hx⟩
      rwa [List.append_nil]
  | append_singleton newer x ih =>
      intro older old new fuel s hblocks hold hnew hfuel
      obtain ⟨a, m⟩ := x
      rw [List.append_assoc, List.singleton_append] at hblocks
      obtain ⟨here, later, rfl, hhere, hlater⟩ := Records.append.mp hnew
      obtain ⟨-, es, rfl, rfl, hes⟩ := hhere
      rw [List.nil_append] at *
      rw [List.length_append, List.length_singleton] at hfuel
      cases fuel with
      | zero => omega
      | succ fuel =>
          have hcell := (hblocks ▸ h.chain).cell_eq
          have hlen : es.length ≤ m.position := by
            have hle := hes.le
            omega
          obtain ⟨done, rest, hdoneRest, hdone, hfold, hnone, hsome⟩ :=
            hes.iterate callback s hlen
          simp only [List.getLast?_concat, Option.map_some, UndoBufferAllocator.iterateBlocks,
            hcell]
          rcases hrun : m.iterate a callback m.position 0 s with ⟨start, s', _ | x⟩
          · -- the block is done: its entries are behind those of the older blocks
            rw [hrun] at hdone hfold hnone
            obtain rfl := hnone rfl
            rw [List.append_nil] at hdoneRest
            subst hdoneRest
            obtain ⟨done', rest', rfl, hstands, hfold', hnone', hsome'⟩ :=
              @ih ((a, m) :: older) (old ++ es) later fuel s' hblocks ⟨old, es, rfl, hold, hes⟩
                hlater (by omega)
            refine ⟨es ++ done', rest', by rw [List.append_assoc], ?_, ?_, hnone', hsome'⟩
            · rw [← List.append_assoc]
              exact hstands
            · rw [List.foldlM_append, hfold]
              exact hfold'
          · rw [hrun] at hdone hfold hsome
            obtain ⟨e, rest', rfl, hthrow⟩ := hsome x rfl
            subst hdoneRest
            refine ⟨done, e :: rest' ++ later, List.append_assoc _ _ _,
              ⟨rfl, Or.inr ⟨newer, a, m, older, old, done, hblocks, rfl, hold, hdone, rfl⟩⟩,
              hfold, (by simp), fun y hy => ?_⟩
            obtain rfl : x = y := by simpa using hy
            exact ⟨e, rest' ++ later, rfl, hthrow⟩

/-- A run of `IterateEntries` has applied the entries of the log up to one that its callback
refuses, or all of them, and stands there. -/
theorem iterateEntries_spec (h : buffer.Blocks blocks) (hlog : Records blocks log)
    (callback : σ → UndoEntry P → Except ε σ) (s : σ) : ∃ done rest, log = done ++ rest ∧
      StandsAfter blocks (buffer.iterateEntries callback s).1 done ∧
      done.foldlM callback s = .ok (buffer.iterateEntries callback s).2.1 ∧
      ((buffer.iterateEntries callback s).2.2 = none → rest = []) ∧
      ∀ x, (buffer.iterateEntries callback s).2.2 = some x →
        ∃ e rest', rest = e :: rest' ∧
          callback (buffer.iterateEntries callback s).2.1 e = .error x := by
  have hrun := @Blocks.iterateBlocks _ _ _ _ _ h callback blocks [] [] log buffer.nextBlock s
    (List.append_nil _).symm rfl hlog h.length_le
  rw [← h.tail] at hrun
  exact hrun

/-! ## The way back -/

/-- The way back from a block that is read to its end. -/
theorem Blocks.reverseBlocks (h : buffer.Blocks blocks) {endState : IteratorState}
    (callback : σ → UndoEntry P → σ) :
    {older newer : List (Nat × UndoBufferEntry P)} → {old : List (UndoEntry P)} →
    {fuel : Nat} → (s : σ) → blocks = newer ++ older → Records older old → older.length ≤ fuel →
    (∀ x ∈ older, endState.current ≠ some x.1) →
    buffer.reverseBlocks endState callback fuel (older.head?.map Prod.fst) s =
      old.reverse.foldl callback s
  | [], newer, old, fuel, s, _, hold, _, _ => by
      rw [Records] at hold
      subst hold
      cases fuel <;> rfl
  | (a, m) :: older, newer, old, 0, s, _, _, hfuel, _ => by simp at hfuel
  | (a, m) :: older, newer, old, fuel + 1, s, hblocks, hold, hfuel, hend => by
      have hcell := (hblocks ▸ h.chain).cell_eq
      obtain ⟨before, here, rfl, hbefore, hhere⟩ := hold
      have hlen : here.length ≤ m.position := by
        have hle := hhere.le
        omega
      have hne : endState.current ≠ some a := hend (a, m) (by simp)
      have hsplit : blocks = (newer ++ [(a, m)]) ++ older := by rw [hblocks]; simp
      have hrest : older.length ≤ fuel := by simpa using hfuel
      have ih := h.reverseBlocks callback (here.reverse.foldl callback s) hsplit hbefore hrest
        fun x hx => hend x (List.mem_cons_of_mem _ hx)
      rw [List.head?_cons, Option.map_some, UndoBufferAllocator.reverseBlocks, hcell]
      simp only [if_neg hne, hhere.nodes hlen]
      rw [ih, List.reverse_append, List.foldl_append]

/-- `ReverseIterateEntries` meets exactly the entries behind which the run stands, the newest
first. -/
theorem reverseIterateEntries_spec (h : buffer.Blocks blocks) {state : IteratorState}
    {done : List (UndoEntry P)} (hstands : StandsAfter blocks state done)
    (callback : σ → UndoEntry P → σ) (s : σ) :
    buffer.reverseIterateEntries state callback s = done.reverse.foldl callback s := by
  obtain ⟨hstarted, ⟨hcurrent, hdone⟩ |
    ⟨newer, a, m, older, old, here, hblocks, hcurrent, hold, hhere, rfl⟩⟩ := hstands
  · rw [reverseIterateEntries, if_pos hstarted, hcurrent, h.chain.head_eq]
    exact h.reverseBlocks callback s (List.nil_append _).symm hdone h.length_le
      (by simp [hcurrent])
  · have hcell := (hblocks ▸ h.chain).cell_eq
    have hnodup := h.chain.nodup
    rw [hblocks, List.map_append, List.map_cons] at hnodup
    have hother : ∀ x ∈ older, state.current ≠ some x.1 := by
      intro x hx heq
      have ha : a = x.1 := by simpa [hcurrent] using heq
      exact (List.nodup_cons.mp (List.nodup_append.mp hnodup).2.1).1
        (List.mem_map.mpr ⟨x, hx, ha.symm⟩)
    have hfuel : older.length + 1 ≤ buffer.nextBlock := by
      have hle := h.length_le
      rw [hblocks, List.length_append, List.length_cons] at hle
      omega
    obtain ⟨fuel, hfuelEq⟩ := Nat.exists_eq_add_of_le' (Nat.le_trans (Nat.le_add_left 1 _) hfuel)
    have hlen : here.length ≤ state.start := by
      have hle := hhere.le
      omega
    have hsplit : blocks = (newer ++ [(a, m)]) ++ older := by rw [hblocks]; simp
    have hrest : older.length ≤ fuel := by omega
    have hback := h.reverseBlocks callback (here.reverse.foldl callback s) hsplit hold hrest hother
    rw [reverseIterateEntries, if_pos hstarted, hcurrent, hfuelEq]
    simp only [Option.isSome_some, if_true, UndoBufferAllocator.reverseBlocks, hcell, hcurrent,
      hhere.nodes hlen]
    rw [List.reverse_append, List.foldl_append, ← hback]

end UndoBufferAllocator

end MiniDuck
