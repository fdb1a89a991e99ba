import MiniDuck.ColumnDataCollection

/-!
# Buffered index operations

While an index is unbound, the rows that are inserted into it and deleted
from it are kept in two collections, and a list of ranges says in what
order. `Buffered` relates the three to the operations that were buffered,
and `bufferChunk_spec` keeps it. Once the index is bound,
`applyBufferedReplays` walks the ranges with a scan of each collection:
`replayRange_spec` says what it applies for one range.

A chunk is the list of its rows, with their row ids. The replay cuts the
rows into other chunks than they were buffered in.
-/

namespace MiniDuck

namespace IndexReplay

open ColumnDataCollection

variable {V σ : Type}

/-! ## Buffering -/

inductive Failure
  | internal (message : String)
  | noBuffer
  | noFuel
  deriving Repr, DecidableEq

inductive BufferedIndexReplay
  | insertEntry
  | delEntry
  deriving Repr, DecidableEq

/-- A row and its row id. A column that is not referenced has no value. -/
abbrev Row (V : Type) := List (Option V) × V

/-- A chunk in table layout, inserted or deleted. -/
structure IndexOperation (V : Type) where
  type : BufferedIndexReplay
  columnCount : Nat
  rows : List (Row V)

/-- Rows `start` to `stop` of the collection of a type. -/
structure ReplayRange where
  type : BufferedIndexReplay
  start : Nat
  stop : Nat
  deriving Repr, DecidableEq

structure BufferedIndexReplays (V : Type) where
  ranges : List ReplayRange
  bufferedInserts : Option (ColumnDataCollection (Row V))
  bufferedDeletes : Option (ColumnDataCollection (Row V))

namespace BufferedIndexReplays

def getBuffer (replays : BufferedIndexReplays V) :
    BufferedIndexReplay → Option (ColumnDataCollection (Row V))
  | .insertEntry => replays.bufferedInserts
  | .delEntry => replays.bufferedDeletes

def setBuffer (replays : BufferedIndexReplays V) (type : BufferedIndexReplay)
    (buffer : ColumnDataCollection (Row V)) : BufferedIndexReplays V :=
  match type with
  | .insertEntry => { replays with bufferedInserts := some buffer }
  | .delEntry => { replays with bufferedDeletes := some buffer }

def hasBufferedReplays (replays : BufferedIndexReplays V) : Bool := !replays.ranges.isEmpty

@[simp] theorem getBuffer_setBuffer (replays : BufferedIndexReplays V)
    (type type' : BufferedIndexReplay) (buffer : ColumnDataCollection (Row V)) :
    (replays.setBuffer type buffer).getBuffer type' =
      if type' = type then some buffer else replays.getBuffer type' := by
  cases type <;> cases type' <;> rfl

end BufferedIndexReplays

/-- The physical columns of an index, from a set of them. -/
structure MappedColumns where
  ids : List Nat
  nodup : ids.Nodup

structure UnboundIndex (V : Type) where
  name : String
  mappedColumnIds : MappedColumns
  bufferedReplays : BufferedIndexReplays V

def UnboundIndex.new (name : String) (mapped : MappedColumns) : UnboundIndex V :=
  ⟨name, mapped, ⟨[], none, none⟩⟩

/-- The ranges after `end - start` more rows of a type. -/
def extendRanges (ranges : List ReplayRange) (type : BufferedIndexReplay) (start stop : Nat) :
    List ReplayRange :=
  match ranges.getLast? with
  | some last =>
      if last.type ≠ type then ranges ++ [⟨type, start, stop⟩]
      else ranges.dropLast ++ [{ last with stop := stop }]
  | none => ranges ++ [⟨type, start, stop⟩]

/-- A row of the combined chunk, which has the columns of the index. -/
def combinedRow (mapped : List Nat) (row : Row V) : Row V :=
  (mapped.map fun col => (row.1[col]?).join, row.2)

def bufferChunk (index : UnboundIndex V) (operation : IndexOperation V) :
    Except Failure (UnboundIndex V) :=
  match index.mappedColumnIds.ids.find? (operation.columnCount ≤ ·) with
  | some col => .error (.internal ("UnboundIndex::BufferChunk: indexed column " ++ toString col ++
      " of index " ++ index.name ++ " is out of range for the table chunk"))
  | none =>
      let combinedChunk := operation.rows.map (combinedRow index.mappedColumnIds.ids)
      let replays := index.bufferedReplays
      let buffer := (replays.getBuffer operation.type).getD ColumnDataCollection.empty
      let start := buffer.count
      .ok { index with bufferedReplays :=
        { replays.setBuffer operation.type (buffer.append combinedChunk) with
          ranges := extendRanges replays.ranges operation.type start
            (start + combinedChunk.length) } }

/-! ## Replaying -/

/-- A bound index with the states that it goes through. An append may fail with a message. -/
structure BoundIndex (V σ : Type) where
  append : σ → List (Row V) → Except String σ
  delete : σ → List (Row V) → Except Failure σ

/-- `Append` with its error, or `Delete`. -/
def BoundIndex.perform (index : BoundIndex V σ) (s : σ) (operation : IndexOperation V) :
    Except Failure σ :=
  match operation.type with
  | .insertEntry =>
      match index.append s operation.rows with
      | .ok s => .ok s
      | .error message =>
          .error (.internal ("error while applying buffered appends: " ++ message))
  | .delEntry => index.delete s operation.rows

structure BufferedReplayState (V : Type) where
  buffer : Option (ColumnDataCollection (Row V))
  scanState : ColumnDataScanState
  currentChunk : List (Row V)
  scanInitialized : Bool

/-- A row of the table chunk, with the columns of the index in their places. -/
def tableRow (tableColumns : Nat) (mapped : List Nat) (row : Row V) : Row V :=
  ((mapped.zip row.1).foldl (fun table column => table.set column.1 column.2)
    (List.replicate tableColumns none), row.2)

/-- The next chunk of a buffer, if the current row is not in the last one. -/
def scanIfNeeded (state : BufferedReplayState V) (currentRow : Nat) :
    Except Failure (BufferedReplayState V) :=
  if currentRow ≥ state.scanState.nextRowIndex then
    match state.buffer with
    | none => .error .noBuffer
    | some buffer =>
        match (scan buffer state.scanState).1 with
        | some chunk =>
            .ok { state with scanState := (scan buffer state.scanState).2, currentChunk := chunk }
        | none => .error (.internal "Buffered index data exhausted during replay")
  else .ok state

def replayRange (index : BoundIndex V σ) (tableColumns : Nat) (mapped : List Nat)
    (type : BufferedIndexReplay) (stop : Nat) :
    Nat → BufferedReplayState V → Nat → σ → Except Failure (BufferedReplayState V × σ)
  | 0, state, currentRow, s => if currentRow < stop then .error .noFuel else .ok (state, s)
  | fuel + 1, state, currentRow, s =>
      if currentRow < stop then do
        let state ← scanIfNeeded state currentRow
        let offsetInChunk := currentRow - state.scanState.currentRowIndex
        let availableInChunk := state.currentChunk.length - offsetInChunk
        let rangeRemaining := stop - currentRow
        let rowsToProcess := min availableInChunk rangeRemaining
        match mapped.find? (tableColumns ≤ ·) with
        | some col => .error (.internal ("Attempted to access index " ++ toString col ++
            " within vector of size " ++ toString tableColumns))
        | none =>
            let rows := (state.currentChunk.drop offsetInChunk).take rowsToProcess
            let s ← index.perform s ⟨type, tableColumns, rows.map (tableRow tableColumns mapped)⟩
            replayRange index tableColumns mapped type stop fuel state
              (currentRow + rowsToProcess) s
      else .ok (state, s)

/-- The state of a scan, which the first range of its type initializes. -/
def initializeState (replays : BufferedIndexReplays V) (type : BufferedIndexReplay)
    (state : BufferedReplayState V) : BufferedReplayState V :=
  if state.scanInitialized then state
  else { state with
    buffer := replays.getBuffer type
    scanState := initializeScan
    scanInitialized := true }

/-- The ranges in order, with a scan for each type. -/
def replayRanges (index : BoundIndex V σ) (tableColumns : Nat) (mapped : List Nat)
    (replays : BufferedIndexReplays V) (fuel : Nat) :
    List ReplayRange → (BufferedIndexReplay → BufferedReplayState V) → σ → Except Failure σ
  | [], _, s => .ok s
  | range :: ranges, states, s => do
      let state := initializeState replays range.type (states range.type)
      let (state, s) ← replayRange index tableColumns mapped range.type range.stop fuel state
        range.start s
      replayRanges index tableColumns mapped replays fuel ranges
        (Function.update states range.type state) s

/-- `ApplyBufferedReplays`, for a table with some number of columns. -/
def applyBufferedReplays (index : BoundIndex V σ) (tableColumns : Nat)
    (replays : BufferedIndexReplays V) (mapped : List Nat) (fuel : Nat) (s : σ) :
    Except Failure σ :=
  if replays.hasBufferedReplays then
    replayRanges index tableColumns mapped replays fuel replays.ranges
      (fun _ => ⟨none, initializeScan, [], false⟩) s
  else .ok s

/-! ## What is buffered -/

/-- The rows of an operation as the index sees them, with what is done to them. -/
def IndexOperation.indexed (mapped : List Nat) (operation : IndexOperation V) :
    List (BufferedIndexReplay × Row V) :=
  operation.rows.map fun row => (operation.type, combinedRow mapped row)

/-- The rows of a buffer, which may not exist yet. -/
def BufferedIndexReplays.bufferRows (replays : BufferedIndexReplays V)
    (type : BufferedIndexReplay) : List (Row V) :=
  ((replays.getBuffer type).map ColumnDataCollection.rows).getD []

/-- The rows of a range, with what is done to them. -/
def rangeRows (buffer : BufferedIndexReplay → List (Row V)) (range : ReplayRange) :
    List (BufferedIndexReplay × Row V) :=
  (((buffer range.type).drop range.start).take (range.stop - range.start)).map
    fun row => (range.type, row)

def Contiguous : (BufferedIndexReplay → Nat) → List ReplayRange → (BufferedIndexReplay → Nat) → Prop
  | cursor, [], last => cursor = last
  | cursor, range :: ranges, last => range.start = cursor range.type ∧ range.start ≤ range.stop ∧
      Contiguous (Function.update cursor range.type range.stop) ranges last

/-- The buffers hold the rows of some operations, and the ranges say in what order. -/
structure Buffered (mapped : List Nat) (replays : BufferedIndexReplays V)
    (operations : List (IndexOperation V)) : Prop where
  valid : ∀ type buffer, replays.getBuffer type = some buffer → buffer.Valid
  columns : ∀ type, ∀ row ∈ replays.bufferRows type, row.1.length = mapped.length
  exists_buffer : ∀ range ∈ replays.ranges, ∃ buffer, replays.getBuffer range.type = some buffer
  contiguous : Contiguous (fun _ => 0) replays.ranges fun type => (replays.bufferRows type).length
  rows : replays.ranges.flatMap (rangeRows replays.bufferRows) =
    operations.flatMap (IndexOperation.indexed mapped)

variable {ranges : List ReplayRange}

theorem Contiguous.mono : {cursor last : BufferedIndexReplay → Nat} →
    Contiguous cursor ranges last → ∀ type, cursor type ≤ last type := by
  induction ranges with
  | nil =>
      rintro cursor last rfl type
      exact Nat.le_refl _
  | cons range ranges ih =>
      rintro cursor last ⟨hstart, hle, hrest⟩ type
      refine Nat.le_trans ?_ (ih hrest type)
      rw [Function.update_apply]
      split
      · rename_i heq
        rw [heq, ← hstart]
        exact hle
      · exact Nat.le_refl _

theorem Contiguous.stop_le :
    {cursor last : BufferedIndexReplay → Nat} → Contiguous cursor ranges last →
      ∀ range ∈ ranges, range.start ≤ range.stop ∧ range.stop ≤ last range.type := by
  induction ranges with
  | nil => exact fun _ _ h => absurd h List.not_mem_nil
  | cons range ranges ih =>
      rintro cursor last ⟨hstart, hle, hrest⟩ range' hrange'
      rcases List.mem_cons.mp hrange' with rfl | hmem
      · refine ⟨hle, ?_⟩
        have hmono := hrest.mono range'.type
        rwa [Function.update_self] at hmono
      · exact ih hrest range' hmem

theorem Contiguous.append {ranges' : List ReplayRange} :
    {cursor mid last : BufferedIndexReplay → Nat} → Contiguous cursor ranges mid →
      Contiguous mid ranges' last → Contiguous cursor (ranges ++ ranges') last := by
  induction ranges with
  | nil =>
      rintro cursor mid last rfl h
      exact h
  | cons range ranges ih =>
      rintro cursor mid last ⟨hstart, hle, hrest⟩ h
      exact ⟨hstart, hle, ih hrest h⟩

theorem Contiguous.split {ranges' : List ReplayRange} :
    {cursor last : BufferedIndexReplay → Nat} → Contiguous cursor (ranges ++ ranges') last →
      ∃ mid, Contiguous cursor ranges mid ∧ Contiguous mid ranges' last := by
  induction ranges with
  | nil => exact fun h => ⟨_, rfl, h⟩
  | cons range ranges ih =>
      rintro cursor last ⟨hstart, hle, hrest⟩
      obtain ⟨mid, hmid, hlast⟩ := ih hrest
      exact ⟨mid, ⟨hstart, hle, hmid⟩, hlast⟩

variable {range : ReplayRange}

theorem rangeRows_append {buffer : BufferedIndexReplay → List (Row V)}
    {type : BufferedIndexReplay} {new : List (Row V)}
    (h : range.start ≤ range.stop ∧ range.stop ≤ (buffer range.type).length) :
    rangeRows (Function.update buffer type (buffer type ++ new)) range =
      rangeRows buffer range := by
  rw [rangeRows, rangeRows, Function.update_apply]
  split
  · rename_i heq
    rw [heq] at h
    rw [heq, List.drop_append_of_le_length (by omega), List.take_append_of_le_length]
    rw [List.length_drop]
    omega
  · rfl

/-- More rows of a type extend the last range or begin a new one. -/
theorem extendRanges_spec {buffer : BufferedIndexReplay → List (Row V)}
    (type : BufferedIndexReplay) (new : List (Row V))
    (h : Contiguous (fun _ => 0) ranges fun type => (buffer type).length) :
    let buffer' := Function.update buffer type (buffer type ++ new)
    let ranges' := extendRanges ranges type (buffer type).length
      ((buffer type).length + new.length)
    Contiguous (fun _ => 0) ranges' (fun type => (buffer' type).length) ∧
      ranges'.flatMap (rangeRows buffer') =
        ranges.flatMap (rangeRows buffer) ++ new.map (fun row => (type, row)) ∧
      ∀ range ∈ ranges', range.type = type ∨ ∃ range' ∈ ranges, range'.type = range.type := by
  obtain ⟨buffer', hbuffer'⟩ : ∃ buffer', buffer' =
      Function.update buffer type (buffer type ++ new) := ⟨_, rfl⟩
  have hself : buffer' type = buffer type ++ new := by rw [hbuffer', Function.update_self]
  have hlength : (fun type => (buffer' type).length) =
      Function.update (fun type => (buffer type).length) type
        ((buffer type).length + new.length) := by
    funext type'
    rw [hbuffer', Function.update_apply, Function.update_apply]
    split
    · rw [List.length_append]
    · rfl
  have hold : ∀ range ∈ ranges, rangeRows buffer' range = rangeRows buffer range :=
    fun range hrange => hbuffer' ▸ rangeRows_append (h.stop_le range hrange)
  simp only [← hbuffer']
  unfold extendRanges
  -- a range of its own for the new rows
  obtain ⟨range, hrange⟩ : ∃ range : ReplayRange, range =
      ⟨type, (buffer type).length, (buffer type).length + new.length⟩ := ⟨_, rfl⟩
  have hnew : Contiguous (fun _ => 0) (ranges ++ [range]) (fun type => (buffer' type).length) ∧
      (ranges ++ [range]).flatMap (rangeRows buffer') = ranges.flatMap (rangeRows buffer) ++
        new.map (fun row => (type, row)) ∧
      ∀ range' ∈ ranges ++ [range],
        range'.type = type ∨ ∃ old ∈ ranges, old.type = range'.type := by
    subst hrange
    refine ⟨h.append ⟨rfl, Nat.le_add_right .., hlength.symm⟩, ?_, ?_⟩
    · rw [List.flatMap_append, List.flatMap_congr hold, List.flatMap_singleton, rangeRows]
      simp only
      rw [hself, Nat.add_sub_cancel_left, List.drop_left' rfl, List.take_of_length_le le_rfl]
    · intro range' hmem
      rcases List.mem_append.mp hmem with hmem | hmem
      · exact Or.inr ⟨range', hmem, rfl⟩
      · rw [List.mem_singleton.mp hmem]
        exact Or.inl rfl
  rw [← hrange]
  cases hlast : ranges.getLast? with
  | none => exact hnew
  | some last =>
      simp only
      by_cases htype : last.type ≠ type
      · rw [if_pos htype]
        exact hnew
      · obtain rfl : last.type = type := not_not.mp htype
        rw [if_neg htype]
        obtain ⟨init, rfl⟩ : ∃ init, ranges = init ++ [last] :=
          List.getLast?_eq_some_iff.mp hlast
        obtain ⟨mid, hmid, hstart, hle, hend⟩ := h.split
        have hstop : last.stop = (buffer last.type).length := by
          have := congrFun hend last.type
          rwa [Function.update_self] at this
        have hupdate : Function.update mid last.type
            ((buffer last.type).length + new.length) = fun type => (buffer' type).length := by
          rw [hlength, ← hend, Function.update_idem]
        rw [List.dropLast_concat]
        refine ⟨hmid.append ⟨hstart, by simp only; omega, hupdate⟩, ?_, fun range hrange => ?_⟩
        · have hinit : ∀ range ∈ init, rangeRows buffer' range = rangeRows buffer range :=
            fun range hrange => hold range (List.mem_append_left _ hrange)
          rw [List.flatMap_append, List.flatMap_append, List.flatMap_congr hinit,
            List.flatMap_singleton, List.flatMap_singleton, List.append_assoc]
          refine congrArg _ ?_
          rw [rangeRows, rangeRows, ← List.map_append]
          simp only
          refine congrArg _ ?_
          rw [hself, hstop, List.drop_append_of_le_length (by omega),
            List.take_of_length_le (by rw [List.length_append, List.length_drop]; omega),
            List.take_of_length_le (by rw [List.length_drop])]
        · rcases List.mem_append.mp hrange with hmem | hmem
          · exact Or.inr ⟨range, List.mem_append_left _ hmem, rfl⟩
          · rw [List.mem_singleton.mp hmem]
            exact Or.inl rfl

/-! ## One operation -/

variable {operation : IndexOperation V} {operations : List (IndexOperation V)}

theorem bufferChunk_spec {index : UnboundIndex V}
    (hbuffered : Buffered index.mappedColumnIds.ids index.bufferedReplays operations)
    (h : ∀ col ∈ index.mappedColumnIds.ids, col < operation.columnCount) :
    ∃ index', bufferChunk index operation = .ok index' ∧
      index'.mappedColumnIds = index.mappedColumnIds ∧
      Buffered index.mappedColumnIds.ids index'.bufferedReplays (operations ++ [operation]) := by
  obtain ⟨ids, hids⟩ : ∃ ids, ids = index.mappedColumnIds.ids := ⟨_, rfl⟩
  obtain ⟨replays, hreplays⟩ : ∃ replays, replays = index.bufferedReplays := ⟨_, rfl⟩
  rw [← hids, ← hreplays] at hbuffered
  rw [← hids] at h
  have hfind : ids.find? (operation.columnCount ≤ ·) = none := by
    refine List.find?_eq_none.mpr fun col hcol => ?_
    have hlt := h col hcol
    simpa using hlt
  obtain ⟨buffer, hbuffer⟩ : ∃ buffer, buffer =
      (replays.getBuffer operation.type).getD ColumnDataCollection.empty := ⟨_, rfl⟩
  -- the buffer, whether it is there already or new
  have hold : buffer.Valid ∧ buffer.rows = replays.bufferRows operation.type := by
    rw [BufferedIndexReplays.bufferRows]
    cases hget : replays.getBuffer operation.type with
    | none =>
        rw [hget, Option.getD_none] at hbuffer
        subst hbuffer
        exact ⟨valid_empty, rfl⟩
    | some old =>
        rw [hget, Option.getD_some] at hbuffer
        subst hbuffer
        exact ⟨hbuffered.valid _ _ hget, rfl⟩
  obtain ⟨hvalid, hrows⟩ := hold
  obtain ⟨added, hadded⟩ : ∃ added, added = operation.rows.map (combinedRow ids) := ⟨_, rfl⟩
  obtain ⟨hvalid', hrows'⟩ := append_spec hvalid added
  have hstart : buffer.count = (replays.bufferRows operation.type).length := by
    rw [hvalid.count, hrows]
  obtain ⟨hcontiguous, hflat, hmem⟩ := extendRanges_spec operation.type added hbuffered.contiguous
  rw [← hstart] at hcontiguous hflat hmem
  obtain ⟨replays', hreplays'⟩ : ∃ replays' : BufferedIndexReplays V, replays' =
      { replays.setBuffer operation.type (buffer.append added) with
        ranges := extendRanges replays.ranges operation.type buffer.count
          (buffer.count + added.length) } := ⟨_, rfl⟩
  have hget : ∀ type, replays'.getBuffer type = if type = operation.type then
      some (buffer.append added) else replays.getBuffer type := by
    intro type
    rw [← BufferedIndexReplays.getBuffer_setBuffer, hreplays']
    cases type <;> rfl
  have hbufferRows : replays'.bufferRows = Function.update replays.bufferRows operation.type
      (replays.bufferRows operation.type ++ added) := by
    funext type
    rw [BufferedIndexReplays.bufferRows, hget, Function.update_apply]
    split
    · rw [Option.map_some, Option.getD_some, hrows', hrows]
    · rfl
  have hranges : replays'.ranges = extendRanges replays.ranges operation.type buffer.count
      (buffer.count + added.length) := by rw [hreplays']
  refine ⟨{ index with bufferedReplays := replays' }, ?_, rfl, ?_⟩
  · rw [bufferChunk, ← hids, ← hreplays, hfind]
    simp only [← hbuffer, ← hadded, hreplays']
  · simp only
    rw [← hids]
    refine ⟨?_, ?_, ?_, ?_, ?_⟩
    · intro type buffer' hbuffer'
      rw [hget] at hbuffer'
      split at hbuffer'
      · obtain rfl := Option.some.inj hbuffer'
        exact hvalid'
      · exact hbuffered.valid type buffer' hbuffer'
    · intro type row hrow
      rw [hbufferRows, Function.update_apply] at hrow
      split at hrow
      · rcases List.mem_append.mp hrow with hmem | hmem
        · exact hbuffered.columns _ row hmem
        · rw [hadded] at hmem
          obtain ⟨old, -, rfl⟩ := List.mem_map.mp hmem
          exact List.length_map ..
      · exact hbuffered.columns type row hrow
    · intro range hrange
      rw [hranges] at hrange
      rw [hget]
      split
      · exact ⟨_, rfl⟩
      · rename_i hne
        rcases hmem range hrange with heq | ⟨old, hold, heq⟩
        · exact absurd heq hne
        · rw [← heq]
          exact hbuffered.exists_buffer old hold
    · rw [hranges, hbufferRows]
      exact hcontiguous
    · rw [hranges, hbufferRows, hflat, hbuffered.rows, List.flatMap_append,
        List.flatMap_singleton, IndexOperation.indexed, hadded, List.map_map]
      rfl

theorem bufferChunks_spec (operations : List (IndexOperation V)) :
    ∀ {index : UnboundIndex V} {before : List (IndexOperation V)},
      Buffered index.mappedColumnIds.ids index.bufferedReplays before →
      (∀ operation ∈ operations, ∀ col ∈ index.mappedColumnIds.ids,
        col < operation.columnCount) →
      ∃ index', operations.foldlM bufferChunk index = .ok index' ∧
        index'.mappedColumnIds = index.mappedColumnIds ∧
        Buffered index.mappedColumnIds.ids index'.bufferedReplays (before ++ operations) := by
  induction operations with
  | nil =>
      intro index before hbuffered _
      exact ⟨index, rfl, rfl, by rwa [List.append_nil]⟩
  | cons operation operations ih =>
      intro index before hbuffered h
      obtain ⟨index', hrun, hmapped, hbuffered'⟩ :=
        bufferChunk_spec hbuffered (h operation List.mem_cons_self)
      rw [← hmapped] at hbuffered' h
      obtain ⟨last, hlast, hmapped', hbuffered''⟩ :=
        ih hbuffered' fun operation hmem => h operation (List.mem_cons_of_mem _ hmem)
      rw [hmapped, List.append_assoc] at hbuffered''
      refine ⟨last, ?_, hmapped'.trans hmapped, hbuffered''⟩
      rw [List.foldlM_cons, hrun]
      exact hlast

theorem buffered_new (name : String) (mapped : MappedColumns) :
    Buffered mapped.ids (UnboundIndex.new (V := V) name mapped).bufferedReplays [] := by
  refine ⟨?_, ?_, ?_, ?_, rfl⟩
  · intro type buffer hbuffer
    cases type <;> exact absurd hbuffer (Option.some_ne_none buffer).symm
  · intro type row hrow
    cases type <;> exact absurd hrow List.not_mem_nil
  · intro range hrange
    exact absurd hrange List.not_mem_nil
  · funext type
    cases type <;> rfl

/-! ## One range -/

variable {mapped : List Nat} {tableColumns : Nat}

theorem foldl_set (pairs : List (Nat × Option V)) :
    ∀ table : List (Option V), (∀ p ∈ pairs, p.1 < table.length) → (pairs.map Prod.fst).Nodup →
      (∀ p ∈ pairs, (pairs.foldl (fun table p => table.set p.1 p.2) table)[p.1]? = some p.2) ∧
        ∀ col, col ∉ pairs.map Prod.fst →
          (pairs.foldl (fun table p => table.set p.1 p.2) table)[col]? = table[col]? := by
  induction pairs with
  | nil => exact fun _ _ _ => ⟨fun _ h => absurd h List.not_mem_nil, fun _ _ => rfl⟩
  | cons pair pairs ih =>
      intro table hlt hnodup
      obtain ⟨hnot, hnodup⟩ := List.nodup_cons.mp hnodup
      obtain ⟨hset, hothers⟩ := ih (table.set pair.1 pair.2) (by
        intro p hp
        rw [List.length_set]
        exact hlt p (List.mem_cons_of_mem _ hp)) hnodup
      constructor
      · intro p hp
        rcases List.mem_cons.mp hp with rfl | hmem
        · exact (hothers p.1 hnot).trans (List.getElem?_set_self (hlt p List.mem_cons_self))
        · exact hset p hmem
      · intro col hcol
        rw [List.map_cons, List.mem_cons, not_or] at hcol
        exact (hothers col hcol.2).trans (List.getElem?_set_ne (Ne.symm hcol.1))

/-- The index sees the row that was buffered. -/
theorem combinedRow_tableRow (hnodup : mapped.Nodup) (hlt : ∀ col ∈ mapped, col < tableColumns)
    {row : Row V} (hrow : row.1.length = mapped.length) :
    combinedRow mapped (tableRow tableColumns mapped row) = row := by
  have hfst : (mapped.zip row.1).map Prod.fst = mapped := List.map_fst_zip hrow.ge
  obtain ⟨hset, -⟩ := foldl_set (mapped.zip row.1) (List.replicate tableColumns none) (by
    intro p hp
    rw [List.length_replicate]
    exact hlt p.1 (List.of_mem_zip hp).1) (by rw [hfst]; exact hnodup)
  refine Prod.ext (List.ext_getElem ((List.length_map ..).trans hrow.symm) ?_) rfl
  intro i hi hi'
  have hmem : (mapped[i], row.1[i]) ∈ mapped.zip row.1 := by
    refine List.mem_iff_getElem.mpr ⟨i, by rw [List.length_zip]; omega, ?_⟩
    rw [List.getElem_zip]
  simp only [combinedRow, tableRow, List.getElem_map]
  rw [hset _ hmem]
  rfl

/-- A scan of a buffer is initialized and at a row. -/
structure Scanning (buffer : ColumnDataCollection (Row V)) (state : BufferedReplayState V)
    (row : Nat) : Prop where
  initialized : state.scanInitialized = true
  buffer_eq : state.buffer = some buffer
  scan : ScanAt buffer state.scanState state.currentChunk row

variable {buffer : ColumnDataCollection (Row V)}

/-- Before the end of its buffer, a scan gets to a chunk that has the current row. -/
theorem scanIfNeeded_spec {state : BufferedReplayState V} {row : Nat} (hvalid : buffer.Valid)
    (h : Scanning buffer state row) (hrow : row < buffer.count) :
    ∃ state', scanIfNeeded state row = .ok state' ∧ Scanning buffer state' row ∧
      row < state'.scanState.nextRowIndex := by
  rw [scanIfNeeded]
  by_cases hnext : row ≥ state.scanState.nextRowIndex
  · obtain ⟨chunk, hchunk, hscan, hlt⟩ := scan_spec hvalid h.scan hnext hrow
    rw [if_pos hnext, h.buffer_eq]
    simp only [hchunk]
    exact ⟨_, rfl, ⟨h.initialized, rfl, hscan⟩, hlt⟩
  · rw [if_neg hnext]
    exact ⟨state, rfl, h, Nat.lt_of_not_le hnext⟩

/-- The loop makes calls for the rows of its range, whatever the index does. -/
theorem replayRange_spec {stop : Nat} (type : BufferedIndexReplay) (hnodup : mapped.Nodup)
    (hlt : ∀ col ∈ mapped, col < tableColumns) (hvalid : buffer.Valid)
    (hcolumns : ∀ row ∈ buffer.rows, row.1.length = mapped.length) (hstop : stop ≤ buffer.count) :
    ∀ (work row : Nat) (state : BufferedReplayState V),
      stop - row = work → row ≤ stop → Scanning buffer state row →
      ∃ (calls : List (IndexOperation V)) (state' : BufferedReplayState V),
        calls.flatMap (IndexOperation.indexed mapped) =
          ((buffer.rows.drop row).take (stop - row)).map (fun row => (type, row)) ∧
        Scanning buffer state' stop ∧
        ∀ (σ : Type) (index : BoundIndex V σ) (s : σ) (fuel : Nat), stop - row ≤ fuel →
          replayRange index tableColumns mapped type stop fuel state row s =
            (calls.foldlM index.perform s).map fun s => (state', s) := by
  have hfind : mapped.find? (tableColumns ≤ ·) = none := by
    refine List.find?_eq_none.mpr fun col hcol => ?_
    have hlt := hlt col hcol
    simpa using hlt
  intro work
  induction work using Nat.strong_induction_on with
  | h work ih =>
      intro row state hwork hrow hscan
      by_cases hend : row < stop
      · obtain ⟨state', hif, hscan', hnext⟩ :=
          scanIfNeeded_spec hvalid hscan (Nat.lt_of_lt_of_le hend hstop)
        obtain ⟨hlength, hle, hrows⟩ := scan_rows hscan'.scan hnext
        obtain ⟨offset, hoffset⟩ : ∃ offset, offset = row - state'.scanState.currentRowIndex :=
          ⟨_, rfl⟩
        obtain ⟨n, hn⟩ : ∃ n, n = min (state'.currentChunk.length - offset) (stop - row) := ⟨_, rfl⟩
        have hroom : row + n ≤ state'.scanState.nextRowIndex := by omega
        have hslice := hrows n hroom
        rw [← hoffset] at hslice
        obtain ⟨call, hcall⟩ : ∃ call : IndexOperation V, call = ⟨type, tableColumns,
            ((state'.currentChunk.drop offset).take n).map (tableRow tableColumns mapped)⟩ :=
          ⟨_, rfl⟩
        have hindexed : call.indexed mapped =
            ((buffer.rows.drop row).take n).map fun row => (type, row) := by
          rw [hcall, IndexOperation.indexed, hslice, List.map_map]
          refine List.map_congr_left fun row hrow => ?_
          have hmem := List.mem_of_mem_drop (List.mem_of_mem_take hrow)
          exact congrArg (Prod.mk type) (combinedRow_tableRow hnodup hlt (hcolumns row hmem))
        obtain ⟨calls, state'', hcalls, hscan'', hrun⟩ :=
          ih (stop - (row + n)) (by omega) (row + n) state' rfl (by omega)
            ⟨hscan'.initialized, hscan'.buffer_eq,
              hscan'.scan.step (Nat.le_add_right ..) hroom⟩
        refine ⟨call :: calls, state'', ?_, hscan'', ?_⟩
        · have hsplit : stop - row = n + (stop - (row + n)) := by omega
          rw [List.flatMap_cons, hindexed, hcalls, ← List.map_append, ← List.drop_drop,
            ← List.take_add, ← hsplit]
        · intro σ index s fuel hfuel
          cases fuel with
          | zero => omega
          | succ fuel =>
              rw [replayRange, if_pos hend, hif]
              simp only [bind, Except.bind, ← hoffset, ← hn, hfind, ← hcall]
              rw [List.foldlM_cons]
              cases hperform : index.perform s call with
              | error failure => rfl
              | ok s' =>
                  simp only
                  rw [hrun σ index s' fuel (by omega)]
                  rfl
      · obtain rfl : row = stop := by omega
        refine ⟨[], state, ?_, hscan, ?_⟩
        · rw [Nat.sub_self, List.take_zero]
          rfl
        · intro σ index s fuel _
          cases fuel with
          | zero =>
              rw [replayRange, if_neg hend]
              rfl
          | succ fuel =>
              rw [replayRange, if_neg hend]
              rfl

/-! ## All ranges -/

/-- Both scans are at the rows that come next, or not initialized yet. -/
def ReplayAt (replays : BufferedIndexReplays V)
    (states : BufferedIndexReplay → BufferedReplayState V) (cursor : BufferedIndexReplay → Nat) :
    Prop :=
  ∀ type, ((states type).scanInitialized = false ∧ cursor type = 0) ∨
    ∃ buffer, replays.getBuffer type = some buffer ∧ Scanning buffer (states type) (cursor type)

variable {replays : BufferedIndexReplays V}

theorem initializeState_spec {states : BufferedIndexReplay → BufferedReplayState V}
    {cursor : BufferedIndexReplay → Nat} {type : BufferedIndexReplay}
    (h : ReplayAt replays states cursor) (hbuffer : replays.getBuffer type = some buffer) :
    Scanning buffer (initializeState replays type (states type)) (cursor type) := by
  rw [initializeState]
  rcases h type with ⟨hnone, hzero⟩ | ⟨buffer', hbuffer', hscan⟩
  · rw [if_neg (by rw [hnone]; exact Bool.false_ne_true), hzero]
    exact ⟨rfl, hbuffer, scanAt_initialize _ _⟩
  · rw [hbuffer] at hbuffer'
    obtain rfl := Option.some.inj hbuffer'
    rw [if_pos hscan.initialized]
    exact hscan

/-- The calls for the ranges, one range after the other. -/
theorem replayRanges_spec (hnodup : mapped.Nodup) (hlt : ∀ col ∈ mapped, col < tableColumns)
    (hbuffered : Buffered mapped replays operations) (ranges : List ReplayRange) :
    ∀ {states : BufferedIndexReplay → BufferedReplayState V}
      {cursor last : BufferedIndexReplay → Nat},
      (∀ range ∈ ranges, range ∈ replays.ranges) → Contiguous cursor ranges last →
      ReplayAt replays states cursor →
      ∃ calls : List (IndexOperation V), calls.flatMap (IndexOperation.indexed mapped) =
          ranges.flatMap (rangeRows replays.bufferRows) ∧
        ∀ (σ : Type) (index : BoundIndex V σ) (s : σ) (fuel : Nat),
          (∀ range ∈ ranges, range.stop - range.start ≤ fuel) →
          replayRanges index tableColumns mapped replays fuel ranges states s =
            calls.foldlM index.perform s := by
  induction ranges with
  | nil =>
      intro states cursor last _ _ _
      exact ⟨[], rfl, fun _ _ _ _ _ => rfl⟩
  | cons range ranges ih =>
      intro states cursor last hmem hcontiguous hat
      obtain ⟨hstart, hle, hrest⟩ := hcontiguous
      have hrange := hmem range List.mem_cons_self
      obtain ⟨buffer, hbuffer⟩ := hbuffered.exists_buffer range hrange
      have hvalid := hbuffered.valid _ _ hbuffer
      have hrows : replays.bufferRows range.type = buffer.rows := by
        rw [BufferedIndexReplays.bufferRows, hbuffer, Option.map_some, Option.getD_some]
      have hstop : range.stop ≤ buffer.count := by
        rw [hvalid.count, ← hrows]
        exact (hbuffered.contiguous.stop_le range hrange).2
      have hscan := initializeState_spec hat hbuffer
      rw [← hstart] at hscan
      obtain ⟨calls, state', hcalls, hscan', hrun⟩ :=
        replayRange_spec range.type hnodup hlt hvalid (hrows ▸ hbuffered.columns range.type) hstop
          _ range.start _ rfl hle hscan
      -- the other scan is where it was
      have hat' : ReplayAt replays (Function.update states range.type state')
          (Function.update cursor range.type range.stop) := by
        intro type
        simp only [Function.update_apply]
        split
        · rename_i heq
          rw [heq]
          exact Or.inr ⟨buffer, hbuffer, hscan'⟩
        · exact hat type
      obtain ⟨later, hlater, hruns⟩ :=
        ih (fun range hrange => hmem range (List.mem_cons_of_mem _ hrange)) hrest hat'
      refine ⟨calls ++ later, ?_, ?_⟩
      · rw [List.flatMap_append, List.flatMap_cons, hcalls, hlater, rangeRows, hrows]
      · intro σ index s fuel hfuel
        rw [replayRanges, hrun σ index s fuel (hfuel range List.mem_cons_self), List.foldlM_append]
        cases hfold : calls.foldlM index.perform s with
        | error failure => rfl
        | ok s' =>
            exact hruns σ index s' fuel fun range hrange =>
              hfuel range (List.mem_cons_of_mem _ hrange)

theorem range_le {range : ReplayRange} (h : Buffered mapped replays operations)
    (hrange : range ∈ replays.ranges) :
    range.stop - range.start ≤ (operations.map fun operation => operation.rows.length).sum := by
  have hrows := congrArg List.length h.rows
  rw [List.length_flatMap, List.length_flatMap] at hrows
  have hsum : (operations.map fun operation => (operation.indexed mapped).length) =
      operations.map fun operation => operation.rows.length := by
    refine List.map_congr_left fun operation _ => ?_
    rw [IndexOperation.indexed, List.length_map]
  have hlength : (rangeRows replays.bufferRows range).length = range.stop - range.start := by
    have hstop := (h.contiguous.stop_le range hrange).2
    rw [rangeRows, List.length_map, List.length_take, List.length_drop]
    omega
  rw [← hlength, ← hsum, ← hrows]
  exact List.le_sum_of_mem (List.mem_map_of_mem hrange)

/-- What was buffered is applied in the order that it was buffered in. -/
theorem applyBufferedReplays_order (name : String) (mapped : MappedColumns) (tableColumns : Nat)
    (hlt : ∀ col ∈ mapped.ids, col < tableColumns) (operations : List (IndexOperation V))
    (h : ∀ operation ∈ operations, ∀ col ∈ mapped.ids, col < operation.columnCount) :
    ∃ unbound, operations.foldlM bufferChunk (UnboundIndex.new name mapped) = .ok unbound ∧
      ∃ calls : List (IndexOperation V), calls.flatMap (IndexOperation.indexed mapped.ids) =
          operations.flatMap (IndexOperation.indexed mapped.ids) ∧
        ∀ (σ : Type) (index : BoundIndex V σ) (s : σ) (fuel : Nat),
          (operations.map fun operation => operation.rows.length).sum ≤ fuel →
          applyBufferedReplays index tableColumns unbound.bufferedReplays
            unbound.mappedColumnIds.ids fuel s = calls.foldlM index.perform s := by
  have hnew : Buffered (UnboundIndex.new (V := V) name mapped).mappedColumnIds.ids
      (UnboundIndex.new (V := V) name mapped).bufferedReplays [] := buffered_new name mapped
  obtain ⟨unbound, hrun, hmapped, hbuffered⟩ := bufferChunks_spec operations hnew h
  rw [List.nil_append] at hbuffered
  have hids : unbound.mappedColumnIds.ids = mapped.ids := by rw [hmapped]; rfl
  have hat : ReplayAt unbound.bufferedReplays (fun _ => ⟨none, initializeScan, [], false⟩)
      fun _ => 0 := fun _ => Or.inl ⟨rfl, rfl⟩
  obtain ⟨calls, hcalls, hreplay⟩ := replayRanges_spec mapped.nodup hlt hbuffered
    unbound.bufferedReplays.ranges (fun _ hrange => hrange) hbuffered.contiguous hat
  rw [hbuffered.rows] at hcalls
  refine ⟨unbound, hrun, calls, hcalls, ?_⟩
  intro σ index s fuel hfuel
  have hranges := hreplay σ index s fuel fun range hrange =>
    (range_le hbuffered hrange).trans hfuel
  rw [applyBufferedReplays, hids]
  split
  · exact hranges
  · rename_i hnone
    have hnil : unbound.bufferedReplays.ranges = [] := by
      rw [BufferedIndexReplays.hasBufferedReplays] at hnone
      simpa using hnone
    rw [hnil] at hranges
    exact hranges

/-- Two inserts, a delete and an insert on the second of two columns. -/
theorem applyBufferedReplays_order_four :
    let mapped : MappedColumns := ⟨[1], List.nodup_singleton 1⟩
    let operations : List (IndexOperation Nat) :=
      [⟨.insertEntry, 2, [([none, some 10], 0), ([none, some 11], 1)]⟩,
        ⟨.insertEntry, 2, [([none, some 12], 2)]⟩,
        ⟨.delEntry, 2, [([none, some 11], 1)]⟩,
        ⟨.insertEntry, 2, [([none, some 13], 3)]⟩]
    ∃ unbound, operations.foldlM bufferChunk (UnboundIndex.new "i" mapped) = .ok unbound ∧
      ∃ calls : List (IndexOperation Nat), calls.flatMap (IndexOperation.indexed [1]) =
          [(.insertEntry, [some 10], 0), (.insertEntry, [some 11], 1),
            (.insertEntry, [some 12], 2), (.delEntry, [some 11], 1),
            (.insertEntry, [some 13], 3)] ∧
        ∀ (σ : Type) (index : BoundIndex Nat σ) (s : σ) (fuel : Nat), 5 ≤ fuel →
          applyBufferedReplays index 2 unbound.bufferedReplays unbound.mappedColumnIds.ids fuel s =
            calls.foldlM index.perform s :=
  applyBufferedReplays_order "i" ⟨[1], List.nodup_singleton 1⟩ 2 (by decide) _ (by decide)

end IndexReplay

end MiniDuck
