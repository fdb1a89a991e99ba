import MiniDuck.ChunkInfo

/-!
# Column data collections

Rows that are stored in chunks of `STANDARD_VECTOR_SIZE`. `append_spec` says
that an append puts its rows behind those of the collection, however they
fall on chunks, and `scan_spec` what the next chunk of a scan is. Only the
last chunk of a collection can be empty, so that a scan before the end of
the collection finds a row.
-/

namespace MiniDuck

universe u

/-- A collection. Its chunks are all in one segment, which the first append creates. -/
structure ColumnDataCollection (α : Type u) where
  chunkData : List (List α)
  count : Nat

namespace ColumnDataCollection

variable {α : Type u}

/-! ## Appending -/

def empty : ColumnDataCollection α := ⟨[], 0⟩

/-- What is left of an append. A full chunk takes one turn of its own. -/
def appendWork (remaining count : Nat) : Nat :=
  2 * remaining + if count < standardVectorSize then 0 else 1

theorem appendWork_lt {remaining count : Nat} (h : 0 < remaining) :
    appendWork (remaining - min remaining (standardVectorSize - count)) 0 <
      appendWork remaining count := by
  have hsize : 0 < standardVectorSize := by decide
  rw [appendWork, appendWork, if_pos hsize]
  by_cases hroom : count < standardVectorSize
  · rw [if_pos hroom]
    omega
  · rw [if_neg hroom]
    omega

/-- The loop of `Append`, with the chunks before the last one and the last one. -/
def appendLoop (chunks : List (List α)) (back input : List α) : List (List α) :=
  if 0 < input.length then
    let amount := min input.length (standardVectorSize - back.length)
    let back := back ++ input.take amount
    let remaining := input.drop amount
    if 0 < remaining.length then appendLoop (chunks ++ [back]) [] remaining
    else chunks ++ [back]
  else chunks ++ [back]
termination_by appendWork input.length back.length
decreasing_by
  rw [List.length_drop]
  exact appendWork_lt (by assumption)

/-- `Append`, of the rows of a chunk. -/
def append (collection : ColumnDataCollection α) (input : List α) : ColumnDataCollection α :=
  let chunkData := if collection.chunkData = [] then [[]] else collection.chunkData
  { chunkData := appendLoop chunkData.dropLast (chunkData.getLastD []) input
    count := collection.count + input.length }

/-- The rows of a collection in order. -/
def rows (collection : ColumnDataCollection α) : List α := collection.chunkData.flatten

structure Valid (collection : ColumnDataCollection α) : Prop where
  full : ∀ chunk ∈ collection.chunkData.dropLast, chunk ≠ []
  count : collection.count = collection.rows.length

theorem valid_empty : (empty (α := α)).Valid := ⟨fun _ h => absurd h List.not_mem_nil, rfl⟩

theorem appendLoop_spec (chunks : List (List α)) (back input : List α)
    (h : ∀ chunk ∈ chunks, chunk ≠ []) :
    (appendLoop chunks back input).flatten = chunks.flatten ++ back ++ input ∧
      ∀ chunk ∈ (appendLoop chunks back input).dropLast, chunk ≠ [] := by
  have hend : ∀ back : List α, (chunks ++ [back]).flatten = chunks.flatten ++ back ∧
      ∀ chunk ∈ (chunks ++ [back]).dropLast, chunk ≠ [] := by
    intro back
    rw [List.dropLast_concat, List.flatten_append, List.flatten_singleton]
    exact ⟨rfl, h⟩
  rw [appendLoop]
  by_cases hpos : 0 < input.length
  · obtain ⟨amount, hamount⟩ :
        ∃ amount, amount = min input.length (standardVectorSize - back.length) := ⟨_, rfl⟩
    rw [if_pos hpos]
    simp only [← hamount]
    by_cases hmore : 0 < (input.drop amount).length
    · rw [if_pos hmore]
      have hback : back ++ input.take amount ≠ [] := by
        intro hnil
        have hlen := congrArg List.length hnil
        rw [List.length_append, List.length_take, List.length_nil] at hlen
        rw [List.length_drop] at hmore
        have hsize : 0 < standardVectorSize := by decide
        omega
      obtain ⟨hflatten, hfull⟩ := appendLoop_spec (chunks ++ [back ++ input.take amount]) []
        (input.drop amount) (List.forall_mem_append.mpr ⟨h, List.forall_mem_singleton.mpr hback⟩)
      refine ⟨?_, hfull⟩
      rw [hflatten, (hend _).1, List.append_nil, List.append_assoc, List.append_assoc,
        List.take_append_drop, List.append_assoc]
    · rw [if_neg hmore]
      have hall : input.take amount = input := by
        rw [List.length_drop] at hmore
        exact List.take_of_length_le (by omega)
      rw [(hend _).1, hall, List.append_assoc]
      exact ⟨rfl, (hend _).2⟩
  · rw [if_neg hpos]
    obtain rfl : input = [] := List.eq_nil_of_length_eq_zero (by omega)
    rw [(hend back).1, List.append_nil]
    exact ⟨rfl, (hend back).2⟩
termination_by appendWork input.length back.length
decreasing_by
  rw [List.length_drop, hamount]
  exact appendWork_lt hpos

/-- An append puts its rows behind those of the collection. -/
theorem append_spec {collection : ColumnDataCollection α} (h : collection.Valid)
    (input : List α) :
    (collection.append input).Valid ∧
      (collection.append input).rows = collection.rows ++ input := by
  obtain ⟨chunkData, hdata⟩ : ∃ chunkData, chunkData =
      if collection.chunkData = [] then [[]] else collection.chunkData := ⟨_, rfl⟩
  have hold : (∀ chunk ∈ chunkData.dropLast, chunk ≠ []) ∧ chunkData.flatten = collection.rows ∧
      chunkData ≠ [] := by
    rw [hdata, rows]
    split
    · rename_i hnil
      rw [hnil]
      exact ⟨fun _ h => absurd h List.not_mem_nil, rfl, List.cons_ne_nil _ _⟩
    · rename_i hne
      exact ⟨h.full, rfl, hne⟩
  obtain ⟨hfull, hrows, hne⟩ := hold
  have hlast : chunkData.getLastD [] = chunkData.getLast hne := by
    rw [List.getLastD_eq_getLast?, List.getLast?_eq_some_getLast hne, Option.getD_some]
  obtain ⟨hflatten, hfull'⟩ :=
    appendLoop_spec chunkData.dropLast (chunkData.getLast hne) input hfull
  have hsplit : chunkData.dropLast.flatten ++ chunkData.getLast hne = collection.rows := by
    conv_rhs => rw [← hrows, ← List.dropLast_append_getLast hne]
    rw [List.flatten_append, List.flatten_singleton]
  rw [hsplit] at hflatten
  have hdatas : (collection.append input).chunkData =
      appendLoop chunkData.dropLast (chunkData.getLast hne) input := by
    rw [append]
    simp only [← hdata, hlast]
  have happend : (collection.append input).rows = collection.rows ++ input := by
    rw [rows, hdatas, hflatten]
  refine ⟨⟨by rw [hdatas]; exact hfull', ?_⟩, happend⟩
  rw [happend, List.length_append, ← h.count]
  rfl

/-! ## Scanning -/

structure ColumnDataScanState where
  chunkIndex : Nat
  currentRowIndex : Nat
  nextRowIndex : Nat
  deriving Repr, DecidableEq

def initializeScan : ColumnDataScanState := ⟨0, 0, 0⟩

/-- `Scan`, through `NextScanIndex`. -/
def scan (collection : ColumnDataCollection α) (state : ColumnDataScanState) :
    Option (List α) × ColumnDataScanState :=
  match collection.chunkData[state.chunkIndex]? with
  | none => (none, { state with currentRowIndex := state.nextRowIndex })
  | some chunk => (some chunk, {
      chunkIndex := state.chunkIndex + 1
      currentRowIndex := state.nextRowIndex
      nextRowIndex := state.nextRowIndex + chunk.length })

/-- The number of rows before a chunk. -/
def rowsBefore (collection : ColumnDataCollection α) (k : Nat) : Nat :=
  (collection.chunkData.take k).flatten.length

variable {collection : ColumnDataCollection α} {state : ColumnDataScanState} {row : Nat}
  {chunk : List α}

/-- A scan is at a row, which is in the last chunk it has read or right behind it. -/
structure ScanAt (collection : ColumnDataCollection α) (state : ColumnDataScanState)
    (chunk : List α) (row : Nat) : Prop where
  next : state.nextRowIndex = collection.rowsBefore state.chunkIndex
  row_le : row ≤ state.nextRowIndex
  current : row < state.nextRowIndex → ∃ k, state.chunkIndex = k + 1 ∧
    collection.chunkData[k]? = some chunk ∧ state.currentRowIndex = collection.rowsBefore k ∧
      state.currentRowIndex ≤ row

theorem scanAt_initialize (collection : ColumnDataCollection α) (chunk : List α) :
    ScanAt collection initializeScan chunk 0 :=
  ⟨rfl, Nat.le_refl 0, fun h => absurd h (Nat.lt_irrefl 0)⟩

theorem rowsBefore_succ {k : Nat} (h : collection.chunkData[k]? = some chunk) :
    collection.rowsBefore (k + 1) = collection.rowsBefore k + chunk.length := by
  rw [rowsBefore, rowsBefore, List.take_add_one, h, List.flatten_append, List.length_append]
  simp

theorem ScanAt.step {row' : Nat} (h : ScanAt collection state chunk row) (hle : row ≤ row')
    (hnext : row' ≤ state.nextRowIndex) : ScanAt collection state chunk row' := by
  refine ⟨h.next, hnext, fun hlt => ?_⟩
  obtain ⟨k, hk, hchunk, hcurrent, hrow⟩ := h.current (by omega)
  exact ⟨k, hk, hchunk, hcurrent, by omega⟩

/-- Before the end of a collection there is a row in the chunk that a scan reads next. -/
theorem scan_spec (hvalid : collection.Valid) (h : ScanAt collection state chunk row)
    (hrow : state.nextRowIndex ≤ row) (hcount : row < collection.count) :
    ∃ chunk', (scan collection state).1 = some chunk' ∧
      ScanAt collection (scan collection state).2 chunk' row ∧
      row < (scan collection state).2.nextRowIndex := by
  have hnext := h.next
  have hle := h.row_le
  obtain ⟨rest, hrest⟩ : ∃ rest, rest = collection.chunkData.drop state.chunkIndex := ⟨_, rfl⟩
  have htotal : collection.count = state.nextRowIndex + rest.flatten.length := by
    rw [hvalid.count, rows, hnext, rowsBefore, hrest, ← List.length_append, ← List.flatten_append,
      List.take_append_drop]
  cases hcases : rest with
  | nil =>
      rw [hcases, List.flatten_nil, List.length_nil] at htotal
      omega
  | cons chunk' later =>
      rw [hcases] at hrest htotal
      have hget : collection.chunkData[state.chunkIndex]? = some chunk' := by
        rw [← List.head?_drop, ← hrest]
        rfl
      have hpos : 0 < chunk'.length := by
        cases later with
        | nil =>
            rw [List.flatten_singleton] at htotal
            omega
        | cons next later =>
            refine List.length_pos_of_ne_nil (hvalid.full chunk' ?_)
            refine List.mem_iff_getElem?.mpr ⟨state.chunkIndex, ?_⟩
            have hlen := congrArg List.length hrest
            rw [List.length_drop, List.length_cons, List.length_cons] at hlen
            rw [List.getElem?_dropLast, if_pos (by omega), hget]
      rw [scan, hget]
      refine ⟨chunk', rfl, ⟨?_, ?_, fun _ => ⟨state.chunkIndex, rfl, hget, hnext, hrow⟩⟩, ?_⟩
      · rw [rowsBefore_succ hget, hnext]
      · exact hle.trans (Nat.le_add_right ..)
      · simp only
        omega

/-- The chunk at hand holds the rows of the collection up to the next chunk. -/
theorem scan_rows (h : ScanAt collection state chunk row) (hrow : row < state.nextRowIndex) :
    chunk.length = state.nextRowIndex - state.currentRowIndex ∧ state.currentRowIndex ≤ row ∧
      ∀ n, row + n ≤ state.nextRowIndex →
        (chunk.drop (row - state.currentRowIndex)).take n = (collection.rows.drop row).take n := by
  obtain ⟨k, hk, hchunk, hcurrent, hle⟩ := h.current hrow
  have hnext := h.next
  rw [hk, rowsBefore_succ hchunk, ← hcurrent] at hnext
  refine ⟨by omega, hle, fun n hn => ?_⟩
  obtain ⟨hlt, hget⟩ := List.getElem?_eq_some_iff.mp hchunk
  have hsplit : collection.rows = (collection.chunkData.take k).flatten ++
      (chunk ++ (collection.chunkData.drop (k + 1)).flatten) := by
    rw [rows, ← List.flatten_cons, ← hget, ← List.drop_eq_getElem_cons hlt, ← List.flatten_append,
      List.take_append_drop]
  have hplace : row = (collection.chunkData.take k).flatten.length +
      (row - state.currentRowIndex) := by
    rw [← rowsBefore, ← hcurrent]
    omega
  rw [hsplit]
  conv_rhs => rw [hplace, ← List.drop_drop, List.drop_left' rfl]
  rw [List.drop_append_of_le_length (by omega), List.take_append_of_le_length]
  rw [List.length_drop]
  omega

end ColumnDataCollection

end MiniDuck
