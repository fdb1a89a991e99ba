import MiniDuck.IndexEntry
import MiniDuck.Lts

/-!
# Index changes while checkpoints start, merge and finish

Appends, removals and their reverts reach one `IndexEntry` in any order,
and a checkpoint may start or finish between any two of them. The run
records for each row what happened to it: `late` rows were appended
while the deltas were in use, a removed row may have been removed while
they were in use (`during`) and may be kept for other transactions
(`retained`).

`IndexInv` says where the entry of each row is. The main index has the
early rows, those removed during the checkpoint among them; these are
also in `removedData`; the late rows are in `addedData`. Each operation
moves the rows of its chunk (`has_keep`, `has_gain`, `has_lose`).

The code keeps the invariant in runs whose steps are `Safe`, a condition
that it does not ensure (`mixed_removal_fails`).
-/

namespace MiniDuck

inductive RowStatus
  | live
  | removed (retained during : Bool)
  deriving Repr, DecidableEq

/-- What happened to a row: its key, whether it was appended while the deltas were in use, and
whether it has been removed. -/
structure IndexRow (κ : Type) where
  key : Option κ
  late : Bool
  status : RowStatus
  deriving Repr, DecidableEq

namespace IndexRow

variable {κ : Type}

def live (row : IndexRow κ) : Bool :=
  match row.status with
  | .live => true
  | .removed _ _ => false

def during (row : IndexRow κ) : Bool :=
  match row.status with
  | .live => false
  | .removed _ during => during

def retained (row : IndexRow κ) : Bool :=
  match row.status with
  | .live => false
  | .removed retained _ => retained

def inMain (row : IndexRow κ) : Bool := !row.late && (row.live || row.during)

def inRemoved (row : IndexRow κ) : Bool := !row.late && row.during

def inAdded (row : IndexRow κ) : Bool := row.late && row.live

def settle (row : IndexRow κ) : IndexRow κ :=
  match row.status with
  | .live => { row with late := false }
  | .removed retained _ => ⟨row.key, false, .removed retained false⟩

end IndexRow

/-! ## The record of the rows -/

section Record

variable {κ : Type}

def updateRows (g : Option κ → Option (IndexRow κ) → Option (IndexRow κ)) (chunk : IndexChunk κ)
    (rows : Nat → Option (IndexRow κ)) : Nat → Option (IndexRow κ) := fun r =>
  match chunk.find? fun x => decide (x.2 = r) with
  | some x => g x.1 (rows r)
  | none => rows r

variable {g : Option κ → Option (IndexRow κ) → Option (IndexRow κ)} {chunk : IndexChunk κ}
  {rows rows' : Nat → Option (IndexRow κ)} {p : IndexRow κ → Bool}

theorem updateRows_mem (h : (chunk.map Prod.snd).Nodup) {x : Option κ × Nat} (hx : x ∈ chunk) :
    updateRows g chunk rows x.2 = g x.1 (rows x.2) := by
  unfold updateRows
  cases hf : chunk.find? fun y => decide (y.2 = x.2) with
  | none => exact absurd (List.find?_eq_none.mp hf x hx) (by simp)
  | some y =>
      have hyx : y.2 = x.2 := by simpa using List.find?_some hf
      rw [List.inj_on_of_nodup_map h (List.mem_of_find?_eq_some hf) hx hyx]

theorem updateRows_of_not_mem {r : Nat} (h : ∀ x ∈ chunk, x.2 ≠ r) :
    updateRows g chunk rows r = rows r := by
  unfold updateRows
  rw [List.find?_eq_none.mpr]
  simpa using h

/-- A property of all rows stays when the changed rows have it. -/
theorem updateRows_forall {Q : IndexRow κ → Prop} (hnodup : (chunk.map Prod.snd).Nodup)
    (hold : ∀ r row, rows r = some row → Q row)
    (hnew : ∀ x ∈ chunk, ∀ row, g x.1 (rows x.2) = some row → Q row) :
    ∀ r row, updateRows g chunk rows r = some row → Q row := by
  intro r row hrow
  by_cases hr : ∃ x ∈ chunk, x.2 = r
  · obtain ⟨x, hx, rfl⟩ := hr
    rw [updateRows_mem hnodup hx] at hrow
    exact hnew x hx row hrow
  · rw [updateRows_of_not_mem fun x hx hxr => hr ⟨x, hx, hxr⟩] at hrow
    exact hold r row hrow

/-- Some row with this key and row id has the property. -/
def HasRow (p : IndexRow κ → Bool) (rows : Nat → Option (IndexRow κ)) (e : κ × Nat) : Prop :=
  ∃ row, rows e.2 = some row ∧ row.key = some e.1 ∧ p row = true

/-- The rows of the chunk, and no others, change; their keys are those of the chunk, and whether
those with a key have the property goes from `u` to `v`. -/
structure Moved (p : IndexRow κ → Bool) (chunk : IndexChunk κ)
    (rows rows' : Nat → Option (IndexRow κ)) (u v : Bool) : Prop where
  nodup : (chunk.map Prod.snd).Nodup
  others : ∀ r, (∀ x ∈ chunk, x.2 ≠ r) → rows' r = rows r
  keyBefore : ∀ x ∈ chunk, ∀ row, rows x.2 = some row → row.key = x.1
  keyAfter : ∀ x ∈ chunk, ∀ row, rows' x.2 = some row → row.key = x.1
  before : ∀ x ∈ chunk, x.1 ≠ none → (rows x.2).any p = u
  after : ∀ x ∈ chunk, x.1 ≠ none → (rows' x.2).any p = v

theorem hasRow_of_mem {u : Bool} {e : κ × Nat}
    (hkey : ∀ x ∈ chunk, ∀ row, rows x.2 = some row → row.key = x.1)
    (hany : ∀ x ∈ chunk, x.1 ≠ none → (rows x.2).any p = u) (he : (some e.1, e.2) ∈ chunk) :
    HasRow p rows e ↔ u = true := by
  rw [← hany _ he (by simp), Option.any_eq_true]
  constructor
  · rintro ⟨row, hrow, -, hp⟩
    exact ⟨row, hrow, hp⟩
  · rintro ⟨row, hrow, hp⟩
    exact ⟨row, hrow, hkey _ he row hrow, hp⟩

theorem Moved.hasRow_of_not_mem {u v : Bool} {e : κ × Nat} (h : Moved p chunk rows rows' u v)
    (he : (some e.1, e.2) ∉ chunk) : HasRow p rows' e ↔ HasRow p rows e := by
  by_cases hr : ∃ x ∈ chunk, x.2 = e.2
  · -- the row id is in the chunk with another key
    obtain ⟨x, hx, hxr⟩ := hr
    have hne : x.1 ≠ some e.1 := by
      intro hk
      have : x = (some e.1, e.2) := Prod.ext hk hxr
      exact he (this ▸ hx)
    constructor
    · rintro ⟨row, hrow, hk, -⟩
      rw [← hxr] at hrow
      exact absurd ((h.keyAfter x hx row hrow).symm.trans hk) hne
    · rintro ⟨row, hrow, hk, -⟩
      rw [← hxr] at hrow
      exact absurd ((h.keyBefore x hx row hrow).symm.trans hk) hne
  · unfold HasRow
    rw [h.others e.2 fun x hx hxr => hr ⟨x, hx, hxr⟩]

theorem moved_updateRows {u v : Bool} (hnodup : (chunk.map Prod.snd).Nodup)
    (hkeyBefore : ∀ x ∈ chunk, ∀ row, rows x.2 = some row → row.key = x.1)
    (hkeyAfter : ∀ x ∈ chunk, ∀ row, g x.1 (rows x.2) = some row → row.key = x.1)
    (hbefore : ∀ x ∈ chunk, x.1 ≠ none → (rows x.2).any p = u)
    (hafter : ∀ x ∈ chunk, x.1 ≠ none → (g x.1 (rows x.2)).any p = v) :
    Moved p chunk rows (updateRows g chunk rows) u v where
  nodup := hnodup
  others r hr := updateRows_of_not_mem hr
  keyBefore := hkeyBefore
  keyAfter x hx row hrow := by
    rw [updateRows_mem hnodup hx] at hrow
    exact hkeyAfter x hx row hrow
  before := hbefore
  after x hx hkey := by
    rw [updateRows_mem hnodup hx]
    exact hafter x hx hkey

theorem moved_rows {u v : Bool} (hnodup : (chunk.map Prod.snd).Nodup)
    (h : ∀ x ∈ chunk, ∃ row row', rows x.2 = some row ∧ g x.1 (some row) = some row' ∧
      row.key = x.1 ∧ row'.key = x.1 ∧ p row = u ∧ p row' = v) :
    Moved p chunk rows (updateRows g chunk rows) u v := by
  refine moved_updateRows hnodup ?_ ?_ ?_ ?_
  · intro x hx row hrow
    obtain ⟨row₀, _, hrow₀, -, hk, -⟩ := h x hx
    obtain rfl := Option.some.inj (hrow₀.symm.trans hrow)
    exact hk
  · intro x hx row hrow
    obtain ⟨row₀, row', hrow₀, hg, -, hk, -⟩ := h x hx
    rw [hrow₀, hg] at hrow
    obtain rfl := Option.some.inj hrow
    exact hk
  · intro x hx _
    obtain ⟨row₀, _, hrow₀, -, -, -, hu, -⟩ := h x hx
    simpa [hrow₀] using hu
  · intro x hx _
    obtain ⟨row₀, row', hrow₀, hg, -, -, -, hv⟩ := h x hx
    simpa [hrow₀, hg] using hv

/-- The rows of the chunk go from one status to another and stay early or late. -/
theorem moved_status {u v late : Bool} {status status' : RowStatus}
    (hnodup : (chunk.map Prod.snd).Nodup)
    (hrows : ∀ x ∈ chunk, rows x.2 = some ⟨x.1, late, status⟩)
    (hg : ∀ key, g key (some ⟨key, late, status⟩) = some ⟨key, late, status'⟩ :=
      by exact fun _ => rfl)
    (hu : ∀ key, p ⟨key, late, status⟩ = u := by exact fun _ => rfl)
    (hv : ∀ key, p ⟨key, late, status'⟩ = v := by exact fun _ => rfl) :
    Moved p chunk rows (updateRows g chunk rows) u v :=
  moved_rows hnodup fun x hx => ⟨_, _, hrows x hx, hg x.1, rfl, rfl, hu x.1, hv x.1⟩

/-- A property of all rows stays when the new status has it. -/
theorem forall_status {Q : IndexRow κ → Prop} {late : Bool} {status status' : RowStatus}
    (hnodup : (chunk.map Prod.snd).Nodup)
    (hrows : ∀ x ∈ chunk, rows x.2 = some ⟨x.1, late, status⟩)
    (hg : ∀ key, g key (some ⟨key, late, status⟩) = some ⟨key, late, status'⟩)
    (hold : ∀ r row, rows r = some row → Q row) (hnew : ∀ key, Q ⟨key, late, status'⟩) :
    ∀ r row, updateRows g chunk rows r = some row → Q row :=
  updateRows_forall hnodup hold fun x hx row hrow => by
    rw [hrows x hx, hg] at hrow
    obtain rfl := Option.some.inj hrow
    exact hnew x.1

/-- The index has the entries of the rows with the property, each once. -/
structure Stores (p : IndexRow κ → Bool) (index : BoundIndex κ)
    (rows : Nat → Option (IndexRow κ)) : Prop where
  nodup : index.entries.Nodup
  mem : ∀ e, e ∈ index.entries ↔ HasRow p rows e

variable {index : BoundIndex κ}

theorem Stores.keep {u : Bool} (h : Stores p index rows) (hm : Moved p chunk rows rows' u u) :
    Stores p index rows' where
  nodup := h.nodup
  mem e := by
    rw [h.mem]
    by_cases he : (some e.1, e.2) ∈ chunk
    · rw [hasRow_of_mem hm.keyBefore hm.before he, hasRow_of_mem hm.keyAfter hm.after he]
    · exact (hm.hasRow_of_not_mem he).symm

/-- None of the rows that come in is there yet. -/
theorem Stores.nodup_append {v : Bool} (h : Stores p index rows)
    (hm : Moved p chunk rows rows' false v) : (index.entries ++ chunkEntries chunk).Nodup := by
  refine List.nodup_append.mpr ⟨h.nodup, nodup_chunkEntries hm.nodup, ?_⟩
  rintro e he e' he' rfl
  have := (hasRow_of_mem hm.keyBefore hm.before (mem_chunkEntries.mp he')).mp ((h.mem e).mp he)
  exact absurd this (by simp)

theorem Stores.gain (h : Stores p index rows) (hm : Moved p chunk rows rows' false true) :
    Stores p (index.withRows chunk) rows' where
  nodup := h.nodup_append hm
  mem e := by
    rw [BoundIndex.mem_withRows, h.mem]
    by_cases he : (some e.1, e.2) ∈ chunk
    · simp [he, hasRow_of_mem hm.keyAfter hm.after he]
    · simp [he, hm.hasRow_of_not_mem he]

theorem Stores.lose [DecidableEq κ] (h : Stores p index rows)
    (hm : Moved p chunk rows rows' true false) :
    Stores p (index.withoutRows chunk) rows' where
  nodup := h.nodup.filter _
  mem e := by
    rw [BoundIndex.mem_withoutRows, h.mem]
    by_cases he : (some e.1, e.2) ∈ chunk
    · simp [he, hasRow_of_mem hm.keyAfter hm.after he]
    · simp [he, hm.hasRow_of_not_mem he]

/-- Rows with the property are all in the index, rows without it are not. -/
theorem Stores.mem_of_moved {v : Bool} (h : Stores p index rows)
    (hm : Moved p chunk rows rows' true v) : ∀ e ∈ chunkEntries chunk, e ∈ index.entries :=
  fun e he => (h.mem e).mpr
    ((hasRow_of_mem hm.keyBefore hm.before (mem_chunkEntries.mp he)).mpr rfl)

theorem Stores.not_mem_of_moved {v : Bool} (h : Stores p index rows)
    (hm : Moved p chunk rows rows' false v) : ∀ e ∈ chunkEntries chunk, e ∉ index.entries :=
  fun e he hmem => absurd ((hasRow_of_mem hm.keyBefore hm.before (mem_chunkEntries.mp he)).mp
    ((h.mem e).mp hmem)) (by simp)

end Record

/-! ## Runs -/

/-- The index entry, the running checkpoint, the next checkpoint id, and the record of the rows
by row id. -/
structure IndexRun (κ : Type) where
  entry : IndexEntry κ
  active : Option Nat
  nextCheckpoint : Nat
  rows : Nat → Option (IndexRow κ)

inductive IndexOp (κ : Type)
  | start
  | finish
  | append (chunk : IndexChunk κ) (deleteEntry : Option (BoundIndex κ)) (mode : IndexAppendMode)
  | revertAppend (chunk : IndexChunk κ)
  | removeFromIndex (chunk : IndexChunk κ) (removal : IndexRemovalType)
  | merge

namespace IndexRun

variable {κ : Type} [DecidableEq κ]

def inUse (s : IndexRun κ) : Bool := s.entry.shouldUse s.active

/-- The record of a removed row, by the kind of the removal. -/
def afterRemoval (s : IndexRun κ) (removal : IndexRemovalType) (row : IndexRow κ) : IndexRow κ :=
  match removal with
  | .mainIndexOnly => { row with status := .removed false s.inUse }
  | .mainIndex => { row with status := .removed true s.inUse }
  | .revertMainIndexOnly => { row with status := .live }
  | .revertMainIndex => { row with status := .live }
  | .deletedRowsInUse => { row with status := .removed false row.during }

/-- An operation that throws leaves the record of the rows as it is. -/
def after (s : IndexRun κ) (res : IndexEntry κ × Option IndexError)
    (rows : Nat → Option (IndexRow κ)) : IndexRun κ × Option IndexError :=
  ({ s with entry := res.1, rows := if res.2 = none then rows else s.rows }, res.2)

def exec (s : IndexRun κ) : IndexOp κ → IndexRun κ × Option IndexError
  | .start =>
      ({ s with active := some s.nextCheckpoint, nextCheckpoint := s.nextCheckpoint + 1 }, none)
  | .finish => ({ s with active := none }, none)
  | .append chunk deleteEntry mode =>
      s.after (s.entry.append chunk deleteEntry mode s.active)
        (updateRows (fun key _ => some ⟨key, s.inUse, .live⟩) chunk s.rows)
  | .revertAppend chunk =>
      s.after (s.entry.revertAppend chunk) (updateRows (fun _ _ => none) chunk s.rows)
  | .removeFromIndex chunk removal =>
      s.after (s.entry.removeFromIndex chunk removal s.active)
        (updateRows (fun _ row => row.map (s.afterRemoval removal)) chunk s.rows)
  | .merge =>
      s.after (s.entry.mergeCheckpointDeltas s.active) fun r => (s.rows r).map IndexRow.settle

/-- The rows that a removal of each kind may be given. All rows of a removal were appended before
the deltas came into use, or all after that. -/
def Removable (s : IndexRun κ) (chunk : IndexChunk κ) : IndexRemovalType → Prop
  | .mainIndexOnly | .mainIndex => ∃ late, ∀ x ∈ chunk, s.rows x.2 = some ⟨x.1, late, .live⟩
  | .revertMainIndexOnly =>
      ∃ late, ∀ x ∈ chunk, ∃ during, s.rows x.2 = some ⟨x.1, late, .removed false during⟩
  | .revertMainIndex =>
      ∃ late, ∀ x ∈ chunk, ∃ during, s.rows x.2 = some ⟨x.1, late, .removed true during⟩
  | .deletedRowsInUse =>
      ∀ x ∈ chunk, ∃ late during, s.rows x.2 = some ⟨x.1, late, .removed true during⟩

/-- What the callers ensure. Appended rows have fresh row ids, a transaction's delete index has
one row id for each key, of rows that exist; reverts and removals are given rows that are
there. -/
def Legal (s : IndexRun κ) : IndexOp κ → Prop
  | .start => s.active = none
  | .finish => s.active ≠ none
  | .append chunk deleteEntry _ => (chunk.map Prod.snd).Nodup ∧ (∀ x ∈ chunk, s.rows x.2 = none) ∧
      ∀ d ∈ deleteEntry, (∀ k, (d.rowIds k).length ≤ 1) ∧ ∀ e ∈ d.entries, s.rows e.2 ≠ none
  | .revertAppend chunk => (chunk.map Prod.snd).Nodup ∧
      ∀ x ∈ chunk, ∃ late, s.rows x.2 = some ⟨x.1, late, .live⟩
  | .removeFromIndex chunk removal => (chunk.map Prod.snd).Nodup ∧ s.Removable chunk removal
  | .merge => True

end IndexRun

variable {κ : Type} [DecidableEq κ]

/-- The keys of the chunk are all NULL, or none is. -/
def Unmixed (chunk : IndexChunk κ) : Prop :=
  (∀ x ∈ chunk, x.1 = none) ∨ ∀ x ∈ chunk, x.1 ≠ none

/-- The main index minus the removed rows plus the added rows. -/
def IndexEntry.visible (entry : IndexEntry κ) : List (κ × Nat) :=
  (entry.index.entries.filter fun e => decide (e ∉ entry.getOrCreateRemoved.entries)) ++
    entry.getOrCreateAdded.entries

namespace IndexRun

open BoundIndex

def appendTarget (s : IndexRun κ) : BoundIndex κ :=
  if s.inUse then s.entry.getOrCreateAdded else s.entry.index

/-- The steps that do not run into a defect of the code. -/
def Safe (s : IndexRun κ) : IndexOp κ → Prop
  | .start => True
  | .finish => s.entry.addedData = none ∧ s.entry.removedData = none
  | .append chunk deleteEntry mode =>
      (s.inUse = true → s.entry.index.unique = true →
        ∀ k ∈ chunkKeys chunk, (s.entry.index.rowIds k).length ≤ 1) ∧
      if mode = .default then GateFree s.appendTarget deleteEntry.toList chunk
      else Room mode s.appendTarget chunk
  | .revertAppend chunk => s.entry.addedData ≠ none →
      ∀ x ∈ chunk, x.1 = none ∨ s.rows x.2 = some ⟨x.1, true, .live⟩
  | .removeFromIndex chunk removal =>
      match removal with
      | .mainIndexOnly | .mainIndex =>
          s.inUse = true → (∀ x ∈ chunk, s.rows x.2 = some ⟨x.1, false, .live⟩) →
            (s.entry.addedData ≠ none → Unmixed chunk) ∧
            Room .default s.entry.getOrCreateRemoved chunk
      | .revertMainIndexOnly | .revertMainIndex =>
          if s.inUse then
            (∀ x ∈ chunk, ∀ row, s.rows x.2 = some row → row.during = true) ∧
            ((∀ x ∈ chunk, ∀ row, s.rows x.2 = some row → row.late = true) →
              Unmixed chunk ∧ Room .default s.entry.getOrCreateAdded chunk)
          else Room .default s.entry.index chunk
      | .deletedRowsInUse => True
  | .merge => s.entry.index.unique = true →
      ∀ k, (s.entry.visible.filter fun e => decide (e.1 = k)).length ≤ 2

end IndexRun

/-! ## The invariant -/

/-- Where the entries of the rows are, and when there are deltas. -/
structure Placed (entry : IndexEntry κ) (active : Option Nat)
    (rows : Nat → Option (IndexRow κ)) : Prop where
  main : Stores IndexRow.inMain entry.index rows
  removed : Stores IndexRow.inRemoved entry.getOrCreateRemoved rows
  added : Stores IndexRow.inAdded entry.getOrCreateAdded rows
  removedUnique : entry.getOrCreateRemoved.unique = entry.index.unique
  addedUnique : entry.getOrCreateAdded.unique = entry.index.unique
  late : ∀ r row, rows r = some row → row.late = true → entry.addedData ≠ none
  during : ∀ r row, rows r = some row → row.during = true → entry.removedData ≠ none
  idle : entry.shouldUse active = false → entry.addedData = none ∧ entry.removedData = none

/-- The removed rows that other transactions may still need. -/
structure Retained (deletedRows : BoundIndex κ) (rows : Nat → Option (IndexRow κ)) : Prop where
  stores : Stores IndexRow.retained deletedRows rows
  unique : deletedRows.unique = false

structure IndexInv (s : IndexRun κ) : Prop where
  placed : Placed s.entry s.active s.rows
  retained : Retained s.entry.getOrCreateDeletedRows s.rows

section Steps

variable {s : IndexRun κ} {entry : IndexEntry κ} {active : Option Nat}
  {rows rows' : Nat → Option (IndexRow κ)} {chunk : IndexChunk κ}
  {g : Option κ → Option (IndexRow κ) → Option (IndexRow κ)} {p : IndexRow κ → Bool}

omit [DecidableEq κ] in
/-- Other transactions' rows do not matter for where the entries are. -/
theorem Placed.setDeletedRows (h : Placed entry active rows) (d : Option (BoundIndex κ)) :
    Placed { entry with deletedRowsInUse := d } active rows :=
  ⟨h.main, h.removed, h.added, h.removedUnique, h.addedUnique, h.late, h.during, h.idle⟩

/-! ### Removals -/

def removeRows (retain during : Bool) (chunk : IndexChunk κ)
    (rows : Nat → Option (IndexRow κ)) : Nat → Option (IndexRow κ) :=
  updateRows (fun _ row => row.map fun row => { row with status := .removed retain during })
    chunk rows

theorem Placed.removeIdle {retain late : Bool} (h : Placed entry active rows)
    (hidle : entry.shouldUse active = false) (hnodup : (chunk.map Prod.snd).Nodup)
    (hrows : ∀ x ∈ chunk, rows x.2 = some ⟨x.1, late, .live⟩) :
    entry.deleteFromIndex chunk =
      ({ entry with index := entry.index.withoutRows chunk }, none) ∧
    Placed { entry with index := entry.index.withoutRows chunk } active
      (removeRows retain false chunk rows) := by
  -- no row is late, since a late row has a delta
  have hearly : ∀ x ∈ chunk, rows x.2 = some ⟨x.1, false, .live⟩ := by
    intro x hx
    cases late with
    | false => exact hrows x hx
    | true => exact absurd (h.idle hidle).1 (h.late x.2 _ (hrows x hx) rfl)
  have hmain : Moved IndexRow.inMain chunk rows (removeRows retain false chunk rows) true false :=
    moved_status hnodup hearly
  have hdel := BoundIndex.delete_all (nodup_chunkEntries hnodup) (h.main.mem_of_moved hmain)
  refine ⟨by simp only [IndexEntry.deleteFromIndex, hdel], ?_⟩
  exact {
    main := h.main.lose hmain
    removed := h.removed.keep (moved_status hnodup hearly)
    added := h.added.keep (moved_status hnodup hearly)
    removedUnique := h.removedUnique
    addedUnique := h.addedUnique
    late := forall_status hnodup hearly (fun _ => rfl) h.late (fun _ hlate => by simp at hlate)
    during := forall_status hnodup hearly (fun _ => rfl) h.during
      (fun _ hduring => by simp [IndexRow.during] at hduring)
    idle := h.idle }

/-- A removal of early rows is noted in `removedData`. -/
theorem Placed.removeEarly {retain : Bool} (h : Placed entry active rows)
    (huse : entry.shouldUse active = true) (hnodup : (chunk.map Prod.snd).Nodup)
    (hrows : ∀ x ∈ chunk, rows x.2 = some ⟨x.1, false, .live⟩)
    (hmixed : entry.addedData ≠ none → Unmixed chunk)
    (hroom : BoundIndex.Room .default entry.getOrCreateRemoved chunk) :
    entry.removeDuringCheckpoint chunk =
      ({ entry with removedData := some (entry.getOrCreateRemoved.withRows chunk) }, none) ∧
    Placed { entry with removedData := some (entry.getOrCreateRemoved.withRows chunk) } active
      (removeRows retain true chunk rows) := by
  have hadded : Moved IndexRow.inAdded chunk rows (removeRows retain true chunk rows)
      false false := moved_status hnodup hrows
  have hremoved : Moved IndexRow.inRemoved chunk rows (removeRows retain true chunk rows)
      false true := moved_status hnodup hrows
  refine ⟨IndexEntry.removeDuringCheckpoint_early hmixed (h.added.not_mem_of_moved hadded)
    (h.removed.nodup_append hremoved) hroom, ?_⟩
  exact {
    main := h.main.keep (moved_status hnodup hrows)
    removed := h.removed.gain hremoved
    added := h.added.keep hadded
    removedUnique := h.removedUnique
    addedUnique := h.addedUnique
    late := forall_status hnodup hrows (fun _ => rfl) h.late (fun _ hlate => by simp at hlate)
    during := fun _ _ _ _ => Option.some_ne_none _
    idle := fun hidle => absurd (huse.symm.trans hidle) (by simp) }

/-- A removal of late rows takes them out of `addedData`. -/
theorem Placed.removeLate {retain : Bool} {added : BoundIndex κ} (h : Placed entry active rows)
    (huse : entry.shouldUse active = true) (ha : entry.addedData = some added)
    (hnodup : (chunk.map Prod.snd).Nodup)
    (hrows : ∀ x ∈ chunk, rows x.2 = some ⟨x.1, true, .live⟩) :
    entry.removeDuringCheckpoint chunk = ({ entry with
      removedData := some entry.getOrCreateRemoved
      addedData := some (added.withoutRows chunk) }, none) ∧
    Placed { entry with
      removedData := some entry.getOrCreateRemoved
      addedData := some (added.withoutRows chunk) } active (removeRows retain true chunk rows) := by
  have hview : entry.getOrCreateAdded = added := by simp [IndexEntry.getOrCreateAdded, ha]
  have hadded : Moved IndexRow.inAdded chunk rows (removeRows retain true chunk rows) true false :=
    moved_status hnodup hrows
  have hstores := h.added
  have hunique := h.addedUnique
  rw [hview] at hstores hunique
  refine ⟨IndexEntry.removeDuringCheckpoint_late ha (nodup_chunkEntries hnodup)
    (hstores.mem_of_moved hadded), ?_⟩
  exact {
    main := h.main.keep (moved_status hnodup hrows)
    removed := h.removed.keep (moved_status hnodup hrows)
    added := hstores.lose hadded
    removedUnique := h.removedUnique
    addedUnique := hunique
    late := fun _ _ _ _ => Option.some_ne_none _
    during := fun _ _ _ _ => Option.some_ne_none _
    idle := fun hidle => absurd (huse.symm.trans hidle) (by simp) }

def reviveRows (chunk : IndexChunk κ) (rows : Nat → Option (IndexRow κ)) :
    Nat → Option (IndexRow κ) :=
  updateRows (fun _ row => row.map fun row => { row with status := .live }) chunk rows

theorem Placed.reviveIdle {retain late : Bool} (h : Placed entry active rows)
    (hidle : entry.shouldUse active = false) (hnodup : (chunk.map Prod.snd).Nodup)
    (hrows : ∀ x ∈ chunk, ∃ during, rows x.2 = some ⟨x.1, late, .removed retain during⟩)
    (hroom : BoundIndex.Room .default entry.index chunk) :
    entry.appendToIndex chunk = ({ entry with index := entry.index.withRows chunk }, none) ∧
    Placed { entry with index := entry.index.withRows chunk } active (reviveRows chunk rows) := by
  have hearly : ∀ x ∈ chunk, rows x.2 = some ⟨x.1, false, .removed retain false⟩ := by
    intro x hx
    obtain ⟨during, hrow⟩ := hrows x hx
    have hd : during = false := by
      cases during with
      | false => rfl
      | true => exact absurd (h.idle hidle).2 (h.during x.2 _ hrow rfl)
    have hl : late = false := by
      cases late with
      | false => rfl
      | true => exact absurd (h.idle hidle).1 (h.late x.2 _ hrow rfl)
    rw [hrow, hd, hl]
  have hmain : Moved IndexRow.inMain chunk rows (reviveRows chunk rows) false true :=
    moved_status hnodup hearly
  have happ := IndexEntry.appendIndexEntries_room (h.main.nodup_append hmain) hroom
  refine ⟨by simp only [IndexEntry.appendToIndex, happ], ?_⟩
  exact {
    main := h.main.gain hmain
    removed := h.removed.keep (moved_status hnodup hearly)
    added := h.added.keep (moved_status hnodup hearly)
    removedUnique := h.removedUnique
    addedUnique := h.addedUnique
    late := forall_status hnodup hearly (fun _ => rfl) h.late (fun _ hlate => by simp at hlate)
    during := forall_status hnodup hearly (fun _ => rfl) h.during
      (fun _ hduring => by simp [IndexRow.during] at hduring)
    idle := h.idle }

theorem Placed.reviveEarly {retain : Bool} (h : Placed entry active rows)
    (huse : entry.shouldUse active = true) (hnodup : (chunk.map Prod.snd).Nodup)
    (hrows : ∀ x ∈ chunk, rows x.2 = some ⟨x.1, false, .removed retain true⟩) :
    entry.revertDuringCheckpoint chunk =
      ({ entry with removedData := some (entry.getOrCreateRemoved.withoutRows chunk) }, none) ∧
    Placed { entry with removedData := some (entry.getOrCreateRemoved.withoutRows chunk) } active
      (reviveRows chunk rows) := by
  have hremoved : Moved IndexRow.inRemoved chunk rows (reviveRows chunk rows) true false :=
    moved_status hnodup hrows
  refine ⟨IndexEntry.revertDuringCheckpoint_early (nodup_chunkEntries hnodup)
    (h.removed.mem_of_moved hremoved), ?_⟩
  exact {
    main := h.main.keep (moved_status hnodup hrows)
    removed := h.removed.lose hremoved
    added := h.added.keep (moved_status hnodup hrows)
    removedUnique := h.removedUnique
    addedUnique := h.addedUnique
    late := forall_status hnodup hrows (fun _ => rfl) h.late (fun _ hlate => by simp at hlate)
    during := fun _ _ _ _ => Option.some_ne_none _
    idle := fun hidle => absurd (huse.symm.trans hidle) (by simp) }

theorem Placed.reviveLate {retain : Bool} {added : BoundIndex κ} (h : Placed entry active rows)
    (huse : entry.shouldUse active = true) (ha : entry.addedData = some added)
    (hnodup : (chunk.map Prod.snd).Nodup)
    (hrows : ∀ x ∈ chunk, rows x.2 = some ⟨x.1, true, .removed retain true⟩)
    (hmixed : Unmixed chunk) (hroom : BoundIndex.Room .default entry.getOrCreateAdded chunk) :
    entry.revertDuringCheckpoint chunk = ({ entry with
      removedData := some entry.getOrCreateRemoved
      addedData := some (added.withRows chunk) }, none) ∧
    Placed { entry with
      removedData := some entry.getOrCreateRemoved
      addedData := some (added.withRows chunk) } active (reviveRows chunk rows) := by
  have hview : entry.getOrCreateAdded = added := by simp [IndexEntry.getOrCreateAdded, ha]
  have hadded : Moved IndexRow.inAdded chunk rows (reviveRows chunk rows) false true :=
    moved_status hnodup hrows
  have hremoved : Moved IndexRow.inRemoved chunk rows (reviveRows chunk rows) false false :=
    moved_status hnodup hrows
  have hstores := h.added
  have hunique := h.addedUnique
  rw [hview] at hstores hunique hroom
  refine ⟨IndexEntry.revertDuringCheckpoint_late ha hmixed (h.removed.not_mem_of_moved hremoved)
    (hstores.nodup_append hadded) hroom, ?_⟩
  exact {
    main := h.main.keep (moved_status hnodup hrows)
    removed := h.removed.keep hremoved
    added := hstores.gain hadded
    removedUnique := h.removedUnique
    addedUnique := hunique
    late := fun _ _ _ _ => Option.some_ne_none _
    during := fun _ _ _ _ => Option.some_ne_none _
    idle := fun hidle => absurd (huse.symm.trans hidle) (by simp) }

/-- The removal itself, without the rows kept for other transactions. -/
theorem Placed.remove {retain : Bool} (h : Placed entry active rows)
    (hnodup : (chunk.map Prod.snd).Nodup)
    (hrows : ∃ late, ∀ x ∈ chunk, rows x.2 = some ⟨x.1, late, .live⟩)
    (hsafe : entry.shouldUse active = true →
      (∀ x ∈ chunk, rows x.2 = some ⟨x.1, false, .live⟩) →
      (entry.addedData ≠ none → Unmixed chunk) ∧
      BoundIndex.Room .default entry.getOrCreateRemoved chunk) :
    ∃ entry', (if entry.shouldUse active then entry.removeDuringCheckpoint chunk
        else entry.deleteFromIndex chunk) = (entry', none) ∧
      entry'.deletedRowsInUse = entry.deletedRowsInUse ∧
      Placed entry' active (removeRows retain (entry.shouldUse active) chunk rows) := by
  obtain ⟨late, hrows⟩ := hrows
  cases huse : entry.shouldUse active with
  | false =>
      obtain ⟨heq, hp⟩ := h.removeIdle huse hnodup hrows
      exact ⟨_, heq, rfl, hp⟩
  | true =>
      cases late with
      | false =>
          obtain ⟨hmixed, hroom⟩ := hsafe huse hrows
          obtain ⟨heq, hp⟩ := h.removeEarly huse hnodup hrows hmixed hroom
          exact ⟨_, heq, rfl, hp⟩
      | true =>
          cases chunk with
          | nil =>
              obtain ⟨hmixed, hroom⟩ := hsafe huse (by simp)
              obtain ⟨heq, hp⟩ := h.removeEarly huse hnodup (by simp) hmixed hroom
              exact ⟨_, heq, rfl, hp⟩
          | cons x chunk =>
              obtain ⟨added, ha⟩ :=
                Option.ne_none_iff_exists'.mp (h.late x.2 _ (hrows x (by simp)) rfl)
              obtain ⟨heq, hp⟩ := h.removeLate huse ha hnodup hrows
              exact ⟨_, heq, rfl, hp⟩

theorem Placed.revive {retain : Bool} (h : Placed entry active rows)
    (hnodup : (chunk.map Prod.snd).Nodup)
    (hrows : ∃ late, ∀ x ∈ chunk, ∃ during,
      rows x.2 = some ⟨x.1, late, .removed retain during⟩)
    (hsafe : if entry.shouldUse active then
        (∀ x ∈ chunk, ∀ row, rows x.2 = some row → row.during = true) ∧
        ((∀ x ∈ chunk, ∀ row, rows x.2 = some row → row.late = true) →
          Unmixed chunk ∧ BoundIndex.Room .default entry.getOrCreateAdded chunk)
      else BoundIndex.Room .default entry.index chunk) :
    ∃ entry', (if entry.shouldUse active then entry.revertDuringCheckpoint chunk
        else entry.appendToIndex chunk) = (entry', none) ∧
      entry'.deletedRowsInUse = entry.deletedRowsInUse ∧
      Placed entry' active (reviveRows chunk rows) := by
  obtain ⟨late, hrows⟩ := hrows
  cases huse : entry.shouldUse active with
  | false =>
      rw [huse] at hsafe
      obtain ⟨heq, hp⟩ := h.reviveIdle huse hnodup hrows hsafe
      exact ⟨_, heq, rfl, hp⟩
  | true =>
      rw [huse, if_pos rfl] at hsafe
      obtain ⟨hduring, hlate⟩ := hsafe
      have hrows' : ∀ x ∈ chunk, rows x.2 = some ⟨x.1, late, .removed retain true⟩ := by
        intro x hx
        obtain ⟨during, hrow⟩ := hrows x hx
        obtain rfl : during = true := hduring x hx _ hrow
        exact hrow
      cases late with
      | false =>
          obtain ⟨heq, hp⟩ := h.reviveEarly huse hnodup hrows'
          exact ⟨_, heq, rfl, hp⟩
      | true =>
          cases chunk with
          | nil =>
              obtain ⟨heq, hp⟩ := @Placed.reviveEarly κ _ _ _ _ _ retain h huse hnodup (by simp)
              exact ⟨_, heq, rfl, hp⟩
          | cons x chunk =>
              obtain ⟨added, ha⟩ :=
                Option.ne_none_iff_exists'.mp (h.late x.2 _ (hrows' x (by simp)) rfl)
              obtain ⟨hmixed, hroom⟩ := hlate fun y hy row hrow => by
                rw [hrows' y hy] at hrow
                exact (Option.some.inj hrow) ▸ rfl
              obtain ⟨heq, hp⟩ := h.reviveLate huse ha hnodup hrows' hmixed hroom
              exact ⟨_, heq, rfl, hp⟩

/-! ### Rows kept for other transactions -/

omit [DecidableEq κ] in
theorem Retained.retain {deletedRows : BoundIndex κ} {late during : Bool}
    (h : Retained deletedRows rows) (hnodup : (chunk.map Prod.snd).Nodup)
    (hrows : ∀ x ∈ chunk, rows x.2 = some ⟨x.1, late, .live⟩) :
    (deletedRows.entries ++ chunkEntries chunk).Nodup ∧
    Retained (deletedRows.withRows chunk) (removeRows true during chunk rows) := by
  have hm : Moved IndexRow.retained chunk rows (removeRows true during chunk rows) false true :=
    moved_status hnodup hrows
  exact ⟨h.stores.nodup_append hm, h.stores.gain hm, h.unique⟩

omit [DecidableEq κ] in
theorem Retained.skip {deletedRows : BoundIndex κ} {late during : Bool}
    (h : Retained deletedRows rows) (hnodup : (chunk.map Prod.snd).Nodup)
    (hrows : ∀ x ∈ chunk, rows x.2 = some ⟨x.1, late, .live⟩) :
    Retained deletedRows (removeRows false during chunk rows) :=
  ⟨h.stores.keep (moved_status hnodup hrows),
    h.unique⟩

/-- Rows that were retained leave `deletedRowsInUse`, whatever becomes of them. -/
theorem Retained.release {deletedRows : BoundIndex κ} (h : Retained deletedRows rows)
    (hm : Moved IndexRow.retained chunk rows rows' true false) :
    (∀ e ∈ chunkEntries chunk, e ∈ deletedRows.entries) ∧
    Retained (deletedRows.withoutRows chunk) rows' :=
  ⟨h.stores.mem_of_moved hm, h.stores.lose hm, h.unique⟩

theorem getOrCreateDeletedRows_release :
    IndexEntry.getOrCreateDeletedRows { entry with
      deletedRowsInUse := entry.deletedRowsInUse.map (·.withoutRows chunk) } =
    entry.getOrCreateDeletedRows.withoutRows chunk := by
  unfold IndexEntry.getOrCreateDeletedRows
  cases entry.deletedRowsInUse with
  | none => rfl
  | some deleted => rfl

/-! ### The visible entries and the merge -/

theorem Placed.mem_visible (h : Placed entry active rows) (e : κ × Nat) :
    e ∈ entry.visible ↔ HasRow IndexRow.live rows e := by
  unfold IndexEntry.visible
  rw [List.mem_append, List.mem_filter, decide_eq_true_eq, h.main.mem, h.removed.mem, h.added.mem]
  constructor
  · rintro (⟨⟨row, hrow, hk, hin⟩, hnot⟩ | ⟨row, hrow, hk, hin⟩)
    · refine ⟨row, hrow, hk, ?_⟩
      have hnot' : row.inRemoved ≠ true := fun hr => hnot ⟨row, hrow, hk, hr⟩
      cases hl : row.late <;> simp_all [IndexRow.inMain, IndexRow.inRemoved]
    · exact ⟨row, hrow, hk, (Bool.and_eq_true_iff.mp hin).2⟩
  · rintro ⟨row, hrow, hk, hlive⟩
    cases hl : row.late with
    | true => exact .inr ⟨row, hrow, hk, by simp [IndexRow.inAdded, hl, hlive]⟩
    | false =>
        refine .inl ⟨⟨row, hrow, hk, by simp [IndexRow.inMain, hl, hlive]⟩, ?_⟩
        rintro ⟨row', hrow', -, hrem⟩
        obtain rfl := Option.some.inj (hrow.symm.trans hrow')
        obtain ⟨key, late, status⟩ := row
        cases status <;> simp_all [IndexRow.inRemoved, IndexRow.live, IndexRow.during]

theorem Placed.visible_nodup (h : Placed entry active rows) : entry.visible.Nodup := by
  refine List.nodup_append.mpr ⟨h.main.nodup.filter _, h.added.nodup, ?_⟩
  rintro e he e' he' rfl
  obtain ⟨row, hrow, -, hmain⟩ := (h.main.mem e).mp (List.mem_of_mem_filter he)
  obtain ⟨row', hrow', -, hadded⟩ := (h.added.mem e).mp he'
  obtain rfl := Option.some.inj (hrow.symm.trans hrow')
  cases hl : row.late <;> simp_all [IndexRow.inMain, IndexRow.inAdded]

omit [DecidableEq κ] in
theorem Placed.removed_subset (h : Placed entry active rows) :
    ∀ e ∈ entry.getOrCreateRemoved.entries, e ∈ entry.index.entries := by
  intro e he
  obtain ⟨row, hrow, hk, hrem⟩ := (h.removed.mem e).mp he
  refine (h.main.mem e).mpr ⟨row, hrow, hk, ?_⟩
  obtain ⟨hl, hd⟩ := Bool.and_eq_true_iff.mp hrem
  simp [IndexRow.inMain, hd, hl]

omit [DecidableEq κ] in
theorem hasRow_settle (p : IndexRow κ → Bool) (e : κ × Nat) :
    HasRow p (fun r => (rows r).map IndexRow.settle) e ↔
      HasRow (fun row => p row.settle) rows e := by
  have hkey (row : IndexRow κ) : row.settle.key = row.key := by
    unfold IndexRow.settle
    cases row.status <;> rfl
  constructor
  · rintro ⟨row, hrow, hk, hp⟩
    obtain ⟨row₀, hrow₀, rfl⟩ := Option.map_eq_some_iff.mp hrow
    exact ⟨row₀, hrow₀, hkey row₀ ▸ hk, hp⟩
  · rintro ⟨row, hrow, hk, hp⟩
    exact ⟨row.settle, by simp [hrow], (hkey row).trans hk, hp⟩

omit [DecidableEq κ] in
/-- What the settled rows have in a place, the rows before had in another. -/
theorem Stores.settle {p q : IndexRow κ → Bool} {index : BoundIndex κ} (hn : index.entries.Nodup)
    (hm : ∀ e, e ∈ index.entries ↔ HasRow q rows e)
    (hq : ∀ row : IndexRow κ, p row.settle = q row) :
    Stores p index fun r => (rows r).map IndexRow.settle := by
  refine ⟨hn, fun e => ?_⟩
  rw [hm, hasRow_settle, funext hq]

/-- The merged entry: the visible entries are all in the main index. -/
def mergedEntry (entry : IndexEntry κ) (active : Option Nat) : IndexEntry κ where
  index := { entry.index with entries := entry.visible }
  deletedRowsInUse := entry.deletedRowsInUse
  addedData := none
  removedData := none
  lastWrittenCheckpoint := active

theorem Placed.merge (h : Placed entry active rows)
    (hroom : entry.index.unique = true →
      ∀ k, (entry.visible.filter fun e => decide (e.1 = k)).length ≤ 2) :
    entry.mergeCheckpointDeltas active = (mergedEntry entry active, none) ∧
    Placed (mergedEntry entry active) active (fun r => (rows r).map IndexRow.settle) := by
  have hindex : (entry.index.withoutRows entry.getOrCreateRemoved.scan).withRows
      entry.getOrCreateAdded.scan = { entry.index with entries := entry.visible } := by
    simp [BoundIndex.withRows, BoundIndex.withoutRows, IndexEntry.visible]
  have hrem := IndexEntry.mergeRemoved_eq h.removed.nodup h.removed_subset
  set merged : IndexEntry κ := { entry with
    index := entry.index.withoutRows entry.getOrCreateRemoved.scan
    removedData := none } with hmerged
  have hview : merged.getOrCreateAdded = entry.getOrCreateAdded := rfl
  have hnodup : (merged.index.entries ++ merged.getOrCreateAdded.entries).Nodup := by
    have hentries : merged.index.entries ++ merged.getOrCreateAdded.entries = entry.visible := by
      rw [hview]
      simp [hmerged, IndexEntry.visible, BoundIndex.withoutRows]
    exact hentries ▸ h.visible_nodup
  have hleaf : BoundIndex.Room .insertDuplicates merged.index merged.getOrCreateAdded.scan := by
    intro hu k _
    rw [← BoundIndex.rowIds_withRows, hview, hindex]
    simpa [BoundIndex.rowIds, BoundIndex.leafCapacity] using hroom hu k
  have hadd := IndexEntry.mergeAdded_eq hnodup hleaf
  rw [hview, hindex] at hadd
  constructor
  · simp only [IndexEntry.mergeCheckpointDeltas, IndexEntry.andThen, hrem, hadd]
    rfl
  · have hnone : ∀ e : κ × Nat, e ∈ ([] : List (κ × Nat)) ↔ HasRow (fun _ => false) rows e := by
      simp [HasRow]
    exact {
      main := Stores.settle h.visible_nodup h.mem_visible fun row => by
        unfold IndexRow.settle IndexRow.live
        cases row.status <;> rfl
      removed := Stores.settle List.nodup_nil hnone fun row => by
        unfold IndexRow.settle
        cases row.status <;> rfl
      added := Stores.settle List.nodup_nil hnone fun row => by
        unfold IndexRow.settle
        cases row.status <;> rfl
      removedUnique := rfl
      addedUnique := rfl
      late := fun r row hrow hlate => by
        obtain ⟨row₀, -, rfl⟩ := Option.map_eq_some_iff.mp hrow
        unfold IndexRow.settle at hlate
        cases hs : row₀.status <;> simp [hs] at hlate
      during := fun r row hrow hduring => by
        obtain ⟨row₀, -, rfl⟩ := Option.map_eq_some_iff.mp hrow
        unfold IndexRow.settle at hduring
        cases hs : row₀.status <;> simp [hs, IndexRow.during] at hduring
      idle := fun _ => ⟨rfl, rfl⟩ }

omit [DecidableEq κ] in
theorem Retained.settle {deletedRows : BoundIndex κ} (h : Retained deletedRows rows) :
    Retained deletedRows fun r => (rows r).map IndexRow.settle :=
  ⟨Stores.settle h.stores.nodup h.stores.mem fun row => by
    unfold IndexRow.settle IndexRow.retained
    cases row.status <;> rfl, h.unique⟩

/-! ### Appends -/

def appendRows (late : Bool) (chunk : IndexChunk κ) (rows : Nat → Option (IndexRow κ)) :
    Nat → Option (IndexRow κ) :=
  updateRows (fun key _ => some ⟨key, late, .live⟩) chunk rows

omit [DecidableEq κ] in
theorem moved_append {late v : Bool} (hnodup : (chunk.map Prod.snd).Nodup)
    (hfresh : ∀ x ∈ chunk, rows x.2 = none) (hv : ∀ key, p ⟨key, late, .live⟩ = v) :
    Moved p chunk rows (appendRows late chunk rows) false v := by
  refine moved_updateRows hnodup ?_ ?_ ?_ ?_
  · intro x hx row hrow
    rw [hfresh x hx] at hrow
    cases hrow
  · intro x hx row hrow
    obtain rfl := Option.some.inj hrow
    rfl
  · intro x hx _
    rw [hfresh x hx]
    rfl
  · intro x hx _
    exact hv x.1

omit [DecidableEq κ] in
theorem Placed.appendIdle (h : Placed entry active rows) (hidle : entry.shouldUse active = false)
    (hnodup : (chunk.map Prod.snd).Nodup) (hfresh : ∀ x ∈ chunk, rows x.2 = none) :
    Placed { entry with index := entry.index.withRows chunk } active
      (appendRows false chunk rows) where
  main := h.main.gain (moved_append hnodup hfresh fun _ => rfl)
  removed := h.removed.keep (moved_append hnodup hfresh fun _ => rfl)
  added := h.added.keep (moved_append hnodup hfresh fun _ => rfl)
  removedUnique := h.removedUnique
  addedUnique := h.addedUnique
  late := updateRows_forall hnodup h.late fun x _ row hrow hlate => by
    obtain rfl := Option.some.inj hrow
    simp at hlate
  during := updateRows_forall hnodup h.during fun x _ row hrow hduring => by
    obtain rfl := Option.some.inj hrow
    simp [IndexRow.during] at hduring
  idle := fun _ => h.idle hidle

omit [DecidableEq κ] in
theorem Placed.appendInUse (h : Placed entry active rows) (huse : entry.shouldUse active = true)
    (hnodup : (chunk.map Prod.snd).Nodup) (hfresh : ∀ x ∈ chunk, rows x.2 = none) :
    Placed { entry with addedData := some (entry.getOrCreateAdded.withRows chunk) } active
      (appendRows true chunk rows) where
  main := h.main.keep (moved_append hnodup hfresh fun _ => rfl)
  removed := h.removed.keep (moved_append hnodup hfresh fun _ => rfl)
  added := h.added.gain (moved_append hnodup hfresh fun _ => rfl)
  removedUnique := h.removedUnique
  addedUnique := h.addedUnique
  late := fun _ _ _ _ => Option.some_ne_none _
  during := updateRows_forall hnodup h.during fun x _ row hrow hduring => by
    obtain rfl := Option.some.inj hrow
    simp [IndexRow.during] at hduring
  idle := fun hidle => absurd (huse.symm.trans hidle) (by simp)

omit [DecidableEq κ] in
/-- A failed append while the deltas are in use may leave an empty delta behind. -/
theorem Placed.createAdded (h : Placed entry active rows) (huse : entry.shouldUse active = true) :
    Placed { entry with addedData := some entry.getOrCreateAdded } active rows where
  main := h.main
  removed := h.removed
  added := h.added
  removedUnique := h.removedUnique
  addedUnique := h.addedUnique
  late := fun _ _ _ _ => Option.some_ne_none _
  during := h.during
  idle := fun hidle => absurd (huse.symm.trans hidle) (by simp)

/-- An append to one index: all rows come in, and in the default mode each key of a unique index
that was there before is covered; or the index stays as it was. -/
theorem append_cases {index : BoundIndex κ} {deleteIndexes : List (BoundIndex κ)}
    {mode : IndexAppendMode} (hnodup : (index.entries ++ chunkEntries chunk).Nodup)
    (hdel : ∀ d ∈ deleteIndexes, ∀ e ∈ chunkEntries chunk, e ∉ d.entries)
    (hsafe : if mode = .default then BoundIndex.GateFree index deleteIndexes chunk
      else BoundIndex.Room mode index chunk) :
    (index.append chunk mode deleteIndexes = (index.withRows chunk, none) ∧
      (mode = .default → index.unique = true → ∀ k ∈ chunkKeys chunk, ∀ row ∈ index.rowIds k,
        ∃ d ∈ deleteIndexes, (k, row) ∈ d.entries)) ∨
    ∃ message, index.append chunk mode deleteIndexes = (index, some (.constraint message)) := by
  by_cases hmode : mode = .default
  · subst mode
    rw [if_pos rfl] at hsafe
    have hbase : index = { index with entries := index.entries ++ [] } := by simp
    rcases BoundIndex.insertKeys_default hbase hnodup hdel hsafe with
      ⟨hall, hcov⟩ | ⟨message, herr⟩
    · exact .inl ⟨hall, fun _ => hcov⟩
    · exact .inr ⟨message, herr⟩
  · rw [if_neg hmode] at hsafe
    exact .inl ⟨BoundIndex.insertKeys_room [] hnodup hsafe, fun h => absurd h hmode⟩

theorem Placed.removed_leaf (h : Placed entry active rows) (k : κ) :
    (entry.getOrCreateRemoved.rowIds k).length ≤ (entry.index.rowIds k).length := by
  simp only [BoundIndex.rowIds, List.length_map]
  refine (List.Nodup.subperm (h.removed.nodup.filter _) ?_).length_le
  intro e he
  obtain ⟨hmem, hk⟩ := List.mem_filter.mp he
  exact List.mem_filter.mpr ⟨h.removed_subset e hmem, hk⟩

/-- The key is there under a row id that the delete index does not cover. -/
def Uncovered (entry : IndexEntry κ) (deleteEntry : Option (BoundIndex κ))
    (chunk : IndexChunk κ) : Prop :=
  ∃ k r, k ∈ chunkKeys chunk ∧ (k, r) ∈ entry.visible ∧ ∀ d ∈ deleteEntry, (k, r) ∉ d.entries

section Append

variable {deleteEntry : Option (BoundIndex κ)} {mode : IndexAppendMode}

def deleteIndexes (entry : IndexEntry κ) (deleteEntry : Option (BoundIndex κ)) :
    List (BoundIndex κ) := if entry.index.unique then deleteEntry.toList else []

theorem append_idle (hidle : entry.shouldUse active = false) :
    entry.append chunk deleteEntry mode active =
      ({ entry with
        index := (entry.index.append chunk mode (deleteIndexes entry deleteEntry)).1 },
      (entry.index.append chunk mode (deleteIndexes entry deleteEntry)).2) := by
  simp [IndexEntry.append, hidle, deleteIndexes]

/-- While the deltas are in use, the keys are first looked up in the main index. -/
def lookupMain (entry : IndexEntry κ) (deleteEntry : Option (BoundIndex κ))
    (chunk : IndexChunk κ) : Option IndexError :=
  if entry.index.unique then
    entry.index.verifyAppend (deleteIndexes entry deleteEntry ++ entry.removedData.toList) chunk
  else none

theorem append_inUse_none (huse : entry.shouldUse active = true)
    (hlookup : lookupMain entry deleteEntry chunk = none) :
    entry.append chunk deleteEntry mode active =
      ({ entry with
        addedData :=
          some (entry.getOrCreateAdded.append chunk mode (deleteIndexes entry deleteEntry)).1 },
      (entry.getOrCreateAdded.append chunk mode (deleteIndexes entry deleteEntry)).2) := by
  unfold lookupMain deleteIndexes at hlookup
  simp only [IndexEntry.append, huse, if_true, hlookup, deleteIndexes]

theorem append_inUse_some {e : IndexError} (huse : entry.shouldUse active = true)
    (hlookup : lookupMain entry deleteEntry chunk = some e) :
    entry.append chunk deleteEntry mode active =
      ({ entry with addedData := some entry.getOrCreateAdded }, some e) := by
  unfold lookupMain deleteIndexes at hlookup
  simp only [IndexEntry.append, huse, if_true, hlookup]

theorem Placed.lookupMain_cases (h : Placed entry active rows)
    (hdel : ∀ d ∈ deleteEntry, ∀ k, (d.rowIds k).length ≤ 1)
    (hleaf : entry.index.unique = true →
      ∀ k ∈ chunkKeys chunk, (entry.index.rowIds k).length ≤ 1) :
    (lookupMain entry deleteEntry chunk = none ∧ (entry.index.unique = true →
      ∀ k ∈ chunkKeys chunk, ∀ row ∈ entry.index.rowIds k,
        (k, row) ∈ entry.getOrCreateRemoved.entries ∨ ∃ d ∈ deleteEntry, (k, row) ∈ d.entries)) ∨
    ∃ message, lookupMain entry deleteEntry chunk = some (.constraint message) := by
  unfold lookupMain
  cases hu : entry.index.unique with
  | false => exact .inl ⟨rfl, fun hu => by simp at hu⟩
  | true =>
      have hgate : ∀ d ∈ deleteIndexes entry deleteEntry ++ entry.removedData.toList,
          ∀ k ∈ chunkKeys chunk, (d.rowIds k).length ≤ 1 := by
        intro d hd k hk
        rcases List.mem_append.mp hd with hd | hd
        · simp only [deleteIndexes, hu, if_true, Option.mem_toList] at hd
          exact hdel d hd k
        · obtain hr := Option.mem_toList.mp hd
          have hview : entry.getOrCreateRemoved = d := by
            rw [IndexEntry.getOrCreateRemoved, Option.mem_def.mp hr, Option.getD_some]
          exact Nat.le_trans (hview ▸ h.removed_leaf k) (hleaf hu k hk)
      rcases BoundIndex.verifyAppend_cases (hleaf hu) hgate with ⟨hnone, hcov⟩ | herr
      · refine .inl ⟨hnone, fun _ k hk row hrow => ?_⟩
        obtain ⟨d, hd, hmem⟩ := hcov k hk row hrow
        rcases List.mem_append.mp hd with hd | hd
        · simp only [deleteIndexes, hu, if_true, Option.mem_toList] at hd
          exact .inr ⟨d, hd, hmem⟩
        · refine .inl ?_
          rw [IndexEntry.getOrCreateRemoved, Option.mem_def.mp (Option.mem_toList.mp hd),
            Option.getD_some]
          exact hmem
      · exact .inr ⟨_, herr⟩

omit [DecidableEq κ] in
/-- The delete indexes hold no row of the chunk, and only matter for a unique index. -/
theorem deleteIndexes_fresh (hfresh : ∀ x ∈ chunk, rows x.2 = none)
    (hdel : ∀ d ∈ deleteEntry, ∀ e ∈ d.entries, rows e.2 ≠ none) :
    ∀ d ∈ deleteIndexes entry deleteEntry, ∀ e ∈ chunkEntries chunk, e ∉ d.entries := by
  intro d hd e he hmem
  unfold deleteIndexes at hd
  split at hd
  · exact hdel d (Option.mem_toList.mp hd) e hmem (hfresh _ (mem_chunkEntries.mp he))
  · simp at hd

theorem gateFree_deleteIndexes {index : BoundIndex κ} (hunique : index.unique = entry.index.unique)
    (h : if mode = .default then BoundIndex.GateFree index deleteEntry.toList chunk
      else BoundIndex.Room mode index chunk) :
    if mode = .default then
      BoundIndex.GateFree index (deleteIndexes entry deleteEntry) chunk
    else BoundIndex.Room mode index chunk := by
  split
  · rename_i hmode
    rw [if_pos hmode] at h
    intro hu
    have hgate := h hu
    rw [deleteIndexes, ← hunique, hu]
    exact hgate
  · rename_i hmode
    rwa [if_neg hmode] at h

/-- An append comes in whole, unless in the default mode some key of a unique index is there
uncovered; or it fails with a constraint violation and adds nothing. -/
theorem Placed.append (h : Placed entry active rows) (hnodup : (chunk.map Prod.snd).Nodup)
    (hfresh : ∀ x ∈ chunk, rows x.2 = none)
    (hdel : ∀ d ∈ deleteEntry, (∀ k, (d.rowIds k).length ≤ 1) ∧ ∀ e ∈ d.entries, rows e.2 ≠ none)
    (hleaf : entry.shouldUse active = true → entry.index.unique = true →
      ∀ k ∈ chunkKeys chunk, (entry.index.rowIds k).length ≤ 1)
    (hsafe : if mode = .default then BoundIndex.GateFree
        (if entry.shouldUse active then entry.getOrCreateAdded else entry.index)
        deleteEntry.toList chunk
      else BoundIndex.Room mode
        (if entry.shouldUse active then entry.getOrCreateAdded else entry.index) chunk) :
    ∃ entry', entry'.deletedRowsInUse = entry.deletedRowsInUse ∧
      ((entry.append chunk deleteEntry mode active = (entry', none) ∧
        Placed entry' active (appendRows (entry.shouldUse active) chunk rows) ∧
        (mode = .default → entry.index.unique = true → ¬ Uncovered entry deleteEntry chunk)) ∨
      ∃ message, entry.append chunk deleteEntry mode active =
        (entry', some (.constraint message)) ∧ Placed entry' active rows) := by
  have hdelFresh := @deleteIndexes_fresh κ entry rows chunk deleteEntry hfresh
    fun d hd => (hdel d hd).2
  have hcover {k : κ} {r : Nat} (hu : entry.index.unique = true)
      (hunc : ∀ d ∈ deleteEntry, (k, r) ∉ d.entries) :
      ¬ ∃ d ∈ deleteIndexes entry deleteEntry, (k, r) ∈ d.entries := by
    rintro ⟨d, hd, hmem⟩
    simp only [deleteIndexes, hu, if_true, Option.mem_toList] at hd
    exact hunc d hd hmem
  cases huse : entry.shouldUse active with
  | false =>
      rw [huse] at hsafe
      have hdeltas := h.idle huse
      have hmoved : Moved IndexRow.inMain chunk rows (appendRows false chunk rows) false true :=
        moved_append hnodup hfresh fun _ => rfl
      rcases append_cases (h.main.nodup_append hmoved) hdelFresh
        (gateFree_deleteIndexes rfl hsafe) with ⟨hok, hcov⟩ | ⟨message, herr⟩
      · refine ⟨{ entry with index := entry.index.withRows chunk }, rfl,
          .inl ⟨?_, h.appendIdle huse hnodup hfresh, ?_⟩⟩
        · rw [append_idle huse, hok]
        · rintro hmode hu ⟨k, r, hk, hvis, hunc⟩
          have hmain : (k, r) ∈ entry.index.entries := by
            simpa [IndexEntry.visible, IndexEntry.getOrCreateAdded, IndexEntry.getOrCreateRemoved,
              hdeltas.1, hdeltas.2, BoundIndex.createEmptyCopy] using hvis
          exact hcover hu hunc (hcov hmode hu k hk r (BoundIndex.mem_rowIds.mpr hmain))
      · refine ⟨entry, rfl, .inr ⟨message, ?_, h⟩⟩
        rw [append_idle huse, herr]
  | true =>
      rw [huse, if_pos rfl] at hsafe
      rcases h.lookupMain_cases (fun d hd => (hdel d hd).1) (hleaf huse) with
        ⟨hnone, hmainCov⟩ | ⟨message, herr⟩
      · have hmoved : Moved IndexRow.inAdded chunk rows (appendRows true chunk rows) false true :=
          moved_append hnodup hfresh fun _ => rfl
        rcases append_cases (h.added.nodup_append hmoved) hdelFresh
          (gateFree_deleteIndexes h.addedUnique hsafe) with ⟨hok, hcov⟩ | ⟨message, herr⟩
        · refine ⟨{ entry with addedData := some (entry.getOrCreateAdded.withRows chunk) }, rfl,
            .inl ⟨?_, h.appendInUse huse hnodup hfresh, ?_⟩⟩
          · rw [append_inUse_none huse hnone, hok]
          · rintro hmode hu ⟨k, r, hk, hvis, hunc⟩
            rcases List.mem_append.mp hvis with hmain | hadded
            · obtain ⟨hmem, hnot⟩ := List.mem_filter.mp hmain
              rcases hmainCov hu k hk r (BoundIndex.mem_rowIds.mpr hmem) with hrem | ⟨d, hd, hd'⟩
              · exact of_decide_eq_true hnot hrem
              · exact hunc d hd hd'
            · exact hcover hu hunc (hcov hmode (h.addedUnique.trans hu) k hk r
                (BoundIndex.mem_rowIds.mpr hadded))
        · refine ⟨{ entry with addedData := some entry.getOrCreateAdded }, rfl,
            .inr ⟨message, ?_, h.createAdded huse⟩⟩
          rw [append_inUse_none huse hnone, herr]
      · exact ⟨{ entry with addedData := some entry.getOrCreateAdded }, rfl,
          .inr ⟨message, append_inUse_some huse herr, h.createAdded huse⟩⟩

omit [DecidableEq κ] in
theorem Retained.append {deletedRows : BoundIndex κ} {late : Bool} (h : Retained deletedRows rows)
    (hnodup : (chunk.map Prod.snd).Nodup) (hfresh : ∀ x ∈ chunk, rows x.2 = none) :
    Retained deletedRows (appendRows late chunk rows) :=
  ⟨h.stores.keep (moved_append hnodup hfresh fun _ => rfl), h.unique⟩

end Append

def dropRows (chunk : IndexChunk κ) (rows : Nat → Option (IndexRow κ)) :
    Nat → Option (IndexRow κ) := updateRows (fun _ _ => none) chunk rows

omit [DecidableEq κ] in
theorem moved_drop {u : Bool} (hnodup : (chunk.map Prod.snd).Nodup)
    (hrows : ∀ x ∈ chunk, ∃ late, rows x.2 = some ⟨x.1, late, .live⟩)
    (hu : ∀ x ∈ chunk, x.1 ≠ none → ∀ row, rows x.2 = some row → p row = u) :
    Moved p chunk rows (dropRows chunk rows) u false := by
  refine moved_updateRows hnodup ?_ ?_ ?_ ?_
  · intro x hx row hrow
    obtain ⟨late, hlive⟩ := hrows x hx
    obtain rfl := Option.some.inj (hlive.symm.trans hrow)
    rfl
  · intro x hx row hrow
    cases hrow
  · intro x hx hkey
    obtain ⟨late, hlive⟩ := hrows x hx
    rw [hlive]
    exact hu x hx hkey _ hlive
  · intro x hx _
    rfl

omit [DecidableEq κ] in
theorem dropRows_forall {Q : IndexRow κ → Prop} (hnodup : (chunk.map Prod.snd).Nodup)
    (h : ∀ r row, rows r = some row → Q row) : ∀ r row, dropRows chunk rows r = some row → Q row :=
  updateRows_forall hnodup h fun x hx row hrow => by cases hrow

theorem Placed.revertAppend (h : Placed entry active rows) (hnodup : (chunk.map Prod.snd).Nodup)
    (hrows : ∀ x ∈ chunk, ∃ late, rows x.2 = some ⟨x.1, late, .live⟩)
    (hsafe : entry.addedData ≠ none →
      ∀ x ∈ chunk, x.1 = none ∨ rows x.2 = some ⟨x.1, true, .live⟩) :
    ∃ entry', entry.revertAppend chunk = (entry', none) ∧
      entry'.deletedRowsInUse = entry.deletedRowsInUse ∧
      Placed entry' active (dropRows chunk rows) := by
  have hplace {late : Bool} (hlate : ∀ x ∈ chunk, x.1 ≠ none →
      rows x.2 = some ⟨x.1, late, .live⟩) {p : IndexRow κ → Bool} {u : Bool}
      (hu : ∀ key, p ⟨key, late, .live⟩ = u) : Moved p chunk rows (dropRows chunk rows) u false :=
    moved_drop hnodup hrows fun x hx hkey row hrow => by
      obtain rfl := Option.some.inj ((hlate x hx hkey).symm.trans hrow)
      exact hu x.1
  unfold IndexEntry.revertAppend
  cases ha : entry.addedData with
  | none =>
      have hearly : ∀ x ∈ chunk, x.1 ≠ none → rows x.2 = some ⟨x.1, false, .live⟩ := by
        intro x hx _
        obtain ⟨late, hlive⟩ := hrows x hx
        cases late with
        | false => exact hlive
        | true => exact absurd ha (h.late x.2 _ hlive rfl)
      have hmain := hplace hearly (p := IndexRow.inMain) fun _ => rfl
      have hdel := BoundIndex.delete_all (nodup_chunkEntries hnodup) (h.main.mem_of_moved hmain)
      refine ⟨{ entry with index := entry.index.withoutRows chunk }, by simp only [hdel, ha], rfl,
        ?_⟩
      exact {
        main := h.main.lose hmain
        removed := h.removed.keep (hplace hearly fun _ => rfl)
        added := h.added.keep (hplace hearly fun _ => rfl)
        removedUnique := h.removedUnique
        addedUnique := h.addedUnique
        late := dropRows_forall hnodup h.late
        during := dropRows_forall hnodup h.during
        idle := h.idle }
  | some added =>
      have hlate : ∀ x ∈ chunk, x.1 ≠ none → rows x.2 = some ⟨x.1, true, .live⟩ := by
        intro x hx hkey
        exact (hsafe (by simp [ha]) x hx).resolve_left hkey
      have hview : entry.getOrCreateAdded = added := by simp [IndexEntry.getOrCreateAdded, ha]
      have hstores := h.added
      have hunique := h.addedUnique
      rw [hview] at hstores hunique
      have hadded := hplace hlate (p := IndexRow.inAdded) fun _ => rfl
      have hdel := BoundIndex.delete_all (nodup_chunkEntries hnodup) (hstores.mem_of_moved hadded)
      refine ⟨{ entry with addedData := some (added.withoutRows chunk) }, by simp only [hdel], rfl,
        ?_⟩
      exact {
        main := h.main.keep (hplace hlate fun _ => rfl)
        removed := h.removed.keep (hplace hlate fun _ => rfl)
        added := hstores.lose hadded
        removedUnique := h.removedUnique
        addedUnique := hunique
        late := fun _ _ _ _ => Option.some_ne_none _
        during := dropRows_forall hnodup h.during
        idle := fun hidle => absurd (ha.symm.trans (h.idle hidle).1) (by simp) }

omit [DecidableEq κ] in
theorem Retained.drop {deletedRows : BoundIndex κ} (h : Retained deletedRows rows)
    (hnodup : (chunk.map Prod.snd).Nodup)
    (hrows : ∀ x ∈ chunk, ∃ late, rows x.2 = some ⟨x.1, late, .live⟩) :
    Retained deletedRows (dropRows chunk rows) := by
  refine ⟨h.stores.keep (moved_drop hnodup hrows fun x hx _ row hrow => ?_), h.unique⟩
  obtain ⟨late, hlive⟩ := hrows x hx
  obtain rfl := Option.some.inj (hlive.symm.trans hrow)
  rfl

/-! ### Cleanup -/

omit [DecidableEq κ] in
/-- A change of the rows that neither the keys nor the property notice. -/
theorem Stores.map {index : BoundIndex κ} {f : IndexRow κ → IndexRow κ}
    (h : Stores p index rows) (hnodup : (chunk.map Prod.snd).Nodup)
    (hf : ∀ x ∈ chunk, ∀ row, rows x.2 = some row → (f row).key = row.key ∧ p (f row) = p row) :
    Stores p index (updateRows (fun _ row => row.map f) chunk rows) := by
  refine ⟨h.nodup, fun e => (h.mem e).trans ?_⟩
  by_cases hr : ∃ x ∈ chunk, x.2 = e.2
  · obtain ⟨x, hx, hxr⟩ := hr
    unfold HasRow
    rw [← hxr, updateRows_mem hnodup hx]
    constructor
    · rintro ⟨row, hrow, hk, hp⟩
      obtain ⟨hkey, hval⟩ := hf x hx row hrow
      exact ⟨f row, by rw [hrow]; rfl, hkey.trans hk, hval.trans hp⟩
    · rintro ⟨row', hrow', hk, hp⟩
      obtain ⟨row, hrow, rfl⟩ := Option.map_eq_some_iff.mp hrow'
      obtain ⟨hkey, hval⟩ := hf x hx row hrow
      exact ⟨row, hrow, hkey.symm.trans hk, hval.symm.trans hp⟩
  · unfold HasRow
    rw [updateRows_of_not_mem fun x hx hxr => hr ⟨x, hx, hxr⟩]

def releaseRows (chunk : IndexChunk κ) (rows : Nat → Option (IndexRow κ)) :
    Nat → Option (IndexRow κ) :=
  updateRows (fun _ row => row.map fun row => { row with status := .removed false row.during })
    chunk rows

omit [DecidableEq κ] in
theorem Placed.release (h : Placed entry active rows) (hnodup : (chunk.map Prod.snd).Nodup)
    (hrows : ∀ x ∈ chunk, ∃ late during, rows x.2 = some ⟨x.1, late, .removed true during⟩) :
    Placed entry active (releaseRows chunk rows) := by
  have hkeep {p : IndexRow κ → Bool} {index : BoundIndex κ} (hst : Stores p index rows)
      (hp : ∀ key late during,
        p ⟨key, late, .removed false during⟩ = p ⟨key, late, .removed true during⟩) :
      Stores p index (releaseRows chunk rows) :=
    hst.map hnodup fun x hx row hrow => by
      obtain ⟨late, during, hrem⟩ := hrows x hx
      obtain rfl := Option.some.inj (hrem.symm.trans hrow)
      exact ⟨rfl, hp _ _ _⟩
  have hforall {Q : IndexRow κ → Prop} (hQ : ∀ r row, rows r = some row → Q row)
      (hq : ∀ key late during, Q ⟨key, late, .removed true during⟩ →
        Q ⟨key, late, .removed false during⟩) :
      ∀ r row, releaseRows chunk rows r = some row → Q row :=
    updateRows_forall hnodup hQ fun x hx row hrow => by
      obtain ⟨late, during, hrem⟩ := hrows x hx
      rw [hrem] at hrow
      obtain rfl := Option.some.inj hrow
      exact hq _ _ _ (hQ x.2 _ hrem)
  exact {
    main := hkeep h.main fun _ _ _ => rfl
    removed := hkeep h.removed fun _ _ _ => rfl
    added := hkeep h.added fun _ _ _ => rfl
    removedUnique := h.removedUnique
    addedUnique := h.addedUnique
    late := hforall h.late fun _ _ _ hq => hq
    during := hforall h.during fun _ _ _ hq => hq
    idle := h.idle }

omit [DecidableEq κ] in
theorem moved_release (hnodup : (chunk.map Prod.snd).Nodup)
    (hrows : ∀ x ∈ chunk, ∃ late during, rows x.2 = some ⟨x.1, late, .removed true during⟩) :
    Moved IndexRow.retained chunk rows (releaseRows chunk rows) true false :=
  moved_rows hnodup fun x hx => by
    obtain ⟨late, during, hrem⟩ := hrows x hx
    exact ⟨_, _, hrem, rfl, rfl, rfl, rfl, rfl⟩

omit [DecidableEq κ] in
theorem moved_revive {retain late : Bool} (hnodup : (chunk.map Prod.snd).Nodup)
    (hrows : ∀ x ∈ chunk, ∃ during, rows x.2 = some ⟨x.1, late, .removed retain during⟩) :
    Moved IndexRow.retained chunk rows (reviveRows chunk rows) retain false :=
  moved_rows hnodup fun x hx => by
    obtain ⟨during, hrem⟩ := hrows x hx
    exact ⟨_, _, hrem, rfl, rfl, rfl, rfl, rfl⟩

/-! ### One step -/

omit [DecidableEq κ] in
/-- An operation that returns keeps the invariant once the two parts of it are known. -/
theorem IndexInv.after {entry' : IndexEntry κ}
    (hp : Placed entry' s.active rows') (hr : Retained entry'.getOrCreateDeletedRows rows') :
    (s.after (entry', none) rows').2 = none ∧ IndexInv (s.after (entry', none) rows').1 :=
  ⟨rfl, hp, hr⟩

theorem exec_removeFromIndex {removal : IndexRemovalType} {res : IndexEntry κ × Option IndexError}
    (h : s.entry.removeFromIndex chunk removal s.active = res) :
    s.exec (.removeFromIndex chunk removal) =
      s.after res (updateRows (fun _ row => row.map (s.afterRemoval removal)) chunk s.rows) := by
  rw [IndexRun.exec, h]

omit [DecidableEq κ] in
theorem getOrCreateDeletedRows_congr {entry' : IndexEntry κ}
    (h : entry'.deletedRowsInUse = entry.deletedRowsInUse) :
    entry'.getOrCreateDeletedRows = entry.getOrCreateDeletedRows := by
  rw [IndexEntry.getOrCreateDeletedRows, h]
  rfl

/-- Retaining and releasing rows only touch `deletedRowsInUse`, and read nothing else. -/
theorem retainDeletedRows_congr {entry' : IndexEntry κ}
    (h : entry'.deletedRowsInUse = entry.deletedRowsInUse)
    (hu : entry.getOrCreateDeletedRows.unique = false)
    (hnodup : (entry.getOrCreateDeletedRows.entries ++ chunkEntries chunk).Nodup) :
    entry'.retainDeletedRows chunk = ({ entry' with
      deletedRowsInUse := some (entry.getOrCreateDeletedRows.withRows chunk) }, none) := by
  have hview := getOrCreateDeletedRows_congr h
  rw [← hview] at hu hnodup ⊢
  exact IndexEntry.retainDeletedRows_eq hu hnodup

theorem deleteFromIndex_setDeletedRows (d : Option (BoundIndex κ)) :
    IndexEntry.deleteFromIndex { entry with deletedRowsInUse := d } chunk =
      ({ (entry.deleteFromIndex chunk).1 with deletedRowsInUse := d },
        (entry.deleteFromIndex chunk).2) := rfl

theorem IndexInv.removeFromIndex {removal : IndexRemovalType} (h : IndexInv s)
    (hl : s.Legal (.removeFromIndex chunk removal))
    (hs : s.Safe (.removeFromIndex chunk removal)) :
    (s.exec (.removeFromIndex chunk removal)).2 = none ∧
      IndexInv (s.exec (.removeFromIndex chunk removal)).1 := by
  obtain ⟨hnodup, hrows⟩ := hl
  cases removal with
  | mainIndexOnly =>
      obtain ⟨entry', heq, hd, hp⟩ := @Placed.remove κ _ _ _ _ _ false h.placed hnodup hrows hs
      obtain ⟨late, hrows⟩ := hrows
      have hr := @Retained.skip κ _ _ _ late s.inUse h.retained hnodup hrows
      have hexec : s.entry.removeFromIndex chunk .mainIndexOnly s.active = (entry', none) := heq
      rw [← getOrCreateDeletedRows_congr hd] at hr
      rw [exec_removeFromIndex hexec]
      exact IndexInv.after hp hr
  | mainIndex =>
      obtain ⟨entry', heq, hd, hp⟩ := @Placed.remove κ _ _ _ _ _ true h.placed hnodup hrows hs
      obtain ⟨late, hrows⟩ := hrows
      obtain ⟨hdel, hr⟩ := @Retained.retain κ _ _ _ late s.inUse h.retained hnodup hrows
      have hexec : s.entry.removeFromIndex chunk .mainIndex s.active = ({ entry' with
          deletedRowsInUse := some (s.entry.getOrCreateDeletedRows.withRows chunk) }, none) := by
        cases huse : s.entry.shouldUse s.active with
        | true =>
            rw [huse, if_pos rfl] at heq
            have hret := retainDeletedRows_congr hd h.retained.unique hdel
            simp [IndexEntry.removeFromIndex, huse, IndexEntry.applyIndexRemovalDuringCheckpoint,
              IndexEntry.andThen, heq, hret]
        | false =>
            rw [huse] at heq
            have hdelete : s.entry.deleteFromIndex chunk = (entry', none) := heq
            have hret := IndexEntry.retainDeletedRows_eq h.retained.unique hdel
            simp [IndexEntry.removeFromIndex, huse, IndexEntry.applyIndexRemoval,
              IndexEntry.andThen, hret, deleteFromIndex_setDeletedRows, hdelete]
      rw [exec_removeFromIndex hexec]
      exact IndexInv.after (hp.setDeletedRows _) hr
  | revertMainIndexOnly =>
      obtain ⟨entry', heq, hd, hp⟩ := h.placed.revive hnodup hrows hs
      obtain ⟨late, hrows⟩ := hrows
      have hr : Retained entry'.getOrCreateDeletedRows (reviveRows chunk s.rows) := by
        rw [getOrCreateDeletedRows_congr hd]
        exact ⟨h.retained.stores.keep (moved_revive hnodup hrows), h.retained.unique⟩
      have hexec : s.entry.removeFromIndex chunk .revertMainIndexOnly s.active =
          (entry', none) := heq
      rw [exec_removeFromIndex hexec]
      exact IndexInv.after hp hr
  | revertMainIndex =>
      obtain ⟨entry', heq, hd, hp⟩ := h.placed.revive hnodup hrows hs
      obtain ⟨late, hrows⟩ := hrows
      have hd' := getOrCreateDeletedRows_congr hd
      obtain ⟨hall, hr⟩ := h.retained.release (moved_revive hnodup hrows)
      rw [← hd'] at hall hr
      have hrel := IndexEntry.releaseDeletedRows_eq (nodup_chunkEntries hnodup) hall
      have hexec : s.entry.removeFromIndex chunk .revertMainIndex s.active = ({ entry' with
          deletedRowsInUse := entry'.deletedRowsInUse.map (·.withoutRows chunk) }, none) := by
        cases huse : s.entry.shouldUse s.active <;> rw [huse] at heq <;>
          simp_all [IndexEntry.removeFromIndex, IndexEntry.applyIndexRemovalDuringCheckpoint,
            IndexEntry.applyIndexRemoval, IndexEntry.andThen]
      rw [exec_removeFromIndex hexec]
      refine IndexInv.after (hp.setDeletedRows _) ?_
      rw [getOrCreateDeletedRows_release]
      exact hr
  | deletedRowsInUse =>
      obtain ⟨hall, hr⟩ := h.retained.release (moved_release hnodup hrows)
      have hrel := IndexEntry.releaseDeletedRows_eq (nodup_chunkEntries hnodup) hall
      have hexec : s.entry.removeFromIndex chunk .deletedRowsInUse s.active = _ := hrel
      rw [exec_removeFromIndex hexec]
      refine IndexInv.after ((h.placed.release hnodup hrows).setDeletedRows _) ?_
      rw [getOrCreateDeletedRows_release]
      exact hr

theorem IndexInv.revertAppend (h : IndexInv s) (hl : s.Legal (.revertAppend chunk))
    (hs : s.Safe (.revertAppend chunk)) :
    (s.exec (.revertAppend chunk)).2 = none ∧ IndexInv (s.exec (.revertAppend chunk)).1 := by
  obtain ⟨entry', heq, hd, hp⟩ := h.placed.revertAppend hl.1 hl.2 hs
  have hr := h.retained.drop hl.1 hl.2
  rw [← getOrCreateDeletedRows_congr hd] at hr
  rw [IndexRun.exec, heq]
  exact IndexInv.after hp hr

theorem exec_merge (h : IndexInv s) (hs : s.Safe .merge) :
    s.exec .merge = ({ s with
      entry := mergedEntry s.entry s.active
      rows := fun r => (s.rows r).map IndexRow.settle }, none) := by
  rw [IndexRun.exec, (h.placed.merge hs).1]
  rfl

theorem IndexInv.merge (h : IndexInv s) (hs : s.Safe .merge) : IndexInv (s.exec .merge).1 := by
  rw [exec_merge h hs]
  exact ⟨(h.placed.merge hs).2, h.retained.settle⟩

/-- An append keeps the invariant, also when it is rejected. -/
theorem IndexInv.append {deleteEntry : Option (BoundIndex κ)} {mode : IndexAppendMode}
    (h : IndexInv s) (hl : s.Legal (.append chunk deleteEntry mode))
    (hs : s.Safe (.append chunk deleteEntry mode)) :
    IndexInv (s.exec (.append chunk deleteEntry mode)).1 ∧
    (((s.exec (.append chunk deleteEntry mode)).2 = none ∧
      (mode = .default → s.entry.index.unique = true → ¬ Uncovered s.entry deleteEntry chunk)) ∨
    ∃ message, (s.exec (.append chunk deleteEntry mode)).2 = some (.constraint message)) := by
  obtain ⟨entry', hd, hres⟩ := h.placed.append hl.1 hl.2.1 hl.2.2 hs.1 hs.2
  rw [IndexRun.exec]
  rcases hres with ⟨heq, hp, hcov⟩ | ⟨message, heq, hp⟩
  · have hr := @Retained.append κ _ _ _ s.inUse h.retained hl.1 hl.2.1
    rw [← getOrCreateDeletedRows_congr hd] at hr
    rw [heq]
    exact ⟨(IndexInv.after hp hr).2, .inl ⟨rfl, hcov⟩⟩
  · rw [heq]
    refine ⟨⟨hp, ?_⟩, .inr ⟨message, rfl⟩⟩
    show Retained entry'.getOrCreateDeletedRows s.rows
    rw [getOrCreateDeletedRows_congr hd]
    exact h.retained

omit [DecidableEq κ] in
theorem Placed.setActive (h : Placed entry active rows) (active' : Option Nat)
    (hadded : entry.addedData = none) (hremoved : entry.removedData = none) :
    Placed entry active' rows :=
  ⟨h.main, h.removed, h.added, h.removedUnique, h.addedUnique, h.late, h.during,
    fun _ => ⟨hadded, hremoved⟩⟩

theorem IndexInv.start (h : IndexInv s) (hl : s.Legal .start) : IndexInv (s.exec .start).1 := by
  have hidle : s.entry.shouldUse s.active = false := by
    rw [show s.active = none from hl]
    rfl
  obtain ⟨hadded, hremoved⟩ := h.placed.idle hidle
  exact ⟨h.placed.setActive _ hadded hremoved, h.retained⟩

theorem IndexInv.finish (h : IndexInv s) (hs : s.Safe .finish) : IndexInv (s.exec .finish).1 :=
  ⟨h.placed.setActive _ hs.1 hs.2, h.retained⟩

theorem IndexInv.step {op : IndexOp κ} (h : IndexInv s) (hl : s.Legal op) (hs : s.Safe op) :
    IndexInv (s.exec op).1 := by
  cases op with
  | start => exact h.start hl
  | finish => exact h.finish hs
  | append chunk deleteEntry mode => exact (h.append hl hs).1
  | revertAppend chunk => exact (h.revertAppend hl hs).2
  | removeFromIndex chunk removal => exact (h.removeFromIndex hl hs).2
  | merge => exact h.merge hs

end Steps

/-! ## Runs from an empty index -/

/-- The entry of a row that was appended and neither removed nor reverted. -/
def IndexRun.LiveEntry (s : IndexRun κ) (e : κ × Nat) : Prop :=
  ∃ late, s.rows e.2 = some ⟨some e.1, late, .live⟩

def IndexRun.initial (unique : Bool) : IndexRun κ where
  entry := ⟨⟨unique, []⟩, none, none, none, none⟩
  active := none
  nextCheckpoint := 0
  rows := fun _ => none

/-- All runs of the operations, with an index that is unique or not. -/
def indexLts : Lts (IndexRun κ) (IndexOp κ) where
  init s := ∃ unique, s = IndexRun.initial unique
  step s op s' := s.Legal op ∧ s' = (s.exec op).1

omit [DecidableEq κ] in
theorem IndexInv.initial (unique : Bool) : IndexInv (IndexRun.initial unique : IndexRun κ) := by
  have hempty (p : IndexRow κ → Bool) (u : Bool) : Stores p ⟨u, []⟩ fun _ => none :=
    ⟨List.nodup_nil, fun e => by simp [HasRow]⟩
  exact {
    placed := {
      main := hempty _ _
      removed := hempty _ _
      added := hempty _ _
      removedUnique := rfl
      addedUnique := rfl
      late := fun _ _ hrow => nomatch hrow
      during := fun _ _ hrow => nomatch hrow
      idle := fun _ => ⟨rfl, rfl⟩ }
    retained := ⟨hempty _ _, rfl⟩ }

theorem IndexInv.reachable {s : IndexRun κ}
    (h : (indexLts.restrict IndexRun.Safe).Reachable s) : IndexInv s := by
  refine Lts.Reachable.invariant_restrict (I := IndexInv) ?_ ?_ h
  · rintro _ ⟨unique, rfl⟩
    exact .initial unique
  · rintro s op _ hsafe hinv ⟨hlegal, rfl⟩
    exact hinv.step hlegal hsafe

omit [DecidableEq κ] in
theorem hasRow_live {s : IndexRun κ} {e : κ × Nat} :
    HasRow IndexRow.live s.rows e ↔ s.LiveEntry e := by
  constructor
  · rintro ⟨⟨key, late, status⟩, hrow, rfl, hlive⟩
    cases status with
    | live => exact ⟨late, hrow⟩
    | removed retained during => simp [IndexRow.live] at hlive
  · rintro ⟨late, hrow⟩
    exact ⟨_, hrow, rfl, rfl⟩

/-- In runs of safe steps no index change is lost or duplicated: the main index minus the removed
rows plus the added rows are the live rows, operations on rows that are there do not fail, a
merge leaves exactly the live rows in the main index, and a unique index rejects a key that is
there uncovered. -/
theorem index_changes_kept {s : IndexRun κ}
    (h : (indexLts.restrict IndexRun.Safe).Reachable s) :
    (s.entry.visible.Nodup ∧ ∀ e, e ∈ s.entry.visible ↔ s.LiveEntry e) ∧
    (∀ op, s.Legal op → s.Safe op → (s.exec op).2 = none ∨ ∃ chunk deleteEntry mode message,
      op = .append chunk deleteEntry mode ∧ (s.exec op).2 = some (.constraint message)) ∧
    (s.Safe .merge → (s.exec .merge).1.entry.addedData = none ∧
      (s.exec .merge).1.entry.removedData = none ∧
      (s.exec .merge).1.entry.index.entries.Nodup ∧
      ∀ e, e ∈ (s.exec .merge).1.entry.index.entries ↔ s.LiveEntry e) ∧
    ∀ chunk deleteEntry, s.Legal (.append chunk deleteEntry .default) →
      s.Safe (.append chunk deleteEntry .default) → s.entry.index.unique = true →
      Uncovered s.entry deleteEntry chunk →
      ∃ message, (s.exec (.append chunk deleteEntry .default)).2 = some (.constraint message) := by
  have hinv := IndexInv.reachable h
  have hlive : ∀ e, e ∈ s.entry.visible ↔ s.LiveEntry e := fun e =>
    (hinv.placed.mem_visible e).trans hasRow_live
  refine ⟨⟨hinv.placed.visible_nodup, hlive⟩, ?_, ?_, ?_⟩
  · intro op hlegal hsafe
    cases op with
    | start => exact .inl rfl
    | finish => exact .inl rfl
    | append chunk deleteEntry mode =>
        rcases (hinv.append hlegal hsafe).2 with ⟨hok, -⟩ | ⟨message, herr⟩
        · exact .inl hok
        · exact .inr ⟨chunk, deleteEntry, mode, message, rfl, herr⟩
    | revertAppend chunk => exact .inl (hinv.revertAppend hlegal hsafe).1
    | removeFromIndex chunk removal => exact .inl (hinv.removeFromIndex hlegal hsafe).1
    | merge => exact .inl (by rw [exec_merge hinv hsafe])
  · intro hsafe
    rw [exec_merge hinv hsafe]
    exact ⟨rfl, rfl, hinv.placed.visible_nodup, hlive⟩
  · intro chunk deleteEntry hlegal hsafe hunique huncovered
    rcases (hinv.append hlegal hsafe).2 with ⟨-, hcov⟩ | herr
    · exact absurd huncovered (hcov rfl hunique)
    · exact herr

theorem indexLts_step {s : IndexRun κ} {op : IndexOp κ} (h : indexLts.Reachable s)
    (hl : s.Legal op) : indexLts.Reachable (s.exec op).1 := h.step ⟨hl, rfl⟩

theorem indexLts_safeStep {s : IndexRun κ} {op : IndexOp κ}
    (h : (indexLts.restrict IndexRun.Safe).Reachable s) (hl : s.Legal op) (hs : s.Safe op) :
    (indexLts.restrict IndexRun.Safe).Reachable (s.exec op).1 := h.step ⟨hs, hl, rfl⟩

/-- A unique index with a row from before the checkpoint and one from after its start. -/
theorem index_changes_kept_two : ∃ s : IndexRun Nat,
    (s.entry.index.entries = [(1, 0)] ∧ s.entry.addedData = some ⟨true, [(2, 5)]⟩ ∧
      s.inUse = true) ∧ ∀ e, e ∈ s.entry.visible ↔ s.LiveEntry e := by
  have h0 : (indexLts.restrict IndexRun.Safe).Reachable (IndexRun.initial true : IndexRun Nat) :=
    .init ⟨true, rfl⟩
  have h1 := @indexLts_safeStep _ _ _ (.append [(some 1, 0)] none .default) h0 (by
    refine ⟨by decide, ?_, by simp⟩
    intro x _
    rfl) ⟨by decide, by simp [BoundIndex.GateFree, chunkKeys]; decide⟩
  have h2 := @indexLts_safeStep _ _ _ .start h1 rfl trivial
  have h3 := @indexLts_safeStep _ _ _ (.append [(some 2, 5)] none .default) h2 (by
    refine ⟨by decide, ?_, by simp⟩
    intro x hx
    obtain rfl := List.mem_singleton.mp hx
    rfl) ⟨by decide, by simp [BoundIndex.GateFree, chunkKeys]; decide⟩
  exact ⟨_, ⟨rfl, rfl, rfl⟩, (index_changes_kept h3).1.2⟩

/-- Two rows from before the checkpoint, one of them without a key, are removed while the
checkpoint has added rows. Both are there, and the removal throws. -/
theorem mixed_removal_fails : ∃ s : IndexRun Nat, indexLts.Reachable s ∧
    s.Legal (.removeFromIndex [(some 1, 0), (none, 1)] .mainIndex) ∧
    (s.exec (.removeFromIndex [(some 1, 0), (none, 1)] .mainIndex)).2 = some (.internal
      "IndexEntry::RemoveFromIndex - partially deleted from the checkpoint delta") := by
  have h0 : indexLts.Reachable (IndexRun.initial true : IndexRun Nat) := .init ⟨true, rfl⟩
  have h1 := @indexLts_step _ _ _ (.append [(some 1, 0), (none, 1)] none .default) h0
    ⟨by decide, fun _ _ => rfl, by simp⟩
  have h2 := @indexLts_step _ _ _ .start h1 rfl
  have h3 := @indexLts_step _ _ _ (.append [(some 2, 5)] none .default) h2 (by
    refine ⟨by decide, ?_, by simp⟩
    intro x hx
    obtain rfl := List.mem_singleton.mp hx
    rfl)
  refine ⟨_, h3, ⟨by decide, false, ?_⟩, by decide⟩
  intro x hx
  rcases List.mem_cons.mp hx with rfl | hx
  · rfl
  · obtain rfl := List.mem_singleton.mp hx
    rfl

end MiniDuck
