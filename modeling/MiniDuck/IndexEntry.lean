import Mathlib

/-!
# Index entries and their checkpoint deltas

A `BoundIndex` holds pairs of key and row id. A unique index keeps one
row id for each key; for a moment, while a commit replaces a row, it may
hold two. An `IndexEntry` owns the main index and up to three delta
indexes. While a checkpoint writes the main index out, appends go to
`addedData`, and removals either come out of `addedData` or are noted in
`removedData`; `mergeCheckpointDeltas` applies both to the main index.

A chunk is a list of rows, each with its key (`none` where a key column
is NULL) and its row id. Rows without a key are stored in no index, but
a deletion counts them as deleted.
-/

namespace MiniDuck

inductive IndexAppendMode
  | default
  | ignoreDuplicates
  | insertDuplicates
  deriving Repr, DecidableEq

inductive IndexRemovalType
  | mainIndexOnly
  | revertMainIndexOnly
  | mainIndex
  | revertMainIndex
  | deletedRowsInUse
  deriving Repr, DecidableEq

/-- The exceptions of the index operations, with their messages up to the inserted values. -/
inductive IndexError
  | constraint (message : String)
  | internal (message : String)
  | fatal (message : String)
  | invalidInput (message : String)
  deriving Repr, DecidableEq

/-- A bound index: whether it is unique, and its entries in scan order. -/
structure BoundIndex (κ : Type) where
  unique : Bool
  entries : List (κ × Nat)
  deriving Repr, DecidableEq

/-- Rows with their keys; NULL keys are `none`. -/
abbrev IndexChunk (κ : Type) := List (Option κ × Nat)

variable {κ : Type}

/-- The entries that the rows of a chunk have in an index. -/
def chunkEntries (chunk : IndexChunk κ) : List (κ × Nat) :=
  chunk.filterMap fun x => x.1.map fun k => (k, x.2)

@[simp] theorem chunkEntries_nil : chunkEntries ([] : IndexChunk κ) = [] := rfl

@[simp] theorem chunkEntries_none (r : Nat) (rows : IndexChunk κ) :
    chunkEntries ((none, r) :: rows) = chunkEntries rows := rfl

@[simp] theorem chunkEntries_some (k : κ) (r : Nat) (rows : IndexChunk κ) :
    chunkEntries ((some k, r) :: rows) = (k, r) :: chunkEntries rows := rfl

variable {chunk : IndexChunk κ}

@[simp] theorem mem_chunkEntries {e : κ × Nat} :
    e ∈ chunkEntries chunk ↔ (some e.1, e.2) ∈ chunk := by
  unfold chunkEntries
  rw [List.mem_filterMap]
  constructor
  · rintro ⟨⟨key, r⟩, hx, he⟩
    cases key with
    | none => simp at he
    | some k =>
        obtain rfl : (k, r) = e := by simpa using he
        exact hx
  · intro h
    exact ⟨_, h, rfl⟩

theorem chunkEntries_of_null (h : ∀ x ∈ chunk, x.1 = none) : chunkEntries chunk = [] := by
  rw [List.eq_nil_iff_forall_not_mem]
  intro e he
  exact absurd (h _ (mem_chunkEntries.mp he)) (by simp)

theorem nodup_chunkEntries : {chunk : IndexChunk κ} → (chunk.map Prod.snd).Nodup →
    (chunkEntries chunk).Nodup
  | [], _ => List.nodup_nil
  | (none, r) :: rows, h => by
      rw [chunkEntries_none]
      exact nodup_chunkEntries (List.nodup_cons.mp h).2
  | (some k, r) :: rows, h => by
      obtain ⟨hr, hrows⟩ := List.nodup_cons.mp h
      refine List.nodup_cons.mpr ⟨?_, nodup_chunkEntries hrows⟩
      intro hmem
      exact hr (List.mem_map.mpr ⟨_, mem_chunkEntries.mp hmem, rfl⟩)

def chunkKeys (chunk : IndexChunk κ) : List κ := (chunkEntries chunk).map Prod.fst

variable [DecidableEq κ]

/-- Entries that compare equal are equal. -/
instance entryLawfulBEq : LawfulBEq (κ × Nat) := inferInstance

namespace BoundIndex

def createEmptyCopy (unique : Bool) : BoundIndex κ := ⟨unique, []⟩

/-- The row ids in the leaf of a key. One row id is inlined, more are a gated leaf. -/
def rowIds (index : BoundIndex κ) (k : κ) : List Nat :=
  (index.entries.filter fun e => decide (e.1 = k)).map Prod.snd

def add (index : BoundIndex κ) (k : κ) (r : Nat) : BoundIndex κ :=
  if (k, r) ∈ index.entries then index
  else { index with entries := index.entries ++ [(k, r)] }

def remove (index : BoundIndex κ) (e : κ × Nat) : BoundIndex κ :=
  { index with entries := index.entries.filter fun x => decide (x ≠ e) }

/-- Some delete index has exactly these row ids in the leaf of the key. -/
def covered (deleteIndexes : List (BoundIndex κ)) (k : κ) (rows : List Nat) : Bool :=
  deleteIndexes.any fun d => decide (d.rowIds k = rows)

/-- `ARTOperator::Insert`, down to the leaf of the key and `InsertIntoInlined`. -/
def insertKey (mode : IndexAppendMode) (deleteIndexes : List (BoundIndex κ))
    (index : BoundIndex κ) (k : κ) (r : Nat) : Except IndexError (BoundIndex κ) :=
  match index.unique, index.rowIds k with
  | false, _ => .ok (index.add k r)
  | true, [] => .ok (index.add k r)
  | true, [row] =>
      if mode = .insertDuplicates ∨ covered deleteIndexes k [row] = true then .ok (index.add k r)
      else if mode = .ignoreDuplicates then .ok index
      else .error (.constraint "PRIMARY KEY or UNIQUE constraint violation: duplicate key")
  | true, _ =>
      .error (.fatal ("Corrupted unique ART index: encountered an existing gated leaf in unique "
        ++ "index while inserting"))

/-- `ART::InsertKeys`. A constraint violation takes the rows before it out again; any other
exception leaves them in. `done` has the rows inserted so far. -/
def insertKeys (mode : IndexAppendMode) (deleteIndexes : List (BoundIndex κ)) :
    IndexChunk κ → List (κ × Nat) → BoundIndex κ → BoundIndex κ × Option IndexError
  | [], _, index => (index, none)
  | (none, _) :: rows, done, index => insertKeys mode deleteIndexes rows done index
  | (some k, r) :: rows, done, index =>
      match insertKey mode deleteIndexes index k r with
      | .ok index => insertKeys mode deleteIndexes rows (done ++ [(k, r)]) index
      | .error (.constraint message) => (done.foldl remove index, some (.constraint message))
      | .error e => (index, some e)

def append (index : BoundIndex κ) (chunk : IndexChunk κ) (mode : IndexAppendMode)
    (deleteIndexes : List (BoundIndex κ)) : BoundIndex κ × Option IndexError :=
  insertKeys mode deleteIndexes chunk [] index

/-- `ART::DeleteKeys`: the index afterwards and how many rows count as deleted. -/
def tryDelete : IndexChunk κ → BoundIndex κ → BoundIndex κ × Nat
  | [], index => (index, 0)
  | (none, _) :: rows, index =>
      let res := tryDelete rows index
      (res.1, res.2 + 1)
  | (some k, r) :: rows, index =>
      let res := tryDelete rows (index.remove (k, r))
      (res.1, if (k, r) ∈ index.entries then res.2 + 1 else res.2)

def delete (index : BoundIndex κ) (chunk : IndexChunk κ) : BoundIndex κ × Option IndexError :=
  let res := tryDelete chunk index
  (res.1, if res.2 = chunk.length then none
    else some (.invalidInput "Failed to delete all rows from index."))

/-- `ART::VerifyLeaf` for an append. -/
def verifyLeaf (index : BoundIndex κ) (deleteIndexes : List (BoundIndex κ)) (k : κ) :
    Option IndexError :=
  let rows := index.rowIds k
  if rows.length = 0 then none
  else if deleteIndexes.any fun d => decide (2 ≤ (d.rowIds k).length) then
    some (.internal "Non-inlined leaf?")
  else if rows.length = 1 then
    if covered deleteIndexes k rows then none
    else some (.constraint "Duplicate key violates constraint.")
  else if rows.length ≠ 2 then
    some (.internal "VerifyLeaf expects exactly two row IDs to be scanned")
  else if deleteIndexes.any fun d => (d.rowIds k).any fun r => decide (r ∈ rows) then none
  else some (.constraint "Duplicate key violates constraint.")

/-- `ART::VerifyAppend` without a conflict manager. -/
def verifyAppend (index : BoundIndex κ) (deleteIndexes : List (BoundIndex κ)) :
    IndexChunk κ → Option IndexError
  | [] => none
  | (none, _) :: rows => verifyAppend index deleteIndexes rows
  | (some k, _) :: rows =>
      match index.verifyLeaf deleteIndexes k with
      | none => verifyAppend index deleteIndexes rows
      | some e => some e

def scan (index : BoundIndex κ) : IndexChunk κ := index.entries.map fun e => (some e.1, e.2)

def removalMerge (index source : BoundIndex κ) : BoundIndex κ × Option IndexError :=
  let res := tryDelete source.scan index
  (res.1, if res.2 = source.scan.length then none
    else some (.internal ("Failed to remove all rows while merging checkpoint deltas - this "
      ++ "signifies a bug or broken index")))

def insertMerge (index source : BoundIndex κ) : BoundIndex κ × Option IndexError :=
  insertKeys .insertDuplicates [] source.scan [] index

/-! ## Rows in and out of an index -/

variable {index : BoundIndex κ} {deleteIndexes : List (BoundIndex κ)} {mode : IndexAppendMode}

/-- The index with the rows of a chunk behind its own. -/
def withRows (index : BoundIndex κ) (chunk : IndexChunk κ) : BoundIndex κ :=
  { index with entries := index.entries ++ chunkEntries chunk }

def withoutRows (index : BoundIndex κ) (chunk : IndexChunk κ) : BoundIndex κ :=
  { index with entries := index.entries.filter fun e => decide (e ∉ chunkEntries chunk) }

omit [DecidableEq κ] in
omit [DecidableEq κ] in
@[simp] theorem mem_withRows {e : κ × Nat} {chunk : IndexChunk κ} :
    e ∈ (index.withRows chunk).entries ↔ e ∈ index.entries ∨ (some e.1, e.2) ∈ chunk := by
  simp [withRows]

variable {chunk : IndexChunk κ}

@[simp] theorem mem_withoutRows {e : κ × Nat} :
    e ∈ (index.withoutRows chunk).entries ↔ e ∈ index.entries ∧ (some e.1, e.2) ∉ chunk := by
  simp [withoutRows]

omit [DecidableEq κ] in
theorem withRows_of_null {chunk : IndexChunk κ} (h : ∀ x ∈ chunk, x.1 = none) :
    index.withRows chunk = index := by
  simp [withRows, chunkEntries_of_null h]

omit [DecidableEq κ] in
theorem withRows_cons (k : κ) (r : Nat) (rows : IndexChunk κ) :
    index.withRows ((some k, r) :: rows) = (index.withRows [(some k, r)]).withRows rows := by
  simp [withRows]

theorem withoutRows_cons (k : κ) (r : Nat) (rows : IndexChunk κ) :
    index.withoutRows ((some k, r) :: rows) = (index.remove (k, r)).withoutRows rows := by
  simp only [withoutRows, remove, chunkEntries_some, List.mem_cons, not_or, List.filter_filter]
  congr 1
  refine List.filter_congr fun e _ => ?_
  simp [Bool.and_comm]

variable {k : κ} {r : Nat}

theorem mem_rowIds : r ∈ index.rowIds k ↔ (k, r) ∈ index.entries := by
  unfold rowIds
  rw [List.mem_map]
  constructor
  · rintro ⟨⟨k', r'⟩, he, rfl⟩
    obtain ⟨hmem, hk⟩ := List.mem_filter.mp he
    obtain rfl : k' = k := by simpa using hk
    exact hmem
  · intro h
    exact ⟨(k, r), List.mem_filter.mpr ⟨h, by simp⟩, rfl⟩

theorem rowIds_withRows (chunk : IndexChunk κ) (k : κ) :
    ((index.withRows chunk).rowIds k).length =
      (index.rowIds k).length + (chunkKeys chunk).count k := by
  have hcount : (chunkKeys chunk).count k =
      ((chunkEntries chunk).filter fun e => decide (e.1 = k)).length := by
    rw [chunkKeys, List.count_eq_countP, List.countP_map, List.countP_eq_length_filter]
    exact congrArg List.length (List.filter_congr fun e _ => beq_eq_decide ..)
  simp only [rowIds, withRows, List.filter_append, List.map_append, List.length_append,
    List.length_map, hcount]

theorem add_eq_withRows (h : (k, r) ∉ index.entries) :
    index.add k r = index.withRows [(some k, r)] := by
  simp [add, h, withRows]

/-! ## Insertions -/

/-- How many row ids a leaf of a unique index may have after an insertion. -/
def leafCapacity : IndexAppendMode → Nat
  | .insertDuplicates => 2
  | _ => 1

/-- No key gets more row ids than the append mode lets it have. -/
def Room (mode : IndexAppendMode) (index : BoundIndex κ) (chunk : IndexChunk κ) : Prop :=
  index.unique = true → ∀ k ∈ chunkKeys chunk,
    (index.rowIds k).length + (chunkKeys chunk).count k ≤ leafCapacity mode

theorem insertKey_room (h : index.unique = true → (index.rowIds k).length < leafCapacity mode) :
    insertKey mode deleteIndexes index k r = .ok (index.add k r) := by
  unfold insertKey
  cases hu : index.unique with
  | false => rfl
  | true =>
      have hlen := h hu
      match hrows : index.rowIds k with
      | [] => rfl
      | [row] =>
          rw [hrows] at hlen
          cases mode <;> simp_all [leafCapacity]
      | a :: b :: rest =>
          have hcap : leafCapacity mode ≤ 2 := by cases mode <;> decide
          rw [hrows, List.length_cons, List.length_cons] at hlen
          omega

variable {rows : IndexChunk κ}

theorem Room.tail (h : Room mode index ((some k, r) :: rows)) :
    Room mode (index.withRows [(some k, r)]) rows := by
  intro hu k' hk'
  have hroom := h hu k' (by simp [chunkKeys] at hk' ⊢; exact .inr hk')
  rw [rowIds_withRows]
  simp only [chunkKeys, chunkEntries_some, chunkEntries_nil, List.map_cons, List.map_nil,
    List.count_cons] at hroom ⊢
  simp only [List.count_nil]
  omega

theorem insertKeys_room (done : List (κ × Nat))
    (hnodup : (index.entries ++ chunkEntries rows).Nodup) (hroom : Room mode index rows) :
    insertKeys mode deleteIndexes rows done index = (index.withRows rows, none) := by
  induction rows generalizing index done with
  | nil => simp [insertKeys, withRows]
  | cons x rows ih =>
      obtain ⟨key, r⟩ := x
      cases key with
      | none => exact ih done hnodup hroom
      | some k =>
          have hmem : (k, r) ∉ index.entries := by
            intro hmem
            exact List.disjoint_of_nodup_append hnodup hmem (by simp)
          have hleaf : index.unique = true → (index.rowIds k).length < leafCapacity mode := by
            intro hu
            have hk := hroom hu k (by simp [chunkKeys])
            simp only [chunkKeys, chunkEntries_some, List.map_cons, List.count_cons_self] at hk
            omega
          rw [withRows_cons k r rows, insertKeys, insertKey_room hleaf, add_eq_withRows hmem]
          refine ih _ ?_ hroom.tail
          simpa [withRows] using hnodup

theorem covered_mem {row : Nat} (h : covered deleteIndexes k [row] = true) :
    ∃ d ∈ deleteIndexes, (k, row) ∈ d.entries := by
  obtain ⟨d, hd, hrows⟩ := List.any_eq_true.mp h
  refine ⟨d, hd, mem_rowIds.mp ?_⟩
  rw [of_decide_eq_true hrows]
  exact List.mem_singleton_self row

/-- No insertion of the chunk meets a leaf with two row ids: a leaf has one at most, and a
covered one gets no second row of the chunk. -/
def GateFree (index : BoundIndex κ) (deleteIndexes : List (BoundIndex κ))
    (chunk : IndexChunk κ) : Prop :=
  index.unique = true → ∀ k ∈ chunkKeys chunk, (index.rowIds k).length ≤ 1 ∧
    ∀ row, index.rowIds k = [row] → covered deleteIndexes k [row] = true →
      (chunkKeys chunk).count k ≤ 1

theorem foldl_remove (done : List (κ × Nat)) :
    done.foldl remove index =
      { index with entries := index.entries.filter fun e => decide (e ∉ done) } := by
  induction done generalizing index with
  | nil => simp
  | cons e done ih =>
      rw [List.foldl_cons, ih]
      simp only [remove, List.filter_filter, List.mem_cons, not_or]
      congr 1
      refine List.filter_congr fun x _ => ?_
      simp [Bool.and_comm]

theorem insertKey_default (hleaf : index.unique = true → (index.rowIds k).length ≤ 1) :
    (insertKey .default deleteIndexes index k r = .ok (index.add k r) ∧
      (index.unique = true → ∀ row ∈ index.rowIds k,
        index.rowIds k = [row] ∧ covered deleteIndexes k [row] = true)) ∨
    insertKey .default deleteIndexes index k r =
      .error (.constraint "PRIMARY KEY or UNIQUE constraint violation: duplicate key") := by
  unfold insertKey
  cases hu : index.unique with
  | false => exact .inl ⟨rfl, fun h => by simp at h⟩
  | true =>
      match hrows : index.rowIds k with
      | [] => exact .inl ⟨rfl, fun _ _ h => by simp at h⟩
      | [row] =>
          by_cases hcov : covered deleteIndexes k [row] = true
          · refine .inl ⟨by simp [hcov], fun _ row' hrow' => ?_⟩
            obtain rfl := List.mem_singleton.mp hrow'
            exact ⟨rfl, hcov⟩
          · exact .inr (by simp [hcov])
      | a :: b :: rest =>
          have := hleaf hu
          simp [hrows] at this

theorem GateFree.tail (h : GateFree index deleteIndexes ((some k, r) :: rows))
    (hok : index.unique = true → ∀ row ∈ index.rowIds k, index.rowIds k = [row] ∧ covered deleteIndexes k [row] = true)
    (hfresh : ∀ d ∈ deleteIndexes, (k, r) ∉ d.entries) :
    GateFree (index.withRows [(some k, r)]) deleteIndexes rows := by
  intro hu k' hk'
  obtain ⟨hlen, hcov⟩ := h hu k' (by simp [chunkKeys] at hk' ⊢; exact .inr hk')
  by_cases hkk : k' = k
  · subst k'
    -- a second row of the chunk has this key, so the leaf was empty before
    have hcount : 2 ≤ (chunkKeys ((some k, r) :: rows)).count k := by
      have := List.count_pos_iff.mpr hk'
      simp only [chunkKeys, chunkEntries_some, List.map_cons, List.count_cons_self] at this ⊢
      omega
    have hempty : index.rowIds k = [] := by
      rw [List.eq_nil_iff_forall_not_mem]
      intro row hrow
      obtain ⟨hone, hc⟩ := hok hu row hrow
      have := hcov row hone hc
      omega
    have hnew : (index.withRows [(some k, r)]).rowIds k = [r] := by
      unfold rowIds at hempty ⊢
      simp only [withRows, chunkEntries_some, chunkEntries_nil, List.filter_append,
        List.map_append, hempty]
      simp
    refine ⟨by simp [hnew], ?_⟩
    intro row hrow hc
    obtain rfl : r = row := by simpa [hnew] using hrow
    obtain ⟨d, hd, hmem⟩ := covered_mem hc
    exact absurd hmem (hfresh d hd)
  · have hsame : (index.withRows [(some k, r)]).rowIds k' = index.rowIds k' := by
      unfold rowIds
      simp [withRows, Ne.symm hkk]
    have hcount : (chunkKeys rows).count k' = (chunkKeys ((some k, r) :: rows)).count k' := by
      simp [chunkKeys, Ne.symm hkk]
    rw [hsame, hcount]
    exact ⟨hlen, hcov⟩

/-- An append in the default mode inserts the whole chunk, and then each key that was there
before is covered; or it fails with a constraint violation and leaves the index as it was. -/
theorem insertKeys_default {base : BoundIndex κ} {done : List (κ × Nat)}
    (hbase : index = { base with entries := base.entries ++ done })
    (hnodup : (index.entries ++ chunkEntries rows).Nodup)
    (hfresh : ∀ d ∈ deleteIndexes, ∀ e ∈ chunkEntries rows, e ∉ d.entries)
    (hgate : GateFree index deleteIndexes rows) :
    (insertKeys .default deleteIndexes rows done index = (index.withRows rows, none) ∧
      (index.unique = true → ∀ k ∈ chunkKeys rows, ∀ row ∈ index.rowIds k,
        ∃ d ∈ deleteIndexes, (k, row) ∈ d.entries)) ∨
    ∃ message, insertKeys .default deleteIndexes rows done index =
      (base, some (.constraint message)) := by
  induction rows generalizing index done with
  | nil => exact .inl ⟨by simp [insertKeys, withRows], fun _ k hk => by simp [chunkKeys] at hk⟩
  | cons x rows ih =>
      obtain ⟨key, r⟩ := x
      cases key with
      | none => exact ih hbase hnodup hfresh hgate
      | some k =>
          have hmem : (k, r) ∉ index.entries := fun hmem =>
            List.disjoint_of_nodup_append hnodup hmem (by simp)
          have hleaf : index.unique = true → (index.rowIds k).length ≤ 1 := fun hu =>
            (hgate hu k (by simp [chunkKeys])).1
          rcases @insertKey_default κ _ index deleteIndexes k r hleaf with ⟨hins, hok⟩ | hins
          · rw [withRows_cons k r rows, insertKeys, hins, add_eq_withRows hmem]
            have hfreshk : ∀ d ∈ deleteIndexes, (k, r) ∉ d.entries := fun d hd =>
              hfresh d hd _ (by simp)
            rcases @ih (index.withRows [(some k, r)]) (done ++ [(k, r)])
              (by simp [withRows, hbase]) (by simpa [withRows] using hnodup)
              (fun d hd e he => hfresh d hd e (by simp at he ⊢; exact .inr he))
              (hgate.tail hok hfreshk) with ⟨hall, hcov⟩ | ⟨message, herr⟩
            · refine .inl ⟨hall, ?_⟩
              intro hu k' hk' row hrow
              by_cases hkk : k' = k
              · subst k'
                exact covered_mem (hok hu row hrow).2
              · refine hcov hu k' ?_ row ?_
                · simpa [chunkKeys, hkk] using hk'
                · rw [mem_rowIds, mem_withRows]
                  exact .inl (mem_rowIds.mp hrow)
            · exact .inr ⟨message, herr⟩
          · refine .inr ⟨"PRIMARY KEY or UNIQUE constraint violation: duplicate key", ?_⟩
            rw [insertKeys, hins]
            have hdis : ∀ e ∈ base.entries, e ∉ done := by
              rw [hbase] at hnodup
              exact List.disjoint_of_nodup_append (List.nodup_append.mp hnodup).1
            rw [foldl_remove, hbase]
            simp only [List.filter_append]
            rw [List.filter_eq_self.mpr (by simpa using hdis),
              List.filter_eq_nil_iff.mpr (by simp), List.append_nil]

/-! ## Deletions -/

/-- A deletion takes the rows of the chunk out; it counts the NULL keys and the rows that were
there. -/
theorem tryDelete_fst : (tryDelete chunk index).1 = index.withoutRows chunk := by
  induction chunk generalizing index with
  | nil => simp [tryDelete, withoutRows]
  | cons x rows ih =>
      obtain ⟨key, r⟩ := x
      cases key with
      | none => exact ih
      | some k => rw [withoutRows_cons, ← ih]; rfl

/-- Rows that are all there, or have no key, count in full. -/
theorem tryDelete_all (hnodup : (chunkEntries chunk).Nodup)
    (h : ∀ e ∈ chunkEntries chunk, e ∈ index.entries) :
    (tryDelete chunk index).2 = chunk.length := by
  induction chunk generalizing index with
  | nil => rfl
  | cons x rows ih =>
      obtain ⟨key, r⟩ := x
      cases key with
      | none => exact congrArg (· + 1) (ih hnodup h)
      | some k =>
          obtain ⟨hr, hrows⟩ := List.nodup_cons.mp hnodup
          have hrest := @ih (index.remove (k, r)) hrows (by
            intro e he
            have hne : e ≠ (k, r) := by
              rintro rfl
              exact hr he
            have hmem := h e (List.mem_cons_of_mem _ he)
            simp only [remove, List.mem_filter]
            exact ⟨hmem, by simpa using hne⟩)
          simp only [tryDelete, hrest, List.length_cons]
          rw [if_pos (h (k, r) (by simp))]

/-- Rows with keys of which none is there count as nothing. -/
theorem tryDelete_none (hkeys : ∀ x ∈ chunk, x.1 ≠ none)
    (h : ∀ e ∈ chunkEntries chunk, e ∉ index.entries) : (tryDelete chunk index).2 = 0 := by
  induction chunk generalizing index with
  | nil => rfl
  | cons x rows ih =>
      obtain ⟨key, r⟩ := x
      cases key with
      | none => exact absurd rfl (hkeys (none, r) (by simp))
      | some k =>
          have hrest := @ih (index.remove (k, r))
            (fun x hx => hkeys x (List.mem_cons_of_mem _ hx)) (by
            intro e he hmem
            simp only [remove, List.mem_filter] at hmem
            exact h e (List.mem_cons_of_mem _ he) hmem.1)
          simp only [tryDelete, hrest]
          rw [if_neg (h (k, r) (by simp))]

theorem withoutRows_eq_self (h : ∀ e ∈ chunkEntries chunk, e ∉ index.entries) :
    index.withoutRows chunk = index := by
  unfold withoutRows
  rw [List.filter_eq_self.mpr]
  intro e he
  simpa using fun hmem => h e (mem_chunkEntries.mpr hmem) he

theorem delete_all (hnodup : (chunkEntries chunk).Nodup)
    (h : ∀ e ∈ chunkEntries chunk, e ∈ index.entries) :
    index.delete chunk = (index.withoutRows chunk, none) := by
  simp [delete, tryDelete_fst, tryDelete_all hnodup h]

omit [DecidableEq κ] in
@[simp] theorem chunkEntries_scan : chunkEntries index.scan = index.entries := by
  simp [chunkEntries, scan, List.filterMap_map]

/-! ## Checks before an append -/

/-- A leaf with one row id at most: the check fails for a key that no delete index covers, and
only with a constraint violation. -/
theorem verifyLeaf_cases (hleaf : (index.rowIds k).length ≤ 1)
    (hdel : ∀ d ∈ deleteIndexes, (d.rowIds k).length ≤ 1) :
    (index.verifyLeaf deleteIndexes k = none ∧
      ∀ row ∈ index.rowIds k, ∃ d ∈ deleteIndexes, (k, row) ∈ d.entries) ∨
    index.verifyLeaf deleteIndexes k =
      some (.constraint "Duplicate key violates constraint.") := by
  unfold verifyLeaf
  have hgates : (deleteIndexes.any fun d => decide (2 ≤ (d.rowIds k).length)) = false := by
    rw [List.any_eq_false]
    intro d hd
    have := hdel d hd
    simp only [decide_eq_true_eq]
    omega
  match hrows : index.rowIds k with
  | [] => exact .inl ⟨rfl, fun _ h => by simp at h⟩
  | [row] =>
      by_cases hcov : covered deleteIndexes k [row] = true
      · refine .inl ⟨by simp [hgates, hcov], ?_⟩
        intro row' hrow'
        obtain rfl := List.mem_singleton.mp hrow'
        exact covered_mem hcov
      · exact .inr (by simp [hgates, hcov])
  | a :: b :: rest => simp [hrows] at hleaf

theorem verifyAppend_cases (hleaf : ∀ k ∈ chunkKeys chunk, (index.rowIds k).length ≤ 1)
    (hdel : ∀ d ∈ deleteIndexes, ∀ k ∈ chunkKeys chunk, (d.rowIds k).length ≤ 1) :
    (index.verifyAppend deleteIndexes chunk = none ∧ ∀ k ∈ chunkKeys chunk,
      ∀ row ∈ index.rowIds k, ∃ d ∈ deleteIndexes, (k, row) ∈ d.entries) ∨
    index.verifyAppend deleteIndexes chunk =
      some (.constraint "Duplicate key violates constraint.") := by
  induction chunk with
  | nil => exact .inl ⟨rfl, fun k hk => by simp [chunkKeys] at hk⟩
  | cons x rows ih =>
      obtain ⟨key, r⟩ := x
      cases key with
      | none => exact ih hleaf hdel
      | some k =>
          have hsub : ∀ k' ∈ chunkKeys rows, k' ∈ chunkKeys ((some k, r) :: rows) := by
            intro k' hk'
            simp only [chunkKeys, chunkEntries_some, List.map_cons]
            exact List.mem_cons_of_mem _ hk'
          have hk : k ∈ chunkKeys ((some k, r) :: rows) := by simp [chunkKeys]
          rcases verifyLeaf_cases (hleaf k hk) (fun d hd => hdel d hd k hk) with
            ⟨hone, hcov⟩ | herr
          · simp only [verifyAppend, hone]
            rcases ih (fun k' hk' => hleaf k' (hsub k' hk'))
              (fun d hd k' hk' => hdel d hd k' (hsub k' hk')) with ⟨hrest, hcovs⟩ | herr
            · refine .inl ⟨hrest, ?_⟩
              intro k' hk' row hrow
              by_cases hkk : k' = k
              · subst k'
                exact hcov row hrow
              · exact hcovs k' (by simpa [chunkKeys, hkk] using hk') row hrow
            · exact .inr herr
          · exact .inr (by simp only [verifyAppend, herr])

end BoundIndex

/-- The main index, its deltas, and the last checkpoint that was written. -/
structure IndexEntry (κ : Type) where
  index : BoundIndex κ
  deletedRowsInUse : Option (BoundIndex κ)
  addedData : Option (BoundIndex κ)
  removedData : Option (BoundIndex κ)
  lastWrittenCheckpoint : Option Nat
  deriving Repr, DecidableEq

namespace IndexEntry

open BoundIndex

def shouldUse (entry : IndexEntry κ) (activeCheckpoint : Option Nat) : Bool :=
  match activeCheckpoint, entry.lastWrittenCheckpoint with
  | none, _ => false
  | some _, none => true
  | some c, some written => decide (c ≠ written)

/-- `IndexDeltas::GetOrCreate` for the three deltas. -/
def getOrCreateAdded (entry : IndexEntry κ) : BoundIndex κ :=
  entry.addedData.getD (createEmptyCopy entry.index.unique)

def getOrCreateRemoved (entry : IndexEntry κ) : BoundIndex κ :=
  entry.removedData.getD (createEmptyCopy entry.index.unique)

def getOrCreateDeletedRows (entry : IndexEntry κ) : BoundIndex κ :=
  entry.deletedRowsInUse.getD (createEmptyCopy false)

/-- `IndexEntry::Append`. An exception becomes the returned error. -/
def append (entry : IndexEntry κ) (chunk : IndexChunk κ) (deleteEntry : Option (BoundIndex κ))
    (mode : IndexAppendMode) (activeCheckpoint : Option Nat) :
    IndexEntry κ × Option IndexError :=
  let deleteIndex := if entry.index.unique then deleteEntry.toList else []
  if entry.shouldUse activeCheckpoint then
    let added := entry.getOrCreateAdded
    let entry := { entry with addedData := some added }
    let lookup := if entry.index.unique then
        entry.index.verifyAppend (deleteIndex ++ entry.removedData.toList) chunk
      else none
    match lookup with
    | some e => (entry, some e)
    | none =>
        let res := added.append chunk mode deleteIndex
        ({ entry with addedData := some res.1 }, res.2)
  else
    let res := entry.index.append chunk mode deleteIndex
    ({ entry with index := res.1 }, res.2)

def revertAppend (entry : IndexEntry κ) (chunk : IndexChunk κ) :
    IndexEntry κ × Option IndexError :=
  match entry.addedData with
  | some added =>
      let res := added.delete chunk
      ({ entry with addedData := some res.1 }, res.2)
  | none =>
      let res := entry.index.delete chunk
      ({ entry with index := res.1 }, res.2)

def appendIndexEntries (index : BoundIndex κ) (chunk : IndexChunk κ) :
    BoundIndex κ × Option IndexError :=
  let res := index.append chunk .default []
  (res.1, res.2.map fun e => match e with
    | .constraint _ => .internal "Failed to append"
    | e => e)

/-- `TryDeleteAll`: whether the whole chunk was deleted. -/
def tryDeleteAll (index : BoundIndex κ) (chunk : IndexChunk κ) :
    BoundIndex κ × Except IndexError Bool :=
  let res := tryDelete chunk index
  if res.2 = 0 then (res.1, .ok false)
  else if res.2 ≠ chunk.length then
    (res.1, .error (.internal
      "IndexEntry::RemoveFromIndex - partially deleted from the checkpoint delta"))
  else (res.1, .ok true)

/-- The rows are kept in `deletedRowsInUse` for other transactions. -/
def retainDeletedRows (entry : IndexEntry κ) (chunk : IndexChunk κ) :
    IndexEntry κ × Option IndexError :=
  let res := appendIndexEntries entry.getOrCreateDeletedRows chunk
  ({ entry with deletedRowsInUse := some res.1 }, res.2)

def releaseDeletedRows (entry : IndexEntry κ) (chunk : IndexChunk κ) :
    IndexEntry κ × Option IndexError :=
  match entry.deletedRowsInUse with
  | none => (entry, none)
  | some deleted =>
      let res := deleted.delete chunk
      ({ entry with deletedRowsInUse := some res.1 }, res.2)

/-- The next step of an operation, unless the one before threw. -/
def andThen (res : IndexEntry κ × Option IndexError)
    (next : IndexEntry κ → IndexEntry κ × Option IndexError) : IndexEntry κ × Option IndexError :=
  match res.2 with
  | none => next res.1
  | some e => (res.1, some e)

def deleteFromIndex (entry : IndexEntry κ) (chunk : IndexChunk κ) :
    IndexEntry κ × Option IndexError :=
  let res := entry.index.delete chunk
  ({ entry with index := res.1 }, res.2)

def appendToIndex (entry : IndexEntry κ) (chunk : IndexChunk κ) :
    IndexEntry κ × Option IndexError :=
  let res := appendIndexEntries entry.index chunk
  ({ entry with index := res.1 }, res.2)

def applyIndexRemoval (entry : IndexEntry κ) (chunk : IndexChunk κ) :
    IndexRemovalType → IndexEntry κ × Option IndexError
  | .mainIndexOnly => entry.deleteFromIndex chunk
  | .revertMainIndexOnly => entry.appendToIndex chunk
  | .mainIndex => andThen (entry.retainDeletedRows chunk) fun e => e.deleteFromIndex chunk
  | .revertMainIndex => andThen (entry.appendToIndex chunk) fun e => e.releaseDeletedRows chunk
  | .deletedRowsInUse => entry.releaseDeletedRows chunk

/-- The first half of a removal during a checkpoint: out of the rows added since the checkpoint
began, or into the rows to be removed. -/
def removeDuringCheckpoint (entry : IndexEntry κ) (chunk : IndexChunk κ) :
    IndexEntry κ × Option IndexError :=
  let entry := { entry with removedData := some entry.getOrCreateRemoved }
  let noteRemoval (entry : IndexEntry κ) : IndexEntry κ × Option IndexError :=
    let res := appendIndexEntries entry.getOrCreateRemoved chunk
    ({ entry with removedData := some res.1 }, res.2)
  match entry.addedData with
  | none => noteRemoval entry
  | some added =>
      let res := tryDeleteAll added chunk
      let entry := { entry with addedData := some res.1 }
      match res.2 with
      | .error e => (entry, some e)
      | .ok true => (entry, none)
      | .ok false => noteRemoval entry

def revertDuringCheckpoint (entry : IndexEntry κ) (chunk : IndexChunk κ) :
    IndexEntry κ × Option IndexError :=
  let removed := entry.getOrCreateRemoved
  match entry.addedData with
  | some added =>
      let res := tryDeleteAll removed chunk
      let entry := { entry with removedData := some res.1 }
      match res.2 with
      | .error e => (entry, some e)
      | .ok true => (entry, none)
      | .ok false =>
          let res := appendIndexEntries added chunk
          ({ entry with addedData := some res.1 }, res.2)
  | none =>
      let res := removed.delete chunk
      ({ entry with removedData := some res.1 }, res.2)

def applyIndexRemovalDuringCheckpoint (entry : IndexEntry κ) (chunk : IndexChunk κ) :
    IndexRemovalType → IndexEntry κ × Option IndexError
  | .mainIndexOnly => entry.removeDuringCheckpoint chunk
  | .mainIndex =>
      andThen (entry.removeDuringCheckpoint chunk) fun e => e.retainDeletedRows chunk
  | .revertMainIndexOnly => entry.revertDuringCheckpoint chunk
  | .revertMainIndex =>
      andThen (entry.revertDuringCheckpoint chunk) fun e => e.releaseDeletedRows chunk
  | .deletedRowsInUse => (entry, some (.internal "Unsupported IndexRemovalType"))

def removeFromIndex (entry : IndexEntry κ) (chunk : IndexChunk κ) (removal : IndexRemovalType)
    (activeCheckpoint : Option Nat) : IndexEntry κ × Option IndexError :=
  if removal = .deletedRowsInUse then entry.applyIndexRemoval chunk removal
  else if entry.shouldUse activeCheckpoint then
    entry.applyIndexRemovalDuringCheckpoint chunk removal
  else entry.applyIndexRemoval chunk removal

/-- `IndexDeltas::MergeCheckpointDeltas` for the two deltas in turn. A delta is reset once it
is merged. -/
def mergeRemoved (entry : IndexEntry κ) : IndexEntry κ × Option IndexError :=
  match entry.removedData with
  | none => (entry, none)
  | some removed =>
      let res := entry.index.removalMerge removed
      ({ entry with
        index := res.1
        removedData := if res.2 = none then none else some removed }, res.2)

def mergeAdded (entry : IndexEntry κ) : IndexEntry κ × Option IndexError :=
  match entry.addedData with
  | none => (entry, none)
  | some added =>
      let res := entry.index.insertMerge added
      ({ entry with
        index := res.1
        addedData := if res.2 = none then none else some added }, res.2)

def mergeCheckpointDeltas (entry : IndexEntry κ) (checkpointId : Option Nat) :
    IndexEntry κ × Option IndexError :=
  andThen (andThen entry.mergeRemoved mergeAdded) fun e =>
    ({ e with lastWrittenCheckpoint := checkpointId }, none)

/-! ## What the operations do to the four indexes -/

variable {entry : IndexEntry κ} {index : BoundIndex κ} {chunk : IndexChunk κ}

theorem appendIndexEntries_room (hnodup : (index.entries ++ chunkEntries chunk).Nodup)
    (hroom : Room .default index chunk) :
    appendIndexEntries index chunk = (index.withRows chunk, none) := by
  simp [appendIndexEntries, BoundIndex.append, insertKeys_room [] hnodup hroom]

theorem tryDeleteAll_all (hnodup : (chunkEntries chunk).Nodup)
    (h : ∀ e ∈ chunkEntries chunk, e ∈ index.entries) :
    tryDeleteAll index chunk = (index.withoutRows chunk, .ok (decide (chunk ≠ []))) := by
  simp only [tryDeleteAll, tryDelete_all hnodup h, tryDelete_fst]
  cases chunk <;> simp

theorem tryDeleteAll_none (hkeys : ∀ x ∈ chunk, x.1 ≠ none)
    (h : ∀ e ∈ chunkEntries chunk, e ∉ index.entries) :
    tryDeleteAll index chunk = (index, .ok false) := by
  simp only [tryDeleteAll, tryDelete_none hkeys h, tryDelete_fst, withoutRows_eq_self h, if_true]

/-- A removal of rows that were all added since the checkpoint began. -/
theorem removeDuringCheckpoint_late {added : BoundIndex κ} (hadded : entry.addedData = some added)
    (hnodup : (chunkEntries chunk).Nodup) (h : ∀ e ∈ chunkEntries chunk, e ∈ added.entries) :
    entry.removeDuringCheckpoint chunk =
      ({ entry with
        removedData := some entry.getOrCreateRemoved
        addedData := some (added.withoutRows chunk) }, none) := by
  unfold removeDuringCheckpoint
  simp only [hadded, tryDeleteAll_all hnodup h]
  cases chunk with
  | nil => simp [appendIndexEntries, BoundIndex.append, insertKeys, getOrCreateRemoved]
  | cons x rows => simp

/-- A removal of rows of which none was added since the checkpoint began. -/
theorem removeDuringCheckpoint_early
    (hmixed : entry.addedData ≠ none → (∀ x ∈ chunk, x.1 = none) ∨ ∀ x ∈ chunk, x.1 ≠ none)
    (hadded : ∀ e ∈ chunkEntries chunk, e ∉ entry.getOrCreateAdded.entries)
    (hnodup : (entry.getOrCreateRemoved.entries ++ chunkEntries chunk).Nodup)
    (hroom : Room .default entry.getOrCreateRemoved chunk) :
    entry.removeDuringCheckpoint chunk =
      ({ entry with removedData := some (entry.getOrCreateRemoved.withRows chunk) }, none) := by
  have hnote : appendIndexEntries entry.getOrCreateRemoved chunk =
      (entry.getOrCreateRemoved.withRows chunk, none) := appendIndexEntries_room hnodup hroom
  have hagain (a : Option (BoundIndex κ)) : getOrCreateRemoved { entry with
      addedData := a, removedData := some entry.getOrCreateRemoved } =
      entry.getOrCreateRemoved := rfl
  unfold removeDuringCheckpoint
  cases ha : entry.addedData with
  | none => simp only [hagain none, hnote]
  | some added =>
      have hadd : ∀ e ∈ chunkEntries chunk, e ∉ added.entries := by
        simpa [getOrCreateAdded, ha] using hadded
      rcases hmixed (by simp [ha]) with hnull | hkeys
      · -- rows without keys all count as deleted, and there is nothing to note
        have hentries := chunkEntries_of_null hnull
        have hdel := @tryDeleteAll_all κ _ added chunk (by simp [hentries]) (by simp [hentries])
        rw [withRows_of_null hnull] at hnote ⊢
        rw [withoutRows_eq_self hadd] at hdel
        cases hc : decide (chunk ≠ []) with
        | true => simp only [hdel, hc]
        | false => simp only [hdel, hc, hagain, hnote]
      · simp only [tryDeleteAll_none hkeys hadd, hagain, hnote]

/-- Reverting a removal that was noted in `removedData`. -/
theorem revertDuringCheckpoint_early (hnodup : (chunkEntries chunk).Nodup)
    (h : ∀ e ∈ chunkEntries chunk, e ∈ entry.getOrCreateRemoved.entries) :
    entry.revertDuringCheckpoint chunk =
      ({ entry with removedData := some (entry.getOrCreateRemoved.withoutRows chunk) }, none) := by
  unfold revertDuringCheckpoint
  cases ha : entry.addedData with
  | none => simp only [delete_all hnodup h]
  | some added =>
      simp only [tryDeleteAll_all hnodup h]
      cases chunk with
      | nil => simp [appendIndexEntries, BoundIndex.append, insertKeys]
      | cons x rows => simp

/-- Reverting a removal that came out of `addedData`. -/
theorem revertDuringCheckpoint_late {added : BoundIndex κ}
    (hadded : entry.addedData = some added)
    (hmixed : (∀ x ∈ chunk, x.1 = none) ∨ ∀ x ∈ chunk, x.1 ≠ none)
    (hremoved : ∀ e ∈ chunkEntries chunk, e ∉ entry.getOrCreateRemoved.entries)
    (hnodup : (added.entries ++ chunkEntries chunk).Nodup)
    (hroom : Room .default added chunk) :
    entry.revertDuringCheckpoint chunk =
      ({ entry with
        removedData := some entry.getOrCreateRemoved
        addedData := some (added.withRows chunk) }, none) := by
  have hnote := appendIndexEntries_room hnodup hroom
  unfold revertDuringCheckpoint
  simp only [hadded]
  rcases hmixed with hnull | hkeys
  · have hentries := chunkEntries_of_null hnull
    have hdel := @tryDeleteAll_all κ _ entry.getOrCreateRemoved chunk (by simp [hentries])
      (by simp [hentries])
    rw [withRows_of_null hnull] at hnote ⊢
    rw [withoutRows_eq_self hremoved] at hdel
    cases hc : decide (chunk ≠ []) with
    | true => simp only [hdel, hc]
    | false => simp only [hdel, hc, hnote]
  · simp only [tryDeleteAll_none hkeys hremoved, hnote]

theorem retainDeletedRows_eq (hunique : entry.getOrCreateDeletedRows.unique = false)
    (hnodup : (entry.getOrCreateDeletedRows.entries ++ chunkEntries chunk).Nodup) :
    entry.retainDeletedRows chunk = ({ entry with
      deletedRowsInUse := some (entry.getOrCreateDeletedRows.withRows chunk) }, none) := by
  unfold retainDeletedRows
  rw [appendIndexEntries_room hnodup fun h => by simp [hunique] at h]

theorem releaseDeletedRows_eq (hnodup : (chunkEntries chunk).Nodup)
    (h : ∀ e ∈ chunkEntries chunk, e ∈ entry.getOrCreateDeletedRows.entries) :
    entry.releaseDeletedRows chunk = ({ entry with
      deletedRowsInUse := entry.deletedRowsInUse.map (·.withoutRows chunk) }, none) := by
  unfold releaseDeletedRows
  cases hd : entry.deletedRowsInUse with
  | none =>
      obtain ⟨_, _, _, _, _⟩ := entry
      obtain rfl := hd
      rfl
  | some deleted =>
      simp only [getOrCreateDeletedRows, hd, Option.getD_some] at h
      simp only [delete_all hnodup h, Option.map_some]

theorem mergeRemoved_eq (hnodup : entry.getOrCreateRemoved.entries.Nodup)
    (h : ∀ e ∈ entry.getOrCreateRemoved.entries, e ∈ entry.index.entries) :
    entry.mergeRemoved = ({ entry with
      index := entry.index.withoutRows entry.getOrCreateRemoved.scan
      removedData := none }, none) := by
  unfold mergeRemoved
  cases hr : entry.removedData with
  | none =>
      obtain ⟨_, _, _, _, _⟩ := entry
      obtain rfl := hr
      simp [getOrCreateRemoved, createEmptyCopy, scan, withoutRows]
  | some removed =>
      simp only [getOrCreateRemoved, hr, Option.getD_some] at h hnodup ⊢
      have hall := @tryDelete_all κ _ entry.index removed.scan (by simpa using hnodup)
        (by simpa using h)
      simp [removalMerge, hall, tryDelete_fst]

theorem mergeAdded_eq
    (hnodup : (entry.index.entries ++ entry.getOrCreateAdded.entries).Nodup)
    (hroom : Room .insertDuplicates entry.index entry.getOrCreateAdded.scan) :
    entry.mergeAdded = ({ entry with
      index := entry.index.withRows entry.getOrCreateAdded.scan
      addedData := none }, none) := by
  unfold mergeAdded
  cases ha : entry.addedData with
  | none =>
      obtain ⟨_, _, _, _, _⟩ := entry
      obtain rfl := ha
      simp [getOrCreateAdded, createEmptyCopy, scan, withRows]
  | some added =>
      simp only [getOrCreateAdded, ha, Option.getD_some] at hnodup hroom ⊢
      simp [insertMerge, insertKeys_room [] (by simpa using hnodup) hroom]

end IndexEntry

end MiniDuck
