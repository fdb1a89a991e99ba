import MiniDuck.Lts
import MiniDuck.Transaction

/-!
# Delete marks of one vector

`ChunkVectorInfo` stores for each of the `n` rows of a vector
(`STANDARD_VECTOR_SIZE` of them) the id of the transaction that deleted
it, `notDeletedId` if none did. The delete side is in one of three
storage states, and `ChunkVectorInfo.deletedId` reads the id of a row
in any of them.

Each operation of `chunk_info.cpp` has one lemma that says what it does
to these ids: `commitDelete_deletedId`, `compressVersionIds_deletedId`,
and for `delete` the pair `delete_ok` and `delete_error`. The last one
says which marks the undo loop of a conflict takes back: the marks of
this call, and also the marks that an earlier call of the same
transaction put on rows that the compaction left in the caller's array.
-/

namespace MiniDuck

/-- `STANDARD_VECTOR_SIZE` of the default build. -/
def standardVectorSize : Nat := 2048

/-- `DeleteIdState`, each state with the data it uses. -/
inductive DeleteIdState
  | constant (constantDeleteId : Nat)
  | masked (deletedMask : Nat → Bool) (maskDeleteId : Nat)
  | array (deleted : Nat → Nat)

/-- The delete side of a `ChunkVectorInfo`. -/
structure ChunkVectorInfo where
  deleteState : DeleteIdState

/-- `DeleteInfo`: the row list is only stored when it is not `0, .., count - 1`. -/
structure DeleteInfo where
  count : Nat
  isConsecutive : Bool
  rows : List Nat
  deriving Repr, DecidableEq

/-- The rows a `DeleteInfo` stands for. -/
def DeleteInfo.getRows (info : DeleteInfo) : List Nat :=
  if info.isConsecutive then List.range info.count else info.rows

def pushDelete (rows : List Nat) : DeleteInfo :=
  let isConsecutive := rows == List.range rows.length
  ⟨rows.length, isConsecutive, if isConsecutive then [] else rows⟩

theorem pushDelete_getRows (rows : List Nat) : (pushDelete rows).getRows = rows := by
  unfold pushDelete DeleteInfo.getRows
  by_cases h : rows = List.range rows.length
  · simp [← h]
  · simp [h]

namespace ChunkVectorInfo

/-- The id that a reader of row `r` finds. -/
def deletedId (info : ChunkVectorInfo) (r : Nat) : Nat :=
  match info.deleteState with
  | .constant id => id
  | .masked mask id => if mask r then id else notDeletedId
  | .array deleted => deleted r

/-- `GetInitializedDeletedPointer`: the per-row ids, materialized if needed. -/
def getInitializedDeletedPointer (info : ChunkVectorInfo) : Nat → Nat :=
  match info.deleteState with
  | .constant id => fun _ => id
  | .masked mask id => fun r => if mask r then id else notDeletedId
  | .array deleted => deleted

@[simp] theorem getInitializedDeletedPointer_eq (info : ChunkVectorInfo) :
    info.getInitializedDeletedPointer = info.deletedId := by
  funext r
  unfold getInitializedDeletedPointer deletedId
  cases info.deleteState <;> rfl

/-- Writes `id` into the given rows. -/
def writeIds (deleted : Nat → Nat) (rows : List Nat) (id : Nat) : Nat → Nat :=
  rows.foldl (fun deleted r => Function.update deleted r id) deleted

def deletesEntireVector (rows : List Nat) (count : Nat) : Bool :=
  rows == List.range count

/-- The exception text of `Delete`. -/
def deleteConflict : String := "Conflict on tuple deletion!"

/-- The loop of `Delete` from index `i` on, with `remaining` rounds to go.
The caller's array is compacted in place: `deletedTuples` rows so far. On a
conflict the first `i` entries of the array, as it is by then, are unmarked. -/
def deleteLoop (transactionId : Nat) (deleted : Nat → Nat) (rows : List Nat)
    (i deletedTuples : Nat) : Nat → (Nat → Nat) × Except String (List Nat)
  | 0 => (deleted, .ok (rows.take deletedTuples))
  | remaining + 1 =>
      let row := rows.getD i 0
      if deleted row = transactionId then
        deleteLoop transactionId deleted rows (i + 1) deletedTuples remaining
      else if deleted row ≠ notDeletedId then
        (writeIds deleted (rows.take i) notDeletedId, .error deleteConflict)
      else
        deleteLoop transactionId (Function.update deleted row transactionId)
          (rows.set deletedTuples row) (i + 1) (deletedTuples + 1) remaining

/-- The part of `Delete` that works on per-row ids. -/
def deleteMaterialized (info : ChunkVectorInfo) (transactionId : Nat) (rows : List Nat) :
    ChunkVectorInfo × Except String (List Nat) :=
  let (deleted, res) :=
    deleteLoop transactionId info.getInitializedDeletedPointer rows 0 0 rows.length
  (⟨.array deleted⟩, res)

/-- `ChunkVectorInfo::Delete`, with the rows it leaves at the front of the
caller's array. -/
def delete (n : Nat) (info : ChunkVectorInfo) (transactionId : Nat) (rows : List Nat) :
    ChunkVectorInfo × Except String (List Nat) :=
  match info.deleteState with
  | .constant id =>
      if id ≠ notDeletedId then
        if id = transactionId then (info, .ok []) else (info, .error deleteConflict)
      else if rows.length = n ∧ deletesEntireVector rows rows.length then
        (⟨.constant transactionId⟩, .ok rows)
      else info.deleteMaterialized transactionId rows
  | _ => info.deleteMaterialized transactionId rows

def commitDelete (n : Nat) (self : ChunkVectorInfo) (commitId : Nat) (info : DeleteInfo) :
    ChunkVectorInfo :=
  if info.isConsecutive ∧ info.count = n then ⟨.constant commitId⟩
  else
    let materialized :=
      let deleted := writeIds self.getInitializedDeletedPointer info.getRows commitId
      if ∀ i < n, deleted i = commitId then ⟨.constant commitId⟩ else ⟨.array deleted⟩
    match self.deleteState with
    | .constant id => if id = commitId then self else materialized
    | _ => materialized

/-- What the scan of `CompressVersionIds` has found so far. -/
structure DeleteScan where
  rowsAlive : Bool
  deletesPending : Bool
  deletesUncommitted : Bool
  deletesEqual : Bool
  maxDeleteId : Nat
  sharedDeleteId : Nat

def DeleteScan.start : DeleteScan := ⟨false, false, false, true, 0, notDeletedId⟩

def isCommitted (id : Nat) : Bool := decide (id ≤ maxCommitId)

/-- One round of the scan: row id `id` against the lowest visibility bound. -/
def DeleteScan.next (bound : VisibilityBound) (s : DeleteScan) (id : Nat) : DeleteScan :=
  if id = notDeletedId then { s with rowsAlive := true }
  else
    { rowsAlive := s.rowsAlive
      deletesPending := s.deletesPending || decide (id ≥ bound.value)
      deletesUncommitted :=
        s.deletesUncommitted || (decide (id ≥ bound.value) && !isCommitted id)
      deletesEqual := s.deletesEqual &&
        (decide (s.sharedDeleteId = notDeletedId) || decide (id = s.sharedDeleteId))
      maxDeleteId := if id ≥ bound.value then s.maxDeleteId else max s.maxDeleteId id
      sharedDeleteId := if s.sharedDeleteId = notDeletedId then id else s.sharedDeleteId }

def compressDeleteToMask (deleted : Nat → Nat) (maskId : Nat) : ChunkVectorInfo :=
  ⟨.masked (fun r => decide (deleted r ≠ notDeletedId)) maskId⟩

/-- The delete side of `CompressVersionIds`. Its cached `recheck_compression`
flag only makes it skip passes. -/
def compressVersionIds (n : Nat) (info : ChunkVectorInfo) (bound : VisibilityBound) :
    ChunkVectorInfo :=
  match info.deleteState with
  | .array deleted =>
      let scan := ((List.range n).map deleted).foldl (DeleteScan.next bound) DeleteScan.start
      if !scan.rowsAlive && !scan.deletesPending then ⟨.constant scan.maxDeleteId⟩
      else if !scan.rowsAlive then info
      else if !scan.deletesPending then compressDeleteToMask deleted 0
      else if scan.deletesEqual && !scan.deletesUncommitted then
        compressDeleteToMask deleted scan.sharedDeleteId
      else info
  | _ => info

/-! ## What the operations do to the ids -/

theorem writeIds_apply (id r : Nat) :
    (rows : List Nat) → (deleted : Nat → Nat) →
    writeIds deleted rows id r = if r ∈ rows then id else deleted r
  | [], deleted => by simp [writeIds]
  | a :: rows, deleted => by
      have ih := writeIds_apply id r rows (Function.update deleted a id)
      simp only [writeIds, List.foldl_cons] at ih ⊢
      rw [ih, Function.update_apply]
      by_cases hr : r ∈ rows <;> simp [hr]

/-- `CommitDelete` stamps exactly the rows of the info. -/
theorem commitDelete_deletedId {n : Nat} {self : ChunkVectorInfo} {commitId : Nat}
    {info : DeleteInfo} {r : Nat} (hr : r < n) :
    (self.commitDelete n commitId info).deletedId r =
      if r ∈ info.getRows then commitId else self.deletedId r := by
  by_cases hfull : info.isConsecutive ∧ info.count = n
  · have hmem : r ∈ info.getRows := by
      rw [DeleteInfo.getRows, if_pos hfull.1, hfull.2]
      exact List.mem_range.2 hr
    rw [commitDelete, if_pos hfull, if_pos hmem]
    rfl
  · have hmat : ChunkVectorInfo.deletedId
        (if ∀ i < n, writeIds self.getInitializedDeletedPointer info.getRows commitId i = commitId
          then ⟨.constant commitId⟩
          else ⟨.array (writeIds self.getInitializedDeletedPointer info.getRows commitId)⟩) r =
        if r ∈ info.getRows then commitId else self.deletedId r := by
      rw [getInitializedDeletedPointer_eq, ← writeIds_apply]
      split_ifs with hall
      · exact (hall r hr).symm
      · rfl
    rw [commitDelete, if_neg hfull]
    cases hstate : self.deleteState with
    | constant id =>
        by_cases hid : id = commitId
        · simp only [hid, if_true]
          have : self.deletedId r = commitId := by simp [deletedId, hstate, hid]
          rw [this, ite_self]
        · simp only [hid, if_false]
          exact hmat
    | masked mask id => exact hmat
    | array deleted => exact hmat

/-- The marks an ongoing `Delete` has set: the rows `new`. -/
def marked (transactionId : Nat) (deleted : Nat → Nat) (new : List Nat) : Nat → Nat :=
  fun r => if r ∈ new then transactionId else deleted r

/-- The state of the loop after `i` rounds: `new` holds the rows marked by
this call, in order, at the front of the array. -/
structure LoopInv (transactionId : Nat) (deleted : Nat → Nat) (rows : List Nat) (i : Nat)
    (new : List Nat) : Prop where
  nodup : new.Nodup
  le : new.length ≤ i
  fresh : ∀ r ∈ new, deleted r = notDeletedId
  done : ∀ r, r ∈ new ↔ r ∈ rows.take i ∧ deleted r ≠ transactionId
  conflictFree : ∀ r ∈ rows.take i, deleted r = transactionId ∨ deleted r = notDeletedId

variable {rows : List Nat}

theorem mem_take_succ {i : Nat} (hi : i < rows.length) {r : Nat} :
    r ∈ rows.take (i + 1) ↔ r ∈ rows.take i ∨ r = rows.getD i 0 := by
  rw [List.take_add_one, List.mem_append, List.getD_eq_getElem?_getD]
  simp [List.getElem?_eq_getElem hi]

variable {tid : Nat} {deleted : Nat → Nat} {new : List Nat}

theorem LoopInv.skip {i : Nat} (h : LoopInv tid deleted rows i new) (hi : i < rows.length)
    (hown : marked tid deleted new (rows.getD i 0) = tid) :
    LoopInv tid deleted rows (i + 1) new := by
  have hcase : rows.getD i 0 ∈ new ∨ deleted (rows.getD i 0) = tid := by
    by_cases hn : rows.getD i 0 ∈ new
    · exact Or.inl hn
    · rw [marked, if_neg hn] at hown
      exact Or.inr hown
  refine ⟨h.nodup, h.le.trans (Nat.le_succ i), h.fresh, fun r => ?_, fun r hr => ?_⟩
  · rw [h.done r, mem_take_succ hi]
    refine ⟨fun ⟨hr, hne⟩ => ⟨Or.inl hr, hne⟩, ?_⟩
    rintro ⟨hr | rfl, hne⟩
    · exact ⟨hr, hne⟩
    · rcases hcase with hn | ht
      · exact (h.done _).1 hn
      · exact absurd ht hne
  · rcases (mem_take_succ hi).1 hr with hr | rfl
    · exact h.conflictFree r hr
    · exact hcase.elim (fun hn => Or.inr (h.fresh _ hn)) Or.inl

theorem LoopInv.mark {i : Nat} (h : LoopInv tid deleted rows i new) (hi : i < rows.length)
    (htid : tid ≠ notDeletedId) (hnew : rows.getD i 0 ∉ new)
    (hfree : deleted (rows.getD i 0) = notDeletedId) :
    LoopInv tid deleted rows (i + 1) (new ++ [rows.getD i 0]) := by
  have hne : deleted (rows.getD i 0) ≠ tid := hfree ▸ htid.symm
  refine ⟨?_, ?_, fun r hr => ?_, fun r => ?_, fun r hr => ?_⟩
  · exact List.nodup_append.2 ⟨h.nodup, List.nodup_singleton _, fun a ha b hb => by
      rw [List.mem_singleton.1 hb]
      exact fun he => hnew (he ▸ ha)⟩
  · have := h.le
    simp only [List.length_append, List.length_singleton]
    omega
  · rcases List.mem_append.1 hr with hr | hr
    · exact h.fresh r hr
    · rw [List.mem_singleton.1 hr]
      exact hfree
  · rw [List.mem_append, List.mem_singleton, h.done r, mem_take_succ hi]
    constructor
    · rintro (⟨hr, hne⟩ | rfl)
      · exact ⟨Or.inl hr, hne⟩
      · exact ⟨Or.inr rfl, hne⟩
    · rintro ⟨hr | rfl, hne⟩
      · exact Or.inl ⟨hr, hne⟩
      · exact Or.inr rfl
  · rcases (mem_take_succ hi).1 hr with hr | rfl
    · exact h.conflictFree r hr
    · exact Or.inr hfree

theorem compacted_getD (rows : List Nat) {i : Nat} (hle : new.length ≤ i) :
    (new ++ rows.drop new.length).getD i 0 = rows.getD i 0 := by
  simp only [List.getD_eq_getElem?_getD]
  rw [List.getElem?_append_right hle, List.getElem?_drop, Nat.add_sub_cancel' hle]

theorem compacted_set {r : Nat} (hlt : new.length < rows.length) :
    (new ++ rows.drop new.length).set new.length r =
      (new ++ [r]) ++ rows.drop (new ++ [r]).length := by
  rw [List.set_append_right _ _ le_rfl, Nat.sub_self, List.append_assoc, List.length_append,
    List.length_singleton, List.drop_eq_getElem_cons hlt]
  rfl

theorem marked_update {r : Nat} :
    Function.update (marked tid deleted new) r tid = marked tid deleted (new ++ [r]) := by
  funext a
  by_cases ha : a = r <;> simp [marked, ha]

/-- A run of the loop ends with all rows marked, or at the first row that
another transaction holds. -/
theorem deleteLoop_spec (htid : tid ≠ notDeletedId) :
    (k i : Nat) → (new : List Nat) → LoopInv tid deleted rows i new → i + k = rows.length →
    (∃ res, LoopInv tid deleted rows rows.length res ∧
      deleteLoop tid (marked tid deleted new) (new ++ rows.drop new.length) i new.length k =
        (marked tid deleted res, .ok res)) ∨
    (∃ j res, j < rows.length ∧ LoopInv tid deleted rows j res ∧
      deleted (rows.getD j 0) ≠ tid ∧ deleted (rows.getD j 0) ≠ notDeletedId ∧
      deleteLoop tid (marked tid deleted new) (new ++ rows.drop new.length) i new.length k =
        (writeIds (marked tid deleted res) ((res ++ rows.drop res.length).take j) notDeletedId,
          .error deleteConflict))
  | 0, i, new, h, hlen => by
      refine Or.inl ⟨new, hlen ▸ h, ?_⟩
      simp [deleteLoop]
  | k + 1, i, new, h, hlen => by
      have hi : i < rows.length := by omega
      have hget := compacted_getD rows h.le
      rw [deleteLoop]
      simp only [hget]
      by_cases hown : marked tid deleted new (rows.getD i 0) = tid
      · rw [if_pos hown]
        exact deleteLoop_spec htid k (i + 1) new (h.skip hi hown) (by omega)
      · have hnew : rows.getD i 0 ∉ new := fun hn => hown (if_pos hn)
        have hval : marked tid deleted new (rows.getD i 0) = deleted (rows.getD i 0) :=
          if_neg hnew
        rw [if_neg hown, hval]
        rw [hval] at hown
        by_cases hfree : deleted (rows.getD i 0) = notDeletedId
        · rw [if_neg (not_not.2 hfree), marked_update,
            compacted_set (h.le.trans_lt hi)]
          have hnext := deleteLoop_spec htid k (i + 1) (new ++ [rows.getD i 0])
            (h.mark hi htid hnew hfree) (by omega)
          simpa using hnext
        · rw [if_pos hfree]
          exact Or.inr ⟨i, new, hi, h, hown, hfree, rfl⟩

theorem loopInv_start (tid : Nat) (deleted : Nat → Nat) (rows : List Nat) :
    LoopInv tid deleted rows 0 [] :=
  ⟨List.nodup_nil, le_rfl, by simp, by simp, by simp⟩

def heldByOther (info : ChunkVectorInfo) (tid r : Nat) : Bool :=
  decide (info.deletedId r ≠ tid) && decide (info.deletedId r ≠ notDeletedId)

def beforeConflict (info : ChunkVectorInfo) (tid : Nat) (rows : List Nat) : List Nat :=
  rows.takeWhile fun r => !info.heldByOther tid r

/-- The undo loop of a conflict leaves earlier marks alone: behind the
`d` first entries, where `d` is the number of rows the call newly marks, no
row before the conflict carries the transaction's own mark already. -/
def ConflictUndoSafe (info : ChunkVectorInfo) (tid : Nat) (rows : List Nat) : Prop :=
  let before := info.beforeConflict tid rows
  before.length < rows.length →
  ∀ r ∈ before.drop (before.filter fun r => info.deletedId r = notDeletedId).dedup.length,
    info.deletedId r ≠ tid

instance (info : ChunkVectorInfo) (tid : Nat) (rows : List Nat) :
    Decidable (info.ConflictUndoSafe tid rows) :=
  inferInstanceAs (Decidable (_ → _))

theorem takeWhile_eq_take {p : Nat → Bool} {j : Nat} (hj : j < rows.length)
    (hall : ∀ r ∈ rows.take j, p r = true) (hstop : p (rows.getD j 0) = false) :
    rows.takeWhile p = rows.take j := by
  have hget : rows.drop j = rows.getD j 0 :: rows.drop (j + 1) := by
    rw [List.drop_eq_getElem_cons hj, List.getD_eq_getElem?_getD,
      List.getElem?_eq_getElem hj, Option.getD_some]
  conv_lhs => rw [← List.take_append_drop j rows, hget]
  rw [List.takeWhile_append_of_pos hall, List.takeWhile_cons, hstop]
  simp

theorem LoopInv.length_eq {tid j : Nat} {deleted : Nat → Nat} {rows new : List Nat}
    (h : LoopInv tid deleted rows j new) (htid : tid ≠ notDeletedId) :
    ((rows.take j).filter fun r => deleted r = notDeletedId).dedup.length = new.length := by
  refine ((List.perm_ext_iff_of_nodup (List.nodup_dedup _) h.nodup).2 fun r => ?_).length_eq
  rw [List.mem_dedup, List.mem_filter, h.done r, decide_eq_true_iff]
  refine and_congr_right fun hr => ⟨fun he => he ▸ htid.symm, fun hne => ?_⟩
  exact (h.conflictFree r hr).resolve_left hne

theorem deleteMaterialized_spec (info : ChunkVectorInfo) (rows : List Nat)
    (htid : tid ≠ notDeletedId) : (∃ res, LoopInv tid info.deletedId rows rows.length res ∧
      info.deleteMaterialized tid rows = (⟨.array (marked tid info.deletedId res)⟩, .ok res)) ∨
    (∃ j res, j < rows.length ∧ LoopInv tid info.deletedId rows j res ∧
      info.deletedId (rows.getD j 0) ≠ tid ∧ info.deletedId (rows.getD j 0) ≠ notDeletedId ∧
      info.deleteMaterialized tid rows =
        (⟨.array (writeIds (marked tid info.deletedId res)
          ((res ++ rows.drop res.length).take j) notDeletedId)⟩, .error deleteConflict)) := by
  have hstart : marked tid info.deletedId [] = info.deletedId := by
    funext r
    simp [marked]
  have hspec := deleteLoop_spec htid rows.length 0 [] (loopInv_start tid info.deletedId rows)
    (Nat.zero_add _)
  simp only [hstart, List.nil_append, List.length_nil, List.drop_zero] at hspec
  rw [deleteMaterialized, getInitializedDeletedPointer_eq]
  rcases hspec with ⟨res, hinv, heq⟩ | ⟨j, res, hj, hinv, hown, hfree, heq⟩
  · exact Or.inl ⟨res, hinv, by rw [heq]⟩
  · exact Or.inr ⟨j, res, hj, hinv, hown, hfree, by rw [heq]⟩

theorem delete_cases (n tid : Nat) (info : ChunkVectorInfo) (rows : List Nat) :
    (info.delete n tid rows = (info, .ok []) ∧ ∀ r, info.deletedId r = tid) ∨
    (info.delete n tid rows = (info, .error deleteConflict) ∧
      ∀ r, info.deletedId r ≠ tid ∧ info.deletedId r ≠ notDeletedId) ∨
    (info.delete n tid rows = (⟨.constant tid⟩, .ok rows) ∧ rows = List.range n ∧
      ∀ r, info.deletedId r = notDeletedId) ∨
    info.delete n tid rows = info.deleteMaterialized tid rows := by
  unfold delete
  cases hstate : info.deleteState with
  | constant id =>
      have hid : ∀ r, info.deletedId r = id := fun r => by simp [deletedId, hstate]
      simp only [hid]
      split_ifs with hne hown hfull
      · exact Or.inl ⟨rfl, fun _ => hown⟩
      · exact Or.inr (Or.inl ⟨rfl, fun _ => ⟨hown, hne⟩⟩)
      · refine Or.inr (Or.inr (Or.inl ⟨rfl, ?_, fun _ => not_not.1 hne⟩))
        have := hfull.2
        rw [deletesEntireVector, hfull.1] at this
        exact eq_of_beq this
      · exact Or.inr (Or.inr (Or.inr rfl))
  | masked mask id => exact Or.inr (Or.inr (Or.inr rfl))
  | array deleted => exact Or.inr (Or.inr (Or.inr rfl))

variable {info : ChunkVectorInfo}

/-- A call that returns has marked exactly the rows it returns, all of them
unmarked before. -/
theorem delete_ok {n : Nat} {info' : ChunkVectorInfo} {res : List Nat} (htid : tid ≠ notDeletedId)
    (h : info.delete n tid rows = (info', .ok res)) :
    (∀ r ∈ res, r ∈ rows ∧ info.deletedId r = notDeletedId) ∧
    ∀ r < n, info'.deletedId r = if r ∈ res then tid else info.deletedId r := by
  rcases delete_cases n tid info rows with ⟨heq, hall⟩ | ⟨heq, -⟩ | ⟨heq, hrange, hall⟩ | heq
  · rw [heq] at h
    cases h
    simp
  · rw [heq] at h
    cases h
  · rw [heq] at h
    cases h
    refine ⟨fun r hr => ⟨hr, hall r⟩, fun r hr => ?_⟩
    rw [if_pos (by rw [hrange]; exact List.mem_range.2 hr)]
    rfl
  · rw [heq] at h
    rcases deleteMaterialized_spec info rows htid with
      ⟨res', hinv, hmat⟩ | ⟨j, res', -, -, -, -, hmat⟩
    · rw [hmat] at h
      cases h
      refine ⟨fun r hr => ⟨?_, hinv.fresh r hr⟩, fun r _ => rfl⟩
      exact List.mem_of_mem_take ((hinv.done r).1 hr).1
    · rw [hmat] at h
      cases h

theorem LoopInv.beforeConflict_eq {j : Nat} (h : LoopInv tid info.deletedId rows j new)
    (hj : j < rows.length) (hown : info.deletedId (rows.getD j 0) ≠ tid)
    (hfree : info.deletedId (rows.getD j 0) ≠ notDeletedId) :
    info.beforeConflict tid rows = rows.take j := by
  refine takeWhile_eq_take hj (fun r hr => ?_) ?_
  · rcases h.conflictFree r hr with hr | hr <;> simp [heldByOther, hr]
  · simp only [heldByOther, hown, hfree, ne_eq, not_false_eq_true, decide_true, Bool.and_true,
      Bool.not_true]

/-- A call that throws leaves all marks as they were if and only if its undo
loop is safe. -/
theorem delete_error {n : Nat} {info' : ChunkVectorInfo} {e : String} (htid : tid ≠ notDeletedId)
    (h : info.delete n tid rows = (info', .error e)) :
    (∀ r, info'.deletedId r = info.deletedId r) ↔ info.ConflictUndoSafe tid rows := by
  rcases delete_cases n tid info rows with ⟨heq, -⟩ | ⟨heq, hall⟩ | ⟨heq, -, -⟩ | heq
  · rw [heq] at h
    cases h
  · rw [heq] at h
    cases h
    exact ⟨fun _ _ r _ => (hall r).1, fun _ _ => rfl⟩
  · rw [heq] at h
    cases h
  · rw [heq] at h
    rcases deleteMaterialized_spec info rows htid with
      ⟨res, -, hmat⟩ | ⟨j, res, hj, hinv, hown, hfree, hmat⟩
    · rw [hmat] at h
      cases h
    · rw [hmat] at h
      cases h
      have hbefore := hinv.beforeConflict_eq hj hown hfree
      have hundo : (res ++ rows.drop res.length).take j =
          res ++ (rows.take j).drop res.length := by
        rw [List.take_append, List.take_of_length_le hinv.le, List.drop_take]
      have hlt : (rows.take j).length < rows.length := by
        rw [List.length_take]
        omega
      have hafter : ∀ r, (⟨.array (writeIds (marked tid info.deletedId res)
          ((res ++ rows.drop res.length).take j) notDeletedId)⟩ : ChunkVectorInfo).deletedId r =
          if r ∈ res ∨ r ∈ (rows.take j).drop res.length then notDeletedId
          else info.deletedId r := by
        intro r
        show writeIds _ _ _ r = _
        rw [writeIds_apply, hundo]
        by_cases hr : r ∈ res <;> simp [marked, hr]
      simp only [ConflictUndoSafe, hbefore, hinv.length_eq htid]
      constructor
      · intro hsame _ r hr hmine
        have := hsame r
        rw [hafter, if_pos (Or.inr hr), hmine] at this
        exact htid this.symm
      · intro hsafe r
        rw [hafter]
        split_ifs with hr
        · rcases hr with hr | hr
          · exact (hinv.fresh r hr).symm
          · have hne := hsafe hlt r hr
            exact ((hinv.conflictFree r (List.mem_of_mem_drop hr)).resolve_left hne).symm
        · rfl

/-! ### Compression -/

/-- What the flags of the scan say about the ids seen so far. -/
structure ScanInv (bound : VisibilityBound) (seen : List Nat) (s : DeleteScan) : Prop where
  alive : notDeletedId ∈ seen → s.rowsAlive = true
  pending : ∀ id ∈ seen, id ≠ notDeletedId → bound.value ≤ id → s.deletesPending = true
  max_of : ∀ P : Nat → Prop, P 0 →
    (∀ id ∈ seen, id ≠ notDeletedId → id < bound.value → P id) → P s.maxDeleteId
  shared : s.deletesEqual = true → ∀ id ∈ seen, id ≠ notDeletedId → id = s.sharedDeleteId

theorem ScanInv.next {bound : VisibilityBound} {seen : List Nat} {s : DeleteScan}
    (h : ScanInv bound seen s) (id : Nat) : ScanInv bound (seen ++ [id]) (s.next bound id) := by
  by_cases hid : id = notDeletedId
  · rw [DeleteScan.next, if_pos hid]
    refine ⟨fun _ => rfl, fun i hi hne => ?_,
      fun P hzero hall => h.max_of P hzero fun i hi => hall i (List.mem_append_left _ hi),
      fun heq i hi hne => ?_⟩
    · exact h.pending i ((List.mem_append.1 hi).resolve_right
        fun hi => hne (List.mem_singleton.1 hi ▸ hid)) hne
    · exact h.shared heq i ((List.mem_append.1 hi).resolve_right
        fun hi => hne (List.mem_singleton.1 hi ▸ hid)) hne
  · have hold : ∀ i ∈ seen ++ [id], i ∈ seen ∨ i = id := fun i hi => by simpa using hi
    rw [DeleteScan.next, if_neg hid]
    constructor
    · exact fun hm => h.alive ((hold _ hm).resolve_right (Ne.symm hid))
    · intro i hi hne hle
      rcases hold i hi with hi | rfl
      · simp [h.pending i hi hne hle]
      · simp [hle]
    · intro P hzero hall
      have hmax := h.max_of P hzero fun i hi => hall i (List.mem_append_left _ hi)
      simp only
      split_ifs with hle
      · exact hmax
      · have hnew := hall id (by simp) hid (by omega)
        rcases le_total s.maxDeleteId id with hm | hm
        · rwa [Nat.max_eq_right hm]
        · rwa [Nat.max_eq_left hm]
    · intro heq i hi hne
      simp only [Bool.and_eq_true, Bool.or_eq_true, decide_eq_true_iff] at heq
      show i = if s.sharedDeleteId = notDeletedId then id else s.sharedDeleteId
      rcases hold i hi with hi | rfl
      · have hsh := h.shared heq.1 i hi hne
        rw [if_neg (hsh ▸ hne)]
        exact hsh
      · rcases heq.2 with hnone | hsame
        · rw [if_pos hnone]
        · rw [← hsame, ite_self]

theorem scanInv_foldl {bound : VisibilityBound} :
    (l : List Nat) → {seen : List Nat} → {s : DeleteScan} → ScanInv bound seen s →
    ScanInv bound (seen ++ l) (l.foldl (DeleteScan.next bound) s)
  | [], seen, s, h => by simpa using h
  | id :: l, seen, s, h => by
      have := scanInv_foldl l (h.next id)
      simpa using this

theorem scanInv_start (bound : VisibilityBound) : ScanInv bound [] DeleteScan.start :=
  ⟨by simp, by simp, fun _ hzero _ => hzero, by simp⟩

/-- Compression keeps rows that are alive and ids at or above the bound; an id
below the bound keeps every property that 0 and all such ids have. -/
theorem compressVersionIds_deletedId {n r : Nat} (info : ChunkVectorInfo)
    (bound : VisibilityBound) (hr : r < n) :
    (info.deletedId r = notDeletedId →
      (info.compressVersionIds n bound).deletedId r = notDeletedId) ∧
    (bound.value ≤ info.deletedId r →
      (info.compressVersionIds n bound).deletedId r = info.deletedId r) ∧
    (info.deletedId r < bound.value → info.deletedId r ≠ notDeletedId →
      ∀ P : Nat → Prop, P 0 →
        (∀ r < n, info.deletedId r ≠ notDeletedId → info.deletedId r < bound.value →
          P (info.deletedId r)) → P ((info.compressVersionIds n bound).deletedId r)) := by
  cases hstate : info.deleteState with
  | constant id =>
      have hsame : info.compressVersionIds n bound = info := by
        simp only [compressVersionIds, hstate]
      rw [hsame]
      exact ⟨fun h => h, fun _ => rfl, fun hlt hne P _ hall => hall r hr hne hlt⟩
  | masked mask id =>
      have hsame : info.compressVersionIds n bound = info := by
        simp only [compressVersionIds, hstate]
      rw [hsame]
      exact ⟨fun h => h, fun _ => rfl, fun hlt hne P _ hall => hall r hr hne hlt⟩
  | array deleted =>
      have hid : info.deletedId r = deleted r := by simp [deletedId, hstate]
      have hscan := scanInv_foldl ((List.range n).map deleted) (scanInv_start bound)
      rw [List.nil_append] at hscan
      set scan := ((List.range n).map deleted).foldl (DeleteScan.next bound) DeleteScan.start
      have hmem : deleted r ∈ (List.range n).map deleted :=
        List.mem_map_of_mem (List.mem_range.2 hr)
      have halive : deleted r = notDeletedId → scan.rowsAlive = true := fun he =>
        hscan.alive (he ▸ hmem)
      have hpend := hscan.pending _ hmem
      have hshared := fun heq => hscan.shared heq _ hmem
      have hcomp : info.compressVersionIds n bound =
          if !scan.rowsAlive && !scan.deletesPending then ⟨.constant scan.maxDeleteId⟩
          else if !scan.rowsAlive then info
          else if !scan.deletesPending then compressDeleteToMask deleted 0
          else if scan.deletesEqual && !scan.deletesUncommitted then
            compressDeleteToMask deleted scan.sharedDeleteId
          else info := by
        simp only [compressVersionIds, hstate]
        rfl
      have hmask : ∀ id, (compressDeleteToMask deleted id).deletedId r =
          if deleted r = notDeletedId then notDeletedId else id := fun id => by
        by_cases hd : deleted r = notDeletedId <;> simp [compressDeleteToMask, deletedId, hd]
      rw [hcomp, hid]
      refine ⟨fun hd => ?_, fun hle => ?_, fun hlt hne P hzero hall => ?_⟩
      · rw [halive hd]
        simp only [Bool.not_true, Bool.false_and, Bool.false_eq_true, if_false]
        split_ifs
        · rw [hmask, if_pos hd]
        · rw [hmask, if_pos hd]
        · rw [hid, hd]
      · by_cases hd : deleted r = notDeletedId
        · rw [halive hd]
          simp only [Bool.not_true, Bool.false_and, Bool.false_eq_true, if_false]
          split_ifs
          · rw [hmask, if_pos hd, hd]
          · rw [hmask, if_pos hd, hd]
          · exact hid
        · rw [hpend hd hle]
          simp only [Bool.not_true, Bool.and_false, Bool.false_eq_true, if_false]
          split_ifs with h1 h2
          · exact hid
          · rw [hmask, if_neg hd]
            exact (hshared (by simp_all) hd).symm
          · exact hid
      · have hall' : ∀ r < n, deleted r ≠ notDeletedId → deleted r < bound.value →
            P (deleted r) := by
          simpa [deletedId, hstate] using hall
        split_ifs with h1 h2 h3 h4
        · refine hscan.max_of P hzero fun id hid => ?_
          obtain ⟨r', hr', rfl⟩ := List.mem_map.1 hid
          exact hall' r' (List.mem_range.1 hr')
        · rw [hid]
          exact hall' r hr hne hlt
        · rw [hmask, if_neg hne]
          exact hzero
        · rw [hmask, if_neg hne, ← hshared (by simp_all) hne]
          exact hall' r hr hne hlt
        · rw [hid]
          exact hall' r hr hne hlt

end ChunkVectorInfo

end MiniDuck
