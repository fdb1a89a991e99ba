import MiniDuck.ChunkInfo
import MiniDuck.ValidityMask

/-!
# Reading the versions of one vector

`VectorInfo` is a whole `ChunkVectorInfo`: the insert ids, constant or one a
row, and the delete ids in one of their three states. A scan asks for the rows
whose insert id it accepts and whose delete id it does not count as deleted
(`VectorInfo.accepts`). `getSelVector` has a path of its own for each pair of
states; `templatedGetSelVector_selects` says that all of them find these rows,
as long as no masked vector meets a scan that counts the marker of an
undeleted row as a delete.

The last sections lift this to the vectors of a row group: `getRowCount` adds
up the counts, `getVisibleRows` fetches a list of rows one run at a time.
-/

namespace MiniDuck

/-! ## Scan options -/

inductive InsertedScanType
  | standard
  | allRows
  deriving Repr, DecidableEq

inductive DeletedScanType
  | standard
  | includeAllDeleted
  | omitCommittedDeletes
  deriving Repr, DecidableEq

/-- `ScanOptions`, without the update side. -/
structure ScanOptions where
  view : SnapshotView
  insertType : InsertedScanType
  deleteType : DeletedScanType
  deriving Repr, DecidableEq

/-- `UseInsertedVersion` of `StandardInsertOperator` and `IncludeAllInsertedOperator`. -/
def InsertedScanType.useInsertedVersion (type : InsertedScanType) (view : SnapshotView)
    (id : Nat) : Bool :=
  match type with
  | .standard => view.sees id
  | .allRows => true

/-- `IsDeleted` of `StandardDeleteOperator`, `IncludeAllDeletedOperator` and
`CommittedDeleteOperator`. -/
def DeletedScanType.isDeleted (type : DeletedScanType) (view : SnapshotView) (id : Nat) : Bool :=
  match type with
  | .standard => view.sees id
  | .includeAllDeleted => false
  | .omitCommittedDeletes => decide (id < view.visibilityBound.value)

/-! ## Selection vectors -/

/-- What a scan returns: the count, and the selection vector if the caller
passed one. -/
structure Selection where
  count : Nat
  selVector : Option (Nat → Nat)

namespace Selection

/-- `sel_vector->set_index(count++, i)`. -/
def push (s : Selection) (i : Nat) : Selection :=
  ⟨s.count + 1, s.selVector.map fun sel => Function.update sel s.count i⟩

/-- A loop over `rows` that selects the ones to keep. -/
def pushRows (keep : Nat → Bool) (s : Selection) (rows : List Nat) : Selection :=
  rows.foldl (fun s i => if keep i then s.push i else s) s

/-- The selection vector starts with exactly these rows. -/
structure Holds (s : Selection) (rows : List Nat) : Prop where
  count_eq : s.count = rows.length
  listed : ∀ sel ∈ s.selVector, (List.range s.count).map sel = rows

/-- The result of a scan of `maxCount` rows that finds `rows`: the selection
vector is only filled when some row is missing. -/
structure Selects (s : Selection) (maxCount : Nat) (rows : List Nat) : Prop where
  count_eq : s.count = rows.length
  listed : s.count < maxCount → ∀ sel ∈ s.selVector, (List.range s.count).map sel = rows

/-- Row `i` is part of a scan of `maxCount` rows. -/
def IsSelected (s : Selection) (maxCount i : Nat) : Prop :=
  s.count = maxCount ∨ ∃ sel ∈ s.selVector, i ∈ (List.range s.count).map sel

theorem holds_nil (sel : Option (Nat → Nat)) : Holds ⟨0, sel⟩ [] :=
  ⟨rfl, fun _ _ => rfl⟩

variable {s : Selection}

theorem Holds.push {rows : List Nat} (h : s.Holds rows) (i : Nat) :
    (s.push i).Holds (rows ++ [i]) := by
  refine ⟨by simp [Selection.push, h.count_eq], fun sel hsel => ?_⟩
  obtain ⟨old, hold, rfl⟩ := Option.mem_map.1 hsel
  have hkeep : (List.range s.count).map (Function.update old s.count i) =
      (List.range s.count).map old :=
    List.map_congr_left fun k hk =>
      Function.update_of_ne (List.mem_range.1 hk).ne i old
  show (List.range (s.count + 1)).map (Function.update old s.count i) = rows ++ [i]
  rw [List.range_succ, List.map_append, hkeep, h.listed old hold, List.map_singleton,
    Function.update_self]

theorem Holds.pushRows (keep : Nat → Bool) (rows : List Nat) {s : Selection} {found : List Nat}
    (h : s.Holds found) : (s.pushRows keep rows).Holds (found ++ rows.filter keep) := by
  induction rows generalizing s found with
  | nil => simpa [Selection.pushRows] using h
  | cons i rows ih =>
      by_cases hk : keep i = true
      · have := ih (h.push i)
        simpa [Selection.pushRows, hk] using this
      · have := ih h
        simpa [Selection.pushRows, hk] using this

theorem Holds.selects {rows : List Nat} (h : s.Holds rows) (maxCount : Nat) :
    s.Selects maxCount rows :=
  ⟨h.count_eq, fun _ => h.listed⟩

theorem pushRows_selects (keep : Nat → Bool) (sel : Option (Nat → Nat)) (maxCount : Nat) :
    (pushRows keep ⟨0, sel⟩ (List.range maxCount)).Selects maxCount
      ((List.range maxCount).filter keep) :=
  ((holds_nil sel).pushRows keep (List.range maxCount)).selects maxCount

variable {keep : Nat → Bool}

/-- An early return of a scan that keeps no row. -/
theorem selects_none (h : ∀ i, keep i = false) (sel : Option (Nat → Nat)) (maxCount : Nat) :
    Selects ⟨0, sel⟩ maxCount ((List.range maxCount).filter keep) := by
  have : (List.range maxCount).filter keep = [] := List.filter_eq_nil_iff.2 fun i _ => by simp [h i]
  rw [this]
  exact (holds_nil sel).selects maxCount

/-- An early return of a scan that keeps every row. -/
theorem selects_all (h : ∀ i, keep i = true) (sel : Option (Nat → Nat)) (maxCount : Nat) :
    Selects ⟨maxCount, sel⟩ maxCount ((List.range maxCount).filter keep) := by
  have : (List.range maxCount).filter keep = List.range maxCount :=
    List.filter_eq_self.2 fun i _ => h i
  rw [this]
  exact ⟨by simp, fun hlt => absurd hlt (lt_irrefl _)⟩

theorem pushRows_isSome (keep : Nat → Bool) (rows : List Nat) (s : Selection) :
    (s.pushRows keep rows).selVector.isSome = s.selVector.isSome := by
  induction rows generalizing s with
  | nil => rfl
  | cons i rows ih =>
      by_cases hk : keep i = true
      · have := ih (s.push i)
        simpa [Selection.pushRows, hk, Selection.push] using this
      · have := ih s
        simpa [Selection.pushRows, hk] using this

theorem Selects.isSelected_iff {maxCount i : Nat}
    (h : s.Selects maxCount ((List.range maxCount).filter keep)) (hsel : s.selVector.isSome = true)
    (hi : i < maxCount) : s.IsSelected maxCount i ↔ keep i = true := by
  obtain ⟨sel, hsome⟩ := Option.isSome_iff_exists.1 hsel
  have hle := List.length_filter_le keep (List.range maxCount)
  rw [List.length_range, ← h.count_eq] at hle
  rcases hle.lt_or_eq with hlt | heq
  · have hlist := h.listed hlt sel hsome
    constructor
    · rintro (hall | ⟨sel', hsel', hmem⟩)
      · exact absurd hall hlt.ne
      · rw [h.listed hlt sel' hsel'] at hmem
        exact (List.mem_filter.1 hmem).2
    · intro hk
      exact Or.inr ⟨sel, hsome, hlist ▸ List.mem_filter.2 ⟨List.mem_range.2 hi, hk⟩⟩
  · refine ⟨fun _ => ?_, fun _ => Or.inl heq⟩
    rw [h.count_eq] at heq
    have hall := List.length_filter_eq_length_iff.1 (heq.trans List.length_range.symm)
    exact hall i (List.mem_range.2 hi)

end Selection

/-! ## One vector -/

/-- The insert side of a `ChunkVectorInfo`. -/
inductive InsertIdState
  | constant (constantInsertId : Nat)
  | array (inserted : Nat → Nat)

/-- A `ChunkVectorInfo` with both sides and its cached compression check. -/
structure VectorInfo where
  insertState : InsertIdState
  deletes : ChunkVectorInfo
  recheckCompression : Bool

namespace VectorInfo

/-- The id of the transaction that inserted row `r`. -/
def insertId (info : VectorInfo) (r : Nat) : Nat :=
  match info.insertState with
  | .constant id => id
  | .array inserted => inserted r

/-- The id of the transaction that deleted row `r`. -/
def deleteId (info : VectorInfo) (r : Nat) : Nat := info.deletes.deletedId r

def fetch (info : VectorInfo) (view : SnapshotView) (row : Nat) : Bool :=
  let fetchInsertId := match info.insertState with
    | .constant id => id
    | .array inserted => inserted row
  let fetchDeletedId := match info.deletes.deleteState with
    | .constant id => id
    | .masked deletedMask maskDeleteId => if deletedMask row then maskDeleteId else notDeletedId
    | .array deleted => deleted row
  view.sees fetchInsertId && !view.sees fetchDeletedId

/-- One word of the mask scan: an all-deleted word is skipped, an all-alive
one is taken as a whole. -/
def selectEntry (deletedMask : Nat → Bool) (maxCount : Nat) (s : Selection) (entryIdx : Nat) :
    Selection :=
  let entry := ValidityMask.getValidityEntry deletedMask entryIdx
  let base := entryIdx * ValidityMask.bitsPerValue
  let rows := ValidityMask.entryRows maxCount entryIdx
  if ValidityMask.allValid entry then s
  else if ValidityMask.noneValid entry then s.pushRows (fun _ => true) rows
  else s.pushRows (fun i => !ValidityMask.rowIsValid entry (i - base)) rows

def templatedGetSelVector (useInsertedVersion isDeleted : SnapshotView → Nat → Bool)
    (info : VectorInfo) (view : SnapshotView) (selVector : Option (Nat → Nat)) (maxCount : Nat) :
    Selection :=
  match info.deletes.deleteState with
  | .constant constantDeleteId =>
      if isDeleted view constantDeleteId then ⟨0, selVector⟩
      else match info.insertState with
        | .constant constantInsertId =>
            if useInsertedVersion view constantInsertId then ⟨maxCount, selVector⟩
            else ⟨0, selVector⟩
        | .array inserted =>
            Selection.pushRows (fun i => useInsertedVersion view (inserted i))
              ⟨0, selVector⟩ (List.range maxCount)
  | .masked deletedMask maskDeleteId =>
      match info.insertState with
      | .constant constantInsertId =>
          if !useInsertedVersion view constantInsertId then ⟨0, selVector⟩
          else if !isDeleted view maskDeleteId then ⟨maxCount, selVector⟩
          else match selVector with
            | none => ⟨maxCount - ValidityMask.countValid deletedMask maxCount, none⟩
            | some sel =>
                (List.range (ValidityMask.entryCount maxCount)).foldl
                  (selectEntry deletedMask maxCount) ⟨0, some sel⟩
      | .array inserted =>
          Selection.pushRows
            (fun i => useInsertedVersion view (inserted i) &&
              !(isDeleted view maskDeleteId && deletedMask i))
            ⟨0, selVector⟩ (List.range maxCount)
  | .array deleted =>
      match info.insertState with
      | .constant constantInsertId =>
          if !useInsertedVersion view constantInsertId then ⟨0, selVector⟩
          else
            Selection.pushRows (fun i => !isDeleted view (deleted i))
              ⟨0, selVector⟩ (List.range maxCount)
      | .array inserted =>
          Selection.pushRows
            (fun i => useInsertedVersion view (inserted i) && !isDeleted view (deleted i))
            ⟨0, selVector⟩ (List.range maxCount)

def getSelVector (info : VectorInfo) (options : ScanOptions) (selVector : Option (Nat → Nat))
    (maxCount : Nat) : Selection :=
  if options.insertType = .allRows ∧ options.deleteType = .includeAllDeleted then
    ⟨maxCount, selVector⟩
  else
    info.templatedGetSelVector options.insertType.useInsertedVersion
      options.deleteType.isDeleted options.view selVector maxCount

def getRowCount (info : VectorInfo) (options : ScanOptions) (maxCount : Nat) : Nat :=
  (info.getSelVector options none maxCount).count

/-! ## The rows a scan is after -/

/-- The per-row definition: the insert id is accepted, the delete id not
counted as deleted. -/
def accepts (useInsertedVersion isDeleted : SnapshotView → Nat → Bool) (info : VectorInfo)
    (view : SnapshotView) (i : Nat) : Bool :=
  useInsertedVersion view (info.insertId i) && !isDeleted view (info.deleteId i)

/-- A masked vector takes its unmarked rows to be alive without looking at
`notDeletedId`, so the scan must not count this marker as a delete either. -/
def MarkerAlive (isDeleted : SnapshotView → Nat → Bool) (info : VectorInfo)
    (view : SnapshotView) : Prop :=
  (∃ deletedMask maskDeleteId, info.deletes.deleteState = .masked deletedMask maskDeleteId) →
    isDeleted view notDeletedId = false

theorem fetch_eq (info : VectorInfo) (view : SnapshotView) (row : Nat) :
    info.fetch view row = (view.sees (info.insertId row) && !view.sees (info.deleteId row)) := by
  unfold fetch insertId deleteId ChunkVectorInfo.deletedId
  cases info.insertState <;> cases info.deletes.deleteState <;> rfl

theorem mem_entryRows {maxCount e i : Nat} (h : i ∈ ValidityMask.entryRows maxCount e) :
    ∃ k < ValidityMask.bitsPerValue, i = e * ValidityMask.bitsPerValue + k := by
  obtain ⟨hlo, hhi⟩ := List.mem_range'_1.1 h
  exact ⟨i - e * ValidityMask.bitsPerValue, by omega, by omega⟩

/-- One word of the mask scan adds the unmarked rows of its entry. -/
theorem selectEntry_holds {s : Selection} {found : List Nat} (deletedMask : Nat → Bool)
    (maxCount e : Nat) (h : s.Holds found) :
    (selectEntry deletedMask maxCount s e).Holds
      (found ++ (ValidityMask.entryRows maxCount e).filter fun i => !deletedMask i) := by
  rw [selectEntry]
  split_ifs with hall hnone
  · have : (ValidityMask.entryRows maxCount e).filter (fun i => !deletedMask i) = [] := by
      refine List.filter_eq_nil_iff.2 fun i hi => ?_
      obtain ⟨k, hk, rfl⟩ := mem_entryRows hi
      simp [ValidityMask.allValid_iff.1 hall k hk]
    rw [this, List.append_nil]
    exact h
  · have : (ValidityMask.entryRows maxCount e).filter (fun i => !deletedMask i) =
        (ValidityMask.entryRows maxCount e).filter fun _ => true := by
      refine List.filter_congr fun i hi => ?_
      obtain ⟨k, hk, rfl⟩ := mem_entryRows hi
      simp [ValidityMask.noneValid_iff.1 hnone k hk]
    rw [this]
    exact h.pushRows _ _
  · have : (ValidityMask.entryRows maxCount e).filter (fun i => !deletedMask i) =
        (ValidityMask.entryRows maxCount e).filter fun i =>
          !ValidityMask.rowIsValid (ValidityMask.getValidityEntry deletedMask e)
            (i - e * ValidityMask.bitsPerValue) := by
      refine List.filter_congr fun i hi => ?_
      obtain ⟨k, hk, rfl⟩ := mem_entryRows hi
      rw [Nat.add_sub_cancel_left, ValidityMask.rowIsValid_eq _ _ hk]
    rw [this]
    exact h.pushRows _ _

theorem selectEntries_holds {s : Selection} (deletedMask : Nat → Bool) (maxCount : Nat)
    (entries : List Nat) {found : List Nat} (h : s.Holds found) :
    (entries.foldl (selectEntry deletedMask maxCount) s).Holds
      (found ++ (entries.flatMap (ValidityMask.entryRows maxCount)).filter
        fun i => !deletedMask i) := by
  induction entries generalizing s found with
  | nil => simpa using h
  | cons e entries ih =>
      have := ih (selectEntry_holds deletedMask maxCount e h)
      simpa [List.filter_append] using this

theorem maskScan_selects (deletedMask : Nat → Bool) (selVector : Option (Nat → Nat))
    (maxCount : Nat) :
    ((List.range (ValidityMask.entryCount maxCount)).foldl (selectEntry deletedMask maxCount)
      ⟨0, selVector⟩).Selects maxCount ((List.range maxCount).filter fun i => !deletedMask i) := by
  have h := selectEntries_holds deletedMask maxCount
    (List.range (ValidityMask.entryCount maxCount)) (Selection.holds_nil selVector)
  rw [ValidityMask.flatMap_entryRows, List.nil_append] at h
  exact h.selects maxCount

/-- The count of a masked vector without a selection vector. -/
theorem maskCount_selects (deletedMask : Nat → Bool) (maxCount : Nat) :
    Selection.Selects ⟨maxCount - ValidityMask.countValid deletedMask maxCount, none⟩ maxCount
      ((List.range maxCount).filter fun i => !deletedMask i) := by
  have hsum := List.length_eq_countP_add_countP deletedMask (l := List.range maxCount)
  have hnot : (List.range maxCount).countP (fun i => decide ¬deletedMask i = true) =
      (List.range maxCount).countP fun i => !deletedMask i :=
    List.countP_congr fun i _ => by simp
  rw [List.length_range, hnot] at hsum
  refine ⟨?_, fun _ sel hsel => absurd hsel (by simp)⟩
  show maxCount - ValidityMask.countValid deletedMask maxCount = _
  rw [ValidityMask.countValid_eq, ← List.countP_eq_length_filter]
  omega

theorem templatedGetSelVector_selects (useInsertedVersion isDeleted : SnapshotView → Nat → Bool)
    (info : VectorInfo) (view : SnapshotView) (selVector : Option (Nat → Nat)) (maxCount : Nat)
    (hmarker : MarkerAlive isDeleted info view) :
    (info.templatedGetSelVector useInsertedVersion isDeleted view selVector maxCount).Selects
      maxCount ((List.range maxCount).filter (info.accepts useInsertedVersion isDeleted view)) := by
  rw [templatedGetSelVector]
  cases hdel : info.deletes.deleteState with
  | constant constantDeleteId =>
      have hid : ∀ i, info.deleteId i = constantDeleteId := fun i => by
        simp [deleteId, ChunkVectorInfo.deletedId, hdel]
      by_cases hd : isDeleted view constantDeleteId = true
      · simp only [hd, if_true]
        exact Selection.selects_none (fun i => by simp [accepts, hid, hd]) _ _
      · simp only [hd]
        cases hins : info.insertState with
        | constant constantInsertId =>
            by_cases hu : useInsertedVersion view constantInsertId = true
            · simp only [hu, if_true]
              exact Selection.selects_all
                (fun i => by simp [accepts, hid, hd, insertId, hins, hu]) _ _
            · simp only [hu]
              exact Selection.selects_none
                (fun i => by simp [accepts, insertId, hins, hu]) _ _
        | array inserted =>
            have hkeep : info.accepts useInsertedVersion isDeleted view =
                fun i => useInsertedVersion view (inserted i) := by
              funext i
              simp [accepts, hid, hd, insertId, hins]
            rw [hkeep]
            exact Selection.pushRows_selects _ _ _
  | masked deletedMask maskDeleteId =>
      have halive := hmarker ⟨deletedMask, maskDeleteId, hdel⟩
      have hid : ∀ i, isDeleted view (info.deleteId i) =
          (isDeleted view maskDeleteId && deletedMask i) := fun i => by
        cases hm : deletedMask i <;>
          simp [deleteId, ChunkVectorInfo.deletedId, hdel, hm, halive]
      cases hins : info.insertState with
      | constant constantInsertId =>
          by_cases hu : useInsertedVersion view constantInsertId = true
          · by_cases hd : isDeleted view maskDeleteId = true
            · have hkeep : info.accepts useInsertedVersion isDeleted view =
                  fun i => !deletedMask i := by
                funext i
                simp [accepts, hid, hd, insertId, hins, hu]
              rw [hkeep]
              simp only [hu, hd]
              cases selVector with
              | none => exact maskCount_selects deletedMask maxCount
              | some sel => exact maskScan_selects deletedMask (some sel) maxCount
            · simp only [hu, hd]
              exact Selection.selects_all
                (fun i => by simp [accepts, hid, hd, insertId, hins, hu]) _ _
          · simp only [hu]
            exact Selection.selects_none (fun i => by simp [accepts, insertId, hins, hu]) _ _
      | array inserted =>
          have hkeep : info.accepts useInsertedVersion isDeleted view = fun i =>
              useInsertedVersion view (inserted i) &&
                !(isDeleted view maskDeleteId && deletedMask i) := by
            funext i
            rw [accepts, hid, insertId, hins]
          rw [hkeep]
          exact Selection.pushRows_selects _ _ _
  | array deleted =>
      have hid : ∀ i, info.deleteId i = deleted i := fun i => by
        simp [deleteId, ChunkVectorInfo.deletedId, hdel]
      cases hins : info.insertState with
      | constant constantInsertId =>
          by_cases hu : useInsertedVersion view constantInsertId = true
          · have hkeep : info.accepts useInsertedVersion isDeleted view =
                fun i => !isDeleted view (deleted i) := by
              funext i
              simp [accepts, hid, insertId, hins, hu]
            rw [hkeep]
            simp only [hu]
            exact Selection.pushRows_selects _ _ _
          · simp only [hu]
            exact Selection.selects_none (fun i => by simp [accepts, insertId, hins, hu]) _ _
      | array inserted =>
          have hkeep : info.accepts useInsertedVersion isDeleted view = fun i =>
              useInsertedVersion view (inserted i) && !isDeleted view (deleted i) := by
            funext i
            rw [accepts, hid, insertId, hins]
          rw [hkeep]
          exact Selection.pushRows_selects _ _ _

theorem selectEntries_isSome (deletedMask : Nat → Bool) (maxCount : Nat) (entries : List Nat)
    (s : Selection) :
    (entries.foldl (selectEntry deletedMask maxCount) s).selVector.isSome =
      s.selVector.isSome := by
  induction entries generalizing s with
  | nil => rfl
  | cons e entries ih =>
      rw [List.foldl_cons, ih, selectEntry]
      split_ifs with hall hnone
      · rfl
      · exact Selection.pushRows_isSome _ _ s
      · exact Selection.pushRows_isSome _ _ s

/-- A scan hands back the selection vector it was given. -/
theorem getSelVector_isSome (info : VectorInfo) (options : ScanOptions)
    (selVector : Option (Nat → Nat)) (maxCount : Nat) :
    (info.getSelVector options selVector maxCount).selVector.isSome = selVector.isSome := by
  unfold getSelVector templatedGetSelVector
  split_ifs
  · rfl
  · cases info.deletes.deleteState with
    | constant constantDeleteId =>
        cases info.insertState with
        | constant constantInsertId =>
            dsimp only
            split_ifs <;> rfl
        | array inserted =>
            dsimp only
            split_ifs
            · rfl
            · exact Selection.pushRows_isSome _ _ _
    | masked deletedMask maskDeleteId =>
        cases info.insertState with
        | constant constantInsertId =>
            dsimp only
            split_ifs
            · rfl
            · rfl
            · cases selVector with
              | none => rfl
              | some sel => exact selectEntries_isSome deletedMask maxCount _ _
        | array inserted => exact Selection.pushRows_isSome _ _ _
    | array deleted =>
        cases info.insertState with
        | constant constantInsertId =>
            dsimp only
            split_ifs
            · rfl
            · exact Selection.pushRows_isSome _ _ _
        | array inserted => exact Selection.pushRows_isSome _ _ _

/-- The rows that `options` ask for. -/
def isVisible (info : VectorInfo) (options : ScanOptions) (i : Nat) : Bool :=
  info.accepts options.insertType.useInsertedVersion options.deleteType.isDeleted options.view i

/-- `MarkerAlive` for the delete type of `options`. -/
def MarkerUncounted (info : VectorInfo) (options : ScanOptions) : Prop :=
  info.MarkerAlive options.deleteType.isDeleted options.view

theorem getSelVector_selects (info : VectorInfo) (options : ScanOptions)
    (selVector : Option (Nat → Nat)) (maxCount : Nat) (hmarker : info.MarkerUncounted options) :
    (info.getSelVector options selVector maxCount).Selects maxCount
      ((List.range maxCount).filter (info.isVisible options)) := by
  unfold getSelVector
  split_ifs with hall
  · refine Selection.selects_all (fun i => ?_) _ _
    simp [isVisible, accepts, hall, InsertedScanType.useInsertedVersion,
      DeletedScanType.isDeleted]
  · exact templatedGetSelVector_selects _ _ info options.view selVector maxCount hmarker

theorem getRowCount_eq (info : VectorInfo) (options : ScanOptions) (maxCount : Nat)
    (hmarker : info.MarkerUncounted options) :
    info.getRowCount options maxCount =
      (List.range maxCount).countP (info.isVisible options) := by
  rw [getRowCount, (info.getSelVector_selects options none maxCount hmarker).count_eq,
    List.countP_eq_length_filter]

theorem isVisible_standard (info : VectorInfo) (view : SnapshotView) :
    info.isVisible ⟨view, .standard, .standard⟩ = info.fetch view := by
  funext i
  rw [fetch_eq]
  rfl

end VectorInfo

/-! ## The vectors of a row group -/

/-- The version vectors of a `RowVersionManager`; a missing one stands for
rows that everyone sees. -/
structure RowVersionManager where
  vectorInfo : List (Option VectorInfo)

namespace RowVersionManager

def getChunkInfo (manager : RowVersionManager) (vectorIdx : Nat) : Option VectorInfo :=
  if vectorIdx ≥ manager.vectorInfo.length then none
  else manager.vectorInfo.getD vectorIdx none

/-- `RowVersionManager::GetRowCount`: round `k` handles the rows from
`k * STANDARD_VECTOR_SIZE` on, in vector `startVector + k`. -/
def getRowCount (manager : RowVersionManager) (options : ScanOptions) (startVector count : Nat) :
    Nat :=
  (List.range ((count + (standardVectorSize - 1)) / standardVectorSize)).foldl
    (fun totalCount k =>
      let segmentCount := min standardVectorSize (count - k * standardVectorSize)
      match manager.getChunkInfo (startVector + k) with
      | none => totalCount + segmentCount
      | some info => totalCount + info.getRowCount options segmentCount) 0

/-- `offset` lies in vector `vectorIdx`. -/
def inVector (vectorIdx offset : Nat) : Bool :=
  decide (offset ≥ vectorIdx * standardVectorSize) &&
    decide (offset < vectorIdx * standardVectorSize + standardVectorSize)

/-- One round of `GetVisibleRows`: the offsets of `run`, which start at
position `idx`, lie in the same vector. -/
def fetchRun (manager : RowVersionManager) (view : SnapshotView) (vectorIdx idx : Nat)
    (run : List Nat) (visible : Selection) : Selection :=
  let base := vectorIdx * standardVectorSize
  match manager.getChunkInfo vectorIdx with
  | none => visible.pushRows (fun _ => true) (List.range' idx run.length)
  | some info =>
      visible.pushRows (fun k => info.fetch view (run.getD (k - idx) 0 - base))
        (List.range' idx run.length)

/-- The outer loop of `GetVisibleRows` from position `idx` on, with the
offsets still to handle. -/
def getVisibleRowsLoop (manager : RowVersionManager) (view : SnapshotView) (idx : Nat)
    (visible : Selection) : List Nat → Selection
  | [] => visible
  | offset :: offsets =>
      let vectorIdx := offset / standardVectorSize
      let run := offset :: offsets.takeWhile (inVector vectorIdx)
      getVisibleRowsLoop manager view (idx + run.length)
        (manager.fetchRun view vectorIdx idx run visible) (offsets.dropWhile (inVector vectorIdx))
termination_by offsets => offsets.length
decreasing_by
  exact Nat.lt_succ_of_le (List.dropWhile_suffix _).length_le

def getVisibleRows (manager : RowVersionManager) (view : SnapshotView) (offsets : List Nat)
    (visibleSel : Nat → Nat) : Selection :=
  manager.getVisibleRowsLoop view 0 ⟨0, some visibleSel⟩ offsets

def rowVisible (manager : RowVersionManager) (options : ScanOptions) (row : Nat) : Bool :=
  match manager.getChunkInfo (row / standardVectorSize) with
  | none => true
  | some info => info.isVisible options (row % standardVectorSize)

/-- `MarkerUncounted` for every vector. -/
def MarkerUncounted (manager : RowVersionManager) (options : ScanOptions) : Prop :=
  ∀ vectorIdx info, manager.getChunkInfo vectorIdx = some info → info.MarkerUncounted options

theorem rowVisible_of_block (manager : RowVersionManager) (options : ScanOptions)
    (vectorIdx : Nat) {i : Nat} (hi : i < standardVectorSize) :
    manager.rowVisible options (vectorIdx * standardVectorSize + i) =
      match manager.getChunkInfo vectorIdx with
      | none => true
      | some info => info.isVisible options i := by
  have hdiv : (vectorIdx * standardVectorSize + i) / standardVectorSize = vectorIdx := by
    rw [Nat.mul_comm, Nat.mul_add_div (by decide), Nat.div_eq_of_lt hi, Nat.add_zero]
  have hmod : (vectorIdx * standardVectorSize + i) % standardVectorSize = i := by
    rw [Nat.mul_comm, Nat.mul_add_mod, Nat.mod_eq_of_lt hi]
  rw [rowVisible, hdiv, hmod]

/-- A round of `GetRowCount` counts the visible rows of its block. -/
theorem countP_block (manager : RowVersionManager) (options : ScanOptions)
    (startVector count k : Nat) (hmarker : manager.MarkerUncounted options) :
    (ValidityMask.blockRows standardVectorSize count k).countP
        (fun j => manager.rowVisible options (startVector * standardVectorSize + j)) =
      match manager.getChunkInfo (startVector + k) with
      | none => min standardVectorSize (count - k * standardVectorSize)
      | some info =>
          info.getRowCount options (min standardVectorSize (count - k * standardVectorSize)) := by
  have hlen : min (k * standardVectorSize + standardVectorSize) count - k * standardVectorSize =
      min standardVectorSize (count - k * standardVectorSize) := by omega
  rw [ValidityMask.blockRows, hlen, ValidityMask.countP_range']
  have hrow : ∀ i < min standardVectorSize (count - k * standardVectorSize),
      manager.rowVisible options
          (startVector * standardVectorSize + (k * standardVectorSize + i)) =
        match manager.getChunkInfo (startVector + k) with
        | none => true
        | some info => info.isVisible options i := by
    intro i hi
    rw [← Nat.add_assoc, ← Nat.add_mul]
    exact rowVisible_of_block manager options _ (lt_of_lt_of_le hi (min_le_left ..))
  cases hinfo : manager.getChunkInfo (startVector + k) with
  | none =>
      rw [List.countP_eq_length.2 fun i hi => ?_, List.length_range]
      rw [hrow i (List.mem_range.1 hi), hinfo]
  | some info =>
      show _ = info.getRowCount options _
      rw [info.getRowCount_eq options _ (hmarker _ _ hinfo)]
      refine List.countP_congr fun i hi => ?_
      rw [hrow i (List.mem_range.1 hi), hinfo]

theorem getRowCount_eq (manager : RowVersionManager) (options : ScanOptions)
    (startVector count : Nat) (hmarker : manager.MarkerUncounted options) :
    manager.getRowCount options startVector count = (List.range count).countP fun j =>
      manager.rowVisible options (startVector * standardVectorSize + j) := by
  have hfold : ∀ rounds : List Nat, ∀ total,
      rounds.foldl (fun totalCount k =>
        let segmentCount := min standardVectorSize (count - k * standardVectorSize)
        match manager.getChunkInfo (startVector + k) with
        | none => totalCount + segmentCount
        | some info => totalCount + info.getRowCount options segmentCount) total =
      total + (rounds.flatMap (ValidityMask.blockRows standardVectorSize count)).countP fun j =>
        manager.rowVisible options (startVector * standardVectorSize + j) := by
    intro rounds
    induction rounds with
    | nil => exact fun _ => rfl
    | cons k rounds ih =>
        intro total
        rw [List.foldl_cons, ih, List.flatMap_cons, List.countP_append,
          countP_block manager options startVector count k hmarker, ← Nat.add_assoc]
        cases manager.getChunkInfo (startVector + k) <;> rfl
  rw [getRowCount, hfold, ValidityMask.flatMap_blockRows (by decide), Nat.zero_add]

theorem filter_positions (p : Nat → Bool) (idx : Nat) (offsets : List Nat) :
    (List.range' idx offsets.length).filter (fun k => p (offsets.getD (k - idx) 0)) =
      ((offsets.zipIdx idx).filter fun q => p q.1).map Prod.snd := by
  rw [← List.zipIdx_map_snd idx offsets, List.filter_map]
  congr 1
  refine List.filter_congr fun q hq => ?_
  obtain ⟨hle, hget⟩ := List.mem_zipIdx_iff_le_and_getElem?_sub.1 hq
  simp [List.getD_eq_getElem?_getD, hget]

theorem rowVisible_of_inVector {vectorIdx o : Nat} (h : inVector vectorIdx o = true)
    (manager : RowVersionManager) (options : ScanOptions) :
    manager.rowVisible options o = match manager.getChunkInfo vectorIdx with
      | none => true
      | some info => info.isVisible options (o - vectorIdx * standardVectorSize) := by
  simp only [inVector, Bool.and_eq_true, decide_eq_true_eq] at h
  have hrow := rowVisible_of_block manager options vectorIdx
    (i := o - vectorIdx * standardVectorSize) (by omega)
  rwa [Nat.add_sub_cancel' h.1] at hrow

/-- A run of offsets of one vector adds the positions of its visible rows. -/
theorem fetchRun_holds (manager : RowVersionManager) (view : SnapshotView) (vectorIdx idx : Nat)
    {visible : Selection} {run found : List Nat} (h : visible.Holds found)
    (hrun : ∀ o ∈ run, inVector vectorIdx o = true) :
    (manager.fetchRun view vectorIdx idx run visible).Holds
      (found ++ ((run.zipIdx idx).filter fun q =>
        manager.rowVisible ⟨view, .standard, .standard⟩ q.1).map Prod.snd) := by
  have hrow : ∀ q ∈ run.zipIdx idx, manager.rowVisible ⟨view, .standard, .standard⟩ q.1 =
      match manager.getChunkInfo vectorIdx with
      | none => true
      | some info =>
          info.isVisible ⟨view, .standard, .standard⟩ (q.1 - vectorIdx * standardVectorSize) := by
    intro q hq
    have hmem : q.1 ∈ run := by
      have := List.mem_map_of_mem (f := Prod.fst) hq
      rwa [List.zipIdx_map_fst] at this
    exact rowVisible_of_inVector (hrun _ hmem) manager _
  rw [fetchRun]
  cases hinfo : manager.getChunkInfo vectorIdx with
  | none =>
      have hkeep := filter_positions (fun _ => true) idx run
      have : (run.zipIdx idx).filter (fun q =>
          manager.rowVisible ⟨view, .standard, .standard⟩ q.1) =
          (run.zipIdx idx).filter fun _ => true :=
        List.filter_congr fun q hq => by rw [hrow q hq, hinfo]
      rw [this, ← hkeep]
      exact h.pushRows _ _
  | some info =>
      have hkeep := filter_positions
        (fun o => info.fetch view (o - vectorIdx * standardVectorSize)) idx run
      have : (run.zipIdx idx).filter (fun q =>
          manager.rowVisible ⟨view, .standard, .standard⟩ q.1) =
          (run.zipIdx idx).filter fun q =>
            info.fetch view (q.1 - vectorIdx * standardVectorSize) :=
        List.filter_congr fun q hq => by rw [hrow q hq, hinfo, ← info.isVisible_standard]
      rw [this, ← hkeep]
      exact h.pushRows _ _

theorem getVisibleRowsLoop_holds (manager : RowVersionManager) (view : SnapshotView)
    (idx : Nat) (visible : Selection) (offsets : List Nat) {found : List Nat}
    (h : visible.Holds found) :
    (manager.getVisibleRowsLoop view idx visible offsets).Holds
      (found ++ ((offsets.zipIdx idx).filter fun q =>
        manager.rowVisible ⟨view, .standard, .standard⟩ q.1).map Prod.snd) := by
  induction hlen : offsets.length using Nat.strong_induction_on
    generalizing idx visible offsets found with
  | _ len ih =>
    cases offsets with
    | nil =>
        rw [getVisibleRowsLoop]
        simpa using h
    | cons offset offsets =>
        rw [getVisibleRowsLoop]
        have hrun : ∀ o ∈ offset :: offsets.takeWhile (inVector (offset / standardVectorSize)),
            inVector (offset / standardVectorSize) o = true := by
          intro o ho
          rcases List.mem_cons.1 ho with rfl | ho
          · have := Nat.div_add_mod o standardVectorSize
            have := Nat.mod_lt o (show standardVectorSize > 0 by decide)
            simp only [inVector, Bool.and_eq_true, decide_eq_true_eq,
              Nat.mul_comm (o / standardVectorSize)]
            omega
          · exact List.all_eq_true.1 List.all_takeWhile o ho
        have hshort : (offsets.dropWhile (inVector (offset / standardVectorSize))).length < len :=
          hlen ▸ Nat.lt_succ_of_le (List.dropWhile_suffix _).length_le
        have hrest := ih _ hshort (idx + (offset ::
          offsets.takeWhile (inVector (offset / standardVectorSize))).length) _ _
          (fetchRun_holds manager view _ idx h hrun) rfl
        have hall : offset :: offsets =
            (offset :: offsets.takeWhile (inVector (offset / standardVectorSize))) ++
              offsets.dropWhile (inVector (offset / standardVectorSize)) := by
          rw [List.cons_append, List.takeWhile_append_dropWhile]
        rw [hall, List.zipIdx_append, List.filter_append, List.map_append, ← List.append_assoc]
        exact hrest

/-- `GetVisibleRows` lists the positions of the visible offsets in order. -/
theorem getVisibleRows_holds (manager : RowVersionManager) (view : SnapshotView)
    (offsets : List Nat) (visibleSel : Nat → Nat) :
    (manager.getVisibleRows view offsets visibleSel).Holds
      ((offsets.zipIdx.filter fun q =>
        manager.rowVisible ⟨view, .standard, .standard⟩ q.1).map Prod.snd) := by
  have h := manager.getVisibleRowsLoop_holds view 0 ⟨0, some visibleSel⟩ offsets
    (Selection.holds_nil (some visibleSel))
  rwa [List.nil_append] at h

end RowVersionManager

/-! ## All read paths -/

/-- Every way to read a vector follows the per-row definition: the scan with a
selection vector, the count without one, the fetch of a single row, and over
all vectors of a row group the row count and the list of visible rows. -/
theorem read_paths_agree (manager : RowVersionManager) (options : ScanOptions)
    (hmarker : manager.MarkerUncounted options) :
    (∀ vectorIdx info, manager.getChunkInfo vectorIdx = some info →
      ∀ (selVector : Nat → Nat) (maxCount : Nat),
        (info.getSelVector options (some selVector) maxCount).Selects maxCount
          ((List.range maxCount).filter (info.isVisible options)) ∧
        info.getRowCount options maxCount =
          (info.getSelVector options (some selVector) maxCount).count ∧
        (options.insertType = .standard → options.deleteType = .standard → ∀ i < maxCount,
          ((info.getSelVector options (some selVector) maxCount).IsSelected maxCount i ↔
            info.fetch options.view i = true))) ∧
    (∀ startVector count, manager.getRowCount options startVector count =
      (List.range count).countP fun j =>
        manager.rowVisible options (startVector * standardVectorSize + j)) ∧
    (∀ (offsets : List Nat) (visibleSel : Nat → Nat),
      (manager.getVisibleRows options.view offsets visibleSel).Holds
        ((offsets.zipIdx.filter fun q =>
          manager.rowVisible ⟨options.view, .standard, .standard⟩ q.1).map Prod.snd)) := by
  refine ⟨fun vectorIdx info hinfo selVector maxCount => ?_,
    fun startVector count => manager.getRowCount_eq options startVector count hmarker,
    fun offsets visibleSel => manager.getVisibleRows_holds options.view offsets visibleSel⟩
  have hselects := info.getSelVector_selects options (some selVector) maxCount
    (hmarker _ _ hinfo)
  refine ⟨hselects, ?_, fun hins hdel i hi => ?_⟩
  · rw [info.getRowCount_eq options maxCount (hmarker _ _ hinfo), hselects.count_eq,
      List.countP_eq_length_filter]
  · have hsome : (info.getSelVector options (some selVector) maxCount).selVector.isSome = true :=
      info.getSelVector_isSome options (some selVector) maxCount
    have hstd : options = ⟨options.view, .standard, .standard⟩ := by
      rw [← hins, ← hdel]
    rw [hselects.isSelected_iff hsome hi, ← info.isVisible_standard, ← hstd]

/-- A vector whose row 0 was deleted by the commit with id 5. -/
def maskedVector : VectorInfo :=
  ⟨.constant 1, ⟨.masked (fun r => decide (r = 0)) 5⟩, false⟩

theorem read_paths_agree_masked :
    (∀ vectorIdx info, RowVersionManager.getChunkInfo ⟨[some maskedVector]⟩ vectorIdx = some info →
      ∀ (selVector : Nat → Nat) (maxCount : Nat),
        (info.getSelVector ⟨⟨transactionIdStart, .before 10⟩, .standard, .standard⟩
          (some selVector) maxCount).Selects maxCount
          ((List.range maxCount).filter
            (info.isVisible ⟨⟨transactionIdStart, .before 10⟩, .standard, .standard⟩))) ∧
    RowVersionManager.getRowCount ⟨[some maskedVector]⟩
        ⟨⟨transactionIdStart, .before 10⟩, .standard, .standard⟩ 0 3 =
      (List.range 3).countP fun j => RowVersionManager.rowVisible ⟨[some maskedVector]⟩
        ⟨⟨transactionIdStart, .before 10⟩, .standard, .standard⟩ (0 * standardVectorSize + j) := by
  have h := read_paths_agree ⟨[some maskedVector]⟩
    ⟨⟨transactionIdStart, .before 10⟩, .standard, .standard⟩ (fun _ _ _ _ => by decide)
  exact ⟨fun vectorIdx info hinfo selVector maxCount => (h.1 vectorIdx info hinfo selVector maxCount).1,
    h.2.1 0 3⟩

/-- A view that sees every id, as a transaction without versions of its own
gets it, also sees `notDeletedId`: it fetches no row of the masked vector, but
the scan selects the undeleted ones. -/
theorem masked_scan_ignores_marker :
    (maskedVector.getSelVector ⟨⟨maxTransactionId, .includingUncommitted⟩, .standard, .standard⟩
      (some id) 2).count = 1 ∧
    ((maskedVector.getSelVector ⟨⟨maxTransactionId, .includingUncommitted⟩, .standard, .standard⟩
      (some id) 2).selVector.map fun sel => sel 0) = some 1 ∧
    (List.range 2).countP (maskedVector.isVisible
      ⟨⟨maxTransactionId, .includingUncommitted⟩, .standard, .standard⟩) = 0 ∧
    maskedVector.fetch ⟨maxTransactionId, .includingUncommitted⟩ 1 = false := by
  refine ⟨by decide, by decide, by decide, by decide⟩

end MiniDuck
