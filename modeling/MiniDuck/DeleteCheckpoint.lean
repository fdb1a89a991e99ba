import MiniDuck.VersionCompression
import MiniDuck.VersionStream

/-!
# Checkpoints of deletes

A `DeleteManager` is a whole `RowVersionManager`: its vectors, and the two
watermarks by which `Checkpoint` decides whether what is on disk is still
current. `checkpointLts` runs its calls. Beside the manager a run records, for
the statements, what the last `CommitDelete` wrote for each row, and which rows
were deleted below the bound of the last checkpoint.

`DeleteInv` says that these rows are what the stored pointers read as, and that
every commit which is not among them lies between the watermarks. From the
second part it follows that a checkpoint may keep its old pointers where the
oldest such commit is not below its bound (`DeleteInv.skip`), and that it may
forget the watermarks where the newest one is (`DeleteInv.write`). Both need
that no call touches a row whose delete is on disk already: the watermarks know
when a delete comes, not when one goes (`rollback_of_stored`).
-/

namespace MiniDuck

def maxRowGroupSize : Nat := 2 ^ 30

/-- A whole `RowVersionManager`. A storage pointer names a stream of metadata. -/
structure DeleteManager extends RowVersionManager where
  newestUncheckpointedDeleteCommit : Option Nat
  oldestUncheckpointedDeleteCommit : Option Nat
  storagePointers : List Nat
  needsCompressionCheck : Bool

abbrev MetadataDisk := Nat → List UInt8

namespace RowVersionManager

def fillVectorInfo (manager : RowVersionManager) (vectorIdx : Nat) : RowVersionManager :=
  if vectorIdx < manager.vectorInfo.length then manager
  else ⟨manager.vectorInfo ++
    List.replicate (vectorIdx + 1 - manager.vectorInfo.length) none⟩

/-- `vector_info[vector_idx] = info`, behind `FillVectorInfo`. -/
def setVectorInfo (manager : RowVersionManager) (vectorIdx : Nat) (info : Option VectorInfo) :
    RowVersionManager :=
  ⟨(manager.fillVectorInfo vectorIdx).vectorInfo.set vectorIdx info⟩

/-- A new `ChunkVectorInfo`. -/
def newVectorInfo : VectorInfo := ⟨.constant 0, ⟨.constant notDeletedId⟩, true⟩

/-- `GetVectorInfo`: a missing vector is created. -/
def getVectorInfo (manager : RowVersionManager) (vectorIdx : Nat) : VectorInfo :=
  (manager.getChunkInfo vectorIdx).getD newVectorInfo

end RowVersionManager

namespace VectorInfo

def anyDeleted (info : VectorInfo) : Bool :=
  match info.deletes.deleteState with
  | .constant id => decide (id ≠ notDeletedId)
  | .masked _ _ => true
  | .array _ => true

/-- The vector was inserted by a transaction that has not committed. -/
def insertUncommitted (info : VectorInfo) : Bool :=
  match info.insertState with
  | .constant id => !ChunkVectorInfo.isCommitted id
  | .array _ => false

def hasDeletes (info : VectorInfo) (bound : VisibilityBound) : Bool :=
  if info.insertUncommitted then true
  else if !info.anyDeleted then false
  else if bound = .includingUncommitted then true
  else match info.deletes.deleteState with
    | .constant id => decide (id < bound.value)
    | .masked _ maskDeleteId => decide (maskDeleteId < bound.value)
    | .array deleted => (List.range standardVectorSize).any fun i => deleted i < bound.value

end VectorInfo

namespace DeleteManager

def deleteRows (manager : DeleteManager) (vectorIdx transactionId : Nat) (rows : List Nat) :
    DeleteManager × Except String (List Nat) :=
  let (info, result) :=
    (manager.getVectorInfo vectorIdx).delete standardVectorSize transactionId rows
  ({ manager with
      toRowVersionManager := manager.setVectorInfo vectorIdx (some info)
      needsCompressionCheck := true }, result)

def commitDelete (manager : DeleteManager) (vectorIdx commitId : Nat) (info : DeleteInfo) :
    DeleteManager :=
  { toRowVersionManager := manager.setVectorInfo vectorIdx
      (some ((manager.getVectorInfo vectorIdx).commitDelete standardVectorSize commitId info))
    newestUncheckpointedDeleteCommit :=
      match manager.newestUncheckpointedDeleteCommit with
      | none => some commitId
      | some newest => if commitId > newest then some commitId else some newest
    oldestUncheckpointedDeleteCommit :=
      match manager.oldestUncheckpointedDeleteCommit with
      | none => some commitId
      | some oldest => if commitId < oldest then some commitId else some oldest
    storagePointers := manager.storagePointers
    needsCompressionCheck := true }

def compressVersionIds (manager : DeleteManager) (bound : VisibilityBound) : DeleteManager :=
  if !manager.needsCompressionCheck then manager
  else
    { manager with
      vectorInfo := manager.vectorInfo.map (Option.map fun info =>
        (info.compressVersionIds standardVectorSize bound).1)
      needsCompressionCheck := manager.vectorInfo.any fun
        | none => false
        | some info => decide ((info.compressVersionIds standardVectorSize bound).2 = .pending) }

/-- The vectors that `Checkpoint` serializes. -/
def toSerialize (manager : DeleteManager) (bound : VisibilityBound) : List (Nat × VectorInfo) :=
  (List.range manager.vectorInfo.length).filterMap fun vectorIdx =>
    match manager.getChunkInfo vectorIdx with
    | none => none
    | some info => if info.hasDeletes bound then some (vectorIdx, info) else none

def serialize (vectors : List (Nat × VectorInfo)) (bound : VisibilityBound) : List UInt8 :=
  storeBytes 8 vectors.length ++
    vectors.flatMap fun entry =>
      storeBytes 8 entry.1 ++ entry.2.write (entry.1 * standardVectorSize) bound

/-- `RowVersionManager::Checkpoint`; a new stream begins at `pointer`. -/
def checkpoint (manager : DeleteManager) (disk : MetadataDisk) (bound : VisibilityBound)
    (pointer : Nat) : DeleteManager × MetadataDisk :=
  let current := match manager.oldestUncheckpointedDeleteCommit with
    | none => true
    | some oldest => decide (oldest ≥ bound.value)
  if current then (manager, disk)
  else
    let vectors := manager.toSerialize bound
    let settled := match manager.newestUncheckpointedDeleteCommit with
      | none => false
      | some newest => decide (newest < bound.value)
    ({ manager with
        storagePointers := if vectors.isEmpty then [] else [pointer]
        newestUncheckpointedDeleteCommit :=
          if settled then none else manager.newestUncheckpointedDeleteCommit
        oldestUncheckpointedDeleteCommit :=
          if settled then none else manager.oldestUncheckpointedDeleteCommit },
      if vectors.isEmpty then disk else Function.update disk pointer (serialize vectors bound))

/-- The loop of `Deserialize`. -/
def deserializeLoop : Nat → DeleteManager → List UInt8 →
    Except ReadException (DeleteManager × List UInt8)
  | 0, manager, bytes => .ok (manager, bytes)
  | k + 1, manager, bytes =>
      match readWord 8 bytes with
      | .error e => .error e
      | .ok (vectorIndex, rest) =>
          if vectorIndex * standardVectorSize ≥ maxRowGroupSize then
            .error (.io ("In DeserializeDeletes, vector_index " ++ toString vectorIndex ++
              " is out of range for the max row group size of " ++ toString maxRowGroupSize ++
              ". Corrupted file?"))
          else
            match VectorInfo.read rest with
            | .error e => .error e
            | .ok (info, rest) =>
                deserializeLoop k
                  { manager with
                    toRowVersionManager := manager.setVectorInfo vectorIndex info
                    needsCompressionCheck := manager.needsCompressionCheck ||
                      info.any VectorInfo.recheckCompression } rest

/-- `RowVersionManager::Deserialize`. A row group without pointers has no version information. -/
def deserialize (disk : MetadataDisk) (pointers : List Nat) :
    Except ReadException (Option DeleteManager) :=
  match pointers with
  | [] => .ok none
  | root :: _ =>
      match readWord 8 (disk root) with
      | .error e => .error e
      | .ok (chunkCount, rest) =>
          match deserializeLoop chunkCount ⟨⟨[]⟩, none, none, [root], false⟩ rest with
          | .error e => .error e
          | .ok (manager, _) => .ok (some manager)

def rowShown (manager : Option DeleteManager) (view : SnapshotView) (row : Nat) : Bool :=
  match manager with
  | none => true
  | some manager => manager.rowVisible ⟨view, .standard, .standard⟩ row

end DeleteManager

/-! ## The vectors of a manager -/

namespace RowVersionManager

theorem getChunkInfo_eq (manager : RowVersionManager) (v : Nat) :
    manager.getChunkInfo v = (manager.vectorInfo[v]?).join := by
  rw [getChunkInfo]
  split
  · next hge => rw [List.getElem?_eq_none hge, Option.join_none]
  · next hlt =>
      rw [List.getD_eq_getElem?_getD, List.getElem?_eq_getElem (Nat.lt_of_not_le hlt)]
      rfl

theorem getChunkInfo_fillVectorInfo (manager : RowVersionManager) (v w : Nat) :
    (manager.fillVectorInfo v).getChunkInfo w = manager.getChunkInfo w := by
  rw [fillVectorInfo]
  split
  · rfl
  · rw [getChunkInfo_eq, getChunkInfo_eq]
    by_cases hw : w < manager.vectorInfo.length
    · rw [List.getElem?_append_left hw]
    · rw [List.getElem?_append_right (Nat.le_of_not_lt hw),
        List.getElem?_eq_none (Nat.le_of_not_lt hw), List.getElem?_replicate]
      split <;> rfl

theorem lt_length_fillVectorInfo (manager : RowVersionManager) (v : Nat) :
    v < (manager.fillVectorInfo v).vectorInfo.length := by
  rw [fillVectorInfo]
  split
  · assumption
  · simp only [List.length_append, List.length_replicate]
    omega

theorem getChunkInfo_setVectorInfo (manager : RowVersionManager) (v w : Nat)
    (info : Option VectorInfo) :
    (manager.setVectorInfo v info).getChunkInfo w =
      if w = v then info else manager.getChunkInfo w := by
  rw [setVectorInfo, getChunkInfo_eq]
  by_cases hw : w = v
  · rw [hw, List.getElem?_set_self (lt_length_fillVectorInfo manager v), if_pos rfl]
    rfl
  · rw [List.getElem?_set_ne (Ne.symm hw), ← getChunkInfo_eq, getChunkInfo_fillVectorInfo,
      if_neg hw]

/-- The delete id of a row of a vector; no row of a missing vector is deleted. -/
def deleteIdAt (manager : RowVersionManager) (v r : Nat) : Nat :=
  match manager.getChunkInfo v with
  | none => notDeletedId
  | some info => info.deleteId r

theorem deleteId_getVectorInfo (manager : RowVersionManager) (v r : Nat) :
    (manager.getVectorInfo v).deleteId r = manager.deleteIdAt v r := by
  rw [getVectorInfo, deleteIdAt]
  cases manager.getChunkInfo v <;> rfl

theorem deleteIdAt_setVectorInfo (manager : RowVersionManager) (v w r : Nat)
    (info : VectorInfo) :
    (manager.setVectorInfo v (some info)).deleteIdAt w r =
      if w = v then info.deleteId r else manager.deleteIdAt w r := by
  rw [deleteIdAt, getChunkInfo_setVectorInfo]
  by_cases hw : w = v
  · rw [if_pos hw, if_pos hw]
  · rw [if_neg hw, if_neg hw, deleteIdAt]

theorem rowVisible_eq (manager : RowVersionManager) (view : SnapshotView) (row : Nat) :
    manager.rowVisible ⟨view, .standard, .standard⟩ row =
      VectorInfo.shows (manager.getChunkInfo (row / standardVectorSize)) view
        (row % standardVectorSize) := by
  rw [rowVisible]
  cases manager.getChunkInfo (row / standardVectorSize) with
  | none => rfl
  | some info => exact congrFun (info.isVisible_standard view) _

end RowVersionManager

/-! ## The ids that a delete can change -/

/-- The loop of `Delete` exchanges its transaction's mark and the marker of
undeleted rows, and leaves other ids alone. -/
theorem ChunkVectorInfo.deleteLoop_ids (tid r : Nat) :
    (k i deletedTuples : Nat) → (rows : List Nat) → (deleted : Nat → Nat) →
    deletedTuples ≤ i → i + k = rows.length →
    (∀ x ∈ rows.take i, deleted x = tid) →
    (deleteLoop tid deleted rows i deletedTuples k).1 r = deleted r ∨
      ((deleted r = tid ∨ deleted r = notDeletedId) ∧
        ((deleteLoop tid deleted rows i deletedTuples k).1 r = tid ∨
          (deleteLoop tid deleted rows i deletedTuples k).1 r = notDeletedId))
  | 0, i, deletedTuples, rows, deleted, _, _, _ => Or.inl rfl
  | k + 1, i, deletedTuples, rows, deleted, hle, hlen, htake => by
      have hi : i < rows.length := by omega
      have hget : rows.getD i 0 = rows[i] := by
        rw [List.getD_eq_getElem?_getD, List.getElem?_eq_getElem hi, Option.getD_some]
      rw [deleteLoop]
      split
      · next hown =>
          refine deleteLoop_ids tid r k (i + 1) deletedTuples rows deleted (by omega) (by omega) ?_
          intro x hx
          rw [List.take_add_one, List.getElem?_eq_getElem hi, List.mem_append] at hx
          rcases hx with hx | hx
          · exact htake x hx
          · rw [← hget, Option.mem_toList] at hx
            rw [← Option.some.inj hx]
            exact hown
      · split
        · -- the undo loop: every row it goes over carries the mark
          next hother =>
            dsimp only
            rw [writeIds_apply]
            split
            · next hmem => exact Or.inr ⟨Or.inl (htake r hmem), Or.inr rfl⟩
            · exact Or.inl rfl
        · next hown hfree =>
            have hfree : deleted (rows.getD i 0) = notDeletedId := not_not.mp hfree
            have ih := deleteLoop_ids tid r k (i + 1) (deletedTuples + 1)
              (rows.set deletedTuples (rows.getD i 0))
              (Function.update deleted (rows.getD i 0) tid) (by omega)
              (by rw [List.length_set]; omega) ?_
            · by_cases hr : r = rows.getD i 0
              · rw [hr, Function.update_self] at ih
                rw [hr]
                refine Or.inr ⟨Or.inr hfree, ?_⟩
                rcases ih with heq | ⟨-, heq⟩
                · exact Or.inl heq
                · exact heq
              · rwa [Function.update_of_ne hr] at ih
            · intro x hx
              by_cases hxr : x = rows.getD i 0
              · rw [hxr, Function.update_self]
              · rw [Function.update_of_ne hxr]
                refine htake x ?_
                obtain ⟨j, hj, hjx⟩ := List.mem_iff_getElem.mp hx
                rw [List.length_take, List.length_set] at hj
                rw [List.getElem_take, List.getElem_set] at hjx
                split at hjx
                · exact absurd hjx.symm hxr
                · have hji : j < i := by
                    refine Nat.lt_of_not_le fun hge => hxr ?_
                    rw [hget, ← hjx]
                    congr 1
                    omega
                  rw [← hjx]
                  exact List.mem_iff_getElem.mpr
                    ⟨j, by rw [List.length_take]; omega, by rw [List.getElem_take]⟩

theorem VectorInfo.delete_ids {tid : Nat} (htid : tid ≠ notDeletedId) (info : VectorInfo)
    (rows : List Nat) {r : Nat} (hr : r < standardVectorSize) :
    (info.delete standardVectorSize tid rows).1.deleteId r = info.deleteId r ∨
      ((info.deleteId r = tid ∨ info.deleteId r = notDeletedId) ∧
        ((info.delete standardVectorSize tid rows).1.deleteId r = tid ∨
          (info.delete standardVectorSize tid rows).1.deleteId r = notDeletedId)) := by
  have h := ChunkVectorInfo.deleteLoop_ids tid r rows.length 0 0 rows
    info.deletes.deletedId le_rfl (by omega) (by simp)
  rwa [← ChunkVectorInfo.delete_deletedId htid hr] at h

/-! ## Reading back what a checkpoint wrote -/

theorem VectorInfo.hasDeletes_false {info : VectorInfo} {bound : VisibilityBound}
    (hbound : bound.value ≤ notDeletedId) (h : info.hasDeletes bound = false) {r : Nat}
    (hr : r < standardVectorSize) : ¬ info.deleteId r < bound.value := by
  have hne : bound ≠ .includingUncommitted := by
    intro he
    rw [he] at hbound
    exact absurd hbound (by decide)
  rw [hasDeletes, if_neg hne, anyDeleted] at h
  rw [deleteId, ChunkVectorInfo.deletedId]
  by_cases hins : info.insertUncommitted = true
  · rw [if_pos hins] at h
    cases h
  · rw [if_neg hins] at h
    cases hstate : info.deletes.deleteState with
    | constant id =>
        simp only [hstate] at h ⊢
        by_cases hid : id = notDeletedId
        · rw [hid]
          exact Nat.not_lt.mpr hbound
        · simpa [hid] using h
    | masked mask maskDeleteId =>
        simp only [hstate, Bool.not_true, Bool.false_eq_true, if_false, decide_eq_false_iff_not]
          at h ⊢
        split
        · exact h
        · exact Nat.not_lt.mpr hbound
    | array deleted =>
        simp only [hstate, Bool.not_true, Bool.false_eq_true, if_false, List.any_eq_false,
          List.mem_range, decide_eq_true_eq] at h ⊢
        exact h r hr

namespace DeleteManager

variable {bound : VisibilityBound}

/-- The loop of `Deserialize` puts each serialized vector in its place. -/
theorem deserializeLoop_serialized (hbound : bound.value ≤ notDeletedId) :
    (vectors : List (Nat × VectorInfo)) → (vectors.map Prod.fst).Nodup →
    (∀ x ∈ vectors, x.1 * standardVectorSize < maxRowGroupSize ∧ x.2.Writable bound) →
    (manager : DeleteManager) → (rest : List UInt8) →
    ∃ loaded, deserializeLoop vectors.length manager
        (vectors.flatMap (fun entry =>
          storeBytes 8 entry.1 ++ entry.2.write (entry.1 * standardVectorSize) bound) ++ rest) =
        .ok (loaded, rest) ∧
      (∀ x ∈ vectors, ∀ view, VectorInfo.Ordinary view → ∀ r < standardVectorSize,
        VectorInfo.shows (loaded.getChunkInfo x.1) view r =
          !decide (x.2.deleteId r < bound.value)) ∧
      ∀ v, v ∉ vectors.map Prod.fst → loaded.getChunkInfo v = manager.getChunkInfo v
  | [], _, _, manager, rest =>
      ⟨manager, rfl, fun x hx => absurd hx List.not_mem_nil, fun _ _ => rfl⟩
  | (v, info) :: vectors, hnodup, hvectors, manager, rest => by
      obtain ⟨hv, hinfo⟩ : v * standardVectorSize < maxRowGroupSize ∧ info.Writable bound :=
        hvectors (v, info) List.mem_cons_self
      rw [List.map_cons, List.nodup_cons] at hnodup
      have hpow : maxRowGroupSize < 2 ^ 64 := by decide
      have hsize : 0 < standardVectorSize := by decide
      have hle : v ≤ v * standardVectorSize := Nat.le_mul_of_pos_right v hsize
      have hword : v < 256 ^ 8 := show v < 2 ^ 64 by omega
      obtain ⟨result, hread, hshows⟩ := VectorInfo.read_write hbound hinfo
        (show v * standardVectorSize < 2 ^ 64 by omega)
        (vectors.flatMap (fun entry =>
          storeBytes 8 entry.1 ++ entry.2.write (entry.1 * standardVectorSize) bound) ++ rest)
      obtain ⟨loaded, hloop, hin, hout⟩ := deserializeLoop_serialized hbound vectors hnodup.2
        (fun x hx => hvectors x (List.mem_cons_of_mem _ hx))
        { manager with
          toRowVersionManager := manager.setVectorInfo v result
          needsCompressionCheck := manager.needsCompressionCheck ||
            result.any VectorInfo.recheckCompression } rest
      refine ⟨loaded, ?_, fun x hx view hview r hr => ?_, fun w hw => ?_⟩
      · rw [List.length_cons, deserializeLoop, List.flatMap_cons, List.append_assoc,
          List.append_assoc, readWord_storeBytes hword]
        simp only [ge_iff_le, Nat.not_le.mpr hv, if_false, hread]
        exact hloop
      · rcases List.mem_cons.mp hx with rfl | hx
        · rw [hout v hnodup.1]
          show VectorInfo.shows ((manager.setVectorInfo v result).getChunkInfo v) view r = _
          rw [RowVersionManager.getChunkInfo_setVectorInfo, if_pos rfl]
          exact hshows view hview r hr
        · exact hin x hx view hview r hr
      · rw [List.map_cons, List.mem_cons, not_or] at hw
        rw [hout w hw.2]
        show (manager.setVectorInfo v result).getChunkInfo w = _
        rw [RowVersionManager.getChunkInfo_setVectorInfo, if_neg hw.1]

/-- The pointers read as version information in which exactly these rows are gone. -/
def Stores (disk : MetadataDisk) (pointers : List Nat) (gone : Nat → Bool) : Prop :=
  ∃ loaded, deserialize disk pointers = .ok loaded ∧
    ∀ view, VectorInfo.Ordinary view → ∀ row, rowShown loaded view row = !gone row

theorem mem_toSerialize {manager : DeleteManager} {v : Nat} {info : VectorInfo} :
    (v, info) ∈ manager.toSerialize bound ↔
      manager.getChunkInfo v = some info ∧ info.hasDeletes bound = true := by
  have hlt : manager.getChunkInfo v = some info → v < manager.vectorInfo.length := by
    intro h
    rw [RowVersionManager.getChunkInfo] at h
    split at h
    · cases h
    · omega
  simp only [toSerialize, List.mem_filterMap, List.mem_range]
  constructor
  · rintro ⟨w, hw, h⟩
    split at h
    · cases h
    · next info' hinfo =>
        split at h
        · next hdel =>
            cases h
            exact ⟨hinfo, hdel⟩
        · cases h
  · rintro ⟨hinfo, hdel⟩
    exact ⟨v, hlt hinfo, by simp [hinfo, hdel]⟩

theorem nodup_toSerialize (manager : DeleteManager) (bound : VisibilityBound) :
    ((manager.toSerialize bound).map Prod.fst).Nodup := by
  have hsub : ((manager.toSerialize bound).map Prod.fst).Sublist
      (List.range manager.vectorInfo.length) := by
    rw [toSerialize]
    generalize List.range manager.vectorInfo.length = l
    induction l with
    | nil => exact List.Sublist.slnil
    | cons v l ih =>
        rw [List.filterMap_cons]
        cases manager.getChunkInfo v with
        | none => exact ih.cons v
        | some info =>
            by_cases hdel : info.hasDeletes bound = true
            · simp only [hdel, if_true, List.map_cons]
              exact ih.cons_cons v
            · simp only [hdel]
              exact ih.cons v
  exact hsub.nodup List.nodup_range

/-- What a checkpoint writes reads as the rows deleted below its bound. -/
theorem stores_serialize {manager : DeleteManager} (hbound : bound.value ≤ notDeletedId)
    (hvectors : ∀ v info, manager.getChunkInfo v = some info → v * standardVectorSize < maxRowGroupSize ∧ info.Writable bound)
    (disk : MetadataDisk) (pointer : Nat) : Stores
      (if (manager.toSerialize bound).isEmpty then disk
        else Function.update disk pointer (serialize (manager.toSerialize bound) bound))
      (if (manager.toSerialize bound).isEmpty then [] else [pointer])
      (fun row => decide (manager.deleteIdAt (row / standardVectorSize)
        (row % standardVectorSize) < bound.value)) := by
  have hrow : ∀ row, row % standardVectorSize < standardVectorSize :=
    fun row => Nat.mod_lt row (by decide)
  -- the vectors left out show all their rows
  have hskip : ∀ row, row / standardVectorSize ∉ (manager.toSerialize bound).map Prod.fst →
      ¬ manager.deleteIdAt (row / standardVectorSize) (row % standardVectorSize) < bound.value := by
    intro row hnot
    rw [RowVersionManager.deleteIdAt]
    cases hinfo : manager.getChunkInfo (row / standardVectorSize) with
    | none => exact Nat.not_lt.mpr hbound
    | some info =>
        refine info.hasDeletes_false hbound ?_ (hrow row)
        cases hdel : info.hasDeletes bound with
        | false => rfl
        | true =>
            exact absurd (List.mem_map_of_mem (mem_toSerialize.mpr ⟨hinfo, hdel⟩)) hnot
  by_cases hempty : (manager.toSerialize bound).isEmpty = true
  · rw [if_pos hempty, if_pos hempty]
    refine ⟨none, rfl, fun view _ row => ?_⟩
    rw [List.isEmpty_iff] at hempty
    have := hskip row (by simp [hempty])
    simp [rowShown, this]
  · rw [if_neg hempty, if_neg hempty]
    obtain ⟨loaded, hloop, hin, hout⟩ := deserializeLoop_serialized hbound
      (manager.toSerialize bound) (manager.nodup_toSerialize bound)
      (fun x hx => hvectors x.1 x.2 (mem_toSerialize.mp hx).1)
      ⟨⟨[]⟩, none, none, [pointer], false⟩ []
    have hlen : (manager.toSerialize bound).length < 256 ^ 8 := by
      have hsub : (manager.toSerialize bound).map Prod.fst ⊆ List.range maxRowGroupSize := by
        intro v hv
        obtain ⟨x, hx, rfl⟩ := List.mem_map.mp hv
        have hlt := (hvectors x.1 x.2 (mem_toSerialize.mp hx).1).1
        have hle := Nat.le_mul_of_pos_right x.1 (show 0 < standardVectorSize by decide)
        exact List.mem_range.mpr (Nat.lt_of_le_of_lt hle hlt)
      have hle := (List.subperm_of_subset (manager.nodup_toSerialize bound) hsub).length_le
      rw [List.length_map, List.length_range] at hle
      exact Nat.lt_of_le_of_lt hle (by decide)
    refine ⟨some loaded, ?_, fun view hview row => ?_⟩
    · rw [deserialize, Function.update_self, serialize, readWord_storeBytes hlen]
      rw [List.append_nil] at hloop
      simp only [hloop]
    · show loaded.rowVisible _ row = !decide (manager.deleteIdAt (row / standardVectorSize)
        (row % standardVectorSize) < bound.value)
      rw [RowVersionManager.rowVisible_eq]
      by_cases hmem : row / standardVectorSize ∈ (manager.toSerialize bound).map Prod.fst
      · obtain ⟨⟨v, info⟩, hx, hv⟩ := List.mem_map.mp hmem
        have hv : v = row / standardVectorSize := hv
        subst hv
        rw [hin _ hx view hview _ (hrow row), RowVersionManager.deleteIdAt,
          (mem_toSerialize.mp hx).1]
      · rw [hout _ hmem]
        simp [VectorInfo.shows, RowVersionManager.getChunkInfo, hskip row hmem]

end DeleteManager

/-! ## Runs -/

/-- A run of a manager. The last four fields are the record: what the last
`CommitDelete` wrote for each row of the row group, the rows deleted below the
bound at the last checkpoint, this bound, and the highest bound ids were
compressed below. -/
structure CheckpointRun where
  manager : DeleteManager
  disk : MetadataDisk
  deleteCommit : Nat → Nat
  stored : Nat → Bool
  bound : Nat
  compressedBelow : Nat

inductive CheckpointOp
  | deleteRows (vectorIdx transactionId : Nat) (rows : List Nat)
  | commitDelete (vectorIdx commitId : Nat) (info : DeleteInfo)
  | compress (bound : VisibilityBound)
  | checkpoint (bound : VisibilityBound) (pointer : Nat)
  | writeOther (pointer : Nat) (bytes : List UInt8)

/-- A `CommitDelete` in the record. -/
def stampRows (deleteCommit : Nat → Nat) (vectorIdx commitId : Nat) (rows : List Nat)
    (row : Nat) : Nat :=
  if row / standardVectorSize = vectorIdx ∧ row % standardVectorSize ∈ rows then commitId
  else deleteCommit row

/-- The calls. A commit, its revert and a rollback are all `CommitDelete`. The bound of a
checkpoint separates commit ids from running transactions, lies above the inserts, and is not
below an earlier bound nor below what was compressed. The blocks behind the storage pointers
are not given to anyone else. -/
inductive CheckpointStep : CheckpointRun → CheckpointOp → CheckpointRun → Prop
  | deleteRows {s : CheckpointRun} {v tid : Nat} {rows : List Nat}
      (hv : v * standardVectorSize < maxRowGroupSize)
      (htid : transactionIdStart ≤ tid ∧ tid < notDeletedId) :
      CheckpointStep s (.deleteRows v tid rows)
        { s with manager := (s.manager.deleteRows v tid rows).1 }
  | commitDelete {s : CheckpointRun} {v commitId : Nat} {info : DeleteInfo}
      (hv : v * standardVectorSize < maxRowGroupSize) (hid : commitId ≤ notDeletedId)
      (hrows : ∀ r ∈ info.getRows, r < standardVectorSize) :
      CheckpointStep s (.commitDelete v commitId info)
        { s with
          manager := s.manager.commitDelete v commitId info
          deleteCommit := stampRows s.deleteCommit v commitId info.getRows }
  | compress {s : CheckpointRun} {bound : VisibilityBound}
      (hbound : bound.value ≤ transactionIdStart) :
      CheckpointStep s (.compress bound)
        { s with
          manager := s.manager.compressVersionIds bound
          compressedBelow := max s.compressedBelow bound.value }
  | checkpoint {s : CheckpointRun} {bound : VisibilityBound} {pointer : Nat}
      (hbound : bound.value ≤ transactionIdStart) (hle : s.bound ≤ bound.value)
      (hsafe : s.compressedBelow ≤ bound.value)
      (hinserts : ∀ v info, s.manager.getChunkInfo v = some info →
        ∀ r < standardVectorSize, info.insertId r < bound.value) :
      CheckpointStep s (.checkpoint bound pointer)
        { s with
          manager := (s.manager.checkpoint s.disk bound pointer).1
          disk := (s.manager.checkpoint s.disk bound pointer).2
          stored := fun row => decide (s.deleteCommit row < bound.value)
          bound := bound.value }
  | writeOther {s : CheckpointRun} {pointer : Nat} {bytes : List UInt8}
      (hpointer : pointer ∉ s.manager.storagePointers) :
      CheckpointStep s (.writeOther pointer bytes)
        { s with disk := Function.update s.disk pointer bytes }

/-- The manager's id of a row and the record's: equal, or compressed, or both of no commit. -/
def Agree (compressedBelow id commit : Nat) : Prop :=
  id = commit ∨ (id < compressedBelow ∧ commit < compressedBelow) ∨
    (transactionIdStart ≤ id ∧ transactionIdStart ≤ commit)

structure CheckpointInv (s : CheckpointRun) : Prop where
  compressedLe : s.compressedBelow ≤ transactionIdStart
  vectors : ∀ v info, s.manager.getChunkInfo v = some info →
    v * standardVectorSize < maxRowGroupSize
  small : ∀ v, ∀ r < standardVectorSize, s.manager.deleteIdAt v r ≤ notDeletedId
  agree : ∀ row, Agree s.compressedBelow
    (s.manager.deleteIdAt (row / standardVectorSize) (row % standardVectorSize))
    (s.deleteCommit row)
  storedBelow : ∀ row, s.stored row = true → s.deleteCommit row < s.bound
  watermarks : ∀ row, s.stored row = false → s.deleteCommit row < transactionIdStart →
    ∃ oldest newest, s.manager.oldestUncheckpointedDeleteCommit = some oldest ∧
      s.manager.newestUncheckpointedDeleteCommit = some newest ∧
      oldest ≤ s.deleteCommit row ∧ s.deleteCommit row ≤ newest
  disk : DeleteManager.Stores s.disk s.manager.storagePointers s.stored

/-- A manager whose deletes are all on disk: a new one, or one that was deserialized. -/
structure CheckpointRun.Initial (s : CheckpointRun) : Prop extends CheckpointInv s where
  oldest : s.manager.oldestUncheckpointedDeleteCommit = none
  newest : s.manager.newestUncheckpointedDeleteCommit = none

def checkpointLts : Lts CheckpointRun CheckpointOp where
  init := CheckpointRun.Initial
  step := CheckpointStep

/-- `CommitDelete` is called for rows whose delete is not on disk already. -/
def NotStored (s : CheckpointRun) : CheckpointOp → Prop
  | .commitDelete v _ info => ∀ r ∈ info.getRows, s.stored (v * standardVectorSize + r) = false
  | _ => True

/-! ### What each call does to the ids and the watermarks -/

namespace DeleteManager

theorem deleteIdAt_deleteRows (manager : DeleteManager) (v tid : Nat) (rows : List Nat)
    (w r : Nat) :
    (manager.deleteRows v tid rows).1.deleteIdAt w r =
      if w = v then
        ((manager.getVectorInfo v).delete standardVectorSize tid rows).1.deleteId r
      else manager.deleteIdAt w r :=
  RowVersionManager.deleteIdAt_setVectorInfo _ v w r _

theorem deleteIdAt_commitDelete (manager : DeleteManager) (v commitId : Nat) (info : DeleteInfo)
    (w : Nat) {r : Nat} (hr : r < standardVectorSize) :
    (manager.commitDelete v commitId info).deleteIdAt w r =
      if w = v ∧ r ∈ info.getRows then commitId else manager.deleteIdAt w r := by
  have hnew : ((manager.getVectorInfo v).commitDelete standardVectorSize commitId info).deleteId
      r = if r ∈ info.getRows then commitId else (manager.getVectorInfo v).deleteId r :=
    ChunkVectorInfo.commitDelete_deletedId hr
  rw [manager.deleteId_getVectorInfo] at hnew
  refine (RowVersionManager.deleteIdAt_setVectorInfo _ v w r _).trans ?_
  rw [hnew]
  by_cases hw : w = v
  · simp [hw]
  · simp [hw]

/-- Nothing below the bound has changed: the blocks on disk are current. -/
theorem checkpoint_current {manager : DeleteManager} (disk : MetadataDisk)
    (bound : VisibilityBound) (pointer : Nat) (h : ∀ oldest,
      manager.oldestUncheckpointedDeleteCommit = some oldest → bound.value ≤ oldest) :
    manager.checkpoint disk bound pointer = (manager, disk) := by
  rw [checkpoint]
  cases ho : manager.oldestUncheckpointedDeleteCommit with
  | none => rfl
  | some oldest => simp [h oldest ho]

/-- The watermarks take the new id in and do not narrow. -/
theorem watermarks_commitDelete (manager : DeleteManager) (v commitId : Nat)
    (info : DeleteInfo) :
    ∃ oldest newest,
      (manager.commitDelete v commitId info).oldestUncheckpointedDeleteCommit = some oldest ∧
      (manager.commitDelete v commitId info).newestUncheckpointedDeleteCommit = some newest ∧
      oldest ≤ commitId ∧ commitId ≤ newest ∧
      (∀ o, manager.oldestUncheckpointedDeleteCommit = some o → oldest ≤ o) ∧
      ∀ o, manager.newestUncheckpointedDeleteCommit = some o → o ≤ newest := by
  have holdest : ∃ oldest,
      (manager.commitDelete v commitId info).oldestUncheckpointedDeleteCommit = some oldest ∧
      oldest ≤ commitId ∧ ∀ o, manager.oldestUncheckpointedDeleteCommit = some o → oldest ≤ o := by
    simp only [commitDelete]
    cases manager.oldestUncheckpointedDeleteCommit with
    | none => exact ⟨commitId, rfl, le_rfl, fun o ho => by cases ho⟩
    | some o =>
        refine ⟨min commitId o, ?_, by omega, fun o' ho => ?_⟩
        · dsimp only
          split
          · rw [Nat.min_eq_left (by omega)]
          · rw [Nat.min_eq_right (by omega)]
        · cases ho
          omega
  have hnewest : ∃ newest,
      (manager.commitDelete v commitId info).newestUncheckpointedDeleteCommit = some newest ∧
      commitId ≤ newest ∧ ∀ o, manager.newestUncheckpointedDeleteCommit = some o → o ≤ newest := by
    simp only [commitDelete]
    cases manager.newestUncheckpointedDeleteCommit with
    | none => exact ⟨commitId, rfl, le_rfl, fun o ho => by cases ho⟩
    | some o =>
        refine ⟨max commitId o, ?_, by omega, fun o' ho => ?_⟩
        · dsimp only
          split
          · rw [Nat.max_eq_left (by omega)]
          · rw [Nat.max_eq_right (by omega)]
        · cases ho
          omega
  obtain ⟨oldest, ho, hole, holow⟩ := holdest
  obtain ⟨newest, hn, hnle, hnhigh⟩ := hnewest
  exact ⟨oldest, newest, ho, hn, hole, hnle, holow, hnhigh⟩

theorem getChunkInfo_compressVersionIds (manager : DeleteManager) (bound : VisibilityBound)
    (v : Nat) :
    (manager.compressVersionIds bound).getChunkInfo v = manager.getChunkInfo v ∨
    (manager.compressVersionIds bound).getChunkInfo v = (manager.getChunkInfo v).map fun info =>
      (info.compressVersionIds standardVectorSize bound).1 := by
  rw [compressVersionIds]
  split
  · exact Or.inl rfl
  · refine Or.inr ?_
    rw [RowVersionManager.getChunkInfo_eq, RowVersionManager.getChunkInfo_eq, List.getElem?_map]
    cases manager.vectorInfo[v]? with
    | none => rfl
    | some info => rfl

/-- Compression keeps an id or exchanges it for another one below the bound. -/
theorem deleteIdAt_compressVersionIds (manager : DeleteManager) (bound : VisibilityBound)
    (v : Nat) {r : Nat} (hr : r < standardVectorSize) :
    (manager.compressVersionIds bound).deleteIdAt v r = manager.deleteIdAt v r ∨
      (manager.deleteIdAt v r < bound.value ∧
        (manager.compressVersionIds bound).deleteIdAt v r < bound.value) := by
  rw [RowVersionManager.deleteIdAt, RowVersionManager.deleteIdAt]
  rcases manager.getChunkInfo_compressVersionIds bound v with heq | heq
  · rw [heq]
    exact Or.inl rfl
  · rw [heq]
    cases manager.getChunkInfo v with
    | none => exact Or.inl rfl
    | some info =>
        have hsame : VectorInfo.SameVersions standardVectorSize bound [] info _ :=
          info.compressVersionIds_same bound (by simp)
        rcases hsame.deletes r hr with hid | ⟨hold, hnew⟩
        · exact Or.inl hid.symm
        · exact Or.inr ⟨hold.1, hnew.1⟩

end DeleteManager

/-! ### What each call keeps -/

theorem transactionIdStart_le_notDeletedId : transactionIdStart ≤ notDeletedId := by decide

theorem row_lt (row : Nat) : row % standardVectorSize < standardVectorSize :=
  Nat.mod_lt row (by decide)

theorem Agree.lt_iff {b id commit bound : Nat} (h : Agree b id commit) (hb : b ≤ bound)
    (hbound : bound ≤ transactionIdStart) : id < bound ↔ commit < bound := by
  rcases h with rfl | ⟨h1, h2⟩ | ⟨h1, h2⟩
  · rfl
  · exact ⟨fun _ => by omega, fun _ => by omega⟩
  · exact ⟨fun _ => by omega, fun _ => by omega⟩

namespace CheckpointInv

variable {s : CheckpointRun}

theorem deleteRows (h : CheckpointInv s) {v tid : Nat} {rows : List Nat}
    (hv : v * standardVectorSize < maxRowGroupSize)
    (htid : transactionIdStart ≤ tid ∧ tid < notDeletedId) :
    CheckpointInv { s with manager := (s.manager.deleteRows v tid rows).1 } := by
  have hle := transactionIdStart_le_notDeletedId
  have hids : ∀ w, ∀ r < standardVectorSize,
      (s.manager.deleteRows v tid rows).1.deleteIdAt w r = s.manager.deleteIdAt w r ∨
        (transactionIdStart ≤ s.manager.deleteIdAt w r ∧
          transactionIdStart ≤ (s.manager.deleteRows v tid rows).1.deleteIdAt w r ∧
          (s.manager.deleteRows v tid rows).1.deleteIdAt w r ≤ notDeletedId) := by
    intro w r hr
    have hdel := (s.manager.getVectorInfo v).delete_ids htid.2.ne rows hr
    rw [RowVersionManager.deleteId_getVectorInfo] at hdel
    rw [DeleteManager.deleteIdAt_deleteRows]
    by_cases hw : w = v
    · rw [if_pos hw, hw]
      rcases hdel with heq | ⟨hold, hnew⟩
      · exact Or.inl heq
      · exact Or.inr (by omega)
    · rw [if_neg hw]
      exact Or.inl rfl
  refine ⟨h.compressedLe, fun w info hinfo => ?_, fun w r hr => ?_, fun row => ?_,
    h.storedBelow, h.watermarks, h.disk⟩
  · have hinfo : (s.manager.setVectorInfo v _).getChunkInfo w = some info := hinfo
    rw [RowVersionManager.getChunkInfo_setVectorInfo] at hinfo
    split at hinfo
    · next hw => exact hw ▸ hv
    · exact h.vectors w info hinfo
  · rcases hids w r hr with heq | hnew
    · rw [heq]
      exact h.small w r hr
    · exact hnew.2.2
  · have hagree := h.agree row
    have hcomp := h.compressedLe
    rcases hids (row / standardVectorSize) _ (row_lt row) with heq | hnew
    · show Agree _ ((s.manager.deleteRows v tid rows).1.deleteIdAt _ _) _
      rw [heq]
      exact hagree
    · refine Or.inr (Or.inr ⟨hnew.2.1, ?_⟩)
      rcases hagree with heq | hboth | hboth
      · exact heq ▸ hnew.1
      · exact absurd hboth.1 (by omega)
      · exact hboth.2

theorem commitDelete (h : CheckpointInv s) {v commitId : Nat} {info : DeleteInfo}
    (hv : v * standardVectorSize < maxRowGroupSize) (hid : commitId ≤ notDeletedId)
    (hstored : ∀ r ∈ info.getRows, s.stored (v * standardVectorSize + r) = false) :
    CheckpointInv { s with
      manager := s.manager.commitDelete v commitId info
      deleteCommit := stampRows s.deleteCommit v commitId info.getRows } := by
  refine ⟨h.compressedLe, fun w info' hinfo => ?_, fun w r hr => ?_, fun row => ?_,
    fun row hrow => ?_, fun row hrow hcommit => ?_, h.disk⟩
  · have hinfo : (s.manager.setVectorInfo v _).getChunkInfo w = some info' := hinfo
    rw [RowVersionManager.getChunkInfo_setVectorInfo] at hinfo
    split at hinfo
    · next hw => exact hw ▸ hv
    · exact h.vectors w info' hinfo
  · show (s.manager.commitDelete v commitId info).deleteIdAt w r ≤ _
    rw [DeleteManager.deleteIdAt_commitDelete _ _ _ _ w hr]
    split
    · exact hid
    · exact h.small w r hr
  · show Agree _ ((s.manager.commitDelete v commitId info).deleteIdAt _ _) (stampRows _ _ _ _ _)
    rw [DeleteManager.deleteIdAt_commitDelete _ _ _ _ _ (row_lt row), stampRows]
    split
    · exact Or.inl rfl
    · exact h.agree row
  · show stampRows _ _ _ _ _ < _
    rw [stampRows, if_neg]
    · exact h.storedBelow row hrow
    · rintro ⟨hrv, hmem⟩
      have hfalse := hstored _ hmem
      rw [← hrv, Nat.div_add_mod', hrow] at hfalse
      cases hfalse
  · obtain ⟨oldest, newest, ho, hn, hole, hnle, holow, hnhigh⟩ :=
      s.manager.watermarks_commitDelete v commitId info
    refine ⟨oldest, newest, ho, hn, ?_⟩
    have hcommit : stampRows s.deleteCommit v commitId info.getRows row < transactionIdStart :=
      hcommit
    show oldest ≤ stampRows _ _ _ _ _ ∧ stampRows _ _ _ _ _ ≤ newest
    rw [stampRows] at hcommit ⊢
    split at hcommit
    · next hrow' =>
        rw [if_pos hrow']
        exact ⟨hole, hnle⟩
    · next hrow' =>
        rw [if_neg hrow']
        obtain ⟨o, m, ho', hn', hol, hnl⟩ := h.watermarks row hrow hcommit
        exact ⟨(holow o ho').trans hol, hnl.trans (hnhigh m hn')⟩

variable {bound : VisibilityBound}

theorem compress (h : CheckpointInv s) (hbound : bound.value ≤ transactionIdStart) :
    CheckpointInv { s with
      manager := s.manager.compressVersionIds bound
      compressedBelow := max s.compressedBelow bound.value } := by
  have hids := fun v r (hr : r < standardVectorSize) =>
    s.manager.deleteIdAt_compressVersionIds bound v hr
  have hle := transactionIdStart_le_notDeletedId
  refine ⟨Nat.max_le.mpr ⟨h.compressedLe, hbound⟩, fun w info hinfo => ?_, fun w r hr => ?_,
    fun row => ?_, h.storedBelow, ?_, ?_⟩
  · have hinfo : (s.manager.compressVersionIds bound).getChunkInfo w = some info := hinfo
    rcases s.manager.getChunkInfo_compressVersionIds bound w with heq | heq
    · exact h.vectors w info (heq.symm.trans hinfo)
    · rw [heq, Option.map_eq_some_iff] at hinfo
      obtain ⟨old, hold, -⟩ := hinfo
      exact h.vectors w old hold
  · show (s.manager.compressVersionIds bound).deleteIdAt w r ≤ _
    rcases hids w r hr with heq | hboth
    · rw [heq]
      exact h.small w r hr
    · omega
  · show Agree _ ((s.manager.compressVersionIds bound).deleteIdAt _ _) _
    have hagree := h.agree row
    rcases hids (row / standardVectorSize) _ (row_lt row) with heq | hboth
    · rw [heq]
      refine hagree.imp_right (Or.imp_left fun hlt => ?_)
      exact ⟨hlt.1.trans_le (Nat.le_max_left ..), hlt.2.trans_le (Nat.le_max_left ..)⟩
    · refine Or.inr (Or.inl ⟨hboth.2.trans_le (Nat.le_max_right ..), ?_⟩)
      rcases hagree with heq | hlt | hge
      · exact heq ▸ hboth.1.trans_le (Nat.le_max_right ..)
      · exact hlt.2.trans_le (Nat.le_max_left ..)
      · omega
  · have hfields : (s.manager.compressVersionIds bound).oldestUncheckpointedDeleteCommit =
        s.manager.oldestUncheckpointedDeleteCommit ∧
        (s.manager.compressVersionIds bound).newestUncheckpointedDeleteCommit =
          s.manager.newestUncheckpointedDeleteCommit := by
      rw [DeleteManager.compressVersionIds]
      split <;> exact ⟨rfl, rfl⟩
    intro row hrow hcommit
    rw [hfields.1, hfields.2]
    exact h.watermarks row hrow hcommit
  · have hpointers : (s.manager.compressVersionIds bound).storagePointers =
        s.manager.storagePointers := by
      rw [DeleteManager.compressVersionIds]
      split <;> rfl
    rw [hpointers]
    exact h.disk

/-- The checkpoint keeps the old pointers: no delete between the watermarks is below its bound,
so the rows below it are those that were below the last one. -/
theorem skip (h : CheckpointInv s) {bound : VisibilityBound}
    (hbound : bound.value ≤ transactionIdStart) (hle : s.bound ≤ bound.value)
    (hcurrent : ∀ oldest, s.manager.oldestUncheckpointedDeleteCommit = some oldest →
      bound.value ≤ oldest) :
    CheckpointInv { s with
      stored := fun row => decide (s.deleteCommit row < bound.value)
      bound := bound.value } := by
  have hsame : (fun row => decide (s.deleteCommit row < bound.value)) = s.stored := by
    funext row
    cases hrow : s.stored row with
    | true => exact decide_eq_true ((h.storedBelow row hrow).trans_le hle)
    | false =>
        refine decide_eq_false fun hlt => ?_
        obtain ⟨oldest, newest, ho, -, hol, -⟩ := h.watermarks row hrow (hlt.trans_le hbound)
        have := hcurrent oldest ho
        omega
  refine ⟨h.compressedLe, h.vectors, h.small, h.agree, fun row hrow => of_decide_eq_true hrow,
    ?_, ?_⟩
  · rw [hsame]
    exact h.watermarks
  · rw [hsame]
    exact h.disk

/-- The checkpoint writes: the rows below its bound are those the vectors have below it. -/
theorem write (h : CheckpointInv s) {pointer : Nat} (hbound : bound.value ≤ transactionIdStart)
    (hle : s.bound ≤ bound.value) (hsafe : s.compressedBelow ≤ bound.value)
    (hinserts : ∀ v info, s.manager.getChunkInfo v = some info → ∀ r < standardVectorSize, info.insertId r < bound.value)
    {oldest : Nat} (holdest : s.manager.oldestUncheckpointedDeleteCommit = some oldest)
    (hlt : oldest < bound.value) : CheckpointInv { s with
      manager := (s.manager.checkpoint s.disk bound pointer).1
      disk := (s.manager.checkpoint s.disk bound pointer).2
      stored := fun row => decide (s.deleteCommit row < bound.value)
      bound := bound.value } := by
  have hmarker := hbound.trans transactionIdStart_le_notDeletedId
  have hstores := DeleteManager.stores_serialize hmarker
    (fun v info hinfo => ⟨h.vectors v info hinfo, hinserts v info hinfo, fun r hr => by
      have hsmall := h.small v r hr
      rwa [RowVersionManager.deleteIdAt, hinfo] at hsmall⟩) s.disk pointer
  have hsame : (fun row => decide (s.manager.deleteIdAt (row / standardVectorSize)
      (row % standardVectorSize) < bound.value)) =
      fun row => decide (s.deleteCommit row < bound.value) :=
    funext fun row => decide_eq_decide.mpr ((h.agree row).lt_iff hsafe hbound)
  rw [hsame] at hstores
  have hwrite : (s.manager.checkpoint s.disk bound pointer) =
      ({ s.manager with
          storagePointers := if (s.manager.toSerialize bound).isEmpty then [] else [pointer]
          newestUncheckpointedDeleteCommit :=
            if (match s.manager.newestUncheckpointedDeleteCommit with
              | none => false
              | some newest => decide (newest < bound.value)) then none
            else s.manager.newestUncheckpointedDeleteCommit
          oldestUncheckpointedDeleteCommit :=
            if (match s.manager.newestUncheckpointedDeleteCommit with
              | none => false
              | some newest => decide (newest < bound.value)) then none
            else s.manager.oldestUncheckpointedDeleteCommit },
        if (s.manager.toSerialize bound).isEmpty then s.disk
        else Function.update s.disk pointer
          (DeleteManager.serialize (s.manager.toSerialize bound) bound)) := by
    have hnot : decide (oldest ≥ bound.value) = false := decide_eq_false (Nat.not_le.mpr hlt)
    simp only [DeleteManager.checkpoint, holdest, hnot, Bool.false_eq_true, if_false]
  rw [hwrite]
  refine ⟨h.compressedLe, h.vectors, h.small, h.agree, fun row hrow => of_decide_eq_true hrow,
    fun row hrow hcommit => ?_, hstores⟩
  -- a commit that is not stored now was not stored before
  have hge : bound.value ≤ s.deleteCommit row := Nat.not_lt.mp (of_decide_eq_false hrow)
  have hunstored : s.stored row = false := by
    cases hst : s.stored row with
    | false => rfl
    | true =>
        have := h.storedBelow row hst
        omega
  obtain ⟨o, newest, ho, hn, hol, hnl⟩ := h.watermarks row hunstored hcommit
  have hnot : decide (newest < bound.value) = false :=
    decide_eq_false (Nat.not_lt.mpr (hge.trans hnl))
  refine ⟨o, newest, ?_, ?_, hol, hnl⟩
  · simp only [hn, hnot, Bool.false_eq_true, if_false]
    exact ho
  · simp only [hn, hnot, Bool.false_eq_true, if_false]

theorem checkpoint (h : CheckpointInv s) {bound : VisibilityBound} {pointer : Nat}
    (hbound : bound.value ≤ transactionIdStart) (hle : s.bound ≤ bound.value)
    (hsafe : s.compressedBelow ≤ bound.value)
    (hinserts : ∀ v info, s.manager.getChunkInfo v = some info →
      ∀ r < standardVectorSize, info.insertId r < bound.value) :
    CheckpointInv { s with
      manager := (s.manager.checkpoint s.disk bound pointer).1
      disk := (s.manager.checkpoint s.disk bound pointer).2
      stored := fun row => decide (s.deleteCommit row < bound.value)
      bound := bound.value } := by
  by_cases hcurrent : ∀ oldest, s.manager.oldestUncheckpointedDeleteCommit = some oldest →
      bound.value ≤ oldest
  · rw [DeleteManager.checkpoint_current s.disk bound pointer hcurrent]
    exact h.skip hbound hle hcurrent
  · simp only [not_forall, Nat.not_le] at hcurrent
    obtain ⟨oldest, ho, hlt⟩ := hcurrent
    exact h.write hbound hle hsafe hinserts ho hlt

theorem writeOther (h : CheckpointInv s) {pointer : Nat} (bytes : List UInt8)
    (hpointer : pointer ∉ s.manager.storagePointers) :
    CheckpointInv { s with disk := Function.update s.disk pointer bytes } := by
  obtain ⟨loaded, hload, hshown⟩ := h.disk
  refine ⟨h.compressedLe, h.vectors, h.small, h.agree, h.storedBelow, h.watermarks, loaded, ?_,
    hshown⟩
  show DeleteManager.deserialize (Function.update s.disk pointer bytes)
    s.manager.storagePointers = .ok loaded
  cases hp : s.manager.storagePointers with
  | nil =>
      rw [hp] at hload
      exact hload
  | cons root rest =>
      rw [hp] at hload hpointer
      have hne : root ≠ pointer := fun he => hpointer (he ▸ List.mem_cons_self)
      rw [DeleteManager.deserialize, Function.update_of_ne hne]
      exact hload

theorem step {t : CheckpointRun} {op : CheckpointOp} (h : CheckpointInv s)
    (hkeep : NotStored s op) (hstep : CheckpointStep s op t) : CheckpointInv t := by
  cases hstep with
  | deleteRows hv htid => exact h.deleteRows hv htid
  | commitDelete hv hid hrows => exact h.commitDelete hv hid hkeep
  | compress hbound => exact h.compress hbound
  | checkpoint hbound hle hsafe hinserts => exact h.checkpoint hbound hle hsafe hinserts
  | writeOther hpointer => exact h.writeOther _ hpointer

theorem reachable (h : (checkpointLts.restrict NotStored).Reachable s) : CheckpointInv s :=
  h.invariant_restrict (fun s (h0 : s.Initial) => h0.toCheckpointInv) fun _ _ _ hkeep hi hs => hi.step hkeep hs

end CheckpointInv

/-- After each checkpoint, whether it wrote or kept its old pointers, the pointers read as
version information in which every reader sees exactly the rows whose delete id is not below
the bound. `CommitDelete` may be called for any rows whose delete is not on disk. -/
theorem checkpoint_exact {s t : CheckpointRun} {bound : VisibilityBound} {pointer : Nat}
    (h : (checkpointLts.restrict NotStored).Reachable s)
    (hstep : CheckpointStep s (.checkpoint bound pointer) t) :
    ∃ loaded, DeleteManager.deserialize t.disk t.manager.storagePointers = .ok loaded ∧
      ∀ view, VectorInfo.Ordinary view → ∀ row,
        (DeleteManager.rowShown loaded view row = true ↔ ¬ t.deleteCommit row < bound.value) := by
  have hkeep : NotStored s (.checkpoint bound pointer) := trivial
  obtain ⟨loaded, hload, hshown⟩ := ((CheckpointInv.reachable h).step hkeep hstep).disk
  refine ⟨loaded, hload, fun view hview row => ?_⟩
  rw [hshown view hview row]
  cases hstep
  simp

/-! ### A delete, and its rollback -/

def emptyStore : CheckpointRun :=
  ⟨⟨⟨[]⟩, none, none, [], false⟩, fun _ => [], fun _ => notDeletedId, fun _ => false, 0, 0⟩

/-- `CommitDelete` of row 0, as a run records it. -/
def CheckpointRun.commitFirst (s : CheckpointRun) (commitId : Nat) : CheckpointRun :=
  { s with
    manager := s.manager.commitDelete 0 commitId ⟨1, true, []⟩
    deleteCommit := stampRows s.deleteCommit 0 commitId [0] }

def CheckpointRun.afterCheckpoint (s : CheckpointRun) (bound : VisibilityBound) : CheckpointRun :=
  { s with
    manager := (s.manager.checkpoint s.disk bound 0).1
    disk := (s.manager.checkpoint s.disk bound 0).2
    stored := fun row => decide (s.deleteCommit row < bound.value)
    bound := bound.value }

@[simp] theorem CheckpointRun.commitFirst_disk (s : CheckpointRun) (commitId : Nat) :
    (s.commitFirst commitId).disk = s.disk := rfl

@[simp] theorem CheckpointRun.commitFirst_pointers (s : CheckpointRun) (commitId : Nat) :
    (s.commitFirst commitId).manager.storagePointers = s.manager.storagePointers := rfl

theorem CheckpointRun.afterCheckpoint_current {s : CheckpointRun} (bound : VisibilityBound)
    (h : ∀ oldest, s.manager.oldestUncheckpointedDeleteCommit = some oldest →
      bound.value ≤ oldest) :
    (s.afterCheckpoint bound).disk = s.disk ∧
      (s.afterCheckpoint bound).manager.storagePointers = s.manager.storagePointers := by
  rw [afterCheckpoint, DeleteManager.checkpoint_current s.disk bound 0 h]
  exact ⟨rfl, rfl⟩

theorem emptyStore_inv : CheckpointInv emptyStore where
  compressedLe := by decide
  vectors := fun _ _ h => nomatch h
  small := fun _ _ _ => le_rfl
  agree := fun _ => Or.inl rfl
  storedBelow := fun _ h => nomatch h
  watermarks := fun _ _ h =>
    absurd (show notDeletedId < transactionIdStart from h) (by decide)
  disk := ⟨none, rfl, fun _ _ _ => rfl⟩

theorem emptyStore_initial : emptyStore.Initial := ⟨emptyStore_inv, rfl, rfl⟩

/-- All rows of all vectors have the insert id of a new vector. -/
def FirstInserts (manager : DeleteManager) : Prop :=
  ∀ v info, manager.getChunkInfo v = some info → ∀ r, info.insertId r = 0

theorem emptyStore_inserts : FirstInserts emptyStore.manager := fun _ _ h => nomatch h

theorem FirstInserts.commitFirst {s : CheckpointRun} (h : FirstInserts s.manager)
    (commitId : Nat) : FirstInserts (s.commitFirst commitId).manager := by
  intro v info hinfo r
  have hinfo : (s.manager.setVectorInfo 0 (some _)).getChunkInfo v = some info := hinfo
  rw [RowVersionManager.getChunkInfo_setVectorInfo] at hinfo
  split at hinfo
  · cases hinfo
    show (s.manager.getVectorInfo 0).insertId r = 0
    rw [RowVersionManager.getVectorInfo]
    cases hfirst : s.manager.getChunkInfo 0 with
    | none => rfl
    | some first => exact h 0 first hfirst r
  · exact h v info hinfo r

theorem commitFirst_step (s : CheckpointRun) {commitId : Nat} (hid : commitId ≤ notDeletedId) :
    CheckpointStep s (.commitDelete 0 commitId ⟨1, true, []⟩) (s.commitFirst commitId) :=
  .commitDelete (by decide) hid (by decide)

theorem FirstInserts.checkpoint_step {s : CheckpointRun} (h : FirstInserts s.manager)
    {bound : VisibilityBound} (hbound : bound.value ≤ transactionIdStart)
    (hle : s.bound ≤ bound.value) (hsafe : s.compressedBelow ≤ bound.value)
    (hpos : 0 < bound.value) :
    CheckpointStep s (.checkpoint bound 0) (s.afterCheckpoint bound) :=
  .checkpoint hbound hle hsafe fun v info hinfo r _ => by rwa [h v info hinfo r]

theorem commitFirst_reachable :
    (checkpointLts.restrict NotStored).Reachable (emptyStore.commitFirst 5) :=
  Lts.Reachable.step (l := .commitDelete 0 5 ⟨1, true, []⟩) (.init emptyStore_initial)
    ⟨fun _ _ => rfl, commitFirst_step emptyStore (by decide)⟩

/-- A first delete is on disk after the checkpoint. -/
theorem checkpoint_exact_first :
    ∃ t : CheckpointRun, t.deleteCommit 0 = 5 ∧
      ∃ loaded, DeleteManager.deserialize t.disk t.manager.storagePointers = .ok loaded ∧
        ∀ view, VectorInfo.Ordinary view → ∀ row,
          (DeleteManager.rowShown loaded view row = true ↔ ¬ t.deleteCommit row < 10) :=
  ⟨(emptyStore.commitFirst 5).afterCheckpoint (.before 10), rfl,
    checkpoint_exact commitFirst_reachable
      ((emptyStore_inserts.commitFirst 5).checkpoint_step (by decide) (by decide) (by decide)
        (by decide))⟩

/-- Row 0 is deleted by the commit with id 5, a checkpoint with bound 10 stores that, and a
rollback takes it back. The checkpoint with bound 20 knows of no delete below its bound and keeps
pointers by which the row is still deleted. -/
theorem rollback_of_stored :
    ∃ (s t : CheckpointRun) (bound : VisibilityBound) (pointer : Nat),
      checkpointLts.Reachable s ∧ CheckpointStep s (.checkpoint bound pointer) t ∧
      ¬ ∃ loaded, DeleteManager.deserialize t.disk t.manager.storagePointers = .ok loaded ∧
        ∀ view, VectorInfo.Ordinary view → ∀ row,
          (DeleteManager.rowShown loaded view row = true ↔ ¬ t.deleteCommit row < bound.value) := by
  let stored := (emptyStore.commitFirst 5).afterCheckpoint (.before 10)
  have hfirst : CheckpointStep (emptyStore.commitFirst 5) (.checkpoint (.before 10) 0) stored :=
    (emptyStore_inserts.commitFirst 5).checkpoint_step (by decide) (by decide) (by decide)
      (by decide)
  have hinserts : FirstInserts stored.manager := emptyStore_inserts.commitFirst 5
  have hinv : CheckpointInv stored :=
    (CheckpointInv.reachable commitFirst_reachable).step
      (show NotStored _ (.checkpoint (.before 10) 0) from trivial) hfirst
  have hreach : checkpointLts.Reachable (stored.commitFirst notDeletedId) :=
    (((Lts.Reachable.init (M := checkpointLts) emptyStore_initial).step
      (commitFirst_step emptyStore (by decide))).step hfirst).step
      (commitFirst_step stored le_rfl)
  refine ⟨stored.commitFirst notDeletedId,
    (stored.commitFirst notDeletedId).afterCheckpoint (.before 20), .before 20, 0, hreach,
    (hinserts.commitFirst notDeletedId).checkpoint_step (by decide) (by decide) (by decide)
      (by decide), ?_⟩
  rintro ⟨loaded, hload, hshown⟩
  obtain ⟨loaded', hload', hshown'⟩ := hinv.disk
  have holdest : (stored.commitFirst notDeletedId).manager.oldestUncheckpointedDeleteCommit =
      some notDeletedId := rfl
  have hcurrent : ∀ oldest,
      (stored.commitFirst notDeletedId).manager.oldestUncheckpointedDeleteCommit = some oldest →
      20 ≤ oldest := by
    intro oldest ho
    rw [holdest] at ho
    exact Option.some.inj ho ▸ (by decide)
  obtain ⟨hdisk, hpointers⟩ := CheckpointRun.afterCheckpoint_current (.before 20) hcurrent
  rw [hdisk, hpointers, CheckpointRun.commitFirst_disk, CheckpointRun.commitFirst_pointers,
    hload'] at hload
  cases hload
  let view : SnapshotView := ⟨transactionIdStart, .before 20⟩
  have hview : VectorInfo.Ordinary view := ⟨by decide, by decide⟩
  have hgone : DeleteManager.rowShown loaded view 0 = false := hshown' view hview 0
  have hthere : DeleteManager.rowShown loaded view 0 = true :=
    (hshown view hview 0).mpr (by decide)
  rw [hgone] at hthere
  cases hthere

end MiniDuck
