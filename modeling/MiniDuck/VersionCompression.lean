import MiniDuck.VectorInfo

/-!
# Compressing version ids is invisible

`CompressVersionIds` exchanges ids: insert ids that all lie below the bound for
0, delete ids below it for a constant or for the id of a mask. `SameVersions`
relates two vectors whose ids are equal up to such exchanges. Compression
starts it (`compressVersionIds_same`), every later delete, commit and rollback
keeps it (`applyOp_same`), and readers whose bound is not below the one of the
compression cannot tell related vectors apart (`SameVersions.fetch_eq`).
-/

namespace MiniDuck

namespace VectorInfo

/-! ## The operations on a whole vector -/

inductive CompressionResult
  | fullyCompressed
  | pending
  | settled
  deriving Repr, DecidableEq

/-- The delete ids are still an array after the scan of `CompressVersionIds`. -/
def deletesPending (n : Nat) (deletes : ChunkVectorInfo) (bound : VisibilityBound) : Bool :=
  match deletes.deleteState with
  | .array deleted =>
      let scan := ((List.range n).map deleted).foldl (ChunkVectorInfo.DeleteScan.next bound)
        ChunkVectorInfo.DeleteScan.start
      if !scan.rowsAlive && !scan.deletesPending then false
      else if !scan.rowsAlive then true
      else if !scan.deletesPending then false
      else if scan.deletesEqual && !scan.deletesUncommitted then false
      else true
  | _ => false

/-- The insert side of `CompressVersionIds`. -/
def compressInserts (n : Nat) (inserts : InsertIdState) (bound : VisibilityBound) :
    InsertIdState :=
  match inserts with
  | .constant id => .constant id
  | .array inserted => if ∀ i < n, inserted i < bound.value then .constant 0 else .array inserted

def hasConstantInsertionId (info : VectorInfo) : Bool :=
  match info.insertState with
  | .constant _ => true
  | .array _ => false

def hasConstantDeleteId (info : VectorInfo) : Bool :=
  match info.deletes.deleteState with
  | .constant _ => true
  | _ => false

def compressVersionIds (n : Nat) (info : VectorInfo) (bound : VisibilityBound) :
    VectorInfo × CompressionResult :=
  if !info.recheckCompression then
    (info, if info.hasConstantDeleteId && info.hasConstantInsertionId then .fullyCompressed
      else .settled)
  else
    let inserts := compressInserts n info.insertState bound
    let deletes := info.deletes.compressVersionIds n bound
    let constantInserts := (⟨inserts, deletes, true⟩ : VectorInfo).hasConstantInsertionId
    let pending := deletesPending n info.deletes bound || !constantInserts
    let compressed : VectorInfo := ⟨inserts, deletes, pending⟩
    (compressed,
      if compressed.hasConstantDeleteId && constantInserts then .fullyCompressed
      else if pending then .pending else .settled)

/-- `Delete` goes on to the per-row ids. -/
def deleteMaterializes (n : Nat) (deletes : ChunkVectorInfo) (rows : List Nat) : Bool :=
  match deletes.deleteState with
  | .constant id =>
      decide (id = notDeletedId) &&
        !(decide (rows.length = n) && ChunkVectorInfo.deletesEntireVector rows rows.length)
  | _ => true

def delete (n : Nat) (info : VectorInfo) (transactionId : Nat) (rows : List Nat) :
    VectorInfo × Except String (List Nat) :=
  let (deletes, result) := info.deletes.delete n transactionId rows
  ({ info with
      deletes := deletes
      recheckCompression := info.recheckCompression || deleteMaterializes n info.deletes rows },
    result)

/-- `CommitDelete` goes on to the per-row ids. -/
def commitMaterializes (n : Nat) (deletes : ChunkVectorInfo) (commitId : Nat)
    (info : DeleteInfo) : Bool :=
  if info.isConsecutive ∧ info.count = n then false
  else match deletes.deleteState with
    | .constant id => decide (id ≠ commitId)
    | _ => true

def commitDelete (n : Nat) (self : VectorInfo) (commitId : Nat) (info : DeleteInfo) :
    VectorInfo :=
  { self with
    deletes := self.deletes.commitDelete n commitId info
    recheckCompression :=
      self.recheckCompression || commitMaterializes n self.deletes commitId info }

/-- What can happen to the delete side of a vector. -/
inductive VersionOp
  | delete (transactionId : Nat) (rows : List Nat)
  | commitDelete (commitId : Nat) (info : DeleteInfo)
  | rollback (info : DeleteInfo)

/-- One operation; a delete that throws leaves what its undo loop left. -/
def applyOp (n : Nat) (info : VectorInfo) : VersionOp → VectorInfo
  | .delete transactionId rows => (info.delete n transactionId rows).1
  | .commitDelete commitId deleteInfo => info.commitDelete n commitId deleteInfo
  | .rollback deleteInfo => info.commitDelete n notDeletedId deleteInfo

def applyOps (n : Nat) (info : VectorInfo) (ops : List VersionOp) : VectorInfo :=
  ops.foldl (applyOp n) info

end VectorInfo

/-! ## Delete as a run of its loop -/

namespace ChunkVectorInfo

variable {tid : Nat}

/-- All rows are the transaction's own: the loop skips them. -/
theorem deleteLoop_own {deleted : Nat → Nat} (hown : ∀ r, deleted r = tid) (rows : List Nat)
    (deletedTuples : Nat) : (k i : Nat) → deleteLoop tid deleted rows i deletedTuples k =
      (deleted, .ok (rows.take deletedTuples))
  | 0, _ => rfl
  | k + 1, i => by
      rw [deleteLoop]
      simp only [hown, if_true]
      exact deleteLoop_own hown rows deletedTuples k (i + 1)

theorem writeIds_cons (deleted : Nat → Nat) (a : Nat) (rows : List Nat) (id : Nat) :
    writeIds deleted (a :: rows) id = writeIds (Function.update deleted a id) rows id := rfl

variable {rows : List Nat}

/-- All rows are unmarked and different: the loop marks each. -/
theorem deleteLoop_fresh (htid : tid ≠ notDeletedId) (hnodup : rows.Nodup) :
    (k i : Nat) → (deleted : Nat → Nat) → i + k = rows.length →
    (∀ r ∈ rows.drop i, deleted r = notDeletedId) →
    deleteLoop tid deleted rows i i k = (writeIds deleted (rows.drop i) tid, .ok rows)
  | 0, i, deleted, hlen, _ => by
      rw [deleteLoop, List.take_of_length_le (by omega), List.drop_eq_nil_of_le (by omega)]
      rfl
  | k + 1, i, deleted, hlen, hfresh => by
      have hi : i < rows.length := by omega
      have hdrop := List.drop_eq_getElem_cons hi
      have hget : rows.getD i 0 = rows[i] := by
        rw [List.getD_eq_getElem?_getD, List.getElem?_eq_getElem hi, Option.getD_some]
      have hfree : deleted rows[i] = notDeletedId := hfresh _ (hdrop ▸ List.mem_cons_self)
      have hnotin : rows[i] ∉ rows.drop (i + 1) :=
        (List.nodup_cons.1 (hdrop ▸ hnodup.sublist (List.drop_sublist i rows))).1
      rw [deleteLoop]
      simp only [hget, hfree, htid.symm, if_false, ne_eq, not_true_eq_false,
        List.set_getElem_self]
      rw [deleteLoop_fresh htid hnodup k (i + 1) _ (by omega) ?_, hdrop, writeIds_cons]
      intro r hr
      rw [Function.update_of_ne (ne_of_mem_of_not_mem hr hnotin)]
      exact hfresh r (hdrop ▸ List.mem_cons_of_mem _ hr)

/-- In any storage state the ids after `Delete` are those of the loop over the
per-row ids. -/
theorem delete_deletedId {n : Nat} {info : ChunkVectorInfo} (htid : tid ≠ notDeletedId) {r : Nat}
    (hr : r < n) : (info.delete n tid rows).1.deletedId r =
      (deleteLoop tid info.deletedId rows 0 0 rows.length).1 r := by
  rcases delete_cases n tid info rows with ⟨heq, hall⟩ | ⟨heq, hall⟩ | ⟨heq, hrange, hall⟩ | heq
  · rw [heq, deleteLoop_own hall]
  · rw [heq]
    cases rows with
    | nil => rfl
    | cons a rows =>
        rw [List.length_cons, deleteLoop, List.getD_cons_zero, if_neg (hall a).1,
          if_pos (hall a).2]
        rfl
  · rw [heq, deleteLoop_fresh htid (hrange ▸ List.nodup_range) _ 0 _ (by omega)
      fun r _ => hall r]
    show tid = writeIds info.deletedId (rows.drop 0) tid r
    rw [List.drop_zero, writeIds_apply, if_pos (hrange ▸ List.mem_range.2 hr)]
  · rw [heq, deleteMaterialized, getInitializedDeletedPointer_eq]
    rfl

theorem delete_result {n : Nat} {info : ChunkVectorInfo} (htid : tid ≠ notDeletedId)
    (hne : rows ≠ []) : (info.delete n tid rows).2 =
      (deleteLoop tid info.deletedId rows 0 0 rows.length).2 := by
  rcases delete_cases n tid info rows with ⟨heq, hall⟩ | ⟨heq, hall⟩ | ⟨heq, hrange, hall⟩ | heq
  · rw [heq, deleteLoop_own hall, List.take_zero]
  · obtain ⟨a, rest, rfl⟩ := List.exists_cons_of_ne_nil hne
    rw [heq, List.length_cons, deleteLoop, List.getD_cons_zero, if_neg (hall a).1,
      if_pos (hall a).2]
  · rw [heq, deleteLoop_fresh htid (hrange ▸ List.nodup_range) _ 0 _ (by omega)
      fun r _ => hall r]
  · rw [heq, deleteMaterialized, getInitializedDeletedPointer_eq]

/-- Ids that the loop of transaction `tid` cannot tell apart: `S` contains
neither its own id nor the marker. -/
def Exchangeable (S : Nat → Prop) (a b : Nat) : Prop := a = b ∨ (S a ∧ S b)

theorem Exchangeable.eq_iff {S : Nat → Prop} {a b id : Nat} (h : Exchangeable S a b)
    (hid : ¬S id) : a = id ↔ b = id := by
  rcases h with rfl | ⟨ha, hb⟩
  · rfl
  · exact ⟨fun he => absurd (he ▸ ha) hid, fun he => absurd (he ▸ hb) hid⟩

theorem getD_lt {n : Nat} (hn : 0 < n) (hrows : ∀ r ∈ rows, r < n) (i : Nat) :
    rows.getD i 0 < n := by
  rw [List.getD_eq_getElem?_getD]
  cases hget : rows[i]? with
  | none => exact hn
  | some r => exact hrows r (List.mem_of_getElem? hget)

theorem deleteLoop_exchangeable {n : Nat} {S : Nat → Prop} (hn : 0 < n) (htid : ¬S tid)
    (hmarker : ¬S notDeletedId) :
    (k i deletedTuples : Nat) → (rows : List Nat) → (a b : Nat → Nat) →
    (∀ r ∈ rows, r < n) → (∀ r < n, Exchangeable S (a r) (b r)) →
    (deleteLoop tid a rows i deletedTuples k).2 = (deleteLoop tid b rows i deletedTuples k).2 ∧
    ∀ r < n, Exchangeable S ((deleteLoop tid a rows i deletedTuples k).1 r)
      ((deleteLoop tid b rows i deletedTuples k).1 r)
  | 0, _, _, _, _, _, _, hab => ⟨rfl, hab⟩
  | k + 1, i, deletedTuples, rows, a, b, hrows, hab => by
      have hrow := getD_lt hn hrows i
      have hown := (hab _ hrow).eq_iff htid
      have hfree := (hab _ hrow).eq_iff hmarker
      rw [deleteLoop, deleteLoop]
      simp only [hown, hfree, ne_eq]
      split_ifs with hmine hother
      · exact deleteLoop_exchangeable hn htid hmarker k (i + 1) deletedTuples rows a b hrows hab
      · refine deleteLoop_exchangeable hn htid hmarker k (i + 1) (deletedTuples + 1) _ _ _
          (fun r hr => ?_) (fun r hr => ?_)
        · rcases List.mem_or_eq_of_mem_set hr with hr | rfl
          · exact hrows r hr
          · exact hrow
        · by_cases he : r = rows.getD i 0
          · rw [he, Function.update_self, Function.update_self]
            exact Or.inl rfl
          · rw [Function.update_of_ne he, Function.update_of_ne he]
            exact hab r hr
      · refine ⟨rfl, fun r hr => ?_⟩
        simp only [writeIds_apply]
        split_ifs
        · exact Or.inl rfl
        · exact hab r hr

end ChunkVectorInfo

/-! ## Vectors with the same versions -/

namespace VectorInfo

open ChunkVectorInfo (Exchangeable)

/-- A delete id that compression may exchange: below the bound, of a deleted
row, and below every id in `deleters`, the transactions still to delete. -/
def Settled (bound : VisibilityBound) (deleters : List Nat) (id : Nat) : Prop :=
  id < bound.value ∧ id ≠ notDeletedId ∧ ∀ tid ∈ deleters, id < tid

/-- Two vectors whose ids differ only in what every reader from `bound` on has
seen for good. -/
structure SameVersions (n : Nat) (bound : VisibilityBound) (deleters : List Nat)
    (a b : VectorInfo) : Prop where
  inserts : ∀ r < n, Exchangeable (· < bound.value) (a.insertId r) (b.insertId r)
  deletes : ∀ r < n, Exchangeable (Settled bound deleters) (a.deleteId r) (b.deleteId r)

variable {n : Nat}

theorem compressInserts_insertId {r : Nat} (info : VectorInfo) (bound : VisibilityBound)
    (hr : r < n) (deletes : ChunkVectorInfo) (recheck : Bool) :
    Exchangeable (· < bound.value) (info.insertId r)
      (insertId ⟨compressInserts n info.insertState bound, deletes, recheck⟩ r) := by
  unfold insertId compressInserts
  cases info.insertState with
  | constant id => exact Or.inl rfl
  | array inserted =>
      by_cases hall : ∀ i < n, inserted i < bound.value
      · simp only [if_pos hall]
        exact Or.inr ⟨hall r hr, lt_of_le_of_lt (Nat.zero_le _) (hall r hr)⟩
      · simp only [if_neg hall]
        exact Or.inl rfl

variable {deleters : List Nat}

/-- Compression keeps the versions, when the later deleters have ids above the
ids below the bound. -/
theorem compressVersionIds_same {n : Nat} (info : VectorInfo) (bound : VisibilityBound)
    {deleters : List Nat}
    (hdeleters : ∀ tid ∈ deleters, ∀ r < n, info.deleteId r ≠ notDeletedId →
      info.deleteId r < bound.value → info.deleteId r < tid) :
    SameVersions n bound deleters info (info.compressVersionIds n bound).1 := by
  rw [compressVersionIds]
  by_cases hrecheck : (!info.recheckCompression) = true
  · rw [if_pos hrecheck]
    exact ⟨fun _ _ => Or.inl rfl, fun _ _ => Or.inl rfl⟩
  · rw [if_neg hrecheck]
    refine ⟨fun r hr => compressInserts_insertId info bound hr _ _, fun r hr => ?_⟩
    obtain ⟨halive, hkeep, hbelow⟩ := info.deletes.compressVersionIds_deletedId bound hr
    have hsettled : ∀ r < n, info.deleteId r ≠ notDeletedId → info.deleteId r < bound.value →
        Settled bound deleters (info.deleteId r) := fun r hr hne hlt =>
      ⟨hlt, hne, fun tid ht => hdeleters tid ht r hr hne hlt⟩
    by_cases hle : bound.value ≤ info.deleteId r
    · exact Or.inl (hkeep hle).symm
    by_cases hmarker : info.deleteId r = notDeletedId
    · exact Or.inl (hmarker.trans (halive hmarker).symm)
    have hthis := hsettled r hr hmarker (by omega)
    have hzero : Settled bound deleters 0 :=
      ⟨by omega, by decide, fun tid ht => lt_of_le_of_lt (Nat.zero_le _) (hthis.2.2 tid ht)⟩
    exact Or.inr ⟨hthis, hbelow (not_le.1 hle) hmarker _ hzero hsettled⟩

/-- The transactions that delete in `ops`. -/
def deletersOf (ops : List VersionOp) : List Nat :=
  ops.filterMap fun
    | .delete transactionId _ => some transactionId
    | _ => none

/-- The rows of an operation lie in the vector, and its transaction is a real one. -/
def WellFormedOp (n : Nat) : VersionOp → Prop
  | .delete transactionId rows => transactionId ≠ notDeletedId ∧ ∀ r ∈ rows, r < n
  | _ => True

variable {bound : VisibilityBound} {a b : VectorInfo}

theorem commitDelete_same (h : SameVersions n bound deleters a b) (commitId : Nat)
    (info : DeleteInfo) : SameVersions n bound deleters (a.commitDelete n commitId info)
      (b.commitDelete n commitId info) := by
  refine ⟨h.inserts, fun r hr => ?_⟩
  show Exchangeable _ ((a.deletes.commitDelete n commitId info).deletedId r)
    ((b.deletes.commitDelete n commitId info).deletedId r)
  rw [ChunkVectorInfo.commitDelete_deletedId hr, ChunkVectorInfo.commitDelete_deletedId hr]
  split_ifs
  · exact Or.inl rfl
  · exact h.deletes r hr

theorem delete_same (hn : 0 < n) (h : SameVersions n bound deleters a b) {tid : Nat}
    {rows : List Nat} (htid : tid ≠ notDeletedId) (hrows : ∀ r ∈ rows, r < n)
    (hmem : tid ∈ deleters) :
    SameVersions n bound deleters (a.delete n tid rows).1 (b.delete n tid rows).1 ∧
    (rows ≠ [] → (a.delete n tid rows).2 = (b.delete n tid rows).2) := by
  obtain ⟨hres, hids⟩ := ChunkVectorInfo.deleteLoop_exchangeable (S := Settled bound deleters) hn
    (fun hs => lt_irrefl _ (hs.2.2 tid hmem)) (fun hs => hs.2.1 rfl) rows.length 0 0 rows
    a.deletes.deletedId b.deletes.deletedId hrows h.deletes
  refine ⟨⟨h.inserts, fun r hr => ?_⟩, fun hne => ?_⟩
  · show Exchangeable _ ((a.deletes.delete n tid rows).1.deletedId r)
      ((b.deletes.delete n tid rows).1.deletedId r)
    rw [ChunkVectorInfo.delete_deletedId htid hr, ChunkVectorInfo.delete_deletedId htid hr]
    exact hids r hr
  · show (a.deletes.delete n tid rows).2 = (b.deletes.delete n tid rows).2
    rw [ChunkVectorInfo.delete_result htid hne, ChunkVectorInfo.delete_result htid hne, hres]

theorem applyOp_same (hn : 0 < n) (h : SameVersions n bound deleters a b) {op : VersionOp}
    (hop : WellFormedOp n op) (hdel : ∀ tid ∈ deletersOf [op], tid ∈ deleters) :
    SameVersions n bound deleters (a.applyOp n op) (b.applyOp n op) := by
  cases op with
  | delete transactionId rows =>
      exact (delete_same hn h hop.1 hop.2 (hdel _ (by simp [deletersOf]))).1
  | commitDelete commitId info => exact commitDelete_same h commitId info
  | rollback info => exact commitDelete_same h notDeletedId info

theorem applyOps_same (hn : 0 < n) :
    (ops : List VersionOp) → {a b : VectorInfo} → SameVersions n bound deleters a b →
    (∀ op ∈ ops, WellFormedOp n op) → (∀ tid ∈ deletersOf ops, tid ∈ deleters) →
    SameVersions n bound deleters (a.applyOps n ops) (b.applyOps n ops)
  | [], _, _, h, _, _ => h
  | op :: ops, a, b, h, hops, hdel => by
      have hsplit : deletersOf (op :: ops) = deletersOf [op] ++ deletersOf ops := by
        rw [deletersOf, deletersOf, deletersOf, ← List.filterMap_append, List.singleton_append]
      rw [hsplit] at hdel
      exact applyOps_same hn ops
        (applyOp_same hn h (hops op List.mem_cons_self)
          fun tid ht => hdel tid (List.mem_append_left _ ht))
        (fun o ho => hops o (List.mem_cons_of_mem _ ho))
        fun tid ht => hdel tid (List.mem_append_right _ ht)

/-! ## What readers see -/

variable {view : SnapshotView}

theorem sees_exchangeable {S : Nat → Prop} (hbound : bound.value ≤ view.visibilityBound.value)
    (hS : ∀ id, S id → id < bound.value) {x y : Nat} (h : Exchangeable S x y) :
    view.sees x = view.sees y := by
  rcases h with rfl | ⟨hx, hy⟩
  · rfl
  · have hx := (hS x hx).trans_le hbound
    have hy := (hS y hy).trans_le hbound
    rw [SnapshotView.sees_iff.2 (Or.inl hx), SnapshotView.sees_iff.2 (Or.inl hy)]

theorem isDeleted_exchangeable {S : Nat → Prop} (hbound : bound.value ≤ view.visibilityBound.value)
    (hS : ∀ id, S id → id < bound.value) (type : DeletedScanType) {x y : Nat}
    (h : Exchangeable S x y) : type.isDeleted view x = type.isDeleted view y := by
  cases type with
  | standard => exact sees_exchangeable hbound hS h
  | includeAllDeleted => rfl
  | omitCommittedDeletes =>
      rcases h with rfl | ⟨hx, hy⟩
      · rfl
      · have hx := (hS x hx).trans_le hbound
        have hy := (hS y hy).trans_le hbound
        simp [DeletedScanType.isDeleted, hx, hy]

theorem SameVersions.fetch_eq {r : Nat} (h : SameVersions n bound deleters a b)
    (hbound : bound.value ≤ view.visibilityBound.value) (hr : r < n) :
    a.fetch view r = b.fetch view r := by
  rw [VectorInfo.fetch_eq, VectorInfo.fetch_eq,
    sees_exchangeable hbound (fun _ h => h) (h.inserts r hr),
    sees_exchangeable hbound (fun _ h => h.1) (h.deletes r hr)]

theorem SameVersions.isVisible_eq {n r : Nat} {bound : VisibilityBound} {deleters : List Nat}
    {a b : VectorInfo} (h : SameVersions n bound deleters a b) {options : ScanOptions}
    (hbound : bound.value ≤ options.view.visibilityBound.value) (hr : r < n) :
    a.isVisible options r = b.isVisible options r := by
  have hins : options.insertType.useInsertedVersion options.view (a.insertId r) =
      options.insertType.useInsertedVersion options.view (b.insertId r) := by
    cases options.insertType with
    | standard => exact sees_exchangeable hbound (fun _ h => h) (h.inserts r hr)
    | allRows => rfl
  rw [isVisible, isVisible, accepts, accepts, hins,
    isDeleted_exchangeable hbound (fun _ h => h.1) _ (h.deletes r hr)]

/-- A version compression, whenever it runs, cannot be seen: after it, and
after the same further operations on both vectors, each row is fetched and
selected as without it. The readers' bounds are not below the one of the
compression, the later deleters' ids lie above the ids it may exchange, and a
masked vector is only scanned where the marker of undeleted rows is not
counted as a delete. -/
theorem compression_invisible (info : VectorInfo) (bound : VisibilityBound)
    (ops : List VersionOp) (options : ScanOptions) (selVector : Nat → Nat)
    (hbound : bound.value ≤ options.view.visibilityBound.value)
    (hops : ∀ op ∈ ops, WellFormedOp standardVectorSize op)
    (hdeleters : ∀ tid ∈ deletersOf ops, ∀ r < standardVectorSize,
      info.deleteId r ≠ notDeletedId → info.deleteId r < bound.value → info.deleteId r < tid) :
    let before := info.applyOps standardVectorSize ops
    let after := (info.compressVersionIds standardVectorSize bound).1.applyOps
      standardVectorSize ops
    (∀ r < standardVectorSize, before.fetch options.view r = after.fetch options.view r) ∧
    (before.MarkerUncounted options → after.MarkerUncounted options →
      ∀ maxCount ≤ standardVectorSize, ∀ r < maxCount,
        ((before.getSelVector options (some selVector) maxCount).IsSelected maxCount r ↔
          (after.getSelVector options (some selVector) maxCount).IsSelected maxCount r)) := by
  have hsame := applyOps_same (by decide) ops (compressVersionIds_same info bound hdeleters) hops
    fun _ ht => ht
  refine ⟨fun r hr => hsame.fetch_eq hbound hr, fun hbefore hafter maxCount hmax r hr => ?_⟩
  rw [(getSelVector_selects _ options (some selVector) maxCount hbefore).isSelected_iff
      (getSelVector_isSome _ options (some selVector) maxCount) hr,
    (getSelVector_selects _ options (some selVector) maxCount hafter).isSelected_iff
      (getSelVector_isSome _ options (some selVector) maxCount) hr,
    hsame.isVisible_eq hbound (hr.trans_le hmax)]

/-- A vector whose row 0 was deleted by the commit with id 5. -/
def arrayVector : VectorInfo :=
  ⟨.constant 1, ⟨.array fun r => if r = 0 then 5 else notDeletedId⟩, true⟩

theorem compression_invisible_array :
    (arrayVector.applyOps standardVectorSize [.delete transactionIdStart [1]]).fetch
        ⟨transactionIdStart, .before 10⟩ 1 =
      ((arrayVector.compressVersionIds standardVectorSize (.before 10)).1.applyOps
        standardVectorSize [.delete transactionIdStart [1]]).fetch
        ⟨transactionIdStart, .before 10⟩ 1 := by
  refine (compression_invisible arrayVector (.before 10) [.delete transactionIdStart [1]]
    ⟨⟨transactionIdStart, .before 10⟩, .standard, .standard⟩ id le_rfl ?_ ?_).1 1 (by decide)
  · intro op hop
    rw [List.mem_singleton.1 hop]
    exact ⟨by decide, by decide⟩
  · intro tid htid r _ _ hlt
    have htid : tid = transactionIdStart := by simpa [deletersOf] using htid
    exact hlt.trans (htid ▸ by decide)

/-- A reader whose transaction id is the marker takes the undeleted rows of an
array for deleted, and of the mask it is compressed to for alive. A deleter
whose id is below the bound finds its own mark gone: it skips row 0 before the
compression and meets a conflict there after it. -/
theorem compression_seen_through_marker :
    (arrayVector.getSelVector ⟨⟨notDeletedId, .before 10⟩, .standard, .standard⟩
      (some id) 2).count = 0 ∧
    ((arrayVector.compressVersionIds standardVectorSize (.before 10)).1.getSelVector
      ⟨⟨notDeletedId, .before 10⟩, .standard, .standard⟩ (some id) 2).count = 1 ∧
    (arrayVector.applyOps standardVectorSize [.delete 5 [0, 1]]).fetch ⟨0, .before 10⟩ 1 =
      false ∧
    ((arrayVector.compressVersionIds standardVectorSize (.before 10)).1.applyOps
      standardVectorSize [.delete 5 [0, 1]]).fetch ⟨0, .before 10⟩ 1 = true := by
  refine ⟨by decide, by decide +kernel, by decide, by decide +kernel⟩

end VectorInfo

end MiniDuck
