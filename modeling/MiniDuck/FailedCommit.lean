import MiniDuck.CatalogSet
import MiniDuck.ChunkInfo
import MiniDuck.UndoBuffer
import MiniDuck.UpdateRuns

/-!
# A commit that fails

A transaction deletes rows, updates rows and changes catalog entries.
Each change pushes undo entries to its buffer. `CommitEntry` may refuse
an entry, and the commit then stops there: what it has committed is
reverted, and the transaction is rolled back.

The three kinds of entries touch three separate parts of the database,
so each part is followed on its own: `foldl_vectors`, `foldl_segments`
and `foldl_catalog` say which entries of a log reach it. `ChangeInv`
connects each part to the log of the buffer.
`failed_commit_leaves_no_trace` puts the parts together, for every
sequence of changes and every entry the commit may stop at.
-/

namespace MiniDuck

variable {α N V : Type}

/-- The parts of the database that undo entries refer to: the delete side of vectors, update
segments, and catalog sets. -/
structure Database (α N V : Type) where
  vectors : Nat → ChunkVectorInfo
  segments : Nat → UpdateSegment α
  catalog : Nat → CatalogSet N V

inductive UndoData (N : Type)
  | catalogEntry (set : Nat) (entry : CatalogEntryRef N)
  | deleteTuple (vector : Nat) (info : DeleteInfo)
  | updateTuple (segment info : Nat)
  deriving Repr, DecidableEq

instance : Inhabited (UndoData N) := ⟨.updateTuple 0 0⟩

namespace UndoEntry

def deleteOf (vector : Nat) (entry : UndoEntry (UndoData N)) : Option DeleteInfo :=
  match entry.type, entry.payload with
  | .deleteTuple, .deleteTuple v info => if v = vector then some info else none
  | _, _ => none

def updateOf (segment : Nat) (entry : UndoEntry (UndoData N)) : Option Nat :=
  match entry.type, entry.payload with
  | .updateTuple, .updateTuple s info => if s = segment then some info else none
  | _, _ => none

def catalogOf (set : Nat) (entry : UndoEntry (UndoData N)) : Option (CatalogEntryRef N) :=
  match entry.type, entry.payload with
  | .catalogEntry, .catalogEntry s ref => if s = set then some ref else none
  | _, _ => none

end UndoEntry

namespace Database

/-- The switch on the type of an entry that commit, revert and rollback share. The other types
touch none of the three parts. -/
def onEntry (catalog : CatalogSet N V → CatalogEntryRef N → CatalogSet N V)
    (delete : ChunkVectorInfo → DeleteInfo → ChunkVectorInfo)
    (update : UpdateSegment α → Nat → UpdateSegment α) (db : Database α N V)
    (entry : UndoEntry (UndoData N)) : Database α N V :=
  match entry.type, entry.payload with
  | .catalogEntry, .catalogEntry s ref =>
      { db with catalog := Function.update db.catalog s (catalog (db.catalog s) ref) }
  | .deleteTuple, .deleteTuple v info =>
      { db with vectors := Function.update db.vectors v (delete (db.vectors v) info) }
  | .updateTuple, .updateTuple s info =>
      { db with segments := Function.update db.segments s (update (db.segments s) info) }
  | _, _ => db

/-- `CommitState::CommitEntry`. Its checks come first and may throw. -/
def commitEntry (n : Nat)
    (verify : Database α N V → UndoEntry (UndoData N) → Except String Unit) (commitId : Nat)
    (db : Database α N V) (entry : UndoEntry (UndoData N)) : Except String (Database α N V) :=
  match entry.type, verify db entry with
  | .emptyEntry, _ => .error "UndoBuffer - don't know how to commit this type!"
  | _, .error e => .error e
  | _, .ok _ =>
      .ok (db.onEntry (fun set ref => set.commitEntry commitId ref)
        (fun info d => info.commitDelete n commitId d) (fun seg a => seg.commitUpdate commitId a)
        entry)

variable [DecidableEq N]

/-- `CommitState::RevertCommit`. -/
def revertEntry (n transactionId : Nat) (db : Database α N V) (entry : UndoEntry (UndoData N)) :
    Database α N V :=
  db.onEntry (fun set ref => set.revertEntry transactionId ref)
    (fun info d => info.commitDelete n transactionId d)
    (fun seg a => seg.commitUpdate transactionId a) entry

def rollbackEntry (n : Nat) (db : Database α N V) (entry : UndoEntry (UndoData N)) :
    Database α N V :=
  db.onEntry CatalogSet.undo (fun info d => info.commitDelete n notDeletedId d)
    UpdateSegment.rollbackUpdate entry

end Database

namespace UndoBufferAllocator

variable [DecidableEq N]

def commit (buffer : UndoBufferAllocator (UndoData N)) (n : Nat)
    (verify : Database α N V → UndoEntry (UndoData N) → Except String Unit) (commitId : Nat)
    (db : Database α N V) : IteratorState × Database α N V × Option String :=
  buffer.iterateEntries (Database.commitEntry n verify commitId) db

def revertCommit (buffer : UndoBufferAllocator (UndoData N)) (n : Nat) (endState : IteratorState)
    (transactionId : Nat) (db : Database α N V) : Database α N V :=
  buffer.reverseIterateEntries endState (Database.revertEntry n transactionId) db

def rollback (buffer : UndoBufferAllocator (UndoData N)) (n : Nat) (db : Database α N V) :
    Database α N V :=
  buffer.reverseIterateEntries ⟨none, 0, true⟩ (Database.rollbackEntry n) db

end UndoBufferAllocator

/-! ## The parts of the database -/

namespace Database

variable {catalog : CatalogSet N V → CatalogEntryRef N → CatalogSet N V}
  {delete : ChunkVectorInfo → DeleteInfo → ChunkVectorInfo}
  {update : UpdateSegment α → Nat → UpdateSegment α}

theorem foldl_vectors (log : List (UndoEntry (UndoData N))) (db : Database α N V) (v : Nat) :
    (log.foldl (onEntry catalog delete update) db).vectors v =
      (log.filterMap (UndoEntry.deleteOf v)).foldl delete (db.vectors v) := by
  induction log generalizing db with
  | nil => rfl
  | cons entry log ih =>
      obtain ⟨type, block, offset, payload⟩ := entry
      rw [List.foldl_cons, ih, List.filterMap_cons]
      cases type <;> cases payload <;> try rfl
      next w info =>
        by_cases hw : w = v
        · subst hw
          simp [onEntry, UndoEntry.deleteOf]
        · simp [onEntry, UndoEntry.deleteOf, hw, Function.update_of_ne (Ne.symm hw)]

theorem foldl_segments (log : List (UndoEntry (UndoData N))) (db : Database α N V) (s : Nat) :
    (log.foldl (onEntry catalog delete update) db).segments s =
      (log.filterMap (UndoEntry.updateOf s)).foldl update (db.segments s) := by
  induction log generalizing db with
  | nil => rfl
  | cons entry log ih =>
      obtain ⟨type, block, offset, payload⟩ := entry
      rw [List.foldl_cons, ih, List.filterMap_cons]
      cases type <;> cases payload <;> try rfl
      next w info =>
        by_cases hw : w = s
        · subst hw
          simp [onEntry, UndoEntry.updateOf]
        · simp [onEntry, UndoEntry.updateOf, hw, Function.update_of_ne (Ne.symm hw)]

theorem foldl_catalog (log : List (UndoEntry (UndoData N))) (db : Database α N V) (s : Nat) :
    (log.foldl (onEntry catalog delete update) db).catalog s =
      (log.filterMap (UndoEntry.catalogOf s)).foldl catalog (db.catalog s) := by
  induction log generalizing db with
  | nil => rfl
  | cons entry log ih =>
      obtain ⟨type, block, offset, payload⟩ := entry
      rw [List.foldl_cons, ih, List.filterMap_cons]
      cases type <;> cases payload <;> try rfl
      next w ref =>
        by_cases hw : w = s
        · subst hw
          simp [onEntry, UndoEntry.catalogOf]
        · simp [onEntry, UndoEntry.catalogOf, hw, Function.update_of_ne (Ne.symm hw)]

/-- Entries that were committed without an exception are committed by the switch alone. -/
theorem foldlM_commitEntry {n commitId : Nat}
    {verify : Database α N V → UndoEntry (UndoData N) → Except String Unit} :
    {done : List (UndoEntry (UndoData N))} → {db db' : Database α N V} →
    done.foldlM (commitEntry n verify commitId) db = .ok db' →
    db' = done.foldl (onEntry (fun set ref => set.commitEntry commitId ref)
      (fun info d => info.commitDelete n commitId d)
      (fun seg a => seg.commitUpdate commitId a)) db
  | [], db, db', h => by
      cases h
      rfl
  | entry :: done, db, db', h => by
      rw [List.foldlM_cons] at h
      cases hentry : commitEntry n verify commitId db entry with
      | error e =>
          rw [hentry] at h
          cases h
      | ok next =>
          rw [hentry] at h
          have hnext : next = db.onEntry (fun set ref => set.commitEntry commitId ref)
              (fun info d => info.commitDelete n commitId d)
              (fun seg a => seg.commitUpdate commitId a) entry := by
            rw [commitEntry] at hentry
            split at hentry
            · cases hentry
            · cases hentry
            · cases hentry
              rfl
          rw [List.foldl_cons, ← hnext]
          exact foldlM_commitEntry h

end Database

/-! ## The changes of a transaction -/

inductive ChangeOp (α N V : Type)
  | delete (vector : Nat) (rows : List Nat)
  | update (segment : Nat) (rows : List (Nat × Option α))
  | catalog (set : Nat) (op : CatalogOp N V)

/-- The database with the undo buffer of the transaction, and the entries it created. -/
structure ChangeRun (α N V : Type) where
  db : Database α N V
  buffer : UndoBufferAllocator (UndoData N)
  log : List (UndoEntry (UndoData N))

namespace ChangeRun

def push (run : ChangeRun α N V) (blockSize : Nat) (type : UndoFlags) (len : Nat)
    (data : UndoData N) : ChangeRun α N V where
  db := run.db
  buffer := (run.buffer.createEntry blockSize type len data).1
  log := run.log ++ [(run.buffer.createEntry blockSize type len data).2]

/-- The `alloc_size` of `DuckTransaction::PushCatalogEntry`: a pointer, and the extra data behind
its size if there are any. -/
def catalogEntrySize (extraDataSize : Nat) : Nat :=
  if 0 < extraDataSize then 8 + (extraDataSize + 8) else 8

def pushCatalogEntry (blockSize set : Nat) (run : ChangeRun α N V)
    (pushed : CatalogEntryRef N × Nat) : ChangeRun α N V :=
  run.push blockSize .catalogEntry (catalogEntrySize pushed.2) (.catalogEntry set pushed.1)

def setVector (run : ChangeRun α N V) (v : Nat) (info : ChunkVectorInfo) : ChangeRun α N V :=
  { run with db := { run.db with vectors := Function.update run.db.vectors v info } }

def setSegment (run : ChangeRun α N V) (s : Nat) (segment : UpdateSegment α) :
    ChangeRun α N V :=
  { run with db := { run.db with segments := Function.update run.db.segments s segment } }

def setCatalog (run : ChangeRun α N V) (s : Nat) (set : CatalogSet N V) : ChangeRun α N V :=
  { run with db := { run.db with catalog := Function.update run.db.catalog s set } }

end ChangeRun

/-- The length of an entry fits the 32 bits it is stored in. -/
def LengthFits (len : Nat) : Prop :=
  UndoBufferAllocator.allocLen len - undoEntryHeaderSize < 2 ^ 32

instance (len : Nat) : Decidable (LengthFits len) := inferInstanceAs (Decidable (_ < _))

section

variable [BEq α] [DecidableEq N] [ToString N]

/-- The changes of one transaction. A delete pushes the rows it has marked, an update the info
it has created, a catalog change the entries it has covered. -/
inductive ChangeStep (n blockSize : Nat) (base : Nat → BaseVector α) (view : SnapshotView) :
    ChangeRun α N V → ChangeOp α N V → ChangeRun α N V → Prop
  | delete {run : ChangeRun α N V} {v : Nat} {rows : List Nat} {info : ChunkVectorInfo} :
      (run.db.vectors v).delete n view.transactionId rows = (info, .ok []) →
      ChangeStep n blockSize base view run (.delete v rows) (run.setVector v info)
  | deletePushes {run : ChangeRun α N V} {v len : Nat} {rows res : List Nat}
      {info : ChunkVectorInfo} :
      (run.db.vectors v).delete n view.transactionId rows = (info, .ok res) → res ≠ [] →
      LengthFits len →
      ChangeStep n blockSize base view run (.delete v rows)
        ((run.setVector v info).push blockSize .deleteTuple len (.deleteTuple v (pushDelete res)))
  | update {run : ChangeRun α N V} {s : Nat} {rows : List (Nat × Option α)}
      {sorted : List (Nat × α)} {segment : UpdateSegment α} :
      (∀ x ∈ rows, x.1 < n) → IsSortOf sorted (updateStatistics rows) →
      (run.db.segments s).update n (base s) view sorted rows = .ok (segment, none) →
      ChangeStep n blockSize base view run (.update s rows) (run.setSegment s segment)
  | updatePushes {run : ChangeRun α N V} {s len info : Nat} {rows : List (Nat × Option α)}
      {sorted : List (Nat × α)} {segment : UpdateSegment α} :
      (∀ x ∈ rows, x.1 < n) → IsSortOf sorted (updateStatistics rows) →
      (run.db.segments s).update n (base s) view sorted rows = .ok (segment, some info) →
      LengthFits len →
      ChangeStep n blockSize base view run (.update s rows)
        ((run.setSegment s segment).push blockSize .updateTuple len (.updateTuple s info))
  | catalog {run : ChangeRun α N V} {s : Nat} {op : CatalogOp N V} :
      (∀ x ∈ ((run.db.catalog s).run view op).pushed,
        LengthFits (ChangeRun.catalogEntrySize x.2)) →
      ChangeStep n blockSize base view run (.catalog s op)
        (((run.db.catalog s).run view op).pushed.foldl (ChangeRun.pushCatalogEntry blockSize s)
          (run.setCatalog s ((run.db.catalog s).run view op).set))

def changeLts (n blockSize : Nat) (base : Nat → BaseVector α) (view : SnapshotView)
    (start : Database α N V) : Lts (ChangeRun α N V) (ChangeOp α N V) where
  init run := run = ⟨start, .empty, []⟩
  step := ChangeStep n blockSize base view

end

/-! ## Each part against the log -/

/-- What deletes have made of a vector: their rows were not deleted before. -/
def DeleteLog (n tid : Nat) (start info : ChunkVectorInfo) (infos : List DeleteInfo) : Prop :=
  ∀ r < n, info.deletedId r =
      (if ∃ d ∈ infos, r ∈ d.getRows then tid else start.deletedId r) ∧
    ∀ d ∈ infos, r ∈ d.getRows → start.deletedId r = notDeletedId

/-- The stamps that a list of delete infos puts on a vector. -/
theorem foldl_commitDelete {n r : Nat} (hr : r < n) (id : Nat) (infos : List DeleteInfo)
    (info : ChunkVectorInfo) :
    (infos.foldl (fun info d => info.commitDelete n id d) info).deletedId r =
      if ∃ d ∈ infos, r ∈ d.getRows then id else info.deletedId r := by
  induction infos generalizing info with
  | nil => simp
  | cons d infos ih =>
      rw [List.foldl_cons, ih, ChunkVectorInfo.commitDelete_deletedId hr]
      simp only [List.exists_mem_cons_iff]
      by_cases hinfos : ∃ d ∈ infos, r ∈ d.getRows
      · rw [if_pos hinfos, if_pos (Or.inr hinfos)]
      · rw [if_neg hinfos]
        simp only [hinfos, or_false]

variable {start info : ChunkVectorInfo} {infos : List DeleteInfo}

theorem DeleteLog.delete {n tid : Nat} {info' : ChunkVectorInfo} {rows res : List Nat}
    (h : DeleteLog n tid start info infos) (htid : tid ≠ notDeletedId)
    (hdelete : info.delete n tid rows = (info', .ok res)) :
    DeleteLog n tid start info' (infos ++ [pushDelete res]) := by
  obtain ⟨hfresh, hids⟩ := ChunkVectorInfo.delete_ok htid hdelete
  intro r hr
  obtain ⟨hid, hold⟩ := h r hr
  have hunmarked : info.deletedId r = notDeletedId → ¬ ∃ d ∈ infos, r ∈ d.getRows := by
    intro hnot hmarked
    rw [hid, if_pos hmarked] at hnot
    exact htid hnot
  constructor
  · rw [hids r hr, hid]
    simp only [List.mem_append, List.mem_singleton, or_and_right, exists_or, exists_eq_left,
      pushDelete_getRows]
    by_cases hres : r ∈ res
    · rw [if_pos hres, if_pos (Or.inr hres)]
    · rw [if_neg hres]
      simp only [hres, or_false]
  · intro d hd hrow
    rcases List.mem_append.mp hd with hd | hd
    · exact hold d hd hrow
    · rw [List.mem_singleton.mp hd, pushDelete_getRows] at hrow
      have hnot := (hfresh r hrow).2
      rw [← hnot, hid, if_neg (hunmarked hnot)]

theorem DeleteLog.unmarked {n tid : Nat} {info' : ChunkVectorInfo} {rows : List Nat}
    (h : DeleteLog n tid start info infos) (htid : tid ≠ notDeletedId)
    (hdelete : info.delete n tid rows = (info', .ok [])) : DeleteLog n tid start info' infos := by
  intro r hr
  obtain ⟨-, hids⟩ := ChunkVectorInfo.delete_ok htid hdelete
  rw [hids r hr, if_neg (by simp)]
  exact h r hr

/-- Commit, revert and rollback of what was logged give every row its old id. -/
theorem DeleteLog.failed_commit {n tid : Nat} {done : List DeleteInfo}
    (h : DeleteLog n tid start info infos) (commitId : Nat) (hdone : ∀ d ∈ done, d ∈ infos)
    {r : Nat} (hr : r < n) : (infos.reverse.foldl (fun info d => info.commitDelete n notDeletedId d)
      (done.reverse.foldl (fun info d => info.commitDelete n tid d)
        (done.foldl (fun info d => info.commitDelete n commitId d) info))).deletedId r =
      start.deletedId r := by
  obtain ⟨hid, hold⟩ := h r hr
  rw [foldl_commitDelete hr, foldl_commitDelete hr, foldl_commitDelete hr, hid]
  simp only [List.mem_reverse]
  by_cases hmarked : ∃ d ∈ infos, r ∈ d.getRows
  · obtain ⟨d, hd, hrow⟩ := hmarked
    rw [if_pos ⟨d, hd, hrow⟩, hold d hd hrow]
  · have hundone : ¬ ∃ d ∈ done, r ∈ d.getRows := fun ⟨d, hd, hrow⟩ =>
      hmarked ⟨d, hdone d hd, hrow⟩
    rw [if_neg hmarked, if_neg hundone, if_neg hundone, if_neg hmarked]

section

variable [BEq α] {n : Nat} {base : BaseVector α}

/-- What updates have made of a segment: a run in which the transaction has these undo entries,
while the other transactions and the history are as they were. -/
def SegmentLog (n : Nat) (base : BaseVector α) (view : SnapshotView) (start : UpdateRun α)
    (segment : UpdateSegment α) (infos : List Nat) : Prop :=
  ∃ s t, (updateLts n base).Reachable s ∧ s.segment = segment ∧ s.history = start.history ∧
    s.active view.transactionId = some t ∧ t.view = view ∧ t.undo = infos ∧
    ∀ other, other ≠ view.transactionId → s.active other = start.active other

theorem SegmentLog.update {view : SnapshotView} {start : UpdateRun α}
    {segment segment' : UpdateSegment α} {infos : List Nat} {rows : List (Nat × Option α)}
    {sorted : List (Nat × α)} {created : Option Nat}
    (h : SegmentLog n base view start segment infos) (hrows : ∀ x ∈ rows, x.1 < n)
    (hsort : IsSortOf sorted (updateStatistics rows))
    (hupdate : segment.update n base view sorted rows = .ok (segment', created)) :
    SegmentLog n base view start segment' (infos ++ created.toList) := by
  obtain ⟨s, t, hreach, rfl, hhistory, ht, rfl, rfl, hothers⟩ := h
  refine ⟨_, _, hreach.step (UpdateStep.update ht hrows hsort hupdate), rfl, hhistory,
    Function.update_self _ _ _, rfl, rfl, fun other hne => ?_⟩
  rw [← hothers other hne]
  exact Function.update_of_ne hne _ _

variable {t : Updater α}

/-- The undo entries of an active transaction carry its id, so that a commit of them and its
revert change nothing. -/
theorem UpdateInv.recommit {s : UpdateRun α} (hinv : UpdateInv n base s) {tid a : Nat}
    (ht : s.active tid = some t) (ha : a ∈ t.undo) (commitId : Nat) :
    (s.segment.commitUpdate commitId a).commitUpdate tid a = s.segment := by
  obtain ⟨root, nodes, hshows, hchain⟩ := hinv.chain
  rcases hchain.activeUndo ht with ⟨hnil, -⟩ | ⟨x, hx, hversion, hundo, -⟩
  · rw [hnil] at ha
    cases ha
  · obtain rfl : a = x.1 := by simpa [hundo] using ha
    obtain ⟨r, hr⟩ := hshows.represents hx
    obtain ⟨c, hc, hval⟩ := hr.chain.cell (i := x.1) (v := x.2) (List.mem_cons_of_mem _ hx)
    have hcancel := Heap.modifyVal_cancel (h := s.segment.heap)
      (f := fun info => { info with versionNumber := commitId })
      (g := fun info => { info with versionNumber := tid }) hc (by rw [hval, ← hversion])
    exact congrArg (fun heap => { s.segment with heap := heap }) hcancel

theorem UpdateInv.undo_length {s : UpdateRun α} (hinv : UpdateInv n base s) {tid : Nat}
    (ht : s.active tid = some t) : t.undo.length ≤ 1 := by
  obtain ⟨root, nodes, -, hchain⟩ := hinv.chain
  rcases hchain.activeUndo ht with ⟨hnil, -⟩ | ⟨x, -, -, hundo, -⟩
  · simp [hnil]
  · simp [hundo]

/-- Two runs with one history read alike for a transaction that is active in both. -/
theorem UpdateInv.read_eq {s s' : UpdateRun α} (hinv : UpdateInv n base s)
    (hinv' : UpdateInv n base s') (hhistory : s'.history = s.history) {tid : Nat}
    (ht : s.active tid = some t) (ht' : s'.active tid = some t) {r : Nat}
    (hvalid : base.rowIsValid r = true) :
    s'.segment.fetchUpdates n base t.view r = s.segment.fetchUpdates n base t.view r := by
  cases hw : t.writes r with
  | some v => rw [hinv'.read_own ht' hw, hinv.read_own ht hw]
  | none =>
      have hold : base.oldValue r = base.data r := by rw [BaseVector.oldValue, if_pos hvalid]
      have hread := hinv.read_other ht hw rfl
      have hread' := hinv'.read_other ht' hw rfl
      rw [hold] at hread hread'
      rw [hhistory] at hread'
      have hvalue : ∀ {v}, v = (latestBelow s.history t.view.visibilityBound.value r).getD
          (base.data r) ∨ (latestBelow s.history t.view.visibilityBound.value r = none ∧
            v = base.data r) →
          v = (latestBelow s.history t.view.visibilityBound.value r).getD (base.data r) := by
        rintro v (hv | ⟨hnone, hv⟩)
        · exact hv
        · rw [hnone, hv, Option.getD_none]
      rw [hvalue hread, hvalue hread']

/-- Commit, revert and rollback of what was logged let the other transactions read what they
read before. -/
theorem SegmentLog.failed_commit {view : SnapshotView} {start : UpdateRun α}
    {segment : UpdateSegment α} {infos done rest : List Nat}
    (h : SegmentLog n base view start segment infos) (hstart : (updateLts n base).Reachable start)
    (commitId : Nat) (hdone : infos = done ++ rest) {other : Nat} (hne : other ≠ view.transactionId)
    (ht : start.active other = some t) {r : Nat} (hvalid : base.rowIsValid r = true) :
    (infos.reverse.foldl UpdateSegment.rollbackUpdate
      (done.reverse.foldl (fun seg a => seg.commitUpdate view.transactionId a)
        (done.foldl (fun seg a => seg.commitUpdate commitId a) segment))).fetchUpdates n base
          t.view r = start.segment.fetchUpdates n base t.view r := by
  obtain ⟨s, own, hreach, rfl, hhistory, hown, -, rfl, hothers⟩ := h
  have hinv := updateInv_reachable hreach
  have hback : done.reverse.foldl (fun seg a => seg.commitUpdate view.transactionId a)
      (done.foldl (fun seg a => seg.commitUpdate commitId a) s.segment) = s.segment := by
    have hlength := hinv.undo_length hown
    rw [hdone] at hlength
    match done with
    | [] => rfl
    | [a] => exact hinv.recommit hown (by simp [hdone]) commitId
    | a :: b :: done => simp at hlength
  have hrolled := hreach.step (UpdateStep.rollback hown)
  rw [hback]
  refine (updateInv_reachable hstart).read_eq (updateInv_reachable hrolled) hhistory ht ?_ hvalid
  rw [← ht, ← hothers other hne]
  exact Function.update_of_ne hne _ _

end

/-! ## The log of a run -/

namespace ChangeRun

theorem push_filterMap {β : Type} (run : ChangeRun α N V) (blockSize : Nat) (type : UndoFlags)
    (len : Nat) (data : UndoData N) (f : UndoEntry (UndoData N) → Option β) :
    (run.push blockSize type len data).log.filterMap f =
      run.log.filterMap f ++
        (f (run.buffer.createEntry blockSize type len data).2).toList := by
  rw [push, List.filterMap_append]
  cases hf : f (run.buffer.createEntry blockSize type len data).2 <;> simp [hf]

theorem push_logs {run : ChangeRun α N V} (h : run.buffer.Logs run.log) (blockSize : Nat)
    (type : UndoFlags) {len : Nat} (data : UndoData N) (hlen : LengthFits len) :
    (run.push blockSize type len data).buffer.Logs (run.push blockSize type len data).log :=
  h.createEntry blockSize type data hlen

/-- What the pushes of a catalog change add to the log. -/
structure PushedCatalog (run run' : ChangeRun α N V) (s : Nat) (refs : List (CatalogEntryRef N)) :
    Prop where
  db : run'.db = run.db
  logs : run'.buffer.Logs run'.log
  deletes : ∀ v, run'.log.filterMap (UndoEntry.deleteOf v) =
    run.log.filterMap (UndoEntry.deleteOf v)
  updates : ∀ v, run'.log.filterMap (UndoEntry.updateOf v) =
    run.log.filterMap (UndoEntry.updateOf v)
  catalog : run'.log.filterMap (UndoEntry.catalogOf s) =
    run.log.filterMap (UndoEntry.catalogOf s) ++ refs
  others : ∀ s', s' ≠ s → run'.log.filterMap (UndoEntry.catalogOf s') =
    run.log.filterMap (UndoEntry.catalogOf s')

theorem pushCatalogEntries (blockSize s : Nat) (pushed : List (CatalogEntryRef N × Nat))
    {run : ChangeRun α N V} (h : run.buffer.Logs run.log)
    (hlen : ∀ x ∈ pushed, LengthFits (catalogEntrySize x.2)) :
    PushedCatalog run (pushed.foldl (pushCatalogEntry blockSize s) run) s
      (pushed.map Prod.fst) := by
  induction pushed generalizing run with
  | nil => exact ⟨rfl, h, fun _ => rfl, fun _ => rfl, (List.append_nil _).symm, fun _ _ => rfl⟩
  | cons x pushed ih =>
      have hpush : ∀ {β : Type} (f : UndoEntry (UndoData N) → Option β),
          (run.pushCatalogEntry blockSize s x).log.filterMap f = run.log.filterMap f ++
            (f (run.buffer.createEntry blockSize .catalogEntry (catalogEntrySize x.2)
              (.catalogEntry s x.1)).2).toList := fun f => run.push_filterMap _ _ _ _ f
      have hlogs : (run.pushCatalogEntry blockSize s x).buffer.Logs
          (run.pushCatalogEntry blockSize s x).log :=
        push_logs h blockSize .catalogEntry _ (hlen x (by simp))
      have hrest := ih hlogs fun y hy => hlen y (List.mem_cons_of_mem _ hy)
      refine ⟨hrest.db, hrest.logs, fun v => ?_, fun v => ?_, ?_, fun s' hne => ?_⟩
      · rw [List.foldl_cons, hrest.deletes, hpush]
        exact List.append_nil _
      · rw [List.foldl_cons, hrest.updates, hpush]
        exact List.append_nil _
      · have hself : UndoEntry.catalogOf s (run.buffer.createEntry blockSize .catalogEntry
            (catalogEntrySize x.2) (.catalogEntry s x.1)).2 = some x.1 := if_pos rfl
        rw [List.foldl_cons, hrest.catalog, hpush, hself, List.append_assoc]
        rfl
      · have hother : UndoEntry.catalogOf s' (run.buffer.createEntry blockSize .catalogEntry
            (catalogEntrySize x.2) (.catalogEntry s x.1)).2 = none := if_neg (Ne.symm hne)
        rw [List.foldl_cons, hrest.others s' hne, hpush, hother]
        exact List.append_nil _

end ChangeRun

section

variable [BEq α] [DecidableEq N] [ToString N] {n blockSize : Nat} {base : Nat → BaseVector α}
  {view : SnapshotView} {runs : Nat → UpdateRun α} {start : Database α N V}

/-- The parts of the database against the log of the undo buffer. -/
structure ChangeInv (n : Nat) (base : Nat → BaseVector α) (view : SnapshotView)
    (runs : Nat → UpdateRun α) (start : Database α N V) (run : ChangeRun α N V) : Prop where
  logs : run.buffer.Logs run.log
  vectors : ∀ v, DeleteLog n view.transactionId (start.vectors v) (run.db.vectors v)
    (run.log.filterMap (UndoEntry.deleteOf v))
  segments : ∀ s, SegmentLog n (base s) view (runs s) (run.db.segments s)
    (run.log.filterMap (UndoEntry.updateOf s))
  catalog : ∀ s, CatalogSet.Pushes view.transactionId (start.catalog s)
    (run.log.filterMap (UndoEntry.catalogOf s)) (run.db.catalog s)

theorem ChangeInv.step (htid : view.transactionId ≠ notDeletedId) {run run' : ChangeRun α N V}
    {op : ChangeOp α N V} (h : ChangeInv n base view runs start run)
    (hstep : ChangeStep n blockSize base view run op run') :
    ChangeInv n base view runs start run' := by
  cases hstep with
  | @delete v rows info hdelete =>
      refine ⟨h.logs, fun w => ?_, h.segments, h.catalog⟩
      by_cases hw : w = v
      · subst hw
        simp only [ChangeRun.setVector, Function.update_self]
        exact (h.vectors w).unmarked htid hdelete
      · simp only [ChangeRun.setVector, Function.update_of_ne hw]
        exact h.vectors w
  | @deletePushes v len rows res info hdelete _ hlen =>
      have hlogs : (run.setVector v info).buffer.Logs (run.setVector v info).log := h.logs
      refine ⟨ChangeRun.push_logs hlogs _ _ _ hlen, fun w => ?_, fun s => ?_, fun s => ?_⟩
      · rw [ChangeRun.push_filterMap]
        by_cases hw : w = v
        · subst hw
          have hself : UndoEntry.deleteOf w ((run.setVector w info).buffer.createEntry blockSize
              .deleteTuple len (.deleteTuple w (pushDelete res))).2 = some (pushDelete res) :=
            if_pos rfl
          rw [hself]
          simp only [ChangeRun.push, ChangeRun.setVector, Function.update_self]
          exact (h.vectors w).delete htid hdelete
        · have hother : UndoEntry.deleteOf w ((run.setVector v info).buffer.createEntry blockSize
              .deleteTuple len (.deleteTuple v (pushDelete res))).2 = none :=
            if_neg (Ne.symm hw)
          rw [hother]
          simp only [ChangeRun.push, ChangeRun.setVector, Function.update_of_ne hw,
            Option.toList_none, List.append_nil]
          exact h.vectors w
      · rw [ChangeRun.push_filterMap]
        exact (List.append_nil (List.filterMap _ run.log)).symm ▸ h.segments s
      · rw [ChangeRun.push_filterMap]
        exact (List.append_nil (List.filterMap _ run.log)).symm ▸ h.catalog s
  | @update s rows sorted segment hrows hsort hupdate =>
      refine ⟨h.logs, h.vectors, fun w => ?_, h.catalog⟩
      by_cases hw : w = s
      · subst hw
        have hnext := (h.segments w).update hrows hsort hupdate
        simp only [ChangeRun.setSegment, Function.update_self]
        rwa [Option.toList_none, List.append_nil] at hnext
      · simp only [ChangeRun.setSegment, Function.update_of_ne hw]
        exact h.segments w
  | @updatePushes s len info rows sorted segment hrows hsort hupdate hlen =>
      have hlogs : (run.setSegment s segment).buffer.Logs (run.setSegment s segment).log := h.logs
      refine ⟨ChangeRun.push_logs hlogs _ _ _ hlen, fun v => ?_, fun w => ?_, fun w => ?_⟩
      · rw [ChangeRun.push_filterMap]
        exact (List.append_nil (List.filterMap _ run.log)).symm ▸ h.vectors v
      · rw [ChangeRun.push_filterMap]
        by_cases hw : w = s
        · subst hw
          have hself : UndoEntry.updateOf w ((run.setSegment w segment).buffer.createEntry
              blockSize .updateTuple len (.updateTuple w info)).2 = some info := if_pos rfl
          rw [hself]
          simp only [ChangeRun.push, ChangeRun.setSegment, Function.update_self]
          exact (h.segments w).update hrows hsort hupdate
        · have hother : UndoEntry.updateOf w ((run.setSegment s segment).buffer.createEntry
              blockSize .updateTuple len (.updateTuple s info)).2 = none := if_neg (Ne.symm hw)
          rw [hother]
          simp only [ChangeRun.push, ChangeRun.setSegment, Function.update_of_ne hw,
            Option.toList_none, List.append_nil]
          exact h.segments w
      · rw [ChangeRun.push_filterMap]
        exact (List.append_nil (List.filterMap _ run.log)).symm ▸ h.catalog w
  | @catalog s op hlen =>
      have hlogs : (run.setCatalog s ((run.db.catalog s).run view op).set).buffer.Logs
          (run.setCatalog s ((run.db.catalog s).run view op).set).log := h.logs
      have hpushed := ChangeRun.pushCatalogEntries blockSize s
        ((run.db.catalog s).run view op).pushed hlogs hlen
      refine ⟨hpushed.logs, fun v => ?_, fun w => ?_, fun w => ?_⟩
      · rw [hpushed.db, hpushed.deletes]
        exact h.vectors v
      · rw [hpushed.db, hpushed.updates]
        exact h.segments w
      · rw [hpushed.db]
        by_cases hw : w = s
        · subst hw
          rw [hpushed.catalog]
          simp only [ChangeRun.setCatalog, Function.update_self]
          exact (h.catalog w).trans (CatalogSet.run_links view _ op)
        · rw [hpushed.others w hw]
          simp only [ChangeRun.setCatalog, Function.update_of_ne hw]
          exact h.catalog w

theorem changeInv_reachable (htid : view.transactionId ≠ notDeletedId)
    (hruns : ∀ s, (updateLts n (base s)).Reachable (runs s) ∧
      (runs s).segment = start.segments s ∧
      (runs s).active view.transactionId = some ⟨view, [], fun _ => none, fun _ => none⟩)
    {run : ChangeRun α N V}
    (h : (changeLts n blockSize base view start).Reachable run) :
    ChangeInv n base view runs start run := by
  refine Lts.Reachable.invariant ?_ (fun _ _ _ _ hinv hs => hinv.step htid hs) h
  rintro _ rfl
  refine ⟨UndoBufferAllocator.empty_logs, fun v r hr => ⟨by simp, by simp⟩, fun s => ?_,
    fun s => .refl⟩
  obtain ⟨hreach, hsegment, hactive⟩ := hruns s
  exact ⟨runs s, _, hreach, hsegment, rfl, hactive, rfl, rfl, fun _ _ => rfl⟩

/-- What the other transactions find is what they found at the start: the delete ids, the rows
of the update segments that are not NULL in the base vector, and the catalog entries. -/
structure NoTrace (n : Nat) (base : Nat → BaseVector α) (runs : Nat → UpdateRun α)
    (transactionId : Nat) (start final : Database α N V) : Prop where
  deletes : ∀ v, ∀ r < n, (final.vectors v).deletedId r = (start.vectors v).deletedId r
  updates : ∀ s other t r, other ≠ transactionId → (runs s).active other = some t →
    (base s).rowIsValid r = true →
    (final.segments s).fetchUpdates n (base s) t.view r =
      (start.segments s).fetchUpdates n (base s) t.view r
  chains : ∀ s, (final.catalog s).map = (start.catalog s).map
  catalog : ∀ s view name, (final.catalog s).getEntry view name =
    (start.catalog s).getEntry view name

omit [ToString N] in
/-- Revert and rollback after a commit that got as far as `done`. -/
theorem ChangeInv.noTrace {run : ChangeRun α N V} (h : ChangeInv n base view runs start run)
    (hcatalog : ∀ s, (start.catalog s).Ok ∧ (start.catalog s).Rooted)
    (hruns : ∀ s, (updateLts n (base s)).Reachable (runs s) ∧
      (runs s).segment = start.segments s)
    (commitId : Nat) {done rest : List (UndoEntry (UndoData N))} (hlog : run.log = done ++ rest) :
    NoTrace n base runs view.transactionId start
      (run.log.reverse.foldl (Database.rollbackEntry n)
        (done.reverse.foldl (Database.revertEntry n view.transactionId)
          (done.foldl (Database.onEntry (fun set ref => set.commitEntry commitId ref)
            (fun info d => info.commitDelete n commitId d)
            (fun seg a => seg.commitUpdate commitId a)) run.db))) := by
  have hpart : ∀ {β : Type} (f : UndoEntry (UndoData N) → Option β),
      run.log.filterMap f = done.filterMap f ++ rest.filterMap f := fun f => by
    rw [hlog, List.filterMap_append]
  have hmem : ∀ {β : Type} (f : UndoEntry (UndoData N) → Option β),
      ∀ x ∈ done.filterMap f, x ∈ run.log.filterMap f := fun f x hx => by
    rw [hpart]
    exact List.mem_append_left _ hx
  have hrollback : @Database.rollbackEntry α N V _ n = Database.onEntry
      CatalogSet.undo (fun info d => info.commitDelete n notDeletedId d)
      UpdateSegment.rollbackUpdate := rfl
  have hrevert : @Database.revertEntry α N V _ n view.transactionId =
      Database.onEntry (fun set ref => set.revertEntry view.transactionId ref)
        (fun info d => info.commitDelete n view.transactionId d)
        (fun seg a => seg.commitUpdate view.transactionId a) := rfl
  have hentries := fun s => (h.catalog s).failed_commit (hcatalog s).1 (hcatalog s).2
    commitId (hmem (UndoEntry.catalogOf s)) rfl
  rw [hrollback, hrevert]
  refine ⟨fun v r hr => ?_, fun s other t r hne ht hvalid => ?_, fun s => ?_, fun s => ?_⟩
  · rw [Database.foldl_vectors, Database.foldl_vectors, Database.foldl_vectors,
      List.filterMap_reverse, List.filterMap_reverse]
    exact (h.vectors v).failed_commit commitId (hmem _) hr
  · rw [Database.foldl_segments, Database.foldl_segments, Database.foldl_segments,
      List.filterMap_reverse, List.filterMap_reverse, ← (hruns s).2]
    exact (h.segments s).failed_commit (hruns s).1 commitId (hpart _) hne ht hvalid
  · rw [Database.foldl_catalog, Database.foldl_catalog, Database.foldl_catalog,
      List.filterMap_reverse, List.filterMap_reverse]
    exact (hentries s).1
  · rw [Database.foldl_catalog, Database.foldl_catalog, Database.foldl_catalog,
      List.filterMap_reverse, List.filterMap_reverse]
    exact (hentries s).2

/-- For every sequence of changes, every entry at which `CommitEntry` may throw, and every block
size: the way back from where the commit stopped meets exactly the entries before that place, the
newest first, and revert and rollback leave no trace of the transaction. -/
theorem failed_commit_leaves_no_trace (htid : view.transactionId ≠ notDeletedId)
    (hcatalog : ∀ s, CatalogSet.catalogLts.Reachable (start.catalog s))
    (hruns : ∀ s, (updateLts n (base s)).Reachable (runs s) ∧
      (runs s).segment = start.segments s ∧
      (runs s).active view.transactionId = some ⟨view, [], fun _ => none, fun _ => none⟩)
    {run : ChangeRun α N V} (h : (changeLts n blockSize base view start).Reachable run)
    (verify : Database α N V → UndoEntry (UndoData N) → Except String Unit) (commitId : Nat)
    {state : IteratorState} {committed : Database α N V} {thrown : Option String}
    (hcommit : run.buffer.commit n verify commitId run.db = (state, committed, thrown)) :
    ∃ k ≤ run.log.length,
      (∀ e, thrown = some e → ∃ entry, run.log[k]? = some entry ∧
        Database.commitEntry n verify commitId committed entry = .error e) ∧
      (thrown = none → k = run.log.length) ∧
      (∀ {σ : Type} (callback : σ → UndoEntry (UndoData N) → σ) (s : σ),
        run.buffer.reverseIterateEntries state callback s =
          (run.log.take k).reverse.foldl callback s) ∧
      NoTrace n base runs view.transactionId start
        (run.buffer.rollback n (run.buffer.revertCommit n state view.transactionId committed)) := by
  have hinv := changeInv_reachable htid hruns h
  obtain ⟨blocks, hblocks, hrecords⟩ := hinv.logs
  have hspec := UndoBufferAllocator.iterateEntries_spec hblocks hrecords
    (Database.commitEntry n verify commitId) run.db
  rw [UndoBufferAllocator.commit] at hcommit
  rw [hcommit] at hspec
  obtain ⟨done, rest, hlog, hstands, hfold, hnone, hsome⟩ := hspec
  have hcommitted : committed = _ := Database.foldlM_commitEntry hfold
  have hall : UndoBufferAllocator.StandsAfter blocks ⟨none, 0, true⟩ run.log :=
    ⟨rfl, Or.inl ⟨rfl, hrecords⟩⟩
  refine ⟨done.length, by simp [hlog], fun e he => ?_, fun hdone => ?_, fun callback s => ?_, ?_⟩
  · obtain ⟨entry, rest', rfl, hthrow⟩ := hsome e he
    exact ⟨entry, by simp [hlog], hthrow⟩
  · rw [hlog, hnone hdone, List.append_nil]
  · have htake : run.log.take done.length = done := by rw [hlog, List.take_left]
    rw [htake]
    exact UndoBufferAllocator.reverseIterateEntries_spec hblocks hstands callback s
  · rw [UndoBufferAllocator.rollback, UndoBufferAllocator.revertCommit,
      UndoBufferAllocator.reverseIterateEntries_spec hblocks hstands,
      UndoBufferAllocator.reverseIterateEntries_spec hblocks hall,
      hcommitted]
    exact hinv.noTrace (fun s => CatalogSet.ok_reachable (hcatalog s))
      (fun s => ⟨(hruns s).1, (hruns s).2.1⟩) commitId hlog

end

/-! ## A run -/

def untouched : Database Nat String Nat :=
  ⟨fun _ => ⟨.constant notDeletedId⟩, fun _ => UpdateSegment.empty, fun _ =>
    ⟨fun _ => [], fun _ => 0, 0⟩⟩

def firstView : SnapshotView := ⟨transactionIdStart, .before 2⟩

def refuseCatalog (_ : Database Nat String Nat) (entry : UndoEntry (UndoData String)) :
    Except String Unit :=
  if entry.type = .catalogEntry then .error "refused" else .ok ()

theorem ChangeStep.reachable [BEq α] [DecidableEq N] [ToString N] {n blockSize : Nat}
    {base : Nat → BaseVector α} {view : SnapshotView} {start : Database α N V}
    {run run' : ChangeRun α N V} {op : ChangeOp α N V}
    (h : (changeLts n blockSize base view start).Reachable run)
    (hs : ChangeStep n blockSize base view run op run') :
    (changeLts n blockSize base view start).Reachable run' := h.step hs

/-- A delete, an update and a new table; the commit stops at the table. -/
theorem failed_commit_leaves_no_trace_three :
    ∃ (run : ChangeRun Nat String Nat) (state : IteratorState) (committed : Database Nat String Nat)
      (k : Nat), run.log.length = 3 ∧
      run.buffer.commit 4 refuseCatalog 5 run.db = (state, committed, some "refused") ∧
      (∃ entry, run.log[k]? = some entry ∧ entry.type = .catalogEntry) ∧
      ((run.buffer.rollback 4 (run.buffer.revertCommit 4 state transactionIdStart
        committed)).vectors 0).deletedId 1 = notDeletedId := by
  have hbegun := UpdateStep.reachable UpdateRun.fresh_reachable (.start (by decide))
  have h0 : (changeLts 4 262144 (fun _ => zeroVector) firstView untouched).Reachable
      ⟨untouched, .empty, []⟩ := .init rfl
  have h1 := ChangeStep.reachable h0 (@ChangeStep.deletePushes Nat String Nat _ _ _ _ _ _ _ _
    0 50 [1] [1] _ rfl (by simp) (by decide))
  have h2 := ChangeStep.reachable h1 (@ChangeStep.updatePushes Nat String Nat _ _ _ _ _ _ _ _
    0 100 _ [(0, some 7)] _ _ (by simp) (isSortOf_single (0, 7)) rfl (by decide))
  have h3 := ChangeStep.reachable h2 (@ChangeStep.catalog Nat String Nat _ _ _ _ _ _ _ _ 0
    (.createEntry "t" ⟨.tableEntry, by decide⟩ 1) (by decide))
  obtain ⟨k, -, hthrown, -, -, htrace⟩ := failed_commit_leaves_no_trace (by decide)
    (fun _ => .init fun _ => rfl) (fun _ => ⟨hbegun, rfl, rfl⟩) h3 refuseCatalog 5
    (show _ = (_, _, some "refused") from Prod.ext rfl (Prod.ext rfl rfl))
  obtain ⟨entry, hentry, hrefused⟩ := hthrown "refused" rfl
  refine ⟨_, _, _, k, rfl, rfl, ⟨entry, hentry, ?_⟩, htrace.deletes 0 1 (by decide)⟩
  by_contra htype
  rw [Database.commitEntry, refuseCatalog, if_neg htype] at hrefused
  cases hflags : entry.type <;> simp [hflags] at hrefused

end MiniDuck
