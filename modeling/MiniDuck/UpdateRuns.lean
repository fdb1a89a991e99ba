import MiniDuck.History
import MiniDuck.Lts
import MiniDuck.UpdateSegment

/-!
# Interleaved updates of one vector

Any number of transactions update, commit and roll back on the same
vector, and committed infos are cleaned up once no active transaction
may still need them. The run keeps a record beside the segment: what
each active transaction wrote, and the history of commits.

`ChainInv` relates the chain to that record. Each info of the chain
holds, for its rows, what the history has below its own version; infos
that share a row are ordered by version; and whatever an active
transaction must not see is still linked. `fetch_reads_snapshot` reads
the snapshot of any active transaction off these facts.

The record counts the rows an update stored. A write that repeats the
base value of a row, in a vector without a chain, stores nothing, and
such a write may be overtaken by an earlier commit
(`equivalent_write_overtaken`).
-/

namespace MiniDuck

variable {α : Type}

/-- An active transaction: its view, its undo entries for the vector (oldest first), the last
value it gave for each row, and the last value it stored for each row. -/
structure Updater (α : Type) where
  view : SnapshotView
  undo : List Nat
  submitted : Nat → Option α
  writes : Nat → Option α

/-- The segment and the transactions around it. `history` has what committed transactions
stored, `submittedHistory` all they wrote. -/
structure UpdateRun (α : Type) where
  segment : UpdateSegment α
  active : Nat → Option (Updater α)
  clock : Nat
  nextTransactionId : Nat
  committedUndo : Nat → List Nat
  history : List (Commit Nat α)
  submittedHistory : List (Commit Nat α)

inductive UpdateOp (α : Type)
  | start
  | update (transactionId : Nat) (rows : List (Nat × Option α))
  | commit (transactionId : Nat)
  | rollback (transactionId : Nat)
  | cleanup (commitId : Nat)

/-- The values of a row after some more rows were written. -/
def record (rows : List (Nat × α)) (writes : Nat → Option α) (r : Nat) : Option α :=
  (rows.lookup r).or (writes r)

/-- The steps of the transactions. A start takes its bound and a commit its id from one
counter, as the transaction manager does. A conflict leaves the segment alone. -/
inductive UpdateStep [BEq α] (n : Nat) (base : BaseVector α) :
    UpdateRun α → UpdateOp α → UpdateRun α → Prop
  | start {s : UpdateRun α} :
      s.clock < transactionIdStart →
      UpdateStep n base s .start
        { s with
          active := Function.update s.active s.nextTransactionId (some
            ⟨⟨s.nextTransactionId, .before s.clock⟩, [], fun _ => none, fun _ => none⟩)
          clock := s.clock + 1
          nextTransactionId := s.nextTransactionId + 1 }
  | update {s : UpdateRun α} {tid : Nat} {t : Updater α} {sorted : List (Nat × α)}
      {rows : List (Nat × Option α)} {segment : UpdateSegment α} {created : Option Nat} :
      s.active tid = some t → (∀ x ∈ rows, x.1 < n) → IsSortOf sorted (updateStatistics rows) →
      s.segment.update n base t.view sorted rows = .ok (segment, created) →
      UpdateStep n base s (.update tid rows)
        { s with
          segment := segment
          active := Function.update s.active tid (some
            { t with
              undo := t.undo ++ created.toList
              submitted := record (sortSelectionVector sorted (updateStatistics rows)) t.submitted
              writes := record (s.segment.effectiveUpdate base sorted rows) t.writes }) }
  | updateThrows {s : UpdateRun α} {tid : Nat} {t : Updater α} {sorted : List (Nat × α)}
      {rows : List (Nat × Option α)} {e : String} :
      s.active tid = some t → (∀ x ∈ rows, x.1 < n) → IsSortOf sorted (updateStatistics rows) →
      s.segment.update n base t.view sorted rows = .error e →
      UpdateStep n base s (.update tid rows) s
  | commit {s : UpdateRun α} {tid : Nat} {t : Updater α} :
      s.active tid = some t → s.clock < maxCommitId →
      UpdateStep n base s (.commit tid)
        { s with
          segment := t.undo.foldl (fun seg a => seg.commitUpdate s.clock a) s.segment
          active := Function.update s.active tid none
          clock := s.clock + 1
          committedUndo := Function.update s.committedUndo s.clock t.undo
          history := ⟨s.clock, t.writes⟩ :: s.history
          submittedHistory := ⟨s.clock, t.submitted⟩ :: s.submittedHistory }
  | rollback {s : UpdateRun α} {tid : Nat} {t : Updater α} :
      s.active tid = some t →
      UpdateStep n base s (.rollback tid)
        { s with
          segment := t.undo.reverse.foldl UpdateSegment.rollbackUpdate s.segment
          active := Function.update s.active tid none }
  | cleanup {s : UpdateRun α} {commitId : Nat} :
      (∀ tid t, s.active tid = some t → commitId < t.view.visibilityBound.value) →
      UpdateStep n base s (.cleanup commitId)
        { s with
          segment := (s.committedUndo commitId).foldl UpdateSegment.cleanupUpdate s.segment
          committedUndo := Function.update s.committedUndo commitId [] }

/-- Runs begin with a vector that was never updated. -/
structure UpdateRun.Initial (s : UpdateRun α) : Prop where
  segment : s.segment = UpdateSegment.empty
  active : ∀ tid, s.active tid = none
  committedUndo : ∀ c, s.committedUndo c = []
  history : s.history = []
  submittedHistory : s.submittedHistory = []
  ids : transactionIdStart ≤ s.nextTransactionId

def updateLts [BEq α] (n : Nat) (base : BaseVector α) : Lts (UpdateRun α) (UpdateOp α) where
  init := UpdateRun.Initial
  step := UpdateStep n base

/-! ## The invariants -/

structure UpdateRun.Ok (s : UpdateRun α) : Prop where
  committed : ∀ c ∈ s.history, c.commitId < s.clock ∧ c.commitId < maxCommitId
  newest : NewestFirst s.history
  nextId : transactionIdStart ≤ s.nextTransactionId
  ids : ∀ {tid t}, s.active tid = some t → t.view.transactionId = tid ∧
    transactionIdStart ≤ tid ∧ tid < s.nextTransactionId ∧
    t.view.visibilityBound.value ≤ s.clock ∧ t.view.visibilityBound.value ≤ maxCommitId

/-- What a writer that sees all commits finds in a row. -/
def UpdateRun.newestValue (base : BaseVector α) (s : UpdateRun α) (r : Nat) : α :=
  (latestBelow s.history maxCommitId r).getD (base.oldValue r)

/-- The chain against the record of the run. -/
structure ChainInv (n : Nat) (base : BaseVector α) (s : UpdateRun α) (root : UpdateInfo α)
    (nodes : List (Nat × UpdateInfo α)) : Prop where
  rootVersion : root.versionNumber = maxCommitId
  rootOk : root.Ok n
  nodeOk : ∀ x ∈ nodes, x.2.Ok n
  nodeMax : ∀ x ∈ nodes, x.2.max = n
  versions : nodes.Pairwise fun x y => x.2.versionNumber ≠ y.2.versionNumber
  /-- Every info belongs to a committed or an active transaction. -/
  owner : ∀ x ∈ nodes,
    (x.2.versionNumber < s.clock ∧ x.2.versionNumber < maxCommitId) ∨
      ∃ t, s.active x.2.versionNumber = some t ∧ t.undo = [x.1]
  /-- Infos that share a row stand in the order of their versions. -/
  order : nodes.Pairwise fun x y =>
    ∀ r, x.2.Has r → y.2.Has r → y.2.versionNumber < x.2.versionNumber
  /-- An info has what the history has below its version. -/
  saved : ∀ x ∈ nodes, ∀ r v, x.2.tuples.lookup r = some v →
    v = (latestBelow s.history x.2.versionNumber r).getD (base.oldValue r)
  rootCovers : ∀ x ∈ nodes, ∀ r, x.2.Has r → root.Has r
  rootHistory : ∀ c ∈ s.history, ∀ r, c.writes r ≠ none → root.Has r
  rootOwn : ∀ {tid t}, s.active tid = some t → ∀ r v, t.writes r = some v →
    root.tuples.lookup r = some v
  rootValue : ∀ r v, root.tuples.lookup r = some v →
    (∀ tid t, s.active tid = some t → t.writes r = none) → v = s.newestValue base r
  /-- A commit that an active transaction must not see is still linked. -/
  linked : ∀ c ∈ s.history, ∀ r, c.writes r ≠ none → ∀ {tid t}, s.active tid = some t →
    t.view.visibilityBound.value ≤ c.commitId →
    ∃ x ∈ nodes, x.2.versionNumber = c.commitId ∧ x.2.Has r
  /-- Rows of an active transaction are in no other info that it does not see. -/
  conflictFree : ∀ x ∈ nodes, ∀ t, s.active x.2.versionNumber = some t → ∀ y ∈ nodes,
    y.2.versionNumber ≠ x.2.versionNumber → ∀ r, x.2.Has r → y.2.Has r →
    y.2.versionNumber < t.view.visibilityBound.value
  /-- Infos in front of an active transaction's were linked after it began. -/
  ahead : nodes.Pairwise fun x y => ∀ t, s.active y.2.versionNumber = some t →
    t.view.visibilityBound.value ≤ x.2.versionNumber
  activeUndo : ∀ {tid t}, s.active tid = some t →
    (t.undo = [] ∧ ∀ r, t.writes r = none) ∨
      ∃ x ∈ nodes, x.2.versionNumber = tid ∧ t.undo = [x.1] ∧
        ∀ r, t.writes r ≠ none ↔ x.2.Has r
  committedLinked : ∀ c, s.committedUndo c = [] ∨
    ∃ x ∈ nodes, x.2.versionNumber = c ∧ s.committedUndo c = [x.1] ∧ c < maxCommitId ∧
      c < s.clock

/-- The segment stands for the chain; before the first update there is none. -/
def UpdateSegment.Shows (seg : UpdateSegment α) (root : UpdateInfo α)
    (nodes : List (Nat × UpdateInfo α)) : Prop :=
  (∃ r, seg.Represents ((r, root) :: nodes)) ∨
    (seg.Represents [] ∧ root.tuples = [] ∧ nodes = [])

/-- What became of the last value a transaction gave for a row: it was stored, or it was
skipped as equivalent to the base value in a vector that no commit the transaction sees has
written to. -/
def Updater.Submitted [BEq α] (base : BaseVector α) (history : List (Commit Nat α))
    (t : Updater α) : Prop :=
  ∀ r, (t.submitted r = none → t.writes r = none) ∧
    ∀ v, t.submitted r = some v → t.writes r = some v ∨
      (t.writes r = none ∧ base.isEquivalent r v = true ∧
        ∀ c ∈ history, c.writes r ≠ none → t.view.visibilityBound.value ≤ c.commitId)

structure UpdateInv [BEq α] (n : Nat) (base : BaseVector α) (s : UpdateRun α) : Prop where
  run : s.Ok
  chain : ∃ root nodes, s.segment.Shows root nodes ∧ ChainInv n base s root nodes
  submitted : ∀ tid t, s.active tid = some t → t.Submitted base s.history

/-! ## Reading -/

theorem exists_last {β : Type} (p : β → Prop) [DecidablePred p] : (l : List β) →
    (∀ y ∈ l, ¬ p y) ∨ ∃ l₁ x l₂, l = l₁ ++ x :: l₂ ∧ p x ∧ ∀ y ∈ l₂, ¬ p y
  | [] => Or.inl (by simp)
  | x :: l => by
      rcases exists_last p l with hn | ⟨l₁, y, l₂, rfl, hy, hl₂⟩
      · by_cases hx : p x
        · exact Or.inr ⟨[], x, l, rfl, hx, hn⟩
        · refine Or.inl fun y hy => ?_
          rcases List.mem_cons.mp hy with rfl | hy'
          · exact hx
          · exact hn y hy'
      · exact Or.inr ⟨x :: l₁, y, l₂, rfl, hy, hl₂⟩

/-- The info takes part in what the view reads from the row. -/
def UpdateInfo.Restores (view : SnapshotView) (r : Nat) (info : UpdateInfo α) : Prop :=
  info.appliesToTransaction view = true ∧ info.Has r

instance (view : SnapshotView) (r : Nat) (info : UpdateInfo α) :
    Decidable (info.Restores view r) :=
  inferInstanceAs (Decidable (_ ∧ _))

namespace UpdateSegment

theorem updatesForTransaction_cons (n : Nat) (bit : Bool) (view : SnapshotView)
    (x : Nat × UpdateInfo α) (infos : List (Nat × UpdateInfo α)) (result : Nat → α) :
    updatesForTransaction n bit view (x :: infos) result =
      updatesForTransaction n bit view infos
        (if x.2.appliesToTransaction view then mergeUpdateInfo n bit x.2.tuples result
          else result) := rfl

theorem updatesForTransaction_append (n : Nat) (bit : Bool) (view : SnapshotView)
    (l₁ l₂ : List (Nat × UpdateInfo α)) (result : Nat → α) :
    updatesForTransaction n bit view (l₁ ++ l₂) result =
      updatesForTransaction n bit view l₂ (updatesForTransaction n bit view l₁ result) :=
  List.foldl_append

theorem updatesForTransaction_skip {n r : Nat} (bit : Bool) {view : SnapshotView} :
    {infos : List (Nat × UpdateInfo α)} → (∀ x ∈ infos, x.2.Ok n) →
    (∀ x ∈ infos, ¬ x.2.Restores view r) → (result : Nat → α) →
    updatesForTransaction n bit view infos result r = result r
  | [], _, _, result => rfl
  | x :: infos, hok, hno, result => by
      rw [updatesForTransaction_cons, updatesForTransaction_skip bit
        (fun y hy => hok y (by simp [hy])) fun y hy => hno y (by simp [hy])]
      split
      · next happ =>
          have hnone : x.2.tuples.lookup r = none := by
            by_contra hne
            exact hno x (by simp) ⟨happ, hne⟩
          rw [mergeUpdateInfo_apply (hok x (by simp)), hnone]
          rfl
      · rfl

/-- The last info down the chain that restores the row decides what is read. -/
theorem updatesForTransaction_last {n r : Nat} (bit : Bool) {view : SnapshotView}
    (l₁ : List (Nat × UpdateInfo α)) {l₂ : List (Nat × UpdateInfo α)} {x : Nat × UpdateInfo α}
    {v : α}
    (hok : ∀ y ∈ l₁ ++ x :: l₂, y.2.Ok n) (happ : x.2.appliesToTransaction view = true)
    (hv : x.2.tuples.lookup r = some v) (hl₂ : ∀ y ∈ l₂, ¬ y.2.Restores view r)
    (result : Nat → α) :
    updatesForTransaction n bit view (l₁ ++ x :: l₂) result r = v := by
  rw [updatesForTransaction_append, updatesForTransaction_cons,
    updatesForTransaction_skip bit (fun y hy => hok y (by simp [hy])) hl₂, if_pos happ,
    mergeUpdateInfo_apply (hok x (by simp)), hv]
  rfl

end UpdateSegment

section

variable {n : Nat} {base : BaseVector α} {s : UpdateRun α} {root : UpdateInfo α}
  {nodes : List (Nat × UpdateInfo α)}

/-- Every bound above the commit ids reads the newest value. -/
theorem UpdateRun.Ok.latestBelow_newest (hrun : s.Ok) {bound : Nat} (r : Nat)
    (hb : maxCommitId ≤ bound) :
    latestBelow s.history bound r = latestBelow s.history maxCommitId r :=
  latestBelow_eq_of_gap hb fun c hc hle =>
    absurd (hrun.committed c hc).2 (Nat.not_lt.mpr hle)

theorem maxCommitId_lt : maxCommitId < transactionIdStart := by decide

variable {x : Nat × UpdateInfo α}

theorem ChainInv.version_ne (hc : ChainInv n base s root nodes) (hrun : s.Ok) (hx : x ∈ nodes) :
    x.2.versionNumber ≠ maxCommitId := by
  rcases hc.owner x hx with ⟨-, hlt⟩ | ⟨t, ht, -⟩
  · exact hlt.ne
  · exact (maxCommitId_lt.trans_le (hrun.ids ht).2.1).ne'

/-- An info restores its rows for a view exactly if the view does not see it. -/
theorem ChainInv.restores_iff (hc : ChainInv n base s root nodes) (hrun : s.Ok) (hx : x ∈ nodes)
    (view : SnapshotView) (r : Nat) :
    x.2.Restores view r ↔ view.visibilityBound.value ≤ x.2.versionNumber ∧
      x.2.versionNumber ≠ view.transactionId ∧ x.2.Has r := by
  rw [UpdateInfo.Restores, UpdateInfo.appliesToTransaction, if_neg (hc.version_ne hrun hx),
    Bool.not_eq_true', ← Bool.not_eq_true, SnapshotView.sees_iff, not_or, Nat.not_lt, and_assoc]

variable {tid r : Nat} {t : Updater α}

/-- An active writer of a row has an info with that row. -/
theorem ChainInv.writer_node (hc : ChainInv n base s root nodes) (ht : s.active tid = some t)
    (hw : t.writes r ≠ none) :
    ∃ x ∈ nodes, x.2.versionNumber = tid ∧ t.undo = [x.1] ∧ x.2.Has r := by
  rcases hc.activeUndo ht with ⟨-, hnone⟩ | ⟨x, hx, hv, hu, hiff⟩
  · exact absurd (hnone r) hw
  · exact ⟨x, hx, hv, hu, (hiff r).mp hw⟩

theorem ChainInv.active_disjoint (hc : ChainInv n base s root nodes) (hrun : s.Ok)
    {y : Nat × UpdateInfo α} {u : Updater α} (hx : x ∈ nodes) (hy : y ∈ nodes)
    (ht : s.active x.2.versionNumber = some t) (hu : s.active y.2.versionNumber = some u)
    (hne : y.2.versionNumber ≠ x.2.versionNumber) (hxr : x.2.Has r) : ¬ y.2.Has r := by
  intro hyr
  have hlt := hc.conflictFree x hx t ht y hy hne r hxr hyr
  have hb := (hrun.ids ht).2.2.2.2
  have hid := (hrun.ids hu).2.1
  have hmax := maxCommitId_lt
  omega

theorem ChainInv.allOk (hc : ChainInv n base s root nodes) (a : Nat) :
    ∀ x ∈ (a, root) :: nodes, x.2.Ok n := by
  intro x hx
  rcases List.mem_cons.mp hx with rfl | hx'
  · exact hc.rootOk
  · exact hc.nodeOk x hx'

theorem ChainInv.root_applies (hc : ChainInv n base s root nodes) {view : SnapshotView} :
    root.appliesToTransaction view = true := by
  simp [UpdateInfo.appliesToTransaction, hc.rootVersion]

theorem ChainInv.read_own (hc : ChainInv n base s root nodes) (hrun : s.Ok)
    (ht : s.active tid = some t) {a : Nat} {v : α} (hw : t.writes r = some v) :
    UpdateSegment.updatesForTransaction n base.bit t.view ((a, root) :: nodes) base.data r =
      v := by
  obtain ⟨x, hx, rfl, -, hxr⟩ := hc.writer_node ht (r := r) (by simp [hw])
  rw [← List.nil_append ((a, root) :: nodes)]
  refine UpdateSegment.updatesForTransaction_last base.bit [] (hc.allOk a) hc.root_applies
    (hc.rootOwn ht r v hw) ?_ base.data
  · intro y hy hres
    obtain ⟨hle, hne, hyr⟩ := (hc.restores_iff hrun hy t.view r).mp hres
    rw [(hrun.ids ht).1] at hne
    have hlt := hc.conflictFree x hx t ht y hy hne r hxr hyr
    omega

/-- Commits in front of a bound that restores nothing below `upper` did not write the row. -/
theorem ChainInv.no_commit_between (hc : ChainInv n base s root nodes) (hrun : s.Ok)
    (ht : s.active tid = some t) (r upper : Nat)
    (hno : ∀ y ∈ nodes, y.2.Restores t.view r → upper ≤ y.2.versionNumber) :
    ∀ c ∈ s.history, t.view.visibilityBound.value ≤ c.commitId → c.commitId < upper →
      c.writes r = none := by
  intro c hcm hle hlt
  by_contra hw
  obtain ⟨x, hx, hv, hxr⟩ := hc.linked c hcm r hw ht hle
  have hne : c.commitId ≠ t.view.transactionId := by
    have h1 := (hrun.committed c hcm).2
    have h2 := (hrun.ids ht).1
    have h3 := (hrun.ids ht).2.1
    have h4 := maxCommitId_lt
    omega
  have hres := (hc.restores_iff hrun hx t.view r).mpr
    ⟨hv ▸ hle, hv ▸ hne, hxr⟩
  have := hno x hx hres
  omega

/-- What a transaction reads from a row it did not store: the last commit below its bound, or
the base value. A NULL base row reads as stored or as the padding. -/
theorem ChainInv.read_other (hc : ChainInv n base s root nodes) (hrun : s.Ok) {tid : Nat}
    {t : Updater α} (ht : s.active tid = some t) {r a : Nat} (hw : t.writes r = none) {v : α}
    (hv : UpdateSegment.updatesForTransaction n base.bit t.view ((a, root) :: nodes) base.data r =
      v) :
    v = (latestBelow s.history t.view.visibilityBound.value r).getD (base.oldValue r) ∨
      (latestBelow s.history t.view.visibilityBound.value r = none ∧ v = base.data r) := by
  obtain ⟨hid, -, -, -, hbmax⟩ := hrun.ids ht
  rcases exists_last (fun y : Nat × UpdateInfo α => y.2.Restores t.view r) nodes with
    hno | ⟨l₁, x, l₂, rfl, hx, hl₂⟩
  · -- nothing is put back: the row reads as the root, or the base vector, has it
    have hgap := hc.no_commit_between hrun ht r maxCommitId fun y hy hres =>
      absurd hres (hno y hy)
    have heq := latestBelow_eq_of_gap hbmax hgap
    cases hroot : root.tuples.lookup r with
    | some w =>
        have hread := UpdateSegment.updatesForTransaction_last base.bit []
          (hc.allOk a) hc.root_applies hroot hno base.data
        rw [List.nil_append, hv] at hread
        have hnone : ∀ tid' t', s.active tid' = some t' → t'.writes r = none := by
          intro tid' t' ht'
          by_contra hw'
          obtain ⟨y, hy, hyv, -, hyr⟩ := hc.writer_node ht' hw'
          have hne : tid' ≠ tid := by
            rintro rfl
            rw [ht'] at ht
            cases ht
            exact hw' hw
          refine hno y hy ((hc.restores_iff hrun hy t.view r).mpr ⟨?_, ?_, hyr⟩)
          · have h1 := (hrun.ids ht').2.1
            have h2 := maxCommitId_lt
            omega
          · rw [hyv, hid]
            exact hne
        left
        rw [hread, hc.rootValue r w hroot hnone, UpdateRun.newestValue, heq]
    | none =>
        right
        have hskip : ∀ y ∈ (a, root) :: nodes, ¬ y.2.Restores t.view r := by
          intro y hy
          rcases List.mem_cons.mp hy with rfl | hy'
          · exact fun hres => hres.2 hroot
          · exact hno y hy'
        rw [UpdateSegment.updatesForTransaction_skip base.bit (hc.allOk a) hskip] at hv
        refine ⟨latestBelow_eq_none fun c hcm _ => ?_, hv.symm⟩
        by_contra hcw
        exact hc.rootHistory c hcm r hcw hroot
  · -- `x` is the oldest info that is put back; no commit lies between the bound and `x`
    have hxm : x ∈ l₁ ++ x :: l₂ := by simp
    obtain ⟨hle, hne, hxr⟩ := (hc.restores_iff hrun hxm t.view r).mp hx
    obtain ⟨w, hxw⟩ := Option.ne_none_iff_exists'.mp hxr
    have hread := UpdateSegment.updatesForTransaction_last base.bit ((a, root) :: l₁)
      (hc.allOk a) hx.1 hxw hl₂ base.data
    rw [List.cons_append, hv] at hread
    have hgap := hc.no_commit_between hrun ht r x.2.versionNumber fun y hy hres => by
      rcases List.mem_append.mp hy with hy₁ | hy₂
      · obtain ⟨-, -, hyr⟩ := (hc.restores_iff hrun hy t.view r).mp hres
        exact ((List.pairwise_append.mp hc.order).2.2 y hy₁ x (by simp) r hyr hxr).le
      · rcases List.mem_cons.mp hy₂ with rfl | hy₂'
        · exact le_rfl
        · exact absurd hres (hl₂ y hy₂')
    left
    rw [hread, hc.saved x hxm r w hxw, latestBelow_eq_of_gap hle hgap]

/-! ## Steps -/

theorem ChainInv.eq_of_version (hc : ChainInv n base s root nodes) {y : Nat × UpdateInfo α}
    (hx : x ∈ nodes) (hy : y ∈ nodes) (h : x.2.versionNumber = y.2.versionNumber) : x = y := by
  have hnd : (nodes.map fun x => x.2.versionNumber).Nodup := List.pairwise_map.mpr hc.versions
  exact List.inj_on_of_nodup_map hnd hx hy h

theorem active_update_iff {f : Nat → Option (Updater α)} {tid' : Nat} {o : Option (Updater α)} :
    Function.update f tid o tid' = some t ↔
      (tid' = tid ∧ o = some t) ∨ (tid' ≠ tid ∧ f tid' = some t) := by
  by_cases h : tid' = tid
  · subst h
    simp
  · simp [h]

theorem ChainInv.start (hc : ChainInv n base s root nodes) (hrun : s.Ok) :
    ChainInv n base
      { s with
        active := Function.update s.active s.nextTransactionId (some
          ⟨⟨s.nextTransactionId, .before s.clock⟩, [], fun _ => none, fun _ => none⟩)
        clock := s.clock + 1
        nextTransactionId := s.nextTransactionId + 1 } root nodes := by
  have hcommit : ∀ v, v < maxCommitId → v ≠ s.nextTransactionId := by
    intro v hv
    have h1 := hrun.nextId
    have h2 := maxCommitId_lt
    omega
  have hold : ∀ tid t, s.active tid = some t → tid ≠ s.nextTransactionId :=
    fun tid t ht => (hrun.ids ht).2.2.1.ne
  have hver : ∀ x ∈ nodes, x.2.versionNumber ≠ s.nextTransactionId := by
    intro x hx
    rcases hc.owner x hx with ⟨-, h⟩ | ⟨t, ht, -⟩
    · exact hcommit _ h
    · exact hold _ t ht
  have hself : ∀ x ∈ nodes, ∀ (a : Option (Updater α)),
      Function.update s.active s.nextTransactionId a x.2.versionNumber =
        s.active x.2.versionNumber :=
    fun x hx a => Function.update_of_ne (hver x hx) _ _
  refine { hc with
    owner := fun x hx => ?_, rootOwn := fun ht r v hw => ?_, rootValue := fun r v hv hno => ?_,
    linked := fun c hcm r hw tid t ht hle => ?_, conflictFree := fun x hx t ht => ?_,
    ahead := ?_, activeUndo := fun {tid t} ht => ?_, committedLinked := fun c => ?_ }
  · rcases hc.owner x hx with ⟨h1, h2⟩ | ⟨t, ht, hu⟩
    · exact Or.inl ⟨Nat.lt_succ_of_lt h1, h2⟩
    · exact Or.inr ⟨t, (hself x hx _).trans ht, hu⟩
  · rcases active_update_iff.mp ht with ⟨-, ⟨⟩⟩ | ⟨-, ht'⟩
    · simp at hw
    · exact hc.rootOwn ht' r v hw
  · refine hc.rootValue r v hv fun tid t ht => hno tid t ?_
    exact (Function.update_of_ne (hold tid t ht) _ _).trans ht
  · rcases active_update_iff.mp ht with ⟨-, ⟨⟩⟩ | ⟨-, ht'⟩
    · exact absurd (hrun.committed c hcm).1 (Nat.not_lt.mpr hle)
    · exact hc.linked c hcm r hw ht' hle
  · exact hc.conflictFree x hx t ((hself x hx _).symm.trans ht)
  · refine hc.ahead.imp_of_mem fun hx hy h t ht => h t ((hself _ hy _).symm.trans ht)
  · rcases active_update_iff.mp ht with ⟨-, ⟨⟩⟩ | ⟨-, ht'⟩
    · exact Or.inl ⟨rfl, fun _ => rfl⟩
    · exact hc.activeUndo ht'
  · rcases hc.committedLinked c with h | ⟨x, hx, h1, h2, h3, h4⟩
    · exact Or.inl h
    · exact Or.inr ⟨x, hx, h1, h2, h3, Nat.lt_succ_of_lt h4⟩

theorem IsMerge.length_le {new old l : List (Nat × α)} (h : IsMerge new old l) :
    l.length ≤ old.length + new.length := by
  have hsub : l.map Prod.fst ⊆ old.map Prod.fst ++ new.map Prod.fst := by
    intro r hr
    obtain ⟨x, hx, rfl⟩ := List.mem_map.mp hr
    rcases h.mem hx with h' | h'
    · exact List.mem_append_right _ (List.mem_map_of_mem h')
    · exact List.mem_append_left _ (List.mem_map_of_mem h')
  simpa using (List.subperm_of_subset h.sorted.nodup hsub).length_le

/-- Linking an empty info in front, for a transaction that has none. -/
theorem ChainInv.link (hc : ChainInv n base s root nodes) (hrun : s.Ok) {a : Nat}
    (ht : s.active tid = some t) (hnew : ∀ x ∈ nodes, x.2.versionNumber ≠ tid) : t.undo = [] ∧
    ChainInv n base { s with active := Function.update s.active tid (some { t with undo := [a] }) }
      root ((a, ⟨tid, n, []⟩) :: nodes) := by
  obtain ⟨hundo, hwrites⟩ : t.undo = [] ∧ ∀ r, t.writes r = none := by
    rcases hc.activeUndo ht with h | ⟨x, hx, hv, -⟩
    · exact h
    · exact absurd hv (hnew x hx)
  have hempty : ∀ r, ¬ (⟨tid, n, []⟩ : UpdateInfo α).Has r := fun r h => h rfl
  have hself : ∀ x ∈ nodes, ∀ (o : Option (Updater α)),
      Function.update s.active tid o x.2.versionNumber = s.active x.2.versionNumber :=
    fun x hx o => Function.update_of_ne (hnew x hx) _ _
  have hbound : ∀ {tid' t'}, s.active tid' = some t' → t'.view.visibilityBound.value ≤ tid := by
    intro tid' t' ht'
    have h1 := (hrun.ids ht').2.2.2.2
    have h2 := (hrun.ids ht).2.1
    have h3 := maxCommitId_lt
    omega
  refine ⟨hundo, { hc with
    nodeOk := fun x hx => ?_, nodeMax := fun x hx => ?_, versions := ?_,
    owner := fun x hx => ?_, order := ?_, saved := fun x hx r v hv => ?_,
    rootCovers := fun x hx r hr => ?_, rootOwn := fun {tid' t'} ht' r v hw => ?_,
    rootValue := fun r v hv hno => ?_,
    linked := fun c hcm r hw {tid' t'} ht' hle => ?_, conflictFree := ?_, ahead := ?_,
    activeUndo := fun {tid' t'} ht' => ?_, committedLinked := fun c => ?_ }⟩
  · rcases List.mem_cons.mp hx with rfl | hx'
    · exact ⟨sortedKeys_nil, by simp, by simp⟩
    · exact hc.nodeOk x hx'
  · rcases List.mem_cons.mp hx with rfl | hx'
    · rfl
    · exact hc.nodeMax x hx'
  · exact List.pairwise_cons.mpr ⟨fun x hx => (hnew x hx).symm, hc.versions⟩
  · rcases List.mem_cons.mp hx with rfl | hx'
    · exact Or.inr ⟨_, Function.update_self _ _ _, rfl⟩
    · rcases hc.owner x hx' with h | ⟨u, hu, h⟩
      · exact Or.inl h
      · exact Or.inr ⟨u, (hself x hx' _).trans hu, h⟩
  · exact List.pairwise_cons.mpr ⟨fun x _ r h => absurd h (hempty r), hc.order⟩
  · rcases List.mem_cons.mp hx with rfl | hx'
    · simp at hv
    · exact hc.saved x hx' r v hv
  · rcases List.mem_cons.mp hx with rfl | hx'
    · exact absurd hr (hempty r)
    · exact hc.rootCovers x hx' r hr
  · rcases active_update_iff.mp ht' with ⟨-, ⟨⟩⟩ | ⟨-, ht''⟩
    · exact hc.rootOwn ht r v hw
    · exact hc.rootOwn ht'' r v hw
  · refine hc.rootValue r v hv fun tid' t' ht' => ?_
    by_cases h : tid' = tid
    · subst h
      rw [ht] at ht'
      cases ht'
      exact hwrites r
    · exact hno tid' t' ((Function.update_of_ne h _ _).trans ht')
  · obtain ⟨x, hx, h⟩ : ∃ x ∈ nodes, x.2.versionNumber = c.commitId ∧ x.2.Has r := by
      rcases active_update_iff.mp ht' with ⟨-, ⟨⟩⟩ | ⟨-, ht''⟩
      · exact hc.linked c hcm r hw ht hle
      · exact hc.linked c hcm r hw ht'' hle
    exact ⟨x, List.mem_cons_of_mem _ hx, h⟩
  · intro x hx u hu y hy hne r hxr hyr
    rcases List.mem_cons.mp hx with rfl | hx'
    · exact absurd hxr (hempty r)
    · rcases List.mem_cons.mp hy with rfl | hy'
      · exact absurd hyr (hempty r)
      · exact hc.conflictFree x hx' u ((hself x hx' _).symm.trans hu) y hy' hne r hxr hyr
  · refine List.pairwise_cons.mpr ⟨fun y hy u hu => ?_, ?_⟩
    · exact hbound ((hself y hy _).symm.trans hu)
    · exact hc.ahead.imp_of_mem fun _ hy h u hu => h u ((hself _ hy _).symm.trans hu)
  · rcases active_update_iff.mp ht' with ⟨rfl, ⟨⟩⟩ | ⟨-, ht''⟩
    · refine Or.inr ⟨_, List.mem_cons_self, rfl, rfl, fun r => ?_⟩
      simp [hwrites r, UpdateInfo.Has]
    · rcases hc.activeUndo ht'' with h | ⟨x, hx, h⟩
      · exact Or.inl h
      · exact Or.inr ⟨x, List.mem_cons_of_mem _ hx, h⟩
  · rcases hc.committedLinked c with h | ⟨x, hx, h⟩
    · exact Or.inl h
    · exact Or.inr ⟨x, List.mem_cons_of_mem _ hx, h⟩

/-- The bound of an active transaction lies below the ids of all active ones. -/
theorem UpdateRun.Ok.bound_le (hrun : s.Ok) {tid' : Nat} {t' : Updater α}
    (ht : s.active tid = some t) (ht' : s.active tid' = some t') :
    t.view.visibilityBound.value ≤ tid' := by
  have h1 := (hrun.ids ht).2.2.2.2
  have h2 := (hrun.ids ht').2.1
  have h3 := maxCommitId_lt
  omega

/-- The info of an active transaction has exactly the rows it stored. -/
theorem ChainInv.node_writes (hc : ChainInv n base s root nodes) (hrun : s.Ok) (hx : x ∈ nodes)
    (ht : s.active x.2.versionNumber = some t) :
    t.undo = [x.1] ∧ ∀ r, t.writes r ≠ none ↔ x.2.Has r := by
  rcases hc.activeUndo ht with ⟨hu, -⟩ | ⟨y, hy, hv, hu, hiff⟩
  · rcases hc.owner x hx with ⟨-, hlt⟩ | ⟨t', ht', hundo⟩
    · have h1 := (hrun.ids ht).2.1
      have h2 := maxCommitId_lt
      omega
    · rw [ht] at ht'
      cases ht'
      simp [hu] at hundo
  · obtain rfl := hc.eq_of_version hy hx hv
    exact ⟨hu, hiff⟩

/-- The link `x` of a chain after new tuples were put at address `a`. -/
def putTuples (a : Nat) (tuples : List (Nat × α)) (x : Nat × UpdateInfo α) :
    Nat × UpdateInfo α :=
  if x.1 = a then (x.1, { x.2 with tuples := tuples }) else x

@[simp] theorem putTuples_fst (a : Nat) (tuples : List (Nat × α)) (x : Nat × UpdateInfo α) :
    (putTuples a tuples x).1 = x.1 := by
  by_cases h : x.1 = a <;> simp [putTuples, h]

@[simp] theorem putTuples_versionNumber (a : Nat) (tuples : List (Nat × α))
    (x : Nat × UpdateInfo α) : (putTuples a tuples x).2.versionNumber = x.2.versionNumber := by
  by_cases h : x.1 = a <;> simp [putTuples, h]

@[simp] theorem putTuples_max (a : Nat) (tuples : List (Nat × α)) (x : Nat × UpdateInfo α) :
    (putTuples a tuples x).2.max = x.2.max := by
  by_cases h : x.1 = a <;> simp [putTuples, h]

/-- A transaction `tid` with info `(a, info)` may write the rows of `update`: no other info that
it does not see has one of them. `saved` and `newest` are the merged tuples. -/
structure Mergeable (n : Nat) (base : BaseVector α) (s : UpdateRun α) (root : UpdateInfo α)
    (nodes : List (Nat × UpdateInfo α)) (tid a : Nat) (t : Updater α) (info : UpdateInfo α)
    (update saved newest : List (Nat × α)) : Prop where
  nodup : (nodes.map Prod.fst).Nodup
  active : s.active tid = some t
  mem : (a, info) ∈ nodes
  version : info.versionNumber = tid
  sorted : SortedKeys update
  inVector : ∀ x ∈ update, x.1 < n
  saved : IsMerge info.tuples
    (update.map fun x => (x.1, (root.tuples.lookup x.1).getD (base.oldValue x.1))) saved
  newest : IsMerge update root.tuples newest
  noConflict : ∀ x ∈ nodes, x.2.versionNumber ≠ tid →
    t.view.visibilityBound.value ≤ x.2.versionNumber →
    ∀ r, update.lookup r ≠ none → ¬ x.2.Has r

namespace Mergeable

variable {tid a : Nat} {t : Updater α} {info : UpdateInfo α} {update saved newest : List (Nat × α)}

variable {x : Nat × UpdateInfo α}

theorem address_iff (hm : Mergeable n base s root nodes tid a t info update saved newest)
    (hc : ChainInv n base s root nodes) (hx : x ∈ nodes) : x.1 = a ↔ x.2.versionNumber = tid := by
  constructor
  · intro h
    rw [List.inj_on_of_nodup_map hm.nodup hx hm.mem h, hm.version]
  · intro h
    rw [hc.eq_of_version hx hm.mem (h.trans hm.version.symm)]

theorem lookup_put (hm : Mergeable n base s root nodes tid a t info update saved newest)
    (hc : ChainInv n base s root nodes) (hx : x ∈ nodes) (r : Nat) :
    (putTuples a saved x).2.tuples.lookup r = (x.2.tuples.lookup r).or
      (if x.2.versionNumber = tid then
        (update.lookup r).map fun _ => (root.tuples.lookup r).getD (base.oldValue r)
      else none) := by
  by_cases h : x.1 = a
  · obtain rfl : x = (a, info) := List.inj_on_of_nodup_map hm.nodup hx hm.mem h
    rw [if_pos hm.version, putTuples, if_pos h, hm.saved.lookup,
      lookup_map_value (fun k _ => (root.tuples.lookup k).getD (base.oldValue k)) r update]
  · rw [if_neg fun hv => h ((hm.address_iff hc hx).mpr hv), Option.or_none, putTuples, if_neg h]

theorem has_put (hm : Mergeable n base s root nodes tid a t info update saved newest)
    (hc : ChainInv n base s root nodes) (hx : x ∈ nodes) (r : Nat) : (putTuples a saved x).2.Has r ↔
      x.2.Has r ∨ (x.2.versionNumber = tid ∧ update.lookup r ≠ none) := by
  rw [UpdateInfo.Has, hm.lookup_put hc hx r, UpdateInfo.Has]
  by_cases hv : x.2.versionNumber = tid
  · cases x.2.tuples.lookup r <;> cases update.lookup r <;> simp [hv]
  · simp [hv]

theorem has_newest (hm : Mergeable n base s root nodes tid a t info update saved newest)
    {v m r : Nat} : (⟨v, m, newest⟩ : UpdateInfo α).Has r ↔
      update.lookup r ≠ none ∨ root.Has r := by
  rw [UpdateInfo.Has, UpdateInfo.Has]
  simp only [hm.newest.lookup]
  cases update.lookup r <;> simp

/-- No other active transaction has written a row of the update. -/
theorem other_writes (hm : Mergeable n base s root nodes tid a t info update saved newest)
    (hc : ChainInv n base s root nodes) (hrun : s.Ok) {tid' : Nat} {u : Updater α}
    (hu : s.active tid' = some u) (hne : tid' ≠ tid) {r : Nat} (hr : update.lookup r ≠ none) :
    u.writes r = none := by
  by_contra hw
  obtain ⟨x, hx, rfl, -, hxr⟩ := hc.writer_node hu hw
  exact hm.noConflict x hx hne (hrun.bound_le hm.active hu) r hr hxr

end Mergeable

variable {update : List (Nat × α)}

theorem ChainInv.merge {a m : Nat} {info : UpdateInfo α} {saved newest : List (Nat × α)}
    (submitted : Nat → Option α) (hc : ChainInv n base s root nodes) (hrun : s.Ok)
    (hm : Mergeable n base s root nodes tid a t info update saved newest)
    (hcap : min (root.tuples.length + update.length) n ≤ m) : ChainInv n base
      { s with active := Function.update s.active tid (some
          { t with submitted := submitted, writes := record update t.writes }) }
      ⟨root.versionNumber, m, newest⟩
      (Heap.modifyAt a (fun i => { i with tuples := saved }) nodes) := by
  have hold : ∀ {tid' t'}, Function.update s.active tid (some
      { t with submitted := submitted, writes := record update t.writes }) tid' = some t' →
      ∃ u, s.active tid' = some u ∧ u.view = t'.view ∧ u.undo = t'.undo ∧
        t'.writes = if tid' = tid then record update u.writes else u.writes := by
    intro tid' t' h
    rcases active_update_iff.mp h with ⟨rfl, ⟨⟩⟩ | ⟨hne, h'⟩
    · exact ⟨t, hm.active, rfl, rfl, by simp⟩
    · exact ⟨t', h', rfl, rfl, by simp [hne]⟩
  have hnewin : ∀ x ∈ newest, x.1 < n := fun x hx =>
    (hm.newest.mem hx).elim (hm.inVector x) (hc.rootOk.inVector x)
  have hnewlen : newest.length ≤ m := by
    have h1 := hm.newest.length_le
    have h2 := hm.newest.sorted.length_le hnewin
    omega
  have hrows : ∀ {r}, update.lookup r ≠ none → ¬ info.Has r →
      ∀ tid' u, s.active tid' = some u → u.writes r = none := by
    intro r hr hni tid' u hu
    by_cases h : tid' = tid
    · subst h
      obtain rfl := Option.some.inj (hm.active.symm.trans hu)
      by_contra hw
      exact hni (((hc.node_writes hrun hm.mem (hm.version.symm ▸ hm.active)).2 r).mp hw)
    · exact hm.other_writes hc hrun hu h hr
  have hmod : Heap.modifyAt a (fun i => { i with tuples := saved }) nodes =
      nodes.map (putTuples a saved) := rfl
  rw [hmod]
  constructor
  case rootVersion => exact hc.rootVersion
  case rootOk => exact ⟨hm.newest.sorted, hnewin, hnewlen⟩
  case nodeOk =>
    intro y hy
    obtain ⟨x, hx, rfl⟩ := List.mem_map.mp hy
    by_cases h : x.1 = a
    · obtain rfl : x = (a, info) := List.inj_on_of_nodup_map hm.nodup hx hm.mem h
      have hin : ∀ z ∈ saved, z.1 < n := by
        intro z hz
        rcases hm.saved.mem hz with h' | h'
        · exact (hc.nodeOk _ hx).inVector z h'
        · obtain ⟨w, hw, rfl⟩ := List.mem_map.mp h'
          exact hm.inVector w hw
      have h1 := hm.saved.sorted.length_le hin
      have h2 := hc.nodeMax _ hx
      rw [putTuples, if_pos h]
      exact ⟨hm.saved.sorted, hin, h2 ▸ h1⟩
    · rw [putTuples, if_neg h]
      exact hc.nodeOk x hx
  case nodeMax =>
    intro y hy
    obtain ⟨x, hx, rfl⟩ := List.mem_map.mp hy
    rw [putTuples_max]
    exact hc.nodeMax x hx
  case versions =>
    refine List.pairwise_map.mpr (hc.versions.imp fun h => ?_)
    rwa [putTuples_versionNumber, putTuples_versionNumber]
  case owner =>
    intro y hy
    obtain ⟨x, hx, rfl⟩ := List.mem_map.mp hy
    rw [putTuples_versionNumber, putTuples_fst]
    rcases hc.owner x hx with h | ⟨u, hu, hux⟩
    · exact Or.inl h
    · refine Or.inr ?_
      by_cases h : x.2.versionNumber = tid
      · rw [h, hm.active] at hu
        cases hu
        refine ⟨{ t with submitted := submitted, writes := record update t.writes }, ?_, hux⟩
        rw [h]
        exact Function.update_self _ _ _
      · exact ⟨u, (Function.update_of_ne h _ _).trans hu, hux⟩
  case order =>
    have hall := (hc.order.and hc.ahead).and hc.versions
    refine List.pairwise_map.mpr (hall.imp_of_mem fun {x y} hx hy h r hxr hyr => ?_)
    obtain ⟨⟨hord, hahead⟩, hne⟩ := h
    rw [putTuples_versionNumber, putTuples_versionNumber]
    rcases (hm.has_put hc hx r).mp hxr with hxr' | ⟨rfl, hr⟩
    · rcases (hm.has_put hc hy r).mp hyr with hyr' | ⟨rfl, hr⟩
      · exact hord r hxr' hyr'
      · -- `x` would have to be seen, but it stands in front of the transaction's info
        exact absurd hxr' (hm.noConflict x hx hne (hahead t hm.active) r hr)
    · rcases (hm.has_put hc hy r).mp hyr with hyr' | ⟨hyt, -⟩
      · have hseen : y.2.versionNumber < t.view.visibilityBound.value := by
          by_contra hle
          exact hm.noConflict y hy (Ne.symm hne) (Nat.not_lt.mp hle) r hr hyr'
        exact hseen.trans_le (hrun.bound_le hm.active hm.active)
      · exact absurd hyt.symm hne
  case saved =>
    intro y hy r v hv
    obtain ⟨x, hx, rfl⟩ := List.mem_map.mp hy
    rw [putTuples_versionNumber]
    rw [hm.lookup_put hc hx r] at hv
    rcases Option.or_eq_some_iff.mp hv with h | ⟨hnone, h⟩
    · exact hc.saved x hx r v h
    · split at h
      · next hvt =>
          obtain ⟨w, hw, rfl⟩ := Option.map_eq_some_iff.mp h
          obtain rfl : x = (a, info) := hc.eq_of_version hx hm.mem (hvt.trans hm.version.symm)
          have hno := hrows (r := r) (by simp [hw]) fun hhas => hhas hnone
          have hbig : maxCommitId ≤ info.versionNumber := by
            have h1 := (hrun.ids hm.active).2.1
            have h2 := maxCommitId_lt
            have h3 := hm.version
            omega
          rw [hrun.latestBelow_newest r hbig]
          cases hrt : root.tuples.lookup r with
          | some u =>
              rw [Option.getD_some]
              exact hc.rootValue r u hrt hno
          | none =>
              have hnone' : latestBelow s.history maxCommitId r = none := by
                refine latestBelow_eq_none fun c hcm _ => ?_
                by_contra hcw
                exact hc.rootHistory c hcm r hcw hrt
              simp only [hnone']
      · exact absurd h (by simp)
  case rootCovers =>
    intro y hy r hr
    obtain ⟨x, hx, rfl⟩ := List.mem_map.mp hy
    rcases (hm.has_put hc hx r).mp hr with h | ⟨-, h⟩
    · exact hm.has_newest.mpr (Or.inr (hc.rootCovers x hx r h))
    · exact hm.has_newest.mpr (Or.inl h)
  case rootHistory =>
    intro c hcm r hr
    exact hm.has_newest.mpr (Or.inr (hc.rootHistory c hcm r hr))
  case rootOwn =>
    intro tid' t' ht' r v hw
    obtain ⟨u, hu, -, -, hwr⟩ := hold ht'
    rw [hwr] at hw
    simp only [hm.newest.lookup]
    split at hw
    · next h =>
        subst h
        rcases Option.or_eq_some_iff.mp hw with h | ⟨hnone, h⟩
        · simp [h]
        · simp [hnone, hc.rootOwn hu r v h]
    · next h =>
        have hnone : update.lookup r = none := by
          by_contra hr
          rw [hm.other_writes hc hrun hu h hr] at hw
          exact absurd hw (by simp)
        simp [hnone, hc.rootOwn hu r v hw]
  case rootValue =>
    intro r v hv hno
    have hself : record update t.writes r = none := hno tid _ (Function.update_self _ _ _)
    rw [record, Option.or_eq_none_iff] at hself
    simp only [hm.newest.lookup, hself.1, Option.none_or] at hv
    refine hc.rootValue r v hv fun tid' u hu => ?_
    by_cases h : tid' = tid
    · subst h
      obtain rfl := Option.some.inj (hm.active.symm.trans hu)
      exact hself.2
    · exact hno tid' u ((Function.update_of_ne h _ _).trans hu)
  case linked =>
    intro c hcm r hw tid' t' ht' hle
    obtain ⟨u, hu, hview, -, -⟩ := hold ht'
    obtain ⟨x, hx, hv, hxr⟩ := hc.linked c hcm r hw hu (hview ▸ hle)
    exact ⟨_, List.mem_map_of_mem hx, (putTuples_versionNumber ..).trans hv,
      (hm.has_put hc hx r).mpr (Or.inl hxr)⟩
  case conflictFree =>
    intro x' hx' t' ht' y' hy' hne r hxr hyr
    obtain ⟨x, hx, rfl⟩ := List.mem_map.mp hx'
    obtain ⟨y, hy, rfl⟩ := List.mem_map.mp hy'
    rw [putTuples_versionNumber] at ht' hne ⊢
    rw [putTuples_versionNumber] at hne
    obtain ⟨u, hu, hview, -, -⟩ := hold ht'
    rw [← hview]
    rcases (hm.has_put hc hx r).mp hxr with hxr' | ⟨rfl, hr⟩
    · rcases (hm.has_put hc hy r).mp hyr with hyr' | ⟨rfl, hr⟩
      · exact hc.conflictFree x hx u hu y hy hne r hxr' hyr'
      · have := hm.noConflict x hx (Ne.symm hne) (hrun.bound_le hm.active hu) r hr
        exact absurd hxr' this
    · obtain rfl := Option.some.inj (hm.active.symm.trans hu)
      by_contra hle
      rcases (hm.has_put hc hy r).mp hyr with hyr' | ⟨hyt, -⟩
      · exact hm.noConflict y hy hne (Nat.not_lt.mp hle) r hr hyr'
      · exact hne hyt
  case ahead =>
    refine List.pairwise_map.mpr (hc.ahead.imp fun {x y} h t' ht' => ?_)
    rw [putTuples_versionNumber] at ht' ⊢
    obtain ⟨u, hu, hview, -, -⟩ := hold ht'
    rw [← hview]
    exact h u hu
  case activeUndo =>
    intro tid' t' ht'
    rcases active_update_iff.mp ht' with ⟨rfl, ⟨⟩⟩ | ⟨hne, hu⟩
    · obtain ⟨hundo, hiff⟩ := hc.node_writes hrun hm.mem (hm.version.symm ▸ hm.active)
      refine Or.inr ⟨_, List.mem_map_of_mem hm.mem, ?_, ?_, fun r => ?_⟩
      · rw [putTuples_versionNumber, hm.version]
      · rw [putTuples_fst]
        exact hundo
      · rw [hm.has_put hc hm.mem r, ← hiff r]
        simp only [record, hm.version, true_and]
        cases update.lookup r <;> simp
    · rcases hc.activeUndo hu with h | ⟨x, hx, hv, hundo, hiff⟩
      · exact Or.inl h
      · refine Or.inr ⟨_, List.mem_map_of_mem hx, (putTuples_versionNumber ..).trans hv,
          by rw [putTuples_fst, hundo], fun r => ?_⟩
        rw [hm.has_put hc hx r, hiff r]
        simp [hv, hne]
  case committedLinked =>
    intro c
    rcases hc.committedLinked c with h | ⟨x, hx, hv, hu, hlt⟩
    · exact Or.inl h
    · exact Or.inr ⟨_, List.mem_map_of_mem hx, (putTuples_versionNumber ..).trans hv,
        by rw [putTuples_fst, hu], hlt⟩

/-! ### Commit -/

/-- The link `x` of a chain after the commit of transaction `tid`. -/
def stamp (tid commitId : Nat) (x : Nat × UpdateInfo α) : Nat × UpdateInfo α :=
  if x.2.versionNumber = tid then (x.1, { x.2 with versionNumber := commitId }) else x

@[simp] theorem stamp_fst (tid c : Nat) (x : Nat × UpdateInfo α) : (stamp tid c x).1 = x.1 := by
  by_cases h : x.2.versionNumber = tid <;> simp [stamp, h]

@[simp] theorem stamp_tuples (tid c : Nat) (x : Nat × UpdateInfo α) :
    (stamp tid c x).2.tuples = x.2.tuples := by
  by_cases h : x.2.versionNumber = tid <;> simp [stamp, h]

@[simp] theorem stamp_max (tid c : Nat) (x : Nat × UpdateInfo α) :
    (stamp tid c x).2.max = x.2.max := by
  by_cases h : x.2.versionNumber = tid <;> simp [stamp, h]

theorem stamp_versionNumber (tid c : Nat) (x : Nat × UpdateInfo α) :
    (stamp tid c x).2.versionNumber =
      if x.2.versionNumber = tid then c else x.2.versionNumber := by
  by_cases h : x.2.versionNumber = tid <;> simp [stamp, h]

@[simp] theorem stamp_has (tid c r : Nat) (x : Nat × UpdateInfo α) :
    (stamp tid c x).2.Has r ↔ x.2.Has r := by
  rw [UpdateInfo.Has, stamp_tuples, UpdateInfo.Has]

theorem ChainInv.commit {submitted : List (Commit Nat α)} (hc : ChainInv n base s root nodes)
    (hrun : s.Ok) (ht : s.active tid = some t) (hclock : s.clock < maxCommitId) : ChainInv n base
      { s with
        active := Function.update s.active tid none
        clock := s.clock + 1
        committedUndo := Function.update s.committedUndo s.clock t.undo
        history := ⟨s.clock, t.writes⟩ :: s.history
        submittedHistory := submitted }
      root (nodes.map (stamp tid s.clock)) := by
  obtain ⟨-, htid, -, hbc, -⟩ := hrun.ids ht
  have hmax := maxCommitId_lt
  -- the versions of the other infos
  have hver : ∀ x ∈ nodes, x.2.versionNumber ≠ s.clock := by
    intro x hx
    rcases hc.owner x hx with ⟨h, -⟩ | ⟨u, hu, -⟩
    · exact h.ne
    · have := (hrun.ids hu).2.1
      omega
  have hactive : ∀ {tid' u}, Function.update s.active tid none tid' = some u →
      tid' ≠ tid ∧ s.active tid' = some u := by
    intro tid' u hu
    rcases active_update_iff.mp hu with ⟨-, h⟩ | h
    · exact absurd h (by simp)
    · exact h
  -- a stamped version that is active was that of another active transaction
  have hstamp : ∀ x ∈ nodes, ∀ {u}, s.active (stamp tid s.clock x).2.versionNumber = some u →
      (stamp tid s.clock x).2.versionNumber = x.2.versionNumber ∧ x.2.versionNumber ≠ tid := by
    intro x hx u hu
    rw [stamp_versionNumber] at hu ⊢
    split at hu
    · have := (hrun.ids hu).2.1
      omega
    · next h => exact ⟨by rw [if_neg h], h⟩
  constructor
  case rootVersion => exact hc.rootVersion
  case rootOk => exact hc.rootOk
  case nodeOk =>
    intro y hy
    obtain ⟨x, hx, rfl⟩ := List.mem_map.mp hy
    have hok := hc.nodeOk x hx
    exact ⟨by simpa using hok.sorted, by simpa using hok.inVector, by simpa using hok.fits⟩
  case nodeMax =>
    intro y hy
    obtain ⟨x, hx, rfl⟩ := List.mem_map.mp hy
    rw [stamp_max]
    exact hc.nodeMax x hx
  case versions =>
    refine List.pairwise_map.mpr (hc.versions.imp_of_mem fun {x y} hx hy h => ?_)
    rw [stamp_versionNumber, stamp_versionNumber]
    by_cases h1 : x.2.versionNumber = tid
    · have h2 : y.2.versionNumber ≠ tid := fun h2 => h (h1.trans h2.symm)
      rw [if_pos h1, if_neg h2]
      exact (hver y hy).symm
    · rw [if_neg h1]
      split
      · exact hver x hx
      · exact h
  case owner =>
    intro y hy
    obtain ⟨x, hx, rfl⟩ := List.mem_map.mp hy
    rw [stamp_versionNumber, stamp_fst]
    split
    · exact Or.inl ⟨Nat.lt_succ_self _, hclock⟩
    · next h =>
        rcases hc.owner x hx with ⟨h1, h2⟩ | ⟨u, hu, hux⟩
        · exact Or.inl ⟨Nat.lt_succ_of_lt h1, h2⟩
        · exact Or.inr ⟨u, (Function.update_of_ne h _ _).trans hu, hux⟩
  case order =>
    refine List.pairwise_map.mpr ((hc.order.and hc.versions).imp_of_mem
      fun {x y} hx hy h r hxr hyr => ?_)
    rw [stamp_has] at hxr hyr
    have hord := h.1 r hxr hyr
    rw [stamp_versionNumber, stamp_versionNumber]
    by_cases h1 : x.2.versionNumber = tid
    · have h2 : y.2.versionNumber ≠ tid := fun h2 => h.2 (h1.trans h2.symm)
      rw [if_pos h1, if_neg h2]
      have := hc.conflictFree x hx t (h1 ▸ ht) y hy (fun h' => h2 (h'.trans h1)) r hxr hyr
      omega
    · rw [if_neg h1]
      split
      · next h2 =>
          have := hc.conflictFree y hy t (h2 ▸ ht) x hx (fun h' => h1 (h'.trans h2)) r hyr hxr
          omega
      · exact hord
  case saved =>
    intro y hy r v hv
    obtain ⟨x, hx, rfl⟩ := List.mem_map.mp hy
    rw [stamp_tuples] at hv
    rw [hc.saved x hx r v hv, stamp_versionNumber]
    split
    · next h =>
        rw [latestBelow_cons_of_le (Nat.le_refl _)]
        congr 1
        have hle : s.clock ≤ x.2.versionNumber := by omega
        refine latestBelow_eq_of_gap hle fun c hcm hle => ?_
        exact absurd (hrun.committed c hcm).1 (Nat.not_lt.mpr hle)
    · next h =>
        congr 1
        rcases hc.owner x hx with ⟨h1, -⟩ | ⟨u, hu, -⟩
        · exact (latestBelow_cons_of_le h1.le).symm
        · -- the info of another active transaction shares no row with the committed writes
          refine (latestBelow_cons_of_none ?_).symm
          by_contra hw
          obtain ⟨z, hz, hzv, -, hzr⟩ := hc.writer_node ht hw
          refine hc.active_disjoint hrun hx hz hu (hzv ▸ ht) ?_ (by simp [UpdateInfo.Has, hv]) hzr
          rw [hzv]
          exact Ne.symm h
  case rootCovers =>
    intro y hy r hr
    obtain ⟨x, hx, rfl⟩ := List.mem_map.mp hy
    exact hc.rootCovers x hx r ((stamp_has ..).mp hr)
  case rootHistory =>
    intro c hcm r hr
    rcases List.mem_cons.mp hcm with rfl | hcm'
    · obtain ⟨v, hv⟩ := Option.ne_none_iff_exists'.mp hr
      simp [UpdateInfo.Has, hc.rootOwn ht r v hv]
    · exact hc.rootHistory c hcm' r hr
  case rootOwn =>
    intro tid' u hu r v hw
    exact hc.rootOwn (hactive hu).2 r v hw
  case rootValue =>
    intro r v hv hno
    rw [UpdateRun.newestValue]
    cases hw : t.writes r with
    | some w =>
        rw [latestBelow_cons_of_some hclock hw]
        have := hc.rootOwn ht r w hw
        rw [hv] at this
        exact Option.some.inj this
    | none =>
        rw [latestBelow_cons_of_none hw]
        refine hc.rootValue r v hv fun tid' u hu => ?_
        by_cases h : tid' = tid
        · subst h
          obtain rfl := Option.some.inj (ht.symm.trans hu)
          exact hw
        · exact hno tid' u ((Function.update_of_ne h _ _).trans hu)
  case linked =>
    intro c hcm r hw tid' u hu hle
    rcases List.mem_cons.mp hcm with rfl | hcm'
    · obtain ⟨x, hx, hv, -, hxr⟩ := hc.writer_node ht hw
      exact ⟨_, List.mem_map_of_mem hx, by rw [stamp_versionNumber, if_pos hv],
        (stamp_has ..).mpr hxr⟩
    · obtain ⟨x, hx, hv, hxr⟩ := hc.linked c hcm' r hw (hactive hu).2 hle
      refine ⟨_, List.mem_map_of_mem hx, ?_, (stamp_has ..).mpr hxr⟩
      have := (hrun.committed c hcm').2
      rw [stamp_versionNumber, if_neg (by omega), hv]
  case conflictFree =>
    intro x' hx' u hu y' hy' hne r hxr hyr
    obtain ⟨x, hx, rfl⟩ := List.mem_map.mp hx'
    obtain ⟨y, hy, rfl⟩ := List.mem_map.mp hy'
    rw [stamp_has] at hxr hyr
    obtain ⟨hxv, hxt⟩ := hstamp x hx (hactive hu).2
    rw [hxv] at hu hne
    have hu' := (hactive hu).2
    by_cases h : y.2.versionNumber = tid
    · exact absurd hyr (hc.active_disjoint hrun hx hy hu' (h ▸ ht)
        (fun h' => hxt (h'.symm.trans h)) hxr)
    · rw [stamp_versionNumber, if_neg h] at hne ⊢
      exact hc.conflictFree x hx u hu' y hy hne r hxr hyr
  case ahead =>
    refine List.pairwise_map.mpr (hc.ahead.imp_of_mem fun {x y} hx hy h u hu => ?_)
    have hyv := (hstamp y hy (hactive hu).2).1
    rw [hyv] at hu
    rw [stamp_versionNumber]
    split
    · exact (hrun.ids (hactive hu).2).2.2.2.1
    · exact h u (hactive hu).2
  case activeUndo =>
    intro tid' u hu
    obtain ⟨hne, hu'⟩ := hactive hu
    rcases hc.activeUndo hu' with h | ⟨x, hx, hv, hundo, hiff⟩
    · exact Or.inl h
    · refine Or.inr ⟨_, List.mem_map_of_mem hx, ?_, by rw [stamp_fst, hundo], fun r => ?_⟩
      · rw [stamp_versionNumber, if_neg (by omega), hv]
      · rw [stamp_has, hiff r]
  case committedLinked =>
    intro c
    by_cases h : c = s.clock
    · subst h
      simp only [Function.update_self]
      rcases hc.activeUndo ht with ⟨hu, -⟩ | ⟨x, hx, hv, hundo, -⟩
      · exact Or.inl hu
      · exact Or.inr ⟨_, List.mem_map_of_mem hx, by rw [stamp_versionNumber, if_pos hv],
          by rw [stamp_fst, hundo], hclock, Nat.lt_succ_self _⟩
    · simp only [Function.update_of_ne h]
      rcases hc.committedLinked c with h' | ⟨x, hx, hv, hu, h1, h2⟩
      · exact Or.inl h'
      · refine Or.inr ⟨_, List.mem_map_of_mem hx, ?_, by rw [stamp_fst, hu], h1,
          Nat.lt_succ_of_lt h2⟩
        rw [stamp_versionNumber, if_neg (by omega), hv]

/-! ### Rollback and cleanup -/

/-- What stays true of the infos when some are unlinked and the root and the active
transactions change, as long as every info that stays keeps its owner. -/
theorem ChainInv.rollback {tid : Nat} {t : Updater α} {root' : UpdateInfo α}
    {nodes' : List (Nat × UpdateInfo α)} (hc : ChainInv n base s root nodes) (hrun : s.Ok)
    (ht : s.active tid = some t) (hsub : nodes'.Sublist nodes)
    (hkeep : ∀ x ∈ nodes, x.2.versionNumber ≠ tid → x ∈ nodes')
    (hgone : ∀ x ∈ nodes', x.2.versionNumber ≠ tid)
    (hversion : root'.versionNumber = maxCommitId) (hok : root'.Ok n)
    (hroot : ∀ r, root'.tuples.lookup r =
      if t.writes r = none then root.tuples.lookup r else some (s.newestValue base r)) :
    ChainInv n base { s with active := Function.update s.active tid none } root' nodes' := by
  have hactive : ∀ {tid' u}, Function.update s.active tid none tid' = some u →
      tid' ≠ tid ∧ s.active tid' = some u := by
    intro tid' u hu
    rcases active_update_iff.mp hu with ⟨-, h⟩ | h
    · exact absurd h (by simp)
    · exact h
  have hmem : ∀ x ∈ nodes', x ∈ nodes := fun x hx => hsub.subset hx
  have hcommit : ∀ c, c < maxCommitId → c ≠ tid := by
    intro c hlt
    have h1 := (hrun.ids ht).2.1
    have h2 := maxCommitId_lt
    omega
  have hhas : ∀ r, root.Has r → root'.Has r := by
    intro r hr
    rw [UpdateInfo.Has, hroot r]
    split
    · exact hr
    · simp
  constructor
  case rootVersion => exact hversion
  case rootOk => exact hok
  case nodeOk => exact fun x hx => hc.nodeOk x (hmem x hx)
  case nodeMax => exact fun x hx => hc.nodeMax x (hmem x hx)
  case versions => exact hc.versions.sublist hsub
  case owner =>
    intro x hx
    rcases hc.owner x (hmem x hx) with h | ⟨u, hu, hux⟩
    · exact Or.inl h
    · exact Or.inr ⟨u, (Function.update_of_ne (hgone x hx) _ _).trans hu, hux⟩
  case order => exact hc.order.sublist hsub
  case saved => exact fun x hx => hc.saved x (hmem x hx)
  case rootCovers => exact fun x hx r hr => hhas r (hc.rootCovers x (hmem x hx) r hr)
  case rootHistory => exact fun c hcm r hr => hhas r (hc.rootHistory c hcm r hr)
  case rootOwn =>
    intro tid' u hu r v hw
    obtain ⟨hne, hu'⟩ := hactive hu
    have hnone : t.writes r = none := by
      by_contra hw'
      obtain ⟨x, hx, rfl, -, hxr⟩ := hc.writer_node ht hw'
      obtain ⟨y, hy, rfl, -, hyr⟩ := hc.writer_node hu' (r := r) (by simp [hw])
      exact hc.active_disjoint hrun hx hy ht hu' hne hxr hyr
    rw [hroot r, if_pos hnone]
    exact hc.rootOwn hu' r v hw
  case rootValue =>
    intro r v hv hno
    rw [hroot r] at hv
    split at hv
    · next hw =>
        refine hc.rootValue r v hv fun tid' u hu => ?_
        by_cases h : tid' = tid
        · subst h
          obtain rfl := Option.some.inj (ht.symm.trans hu)
          exact hw
        · exact hno tid' u ((Function.update_of_ne h _ _).trans hu)
    · exact (Option.some.inj hv).symm
  case linked =>
    intro c hcm r hw tid' u hu hle
    obtain ⟨x, hx, hv, hxr⟩ := hc.linked c hcm r hw (hactive hu).2 hle
    exact ⟨x, hkeep x hx (hv ▸ hcommit _ (hrun.committed c hcm).2), hv, hxr⟩
  case conflictFree =>
    intro x hx u hu y hy
    exact hc.conflictFree x (hmem x hx) u (hactive hu).2 y (hmem y hy)
  case ahead =>
    exact (hc.ahead.sublist hsub).imp fun h u hu => h u (hactive hu).2
  case activeUndo =>
    intro tid' u hu
    obtain ⟨hne, hu'⟩ := hactive hu
    rcases hc.activeUndo hu' with h | ⟨x, hx, hv, h⟩
    · exact Or.inl h
    · exact Or.inr ⟨x, hkeep x hx (hv ▸ hne), hv, h⟩
  case committedLinked =>
    intro c
    rcases hc.committedLinked c with h | ⟨x, hx, hv, hu, h1, h2⟩
    · exact Or.inl h
    · exact Or.inr ⟨x, hkeep x hx (hv ▸ hcommit c h1), hv, hu, h1, h2⟩

/-- Unlinking the infos of a commit that every active transaction sees. -/
theorem ChainInv.cleanup {commitId : Nat} {nodes' : List (Nat × UpdateInfo α)}
    (hc : ChainInv n base s root nodes) (hrun : s.Ok) (hsub : nodes'.Sublist nodes)
    (hkeep : ∀ x ∈ nodes, x.2.versionNumber ≠ commitId → x ∈ nodes')
    (hseen : ∀ tid t, s.active tid = some t → commitId < t.view.visibilityBound.value) :
    ChainInv n base { s with committedUndo := Function.update s.committedUndo commitId [] }
      root nodes' := by
  have hmem : ∀ x ∈ nodes', x ∈ nodes := fun x hx => hsub.subset hx
  refine { hc with
    nodeOk := fun x hx => hc.nodeOk x (hmem x hx)
    nodeMax := fun x hx => hc.nodeMax x (hmem x hx)
    versions := hc.versions.sublist hsub
    owner := fun x hx => hc.owner x (hmem x hx)
    order := hc.order.sublist hsub
    saved := fun x hx => hc.saved x (hmem x hx)
    rootCovers := fun x hx => hc.rootCovers x (hmem x hx)
    conflictFree := fun x hx t ht y hy => hc.conflictFree x (hmem x hx) t ht y (hmem y hy)
    ahead := hc.ahead.sublist hsub
    linked := fun c hcm r hw {tid t} ht hle => ?_
    activeUndo := fun {tid t} ht => ?_
    committedLinked := fun c => ?_ }
  · obtain ⟨x, hx, hv, hxr⟩ := hc.linked c hcm r hw ht hle
    have hlt := hseen tid t ht
    exact ⟨x, hkeep x hx (by omega), hv, hxr⟩
  · rcases hc.activeUndo ht with h | ⟨x, hx, hv, h⟩
    · exact Or.inl h
    · have hlt := hseen tid t ht
      have hle := hrun.bound_le ht ht
      exact Or.inr ⟨x, hkeep x hx (by omega), hv, h⟩
  · by_cases h : c = commitId
    · subst h
      exact Or.inl (Function.update_self _ _ _)
    · simp only [Function.update_of_ne h]
      rcases hc.committedLinked c with h' | ⟨x, hx, hv, hu⟩
      · exact Or.inl h'
      · exact Or.inr ⟨x, hkeep x hx (hv ▸ h), hv, hu⟩

/-! ### The segment -/

/-- The chain does not depend on what a transaction submitted. -/
theorem ChainInv.submit (submitted : Nat → Option α) (hc : ChainInv n base s root nodes)
    (ht : s.active tid = some t) : ChainInv n base
      { s with active := Function.update s.active tid (some { t with submitted := submitted }) }
      root nodes := by
  have hold : ∀ {tid' t'}, Function.update s.active tid (some { t with submitted := submitted })
      tid' = some t' → ∃ u, s.active tid' = some u ∧ u.view = t'.view ∧ u.undo = t'.undo ∧
        u.writes = t'.writes := by
    intro tid' t' h
    rcases active_update_iff.mp h with ⟨rfl, ⟨⟩⟩ | ⟨-, h'⟩
    · exact ⟨t, ht, rfl, rfl, rfl⟩
    · exact ⟨t', h', rfl, rfl, rfl⟩
  have hnew : ∀ {tid' u}, s.active tid' = some u → ∃ t', Function.update s.active tid
      (some { t with submitted := submitted }) tid' = some t' ∧ u.undo = t'.undo ∧
        u.writes = t'.writes := by
    intro tid' u hu
    by_cases h : tid' = tid
    · subst h
      obtain rfl := Option.some.inj (ht.symm.trans hu)
      exact ⟨_, Function.update_self _ _ _, rfl, rfl⟩
    · exact ⟨u, (Function.update_of_ne h _ _).trans hu, rfl, rfl⟩
  refine { hc with
    owner := fun x hx => ?_, rootOwn := fun ht' r v hw => ?_, rootValue := fun r v hv hno => ?_,
    linked := fun c hcm r hw _ _ ht' hle => ?_, conflictFree := fun x hx t' ht' => ?_,
    ahead := ?_, activeUndo := fun ht' => ?_ }
  · rcases hc.owner x hx with h | ⟨u, hu, hux⟩
    · exact Or.inl h
    · obtain ⟨t', ht', h1, -⟩ := hnew hu
      exact Or.inr ⟨t', ht', h1 ▸ hux⟩
  · obtain ⟨u, hu, -, -, h⟩ := hold ht'
    exact hc.rootOwn hu r v (h ▸ hw)
  · refine hc.rootValue r v hv fun tid' u hu => ?_
    obtain ⟨t', ht', -, h⟩ := hnew hu
    rw [h]
    exact hno tid' t' ht'
  · obtain ⟨u, hu, h, -⟩ := hold ht'
    exact hc.linked c hcm r hw hu (h ▸ hle)
  · obtain ⟨u, hu, h, -⟩ := hold ht'
    rw [← h]
    exact hc.conflictFree x hx u hu
  · refine hc.ahead.imp fun h t' ht' => ?_
    obtain ⟨u, hu, h', -⟩ := hold ht'
    rw [← h']
    exact h u hu
  · obtain ⟨u, hu, -, h1, h2⟩ := hold ht'
    rw [← h1, ← h2]
    exact hc.activeUndo hu

theorem UpdateSegment.Shows.represents {seg : UpdateSegment α} (h : seg.Shows root nodes)
    (hx : x ∈ nodes) : ∃ r, seg.Represents ((r, root) :: nodes) := by
  rcases h with h | ⟨-, -, rfl⟩
  · exact h
  · simp at hx

theorem UpdateSegment.Represents.nodup {seg : UpdateSegment α}
    (h : seg.Represents ((r, root) :: nodes)) : (nodes.map Prod.fst).Nodup :=
  (List.nodup_cons.mp h.chain.nodup).2

/-- Commit stamps the info of the transaction, if it has one. -/
theorem ChainInv.shows_commit (hc : ChainInv n base s root nodes) (hrun : s.Ok)
    (ht : s.active tid = some t) (hs : s.segment.Shows root nodes) :
    (t.undo.foldl (fun seg a => seg.commitUpdate s.clock a) s.segment).Shows root
      (nodes.map (stamp tid s.clock)) := by
  rcases hc.activeUndo ht with ⟨hu, hnone⟩ | ⟨x, hx, hv, hu, -⟩
  · have hid : nodes.map (stamp tid s.clock) = nodes := by
      refine (List.map_congr_left fun x hx => ?_).trans (List.map_id nodes)
      have hne : x.2.versionNumber ≠ tid := by
        rintro rfl
        rw [(hc.node_writes hrun hx ht).1] at hu
        simp at hu
      rw [stamp, if_neg hne, id]
    rw [hu, hid]
    exact hs
  · obtain ⟨r, hr⟩ := hs.represents hx
    have hnd := hr.nodup
    have hmem : x.1 ∈ nodes.map Prod.fst := List.mem_map_of_mem hx
    have hra : r ≠ x.1 := fun h => (List.nodup_cons.mp hr.chain.nodup).1 (h ▸ hmem)
    have hmod := hr.modifyAt x.1 fun info => { info with versionNumber := s.clock }
    rw [Heap.modifyAt_cons_of_ne hra] at hmod
    have hstamp : Heap.modifyAt x.1 (fun info => { info with versionNumber := s.clock }) nodes =
        nodes.map (stamp tid s.clock) := by
      refine List.map_congr_left fun y hy => ?_
      by_cases h : y.1 = x.1
      · obtain rfl : y = x := List.inj_on_of_nodup_map hnd hy hx h
        rw [if_pos rfl, stamp, if_pos hv]
      · have hne : y.2.versionNumber ≠ tid := fun h' =>
          h (by rw [hc.eq_of_version hy hx (h'.trans hv.symm)])
        rw [if_neg h, stamp, if_neg hne]
    rw [hstamp] at hmod
    rw [hu]
    exact Or.inl ⟨r, hmod⟩

/-- Rollback puts the saved values back and unlinks the info, if there is one. -/
theorem ChainInv.rolledBack (hc : ChainInv n base s root nodes) (hrun : s.Ok)
    (ht : s.active tid = some t) (hs : s.segment.Shows root nodes) :
    ∃ root' nodes', (t.undo.reverse.foldl UpdateSegment.rollbackUpdate s.segment).Shows
        root' nodes' ∧
      ChainInv n base { s with active := Function.update s.active tid none } root' nodes' := by
  rcases hc.activeUndo ht with ⟨hu, hnone⟩ | ⟨x, hx, hv, hu, hiff⟩
  · refine ⟨root, nodes, by rw [hu]; exact hs, hc.rollback hrun ht (List.Sublist.refl _)
      (fun x hx _ => hx) ?_ hc.rootVersion hc.rootOk fun r => by rw [if_pos (hnone r)]⟩
    rintro x hx rfl
    rw [(hc.node_writes hrun hx ht).1] at hu
    simp at hu
  · obtain ⟨r, hr⟩ := hs.represents hx
    have hnd := hr.nodup
    have hroll := hr.rollbackUpdate hx
    obtain ⟨hkeys, hlook⟩ := rollbackValues_spec x.2.tuples root.tuples (hc.nodeOk x hx).sorted
      hc.rootOk.sorted (hc.rootCovers x hx)
    have hsorted : SortedKeys (rollbackValues root.tuples x.2.tuples) := by
      have h := hc.rootOk.sorted
      rw [SortedKeys, ← List.pairwise_map (f := Prod.fst) (R := (· < ·))] at h ⊢
      rwa [hkeys]
    refine ⟨{ root with tuples := rollbackValues root.tuples x.2.tuples },
      Heap.removeAt x.1 nodes, by rw [hu]; exact Or.inl ⟨r, hroll⟩,
      hc.rollback hrun ht List.filter_sublist ?_ ?_ hc.rootVersion ⟨hsorted, ?_, ?_⟩
        fun q => ?_⟩
    · intro y hy hne
      refine List.mem_filter.mpr ⟨hy, ?_⟩
      have hne' : y.1 ≠ x.1 := fun h =>
        hne (by rw [List.inj_on_of_nodup_map hnd hy hx h, hv])
      simpa using hne'
    · intro y hy hyv
      obtain ⟨hy', hne⟩ := List.mem_filter.mp hy
      rw [hc.eq_of_version hy' hx (hyv.trans hv.symm)] at hne
      simp at hne
    · intro y hy
      have hmem : y.1 ∈ root.tuples.map Prod.fst := hkeys ▸ List.mem_map_of_mem hy
      obtain ⟨z, hz, hzy⟩ := List.mem_map.mp hmem
      exact hzy ▸ hc.rootOk.inVector z hz
    · have hlen := congrArg List.length hkeys
      simp only [List.length_map] at hlen
      exact hlen ▸ hc.rootOk.fits
    · simp only [hlook q]
      by_cases hw : t.writes q = none
      · have hni : x.2.tuples.lookup q = none := by
          by_contra h
          exact (hiff q).mpr h hw
        rw [if_pos hw, hni, Option.none_or]
      · obtain ⟨v, hq⟩ := Option.ne_none_iff_exists'.mp ((hiff q).mp hw)
        have hbig : maxCommitId ≤ x.2.versionNumber := by
          have h1 := (hrun.ids ht).2.1
          have h2 := maxCommitId_lt
          omega
        rw [if_neg hw, hq, Option.some_or, hc.saved x hx q v hq,
          hrun.latestBelow_newest q hbig, UpdateRun.newestValue]

/-- Cleanup unlinks the info of the commit, if it is still linked. -/
theorem ChainInv.cleanedUp {commitId : Nat} (hc : ChainInv n base s root nodes) (hrun : s.Ok)
    (hs : s.segment.Shows root nodes)
    (hseen : ∀ tid t, s.active tid = some t → commitId < t.view.visibilityBound.value) :
    ∃ nodes', ((s.committedUndo commitId).foldl UpdateSegment.cleanupUpdate s.segment).Shows
        root nodes' ∧
      ChainInv n base { s with committedUndo := Function.update s.committedUndo commitId [] }
        root nodes' := by
  rcases hc.committedLinked commitId with hu | ⟨x, hx, hv, hu, -⟩
  · rw [hu]
    exact ⟨nodes, hs, hc.cleanup hrun (List.Sublist.refl _) (fun x hx _ => hx) hseen⟩
  · obtain ⟨r, hr⟩ := hs.represents hx
    rw [hu]
    refine ⟨_, Or.inl ⟨r, hr.cleanupUpdate (List.mem_map_of_mem hx)⟩,
      hc.cleanup hrun List.filter_sublist (fun y hy hne => ?_) hseen⟩
    refine List.mem_filter.mpr ⟨hy, ?_⟩
    have hne' : y.1 ≠ x.1 := fun h =>
      hne (by rw [List.inj_on_of_nodup_map hr.nodup hy hx h, hv])
    simpa using hne'

/-! ### Update -/

variable {rows : List (Nat × Option α)}

theorem mem_updateStatistics {x : Nat × α} (hx : x ∈ updateStatistics rows) :
    (x.1, some x.2) ∈ rows := by
  obtain ⟨y, hy, hyx⟩ := List.mem_filterMap.mp hx
  obtain ⟨v, hv, rfl⟩ := Option.map_eq_some_iff.mp hyx
  rw [← hv]
  exact hy

theorem UpdateRun.Ok.replace (hrun : s.Ok) (ht : s.active tid = some t) (t' : Updater α)
    (hview : t'.view = t.view) (segment : UpdateSegment α) : UpdateRun.Ok { s with
      segment := segment, active := Function.update s.active tid (some t') } := by
  refine { hrun with ids := fun {tid' u} hu => ?_ }
  rcases active_update_iff.mp hu with ⟨rfl, ⟨⟩⟩ | ⟨-, hu'⟩
  · rw [hview]
    exact hrun.ids ht
  · exact hrun.ids hu'

theorem UpdateRun.Ok.retire (hrun : s.Ok) (segment : UpdateSegment α) : UpdateRun.Ok { s with
      segment := segment, active := Function.update s.active tid none } := by
  refine { hrun with ids := fun {tid' u} hu => ?_ }
  rcases active_update_iff.mp hu with ⟨-, h⟩ | ⟨-, hu'⟩
  · exact absurd h (by simp)
  · exact hrun.ids hu'

theorem UpdateRun.Ok.start (hrun : s.Ok) (hclock : s.clock < transactionIdStart) :
    UpdateRun.Ok
      { s with
        active := Function.update s.active s.nextTransactionId (some
          ⟨⟨s.nextTransactionId, .before s.clock⟩, [], fun _ => none, fun _ => none⟩)
        clock := s.clock + 1
        nextTransactionId := s.nextTransactionId + 1 } := by
  refine ⟨fun c hc => ?_, hrun.newest, Nat.le_succ_of_le hrun.nextId, fun {tid t} ht => ?_⟩
  · exact ⟨Nat.lt_succ_of_lt (hrun.committed c hc).1, (hrun.committed c hc).2⟩
  · rcases active_update_iff.mp ht with ⟨rfl, ⟨⟩⟩ | ⟨-, ht'⟩
    · refine ⟨rfl, hrun.nextId, Nat.lt_succ_self _, Nat.le_succ _, ?_⟩
      exact Nat.le_sub_one_of_lt hclock
    · obtain ⟨h1, h2, h3, h4, h5⟩ := hrun.ids ht'
      exact ⟨h1, h2, Nat.lt_succ_of_lt h3, Nat.le_succ_of_le h4, h5⟩

theorem UpdateRun.Ok.commit (hrun : s.Ok) (hclock : s.clock < maxCommitId)
    (segment : UpdateSegment α) (undo : Nat → List Nat) (submitted : List (Commit Nat α)) :
    UpdateRun.Ok
      { s with
        segment := segment
        active := Function.update s.active tid none
        clock := s.clock + 1
        committedUndo := undo
        history := ⟨s.clock, t.writes⟩ :: s.history
        submittedHistory := submitted } := by
  refine ⟨fun c hc => ?_, ?_, hrun.nextId, fun {tid' u} hu => ?_⟩
  · rcases List.mem_cons.mp hc with rfl | hc'
    · exact ⟨Nat.lt_succ_self _, hclock⟩
    · exact ⟨Nat.lt_succ_of_lt (hrun.committed c hc').1, (hrun.committed c hc').2⟩
  · exact List.pairwise_cons.mpr ⟨fun c hc => (hrun.committed c hc).1, hrun.newest⟩
  · rcases active_update_iff.mp hu with ⟨-, h⟩ | ⟨-, hu'⟩
    · exact absurd h (by simp)
    · obtain ⟨h1, h2, h3, h4, h5⟩ := hrun.ids hu'
      exact ⟨h1, h2, h3, Nat.le_succ_of_le h4, h5⟩

theorem ChainInv.withSegment (hc : ChainInv n base s root nodes) (segment : UpdateSegment α) :
    ChainInv n base { s with segment := segment } root nodes := { hc with }

/-- The first rows of a transaction: its info is linked in front and filled. -/
theorem ChainInv.mergeFirst {a m : Nat} {saved newest : List (Nat × α)} (submitted : Nat → Option α)
    (hc : ChainInv n base s root nodes) (hrun : s.Ok) (ht : s.active tid = some t)
    (hnew : ∀ x ∈ nodes, x.2.versionNumber ≠ tid) (ha : a ∉ nodes.map Prod.fst)
    (hnd : (nodes.map Prod.fst).Nodup) (hus : SortedKeys update) (hun : ∀ x ∈ update, x.1 < n)
    (hsaved : IsMerge [] (update.map fun x => (x.1, (root.tuples.lookup x.1).getD (base.oldValue x.1))) saved)
    (hnewest : IsMerge update root.tuples newest)
    (hconf : ∀ x ∈ nodes, t.view.visibilityBound.value ≤ x.2.versionNumber → ∀ r, update.lookup r ≠ none → ¬ x.2.Has r)
    (hcap : min (root.tuples.length + update.length) n ≤ m) : ChainInv n base
      { s with active := Function.update s.active tid (some
          { t with
            undo := t.undo ++ [a], submitted := submitted, writes := record update t.writes }) }
      ⟨root.versionNumber, m, newest⟩ ((a, ⟨tid, n, saved⟩) :: nodes) := by
  obtain ⟨hundo, hlink⟩ := hc.link (a := a) hrun ht hnew
  have hm : Mergeable n base
      { s with active := Function.update s.active tid (some { t with undo := [a] }) } root
      ((a, ⟨tid, n, []⟩) :: nodes) tid a { t with undo := [a] } ⟨tid, n, []⟩ update saved
      newest := by
    refine ⟨List.nodup_cons.mpr ⟨ha, hnd⟩, Function.update_self _ _ _, List.mem_cons_self, rfl,
      hus, hun, hsaved, hnewest, fun x hx hne hle => ?_⟩
    rcases List.mem_cons.mp hx with rfl | hx'
    · exact absurd rfl hne
    · exact hconf x hx' hle
  have hrun' : UpdateRun.Ok
      { s with active := Function.update s.active tid (some { t with undo := [a] }) } :=
    hrun.replace ht { t with undo := [a] } rfl s.segment
  have hmerged := hlink.merge submitted hrun' hm hcap
  rw [Heap.modifyAt_cons_self ha] at hmerged
  simp only [Function.update_idem] at hmerged
  rw [hundo]
  exact hmerged

theorem not_has_of_sharesTuple {info : UpdateInfo α} (hus : SortedKeys update) (hok : info.Ok n)
    (h : sharesTuple update info.tuples = false) (hr : update.lookup r ≠ none) : ¬ info.Has r := by
  intro hi
  have hshare := (sharesTuple_iff hus info.tuples hok.sorted).mpr ⟨r, hr, hi⟩
  rw [h] at hshare
  exact absurd hshare (by simp)

variable [BEq α]

variable {sorted : List (Nat × α)}

/-- The rows an update stores are sorted and lie in the vector. -/
theorem effectiveUpdate_ok (base : BaseVector α) (seg : UpdateSegment α) (hn : ∀ x ∈ rows, x.1 < n)
    (hsort : IsSortOf sorted (updateStatistics rows)) :
    SortedKeys (seg.effectiveUpdate base sorted rows) ∧
      ∀ x ∈ seg.effectiveUpdate base sorted rows, x.1 < n := by
  obtain ⟨hs, hmem⟩ := sortSelectionVector_sorted hsort
  have hin : ∀ x ∈ sortSelectionVector sorted (updateStatistics rows), x.1 < n :=
    fun x hx => hn _ (mem_updateStatistics (hmem x hx))
  rw [UpdateSegment.effectiveUpdate]
  cases seg.root with
  | none => exact ⟨hs.filter _, fun x hx => hin x (List.mem_of_mem_filter hx)⟩
  | some r => exact ⟨hs, hin⟩

theorem ChainInv.updated {segment : UpdateSegment α} {created : Option Nat}
    (submitted : Nat → Option α) (hc : ChainInv n base s root nodes) (hrun : s.Ok)
    (hs : s.segment.Shows root nodes) (ht : s.active tid = some t) (hn : ∀ x ∈ rows, x.1 < n)
    (hsort : IsSortOf sorted (updateStatistics rows))
    (hu : s.segment.update n base t.view sorted rows = .ok (segment, created)) :
    ∃ root' nodes', segment.Shows root' nodes' ∧
      ChainInv n base
        { s with
          active := Function.update s.active tid (some
            { t with
              undo := t.undo ++ created.toList
              submitted := submitted
              writes := record (s.segment.effectiveUpdate base sorted rows) t.writes }) }
        root' nodes' := by
  obtain ⟨hus, hun⟩ := effectiveUpdate_ok base s.segment hn hsort
  rw [UpdateSegment.update] at hu
  generalize s.segment.effectiveUpdate base sorted rows = update at *
  obtain ⟨hid, -⟩ := hrun.ids ht
  cases update with
  | nil =>
      obtain ⟨rfl, rfl⟩ : s.segment = segment ∧ none = created := by simpa using hu
      have hsame := hc.submit submitted ht
      refine ⟨root, nodes, hs, ?_⟩
      rw [show record [] t.writes = t.writes from funext fun r => Option.none_or,
        Option.toList_none, List.append_nil]
      exact hsame
  | cons x update =>
      cases hroot : s.segment.root with
      | none =>
          -- the first rows that any transaction stores
          obtain ⟨hrt, rfl⟩ : root.tuples = [] ∧ nodes = [] := by
            rcases hs with ⟨r, hr⟩ | ⟨-, h⟩
            · rw [hr.root_eq] at hroot
              exact absurd hroot (by simp)
            · exact h
          simp only [hroot, Except.ok.injEq] at hu
          have hrep := s.segment.represents_createChain n base t.view (x :: update)
          rw [hu] at hrep
          have hcreated : created = some (s.segment.nextEntry + 1) := by
            exact (congrArg Prod.snd hu).symm
          rw [hid, ← hc.rootVersion] at hrep
          rw [hcreated]
          refine ⟨_, _, Or.inl ⟨_, hrep⟩, hc.mergeFirst submitted hrun ht (by simp) (by simp)
            (by simp) hus hun ⟨hus.mapValue fun x => base.oldValue x.1, fun r => ?_⟩
            ⟨hus, fun r => ?_⟩ (by simp) ?_⟩
          · simp [hrt]
          · simp [hrt]
          · rw [hrt, UpdateInfo.getCompactCapacity]
            have hle := Nat.le_pow_clog Nat.one_lt_two (x :: update).length
            have hlen := hus.length_le hun
            simp only [List.length_nil, Nat.zero_add]
            split <;> omega
      | some r₀ =>
          obtain ⟨r, hr⟩ : ∃ r, s.segment.Represents ((r, root) :: nodes) := by
            rcases hs with h | ⟨h, -⟩
            · exact h
            · obtain ⟨q, -, hq⟩ := h.chain.seg
              rw [hq] at hroot
              exact absurd hroot (by simp)
          obtain rfl : r = r₀ := Option.some.inj (hr.root_eq.symm.trans hroot)
          simp only [hroot] at hu
          obtain ⟨hconf, r', m, hm, hcase⟩ := hr.updateChain hu
          rw [hid] at hconf hcase
          have hfree : ∀ y ∈ nodes, y.2.versionNumber ≠ tid →
              t.view.visibilityBound.value ≤ y.2.versionNumber →
              ∀ q, (x :: update).lookup q ≠ none → ¬ y.2.Has q := fun y hy hne hle q hq =>
            not_has_of_sharesTuple hus (hc.nodeOk y hy) (hconf y hy hne hle) hq
          have hnewest := mergeNewValues_spec hus root.tuples hc.rootOk.sorted
          rcases hcase with ⟨rfl, a, info, ha, hv, hrep⟩ | ⟨a, rfl, hno, hrep⟩
          · have hsaved := mergeOldValues_spec base.oldValue hus info.tuples root.tuples
              (hc.nodeOk _ ha).sorted hc.rootOk.sorted
            have hmerged := hc.merge submitted hrun
              ⟨hr.nodup, ht, ha, hv, hus, hun, hsaved, hnewest, hfree⟩ hm
            rw [Option.toList_none, List.append_nil]
            exact ⟨_, _, Or.inl ⟨r', hrep⟩, hmerged⟩
          · have hsaved := mergeOldValues_spec base.oldValue hus [] root.tuples sortedKeys_nil
              hc.rootOk.sorted
            have hfresh := (List.nodup_cons.mp hrep.nodup).1
            exact ⟨_, _, Or.inl ⟨r', hrep⟩, hc.mergeFirst submitted hrun ht hno hfresh hr.nodup hus
              hun hsaved hnewest (fun y hy => hfree y hy (hno y hy)) hm⟩

/-! ## Runs -/

/-- An update either stores a row or skips it, and it skips only before any commit. -/
theorem UpdateInv.submit (hinv : UpdateInv n base s) (ht : s.active tid = some t)
    (hsort : IsSortOf sorted (updateStatistics rows)) (undo : List Nat) :
    Updater.Submitted base s.history
      { t with
        undo := undo
        submitted := record (sortSelectionVector sorted (updateStatistics rows)) t.submitted
        writes := record (s.segment.effectiveUpdate base sorted rows) t.writes } := by
  obtain ⟨root, nodes, hs, hc⟩ := hinv.chain
  have hsorted := (sortSelectionVector_sorted hsort).1
  intro r
  obtain ⟨hnone, hsome⟩ := hinv.submitted tid t ht r
  simp only [record, UpdateSegment.effectiveUpdate]
  generalize sortSelectionVector sorted (updateStatistics rows) = all at *
  cases hroot : s.segment.root with
  | some r₀ =>
      cases all.lookup r with
      | none =>
          simp only [Option.none_or]
          exact ⟨hnone, hsome⟩
      | some w => simp
  | none =>
      obtain ⟨hrt, rfl⟩ : root.tuples = [] ∧ nodes = [] := by
        rcases hs with ⟨r, hr⟩ | ⟨-, h⟩
        · rw [hr.root_eq] at hroot
          exact absurd hroot (by simp)
        · exact h
      have hclean : ∀ c ∈ s.history, c.writes r = none := by
        intro c hcm
        by_contra hw
        exact hc.rootHistory c hcm r hw (by simp [hrt])
      have hunwritten : t.writes r = none := by
        by_contra hw
        obtain ⟨x, hx, -⟩ := hc.writer_node ht hw
        simp at hx
      simp only [getEffectiveUpdates, lookup_filter _ hsorted, hunwritten, Option.or_none]
      cases all.lookup r with
      | none =>
          simp only [Option.none_or, Option.filter_none]
          exact ⟨fun _ => trivial, fun v hv => Or.inr ⟨trivial, by
            rcases hsome v hv with h | ⟨-, h, -⟩
            · rw [hunwritten] at h
              exact absurd h (by simp)
            · exact h, fun c hcm hw => absurd (hclean c hcm) hw⟩⟩
      | some w =>
          simp only [Option.some_or, reduceCtorEq, false_implies, true_and, Option.some_inj]
          rintro v rfl
          cases he : base.isEquivalent r w with
          | false => simp [Option.filter, he]
          | true =>
              right
              refine ⟨by simp [Option.filter, he], rfl, fun c hcm hw => ?_⟩
              exact absurd (hclean c hcm) hw

theorem UpdateInv.initial (h0 : s.Initial) : UpdateInv n base s := by
  refine ⟨⟨by simp [h0.history], by simp [h0.history, NewestFirst], h0.ids, fun ht => ?_⟩,
    ⟨⟨maxCommitId, 0, []⟩, [], Or.inr ⟨?_, rfl, rfl⟩, ?_⟩, fun tid t ht => ?_⟩
  · rw [h0.active] at ht
    exact absurd ht (by simp)
  · rw [h0.segment]
    exact UpdateSegment.represents_empty
  · refine
      { rootVersion := rfl, rootOk := ⟨sortedKeys_nil, by simp, by simp⟩, nodeOk := by simp
        nodeMax := by simp, versions := List.Pairwise.nil, owner := by simp
        order := List.Pairwise.nil, saved := by simp, rootCovers := by simp
        rootHistory := by simp [h0.history], rootOwn := fun ht => ?_, rootValue := by simp
        linked := by simp [h0.history], conflictFree := by simp, ahead := List.Pairwise.nil
        activeUndo := fun ht => ?_, committedLinked := fun c => Or.inl (h0.committedUndo c) }
    all_goals
      rw [h0.active] at ht
      exact absurd ht (by simp)
  · rw [h0.active] at ht
    exact absurd ht (by simp)

theorem UpdateInv.step {s' : UpdateRun α} {op : UpdateOp α} (hinv : UpdateInv n base s)
    (hstep : UpdateStep n base s op s') : UpdateInv n base s' := by
  obtain ⟨root, nodes, hs, hc⟩ := hinv.chain
  cases hstep with
  | start hclock =>
      refine ⟨hinv.run.start hclock, ⟨root, nodes, hs, hc.start hinv.run⟩, fun tid t ht => ?_⟩
      rcases active_update_iff.mp ht with ⟨-, ⟨⟩⟩ | ⟨-, ht'⟩
      · intro r
        simp
      · exact hinv.submitted tid t ht'
  | @update tid t sorted rows segment created ht hn hsort hu =>
      obtain ⟨root', nodes', hs', hc'⟩ := hc.updated
        (record (sortSelectionVector sorted (updateStatistics rows)) t.submitted) hinv.run hs ht
        hn hsort hu
      refine ⟨?_, ⟨root', nodes', hs', hc'.withSegment segment⟩, fun tid' t' ht' => ?_⟩
      · exact UpdateRun.Ok.replace hinv.run ht
          { t with
            undo := t.undo ++ created.toList
            submitted := record (sortSelectionVector sorted (updateStatistics rows)) t.submitted
            writes := record (s.segment.effectiveUpdate base sorted rows) t.writes }
          rfl segment
      rcases active_update_iff.mp ht' with ⟨-, ⟨⟩⟩ | ⟨-, ht''⟩
      · exact hinv.submit ht hsort _
      · exact hinv.submitted tid' t' ht''
  | updateThrows _ _ _ _ => exact hinv
  | @commit tid t ht hclock =>
      refine ⟨hinv.run.commit hclock _ _ _, ⟨root, _, hc.shows_commit hinv.run ht hs,
        (hc.commit hinv.run ht hclock).withSegment _⟩, fun tid' u hu r => ?_⟩
      rcases active_update_iff.mp hu with ⟨-, h⟩ | ⟨-, hu'⟩
      · exact absurd h (by simp)
      · obtain ⟨hnone, hsome⟩ := hinv.submitted tid' u hu' r
        refine ⟨hnone, fun v hv => ?_⟩
        rcases hsome v hv with h | ⟨h1, h2, h3⟩
        · exact Or.inl h
        · refine Or.inr ⟨h1, h2, fun c hcm hw => ?_⟩
          rcases List.mem_cons.mp hcm with rfl | hcm'
          · exact (hinv.run.ids hu').2.2.2.1
          · exact h3 c hcm' hw
  | @rollback tid t ht =>
      obtain ⟨root', nodes', hs', hc'⟩ := hc.rolledBack hinv.run ht hs
      refine ⟨hinv.run.retire _, ⟨root', nodes', hs', hc'.withSegment _⟩, fun tid' u hu => ?_⟩
      rcases active_update_iff.mp hu with ⟨-, h⟩ | ⟨-, hu'⟩
      · exact absurd h (by simp)
      · exact hinv.submitted tid' u hu'
  | @cleanup commitId hseen =>
      obtain ⟨nodes', hs', hc'⟩ := hc.cleanedUp hinv.run hs hseen
      exact ⟨{ hinv.run with }, ⟨root, nodes', hs', hc'.withSegment _⟩, hinv.submitted⟩

theorem updateInv_reachable (h : (updateLts n base).Reachable s) : UpdateInv n base s :=
  h.invariant (fun _ h0 => UpdateInv.initial h0) fun _ _ _ _ hinv hstep => hinv.step hstep

/-- What an active transaction reads from a row it did not store. -/
theorem UpdateInv.read_other (hinv : UpdateInv n base s) (ht : s.active tid = some t)
    (hw : t.writes r = none) {v : α} (hv : s.segment.fetchUpdates n base t.view r = v) :
    v = (latestBelow s.history t.view.visibilityBound.value r).getD (base.oldValue r) ∨
      (latestBelow s.history t.view.visibilityBound.value r = none ∧ v = base.data r) := by
  obtain ⟨root, nodes, hs, hc⟩ := hinv.chain
  rcases hs with ⟨a, ha⟩ | ⟨hr, hrt, rfl⟩
  · rw [UpdateSegment.fetchUpdates, ha.root_eq] at hv
    simp only at hv
    rw [← ha.root_eq, ha.infosFrom_root] at hv
    exact hc.read_other hinv.run ht hw hv
  · obtain ⟨q, -, hroot⟩ := hr.chain.seg
    rw [UpdateSegment.fetchUpdates, hroot] at hv
    refine Or.inr ⟨latestBelow_eq_none fun c hcm _ => ?_, hv.symm⟩
    by_contra hw
    exact hc.rootHistory c hcm r hw (by simp [hrt])

theorem UpdateInv.read_own (hinv : UpdateInv n base s) (ht : s.active tid = some t) {v : α}
    (hw : t.writes r = some v) : s.segment.fetchUpdates n base t.view r = v := by
  obtain ⟨root, nodes, hs, hc⟩ := hinv.chain
  obtain ⟨x, hx, -⟩ := hc.writer_node ht (r := r) (by simp [hw])
  obtain ⟨a, ha⟩ := hs.represents hx
  rw [UpdateSegment.fetchUpdates, ha.root_eq]
  simp only
  rw [← ha.root_eq, ha.infosFrom_root]
  exact hc.read_own hinv.run ht hw

end

/-- What a snapshot has in a row: the value of the commit with the largest id below the bound
that stored one, else the base value. Where the base row is NULL, the slot may hold the padding
instead. -/
def BaseVector.SnapshotValue (base : BaseVector α) (history : List (Commit Nat α))
    (bound r : Nat) (value : α) : Prop :=
  ∃ o, IsLatestBelow history bound r o ∧ (∀ v, o = some v → value = v) ∧
    (o = none → value = base.data r ∨ (base.rowIsValid r = false ∧ value = base.padding))

/-- What `FetchUpdates` gives an active transaction for a row, in every reachable state. A row
that it wrote reads as its last value (or, where that value was skipped as equivalent to the
base value, as the base value). Any other row has its snapshot value. -/
theorem fetch_reads_snapshot [BEq α] {n : Nat} {base : BaseVector α} {s : UpdateRun α}
    (h : (updateLts n base).Reachable s) {tid : Nat} {t : Updater α}
    (ht : s.active tid = some t) (r : Nat) :
    (∀ v, t.submitted r = some v →
      s.segment.fetchUpdates n base t.view r = v ∨
        (base.isEquivalent r v = true ∧
          s.segment.fetchUpdates n base t.view r = base.data r)) ∧
    (t.submitted r = none →
      base.SnapshotValue s.history t.view.visibilityBound.value r
        (s.segment.fetchUpdates n base t.view r)) := by
  have hinv := updateInv_reachable h
  obtain ⟨hnone, hsome⟩ := hinv.submitted tid t ht r
  have holdValue : base.rowIsValid r = true → base.oldValue r = base.data r := fun hv => by
    rw [BaseVector.oldValue, if_pos hv]
  refine ⟨fun v hv => ?_, fun hv => ?_⟩
  · rcases hsome v hv with hw | ⟨hw, heq, hlate⟩
    · exact Or.inl (hinv.read_own ht hw)
    · have hvalid : base.rowIsValid r = true := by
        rw [BaseVector.isEquivalent, Bool.and_eq_true] at heq
        exact heq.1
      have hempty : latestBelow s.history t.view.visibilityBound.value r = none := by
        refine latestBelow_eq_none fun c hcm hlt => ?_
        by_contra hcw
        exact absurd (hlate c hcm hcw) (Nat.not_le.mpr hlt)
      refine Or.inr ⟨heq, ?_⟩
      rcases hinv.read_other ht hw rfl with hr | ⟨-, hr⟩
      · rw [hr, hempty, Option.getD_none, holdValue hvalid]
      · exact hr
  · refine ⟨_, latestBelow_spec hinv.run.newest, fun v hl => ?_, fun hl => ?_⟩
    · rcases hinv.read_other ht (hnone hv) rfl with hr | ⟨hempty, -⟩
      · rw [hr, hl, Option.getD_some]
      · rw [hl] at hempty
        exact absurd hempty (by simp)
    · rcases hinv.read_other ht (hnone hv) rfl with hr | ⟨-, hr⟩
      · rw [hr, hl, Option.getD_none]
        cases hvalid : base.rowIsValid r with
        | true => exact Or.inl (holdValue hvalid)
        | false =>
            refine Or.inr ⟨rfl, ?_⟩
            rw [BaseVector.oldValue, if_neg (by simp [hvalid])]
      · exact Or.inl hr

/-! ## Two runs -/

def zeroVector : BaseVector Nat := ⟨fun _ => 0, fun _ => true, 0, false⟩

def UpdateRun.fresh : UpdateRun Nat :=
  ⟨UpdateSegment.empty, fun _ => none, 2, transactionIdStart, fun _ => [], [], []⟩

theorem UpdateRun.fresh_reachable : (updateLts 4 zeroVector).Reachable UpdateRun.fresh :=
  .init ⟨rfl, fun _ => rfl, fun _ => rfl, rfl, rfl, le_rfl⟩

theorem UpdateStep.reachable [BEq α] {n : Nat} {base : BaseVector α} {s s' : UpdateRun α}
    {op : UpdateOp α} (h : (updateLts n base).Reachable s) (hs : UpdateStep n base s op s') :
    (updateLts n base).Reachable s' := h.step hs

theorem isSortOf_single (x : Nat × α) : IsSortOf [x] [x] :=
  ⟨List.Perm.refl _, List.pairwise_singleton _ _⟩

theorem writes_one [BEq α] {n : Nat} {base : BaseVector α} {s : UpdateRun α} (tid r : Nat) (v : α)
    {t : Updater α} {segment : UpdateSegment α} {created : Option Nat}
    (ht : s.active tid = some t) (hr : r < n)
    (hu : s.segment.update n base t.view [(r, v)] [(r, some v)] = .ok (segment, created)) :
    UpdateStep n base s (.update tid [(r, some v)])
      { s with
        segment := segment
        active := Function.update s.active tid (some
          { t with
            undo := t.undo ++ created.toList
            submitted := record (sortSelectionVector [(r, v)] [(r, v)]) t.submitted
            writes := record (s.segment.effectiveUpdate base [(r, v)] [(r, some v)])
              t.writes }) } :=
  .update ht (by simpa using hr) (isSortOf_single (r, v)) hu

/-- One transaction wrote row `0` and is still active, a second one has begun: the first reads
its own value, the second the base value. -/
theorem fetch_reads_snapshot_two :
    ∃ (s : UpdateRun Nat) (t u : Updater Nat), (updateLts 4 zeroVector).Reachable s ∧
      s.active transactionIdStart = some t ∧ s.active (transactionIdStart + 1) = some u ∧
      t.submitted 0 = some 7 ∧ u.submitted 0 = none ∧
      (s.segment.fetchUpdates 4 zeroVector t.view 0 = 7 ∨
        (zeroVector.isEquivalent 0 7 = true ∧
          s.segment.fetchUpdates 4 zeroVector t.view 0 = zeroVector.data 0)) ∧
      zeroVector.SnapshotValue s.history u.view.visibilityBound.value 0
        (s.segment.fetchUpdates 4 zeroVector u.view 0) := by
  have h1 := UpdateStep.reachable UpdateRun.fresh_reachable (.start (by decide))
  have h2 := UpdateStep.reachable h1 (writes_one transactionIdStart 0 7 rfl (by decide) rfl)
  have h3 := UpdateStep.reachable h2 (.start (by decide))
  refine ⟨_, _, _, h3, rfl, rfl, ?_, ?_, ?_, ?_⟩
  · rfl
  · rfl
  · exact (@fetch_reads_snapshot Nat _ _ _ _ h3 transactionIdStart _ rfl 0).1 7 rfl
  · exact (@fetch_reads_snapshot Nat _ _ _ _ h3 (transactionIdStart + 1) _ rfl 0).2 rfl

/-- The first transaction writes the base value `0` into row `0`, which stores nothing. The
second writes `7` and commits with id `4`, then the first commits with id `5`. A reader that
sees both commits reads `7`, not the `0` of the later one. -/
theorem equivalent_write_overtaken :
    ∃ (s : UpdateRun Nat) (tid : Nat) (t : Updater Nat),
      (updateLts 4 zeroVector).Reachable s ∧ s.active tid = some t ∧ t.submitted 0 = none ∧
      IsLatestBelow s.submittedHistory t.view.visibilityBound.value 0 (some 0) ∧
      s.segment.fetchUpdates 4 zeroVector t.view 0 = 7 := by
  have h1 := UpdateStep.reachable UpdateRun.fresh_reachable (.start (by decide))
  have h2 := UpdateStep.reachable h1 (.start (by decide))
  have h3 := UpdateStep.reachable h2 (writes_one transactionIdStart 0 0 rfl (by decide) rfl)
  have h4 := UpdateStep.reachable h3 (writes_one (transactionIdStart + 1) 0 7 rfl (by decide) rfl)
  have h5 := UpdateStep.reachable h4
    (@UpdateStep.commit Nat _ _ _ _ (transactionIdStart + 1) _ rfl (by decide))
  have h6 := UpdateStep.reachable h5
    (@UpdateStep.commit Nat _ _ _ _ transactionIdStart _ rfl (by decide))
  have h7 := UpdateStep.reachable h6 (.start (by decide))
  refine ⟨_, transactionIdStart + 2, _, h7, rfl, rfl, ?_, rfl⟩
  exact latestBelow_spec (List.pairwise_pair.mpr (by decide))

end MiniDuck
