import MiniDuck.LinkedCells
import MiniDuck.SortedKeys
import MiniDuck.Transaction

/-!
# The update chain of one vector

`UpdateSegment` for one vector of a column. The root info holds the
newest value of every updated row. Behind it hang the infos of the
transactions, newest first; each stores the values that its transaction
replaced. A reader starts from the base vector, takes over the root, and
then goes down the chain putting back the old values of every
transaction it does not see (`fetchUpdates`).

The infos live in a heap of doubly linked cells, so that linking,
unlinking and moving the root are the pointer writes of the source.
Row ids are offsets within the vector. The two arrays of an info (the
tuples and their values) are one list of pairs; that an info never
outgrows the space it was allocated with is part of `UpdateInfo.Ok`.
-/

namespace MiniDuck

/-- What the table stores for a vector: values, the validity mask, and the value written in
place of a NULL (`GetUpdateNullPadding`). A vector of a validity column (`PhysicalType::BIT`)
has the mask as its values and no mask of its own. -/
structure BaseVector (α : Type) where
  data : Nat → α
  valid : Nat → Bool
  padding : α
  bit : Bool

/-- `UpdateInfo`: version, allocated capacity, and the updated rows with their values. -/
structure UpdateInfo (α : Type) where
  versionNumber : Nat
  max : Nat
  tuples : List (Nat × α)
  deriving Repr, DecidableEq

/-- The infos of one vector, the next free entry, and the root pointer. -/
structure UpdateSegment (α : Type) where
  heap : Heap Nat (UpdateInfo α)
  nextEntry : Nat
  root : Option Nat

variable {α : Type}

namespace BaseVector

def rowIsValid (base : BaseVector α) (r : Nat) : Bool := base.bit || base.valid r

/-- The value an update saves for a row that no update has touched yet. -/
def oldValue (base : BaseVector α) (r : Nat) : α :=
  if base.rowIsValid r then base.data r else base.padding

/-- The write leaves the row as the base vector has it. -/
def isEquivalent [BEq α] (base : BaseVector α) (r : Nat) (v : α) : Bool :=
  base.rowIsValid r && v == base.data r

end BaseVector

namespace UpdateInfo

def getCompactCapacity (n count : Nat) : Nat :=
  if count ≤ 8 then 8 else min (2 ^ Nat.clog 2 count) n

def appliesToTransaction (info : UpdateInfo α) (view : SnapshotView) : Bool :=
  if info.versionNumber = maxCommitId then true else !view.sees info.versionNumber

def Has (info : UpdateInfo α) (r : Nat) : Prop := info.tuples.lookup r ≠ none

instance (info : UpdateInfo α) (r : Nat) : Decidable (info.Has r) :=
  inferInstanceAs (Decidable (¬ _ = none))

/-- `Verify`, and that the tuples fit the allocation. -/
structure Ok (n : Nat) (info : UpdateInfo α) : Prop where
  sorted : SortedKeys info.tuples
  inVector : ∀ x ∈ info.tuples, x.1 < n
  fits : info.tuples.length ≤ info.max

end UpdateInfo

/-! ## Preparing an update -/

/-- The NULL filter of the statistics function: the mask is updated by the validity column. -/
def updateStatistics (update : List (Nat × Option α)) : List (Nat × α) :=
  update.filterMap fun x => x.2.map fun v => (x.1, v)

/-- The loop that keeps the first of several equal row ids. -/
def eliminateDuplicates : List (Nat × α) → List (Nat × α)
  | [] => []
  | x :: l => x :: go x.1 l
where
  go (prev : Nat) : List (Nat × α) → List (Nat × α)
    | [] => []
    | y :: l => if prev ≠ y.1 then y :: go y.1 l else go prev l

/-- `SortSelectionVector`. `sorted` is what `std::sort` makes of the rows, in whatever order it
leaves equal row ids. -/
def sortSelectionVector (sorted update : List (Nat × α)) : List (Nat × α) :=
  if SortedKeys update then update else eliminateDuplicates sorted

/-- `sorted` is a possible outcome of sorting the update by row id. -/
structure IsSortOf (sorted update : List (Nat × α)) : Prop where
  perm : sorted.Perm update
  ordered : sorted.Pairwise fun x y => x.1 ≤ y.1

def getEffectiveUpdates [BEq α] (base : BaseVector α) (update : List (Nat × α)) :
    List (Nat × α) :=
  update.filter fun x => !base.isEquivalent x.1 x.2

/-! ## The merge loops -/

/-- The merge join of `CheckForConflicts` over the rows of the update and of an info. -/
def sharesTuple : List (Nat × α) → List (Nat × α) → Bool
  | [], _ => false
  | x :: ids, tuples => go x.1 (sharesTuple ids) tuples
where
  go (id : Nat) (nextId : List (Nat × α) → Bool) : List (Nat × α) → Bool
    | [] => false
    | y :: tuples =>
        if id = y.1 then true
        else if id < y.1 then nextId (y :: tuples)
        else go id nextId tuples

/-- `MergeLoop`, where the new value wins over the old one of the same row. -/
def mergeNewValues : List (Nat × α) → List (Nat × α) → List (Nat × α)
  | [], old => old
  | x :: new, old => go x (mergeNewValues new) old
where
  go (x : Nat × α) (nextNew : List (Nat × α) → List (Nat × α)) :
      List (Nat × α) → List (Nat × α)
    | [] => x :: nextNew []
    | y :: old =>
        if x.1 = y.1 then x :: nextNew old
        else if x.1 < y.1 then x :: nextNew (y :: old)
        else y :: go x nextNew old

/-- The value that the root, read from the row on, or else the base vector has for it. -/
def currentValue (oldValue : Nat → α) (id : Nat) : List (Nat × α) → α
  | [] => oldValue id
  | (k, v) :: _ => if k = id then v else oldValue id

/-- The first half of `MergeUpdateLoopInternal`: the values that the info of the transaction
must save. Rows it has already are kept, the others come from the root or the base vector. -/
def mergeOldValues (oldValue : Nat → α) :
    List (Nat × α) → List (Nat × α) → List (Nat × α) → List (Nat × α)
  | [], info, _ => info
  | (id, _) :: update, info, root =>
      let before := info.takeWhile fun x => decide (x.1 < id)
      let info := info.dropWhile fun x => decide (x.1 < id)
      if info.head?.map Prod.fst = some id then
        before ++ info.take 1 ++ mergeOldValues oldValue update (info.drop 1) root
      else
        let root := root.dropWhile fun x => decide (x.1 < id)
        before ++ (id, currentValue oldValue id root) :: mergeOldValues oldValue update info root

/-- The loop of `RollbackUpdate`: the saved values go back into the root. -/
def rollbackValues : List (Nat × α) → List (Nat × α) → List (Nat × α)
  | root, [] => root
  | root, (id, v) :: info =>
      match root.dropWhile fun x => decide (x.1 < id) with
      | [] => root
      | (k, _) :: rest =>
          root.takeWhile (fun x => decide (x.1 < id)) ++ rollbackValues ((k, v) :: rest) info

/-- `MergeValidityInfo`, and `MergeUpdateInfo` outside its special case. -/
def mergeTuples (tuples : List (Nat × α)) (result : Nat → α) : Nat → α :=
  tuples.foldl (fun res x => Function.update res x.1 x.2) result

/-- `MergeUpdateInfo`: an info with all rows of the vector is copied without its tuples. -/
def mergeUpdateInfo (n : Nat) (bit : Bool) (tuples : List (Nat × α)) (result : Nat → α) :
    Nat → α :=
  if bit = false ∧ tuples.length = n then fun i => ((tuples[i]?).map Prod.snd).getD (result i)
  else mergeTuples tuples result

/-! ## The operations on the chain -/

namespace UpdateSegment

def empty : UpdateSegment α := ⟨fun _ => none, 0, none⟩

def infosFrom (seg : UpdateSegment α) (p : Option Nat) : List (Nat × UpdateInfo α) :=
  seg.heap.toList seg.nextEntry p

/-- `UpdatesForTransaction` with `MergeUpdateInfo` as callback. -/
def updatesForTransaction (n : Nat) (bit : Bool) (view : SnapshotView)
    (infos : List (Nat × UpdateInfo α)) (result : Nat → α) : Nat → α :=
  infos.foldl (fun res x =>
    if x.2.appliesToTransaction view then mergeUpdateInfo n bit x.2.tuples res else res) result

/-- `FetchUpdates`, applied to the base vector. -/
def fetchUpdates (seg : UpdateSegment α) (n : Nat) (base : BaseVector α) (view : SnapshotView) :
    Nat → α :=
  match seg.root with
  | none => base.data
  | some root => updatesForTransaction n base.bit view (seg.infosFrom (some root)) base.data

/-- `CheckForConflicts`: the info of this transaction, or a conflict. -/
def checkForConflicts (view : SnapshotView) (update : List (Nat × α)) :
    List (Nat × UpdateInfo α) → Option Nat → Except String (Option Nat)
  | [], node => .ok node
  | (a, info) :: infos, node =>
      if info.versionNumber = view.transactionId then checkForConflicts view update infos (some a)
      else if view.visibilityBound.value ≤ info.versionNumber ∧
          sharesTuple update info.tuples = true then
        .error "Conflict on update!"
      else checkForConflicts view update infos node

/-- `ReallocateRootInfoIfNeeded`: the segment and where the root is afterwards. -/
def reallocateRootInfoIfNeeded (seg : UpdateSegment α) (n root count : Nat) :
    UpdateSegment α × Nat :=
  match seg.heap root with
  | none => (seg, root)
  | some c =>
      let required := min (c.val.tuples.length + count) n
      if required ≤ c.val.max then (seg, root)
      else
        let grow (info : UpdateInfo α) : UpdateInfo α :=
          { info with max := UpdateInfo.getCompactCapacity n required }
        (⟨seg.heap.relocateHead root seg.nextEntry grow, seg.nextEntry + 1, some seg.nextEntry⟩,
          seg.nextEntry)

/-- `CreateUpdateInfo`, and the insertion of the empty info behind the root. -/
def insertNode (seg : UpdateSegment α) (n root transactionId : Nat) : UpdateSegment α :=
  { seg with
    heap := seg.heap.insertAfter root seg.nextEntry ⟨transactionId, n, []⟩
    nextEntry := seg.nextEntry + 1 }

def tuplesAt (seg : UpdateSegment α) (a : Nat) : List (Nat × α) :=
  match seg.heap a with
  | none => []
  | some c => c.val.tuples

def setTuples (seg : UpdateSegment α) (a : Nat) (tuples : List (Nat × α)) : UpdateSegment α :=
  { seg with heap := seg.heap.modifyVal a fun info => { info with tuples := tuples } }

def mergeUpdate (seg : UpdateSegment α) (base : BaseVector α) (update : List (Nat × α))
    (root node : Nat) : UpdateSegment α :=
  let saved := mergeOldValues base.oldValue update (seg.tuplesAt node) (seg.tuplesAt root)
  let newest := mergeNewValues update (seg.tuplesAt root)
  (seg.setTuples node saved).setTuples root newest

/-- The branch of `Update` for a vector that has a chain, with the new undo entry if any. -/
def updateChain (seg : UpdateSegment α) (n : Nat) (base : BaseVector α) (view : SnapshotView)
    (update : List (Nat × α)) (root : Nat) : Except String (UpdateSegment α × Option Nat) := do
  let next := (seg.heap root).bind Cell.next
  let found ← checkForConflicts view update (seg.infosFrom next) none
  let moved := seg.reallocateRootInfoIfNeeded n root update.length
  match found with
  | some node => .ok (moved.1.mergeUpdate base update moved.2 node, none)
  | none =>
      let node := moved.1.nextEntry
      let linked := moved.1.insertNode n moved.2 view.transactionId
      .ok (linked.mergeUpdate base update moved.2 node, some node)

/-- The branch of `Update` that creates the root: the new values go into the root, the base
values into the info of the transaction. -/
def createChain (seg : UpdateSegment α) (n : Nat) (base : BaseVector α) (view : SnapshotView)
    (update : List (Nat × α)) : UpdateSegment α × Option Nat :=
  let handle := seg.nextEntry
  let node := seg.nextEntry + 1
  let root : UpdateInfo α :=
    ⟨maxCommitId, UpdateInfo.getCompactCapacity n update.length, update⟩
  let info : UpdateInfo α :=
    ⟨view.transactionId, n, update.map fun x => (x.1, base.oldValue x.1)⟩
  (⟨(seg.heap.alloc handle ⟨none, some node, root⟩).alloc node ⟨some handle, none, info⟩,
    seg.nextEntry + 2, some handle⟩, some node)

/-- The rows and values that a call of `Update` goes on to store. -/
def effectiveUpdate [BEq α] (seg : UpdateSegment α) (base : BaseVector α)
    (sorted : List (Nat × α)) (update : List (Nat × Option α)) : List (Nat × α) :=
  let rows := sortSelectionVector sorted (updateStatistics update)
  match seg.root with
  | none => getEffectiveUpdates base rows
  | some _ => rows

/-- `Update`: the segment afterwards and the undo entry it created, if any. -/
def update [BEq α] (seg : UpdateSegment α) (n : Nat) (base : BaseVector α) (view : SnapshotView)
    (sorted : List (Nat × α)) (update : List (Nat × Option α)) :
    Except String (UpdateSegment α × Option Nat) :=
  match seg.effectiveUpdate base sorted update, seg.root with
  | [], _ => .ok (seg, none)
  | x :: rows, none => .ok (seg.createChain n base view (x :: rows))
  | x :: rows, some root => seg.updateChain n base view (x :: rows) root

def commitUpdate (seg : UpdateSegment α) (commitId a : Nat) : UpdateSegment α :=
  { seg with heap := seg.heap.modifyVal a fun info => { info with versionNumber := commitId } }

def cleanupUpdate (seg : UpdateSegment α) (a : Nat) : UpdateSegment α :=
  { seg with heap := seg.heap.unlink a }

/-- `RollbackUpdate`. An info without a predecessor was never linked. -/
def rollbackUpdate (seg : UpdateSegment α) (a : Nat) : UpdateSegment α :=
  match (seg.heap a).bind Cell.prev, seg.root with
  | none, _ => seg
  | some _, none => seg
  | some _, some root =>
      (seg.setTuples root (rollbackValues (seg.tuplesAt root) (seg.tuplesAt a))).cleanupUpdate a

end UpdateSegment

/-! ## What the loops compute -/

theorem mergeTuples_apply : {tuples : List (Nat × α)} → SortedKeys tuples → (result : Nat → α) →
    (r : Nat) → mergeTuples tuples result r = (tuples.lookup r).getD (result r)
  | [], _, result, r => rfl
  | (k, v) :: tuples, hs, result, r => by
      rw [sortedKeys_cons] at hs
      have ih := mergeTuples_apply hs.2 (Function.update result k v) r
      rw [mergeTuples, List.foldl_cons]
      rw [mergeTuples] at ih
      rw [ih, lookup_cons_ite]
      by_cases hr : r = k
      · have hnone : tuples.lookup r = none :=
          lookup_eq_none fun x hx => hr ▸ (hs.1 x hx).ne'
        simp [hr ▸ hnone, hr]
      · simp [hr]

/-- An info with all rows of the vector has the tuples `0, 1, 2, ..`. -/
theorem tuples_eq_range {n : Nat} {tuples : List (Nat × α)} (hs : SortedKeys tuples)
    (hn : ∀ x ∈ tuples, x.1 < n) (hlen : tuples.length = n) :
    tuples.map Prod.fst = List.range n := by
  have hsub : tuples.map Prod.fst ⊆ List.range n := by
    intro r hr
    obtain ⟨x, hx, rfl⟩ := List.mem_map.mp hr
    exact List.mem_range.mpr (hn x hx)
  have hperm : (tuples.map Prod.fst).Perm (List.range n) :=
    (List.subperm_of_subset hs.nodup hsub).perm_of_length_le (by simp [hlen])
  have h1 : (tuples.map Prod.fst).Pairwise (· ≤ ·) :=
    List.pairwise_map.mpr (hs.imp fun hlt => hlt.le)
  have h2 : (List.range n).Pairwise (· ≤ ·) :=
    List.pairwise_lt_range.imp fun hlt => Nat.le_of_lt hlt
  exact hperm.eq_of_pairwise (fun a b _ _ hab hba => Nat.le_antisymm hab hba) h1 h2

theorem mergeUpdateInfo_apply {n : Nat} {info : UpdateInfo α} (hok : info.Ok n) (bit : Bool)
    (result : Nat → α) (r : Nat) :
    mergeUpdateInfo n bit info.tuples result r = (info.tuples.lookup r).getD (result r) := by
  rw [mergeUpdateInfo]
  split
  · next hfull =>
      have hrange := tuples_eq_range hok.sorted hok.inVector hfull.2
      cases hx : info.tuples[r]? with
      | none =>
          have hle : n ≤ r := by simpa [hfull.2] using hx
          have hnone : info.tuples.lookup r = none :=
            lookup_eq_none fun x hx' => (Nat.lt_of_lt_of_le (hok.inVector x hx') hle).ne
          simp [hnone, hx]
      | some x =>
          have hkey : x.1 = r := by
            have hr := congrArg (·[r]?) hrange
            simp only [List.getElem?_map, hx, Option.map_some] at hr
            obtain ⟨h', hr'⟩ := List.getElem?_eq_some_iff.mp hr.symm
            simpa using hr'.symm
          have hmem : (r, x.2) ∈ info.tuples := hkey ▸ List.mem_of_getElem? hx
          simp [lookup_eq_some hok.sorted hmem, hx]
  · exact mergeTuples_apply hok.sorted result r

/-! ### Sorting -/

theorem eliminateDuplicates_go {prev : Nat} : {l : List (Nat × α)} →
    l.Pairwise (fun x y => x.1 ≤ y.1) → (∀ x ∈ l, prev ≤ x.1) →
    SortedKeys (eliminateDuplicates.go prev l) ∧
      ∀ x ∈ eliminateDuplicates.go prev l, prev < x.1 ∧ x ∈ l
  | [], _, _ => ⟨sortedKeys_nil, by simp [eliminateDuplicates.go]⟩
  | y :: l, hs, hp => by
      obtain ⟨hy, hs⟩ := List.pairwise_cons.mp hs
      rw [eliminateDuplicates.go]
      split
      · next hne =>
          obtain ⟨ih, hmem⟩ := eliminateDuplicates_go hs hy
          have hlt : prev < y.1 := lt_of_le_of_ne (hp y (by simp)) hne
          refine ⟨List.pairwise_cons.mpr ⟨fun x hx => (hmem x hx).1, ih⟩, fun x hx => ?_⟩
          rcases List.mem_cons.mp hx with rfl | hx'
          · exact ⟨hlt, by simp⟩
          · exact ⟨hlt.trans (hmem x hx').1, by simp [(hmem x hx').2]⟩
      · obtain ⟨ih, hmem⟩ := eliminateDuplicates_go hs fun x hx => hp x (by simp [hx])
        exact ⟨ih, fun x hx => ⟨(hmem x hx).1, by simp [(hmem x hx).2]⟩⟩

theorem eliminateDuplicates_sorted {l : List (Nat × α)}
    (hs : l.Pairwise fun x y => x.1 ≤ y.1) :
    SortedKeys (eliminateDuplicates l) ∧ ∀ x ∈ eliminateDuplicates l, x ∈ l := by
  cases l with
  | nil => exact ⟨sortedKeys_nil, by simp [eliminateDuplicates]⟩
  | cons y l =>
      obtain ⟨hy, hs⟩ := List.pairwise_cons.mp hs
      obtain ⟨ih, hmem⟩ := eliminateDuplicates_go hs hy
      refine ⟨List.pairwise_cons.mpr ⟨fun x hx => (hmem x hx).1, ih⟩, fun x hx => ?_⟩
      rcases List.mem_cons.mp hx with rfl | hx'
      · simp
      · simp [(hmem x hx').2]

theorem sortSelectionVector_sorted {sorted update : List (Nat × α)} (h : IsSortOf sorted update) :
    SortedKeys (sortSelectionVector sorted update) ∧
      ∀ x ∈ sortSelectionVector sorted update, x ∈ update := by
  rw [sortSelectionVector]
  split
  · next hs => exact ⟨hs, fun x hx => hx⟩
  · obtain ⟨hs, hmem⟩ := eliminateDuplicates_sorted h.ordered
    exact ⟨hs, fun x hx => h.perm.mem_iff.mp (hmem x hx)⟩

/-! ### Conflicts -/

theorem sharesTuple_go_iff {id : Nat} {f : List (Nat × α) → Bool} {ids : List (Nat × α)}
    (hids : ∀ x ∈ ids, id < x.1)
    (hf : ∀ l, SortedKeys l → (f l = true ↔ ∃ r, ids.lookup r ≠ none ∧ l.lookup r ≠ none)) :
    {tuples : List (Nat × α)} → SortedKeys tuples →
    (sharesTuple.go id f tuples = true ↔
      ∃ r, (r = id ∨ ids.lookup r ≠ none) ∧ tuples.lookup r ≠ none)
  | [], _ => by simp [sharesTuple.go]
  | (k, v) :: tuples, hs => by
      rw [sharesTuple.go]
      obtain ⟨hk, hs'⟩ := sortedKeys_cons.mp hs
      split
      · next hid =>
          simp only [true_iff]
          exact ⟨id, Or.inl rfl, by simp [hid]⟩
      · next hne =>
          split
          · next hlt =>
              -- `id` lies before all tuples, so only the later ids matter
              rw [hf _ hs]
              refine ⟨fun ⟨r, h1, h2⟩ => ⟨r, Or.inr h1, h2⟩, ?_⟩
              rintro ⟨r, rfl | h1, h2⟩
              · refine absurd (lookup_eq_none fun x hx => ?_) h2
                rcases List.mem_cons.mp hx with rfl | hx'
                · exact Ne.symm hne
                · exact (hlt.trans (hk x hx')).ne'
              · exact ⟨r, h1, h2⟩
          · next hge =>
              have hki : k < id := lt_of_le_of_ne (Nat.not_lt.mp hge) (Ne.symm hne)
              rw [sharesTuple_go_iff hids hf hs']
              have hrk : ∀ r, r = id ∨ ids.lookup r ≠ none → r ≠ k := by
                rintro r (rfl | h1)
                · exact hki.ne'
                · obtain ⟨w, hw⟩ := Option.ne_none_iff_exists'.mp h1
                  exact (hki.trans (hids _ (mem_of_lookup hw))).ne'
              refine exists_congr fun r => and_congr_right fun hr => ?_
              rw [lookup_cons_ite, if_neg (hrk r hr)]

theorem sharesTuple_iff : {ids : List (Nat × α)} → SortedKeys ids →
    (tuples : List (Nat × α)) → SortedKeys tuples →
    (sharesTuple ids tuples = true ↔ ∃ r, ids.lookup r ≠ none ∧ tuples.lookup r ≠ none)
  | [], _, tuples, _ => by simp [sharesTuple]
  | (id, v) :: ids, hs, tuples, ht => by
      obtain ⟨hid, hs'⟩ := sortedKeys_cons.mp hs
      rw [sharesTuple, sharesTuple_go_iff hid (sharesTuple_iff hs') ht]
      refine exists_congr fun r => and_congr_left fun _ => ?_
      rw [lookup_cons_ite]
      by_cases hr : r = id <;> simp [hr]

/-! ### Merging -/

/-- `l` is sorted and has the entries of `new`, and those of `old` for the other rows. -/
structure IsMerge (new old l : List (Nat × α)) : Prop where
  sorted : SortedKeys l
  lookup : ∀ r, l.lookup r = (new.lookup r).or (old.lookup r)

theorem IsMerge.mem {new old l : List (Nat × α)} (h : IsMerge new old l) {x : Nat × α}
    (hx : x ∈ l) : x ∈ new ∨ x ∈ old := by
  have hl := lookup_eq_some h.sorted hx
  rw [h.lookup] at hl
  rcases Option.or_eq_some_iff.mp hl with hn | ⟨-, ho⟩
  · exact Or.inl (mem_of_lookup hn)
  · exact Or.inr (mem_of_lookup ho)

theorem mergeNewValues_go {k : Nat} {v : α} {f : List (Nat × α) → List (Nat × α)}
    {new : List (Nat × α)} (hnew : ∀ y ∈ new, k < y.1)
    (hf : ∀ l, SortedKeys l → IsMerge new l (f l)) :
    {old : List (Nat × α)} → SortedKeys old →
    IsMerge ((k, v) :: new) old (mergeNewValues.go (k, v) f old)
  | [], _ => by
      have ih := hf [] sortedKeys_nil
      rw [mergeNewValues.go]
      refine ⟨sortedKeys_cons.mpr ⟨fun y hy => ?_, ih.sorted⟩, fun r => ?_⟩
      · exact hnew y ((ih.mem hy).resolve_right (by simp))
      · rw [lookup_cons_ite, lookup_cons_ite, ih.lookup]
        split <;> simp
  | (j, w) :: old, hs => by
      obtain ⟨hj, hs'⟩ := sortedKeys_cons.mp hs
      rw [mergeNewValues.go]
      split
      · next heq =>
          simp only at heq
          subst heq
          have ih := hf old hs'
          refine ⟨sortedKeys_cons.mpr ⟨fun y hy => ?_, ih.sorted⟩, fun r => ?_⟩
          · exact (ih.mem hy).elim (hnew y) (hj y)
          · rw [lookup_cons_ite, lookup_cons_ite, lookup_cons_ite, ih.lookup]
            split <;> simp
      · next hne =>
          split
          · next hlt =>
              have ih := hf _ hs
              refine ⟨sortedKeys_cons.mpr ⟨fun y hy => ?_, ih.sorted⟩, fun r => ?_⟩
              · rcases ih.mem hy with hy' | hy'
                · exact hnew y hy'
                · rcases List.mem_cons.mp hy' with rfl | hy''
                  · exact hlt
                  · exact hlt.trans (hj y hy'')
              · rw [lookup_cons_ite r k, lookup_cons_ite r k, ih.lookup]
                split <;> simp
          · next hge =>
              have hjk : j < k := lt_of_le_of_ne (Nat.not_lt.mp hge) (Ne.symm hne)
              have hbehind : ∀ y ∈ ((k, v) :: new : List (Nat × α)), j < y.1 := by
                intro y hy
                rcases List.mem_cons.mp hy with rfl | hy'
                · exact hjk
                · exact hjk.trans (hnew y hy')
              have ih := mergeNewValues_go hnew hf hs' (v := v)
              refine ⟨sortedKeys_cons.mpr ⟨fun y hy => ?_, ih.sorted⟩, fun r => ?_⟩
              · exact (ih.mem hy).elim (hbehind y) (hj y)
              · rw [lookup_cons_ite r j, ih.lookup, lookup_cons_ite r j]
                by_cases hr : r = j
                · have hnone : ((k, v) :: new : List (Nat × α)).lookup j = none :=
                    lookup_eq_none fun y hy => (hbehind y hy).ne'
                  rw [if_pos hr, if_pos hr, hr, hnone, Option.none_or]
                · rw [if_neg hr, if_neg hr]

theorem mergeNewValues_spec : {new : List (Nat × α)} → SortedKeys new → (old : List (Nat × α)) →
    SortedKeys old → IsMerge new old (mergeNewValues new old)
  | [], _, _, ho => ⟨ho, fun _ => rfl⟩
  | (k, v) :: new, hs, old, ho => by
      obtain ⟨hx, hs'⟩ := sortedKeys_cons.mp hs
      exact mergeNewValues_go hx (mergeNewValues_spec hs') ho

theorem currentValue_eq (oldValue : Nat → α) {id : Nat} {root : List (Nat × α)}
    (hs : SortedKeys root) (hle : ∀ x ∈ root, id ≤ x.1) :
    currentValue oldValue id root = (root.lookup id).getD (oldValue id) := by
  cases root with
  | nil => rfl
  | cons x root =>
      obtain ⟨k, v⟩ := x
      rw [currentValue, lookup_cons_ite]
      by_cases hk : k = id
      · simp [hk]
      · have hlt : id < k := lt_of_le_of_ne (hle (k, v) (by simp)) (Ne.symm hk)
        have hnone : root.lookup id = none :=
          lookup_eq_none fun y hy => (hlt.trans ((sortedKeys_cons.mp hs).1 y hy)).ne'
        simp [hk, Ne.symm hk, hnone]

theorem takeWhile_append_dropWhile_lookup {k r : Nat} (l : List (Nat × α)) :
    l.lookup r = ((l.takeWhile fun x => decide (x.1 < k)).lookup r).or
      ((l.dropWhile fun x => decide (x.1 < k)).lookup r) := by
  rw [← lookup_append, List.takeWhile_append_dropWhile]

theorem sortedKeys_append_cons {before rest : List (Nat × α)} {id : Nat} {v : α}
    (hb : SortedKeys before) (hr : SortedKeys rest) (hlt : ∀ x ∈ before, x.1 < id)
    (hgt : ∀ x ∈ rest, id < x.1) : SortedKeys (before ++ (id, v) :: rest) := by
  refine hb.append (sortedKeys_cons.mpr ⟨hgt, hr⟩) fun x hx y hy => ?_
  rcases List.mem_cons.mp hy with rfl | hy'
  · exact hlt x hx
  · exact (hlt x hx).trans (hgt y hy')

/-- What the info of a transaction saves: its own entries stay, a row that is new to it gets
the value of the root, or of the base vector if the root does not have the row. -/
theorem mergeOldValues_spec (oldValue : Nat → α) : {update : List (Nat × α)} →
    SortedKeys update → (info root : List (Nat × α)) → SortedKeys info → SortedKeys root →
    IsMerge info (update.map fun x => (x.1, (root.lookup x.1).getD (oldValue x.1)))
      (mergeOldValues oldValue update info root)
  | [], _, info, root, hi, _ => ⟨hi, fun r => by simp [mergeOldValues]⟩
  | (id, v) :: update, hs, info, root, hi, hr => by
      obtain ⟨hid, hs'⟩ := sortedKeys_cons.mp hs
      have hbefore : ∀ x ∈ info.takeWhile (fun x => decide (x.1 < id)), x.1 < id :=
        fun x hx => key_lt_of_mem_takeWhile hx
      have hafter : ∀ x ∈ info.dropWhile (fun x => decide (x.1 < id)), id ≤ x.1 :=
        fun x hx => key_le_of_mem_dropWhile hi hx
      have hsplit := fun r => takeWhile_append_dropWhile_lookup (k := id) (r := r) info
      have htake := hi.takeWhile fun x => decide (x.1 < id)
      have hdrop := hi.dropWhile fun x => decide (x.1 < id)
      have hupd : ∀ x ∈ update.map fun x => (x.1, (root.lookup x.1).getD (oldValue x.1)),
          id < x.1 := by
        intro x hx
        obtain ⟨y, hy, rfl⟩ := List.mem_map.mp hx
        exact hid y hy
      rw [mergeOldValues]
      generalize info.takeWhile (fun x => decide (x.1 < id)) = before at *
      generalize info.dropWhile (fun x => decide (x.1 < id)) = rest at *
      split
      · next hhead =>
          -- the transaction wrote the row before
          cases rest with
          | nil => simp at hhead
          | cons y rest =>
              obtain ⟨k, w⟩ := y
              obtain rfl : k = id := by simpa using hhead
              obtain ⟨hk, hrest⟩ := sortedKeys_cons.mp hdrop
              have ih := mergeOldValues_spec oldValue hs' rest root hrest hr
              simp only [List.take_succ_cons, List.take_zero, List.drop_succ_cons, List.drop_zero,
                List.append_assoc, List.cons_append, List.nil_append]
              refine ⟨sortedKeys_append_cons htake ih.sorted hbefore fun x hx => ?_, fun r => ?_⟩
              · exact (ih.mem hx).elim (hk x) (hupd x)
              · rw [lookup_append, hsplit, lookup_cons_ite, lookup_cons_ite, ih.lookup,
                  List.map_cons, lookup_cons_ite]
                by_cases hrk : r = k <;> simp [hrk, Option.or_assoc]
      · next hhead =>
          have hgt : ∀ x ∈ rest, id < x.1 := by
            cases rest with
            | nil => simp
            | cons y rest =>
                have hy : y.1 ≠ id := by simpa using hhead
                have hlt : id < y.1 := lt_of_le_of_ne (hafter y (by simp)) (Ne.symm hy)
                intro x hx
                rcases List.mem_cons.mp hx with rfl | hx'
                · exact hlt
                · exact hlt.trans ((List.pairwise_cons.mp hdrop).1 x hx')
          have hroot : ∀ r, id ≤ r →
              (root.dropWhile fun x => decide (x.1 < id)).lookup r = root.lookup r :=
            fun r hle => lookup_dropWhile hle root
          have hrs := hr.dropWhile fun x => decide (x.1 < id)
          have hcur := currentValue_eq oldValue hrs
            fun x hx => key_le_of_mem_dropWhile hr hx
          rw [hroot id le_rfl] at hcur
          have ih := mergeOldValues_spec oldValue hs' rest _ hdrop hrs
          have hmap : (update.map fun x => (x.1,
                ((root.dropWhile fun x => decide (x.1 < id)).lookup x.1).getD (oldValue x.1))) =
              update.map fun x => (x.1, (root.lookup x.1).getD (oldValue x.1)) :=
            List.map_congr_left fun x hx => by rw [hroot x.1 (hid x hx).le]
          rw [hmap] at ih
          refine ⟨sortedKeys_append_cons htake ih.sorted hbefore fun x hx => ?_, fun r => ?_⟩
          · exact (ih.mem hx).elim (hgt x) (hupd x)
          · rw [lookup_append, hsplit, lookup_cons_ite, ih.lookup, List.map_cons, lookup_cons_ite,
              hcur]
            by_cases hrk : r = id
            · have hnone : rest.lookup id = none :=
                lookup_eq_none fun x hx => (hgt x hx).ne'
              simp [hrk, hnone]
            · simp [hrk, Option.or_assoc]

/-! ### Rolling back -/

/-- The saved values replace those of the root; the rows of the root stay. -/
theorem rollbackValues_spec : (info root : List (Nat × α)) → SortedKeys info → SortedKeys root →
    (∀ r, info.lookup r ≠ none → root.lookup r ≠ none) →
    (rollbackValues root info).map Prod.fst = root.map Prod.fst ∧
      ∀ r, (rollbackValues root info).lookup r = (info.lookup r).or (root.lookup r)
  | [], root, _, _, _ => by simp [rollbackValues]
  | (id, v) :: info, root, hi, hr, hcov => by
      obtain ⟨hid, hi'⟩ := sortedKeys_cons.mp hi
      have hbefore : ∀ x ∈ root.takeWhile (fun x => decide (x.1 < id)), x.1 < id :=
        fun x hx => key_lt_of_mem_takeWhile hx
      have hafter : ∀ x ∈ root.dropWhile (fun x => decide (x.1 < id)), id ≤ x.1 :=
        fun x hx => key_le_of_mem_dropWhile hr hx
      have hsplit := fun r => takeWhile_append_dropWhile_lookup (k := id) (r := r) root
      have happ := List.takeWhile_append_dropWhile (p := fun x => decide (x.1 < id)) (l := root)
      have hdrop := hr.dropWhile fun x => decide (x.1 < id)
      have hin : (root.dropWhile fun x => decide (x.1 < id)).lookup id ≠ none := by
        rw [lookup_dropWhile le_rfl]
        exact hcov id (by simp)
      rw [rollbackValues]
      generalize root.takeWhile (fun x => decide (x.1 < id)) = before at *
      generalize root.dropWhile (fun x => decide (x.1 < id)) = rest at *
      cases rest with
      | nil => simp at hin
      | cons y rest =>
          obtain ⟨k, w⟩ := y
          obtain ⟨hk, hrest⟩ := sortedKeys_cons.mp hdrop
          -- the loop stops at the row itself, which the root has
          obtain rfl : k = id := by
            by_contra hne
            have hlt : id < k := lt_of_le_of_ne (hafter (k, w) (by simp)) (Ne.symm hne)
            refine hin (lookup_eq_none fun x hx => ?_)
            rcases List.mem_cons.mp hx with rfl | hx'
            · exact hne
            · exact (hlt.trans (hk x hx')).ne'
          have hinfo : ∀ r, info.lookup r ≠ none → k < r := by
            intro r h
            obtain ⟨u, hu⟩ := Option.ne_none_iff_exists'.mp h
            exact hid _ (mem_of_lookup hu)
          have hbefore' : ∀ r, k ≤ r → before.lookup r = none := fun r hle =>
            lookup_eq_none fun x hx => (Nat.lt_of_lt_of_le (hbefore x hx) hle).ne
          obtain ⟨ih1, ih2⟩ := rollbackValues_spec info ((k, v) :: rest) hi'
            (sortedKeys_cons.mpr ⟨hk, hrest⟩) fun r h => by
              have hlt := hinfo r h
              have hr' := hcov r (by simp [hlt.ne', h])
              rw [hsplit, hbefore' r hlt.le, Option.none_or] at hr'
              simpa [hlt.ne'] using hr'
          refine ⟨?_, fun r => ?_⟩
          · rw [← happ]
            simp [ih1]
          · rw [lookup_append, ih2, hsplit, lookup_cons_ite, lookup_cons_ite, lookup_cons_ite]
            by_cases hrk : r = k
            · have hnone : info.lookup k = none := by
                by_contra h
                exact absurd (hinfo k h) (Nat.lt_irrefl k)
              simp [hrk, hnone, hbefore' k le_rfl]
            · by_cases hi'' : info.lookup r = none
              · simp [hrk, hi'']
              · simp [hrk, hbefore' r (hinfo r hi'').le]

/-! ## The operations on the chain as a list -/

namespace UpdateSegment

/-- The pointers of the segment stand for the chain `l`, root first. -/
structure Represents (seg : UpdateSegment α) (l : List (Nat × UpdateInfo α)) : Prop where
  chain : Heap.Chain seg.heap seg.root l
  below : ∀ a ∈ l.map Prod.fst, a < seg.nextEntry

variable {seg : UpdateSegment α} {l : List (Nat × UpdateInfo α)}

theorem Represents.length_le (h : seg.Represents l) : l.length ≤ seg.nextEntry :=
  h.chain.length_le h.below

theorem represents_empty : (empty : UpdateSegment α).Represents [] :=
  ⟨⟨⟨none, rfl, rfl⟩, List.nodup_nil⟩, by simp⟩

variable {r : Nat} {root : UpdateInfo α} {nodes : List (Nat × UpdateInfo α)}

theorem Represents.root_eq (h : seg.Represents ((r, root) :: nodes)) : seg.root = some r := by
  obtain ⟨q, hr, -⟩ := h.chain.seg
  exact hr

theorem Represents.infosFrom_root (h : seg.Represents l) : seg.infosFrom seg.root = l :=
  h.chain.toList h.length_le

theorem Represents.infosFrom_next (h : seg.Represents ((r, root) :: nodes)) :
    seg.infosFrom ((seg.heap r).bind Cell.next) = nodes := by
  have hlen : nodes.length ≤ seg.nextEntry := by
    have := h.length_le
    simp only [List.length_cons] at this
    omega
  obtain ⟨c, hc, -, ht⟩ := h.chain.tail hlen
  rw [hc]
  exact ht

variable {info : UpdateInfo α}

theorem Represents.tuplesAt {a : Nat} (h : seg.Represents l) (ha : (a, info) ∈ l) :
    seg.tuplesAt a = info.tuples := by
  obtain ⟨c, hc, rfl⟩ := h.chain.cell ha
  simp [UpdateSegment.tuplesAt, hc]

theorem Represents.modifyAt (h : seg.Represents l) (a : Nat) (f : UpdateInfo α → UpdateInfo α) :
    Represents { seg with heap := seg.heap.modifyVal a f } (Heap.modifyAt a f l) :=
  ⟨h.chain.modifyVal a f, by
    rw [Heap.modifyAt_fst]
    exact h.below⟩

theorem Represents.cleanupUpdate {x : Nat × UpdateInfo α} {a : Nat}
    (h : seg.Represents (x :: nodes)) (ha : a ∈ nodes.map Prod.fst) :
    (seg.cleanupUpdate a).Represents (x :: Heap.removeAt a nodes) := by
  refine ⟨h.chain.removeAt ha, fun b hb => h.below b ?_⟩
  have hsub : (x :: Heap.removeAt a nodes).Sublist (x :: nodes) :=
    List.Sublist.cons_cons x List.filter_sublist
  exact (hsub.map Prod.fst).subset hb

theorem Represents.rollbackUpdate {a : Nat} (h : seg.Represents ((r, root) :: nodes))
    (ha : (a, info) ∈ nodes) : (seg.rollbackUpdate a).Represents
      ((r, { root with tuples := rollbackValues root.tuples info.tuples }) ::
        Heap.removeAt a nodes) := by
  have ha' : a ∈ nodes.map Prod.fst := List.mem_map_of_mem ha
  have hr : r ∉ nodes.map Prod.fst := (List.nodup_cons.mp h.chain.nodup).1
  obtain ⟨p, hp⟩ := Option.ne_none_iff_exists'.mp (h.chain.prev_ne_none ha')
  have hset := h.modifyAt r fun i =>
    { i with tuples := rollbackValues root.tuples info.tuples }
  rw [Heap.modifyAt_cons_self hr] at hset
  simp only [UpdateSegment.rollbackUpdate, hp, h.root_eq, h.tuplesAt List.mem_cons_self,
    h.tuplesAt (List.mem_cons_of_mem _ ha)]
  exact hset.cleanupUpdate ha'

/-- The root has room for the update afterwards, wherever it is. -/
theorem Represents.reallocateRootInfoIfNeeded (h : seg.Represents ((r, root) :: nodes))
    (n count : Nat) : ∃ m, min (root.tuples.length + count) n ≤ m ∧
      (seg.reallocateRootInfoIfNeeded n r count).1.Represents
        (((seg.reallocateRootInfoIfNeeded n r count).2, { root with max := m }) :: nodes) := by
  obtain ⟨c, hc, rfl⟩ := h.chain.cell List.mem_cons_self
  simp only [UpdateSegment.reallocateRootInfoIfNeeded, hc]
  split
  · next hfit => exact ⟨c.val.max, hfit, h⟩
  · refine ⟨UpdateInfo.getCompactCapacity n (min (c.val.tuples.length + count) n), ?_, ?_, ?_⟩
    · rw [UpdateInfo.getCompactCapacity]
      split
      · assumption
      · exact Nat.le_min.mpr ⟨Nat.le_pow_clog Nat.one_lt_two _, Nat.min_le_right _ _⟩
    · have hfresh : seg.nextEntry ∉ ((r, c.val) :: nodes).map Prod.fst :=
        fun hmem => Nat.lt_irrefl _ (h.below _ hmem)
      have hroot := h.chain
      rw [h.root_eq] at hroot
      exact hroot.relocateHead (fun info => { info with
        max := UpdateInfo.getCompactCapacity n (min (c.val.tuples.length + count) n) }) hfresh
    · intro a ha
      rcases List.mem_cons.mp ha with rfl | ha'
      · exact Nat.lt_succ_self _
      · exact Nat.lt_succ_of_lt (h.below a (List.mem_cons_of_mem _ ha'))

theorem Represents.insertNode (h : seg.Represents ((r, root) :: nodes)) (n tid : Nat) :
    (seg.insertNode n r tid).Represents
      ((r, root) :: (seg.nextEntry, ⟨tid, n, []⟩) :: nodes) := by
  have hfresh : seg.nextEntry ∉ ((r, root) :: nodes).map Prod.fst :=
    fun hmem => Nat.lt_irrefl _ (h.below _ hmem)
  have hroot := h.chain
  rw [h.root_eq] at hroot
  refine ⟨?_, fun a ha => ?_⟩
  · have hins := hroot.insertAfter (w := (⟨tid, n, []⟩ : UpdateInfo α)) hfresh
    rw [UpdateSegment.insertNode, h.root_eq]
    exact hins
  · simp only [List.map_cons, List.mem_cons] at ha
    rcases ha with rfl | rfl | ha
    · exact Nat.lt_succ_of_lt (h.below _ (by simp))
    · exact Nat.lt_succ_self _
    · exact Nat.lt_succ_of_lt (h.below a (List.mem_cons_of_mem _ ha))

theorem Represents.mergeUpdate {a : Nat} (h : seg.Represents ((r, root) :: nodes))
    (ha : (a, info) ∈ nodes) (base : BaseVector α) (update : List (Nat × α)) :
    (seg.mergeUpdate base update r a).Represents
      ((r, { root with tuples := mergeNewValues update root.tuples }) ::
        Heap.modifyAt a (fun i => { i with
          tuples := mergeOldValues base.oldValue update info.tuples root.tuples }) nodes) := by
  have hr : r ∉ nodes.map Prod.fst := (List.nodup_cons.mp h.chain.nodup).1
  have hne : r ≠ a := fun hra => hr (hra ▸ List.mem_map_of_mem ha)
  simp only [UpdateSegment.mergeUpdate, h.tuplesAt List.mem_cons_self,
    h.tuplesAt (List.mem_cons_of_mem _ ha)]
  have h1 := h.modifyAt a fun i =>
    { i with tuples := mergeOldValues base.oldValue update info.tuples root.tuples }
  rw [Heap.modifyAt_cons_of_ne hne] at h1
  have h2 := h1.modifyAt r fun i => { i with tuples := mergeNewValues update root.tuples }
  rw [Heap.modifyAt_cons_self (by rwa [Heap.modifyAt_fst])] at h2
  exact h2

theorem checkForConflicts_ok {view : SnapshotView} {update : List (Nat × α)} :
    {nodes : List (Nat × UpdateInfo α)} → {node found : Option Nat} →
    checkForConflicts view update nodes node = .ok found →
    (∀ x ∈ nodes, x.2.versionNumber ≠ view.transactionId →
      view.visibilityBound.value ≤ x.2.versionNumber → sharesTuple update x.2.tuples = false) ∧
    (found = node ∧ (∀ x ∈ nodes, x.2.versionNumber ≠ view.transactionId) ∨
      ∃ a info, found = some a ∧ (a, info) ∈ nodes ∧ info.versionNumber = view.transactionId)
  | [], node, found, h => by
      rw [checkForConflicts, Except.ok.injEq] at h
      exact ⟨by simp, Or.inl ⟨h.symm, by simp⟩⟩
  | (a, info) :: nodes, node, found, h => by
      rw [checkForConflicts] at h
      split at h
      · next hown =>
          obtain ⟨hc, hf⟩ := checkForConflicts_ok h
          refine ⟨fun x hx hne => ?_, Or.inr ?_⟩
          · rcases List.mem_cons.mp hx with rfl | hx'
            · exact absurd hown hne
            · exact hc x hx' hne
          · rcases hf with ⟨rfl, -⟩ | ⟨b, i, hb, hi, hv⟩
            · exact ⟨a, info, rfl, by simp, hown⟩
            · exact ⟨b, i, hb, by simp [hi], hv⟩
      · next hother =>
          split at h
          · simp at h
          · next hno =>
              obtain ⟨hc, hf⟩ := checkForConflicts_ok h
              refine ⟨fun x hx hne hle => ?_, ?_⟩
              · rcases List.mem_cons.mp hx with rfl | hx'
                · exact Bool.eq_false_iff.mpr fun hs => hno ⟨hle, hs⟩
                · exact hc x hx' hne hle
              · rcases hf with ⟨rfl, hn⟩ | ⟨b, i, hb, hi, hv⟩
                · refine Or.inl ⟨rfl, fun x hx => ?_⟩
                  rcases List.mem_cons.mp hx with rfl | hx'
                  · exact hother
                  · exact hn x hx'
                · exact Or.inr ⟨b, i, hb, by simp [hi], hv⟩

/-- `Update` on a vector with a chain: no row is shared with an info that the transaction does
not see, the root takes the new values, and the info of the transaction, which may be new,
saves the old ones. -/
theorem Represents.updateChain {seg' : UpdateSegment α} {n : Nat} {base : BaseVector α}
    {view : SnapshotView} {update : List (Nat × α)} {created : Option Nat}
    (h : seg.Represents ((r, root) :: nodes))
    (hu : seg.updateChain n base view update r = .ok (seg', created)) :
    (∀ x ∈ nodes, x.2.versionNumber ≠ view.transactionId →
      view.visibilityBound.value ≤ x.2.versionNumber → sharesTuple update x.2.tuples = false) ∧
    ∃ r' m, min (root.tuples.length + update.length) n ≤ m ∧
      ((created = none ∧ ∃ a info, (a, info) ∈ nodes ∧
          info.versionNumber = view.transactionId ∧
          seg'.Represents ((r', ⟨root.versionNumber, m, mergeNewValues update root.tuples⟩) ::
            Heap.modifyAt a (fun i => { i with
              tuples := mergeOldValues base.oldValue update info.tuples root.tuples }) nodes)) ∨
        ∃ a, created = some a ∧ (∀ x ∈ nodes, x.2.versionNumber ≠ view.transactionId) ∧
          seg'.Represents ((r', ⟨root.versionNumber, m, mergeNewValues update root.tuples⟩) ::
            (a, ⟨view.transactionId, n, mergeOldValues base.oldValue update [] root.tuples⟩) ::
            nodes)) := by
  simp only [UpdateSegment.updateChain, h.infosFrom_next] at hu
  cases hf : checkForConflicts view update nodes none with
  | error e =>
      rw [hf] at hu
      exact nomatch hu
  | ok found =>
      rw [hf] at hu
      simp only [bind, Except.bind] at hu
      obtain ⟨hc, hown⟩ := checkForConflicts_ok hf
      obtain ⟨m, hm, hmoved⟩ := h.reallocateRootInfoIfNeeded n update.length
      refine ⟨hc, (seg.reallocateRootInfoIfNeeded n r update.length).2, m, hm, ?_⟩
      rcases hown with ⟨rfl, hnone⟩ | ⟨a, info, rfl, ha, hv⟩
      · right
        simp only [Except.ok.injEq, Prod.mk.injEq] at hu
        obtain ⟨rfl, rfl⟩ := hu
        have hins := hmoved.insertNode n view.transactionId
        have hmerge := hins.mergeUpdate List.mem_cons_self base update
        have hfresh := (List.nodup_cons.mp (List.nodup_cons.mp hins.chain.nodup).2).1
        rw [Heap.modifyAt_cons_self hfresh] at hmerge
        exact ⟨_, rfl, hnone, hmerge⟩
      · left
        simp only [Except.ok.injEq, Prod.mk.injEq] at hu
        obtain ⟨rfl, rfl⟩ := hu
        exact ⟨rfl, a, info, ha, hv, hmoved.mergeUpdate ha base update⟩

theorem represents_createChain (seg : UpdateSegment α) (n : Nat) (base : BaseVector α)
    (view : SnapshotView) (update : List (Nat × α)) :
    (seg.createChain n base view update).1.Represents
      [(seg.nextEntry, ⟨maxCommitId, UpdateInfo.getCompactCapacity n update.length, update⟩),
        (seg.nextEntry + 1,
          ⟨view.transactionId, n, update.map fun x => (x.1, base.oldValue x.1)⟩)] := by
  refine ⟨Heap.chain_pair (by simp) ?_ ?_, fun a ha => ?_⟩
  · simp only [createChain]
    rw [Heap.alloc_of_ne (by simp), Heap.alloc_self]
  · simp only [createChain]
    rw [Heap.alloc_self]
  · have hcases : a = seg.nextEntry ∨ a = seg.nextEntry + 1 := by simpa using ha
    show a < seg.nextEntry + 2
    omega

end UpdateSegment

end MiniDuck
