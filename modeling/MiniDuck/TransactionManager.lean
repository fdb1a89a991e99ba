import MiniDuck.Lts
import MiniDuck.Transaction

/-!
# The transaction manager

`DuckTransactionManager` hands out start times and commit ids from one
counter, keeps the active transactions, and holds a committed
transaction back in `recentlyCommittedTransactions` until no snapshot
can still need what it replaced. Then the transaction moves to a
`DuckCleanupInfo`, whose processing frees the old versions.

The functions are those of `duck_transaction_manager.cpp`. What a
transaction did (which kinds of changes, whether its commit or rollback
fails) enters as an argument. `CommitTransaction` drops the transaction
lock around the WAL write. Its state changes all happen in the locked
region after that write, which is the one step here.

`ManagerRun` adds what an observer records along a run: the ids ever
stored for later cleanup, and every cleanup info in hand-over order.
-/

namespace MiniDuck

structure DuckTransaction where
  startTime : Nat
  view : SnapshotView
  commitId : Nat
  awaitingCleanup : Bool
  deriving Repr, DecidableEq

namespace DuckTransaction

def transactionId (t : DuckTransaction) : Nat := t.view.transactionId

def bound (t : DuckTransaction) : Nat := t.view.visibilityBound.value

@[simp] theorem transactionId_setCommit (t : DuckTransaction) (c : Nat) :
    { t with commitId := c }.transactionId = t.transactionId := rfl

@[simp] theorem bound_setCommit (t : DuckTransaction) (c : Nat) :
    { t with commitId := c }.bound = t.bound := rfl

@[simp] theorem transactionId_setAwaiting (t : DuckTransaction) (b : Bool) :
    { t with awaitingCleanup := b }.transactionId = t.transactionId := rfl

end DuckTransaction

structure DuckCleanupInfo where
  lowestVisibilityBound : VisibilityBound
  transactions : List DuckTransaction
  deriving Repr, DecidableEq

def DuckCleanupInfo.scheduleCleanup (info : DuckCleanupInfo) : Bool :=
  !info.transactions.isEmpty

structure DuckTransactionManager where
  currentStartTimestamp : Nat
  currentTransactionId : Nat
  lowestVisibilityBound : VisibilityBound
  lastCommit : Nat
  activeTransactions : List DuckTransaction
  recentlyCommittedTransactions : List DuckTransaction
  cleanupQueue : List DuckCleanupInfo
  deriving Repr, DecidableEq

inductive ManagerException
  | internal (msg : String)
  | fatal (msg : String)
  deriving Repr, DecidableEq

structure CommitProperties where
  isSystemOrTemporary : Bool
  isReadOnly : Bool
  changesMade : Bool
  hasUpdates : Bool
  hasIndexDeletes : Bool
  hasCatalogChanges : Bool
  error : Option String
  rollbackError : Option String
  deriving Repr, DecidableEq

namespace DuckTransactionManager

def initial : DuckTransactionManager where
  currentStartTimestamp := systemTransactionTimestamp + 1
  currentTransactionId := transactionIdStart
  lowestVisibilityBound := .includingUncommitted
  lastCommit := 0
  activeTransactions := []
  recentlyCommittedTransactions := []
  cleanupQueue := []

def startTransaction (m : DuckTransactionManager) :
    Except ManagerException DuckTransactionManager :=
  if m.currentStartTimestamp ≥ transactionIdStart then
    .error (.internal ("Cannot start more transactions, ran out of " ++
      "transaction identifiers!"))
  else
    let startTime := m.currentStartTimestamp
    let view : SnapshotView := ⟨m.currentTransactionId, .before startTime⟩
    .ok { m with
      currentStartTimestamp := m.currentStartTimestamp + 1
      currentTransactionId := m.currentTransactionId + 1
      lowestVisibilityBound :=
        if m.activeTransactions.isEmpty then view.visibilityBound
        else m.lowestVisibilityBound
      activeTransactions := m.activeTransactions ++ [⟨startTime, view, 0, false⟩] }

/-- The minimum that `UpdateLowestVisibilityBound` accumulates. -/
def computedLowestVisibilityBound (exclude : Nat) (active : List DuckTransaction) :
    VisibilityBound :=
  active.foldl
    (fun low t => if t.transactionId = exclude then low
      else VisibilityBound.min low t.view.visibilityBound)
    .allCommitted

/-- Recomputes the bound without `exclude`, and returns its index. -/
def updateLowestVisibilityBound (m : DuckTransactionManager) (exclude : Nat) :
    DuckTransactionManager × Nat :=
  ({ m with lowestVisibilityBound :=
      computedLowestVisibilityBound exclude m.activeTransactions },
    m.activeTransactions.findIdx fun t => t.transactionId = exclude)

/-- Moves the leading transactions below the info's bound to the info. -/
def sweepCommittedTransactions (m : DuckTransactionManager) (info : DuckCleanupInfo) :
    DuckTransactionManager × DuckCleanupInfo :=
  let visible := fun t : DuckTransaction =>
    decide (t.commitId < info.lowestVisibilityBound.value)
  let swept := m.recentlyCommittedTransactions.takeWhile visible
  ({ m with recentlyCommittedTransactions :=
      m.recentlyCommittedTransactions.dropWhile visible },
    { info with transactions :=
        info.transactions ++ swept.map fun t => { t with awaitingCleanup := true } })

/-- Where `RemoveTransaction` puts the transaction before it sweeps. -/
def rehome (m : DuckTransactionManager) (transaction : DuckTransaction)
    (storeTransaction changesMade : Bool) : List DuckTransaction × List DuckTransaction :=
  if storeTransaction then
    if transaction.commitId ≠ 0 then
      (m.recentlyCommittedTransactions ++ [transaction], [])
    else
      (m.recentlyCommittedTransactions, [transaction])
  else if changesMade then
    (m.recentlyCommittedTransactions, [{ transaction with awaitingCleanup := true }])
  else
    (m.recentlyCommittedTransactions, [])

def removeTransaction (m : DuckTransactionManager) (transaction : DuckTransaction)
    (storeTransaction changesMade : Bool) : DuckTransactionManager × DuckCleanupInfo :=
  let (m, tIndex) := m.updateLowestVisibilityBound transaction.transactionId
  let (recent, handed) := m.rehome transaction storeTransaction changesMade
  let info : DuckCleanupInfo := ⟨m.lowestVisibilityBound, handed⟩
  let m := { m with
    recentlyCommittedTransactions := recent
    activeTransactions := m.activeTransactions.eraseIdx tIndex }
  m.sweepCommittedTransactions info

def queueCleanup (m : DuckTransactionManager) (info : DuckCleanupInfo) :
    DuckTransactionManager :=
  if info.scheduleCleanup then { m with cleanupQueue := m.cleanupQueue ++ [info] } else m

/-- Writes `commit_id` into the transaction, where the active list holds it. -/
def setCommitId (m : DuckTransactionManager) (tid commitId : Nat) :
    DuckTransactionManager :=
  { m with activeTransactions := m.activeTransactions.map fun t =>
      if t.transactionId = tid then { t with commitId := commitId } else t }

/-- The locked region of `CommitTransaction` that follows the WAL write. A
failed commit rolls back and keeps commit id 0; a failed rollback leaves the
transaction in the active list and throws. -/
def commitTransaction (m : DuckTransactionManager) (transaction : DuckTransaction)
    (p : CommitProperties) :
    DuckTransactionManager × Except ManagerException DuckCleanupInfo :=
  if !p.isSystemOrTemporary && p.changesMade && p.isReadOnly then
    (m, .error (.internal ("Attempting to commit a transaction that is read-only but has " ++
      "made changes - this should not be possible")))
  else
    let commitId := m.currentStartTimestamp
    let m := { m with currentStartTimestamp := m.currentStartTimestamp + 1 }
    let storeTransaction := p.hasUpdates || p.hasIndexDeletes || p.hasCatalogChanges ||
      p.error.isSome
    match p.error, p.rollbackError with
    | some error, some rollbackError =>
        (m.setCommitId transaction.transactionId 0,
          .error (.fatal ("Failed to rollback transaction. Cannot continue operation.\n" ++
            "Original Error: " ++ error ++ "\nRollback Error: " ++ rollbackError)))
    | some _, none =>
        let m := m.setCommitId transaction.transactionId 0
        let (m, info) := m.removeTransaction { transaction with commitId := 0 }
          storeTransaction p.changesMade
        (m.queueCleanup info, .ok info)
    | none, _ =>
        let m := { m.setCommitId transaction.transactionId commitId with
          lastCommit := commitId }
        let (m, info) := m.removeTransaction { transaction with commitId := commitId }
          storeTransaction p.changesMade
        (m.queueCleanup info, .ok info)

/-- `RollbackTransaction`: the removal happens also when the rollback fails. -/
def rollbackTransaction (m : DuckTransactionManager) (transaction : DuckTransaction)
    (changesMade : Bool) : DuckTransactionManager × DuckCleanupInfo :=
  let (m, info) := m.removeTransaction transaction changesMade changesMade
  (m.queueCleanup info, info)

/-- One round of the loop of `CleanupTransactions`. -/
def cleanupTransactions (m : DuckTransactionManager) : DuckTransactionManager :=
  { m with cleanupQueue := m.cleanupQueue.tail }

end DuckTransactionManager

/-! ## Runs -/

/-- A manager with what an observer of the whole run has recorded. -/
structure ManagerRun where
  manager : DuckTransactionManager
  stored : List Nat
  handed : List DuckCleanupInfo
  deriving Repr, DecidableEq

inductive ManagerOp
  | start
  | commit (transaction : DuckTransaction) (p : CommitProperties)
  | rollback (transaction : DuckTransaction) (changesMade : Bool)
  | cleanup
  deriving Repr, DecidableEq

/-- The id that `RemoveTransaction` appends to the recently committed ones. -/
def storedBy (transaction : DuckTransaction) (storeTransaction : Bool) : List Nat :=
  if storeTransaction && transaction.commitId ≠ 0 then [transaction.transactionId] else []

def CommitProperties.stores (p : CommitProperties) (transaction : DuckTransaction)
    (commitId : Nat) : List Nat :=
  storedBy { transaction with commitId := if p.error.isSome then 0 else commitId }
    (p.hasUpdates || p.hasIndexDeletes || p.hasCatalogChanges || p.error.isSome)

inductive ManagerStep : ManagerRun → ManagerOp → ManagerRun → Prop
  | start {r : ManagerRun} {m : DuckTransactionManager} :
      r.manager.startTransaction = .ok m →
      ManagerStep r .start { r with manager := m }
  | startThrows {r : ManagerRun} {e : ManagerException} :
      r.manager.startTransaction = .error e → ManagerStep r .start r
  | commit {r : ManagerRun} {t : DuckTransaction} {p : CommitProperties}
      {m : DuckTransactionManager} {info : DuckCleanupInfo} :
      t ∈ r.manager.activeTransactions →
      r.manager.commitTransaction t p = (m, .ok info) →
      ManagerStep r (.commit t p)
        ⟨m, r.stored ++ p.stores t r.manager.currentStartTimestamp, r.handed ++ [info]⟩
  | commitThrows {r : ManagerRun} {t : DuckTransaction} {p : CommitProperties}
      {m : DuckTransactionManager} {e : ManagerException} :
      t ∈ r.manager.activeTransactions →
      r.manager.commitTransaction t p = (m, .error e) →
      ManagerStep r (.commit t p) { r with manager := m }
  | rollback {r : ManagerRun} {t : DuckTransaction} {changesMade : Bool} :
      t ∈ r.manager.activeTransactions →
      ManagerStep r (.rollback t changesMade)
        ⟨(r.manager.rollbackTransaction t changesMade).1,
          r.stored ++ storedBy t changesMade,
          r.handed ++ [(r.manager.rollbackTransaction t changesMade).2]⟩
  | cleanup {r : ManagerRun} :
      ManagerStep r .cleanup { r with manager := r.manager.cleanupTransactions }

def managerLts : Lts ManagerRun ManagerOp where
  init r := r = ⟨.initial, [], []⟩
  step := ManagerStep

namespace DuckTransactionManager

/-! ## Specifications of the manager's functions -/

theorem eraseIdx_findIdx {α : Type} (p : α → Bool) :
    (l : List α) → l.eraseIdx (l.findIdx p) = l.eraseP p
  | [] => rfl
  | a :: l => by
      by_cases h : p a
      · simp [List.findIdx_cons, h]
      · simp [List.findIdx_cons, h, eraseIdx_findIdx p l]

theorem computedLowest_foldl_le (exclude : Nat) :
    (active : List DuckTransaction) → (low : VisibilityBound) →
    (active.foldl (fun low t => if t.transactionId = exclude then low
        else VisibilityBound.min low t.view.visibilityBound) low).value ≤ low.value ∧
    ∀ a ∈ active, a.transactionId ≠ exclude →
      (active.foldl (fun low t => if t.transactionId = exclude then low
        else VisibilityBound.min low t.view.visibilityBound) low).value ≤ a.bound
  | [], low => by simp
  | b :: active, low => by
      simp only [List.foldl_cons, List.mem_cons]
      obtain ⟨hlow, hact⟩ := computedLowest_foldl_le exclude active
        (if b.transactionId = exclude then low
          else VisibilityBound.min low b.view.visibilityBound)
      have hmin := VisibilityBound.min_value low b.view.visibilityBound
      refine ⟨?_, ?_⟩
      · split_ifs at hlow ⊢ <;> omega
      · rintro a (rfl | ha) hne
        · rw [if_neg hne] at hlow ⊢
          unfold DuckTransaction.bound
          omega
        · exact hact a ha hne

theorem computedLowest_le {exclude : Nat} {active : List DuckTransaction}
    {a : DuckTransaction} (ha : a ∈ active) (hne : a.transactionId ≠ exclude) :
    (computedLowestVisibilityBound exclude active).value ≤ a.bound :=
  (computedLowest_foldl_le exclude active _).2 a ha hne

/-- The minimum is attained: it is the initial value or the bound of a
transaction other than the excluded one. -/
theorem computedLowest_foldl_attained (exclude : Nat) :
    (active : List DuckTransaction) → (low : VisibilityBound) →
    let res := active.foldl (fun low t => if t.transactionId = exclude then low
        else VisibilityBound.min low t.view.visibilityBound) low
    res = low ∨ ∃ a ∈ active, a.transactionId ≠ exclude ∧ res = a.view.visibilityBound
  | [], low => Or.inl rfl
  | b :: active, low => by
      simp only [List.foldl_cons]
      rcases computedLowest_foldl_attained exclude active
        (if b.transactionId = exclude then low
          else VisibilityBound.min low b.view.visibilityBound) with h | ⟨a, ha, hne, h⟩
      · by_cases hb : b.transactionId = exclude
        · rw [if_pos hb] at h ⊢
          exact Or.inl h
        · rw [if_neg hb] at h ⊢
          simp only [VisibilityBound.min] at h ⊢
          split_ifs at h ⊢ with hlt
          · exact Or.inl h
          · exact Or.inr ⟨b, List.mem_cons_self, hb, h⟩
      · exact Or.inr ⟨a, List.mem_cons_of_mem _ ha, hne, h⟩

theorem computedLowest_attained (exclude : Nat) (active : List DuckTransaction) :
    (computedLowestVisibilityBound exclude active).value = transactionIdStart ∨
    ∃ a ∈ active, a.transactionId ≠ exclude ∧
      (computedLowestVisibilityBound exclude active).value = a.bound := by
  rcases computedLowest_foldl_attained exclude active .allCommitted with h | ⟨a, ha, hne, h⟩
  · exact Or.inl (congrArg VisibilityBound.value h)
  · exact Or.inr ⟨a, ha, hne, congrArg VisibilityBound.value h⟩

/-- Everything `RemoveTransaction` does, with the sweep written out. -/
theorem removeTransaction_eq (m : DuckTransactionManager) (t : DuckTransaction)
    (store changes : Bool) :
    let low := computedLowestVisibilityBound t.transactionId m.activeTransactions
    let visible := fun t : DuckTransaction => decide (t.commitId < low.value)
    m.removeTransaction t store changes =
      ({ m with
          lowestVisibilityBound := low
          activeTransactions :=
            m.activeTransactions.eraseP fun a => a.transactionId = t.transactionId
          recentlyCommittedTransactions := (m.rehome t store changes).1.dropWhile visible },
        ⟨low, (m.rehome t store changes).2 ++
          ((m.rehome t store changes).1.takeWhile visible).map
            fun t => { t with awaitingCleanup := true }⟩) := by
  simp only [removeTransaction, updateLowestVisibilityBound, sweepCommittedTransactions,
    eraseIdx_findIdx]
  rfl

end DuckTransactionManager

/-! ## The invariant -/

def idsOf (l : List DuckTransaction) : List Nat := l.map DuckTransaction.transactionId

def handedIds (l : List DuckCleanupInfo) : List Nat := l.flatMap fun i => idsOf i.transactions

/-- How often the transaction `i` is owned by one of the manager's lists or
by a cleanup info. -/
def owners (r : ManagerRun) (i : Nat) : Nat :=
  (idsOf r.manager.activeTransactions).count i +
  (idsOf r.manager.recentlyCommittedTransactions).count i + (handedIds r.handed).count i

structure ManagerInv (r : ManagerRun) : Prop where
  clock_pos : 2 ≤ r.manager.currentStartTimestamp
  lowest_le : ∀ a ∈ r.manager.activeTransactions,
    r.manager.lowestVisibilityBound.value ≤ a.bound
  active_lt : ∀ a ∈ r.manager.activeTransactions,
    a.bound < r.manager.currentStartTimestamp ∧ a.commitId = 0
  recent_lt : ∀ t ∈ r.manager.recentlyCommittedTransactions,
    t.commitId < r.manager.currentStartTimestamp
  recent_sorted : r.manager.recentlyCommittedTransactions.Pairwise
    fun t t' => t.commitId < t'.commitId
  recent_needed : ∀ t ∈ r.manager.recentlyCommittedTransactions,
    maxCommitId < t.commitId ∨
      ∃ a ∈ r.manager.activeTransactions, a.bound ≤ t.commitId
  owned_once : ∀ i, owners r i ≤ 1
  owned_lt : ∀ i, 0 < owners r i → i < r.manager.currentTransactionId
  stored_once : ∀ i ∈ r.stored,
    (idsOf r.manager.recentlyCommittedTransactions).count i +
      (handedIds r.handed).count i = 1
  recent_stored : ∀ t ∈ r.manager.recentlyCommittedTransactions, t.transactionId ∈ r.stored
  handed_lt : ∀ info ∈ r.handed, ∀ t ∈ info.transactions, t.transactionId ∈ r.stored →
    t.commitId < r.manager.currentStartTimestamp ∧
    ∀ a ∈ r.manager.activeTransactions, t.commitId < a.bound

/-! ## Counting owners -/

@[simp] theorem idsOf_nil : idsOf [] = [] := rfl

@[simp] theorem idsOf_cons (t : DuckTransaction) (l : List DuckTransaction) :
    idsOf (t :: l) = t.transactionId :: idsOf l := rfl

@[simp] theorem idsOf_append (l l' : List DuckTransaction) :
    idsOf (l ++ l') = idsOf l ++ idsOf l' := List.map_append

@[simp] theorem handedIds_append_single (l : List DuckCleanupInfo) (info : DuckCleanupInfo) :
    handedIds (l ++ [info]) = handedIds l ++ idsOf info.transactions := by
  simp [handedIds]

@[simp] theorem idsOf_map_awaiting (l : List DuckTransaction) (b : Bool) :
    idsOf (l.map fun t => { t with awaitingCleanup := b }) = idsOf l := by
  simp [idsOf]

variable {t : DuckTransaction} {l : List DuckTransaction}

theorem mem_idsOf (h : t ∈ l) : t.transactionId ∈ idsOf l :=
  List.mem_map_of_mem h

theorem count_idsOf_pos (h : t ∈ l) : 0 < (idsOf l).count t.transactionId :=
  List.count_pos_iff.2 (mem_idsOf h)

theorem count_idsOf_eraseP (tid i : Nat) :
    (l : List DuckTransaction) → tid ∈ idsOf l →
    (idsOf (l.eraseP fun a => a.transactionId = tid)).count i + (if tid = i then 1 else 0) =
      (idsOf l).count i
  | [], h => by simp at h
  | a :: l, h => by
      by_cases ha : a.transactionId = tid
      · simp [ha, List.count_cons]
      · have ht : tid ∈ idsOf l := by
          rcases List.mem_cons.1 h with h | h
          · exact absurd h.symm ha
          · exact h
        have := count_idsOf_eraseP tid i l ht
        simp only [ha, decide_false, Bool.false_eq_true, not_false_eq_true,
          List.eraseP_cons_of_neg, idsOf_cons, List.count_cons]
        omega

theorem mem_eraseP_iff {tid : Nat} (hmem : tid ∈ idsOf l) (hone : (idsOf l).count tid ≤ 1)
    {a : DuckTransaction} :
    a ∈ l.eraseP (fun a => a.transactionId = tid) ↔ a ∈ l ∧ a.transactionId ≠ tid := by
  constructor
  · intro ha
    refine ⟨List.mem_of_mem_eraseP ha, ?_⟩
    rintro rfl
    have hpos := count_idsOf_pos ha
    have := count_idsOf_eraseP a.transactionId a.transactionId l hmem
    simp only [if_true] at this
    omega
  · rintro ⟨ha, hne⟩
    exact (List.mem_eraseP_of_neg (by simpa using hne)).2 ha

theorem eraseP_setCommit {tid c : Nat} :
    (l : List DuckTransaction) → (idsOf l).count tid ≤ 1 →
    (l.map fun t => if t.transactionId = tid then { t with commitId := c } else t).eraseP
        (fun a => a.transactionId = tid) =
      l.eraseP fun a => a.transactionId = tid
  | [], _ => rfl
  | a :: l, h => by
      by_cases ha : a.transactionId = tid
      · have hnone : tid ∉ idsOf l := by
          rw [idsOf_cons, List.count_cons, if_pos (by simpa using ha)] at h
          exact List.count_eq_zero.1 (by omega)
        have hid : l.map (fun t => if t.transactionId = tid then { t with commitId := c }
            else t) = l := by
          conv_rhs => rw [← List.map_id l]
          refine List.map_congr_left fun b hb => ?_
          have : b.transactionId ≠ tid := fun hb' => hnone (hb' ▸ mem_idsOf hb)
          simp [this]
        simp [ha, hid]
      · have h' : (idsOf l).count tid ≤ 1 := by
          rw [idsOf_cons, List.count_cons] at h
          omega
        simp [ha, eraseP_setCommit l h']

theorem computedLowest_setCommit (tid c : Nat) (l : List DuckTransaction) :
    DuckTransactionManager.computedLowestVisibilityBound tid
        (l.map fun t => if t.transactionId = tid then { t with commitId := c } else t) =
      DuckTransactionManager.computedLowestVisibilityBound tid l := by
  unfold DuckTransactionManager.computedLowestVisibilityBound
  rw [List.foldl_map]
  congr 1
  funext low t
  split_ifs <;> simp_all

variable {m : DuckTransactionManager} {store : Bool}

/-- Recording the commit id in the active list does not change the removal. -/
theorem removeTransaction_setCommitId {c : Nat} {changes : Bool}
    (hone : (idsOf m.activeTransactions).count t.transactionId ≤ 1) :
    (m.setCommitId t.transactionId c).removeTransaction t store changes =
      m.removeTransaction t store changes := by
  rw [DuckTransactionManager.removeTransaction_eq, DuckTransactionManager.removeTransaction_eq]
  simp only [DuckTransactionManager.setCommitId, computedLowest_setCommit,
    eraseP_setCommit _ hone]
  rfl

/-! ## The removal keeps the invariant -/

theorem le_of_mem_dropWhile {b : Nat} :
    {l : List DuckTransaction} → l.Pairwise (fun t t' => t.commitId < t'.commitId) →
    ∀ t ∈ l.dropWhile (fun t => decide (t.commitId < b)), b ≤ t.commitId
  | [], _, t, ht => by simp at ht
  | a :: l, hs, t, ht => by
      rw [List.pairwise_cons] at hs
      by_cases ha : a.commitId < b
      · simp only [List.dropWhile_cons, ha, decide_true, if_true] at ht
        exact le_of_mem_dropWhile hs.2 t ht
      · simp only [List.dropWhile_cons, ha, decide_false, Bool.false_eq_true, if_false,
          List.mem_cons] at ht
        rcases ht with rfl | ht
        · omega
        · have := hs.1 t ht
          omega

theorem rehome_count (m : DuckTransactionManager) (t : DuckTransaction)
    (store changes : Bool) (i : Nat) :
    (idsOf (m.rehome t store changes).1).count i + (idsOf (m.rehome t store changes).2).count i =
      (idsOf m.recentlyCommittedTransactions).count i +
        (if (store || changes) ∧ t.transactionId = i then 1 else 0) := by
  unfold DuckTransactionManager.rehome
  by_cases hi : t.transactionId = i <;>
  split_ifs <;> simp_all

theorem rehome_mem {t' : DuckTransaction} {changes : Bool} (h : t' ∈ (m.rehome t store changes).1) :
    t' ∈ m.recentlyCommittedTransactions ∨
      (t' = t ∧ t.commitId ≠ 0 ∧ t.transactionId ∈ storedBy t store) := by
  unfold DuckTransactionManager.rehome at h
  unfold storedBy
  split_ifs at h with hs hc hch
  · rcases List.mem_append.1 h with h | h
    · exact Or.inl h
    · rw [List.mem_singleton.1 h]
      exact Or.inr ⟨rfl, hc, by simp [hs, hc]⟩
  all_goals exact Or.inl h

/-- A transaction handed over at once is the removed one, and was not stored. -/
theorem rehome_handed {t' : DuckTransaction} {changes : Bool}
    (h : t' ∈ (m.rehome t store changes).2) :
    t'.transactionId = t.transactionId ∧ storedBy t store = [] := by
  unfold DuckTransactionManager.rehome at h
  unfold storedBy
  split_ifs at h with hs hc hch
  · simp at h
  · rw [List.mem_singleton.1 h]
    simp_all
  · rw [List.mem_singleton.1 h]
    simp_all
  · simp at h

theorem count_takeWhile_dropWhile (p : DuckTransaction → Bool) (l : List DuckTransaction)
    (i : Nat) :
    (idsOf (l.dropWhile p)).count i + (idsOf (l.takeWhile p)).count i = (idsOf l).count i := by
  conv_rhs => rw [← List.takeWhile_append_dropWhile (p := p) (l := l)]
  rw [idsOf_append, List.count_append, Nat.add_comm]

variable {r : ManagerRun}

/-- Manager fields the invariant does not read may change freely. -/
theorem ManagerInv.frame (h : ManagerInv r)
    (hclock : m.currentStartTimestamp = r.manager.currentStartTimestamp)
    (htid : m.currentTransactionId = r.manager.currentTransactionId)
    (hlow : m.lowestVisibilityBound = r.manager.lowestVisibilityBound)
    (hact : m.activeTransactions = r.manager.activeTransactions)
    (hrec : m.recentlyCommittedTransactions = r.manager.recentlyCommittedTransactions) :
    ManagerInv { r with manager := m } := by
  have howners : ∀ i, owners { r with manager := m } i = owners r i := fun i => by
    simp only [owners, hact, hrec]
  constructor <;>
    simp only [howners, hclock, htid, hlow, hact, hrec]
  exacts [h.clock_pos, h.lowest_le, h.active_lt, h.recent_lt, h.recent_sorted, h.recent_needed,
    h.owned_once, h.owned_lt, h.stored_once, h.recent_stored, h.handed_lt]

theorem ManagerInv.active_count (h : ManagerInv r) (i : Nat) :
    (idsOf r.manager.activeTransactions).count i ≤ 1 := by
  have := h.owned_once i
  unfold owners at this
  omega

/-- An active transaction is neither stored nor handed over yet. -/
theorem ManagerInv.active_fresh (h : ManagerInv r) (ht : t ∈ r.manager.activeTransactions) :
    t.transactionId ∉ r.stored ∧ t.transactionId ∉ handedIds r.handed := by
  have hpos := count_idsOf_pos ht
  have hone := h.owned_once t.transactionId
  unfold owners at hone
  refine ⟨fun hs => ?_, fun hh => ?_⟩
  · have := h.stored_once _ hs
    omega
  · have := List.count_pos_iff.2 hh
    omega

variable {info : DuckCleanupInfo}

theorem mem_handedIds {l : List DuckCleanupInfo} (hi : info ∈ l) (ht : t ∈ info.transactions) :
    t.transactionId ∈ handedIds l :=
  List.mem_flatMap.2 ⟨info, hi, mem_idsOf ht⟩

theorem mem_storedBy {i : Nat} (h : i ∈ storedBy t store) :
    i = t.transactionId ∧ store = true ∧ t.commitId ≠ 0 := by
  unfold storedBy at h
  split_ifs at h with hs
  · simp_all
  · simp at h

section Remove

open DuckTransactionManager

/-- The manager from which a transaction is removed, after its clock moved. -/
def ManagerRun.ticked (r : ManagerRun) (clock lastCommit : Nat) : DuckTransactionManager :=
  { r.manager with
    currentStartTimestamp := clock
    lastCommit := lastCommit }

/-- The run after the removal of `t`. -/
def ManagerRun.remove (r : ManagerRun) (clock lastCommit : Nat) (t : DuckTransaction)
    (store changes : Bool) : ManagerRun :=
  let res := (r.ticked clock lastCommit).removeTransaction t store changes
  ⟨res.1, r.stored ++ storedBy t store, r.handed ++ [res.2]⟩

variable {r : ManagerRun} {t₀ t : DuckTransaction} {clock lastCommit : Nat}
  {store changes : Bool}

theorem remove_active : (r.remove clock lastCommit t store changes).manager.activeTransactions =
    r.manager.activeTransactions.eraseP fun a => a.transactionId = t.transactionId := by
  rw [ManagerRun.remove, removeTransaction_eq]
  rfl

theorem remove_recent :
    (r.remove clock lastCommit t store changes).manager.recentlyCommittedTransactions =
      ((r.ticked clock lastCommit).rehome t store changes).1.dropWhile fun t' =>
        decide (t'.commitId < (computedLowestVisibilityBound t.transactionId
          r.manager.activeTransactions).value) := by
  rw [ManagerRun.remove, removeTransaction_eq]
  rfl

theorem remove_handed : (r.remove clock lastCommit t store changes).handed = r.handed ++
    [⟨computedLowestVisibilityBound t.transactionId r.manager.activeTransactions,
      ((r.ticked clock lastCommit).rehome t store changes).2 ++
      (((r.ticked clock lastCommit).rehome t store changes).1.takeWhile fun t' =>
        decide (t'.commitId < (computedLowestVisibilityBound t.transactionId
          r.manager.activeTransactions).value)).map
        fun t => { t with awaitingCleanup := true }⟩] := by
  rw [ManagerRun.remove, removeTransaction_eq]
  rfl

/-- The removal moves the removed transaction and the swept ones. -/
theorem remove_count (i : Nat) :
    (idsOf (r.remove clock lastCommit t store changes).manager.recentlyCommittedTransactions).count
        i + (handedIds (r.remove clock lastCommit t store changes).handed).count i =
      (idsOf r.manager.recentlyCommittedTransactions).count i + (handedIds r.handed).count i +
        (if (store || changes) ∧ t.transactionId = i then 1 else 0) := by
  have hre := rehome_count (r.ticked clock lastCommit) t store changes i
  have hsplit := count_takeWhile_dropWhile (fun t' => decide (t'.commitId <
    (computedLowestVisibilityBound t.transactionId r.manager.activeTransactions).value))
    ((r.ticked clock lastCommit).rehome t store changes).1 i
  have hsame : (r.ticked clock lastCommit).recentlyCommittedTransactions =
    r.manager.recentlyCommittedTransactions := rfl
  rw [hsame] at hre
  rw [remove_recent, remove_handed]
  simp only [handedIds_append_single, idsOf_append, idsOf_map_awaiting, List.count_append]
  omega

theorem owners_remove_le (hmem : t.transactionId ∈ idsOf r.manager.activeTransactions)
    (i : Nat) : owners (r.remove clock lastCommit t store changes) i ≤ owners r i := by
  have hact := count_idsOf_eraseP t.transactionId i _ hmem
  have hrest := @remove_count r t clock lastCommit store changes i
  unfold owners
  rw [remove_active]
  split_ifs at hact hrest <;> omega

/-- What the removal leaves for the sweep is still in commit order. -/
theorem ManagerInv.rehome_sorted (h : ManagerInv r)
    (hc : t.commitId = 0 ∨ r.manager.currentStartTimestamp ≤ t.commitId) :
    ((r.ticked clock lastCommit).rehome t store changes).1.Pairwise
      fun t t' => t.commitId < t'.commitId := by
  unfold DuckTransactionManager.rehome
  split_ifs with hs hne
  · refine List.pairwise_append.2 ⟨h.recent_sorted, List.pairwise_singleton _ _, ?_⟩
    intro a ha b hb
    rw [List.mem_singleton.1 hb]
    have := h.recent_lt a ha
    omega
  all_goals exact h.recent_sorted

theorem ManagerInv.rehome_stored (h : ManagerInv r)
    (hclock : r.manager.currentStartTimestamp ≤ clock)
    (hc : t.commitId = 0 ∨ t.commitId < clock) :
    ∀ t' ∈ ((r.ticked clock lastCommit).rehome t store changes).1, t'.commitId < clock ∧
      t'.transactionId ∈ r.stored ++ storedBy t store := by
  intro t' ht'
  rcases rehome_mem ht' with ht' | ⟨rfl, hne, hst⟩
  · have := h.recent_lt t' ht'
    exact ⟨by omega, List.mem_append_left _ (h.recent_stored t' ht')⟩
  · exact ⟨by omega, List.mem_append_right _ hst⟩

theorem ManagerInv.remove_active_iff (h : ManagerInv r)
    (hmem : t.transactionId ∈ idsOf r.manager.activeTransactions) {a : DuckTransaction} :
    a ∈ (r.remove clock lastCommit t store changes).manager.activeTransactions ↔
      a ∈ r.manager.activeTransactions ∧ a.transactionId ≠ t.transactionId := by
  rw [remove_active]
  exact mem_eraseP_iff hmem (h.active_count _)

theorem ManagerInv.remove_needed (h : ManagerInv r)
    (hmem : t.transactionId ∈ idsOf r.manager.activeTransactions)
    (hc : t.commitId = 0 ∨ r.manager.currentStartTimestamp ≤ t.commitId) :
    ∀ t' ∈ (r.remove clock lastCommit t store changes).manager.recentlyCommittedTransactions,
      maxCommitId < t'.commitId ∨
      ∃ a ∈ (r.remove clock lastCommit t store changes).manager.activeTransactions,
        a.bound ≤ t'.commitId := by
  intro t' ht'
  rw [remove_recent] at ht'
  have hge := le_of_mem_dropWhile (h.rehome_sorted hc) t' ht'
  rcases computedLowest_attained t.transactionId r.manager.activeTransactions with
    hl | ⟨a, ha, hne, hl⟩
  · rw [hl] at hge
    unfold maxCommitId
    have : 0 < transactionIdStart := by decide
    exact Or.inl (by omega)
  · exact Or.inr ⟨a, (h.remove_active_iff hmem).2 ⟨ha, hne⟩, by omega⟩

/-- A stored transaction is handed over below every snapshot that stays. -/
theorem ManagerInv.remove_handed_lt (h : ManagerInv r)
    (ht₀ : t₀ ∈ r.manager.activeTransactions)
    (hid : t.transactionId = t₀.transactionId)
    (hclock : r.manager.currentStartTimestamp ≤ clock)
    (hc : t.commitId = 0 ∨ t.commitId < clock) :
    ∀ info ∈ (r.remove clock lastCommit t store changes).handed, ∀ t' ∈ info.transactions,
      t'.transactionId ∈ r.stored ++ storedBy t store → t'.commitId < clock ∧
      ∀ a ∈ (r.remove clock lastCommit t store changes).manager.activeTransactions,
        t'.commitId < a.bound := by
  obtain ⟨hfresh, hfresh'⟩ := h.active_fresh ht₀
  rw [← hid] at hfresh hfresh'
  have hrest := fun a => @ManagerInv.remove_active_iff r t clock lastCommit store changes h
    (hid ▸ mem_idsOf ht₀) a
  intro info hinfo t' ht' hst
  rw [remove_handed] at hinfo
  rcases List.mem_append.1 hinfo with hinfo | hinfo
  · have hold : t'.transactionId ∈ r.stored := by
      rcases List.mem_append.1 hst with hst | hst
      · exact hst
      · exact absurd ((mem_storedBy hst).1 ▸ mem_handedIds hinfo ht') hfresh'
    obtain ⟨hlt, hall⟩ := h.handed_lt info hinfo t' ht' hold
    exact ⟨hlt.trans_le hclock, fun a ha => hall a ((hrest a).1 ha).1⟩
  · rw [List.mem_singleton.1 hinfo] at ht'
    rcases List.mem_append.1 ht' with ht' | ht'
    · -- handed over without being stored
      obtain ⟨hid', hnil⟩ := rehome_handed ht'
      rw [hnil, List.append_nil, hid'] at hst
      exact absurd hst hfresh
    · obtain ⟨t'', ht'', rfl⟩ := List.mem_map.1 ht'
      have hvis := List.mem_takeWhile_imp ht''
      have hR := h.rehome_stored (t := t) hclock hc t'' (List.takeWhile_sublist _ |>.subset ht'')
      refine ⟨hR.1, fun a ha => ?_⟩
      obtain ⟨ha, hne⟩ := (hrest a).1 ha
      exact (of_decide_eq_true hvis).trans_le (computedLowest_le ha hne)

/-- Removing an active transaction, with the commit id it just got or none. -/
theorem ManagerInv.remove (h : ManagerInv r) (ht₀ : t₀ ∈ r.manager.activeTransactions)
    (hid : t.transactionId = t₀.transactionId)
    (hclock : r.manager.currentStartTimestamp ≤ clock)
    (hc : t.commitId = 0 ∨ (r.manager.currentStartTimestamp ≤ t.commitId ∧ t.commitId < clock)) :
    ManagerInv (r.remove clock lastCommit t store changes) := by
  have hmem : t.transactionId ∈ idsOf r.manager.activeTransactions := hid ▸ mem_idsOf ht₀
  have hlow : t.commitId = 0 ∨ r.manager.currentStartTimestamp ≤ t.commitId :=
    hc.imp_right And.left
  have hup : t.commitId = 0 ∨ t.commitId < clock := hc.imp_right And.right
  have hR := @ManagerInv.rehome_stored r t clock lastCommit store changes h hclock hup
  have hrest := fun a => @ManagerInv.remove_active_iff r t clock lastCommit store changes h hmem a
  refine ⟨h.clock_pos.trans hclock, ?_, ?_, ?_, ?_, h.remove_needed hmem hlow, ?_, ?_, ?_, ?_,
    h.remove_handed_lt ht₀ hid hclock hup⟩
  · intro a ha
    obtain ⟨ha, hne⟩ := (hrest a).1 ha
    exact computedLowest_le ha hne
  · intro a ha
    have := h.active_lt a ((hrest a).1 ha).1
    exact ⟨this.1.trans_le hclock, this.2⟩
  · rw [remove_recent]
    exact fun t' ht' => (hR t' (List.dropWhile_sublist _ |>.subset ht')).1
  · rw [remove_recent]
    exact (h.rehome_sorted hlow).sublist (List.dropWhile_sublist _)
  · exact fun i => (owners_remove_le hmem i).trans (h.owned_once i)
  · exact fun i hi => h.owned_lt i (hi.trans_le (owners_remove_le hmem i))
  · intro i hi
    have hcount := @remove_count r t clock lastCommit store changes i
    rcases List.mem_append.1 hi with hi | hi
    · have hne : t.transactionId ≠ i := fun he => (h.active_fresh ht₀).1 (hid ▸ he ▸ hi)
      have := h.stored_once i hi
      simp only [hne, and_false, if_false] at hcount
      omega
    · obtain ⟨rfl, hst, -⟩ := mem_storedBy hi
      have hpos := List.count_pos_iff.2 hmem
      have hown := h.owned_once t.transactionId
      unfold owners at hown
      rw [if_pos ⟨by simp [hst], rfl⟩] at hcount
      omega
  · rw [remove_recent]
    exact fun t' ht' => (hR t' (List.dropWhile_sublist _ |>.subset ht')).2

end Remove

/-! ## Every step keeps the invariant -/

theorem managerInv_initial : ManagerInv ⟨.initial, [], []⟩ := by
  constructor <;> simp [DuckTransactionManager.initial, owners, handedIds,
    systemTransactionTimestamp]

theorem startTransaction_ok {m' : DuckTransactionManager} (h : m.startTransaction = .ok m') :
    m.currentStartTimestamp < transactionIdStart ∧
    m' = { m with
      currentStartTimestamp := m.currentStartTimestamp + 1
      currentTransactionId := m.currentTransactionId + 1
      lowestVisibilityBound :=
        if m.activeTransactions.isEmpty then .before m.currentStartTimestamp
        else m.lowestVisibilityBound
      activeTransactions := m.activeTransactions ++
        [⟨m.currentStartTimestamp, ⟨m.currentTransactionId, .before m.currentStartTimestamp⟩,
          0, false⟩] } := by
  unfold DuckTransactionManager.startTransaction at h
  by_cases hlt : m.currentStartTimestamp ≥ transactionIdStart
  · rw [if_pos hlt] at h
    cases h
  · rw [if_neg hlt] at h
    exact ⟨Nat.lt_of_not_ge hlt, (Except.ok.inj h).symm⟩

theorem ManagerInv.start (h : ManagerInv r) (hs : r.manager.startTransaction = .ok m) :
    ManagerInv { r with manager := m } := by
  obtain ⟨-, rfl⟩ := startTransaction_ok hs
  set new : DuckTransaction := ⟨r.manager.currentStartTimestamp,
    ⟨r.manager.currentTransactionId, .before r.manager.currentStartTimestamp⟩, 0, false⟩ with hnew
  have hbound : new.bound = r.manager.currentStartTimestamp := rfl
  have hnewid : new.transactionId = r.manager.currentTransactionId := rfl
  have hfresh : ∀ i, i = r.manager.currentTransactionId → owners r i = 0 := by
    rintro i rfl
    by_contra hpos
    exact absurd (h.owned_lt _ (Nat.pos_of_ne_zero hpos)) (lt_irrefl _)
  refine ⟨?_, ?_, ?_, ?_, h.recent_sorted, ?_, ?_, ?_, h.stored_once, h.recent_stored, ?_⟩
  · have := h.clock_pos
    simp only
    omega
  · intro a ha
    rcases List.mem_append.1 ha with ha | ha
    · have hne : r.manager.activeTransactions.isEmpty = false := by
        cases hl : r.manager.activeTransactions with
        | nil => simp [hl] at ha
        | cons => rfl
      simpa [hne] using h.lowest_le a ha
    · rw [List.mem_singleton.1 ha]
      cases hl : r.manager.activeTransactions with
      | nil => simp [hbound]
      | cons b l =>
          have hb := h.lowest_le b (by simp [hl])
          have hb' := h.active_lt b (by simp [hl])
          simp only [List.isEmpty_cons, Bool.false_eq_true, if_false, hbound]
          omega
  · intro a ha
    rcases List.mem_append.1 ha with ha | ha
    · have := h.active_lt a ha
      exact ⟨this.1.trans (Nat.lt_succ_self _), this.2⟩
    · rw [List.mem_singleton.1 ha]
      exact ⟨Nat.lt_succ_self _, rfl⟩
  · exact fun t ht => (h.recent_lt t ht).trans (Nat.lt_succ_self _)
  · intro t ht
    rcases h.recent_needed t ht with hmax | ⟨a, ha, hle⟩
    · exact Or.inl hmax
    · exact Or.inr ⟨a, List.mem_append_left _ ha, hle⟩
  · intro i
    have hone := h.owned_once i
    have hz := hfresh i
    unfold owners at hone hz ⊢
    simp only [idsOf_append, idsOf_cons, idsOf_nil, List.count_append, List.count_singleton, hnewid]
    split_ifs with hi
    · have := hz (by simpa using Eq.symm (by simpa using hi))
      omega
    · omega
  · intro i hi
    have hlt := h.owned_lt i
    unfold owners at hi hlt
    simp only [idsOf_append, idsOf_cons, idsOf_nil, List.count_append, List.count_singleton,
      hnewid] at hi
    show i < r.manager.currentTransactionId + 1
    split_ifs at hi with heq
    · have : r.manager.currentTransactionId = i := by simpa using heq
      omega
    · have := hlt (by omega)
      omega
  · intro info hinfo t ht hst
    obtain ⟨hlt, hall⟩ := h.handed_lt info hinfo t ht hst
    refine ⟨hlt.trans (Nat.lt_succ_self _), fun a ha => ?_⟩
    rcases List.mem_append.1 ha with ha | ha
    · exact hall a ha
    · rw [List.mem_singleton.1 ha, hbound]
      exact hlt

theorem ManagerInv.queue (h : ManagerInv r) (info : DuckCleanupInfo) :
    ManagerInv { r with manager := r.manager.queueCleanup info } := by
  refine h.frame ?_ ?_ ?_ ?_ ?_ <;>
    (unfold DuckTransactionManager.queueCleanup; split <;> rfl)

/-- A commit that failed and could not be rolled back only moves the clock. -/
theorem ManagerInv.tick {tid : Nat} (h : ManagerInv r) : ManagerInv { r with manager :=
      ({ r.manager with
        currentStartTimestamp := r.manager.currentStartTimestamp + 1 }).setCommitId tid 0 } := by
  have hsame : r.manager.activeTransactions.map (fun t =>
      if t.transactionId = tid then { t with commitId := 0 } else t) =
      r.manager.activeTransactions := by
    conv_rhs => rw [← List.map_id r.manager.activeTransactions]
    refine List.map_congr_left fun a ha => ?_
    have := (h.active_lt a ha).2
    split
    · cases a
      simp_all
    · rfl
  unfold DuckTransactionManager.setCommitId
  simp only [hsame]
  refine ⟨h.clock_pos.trans (Nat.le_succ _), h.lowest_le, ?_, ?_, h.recent_sorted,
    h.recent_needed, h.owned_once, h.owned_lt, h.stored_once, h.recent_stored, ?_⟩
  · exact fun a ha => ⟨(h.active_lt a ha).1.trans (Nat.lt_succ_self _), (h.active_lt a ha).2⟩
  · exact fun t ht => (h.recent_lt t ht).trans (Nat.lt_succ_self _)
  · intro info hinfo t ht hst
    obtain ⟨hlt, hall⟩ := h.handed_lt info hinfo t ht hst
    exact ⟨hlt.trans (Nat.lt_succ_self _), hall⟩

variable {p : CommitProperties}

/-- What a commit that returns has done: it drew a commit id, kept it or
reset it to 0, and removed the transaction. -/
theorem commitTransaction_ok {m' : DuckTransactionManager}
    (hone : (idsOf m.activeTransactions).count t.transactionId ≤ 1)
    (hc : m.commitTransaction t p = (m', .ok info)) : ∃ c lc store,
      let m₁ := { m with
        currentStartTimestamp := m.currentStartTimestamp + 1
        lastCommit := lc }
      (c = 0 ∨ c = m.currentStartTimestamp) ∧
      p.stores t m.currentStartTimestamp = storedBy { t with commitId := c } store ∧
      info = (m₁.removeTransaction { t with commitId := c } store p.changesMade).2 ∧
      m' = (m₁.removeTransaction { t with commitId := c } store p.changesMade).1.queueCleanup
        info := by
  unfold DuckTransactionManager.commitTransaction at hc
  split_ifs at hc
  · cases hc
  have hrem : ∀ (lc c : Nat) (store : Bool),
      let m₁ := { m with
        currentStartTimestamp := m.currentStartTimestamp + 1
        lastCommit := lc }
      (m₁.setCommitId t.transactionId c).removeTransaction { t with commitId := c } store
        p.changesMade = m₁.removeTransaction { t with commitId := c } store p.changesMade :=
    fun lc c store => removeTransaction_setCommitId (t := { t with commitId := c }) hone
  unfold CommitProperties.stores
  cases herr : p.error with
  | some error =>
      cases hrb : p.rollbackError with
      | some _ => simp [herr, hrb] at hc
      | none =>
          simp only [herr, hrb, Option.isSome_some, Bool.or_true, if_true] at hc ⊢
          rw [hrem m.lastCommit 0 true] at hc
          obtain ⟨rfl, hinfo⟩ := Prod.mk.inj hc
          cases hinfo
          exact ⟨0, m.lastCommit, true, Or.inl rfl, rfl, rfl, rfl⟩
  | none =>
      simp only [herr, Option.isSome_none, Bool.or_false, Bool.false_eq_true, if_false] at hc ⊢
      have hset : { ({ m with
          currentStartTimestamp := m.currentStartTimestamp + 1 }).setCommitId
            t.transactionId m.currentStartTimestamp with
          lastCommit := m.currentStartTimestamp } =
        ({ m with
          currentStartTimestamp := m.currentStartTimestamp + 1
          lastCommit := m.currentStartTimestamp }).setCommitId
            t.transactionId m.currentStartTimestamp := rfl
      rw [hset, hrem] at hc
      obtain ⟨rfl, hinfo⟩ := Prod.mk.inj hc
      cases hinfo
      exact ⟨_, _, _, Or.inr rfl, rfl, rfl, rfl⟩

theorem ManagerInv.commit (h : ManagerInv r) (ht : t ∈ r.manager.activeTransactions)
    (hc : r.manager.commitTransaction t p = (m, .ok info)) :
    ManagerInv ⟨m, r.stored ++ p.stores t r.manager.currentStartTimestamp, r.handed ++ [info]⟩ := by
  obtain ⟨c, lc, store, hcid, hst, rfl, rfl⟩ := commitTransaction_ok (h.active_count _) hc
  rw [hst]
  refine ManagerInv.queue
    (ManagerInv.remove (t := { t with commitId := c }) h ht rfl (Nat.le_succ _) ?_) _
  rcases hcid with rfl | rfl
  · exact Or.inl rfl
  · exact Or.inr ⟨le_rfl, Nat.lt_succ_self _⟩

theorem ManagerInv.commitThrows {e : ManagerException} (h : ManagerInv r)
    (hc : r.manager.commitTransaction t p = (m, .error e)) :
    ManagerInv { r with manager := m } := by
  unfold DuckTransactionManager.commitTransaction at hc
  split_ifs at hc
  · cases hc
    exact h
  cases herr : p.error with
  | some error =>
      cases hrb : p.rollbackError with
      | some _ =>
          simp only [herr, hrb] at hc
          obtain ⟨rfl, -⟩ := Prod.mk.inj hc
          exact h.tick
      | none => simp [herr, hrb] at hc
  | none => simp [herr] at hc

theorem ManagerInv.step {r' : ManagerRun} {op : ManagerOp} (h : ManagerInv r)
    (hs : ManagerStep r op r') : ManagerInv r' := by
  cases hs with
  | start hm => exact h.start hm
  | startThrows _ => exact h
  | commit ht hc => exact h.commit ht hc
  | commitThrows _ hc => exact h.commitThrows hc
  | @rollback t changesMade ht =>
      exact (ManagerInv.remove h ht rfl le_rfl (Or.inl (h.active_lt t ht).2)).queue _
  | cleanup => exact h.frame rfl rfl rfl rfl rfl

theorem managerInv_of_reachable (h : managerLts.Reachable r) : ManagerInv r :=
  h.invariant (fun s (h0 : s = _) => h0 ▸ managerInv_initial)
    fun _ _ _ _ hi (hs : ManagerStep _ _ _) => hi.step hs

/-- Garbage collection of the transaction manager is safe in every run. The
kept bound is below every active snapshot, the waiting transactions are in
commit order, each stored transaction is either still waiting or was handed
over exactly once, it waits only for a snapshot that may need it (or because
the commit ids ran out), and once handed over it lies below the bound of
every transaction active then or later. -/
theorem manager_gc_safe (r : ManagerRun) (hr : managerLts.Reachable r) :
    (∀ a ∈ r.manager.activeTransactions,
      r.manager.lowestVisibilityBound.value ≤ a.view.visibilityBound.value) ∧
    r.manager.recentlyCommittedTransactions.Pairwise
      (fun t t' => t.commitId < t'.commitId) ∧
    (∀ t ∈ r.manager.recentlyCommittedTransactions, t.transactionId ∈ r.stored) ∧
    (∀ i ∈ r.stored,
      (idsOf r.manager.recentlyCommittedTransactions).count i +
        (handedIds r.handed).count i = 1) ∧
    (∀ t ∈ r.manager.recentlyCommittedTransactions, t.commitId ≤ maxCommitId →
      ∃ a ∈ r.manager.activeTransactions, a.view.visibilityBound.value ≤ t.commitId) ∧
    (∀ info ∈ r.handed, ∀ t ∈ info.transactions, t.transactionId ∈ r.stored →
      ∀ r', managerLts.Leads r r' → ∀ a ∈ r'.manager.activeTransactions,
        t.commitId < a.view.visibilityBound.value) := by
  have h := managerInv_of_reachable hr
  refine ⟨h.lowest_le, h.recent_sorted, h.recent_stored, h.stored_once, ?_, ?_⟩
  · intro t ht hle
    rcases h.recent_needed t ht with hmax | hneed
    · omega
    · exact hneed
  · intro info hinfo t ht hst r' hl a ha
    -- infos and stored ids are only ever appended to, so both facts last to `r'`
    have hkeep : (info ∈ r'.handed ∧ t.transactionId ∈ r'.stored) ∧ managerLts.Reachable r' := by
      refine hl.invariant (I := fun r => info ∈ r.handed ∧ t.transactionId ∈ r.stored)
        ?_ hr ⟨hinfo, hst⟩
      rintro s op s' - ⟨hi, ht⟩ (hs : ManagerStep s op s')
      cases hs <;> simp [hi, ht]
    exact ((managerInv_of_reachable hkeep.2).handed_lt info hkeep.1.1 t ht hkeep.1.2).2 a ha

theorem ManagerStep.reachable {r' : ManagerRun} {op : ManagerOp} (h : managerLts.Reachable r)
    (hs : ManagerStep r op r') : managerLts.Reachable r' :=
  h.step hs

/-- Two transactions: the first commits an update while the second is active
and has to wait; the rollback of the second hands it over. -/
theorem manager_gc_safe_two :
    ∃ r, managerLts.Reachable r ∧ r.stored = [transactionIdStart] ∧
      r.handed.length = 2 ∧
      (idsOf r.manager.recentlyCommittedTransactions).count transactionIdStart +
        (handedIds r.handed).count transactionIdStart = 1 := by
  let t₀ : DuckTransaction := ⟨2, ⟨transactionIdStart, .before 2⟩, 0, false⟩
  let t₁ : DuckTransaction := ⟨3, ⟨transactionIdStart + 1, .before 3⟩, 0, false⟩
  let p : CommitProperties := ⟨false, false, true, true, false, false, none, none⟩
  have h0 : managerLts.Reachable ⟨.initial, [], []⟩ := .init rfl
  have h1 := ManagerStep.reachable h0 (.start rfl)
  have h2 := ManagerStep.reachable h1 (.start rfl)
  have h3 := ManagerStep.reachable h2 (.commit (t := t₀) (p := p) (by decide) rfl)
  have h4 := ManagerStep.reachable h3 (show ManagerStep _ (.rollback t₁ true) _ from
    .rollback (by decide))
  exact ⟨_, h4, by decide, by decide,
    (manager_gc_safe _ h4).2.2.2.1 transactionIdStart (by decide)⟩

end MiniDuck
