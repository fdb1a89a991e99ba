import MiniDuck.Lts

/-!
# The storage lock

`StorageLockInternals` is a read-write lock of four counters under a
mutex. Each function of `storage_lock.cpp` is one or two sections that
run under the mutex; a blocking call registers in its first section and
acquires in a later one, in which its wait condition holds. `lockStep`
runs one section of some thread, `storageLockLts` all interleavings.

The counters are tied to the keys in use by `LockInv`: `readCount` counts
the shared keys, `writerActive` says whether there is an exclusive key,
and `writerTickets` is ahead of `writersDone` by the writers that wait or
hold a key. `LockInv.step` goes through the sections;
`storageLock_sound` is what it means for the keys and the waiting
threads of a reachable state.
-/

namespace MiniDuck

inductive StorageLockType
  | shared
  | exclusive
  deriving Repr, DecidableEq

/-- `StorageLockInternals`. The ticket counters are 64 bits wide, far more than
the writers of any run. -/
structure StorageLockInternals where
  readCount : Nat
  writerActive : Bool
  writerTickets : Nat
  writersDone : Nat
  deriving Repr, DecidableEq

namespace StorageLockInternals

def start : StorageLockInternals := ⟨0, false, 0, 0⟩

/-- `GetExclusiveLock` up to its wait. -/
def registerExclusive (l : StorageLockInternals) : StorageLockInternals :=
  { l with writerTickets := l.writerTickets + 1 }

/-- What `GetExclusiveLock` waits for. -/
def exclusiveReady (l : StorageLockInternals) : Bool :=
  !l.writerActive && l.readCount == 0

/-- `GetExclusiveLock` after its wait. -/
def acquireExclusive (l : StorageLockInternals) : StorageLockInternals :=
  { l with writerActive := true }

/-- What `GetSharedLock` waits for, with the tickets it has read at its start. -/
def sharedReady (l : StorageLockInternals) (target : Nat) : Bool :=
  !l.writerActive && decide (l.writersDone ≥ target)

/-- `GetSharedLock` after its wait. -/
def acquireShared (l : StorageLockInternals) : StorageLockInternals :=
  { l with readCount := l.readCount + 1 }

/-- `TryGetExclusiveLock`; `none` where the source returns `nullptr`. -/
def tryGetExclusiveLock (l : StorageLockInternals) : Option StorageLockInternals :=
  if l.writerActive || l.readCount != 0 then none
  else some { l with writerTickets := l.writerTickets + 1, writerActive := true }

/-- The text of the exception of `TryUpgradeCheckpointLock`. -/
def upgradeOfExclusive : String :=
  "StorageLock::TryUpgradeLock called on an exclusive lock"

/-- `TryUpgradeCheckpointLock` on a key of the given type. -/
def tryUpgradeCheckpointLock (l : StorageLockInternals) (type : StorageLockType) :
    Except String (Option StorageLockInternals) :=
  if type ≠ .shared then .error upgradeOfExclusive
  else if l.writerActive || l.readCount != 1 then .ok none
  else .ok (some { l with writerTickets := l.writerTickets + 1, writerActive := true })

/-- `ReleaseExclusiveLock`, with whether it notifies the waiting threads. -/
def releaseExclusiveLock (l : StorageLockInternals) : StorageLockInternals × Bool :=
  ({ l with writerActive := false, writersDone := l.writersDone + 1 }, true)

/-- `ReleaseSharedLock`, with whether it notifies the waiting threads. -/
def releaseSharedLock (l : StorageLockInternals) : StorageLockInternals × Bool :=
  let l' := { l with readCount := l.readCount - 1 }
  (l', l'.readCount == 0)

def release (l : StorageLockInternals) : StorageLockType → StorageLockInternals × Bool
  | .exclusive => l.releaseExclusiveLock
  | .shared => l.releaseSharedLock

end StorageLockInternals

/-! ## Threads -/

/-- A `StorageLockKey`, with the thread that got it. Whether it came from an
upgrade is for the proofs only. -/
structure StorageLockKey (T : Type) where
  owner : T
  type : StorageLockType
  upgraded : Bool
  deriving Repr, DecidableEq

/-- A thread between the two sections of a blocking call. -/
inductive Waiter (T : Type)
  | exclusive (t : T)
  | shared (t : T) (target : Nat)
  deriving Repr, DecidableEq

def Waiter.thread {T : Type} : Waiter T → T
  | .exclusive t => t
  | .shared t _ => t

def Waiter.ready {T : Type} (l : StorageLockInternals) : Waiter T → Bool
  | .exclusive _ => l.exclusiveReady
  | .shared _ target => l.sharedReady target

/-- The lock with the threads that wait for it and the keys in use. -/
structure LockState (T : Type) where
  internals : StorageLockInternals
  waiting : List (Waiter T)
  held : List (StorageLockKey T)
  deriving Repr, DecidableEq

inductive LockOp (T : Type)
  | registerExclusive (t : T)
  | registerShared (t : T)
  | acquire (w : Waiter T)
  | tryGetExclusive (t : T)
  | tryUpgradeCheckpoint (key : StorageLockKey T)
  | release (key : StorageLockKey T)

section Steps

variable {T : Type} [DecidableEq T]

/-- A thread that is not blocked in `GetExclusiveLock` or `GetSharedLock`. -/
def LockState.Running (s : LockState T) (t : T) : Prop :=
  ∀ w ∈ s.waiting, w.thread ≠ t

instance (s : LockState T) (t : T) : Decidable (s.Running t) :=
  inferInstanceAs (Decidable (∀ w ∈ s.waiting, w.thread ≠ t))

def LockState.acquire (s : LockState T) : Waiter T → LockState T
  | .exclusive t =>
      ⟨s.internals.acquireExclusive, s.waiting.erase (.exclusive t),
        ⟨t, .exclusive, false⟩ :: s.held⟩
  | .shared t target =>
      ⟨s.internals.acquireShared, s.waiting.erase (.shared t target),
        ⟨t, .shared, false⟩ :: s.held⟩

/-- Runs one section, `none` if no thread can run it now. A key is released by
whoever has it. -/
def lockStep (s : LockState T) : LockOp T → Option (LockState T)
  | .registerExclusive t =>
      if s.Running t then
        some ⟨s.internals.registerExclusive, .exclusive t :: s.waiting, s.held⟩
      else none
  | .registerShared t =>
      if s.Running t then
        some ⟨s.internals, .shared t s.internals.writerTickets :: s.waiting, s.held⟩
      else none
  | .acquire w =>
      if w ∈ s.waiting ∧ w.ready s.internals then some (s.acquire w) else none
  | .tryGetExclusive t =>
      if s.Running t then
        match s.internals.tryGetExclusiveLock with
        | none => some s
        | some l => some ⟨l, s.waiting, ⟨t, .exclusive, false⟩ :: s.held⟩
      else none
  | .tryUpgradeCheckpoint key =>
      if s.Running key.owner ∧ key ∈ s.held then
        match s.internals.tryUpgradeCheckpointLock key.type with
        | .ok (some l) => some ⟨l, s.waiting, ⟨key.owner, .exclusive, true⟩ :: s.held⟩
        | _ => some s
      else none
  | .release key =>
      if key ∈ s.held then
        some ⟨(s.internals.release key.type).1, s.waiting, s.held.erase key⟩
      else none

end Steps

def storageLockLts (T : Type) [DecidableEq T] : Lts (LockState T) (LockOp T) where
  init s := s = ⟨.start, [], []⟩
  step s op t := lockStep s op = some t

/-! ## The counters and the keys -/

def StorageLockKey.isExclusive {T : Type} (key : StorageLockKey T) : Bool :=
  decide (key.type = .exclusive)

def StorageLockKey.isShared {T : Type} (key : StorageLockKey T) : Bool :=
  decide (key.type = .shared)

def Waiter.isExclusive {T : Type} : Waiter T → Bool
  | .exclusive _ => true
  | .shared _ _ => false

/-- What the counters say about the keys in use and the waiting threads. -/
structure LockInv {T : Type} (s : LockState T) : Prop where
  readers : s.held.countP StorageLockKey.isShared = s.internals.readCount
  writers : s.held.countP StorageLockKey.isExclusive = s.internals.writerActive.toNat
  tickets : s.internals.writersDone + s.waiting.countP Waiter.isExclusive +
    s.internals.writerActive.toNat = s.internals.writerTickets
  targets : ∀ t target, Waiter.shared t target ∈ s.waiting →
    target ≤ s.internals.writerTickets
  drained : s.internals.writerActive = true → s.internals.readCount ≤ 1
  upgraded : ∀ key ∈ s.held, key.type = .exclusive → ∀ j ∈ s.held, j.type = .shared →
    key.upgraded = true ∧ j.owner = key.owner

theorem countP_erase_add {α : Type} [DecidableEq α] (p : α → Bool) {l : List α} {a : α}
    (ha : a ∈ l) : (l.erase a).countP p + (p a).toNat = l.countP p := by
  rw [(List.perm_cons_erase ha).countP_eq p, List.countP_cons]
  cases p a <;> rfl

theorem countP_cons_add {α : Type} (p : α → Bool) (l : List α) (a : α) :
    (a :: l).countP p = l.countP p + (p a).toNat := by
  rw [List.countP_cons]
  cases p a <;> rfl

theorem exclusiveReady_iff (l : StorageLockInternals) :
    l.exclusiveReady = true ↔ l.writerActive = false ∧ l.readCount = 0 := by
  simp [StorageLockInternals.exclusiveReady]

theorem sharedReady_iff (l : StorageLockInternals) (target : Nat) :
    l.sharedReady target = true ↔ l.writerActive = false ∧ target ≤ l.writersDone := by
  simp [StorageLockInternals.sharedReady]

namespace LockInv

section

variable {T : Type} {s : LockState T}

theorem start : LockInv (⟨.start, [], []⟩ : LockState T) := by
  constructor <;> simp [StorageLockInternals.start]

theorem no_exclusive (h : LockInv s) (hw : s.internals.writerActive = false) :
    ∀ key ∈ s.held, key.type ≠ .exclusive := by
  have hzero := h.writers
  rw [hw, Bool.toNat_false, List.countP_eq_zero] at hzero
  intro key hkey htype
  exact hzero key hkey (decide_eq_true htype)

theorem no_shared (h : LockInv s) (hr : s.internals.readCount = 0) :
    ∀ key ∈ s.held, key.type ≠ .shared := by
  have hzero := h.readers
  rw [hr, List.countP_eq_zero] at hzero
  intro key hkey htype
  exact hzero key hkey (decide_eq_true htype)

theorem registerExclusive (h : LockInv s) (t : T) :
    LockInv ⟨s.internals.registerExclusive, .exclusive t :: s.waiting, s.held⟩ := by
  refine ⟨h.readers, h.writers, ?_, ?_, h.drained, h.upgraded⟩
  · have htickets := h.tickets
    simp only [StorageLockInternals.registerExclusive, countP_cons_add, Waiter.isExclusive,
      Bool.toNat_true]
    omega
  · intro t' target hm
    rcases List.mem_cons.1 hm with he | hm
    · cases he
    · exact Nat.le_succ_of_le (h.targets t' target hm)

theorem registerShared (h : LockInv s) (t : T) :
    LockInv ⟨s.internals, .shared t s.internals.writerTickets :: s.waiting, s.held⟩ := by
  refine ⟨h.readers, h.writers, ?_, ?_, h.drained, h.upgraded⟩
  · have htickets := h.tickets
    simp only [countP_cons_add, Waiter.isExclusive, Bool.toNat_false]
    omega
  · intro t' target hm
    rcases List.mem_cons.1 hm with he | hm
    · cases he
      exact Nat.le_refl _
    · exact h.targets t' target hm

/-- An exclusive key taken without a wait, over a shared key of the same
thread at most. -/
theorem takeExclusive (h : LockInv s) {t : T} {upgraded : Bool}
    (hw : s.internals.writerActive = false) (hr : s.internals.readCount ≤ 1)
    (hup : ∀ j ∈ s.held, j.type = .shared → upgraded = true ∧ j.owner = t) :
    LockInv ⟨{ s.internals with
      writerTickets := s.internals.writerTickets + 1, writerActive := true },
      s.waiting, ⟨t, .exclusive, upgraded⟩ :: s.held⟩ := by
  have hwriters := h.writers
  have htickets := h.tickets
  rw [hw, Bool.toNat_false] at hwriters htickets
  refine ⟨?_, ?_, ?_, ?_, fun _ => hr, ?_⟩
  · rw [countP_cons_add]
    exact h.readers
  · rw [countP_cons_add, hwriters]
    rfl
  · simp only [Bool.toNat_true]
    omega
  · intro t' target hm
    exact Nat.le_succ_of_le (h.targets t' target hm)
  · intro key hkey htype j hj hshared
    rcases List.mem_cons.1 hkey with rfl | hkey
    · rcases List.mem_cons.1 hj with rfl | hj
      · cases hshared
      · exact hup j hj hshared
    · exact absurd htype (h.no_exclusive hw key hkey)

/-- With no key in use some waiting thread can go on: a writer if there is
one, and else every reader. -/
theorem someone_ready (h : LockInv s) (hheld : s.held = []) (hwait : s.waiting ≠ []) :
    ∃ w ∈ s.waiting, w.ready s.internals = true := by
  have hreaders := h.readers
  have hwriters := h.writers
  rw [hheld, List.countP_nil] at hreaders hwriters
  have hactive : s.internals.writerActive = false := by
    cases hw : s.internals.writerActive with
    | false => rfl
    | true =>
        rw [hw] at hwriters
        cases hwriters
  by_cases hwriter : ∃ t, Waiter.exclusive t ∈ s.waiting
  · obtain ⟨t, ht⟩ := hwriter
    exact ⟨_, ht, (exclusiveReady_iff _).2 ⟨hactive, hreaders.symm⟩⟩
  · obtain ⟨w, hw⟩ := List.exists_mem_of_ne_nil _ hwait
    cases w with
    | exclusive t => exact absurd ⟨t, hw⟩ hwriter
    | shared t target =>
        have hnone : s.waiting.countP Waiter.isExclusive = 0 := by
          rw [List.countP_eq_zero]
          intro w hw
          cases w with
          | exclusive t => exact absurd ⟨t, hw⟩ hwriter
          | shared t target => simp [Waiter.isExclusive]
        have htickets := h.tickets
        rw [hnone, hactive, Bool.toNat_false] at htickets
        have htarget := h.targets t target hw
        exact ⟨_, hw, (sharedReady_iff _ _).2 ⟨hactive, by omega⟩⟩

end

variable {T : Type} [DecidableEq T] {s : LockState T}

theorem acquireExclusive (h : LockInv s) {t : T} (ht : Waiter.exclusive t ∈ s.waiting)
    (hready : s.internals.exclusiveReady = true) :
    LockInv (s.acquire (.exclusive t)) := by
  obtain ⟨hw, hr⟩ := (exclusiveReady_iff _).1 hready
  refine ⟨?_, ?_, ?_, ?_, ?_, ?_⟩
  · rw [LockState.acquire, countP_cons_add]
    exact h.readers
  · have hwriters := h.writers
    rw [hw, Bool.toNat_false] at hwriters
    rw [LockState.acquire, countP_cons_add, hwriters]
    rfl
  · have htickets := h.tickets
    rw [← countP_erase_add Waiter.isExclusive ht, hw] at htickets
    simp only [Waiter.isExclusive, Bool.toNat_true, Bool.toNat_false] at htickets
    simp only [LockState.acquire, StorageLockInternals.acquireExclusive, Bool.toNat_true]
    omega
  · intro t' target hm
    exact h.targets t' target (List.mem_of_mem_erase hm)
  · intro _
    show s.internals.readCount ≤ 1
    omega
  · intro key hkey htype j hj hshared
    rcases List.mem_cons.1 hj with rfl | hj
    · cases hshared
    · exact absurd hshared (h.no_shared hr j hj)

theorem acquireShared (h : LockInv s) {t : T} {target : Nat}
    (ht : Waiter.shared t target ∈ s.waiting)
    (hready : s.internals.sharedReady target = true) :
    LockInv (s.acquire (.shared t target)) := by
  obtain ⟨hw, -⟩ := (sharedReady_iff _ _).1 hready
  refine ⟨?_, ?_, ?_, ?_, ?_, ?_⟩
  · rw [LockState.acquire, countP_cons_add, h.readers]
    rfl
  · rw [LockState.acquire, countP_cons_add]
    exact h.writers
  · have htickets := h.tickets
    rw [← countP_erase_add Waiter.isExclusive ht] at htickets
    exact htickets
  · intro t' target' hm
    exact h.targets t' target' (List.mem_of_mem_erase hm)
  · intro hactive
    have hactive : s.internals.writerActive = true := hactive
    rw [hw] at hactive
    cases hactive
  · intro key hkey htype
    rcases List.mem_cons.1 hkey with rfl | hkey
    · cases htype
    · exact absurd htype (h.no_exclusive hw key hkey)

variable {key : StorageLockKey T}

theorem release (h : LockInv s) (hkey : key ∈ s.held) :
    LockInv ⟨(s.internals.release key.type).1, s.waiting, s.held.erase key⟩ := by
  have hreaders := h.readers
  have hwriters := h.writers
  have htickets := h.tickets
  rw [← countP_erase_add _ hkey] at hreaders hwriters
  have hkeep : ∀ k ∈ s.held.erase key, k.type = .exclusive → ∀ j ∈ s.held.erase key,
      j.type = .shared → k.upgraded = true ∧ j.owner = k.owner := by
    intro k hk htype j hj hshared
    exact h.upgraded k (List.mem_of_mem_erase hk) htype j (List.mem_of_mem_erase hj) hshared
  cases htype : key.type with
  | shared =>
      simp only [StorageLockKey.isShared, StorageLockKey.isExclusive, htype, decide_true,
        reduceCtorEq, decide_false, Bool.toNat_true, Bool.toNat_false] at hreaders hwriters
      refine ⟨?_, hwriters, htickets, h.targets, ?_, hkeep⟩
      · simp only [StorageLockInternals.release, StorageLockInternals.releaseSharedLock]
        omega
      · intro hactive
        exact Nat.le_trans (Nat.sub_le _ 1) (h.drained hactive)
  | exclusive =>
      simp only [StorageLockKey.isShared, StorageLockKey.isExclusive, htype, decide_true,
        reduceCtorEq, decide_false, Bool.toNat_true, Bool.toNat_false] at hreaders hwriters
      have hactive : s.internals.writerActive = true := by
        cases hw : s.internals.writerActive with
        | true => rfl
        | false =>
            rw [hw, Bool.toNat_false] at hwriters
            omega
      rw [hactive, Bool.toNat_true] at hwriters htickets
      refine ⟨hreaders, ?_, ?_, h.targets, ?_, hkeep⟩
      · simp only [StorageLockInternals.release, StorageLockInternals.releaseExclusiveLock,
          Bool.toNat_false]
        omega
      · simp only [StorageLockInternals.release, StorageLockInternals.releaseExclusiveLock,
          Bool.toNat_false]
        omega
      · intro hfalse
        cases hfalse

/-- The only shared key is the one the caller upgrades. -/
theorem sole_reader (h : LockInv s) (hkey : key ∈ s.held) (htype : key.type = .shared)
    (hr : s.internals.readCount = 1) : ∀ j ∈ s.held, j.type = .shared → j = key := by
  have hreaders := h.readers
  have hself : key.isShared = true := decide_eq_true htype
  rw [← countP_erase_add _ hkey, hr, hself, Bool.toNat_true] at hreaders
  have hzero : (s.held.erase key).countP StorageLockKey.isShared = 0 := by omega
  rw [List.countP_eq_zero] at hzero
  intro j hj hshared
  by_contra hne
  exact hzero j ((List.mem_erase_of_ne hne).2 hj) (decide_eq_true hshared)

theorem step (h : LockInv s) {op : LockOp T} {t : LockState T}
    (hstep : lockStep s op = some t) : LockInv t := by
  cases op with
  | registerExclusive i =>
      rw [lockStep, Option.ite_none_right_eq_some] at hstep
      cases hstep.2
      exact h.registerExclusive i
  | registerShared i =>
      rw [lockStep, Option.ite_none_right_eq_some] at hstep
      cases hstep.2
      exact h.registerShared i
  | acquire w =>
      rw [lockStep, Option.ite_none_right_eq_some] at hstep
      obtain ⟨⟨hw, hready⟩, heq⟩ := hstep
      cases heq
      cases w with
      | exclusive i => exact h.acquireExclusive hw hready
      | shared i target => exact h.acquireShared hw hready
  | tryGetExclusive i =>
      rw [lockStep, Option.ite_none_right_eq_some] at hstep
      have heq := hstep.2
      rw [StorageLockInternals.tryGetExclusiveLock] at heq
      by_cases hbusy : (s.internals.writerActive || s.internals.readCount != 0) = true
      · rw [if_pos hbusy] at heq
        cases heq
        exact h
      · rw [if_neg hbusy] at heq
        cases heq
        rw [Bool.or_eq_true, not_or, Bool.not_eq_true, bne_iff_ne, not_not] at hbusy
        refine h.takeExclusive hbusy.1 (by omega) ?_
        intro j hj hshared
        exact absurd hshared (h.no_shared hbusy.2 j hj)
  | tryUpgradeCheckpoint key =>
      rw [lockStep, Option.ite_none_right_eq_some] at hstep
      obtain ⟨⟨-, hkey⟩, heq⟩ := hstep
      rw [StorageLockInternals.tryUpgradeCheckpointLock] at heq
      by_cases htype : key.type ≠ .shared
      · rw [if_pos htype] at heq
        cases heq
        exact h
      · rw [if_neg htype] at heq
        by_cases hbusy : (s.internals.writerActive || s.internals.readCount != 1) = true
        · rw [if_pos hbusy] at heq
          cases heq
          exact h
        · rw [if_neg hbusy] at heq
          cases heq
          rw [Bool.or_eq_true, not_or, Bool.not_eq_true, bne_iff_ne, not_not] at hbusy
          refine h.takeExclusive hbusy.1 (by omega) ?_
          intro j hj hshared
          refine ⟨rfl, ?_⟩
          rw [h.sole_reader hkey (not_not.1 htype) hbusy.2 j hj hshared]
  | release key =>
      rw [lockStep, Option.ite_none_right_eq_some] at hstep
      cases hstep.2
      exact h.release hstep.1

theorem of_reachable (h : (storageLockLts T).Reachable s) : LockInv s := by
  refine h.invariant ?_ fun _ _ _ _ hinv hstep => hinv.step hstep
  intro s hinit
  have hs : s = ⟨.start, [], []⟩ := hinit
  rw [hs]
  exact start

theorem beside_exclusive (h : LockInv s) (hkey : key ∈ s.held) (htype : key.type = .exclusive) :
    s.held.erase key = [] ∨ ∃ j, s.held.erase key = [j] ∧ j.type = .shared ∧
      j.owner = key.owner ∧ key.upgraded = true := by
  have hactive : s.internals.writerActive = true := by
    cases hw : s.internals.writerActive with
    | true => rfl
    | false => exact absurd htype (h.no_exclusive hw key hkey)
  have hwriters := h.writers
  rw [← countP_erase_add _ hkey, StorageLockKey.isExclusive, htype, hactive] at hwriters
  have hnone : (s.held.erase key).countP StorageLockKey.isExclusive = 0 :=
    Nat.add_right_cancel (hwriters.trans (Nat.zero_add _).symm)
  rw [List.countP_eq_zero] at hnone
  have hshared : ∀ j ∈ s.held.erase key, j.type = .shared := by
    intro j hj
    cases hj' : j.type with
    | shared => rfl
    | exclusive => exact absurd (decide_eq_true hj') (hnone j hj)
  have hlen : (s.held.erase key).length ≤ 1 := by
    have hcount : (s.held.erase key).countP StorageLockKey.isShared =
        (s.held.erase key).length :=
      List.countP_eq_length.2 fun j hj => decide_eq_true (hshared j hj)
    have hreaders := h.readers
    rw [← countP_erase_add _ hkey] at hreaders
    have := h.drained hactive
    omega
  rcases hrest : s.held.erase key with _ | ⟨j, rest⟩
  · exact Or.inl rfl
  · have hj : j ∈ s.held.erase key := by simp [hrest]
    have hempty : rest = [] := by
      rw [hrest, List.length_cons] at hlen
      exact List.eq_nil_of_length_eq_zero (by omega)
    obtain ⟨hup, howner⟩ := h.upgraded key hkey htype j (List.mem_of_mem_erase hj) (hshared j hj)
    exact Or.inr ⟨j, by rw [hempty], hshared j hj, howner, hup⟩

end LockInv

/-! ## Runs -/

/-- Mutual exclusion, the ticket count, and progress, in every state any
threads can bring the lock to. -/
theorem storageLock_sound {T : Type} [DecidableEq T] {s : LockState T}
    (h : (storageLockLts T).Reachable s) :
    (∀ key ∈ s.held, key.type = .exclusive →
      s.held.erase key = [] ∨ ∃ j, s.held.erase key = [j] ∧ j.type = .shared ∧
        j.owner = key.owner ∧ key.upgraded = true) ∧
    (s.internals.writersDone ≤ s.internals.writerTickets ∧
      s.internals.writerTickets - s.internals.writersDone =
        s.waiting.countP Waiter.isExclusive + s.internals.writerActive.toNat ∧
      s.held.countP StorageLockKey.isExclusive = s.internals.writerActive.toNat) ∧
    (s.held = [] → s.waiting ≠ [] → ∃ w ∈ s.waiting, w.ready s.internals = true) := by
  have hinv := LockInv.of_reachable h
  have htickets := hinv.tickets
  refine ⟨fun key hkey htype => hinv.beside_exclusive hkey htype, ⟨by omega, by omega, hinv.writers⟩, ?_⟩
  exact hinv.someone_ready

theorem reachable_of_foldlM {T : Type} [DecidableEq T] {s t : LockState T} (ops : List (LockOp T))
    (h : (storageLockLts T).Reachable s) (hrun : ops.foldlM lockStep s = some t) :
    (storageLockLts T).Reachable t :=
  .of_foldlM (fun _ _ _ hstep => hstep) ops h hrun

/-- A thread has upgraded its key while a writer and a reader wait. -/
def upgradedState : LockState Nat :=
  ⟨⟨1, true, 2, 0⟩, [.shared 2 2, .exclusive 1],
    [⟨0, .exclusive, true⟩, ⟨0, .shared, false⟩]⟩

theorem storageLock_sound_upgraded :
    upgradedState.internals.writerTickets - upgradedState.internals.writersDone =
      upgradedState.waiting.countP Waiter.isExclusive +
        upgradedState.internals.writerActive.toNat := by
  have hreach : (storageLockLts Nat).Reachable upgradedState :=
    reachable_of_foldlM
      [.registerShared 0, .acquire (.shared 0 0), .tryUpgradeCheckpoint ⟨0, .shared, false⟩,
        .registerExclusive 1, .registerShared 2]
      (.init rfl) rfl
  exact (storageLock_sound hreach).2.1.2.1

end MiniDuck
