import MiniDuck.Lts
import MiniDuck.MergePath

/-!
# The parallel merge of sorted runs

`SortedRunMerger` hands out partitions of `partition_size` rows to its
workers. A worker computes the end boundaries of its partition, acquires
the begin boundaries, merges, scans, and in an external sort destroys
what every worker is done with.

The workers share `MergerGlobalState` and run in any interleaving. A
`Stage` is a point of `ExecuteTask` where another worker may act: what a
stage does under one lock, or with one access to an atomic, is one step
(`executeTask`). The loops over unlocked data, the merge path and the
scan, take a step per iteration.

A worker may read keys while it stands at a stage (`Stage.Reads`), at
any time until its next step.
-/

namespace MiniDuck

/-- `SortedRunMerger`, with the number of threads of the scheduler and
the number of local states that take part. -/
structure SortedRunMerger (κ : Type) [LinearOrder κ] where
  numRuns : Nat
  sortedRuns : Fin numRuns → SortedRun κ
  partitionSize : Nat
  partitionSize_pos : 0 < partitionSize
  external : Bool
  isIndexSort : Bool
  numThreads : Nat
  tuplesPerBlock : Nat
  numWorkers : Nat

variable {κ : Type} [LinearOrder κ]

structure MergePartition (n : Nat) where
  runBoundaries : Fin n → Boundary
  beginComputed : Bool
  scanned : Bool

namespace MergePartition

variable {n : Nat}

def setBegin (partition : MergePartition n) (b : Fin n → Boundary) : MergePartition n :=
  if partition.beginComputed then partition
  else
    { partition with
      runBoundaries := fun i => ⟨(b i).beginIdx, (partition.runBoundaries i).endIdx⟩
      beginComputed := true }

def setEnd (partition : MergePartition n) (b : Fin n → Boundary) : MergePartition n :=
  { partition with
    runBoundaries := fun i => ⟨(partition.runBoundaries i).beginIdx, (b i).endIdx⟩ }

def setScanned (partition : MergePartition n) : MergePartition n :=
  { partition with scanned := true }

end MergePartition

/-- The arguments of one call of `DestroyData`. -/
structure DestroyedRange (n : Nat) where
  run : Fin n
  beginIdx : Nat
  endIdx : Nat
deriving DecidableEq

/-- `DestroyData` frees whole chunks. -/
def DestroyedRange.freesRow {n : Nat} (r : DestroyedRange n) (x : Nat) : Prop :=
  r.beginIdx / 2048 ≤ x / 2048 ∧ x / 2048 < r.endIdx / 2048

/-- Where a worker stands within `ExecuteTask`. The stages up to `store`
belong to `ComputePartitionBoundaries` for partition `p`. -/
inductive Stage (κ : Type) (n : Nat)
  | compute (p : Nat)
  | search (p prev : Nat) (b : Fin n → Boundary)
  | fetch (p prev : Nat) (b : Fin n → Boundary)
  | path (p : Nat) (st : PathState n)
  | check (p : Nat) (b : Fin n → Boundary)
  | publish (p : Nat) (b : Fin n → Boundary)
  | store (p : Nat) (b : Fin n → Boundary)
  | acquire
  | copy
  | merge (b : Fin n → Boundary)
  | scan (b : Fin n → Boundary) (keys : List κ) (index : Nat)
  | destroyScanned
  | countScanned (e : Nat)
  | readBegin (e i : Nat)
  | readEnd (e : Nat) (i : Fin n) (beginIdx : Nat)
  | destroyData (e : Nat) (i : Fin n) (beginIdx endIdx : Nat)
  | finish

/-- The positions whose keys a worker may read at a stage. The scan
reads the payload of the rows it has merged. -/
def Stage.Reads {n : Nat} : Stage κ n → Fin n → Nat → Prop
  | .path _ st, i, x => st.remaining ≠ 0 ∧ i ∈ st.active ∧ x = st.probe i
  | .merge b, i, x => (b i).beginIdx ≤ x ∧ x < (b i).endIdx
  | .scan b _ _, i, x => (b i).beginIdx ≤ x ∧ x < (b i).endIdx
  | _, _, _ => False

def Stage.acquired {n : Nat} : Stage κ n → Option (Fin n → Boundary)
  | .merge b => some b
  | .scan b _ _ => some b
  | _ => none

namespace SortedRunMerger

variable (m : SortedRunMerger κ)

def numPartitions : Nat := (totalCount m.sortedRuns + (m.partitionSize - 1)) / m.partitionSize

structure GlobalState (m : SortedRunMerger κ) where
  nextPartitionIdx : Nat
  partitions : Nat → MergePartition m.numRuns
  destroyLock : Option (Fin m.numWorkers)
  destroyPartitionIdx : Nat
  destroyed : List (DestroyedRange m.numRuns)

/-- A local state that has a partition: its index and the stage. -/
structure Task (m : SortedRunMerger κ) where
  partitionIdx : Nat
  stage : Stage κ m.numRuns

structure State (m : SortedRunMerger κ) where
  globalState : GlobalState m
  workers : Fin m.numWorkers → Option (Task m)

/-- The constructor of `SortedRunMergePartition`. -/
def initialPartition (p : Nat) : MergePartition m.numRuns where
  runBoundaries i := ⟨0, min (m.sortedRuns i).count ((p + 1) * m.partitionSize)⟩
  beginComputed := p == 0
  scanned := false

def initial : State m where
  globalState :=
    { nextPartitionIdx := 0
      partitions := m.initialPartition
      destroyLock := none
      destroyPartitionIdx := 0
      destroyed := [] }
  workers _ := none

/-- What a worker does with partition `p` under its lock. -/
def GlobalState.modify {m : SortedRunMerger κ} (g : GlobalState m) (p : Nat)
    (f : MergePartition m.numRuns → MergePartition m.numRuns) : GlobalState m :=
  { g with partitions := Function.update g.partitions p (f (g.partitions p)) }

/-- `TemplatedComputePartitionBoundaries` up to its loop. The boundary
of the last partition is the end of each run. -/
def beginPath (p : Nat) (b : Fin m.numRuns → Boundary) : Stage κ m.numRuns :=
  if p = m.numPartitions - 1 then
    .check p fun i => { b i with beginIdx := (m.sortedRuns i).count }
  else .path p (PathState.start b ((p + 1) * m.partitionSize))

/-- `TemplatedMergePartition`: the keys of every run one after the
other, sorted unless one run has them all. -/
def mergePartition (b : Fin m.numRuns → Boundary) : List κ :=
  let keys := (List.finRange m.numRuns).flatMap fun i =>
    (List.range' (b i).beginIdx ((b i).endIdx - (b i).beginIdx)).map (m.sortedRuns i).key
  let activeRuns := (List.finRange m.numRuns).countP fun i => (b i).beginIdx ≠ (b i).endIdx
  if activeRuns = 1 ∨ m.isIndexSort then keys else keys.mergeSort (· ≤ ·)

/-- How many blocks a partition may destroy when partitions up to `e`
are done with, `0` when it is not worth it. -/
def blocksToDestroy (destroyIdx e : Nat) : Nat :=
  (e - destroyIdx) * m.partitionSize / m.numPartitions / m.tuplesPerBlock

/-- `ExecuteTask` for partition `q`, one step from a stage. `none` is the
`FINISHED` task. -/
def executeTask (g : GlobalState m) (w : Fin m.numWorkers) (chunk : Bool) (q : Nat) :
    Stage κ m.numRuns → GlobalState m × Option (Stage κ m.numRuns)
  | .compute p =>
      if (g.partitions p).beginComputed then
        (g, some (m.beginPath p (g.partitions p).runBoundaries))
      else (g, some (.search p p (g.partitions p).runBoundaries))
  | .search p prev b =>
      if 1 < prev then
        if (g.partitions (prev - 1)).beginComputed then (g, some (.fetch p prev b))
        else (g, some (.search p (prev - 1) b))
      else (g, some (m.beginPath p b))
  | .fetch p prev b =>
      (g, some (m.beginPath p fun i =>
        { b i with beginIdx := ((g.partitions (prev - 1)).runBoundaries i).beginIdx }))
  | .path p st =>
      if st.remaining = 0 then (g, some (.check p st.result))
      else
        match st.step m.sortedRuns with
        | none => (g, some (.path p st))
        | some st' => (g, some (.path p st'))
  | .check p b =>
      if p = m.numPartitions - 1 ∨ (g.partitions (p + 1)).beginComputed then
        (g, some (.store p b))
      else (g, some (.publish p b))
  | .publish p b => (g.modify (p + 1) (·.setBegin b), some (.store p b))
  | .store p b => (g.modify p (·.setEnd b), some (if p = q then .acquire else .copy))
  | .acquire =>
      if (g.partitions q).beginComputed then (g, some .copy) else (g, some (.compute (q - 1)))
  | .copy => (g, some (.merge (g.partitions q).runBoundaries))
  | .merge b => (g, some (.scan b (m.mergePartition b) 0))
  | .scan b keys index =>
      if chunk ∧ min (keys.length - index) 2048 ≠ 0 then
        (g, some (.scan b keys (index + min (keys.length - index) 2048)))
      else (g, some .destroyScanned)
  | .destroyScanned =>
      if m.external ∧ g.destroyLock = none then
        ({ g with destroyLock := some w }, some (.countScanned g.destroyPartitionIdx))
      else (g, some .finish)
  | .countScanned e =>
      if e < m.numPartitions ∧ (g.partitions e).scanned then (g, some (.countScanned (e + 1)))
      else if e < m.numThreads ∨ e - m.numThreads ≤ g.destroyPartitionIdx ∨
          m.blocksToDestroy g.destroyPartitionIdx (e - m.numThreads) = 0 then
        ({ g with destroyLock := none }, some .finish)
      else (g, some (.readBegin (e - m.numThreads) 0))
  | .readBegin e i =>
      if h : i < m.numRuns then
        (g, some (.readEnd e ⟨i, h⟩ (if g.destroyPartitionIdx ≠ 0 then
          ((g.partitions g.destroyPartitionIdx).runBoundaries ⟨i, h⟩).endIdx else 0)))
      else ({ g with destroyPartitionIdx := e, destroyLock := none }, some .finish)
  | .readEnd e i beginIdx =>
      (g, some (.destroyData e i beginIdx (if e ≠ m.numPartitions then
        ((g.partitions e).runBoundaries i).endIdx else (m.sortedRuns i).count)))
  | .destroyData e i beginIdx endIdx =>
      ({ g with destroyed := ⟨i, beginIdx, endIdx⟩ :: g.destroyed }, some (.readBegin e (i + 1)))
  | .finish => (g.modify q (·.setScanned), none)

/-- One step of worker `w`: `AssignTask` when it has no partition, else
`ExecuteTask`. `chunk` says whether the caller scans or materializes. -/
def step (s : State m) (w : Fin m.numWorkers) (chunk : Bool) : State m :=
  match s.workers w with
  | none =>
      if s.globalState.nextPartitionIdx = m.numPartitions then s
      else
        { globalState :=
            { s.globalState with nextPartitionIdx := s.globalState.nextPartitionIdx + 1 }
          workers := Function.update s.workers w
            (some ⟨s.globalState.nextPartitionIdx, .compute s.globalState.nextPartitionIdx⟩) }
  | some ⟨q, stage⟩ =>
      let r := m.executeTask s.globalState w chunk q stage
      { globalState := r.1
        workers := Function.update s.workers w (r.2.map (Task.mk q)) }

def lts : Lts (State m) (Fin m.numWorkers × Bool) where
  init s := s = m.initial
  step s l s' := s' = m.step s l.1 l.2

end SortedRunMerger

end MiniDuck
